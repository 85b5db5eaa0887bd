import Tempura.Base.Wire

namespace Tempura
open Base
set_option autoImplicit true

/-- Go's `int`: results wrap to 64 bits, two's complement. -/
def wrap64 (x : Int) : Int := x.bmod (2 ^ 64)

/-- `token[i:]`, or `none` for the bounds panic. -/
def sliceFrom (token : Bytes) (i : Int) : Option Bytes :=
  if 0 ≤ i ∧ i ≤ token.length then some (token.drop i.toNat) else none

/-- `token[i:j]`, or `none` for the bounds panic. -/
def sliceRange (token : Bytes) (i j : Int) : Option Bytes :=
  if 0 ≤ i ∧ i ≤ j ∧ j ≤ token.length then some ((token.drop i.toNat).take (j - i).toNat)
  else none

inductive TokenStep where
  | next (i : Int)
  | done (result : Outcome GoString)
  deriving DecidableEq

/-- Body of the loop of `extractWorkflowIDFromTaskToken` at index `i`. -/
def tokenStep (token : Bytes) (i : Int) : TokenStep :=
  match sliceFrom token i with
  | none => .done .panic
  | some buf =>
    let (tag, n) := uvarint buf
    if n ≤ 0 then .done (.err (lit "invalid varint at index " ++ itoa i.toNat))
    else
      let i := wrap64 (i + n)
      let fieldNum := tag >>> 3
      let wireType := tag &&& 7
      if wireType = 0 then
        match sliceFrom token i with
        | none => .done .panic
        | some buf =>
          let (_, n) := uvarint buf
          if n ≤ 0 then .done (.err (lit "invalid varint value")) else .next (wrap64 (i + n))
      else if wireType = 1 then .next (wrap64 (i + 8))
      else if wireType = 2 then
        match sliceFrom token i with
        | none => .done .panic
        | some buf =>
          let (length, n) := uvarint buf
          if n ≤ 0 then .done (.err (lit "invalid length value"))
          else
            let i := wrap64 (i + n)
            -- both conversions of the length keep its 64 bits and read them as signed
            let stop := wrap64 (i + wrap64 length)
            if fieldNum = 2 then
              if stop > token.length then
                .done (.err (lit "length-delimited field extends past end"))
              else
                match sliceRange token i stop with
                | none => .done .panic
                | some workflowID => .done (.ok workflowID)
            else .next stop
      else if wireType = 5 then .next (wrap64 (i + 4))
      else .done (.err (lit "unsupported wire type " ++ itoa wireType))

def extractLoop (token : Bytes) : Nat → Int → Outcome GoString
  | 0, _ => .hang
  | fuel + 1, i =>
    if i < token.length then
      match tokenStep token i with
      | .next i => extractLoop token fuel i
      | .done result => result
    else .err (lit "workflow_id (field 2) not found in TaskToken")

/-- A run of more passes than the token has bytes has repeated an index and never returns. -/
def extractWorkflowIDFromTaskToken (token : Bytes) : Outcome GoString :=
  extractLoop token (token.length + 1) 0

theorem wrap64_of_fits {x : Int} (hx : 0 ≤ x) (hlt : x < 2 ^ 63) : wrap64 x = x := by
  apply Int.bmod_eq_of_le <;> omega

theorem wrap64_natCast {n : Nat} (h : n < 2 ^ 63) : wrap64 (n : Int) = (n : Int) :=
  wrap64_of_fits (by omega) (by omega)

theorem sliceFrom_append (pre rest : Bytes) :
    sliceFrom (pre ++ rest) (pre.length : Int) = some rest := by
  rw [sliceFrom, if_pos, Int.toNat_natCast, List.drop_left]
  simp only [List.length_append]
  omega

theorem sliceRange_append (pre mid rest : Bytes) :
    sliceRange (pre ++ mid ++ rest) (pre.length : Int) ((pre ++ mid).length : Int) = some mid := by
  have hsub : (((pre ++ mid).length : Int) - (pre.length : Int)).toNat = mid.length := by
    simp only [List.length_append]
    omega
  rw [sliceRange, if_pos, hsub, Int.toNat_natCast, List.append_assoc, List.drop_left,
    List.take_left]
  simp only [List.length_append]
  omega

theorem shiftRight_three (num wt : Nat) (hwt : wt < 8) : (num * 8 + wt) >>> 3 = num := by
  rw [Nat.shiftRight_eq_div_pow]
  omega

theorem and_seven (num wt : Nat) (hwt : wt < 8) : (num * 8 + wt) &&& 7 = wt := by
  have h7 : (7 : Nat) = 2 ^ 3 - 1 := rfl
  rw [h7, Nat.and_two_pow_sub_one_eq_mod]
  omega

theorem wrap64_add_length (a b : Bytes) (h : (a ++ b).length < 2 ^ 63) :
    wrap64 ((a.length : Int) + (b.length : Int)) = ((a ++ b).length : Int) := by
  rw [List.length_append] at h ⊢
  rw [← Int.natCast_add]
  exact wrap64_natCast h

theorem tokenStep_field {f : WireField} (pre rest : Bytes) (hnum : f.num < 2 ^ 29)
    (htag : Varint tag (f.num * 8 + f.value.wireType)) (htl : tag.length ≤ 10)
    (hbody : f.value.Encodes body) (hlen : (pre ++ (tag ++ body ++ rest)).length < 2 ^ 63) :
    tokenStep (pre ++ (tag ++ body ++ rest)) (pre.length : Int) =
      match firstBytes 2 [f] with
      | some bs => .done (.ok bs)
      | none => .next ((pre ++ tag ++ body).length : Int) := by
  have hwt := wireType_lt f.value
  have hpos := htag.length_pos
  have hread : uvarint (tag ++ body ++ rest) =
      (f.num * 8 + f.value.wireType, (tag.length : Int)) := by
    rw [List.append_assoc]
    exact uvarint_varint htag htl (by omega) _
  have hfits (a b : Bytes) (h : pre ++ (tag ++ body ++ rest) = a ++ b) : a.length < 2 ^ 63 := by
    rw [h, List.length_append] at hlen
    omega
  have hassoc : pre ++ (tag ++ body ++ rest) = pre ++ tag ++ (body ++ rest) := by
    simp only [List.append_assoc]
  have hi := wrap64_add_length pre tag (hfits _ _ hassoc)
  have hend := wrap64_add_length (pre ++ tag) body
    (hfits _ rest (by simp only [List.append_assoc]))
  rw [tokenStep, sliceFrom_append]
  simp only [hread, if_neg (show ¬ (tag.length : Int) ≤ 0 by omega), hi,
    shiftRight_three _ _ hwt, and_seven _ _ hwt]
  obtain ⟨num, value⟩ := f
  cases hbody with
  | @varint _ v hv hvl hv64 =>
    have hvpos := hv.length_pos
    simp only [WireValue.wireType, if_true, hassoc, sliceFrom_append, uvarint_varint hv hvl hv64,
      if_neg (show ¬ (body.length : Int) ≤ 0 by omega), hend, firstBytes]
  | fixed64 h8 =>
    have hb : (8 : Int) = (body.length : Int) := by omega
    simp only [WireValue.wireType, if_true, hb, hend]
    rfl
  | @bytes len bs hl hll =>
    have hlpos := hl.length_pos
    have hassoc' : pre ++ (tag ++ (len ++ bs) ++ rest) =
        pre ++ tag ++ (len ++ (bs ++ rest)) := by simp only [List.append_assoc]
    have hbs := hfits (pre ++ tag ++ len ++ bs) rest (by simp only [List.append_assoc])
    have hi' := wrap64_add_length (pre ++ tag) len
      (hfits _ (bs ++ rest) (by simp only [List.append_assoc]))
    have hbs63 : bs.length < 2 ^ 63 :=
      Nat.lt_of_le_of_lt (List.length_append ▸ Nat.le_add_left _ _) hbs
    have hw := wrap64_natCast hbs63
    have hstop := wrap64_add_length (pre ++ tag ++ len) bs hbs
    have hlen64 : bs.length < 2 ^ 64 := hbs63.trans (by decide)
    simp only [WireValue.wireType, hassoc', sliceFrom_append, uvarint_varint hl hll hlen64,
      if_neg (show ¬ (len.length : Int) ≤ 0 by omega), hi', hw, hstop]
    rw [if_neg (by decide), if_neg (by decide), if_pos trivial, firstBytes]
    by_cases h2 : num = 2
    · have hle : ¬ ((pre ++ tag ++ len ++ bs).length : Int) >
          ((pre ++ tag ++ (len ++ (bs ++ rest))).length : Int) := by
        simp only [List.length_append]
        omega
      have hr : pre ++ tag ++ (len ++ (bs ++ rest)) = pre ++ tag ++ len ++ bs ++ rest := by
        simp only [List.append_assoc]
      rw [if_pos h2, if_neg hle, if_pos h2, hr, sliceRange_append]
    · rw [if_neg h2, if_neg h2, ← List.append_assoc]
      rfl
  | fixed32 h4 =>
    have hb : (4 : Int) = (body.length : Int) := by omega
    simp only [WireValue.wireType, if_true, hb, hend]
    rfl

/-- On a well-formed token the parser returns the first length-delimited field 2, if any. -/
theorem extractLoop_encodes (h : Encodes fs bs) (pre : Bytes) (hlen : (pre ++ bs).length < 2 ^ 63)
    (fuel : Nat) (hfuel : fs.length < fuel) :
    extractLoop (pre ++ bs) fuel (pre.length : Int) =
      match firstBytes 2 fs with
      | some workflowID => .ok workflowID
      | none => .err (lit "workflow_id (field 2) not found in TaskToken") := by
  induction h generalizing pre fuel with
  | nil =>
    obtain ⟨fuel, rfl⟩ : ∃ k, fuel = k + 1 := ⟨fuel - 1, by omega⟩
    rw [extractLoop, List.append_nil, if_neg (lt_irrefl _), firstBytes]
  | @cons f fs tag body rest h1 hnum htag htl hbody hrest ih =>
    obtain ⟨fuel, rfl⟩ : ∃ k, fuel = k + 1 := ⟨fuel - 1, by omega⟩
    have hpos := htag.length_pos
    have hlt : (pre.length : Int) < ((pre ++ (tag ++ body ++ rest)).length : Int) := by
      simp only [List.length_append]
      omega
    rw [extractLoop, if_pos hlt, tokenStep_field pre rest hnum htag htl hbody hlen,
      firstBytes_cons 2 f fs]
    cases firstBytes 2 [f] with
    | some w => rfl
    | none =>
      have hassoc : pre ++ (tag ++ body ++ rest) = pre ++ tag ++ body ++ rest := by
        simp only [List.append_assoc]
      rw [hassoc] at hlen ⊢
      exact ih (pre ++ tag ++ body) hlen fuel (by simpa using hfuel)

theorem extractWorkflowID_encodes (h : Encodes fs token) (hlen : token.length < 2 ^ 63) :
    extractWorkflowIDFromTaskToken token =
      match firstBytes 2 fs with
      | some workflowID => .ok workflowID
      | none => .err (lit "workflow_id (field 2) not found in TaskToken") :=
  extractLoop_encodes h [] hlen (token.length + 1) (Nat.lt_succ_of_le h.length_le)

end Tempura
