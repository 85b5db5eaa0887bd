import Tempura.Base.WireWriter
import Tempura.TokenLoop

namespace Tempura
open Base
set_option autoImplicit true

/-- The parser decodes every token a protobuf encoder writes. -/
theorem token_parser_decodes (fs : List WireField) (hfs : ∀ f ∈ fs, f.WellFormed)
    (hlen : (encodeFields fs).length < 2 ^ 63) :
    (∀ before bs after, fs = before ++ ⟨2, .bytes bs⟩ :: after →
      (∀ bs', ⟨2, .bytes bs'⟩ ∉ before) →
      extractWorkflowIDFromTaskToken (encodeFields fs) = .ok bs) ∧
    ((∀ bs, ⟨2, .bytes bs⟩ ∉ fs) →
      ∃ text, extractWorkflowIDFromTaskToken (encodeFields fs) = .err text) := by
  have hparse := extractWorkflowID_encodes (encodes_encodeFields hfs (by omega)) hlen
  constructor
  · intro before bs after heq hfirst
    rw [hparse, heq, firstBytes_of_first before hfirst]
  · intro hnone
    rw [hparse, firstBytes_of_none hnone]
    exact ⟨_, rfl⟩

def sampleFields : List WireField :=
  [⟨1, .bytes (lit "ns")⟩, ⟨3, .varint (2 ^ 64 - 1)⟩, ⟨2 ^ 29 - 1, .fixed64 (List.replicate 8 7)⟩,
    ⟨2, .fixed32 [1, 2, 3, 4]⟩, ⟨2, .bytes (lit "order-1")⟩, ⟨2, .bytes (lit "order-2")⟩]

theorem sampleFields_wellFormed : ∀ f ∈ sampleFields, f.WellFormed := by
  simp [sampleFields, WireValue.WellFormed, WireField.wellFormed_iff]

theorem sample_fields_decode :
    extractWorkflowIDFromTaskToken (encodeFields sampleFields) = .ok (lit "order-1") := by
  apply (token_parser_decodes sampleFields sampleFields_wellFormed (by decide)).1
    (sampleFields.take 4) _ [⟨2, .bytes (lit "order-2")⟩] rfl
  intro bs
  simp [sampleFields]

/-- A varint of value `v` is read at index `i`, and `j` is the index after it. -/
def VarintAt (token : Bytes) (i : Int) (v : Nat) (j : Int) : Prop :=
  ∃ buf n, sliceFrom token i = some buf ∧ uvarint buf = (v, n) ∧ 0 < n ∧ j = i + n

/-- The field at index `i`: number, wire type, and its end if indices were unbounded. -/
inductive FieldAt (token : Bytes) (i : Int) : Nat → Nat → Int → Prop
  | varint (htag : VarintAt token i tag start) (hwire : tag &&& 7 = 0)
      (hv : VarintAt token start v stop) : FieldAt token i (tag >>> 3) 0 stop
  | fixed64 (htag : VarintAt token i tag start) (hwire : tag &&& 7 = 1) :
      FieldAt token i (tag >>> 3) 1 (start + 8)
  | bytes (htag : VarintAt token i tag j) (hwire : tag &&& 7 = 2)
      (hlen : VarintAt token j length start) : FieldAt token i (tag >>> 3) 2 (start + length)
  | fixed32 (htag : VarintAt token i tag start) (hwire : tag &&& 7 = 5) :
      FieldAt token i (tag >>> 3) 5 (start + 4)

theorem VarintAt.bounds (h : VarintAt token i v j) : 0 ≤ i ∧ i < j ∧ j ≤ token.length := by
  obtain ⟨buf, n, hbuf, hv, hn, rfl⟩ := h
  have hcount := uvarint_count_le_length buf
  rw [hv] at hcount
  rw [sliceFrom] at hbuf
  split at hbuf
  next hb =>
    cases hbuf
    rw [List.length_drop] at hcount
    omega
  next => cases hbuf

theorem VarintAt.value_lt (h : VarintAt token i v j) : v < 2 ^ 64 := by
  obtain ⟨buf, n, _, hv, _⟩ := h
  have hlt := uvarint_value_lt buf
  rwa [hv] at hlt

theorem varintAt_or (h0 : 0 ≤ i) (hi : i ≤ token.length) :
    (∃ v j, VarintAt token i v j) ∨
      ∃ buf v n, sliceFrom token i = some buf ∧ uvarint buf = (v, n) ∧ n ≤ 0 := by
  have hbuf : sliceFrom token i = some (token.drop i.toNat) := if_pos ⟨h0, hi⟩
  cases hv : uvarint (token.drop i.toNat) with
  | mk v n =>
    by_cases hn : n ≤ 0
    · exact .inr ⟨_, v, n, hbuf, hv, hn⟩
    · exact .inl ⟨v, i + n, _, n, hbuf, hv, Int.not_le.mp hn, rfl⟩

theorem wrap64_add_wrap64 (x y : Int) : wrap64 (x + wrap64 y) = wrap64 (x + y) :=
  Int.add_bmod_bmod

theorem wrap64_of_overflow {x : Int} (hx : 2 ^ 63 ≤ x) (hlt : x < 2 ^ 64) : wrap64 x < 0 := by
  have hmod : x % ((2 ^ 64 : Nat) : Int) = x := Int.emod_eq_of_lt (by omega) (by omega)
  rw [wrap64, Int.bmod_def, hmod]
  omega

theorem wrap64_of_wraps {x : Int} (hx : 2 ^ 64 ≤ x) (hlt : x < 2 ^ 64 + 2 ^ 63) :
    wrap64 x = x - 2 ^ 64 := by
  have hmod : x % ((2 ^ 64 : Nat) : Int) = x - 2 ^ 64 := by omega
  rw [wrap64, Int.bmod_def, hmod]
  omega

section Field
variable {token : Bytes} (hlen : token.length < 2 ^ 63)
include hlen

theorem VarintAt.wrap64_eq (h : VarintAt token i v j) : wrap64 j = j := by
  have hb := h.bounds
  exact wrap64_of_fits (by omega) (by omega)

theorem FieldAt.bounds (h : FieldAt token i num wire stop) :
    0 ≤ i ∧ i < token.length ∧ i < stop ∧ stop < 2 ^ 64 + 2 ^ 63 := by
  cases h with
  | varint htag hwire hv =>
    have htag := htag.bounds
    have hv := hv.bounds
    omega
  | fixed64 htag hwire =>
    have htag := htag.bounds
    omega
  | bytes htag hwire hlength =>
    have htag := htag.bounds
    have hvalue := hlength.value_lt
    have hlength := hlength.bounds
    omega
  | fixed32 htag hwire =>
    have htag := htag.bounds
    omega

theorem FieldAt.wrap64_neg_iff (h : FieldAt token i num wire stop) :
    wrap64 stop < 0 ↔ 2 ^ 63 ≤ stop ∧ stop < 2 ^ 64 := by
  obtain ⟨_, _, _, hlt⟩ := h.bounds hlen
  by_cases h63 : stop < 2 ^ 63
  · rw [wrap64_of_fits (by omega) h63]
    omega
  · by_cases h64 : stop < 2 ^ 64
    · have hneg := wrap64_of_overflow (Int.not_lt.mp h63) h64
      omega
    · rw [wrap64_of_wraps (Int.not_lt.mp h64) hlt]
      omega

theorem FieldAt.tokenStep_other (h : FieldAt token i num wire stop)
    (hne : ¬ (num = 2 ∧ wire = 2)) : tokenStep token i = .next (wrap64 stop) := by
  cases h with
  | varint htag hwire hv =>
    have hstart := htag.wrap64_eq hlen
    obtain ⟨buf, n, hbuf, htag, hn, rfl⟩ := htag
    obtain ⟨rest, k, hrest, hv, hk, rfl⟩ := hv
    simp [tokenStep, hbuf, htag, Int.not_le.mpr hn, hwire, hstart, hrest, hv, Int.not_le.mpr hk]
  | fixed64 htag hwire =>
    have hstart := htag.wrap64_eq hlen
    obtain ⟨buf, n, hbuf, htag, hn, rfl⟩ := htag
    simp [tokenStep, hbuf, htag, Int.not_le.mpr hn, hstart, hwire]
  | bytes htag hwire hlength =>
    have hnum : ¬ _ := fun hnum => hne ⟨hnum, rfl⟩
    have hj := htag.wrap64_eq hlen
    have hstart := hlength.wrap64_eq hlen
    obtain ⟨buf, n, hbuf, htag, hn, rfl⟩ := htag
    obtain ⟨rest, k, hrest, hlength, hk, rfl⟩ := hlength
    simp [tokenStep, hbuf, htag, Int.not_le.mpr hn, hj, hwire, hrest, hlength, Int.not_le.mpr hk,
      hstart, hnum, wrap64_add_wrap64]
  | fixed32 htag hwire =>
    have hstart := htag.wrap64_eq hlen
    obtain ⟨buf, n, hbuf, htag, hn, rfl⟩ := htag
    simp [tokenStep, hbuf, htag, Int.not_le.mpr hn, hstart, hwire]

/-- The guard compares a wrapped sum, so it lets a length through that no slice has. -/
theorem FieldAt.tokenStep_workflowID (h : FieldAt token i num wire stop) (hnum : num = 2)
    (hwire : wire = 2) : tokenStep token i = .done .panic ↔ 2 ^ 63 ≤ stop := by
  have hneg := h.wrap64_neg_iff hlen
  obtain ⟨h0, _, _, hlt⟩ := h.bounds hlen
  cases h with
  | varint => cases hwire
  | fixed64 => cases hwire
  | fixed32 => cases hwire
  | @bytes tag j length start htag hwire' hlength =>
    have hj := htag.wrap64_eq hlen
    have hstart := hlength.wrap64_eq hlen
    have hb := hlength.bounds
    have hvalue := hlength.value_lt
    -- a sum that leaves the range of an `int` comes back below the start of the slice
    have hback (h63 : 2 ^ 63 ≤ start + length) : wrap64 (start + length) < start := by
      by_cases h64 : start + length < 2 ^ 64
      · have hlt0 := hneg.mpr ⟨h63, h64⟩
        omega
      · rw [wrap64_of_wraps (Int.not_lt.mp h64) hlt]
        omega
    have hstep : tokenStep token i =
        if wrap64 (start + length) > token.length then
          .done (.err (lit "length-delimited field extends past end"))
        else (sliceRange token start (wrap64 (start + length))).elim (.done .panic)
          (fun workflowID => .done (.ok workflowID)) := by
      obtain ⟨buf, n, hbuf, htag, hn, rfl⟩ := htag
      obtain ⟨rest, k, hrest, hlength, hk, rfl⟩ := hlength
      simp [tokenStep, hbuf, htag, Int.not_le.mpr hn, hj, hwire', hrest, hlength,
        Int.not_le.mpr hk, hstart, hnum, wrap64_add_wrap64]
      cases sliceRange token (i + n + k) (wrap64 (i + n + k + length)) <;> rfl
    rw [hstep]
    by_cases h63 : 2 ^ 63 ≤ start + length
    · have hlt' := hback h63
      have hslice : sliceRange token start (wrap64 (start + length)) = none :=
        if_neg (fun hb => Int.not_le.mpr hlt' hb.2.1)
      rw [if_neg (by omega), hslice, Option.elim_none]
      exact iff_of_true rfl h63
    · rw [wrap64_of_fits (by omega) (Int.not_le.mp h63)]
      refine iff_of_false ?_ h63
      split
      · intro he
        cases he
      · rw [sliceRange, if_pos (by omega), Option.elim_some]
        intro he
        cases he

theorem fieldAt_or_err {i : Int} (h0 : 0 ≤ i) (hi : i ≤ token.length) :
    (∃ num wire stop, FieldAt token i num wire stop) ∨
      ∃ text, tokenStep token i = .done (.err text) := by
  rcases varintAt_or h0 hi with ⟨tag, j, htag⟩ | ⟨buf, v, n, hbuf, hv, hn⟩
  · have hj := htag.wrap64_eq hlen
    have hb := htag.bounds
    have hval := @varintAt_or j token (by omega) hb.2.2
    by_cases hwire0 : tag &&& 7 = 0
    · rcases hval with ⟨v, k, hv⟩ | ⟨rest, v, k, hrest, hv, hk⟩
      · exact .inl ⟨_, _, _, .varint htag hwire0 hv⟩
      · obtain ⟨buf, n, hbuf, htag, hn, rfl⟩ := htag
        right
        simp [tokenStep, hbuf, htag, Int.not_le.mpr hn, hwire0, hj, hrest, hv, hk]
    by_cases hwire1 : tag &&& 7 = 1
    · exact .inl ⟨_, _, _, .fixed64 htag hwire1⟩
    by_cases hwire2 : tag &&& 7 = 2
    · rcases hval with ⟨v, k, hv⟩ | ⟨rest, v, k, hrest, hv, hk⟩
      · exact .inl ⟨_, _, _, .bytes htag hwire2 hv⟩
      · obtain ⟨buf, n, hbuf, htag, hn, rfl⟩ := htag
        right
        simp [tokenStep, hbuf, htag, Int.not_le.mpr hn, hwire2, hj, hrest, hv, hk]
    by_cases hwire5 : tag &&& 7 = 5
    · exact .inl ⟨_, _, _, .fixed32 htag hwire5⟩
    · obtain ⟨buf, n, hbuf, htag, hn, rfl⟩ := htag
      right
      simp [tokenStep, hbuf, htag, Int.not_le.mpr hn, hwire0, hwire1, hwire2, hwire5]
  · right
    simp [tokenStep, hbuf, hv, hn]

theorem skips_iff : Skips token i j ↔
    ∃ num wire stop, FieldAt token i num wire stop ∧ ¬ (num = 2 ∧ wire = 2) ∧ j = wrap64 stop := by
  constructor
  · intro h
    cases h with
    | varint hi hbuf htag hn hwire hrest hv hk =>
      have hstart : VarintAt token i _ _ := ⟨_, _, hbuf, htag, hn, rfl⟩
      rw [hstart.wrap64_eq hlen] at hrest ⊢
      exact ⟨_, 0, _, .varint hstart hwire ⟨_, _, hrest, hv, hk, rfl⟩, by omega, rfl⟩
    | fixed64 hi hbuf htag hn hwire =>
      have hstart : VarintAt token i _ _ := ⟨_, _, hbuf, htag, hn, rfl⟩
      rw [hstart.wrap64_eq hlen]
      exact ⟨_, 1, _, .fixed64 hstart hwire, by omega, rfl⟩
    | bytes hi hbuf htag hn hwire hnum hrest hlength hk =>
      have hj : VarintAt token i _ _ := ⟨_, _, hbuf, htag, hn, rfl⟩
      rw [hj.wrap64_eq hlen] at hrest ⊢
      have hstart : VarintAt token _ _ _ := ⟨_, _, hrest, hlength, hk, rfl⟩
      rw [hstart.wrap64_eq hlen, wrap64_add_wrap64]
      exact ⟨_, 2, _, .bytes hj hwire hstart, fun h2 => hnum h2.1, rfl⟩
    | fixed32 hi hbuf htag hn hwire =>
      have hstart : VarintAt token i _ _ := ⟨_, _, hbuf, htag, hn, rfl⟩
      rw [hstart.wrap64_eq hlen]
      exact ⟨_, 5, _, .fixed32 hstart hwire, by omega, rfl⟩
  · intro ⟨num, wire, stop, hf, hne, hj⟩
    obtain ⟨_, hi, _⟩ := hf.bounds hlen
    apply skips_of_tokenStep hi
    rw [hf.tokenStep_other hlen hne, hj]

/-- The field at index `i` is length-delimited, with a length that is negative as an `int`. -/
def NegativeLength (token : Bytes) (i : Int) : Prop :=
  ∃ buf rest tag length n k, sliceFrom token i = some buf ∧ uvarint buf = (tag, n) ∧
    tag &&& 7 = 2 ∧ sliceFrom token (wrap64 (i + n)) = some rest ∧ uvarint rest = (length, k) ∧
    2 ^ 63 ≤ length

theorem FieldAt.stop_lt (h : FieldAt token i num wire stop) (hshort : ¬ NegativeLength token i) :
    stop < 2 ^ 64 := by
  obtain ⟨_, hi, _, _⟩ := h.bounds hlen
  cases h with
  | varint htag hwire hv =>
    have hv := hv.bounds
    omega
  | fixed64 htag hwire =>
    have htag := htag.bounds
    omega
  | @bytes tag j length start htag hwire hlength =>
    have hb := hlength.bounds
    have hlt : length < 2 ^ 63 := by
      by_contra hge
      have hj := htag.wrap64_eq hlen
      obtain ⟨buf, n, hbuf, htag, _, rfl⟩ := htag
      obtain ⟨rest, k, hrest, hlength, _⟩ := hlength
      exact hshort ⟨buf, rest, tag, length, n, k, hbuf, htag, hwire, hj.symm ▸ hrest, hlength,
        Nat.le_of_not_lt hge⟩
    omega
  | fixed32 htag hwire =>
    have htag := htag.bounds
    omega

theorem Skips.lt_or_neg (h : Skips token i j) (hshort : ¬ NegativeLength token i) :
    i < j ∨ j < 0 := by
  obtain ⟨num, wire, stop, hf, _, rfl⟩ := (skips_iff hlen).mp h
  obtain ⟨_, _, hlt, _⟩ := hf.bounds hlen
  by_cases h63 : stop < 2 ^ 63
  · left
    rw [wrap64_of_fits (by omega) h63]
    exact hlt
  · right
    exact (hf.wrap64_neg_iff hlen).mpr ⟨Int.not_lt.mp h63, hf.stop_lt hlen hshort⟩

theorem not_cyclic_of_lengths
    (hshort : ∀ i j, Relation.ReflTransGen (Skips token) 0 i → Skips token i j →
      ¬ NegativeLength token i) (i : Int)
    (hi : Relation.ReflTransGen (Skips token) 0 i) : ¬ Relation.TransGen (Skips token) i i := by
  have hnonneg {a b : Int} (h : Skips token a b) : 0 ≤ a := by
    obtain ⟨num, wire, stop, hf, _⟩ := (skips_iff hlen).mp h
    exact (hf.bounds hlen).1
  have hforward (k : Int) (hk : Relation.TransGen (Skips token) i k) : i < k ∨ k < 0 := by
    induction hk with
    | single h => exact h.lt_or_neg hlen (hshort i _ hi h)
    | @tail a b ha hab ih =>
      have ha0 := hnonneg hab
      have hstep := hab.lt_or_neg hlen (hshort a b (hi.trans ha.to_reflTransGen) hab)
      omega
  intro hcycle
  obtain ⟨j, hij, _⟩ := Relation.TransGen.head'_iff.mp hcycle
  have h0 := hnonneg hij
  have hself := hforward i hcycle
  omega

/-- The loop panics at a negative index, or at a workflow id whose end is no `int`. -/
theorem tokenNext_panic_iff : tokenNext token i = .inr .panic ↔
    i < 0 ∨ ∃ stop, FieldAt token i 2 2 stop ∧ 2 ^ 63 ≤ stop := by
  constructor
  · intro h
    by_cases h0 : i < 0
    · exact .inl h0
    right
    rw [tokenNext] at h
    split at h
    next hi =>
      rcases fieldAt_or_err hlen (Int.not_lt.mp h0) (Int.le_of_lt hi) with
        ⟨num, wire, stop, hf⟩ | ⟨text, htext⟩
      · by_cases h2 : num = 2 ∧ wire = 2
        · obtain ⟨rfl, rfl⟩ := h2
          refine ⟨stop, hf, (hf.tokenStep_workflowID hlen rfl rfl).mp ?_⟩
          cases hs : tokenStep token i with
          | next j =>
            rw [hs] at h
            cases h
          | done result =>
            rw [hs] at h
            cases h
            rfl
        · rw [hf.tokenStep_other hlen h2] at h
          cases h
      · rw [htext] at h
        cases h
    next => cases h
  · rintro (h0 | ⟨stop, hf, h63⟩)
    · have hslice : sliceFrom token i = none := if_neg (fun hb => Int.not_le.mpr h0 hb.1)
      rw [tokenNext, if_pos (by omega), tokenStep, hslice]
    · obtain ⟨_, hi, _⟩ := hf.bounds hlen
      rw [tokenNext, if_pos hi, (hf.tokenStep_workflowID hlen rfl rfl).mpr h63]

end Field

/-- The parser ends exactly if it is never led back to an index it has already read a field at, in
particular if no length that it skips is negative. -/
theorem token_loop_ends_iff (token : Bytes) :
    ((∃ fuel, extractLoop token fuel 0 ≠ .hang) ↔
      ∀ i, Relation.ReflTransGen (Skips token) 0 i → ¬ Relation.TransGen (Skips token) i i) ∧
    (token.length < 2 ^ 63 →
      (∀ i j, Relation.ReflTransGen (Skips token) 0 i → Skips token i j →
        ¬ NegativeLength token i) → ∃ fuel, extractLoop token fuel 0 ≠ .hang) := by
  have hends : (∃ fuel, extractLoop token fuel 0 ≠ .hang) ↔
      ∀ i, Relation.ReflTransGen (Skips token) 0 i → ¬ Relation.TransGen (Skips token) i i := by
    rw [← extract_ne_hang_iff, ne_eq, extract_hang_iff, not_forall]
  exact ⟨hends, fun hlen hshort => hends.mpr (not_cyclic_of_lengths hlen hshort)⟩

/-- A field 1 whose length is eleven less than `2 ^ 64`, which leads back to its own tag. -/
def endlessToken : Bytes := [10, 245, 255, 255, 255, 255, 255, 255, 255, 255, 1]

theorem endless_token_hangs : ¬ ∀ token : Bytes, ∃ fuel, extractLoop token fuel 0 ≠ .hang := by
  intro hall
  obtain ⟨fuel, h⟩ := hall endlessToken
  obtain ⟨r, hr⟩ := (extractLoop_ne_hang_iff endlessToken fuel 0).mp h
  have hgoes : tokenNext endlessToken 0 = .inl 0 := by decide
  rw [iterate_of_cycle (.single hgoes)] at hr
  cases hr

/-- A field whose value ends here is passed over, or returned, without an index out of range. -/
def FieldFits (num wire : Nat) (stop : Int) : Prop :=
  stop < 2 ^ 63 ∨ ¬ (num = 2 ∧ wire = 2) ∧ 2 ^ 64 ≤ stop

theorem extractLoop_panic_iff {token : Bytes} (hlen : token.length < 2 ^ 63) :
    (∃ fuel, extractLoop token fuel 0 = .panic) ↔
      ∃ i num wire stop, Relation.ReflTransGen (Skips token) 0 i ∧
        FieldAt token i num wire stop ∧ ¬ FieldFits num wire stop := by
  have hloop (fuel : Nat) := @extractLoop_eq_iff .panic token fuel 0 (by decide)
  simp only [hloop, iterate_eq_some_iff, goes_eq_skips, tokenNext_panic_iff hlen, FieldFits]
  constructor
  · rintro ⟨i, hreach, h0 | ⟨stop, hf, h63⟩⟩
    · -- index 0 is not negative, so a field before has led to this one
      cases hreach with
      | refl => cases h0
      | @tail j _ hj hstep =>
        obtain ⟨num, wire, stop, hf, hne, rfl⟩ := (skips_iff hlen).mp hstep
        have hrange := (hf.wrap64_neg_iff hlen).mp h0
        exact ⟨j, num, wire, stop, hj, hf, by omega⟩
    · exact ⟨i, 2, 2, stop, hreach, hf, by omega⟩
  · intro ⟨i, num, wire, stop, hreach, hf, hfits⟩
    by_cases h2 : num = 2 ∧ wire = 2
    · obtain ⟨rfl, rfl⟩ := h2
      exact ⟨i, hreach, .inr ⟨stop, hf, by omega⟩⟩
    · have hneg := (hf.wrap64_neg_iff hlen).mpr (by omega)
      exact ⟨wrap64 stop, hreach.tail ((skips_iff hlen).mpr ⟨_, _, _, hf, h2, rfl⟩), .inl hneg⟩

/-- The parser never panics on a token exactly if every field it reads fits. -/
theorem token_parser_safe_iff (token : Bytes) (hlen : token.length < 2 ^ 63) :
    (∀ fuel, extractLoop token fuel 0 ≠ .panic) ↔
      ∀ i num wire stop, Relation.ReflTransGen (Skips token) 0 i →
        FieldAt token i num wire stop → FieldFits num wire stop := by
  constructor
  · intro h i num wire stop hreach hf
    by_contra hfits
    obtain ⟨fuel, hpanic⟩ :=
      (extractLoop_panic_iff hlen).mpr ⟨i, num, wire, stop, hreach, hf, hfits⟩
    exact h fuel hpanic
  · intro h fuel hpanic
    obtain ⟨i, num, wire, stop, hreach, hf, hfits⟩ := (extractLoop_panic_iff hlen).mp ⟨fuel, hpanic⟩
    exact hfits (h i num wire stop hreach hf)

theorem sample_fields_fit : (encodeFields sampleFields).length < 2 ^ 63 ∧
    ∀ i num wire stop, Relation.ReflTransGen (Skips (encodeFields sampleFields)) 0 i →
      FieldAt (encodeFields sampleFields) i num wire stop → FieldFits num wire stop := by
  have hok : extractWorkflowIDFromTaskToken (encodeFields sampleFields) = .ok (lit "order-1") := by
    decide +kernel
  have hsafe (fuel : Nat) : extractLoop (encodeFields sampleFields) fuel 0 ≠ .panic := by
    intro hpanic
    rw [(extract_eq_iff _ (by decide)).mpr ⟨fuel, hpanic⟩] at hok
    cases hok
  exact ⟨by decide, (token_parser_safe_iff _ (by decide)).mp hsafe⟩

/-- A field 2 whose length is `2 ^ 64 - 1`, which is `-1` as an `int`. -/
def panickingToken : Bytes := [18, 255, 255, 255, 255, 255, 255, 255, 255, 255, 1]

theorem negative_length_panics : ¬ ∀ token : Bytes, ∀ fuel, extractLoop token fuel 0 ≠ .panic := by
  intro hall
  exact hall panickingToken 1 (by decide)

end Tempura
