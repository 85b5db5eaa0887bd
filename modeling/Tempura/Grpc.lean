import Mathlib.Algebra.Ring.Nat
import Tempura.Base.Go

namespace Tempura
open Base
set_option autoImplicit true

/-- The parts of an HTTP request that the proxy reads or changes. -/
structure Request where
  urlScheme : GoString
  urlHost : GoString
  host : GoString
  requestURI : GoString
  contentLength : Int
  contentLengthHeader : Option GoString
  deriving DecidableEq

/-- `io.ReadAll` yields what it could decompress, with an error if that is not all. -/
structure Gzip where
  newReader : Bytes → Except GoString Unit
  readAll : Bytes → Bytes × Option GoString

/-- The payload of a gRPC body and whether it came compressed. -/
def extractPayload (gzip : Gzip) (bodyBytes : Bytes) : Except GoString (Bytes × Bool) :=
  if bodyBytes.length ≤ 5 then .error (lit "payload too short to be valid gRPC")
  else
    let isCompressed : Bool := bodyBytes.head? = some 1
    if isCompressed then
      match gzip.newReader (bodyBytes.drop 5) with
      | .error e => .error (lit "failed to create gzip reader: " ++ e)
      | .ok () =>
        match gzip.readAll (bodyBytes.drop 5) with
        | (_, some e) => .error (lit "failed to decompress gzip payload: " ++ e)
        | (pbPayload, none) => .ok (pbPayload, isCompressed)
    else .ok (bodyBytes.drop 5, isCompressed)

def grpcFrame (payload : Bytes) : Bytes :=
  let n := payload.length
  [0, UInt8.ofNat (n >>> 24), UInt8.ofNat (n >>> 16), UInt8.ofNat (n >>> 8), UInt8.ofNat n] ++
    payload

def encodeGRPCPayload (finalPayload : Bytes) (r : Request) : Bytes × Request :=
  (grpcFrame finalPayload, { r with contentLength := -1, contentLengthHeader := none })

/-- The reverse proxy sends a request without a host to the default target. -/
def director (defaultTarget : GoString) (r : Request) : Request :=
  let r := { r with urlScheme := lit "http" }
  if r.urlHost = [] then { r with urlHost := defaultTarget, host := defaultTarget } else r

def bigEndian (bs : Bytes) : Nat := bs.foldl (fun n b => n * 256 + b.toNat) 0

/-- A zero byte, the length of the payload in four bytes, the payload. -/
def IsFrame (body payload : Bytes) : Prop :=
  ∃ len, body = 0 :: len ++ payload ∧ len.length = 4 ∧ bigEndian len = payload.length

theorem isFrame_grpcFrame {payload : Bytes} (h : payload.length < 2 ^ 32) :
    IsFrame (grpcFrame payload) payload := by
  refine ⟨_, rfl, rfl, ?_⟩
  simp only [bigEndian, List.foldl_cons, List.foldl_nil, UInt8.toNat_ofNat',
    Nat.shiftRight_eq_div_pow]
  omega

def declaredLength (body : Bytes) : Nat := bigEndian ((body.drop 1).take 4)

theorem isFrame_iff {body payload : Bytes} (h : body.head? = some 0) :
    IsFrame body payload ↔
      5 ≤ body.length ∧ payload = body.drop 5 ∧ declaredLength body = body.length - 5 := by
  constructor
  · rintro ⟨len, rfl, hlen, hval⟩
    have htake : (len ++ payload).take 4 = len := by rw [← hlen, List.take_left]
    have hdrop : (len ++ payload).drop 4 = payload := by rw [← hlen, List.drop_left]
    simp only [declaredLength, List.cons_append, List.length_cons, List.length_append, hlen,
      List.drop_succ_cons, List.drop_zero, htake, hdrop, hval]
    exact ⟨by omega, trivial, by omega⟩
  · rintro ⟨hlen, rfl, hval⟩
    cases body with
    | nil => cases h
    | cons b body =>
      cases h
      rw [List.length_cons] at hlen hval
      refine ⟨body.take 4, ?_, ?_, ?_⟩
      · rw [List.drop_succ_cons, List.cons_append, List.take_append_drop]
      · rw [List.length_take]
        omega
      · rw [List.drop_succ_cons, List.length_drop]
        exact hval.trans (by omega)

theorem extractPayload_uncompressed {gzip : Gzip} {body : Bytes} (h : body.head? = some 0) :
    extractPayload gzip body = .ok (payload, false) ↔ 5 < body.length ∧ payload = body.drop 5 := by
  rw [extractPayload]
  by_cases hlen : body.length ≤ 5
  · rw [if_pos hlen]
    refine iff_of_false ?_ (fun hb => Nat.not_lt.mpr hlen hb.1)
    intro he
    cases he
  · rw [if_neg hlen]
    simp [h, Nat.not_le.mp hlen, eq_comm]

theorem extractPayload_grpcFrame (gzip : Gzip) (payload : Bytes) :
    extractPayload gzip (grpcFrame payload) = .ok (payload, false) ↔ payload ≠ [] := by
  have hpos : 5 < (grpcFrame payload).length ↔ payload ≠ [] := by
    rw [← List.length_pos_iff, grpcFrame, List.length_append]
    exact Nat.lt_add_right_iff_pos
  rw [extractPayload_uncompressed rfl, hpos]
  exact and_iff_left rfl

/-- An uncompressed body is read as a frame exactly if its declared length is that of its payload
and not zero, or if it ends within the header and is no frame. -/
theorem extractPayload_frame_iff (gzip : Gzip) :
    (∀ body : Bytes, body.head? = some 0 →
      ((∀ payload, extractPayload gzip body = .ok (payload, false) ↔ IsFrame body payload) ↔
        body.length < 5 ∨ (body.length = 5 ∧ declaredLength body ≠ 0) ∨
          (5 < body.length ∧ declaredLength body = body.length - 5))) ∧
    ∀ (payload : Bytes) (r : Request), payload.length < 2 ^ 32 →
      IsFrame (encodeGRPCPayload payload r).1 payload ∧
      (extractPayload gzip (encodeGRPCPayload payload r).1 = .ok (payload, false) ↔
        payload ≠ []) := by
  constructor
  · intro body h
    simp only [extractPayload_uncompressed h, isFrame_iff h]
    constructor
    · intro hall
      have hrest := hall (body.drop 5)
      simp only [and_true, true_and] at hrest
      omega
    · intro hlen payload
      constructor
      · rintro ⟨h5, rfl⟩
        exact ⟨by omega, rfl, by omega⟩
      · rintro ⟨h5, rfl, hval⟩
        exact ⟨by omega, rfl⟩
  · intro payload r hlen
    exact ⟨isFrame_grpcFrame hlen, extractPayload_grpcFrame gzip payload⟩

def noGzip : Gzip := ⟨fun _ => .error (lit "gzip: invalid header"), fun bs => (bs, none)⟩

theorem extractPayload_frame_one :
    extractPayload noGzip [0, 0, 0, 0, 1, 7] = .ok ([7], false) ∧
      IsFrame [0, 0, 0, 0, 1, 7] [7] := by
  have hframe : IsFrame [0, 0, 0, 0, 1, 7] [7] := ⟨[0, 0, 0, 1], rfl, rfl, rfl⟩
  have hread := ((extractPayload_frame_iff noGzip).1 [0, 0, 0, 0, 1, 7] rfl).mpr (by decide) [7]
  exact ⟨hread.mpr hframe, hframe⟩

/-- The frame of the empty message is refused, and bytes after a frame are taken for its payload. -/
theorem frames_misread :
    (¬ ∀ (gzip : Gzip) (payload : Bytes), payload.length < 2 ^ 32 →
      extractPayload gzip (grpcFrame payload) = .ok (payload, false)) ∧
    ¬ ∀ (gzip : Gzip) (body payload : Bytes), body.head? = some 0 →
      extractPayload gzip body = .ok (payload, false) → IsFrame body payload := by
  constructor
  · intro hall
    have h := hall noGzip [] (by decide)
    cases h
  · intro hall
    have h := hall noGzip [0, 0, 0, 0, 1, 7, 8] [7, 8] rfl rfl
    exact absurd ((isFrame_iff rfl).mp h).2.2 (by decide)

end Tempura
