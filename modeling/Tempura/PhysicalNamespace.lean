import Tempura.Base.Go
import Tempura.Base.Split

namespace Tempura
open Base
set_option autoImplicit true

structure Cluster where
  address : GoString
  deriving DecidableEq

structure Namespace where
  cluster : Cluster
  name : GoString
  deriving DecidableEq

def delim : GoString := lit "::"

def buildPhysicalNamespace (actualName clusterAddress : GoString) : GoString :=
  delim.intercalate [actualName, clusterAddress]

/-- `none` is the index out of range of `s[1]`. -/
def parsePhysicalNamespace (physicalNamespace : GoString) : Option Namespace :=
  match split delim physicalNamespace with
  | name :: address :: _ => some ⟨⟨address⟩, name⟩
  | _ => none

theorem delim_eq : delim = [58, 58] := by decide

theorem buildPhysicalNamespace_eq (n a : GoString) :
    buildPhysicalNamespace n a = n ++ delim ++ a := by
  simp [buildPhysicalNamespace, List.intercalate]

theorem parsePhysicalNamespace_of_cut (h : cut delim s = some (x, y)) :
    parsePhysicalNamespace s =
      some ⟨⟨((cut delim y).map Prod.fst).getD y⟩, x⟩ := by
  obtain ⟨rest, hs⟩ := splitLoop_of_cut (by decide) h (Nat.le_refl s.length)
  simp only [parsePhysicalNamespace, split, hs]

theorem parsePhysicalNamespace_isSome_iff (s : GoString) :
    (parsePhysicalNamespace s).isSome ↔ delim <:+: s := by
  by_cases h : delim <:+: s
  · cases hc : cut delim s with
    | none => exact absurd h ((cut_eq_none_iff (by decide)).mp hc)
    | some p => simp [parsePhysicalNamespace_of_cut hc, h]
  · rw [parsePhysicalNamespace, split_of_not_infix (by decide) h]
    simp [h]

theorem delim_infix_build (n a : GoString) : delim <:+: buildPhysicalNamespace n a := by
  rw [buildPhysicalNamespace_eq]
  exact ⟨n, a, rfl⟩

theorem parse_build_isSome (n a : GoString) :
    (parsePhysicalNamespace (buildPhysicalNamespace n a)).isSome :=
  (parsePhysicalNamespace_isSome_iff _).mpr (delim_infix_build n a)

/-- The pairs that survive the trip through a slot name. -/
def Separable (n a : GoString) : Prop :=
  ¬ delim <:+: n ∧ n.getLast? ≠ some 58 ∧ ¬ delim <:+: a

theorem parse_build (h : Separable n a) :
    parsePhysicalNamespace (buildPhysicalNamespace n a) = some ⟨⟨a⟩, n⟩ := by
  obtain ⟨hn, hlast, ha⟩ := h
  have hc : cut delim (n ++ delim ++ a) = some (n, a) := cut_pair_append 58 n a hn hlast
  rw [buildPhysicalNamespace_eq, parsePhysicalNamespace_of_cut hc,
    (cut_eq_none_iff (by decide)).mpr ha]
  rfl

theorem cut_ne_of_early {n a u w : GoString} (h : n ++ delim ++ a = u ++ delim ++ w)
    (hlt : u.length < n.length) (hc : cut delim (n ++ delim ++ a) = some (x, y)) : x ≠ n := by
  obtain ⟨x', y', hc', hle⟩ := @cut_le_of_append _ _ delim (by decide) u w
  rw [← h, hc, Option.some.injEq, Prod.mk.injEq] at hc'
  obtain ⟨rfl, rfl⟩ := hc'
  rintro rfl
  omega

theorem separable_of_parse_build
    (h : parsePhysicalNamespace (buildPhysicalNamespace n a) = some ⟨⟨a⟩, n⟩) :
    Separable n a := by
  rw [buildPhysicalNamespace_eq] at h
  obtain ⟨x, y, hc, _⟩ := @cut_le_of_append _ _ delim (by decide) n a
  rw [parsePhysicalNamespace_of_cut hc] at h
  simp only [Option.some.injEq, Namespace.mk.injEq, Cluster.mk.injEq] at h
  obtain ⟨haddr, rfl⟩ := h
  refine ⟨?_, ?_, ?_⟩
  · rintro ⟨u, w, rfl⟩
    refine cut_ne_of_early (u := u) (w := w ++ delim ++ a) ?_ ?_ hc rfl
    · simp
    · simp [delim_eq]
  · intro hlast
    obtain ⟨u, rfl⟩ := List.getLast?_eq_some_iff.mp hlast
    refine cut_ne_of_early (u := u) (w := [58] ++ a) ?_ ?_ hc rfl
    · simp [delim_eq]
    · simp
  · intro hinf
    have hy : y = a := by
      have he := cut_eq_append hc
      simpa using he.symm
    subst hy
    cases hcy : cut delim y with
    | none => exact (cut_eq_none_iff (by decide)).mp hcy hinf
    | some p =>
      rw [hcy, Option.map_some, Option.getD_some] at haddr
      have hlen := congrArg List.length (cut_eq_append hcy)
      simp only [haddr, List.length_append] at hlen
      have hd : delim.length = 2 := by decide
      omega

theorem parse_build_iff (n a : GoString) :
    parsePhysicalNamespace (buildPhysicalNamespace n a) = some ⟨⟨a⟩, n⟩ ↔ Separable n a :=
  ⟨separable_of_parse_build, parse_build⟩

theorem separable_iff {n a : GoString} :
    Separable n a ↔ ¬ lit "::" <:+: n ∧ ¬ lit ":" <:+ n ∧ ¬ lit "::" <:+: a := by
  have hcolon : lit ":" = [58] := by decide
  rw [hcolon, List.singleton_suffix_iff_getLast?_eq_some]
  exact Iff.rfl

/-- A slot name is read back as the pair it was built from exactly if the delimiter is neither in
the name nor in the address and the name does not end in half of it. -/
theorem slot_codec_exact (n a : GoString) :
    (parsePhysicalNamespace (buildPhysicalNamespace n a) = some ⟨⟨a⟩, n⟩ ↔
      ¬ lit "::" <:+: n ∧ ¬ lit ":" <:+ n ∧ ¬ lit "::" <:+: a) ∧
    (parsePhysicalNamespace (buildPhysicalNamespace n a)).isSome := by
  rw [parse_build_iff, separable_iff]
  exact ⟨Iff.rfl, parse_build_isSome n a⟩

-- a colon at the front of the address is kept, one at the end of the name moves over to it
example : parsePhysicalNamespace (buildPhysicalNamespace (lit "orders") (lit ":7233")) =
    some ⟨⟨lit ":7233"⟩, lit "orders"⟩ := by decide

example : parsePhysicalNamespace (buildPhysicalNamespace (lit "orders:") (lit "c1")) =
    some ⟨⟨lit ":c1"⟩, lit "orders"⟩ := by decide

end Tempura
