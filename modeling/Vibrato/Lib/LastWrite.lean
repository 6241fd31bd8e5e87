import Mathlib.Data.List.Induction
import Vibrato.Lib.OrderedMap

/-! Maps filled by a loop that sets one key after another: what such a map holds under a key is the
value of the last write to it. -/

namespace Vibrato.Lib.OrderedMap

variable {κ ν : Type} [DecidableEq κ]

variable (m : OrderedMap κ ν)

def setAll (writes : List (κ × ν)) : OrderedMap κ ν :=
  writes.foldl (fun m write => m.set write.1 write.2) m

def ofWrites (writes : List (κ × ν)) : OrderedMap κ ν := empty.setAll writes

@[simp] theorem setAll_nil : m.setAll [] = m := rfl

theorem setAll_append (first second : List (κ × ν)) :
    m.setAll (first ++ second) = (m.setAll first).setAll second :=
  List.foldl_append

theorem ofWrites_concat (writes : List (κ × ν)) (k : κ) (v : ν) :
    ofWrites (writes ++ [(k, v)]) = (ofWrites writes).set k v :=
  setAll_append empty writes [(k, v)]

theorem mem_of_get?_ofWrites {writes : List (κ × ν)} {k : κ} {v : ν}
    (h : (ofWrites writes).get? k = some v) : (k, v) ∈ writes := by
  induction writes using List.reverseRecOn with
  | nil => cases h
  | append_singleton writes write ih =>
    obtain ⟨k', v'⟩ := write
    rw [ofWrites_concat, get?_set] at h
    split at h
    · next hk =>
      cases h
      simp [hk]
    · exact List.mem_append_left _ (ih h)

theorem get?_ofWrites_of_mem {R : ν → ν → Prop} (hrefl : ∀ v, R v v) {writes : List (κ × ν)}
    (hsorted : writes.Pairwise fun a b => R a.2 b.2) {k : κ} {v : ν} (hmem : (k, v) ∈ writes) :
    ∃ last, (ofWrites writes).get? k = some last ∧ R v last := by
  induction writes using List.reverseRecOn with
  | nil => cases hmem
  | append_singleton writes write ih =>
    obtain ⟨k', v'⟩ := write
    rw [ofWrites_concat, get?_set]
    obtain ⟨hearlier, -, hlast⟩ := List.pairwise_append.mp hsorted
    by_cases hk : k = k'
    · refine ⟨v', by rw [if_pos hk], ?_⟩
      rcases List.mem_append.mp hmem with h | h
      · exact hlast _ h (k', v') (by simp)
      · cases List.mem_singleton.mp h
        exact hrefl v
    · rw [if_neg hk]
      refine ih hearlier ?_
      rcases List.mem_append.mp hmem with h | h
      · exact h
      · cases List.mem_singleton.mp h
        exact absurd rfl hk

theorem get?_ofWrites_map {ν' : Type} (f : ν → ν') (writes : List (κ × ν)) (k : κ) :
    (ofWrites (writes.map fun write => (write.1, f write.2))).get? k =
      ((ofWrites writes).get? k).map f := by
  induction writes using List.reverseRecOn with
  | nil => rfl
  | append_singleton writes write ih =>
    rw [List.map_append, List.map_singleton, ofWrites_concat, ofWrites_concat, get?_set,
      get?_set, ih]
    split <;> rfl

end Vibrato.Lib.OrderedMap

namespace Vibrato.Lib

theorem exists_last {P : Nat → Prop} {n i : Nat} (hbound : ∀ j, P j → j < n) (h : P i) :
    ∃ last, i ≤ last ∧ P last ∧ ∀ j, last < j → ¬P j := by
  induction hn : n - i using Nat.strongRecOn generalizing i with
  | ind m ih =>
    by_cases hlast : ∀ j, i < j → ¬P j
    · exact ⟨i, Nat.le_refl i, h, hlast⟩
    · simp only [not_forall, not_not] at hlast
      obtain ⟨j, hlt, hj⟩ := hlast
      have hbelow := hbound j hj
      obtain ⟨last, hle, hP, hno⟩ := ih (n - j) (by omega) hj rfl
      exact ⟨last, by omega, hP, hno⟩

end Vibrato.Lib
