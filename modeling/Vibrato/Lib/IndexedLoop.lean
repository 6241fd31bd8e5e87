import Vibrato.Lib.LastWrite

/-! Loops over a list with the index of each element: one that records the last index of each key,
and one that rewrites some elements in place, collects the ones it changed, and sums up what that
saved. -/

namespace Vibrato.Lib

open OrderedMap

section Latest

variable {α κ : Type}

variable (keys : α → List κ)

def KeyAt (l : List α) (k : κ) (i : Nat) : Prop := ∃ a, l[i]? = some a ∧ k ∈ keys a

def KeyAfter (l : List α) (k : κ) (i : Nat) : Prop := ∃ j, i < j ∧ KeyAt keys l k j

variable {i : Nat}

variable {keys : α → List κ} {l : List α} {k : κ}

theorem KeyAt.lt_length (h : KeyAt keys l k i) : i < l.length := by
  obtain ⟨a, ha, -⟩ := h
  exact (List.getElem?_eq_some_iff.1 ha).1

variable {a : α}

@[simp] theorem keyAt_cons_succ : KeyAt keys (a :: l) k (i + 1) ↔ KeyAt keys l k i := by
  simp [KeyAt]

@[simp] theorem keyAt_cons_zero : KeyAt keys (a :: l) k 0 ↔ k ∈ keys a := by
  simp [KeyAt]

variable [DecidableEq κ]

theorem OrderedMap.get?_setAll_const {ν : Type} (m : OrderedMap κ ν) (keys : List κ) (v : ν)
    (k : κ) :
    (m.setAll (keys.map (·, v))).get? k = if k ∈ keys then some v else m.get? k := by
  induction keys generalizing m with
  | nil => rfl
  | cons key keys ih =>
    show ((m.set key v).setAll (keys.map (·, v))).get? k = _
    rw [ih, get?_set]
    by_cases hkey : k = key <;> by_cases hkeys : k ∈ keys <;> simp [hkey, hkeys]

def latestFrom (keys : α → List κ) : OrderedMap κ Nat → Nat → List α → OrderedMap κ Nat
  | m, _, [] => m
  | m, i, a :: l => latestFrom keys (m.setAll ((keys a).map (·, i))) (i + 1) l

variable (keys)

def latestIndex (l : List α) : OrderedMap κ Nat :=
  latestFrom keys empty 0 l

theorem latestFrom_cases (m : OrderedMap κ Nat) (n : Nat) (l : List α) (k : κ) :
    (∃ i, KeyAt keys l k i ∧ (∀ j, i < j → ¬KeyAt keys l k j) ∧
      (latestFrom keys m n l).get? k = some (n + i)) ∨
    (∀ i, ¬KeyAt keys l k i) ∧ (latestFrom keys m n l).get? k = m.get? k := by
  induction l generalizing m n with
  | nil => exact .inr ⟨fun i ⟨a, ha, _⟩ => by simp at ha, rfl⟩
  | cons a l ih =>
    rcases ih (m.setAll ((keys a).map (·, n))) (n + 1) with ⟨i, hat, hlast, hget⟩ | ⟨hno, hget⟩
    · refine .inl ⟨i + 1, keyAt_cons_succ.2 hat, fun j hj => ?_, ?_⟩
      · obtain ⟨j, rfl⟩ : ∃ j', j = j' + 1 := ⟨j - 1, by omega⟩
        exact hlast j (by omega)
      · rw [latestFrom, hget]
        congr 1
        omega
    · rw [get?_setAll_const] at hget
      have hlater : ∀ j, 0 < j → ¬KeyAt keys (a :: l) k j := by
        intro j hj
        obtain ⟨j, rfl⟩ : ∃ j', j = j' + 1 := ⟨j - 1, by omega⟩
        exact hno j
      by_cases hk : k ∈ keys a
      · refine .inl ⟨0, keyAt_cons_zero.2 hk, hlater, ?_⟩
        rw [latestFrom, hget, if_pos hk]
        rfl
      · refine .inr ⟨fun i => ?_, ?_⟩
        · cases i with
          | zero => rwa [keyAt_cons_zero]
          | succ i => exact hlater (i + 1) (Nat.succ_pos i)
        · rw [latestFrom, hget, if_neg hk]

variable {keys}

theorem get?_latestIndex_eq_some :
    (latestIndex keys l).get? k = some i ↔ KeyAt keys l k i ∧ ∀ j, i < j → ¬KeyAt keys l k j := by
  rcases latestFrom_cases keys empty 0 l k with ⟨last, hat, hlast, hget⟩ | ⟨hno, hget⟩
  · rw [latestIndex, hget, Nat.zero_add, Option.some.injEq]
    constructor
    · rintro rfl
      exact ⟨hat, hlast⟩
    · rintro ⟨hi, hlater⟩
      rcases Nat.lt_trichotomy last i with hlt | heq | hlt
      · exact absurd hi (hlast i hlt)
      · exact heq
      · exact absurd hat (hlater last hlt)
  · rw [latestIndex, hget]
    constructor
    · intro h
      cases h
    · rintro ⟨hi, -⟩
      exact absurd hi (hno i)

theorem exists_latestIndex (h : KeyAt keys l k i) :
    ∃ last, i ≤ last ∧ (latestIndex keys l).get? k = some last := by
  obtain ⟨last, hle, hat, hlast⟩ := exists_last (P := KeyAt keys l k) (fun j hj => hj.lt_length) h
  exact ⟨last, hle, get?_latestIndex_eq_some.2 ⟨hat, hlast⟩⟩

theorem exists_latestIndex_gt :
    (∃ last, (latestIndex keys l).get? k = some last ∧ i < last) ↔ KeyAfter keys l k i := by
  constructor
  · rintro ⟨last, hget, hlt⟩
    exact ⟨last, hlt, (get?_latestIndex_eq_some.1 hget).1⟩
  · rintro ⟨j, hlt, hat⟩
    obtain ⟨last, hle, hget⟩ := exists_latestIndex hat
    exact ⟨last, hget, by omega⟩

end Latest

section Rewrite

variable {α : Type}

structure Rewritten (α : Type) where
  list : List α
  changed : List α
  saved : Nat

/-- Each element for which `f` gives a new one is replaced. -/
def rewriteLoop (f : Nat → α → Option (α × Nat)) : Nat → List α → Rewritten α
  | _, [] => ⟨[], [], 0⟩
  | i, a :: l =>
    let rest := rewriteLoop f (i + 1) l
    match f i a with
    | none => { rest with list := a :: rest.list }
    | some (a', saved) => ⟨a' :: rest.list, a' :: rest.changed, saved + rest.saved⟩

def rewrittenAt (f : Nat → α → Option (α × Nat)) (i : Nat) (a : α) : α :=
  ((f i a).map Prod.fst).getD a

variable {i n : Nat}

variable {f : Nat → α → Option (α × Nat)} {a : α}

theorem rewrittenAt_of_none (h : f i a = none) : rewrittenAt f i a = a := by
  rw [rewrittenAt, h]
  rfl

theorem rewrittenAt_of_some {a' : α} {saved : Nat} (h : f i a = some (a', saved)) :
    rewrittenAt f i a = a' := by
  rw [rewrittenAt, h]
  rfl

variable (f)

theorem rewriteLoop_cons_list (n : Nat) (a : α) (l : List α) :
    (rewriteLoop f n (a :: l)).list = rewrittenAt f n a :: (rewriteLoop f (n + 1) l).list := by
  rw [rewriteLoop]
  cases h : f n a with
  | none => rw [rewrittenAt_of_none h]
  | some rewrite => rw [rewrittenAt_of_some h]

theorem getElem?_rewriteLoop (n : Nat) (l : List α) (i : Nat) :
    (rewriteLoop f n l).list[i]? = l[i]?.map (rewrittenAt f (n + i)) := by
  induction l generalizing n i with
  | nil => simp [rewriteLoop]
  | cons a l ih =>
    rw [rewriteLoop_cons_list]
    cases i with
    | zero => rfl
    | succ i =>
      rw [List.getElem?_cons_succ, List.getElem?_cons_succ, ih]
      congr 2
      omega

variable {f}

variable {l : List α}

theorem rewriteLoop_changed_eq_nil :
    (rewriteLoop f n l).changed = [] ↔ ∀ i a, l[i]? = some a → f (n + i) a = none := by
  induction l generalizing n with
  | nil => simp [rewriteLoop]
  | cons a l ih =>
    rw [rewriteLoop]
    cases h : f n a with
    | none =>
      rw [ih]
      constructor
      · intro hall i b hb
        cases i with
        | zero =>
          cases hb
          exact h
        | succ i =>
          have hnone := hall i b hb
          rwa [show n + 1 + i = n + (i + 1) by omega] at hnone
      · intro hall i b hb
        have hnone := hall (i + 1) b hb
        rwa [show n + (i + 1) = n + 1 + i by omega] at hnone
    | some rewrite =>
      obtain ⟨a', saved⟩ := rewrite
      constructor
      · intro hnil
        cases hnil
      · intro hall
        have hnone := hall 0 a rfl
        rw [Nat.add_zero, h] at hnone
        cases hnone

theorem rewriteLoop_saved_of_changed_nil (h : (rewriteLoop f n l).changed = []) :
    (rewriteLoop f n l).saved = 0 := by
  induction l generalizing n with
  | nil => rfl
  | cons a l ih =>
    rw [rewriteLoop] at h ⊢
    cases ha : f n a with
    | none =>
      rw [ha] at h
      exact ih h
    | some rewrite =>
      rw [ha] at h
      cases h

theorem rewriteLoop_list_of_changed_nil (h : (rewriteLoop f n l).changed = []) :
    (rewriteLoop f n l).list = l := by
  apply List.ext_getElem?
  intro i
  rw [getElem?_rewriteLoop]
  cases ha : l[i]? with
  | none => rfl
  | some a => rw [Option.map_some, rewrittenAt_of_none (rewriteLoop_changed_eq_nil.1 h i a ha)]

end Rewrite

end Vibrato.Lib
