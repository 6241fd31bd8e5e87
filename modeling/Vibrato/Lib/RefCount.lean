import Vibrato.Lib.OrderedMap

/-! Reference counts in a map: a key is counted up for each holder, down when a holder lets go, and
is free when the last one has. -/

namespace Vibrato.Lib.RefCount

open OrderedMap

variable {κ : Type} [DecidableEq κ]

variable (refs : OrderedMap κ Nat)

def retain (k : κ) : OrderedMap κ Nat := refs.set k ((refs.get? k).getD 0 + 1)

def retainAll (ks : List κ) : OrderedMap κ Nat := ks.foldl retain refs

def release (k : κ) : OrderedMap κ Nat × List κ :=
  let left := (refs.get? k).getD 1 - 1
  if 0 < left then (refs.set k left, []) else (refs.erase k, [k])

def releaseAll (refs : OrderedMap κ Nat) : List κ → OrderedMap κ Nat × List κ
  | [] => (refs, [])
  | k :: ks =>
    let (refs, freed) := release refs k
    let (refs, rest) := releaseAll refs ks
    (refs, freed ++ rest)

def Counts (n : κ → Nat) : Prop :=
  ∀ k, refs.get? k = if n k = 0 then none else some (n k)

variable {refs : OrderedMap κ Nat} {n : κ → Nat}

theorem count_cons_eq (k k' : κ) (ks : List κ) :
    (k :: ks).count k' = ks.count k' + if k' = k then 1 else 0 := by
  by_cases hk : k' = k
  · simp [hk]
  · have hne : k ≠ k' := fun heq => hk heq.symm
    simp [hk, hne]

theorem Counts.congr {n' : κ → Nat} (h : Counts refs n) (heq : ∀ k, n k = n' k) :
    Counts refs n' := by
  intro k
  rw [← heq]
  exact h k

theorem Counts.has_iff (h : Counts refs n) (k : κ) : refs.has k = true ↔ n k ≠ 0 := by
  unfold has
  rw [h k]
  split
  · next hzero => simp [hzero]
  · next hne => simp [hne]

theorem Counts.retain (h : Counts refs n) (k : κ) :
    Counts (retain refs k) fun k' => n k' + if k' = k then 1 else 0 := by
  intro k'
  unfold RefCount.retain
  rw [get?_set]
  by_cases hk : k' = k
  · subst hk
    have hold : (refs.get? k').getD 0 = n k' := by
      rw [h k']
      split
      · next hzero => exact hzero.symm
      · rfl
    simp [hold]
  · simp only [if_neg hk, Nat.add_zero]
    exact h k'

theorem Counts.retainAll (h : Counts refs n) (ks : List κ) :
    Counts (retainAll refs ks) fun k => n k + ks.count k := by
  induction ks generalizing refs n with
  | nil => exact h
  | cons k ks ih =>
    apply (ih (h.retain k)).congr
    intro k'
    rw [count_cons_eq]
    omega

theorem Counts.release {k : κ} (h : Counts refs fun k' => n k' + if k' = k then 1 else 0) :
    Counts (release refs k).1 n ∧ (release refs k).2 = if n k = 0 then [k] else [] := by
  have hget : refs.get? k = some (n k + 1) := by simpa using h k
  have hother : ∀ k', k' ≠ k → refs.get? k' = if n k' = 0 then none else some (n k') := by
    intro k' hne
    simpa [hne] using h k'
  unfold RefCount.release
  simp only [hget, Option.getD_some, Nat.add_sub_cancel]
  by_cases hzero : n k = 0
  · simp only [hzero, Nat.lt_irrefl, if_false, if_true, and_true]
    intro k'
    by_cases hk : k' = k
    · subst hk
      simp [hzero]
    · rw [get?_erase_ne _ hk, hother k' hk]
  · simp only [Nat.pos_of_ne_zero hzero, hzero, if_true, if_false, and_true]
    intro k'
    by_cases hk : k' = k
    · subst hk
      simp [hzero]
    · rw [get?_set_ne _ _ hk, hother k' hk]

theorem Counts.releaseAll {ks : List κ} (h : Counts refs fun k => n k + ks.count k) :
    Counts (releaseAll refs ks).1 n ∧ ∀ k ∈ (releaseAll refs ks).2, k ∈ ks ∧ n k = 0 := by
  induction ks generalizing refs with
  | nil => exact ⟨h, fun k hk => absurd hk List.not_mem_nil⟩
  | cons k ks ih =>
    have hone : Counts refs fun k' => (n k' + ks.count k') + if k' = k then 1 else 0 := by
      apply h.congr
      intro k'
      rw [count_cons_eq]
      omega
    obtain ⟨hrest, hfreed⟩ := hone.release
    obtain ⟨hcounts, hfree⟩ := ih hrest
    refine ⟨hcounts, ?_⟩
    intro k' hk'
    replace hk' : k' ∈ (RefCount.release refs k).2 ++
      (RefCount.releaseAll (RefCount.release refs k).1 ks).2 := hk'
    rcases List.mem_append.mp hk' with hfirst | hlater
    · rw [hfreed] at hfirst
      split at hfirst
      · next hzero =>
        obtain rfl := List.mem_singleton.mp hfirst
        exact ⟨List.mem_cons_self, by omega⟩
      · cases hfirst
    · obtain ⟨hmem, hzero⟩ := hfree k' hlater
      exact ⟨List.mem_cons_of_mem _ hmem, hzero⟩

end Vibrato.Lib.RefCount
