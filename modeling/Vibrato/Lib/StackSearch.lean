import Mathlib.Algebra.Order.BigOperators.Group.List
import Mathlib.Algebra.Order.Ring.Nat

/-! Searches with a stack and a record of the visited nodes.  A search may change a state at each
node it visits. -/

namespace Vibrato.Lib

open List

variable {α σ : Type} [DecidableEq α]

section

variable (stop : α → Bool) (expand : σ → α → σ × List α)

/-- Whether a stopping node was found, and the state at the end.  The head of the list is the top of
the stack. -/
def search : Nat → σ → List α → List α → Option (Bool × σ)
  | 0, _, _, _ => none
  | _ + 1, state, _, [] => some (false, state)
  | fuel + 1, state, visited, current :: stack =>
    if stop current then some (true, state)
    else if current ∈ visited then search fuel state visited stack
    else
      let (state, next) := expand state current
      search fuel state (current :: visited) (next ++ stack)

def unvisitedWeight (weight : α → Nat) (nodes visited : List α) : Nat :=
  ((nodes.filter (· ∉ visited)).map weight).sum

end

variable {weight : α → Nat} {nodes stack visited : List α}

theorem unvisitedWeight_cons {a : α} (hfresh : a ∉ visited) (ha : a ∉ nodes → weight a = 0) :
    unvisitedWeight weight nodes (a :: visited) + weight a ≤
      unvisitedWeight weight nodes visited := by
  have hle : ∀ nodes : List α, unvisitedWeight weight nodes (a :: visited) ≤
      unvisitedWeight weight nodes visited := by
    intro nodes
    refine List.Sublist.sum_le_sum (List.Sublist.map _ (monotone_filter_right _ ?_)) (by simp)
    intro b
    simp
  by_cases hmem : a ∈ nodes
  · clear ha
    induction nodes with
    | nil => cases hmem
    | cons b rest ih =>
      have hcons : ∀ seen : List α, unvisitedWeight weight (b :: rest) seen =
          (if b ∈ seen then 0 else weight b) + unvisitedWeight weight rest seen := by
        intro seen
        by_cases hb : b ∈ seen <;> simp [unvisitedWeight, hb]
      rw [hcons, hcons]
      by_cases hab : b = a
      · subst hab
        have hrest := hle rest
        simp only [mem_cons_self, if_true, if_neg hfresh]
        omega
      · have hrest := ih ((mem_cons.1 hmem).resolve_left (Ne.symm hab))
        have hsame : b ∈ a :: visited ↔ b ∈ visited := by simp [hab]
        simp only [hsame]
        omega
  · rw [ha hmem]
    exact hle nodes

variable {stop : α → Bool} {expand : σ → α → σ × List α} {I : σ → Prop}

variable {fuel : Nat}

variable (hI : ∀ state a, I state → I (expand state a).1)
include hI

theorem search_isSome (hweight : ∀ state a, I state → (expand state a).2.length ≤ weight a)
    (hnodes : ∀ a, a ∉ nodes → weight a = 0) {state : σ}
    (hstate : I state) (hfuel : stack.length + unvisitedWeight weight nodes visited < fuel) :
    ∃ result, search stop expand fuel state visited stack = some result := by
  induction fuel generalizing state visited stack with
  | zero => omega
  | succ fuel ih =>
    cases stack with
    | nil => exact ⟨_, rfl⟩
    | cons current stack =>
      rw [search]
      rw [length_cons] at hfuel
      split
      · exact ⟨_, rfl⟩
      · split
        · exact ih hstate (by omega)
        · next hfresh =>
          have hle := unvisitedWeight_cons hfresh (hnodes current)
          have hnext := hweight state current hstate
          exact ih (hI state current hstate) (by rw [length_append]; omega)

theorem search_invariant {state : σ} (hstate : I state) {result : Bool × σ}
    (h : search stop expand fuel state visited stack = some result) : I result.2 := by
  induction fuel generalizing state visited stack with
  | zero => cases h
  | succ fuel ih =>
    cases stack with
    | nil =>
      cases h
      exact hstate
    | cons current stack =>
      rw [search] at h
      split at h
      · cases h
        exact hstate
      · split at h
        · exact ih hstate h
        · exact ih (hI state current hstate) h

omit hI

section

variable {R : α → α → Prop} (hI : ∀ state a, I state → I (expand state a).1)
  (hR : ∀ state a, I state → ∀ b, b ∈ (expand state a).2 ↔ R a b)

include hI hR

variable {fuel : Nat} {stack visited : List α} {end' : σ}

theorem search_sound {state : σ} (hstate : I state)
    (h : search stop expand fuel state visited stack = some (true, end')) :
    ∃ start ∈ stack, ∃ a, Relation.ReflTransGen R start a ∧ stop a = true := by
  induction fuel generalizing state visited stack with
  | zero => cases h
  | succ fuel ih =>
    cases stack with
    | nil => cases h
    | cons current stack =>
      rw [search] at h
      split at h
      · next hstop => exact ⟨current, mem_cons_self, current, .refl, hstop⟩
      · split at h
        · obtain ⟨start, hstart, hreach⟩ := ih hstate h
          exact ⟨start, mem_cons_of_mem _ hstart, hreach⟩
        · obtain ⟨start, hstart, a, hreach, ha⟩ := ih (hI state current hstate) h
          rcases mem_append.1 hstart with hnext | hstart
          · have hstep := (hR state current hstate start).1 hnext
            exact ⟨current, mem_cons_self, a, .head hstep hreach, ha⟩
          · exact ⟨start, mem_cons_of_mem _ hstart, a, hreach, ha⟩

theorem search_complete {state : σ} (hstate : I state)
    (hvisited : ∀ v ∈ visited, stop v = false ∧ ∀ b, R v b → b ∈ visited ∨ b ∈ stack)
    (h : search stop expand fuel state visited stack = some (false, end')) {start a : α}
    (hstart : start ∈ visited ∨ start ∈ stack) (hreach : Relation.ReflTransGen R start a) :
    stop a = false := by
  induction fuel generalizing state visited stack with
  | zero => cases h
  | succ fuel ih =>
    cases stack with
    | nil =>
      -- the visited nodes are closed under links
      have hclosed : a ∈ visited := by
        clear ih
        induction hreach with
        | refl => exact hstart.resolve_right not_mem_nil
        | tail _ hstep ih' => exact ((hvisited _ ih').2 _ hstep).resolve_right not_mem_nil
      exact (hvisited a hclosed).1
    | cons current stack =>
      rw [search] at h
      split at h
      · cases h
      · next hstop =>
        split at h
        · next hseen =>
          have hmove : ∀ b, b ∈ visited ∨ b ∈ current :: stack → b ∈ visited ∨ b ∈ stack := by
            intro b hb
            rcases hb with hb | hb
            · exact .inl hb
            · rcases mem_cons.1 hb with rfl | hb
              · exact .inl hseen
              · exact .inr hb
          refine ih hstate (fun v hv => ⟨(hvisited v hv).1, fun b hb => ?_⟩) h (hmove _ hstart)
          exact hmove b ((hvisited v hv).2 b hb)
        · have hmove : ∀ b, b ∈ visited ∨ b ∈ current :: stack →
              b ∈ current :: visited ∨ b ∈ (expand state current).2 ++ stack := by
            intro b hb
            rcases hb with hb | hb
            · exact .inl (mem_cons_of_mem _ hb)
            · rcases mem_cons.1 hb with rfl | hb
              · exact .inl mem_cons_self
              · exact .inr (mem_append_right _ hb)
          refine ih (hI state current hstate) (fun v hv => ?_) h (hmove _ hstart)
          rcases mem_cons.1 hv with rfl | hv
          · refine ⟨by simpa using hstop, fun b hb => .inr ?_⟩
            exact mem_append_left _ ((hR state v hstate b).2 hb)
          · exact ⟨(hvisited v hv).1, fun b hb => hmove b ((hvisited v hv).2 b hb)⟩

end

end Vibrato.Lib
