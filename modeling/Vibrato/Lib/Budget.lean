import Mathlib.Algebra.BigOperators.Group.List.Basic
import Mathlib.Algebra.GroupWithZero.Nat
import Mathlib.Data.List.Infix

/-! Lists under a budget: elements have a weight, and `takeBudget` keeps the longest start of a list
whose weight is within a budget, `lastBudget` the longest end. -/

namespace Vibrato.Lib

open List

variable {α : Type*} (w : α → Nat)

def totalWeight (l : List α) : Nat := (l.map w).sum

def takeBudget : Nat → List α → List α
  | _, [] => []
  | n, a :: l => if w a ≤ n then a :: takeBudget (n - w a) l else []

def lastBudget (n : Nat) (l : List α) : List α := (takeBudget w n l.reverse).reverse

@[simp] theorem totalWeight_nil : totalWeight w [] = 0 := rfl

@[simp] theorem totalWeight_cons (a : α) (l : List α) :
    totalWeight w (a :: l) = w a + totalWeight w l := by
  simp [totalWeight]

@[simp] theorem totalWeight_append (l m : List α) :
    totalWeight w (l ++ m) = totalWeight w l + totalWeight w m := by
  simp [totalWeight]

@[simp] theorem totalWeight_reverse (l : List α) : totalWeight w l.reverse = totalWeight w l := by
  rw [totalWeight, totalWeight, map_reverse, sum_reverse]

theorem takeBudget_isPrefix (n : Nat) (l : List α) : takeBudget w n l <+: l := by
  induction l generalizing n with
  | nil => exact prefix_refl []
  | cons a l ih =>
    rw [takeBudget]
    split
    · exact (prefix_cons_inj a).2 (ih (n - w a))
    · exact nil_prefix

theorem totalWeight_takeBudget_le (n : Nat) (l : List α) :
    totalWeight w (takeBudget w n l) ≤ n := by
  induction l generalizing n with
  | nil => exact Nat.zero_le n
  | cons a l ih =>
    rw [takeBudget]
    split
    · next ha =>
      have hrest := ih (n - w a)
      rw [totalWeight_cons]
      omega
    · exact Nat.zero_le n

variable {n : Nat}

variable {l rest : List α}

theorem takeBudget_eq_self (h : totalWeight w l ≤ n) : takeBudget w n l = l := by
  induction l generalizing n with
  | nil => rfl
  | cons a l ih =>
    rw [totalWeight_cons] at h
    rw [takeBudget, if_pos (by omega), ih (by omega)]

theorem lt_of_takeBudget_append {a : α}
    (h : l = takeBudget w n l ++ a :: rest) : n < totalWeight w (takeBudget w n l) + w a := by
  induction l generalizing n with
  | nil => simp [takeBudget] at h
  | cons b l ih =>
    rw [takeBudget] at h ⊢
    split at h
    · next hb =>
      rw [cons_append, List.cons.injEq] at h
      have hrest := ih h.2
      rw [if_pos hb, totalWeight_cons]
      omega
    · next hb =>
      rw [nil_append, List.cons.injEq] at h
      rw [← h.1]
      omega

theorem takeBudget_append_of_le (m : List α) (h : totalWeight w l ≤ n) :
    takeBudget w n (l ++ m) = l ++ takeBudget w (n - totalWeight w l) m := by
  induction l generalizing n with
  | nil => simp
  | cons a l ih =>
    rw [totalWeight_cons] at h
    rw [cons_append, takeBudget, if_pos (by omega), ih (by omega), totalWeight_cons, cons_append,
      Nat.sub_sub]

theorem takeBudget_append_of_lt (m : List α) (h : n < totalWeight w l) :
    takeBudget w n (l ++ m) = takeBudget w n l := by
  induction l generalizing n with
  | nil => cases h
  | cons a l ih =>
    rw [totalWeight_cons] at h
    rw [cons_append, takeBudget, takeBudget]
    split
    · rw [ih (by omega)]
    · rfl

theorem isPrefix_takeBudget {start : List α} (hstart : start <+: l)
    (h : totalWeight w start ≤ n) : start <+: takeBudget w n l := by
  obtain ⟨rest, rfl⟩ := hstart
  rw [takeBudget_append_of_le w rest h]
  exact prefix_append start _

theorem takeBudget_append_takeBudget {k : Nat} (hnk : n ≤ k) (l m : List α) :
    takeBudget w n (l ++ takeBudget w k m) = takeBudget w n (l ++ m) := by
  induction l generalizing n with
  | nil =>
    rw [nil_append, nil_append]
    induction m generalizing n k with
    | nil => rfl
    | cons a m ih =>
      by_cases hk : w a ≤ k
      · rw [takeBudget, if_pos hk, takeBudget, takeBudget]
        split
        · rw [ih (by omega)]
        · rfl
      · rw [takeBudget, if_neg hk, takeBudget, takeBudget, if_neg (by omega)]
  | cons a l ih =>
    rw [cons_append, cons_append, takeBudget, takeBudget]
    split
    · rw [ih (by omega)]
    · rfl

theorem lastBudget_isSuffix (n : Nat) (l : List α) : lastBudget w n l <:+ l := by
  have hprefix := takeBudget_isPrefix w n l.reverse
  rw [← reverse_suffix, reverse_reverse] at hprefix
  exact hprefix

theorem totalWeight_lastBudget_le (n : Nat) (l : List α) :
    totalWeight w (lastBudget w n l) ≤ n := by
  rw [lastBudget, totalWeight_reverse]
  exact totalWeight_takeBudget_le w n l.reverse

theorem lastBudget_eq_self (h : totalWeight w l ≤ n) : lastBudget w n l = l := by
  rw [lastBudget, takeBudget_eq_self w (by rwa [totalWeight_reverse]), reverse_reverse]

theorem isSuffix_lastBudget (hrest : rest <:+ l) (h : totalWeight w rest ≤ n) :
    rest <:+ lastBudget w n l := by
  rw [lastBudget, ← reverse_prefix, reverse_reverse]
  apply isPrefix_takeBudget
  · rwa [ reverse_prefix]
  · rwa [totalWeight_reverse]

theorem lastBudget_lastBudget_append (n : Nat) (l m : List α) :
    lastBudget w n (lastBudget w n l ++ m) = lastBudget w n (l ++ m) := by
  unfold lastBudget
  rw [reverse_append, reverse_append, reverse_reverse,
    takeBudget_append_takeBudget w (Nat.le_refl n)]

end Vibrato.Lib
