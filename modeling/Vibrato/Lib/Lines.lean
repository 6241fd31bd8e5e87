import Mathlib.Algebra.GroupWithZero.Nat
import Mathlib.Data.List.Basic

/-! Texts as lines that a separator joins. -/

namespace Vibrato.Lib

open List

variable {α : Type} [DecidableEq α] {sep : α} {s line : List α} {lines : List (List α)}

theorem not_mem_of_mem_splitOn (hline : line ∈ s.splitOn sep) : sep ∉ line := by
  induction s generalizing line with
  | nil =>
    simp only [splitOn_nil, mem_singleton] at hline
    simp [hline]
  | cons c s ih =>
    rw [splitOn_cons_eq_if_modifyHead] at hline
    split at hline
    · rcases mem_cons.1 hline with rfl | hmem
      · simp
      · exact ih hmem
    · next hc =>
      obtain ⟨head, tail, hsplit⟩ := exists_cons_of_ne_nil (splitOn_ne_nil sep s)
      rw [hsplit] at hline
      rcases mem_cons.1 hline with rfl | hmem
      · have hhead := ih (hsplit ▸ mem_cons_self)
        rw [mem_cons, not_or]
        exact ⟨fun heq => hc (by simp [heq]), hhead⟩
      · exact ih (hsplit ▸ mem_cons_of_mem _ hmem)

theorem length_splitOn (s : List α) : (s.splitOn sep).length = s.count sep + 1 := by
  induction s with
  | nil => rfl
  | cons c s ih =>
    rw [splitOn_cons_eq_if_modifyHead, count_cons]
    split
    · rw [length_cons, ih]
    · rw [length_modifyHead, ih]

theorem splitOn_eq_iff (hne : lines ≠ []) :
    s.splitOn sep = lines ↔ s = [sep].intercalate lines ∧ ∀ line ∈ lines, sep ∉ line := by
  constructor
  · rintro rfl
    exact ⟨(intercalate_splitOn sep).symm, fun line => not_mem_of_mem_splitOn⟩
  · rintro ⟨rfl, hlines⟩
    exact splitOn_intercalate sep hlines hne

omit [DecidableEq α]

theorem intercalate_concat (hne : lines ≠ []) (last : List α) :
    [sep].intercalate (lines ++ [last]) = [sep].intercalate lines ++ sep :: last := by
  induction lines with
  | nil => exact absurd rfl hne
  | cons line lines ih =>
    cases lines with
    | nil => simp
    | cons next lines =>
      have hrest := ih (by simp)
      simp only [cons_append] at hrest ⊢
      rw [intercalate_cons_cons, hrest]
      simp

theorem intercalate_append_left (above : List (List α)) (hne : lines ≠ []) :
    [sep].intercalate (above ++ lines) = above.flatMap (· ++ [sep]) ++ [sep].intercalate lines := by
  induction above with
  | nil => rfl
  | cons line above ih =>
    obtain ⟨next, rest, hcons⟩ := exists_cons_of_ne_nil (append_ne_nil_of_right_ne_nil above hne)
    rw [cons_append, hcons, intercalate_cons_cons, ← hcons, ih]
    simp

theorem intercalate_append_right (hne : lines ≠ []) (below : List (List α)) :
    [sep].intercalate (lines ++ below) = [sep].intercalate lines ++ below.flatMap (sep :: ·) := by
  induction below generalizing lines with
  | nil => simp
  | cons line below ih =>
    have hone := ih (append_ne_nil_of_left_ne_nil hne [line])
    rw [append_assoc, singleton_append] at hone
    rw [hone, intercalate_concat hne, flatMap_cons, append_assoc]

end Vibrato.Lib
