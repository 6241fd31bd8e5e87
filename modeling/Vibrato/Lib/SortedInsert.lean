import Mathlib.Data.List.Sort

/-! Lists in descending order of a key. -/

namespace Vibrato.Lib

open List

variable {α : Type*} (f : α → Nat)

def insertLast (a : α) (l : List α) : List α :=
  l.takeWhile (fun b => f a ≤ f b) ++ a :: l.dropWhile fun b => f a ≤ f b

@[simp] theorem insertLast_nil (a : α) : insertLast f a [] = [a] := rfl

theorem insertLast_cons_of_le {a b : α} (h : f a ≤ f b) (l : List α) :
    insertLast f a (b :: l) = b :: insertLast f a l := by
  simp [insertLast, h]

theorem insertLast_cons_of_lt {a b : α} (h : f b < f a) (l : List α) :
    insertLast f a (b :: l) = a :: b :: l := by
  simp [insertLast, Nat.not_le_of_lt h]

theorem orderedInsert_insertLast (a b : α) (l : List α) :
    (insertLast f a l).orderedInsert (fun x y => f y ≤ f x) b =
      insertLast f a (l.orderedInsert (fun x y => f y ≤ f x) b) := by
  induction l with
  | nil =>
    rw [insertLast_nil, orderedInsert_cons, orderedInsert_nil]
    split
    · next hle => rw [insertLast_cons_of_le f hle, insertLast_nil]
    · next hlt => rw [insertLast_cons_of_lt f (Nat.lt_of_not_le hlt)]
  | cons c l ih =>
    obtain hac | hca := Nat.lt_or_ge (f c) (f a)
    · rw [insertLast_cons_of_lt f hac, orderedInsert_cons, orderedInsert_cons]
      by_cases hcb : f c ≤ f b
      · split
        · next hab => rw [insertLast_cons_of_le f hab, insertLast_cons_of_lt f hac]
        · next hba => rw [insertLast_cons_of_lt f (Nat.lt_of_not_le hba)]
      · rw [if_neg hcb, if_neg (by omega), insertLast_cons_of_lt f hac]
    · rw [insertLast_cons_of_le f hca, orderedInsert_cons, orderedInsert_cons]
      split
      · next hcb =>
        rw [insertLast_cons_of_le f (hca.trans hcb), insertLast_cons_of_le f hca]
      · rw [insertLast_cons_of_le f hca, ih]

theorem insertionSort_concat (a : α) (l : List α) :
    (l ++ [a]).insertionSort (fun x y => f y ≤ f x) =
      insertLast f a (l.insertionSort fun x y => f y ≤ f x) := by
  induction l with
  | nil => rfl
  | cons b l ih =>
    rw [cons_append, insertionSort_cons, ih, orderedInsert_insertLast, ← insertionSort_cons]

theorem pairwise_insertionSort_key (l : List α) :
    (l.insertionSort fun x y => f y ≤ f x).Pairwise fun x y => f y ≤ f x := by
  have : Std.Total fun x y : α => f y ≤ f x := ⟨fun x y => Nat.le_total (f y) (f x)⟩
  have : IsTrans α fun x y => f y ≤ f x := ⟨fun _ _ _ hxy hyz => hyz.trans hxy⟩
  exact pairwise_insertionSort _ l

theorem lt_length_takeWhile_iff {l : List α} (hl : l.Pairwise fun x y => f y ≤ f x)
    {n i : Nat} {b : α}
    (hb : l[i]? = some b) : i < (l.takeWhile fun x => n ≤ f x).length ↔ n ≤ f b := by
  induction l generalizing i with
  | nil => simp at hb
  | cons a l ih =>
    obtain ⟨hfirst, hrest⟩ := pairwise_cons.1 hl
    by_cases ha : n ≤ f a
    · rw [takeWhile_cons_of_pos (by simpa using ha), length_cons]
      cases i with
      | zero =>
        obtain rfl := Option.some.inj hb
        exact ⟨fun _ => ha, fun _ => Nat.succ_pos _⟩
      | succ i =>
        rw [Nat.add_lt_add_iff_right]
        exact ih hrest hb
    · rw [takeWhile_cons_of_neg (by simpa using ha)]
      have hle : f b ≤ f a := by
        cases i with
        | zero =>
          obtain rfl := Option.some.inj hb
          exact Nat.le_refl _
        | succ i => exact hfirst b (mem_of_getElem? hb)
      constructor
      · intro h
        cases h
      · intro h
        omega

end Vibrato.Lib
