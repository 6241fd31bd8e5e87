import Mathlib.Algebra.BigOperators.Group.List.Basic
import Mathlib.Algebra.Ring.Int.Defs

/-! Lists that a loop changes at given positions, one after another. -/

namespace Vibrato.Lib

open List

variable {α : Type}

variable (writes : List (Nat × α))

def setEach (l : List α) : List α :=
  writes.foldl (fun l write => l.set write.1 write.2) l

@[simp] theorem setEach_nil (l : List α) : setEach [] l = l := rfl

@[simp] theorem setEach_cons (write : Nat × α) (writes : List (Nat × α)) (l : List α) :
    setEach (write :: writes) l = setEach writes (l.set write.1 write.2) := rfl

@[simp] theorem length_setEach (l : List α) : (setEach writes l).length = l.length := by
  induction writes generalizing l with
  | nil => rfl
  | cons write writes ih => rw [setEach_cons, ih, length_set]

variable {writes : List (Nat × α)} {i : Nat}

theorem getElem?_setEach_of_ne (h : ∀ write ∈ writes, write.1 ≠ i) (l : List α) :
    (setEach writes l)[i]? = l[i]? := by
  induction writes generalizing l with
  | nil => rfl
  | cons write writes ih =>
    rw [setEach_cons, ih fun write hmem => h write (mem_cons_of_mem _ hmem),
      getElem?_set_ne (h write mem_cons_self)]

variable {a : α} {l : List α}

theorem getElem?_setEach_of_mem (hdistinct : writes.Pairwise fun a b => a.1 ≠ b.1)
    (hmem : (i, a) ∈ writes)
    (hi : i < l.length) : (setEach writes l)[i]? = some a := by
  induction writes generalizing l with
  | nil => cases hmem
  | cons write writes ih =>
    obtain ⟨hhead, hrest⟩ := pairwise_cons.mp hdistinct
    rw [setEach_cons]
    rcases mem_cons.mp hmem with rfl | hmem
    · rw [getElem?_setEach_of_ne fun other hother => (hhead other hother).symm,
        getElem?_set_self hi]
    · exact ih hrest hmem (by rwa [length_set])

theorem set_eq_self_of_getElem? (h : l[i]? = some a) : l.set i a = l := by
  refine ext_getElem? fun j => ?_
  by_cases hij : i = j
  · subst hij
    obtain ⟨hlt, -⟩ := List.getElem?_eq_some_iff.mp h
    rw [getElem?_set_self hlt, h]
  · rw [getElem?_set_ne hij]

theorem map_setEach_of_eq {β : Type} (f : α → β)
    (h : ∀ write ∈ writes, (l.map f)[write.1]? = some (f write.2)) :
    (setEach writes l).map f = l.map f := by
  induction writes generalizing l with
  | nil => rfl
  | cons write writes ih =>
    have hset : (l.set write.1 write.2).map f = l.map f := by
      rw [map_set, set_eq_self_of_getElem? (h write mem_cons_self)]
    rw [setEach_cons, ih, hset]
    intro other hother
    rw [hset]
    exact h other (mem_cons_of_mem _ hother)

theorem sum_map_set (f : α → Int) (h : l[i]? = some a) (b : α) :
    ((l.set i b).map f).sum = (l.map f).sum + (f b - f a) := by
  induction l generalizing i with
  | nil => cases h
  | cons head tail ih =>
    cases i with
    | zero =>
      cases h
      simp only [set_cons_zero, map_cons, sum_cons]
      omega
    | succ i =>
      have htail := ih (i := i) (by simpa using h)
      simp only [set_cons_succ, map_cons, sum_cons, htail]
      omega

theorem sum_map_setEach (f : α → Int) (hdistinct : writes.Pairwise fun a b => a.1 ≠ b.1)
    {old : Nat × α → α}
    (hold : ∀ write ∈ writes, l[write.1]? = some (old write)) :
    ((setEach writes l).map f).sum =
      (l.map f).sum + (writes.map fun write => f write.2 - f (old write)).sum := by
  induction writes generalizing l with
  | nil => simp
  | cons write writes ih =>
    obtain ⟨hhead, hrest⟩ := pairwise_cons.mp hdistinct
    have hwrite := hold write mem_cons_self
    have hold' : ∀ other ∈ writes, (l.set write.1 write.2)[other.1]? = some (old other) := by
      intro other hother
      rw [getElem?_set_ne (hhead other hother)]
      exact hold other (mem_cons_of_mem _ hother)
    rw [setEach_cons, ih hrest hold', sum_map_set f hwrite, map_cons, sum_cons]
    omega

end Vibrato.Lib
