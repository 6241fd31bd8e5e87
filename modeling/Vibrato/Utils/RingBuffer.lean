import Mathlib.Data.List.Basic
import Mathlib.Data.Nat.ModEq

/-! `utils/src/ring.ts`: the ring buffer is a queue with two ends, bounded by its capacity. -/

namespace Vibrato.Utils

open List Function

/-- The cells of the array by their index; `none` is `undefined`. -/
structure RingBuffer (α : Type) where
  capacity : Nat
  buf : Nat → Option α := fun _ => none
  head : Nat := 0
  size : Nat := 0

inductive RingOp (α : Type)
  | push (item : α)
  | unshift (item : α)
  | pop
  | shift
  | clear

namespace RingBuffer

variable {α : Type} (r : RingBuffer α)

def push (item : α) : RingBuffer α × Option α :=
  let idx := (r.head + r.size) % r.capacity
  let buf := update r.buf idx (some item)
  if r.size = r.capacity then ({ r with buf, head := (r.head + 1) % r.capacity }, r.buf idx)
  else ({ r with buf, size := r.size + 1 }, none)

def shift : RingBuffer α × Option α :=
  if r.size = 0 then (r, none)
  else
    ({ r with
        buf := update r.buf r.head none
        head := (r.head + 1) % r.capacity
        size := r.size - 1 }, r.buf r.head)

def pop : RingBuffer α × Option α :=
  if r.size = 0 then (r, none)
  else
    let idx := (r.head + r.size - 1) % r.capacity
    ({ r with buf := update r.buf idx none, size := r.size - 1 }, r.buf idx)

def unshift (item : α) : RingBuffer α × Option α :=
  let head := (r.head + r.capacity - 1) % r.capacity
  let buf := update r.buf head (some item)
  if r.size = r.capacity then ({ r with buf, head }, r.buf head)
  else ({ r with buf, head, size := r.size + 1 }, none)

def at? (index : Int) : Option α :=
  let index := if index < 0 then index + r.size else index
  if index < 0 ∨ r.size ≤ index then none else r.buf ((r.head + index.toNat) % r.capacity)

def peek : Option α := r.at? 0

def peekBack : Option α := r.at? (r.size - 1)

def clear : RingBuffer α :=
  { r with buf := fun i => if i < r.capacity then none else r.buf i, head := 0, size := 0 }

def iterate : List (Option α) := (range r.size).map fun i => r.buf ((r.head + i) % r.capacity)

def slice (start stop : Nat) : List (Option α) :=
  (range' start (min stop r.capacity - start)).map r.buf

def toArray : List (Option α) :=
  if r.head + r.size ≤ r.capacity then r.slice r.head (r.head + r.size)
  else r.slice r.head r.capacity ++ r.slice 0 ((r.head + r.size) % r.capacity)

def apply : RingOp α → RingBuffer α × Option α
  | .push item => r.push item
  | .unshift item => r.unshift item
  | .pop => r.pop
  | .shift => r.shift
  | .clear => (r.clear, none)

/-- What the operations do to a queue bounded by `capacity`, with the oldest element first. -/
def dequeApply (capacity : Nat) (q : List α) : RingOp α → List α × Option α
  | .push item => if q.length = capacity then (q.tail ++ [item], q.head?) else (q ++ [item], none)
  | .unshift item =>
      if q.length = capacity then (item :: q.dropLast, q.getLast?) else (item :: q, none)
  | .pop => (q.dropLast, q.getLast?)
  | .shift => (q.tail, q.head?)
  | .clear => ([], none)

/-- The queue is in the cells from `head` on, around the end of the array. -/
def Window (buf : Nat → Option α) (capacity : Nat) : Nat → List α → Prop
  | _, [] => True
  | head, x :: q => buf (head % capacity) = some x ∧ Window buf capacity (head + 1) q

section Window

variable {buf : Nat → Option α} {capacity head : Nat} {q : List α}

theorem window_append {q' : List α} : Window buf capacity head (q ++ q') ↔
    Window buf capacity head q ∧ Window buf capacity (head + q.length) q' := by
  induction q generalizing head with
  | nil => simp [Window]
  | cons x q ih =>
    rw [cons_append, Window, Window, ih, and_assoc, length_cons, Nat.add_assoc, Nat.add_comm 1]

theorem window_congr {head' : Nat} (h : head ≡ head' [MOD capacity]) :
    Window buf capacity head q ↔ Window buf capacity head' q := by
  induction q generalizing head head' with
  | nil => rfl
  | cons x q ih =>
      rw [Window, Window, ih (h.add_right 1), show head % capacity = head' % capacity from h]

theorem Window.update {j : Nat} (h : Window buf capacity head q) (y : Option α) (hle : q.length ≤ j)
    (hj : j < capacity) : Window (update buf ((head + j) % capacity) y) capacity head q := by
  induction q generalizing head j with
  | nil => trivial
  | cons x q ih =>
    rw [length_cons] at hle
    have hne : head % capacity ≠ (head + j) % capacity := by
      intro heq
      have hzero := (Nat.ModEq.add_left_cancel' head
          (show head + 0 ≡ head + j [MOD capacity] from heq)).eq_of_lt_of_lt
        (by omega) hj
      omega
    refine ⟨by rw [update_of_ne hne, h.1], ?_⟩
    have htail := ih h.2 (j := j - 1) (by omega) (by omega)
    rwa [show head + 1 + (j - 1) = head + j by omega] at htail

theorem Window.get (h : Window buf capacity head q) {i : Nat} (hi : i < q.length) :
    buf ((head + i) % capacity) = q[i]? := by
  induction q generalizing head i with
  | nil => cases hi
  | cons x q ih =>
    cases i with
    | zero => exact h.1
    | succ i =>
      rw [getElem?_cons_succ, ← ih h.2 (Nat.lt_of_succ_lt_succ hi), Nat.add_assoc, Nat.add_comm 1]

end Window

structure Holds (q : List α) : Prop where
  head : r.head < r.capacity
  size : r.size = q.length
  le : q.length ≤ r.capacity
  window : Window r.buf r.capacity r.head q

variable {r} {q : List α}

variable (h : r.Holds q)
include h

theorem Holds.push (item : α) : (r.push item).2 = (dequeApply r.capacity q (.push item)).2 ∧
    (r.push item).1.Holds (dequeApply r.capacity q (.push item)).1 := by
  obtain ⟨hhead, hsize, hle, hwindow⟩ := h
  rw [RingBuffer.push, dequeApply, hsize]
  split
  · next hfull =>
    cases q with
    | nil => exact absurd hfull (by simp; omega)
    | cons x q =>
      have hidx :
          (r.head + (x :: q).length) % r.capacity = (r.head + 1 + q.length) % r.capacity := by
        rw [length_cons, Nat.add_assoc, Nat.add_comm 1]
      have hfirst : (r.head + 1 + q.length) % r.capacity = r.head % r.capacity := by
        rw [← hidx, hfull, Nat.add_mod_right]
      have hfree :=
        hwindow.2.update (some item) (j := q.length) (Nat.le_refl _) (by rw [← hfull]; simp)
      rw [hidx]
      refine ⟨?_, Nat.mod_lt _ (by omega), by simp, by simpa using hle, ?_⟩
      · rw [hfirst]
        exact hwindow.1
      · exact (window_congr (Nat.mod_modEq ..)).mpr
          (window_append.mpr ⟨hfree, update_self .., trivial⟩)
  · next hnotFull =>
    have hlt : q.length < r.capacity := by omega
    refine ⟨rfl, hhead, by simp, by simpa, window_append.mpr ⟨?_, update_self .., trivial⟩⟩
    exact hwindow.update _ (Nat.le_refl _) hlt

theorem Holds.unshift (item : α) :
    (r.unshift item).2 = (dequeApply r.capacity q (.unshift item)).2 ∧
      (r.unshift item).1.Holds (dequeApply r.capacity q (.unshift item)).1 := by
  obtain ⟨hhead, hsize, hle, hwindow⟩ := h
  rw [RingBuffer.unshift, dequeApply, hsize]
  -- the new cell is the last one behind the queue
  have hfree : ∀ q : List α, q.length < r.capacity → Window r.buf r.capacity r.head q →
      Window (update r.buf ((r.head + r.capacity - 1) % r.capacity) (some item)) r.capacity
        ((r.head + r.capacity - 1) % r.capacity) (item :: q) := by
    intro q hlt hwindow
    refine (window_congr (Nat.mod_modEq ..)).mpr ⟨update_self .., ?_⟩
    have hupdate := hwindow.update (some item) (j := r.capacity - 1) (by omega) (by omega)
    rw [← Nat.add_sub_assoc (by omega)] at hupdate
    refine (window_congr ?_).mp hupdate
    rw [Nat.sub_add_cancel (by omega)]
    exact (Nat.add_mod_right ..).symm
  have hmod : (r.head + r.capacity - 1) % r.capacity < r.capacity := Nat.mod_lt _ (by omega)
  split
  · next hfull =>
    obtain rfl | ⟨q, x, rfl⟩ := q.eq_nil_or_concat'
    · exact absurd hfull (by simp; omega)
    · rw [length_append, length_singleton] at hfull
      refine ⟨?_, hmod, ?_, ?_, ?_⟩
      · rw [getLast?_concat, ← (window_append.mp hwindow).2.1, ← hfull]
        rfl
      · simp
      · simpa using hfull.le
      · rw [dropLast_concat]
        exact hfree q (by omega) (window_append.mp hwindow).1
  · next hnotFull =>
    have hlt : q.length < r.capacity := by omega
    exact ⟨rfl, hmod, by simp, hlt, hfree q hlt hwindow⟩

theorem Holds.shift : r.shift.2 = q.head? ∧ r.shift.1.Holds q.tail := by
  obtain ⟨hhead, hsize, hle, hwindow⟩ := h
  rw [RingBuffer.shift, hsize]
  cases q with
  | nil => exact ⟨rfl, hhead, hsize, hle, hwindow⟩
  | cons x q =>
    rw [if_neg (by simp)]
    rw [length_cons] at hle
    refine ⟨by rw [head?_cons, ← hwindow.1, Nat.mod_eq_of_lt hhead],
      Nat.mod_lt _ (by omega), by simp, by simp; omega, ?_⟩
    have hupdate := hwindow.2.update none (j := r.capacity - 1) (by omega) (by omega)
    rw [show r.head + 1 + (r.capacity - 1) = r.head + r.capacity by omega, Nat.add_mod_right,
      Nat.mod_eq_of_lt hhead] at hupdate
    exact (window_congr (Nat.mod_modEq ..)).mpr hupdate

theorem Holds.pop : r.pop.2 = q.getLast? ∧ r.pop.1.Holds q.dropLast := by
  obtain ⟨hhead, hsize, hle, hwindow⟩ := h
  rw [RingBuffer.pop, hsize]
  obtain rfl | ⟨q, x, rfl⟩ := q.eq_nil_or_concat'
  · exact ⟨rfl, hhead, hsize, hle, hwindow⟩
  · obtain ⟨hfront, hlast, -⟩ := window_append.mp hwindow
    rw [length_append] at hle ⊢
    rw [getLast?_concat, dropLast_concat, ← hlast]
    exact ⟨rfl, hhead, rfl, Nat.le_of_succ_le hle, hfront.update _ (Nat.le_refl _) hle⟩

theorem Holds.apply (op : RingOp α) : (r.apply op).2 = (dequeApply r.capacity q op).2 ∧
    (r.apply op).1.Holds (dequeApply r.capacity q op).1 := by
  cases op with
  | push item => exact h.push item
  | unshift item => exact h.unshift item
  | pop => exact h.pop
  | shift => exact h.shift
  | clear => exact ⟨rfl, Nat.zero_lt_of_lt h.head, rfl, Nat.zero_le _, trivial⟩

theorem Holds.iterate : r.iterate = q.map some := by
  refine ext_getElem? fun i => ?_
  rw [RingBuffer.iterate, h.size]
  rcases Nat.lt_or_ge i q.length with hlt | hge
  · rw [getElem?_map, getElem?_range hlt, Option.map_some, h.window.get hlt, getElem?_map,
      getElem?_eq_getElem hlt, Option.map_some]
  · rw [getElem?_eq_none (by simpa), getElem?_eq_none (by simpa)]

theorem Holds.toArray : r.toArray = q.map some := by
  have hhead := h.head
  have hsize := h.size
  have hle := h.le
  rw [← h.iterate, RingBuffer.toArray, RingBuffer.iterate]
  split
  · rw [slice, Nat.min_eq_left ‹_›, Nat.add_sub_cancel_left, range'_eq_map_range, map_map]
    refine map_congr_left fun i hi => ?_
    rw [mem_range] at hi
    rw [Nat.mod_eq_of_lt (by omega)]
    rfl
  · have hrest : (r.head + r.size) % r.capacity = r.head + r.size - r.capacity := by
      rw [Nat.mod_eq_sub_mod (by omega), Nat.mod_eq_of_lt (by omega)]
    have hrange : range r.size = range (r.capacity - r.head) ++
        (range (r.head + r.size - r.capacity)).map (r.capacity - r.head + ·) := by
      rw [← range_add]
      congr 1
      omega
    rw [slice, slice, hrest, Nat.min_self, Nat.min_eq_left (by omega), range'_eq_map_range,
      range'_eq_map_range, hrange, map_append, map_map, map_map, map_map, Nat.sub_zero]
    refine congrArg₂ _ (map_congr_left fun i hi => ?_) (map_congr_left fun i hi => ?_)
    · rw [mem_range] at hi
      rw [Nat.mod_eq_of_lt (by omega)]
      rfl
    · rw [mem_range] at hi
      simp only [comp_apply]
      rw [show r.head + (r.capacity - r.head + i) = i + r.capacity by omega, Nat.add_mod_right,
        Nat.mod_eq_of_lt (by omega), Nat.zero_add]

omit h

def dequeAt (q : List α) (index : Int) : Option α :=
  let index := if index < 0 then index + q.length else index
  if index < 0 then none else q[index.toNat]?

theorem Holds.at? (h : r.Holds q) (index : Int) : r.at? index = dequeAt q index := by
  rw [RingBuffer.at?, dequeAt, h.size]
  generalize (if index < 0 then index + q.length else index) = i
  by_cases hneg : i < 0
  · simp only [hneg, true_or, if_true]
  · by_cases hend : (q.length : Int) ≤ i
    · simp only [hend, or_true, if_true, hneg, if_false,
        getElem?_eq_none (show q.length ≤ i.toNat by omega)]
    · simp only [hneg, hend, or_self, if_false]
      exact h.window.get (by omega)

/-- What `at`, `peek`, `peekBack`, iteration and `toArray` answer for a queue. -/
structure Shows (r : RingBuffer α) (q : List α) : Prop where
  at? : ∀ index, r.at? index = dequeAt q index
  peek : r.peek = q.head?
  peekBack : r.peekBack = q.getLast?
  iterate : r.iterate = q.map some
  toArray : r.toArray = q.map some

theorem Holds.shows (h : r.Holds q) : r.Shows q where
  at? := h.at?
  peek := by
    rw [RingBuffer.peek, h.at?, head?_eq_getElem?]
    rfl
  peekBack := by
    rw [RingBuffer.peekBack, h.at?, h.size]
    cases q with
    | nil => rfl
    | cons x q => simp [dequeAt, getLast?_eq_getElem?, show ¬ (q.length : Int) < 0 by omega]
  iterate := h.iterate
  toArray := h.toArray

/-- In every state of a run, the queue is shown, and the reply to the next operation is the
queue's. -/
def Behaves (r : RingBuffer α) (q : List α) : List (RingOp α) → Prop
  | [] => r.Shows q
  | op :: ops => r.Shows q ∧ (r.apply op).2 = (dequeApply r.capacity q op).2 ∧
      Behaves (r.apply op).1 (dequeApply r.capacity q op).1 ops

theorem Holds.behaves (h : r.Holds q) (ops : List (RingOp α)) : Behaves r q ops := by
  induction ops generalizing r q with
  | nil => exact h.shows
  | cons op ops ih => exact ⟨h.shows, (h.apply op).1, ih (h.apply op).2⟩

theorem behaves_of_pos {capacity : Nat} (hcapacity : 0 < capacity) (ops : List (RingOp α)) :
    Behaves { capacity } [] ops :=
  Holds.behaves (r := { capacity }) (q := []) ⟨hcapacity, rfl, Nat.zero_le _, trivial⟩ ops

theorem behaves_overwriting : Behaves { capacity := 1 } [] [.push 'a', .push 'b', .unshift 'c'] :=
  behaves_of_pos (by decide) _

end RingBuffer
end Vibrato.Utils
