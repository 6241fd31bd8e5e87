import Mathlib.Data.List.Nodup
import Mathlib.Data.List.Perm.Basic

/-! A least-recently-used map of bounded size.  The entries stand from the most recent to the least
recent, with distinct keys. -/

@[ext]
structure Lru (κ ν : Type) (capacity : Nat) where
  entries : List (κ × ν)
  nodup : (entries.map Prod.fst).Nodup
  length_le : entries.length ≤ capacity

namespace Lru

open Prod

open List

variable {κ ν : Type} [DecidableEq κ] {capacity : Nat}

def empty : Lru κ ν capacity := ⟨[], nodup_nil, Nat.zero_le _⟩

def others (k : κ) (entries : List (κ × ν)) : List (κ × ν) := entries.filter fun e => e.1 ≠ k

theorem others_sublist (k : κ) (entries : List (κ × ν)) : (others k entries).Sublist entries :=
  filter_sublist

theorem not_mem_others (k : κ) (entries : List (κ × ν)) : k ∉ (others k entries).map fst := by
  simp [others]

variable {entries newer : List (κ × ν)}

theorem nodup_cons_others (h : (entries.map fst).Nodup) (k : κ) (v : ν) :
    (((k, v) :: others k entries).map fst).Nodup := by
  rw [map_cons, nodup_cons]
  exact ⟨not_mem_others k entries, h.sublist ((others_sublist k entries).map _)⟩

theorem others_append (k : κ) (a b : List (κ × ν)) : others k (a ++ b) = others k a ++ others k b :=
  filter_append ..

variable {k q : κ} {e : κ × ν} {c : Lru κ ν capacity}

theorem others_cons_of_ne (h : e.1 ≠ k) (entries : List (κ × ν)) :
    others k (e :: entries) = e :: others k entries := by
  simp [others, h]

/-- The most recent use of a key decides its value: `set` puts it first, and drops the last entry
when the map is full. -/
def set (c : Lru κ ν capacity) (k : κ) (v : ν) : Lru κ ν capacity :=
  ⟨((k, v) :: others k c.entries).take capacity,
    (nodup_cons_others c.nodup k v).sublist ((take_sublist _ _).map _),
    by rw [length_take]; exact Nat.min_le_left _ _⟩

def find (c : Lru κ ν capacity) (k : κ) : Option (κ × ν) := c.entries.find? (·.1 = k)

def get (c : Lru κ ν capacity) (k : κ) : Option ν × Lru κ ν capacity :=
  match c.find k with
  | none => (none, c)
  | some e => (some e.2, c.set k e.2)

theorem get_fst (c : Lru κ ν capacity) (k : κ) : (c.get k).1 = (c.find k).map Prod.snd := by
  rw [Lru.get]
  cases c.find k <;> rfl

theorem find_append (k : κ) (a b : List (κ × ν)) :
    (a ++ b).find? (fun e => decide (e.1 = k)) =
      (a.find? fun e => decide (e.1 = k)).or (b.find? fun e => decide (e.1 = k)) :=
  find?_append

theorem find_eq_none : (entries.find? fun e => decide (e.1 = k)) = none ↔ k ∉ entries.map fst := by
  simp only [find?_eq_none, decide_eq_true_eq, mem_map, not_exists, not_and]

theorem find_set_of_none (w : ν) (hq : q ≠ k) (h : c.find k = none) :
    (c.set q w).find k = none := by
  rw [find, find_eq_none] at h ⊢
  intro hk
  have hmem := ((take_sublist _ _).map Prod.fst).subset hk
  rw [map_cons, mem_cons] at hmem
  rcases hmem with heq | hmem
  · exact hq heq.symm
  · exact h (((others_sublist q c.entries).map Prod.fst).subset hmem)

theorem find_others (hq : q ≠ k) (entries : List (κ × ν)) :
    (others q entries).find? (fun e => decide (e.1 = k)) =
      entries.find? fun e => decide (e.1 = k) := by
  induction entries with
  | nil => rfl
  | cons e entries ih =>
    by_cases he : e.1 = k
    · rw [others_cons_of_ne (by rw [he]; exact Ne.symm hq)]
      simp [he]
    · rw [find?_cons_of_neg (by simpa using he)]
      by_cases heq : e.1 = q
      · rw [← ih]
        simp [others, heq]
      · rw [others_cons_of_ne heq, find?_cons_of_neg (by simpa using he), ih]

theorem entries_set_of_find (hfind : c.find q = some e)
    (w : ν) : (c.set q w).entries = (q, w) :: others q c.entries := by
  have hlength : (others q c.entries).length < c.entries.length := by
    refine length_filter_lt_length_iff_exists.2 ⟨e, mem_of_find?_eq_some hfind, ?_⟩
    simpa using find?_some hfind
  have hle := c.length_le
  change ((q, w) :: others q c.entries).take capacity = _
  rw [take_of_length_le (by rw [length_cons]; omega)]

theorem find_get (hq : q ≠ k) : (c.get q).2.find k = c.find k := by
  rw [Lru.get]
  cases hfind : c.find q with
  | none => rfl
  | some e =>
    change (c.set q e.2).entries.find? _ = _
    rw [entries_set_of_find hfind, find?_cons_of_neg (by simpa using hq), find_others hq]
    rfl

theorem set_get (c : Lru κ ν capacity) (q : κ) (w : ν) : (c.get q).2.set q w = c.set q w := by
  rw [Lru.get]
  cases hfind : c.find q with
  | none => rfl
  | some e =>
    have hothers : others q (c.set q e.2).entries = others q c.entries := by
      rw [entries_set_of_find hfind, others, others]
      simp
    apply Lru.ext
    change ((q, w) :: others q (c.set q e.2).entries).take capacity = _
    rw [hothers]
    rfl

theorem get_fst_get (hq : q ≠ k) : ((c.get q).2.get k).1 = (c.get k).1 := by
  rw [get_fst, find_get hq, get_fst]

def Newer (K : List κ) (k : κ) (v : ν) (c : Lru κ ν capacity) : Prop :=
  ∃ newer older, c.entries = newer ++ (k, v) :: older ∧ (newer.map Prod.fst).Perm K

variable {K : List κ} {v : ν}

theorem Newer.find_eq (h : Newer K k v c) : c.find k = some (k, v) := by
  obtain ⟨newer, older, hentries, -⟩ := h
  have hk : k ∉ newer.map Prod.fst := by
    have hnodup := c.nodup
    rw [hentries, map_append, nodup_append] at hnodup
    intro hk
    exact hnodup.2.2 k hk k (by simp) rfl
  rw [find, hentries, find_append, find_eq_none.2 hk]
  simp

theorem entries_set {older : List (κ × ν)} (w : ν) (hentries : c.entries = newer ++ (k, v) :: older)
    (hq : q ≠ k) :
    (c.set q w).entries =
      (((q, w) :: others q newer) ++ (k, v) :: others q older).take capacity := by
  change ((q, w) :: others q c.entries).take capacity = _
  rw [hentries, others_append, others_cons_of_ne (Ne.symm hq), cons_append]

theorem perm_insert_others (hnodup : (newer.map fst).Nodup) (hperm : (newer.map fst).Perm K) (q : κ)
    (w : ν) :
    (((q, w) :: others q newer).map fst).Perm (K.insert q) := by
  rw [perm_ext_iff_of_nodup (nodup_cons_others hnodup q w) ((hperm.nodup hnodup).insert)]
  intro x
  rw [mem_insert_iff, ← hperm.mem_iff]
  by_cases hx : x = q
  · simp [hx]
  · simp [others, hx]

theorem Newer.set (w : ν) (hq : q ≠ k) (hroom : (K.insert q).length < capacity)
    (h : Newer K k v c) :
    Newer (K.insert q) k v (c.set q w) := by
  obtain ⟨newer, older, hentries, hperm⟩ := h
  have hnodup : (newer.map Prod.fst).Nodup := by
    have hall := c.nodup
    rw [hentries, map_append] at hall
    exact (nodup_append.1 hall).1
  have hpermq := perm_insert_others hnodup hperm q w
  have hlength : ((q, w) :: others q newer).length < capacity := by
    rw [← length_map (f := Prod.fst), hpermq.length_eq]
    exact hroom
  obtain ⟨n, hn⟩ : ∃ n, capacity - ((q, w) :: others q newer).length = n + 1 :=
    ⟨capacity - ((q, w) :: others q newer).length - 1, by omega⟩
  refine ⟨(q, w) :: others q newer, (others q older).take n, ?_, hpermq⟩
  rw [entries_set w hentries hq, take_append, take_of_length_le (by omega), hn]
  rfl

theorem Newer.find_set_eq_none (w : ν) (hq : q ≠ k) (hfull : capacity ≤ (K.insert q).length)
    (h : Newer K k v c) :
    (c.set q w).find k = none := by
  obtain ⟨newer, older, hentries, hperm⟩ := h
  have hall := c.nodup
  rw [hentries, map_append, nodup_append] at hall
  have hpermq := perm_insert_others hall.1 hperm q w
  have hlength : capacity ≤ ((q, w) :: others q newer).length := by
    rw [← length_map (f := Prod.fst), hpermq.length_eq]
    exact hfull
  rw [find, find_eq_none, entries_set w hentries hq, take_append_of_le_length hlength]
  intro hk
  have hmem := ((take_sublist _ _).map Prod.fst).subset hk
  rw [hpermq.mem_iff, mem_insert_iff, ← hperm.mem_iff] at hmem
  rcases hmem with heq | hmem
  · exact hq heq.symm
  · exact hall.2.2 k hmem k (by simp) rfl

/-- The key `k` was last used with the value `v`, and the keys `K` were used since.  It is still
there when `K` leaves room for it. -/
structure Tracked (K : List κ) (k : κ) (v : ν) (c : Lru κ ν capacity) : Prop where
  newer : K.length < capacity → Newer K k v c
  gone : capacity ≤ K.length → c.find k = none

theorem Tracked.set (w : ν) (hq : q ≠ k) (h : Tracked K k v c) :
    Tracked (K.insert q) k v (c.set q w) := by
  have hle : K.length ≤ (K.insert q).length := by
    rw [length_insert]
    split <;> omega
  refine ⟨fun hroom => (h.newer (by omega)).set w hq hroom, fun hfull => ?_⟩
  by_cases hroom : K.length < capacity
  · exact (h.newer hroom).find_set_eq_none w hq hfull
  · exact find_set_of_none w hq (h.gone (by omega))

theorem Tracked.set_of_not_mem (w : ν)
    (hq : q ≠ k) (hK : q ∉ K) (h : Tracked K k v c) : Tracked (q :: K) k v (c.set q w) := by
  rw [← insert_of_not_mem hK]
  exact h.set w hq

theorem Tracked.get_of_not_mem {w : ν} (hq : q ≠ k)
    (hK : q ∉ K) (hfound : (c.get q).1 = some w) (h : Tracked K k v c) :
    Tracked (q :: K) k v (c.get q).2 := by
  rw [Lru.get] at hfound ⊢
  cases hfind : c.find q with
  | none => rw [hfind] at hfound; cases hfound
  | some e => exact h.set_of_not_mem e.2 hq hK

theorem Tracked.get_fst (h : Tracked K k v c) :
    (c.get k).1 = if K.length < capacity then some v else none := by
  rw [Lru.get_fst]
  split_ifs with hroom
  · rw [(h.newer hroom).find_eq]
    rfl
  · rw [h.gone (by omega)]
    rfl

theorem tracked_get (hcapacity : 0 < capacity) (h : (c.get k).1 = some v) :
    Tracked [] k v (c.get k).2 := by
  refine ⟨fun _ => ?_, fun hfull => ?_⟩
  swap
  · rw [length_nil] at hfull
    omega
  rw [Lru.get] at h ⊢
  cases hfind : c.find k with
  | none => rw [hfind] at h; cases h
  | some e =>
    rw [hfind] at h
    obtain rfl : e.2 = v := Option.some.inj h
    obtain ⟨n, rfl⟩ := Nat.exists_eq_succ_of_ne_zero (by omega : capacity ≠ 0)
    exact ⟨[], (others k c.entries).take n, rfl, List.Perm.nil⟩

end Lru
