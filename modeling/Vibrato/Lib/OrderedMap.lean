import Mathlib.Algebra.GroupWithZero.Nat
import Mathlib.Data.List.Nodup

/-! A map that keeps its entries in the order in which their keys were first set, and lets its
oldest entry go. -/

namespace Vibrato.Lib

open List

structure OrderedMap (κ ν : Type) where
  entries : List (κ × ν)
  distinct : (entries.map Prod.fst).Nodup

namespace OrderedMap

variable {κ ν : Type} [DecidableEq κ]

instance [DecidableEq ν] : DecidableEq (OrderedMap κ ν) := fun a b =>
  decidable_of_iff (a.entries = b.entries) (by cases a; cases b; simp)

def empty : OrderedMap κ ν := ⟨[], nodup_nil⟩

variable (m : OrderedMap κ ν)

def get? (k : κ) : Option ν := (m.entries.find? fun e => e.1 = k).map Prod.snd

def has (k : κ) : Bool := (m.get? k).isSome

def keys : List κ := m.entries.map Prod.fst

def values : List ν := m.entries.map Prod.snd

def size : Nat := m.entries.length

def retain (p : κ → ν → Bool) : OrderedMap κ ν :=
  ⟨m.entries.filter fun e => p e.1 e.2, m.distinct.sublist (filter_sublist.map _)⟩

def erase (k : κ) : OrderedMap κ ν := m.retain fun k' _ => decide (k' ≠ k)

def mapValues (f : κ → ν → ν) : OrderedMap κ ν :=
  ⟨m.entries.map fun e => (e.1, f e.1 e.2), by
    rw [map_map]
    exact m.distinct⟩

def set (k : κ) (v : ν) : OrderedMap κ ν :=
  if h : k ∈ m.keys then m.mapValues fun k' v' => if k' = k then v else v'
  else ⟨m.entries ++ [(k, v)], by
    rw [map_append, nodup_append]
    refine ⟨m.distinct, nodup_singleton _, ?_⟩
    rintro a ha b hb rfl
    have hk : a = k := mem_singleton.mp hb
    exact h (hk ▸ ha)⟩

def oldest? : Option (κ × ν) := m.entries.head?

variable {m : OrderedMap κ ν} {k k' : κ} {v : ν}

theorem get?_eq_some : m.get? k = some v ↔ (k, v) ∈ m.entries := by
  unfold get?
  rw [Option.map_eq_some_iff]
  constructor
  · rintro ⟨e, he, rfl⟩
    have hk : e.1 = k := by simpa using find?_some he
    rw [← hk]
    exact mem_of_find?_eq_some he
  · intro hmem
    cases hfind : m.entries.find? fun e => e.1 = k with
    | none => exact absurd (by simp) (find?_eq_none.mp hfind (k, v) hmem)
    | some e =>
      have hk : e.1 = k := by simpa using find?_some hfind
      have heq : e = (k, v) :=
        inj_on_of_nodup_map m.distinct (mem_of_find?_eq_some hfind) hmem hk
      exact ⟨e, rfl, by rw [heq]⟩

theorem mem_keys : k ∈ m.keys ↔ ∃ v, m.get? k = some v := by
  constructor
  · intro h
    obtain ⟨e, he, rfl⟩ := mem_map.mp h
    exact ⟨e.2, get?_eq_some.mpr he⟩
  · rintro ⟨v, h⟩
    exact mem_map_of_mem (f := Prod.fst) (get?_eq_some.mp h)

theorem mem_values : v ∈ m.values ↔ ∃ k, m.get? k = some v := by
  constructor
  · intro h
    obtain ⟨e, he, rfl⟩ := mem_map.mp h
    exact ⟨e.1, get?_eq_some.mpr he⟩
  · rintro ⟨k, h⟩
    exact mem_map_of_mem (f := Prod.snd) (get?_eq_some.mp h)

theorem has_iff : m.has k = true ↔ ∃ v, m.get? k = some v :=
  Option.isSome_iff_exists

theorem has_iff_mem_keys : m.has k = true ↔ k ∈ m.keys :=
  has_iff.trans mem_keys.symm

theorem get?_eq_none : m.get? k = none ↔ k ∉ m.keys := by
  rw [mem_keys, Option.eq_none_iff_forall_ne_some]
  simp

theorem has_eq_false : m.has k = false ↔ m.get? k = none :=
  Option.isSome_eq_false_iff.trans Option.isNone_iff_eq_none

@[simp] theorem get?_empty (k : κ) : (empty : OrderedMap κ ν).get? k = none := rfl

theorem get?_retain_eq_some {p : κ → ν → Bool} :
    (m.retain p).get? k = some v ↔ m.get? k = some v ∧ p k v = true := by
  rw [get?_eq_some, get?_eq_some]
  exact mem_filter

theorem get?_retain (m : OrderedMap κ ν) (p : κ → ν → Bool) (k : κ) :
    (m.retain p).get? k = (m.get? k).filter (p k) := by
  ext v
  rw [get?_retain_eq_some, Option.filter_eq_some_iff]

omit [DecidableEq κ] in
theorem retain_retain (m : OrderedMap κ ν) (p q : κ → ν → Bool) :
    (m.retain p).retain q = m.retain fun k v => p k v && q k v := by
  unfold retain
  congr 1
  rw [filter_filter]
  exact filter_congr fun e _ => Bool.and_comm _ _

omit [DecidableEq κ] in
theorem retain_true (m : OrderedMap κ ν) : (m.retain fun _ _ => true) = m := by
  obtain ⟨entries, distinct⟩ := m
  unfold retain
  congr 1
  exact filter_true entries

omit [DecidableEq κ] in
theorem values_retain_sublist (m : OrderedMap κ ν) (p : κ → ν → Bool) :
    (m.retain p).values.Sublist m.values :=
  filter_sublist.map _

theorem any_values {p : ν → Bool} : m.values.any p = true ↔
    ∃ k v, m.get? k = some v ∧ p v = true := by
  rw [any_eq_true]
  constructor
  · rintro ⟨v, hv, hp⟩
    obtain ⟨k, hk⟩ := mem_values.mp hv
    exact ⟨k, v, hk, hp⟩
  · rintro ⟨k, v, hk, hp⟩
    exact ⟨v, mem_values.mpr ⟨k, hk⟩, hp⟩

variable (m)

@[simp] theorem get?_erase_self (k : κ) : (m.erase k).get? k = none := by
  rw [Option.eq_none_iff_forall_ne_some]
  intro v h
  simpa using (get?_retain_eq_some.mp h).2

theorem get?_erase_ne (h : k' ≠ k) : (m.erase k).get? k' = m.get? k' := by
  ext v
  rw [erase, get?_retain_eq_some]
  simp [h]

theorem get?_erase (k k' : κ) : (m.erase k).get? k' = if k' = k then none else m.get? k' := by
  by_cases h : k' = k
  · rw [if_pos h, h, get?_erase_self]
  · rw [if_neg h, get?_erase_ne m h]

theorem get?_mapValues (f : κ → ν → ν) (k : κ) : (m.mapValues f).get? k = (m.get? k).map (f k) := by
  ext v
  rw [get?_eq_some, Option.map_eq_some_iff]
  constructor
  · intro h
    obtain ⟨e, he, heq⟩ := mem_map.mp h
    obtain ⟨rfl, rfl⟩ := Prod.mk.inj heq
    exact ⟨e.2, get?_eq_some.mpr he, rfl⟩
  · rintro ⟨w, hw, rfl⟩
    exact mem_map.mpr ⟨(k, w), get?_eq_some.mp hw, rfl⟩

theorem get?_set (k k' : κ) (v : ν) :
    (m.set k v).get? k' = if k' = k then some v else m.get? k' := by
  unfold set
  split
  · next hmem =>
    rw [get?_mapValues]
    by_cases h : k' = k
    · subst h
      obtain ⟨w, hw⟩ := mem_keys.mp hmem
      simp [hw]
    · simp [h]
  · next hnew =>
    ext w
    rw [get?_eq_some, mem_append, ← get?_eq_some]
    by_cases h : k' = k
    · subst h
      rw [get?_eq_none.mpr hnew]
      simp [eq_comm]
    · simp [h]

@[simp] theorem get?_set_self (k : κ) (v : ν) : (m.set k v).get? k = some v := by
  rw [get?_set, if_pos rfl]

theorem get?_set_ne (v : ν) (h : k' ≠ k) : (m.set k v).get? k' = m.get? k' := by
  rw [get?_set, if_neg h]

variable {m}

theorem has_set : (m.set k v).has k' = true ↔ k' = k ∨ m.has k' = true := by
  unfold has
  rw [get?_set]
  split
  · next h => simp [h]
  · next h => simp [h]

theorem has_erase : (m.erase k).has k' = true ↔ k' ≠ k ∧ m.has k' = true := by
  unfold has
  rw [get?_erase]
  split
  · next h => simp [h]
  · next h => simp [h]

variable (m)

theorem erase_set (k : κ) (v : ν) : ((m.set k v).erase k).entries = (m.erase k).entries := by
  unfold set
  split
  · show ((m.entries.map _).filter _) = m.entries.filter _
    rw [filter_map]
    calc
      _ = (m.entries.filter fun e => decide (e.1 ≠ k)).map id := by
        apply map_congr_left
        intro e he
        have hne : e.1 ≠ k := by simpa using (mem_filter.mp he).2
        simp [hne]
      _ = _ := map_id _
  · show ((m.entries ++ [(k, v)]).filter _) = m.entries.filter _
    simp

theorem entries_set_perm (k : κ) (v : ν) :
    (m.set k v).entries.Perm ((k, v) :: (m.erase k).entries) := by
  have hnot : (k, v) ∉ (m.erase k).entries := by
    rw [← get?_eq_some]
    simp
  have hnodup : ((k, v) :: (m.erase k).entries).Nodup :=
    nodup_cons.mpr ⟨hnot, List.Nodup.of_map _ (m.erase k).distinct⟩
  rw [perm_ext_iff_of_nodup (List.Nodup.of_map _ (m.set k v).distinct) hnodup]
  rintro ⟨k', v'⟩
  rw [← get?_eq_some, mem_cons, ← get?_eq_some, get?_set, get?_erase]
  by_cases h : k' = k
  · simp [h, eq_comm]
  · simp [h]

theorem length_filter_values_set_le (k : κ) (v : ν) (p : ν → Bool) :
    ((m.set k v).values.filter p).length ≤ (m.values.filter p).length + if p v then 1 else 0 := by
  have hperm := ((m.entries_set_perm k v).map Prod.snd).filter p
  have hsub : (((m.erase k).values).filter p).Sublist (m.values.filter p) :=
    (values_retain_sublist m _).filter p
  have hlength :
      ((m.set k v).values.filter p).length = ((v :: (m.erase k).values).filter p).length :=
    hperm.length_eq
  have := hsub.length_le
  rw [hlength, filter_cons]
  split
  · rw [length_cons]
    omega
  · omega

def total (m : OrderedMap κ Nat) : Nat := m.values.sum

theorem sum_values_erase (f : ν → Nat) (k : κ) :
    ((m.erase k).values.map f).sum + ((m.get? k).map f).getD 0 = (m.values.map f).sum := by
  show (((m.entries.filter fun e => decide (e.1 ≠ k)).map Prod.snd).map f).sum +
    (((m.entries.find? fun e => e.1 = k).map Prod.snd).map f).getD 0 =
      ((m.entries.map Prod.snd).map f).sum
  have hdistinct := m.distinct
  generalize m.entries = entries at hdistinct ⊢
  induction entries with
  | nil => rfl
  | cons e rest ih =>
    rw [map_cons, nodup_cons] at hdistinct
    by_cases hk : e.1 = k
    · have hrest : rest.filter (fun e => decide (e.1 ≠ k)) = rest := by
        apply filter_eq_self.mpr
        intro e' he'
        have hne : e'.1 ≠ k := fun heq => hdistinct.1 (hk ▸ heq ▸ mem_map_of_mem he')
        simpa using hne
      rw [filter_cons_of_neg (by simpa using hk), hrest]
      simp [hk]
      omega
    · have hrest := ih hdistinct.2
      simp [hk] at hrest ⊢
      omega

theorem sum_values_set (f : ν → Nat) (k : κ) (v : ν) :
    ((m.set k v).values.map f).sum + ((m.get? k).map f).getD 0 = (m.values.map f).sum + f v := by
  have hset := (m.set k v).sum_values_erase f k
  have herase := m.sum_values_erase f k
  have hsame : ((m.set k v).erase k).values = (m.erase k).values := by
    unfold values
    rw [erase_set]
  rw [get?_set_self, Option.map_some, Option.getD_some, hsame] at hset
  omega

variable {m}

omit [DecidableEq κ] in
theorem sum_values_retain (m : OrderedMap κ ν) {p : κ → ν → Bool} {f : ν → Nat}
    (h : ∀ k v, p k v = false → f v = 0) :
    ((m.retain p).values.map f).sum = (m.values.map f).sum := by
  show (((m.entries.filter fun e => p e.1 e.2).map Prod.snd).map f).sum =
      ((m.entries.map Prod.snd).map f).sum
  generalize m.entries = entries
  induction entries with
  | nil => rfl
  | cons e rest ih =>
    simp only [map_map] at ih ⊢
    cases hp : p e.1 e.2 with
    | true => simp [hp, ih]
    | false => simp [hp, ih, h e.1 e.2 hp]

omit [DecidableEq κ] in
theorem values_mapValues (m : OrderedMap κ ν) (g : κ → ν → ν) :
    (m.mapValues g).values = m.entries.map fun e => g e.1 e.2 := by
  unfold mapValues values
  rw [map_map]
  rfl

theorem total_erase (m : OrderedMap κ Nat) (k : κ) :
    (m.erase k).total + (m.get? k).getD 0 = m.total := by
  have h := m.sum_values_erase id k
  rw [map_id, map_id, Option.map_id] at h
  exact h

theorem total_set (m : OrderedMap κ Nat) (k : κ) (n : Nat) :
    (m.set k n).total + (m.get? k).getD 0 = m.total + n := by
  have h := m.sum_values_set id k n
  rw [map_id, map_id, Option.map_id] at h
  exact h

end OrderedMap

end Vibrato.Lib
