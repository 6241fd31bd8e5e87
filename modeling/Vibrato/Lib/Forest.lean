import Mathlib.Data.List.Nodup
import Mathlib.Algebra.Order.Ring.Nat

/-! Nodes with lists of children, and a list of roots.  A path is the place of a root followed by
places in lists of children. -/

namespace Vibrato.Lib

open List Option

structure Forest (α : Type) where
  roots : List α
  children : α → List α

namespace Forest

variable {α : Type} (f : Forest α)

def descend : α → List Nat → Option α
  | a, [] => some a
  | a, k :: path => (f.children a)[k]?.bind fun child => descend child path

def follow : List Nat → Option α
  | [] => none
  | r :: path => f.roots[r]?.bind fun root => f.descend root path

inductive Place (α : Type) where
  | root (r : Nat)
  | child (parent : α) (k : Nat)

def holds (a : α) : Place α → Prop
  | .root r => f.roots[r]? = some a
  | .child parent k => (f.children parent)[k]? = some a

def Edge (a b : α) : Prop := b ∈ f.children a

theorem descend_concat (a : α) (path : List Nat) (k : Nat) :
    f.descend a (path ++ [k]) = (f.descend a path).bind fun b => (f.children b)[k]? := by
  induction path generalizing a with
  | nil => simp [descend]
  | cons j path ih =>
    rw [cons_append, descend, descend, bind_assoc]
    simp only [ih]

variable {path : List Nat}

theorem follow_concat (hne : path ≠ []) (k : Nat) :
    f.follow (path ++ [k]) = (f.follow path).bind fun b => (f.children b)[k]? := by
  cases path with
  | nil => exact absurd rfl hne
  | cons r path =>
    rw [cons_append, follow, follow, bind_assoc]
    simp only [descend_concat]

variable {f}

theorem ne_nil_of_follow {a : α} (h : f.follow path = some a) : path ≠ [] := by
  rintro rfl
  cases h

theorem follow_child {parent a : α} {k : Nat} (hpath : f.follow path = some parent)
    (hk : (f.children parent)[k]? = some a) : f.follow (path ++ [k]) = some a := by
  rw [follow_concat f (ne_nil_of_follow hpath), hpath, bind_some, hk]

theorem follow_root {r : Nat} {a : α} (h : f.roots[r]? = some a) : f.follow [r] = some a := by
  rw [follow, h]
  rfl

theorem follow_cases {a : α} (h : f.follow path = some a) :
    (∃ r, path = [r] ∧ f.holds a (.root r)) ∨
      ∃ before parent k, path = before ++ [k] ∧ f.follow before = some parent ∧
        f.holds a (.child parent k) := by
  rcases eq_nil_or_concat' path with rfl | ⟨before, k, rfl⟩
  · cases h
  · by_cases hne : before = []
    · subst hne
      obtain ⟨root, hroot, hend⟩ := bind_eq_some_iff.1 h
      cases hend
      exact .inl ⟨k, rfl, hroot⟩
    · rw [follow_concat f hne] at h
      obtain ⟨parent, hparent, hk⟩ := bind_eq_some_iff.1 h
      exact .inr ⟨before, parent, k, rfl, hparent, hk⟩

def Ends (f : Forest α) : Place α → List Nat → Prop
  | .root r, path => path = [r]
  | .child parent k, path => ∃ before, path = before ++ [k] ∧ f.follow before = some parent

theorem Ends.unique {place place' : Place α} (h : f.Ends place path) (h' : f.Ends place' path) :
    place = place' := by
  have hroot : ∀ r parent k, path = [r] → ¬f.Ends (.child parent k) path := by
    rintro r parent k rfl ⟨before, heq, hbefore⟩
    cases before with
    | nil => cases hbefore
    | cons _ _ => simp at heq
  cases place with
  | root r =>
    cases place' with
    | root r' =>
      rw [show path = [r] from h] at h'
      cases h'
      rfl
    | child parent k => exact absurd h' (hroot r parent k h)
  | child parent k =>
    cases place' with
    | root r => exact absurd h (hroot r parent k h')
    | child parent' k' =>
      obtain ⟨before, rfl, hbefore⟩ := h
      obtain ⟨before', heq, hbefore'⟩ := h'
      obtain ⟨rfl, hk⟩ := append_inj' heq rfl
      rw [hbefore] at hbefore'
      cases hbefore'
      cases hk
      rfl

section

variable {nodes : α → Prop} (hnodes : ∀ parent a, f.Edge parent a → nodes parent)

include hnodes

theorem exists_path (hwf : WellFounded f.Edge) (hplace : ∀ a, nodes a → ∃ place, f.holds a place)
    {a : α} (ha : nodes a) : ∃ path, f.follow path = some a := by
  induction a using hwf.induction with
  | h a ih =>
    obtain ⟨place, hholds⟩ := hplace a ha
    cases place with
    | root r => exact ⟨[r], follow_root hholds⟩
    | child parent k =>
      have hedge : f.Edge parent a := mem_of_getElem? hholds
      obtain ⟨path, hpath⟩ := ih parent hedge (hnodes parent a hedge)
      exact ⟨path ++ [k], follow_child hpath hholds⟩

theorem path_unique (hplace : ∀ a, nodes a → ∀ place place', f.holds a place → f.holds a place' →
    place = place')
    {path path' : List Nat} {a : α} (ha : nodes a) (h : f.follow path = some a)
    (h' : f.follow path' = some a) : path = path' := by
  induction hn : path.length generalizing path path' a with
  | zero => exact absurd (length_eq_zero_iff.1 hn) (ne_nil_of_follow h)
  | succ n ih =>
    rcases follow_cases h with ⟨r, rfl, hr⟩ | ⟨before, parent, k, rfl, hbefore, hk⟩ <;>
      rcases follow_cases h' with ⟨r', rfl, hr'⟩ | ⟨before', parent', k', rfl, hbefore', hk'⟩
    · cases hplace a ha _ _ hr hr'
      rfl
    · cases hplace a ha _ _ hr hk'
    · cases hplace a ha _ _ hk hr'
    · cases hplace a ha _ _ hk hk'
      have hparent := hnodes parent a (mem_of_getElem? hk)
      rw [ih hparent hbefore hbefore' (by simpa using hn)]

theorem existsUnique_path_iff (hwf : WellFounded f.Edge) :
    (∀ a, nodes a → ∃! path, f.follow path = some a) ↔ ∀ a, nodes a →
      ∃! place, f.holds a place := by
  constructor
  · intro hpaths a ha
    obtain ⟨path, hpath, hunique⟩ := hpaths a ha
    -- each place of `a` ends a path, and there is only one
    have hends : ∀ place, f.holds a place → f.Ends place path := by
      intro place hholds
      cases place with
      | root r => exact (hunique _ (follow_root hholds)).symm
      | child parent k =>
        obtain ⟨before, hbefore, -⟩ := hpaths parent (hnodes parent a (mem_of_getElem? hholds))
        exact ⟨before, (hunique _ (follow_child hbefore hholds)).symm, hbefore⟩
    have hsome : ∃ place, f.holds a place := by
      rcases follow_cases hpath with ⟨r, -, hr⟩ | ⟨before, parent, k, -, -, hk⟩
      · exact ⟨_, hr⟩
      · exact ⟨_, hk⟩
    obtain ⟨place, hholds⟩ := hsome
    exact ⟨place, hholds, fun other hother => (hends other hother).unique (hends place hholds)⟩
  · intro hplaces a ha
    obtain ⟨path, hpath⟩ := exists_path hnodes hwf (fun a ha => (hplaces a ha).exists) ha
    refine ⟨path, hpath, fun path' hpath' => ?_⟩
    exact path_unique hnodes (fun a ha _ _ h h' => (hplaces a ha).unique h h') ha hpath' hpath

end

section

variable [BEq α] [LawfulBEq α] {parents : List α}

def placeCount (f : Forest α) (parents : List α) (a : α) : Nat :=
  f.roots.count a + (parents.map fun parent => (f.children parent).count a).sum

def positions (list : List α) (a : α) : List Nat :=
  (list.zipIdx.filter fun item => item.1 == a).map Prod.snd

theorem mem_positions {list : List α} {a : α} {k : Nat} :
    k ∈ positions list a ↔ list[k]? = some a := by
  constructor
  · intro h
    obtain ⟨⟨b, k'⟩, hmem, rfl⟩ := mem_map.1 h
    obtain ⟨hmem, hb⟩ := mem_filter.1 hmem
    rw [mem_zipIdx_iff_getElem?.1 hmem, eq_of_beq hb]
  · intro h
    exact mem_map.2 ⟨(a, k), mem_filter.2 ⟨mem_zipIdx_iff_getElem?.2 h, by simp⟩, rfl⟩

omit [LawfulBEq α] in
theorem nodup_positions (list : List α) (a : α) : (positions list a).Nodup := by
  have hsnd : (list.zipIdx.map Prod.snd).Nodup := by
    rw [zipIdx_map_snd]
    exact nodup_range'
  exact hsnd.sublist (filter_sublist.map _)

theorem length_positions (list : List α) (a : α) : (positions list a).length = list.count a := by
  rw [positions, length_map, ← countP_eq_length_filter]
  conv_rhs => rw [← zipIdx_map_fst 0 list, List.count, countP_map]
  refine countP_congr fun item _ => ?_
  simp

def placesOf (f : Forest α) (parents : List α) (a : α) : List (Place α) :=
  (positions f.roots a).map .root ++
    parents.flatMap fun parent => (positions (f.children parent) a).map (.child parent)

theorem length_placesOf (parents : List α) (a : α) :
    (f.placesOf parents a).length = f.placeCount parents a := by
  rw [placesOf, placeCount, length_append, length_flatMap]
  simp only [length_map, length_positions]

theorem mem_placesOf (hparents : ∀ parent a, f.Edge parent a → parent ∈ parents)
    {a : α} {place : Place α} : place ∈ f.placesOf parents a ↔ f.holds a place := by
  cases place with
  | root r => simp [placesOf, mem_positions, holds]
  | child parent k =>
    have hmem : (f.children parent)[k]? = some a → parent ∈ parents :=
      fun h => hparents parent a (mem_of_getElem? h)
    simp [placesOf, mem_positions, holds]
    exact hmem

omit [LawfulBEq α] in
theorem nodup_placesOf (hnodup : parents.Nodup) (a : α) : (f.placesOf parents a).Nodup := by
  refine nodup_append.2 ⟨?_, ?_, ?_⟩
  · exact (nodup_positions _ _).map fun _ _ h => by cases h; rfl
  · refine nodup_flatMap.2 ⟨fun parent _ => ?_, hnodup.imp fun hne => ?_⟩
    · exact (nodup_positions _ _).map fun _ _ h => by cases h; rfl
    · intro place h h'
      obtain ⟨k, -, rfl⟩ := mem_map.1 h
      obtain ⟨k', -, heq⟩ := mem_map.1 h'
      cases heq
      exact hne rfl
  · intro place h place' h' heq
    obtain ⟨r, -, rfl⟩ := mem_map.1 h
    obtain ⟨parent, -, h'⟩ := mem_flatMap.1 h'
    obtain ⟨k, -, rfl⟩ := mem_map.1 h'
    cases heq

theorem placeCount_eq_one_iff (hnodup : parents.Nodup)
    (hparents : ∀ parent a, f.Edge parent a → parent ∈ parents) (a : α) :
    f.placeCount parents a = 1 ↔ ∃! place, f.holds a place := by
  rw [← length_placesOf, length_eq_one_iff]
  constructor
  · rintro ⟨place, hplaces⟩
    have hmem : ∀ other, f.holds a other ↔ other = place := by
      intro other
      rw [← mem_placesOf hparents, hplaces, mem_singleton]
    exact ⟨place, (hmem place).2 rfl, fun other hother => (hmem other).1 hother⟩
  · rintro ⟨place, hholds, hunique⟩
    refine ⟨place, ?_⟩
    have hplaces := nodup_placesOf (f := f) hnodup a
    have hall : ∀ other ∈ f.placesOf parents a, other = place :=
      fun other hother => hunique other ((mem_placesOf hparents).1 hother)
    have hmem : place ∈ f.placesOf parents a := (mem_placesOf hparents).2 hholds
    rw [eq_replicate_of_mem hall] at hplaces hmem ⊢
    have hle := nodup_replicate.1 hplaces
    have hpos := length_pos_of_mem hmem
    rw [length_replicate] at hpos
    rw [show (f.placesOf parents a).length = 1 by omega]
    rfl

end

theorem wellFounded_addEdge {R S : α → α → Prop} (hwf : WellFounded R) {parent child : α}
    (hS : ∀ a b, S a b → R a b ∨ a = parent ∧ b = child)
    (hbelow : ¬Relation.ReflTransGen R child parent) : WellFounded S := by
  -- first the nodes that are not below the child, among which is its new parent
  have haside : ∀ b, ¬Relation.ReflTransGen R child b → Acc S b := by
    intro b
    induction b using hwf.induction with
    | h b ih =>
      intro hb
      refine ⟨b, fun a hab => ?_⟩
      rcases hS a b hab with hab | ⟨-, rfl⟩
      · exact ih a hab fun ha => hb (ha.tail hab)
      · exact absurd .refl hb
  refine ⟨fun b => ?_⟩
  induction b using hwf.induction with
  | h b ih =>
    refine ⟨b, fun a hab => ?_⟩
    rcases hS a b hab with hab | ⟨rfl, -⟩
    · exact ih a hab
    · exact haside a hbelow

end Forest

end Vibrato.Lib
