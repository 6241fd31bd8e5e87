import Mathlib.Data.List.Sort
import Vibrato.Lib.Forest
import Vibrato.Lib.LastWrite
import Vibrato.Lib.StackSearch
import Vibrato.Session.Entry

/-! `getTree` of `session/session-manager.ts`. -/

namespace Vibrato.Session

open Lib List OrderedMap

/-- A node.  Its children are named by their ids, under which the map has their nodes. -/
structure SessionTreeNode where
  entry : SessionEntry
  children : List Text
  label : Option Text

abbrev NodeMap := OrderedMap Text SessionTreeNode

structure SessionTree where
  nodes : NodeMap
  roots : List Text

variable (nodes : NodeMap)

def childrenOf (id : Text) : List Text :=
  ((nodes.get? id).map SessionTreeNode.children).getD []

def SessionTree.forest (tree : SessionTree) : Forest Text := ⟨tree.roots, childrenOf tree.nodes⟩

def createNodes (resolveLabel : Text → Option Text) (entries : List SessionEntry) : NodeMap :=
  ofWrites (entries.map fun entry => (entry.id, ⟨entry, [], resolveLabel entry.id⟩))

def links : Nat := (nodes.keys.map fun id => (childrenOf nodes id).length).sum

/-- The search below `child` for `parent`.  No search takes more steps than there are links. -/
def wouldCreateChildCycle (parent child : Text) : Bool :=
  (search (fun id => decide (id = parent)) (fun _ id => ((), (childrenOf nodes id).reverse))
    (links nodes + 2) () [] [child]).any Prod.fst

variable (tree : SessionTree)

def addRoot (id : Text) : SessionTree :=
  if id ∈ tree.roots then tree else { tree with roots := tree.roots ++ [id] }

def removeRoot (id : Text) : SessionTree :=
  { tree with roots := tree.roots.erase id }

def pushChild (parentId : Text) (parent : SessionTreeNode) (id : Text) : SessionTree :=
  { tree with nodes := tree.nodes.set parentId { parent with children := parent.children ++ [id] } }

def attach (entry : SessionEntry) : SessionTree :=
  match entry.parentId with
  | none => addRoot tree entry.id
  | some parentId =>
    if parentId = entry.id then addRoot tree entry.id
    else
      match tree.nodes.get? parentId with
      | none => addRoot tree entry.id
      | some parent =>
        if wouldCreateChildCycle tree.nodes parentId entry.id then addRoot tree entry.id
        else removeRoot (pushChild tree parentId parent entry.id) entry.id

section

variable (getTime : SessionEntry → Option Int)

/-- The comparison of two nodes by the times of their entries.  A time that is not a number is as
old as every other. -/
def olderFirst (nodes : NodeMap) (a b : Text) : Bool :=
  match (nodes.get? a).bind fun node => getTime node.entry,
    (nodes.get? b).bind fun node => getTime node.entry with
  | some timeA, some timeB => decide (timeA ≤ timeB)
  | _, _ => true

def sortChildren (nodes : NodeMap) (id : Text) : NodeMap × List Text :=
  match nodes.get? id with
  | none => (nodes, [])
  | some node =>
    let sorted := node.children.insertionSort fun a b => olderFirst getTime nodes a b = true
    (nodes.set id { node with children := sorted }, sorted.reverse)

def getTree (resolveLabel : Text → Option Text) (entries : List SessionEntry) :
    Option SessionTree :=
  let tree := entries.foldl attach ⟨createNodes resolveLabel entries, []⟩
  (search (fun _ => false) (sortChildren getTime) (links tree.nodes + tree.roots.length + 1)
    tree.nodes [] tree.roots.reverse).map fun result => ⟨result.2, tree.roots⟩

end

/-- One node for each id, and one path to it from the roots. -/
structure IsForest (tree : SessionTree) (ids : List Text) : Prop where
  nodes : ∀ id, id ∈ tree.nodes.keys ↔ id ∈ ids
  closed : ∀ path id, tree.forest.follow path = some id → id ∈ ids
  reached : ∀ id ∈ ids, ∃! path, tree.forest.follow path = some id

variable {nodes : NodeMap} {id : Text} {tree : SessionTree} {entry : SessionEntry}

theorem childrenOf_eq_nil (h : id ∉ nodes.keys) : childrenOf nodes id = [] := by
  rw [childrenOf, get?_eq_none.2 h]
  rfl

theorem unvisitedWeight_nil (weight : Text → Nat) (ids : List Text) :
    unvisitedWeight weight ids [] = (ids.map weight).sum := by
  rw [unvisitedWeight, filter_eq_self.2 (by simp)]

theorem wouldCreateChildCycle_iff (nodes : NodeMap) (parent child : Text) :
    wouldCreateChildCycle nodes parent child = true ↔
      Relation.ReflTransGen (fun a b => b ∈ childrenOf nodes a) child parent := by
  have hweight : ∀ id, id ∉ nodes.keys → (childrenOf nodes id).length = 0 := by
    intro id hid
    rw [childrenOf_eq_nil hid]
    rfl
  have hfuel : [child].length +
      unvisitedWeight (fun id => (childrenOf nodes id).length) nodes.keys [] < links nodes + 2 := by
    rw [unvisitedWeight_nil, links, length_singleton]
    omega
  have hsome : ∃ result, search (fun id => decide (id = parent))
      (fun _ id => ((), (childrenOf nodes id).reverse)) (links nodes + 2) () [] [child] =
        some result :=
    search_isSome (I := fun _ => True) (fun _ _ _ => trivial)
      (fun _ id _ => by simp) hweight trivial
      hfuel
  obtain ⟨⟨found, state⟩, hresult⟩ := hsome
  have hlinks : ∀ (state : Unit) id, True → ∀ below,
      below ∈ (state, (childrenOf nodes id).reverse).2 ↔ below ∈ childrenOf nodes id := by simp
  rw [wouldCreateChildCycle, hresult]
  cases found with
  | true =>
    obtain ⟨start, hstart, id, hreach, hid⟩ :=
      search_sound (I := fun _ => True) (fun _ _ _ => trivial) hlinks trivial hresult
    rw [mem_singleton.1 hstart, of_decide_eq_true hid] at hreach
    exact ⟨fun _ => hreach, fun _ => rfl⟩
  | false =>
    refine ⟨by simp, fun hreach => ?_⟩
    have hstop :=
      search_complete (I := fun _ => True) (fun _ _ _ => trivial) hlinks trivial (by simp)
      hresult (.inr (mem_singleton_self child)) hreach
    simp at hstop

def Attaches (nodes : NodeMap) (entry : SessionEntry) : Prop :=
  ∃ parentId, entry.parentId = some parentId ∧ parentId ∈ nodes.keys ∧
    ¬Relation.ReflTransGen (fun a b => b ∈ childrenOf nodes a) entry.id parentId

theorem keys_set {node : SessionTreeNode} (h : id ∈ nodes.keys) :
    (nodes.set id node).keys = nodes.keys := by
  rw [OrderedMap.set, dif_pos h]
  show (nodes.entries.map _).map Prod.fst = nodes.entries.map Prod.fst
  rw [map_map]
  rfl

theorem childrenOf_set (nodes : NodeMap) (id : Text) (node : SessionTreeNode) (other : Text) :
    childrenOf (nodes.set id node) other =
      if other = id then node.children else childrenOf nodes other := by
  unfold childrenOf
  rw [get?_set]
  split <;> rfl

theorem addRoot_nodes (tree : SessionTree) (id : Text) : (addRoot tree id).nodes = tree.nodes := by
  unfold addRoot
  split <;> rfl

theorem attach_of_not_attaches (h : ¬Attaches tree.nodes entry) :
    attach tree entry = addRoot tree entry.id := by
  unfold attach
  split
  · rfl
  · next parentId hparent =>
    split
    · rfl
    · split
      · rfl
      · next parent hget =>
        rw [if_pos]
        by_contra hcycle
        rw [wouldCreateChildCycle_iff] at hcycle
        exact h ⟨parentId, hparent, mem_keys.2 ⟨parent, hget⟩, hcycle⟩

structure IsAttached (tree tree' : SessionTree) (id parentId : Text) : Prop where
  keys : tree'.nodes.keys = tree.nodes.keys
  children : ∀ other, childrenOf tree'.nodes other =
    if other = parentId then childrenOf tree.nodes parentId ++ [id] else childrenOf tree.nodes other
  roots : tree'.roots = tree.roots.erase id

theorem attach_of_attaches (h : Attaches tree.nodes entry) :
    ∃ parentId, entry.parentId = some parentId ∧
      parentId ∈ tree.nodes.keys ∧
      ¬Relation.ReflTransGen (fun a b => b ∈ childrenOf tree.nodes a) entry.id parentId ∧
      IsAttached tree (attach tree entry) entry.id parentId := by
  obtain ⟨parentId, hparent, hkey, hcycle⟩ := h
  obtain ⟨parent, hget⟩ := mem_keys.1 hkey
  have hne : parentId ≠ entry.id := by
    rintro rfl
    exact hcycle .refl
  have hattach :
      attach tree entry = removeRoot (pushChild tree parentId parent entry.id) entry.id := by
    unfold attach
    simp only [hparent, if_neg hne, hget]
    rw [if_neg]
    rwa [wouldCreateChildCycle_iff]
  refine ⟨parentId, hparent, hkey, hcycle, ?_⟩
  rw [hattach]
  refine ⟨keys_set hkey, fun other => ?_, rfl⟩
  show childrenOf (tree.nodes.set parentId _) other = _
  rw [childrenOf_set]
  have hchildren : childrenOf tree.nodes parentId = parent.children := by
    rw [childrenOf, hget]
    rfl
  rw [hchildren]

section

variable (resolveLabel : Text → Option Text) (entries : List SessionEntry)

def stateAt (i : Nat) : SessionTree :=
  (entries.take i).foldl attach ⟨createNodes resolveLabel entries, []⟩

variable {resolveLabel entries}

variable {entry : SessionEntry} {a b id : Text} {i : Nat} {tree : SessionTree}

theorem stateAt_succ (h : entries[i]? = some entry) :
    stateAt resolveLabel entries (i + 1) = attach (stateAt resolveLabel entries i) entry := by
  rw [stateAt, take_add_one, h, foldl_append]
  rfl

theorem stateAt_succ_of_none (h : entries[i]? = none) :
    stateAt resolveLabel entries (i + 1) = stateAt resolveLabel entries i := by
  rw [stateAt, take_add_one, h, Option.toList_none, append_nil]
  rfl

theorem stateAt_length : stateAt resolveLabel entries entries.length =
    entries.foldl attach ⟨createNodes resolveLabel entries, []⟩ := by
  rw [stateAt, take_length]

theorem mem_keys_createNodes : id ∈ (createNodes resolveLabel entries).keys ↔
    id ∈ entries.map SessionEntry.id := by
  rw [OrderedMap.mem_keys]
  constructor
  · rintro ⟨node, hnode⟩
    obtain ⟨entry, hentry, heq⟩ := mem_map.1 (OrderedMap.mem_of_get?_ofWrites hnode)
    cases heq
    exact mem_map_of_mem hentry
  · intro hid
    obtain ⟨entry, hentry, rfl⟩ := mem_map.1 hid
    obtain ⟨node, hnode, -⟩ := OrderedMap.get?_ofWrites_of_mem (R := fun _ _ => True)
      (fun _ => trivial) (pairwise_of_forall fun _ _ => trivial)
      (mem_map_of_mem (f := fun entry : SessionEntry =>
        (entry.id, SessionTreeNode.mk entry [] (resolveLabel entry.id))) hentry)
    exact ⟨node, hnode⟩

theorem childrenOf_createNodes (id : Text) :
    childrenOf (createNodes resolveLabel entries) id = [] := by
  unfold childrenOf
  cases hget : (createNodes resolveLabel entries).get? id with
  | none => rfl
  | some node =>
    obtain ⟨entry, -, heq⟩ := mem_map.1 (mem_of_get?_ofWrites hget)
    cases heq
    rfl

structure BuildInv (resolveLabel : Text → Option Text) (entries : List SessionEntry)
    (tree : SessionTree) : Prop where
  keys : tree.nodes.keys = (createNodes resolveLabel entries).keys
  wellFounded : WellFounded tree.forest.Edge
  distinct : tree.roots.Nodup
  ids : ∀ parent id, tree.forest.Edge parent id → id ∈ entries.map SessionEntry.id
  rootIds : ∀ id ∈ tree.roots, id ∈ entries.map SessionEntry.id

theorem BuildInv.attach (inv : BuildInv resolveLabel entries tree) (hentry : entry ∈ entries) :
    BuildInv resolveLabel entries (attach tree entry) := by
  by_cases hattaches : Attaches tree.nodes entry
  · obtain ⟨parentId, -, -, hcycle, hattached⟩ := attach_of_attaches hattaches
    have hedge : ∀ a b, (Session.attach tree entry).forest.Edge a b →
        tree.forest.Edge a b ∨ a = parentId ∧ b = entry.id := by
      intro a b hab
      have hmem : b ∈ childrenOf (Session.attach tree entry).nodes a := hab
      rw [hattached.children] at hmem
      split at hmem
      · next ha =>
        rcases mem_append.1 hmem with hb | hb
        · exact .inl (ha ▸ hb)
        · exact .inr ⟨ha, mem_singleton.1 hb⟩
      · exact .inl hmem
    refine ⟨hattached.keys.trans inv.keys,
      Forest.wellFounded_addEdge inv.wellFounded hedge hcycle, ?_,
      fun parent id hid => ?_, fun id hid => ?_⟩
    · rw [hattached.roots]
      exact inv.distinct.erase _
    · rcases hedge parent id hid with hid | ⟨-, rfl⟩
      · exact inv.ids parent id hid
      · exact mem_map_of_mem hentry
    · rw [hattached.roots] at hid
      exact inv.rootIds id (mem_of_mem_erase hid)
  · rw [attach_of_not_attaches hattaches]
    have hforest : (addRoot tree entry.id).forest.Edge = tree.forest.Edge := by
      unfold Forest.Edge SessionTree.forest
      rw [addRoot_nodes]
    refine ⟨?_, hforest ▸ inv.wellFounded, ?_, fun parent id hid => ?_, fun id hid => ?_⟩
    · rw [addRoot_nodes]
      exact inv.keys
    · unfold addRoot
      split
      · exact inv.distinct
      · next hnew => exact nodup_append.2 ⟨inv.distinct, nodup_singleton _, by
          rintro a ha b hb rfl
          exact hnew (mem_singleton.1 hb ▸ ha)⟩
    · rw [hforest] at hid
      exact inv.ids parent id hid
    · unfold addRoot at hid
      split at hid
      · exact inv.rootIds id hid
      · rcases mem_append.1 hid with hid | hid
        · exact inv.rootIds id hid
        · rw [mem_singleton.1 hid]
          exact mem_map_of_mem hentry

theorem buildInv_stateAt (resolveLabel : Text → Option Text) (entries : List SessionEntry)
    (i : Nat) :
    BuildInv resolveLabel entries (stateAt resolveLabel entries i) := by
  induction i with
  | zero =>
    have hnone : ∀ a b, ¬(stateAt resolveLabel entries 0).forest.Edge a b := by
      intro a b hab
      have hmem : b ∈ childrenOf (createNodes resolveLabel entries) a := hab
      rw [childrenOf_createNodes] at hmem
      cases hmem
    exact ⟨rfl, ⟨fun b => ⟨b, fun a hab => absurd hab (hnone a b)⟩⟩, nodup_nil,
      fun a b hab => absurd hab (hnone a b), fun _ h => nomatch h⟩
  | succ i ih =>
    cases hentry : entries[i]? with
    | none =>
      rw [stateAt_succ_of_none hentry]
      exact ih
    | some entry =>
      rw [stateAt_succ hentry]
      exact ih.attach (mem_of_getElem? hentry)

theorem edge_source (h : (stateAt resolveLabel entries i).forest.Edge a b) :
    ∃ j < i, ∃ entry, entries[j]? = some entry ∧ entry.id = b ∧ entry.parentId = some a ∧
      Attaches (stateAt resolveLabel entries j).nodes entry := by
  induction i with
  | zero =>
    have hmem : b ∈ childrenOf (createNodes resolveLabel entries) a := h
    rw [childrenOf_createNodes] at hmem
    cases hmem
  | succ i ih =>
    have hearlier : (stateAt resolveLabel entries i).forest.Edge a b → ∃ j < i + 1, ∃ entry,
        entries[j]? = some entry ∧ entry.id = b ∧ entry.parentId = some a ∧
          Attaches (stateAt resolveLabel entries j).nodes entry := by
      intro hedge
      obtain ⟨j, hj, hrest⟩ := ih hedge
      exact ⟨j, by omega, hrest⟩
    cases hentry : entries[i]? with
    | none =>
      rw [stateAt_succ_of_none hentry] at h
      exact hearlier h
    | some entry =>
      rw [stateAt_succ hentry] at h
      by_cases hattaches : Attaches (stateAt resolveLabel entries i).nodes entry
      · obtain ⟨parentId, hparent, -, -, hattached⟩ := attach_of_attaches hattaches
        have hmem : b ∈ childrenOf (attach (stateAt resolveLabel entries i) entry).nodes a := h
        rw [hattached.children] at hmem
        split at hmem
        · next ha =>
          rcases mem_append.1 hmem with hb | hb
          · exact hearlier (ha ▸ hb)
          · refine ⟨i, by omega, entry, hentry, (mem_singleton.1 hb).symm, ?_, hattaches⟩
            rw [ha]
            exact hparent
        · exact hearlier hmem
      · rw [attach_of_not_attaches hattaches] at h
        have hmem : b ∈ childrenOf (addRoot (stateAt resolveLabel entries i) entry.id).nodes a := h
        rw [addRoot_nodes] at hmem
        exact hearlier hmem

theorem edge_succ (h : (stateAt resolveLabel entries i).forest.Edge a b) :
    (stateAt resolveLabel entries (i + 1)).forest.Edge a b := by
  cases hentry : entries[i]? with
  | none =>
    rw [stateAt_succ_of_none hentry]
    exact h
  | some entry =>
    rw [stateAt_succ hentry]
    show b ∈ childrenOf (attach (stateAt resolveLabel entries i) entry).nodes a
    by_cases hattaches : Attaches (stateAt resolveLabel entries i).nodes entry
    · obtain ⟨parentId, -, -, -, hattached⟩ := attach_of_attaches hattaches
      rw [hattached.children]
      split
      · next ha => exact mem_append_left _ (ha ▸ h)
      · exact h
    · rw [attach_of_not_attaches hattaches, addRoot_nodes]
      exact h

theorem edge_mono {i j : Nat} (hle : i ≤ j) (h : (stateAt resolveLabel entries i).forest.Edge a b) :
    (stateAt resolveLabel entries j).forest.Edge a b := by
  induction hle with
  | refl => exact h
  | step _ ih => exact edge_succ ih

theorem edge_of_attaches (hentry : entries[i]? = some entry)
    (h : Attaches (stateAt resolveLabel entries i).nodes entry) {parentId : Text}
    (hparent : entry.parentId = some parentId) :
    (stateAt resolveLabel entries (i + 1)).forest.Edge parentId entry.id := by
  obtain ⟨parentId', hparent', -, -, hattached⟩ := attach_of_attaches h
  rw [hparent] at hparent'
  cases hparent'
  rw [stateAt_succ hentry]
  show entry.id ∈ childrenOf (attach (stateAt resolveLabel entries i) entry).nodes parentId
  rw [hattached.children, if_pos rfl]
  exact mem_append_right _ (mem_singleton_self _)

theorem sum_map_ite {ids : List Text} (hnodup : ids.Nodup) (hid : id ∈ ids) (f : Text → Nat)
    (n : Nat) :
    (ids.map fun other => if other = id then f other + n else f other).sum =
      (ids.map f).sum + n := by
  induction ids with
  | nil => cases hid
  | cons first ids ih =>
    rw [nodup_cons] at hnodup
    by_cases hfirst : first = id
    · subst hfirst
      have hrest : (ids.map fun other => if other = first then f other + n else f other) =
        ids.map f := by
        apply map_congr_left
        intro other hother
        rw [if_neg]
        rintro rfl
        exact hnodup.1 hother
      rw [map_cons, hrest, if_pos rfl, map_cons, sum_cons, sum_cons]
      omega
    · have hmem : id ∈ ids := (mem_cons.1 hid).resolve_left (Ne.symm hfirst)
      rw [map_cons, if_neg hfirst, sum_cons, ih hnodup.2 hmem, map_cons, sum_cons]
      omega

variable (resolveLabel entries)

def childCount (i : Nat) (id : Text) : Nat :=
  ((createNodes resolveLabel entries).keys.map fun parent =>
    (childrenOf (stateAt resolveLabel entries i).nodes parent).count id).sum

def rootCount (i : Nat) (id : Text) : Nat := (stateAt resolveLabel entries i).roots.count id

variable {resolveLabel entries}

variable (resolveLabel) in
theorem counts_succ_of_ne (h : ∀ entry, entries[i]? = some entry → entry.id ≠ id) :
    childCount resolveLabel entries (i + 1) id = childCount resolveLabel entries i id ∧
      rootCount resolveLabel entries (i + 1) id = rootCount resolveLabel entries i id := by
  unfold childCount rootCount
  cases hentry : entries[i]? with
  | none =>
    rw [stateAt_succ_of_none hentry]
    exact ⟨rfl, rfl⟩
  | some entry =>
    have hne := h entry hentry
    rw [stateAt_succ hentry]
    by_cases hattaches : Attaches (stateAt resolveLabel entries i).nodes entry
    · obtain ⟨parentId, -, -, -, hattached⟩ := attach_of_attaches hattaches
      refine ⟨?_, ?_⟩
      · congr 1
        apply map_congr_left
        intro parent _
        rw [hattached.children]
        split
        · next hparent =>
          rw [count_append, hparent, count_singleton, if_neg (by simpa using hne)]
          rfl
        · rfl
      · rw [hattached.roots, count_erase_of_ne hne.symm]
    · rw [attach_of_not_attaches hattaches, addRoot_nodes]
      refine ⟨rfl, ?_⟩
      unfold addRoot
      split
      · rfl
      · rw [count_append, count_singleton, if_neg (by simpa using hne)]
        rfl

theorem counts_of_attaches (hentry : entries[i]? = some entry)
    (h : Attaches (stateAt resolveLabel entries i).nodes entry) :
    childCount resolveLabel entries (i + 1) entry.id =
      childCount resolveLabel entries i entry.id + 1 ∧
      rootCount resolveLabel entries (i + 1) entry.id = 0 := by
  have inv := buildInv_stateAt resolveLabel entries i
  obtain ⟨parentId, -, hkey, -, hattached⟩ := attach_of_attaches h
  unfold childCount rootCount
  rw [stateAt_succ hentry]
  refine ⟨?_, ?_⟩
  · have hdistinct : (createNodes resolveLabel entries).keys.Nodup :=
      (createNodes resolveLabel entries).distinct
    rw [← sum_map_ite hdistinct (inv.keys ▸ hkey)]
    congr 1
    apply map_congr_left
    intro parent _
    rw [hattached.children]
    split
    · next hparent => rw [count_append, hparent, count_singleton_self]
    · rfl
  · rw [hattached.roots, count_eq_zero]
    exact inv.distinct.not_mem_erase

theorem counts_of_not_attaches (hentry : entries[i]? = some entry)
    (h : ¬Attaches (stateAt resolveLabel entries i).nodes entry) :
    childCount resolveLabel entries (i + 1) entry.id = childCount resolveLabel entries i entry.id ∧
      rootCount resolveLabel entries (i + 1) entry.id = 1 := by
  have inv := buildInv_stateAt resolveLabel entries i
  unfold childCount rootCount
  rw [stateAt_succ hentry, attach_of_not_attaches h, addRoot_nodes]
  refine ⟨rfl, ?_⟩
  unfold addRoot
  split
  · next hmem => exact count_eq_one_of_mem inv.distinct hmem
  · next hnew => rw [count_append, count_eq_zero.2 hnew, count_singleton_self]

variable (entries)

def Repeats (i : Nat) (id : Text) : Prop :=
  ∃ j > i, ∃ later, entries[j]? = some later ∧ later.id = id

/-- The last entry of `a` comes before index `n` and has the parent `b`. -/
def LastParent (n : Nat) (a b : Text) : Prop :=
  ∃ i < n, ∃ entry, entries[i]? = some entry ∧ entry.id = a ∧ entry.parentId = some b ∧
    ¬Repeats entries i a

/-- Every entry whose id comes again later has no parent in the session, or its parent leads back to
it through parents of entries before it. -/
def RepeatsAreRoots : Prop :=
  ∀ i entry, entries[i]? = some entry → Repeats entries i entry.id →
    ∀ parentId, entry.parentId = some parentId → parentId ∈ entries.map SessionEntry.id →
      Relation.ReflTransGen (LastParent entries i) parentId entry.id

variable {entries}

theorem LastParent.unique {n : Nat} {c : Text} (hb : LastParent entries n a b)
    (hc : LastParent entries n a c) : b = c := by
  obtain ⟨i, -, entry, hentry, hid, hparent, hlast⟩ := hb
  obtain ⟨j, -, entry', hentry', hid', hparent', hlast'⟩ := hc
  rcases Nat.lt_trichotomy i j with hlt | rfl | hlt
  · exact absurd ⟨j, hlt, entry', hentry', hid'⟩ hlast
  · rw [hentry] at hentry'
    cases hentry'
    rw [hparent] at hparent'
    cases hparent'
    rfl
  · exact absurd ⟨i, hlt, entry, hentry, hid⟩ hlast'

theorem not_transGen_of_ends {R : Text → Text → Prop} (hunique : ∀ a b c, R a b → R a c → b = c)
    {stop : Text} (hstop : ∀ b, ¬R stop b) (h : Relation.ReflTransGen R a stop) :
    ¬Relation.TransGen R a a := by
  induction h using Relation.ReflTransGen.head_induction_on with
  | refl =>
    intro hcycle
    obtain ⟨b, hb, -⟩ := Relation.TransGen.head'_iff.1 hcycle
    exact hstop b hb
  | head hab _ ih =>
    intro hcycle
    obtain ⟨c, hac, hca⟩ := Relation.TransGen.head'_iff.1 hcycle
    cases hunique _ _ _ hab hac
    exact ih (Relation.TransGen.tail' hca hab)

section

variable {n : Nat} (hroots : ∀ i < n, ∀ entry, entries[i]? = some entry →
    Repeats entries i entry.id →
  ¬Attaches (stateAt resolveLabel entries i).nodes entry)

include hroots

theorem lastParent_of_edge {i : Nat} (hi : i ≤ n) {a b : Text}
    (h : (stateAt resolveLabel entries i).forest.Edge a b) : LastParent entries n b a := by
  obtain ⟨j, hj, entry, hentry, hid, hparent, hattaches⟩ := edge_source h
  refine ⟨j, by omega, entry, hentry, hid, hparent, fun hrepeats => ?_⟩
  exact hroots j (by omega) entry hentry (hid ▸ hrepeats) hattaches

variable {entry : SessionEntry}

theorem reflTransGen_edge_iff (hentry : entries[n]? = some entry) (parentId : Text) :
    Relation.ReflTransGen (stateAt resolveLabel entries n).forest.Edge entry.id parentId ↔
      Relation.ReflTransGen (LastParent entries n) parentId entry.id := by
  constructor
  · intro h
    rw [← Relation.reflTransGen_swap]
    exact Relation.ReflTransGen.mono
      (fun a b hab => lastParent_of_edge hroots (le_refl n) hab) _ _ h
  · intro h
    -- no last entry of this id comes before
    have hstop : ∀ b, ¬LastParent entries n entry.id b := by
      rintro b ⟨i, hi, earlier, -, -, -, hlast⟩
      exact hlast ⟨n, hi, entry, hentry, rfl⟩
    induction h using Relation.ReflTransGen.head_induction_on with
    | refl => exact .refl
    | @head a b hab hb ih =>
      refine ih.tail ?_
      have hacyclic : ¬Relation.TransGen (LastParent entries n) a a :=
        not_transGen_of_ends (R := LastParent entries n) (fun _ _ _ => LastParent.unique) hstop
          (.head hab hb)
      obtain ⟨i, hi, last, hlast, rfl, hparent, hfinal⟩ := hab
      have hkey : b ∈ (stateAt resolveLabel entries i).nodes.keys := by
        rw [(buildInv_stateAt resolveLabel entries i).keys, mem_keys_createNodes]
        rcases Relation.ReflTransGen.cases_head hb with rfl | ⟨c, hbc, -⟩
        · exact mem_map_of_mem (mem_of_getElem? hentry)
        · obtain ⟨j, -, other, hother, rfl, -⟩ := hbc
          exact mem_map_of_mem (mem_of_getElem? hother)
      have hattaches : Attaches (stateAt resolveLabel entries i).nodes last := by
        refine ⟨b, hparent, hkey, fun hbelow => hacyclic ?_⟩
        have hback : Relation.ReflTransGen (LastParent entries n) b last.id := by
          rw [← Relation.reflTransGen_swap]
          exact Relation.ReflTransGen.mono
            (fun c d hcd => lastParent_of_edge hroots (Nat.le_of_lt hi) hcd) _ _ hbelow
        exact Relation.TransGen.head' ⟨i, hi, last, hlast, rfl, hparent, hfinal⟩ hback
      exact edge_mono hi (edge_of_attaches hlast hattaches hparent)

theorem not_attaches_iff (hentry : entries[n]? = some entry) :
    ¬Attaches (stateAt resolveLabel entries n).nodes entry ↔
      ∀ parentId, entry.parentId = some parentId → parentId ∈ entries.map SessionEntry.id →
        Relation.ReflTransGen (LastParent entries n) parentId entry.id := by
  have hkeys : ∀ id, id ∈ (stateAt resolveLabel entries n).nodes.keys ↔
      id ∈ entries.map SessionEntry.id := by
    intro id
    rw [(buildInv_stateAt resolveLabel entries n).keys, mem_keys_createNodes]
  simp only [← reflTransGen_edge_iff hroots hentry]
  constructor
  · intro h parentId hparent hmem
    by_contra hbelow
    exact h ⟨parentId, hparent, (hkeys parentId).2 hmem, hbelow⟩
  · rintro h ⟨parentId, hparent, hmem, hbelow⟩
    exact hbelow (h parentId hparent ((hkeys parentId).1 hmem))

end

variable (resolveLabel) in
theorem repeatsAreRoots_iff : RepeatsAreRoots entries ↔
    ∀ i entry, entries[i]? = some entry → Repeats entries i entry.id →
      ¬Attaches (stateAt resolveLabel entries i).nodes entry := by
  constructor
  · intro h i
    induction i using Nat.strong_induction_on with
    | h i ih =>
      intro entry hentry hrepeats
      exact (not_attaches_iff ih hentry).2 (h i entry hentry hrepeats)
  · intro h i entry hentry hrepeats
    exact (not_attaches_iff (fun j _ => h j) hentry).1 (h i entry hentry hrepeats)

variable {entry : SessionEntry} {j : Nat}

theorem two_le_of_attaches (hentry : entries[i]? = some entry)
    (h : Attaches (stateAt resolveLabel entries i).nodes entry) (hj : i < j) :
    1 ≤ childCount resolveLabel entries j entry.id ∧
      ((∃ k, i < k ∧ k < j ∧ ∃ later, entries[k]? = some later ∧ later.id = entry.id) →
        2 ≤ rootCount resolveLabel entries j entry.id +
          childCount resolveLabel entries j entry.id) := by
  induction j with
  | zero => omega
  | succ j ih =>
    rcases Nat.lt_or_ge i j with hlt | hge
    · obtain ⟨hone, htwo⟩ := ih hlt
      by_cases hid : ∃ later, entries[j]? = some later ∧ later.id = entry.id
      · obtain ⟨later, hlater, hid⟩ := hid
        by_cases hattaches : Attaches (stateAt resolveLabel entries j).nodes later
        · have hcounts := counts_of_attaches hlater hattaches
          rw [hid] at hcounts
          omega
        · have hcounts := counts_of_not_attaches hlater hattaches
          rw [hid] at hcounts
          omega
      · have hother : ∀ later, entries[j]? = some later → later.id ≠ entry.id :=
          fun later hlater heq => hid ⟨later, hlater, heq⟩
        have hsame := counts_succ_of_ne resolveLabel hother
        rw [hsame.1, hsame.2]
        refine ⟨hone, ?_⟩
        rintro ⟨k, hik, hkj, later, hlater, heq⟩
        rcases Nat.lt_or_ge k j with hk | hk
        · exact htwo ⟨k, hik, hk, later, hlater, heq⟩
        · obtain rfl : k = j := by omega
          exact absurd ⟨later, hlater, heq⟩ hid
    · obtain rfl : j = i := by omega
      have hcounts := counts_of_attaches hentry h
      refine ⟨by omega, ?_⟩
      rintro ⟨k, hik, hkj, -⟩
      omega

theorem childCount_eq_zero {id : Text}
    (h : ∀ parent, ¬(stateAt resolveLabel entries i).forest.Edge parent id) :
    childCount resolveLabel entries i id = 0 := by
  unfold childCount
  rw [sum_eq_zero_iff]
  intro n hn
  obtain ⟨parent, -, rfl⟩ := mem_map.1 hn
  exact count_eq_zero.2 (h parent)

theorem counts_eq_one (hroots : ∀ i entry, entries[i]? = some entry → Repeats entries i entry.id →
      ¬Attaches (stateAt resolveLabel entries i).nodes entry)
    (hentry : entries[i]? = some entry) (hlast : ¬Repeats entries i entry.id) (hj : i < j) :
    rootCount resolveLabel entries j entry.id + childCount resolveLabel entries j entry.id = 1 := by
  induction j with
  | zero => omega
  | succ j ih =>
    rcases Nat.lt_or_ge i j with hlt | hge
    · have hother : ∀ later, entries[j]? = some later → later.id ≠ entry.id :=
        fun later hlater heq => hlast ⟨j, hlt, later, hlater, heq⟩
      have hsame := counts_succ_of_ne resolveLabel hother
      rw [hsame.1, hsame.2]
      exact ih hlt
    · obtain rfl : j = i := by omega
      have hnone : childCount resolveLabel entries j entry.id = 0 := by
        apply childCount_eq_zero
        intro parent hedge
        obtain ⟨k, hk, earlier, hearlier, hid, -, hattaches⟩ := edge_source hedge
        exact hroots k earlier hearlier ⟨j, hk, entry, hentry, hid.symm⟩ hattaches
      by_cases hattaches : Attaches (stateAt resolveLabel entries j).nodes entry
      · have hcounts := counts_of_attaches hentry hattaches
        omega
      · have hcounts := counts_of_not_attaches hentry hattaches
        omega

variable (resolveLabel entries) in
theorem repeatsAreRoots_iff_counts : RepeatsAreRoots entries ↔
    ∀ id ∈ entries.map SessionEntry.id, rootCount resolveLabel entries entries.length id +
      childCount resolveLabel entries entries.length id = 1 := by
  have hlength : ∀ {i : Nat} {entry : SessionEntry}, entries[i]? = some entry →
      i < entries.length :=
    fun hentry => (List.getElem?_eq_some_iff.1 hentry).1
  rw [repeatsAreRoots_iff resolveLabel]
  constructor
  · intro hroots id hid
    obtain ⟨entry, hmem, rfl⟩ := mem_map.1 hid
    obtain ⟨i, hi⟩ := getElem?_of_mem hmem
    obtain ⟨last, -, ⟨lastEntry, hentry, heq⟩, hno⟩ :=
      exists_last (P := fun j => ∃ other, entries[j]? = some other ∧ other.id = entry.id)
        (fun j ⟨other, hother, _⟩ => hlength hother) ⟨entry, hi, rfl⟩
    have hlast : ¬Repeats entries last lastEntry.id := by
      rintro ⟨j, hlt, later, hlater, hid⟩
      exact hno j hlt ⟨later, hlater, hid.trans heq⟩
    rw [← heq]
    exact counts_eq_one hroots hentry hlast (hlength hentry)
  · intro hcounts i entry hentry hrepeats hattaches
    obtain ⟨j, hlt, later, hlater, hid⟩ := hrepeats
    have htwo := (two_le_of_attaches hentry hattaches (hlength hentry)).2
      ⟨j, hlt, hlength hlater, later, hlater, hid⟩
    have hone := hcounts entry.id (mem_map_of_mem (mem_of_getElem? hentry))
    omega

theorem BuildInv.isForest_iff (inv : BuildInv resolveLabel entries tree) :
    IsForest tree (entries.map SessionEntry.id) ↔ ∀ id ∈ entries.map SessionEntry.id,
      tree.forest.placeCount (createNodes resolveLabel entries).keys id = 1 := by
  have hparents : ∀ parent id, tree.forest.Edge parent id →
      parent ∈ (createNodes resolveLabel entries).keys := by
    intro parent id hedge
    by_contra hkey
    have hmem : id ∈ childrenOf tree.nodes parent := hedge
    rw [childrenOf_eq_nil (inv.keys ▸ hkey)] at hmem
    cases hmem
  have hpaths := Forest.existsUnique_path_iff
    (fun parent id hedge => mem_keys_createNodes.1 (hparents parent id hedge)) inv.wellFounded
  have hdistinct : (createNodes resolveLabel entries).keys.Nodup :=
    (createNodes resolveLabel entries).distinct
  simp only [Forest.placeCount_eq_one_iff hdistinct hparents]
  constructor
  · intro hforest
    exact hpaths.1 hforest.reached
  · intro hplaces
    refine ⟨fun id => by rw [inv.keys,
      mem_keys_createNodes], fun path id hpath => ?_, hpaths.2 hplaces⟩
    rcases Forest.follow_cases hpath with ⟨r, -, hroot⟩ | ⟨before, parent, k, -, -, hchild⟩
    · exact inv.rootIds id (mem_of_getElem? hroot)
    · exact inv.ids parent id (mem_of_getElem? hchild)

end

structure IsSortOf (nodes sorted : NodeMap) : Prop where
  keys : sorted.keys = nodes.keys
  children : ∀ id, (childrenOf sorted id).Perm (childrenOf nodes id)

theorem IsSortOf.sortChildren {nodes sorted : NodeMap} (h : IsSortOf nodes sorted)
    (getTime : SessionEntry → Option Int) (id : Text) :
    IsSortOf nodes (sortChildren getTime sorted id).1 ∧
      (Session.sortChildren getTime sorted id).2.length ≤ (childrenOf nodes id).length := by
  unfold Session.sortChildren
  split
  · exact ⟨h, Nat.zero_le _⟩
  · next node hget =>
    have hchildren : childrenOf sorted id = node.children := by
      rw [childrenOf, hget]
      rfl
    have hperm := perm_insertionSort (fun a b => olderFirst getTime sorted a b = true) node.children
    refine ⟨⟨(keys_set (mem_keys.2 ⟨node, hget⟩)).trans h.keys, fun other => ?_⟩, ?_⟩
    · rw [childrenOf_set]
      split
      · next hother =>
        rw [hother]
        exact hperm.trans (hchildren ▸ h.children id)
      · exact h.children other
    · rw [length_reverse, hperm.length_eq, ← hchildren, (h.children id).length_eq]

theorem getTree_eq (getTime : SessionEntry → Option Int) (resolveLabel : Text → Option Text)
    (entries : List SessionEntry) : ∃ sorted,
      getTree getTime resolveLabel entries =
        some ⟨sorted, (stateAt resolveLabel entries entries.length).roots⟩ ∧
      IsSortOf (stateAt resolveLabel entries entries.length).nodes sorted := by
  rw [getTree, ← stateAt_length]
  generalize stateAt resolveLabel entries entries.length = tree
  have hfuel : tree.roots.reverse.length +
      unvisitedWeight (fun id => (childrenOf tree.nodes id).length) tree.nodes.keys [] <
        links tree.nodes + tree.roots.length + 1 := by
    rw [unvisitedWeight_nil, links, length_reverse]
    omega
  have hself : IsSortOf tree.nodes tree.nodes := ⟨rfl, fun _ => .refl _⟩
  have hsome : ∃ result, search (fun _ => false) (sortChildren getTime)
      (links tree.nodes + tree.roots.length + 1) tree.nodes [] tree.roots.reverse = some result :=
    search_isSome (I := IsSortOf tree.nodes) (fun sorted id h => (h.sortChildren getTime id).1)
      (fun sorted id h => (h.sortChildren getTime id).2)
      (fun id hid => by rw [childrenOf_eq_nil hid]; rfl) hself hfuel
  obtain ⟨result, hresult⟩ := hsome
  refine ⟨result.2, ?_,
    search_invariant (fun sorted id h => (h.sortChildren getTime id).1) hself hresult⟩
  rw [hresult]
  rfl

theorem BuildInv.sorted {resolveLabel : Text → Option Text} {entries : List SessionEntry}
    {tree : SessionTree} (inv : BuildInv resolveLabel entries tree) {sorted : NodeMap}
    (h : IsSortOf tree.nodes sorted) : BuildInv resolveLabel entries ⟨sorted, tree.roots⟩ := by
  have hedge : ∀ a b, (SessionTree.mk sorted tree.roots).forest.Edge a b → tree.forest.Edge a b :=
    fun a b hab => (h.children a).mem_iff.1 hab
  exact ⟨h.keys.trans inv.keys,
    ⟨fun b => Subrelation.accessible (hedge _ _) (inv.wellFounded.apply b)⟩,
    inv.distinct, fun parent id hid => inv.ids parent id (hedge parent id hid), inv.rootIds⟩

/-- `getTree` returns a forest if and only if every repeated entry becomes a root. -/
theorem getTree_isForest_iff (getTime : SessionEntry → Option Int)
    (resolveLabel : Text → Option Text)
    (entries : List SessionEntry) :
    (∃ tree, getTree getTime resolveLabel entries = some tree ∧
      IsForest tree (entries.map SessionEntry.id)) ↔ RepeatsAreRoots entries := by
  obtain ⟨sorted, htree, hsorted⟩ := getTree_eq getTime resolveLabel entries
  have inv := (buildInv_stateAt resolveLabel entries entries.length).sorted hsorted
  have hcount : ∀ id, Forest.placeCount
      (SessionTree.mk sorted (stateAt resolveLabel entries entries.length).roots).forest
      (createNodes resolveLabel entries).keys id =
        rootCount resolveLabel entries entries.length id +
          childCount resolveLabel entries entries.length id := by
    intro id
    unfold Forest.placeCount rootCount childCount
    congr 2
    apply map_congr_left
    intro parent _
    exact (hsorted.children parent).count_eq id
  have hforest : (∃ tree, getTree getTime resolveLabel entries = some tree ∧
      IsForest tree (entries.map SessionEntry.id)) ↔
        IsForest ⟨sorted, (stateAt resolveLabel entries entries.length).roots⟩
          (entries.map SessionEntry.id) := by
    rw [htree]
    simp
  rw [hforest, inv.isForest_iff, repeatsAreRoots_iff_counts resolveLabel entries]
  simp only [hcount]

def repeatedChild : List SessionEntry :=
  [⟨"a".toList, none, .setting .custom⟩, ⟨"b".toList, none, .setting .custom⟩,
    ⟨"c".toList, some "a".toList, .setting .custom⟩,
      ⟨"c".toList, some "b".toList, .setting .custom⟩]

theorem getTree_repeatedChild :
    ¬∃ tree, getTree (fun _ => none) (fun _ => none) repeatedChild = some tree ∧
      IsForest tree (repeatedChild.map SessionEntry.id) := by
  rintro ⟨tree, htree, hforest⟩
  have hpath : ∀ path, (getTree (fun _ => none) (fun _ => none) repeatedChild).bind
      (fun tree => tree.forest.follow path) = tree.forest.follow path := by
    intro path
    rw [htree, Option.bind_some]
  have hfirst : (getTree (fun _ => none) (fun _ => none) repeatedChild).bind
      (fun tree => tree.forest.follow [0, 0]) = some "c".toList := by decide +kernel
  have hsecond : (getTree (fun _ => none) (fun _ => none) repeatedChild).bind
      (fun tree => tree.forest.follow [1, 0]) = some "c".toList := by decide +kernel
  rw [hpath] at hfirst hsecond
  have hsame := (hforest.reached "c".toList (by decide)).unique hfirst hsecond
  cases hsame

end Vibrato.Session
