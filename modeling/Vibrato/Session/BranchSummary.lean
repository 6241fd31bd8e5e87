import Mathlib.Data.List.Perm.Subperm
import Vibrato.Session.Branch

/-! `collectEntriesForBranchSummary` of `agent/compaction/branch-summarization.ts`: the entries that
are left when the leaf of a session moves to another branch. -/

namespace Vibrato.Session

open List ParentWalk Option

structure CollectEntriesResult where
  entries : List SessionEntry
  commonAncestorId : Option Text

def collectEntries (entries : List SessionEntry) (commonAncestorId : Option Text) :
    Nat → Option Text → Option (List SessionEntry)
  | 0, _ => none
  | _ + 1, none => some []
  | fuel + 1, some current =>
    if current = [] ∨ some current = commonAncestorId then some []
    else
      match resolveEntry entries current with
      | none => some []
      | some entry =>
        (collectEntries entries commonAncestorId fuel entry.parentId).map (entry :: ·)

def commonAncestor (oldPath targetPath : List SessionEntry) : Option SessionEntry :=
  targetPath.reverse.find? fun entry => entry.id ∈ oldPath.map SessionEntry.id

variable (entries : List SessionEntry)

def collectEntriesForBranchSummary (oldLeafId : Option Text)
    (targetId : Text) (fuel : Nat) : Option CollectEntriesResult :=
  match oldLeafId with
  | none | some [] => some ⟨[], none⟩
  | some oldLeafId =>
    let ancestor := commonAncestor (getBranch entries oldLeafId) (getBranch entries targetId)
    let commonAncestorId := ancestor.map SessionEntry.id
    (collectEntries entries commonAncestorId fuel (some oldLeafId)).map fun collected =>
      ⟨collected.reverse, commonAncestorId⟩

def oldPath (oldLeafId : Option Text) : List SessionEntry :=
  (oldLeafId.map (getBranch entries)).getD []

def IsDeepestCommon (oldPath targetPath : List SessionEntry) (ancestor : SessionEntry) : Prop :=
  ancestor ∈ oldPath ∧ ∃ above below, targetPath = above ++ ancestor :: below ∧
    ∀ entry ∈ below, entry ∉ oldPath

def IsAbandoned (oldPath targetPath abandoned : List SessionEntry) : Prop :=
  (∃ before ancestor, oldPath = before ++ ancestor :: abandoned ∧
    IsDeepestCommon oldPath targetPath ancestor) ∨
  (∀ entry ∈ targetPath, entry ∉ oldPath) ∧ abandoned = oldPath

/-- The oldest entry of the old path is a root, and not the child of an entry on the path. -/
def EndsAtRoot (path : List SessionEntry) : Prop :=
  ∀ root, path.head? = some root → resolveParent entries root = none

section

variable {entries : List SessionEntry}

variable {fromId : Text} {ancestor entry : SessionEntry}

theorem resolveEntry_of_mem_getBranch
    (h : entry ∈ getBranch entries fromId) : resolveEntry entries entry.id = some entry := by
  have hstored : ∀ id, resolveEntry entries id = some entry →
      resolveEntry entries entry.id = some entry := by
    intro id hid
    rw [(resolveEntry_id hid).1]
    exact hid
  have hmem := mem_reverse.1 h
  obtain ⟨before, after, hsplit⟩ := append_of_mem hmem
  rcases eq_nil_or_concat' before with rfl | ⟨earlier, child, rfl⟩
  · have hstart := head?_walk SessionEntry.id (resolveParent entries)
      (show _ = some entry by rw [hsplit]; rfl)
    split at hstart
    · cases hstart
    · exact hstored _ hstart
  · have hchain := isChain_walk SessionEntry.id (resolveParent entries) entries.length []
      (if fromId = [] then none else resolveEntry entries fromId)
    rw [hsplit, append_assoc, isChain_append] at hchain
    have hparent := (isChain_cons_cons.1 hchain.2.1).1
    obtain ⟨id, -, hid⟩ := bind_eq_some_iff.1 hparent
    exact hstored id hid

theorem mem_getBranch_of_id_mem {otherId : Text} (hentry : entry ∈ getBranch entries otherId)
    (hid : entry.id ∈ (getBranch entries fromId).map SessionEntry.id) :
    entry ∈ getBranch entries fromId := by
  obtain ⟨other, hother, heq⟩ := mem_map.1 hid
  have hsame := resolveEntry_of_mem_getBranch hother
  rw [heq, resolveEntry_of_mem_getBranch hentry] at hsame
  cases hsame
  exact hother

theorem parent_mem_getBranch {parent : SessionEntry}
    (hentry : entry ∈ getBranch entries fromId)
    (hparent : resolveParent entries entry = some parent) :
    parent ∈ getBranch entries fromId := by
  have hstored : resolveEntry entries parent.id = some parent := by
    obtain ⟨id, -, hid⟩ := bind_eq_some_iff.1 hparent
    rw [(resolveEntry_id hid).1]
    exact hid
  have hids : parent.id ∈ (getBranch entries fromId).map SessionEntry.id := by
    have hsub : (getBranch entries fromId).map SessionEntry.id ⊆ entries.map SessionEntry.id := by
      intro id hid
      obtain ⟨other, hother, rfl⟩ := mem_map.1 hid
      exact mem_map_of_mem (resolveEntry_id (resolveEntry_of_mem_getBranch hother)).2
    have hsubperm := subperm_of_subset (nodup_getBranch entries fromId) hsub
    by_cases hlength : (getBranch entries fromId).length < entries.length
    · rw [getBranch, length_reverse] at hlength
      have hclosed := (key_mem_of_length_lt SessionEntry.id (resolveParent entries) hlength).2
        entry (mem_reverse.1 hentry) parent hparent
      rw [getBranch, map_reverse, mem_reverse]
      exact hclosed.resolve_left not_mem_nil
    · -- all ids of the session are on the path
      have hperm := hsubperm.perm_of_length_le (by simpa using hlength)
      exact hperm.mem_iff.2 (mem_map_of_mem (resolveEntry_id hstored).2)
  obtain ⟨other, hother, heq⟩ := mem_map.1 hids
  have hsame := resolveEntry_of_mem_getBranch hother
  rw [heq, hstored] at hsame
  cases hsame
  exact hother

theorem collectEntries_eq_climb (commonAncestorId : Option Text) (fuel : Nat)
    (current : Option Text) :
    collectEntries entries commonAncestorId fuel current =
      climb (resolveParent entries) (fun entry => some entry.id = commonAncestorId) fuel
        ((current.filter (· ≠ [])).bind (resolveEntry entries)) := by
  induction fuel generalizing current with
  | zero => rfl
  | succ fuel ih =>
    cases current with
    | none => rfl
    | some id =>
      rw [collectEntries, filter_some]
      by_cases hempty : id = []
      · simp [hempty, climb]
      · have hfilter : decide (id ≠ []) = true := decide_eq_true hempty
        rw [if_pos hfilter, bind_some]
        cases hentry : resolveEntry entries id with
        | none => simp [climb]
        | some entry =>
          rw [climb, (resolveEntry_id hentry).1]
          by_cases hcommon : some id = commonAncestorId
          · simp [hcommon]
          · simp [hempty, hcommon, ih, resolveParent]

theorem isDeepestCommon_of_commonAncestor {oldId targetId : Text}
    (h : commonAncestor (getBranch entries oldId) (getBranch entries targetId) = some ancestor) :
    IsDeepestCommon (getBranch entries oldId) (getBranch entries targetId) ancestor := by
  rw [commonAncestor, find?_eq_some_iff_append] at h
  obtain ⟨hold, below, above, hsplit, hbelow⟩ := h
  have htarget : getBranch entries targetId = above.reverse ++ ancestor :: below.reverse := by
    have hreverse := congrArg List.reverse hsplit
    simpa using hreverse
  refine ⟨?_, above.reverse, below.reverse, htarget, fun entry hentry hmem => ?_⟩
  · have hmem : ancestor ∈ getBranch entries targetId := by
      rw [htarget]
      exact mem_append_right _ mem_cons_self
    exact mem_getBranch_of_id_mem hmem (of_decide_eq_true hold)
  · have hnot := hbelow entry (mem_reverse.1 hentry)
    simp [mem_map_of_mem hmem] at hnot

theorem not_mem_of_commonAncestor_eq_none {oldId targetId : Text}
    (h : commonAncestor (getBranch entries oldId) (getBranch entries targetId) = none)
    (hentry : entry ∈ getBranch entries targetId) :
    entry ∉ getBranch entries oldId := by
  intro hmem
  rw [commonAncestor, find?_eq_none] at h
  exact h entry (mem_reverse.2 hentry) (decide_eq_true (mem_map_of_mem hmem))

theorem getBranch_reverse_spec (entries : List SessionEntry) {oldId : Text} (hne : oldId ≠ []) :
    ((getBranch entries oldId).reverse.IsChain fun a b => resolveParent entries a = some b) ∧
      (getBranch entries oldId).reverse.head? = resolveEntry entries oldId := by
  have hwalk : (getBranch entries oldId).reverse =
      walk SessionEntry.id (resolveParent entries) entries.length []
        (resolveEntry entries oldId) := by
    rw [getBranch, if_neg hne, reverse_reverse]
  rw [hwalk]
  refine ⟨isChain_walk _ _ _ _ _, ?_⟩
  cases hleaf : resolveEntry entries oldId with
  | none =>
    rw [walk_eq_nil _ _ (by simp)]
    rfl
  | some leaf =>
    obtain ⟨n, hn⟩ : ∃ n, entries.length = n + 1 :=
      Nat.exists_eq_succ_of_ne_zero (length_pos_of_mem (resolveEntry_id hleaf).2).ne'
    rw [hn]
    rfl

variable {oldId targetId : Text}

variable (hne : oldId ≠ [])
include hne

theorem climb_to_ancestor {before after : List SessionEntry}
    (hsplit : getBranch entries oldId = before ++ ancestor :: after) :
    climb (resolveParent entries) (fun entry => some entry.id = some ancestor.id)
      (after.length + 1) (resolveEntry entries oldId) = some after.reverse := by
  obtain ⟨hchain, hhead⟩ := getBranch_reverse_spec entries hne
  have hreverse :
      (getBranch entries oldId).reverse = after.reverse ++ ancestor :: before.reverse := by
    rw [hsplit]
    simp
  rw [hreverse] at hchain hhead
  obtain ⟨hafter, -, hjoin⟩ := isChain_append.1 hchain
  refine climb_eq (fun node hnode => ?_) hafter (fun node hnode => ?_)
    (fun node hnode => ?_) (by simp)
  · rw [← hhead, head?_append, hnode, some_or]
  · have hnodup := nodup_getBranch entries oldId
    rw [hsplit, map_append, nodup_append] at hnodup
    have hfresh := (nodup_cons.1 hnodup.2.1).1
    simp only [some.injEq, decide_eq_false_iff_not]
    intro heq
    exact hfresh (heq ▸ mem_map_of_mem (mem_reverse.1 hnode))
  · cases hlast : after.reverse.getLast? with
    | none =>
      rw [getLast?_eq_none_iff] at hlast
      rw [hlast, nil_append, head?_cons] at hhead
      simp only [hlast, getLast?_nil, ← hhead, some.injEq] at hnode
      simp [hnode]
    | some last =>
      have hnext := hjoin last hlast ancestor rfl
      simp only [hlast, hnext, some.injEq] at hnode
      simp [hnode]

theorem climb_to_root (hroot : EndsAtRoot entries (getBranch entries oldId)) :
    climb (resolveParent entries) (fun entry => some entry.id = none)
      ((getBranch entries oldId).length + 1) (resolveEntry entries oldId) =
        some (getBranch entries oldId).reverse := by
  obtain ⟨hchain, hhead⟩ := getBranch_reverse_spec entries hne
  refine climb_eq (fun node hnode => hhead ▸ hnode) hchain (by simp)
    (fun node hnode => ?_) (by simp)
  rw [getLast?_reverse] at hnode
  cases hfirst : (getBranch entries oldId).head? with
  | none =>
    rw [← hhead] at hnode
    rw [head?_eq_none_iff.1 hfirst] at hnode
    cases hnode
  | some root =>
    simp only [hfirst, hroot root hfirst] at hnode
    cases hnode

theorem climb_of_cycle (hroot : ¬EndsAtRoot entries (getBranch entries oldId)) (fuel : Nat) :
    climb (resolveParent entries) (fun entry => some entry.id = none) fuel
      (resolveEntry entries oldId) = none := by
  obtain ⟨hchain, hhead⟩ := getBranch_reverse_spec entries hne
  simp only [EndsAtRoot, not_forall] at hroot
  obtain ⟨root, hfirst, hparent⟩ := hroot
  have hparents : ∀ node ∈ getBranch entries oldId, ∃ parent ∈ getBranch entries oldId,
      resolveParent entries node = some parent := by
    intro node hnode
    suffices hsome : ∃ parent, resolveParent entries node = some parent by
      obtain ⟨parent, hlink⟩ := hsome
      exact ⟨parent, parent_mem_getBranch hnode hlink, hlink⟩
    obtain ⟨newer, older, hsplit⟩ := append_of_mem (mem_reverse.2 hnode)
    cases older with
    | nil =>
      have hlast : (getBranch entries oldId).head? = some node := by
        rw [← getLast?_reverse, hsplit, getLast?_concat]
      rw [hfirst] at hlast
      cases hlast
      exact ne_none_iff_exists'.1 hparent
    | cons parent older =>
      rw [hsplit, isChain_append] at hchain
      exact ⟨parent, (isChain_cons_cons.1 hchain.2.1).1⟩
  cases hleaf : resolveEntry entries oldId with
  | none =>
    rw [hleaf, head?_reverse, getLast?_eq_none_iff] at hhead
    rw [hhead] at hfirst
    cases hfirst
  | some leaf =>
    rw [hleaf] at hhead
    exact climb_eq_none (mem_reverse.1 (mem_of_head? hhead)) hparents (by simp) fuel

end

theorem oldPath_eq_nil (entries : List SessionEntry) : getBranch entries [] = [] := by
  rw [getBranch, walk_eq_nil _ _ (by simp)]
  rfl

/-- The collection ends with the abandoned entries if and only if the parents of the old leaf lead
to a root, or its path and the path to the target have an entry in common. -/
theorem collectEntriesForBranchSummary_iff (entries : List SessionEntry) (oldLeafId : Option Text)
    (targetId : Text) :
    (∃ fuel result, collectEntriesForBranchSummary entries oldLeafId targetId fuel = some result ∧
      IsAbandoned (oldPath entries oldLeafId) (getBranch entries targetId) result.entries) ↔
    EndsAtRoot entries (oldPath entries oldLeafId) ∨
      ∃ entry ∈ oldPath entries oldLeafId, entry ∈ getBranch entries targetId := by
  rcases oldLeafId with _ | oldId
  · exact ⟨fun _ => .inl (by simp [EndsAtRoot, oldPath]),
      fun _ => ⟨0, _, rfl, .inr ⟨by simp [oldPath], rfl⟩⟩⟩
  have hpath : oldPath entries (some oldId) = getBranch entries oldId := rfl
  rw [hpath]
  by_cases hne : oldId = []
  · subst hne
    rw [oldPath_eq_nil]
    exact ⟨fun _ => .inl (by simp [EndsAtRoot]), fun _ => ⟨0, _, rfl, .inr ⟨by simp, rfl⟩⟩⟩
  have hcollect : ∀ fuel, collectEntriesForBranchSummary entries (some oldId) targetId fuel =
      (climb (resolveParent entries) (fun entry => some entry.id =
        (commonAncestor (getBranch entries oldId) (getBranch entries targetId)).map SessionEntry.id)
        fuel (resolveEntry entries oldId)).map fun collected => ⟨collected.reverse,
          (commonAncestor (getBranch entries oldId) (getBranch entries targetId)).map
            SessionEntry.id⟩ := by
    intro fuel
    rw [collectEntriesForBranchSummary]
    · rw [collectEntries_eq_climb, filter_some, if_pos (by simpa using hne)]
      rfl
    · simpa using hne
  cases hcommon : commonAncestor (getBranch entries oldId) (getBranch entries targetId) with
  | some ancestor =>
    have hdeepest := isDeepestCommon_of_commonAncestor hcommon
    obtain ⟨above, below, htarget, -⟩ := hdeepest.2
    refine ⟨fun _ => .inr ⟨ancestor, hdeepest.1, ?_⟩, fun _ => ?_⟩
    · rw [htarget]
      exact mem_append_right _ mem_cons_self
    · obtain ⟨before, after, hsplit⟩ := append_of_mem hdeepest.1
      refine ⟨after.length + 1, ⟨after, some ancestor.id⟩, ?_,
        .inl ⟨before, ancestor, hsplit, hdeepest⟩⟩
      rw [hcollect, hcommon, map_some, climb_to_ancestor hne hsplit]
      simp
  | none =>
    have hdisjoint : ∀ entry ∈ getBranch entries targetId, entry ∉ getBranch entries oldId :=
      fun entry hentry => not_mem_of_commonAncestor_eq_none hcommon hentry
    constructor
    · rintro ⟨fuel, result, hresult, -⟩
      left
      by_contra hroot
      rw [hcollect, hcommon, map_none, climb_of_cycle hne hroot] at hresult
      cases hresult
    · rintro (hroot | ⟨entry, hold, htarget⟩)
      · refine ⟨(getBranch entries oldId).length + 1, ⟨getBranch entries oldId, none⟩, ?_,
          .inr ⟨hdisjoint, rfl⟩⟩
        rw [hcollect, hcommon, map_none, climb_to_root hne hroot]
        simp
      · exact absurd hold (hdisjoint entry htarget)

def selfParentSession : List SessionEntry :=
  [⟨"a".toList, some "a".toList, .setting .custom⟩, ⟨"b".toList, none, .setting .custom⟩]

theorem collectEntriesForBranchSummary_loops :
    ¬∃ fuel result, collectEntriesForBranchSummary selfParentSession
      (some "a".toList) "b".toList fuel = some result := by
  rintro ⟨fuel, result, hresult⟩
  have hloop : ∀ fuel, collectEntries selfParentSession none fuel (some "a".toList) = none := by
    intro fuel
    induction fuel with
    | zero => rfl
    | succ fuel ih =>
      show (collectEntries selfParentSession none fuel (some "a".toList)).map _ = none
      rw [ih]
      rfl
  have hcommon : commonAncestor (getBranch selfParentSession "a".toList)
      (getBranch selfParentSession "b".toList) = none := by decide +kernel
  rw [collectEntriesForBranchSummary, hcommon, map_none, hloop] at hresult
  · cases hresult
  · decide

end Vibrato.Session
