import Vibrato.Lib.ParentWalk
import Vibrato.Session.Context

/-! Branched sessions of `session/session-manager.ts`. -/

namespace Vibrato.Session

open List SessionEntry Option

variable (entries : List SessionEntry)

/-- `byId.get(id)`: the last entry stored under an id. -/
def resolveEntry (id : Text) : Option SessionEntry :=
  entries.reverse.find? (·.id == id)

def resolveParent (entry : SessionEntry) : Option SessionEntry :=
  (entry.parentId.filter (· ≠ [])).bind (resolveEntry entries)

/-- `getBranch`: the entries from the root to the entry with the given id.  No entry is visited
twice, so that as much fuel as there are entries suffices. -/
def getBranch (fromId : Text) : List SessionEntry :=
  (ParentWalk.walk SessionEntry.id (resolveParent entries) entries.length []
    (if fromId = [] then none else resolveEntry entries fromId)).reverse

def IsParent (a b : SessionEntry) : Prop := b.parentId = some a.id ∧ a.id ≠ []

variable {entries : List SessionEntry} {entry : SessionEntry}

theorem resolveEntry_id {id : Text} (h : resolveEntry entries id = some entry) :
    entry.id = id ∧ entry ∈ entries := by
  have hmem := mem_of_find?_eq_some h
  have hid := find?_some h
  exact ⟨by simpa using hid, mem_reverse.1 hmem⟩

theorem isParent_of_resolveParent {a b : SessionEntry} (h : resolveParent entries b = some a) :
    IsParent a b := by
  obtain ⟨id, hid, hresolve⟩ := bind_eq_some_iff.1 h
  obtain ⟨hparent, hne⟩ := filter_eq_some_iff.1 hid
  obtain ⟨rfl, -⟩ := resolveEntry_id hresolve
  exact ⟨hparent, by simpa using hne⟩

variable (entries)

theorem isChain_getBranch (fromId : Text) : (getBranch entries fromId).IsChain IsParent := by
  rw [getBranch, isChain_reverse]
  exact (ParentWalk.isChain_walk _ _ _ _ _).imp fun _ _ => isParent_of_resolveParent

theorem nodup_getBranch (fromId : Text) :
    ((getBranch entries fromId).map SessionEntry.id).Nodup := by
  rw [getBranch, map_reverse, nodup_reverse]
  exact (ParentWalk.nodup_walk _ _ _ _ _).1

variable {entries}

theorem resolveEntry_eq_some (hnodup : (entries.map SessionEntry.id).Nodup)
    (hmem : entry ∈ entries) :
    resolveEntry entries entry.id = some entry := by
  have hsome : (resolveEntry entries entry.id).isSome := by
    rw [resolveEntry, find?_isSome]
    exact ⟨entry, mem_reverse.2 hmem, by simp⟩
  obtain ⟨other, hother⟩ := isSome_iff_exists.1 hsome
  obtain ⟨hid, hmemOther⟩ := resolveEntry_id hother
  rw [hother, inj_on_of_nodup_map hnodup hmemOther hmem hid]

/-- A store whose entries form one chain is walked completely from its last entry. -/
theorem getBranch_of_isChain {leaf : SessionEntry}
    (hnodup : (entries.map SessionEntry.id).Nodup) (hchain : entries.IsChain IsParent)
    (hleaf : entries.getLast? = some leaf) (hne : leaf.id ≠ []) :
    getBranch entries leaf.id = entries := by
  have hresolve : ∀ a b, a ∈ entries → IsParent a b → resolveParent entries b = some a := by
    intro a b hmem hparent
    rw [resolveParent, hparent.1, filter_some, if_pos (by simpa using hparent.2),
      bind_some, resolveEntry_eq_some hnodup hmem]
  have hstart : (if leaf.id = [] then none else resolveEntry entries leaf.id) =
      entries.reverse.head? := by
    rw [if_neg hne, resolveEntry_eq_some hnodup (mem_of_getLast? hleaf), head?_reverse, hleaf]
  have hlinks : entries.reverse.IsChain fun b a => resolveParent entries b = some a := by
    rw [isChain_reverse]
    exact hchain.imp_of_mem_imp fun a b ha _ hparent => hresolve a b ha hparent
  have hlast : ∀ last, entries.reverse.getLast? = some last → ∀ node,
      resolveParent entries last = some node → node.id ∈ [] ∨
        node.id ∈ entries.reverse.map SessionEntry.id := by
    intro last _ node hnode
    right
    obtain ⟨id, -, hid⟩ := bind_eq_some_iff.1 hnode
    rw [map_reverse, mem_reverse]
    exact mem_map_of_mem (resolveEntry_id hid).2
  rw [getBranch, hstart, ParentWalk.walk_eq SessionEntry.id (resolveParent entries) hlinks
    (by rwa [map_reverse, nodup_reverse]) (by simp) hlast (by simp), reverse_reverse]

theorem id_ne_nil_of_mem_getBranch {fromId : Text} (hmem : entry ∈ getBranch entries fromId) :
    entry.id ≠ [] := by
  obtain ⟨before, after, hsplit⟩ := append_of_mem hmem
  have hchain := isChain_getBranch entries fromId
  rw [hsplit] at hchain
  cases after with
  | cons child after =>
    have hpair := (isChain_append.1 hchain).2.1
    exact (isChain_cons_cons.1 hpair).1.2
  | nil =>
    have hlast : (getBranch entries fromId).getLast? = some entry := by
      rw [hsplit, getLast?_concat]
    rw [getBranch, getLast?_reverse] at hlast
    have hstart := ParentWalk.head?_walk _ _ hlast
    split at hstart
    · cases hstart
    · next hne =>
      rw [(resolveEntry_id hstart).1]
      exact hne

/-- The entries of a session in the order they were stored, and its labels by target. -/
structure SessionState where
  entries : List SessionEntry
  labelsById : List (Text × Text)

inductive BranchMode where
  | prepareBranchedSession
  | createBranchedSession

section Branch

variable (generateId : List Text → Text)

def labelEntries : List Text → Option Text → List (Text × Text) → List SessionEntry
  | _, _, [] => []
  | usedIds, parentId, (targetId, label) :: labels =>
    let id := generateId usedIds
    ⟨id, parentId, .label targetId (some label)⟩ :: labelEntries (usedIds ++ [id]) (some id) labels

/-- `prepareBranchedSession` looks up targets among the ids in use, which grow with each label. -/
def preparedLabelEntries : List Text → Option Text → List (Text × Text) → List SessionEntry
  | _, _, [] => []
  | usedIds, parentId, (targetId, label) :: labels =>
    if targetId ∈ usedIds then
      let id := generateId usedIds
      ⟨id, parentId, .label targetId (some label)⟩ :: preparedLabelEntries (usedIds ++ [id])
        (some id) labels
    else preparedLabelEntries usedIds parentId labels

def withoutLabels (path : List SessionEntry) : List SessionEntry := path.filter (!·.isLabel)

def branchedLabels (mode : BranchMode) (session : SessionState) (leafId : Text) :
    List SessionEntry :=
  let pathWithoutLabels := withoutLabels (getBranch session.entries leafId)
  let pathEntryIds := pathWithoutLabels.map SessionEntry.id
  let lastId := pathWithoutLabels.getLast?.map SessionEntry.id
  match mode with
  | .prepareBranchedSession =>
      preparedLabelEntries generateId pathEntryIds lastId session.labelsById
  | .createBranchedSession =>
    labelEntries generateId pathEntryIds (lastId.filter (· ≠ []))
      (session.labelsById.filter (·.1 ∈ pathEntryIds))

def branchedEntries (mode : BranchMode) (session : SessionState) (leafId : Text) :
    Option (List SessionEntry) :=
  let branchPath := getBranch session.entries leafId
  if branchPath = [] then none
  else some (withoutLabels branchPath ++ branchedLabels generateId mode session leafId)

def lastLeafId (entries : List SessionEntry) : Text :=
  (entries.getLast?.map SessionEntry.id).getD []

def FreshLabels : List Text → Option Text → List SessionEntry → Prop
  | _, _, [] => True
  | usedIds, parentId, entry :: entries =>
    (entry.isLabel = true ∧ entry.id ∉ usedIds ∧ entry.id ≠ [] ∧ entry.parentId = parentId) ∧
      FreshLabels (usedIds ++ [entry.id]) (some entry.id) entries

variable {generateId} (hgenerate : ∀ usedIds, generateId usedIds ∉ usedIds ∧
    generateId usedIds ≠ [])

include hgenerate in
theorem freshLabels_labelEntries (usedIds : List Text) (parentId : Option Text)
    (labels : List (Text × Text)) :
    FreshLabels usedIds parentId (labelEntries generateId usedIds parentId labels) := by
  induction labels generalizing usedIds parentId with
  | nil => trivial
  | cons label labels ih =>
    exact ⟨⟨rfl, (hgenerate usedIds).1, (hgenerate usedIds).2, rfl⟩, ih _ _⟩

include hgenerate in
theorem freshLabels_preparedLabelEntries (usedIds : List Text) (parentId : Option Text)
    (labels : List (Text × Text)) :
    FreshLabels usedIds parentId (preparedLabelEntries generateId usedIds parentId labels) := by
  induction labels generalizing usedIds parentId with
  | nil => trivial
  | cons label labels ih =>
    rw [preparedLabelEntries]
    split
    · exact ⟨⟨rfl, (hgenerate usedIds).1, (hgenerate usedIds).2, rfl⟩, ih _ _⟩
    · exact ih _ _

variable {usedIds : List Text} {parentId : Option Text} {labels : List SessionEntry}

theorem FreshLabels.isLabel (h : FreshLabels usedIds parentId labels) :
    ∀ entry ∈ labels, entry.isLabel = true ∧ entry.id ≠ [] := by
  induction labels generalizing usedIds parentId with
  | nil => simp
  | cons label labels ih =>
    intro entry hmem
    rcases mem_cons.1 hmem with rfl | hmem
    · exact ⟨h.1.1, h.1.2.2.1⟩
    · exact ih h.2 entry hmem

theorem FreshLabels.nodup (h : FreshLabels usedIds parentId labels)
    (hused : usedIds.Nodup) : (usedIds ++ labels.map SessionEntry.id).Nodup := by
  induction labels generalizing usedIds parentId with
  | nil => simpa using hused
  | cons label labels ih =>
    have hused' : (usedIds ++ [label.id]).Nodup := by
      rw [nodup_append]
      refine ⟨hused, by simp, fun a ha b hb => ?_⟩
      rw [mem_singleton.1 hb]
      exact fun heq => h.1.2.1 (heq ▸ ha)
    rw [map_cons, append_cons]
    exact ih h.2 hused'

theorem FreshLabels.isChain_append_iff {entries : List SessionEntry}
    (h : FreshLabels usedIds (entries.getLast?.map SessionEntry.id) labels)
    (hne : ∀ entry ∈ entries, entry.id ≠ []) :
    (entries ++ labels).IsChain IsParent ↔ entries.IsChain IsParent := by
  refine ⟨fun hchain => (isChain_append.1 hchain).1, fun hchain => ?_⟩
  induction labels generalizing usedIds entries with
  | nil => simpa using hchain
  | cons label labels ih =>
    have hrest : FreshLabels (usedIds ++ [label.id])
        ((entries ++ [label]).getLast?.map SessionEntry.id) labels := by
      simpa using h.2
    rw [append_cons]
    refine ih hrest ?_ ?_
    · intro entry hmem
      rcases mem_append.1 hmem with hmem | hmem
      · exact hne entry hmem
      · rw [mem_singleton.1 hmem]
        exact h.1.2.2.1
    · rw [isChain_append]
      refine ⟨hchain, List.IsChain.singleton label, fun last hlast child hchild => ?_⟩
      simp only [head?_cons, mem_def, some.injEq] at hchild
      subst hchild
      refine ⟨?_, hne last (mem_of_getLast? hlast)⟩
      rw [h.1.2.2.2, hlast, map_some]

end Branch

variable (path : List SessionEntry)

def innerEntries : List SessionEntry :=
  (path.dropWhile isLabel).rdropWhile isLabel

theorem innerEntries_split :
    ∃ leading trailing, path = leading ++ (innerEntries path ++ trailing) ∧
      (∀ entry ∈ leading, entry.isLabel = true) ∧ ∀ entry ∈ trailing, entry.isLabel = true := by
  refine ⟨path.takeWhile isLabel, (path.dropWhile isLabel).rtakeWhile isLabel, ?_, ?_, ?_⟩
  · rw [innerEntries, rdropWhile_append_rtakeWhile, takeWhile_append_dropWhile]
  · exact fun entry hmem => mem_takeWhile_imp hmem
  · exact fun entry hmem => mem_rtakeWhile_imp hmem

variable {entries labels path : List SessionEntry} {entry : SessionEntry}

theorem head?_innerEntries (h : (innerEntries path).head? = some entry) :
    entry.isLabel = false := by
  have hnot := head?_dropWhile_not isLabel path
  obtain ⟨trailing, hsplit⟩ := rdropWhile_prefix isLabel
    (path.dropWhile isLabel)
  have hhead : (path.dropWhile isLabel).head? = some entry := by
    have h' : ((path.dropWhile isLabel).rdropWhile isLabel).head? = some entry := h
    rw [← hsplit, head?_append, h', some_or]
  rw [hhead] at hnot
  exact hnot

theorem getLast?_innerEntries (h : (innerEntries path).getLast? = some entry) :
    entry.isLabel = false := by
  have hne : innerEntries path ≠ [] := by
    intro hnil
    rw [hnil] at h
    cases h
  have hlast := rdropWhile_last_not isLabel _ hne
  rw [getLast?_eq_some_getLast hne, some.injEq] at h
  rw [← h]
  exact Bool.eq_false_iff.2 hlast

theorem withoutLabels_eq_nil (hlabels : ∀ entry ∈ labels, entry.isLabel = true) :
    withoutLabels labels = [] := by
  rw [withoutLabels, filter_eq_nil_iff]
  intro entry hmem
  simp [hlabels entry hmem]

theorem withoutLabels_append (a b : List SessionEntry) :
    withoutLabels (a ++ b) = withoutLabels a ++ withoutLabels b :=
  filter_append a b

theorem withoutLabels_innerEntries (path : List SessionEntry) :
    withoutLabels (innerEntries path) = withoutLabels path := by
  obtain ⟨leading, trailing, hsplit, hleading, htrailing⟩ := innerEntries_split path
  conv_rhs => rw [hsplit]
  rw [withoutLabels_append, withoutLabels_append, withoutLabels_eq_nil hleading,
    withoutLabels_eq_nil htrailing, nil_append, append_nil]

theorem not_isLabel_of_isChain (hchain : path.IsChain IsParent)
    (hnodup : (path.map SessionEntry.id).Nodup)
    (hhead : ∀ entry, path.head? = some entry → entry.isLabel = false)
    (hlast : ∀ entry, path.getLast? = some entry → entry.isLabel = false)
    (hfilter : (withoutLabels path).IsChain IsParent) :
    ∀ entry ∈ path, entry.isLabel = false := by
  induction path with
  | nil => simp
  | cons first path ih =>
    have hfirst := hhead first rfl
    have hrest : withoutLabels (first :: path) = first :: withoutLabels path := by
      simp [withoutLabels, hfirst]
    rw [hrest] at hfilter
    cases path with
    | nil => simpa using hfirst
    | cons second path =>
      have hsecond : second.isLabel = false := by
        by_contra hlabel
        -- The next entry that is no label has a label as its parent, and also `first`.
        obtain ⟨last, hlastEq⟩ : ∃ last, (second :: path).getLast? = some last :=
          ⟨_, getLast?_eq_some_getLast (by simp)⟩
        have hmem : last ∈ withoutLabels (second :: path) := by
          rw [withoutLabels, mem_filter]
          exact ⟨mem_of_getLast? hlastEq, by simp [hlast last hlastEq]⟩
        obtain ⟨child, later, hcons⟩ := exists_cons_of_ne_nil (ne_nil_of_mem hmem)
        rw [hcons, isChain_cons_cons] at hfilter
        obtain ⟨labels, rest, hsplit, hlabels, hchild, -⟩ := filter_eq_cons_iff.1 hcons
        have hlabelsNe : labels ≠ [] := by
          rintro rfl
          rw [nil_append, List.cons.injEq] at hsplit
          rw [hsplit.1] at hlabel
          simp [hlabel] at hchild
        obtain ⟨init, parent, rfl⟩ := (eq_nil_or_concat labels).resolve_left hlabelsNe
        have hparent : IsParent parent child := by
          have htail := (isChain_cons_cons.1 hchain).2
          rw [hsplit] at htail
          exact (isChain_append.1 htail).2.2 parent (by simp) child (by simp)
        have hid : first.id = parent.id := by
          have heq := hfilter.1.1.symm.trans hparent.1
          simpa using heq
        rw [map_cons, nodup_cons] at hnodup
        refine hnodup.1 (hid ▸ mem_map_of_mem ?_)
        rw [hsplit]
        simp
      intro entry hmem
      rcases mem_cons.1 hmem with rfl | hmem
      · exact hfirst
      · refine ih (isChain_cons_cons.1 hchain).2 (nodup_cons.1 hnodup).2
          (by simpa using hsecond) hlast hfilter.tail entry hmem

theorem isChain_withoutLabels_iff (hchain : path.IsChain IsParent)
    (hnodup : (path.map SessionEntry.id).Nodup) :
    (withoutLabels path).IsChain IsParent ↔ ∀ entry ∈ innerEntries path, entry.isLabel = false := by
  obtain ⟨leading, trailing, hsplit, -, -⟩ := innerEntries_split path
  have hwithin : innerEntries path <:+: path := ⟨leading, trailing, by simpa using hsplit.symm⟩
  have hinner : (innerEntries path).IsChain IsParent := by
    have hwhole := hchain
    rw [hsplit] at hwhole
    exact (isChain_append.1 (isChain_append.1 hwhole).2.1).1
  rw [← withoutLabels_innerEntries]
  constructor
  · intro hfilter
    refine not_isLabel_of_isChain hinner
      (hnodup.sublist (hwithin.sublist.map SessionEntry.id)) ?_ ?_ hfilter
    · exact fun entry hentry => head?_innerEntries hentry
    · exact fun entry hentry => getLast?_innerEntries hentry
  · intro hnone
    have hself : withoutLabels (innerEntries path) = innerEntries path :=
      filter_eq_self.2 fun entry hmem => by simp [hnone entry hmem]
    rw [hself]
    exact hinner

theorem appendMessage_eq_none_of_isLabel (h : entry.isLabel = true) :
    appendMessage entry = none := by
  unfold isLabel at h
  split at h
  · next hdata => simp [appendMessage, getMessageFromEntry, hdata]
  · cases h

theorem isCompaction_eq_false_of_isLabel (h : entry.isLabel = true) :
    entry.isCompaction = false := by
  unfold isLabel at h
  split at h
  · next hdata => simp [isCompaction, compaction?, hdata]
  · cases h

theorem filterMap_withoutLabels (entries : List SessionEntry) :
    (withoutLabels entries).filterMap appendMessage = entries.filterMap appendMessage := by
  induction entries with
  | nil => rfl
  | cons entry entries ih =>
    cases hlabel : entry.isLabel with
    | true =>
      rw [filterMap_cons_none (appendMessage_eq_none_of_isLabel hlabel)]
      simpa [withoutLabels, hlabel] using ih
    | false =>
      have hcons : withoutLabels (entry :: entries) = entry :: withoutLabels entries := by
        simp [withoutLabels, hlabel]
      rw [hcons, filterMap_cons, filterMap_cons, ih]

theorem filterMap_eq_nil_of_isLabel
    (hlabels : ∀ entry ∈ labels, entry.isLabel = true) : labels.filterMap appendMessage = [] :=
  filterMap_eq_nil_iff.2 fun entry hmem =>
    appendMessage_eq_none_of_isLabel (hlabels entry hmem)

theorem dropWhile_id_eq_nil {id : Text}
    (h : id ∉ entries.map SessionEntry.id) : entries.dropWhile (·.id ≠ id) = [] := by
  rw [dropWhile_eq_nil_iff]
  intro entry hmem
  simpa using fun heq : entry.id = id => h (heq ▸ mem_map_of_mem hmem)

theorem dropWhile_id_append {before after : List SessionEntry}
    (h : entry.id ∉ before.map SessionEntry.id) :
    (before ++ entry :: after).dropWhile (·.id ≠ entry.id) = entry :: after := by
  rw [dropWhile_append, dropWhile_id_eq_nil h]
  simp

theorem filterMap_dropWhile_withoutLabels_iff (id : Text)
    (hnodup : (entries.map SessionEntry.id).Nodup) :
    ((withoutLabels entries).dropWhile (·.id ≠ id)).filterMap appendMessage =
        (entries.dropWhile (·.id ≠ id)).filterMap appendMessage ↔
      ((entries.dropWhile (·.id ≠ id)).head?.any SessionEntry.isLabel = true →
        ∀ entry ∈ entries.dropWhile (·.id ≠ id), appendMessage entry = none) := by
  have hsub : ((withoutLabels entries).map SessionEntry.id).Sublist
      (entries.map SessionEntry.id) := filter_sublist.map _
  by_cases hid : id ∈ entries.map SessionEntry.id
  · obtain ⟨entry, hmem, rfl⟩ := mem_map.1 hid
    obtain ⟨before, after, rfl⟩ := append_of_mem hmem
    rw [map_append, nodup_append] at hnodup
    obtain ⟨-, hcons, hdisjoint⟩ := hnodup
    have hbefore : entry.id ∉ before.map SessionEntry.id := fun hb =>
      hdisjoint entry.id hb entry.id mem_cons_self rfl
    have hbeforeSub : entry.id ∉ (withoutLabels before).map SessionEntry.id := fun hb =>
      hbefore ((filter_sublist.map SessionEntry.id).subset hb)
    have hafterSub : entry.id ∉ (withoutLabels after).map SessionEntry.id := fun ha =>
      (nodup_cons.1 hcons).1 ((filter_sublist.map SessionEntry.id).subset ha)
    rw [dropWhile_id_append hbefore, head?_cons, any_some, withoutLabels_append]
    cases hlabel : entry.isLabel with
    | true =>
      have hskip : withoutLabels (entry :: after) = withoutLabels after := by
        simp [withoutLabels, hlabel]
      rw [hskip, dropWhile_id_eq_nil (by
        rw [map_append, mem_append, not_or]
        exact ⟨hbeforeSub, hafterSub⟩), filterMap_nil, eq_comm, filterMap_eq_nil_iff]
      simp
    | false =>
      have hkeep : withoutLabels (entry :: after) = entry :: withoutLabels after := by
        simp [withoutLabels, hlabel]
      rw [hkeep, dropWhile_id_append hbeforeSub, ← hkeep, filterMap_withoutLabels]
      simp
  · rw [dropWhile_id_eq_nil hid, dropWhile_id_eq_nil fun h => hid (hsub.subset h)]
    simp

theorem contextMessages_withoutLabels_iff (hnodup : (path.map SessionEntry.id).Nodup)
    (hlabels : ∀ entry ∈ labels, entry.isLabel = true) :
    contextMessages (withoutLabels path ++ labels) = contextMessages path ↔
      ((keptEntries path).head?.any SessionEntry.isLabel = true →
        ∀ entry ∈ keptEntries path, appendMessage entry = none) := by
  rcases exists_lastCompaction_split path with hnone | ⟨before, entry, after, rfl, hentry, hafter⟩
  · have hlast := (lastCompaction?_eq_none_iff path).2 hnone
    have hlast' : lastCompaction? (withoutLabels path ++ labels) = none := by
      rw [lastCompaction?_eq_none_iff]
      intro entry hmem
      rcases mem_append.1 hmem with hmem | hmem
      · exact hnone entry (mem_of_mem_filter hmem)
      · exact isCompaction_eq_false_of_isLabel (hlabels entry hmem)
    simp only [contextMessages, summaryMessage?, shownMessages, keptMessages, keptEntries,
      laterMessages, hlast, hlast', filterMap_append, filterMap_withoutLabels,
      filterMap_eq_nil_of_isLabel hlabels]
    simp
  · obtain ⟨compaction, hcompaction⟩ := isSome_iff_exists.1 hentry
    have hnotLabel : entry.isLabel = false := by
      by_contra hlabel
      rw [isCompaction_eq_false_of_isLabel (by simpa using hlabel)] at hentry
      cases hentry
    have hnew : withoutLabels (before ++ entry :: after) ++ labels =
        withoutLabels before ++ entry :: (withoutLabels after ++ labels) := by
      have hcons : withoutLabels (entry :: after) = entry :: withoutLabels after := by
        simp [withoutLabels, hnotLabel]
      rw [withoutLabels_append, hcons, append_assoc, cons_append]
    rw [map_append, nodup_append] at hnodup
    obtain ⟨hbefore, -, hdisjoint⟩ := hnodup
    have hid : entry.id ∉ before.map SessionEntry.id := fun hmem =>
      hdisjoint entry.id hmem entry.id mem_cons_self rfl
    have hid' : entry.id ∉ (withoutLabels before).map SessionEntry.id := fun hmem =>
      hid ((filter_sublist.map SessionEntry.id).subset hmem)
    have hafter' : ∀ later ∈ withoutLabels after ++ labels, later.isCompaction = false := by
      intro later hmem
      rcases mem_append.1 hmem with hmem | hmem
      · exact hafter later (mem_of_mem_filter hmem)
      · exact isCompaction_eq_false_of_isLabel (hlabels later hmem)
    rw [hnew, contextMessages_append hentry hafter' hid' hcompaction,
      contextMessages_append hentry hafter hid hcompaction, filterMap_append,
      filterMap_withoutLabels, filterMap_eq_nil_of_isLabel hlabels, append_nil,
      List.cons.injEq, and_iff_right rfl, append_left_inj, keptMessages, keptMessages,
      keptEntries_append hentry hafter' hid' hcompaction,
      keptEntries_append hentry hafter hid hcompaction]
    split
    · simp
    · exact filterMap_dropWhile_withoutLabels_iff _ hbefore

theorem branchedLabels_freshLabels {generateId : List Text → Text}
    (hgenerate : ∀ usedIds, generateId usedIds ∉ usedIds ∧ generateId usedIds ≠ [])
    (mode : BranchMode) (session : SessionState) (leafId : Text) :
    FreshLabels ((withoutLabels (getBranch session.entries leafId)).map SessionEntry.id)
      ((withoutLabels (getBranch session.entries leafId)).getLast?.map SessionEntry.id)
      (branchedLabels generateId mode session leafId) := by
  cases mode with
  | prepareBranchedSession => exact freshLabels_preparedLabelEntries hgenerate _ _ _
  | createBranchedSession =>
    have hlast : ((withoutLabels (getBranch session.entries leafId)).getLast?.map
        SessionEntry.id).filter (· ≠ []) =
        (withoutLabels (getBranch session.entries leafId)).getLast?.map SessionEntry.id := by
      cases hlast : (withoutLabels (getBranch session.entries leafId)).getLast? with
      | none => rfl
      | some last =>
        have hne := id_ne_nil_of_mem_getBranch
          (mem_of_mem_filter (mem_of_getLast? hlast))
        simp [hne]
    have hfresh := freshLabels_labelEntries hgenerate
      ((withoutLabels (getBranch session.entries leafId)).map SessionEntry.id)
      (((withoutLabels (getBranch session.entries leafId)).getLast?.map SessionEntry.id).filter
        (· ≠ []))
      (session.labelsById.filter
        (·.1 ∈ (withoutLabels (getBranch session.entries leafId)).map SessionEntry.id))
    rw [hlast] at hfresh
    simp only [branchedLabels, hlast]
    exact hfresh

/-- Walking the new session from its leaf visits the entries of the path that are no labels and
then the new labels, and the context is that of the path, if and only if no label lies between two
other entries of the path, and the last compaction keeps no message from a label on. -/
theorem branchedEntries_preserves_iff (generateId : List Text → Text)
    (hgenerate : ∀ usedIds, generateId usedIds ∉ usedIds ∧ generateId usedIds ≠ [])
    (mode : BranchMode) (session : SessionState) (leafId : Text) (entries : List SessionEntry)
    (hbranch : branchedEntries generateId mode session leafId = some entries) :
    (getBranch entries (lastLeafId entries) =
        withoutLabels (getBranch session.entries leafId) ++
          branchedLabels generateId mode session leafId ∧
      contextMessages (getBranch entries (lastLeafId entries)) =
        contextMessages (getBranch session.entries leafId)) ↔
      (∀ entry ∈ innerEntries (getBranch session.entries leafId), entry.isLabel = false) ∧
        ((keptEntries (getBranch session.entries leafId)).head?.any SessionEntry.isLabel = true →
          ∀ entry ∈ keptEntries (getBranch session.entries leafId),
            appendMessage entry = none) := by
  have hnodup := nodup_getBranch session.entries leafId
  have hchain := isChain_getBranch session.entries leafId
  have hfresh := branchedLabels_freshLabels hgenerate mode session leafId
  have hids : ∀ entry ∈ withoutLabels (getBranch session.entries leafId), entry.id ≠ [] :=
    fun entry hmem => id_ne_nil_of_mem_getBranch (mem_of_mem_filter hmem)
  have hentries : entries = withoutLabels (getBranch session.entries leafId) ++
      branchedLabels generateId mode session leafId := by
    unfold branchedEntries at hbranch
    simp only at hbranch
    split at hbranch
    · cases hbranch
    · exact (some.inj hbranch).symm
  generalize getBranch session.entries leafId = path at *
  generalize branchedLabels generateId mode session leafId = labels at *
  subst hentries
  have hwalk : getBranch (withoutLabels path ++ labels)
      (lastLeafId (withoutLabels path ++ labels)) = withoutLabels path ++ labels ↔
      ∀ entry ∈ innerEntries path, entry.isLabel = false := by
    rw [← isChain_withoutLabels_iff hchain hnodup, ← hfresh.isChain_append_iff hids]
    constructor
    · intro heq
      rw [← heq]
      exact isChain_getBranch _ _
    · intro hnewChain
      have hnewIds : ∀ entry ∈ withoutLabels path ++ labels, entry.id ≠ [] := by
        intro entry hmem
        rcases mem_append.1 hmem with hmem | hmem
        · exact hids entry hmem
        · exact (hfresh.isLabel entry hmem).2
      have hnewNodup : ((withoutLabels path ++ labels).map SessionEntry.id).Nodup := by
        rw [map_append]
        exact hfresh.nodup (hnodup.sublist (filter_sublist.map SessionEntry.id))
      cases hleaf : (withoutLabels path ++ labels).getLast? with
      | none =>
        rw [getLast?_eq_none_iff] at hleaf
        rw [hleaf]
        rfl
      | some leaf =>
        have hlast : lastLeafId (withoutLabels path ++ labels) = leaf.id := by
          rw [lastLeafId, hleaf]
          rfl
        rw [hlast]
        exact getBranch_of_isChain hnewNodup hnewChain hleaf
          (hnewIds leaf (mem_of_getLast? hleaf))
  rw [← hwalk]
  refine and_congr_right fun heq => ?_
  rw [heq]
  exact contextMessages_withoutLabels_iff hnodup fun entry hmem => (hfresh.isLabel entry hmem).1

variable (usedIds : List Text)

def longerId : Text :=
  List.replicate ((usedIds.map List.length).foldr max 0 + 1) 'x'

theorem longerId_fresh : longerId usedIds ∉ usedIds ∧ longerId usedIds ≠ [] := by
  have hbound : ∀ id ∈ usedIds, id.length ≤ (usedIds.map List.length).foldr max 0 := by
    intro id hmem
    induction usedIds with
    | nil => cases hmem
    | cons first usedIds ih =>
      rcases mem_cons.1 hmem with rfl | hmem
      · exact le_max_left _ _
      · exact (ih hmem).trans (le_max_right _ _)
  refine ⟨fun hmem => ?_, by simp [longerId]⟩
  have hle := hbound _ hmem
  rw [longerId, length_replicate] at hle
  omega

def textEntry (id : String) (parentId : Option String) (text : String) : SessionEntry :=
  ⟨id.toList, parentId.map String.toList, .message (.llm (.user [.text text.toList] 0))⟩

def labelEntry (id parentId targetId label : String) : SessionEntry :=
  ⟨id.toList, some parentId.toList, .label targetId.toList (some label.toList)⟩

def labelledAtEnd : SessionState where
  entries := [textEntry "m1" none "one", textEntry "m2" (some "m1") "two",
    labelEntry "l1" "m2" "m1" "start"]
  labelsById := [("m1".toList, "start".toList)]

theorem branchedEntries_preserves_labelledAtEnd :
    ∃ entries, branchedEntries longerId .createBranchedSession labelledAtEnd "l1".toList =
        some entries ∧
      getBranch entries (lastLeafId entries) =
        withoutLabels (getBranch labelledAtEnd.entries "l1".toList) ++
          branchedLabels longerId .createBranchedSession labelledAtEnd "l1".toList ∧
      contextMessages (getBranch entries (lastLeafId entries)) =
        contextMessages (getBranch labelledAtEnd.entries "l1".toList) := by
  refine ⟨_, rfl, ?_⟩
  exact (branchedEntries_preserves_iff longerId longerId_fresh .createBranchedSession labelledAtEnd
    "l1".toList _ rfl).2 (by decide)

def labelledBetween : SessionState where
  entries := [textEntry "m1" none "one", labelEntry "l1" "m1" "m1" "start",
    textEntry "m2" (some "l1") "two"]
  labelsById := [("m1".toList, "start".toList)]

/-- The message before the label is lost from the new session's path and context. -/
theorem branchedEntries_loses_messages :
    ¬ ∀ (generateId : List Text → Text) (_ : ∀ usedIds, generateId usedIds ∉ usedIds ∧
        generateId usedIds ≠ []) (mode : BranchMode) (session : SessionState) (leafId : Text)
      (entries : List SessionEntry),
      branchedEntries generateId mode session leafId = some entries →
      getBranch entries (lastLeafId entries) =
        withoutLabels (getBranch session.entries leafId) ++
          branchedLabels generateId mode session leafId ∧
      contextMessages (getBranch entries (lastLeafId entries)) =
        contextMessages (getBranch session.entries leafId) := by
  intro hall
  have hboth := hall longerId longerId_fresh .prepareBranchedSession labelledBetween "m2".toList _
    rfl
  exact absurd hboth.2 (by decide)

end Vibrato.Session
