import Vibrato.Session.Entry

/-! The messages that `buildSessionContext` of `session/session-manager.ts` shows the model for a
session path: the summary of the last compaction, the messages it keeps, and the messages after
it. -/

namespace Vibrato.Session

open List

/-- `appendMessage`: the message that an entry adds to the context. -/
def appendMessage (entry : SessionEntry) : Option SessionMessage :=
  match entry.data with
  | .branchSummary _ [] => none
  | _ => getMessageFromEntry entry

variable (path : List SessionEntry) {before after : List SessionEntry} {entry : SessionEntry}

def lastCompaction? : Option (SessionEntry × Compaction) :=
  path.reverse.findSome? fun entry => entry.compaction?.map (entry, ·)

def compactionIdx (id : Text) : Nat :=
  path.findIdx fun entry => entry.isCompaction && entry.id == id

/-- The entries from the first kept entry of the last compaction up to that compaction. -/
def keptEntries : List SessionEntry :=
  match lastCompaction? path with
  | none => []
  | some (entry, compaction) =>
    if compaction.remoteReplacementHistory.isSome then []
    else (path.take (compactionIdx path entry.id)).dropWhile (·.id ≠ compaction.firstKeptEntryId)

def keptMessages : List SessionMessage :=
  (keptEntries path).filterMap appendMessage

def laterMessages : List SessionMessage :=
  match lastCompaction? path with
  | none => path.filterMap appendMessage
  | some (entry, _) => (path.drop (compactionIdx path entry.id + 1)).filterMap appendMessage

def summaryMessage? : Option SessionMessage :=
  (lastCompaction? path).map fun (entry, compaction) =>
    ⟨entry.id, .compactionSummary compaction.summary compaction.tokensBefore⟩

def shownMessages : List SessionMessage :=
  keptMessages path ++ laterMessages path

/-- `buildSessionContext(...).messages` for the path to a leaf. -/
def contextMessages : List SessionMessage :=
  (summaryMessage? path).toList ++ shownMessages path

theorem appendMessage_eq_some {message : SessionMessage}
    (h : appendMessage entry = some message) : getMessageFromEntry entry = some message := by
  unfold appendMessage at h
  split at h
  · cases h
  · exact h

theorem appendMessage_sublist (entries : List SessionEntry) :
    (entries.filterMap appendMessage).Sublist (entries.filterMap getMessageFromEntry) := by
  induction entries with
  | nil => exact List.Sublist.slnil
  | cons entry entries ih =>
    cases happend : appendMessage entry with
    | none =>
      rw [filterMap_cons_none happend, filterMap_cons]
      cases getMessageFromEntry entry with
      | none => exact ih
      | some message => exact ih.cons message
    | some message =>
      rw [filterMap_cons_some happend, filterMap_cons_some (appendMessage_eq_some happend)]
      exact ih.cons_cons message

theorem lastCompaction?_eq_none_iff : lastCompaction? path = none ↔
    ∀ entry ∈ path, entry.isCompaction = false := by
  simp only [lastCompaction?, findSome?_eq_none_iff, mem_reverse, Option.map_eq_none_iff,
    SessionEntry.isCompaction, Option.isSome_eq_false_iff, Option.isNone_iff_eq_none]

theorem lastCompaction?_append {compaction : Compaction}
    (hentry : entry.compaction? = some compaction)
    (hafter : ∀ later ∈ after, later.isCompaction = false) :
    lastCompaction? (before ++ entry :: after) = some (entry, compaction) := by
  have hnone : after.reverse.findSome? (fun entry => entry.compaction?.map (entry, ·)) = none :=
    (lastCompaction?_eq_none_iff after).2 hafter
  rw [lastCompaction?, reverse_append, reverse_cons, append_assoc, findSome?_append, hnone]
  simp [hentry]

theorem compactionIdx_append (hentry : entry.isCompaction = true)
    (hid : entry.id ∉ before.map SessionEntry.id) :
    compactionIdx (before ++ entry :: after) entry.id = before.length := by
  have hbefore : ∀ other ∈ before, (other.isCompaction && other.id == entry.id) = false := by
    intro other hmem
    rw [Bool.and_eq_false_iff]
    right
    rw [beq_eq_false_iff_ne]
    intro heq
    exact hid (heq ▸ mem_map_of_mem hmem)
  rw [compactionIdx, findIdx_append, findIdx_cons]
  have hlength : before.findIdx (fun other => other.isCompaction && other.id == entry.id) =
      before.length := findIdx_eq_length.2 fun other hmem => by simp [hbefore other hmem]
  simp [hlength, hentry]

theorem exists_lastCompaction_split :
    (∀ entry ∈ path, entry.isCompaction = false) ∨
      ∃ before entry after, path = before ++ entry :: after ∧ entry.isCompaction = true ∧
        ∀ later ∈ after, later.isCompaction = false := by
  induction path using List.reverseRecOn with
  | nil => exact .inl (by simp)
  | append_singleton path last ih =>
    cases hlast : last.isCompaction with
    | true => exact .inr ⟨path, last, [], rfl, hlast, by simp⟩
    | false =>
      rcases ih with hnone | ⟨before, entry, after, rfl, hentry, hafter⟩
      · refine .inl fun entry hmem => ?_
        rcases mem_append.1 hmem with hmem | hmem
        · exact hnone entry hmem
        · rw [mem_singleton.1 hmem, hlast]
      · refine .inr ⟨before, entry, after ++ [last], by simp, hentry, fun later hmem => ?_⟩
        rcases mem_append.1 hmem with hmem | hmem
        · exact hafter later hmem
        · rw [mem_singleton.1 hmem, hlast]

theorem drop_length_succ_append (before : List SessionEntry) (entry : SessionEntry)
    (after : List SessionEntry) : (before ++ entry :: after).drop (before.length + 1) = after := by
  rw [append_cons before entry after, drop_left' (by simp)]

section Split

variable {before after : List SessionEntry} {entry : SessionEntry}
  (hentry : entry.isCompaction = true) (hafter : ∀ later ∈ after, later.isCompaction = false)
  (hid : entry.id ∉ before.map SessionEntry.id) {compaction : Compaction}

include hentry hafter hid

theorem laterMessages_append :
    laterMessages (before ++ entry :: after) = after.filterMap appendMessage := by
  obtain ⟨compaction, hcompaction⟩ := Option.isSome_iff_exists.1 hentry
  simp only [laterMessages, lastCompaction?_append hcompaction hafter,
    compactionIdx_append hentry hid, drop_length_succ_append]

theorem keptEntries_append (hcompaction : entry.compaction? = some compaction) :
    keptEntries (before ++ entry :: after) =
      if compaction.remoteReplacementHistory.isSome then []
      else before.dropWhile (·.id ≠ compaction.firstKeptEntryId) := by
  simp only [keptEntries, lastCompaction?_append hcompaction hafter,
    compactionIdx_append hentry hid, take_left]

theorem keptEntries_subset : keptEntries (before ++ entry :: after) ⊆ before := by
  obtain ⟨compaction, hcompaction⟩ := Option.isSome_iff_exists.1 hentry
  rw [keptEntries_append hentry hafter hid hcompaction]
  split
  · exact nil_subset _
  · exact (dropWhile_sublist _).subset

theorem contextMessages_append (hcompaction : entry.compaction? = some compaction) :
    contextMessages (before ++ entry :: after) =
      ⟨entry.id, .compactionSummary compaction.summary compaction.tokensBefore⟩ ::
        (keptMessages (before ++ entry :: after) ++ after.filterMap appendMessage) := by
  rw [contextMessages, shownMessages, laterMessages_append hentry hafter hid, summaryMessage?,
    lastCompaction?_append hcompaction hafter]
  rfl

end Split

theorem map_entryId_sublist (entries : List SessionEntry) :
    ((entries.filterMap getMessageFromEntry).map SessionMessage.entryId).Sublist
      (entries.map SessionEntry.id) := by
  induction entries with
  | nil => exact List.Sublist.slnil
  | cons entry entries ih =>
    cases hmessage : getMessageFromEntry entry with
    | none =>
      rw [filterMap_cons_none hmessage]
      exact ih.cons entry.id
    | some message =>
      rw [filterMap_cons_some hmessage, map_cons, getMessageFromEntry_entryId hmessage]
      exact ih.cons_cons entry.id

end Vibrato.Session
