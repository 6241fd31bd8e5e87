import Vibrato.Agent.CutPoint
import Vibrato.Session.Context
import Mathlib.Data.List.Nodup

/-! `prepareCompaction` of `agent/compaction/compaction.ts`: which messages of a session path are
summarised and which are kept. -/

namespace Vibrato.Agent

open Session List

structure FileOperations where
  read : List Text
  written : List Text
  edited : List Text
  deriving DecidableEq

def createFileOps : FileOperations := ⟨[], [], []⟩

/-- `set.add(path)`. -/
def addPath (paths : List Text) (path : Text) : List Text :=
  if path ∈ paths then paths else paths ++ [path]

variable (fileOps : FileOperations)

def extractFileOpsFromCall (call : Ai.ToolCall) : FileOperations :=
  match call.arguments.lookup "path".toList with
  | some (.str path) =>
    if path = [] then fileOps
    else if call.name = "read".toList then { fileOps with read := addPath fileOps.read path }
    else if call.name = "write".toList then
      { fileOps with written := addPath fileOps.written path }
    else if call.name = "edit".toList then { fileOps with edited := addPath fileOps.edited path }
    else fileOps
  | _ => fileOps

def extractFileOpsFromMessage (message : SessionMessage) : FileOperations :=
  match message.message with
  | .llm (.assistant message) => message.toolCalls.foldl extractFileOpsFromCall fileOps
  | _ => fileOps

/-- The file operations recorded by the previous compaction, unless an extension made it. -/
def previousFileOps (compaction : Compaction) : FileOperations :=
  match compaction.details with
  | some details =>
    if compaction.fromExtension then createFileOps
    else ⟨details.readFiles.foldl addPath [], [], details.modifiedFiles.foldl addPath []⟩
  | none => createFileOps

def extractFileOperations (messages : List SessionMessage) (previous : Option Compaction) :
    FileOperations :=
  messages.foldl extractFileOpsFromMessage ((previous.map previousFileOps).getD createFileOps)

def calculateContextTokens (usage : Ai.Usage) : Nat :=
  if usage.totalTokens ≠ 0 then usage.totalTokens
  else usage.input + usage.output + usage.cacheRead + usage.cacheWrite

def getAssistantUsage (entry : SessionEntry) : Option Ai.Usage :=
  match entry.data with
  | .message (.llm (.assistant message)) =>
    if message.isAborted then none else some message.usage
  | _ => none

variable (entries : List SessionEntry)

def getLastAssistantUsage : Option Ai.Usage :=
  entries.reverse.findSome? getAssistantUsage

structure CompactionPreparation where
  firstKeptEntryId : Text
  messagesToSummarize : List SessionMessage
  turnPrefixMessages : List SessionMessage
  recentMessages : List SessionMessage
  isSplitTurn : Bool
  tokensBefore : Nat
  previousSummary : Option Text
  fileOps : FileOperations
  deriving DecidableEq

/-- The messages of the entries from `a` up to `b`. -/
def messagesBetween (a b : Nat) : List SessionMessage :=
  ((entries.drop a).take (b - a)).filterMap getMessageFromEntry

variable (path : List SessionEntry)

/-- `prevCompactionIndex + 1`: the number of entries up to the last compaction. -/
def boundaryStart : Nat :=
  (path.rdropWhile (!SessionEntry.isCompaction ·)).length

def preparationAt (cutPoint : CutPointResult) (firstKeptEntryId : Text) : CompactionPreparation :=
  let cut := cutPoint.firstKeptEntryIndex
  let historyEnd := if cutPoint.isSplitTurn then cutPoint.turnStartIndex.getD 0 else cut
  let messagesToSummarize := messagesBetween path (boundaryStart path) historyEnd
  let turnPrefixMessages :=
    if cutPoint.isSplitTurn then messagesBetween path historyEnd cut else []
  let previous := (lastCompaction? path).map Prod.snd
  { firstKeptEntryId, messagesToSummarize, turnPrefixMessages,
    recentMessages := messagesBetween path cut path.length,
    isSplitTurn := cutPoint.isSplitTurn,
    tokensBefore := ((getLastAssistantUsage path).map calculateContextTokens).getD 0,
    previousSummary := previous.map Compaction.summary,
    fileOps := turnPrefixMessages.foldl extractFileOpsFromMessage
      (extractFileOperations messagesToSummarize previous) }

variable (keepRecentTokens : Nat → Nat) {path : List SessionEntry}
    {preparation : CompactionPreparation}

def compactionCut (path : List SessionEntry) : CutPointResult :=
  let historyTokens := ((path.drop (boundaryStart path)).map estimateEntryTokens).sum
  findCutPoint path (boundaryStart path) path.length (keepRecentTokens historyTokens)

/-- `keepRecentTokens` is the budget `keepRecentTokensCorrected` as a function of the tokens after
the boundary: settings, context window, and correction ratio enter it through floating-point
arithmetic.  Nothing is prepared directly after a compaction, before an entry without id, or when
there is nothing to summarise. -/
def prepareCompaction (pathEntries : List SessionEntry) : Option CompactionPreparation :=
  if pathEntries.getLast?.any SessionEntry.isCompaction then none
  else
    let cutPoint := compactionCut keepRecentTokens pathEntries
    (pathEntries[cutPoint.firstKeptEntryIndex]?).bind fun firstKeptEntry =>
      let preparation := preparationAt pathEntries cutPoint firstKeptEntry.id
      if firstKeptEntry.id = [] ∨
          preparation.messagesToSummarize = [] ∧ preparation.turnPrefixMessages = [] then none
      else some preparation

theorem prepareCompaction_eq_some {keepRecentTokens : Nat → Nat}
    (h : prepareCompaction keepRecentTokens path = some preparation) :
    ∃ id, preparation = preparationAt path (compactionCut keepRecentTokens path) id ∧ id ≠ [] ∧
      ¬(preparation.messagesToSummarize = [] ∧ preparation.turnPrefixMessages = []) := by
  unfold prepareCompaction at h
  split at h
  · cases h
  obtain ⟨firstKeptEntry, -, hsome⟩ := Option.bind_eq_some_iff.1 h
  simp only at hsome
  split at hsome
  · cases hsome
  · next hne =>
    cases hsome
    exact ⟨firstKeptEntry.id, rfl, fun hnil => hne (.inl hnil), fun hnil => hne (.inr hnil)⟩

namespace CompactionPreparation

/-- `messagesToSummarize ++ turnPrefixMessages ++ recentMessages`. -/
def messages (preparation : CompactionPreparation) : List SessionMessage :=
  preparation.messagesToSummarize ++ preparation.turnPrefixMessages ++ preparation.recentMessages

end CompactionPreparation

theorem messagesBetween_append (entries : List SessionEntry) {a b c : Nat} (hab : a ≤ b)
    (hbc : b ≤ c) :
    messagesBetween entries a b ++ messagesBetween entries b c = messagesBetween entries a c := by
  have hdrop : entries.drop b = (entries.drop a).drop (b - a) := by
    rw [drop_drop, Nat.add_sub_cancel' hab]
  have hlength : c - a = b - a + (c - b) := by omega
  rw [messagesBetween, messagesBetween, messagesBetween, ← filterMap_append, hlength,
    take_add, hdrop]

theorem boundaryStart_le (path : List SessionEntry) : boundaryStart path ≤ path.length :=
  ( rdropWhile_prefix _ path).length_le

theorem prepareCompaction_messages {keepRecentTokens : Nat → Nat}
    (h : prepareCompaction keepRecentTokens path = some preparation) :
    preparation.messages = (path.drop (boundaryStart path)).filterMap getMessageFromEntry := by
  obtain ⟨id, rfl, -⟩ := prepareCompaction_eq_some h
  obtain ⟨hlow, hhigh, hturn⟩ := findCutPoint_bounds path (boundaryStart_le path)
    (keepRecentTokens ((path.drop (boundaryStart path)).map estimateEntryTokens).sum)
  have hall : messagesBetween path (boundaryStart path) path.length =
      (path.drop (boundaryStart path)).filterMap getMessageFromEntry := by
    rw [messagesBetween, take_of_length_le (by simp)]
  rw [← hall, ← messagesBetween_append path hlow hhigh]
  cases hsplit : (compactionCut keepRecentTokens path).isSplitTurn with
  | false =>
    simp only [CompactionPreparation.messages, preparationAt, hsplit, Bool.false_eq_true, if_false,
      append_nil]
    rfl
  | true =>
    obtain ⟨turnStart, hturnStart⟩ := findCutPoint_isSplitTurn path hsplit
    obtain ⟨hstart, hend⟩ := hturn turnStart hturnStart
    rw [← messagesBetween_append path hstart hend]
    simp only [CompactionPreparation.messages, preparationAt, hsplit, if_true]
    rw [show (compactionCut keepRecentTokens path).turnStartIndex = some turnStart from hturnStart]
    rfl

theorem boundaryStart_of_none (hnone : ∀ entry ∈ path, entry.isCompaction = false) :
    boundaryStart path = 0 := by
  rw [boundaryStart, length_eq_zero_iff, rdropWhile_eq_nil_iff]
  intro entry hmem
  simp [hnone entry hmem]

theorem boundaryStart_append {before after : List SessionEntry} {entry : SessionEntry}
    (hentry : entry.isCompaction = true)
    (hafter : ∀ later ∈ after, later.isCompaction = false) :
    boundaryStart (before ++ entry :: after) = before.length + 1 := by
  have hdrop : after.reverse.dropWhile (!SessionEntry.isCompaction ·) = [] := by
    rw [dropWhile_eq_nil_iff]
    intro later hmem
    simp [hafter later (mem_reverse.1 hmem)]
  rw [boundaryStart, List.rdropWhile, reverse_append, reverse_cons, append_assoc,
    dropWhile_append, hdrop]
  simp [hentry]

/-- Of the messages the context shows besides the summary, the preparation covers every one exactly
once and in order, if and only if the last compaction keeps no message from before it. -/
theorem prepareCompaction_covers_iff (keepRecentTokens : Nat → Nat) (path : List SessionEntry)
    (preparation : CompactionPreparation) (hids : (path.map SessionEntry.id).Nodup)
    (h : prepareCompaction keepRecentTokens path = some preparation) :
    ((shownMessages path).Sublist preparation.messages ∧
        ∀ message ∈ shownMessages path, preparation.messages.count message = 1) ↔
      ∀ entry ∈ keptEntries path, appendMessage entry = none := by
  have hmessages := prepareCompaction_messages h
  have hnodup : preparation.messages.Nodup := by
    rw [hmessages]
    refine List.Nodup.of_map SessionMessage.entryId ?_
    refine (map_entryId_sublist _).nodup (hids.sublist ?_)
    exact (drop_sublist _ _).map SessionEntry.id
  have hcount : (shownMessages path).Sublist preparation.messages →
      ∀ message ∈ shownMessages path, preparation.messages.count message = 1 :=
    fun hsub message hmem => count_eq_one_of_mem hnodup (hsub.subset hmem)
  have hkept : (∀ entry ∈ keptEntries path, appendMessage entry = none) ↔
      keptMessages path = [] := by
    rw [keptMessages, filterMap_eq_nil_iff]
  have hlater : (laterMessages path).Sublist preparation.messages ∧
      ∀ message ∈ keptMessages path, message ∉ preparation.messages := by
    rcases exists_lastCompaction_split path with hnone | ⟨before, entry, after, rfl, hentry, hafter⟩
    · have hlast := (lastCompaction?_eq_none_iff path).2 hnone
      rw [hmessages, boundaryStart_of_none hnone]
      refine ⟨?_, ?_⟩
      · simp only [laterMessages, hlast]
        exact appendMessage_sublist path
      · simp [keptMessages, keptEntries, hlast]
    · rw [map_append, nodup_append] at hids
      obtain ⟨-, -, hdisjoint⟩ := hids
      have hid : entry.id ∉ before.map SessionEntry.id := fun hmem =>
        hdisjoint entry.id hmem entry.id mem_cons_self rfl
      rw [hmessages, boundaryStart_append hentry hafter, drop_length_succ_append]
      refine ⟨?_, ?_⟩
      · rw [laterMessages_append hentry hafter hid]
        exact appendMessage_sublist after
      · intro message hmem hafterMem
        obtain ⟨keptEntry, hkeptEntry, happend⟩ := mem_filterMap.1 hmem
        obtain ⟨laterEntry, hlaterEntry, hget⟩ := mem_filterMap.1 hafterMem
        have hbefore := keptEntries_subset hentry hafter hid hkeptEntry
        refine hdisjoint keptEntry.id (mem_map_of_mem hbefore) laterEntry.id
          (mem_cons_of_mem _ (mem_map_of_mem hlaterEntry)) ?_
        rw [← getMessageFromEntry_entryId (appendMessage_eq_some happend),
          getMessageFromEntry_entryId hget]
  rw [hkept]
  constructor
  · rintro ⟨hsub, -⟩
    refine eq_nil_iff_forall_not_mem.2 fun message hmem => hlater.2 message hmem ?_
    exact hsub.subset (mem_append_left _ hmem)
  · intro hnil
    have hsub : (shownMessages path).Sublist preparation.messages := by
      rw [shownMessages, hnil]
      exact hlater.1
    exact ⟨hsub, hcount hsub⟩

variable (id : String)

def userEntry (parentId : Option Text) (text : String) : SessionEntry :=
  ⟨id.toList, parentId, .message (.llm (.user [.text text.toList] 0))⟩

def assistantEntry (parentId : Option Text) (text : String) : SessionEntry :=
  ⟨id.toList, parentId, .message (.llm (.assistant
    { content := [.text text.toList none], api := [], provider := [], model := [],
      usage := ⟨0, 0, 0, 0, 0⟩, stopReason := .stop, timestamp := 0 }))⟩

/-- A compaction that keeps the entries from `firstKeptEntryId` on. -/
def compactionEntry (parentId : Option Text) (summary firstKeptEntryId : String) : SessionEntry :=
  ⟨id.toList, parentId, .compaction
    { summary := summary.toList, firstKeptEntryId := firstKeptEntryId.toList, tokensBefore := 0,
      details := none, fromExtension := false, remoteReplacementHistory := none }⟩

def twoTurns : List SessionEntry :=
  [userEntry "u1" none "first", assistantEntry "a1" (some "u1".toList) "one",
    userEntry "u2" (some "a1".toList) "second", assistantEntry "a2" (some "u2".toList) "two"]

theorem prepareCompaction_covers_twoTurns :
    ∃ preparation, prepareCompaction (fun _ => 1) twoTurns = some preparation ∧
      (shownMessages twoTurns).Sublist preparation.messages ∧
        ∀ message ∈ shownMessages twoTurns, preparation.messages.count message = 1 := by
  refine ⟨preparationAt twoTurns ⟨3, some 2, true⟩ "a2".toList, by decide, ?_⟩
  exact (prepareCompaction_covers_iff (fun _ => 1) twoTurns _ (by decide) (by decide)).2 (by decide)

def keptBeforeCompaction : List SessionEntry :=
  [userEntry "u1" none "first", compactionEntry "c1" (some "u1".toList) "summary" "u1",
    userEntry "u2" (some "c1".toList) "second", assistantEntry "a2" (some "u2".toList) "two"]

/-- The message kept by the first compaction is shown, and the next compaction neither summarises
nor keeps it. -/
theorem prepareCompaction_loses_kept :
    ¬ ∀ (keepRecentTokens : Nat → Nat) (path : List SessionEntry)
      (preparation : CompactionPreparation), (path.map SessionEntry.id).Nodup →
      (∀ entry ∈ path, ∀ compaction, entry.compaction? = some compaction →
        compaction.remoteReplacementHistory = none) →
      prepareCompaction keepRecentTokens path = some preparation →
      (shownMessages path).Sublist preparation.messages ∧
        ∀ message ∈ shownMessages path, preparation.messages.count message = 1 := by
  intro hall
  have hprepare : prepareCompaction (fun _ => 1) keptBeforeCompaction =
      some (preparationAt keptBeforeCompaction ⟨3, some 2, true⟩ "a2".toList) := by decide
  have hremote : ∀ entry ∈ keptBeforeCompaction, ∀ compaction,
      entry.compaction? = some compaction → compaction.remoteReplacementHistory = none := by
    intro entry hmem compaction hcompaction
    simp only [keptBeforeCompaction, mem_cons, not_mem_nil, or_false] at hmem
    rcases hmem with rfl | rfl | rfl | rfl <;> cases hcompaction
    rfl
  have hcovers := (hall _ _ _ (by decide) hremote hprepare).1
  exact absurd hcovers (by decide)

end Vibrato.Agent
