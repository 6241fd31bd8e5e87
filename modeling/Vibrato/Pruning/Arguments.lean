import Vibrato.Pruning.OutputPlan

/-! `pruneAssistantToolArguments`: the arguments of edits that later edits made stale are replaced
by a sentinel. -/

namespace Vibrato.Pruning

open Lib Output Agent OrderedMap

def AST_EDIT : Text := "ast_edit".toList

def mutationGroups (call : ToolCall) (message : ToolResultMessage) : List (List Text) :=
  let detailFiles := if call.name = AST_EDIT then resultDetailFiles message else []
  if detailFiles.isEmpty then editToolPathGroups call else detailFiles.map fun file => [file]

/-- A successful mutation: the index of its result, and its call. -/
structure Mutation where
  index : Nat
  callId : Text

structure ArgumentStalenessIndex where
  latestSuccessfulMutationByPathGroup : OrderedMap Text Mutation
  failedCallIds : List Text

variable (index : ArgumentStalenessIndex)

def recordMutation : Nat × ToolCall × ToolResultMessage → ArgumentStalenessIndex
  | (i, call, message) =>
    let groups := mutationGroups call message
    if !isEditToolCall call || groups.isEmpty then index
    else if message.isError then
      { index with failedCallIds := index.failedCallIds ++ [call.id] }
    else
      let mutated := groups.filter (groupSucceeded message)
      { latestSuccessfulMutationByPathGroup :=
          index.latestSuccessfulMutationByPathGroup.setAll
            (mutated.map fun group => (pathGroupKey group, ⟨i, call.id⟩))
        failedCallIds :=
          if mutated.isEmpty then index.failedCallIds ++ [call.id] else index.failedCallIds }

variable (entries : List Entry)

def buildAssistantArgumentStalenessIndex : ArgumentStalenessIndex :=
  (answeredResults entries).foldl recordMutation ⟨.empty, []⟩

def PRUNED_REASON : Text := "stale_tool_arguments".toList

def isPrunedToolArgumentsSentinel (value : Option Json) : Bool :=
  value.any fun value => value.get? "pruned".toList = some (.bool true) &&
    value.get? "reason".toList = some (.str PRUNED_REASON)

/-- A call at a place: block `block` of entry `index`. -/
structure ArgumentCandidate where
  index : Nat
  block : Nat
  call : ToolCall
  pathHints : List Text
  originalChars : Nat

def groupsStale (i : Nat) (call : ToolCall) : Bool :=
  (editToolPathGroups call).all fun group =>
    (index.latestSuccessfulMutationByPathGroup.get? (pathGroupKey group)).any fun latest =>
      i < latest.index && latest.callId ≠ call.id

def argumentCandidate? (i : Nat) : Block × Nat → Option ArgumentCandidate
  | (.toolCall call, b) =>
    if !isEditToolCall call then none
    else
      call.arguments.bind fun arguments =>
        let groups := editToolPathGroups call
        if isPrunedToolArgumentsSentinel (some arguments) || call.id ∈ index.failedCallIds ||
            groups.isEmpty || !groupsStale index i call then none
        else some ⟨i, b, call, pathHintsForGroups groups, utf16Length arguments.stringify⟩
  | _ => none

def entryCandidates (i : Nat) (entry : Entry) : List ArgumentCandidate :=
  entry.assistantBlocks.zipIdx.filterMap (argumentCandidate? index i)

structure CandidateGroup where
  index : Nat
  entry : Entry
  candidates : List ArgumentCandidate

/-- The loop from the newest entry to the oldest, with the tokens of the assistant messages it has
passed.  Entries behind the fence are not counted. -/
def collectGroups (index : ArgumentStalenessIndex) (fence : Option Nat) (protectTokens : ℚ) :
    Nat → List (Entry × Nat) → List CandidateGroup
  | _, [] => []
  | accumulatedTokens, (entry, i) :: older =>
    if fence.any (· ≤ i) || !entry.isAssistant then
      collectGroups index fence protectTokens accumulatedTokens older
    else
      let candidates := if (accumulatedTokens : ℚ) < protectTokens then []
        else entryCandidates index i entry
      (if candidates.isEmpty then [] else [⟨i, entry, candidates⟩]) ++
        collectGroups index fence protectTokens
          (accumulatedTokens + estimateEntryTokens entry) older

def candidatesByEntry (config : PruneConfig) : List CandidateGroup :=
  collectGroups (buildAssistantArgumentStalenessIndex entries) (fenceStart entries config)
    config.protectTokens 0 entries.zipIdx.reverse

def sentinel (candidate : ArgumentCandidate) (prunedAt : Nat) : Json :=
  .obj [("pruned".toList, .bool true), ("reason".toList, .str PRUNED_REASON),
    ("pathHints".toList, .arr (candidate.pathHints.map .str)),
    ("originalChars".toList, .num (JsonNumber.ofNat candidate.originalChars)),
    ("prunedAt".toList, .num (JsonNumber.ofNat prunedAt))]

def withSentinel (call : ToolCall) (candidate : ArgumentCandidate) (prunedAt : Nat) : ToolCall :=
  { call with arguments := some (sentinel candidate prunedAt) }

def mapBlocks (f : Block × Nat → Block) : Entry → Entry
  | .message id (.assistant content) => .message id (.assistant (content.zipIdx.map f))
  | entry => entry

/-- The staged copy of an entry: every call with the id of a candidate holds a sentinel. -/
def stagedEntry (group : CandidateGroup) (prunedAt : Nat) : Entry :=
  let candidateByCallId := ofWrites (group.candidates.map fun candidate =>
    (candidate.call.id, candidate))
  mapBlocks (fun
    | (.toolCall call, _) =>
      match candidateByCallId.get? call.id with
      | some candidate => .toolCall (withSentinel call candidate prunedAt)
      | none => .toolCall call
    | (block, _) => block) group.entry

def groupSavings (group : CandidateGroup) (prunedAt : Nat) : Nat :=
  estimateEntryTokens group.entry - estimateEntryTokens (stagedEntry group prunedAt)

def candidateAt (candidates : List ArgumentCandidate) (i b : Nat) : Option ArgumentCandidate :=
  candidates.find? fun candidate => candidate.index = i && candidate.block = b

def prunedBlock (candidates : List ArgumentCandidate) (prunedAt i : Nat) : Block × Nat → Block
  | (.toolCall call, b) =>
    match candidateAt candidates i b with
    | some candidate => .toolCall (withSentinel call candidate prunedAt)
    | none => .toolCall call
  | (block, _) => block

def applyCandidates (candidates : List ArgumentCandidate) (prunedAt : Nat) (entries : List Entry) :
    List Entry :=
  entries.zipIdx.map fun (entry, i) => mapBlocks (prunedBlock candidates prunedAt i) entry

structure AssistantArgumentPruneResult where
  argumentPrunedCount : Nat
  argumentTokensSaved : Nat
  prunedEntries : List Text

def admittedGroups (config : PruneConfig) (prunedAt : Nat) : List CandidateGroup :=
  (candidatesByEntry entries config).filter fun group => groupSavings group prunedAt ≠ 0

def prunedGroups (config : PruneConfig) (prunedAt : Nat) : List CandidateGroup :=
  let admitted := admittedGroups entries config prunedAt
  let argumentTokensSaved := (admitted.map (groupSavings · prunedAt)).sum
  if (argumentTokensSaved : ℚ) < config.minimumSavings then [] else admitted

def prunedCandidates (config : PruneConfig) (prunedAt : Nat) : List ArgumentCandidate :=
  (prunedGroups entries config prunedAt).flatMap CandidateGroup.candidates

def pruneAssistantToolArguments (config : PruneConfig) (prunedAt : Nat) :
    AssistantArgumentPruneResult × List Entry :=
  let groups := prunedGroups entries config prunedAt
  let candidates := groups.flatMap CandidateGroup.candidates
  (⟨candidates.length, (groups.map (groupSavings · prunedAt)).sum, groups.map (·.entry.id)⟩,
    applyCandidates candidates prunedAt entries)

structure RecordsGroup (entries : List Entry) (call : ToolCall) (r : Nat) (group : List Text) :
    Prop where
  isEdit : isEditToolCall call = true
  result : ∃ message, answeredAt entries r = some (call, message) ∧ message.isError = false ∧
    group ∈ mutationGroups call message ∧ groupSucceeded message group = true

/-- The files that an edit names, by hunks; those of an AST edit are the ones its result says it
changed. -/
def mutatedGroups (call : ToolCall) (message : ToolResultMessage) : List (List Text) :=
  if call.name = AST_EDIT then (resultDetailFiles message).map fun file => [file]
  else editToolPathGroups call

structure MutatesGroup (entries : List Entry) (call : ToolCall) (r : Nat) (group : List Text) :
    Prop where
  isEdit : isEditToolCall call = true
  result : ∃ message, answeredAt entries r = some (call, message) ∧ message.isError = false ∧
    group ∈ mutatedGroups call message ∧ groupSucceeded message group = true

def Mutates (call : ToolCall) (r : Nat) (path : Text) : Prop :=
  ∃ group, MutatesGroup entries call r group ∧ path ∈ group

def recordedGroups : Nat × ToolCall × ToolResultMessage → List (List Text)
  | (_, call, message) =>
    if isEditToolCall call && !message.isError then
      (mutationGroups call message).filter (groupSucceeded message)
    else []

def mutationOf (result : Nat × ToolCall × ToolResultMessage) : Mutation := ⟨result.1, result.2.1.id⟩

variable (results : List (Nat × ToolCall × ToolResultMessage))

def groupWrites : List (Text × Mutation) :=
  results.flatMap fun result =>
    ((recordedGroups result).map pathGroupKey).map (·, mutationOf result)

theorem latest_foldl_recordMutation (index : ArgumentStalenessIndex) :
    (results.foldl recordMutation index).latestSuccessfulMutationByPathGroup =
      index.latestSuccessfulMutationByPathGroup.setAll (groupWrites results) := by
  induction results generalizing index with
  | nil => rfl
  | cons result results ih =>
    rw [List.foldl_cons, ih, groupWrites, groupWrites, List.flatMap_cons, setAll_append]
    congr 1
    obtain ⟨i, call, message⟩ := result
    cases hedit : isEditToolCall call <;> cases herror : message.isError <;>
      cases hgroups : mutationGroups call message <;>
      simp [recordMutation, recordedGroups, mutationOf, hedit, herror, hgroups, Function.comp_def]

section

variable {entries : List Entry}

theorem mem_groupWrites {key : Text} {mutation : Mutation} :
    (key, mutation) ∈ groupWrites (answeredResults entries) ↔ ∃ call group,
      mutation.callId = call.id ∧ RecordsGroup entries call mutation.index group ∧
        pathGroupKey group = key := by
  simp only [groupWrites, List.mem_flatMap, List.mem_map, Prod.mk.injEq]
  constructor
  · rintro ⟨⟨r, call, message⟩, hmem, key', ⟨group, hgroup, rfl⟩, rfl, rfl⟩
    simp only [recordedGroups] at hgroup
    split at hgroup
    · next hrecorded =>
      rw [Bool.and_eq_true, Bool.not_eq_true'] at hrecorded
      obtain ⟨hgroup, hsucceeded⟩ := List.mem_filter.mp hgroup
      exact ⟨call, group, rfl,
        ⟨hrecorded.1, message, mem_answeredResults.mp hmem, hrecorded.2, hgroup, hsucceeded⟩, rfl⟩
    · cases hgroup
  · rintro ⟨call, group, hid, ⟨hedit, message, hanswered, herror, hgroup, hsucceeded⟩, rfl⟩
    refine ⟨_, mem_answeredResults.mpr hanswered, _, ⟨group, ?_, rfl⟩, rfl, ?_⟩
    · simp only [recordedGroups, hedit, herror]
      exact List.mem_filter.mpr ⟨hgroup, hsucceeded⟩
    · cases mutation
      simp_all [mutationOf]

def latestMutation (entries : List Entry) (group : List Text) : Option Mutation :=
  (buildAssistantArgumentStalenessIndex entries).latestSuccessfulMutationByPathGroup.get?
    (pathGroupKey group)

theorem latestMutation_eq (group : List Text) :
    latestMutation entries group = (ofWrites (groupWrites (answeredResults entries))).get?
      (pathGroupKey group) := by
  rw [latestMutation, buildAssistantArgumentStalenessIndex, latest_foldl_recordMutation]
  rfl

variable {group : List Text} {call : ToolCall} {r : Nat} {path : Text}

theorem RecordsGroup.latestMutation (h : RecordsGroup entries call r group) :
    ∃ latest, latestMutation entries group = some latest ∧ r ≤ latest.index := by
  have hsorted : (groupWrites (answeredResults entries)).Pairwise
      fun a b => a.2.index ≤ b.2.index :=
    writes_sorted (R := fun a b : Mutation => a.index ≤ b.index) (answeredResults_sorted entries) _
      mutationOf fun _ _ hle => hle
  obtain ⟨latest, hlatest, hle⟩ := get?_ofWrites_of_mem
    (R := fun a b : Mutation => a.index ≤ b.index) (fun v => le_refl v.index) hsorted
    (mem_groupWrites.mpr ⟨call, group, rfl, h, rfl⟩ : (pathGroupKey group,
      Mutation.mk r call.id) ∈ _)
  rw [← latestMutation_eq] at hlatest
  exact ⟨latest, hlatest, hle⟩

theorem exists_later_of_groupsStale {i : Nat}
    (hstale : groupsStale (buildAssistantArgumentStalenessIndex entries) i call = true)
    (hgroup : group ∈ editToolPathGroups call) (hrecords : RecordsGroup entries call r group) :
    ∃ later r' group', r < r' ∧ RecordsGroup entries later r' group' ∧
      pathGroupKey group' = pathGroupKey group := by
  obtain ⟨latest, hlatest, hle⟩ := hrecords.latestMutation
  have hother : latest.callId ≠ call.id := by
    have hany := List.all_eq_true.mp hstale group hgroup
    rw [← latestMutation, hlatest, Option.any_some, Bool.and_eq_true, decide_eq_true_iff,
      decide_eq_true_iff] at hany
    exact hany.2
  rw [latestMutation_eq] at hlatest
  obtain ⟨later, group', hid, hlater, hkey⟩ := mem_groupWrites.mp (mem_of_get?_ofWrites hlatest)
  refine ⟨later, latest.index, group', lt_of_le_of_ne hle fun hsame => ?_, hlater, hkey⟩
  -- at the index of its own result the call would be the later one
  subst hsame
  obtain ⟨message, hanswered, -⟩ := hrecords.result
  obtain ⟨message', hanswered', -⟩ := hlater.result
  rw [hanswered] at hanswered'
  cases hanswered'
  exact hother hid

theorem MutatesGroup.records (h : MutatesGroup entries call r group) :
    RecordsGroup entries call r group := by
  obtain ⟨hedit, message, hanswered, herror, hmem, hsucceeded⟩ := h
  refine ⟨hedit, message, hanswered, herror, ?_, hsucceeded⟩
  unfold mutatedGroups at hmem
  unfold mutationGroups
  split at hmem
  · next hname =>
    obtain ⟨file, hfile, rfl⟩ := List.mem_map.mp hmem
    have hne : (resultDetailFiles message).isEmpty = false :=
      List.isEmpty_eq_false_iff.mpr (List.ne_nil_of_mem hfile)
    simp only [if_pos hname, hne]
    exact List.mem_map.mpr ⟨file, hfile, rfl⟩
  · next hname =>
    simp only [if_neg hname]
    exact hmem

/-- A result of an AST edit that says of no file that it was changed, and is recorded under the
paths of its call all the same. -/
structure Previews (entries : List Entry) (call : ToolCall) (r : Nat) (group : List Text) :
    Prop where
  isAstEdit : call.name = AST_EDIT
  result : ∃ message, answeredAt entries r = some (call, message) ∧ message.isError = false ∧
    resultDetailFiles message = [] ∧ group ∈ editToolPathGroups call ∧
      groupSucceeded message group = true

theorem RecordsGroup.mutates_or_previews (h : RecordsGroup entries call r group) :
    MutatesGroup entries call r group ∨ Previews entries call r group := by
  obtain ⟨hedit, message, hanswered, herror, hmem, hsucceeded⟩ := h
  unfold mutationGroups at hmem
  by_cases hname : call.name = AST_EDIT
  · simp only [if_pos hname] at hmem
    split at hmem
    · next hempty =>
      exact .inr ⟨hname, message, hanswered, herror, List.isEmpty_iff.mp hempty, hmem, hsucceeded⟩
    · refine .inl ⟨hedit, message, hanswered, herror, ?_, hsucceeded⟩
      rw [mutatedGroups, if_pos hname]
      exact hmem
  · refine .inl ⟨hedit, message, hanswered, herror, ?_, hsucceeded⟩
    rw [mutatedGroups, if_neg hname]
    simp only [if_neg hname] at hmem
    exact hmem

theorem Mutates.answered (h : Mutates entries call r path) :
    ∃ message, answeredAt entries r = some (call, message) := by
  obtain ⟨group, hmutates, -⟩ := h
  obtain ⟨message, hanswered, -⟩ := hmutates.result
  exact ⟨message, hanswered⟩

end

end Vibrato.Pruning
