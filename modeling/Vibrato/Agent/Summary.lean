import Vibrato.Agent.Compaction
import Mathlib.Data.List.Sort

/-! `compact` of `agent/compaction/compaction.ts`: the requests to the summarising model and the
summary assembled from its answers. -/

namespace Vibrato.Agent

open Session List Text

structure SummaryEnv where
  summarizationPrompt : Text
  updateSummarizationPrompt : Text
  turnPrefixPrompt : Text
  promptOverride : Option Text
  customInstructions : Option Text
  extraContext : List Text
  historyText : List SessionMessage → Text
  turnPrefixText : List SessionMessage → Text
  renderFileOperations : List Text → List Text → Text

inductive SummaryRequest where
  | history (messages : List SessionMessage) (previousSummary : Option Text)
  | turnPrefix (messages : List SessionMessage)

namespace SummaryRequest

def givenSummary? : SummaryRequest → Option Text
  | history _ previousSummary => previousSummary.filter (· ≠ [])
  | turnPrefix _ => none

end SummaryRequest

def formatAdditionalContext (context : List Text) : Text :=
  if context = [] then []
  else "<additional-context>\n".toList ++ joinLines (context.map ("- ".toList ++ ·)) ++
    "\n</additional-context>\n\n".toList

section Prompt

variable (env : SummaryEnv)

def basePrompt (previousSummary : Option Text) : Text :=
  let chosen :=
    if previousSummary.isSome then env.updateSummarizationPrompt else env.summarizationPrompt
  let chosen := (env.promptOverride.filter (· ≠ [])).getD chosen
  match env.customInstructions.filter (· ≠ []) with
  | some instructions => chosen ++ "\n\nAdditional focus: ".toList ++ instructions
  | none => chosen

def conversationBlock (text : Text) : Text :=
  "<conversation>\n".toList ++ text ++ "\n</conversation>\n\n".toList

def previousSummaryBlock (previous : Text) : Text :=
  "<previous-summary>\n".toList ++ previous ++ "\n</previous-summary>\n\n".toList

def SummaryRequest.prompt : SummaryRequest → Text
  | request@(.history messages _) =>
    conversationBlock (env.historyText messages) ++
      (request.givenSummary?.map previousSummaryBlock).getD [] ++
      (formatAdditionalContext env.extraContext ++ basePrompt env request.givenSummary?)
  | .turnPrefix messages =>
    conversationBlock (env.turnPrefixText messages) ++ env.turnPrefixPrompt

theorem givenSummary_infix_prompt {request : SummaryRequest} {previous : Text}
    (h : request.givenSummary? = some previous) : previous <:+: request.prompt env := by
  cases request with
  | turnPrefix messages => cases h
  | history messages previousSummary =>
    have hblock : previous <:+: previousSummaryBlock previous := infix_append _ _ _
    unfold SummaryRequest.prompt
    dsimp only
    rw [h, Option.map_some, Option.getD_some]
    exact hblock.trans ((suffix_append _ _).isInfix.trans (prefix_append _ _).isInfix)

end Prompt

def sortTexts (texts : List Text) : List Text :=
  texts.insertionSort fun a b => utf16 a ≤ utf16 b

def computeFileLists (fileOps : FileOperations) : CompactionDetails :=
  let modified := (fileOps.edited ++ fileOps.written).foldl addPath []
  ⟨sortTexts (fileOps.read.filter (· ∉ modified)), sortTexts modified⟩

def FILE_OPERATION_SUMMARY_LIMIT : Nat := 20

def truncateFileList (files : List Text) : List Text :=
  if files.length ≤ FILE_OPERATION_SUMMARY_LIMIT then files
  else files.take FILE_OPERATION_SUMMARY_LIMIT ++
    ["… (".toList ++ ofNat (files.length - FILE_OPERATION_SUMMARY_LIMIT) ++
      " more files omitted)".toList]

/-- What follows the first occurrence of `closing`. -/
def afterClosing (closing : Text) : Text → Option Text
  | [] => if closing = [] then some [] else none
  | c :: rest =>
    if startsWith (c :: rest) closing then some ((c :: rest).drop closing.length)
    else afterClosing closing rest

/-- Removes every section from `opening` to the next `closing`, with the white space after it. -/
def stripSections (opening closing : Text) : Nat → Text → Text
  | 0, s => s
  | _, [] => []
  | fuel + 1, c :: rest =>
    match (if startsWith (c :: rest) opening then
      afterClosing closing ((c :: rest).drop opening.length) else none) with
    | some after => stripSections opening closing fuel (trimStart after)
    | none => c :: stripSections opening closing fuel rest

def stripFileOperationTags (summary : Text) : Text :=
  let withoutReadFiles :=
    stripSections "<read-files>".toList "</read-files>".toList summary.length summary
  trimEnd (stripSections "<modified-files>".toList "</modified-files>".toList
    withoutReadFiles.length withoutReadFiles)

def formatFileOperations (env : SummaryEnv) (details : CompactionDetails) : Text :=
  if details.readFiles = [] ∧ details.modifiedFiles = [] then []
  else env.renderFileOperations (truncateFileList details.readFiles)
    (truncateFileList details.modifiedFiles)

def upsertFileOperations (env : SummaryEnv) (summary : Text) (details : CompactionDetails) : Text :=
  let baseSummary := stripFileOperationTags summary
  let fileOperations := formatFileOperations env details
  if fileOperations = [] then baseSummary
  else if baseSummary = [] then fileOperations
  else baseSummary ++ "\n\n".toList ++ fileOperations

structure CompactionResult where
  summary : Text
  firstKeptEntryId : Text
  tokensBefore : Nat
  details : CompactionDetails
  deriving DecidableEq

def NO_PRIOR_HISTORY : Text := "No prior history.".toList

def SPLIT_TURN_SEPARATOR : Text := "\n\n---\n\n**Turn Context (split turn):**\n\n".toList

section Compact

variable (preparation : CompactionPreparation)

def historyRequest : SummaryRequest :=
  .history preparation.messagesToSummarize preparation.previousSummary

def turnPrefixRequest : SummaryRequest := .turnPrefix preparation.turnPrefixMessages

/-- The requests that `compact` makes. -/
def summaryRequests : List SummaryRequest :=
  (if preparation.messagesToSummarize ≠ [] then [historyRequest preparation] else []) ++
    if preparation.isSplitTurn = true ∧ preparation.turnPrefixMessages ≠ [] then
      [turnPrefixRequest preparation] else []

def assembleSummary (answer : SummaryRequest → Except Text Text) : Except Text Text := do
  if preparation.isSplitTurn = true ∧ preparation.turnPrefixMessages ≠ [] then
    let historyResult ←
      if preparation.messagesToSummarize ≠ [] then answer (historyRequest preparation)
      else pure NO_PRIOR_HISTORY
    let turnPrefixResult ← answer (turnPrefixRequest preparation)
    return historyResult ++ SPLIT_TURN_SEPARATOR ++ turnPrefixResult
  else if preparation.messagesToSummarize ≠ [] then answer (historyRequest preparation)
  else return (preparation.previousSummary.filter (· ≠ [])).getD NO_PRIOR_HISTORY

/-- `compact` without the provider's own compaction, which does not enter the summary. -/
def compact (env : SummaryEnv) (answer : SummaryRequest → Except Text Text) :
    Except Text CompactionResult := do
  let summary ← assembleSummary preparation answer
  let details := computeFileLists preparation.fileOps
  if preparation.firstKeptEntryId = [] then
    .error "First kept entry has no ID - session may need migration".toList
  return ⟨upsertFileOperations env summary details, preparation.firstKeptEntryId,
    preparation.tokensBefore, details⟩

variable {answer : SummaryRequest → Except Text Text} {text : Text}

theorem compact_eq_ok {env : SummaryEnv}
    {result : CompactionResult} (h : compact preparation env answer = .ok result) :
    ∃ text, assembleSummary preparation answer = .ok text ∧
      result.summary = upsertFileOperations env text result.details := by
  unfold compact at h
  cases htext : assembleSummary preparation answer with
  | error message =>
    rw [htext] at h
    cases h
  | ok text =>
    rw [htext] at h
    split at h
    · cases h
    · cases h
      exact ⟨text, rfl, rfl⟩

theorem exists_compact_eq_ok (env : SummaryEnv) (hid : preparation.firstKeptEntryId ≠ [])
    (answer : SummaryRequest → Text) :
    ∃ result, compact preparation env (fun request => .ok (answer request)) = .ok result := by
  obtain ⟨text, htext⟩ :
      ∃ text, assembleSummary preparation (fun request => .ok (answer request)) = .ok text := by
    unfold assembleSummary
    split
    · split
      · exact ⟨_, rfl⟩
      · exact ⟨_, rfl⟩
    · split
      · exact ⟨_, rfl⟩
      · exact ⟨_, rfl⟩
  simp only [compact, htext, bind, Except.bind]
  rw [if_neg hid]
  exact ⟨_, rfl⟩

/-- A summary text that contains the previous summary, or the answer to a request that was given
it. -/
def CarriesHistory (answer : SummaryRequest → Except Text Text) (previous text : Text) : Prop :=
  previous <:+: text ∨ ∃ request ∈ summaryRequests preparation,
    request.givenSummary? = some previous ∧ ∃ part, answer request = .ok part ∧ part <:+: text

theorem historyAnswer_infix (hne : preparation.messagesToSummarize ≠ [])
    (h : assembleSummary preparation answer = .ok text) :
    ∃ part, answer (historyRequest preparation) = .ok part ∧ part <:+: text := by
  unfold assembleSummary at h
  split at h
  · cases hhistory : answer (historyRequest preparation) with
    | error message =>
      rw [hhistory] at h
      cases h
    | ok part =>
      rw [hhistory] at h
      cases hturn : answer (turnPrefixRequest preparation) with
      | error message =>
        rw [hturn] at h
        cases h
      | ok turnPart =>
        rw [hturn] at h
        cases h
        refine ⟨part, rfl, ?_⟩
        rw [append_assoc]
        exact (prefix_append _ _).isInfix
  · exact ⟨text, h, infix_refl text⟩

theorem assembleSummary_of_nil (hnil : preparation.messagesToSummarize = [])
    (hsplit : preparation.isSplitTurn = true ∧ preparation.turnPrefixMessages ≠ [])
    (h : assembleSummary preparation answer = .ok text) :
    ∃ part, answer (turnPrefixRequest preparation) = .ok part ∧
      text = NO_PRIOR_HISTORY ++ SPLIT_TURN_SEPARATOR ++ part := by
  unfold assembleSummary at h
  rw [if_pos hsplit, if_neg (by simp [hnil])] at h
  cases hturn : answer (turnPrefixRequest preparation) with
  | error message =>
    rw [hturn] at h
    cases h
  | ok part =>
    rw [hturn] at h
    cases h
    exact ⟨part, rfl, rfl⟩

end Compact

theorem prepareCompaction_split_of_nil {keepRecentTokens : Nat → Nat} {path : List SessionEntry}
    {preparation : CompactionPreparation}
    (h : prepareCompaction keepRecentTokens path = some preparation)
    (hnil : preparation.messagesToSummarize = []) :
    preparation.isSplitTurn = true ∧ preparation.turnPrefixMessages ≠ [] := by
  obtain ⟨id, rfl, -, hne⟩ := prepareCompaction_eq_some h
  have hturn : (preparationAt path (compactionCut keepRecentTokens path) id).turnPrefixMessages ≠
      [] := fun hturn => hne ⟨hnil, hturn⟩
  refine ⟨?_, hturn⟩
  cases hsplit : (compactionCut keepRecentTokens path).isSplitTurn with
  | true => simp [preparationAt, hsplit]
  | false => simp [preparationAt, hsplit] at hturn

/-- For all answers of the summarising model, the assembled summary carries the previous summary if
and only if there is history to summarise, or the previous summary is part of the text that stands
in for missing history. -/
theorem compact_carriesHistory_iff (keepRecentTokens : Nat → Nat) (path : List SessionEntry)
    (preparation : CompactionPreparation) (env : SummaryEnv) (previous : Text)
    (hprepare : prepareCompaction keepRecentTokens path = some preparation)
    (hprevious : preparation.previousSummary = some previous) :
    (∀ answer result, compact preparation env answer = .ok result →
      ∃ text, assembleSummary preparation answer = .ok text ∧
        result.summary = upsertFileOperations env text result.details ∧
        CarriesHistory preparation answer previous text) ↔
      (preparation.messagesToSummarize ≠ [] ∨
        previous <:+: NO_PRIOR_HISTORY ++ SPLIT_TURN_SEPARATOR) := by
  constructor
  · intro hall
    by_contra hcond
    rw [not_or, not_not] at hcond
    obtain ⟨hnil, hnot⟩ := hcond
    have hsplit := prepareCompaction_split_of_nil hprepare hnil
    have hid : preparation.firstKeptEntryId ≠ [] := by
      obtain ⟨id, rfl, hid, -⟩ := prepareCompaction_eq_some hprepare
      exact hid
    -- With empty answers, only the fixed text is left to hold the previous summary.
    obtain ⟨result, hok⟩ := exists_compact_eq_ok preparation env hid fun _ => []
    obtain ⟨text, htext, -, hcarries⟩ := hall _ result hok
    obtain ⟨part, hpart, rfl⟩ := assembleSummary_of_nil preparation hnil hsplit htext
    cases hpart
    rcases hcarries with hwithin | ⟨request, hrequest, hgiven, -⟩
    · exact hnot hwithin
    · rw [summaryRequests, if_neg (by simp [hnil]), if_pos hsplit, nil_append,
        mem_singleton] at hrequest
      subst hrequest
      cases hgiven
  · intro hcond answer result hok
    obtain ⟨text, htext, hsummary⟩ := compact_eq_ok preparation hok
    refine ⟨text, htext, hsummary, ?_⟩
    by_cases hnil : preparation.messagesToSummarize = []
    · have hwithin := hcond.resolve_left (not_not.2 hnil)
      obtain ⟨part, -, rfl⟩ := assembleSummary_of_nil preparation hnil
        (prepareCompaction_split_of_nil hprepare hnil) htext
      exact .inl (hwithin.trans (prefix_append _ _).isInfix)
    · by_cases hempty : previous = []
      · exact .inl (hempty ▸ nil_infix)
      · refine .inr ⟨historyRequest preparation, ?_, ?_, historyAnswer_infix preparation hnil htext⟩
        · rw [summaryRequests, if_pos hnil]
          simp
        · simp [historyRequest, SummaryRequest.givenSummary?, hprevious, hempty]

def emptyEnv : SummaryEnv where
  summarizationPrompt := []
  updateSummarizationPrompt := []
  turnPrefixPrompt := []
  promptOverride := none
  customInstructions := none
  extraContext := []
  historyText := fun _ => []
  turnPrefixText := fun _ => []
  renderFileOperations := fun _ _ => []

def turnsAfterCompaction : List SessionEntry :=
  [userEntry "u1" none "first", compactionEntry "c1" (some "u1".toList) "Goal: ship" "c1",
    userEntry "u2" (some "c1".toList) "second", assistantEntry "a2" (some "u2".toList) "two",
    userEntry "u3" (some "a2".toList) "third", assistantEntry "a3" (some "u3".toList) "three"]

theorem compact_carriesHistory_turnsAfterCompaction :
    ∃ preparation, prepareCompaction (fun _ => 1) turnsAfterCompaction = some preparation ∧
      ∀ answer result, compact preparation emptyEnv answer = .ok result →
        ∃ text, assembleSummary preparation answer = .ok text ∧
          result.summary = upsertFileOperations emptyEnv text result.details ∧
          CarriesHistory preparation answer "Goal: ship".toList text := by
  refine ⟨preparationAt turnsAfterCompaction ⟨5, some 4, true⟩ "a3".toList, by decide, ?_⟩
  exact (compact_carriesHistory_iff (fun _ => 1) turnsAfterCompaction _ emptyEnv
    "Goal: ship".toList (by decide) (by decide)).2 (.inl (by decide))

/-- A turn after a compaction, so long that it is split: the summary says that there is no prior
history, and neither the earlier summary nor an answer that knew it is part of it. -/
theorem compact_forgets_summary :
    ¬ ∀ (keepRecentTokens : Nat → Nat) (path : List SessionEntry)
      (preparation : CompactionPreparation) (env : SummaryEnv) (previous : Text),
      prepareCompaction keepRecentTokens path = some preparation →
      preparation.previousSummary = some previous →
      ∀ answer result, compact preparation env answer = .ok result →
        CarriesHistory preparation answer previous result.summary := by
  intro hall
  have hprepare : prepareCompaction (fun _ => 1) (turnsAfterCompaction.take 4) =
      some (preparationAt (turnsAfterCompaction.take 4) ⟨3, some 2, true⟩ "a2".toList) := by decide
  have hcompact : compact
      (preparationAt (turnsAfterCompaction.take 4) ⟨3, some 2, true⟩ "a2".toList) emptyEnv
      (fun _ => .ok "turn".toList) =
      .ok ⟨NO_PRIOR_HISTORY ++ SPLIT_TURN_SEPARATOR ++ "turn".toList, "a2".toList, 0,
        ⟨[], []⟩⟩ := by
    decide +kernel
  rcases hall _ _ _ emptyEnv "Goal: ship".toList hprepare (by decide) _ _ hcompact with
    hwithin | ⟨request, hrequest, hgiven, -⟩
  · exact absurd hwithin (by decide +kernel)
  · have hnone : ∀ request ∈ summaryRequests
        (preparationAt (turnsAfterCompaction.take 4) ⟨3, some 2, true⟩ "a2".toList),
        request.givenSummary? = none := by decide
    rw [hnone request hrequest] at hgiven
    cases hgiven

end Vibrato.Agent
