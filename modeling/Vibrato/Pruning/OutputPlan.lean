import Mathlib.Algebra.Order.Ring.Unbundled.Rat
import Vibrato.Pruning.Notice
import Vibrato.Pruning.Staleness

/-! `planToolOutputPrune`: which tool outputs a notice may replace. -/

namespace Vibrato.Pruning

open Lib Output Agent List Option

structure PruneConfig where
  protectTokens : ℚ
  minimumSavings : ℚ
  protectedTools : List Text
  protectRecentTurns : Option ℚ
  staleOverridableTools : Option (List Text)

/-- A relaxed minimum that is no finite number counts as missing. -/
structure PruneToolOutputsOptions where
  relaxedMinimum : Option ℚ
  artifactRefMaxChars : Option ℚ

variable (entries : List Entry)

def turnStarts : List Nat :=
  (entries.zipIdx.filter fun indexed => indexed.1.startsUserTurn).map Prod.snd

def recentTurnFenceStart (protectRecentTurns : ℚ) : Option Nat :=
  if protectRecentTurns ≤ 0 then none
  else
    let starts := turnStarts entries
    if starts.isEmpty then none
    else
      let k := max 0 (starts.length - protectRecentTurns)
      if k.den = 1 then starts[k.num.toNat]? else none

structure Candidate where
  index : Nat
  entryId : Text
  message : ToolResultMessage
  call : Option ToolCall
  tokens : Nat
  originalText : Text
  complete : Bool
  notice : Text
  savings : Int

def estimatePrunedSavings (tokens : Nat) (notice : Text) : Int :=
  tokens - estimateTextTokensHeuristic [notice]

def errorNoticeGrows (message : ToolResultMessage) (text notice : Text) : Bool :=
  message.isError && utf16Length text < utf16Length notice

section

variable (stripANSI : Text → Text) (entries : List Entry) (config : PruneConfig)

def isProtected (i : Nat) (message : ToolResultMessage) : Bool :=
  message.toolName ∈ config.protectedTools &&
    !(i ∈ staleResultIndices entries && message.toolName ∈ config.staleOverridableTools.getD [])

def fenceStart : Option Nat :=
  recentTurnFenceStart entries (config.protectRecentTurns.getD 2)

/-- One pass of the loop over the results, with the tokens of the results after this one. -/
def candidate? (accumulatedTokens i : Nat) (entry : Entry) (message : ToolResultMessage) :
    Option Candidate :=
  let tokens := estimateEntryTokens entry
  let isStale := decide (i ∈ staleResultIndices entries)
  let insideProtectWindow := decide ((accumulatedTokens : ℚ) < config.protectTokens)
  let call := (callsById entries).get? message.toolCallId
  let captured := extractToolOutputText message
  let notice := createPrunedNotice stripANSI tokens message call none
  let savings := estimatePrunedSavings tokens notice
  if message.prunedAt.isSome || (fenceStart entries config).any (· ≤ i) then none
  else if insideProtectWindow && !isStale || isProtected entries config i message then none
  else if savings ≤ 0 || errorNoticeGrows message captured.text notice then none
  else some ⟨i, entry.id, message, call, tokens, captured.text, captured.complete, notice, savings⟩

def collectFrom : Nat → List (Entry × Nat) → List Candidate
  | _, [] => []
  | accumulatedTokens, (entry, i) :: older =>
    match entry.toolResult? with
    | none => collectFrom accumulatedTokens older
    | some message =>
      (candidate? stripANSI entries config accumulatedTokens i entry message).toList ++
        collectFrom (accumulatedTokens + estimateEntryTokens entry) older

def collectToolOutputPruneCandidates : List Candidate :=
  collectFrom stripANSI entries config 0 entries.zipIdx.reverse

end

def totalSavings (candidates : List Candidate) : Int := (candidates.map Candidate.savings).sum

def minimumSavings (config : PruneConfig) (options : PruneToolOutputsOptions) : ℚ :=
  match options.relaxedMinimum with
  | some relaxed => min config.minimumSavings (max 0 relaxed)
  | none => config.minimumSavings

def MAX_ARTIFACT_REF_CHARS : Nat := 16384

def artifactRefMaxChars (options : PruneToolOutputsOptions) : Except Text Nat :=
  match options.artifactRefMaxChars with
  | none => .ok 0
  | some maxChars =>
    if maxChars.den ≠ 1 ∨ maxChars ≤ 0 ∨ (MAX_ARTIFACT_REF_CHARS : ℚ) < maxChars then
      .error ("artifactRefMaxChars must be an integer between 1 and ".toList ++
        Text.ofNat MAX_ARTIFACT_REF_CHARS)
    else .ok maxChars.num.toNat

variable (stripANSI : Text → Text)

def planCandidate (artifactBudget : Option Text) (candidate : Candidate) : Option Candidate :=
  let notice := createPrunedNotice stripANSI candidate.tokens candidate.message candidate.call
    (if candidate.complete then artifactBudget else none)
  let savings := estimatePrunedSavings candidate.tokens notice
  if 0 < savings && !errorNoticeGrows candidate.message candidate.originalText notice then
    some { candidate with notice := notice, savings := savings }
  else none

def planToolOutputPruneCandidates (candidates : List Candidate)
    (options : PruneToolOutputsOptions) : Except Text (List Candidate) := do
  let maxArtifactChars ← artifactRefMaxChars options
  let artifactBudget := if 0 < maxArtifactChars then some (List.replicate maxArtifactChars 'x')
    else none
  return candidates.filterMap (planCandidate stripANSI artifactBudget)

structure ToolOutputPruneDigest where
  entryId : Text
  bytes : Nat
  sha256 : Text
  deriving DecidableEq

structure ToolOutputPruneReplacement where
  entryId : Text
  replacementText : Text
  complete : Bool
  tokens : Nat
  deriving DecidableEq

structure ToolOutputPrunePlan where
  prunedCount : Nat
  tokensSaved : Int
  digests : List ToolOutputPruneDigest
  replacements : List ToolOutputPruneReplacement
  deriving DecidableEq

def emptyToolOutputPrunePlan : ToolOutputPrunePlan := ⟨0, 0, [], []⟩

section

variable (sha256 : Text → Text)

variable (candidate : Candidate)

def digestOf : ToolOutputPruneDigest :=
  ⟨candidate.entryId, byteLength candidate.originalText, sha256 candidate.originalText⟩

def replacementOf : ToolOutputPruneReplacement :=
  ⟨candidate.entryId, candidate.notice, candidate.complete, candidate.tokens⟩

def planOf (planned : List Candidate) : ToolOutputPrunePlan :=
  ⟨planned.length, totalSavings planned, planned.map (digestOf sha256), planned.map replacementOf⟩

def planToolOutputPrune (stripANSI : Text → Text) (entries : List Entry) (config : PruneConfig)
    (options : PruneToolOutputsOptions) : Except Text ToolOutputPrunePlan := do
  let candidates := collectToolOutputPruneCandidates stripANSI entries config
  let minimum := minimumSavings config options
  if (totalSavings candidates : ℚ) < minimum ∨ candidates.isEmpty then
    return emptyToolOutputPrunePlan
  let planned ← planToolOutputPruneCandidates stripANSI candidates options
  if (totalSavings planned : ℚ) < minimum ∨ planned.isEmpty then return emptyToolOutputPrunePlan
  return planOf sha256 planned

end

structure Selectable (entries : List Entry) (config : PruneConfig) (candidate : Candidate) :
    Prop where
  entry :
    entries[candidate.index]? = some (.message candidate.entryId (.toolResult candidate.message))
  notPruned : candidate.message.prunedAt = none
  beforeFence : ∀ start, fenceStart entries config = some start → candidate.index < start
  unprotected : candidate.message.toolName ∈ config.protectedTools →
    candidate.index ∈ staleResultIndices entries ∧
      candidate.message.toolName ∈ config.staleOverridableTools.getD []
  tokens : candidate.tokens = estimateEntryTokens
    (.message candidate.entryId (.toolResult candidate.message))
  originalText : candidate.originalText = (extractToolOutputText candidate.message).text
  savings : candidate.savings = estimatePrunedSavings candidate.tokens candidate.notice

theorem Entry.eq_of_toolResult? {entry : Entry} {message : ToolResultMessage}
    (h : entry.toolResult? = some message) : entry = .message entry.id (.toolResult message) := by
  unfold Entry.toolResult? at h
  split at h
  · cases h
    rfl
  · cases h

section

variable {stripANSI : Text → Text} {entries : List Entry} {config : PruneConfig}

variable {accumulatedTokens i : Nat} {entry : Entry} {message : ToolResultMessage}
  {candidate planned : Candidate} {indexed : List (Entry × Nat)} {artifactBudget : Option Text}
  {options : PruneToolOutputsOptions}

theorem candidate?_selectable (hentry : entries[i]? = some entry)
    (hmessage : entry.toolResult? = some message)
    (h : candidate? stripANSI entries config accumulatedTokens i entry message = some candidate) :
    Selectable entries config candidate := by
  simp only [candidate?, ite_none_left_eq_some, Bool.or_eq_true, not_or] at h
  obtain ⟨⟨hpruned, hfence⟩, ⟨-, hprotected⟩, -, hcandidate⟩ := h
  cases hcandidate
  have heq := Entry.eq_of_toolResult? hmessage
  refine ⟨hentry.trans (congrArg some heq), by simpa using hpruned, ?_, ?_,
    congrArg estimateEntryTokens heq, rfl, rfl⟩
  · intro start hstart
    have hlt : ¬start ≤ i := by simpa [hstart] using hfence
    show i < start
    omega
  · intro htool
    simpa [isProtected, htool] using hprotected

theorem mem_collectFrom
    (h : candidate ∈ collectFrom stripANSI entries config accumulatedTokens indexed) :
    ∃ accumulatedTokens entry i message, (entry, i) ∈ indexed ∧ entry.toolResult? = some message ∧
      candidate? stripANSI entries config accumulatedTokens i entry message = some candidate := by
  induction indexed generalizing accumulatedTokens with
  | nil => cases h
  | cons head older ih =>
    obtain ⟨entry, i⟩ := head
    rw [collectFrom] at h
    split at h
    · obtain ⟨tokens, entry', i', message, hmem, hrest⟩ := ih h
      exact ⟨tokens, entry', i', message, mem_cons_of_mem _ hmem, hrest⟩
    · next message hmessage =>
      rcases mem_append.mp h with h | h
      · exact ⟨_, entry, i, message, mem_cons_self, hmessage, mem_toList.mp h⟩
      · obtain ⟨tokens, entry', i', message', hmem, hrest⟩ := ih h
        exact ⟨tokens, entry', i', message', mem_cons_of_mem _ hmem, hrest⟩

theorem candidate?_index
    (h : candidate? stripANSI entries config accumulatedTokens i entry message = some candidate) :
    candidate.index = i := by
  simp only [candidate?, ite_none_left_eq_some] at h
  rw [← some.inj h.2.2.2]

theorem collectFrom_sorted (hsorted : indexed.Pairwise fun a b => b.2 < a.2) :
    (collectFrom stripANSI entries config accumulatedTokens indexed).Pairwise
      fun a b => b.index < a.index := by
  induction indexed generalizing accumulatedTokens with
  | nil => exact List.Pairwise.nil
  | cons head older ih =>
    obtain ⟨entry, i⟩ := head
    obtain ⟨hhead, hrest⟩ := pairwise_cons.mp hsorted
    rw [collectFrom]
    split
    · exact ih hrest
    · refine pairwise_append.mpr ⟨?_, ih hrest, ?_⟩
      · cases candidate? stripANSI entries config accumulatedTokens i entry _ <;> simp
      · intro a ha b hb
        obtain ⟨_, entry', i', message', hmem, -, hb'⟩ := mem_collectFrom hb
        rw [candidate?_index (mem_toList.mp ha), candidate?_index hb']
        exact hhead _ hmem

theorem selectable_of_mem_collect
    (h : candidate ∈ collectToolOutputPruneCandidates stripANSI entries config) :
    Selectable entries config candidate := by
  obtain ⟨_, entry, i, message, hmem, hmessage, hcandidate⟩ := mem_collectFrom h
  have hentry : entries[i]? = some entry := by
    rw [mem_reverse, mem_zipIdx_iff_getElem?] at hmem
    exact hmem
  exact candidate?_selectable hentry hmessage hcandidate

theorem collect_sorted :
    (collectToolOutputPruneCandidates stripANSI entries config).Pairwise
      fun a b => b.index < a.index := by
  refine collectFrom_sorted (pairwise_reverse.mpr ?_)
  have hrange : (entries.zipIdx.map Prod.snd).Pairwise (· < ·) := by
    rw [zipIdx_map_snd]
    exact pairwise_lt_range'
  exact pairwise_map.mp hrange

theorem planCandidate_selectable (hselectable : Selectable entries config candidate)
    (h : planCandidate stripANSI artifactBudget candidate = some planned) :
    Selectable entries config planned := by
  simp only [planCandidate, ite_none_right_eq_some] at h
  rw [← some.inj h.2]
  exact { hselectable with savings := rfl }

theorem planCandidate_index (h : planCandidate stripANSI artifactBudget candidate = some planned) :
    planned.index = candidate.index := by
  simp only [planCandidate, ite_none_right_eq_some] at h
  rw [← some.inj h.2]

theorem planToolOutputPruneCandidates_eq {candidates planned : List Candidate}
    (h : planToolOutputPruneCandidates stripANSI candidates options = .ok planned) :
    ∃ artifactBudget, planned = candidates.filterMap (planCandidate stripANSI artifactBudget) := by
  unfold planToolOutputPruneCandidates at h
  cases hartifact : artifactRefMaxChars options with
  | error e =>
    rw [hartifact] at h
    cases h
  | ok maxArtifactChars =>
    rw [hartifact] at h
    cases h
    exact ⟨_, rfl⟩

theorem planToolOutputPrune_spec {sha256 : Text → Text} {plan : ToolOutputPrunePlan}
    (h : planToolOutputPrune sha256 stripANSI entries config options = .ok plan) :
    ∃ planned, plan = planOf sha256 planned ∧
      (∀ candidate ∈ planned, Selectable entries config candidate) ∧
      planned.Pairwise fun a b => b.index < a.index := by
  have hempty : emptyToolOutputPrunePlan = planOf sha256 [] := rfl
  unfold planToolOutputPrune at h
  dsimp only at h
  split at h
  · cases h
    exact ⟨[], hempty, by simp, List.Pairwise.nil⟩
  · cases hplanned : planToolOutputPruneCandidates stripANSI
        (collectToolOutputPruneCandidates stripANSI entries config) options with
    | error e =>
      rw [hplanned] at h
      cases h
    | ok planned =>
      rw [hplanned] at h
      change (if _ then _ else _) = _ at h
      split at h
      · cases h
        exact ⟨[], hempty, by simp, List.Pairwise.nil⟩
      · cases h
        obtain ⟨artifactBudget, rfl⟩ := planToolOutputPruneCandidates_eq hplanned
        refine ⟨_, rfl, ?_, ?_⟩
        · intro candidate hmem
          obtain ⟨collected, hcollected, hcandidate⟩ := mem_filterMap.mp hmem
          exact planCandidate_selectable (selectable_of_mem_collect hcollected) hcandidate
        · rw [pairwise_filterMap]
          refine collect_sorted.imp fun hlt planned hplanned planned' hplanned' => ?_
          rw [planCandidate_index hplanned, planCandidate_index hplanned']
          exact hlt

end

end Vibrato.Pruning
