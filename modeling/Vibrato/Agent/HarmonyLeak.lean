import Vibrato.Ai.Message
import Vibrato.Hashline.FrontEnd

/-! Recovery of tool calls with leaked harmony tokens (`agent/src/harmony-leak.ts`): the input of
the call is cut off before the line of the first signal, and a sentinel tells the tool's parser that
it was. -/

namespace Vibrato.Agent

open Ai Text Hashline

inductive HarmonySurface where
  | assistantText
  | assistantThinking
  | toolArg
deriving DecidableEq

/-- `HarmonyDetection`, with the place of each signal. -/
structure HarmonyDetection where
  surface : HarmonySurface
  contentIndex : Option Nat
  signals : List Nat

structure RecoveryConfig where
  sentinel : Text
  accepts : Text → Bool

def RECOVERY_REGISTRY (name : Text) : Option RecoveryConfig :=
  if name = "edit".toList then
    some
      { sentinel := "\n*** Abort\n".toList
        accepts := fun input => startsWith (trimStart input) ['@'] }
  else if name = "eval".toList then
    some { sentinel := "\n*** Abort\n".toList, accepts := fun _ => true }
  else none

/-- `input.lastIndexOf("\n", offset - 1) + 1` -/
def lineStartAt (input : Text) (offset : Nat) : Nat :=
  ((input.take offset).reverse.dropWhile (· ≠ '\n')).length

/-- `truncateAtLineAndAppendSentinel`: what is kept with the sentinel, and what is removed. -/
def truncateAtLineAndAppendSentinel (input : Text) (offset : Nat) (sentinel : Text) :
    Option (Text × Text) :=
  let lineStart := lineStartAt input offset
  if lineStart = 0 then none
  else
    let head := trimEnd (input.take lineStart)
    if head = [] then none else some (head ++ sentinel, input.drop lineStart)

/-- `block.arguments?.input`, when it is a string. -/
def inputText (call : ToolCall) : Option Text :=
  match call.arguments.find? (·.1 = "input".toList) with
  | some (_, .str value) => some value
  | _ => none

/-- `{ ...block.arguments, input }` -/
def withInput (call : ToolCall) (input : Text) : ToolCall :=
  { call with
    arguments := call.arguments.map fun a => if a.1 = "input".toList then (a.1, .str input) else a }

structure HarmonyRecoveredToolCall where
  message : AssistantMessage
  removed : Text

def recoverHarmonyToolCall (message : AssistantMessage) (detection : HarmonyDetection) :
    Option HarmonyRecoveredToolCall :=
  if detection.surface ≠ .toolArg then none
  else do
    let contentIndex ← detection.contentIndex
    let block ← message.content[contentIndex]?
    let call ← block.toolCall?
    let config ← RECOVERY_REGISTRY call.name
    let input ← inputText call
    if !config.accepts input then none
    else
      let offset ← detection.signals.head?
      let (clean, removed) ← truncateAtLineAndAppendSentinel input offset config.sentinel
      some
        { message := { message with
            content := [.toolCall (withInput call clean)]
            stopReason := .toolUse }
          removed }

theorem recoverHarmonyToolCall_eq_some {message : AssistantMessage} {detection : HarmonyDetection}
    {recovered : HarmonyRecoveredToolCall}
    (h : recoverHarmonyToolCall message detection = some recovered) :
    ∃ index call config input offset clean,
      detection.contentIndex = some index ∧ message.content[index]? = some (.toolCall call) ∧
      RECOVERY_REGISTRY call.name = some config ∧ inputText call = some input ∧
      config.accepts input = true ∧ detection.signals.head? = some offset ∧
      truncateAtLineAndAppendSentinel input offset config.sentinel =
        some (clean, recovered.removed) ∧
      recovered.message.content = [.toolCall (withInput call clean)] := by
  unfold recoverHarmonyToolCall at h
  split at h
  · cases h
  · simp only [Option.bind_eq_bind, Option.bind_eq_some_iff] at h
    obtain ⟨index, hindex, block, hblock, call, hcall, config, hconfig, input, hinput, h⟩ := h
    split at h
    · cases h
    · next haccepts =>
      simp only [Option.bind_eq_some_iff] at h
      obtain ⟨offset, hoffset, ⟨clean, removed⟩, hcut, h⟩ := h
      cases h
      have hblock' : block = .toolCall call := by
        cases block <;> simp_all [Block.toolCall?]
      refine ⟨index, call, config, input, offset, clean, hindex, hblock' ▸ hblock, hconfig,
        hinput, ?_, hoffset, hcut, rfl⟩
      simpa using haccepts

theorem edit_not_accepts {env : Tools.PathEnv} {cwd header path : Text} (rest : Text)
    (h : parseHashlineHeaderLine env cwd header = .ok (some path)) {config : RecoveryConfig}
    (hconfig : RECOVERY_REGISTRY "edit".toList = some config) :
    config.accepts (header ++ rest) = false := by
  have hhead : header.head? = some Hashline.HL_FILE_PREFIX := by
    by_contra hne
    rw [parseHashlineHeaderLine_eq_none hne] at h
    cases h
  obtain ⟨tail, rfl⟩ := List.head?_eq_some_iff.mp hhead
  cases hconfig
  have hspace : isSpace Hashline.HL_FILE_PREFIX = false := by decide
  have htrim : trimStart (Hashline.HL_FILE_PREFIX :: tail ++ rest) =
      Hashline.HL_FILE_PREFIX :: (tail ++ rest) := by
    rw [trimStart, List.cons_append, List.dropWhile_cons_of_neg (by simp [hspace])]
  rfl

/-- A recovery of the lines `clean` of an input: the recovered call has an input that the front end
reads as the edits of these lines and the warning of a truncation. -/
def RecoversLines (env : Tools.PathEnv) (cwd clean : Text) (message : AssistantMessage)
    (detection : HarmonyDetection) : Prop :=
  ∃ recovered call input sections cleanSections edits, recoverHarmonyToolCall message detection =
    some recovered ∧
    recovered.message.content = [.toolCall call] ∧ inputText call = some input ∧
    splitHashlineInputs env cwd input none = .ok sections ∧
    parseSections sections = .ok (edits, [Hashline.ABORT_WARNING]) ∧
    splitHashlineInputs env cwd clean none = .ok cleanSections ∧
    parseSections cleanSections = .ok (edits, [])

/-- No call of the edit tool whose input begins with the header of a section is recovered, wherever
the signals are in the lines below. -/
theorem not_recoversLines_of_header {env : Tools.PathEnv}
    {cwd header path clean contaminated : Text}
    {message : AssistantMessage} {detection : HarmonyDetection} {index : Nat} {call : ToolCall}
    (hheader : parseHashlineHeaderLine env cwd header = .ok (some path))
    (hindex : detection.contentIndex = some index)
    (hcall : message.content[index]? = some (.toolCall call)) (hname : call.name = "edit".toList)
    (hinput : inputText call = some (header ++ '\n' :: clean ++ contaminated)) :
    recoverHarmonyToolCall message detection = none ∧
      ¬RecoversLines env cwd (header ++ '\n' :: clean) message detection := by
  have hnone : recoverHarmonyToolCall message detection = none := by
    rw [Option.eq_none_iff_forall_ne_some]
    intro recovered hrecovered
    obtain ⟨index', call', config, input, offset, kept, hindex', hcall', hconfig, hinput',
        haccepts, -⟩ :=
      recoverHarmonyToolCall_eq_some hrecovered
    rw [hindex] at hindex'
    cases hindex'
    rw [hcall] at hcall'
    cases hcall'
    rw [hinput] at hinput'
    cases hinput'
    rw [hname] at hconfig
    rw [List.append_assoc, edit_not_accepts _ hheader hconfig] at haccepts
    cases haccepts
  refine ⟨hnone, ?_⟩
  rintro ⟨recovered, call', input, sections, cleanSections, edits, hrecovered, -⟩
  rw [hnone] at hrecovered
  cases hrecovered

def leakedCall : ToolCall :=
  { id := "1".toList
    name := "edit".toList
    arguments := [("input".toList, .str "§a\n»1hs\nfoo\n<|end|>".toList)]
    thoughtSignature := none }

def leakedMessage : AssistantMessage :=
  { content := [.toolCall leakedCall]
    api := []
    provider := "openai-codex".toList
    model := []
    usage := ⟨0, 0, 0, 0, 0⟩
    stopReason := .toolUse
    timestamp := 0 }

theorem not_recoversLines_leakedMessage :
    recoverHarmonyToolCall leakedMessage ⟨.toolArg, some 0, [12]⟩ = none ∧
      ¬RecoversLines ⟨[], [], fun _ => none⟩ []
        ("§a".toList ++ '\n' :: "»1hs\nfoo\n".toList) leakedMessage
        ⟨.toolArg, some 0, [12]⟩ := by
  have hheader : parseHashlineHeaderLine ⟨[], [], fun _ => none⟩ [] "§a".toList =
      .ok (some ['a']) := by decide +kernel
  have hinput : inputText leakedCall =
      some ("§a".toList ++ '\n' :: "»1hs\nfoo\n".toList ++ "<|end|>".toList) := by decide +kernel
  exact not_recoversLines_of_header hheader rfl rfl rfl hinput

/-- The edit tool reads the clean lines of the call as an insertion, and the call is not
recovered. -/
theorem leakedMessage_not_recovered :
    splitHashlineInputs ⟨[], [], fun _ => none⟩ [] "§a\n»1hs\nfoo\n".toList none =
        .ok [⟨['a'], "»1hs\nfoo\n".toList⟩] ∧
      parseSections [⟨['a'], "»1hs\nfoo\n".toList⟩] =
        .ok (diffEdits "»1hs\nfoo\n".toList, []) ∧
      ¬RecoversLines ⟨[], [], fun _ => none⟩ [] "§a\n»1hs\nfoo\n".toList leakedMessage
        ⟨.toolArg, some 0, [12]⟩ := by
  refine ⟨by decide +kernel, by decide +kernel, ?_⟩
  rintro ⟨recovered, call, input, sections, cleanSections, edits, hrecovered, -⟩
  have hnone : recoverHarmonyToolCall leakedMessage ⟨.toolArg, some 0, [12]⟩ = none := by
    decide +kernel
  cases hrecovered

end Vibrato.Agent
