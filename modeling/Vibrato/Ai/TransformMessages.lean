import Vibrato.Ai.Message

/-! `ai/providers/transform-messages.ts`: the messages of a history as a target model can replay
them. -/

namespace Vibrato.Ai

structure Model where
  api : Text
  provider : Text
  id : Text

structure TransformOptions where
  repairLatestAssistantThinking : Bool
  repairAllAssistantThinking : Bool

def ANTHROPIC_MESSAGES : Text := "anthropic-messages".toList

def collapseFrom : Bool → List Block → List Block
  | _, [] => []
  | previousWasThinking, block :: content =>
    if block.isThinking && previousWasThinking then collapseFrom true content
    else block :: collapseFrom block.isThinking content

def collapseAdjacentThinking (content : List Block) : List Block := collapseFrom false content

abbrev ToolCallIdMap := List (Text × Text)

/-- `toolCallIdMap.get`.  Later entries are in front. -/
def ToolCallIdMap.get (ids : ToolCallIdMap) (id : Text) : Option Text :=
  (ids.find? (·.1 = id)).map Prod.snd

section FirstPass

variable (model : Model) (normalizeToolCallId : Option (Text → AssistantMessage → Text))
    (options : TransformOptions)

variable (message : AssistantMessage)

def isSameModel : Bool :=
  message.provider = model.provider && message.api = model.api && message.model = model.id

def bothAnthropic : Bool :=
  model.api = ANTHROPIC_MESSAGES && message.api = ANTHROPIC_MESSAGES

variable (isLatest : Bool)

def mustPreserveLatestAnthropicThinking (message : AssistantMessage) : Bool :=
  isLatest && bothAnthropic model message

def dropAssistantThinkingForRepair (message : AssistantMessage) : Bool :=
  (options.repairAllAssistantThinking || (options.repairLatestAssistantThinking && isLatest)) &&
    bothAnthropic model message

/-- Whether a private block of the message would be replayed as such, and is dropped to repair the
history. -/
def dropsPrivate (message : AssistantMessage) : Bool :=
  dropAssistantThinkingForRepair model options isLatest message &&
    (mustPreserveLatestAnthropicThinking model isLatest message || isSameModel model message)

def transformThinking (message : AssistantMessage) (thinking : Text) (signature : Option Text) :
    List Block :=
  if message.isAborted || dropsPrivate model options isLatest message then []
  else if mustPreserveLatestAnthropicThinking model isLatest message then
    [.thinking thinking signature]
  else if isSameModel model message && signature.any (· ≠ []) then
    if Text.isBlank thinking && model.api = ANTHROPIC_MESSAGES then []
      else [.thinking thinking signature]
  else if Text.isBlank thinking then []
  else if isSameModel model message then [.thinking thinking signature]
  else [.text thinking none]

def transformRedacted (message : AssistantMessage) (data : Text) : List Block :=
  if message.isAborted || dropsPrivate model options isLatest message then []
  else if mustPreserveLatestAnthropicThinking model isLatest message ||
    isSameModel model message then
    [.redactedThinking data]
  else []

def transformToolCall (message : AssistantMessage) (call : ToolCall) : ToolCall × ToolCallIdMap :=
  if isSameModel model message then (call, [])
  else
    let call := { call with thoughtSignature := call.thoughtSignature.filter (· = []) }
    match normalizeToolCallId with
    | none => (call, [])
    | some normalize =>
      let normalizedId := normalize call.id message
      if normalizedId = call.id then (call, [])
      else ({ call with id := normalizedId }, [(call.id, normalizedId)])

def transformBlock (message : AssistantMessage) (ids : ToolCallIdMap) :
    Block → List Block × ToolCallIdMap
  | .thinking thinking signature =>
    (transformThinking model options isLatest message thinking signature, ids)
  | .redactedThinking data => (transformRedacted model options isLatest message data, ids)
  | .text text signature =>
    ([.text text (if isSameModel model message then signature else none)], ids)
  | .toolCall call =>
    let (call, added) := transformToolCall model normalizeToolCallId message call
    ([.toolCall call], added ++ ids)

def transformBlocks (isLatest : Bool) (message : AssistantMessage) (ids : ToolCallIdMap) :
    List Block → List Block × ToolCallIdMap
  | [] => ([], ids)
  | block :: content =>
    let (blocks, ids) := transformBlock model normalizeToolCallId options isLatest message ids block
    let (later, ids) := transformBlocks isLatest message ids content
    (blocks ++ later, ids)

def transformAssistant (message : AssistantMessage) (ids : ToolCallIdMap) :
    AssistantMessage × ToolCallIdMap :=
  let (content, ids) :=
    transformBlocks model normalizeToolCallId options isLatest message ids message.content
  ({ message with content :=
      if model.api = ANTHROPIC_MESSAGES then collapseAdjacentThinking content else content }, ids)

def transformToolResult (message : ToolResultMessage) (ids : ToolCallIdMap) : ToolResultMessage :=
  match (ids.get message.toolCallId).filter (· ≠ []) with
  | some normalizedId => { message with toolCallId := normalizedId }
  | none => message

def firstPass (ids : ToolCallIdMap) : List Message → List Message
  | [] => []
  | .assistant message :: messages =>
    let isLatest := messages.all fun later => later.assistant?.isNone
    let (message, ids) :=
      transformAssistant model normalizeToolCallId options isLatest message ids
    .assistant message :: firstPass ids messages
  | .toolResult message :: messages =>
    .toolResult (transformToolResult message ids) :: firstPass ids messages
  | message :: messages => message :: firstPass ids messages

end FirstPass

inductive ToolCallStatus where
  | resolved
  | aborted
  deriving DecidableEq

/-- The calls without result of the window that is open, if the last assistant message was aborted
with its timestamp, and the status of each call. -/
structure PassState where
  pendingToolCalls : List ToolCall
  pendingAborted : Option (Nat × List ToolCall)
  toolCallStatus : Text → Option ToolCallStatus

def PassState.start : PassState := ⟨[], none, fun _ => none⟩

def PassState.setStatus (st : PassState) (id : Text) (status : ToolCallStatus) : PassState :=
  { st with toolCallStatus := Function.update st.toolCallStatus id (some status) }

/-- `new Map(toolCalls.map(call => [call.id, call]))`: a later call with an id replaces the value in
its place. -/
def mapOfCalls (calls : List ToolCall) : List ToolCall :=
  calls.foldl (fun entries call =>
    if entries.any (·.id = call.id) then
      entries.map fun entry => if entry.id = call.id then call else entry
    else entries ++ [call]) []

def syntheticResult (call : ToolCall) (text : String) (timestamp : Nat) : Message :=
  .toolResult ⟨call.id, call.name, [.text text.toList], true, timestamp⟩

/-- A synthetic result for each call that satisfies `wanted` and has no status yet. -/
def synthesize (wanted : ToolCall → Bool) (text : String) (status : ToolCallStatus)
    (timestamp : Nat) :
    List ToolCall → PassState → List Message × PassState
  | [], st => ([], st)
  | call :: calls, st =>
    if wanted call && st.toolCallStatus call.id = none then
      let (pushed, st) :=
        synthesize wanted text status timestamp calls (st.setStatus call.id status)
      (syntheticResult call text timestamp :: pushed, st)
    else synthesize wanted text status timestamp calls st

def turnAbortedGuidance : Text :=
  ("<turn-aborted>\n" ++
    "The previous turn was aborted. Any running tools/commands were terminated. \n" ++
    "If tools were aborted, they may have partially executed; verify current state before " ++
    "retrying.\n</turn-aborted>\n").toList

section SecondPass

variable (realToolResultIds validToolUseIds : List Text)

def flushPendingToolCalls (timestamp : Nat) (st : PassState) : List Message × PassState :=
  let (pushed, st) := synthesize (fun call => call.id ∉ realToolResultIds) "No result provided"
    .resolved timestamp st.pendingToolCalls st
  (pushed, { st with pendingToolCalls := [] })

def flushPendingAbortedToolCalls (st : PassState) : List Message × PassState :=
  match st.pendingAborted with
  | none => ([], st)
  | some (timestamp, calls) =>
    let (pushed, st) := synthesize (fun _ => true) "aborted" .aborted timestamp calls st
    (pushed ++ [.developer [.text turnAbortedGuidance] (timestamp + 1)],
      { st with pendingAborted := none })

def flush (timestamp : Nat) (st : PassState) : List Message × PassState :=
  let (pending, st) := flushPendingToolCalls realToolResultIds timestamp st
  let (aborted, st) := flushPendingAbortedToolCalls st
  (pending ++ aborted, st)

variable (message : ToolResultMessage)

def staleTexts : List Text :=
  message.content.filterMap fun
    | .text text => if Text.isBlank text then none else some text
    | .image .. => none

def staleToolResult : Message :=
  .user [.text ("<stale-tool-result tool=\"".toList ++ message.toolName ++ "\" id=\"".toList ++
    message.toolCallId ++ "\"".toList ++
    (if message.isError then " is-error=\"true\"".toList else []) ++ ">\n".toList ++
    Text.joinLines (staleTexts message) ++ "\n</stale-tool-result>".toList)] message.timestamp

def PassState.abortedCalls (st : PassState) : List ToolCall :=
  (st.pendingAborted.map Prod.snd).getD []

def passToolResult (st : PassState) : List Message × PassState :=
  let id := message.toolCallId
  if st.abortedCalls.any (·.id = id) then
    ([.toolResult message],
      { st.setStatus id .resolved with
        pendingAborted := st.pendingAborted.map fun (timestamp, calls) =>
          (timestamp, calls.filter (·.id ≠ id)) })
  else if st.toolCallStatus id = some .aborted then ([], st)
  else if id ∉ validToolUseIds then
    if st.pendingToolCalls ≠ [] ∨ st.abortedCalls ≠ [] then ([], st)
    else (if staleTexts message = [] then [] else [staleToolResult message], st)
  else ([.toolResult message], st.setStatus id .resolved)

def passMessage (message : Message) (st : PassState) : List Message × PassState :=
  match message with
  | .toolResult result => passToolResult validToolUseIds result st
  | .assistant assistant =>
    let (pushed, st) := flush realToolResultIds message.timestamp st
    (pushed ++ [message],
      if assistant.isAborted then
        { st with pendingAborted := some (assistant.timestamp, mapOfCalls assistant.toolCalls) }
      else { st with pendingToolCalls := assistant.toolCalls })
  | .user .. | .developer .. =>
    let (pushed, st) := flush realToolResultIds message.timestamp st
    (pushed ++ [message], st)

/-- The second pass, with the time `now` of the final flush. -/
def secondPass (now : Nat) : List Message → PassState → List Message
  | [], st => (flush realToolResultIds now st).1
  | message :: messages, st =>
    let (pushed, st) := passMessage realToolResultIds validToolUseIds message st
    pushed ++ secondPass now messages st

end SecondPass

variable (messages : List Message)

def toolCallIds : List Text :=
  messages.flatMap fun message => message.toolCalls.map ToolCall.id

def toolResultIds : List Text :=
  messages.filterMap fun message => message.toolResult?.map ToolResultMessage.toolCallId

def transformed (model : Model) (normalizeToolCallId : Option (Text → AssistantMessage → Text))
    (options : TransformOptions) (messages : List Message) : List Message :=
  firstPass model normalizeToolCallId options [] messages

def transformMessages (model : Model)
    (normalizeToolCallId : Option (Text → AssistantMessage → Text))
    (options : TransformOptions) (now : Nat) (messages : List Message) : List Message :=
  let history := transformed model normalizeToolCallId options messages
  secondPass (toolResultIds history) (toolCallIds history) now history PassState.start

end Vibrato.Ai
