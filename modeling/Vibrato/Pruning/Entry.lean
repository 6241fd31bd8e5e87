import Vibrato.Agent.Tokens
import Vibrato.Json
import Vibrato.Lib.LastWrite

/-! The session entries as `agent/compaction/pruning.ts` reads them. -/

namespace Vibrato.Pruning

open Lib Session Agent

/-- A tool call of an assistant message.  The arguments may be missing. -/
structure ToolCall where
  id : Text
  name : Text
  customWireName : Option Text
  arguments : Option Json
  deriving DecidableEq

inductive Block where
  | text (text : Text)
  | thinking (thinking : Text)
  | redactedThinking (data : Text)
  | toolCall (call : ToolCall)
  deriving DecidableEq

namespace Block

def toolCall? : Block → Option ToolCall
  | toolCall call => some call
  | _ => none

end Block

inductive Content where
  | text (text : Text)
  | parts (parts : List Ai.Part)
  deriving DecidableEq

structure ToolResultMessage where
  toolCallId : Text
  toolName : Text
  content : Content
  isError : Bool
  details : Option Json
  prunedAt : Option Nat
  deriving DecidableEq

def isOther : AgentMessage → Bool
  | .llm (.assistant _) | .llm (.toolResult _) => false
  | _ => true

inductive Message where
  | assistant (content : List Block)
  | toolResult (message : ToolResultMessage)
  | other (message : {message : AgentMessage // isOther message = true})

inductive Entry where
  | message (id : Text) (message : Message)
  | other (entry : {entry : SessionEntry // entry.isMessage = false})

namespace Entry

def id : Entry → Text
  | message id _ => id
  | other entry => entry.1.id

/-- `entry.type === "message"`. -/
def isMessage : Entry → Bool
  | message .. => true
  | other _ => false

/-- `getToolResultMessage`. -/
def toolResult? : Entry → Option ToolResultMessage
  | message _ (.toolResult result) => some result
  | _ => none

def assistantBlocks : Entry → List Block
  | message _ (.assistant content) => content
  | _ => []

def isAssistant : Entry → Bool
  | message _ (.assistant _) => true
  | _ => false

def toolCalls (entry : Entry) : List ToolCall := entry.assistantBlocks.filterMap Block.toolCall?

/-- A message with the role `user` or `bashExecution`. -/
def startsUserTurn : Entry → Bool
  | message _ (.other ⟨.llm (.user ..), _⟩) => true
  | message _ (.other ⟨.bashExecution .., _⟩) => true
  | _ => false

end Entry

def blockFragments : Block → List Text
  | .text text => [text]
  | .thinking thinking => [thinking]
  | .redactedThinking _ => []
  | .toolCall call => [call.name, (call.arguments.map Json.stringify).getD "null".toList]

def collectMessageFragments : Message → List Text × Nat
  | .assistant content => (content.flatMap blockFragments, 0)
  | .toolResult message =>
    match message.content with
    | .text text => ([text], 0)
    | .parts parts => (partTexts parts, imageCount parts * IMAGE_TOKEN_ESTIMATE)
  | .other message => Agent.collectMessageFragments message.1

/-- `estimateEntryTokens`.  Its cache is keyed by the fragments and the image tokens, so that it
never changes the result. -/
def estimateEntryTokens : Entry → Nat
  | .message _ message =>
    let (fragments, extra) := collectMessageFragments message
    estimateTextTokensHeuristic fragments + extra
  | .other entry => Agent.estimateEntryTokens entry.1

variable (entries : List Entry)

/-- `estimateEntriesTokens` over a whole list. -/
def estimateEntriesTokens : Nat := (entries.map estimateEntryTokens).sum

/-- `callsById`: of the calls with one id, the last. -/
def callsById : OrderedMap Text ToolCall :=
  OrderedMap.ofWrites ((entries.flatMap Entry.toolCalls).map fun call => (call.id, call))

def answeredAt (i : Nat) : Option (ToolCall × ToolResultMessage) :=
  (entries[i]?.bind Entry.toolResult?).bind fun message =>
    ((callsById entries).get? message.toolCallId).map fun call => (call, message)

theorem id_of_callsById {entries : List Entry} {id : Text} {call : ToolCall}
    (h : (callsById entries).get? id = some call) : call.id = id := by
  obtain ⟨call', -, hcall⟩ := List.mem_map.mp (OrderedMap.mem_of_get?_ofWrites h)
  cases hcall
  rfl

def exchange (call : ToolCall) (text : Text) (details : Option Json) : List Entry :=
  [.message ('c' :: call.id) (.assistant [.toolCall call]),
    .message ('r' :: call.id) (.toolResult ⟨call.id, call.name, .text text, false, details, none⟩)]

end Vibrato.Pruning
