import Vibrato.Text

/-! The messages of `ai/types.ts` that are sent to a provider.  Fields that no modelled function
reads (durations, diagnostics, opaque provider payloads) are left out. -/

namespace Vibrato.Ai

/-- `TextContent | ImageContent`. -/
inductive Part where
  | text (text : Text)
  | image (data mimeType : Text)
  deriving DecidableEq

/-- An argument of a tool call: a string, or the JSON text of another value. -/
inductive ArgValue where
  | str (value : Text)
  | json (value : Text)
  deriving DecidableEq

structure ToolCall where
  id : Text
  name : Text
  arguments : List (Text × ArgValue)
  thoughtSignature : Option Text
  deriving DecidableEq

inductive Block where
  | text (text : Text) (textSignature : Option Text)
  | thinking (thinking : Text) (thinkingSignature : Option Text)
  | redactedThinking (data : Text)
  | toolCall (toolCall : ToolCall)
  deriving DecidableEq

namespace Block

def toolCall? : Block → Option ToolCall
  | toolCall call => some call
  | _ => none

def isThinking : Block → Bool
  | thinking .. => true
  | _ => false

end Block

inductive StopReason where
  | stop
  | length
  | toolUse
  | error
  | aborted
  deriving DecidableEq

structure Usage where
  input : Nat
  output : Nat
  cacheRead : Nat
  cacheWrite : Nat
  totalTokens : Nat
  deriving DecidableEq

structure AssistantMessage where
  content : List Block
  api : Text
  provider : Text
  model : Text
  usage : Usage
  stopReason : StopReason
  timestamp : Nat
  deriving DecidableEq

namespace AssistantMessage

variable (message : AssistantMessage)

def toolCalls : List ToolCall :=
  message.content.filterMap Block.toolCall?

/-- A message that ended in `"error"` or `"aborted"`. -/
def isAborted : Bool :=
  message.stopReason = .error || message.stopReason = .aborted

end AssistantMessage

structure ToolResultMessage where
  toolCallId : Text
  toolName : Text
  content : List Part
  isError : Bool
  timestamp : Nat
  deriving DecidableEq

inductive Message where
  | user (content : List Part) (timestamp : Nat)
  | developer (content : List Part) (timestamp : Nat)
  | assistant (message : AssistantMessage)
  | toolResult (message : ToolResultMessage)
  deriving DecidableEq

namespace Message

def timestamp : Message → Nat
  | user _ timestamp | developer _ timestamp => timestamp
  | assistant message => message.timestamp
  | toolResult message => message.timestamp

def assistant? : Message → Option AssistantMessage
  | assistant message => some message
  | _ => none

def toolResult? : Message → Option ToolResultMessage
  | toolResult message => some message
  | _ => none

def toolCalls : Message → List ToolCall
  | assistant message => message.toolCalls
  | _ => []

end Message
end Vibrato.Ai
