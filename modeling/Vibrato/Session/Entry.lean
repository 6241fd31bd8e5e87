import Vibrato.Ai.Message

/-! The entries of a session (`agent/compaction/entries.ts`) and the messages they hold. -/

namespace Vibrato.Session

open Ai (Part Message)

/-- `AgentMessage`: a message for the provider, or one of the application's own. -/
inductive AgentMessage where
  | llm (message : Message)
  | bashExecution (command output : Text)
  | pythonExecution (code output : Text)
  | custom (customType : Text) (content : List Part) (display : Bool)
  | hookMessage (customType : Text) (content : List Part)
  | branchSummary (summary fromId : Text)
  | compactionSummary (summary : Text) (tokensBefore : Nat)
  | fileMention (files : List Text)
  deriving DecidableEq

structure CompactionDetails where
  readFiles : List Text
  modifiedFiles : List Text
  deriving DecidableEq

/-- The data of a compaction entry.  `remoteReplacementHistory` is the history that a provider
returned in place of the kept messages, from `preserveData.openaiRemoteCompaction`. -/
structure Compaction where
  summary : Text
  firstKeptEntryId : Text
  tokensBefore : Nat
  details : Option CompactionDetails
  fromExtension : Bool
  remoteReplacementHistory : Option Text

inductive SettingKind where
  | thinkingLevelChange
  | modelChange
  | serviceTierChange
  | custom
  | ttsrInjection
  | mcpToolSelection
  | discoveredBuiltinToolSelection
  | sessionInit
  | modeChange
  | configuredModelChain

inductive EntryData where
  | message (message : AgentMessage)
  | customMessage (customType : Text) (content : List Part) (display : Bool)
  | branchSummary (fromId summary : Text)
  | compaction (compaction : Compaction)
  | label (targetId : Text) (label : Option Text)
  | setting (kind : SettingKind)

structure SessionEntry where
  id : Text
  parentId : Option Text
  data : EntryData

namespace SessionEntry

variable (entry : SessionEntry)

def compaction? : Option Compaction :=
  match entry.data with
  | .compaction compaction => some compaction
  | _ => none

def isCompaction : Bool := entry.compaction?.isSome

/-- `entry.type === "message"`. -/
def isMessage : Bool :=
  match entry.data with
  | .message _ => true
  | _ => false

def isLabel : Bool :=
  match entry.data with
  | .label .. => true
  | _ => false

def toolCalls (entry : SessionEntry) : List Ai.ToolCall :=
  match entry.data with
  | .message (.llm message) => message.toolCalls
  | _ => []

def answeredCallId? : Option Text :=
  match entry.data with
  | .message (.llm (.toolResult result)) => some result.toolCallId
  | _ => none

end SessionEntry

/-- A message together with the entry it comes from, which tells equal messages apart. -/
structure SessionMessage where
  entryId : Text
  message : AgentMessage
  deriving DecidableEq

/-- `getMessageFromEntry`: the message of an entry that produces one. -/
def getMessageFromEntry (entry : SessionEntry) : Option SessionMessage :=
  match entry.data with
  | .message message => some ⟨entry.id, message⟩
  | .customMessage customType content display =>
    some ⟨entry.id, .custom customType content display⟩
  | .branchSummary fromId summary => some ⟨entry.id, .branchSummary summary fromId⟩
  | _ => none

theorem getMessageFromEntry_entryId {entry : SessionEntry} {message : SessionMessage}
    (h : getMessageFromEntry entry = some message) : message.entryId = entry.id := by
  unfold getMessageFromEntry at h
  split at h <;> cases h <;> rfl

end Vibrato.Session
