import Vibrato.Coordinator.CompactRecords

/-! `withSessionTransaction` on the files of a session: what a compaction removes is written to a
history file before the transaction is. -/

namespace Vibrato.Coordinator

open Lib Records

inductive HistoryTable where
  | turns
  | questions
  | gateAuthorities
  | reports
  | prompts
  | answers
  | operations
  | outbox
  deriving DecidableEq

def HistoryTable.all : List HistoryTable :=
  [.turns, .questions, .gateAuthorities, .reports, .prompts, .answers, .operations, .outbox]

theorem HistoryTable.mem_all (table : HistoryTable) : table ∈ all := by
  cases table <;> decide

def Outbox.table (rt : Runtime) (outbox : Outbox) : Table where
  entries := outbox.events.map fun event => (event.id, rt.eventJson event)
  distinct := by
    rw [List.map_map]
    exact outbox.keys_distinct

def SessionTransaction.table (rt : Runtime) (tx : SessionTransaction Records) : HistoryTable → Table
  | .turns => tx.rest.canonical.turns
  | .questions => tx.rest.canonical.questions
  | .gateAuthorities => tx.rest.canonical.gateAuthorities
  | .reports => tx.rest.canonical.reports
  | .prompts => tx.rest.requests.prompts
  | .answers => tx.rest.requests.answers
  | .operations => tx.rest.requests.operations
  | .outbox => tx.outbox.table rt

variable (tx : SessionTransaction Records)

/-- `transaction.endpoint?.incarnation ?? null`. -/
def SessionTransaction.endpointIncarnation : Option Text :=
  (Value.get (some tx.rest.endpoint) "incarnation").bind Json.str?

structure SessionHistory where
  schemaVersion : Json
  sessionId : Text
  endpointIncarnation : Option Text
  tables : HistoryTable → Table

def emptySessionHistory : SessionHistory where
  schemaVersion := .num (JsonNumber.ofNat 1)
  sessionId := tx.sessionId
  endpointIncarnation := tx.endpointIncarnation
  tables := fun _ => .empty

def copyRemovedHistory (before after target : Table) : Table :=
  before.entries.foldl (fun target entry =>
    if !hasProperty after entry.1 && !hasProperty target entry.1 then target.set entry.1 entry.2
      else target) target

def isPartitionChar (c : Char) : Bool := c.isAlphanum || c = '.' || c = '_' || c = '-'

def partition (incarnation : Text) : Text :=
  incarnation.flatMap fun c => if isPartitionChar c then [c] else (Text.utf16 [c]).map fun _ => '_'

def sessionHistoryPath (endpointIncarnation : Option Text) : Text :=
  let partition := (endpointIncarnation.map Coordinator.partition).getD []
  "history.".toList ++ (if partition = [] then "legacy".toList else partition) ++ ".v1.json".toList

def legacyFile : Text := "history.v1.json".toList

structure SessionFiles where
  transaction : SessionTransaction Records
  histories : OrderedMap Text SessionHistory

variable (files : SessionFiles)

/-- The history of a session and its endpoint: the file of the endpoint, or else the file from
before there was one for each, if it is about the same one. -/
def SessionFiles.history? (endpointIncarnation : Option Text) : Option SessionHistory :=
  match files.histories.get? (sessionHistoryPath endpointIncarnation) with
  | some partitioned => some partitioned
  | none =>
      (files.histories.get? legacyFile).filter fun legacy => legacy.endpointIncarnation =
        endpointIncarnation

inductive FileWrite where
  | history (file : Text) (history : SessionHistory)
  | transaction (tx : SessionTransaction Records)

def SessionFiles.write : FileWrite → SessionFiles
  | .history file history => { files with histories := files.histories.set file history }
  | .transaction tx => { files with transaction := tx }

/-- The files after the first `n` of some writes. -/
def SessionFiles.crash (writes : List FileWrite) (n : Nat) : SessionFiles :=
  (writes.take n).foldl SessionFiles.write files

section Transact

variable (rt : Runtime)

def removedHistory (before after : SessionTransaction Records) : SessionHistory :=
  { emptySessionHistory before with
    tables :=
      fun table => copyRemovedHistory (before.table rt table) (after.table rt table) .empty }

def hasNewHistory (history : SessionHistory) : Bool :=
  HistoryTable.all.any fun table => !(history.tables table).entries.isEmpty

/-- The write of `archiveCompactedHistory`, if there is one. -/
def archiveCompactedHistory (files : SessionFiles) (before after : SessionTransaction Records) :
    Except Text (List FileWrite) :=
  let history := removedHistory rt before after
  if !hasNewHistory history then .ok []
  else
    let existing := files.history? before.endpointIncarnation
    if existing.any fun existing =>
        decide (existing.schemaVersion ≠ .num (JsonNumber.ofNat 1) ∨
          existing.sessionId ≠ before.sessionId) then
      .error "state_corrupt".toList
    else
      let archive := existing.getD (emptySessionHistory before)
      let archive := { archive with
        tables :=
          fun table => copyRemovedHistory (history.tables table) .empty (archive.tables table) }
      .ok [.history (sessionHistoryPath before.endpointIncarnation) archive]

/-- What a call of `withSessionTransaction` comes to that does not fail before its first write: what
the operation left, what the compaction made of it, the writes in their order, and the result. -/
structure Transacted (α : Type) where
  left : SessionTransaction Records
  compacted : SessionTransaction Records
  writes : List FileWrite
  result : Except Text α

/-- `withSessionTransaction`, with its writes in the order in which they are made. -/
def transact {α : Type} (namespaceId : Text) (now : Int)
    (operation : SessionTransaction Records → Except Text (α × SessionTransaction Records))
    (files : SessionFiles) :
    Except Text (Transacted α) := do
  let env := rt.env namespaceId files.transaction.sessionId
  if !assertTransaction env files.transaction then throw "state_corrupt".toList
  let (result, tx) ← operation (normalizeOutbox files.transaction)
  let left := normalizeOutbox tx
  let compacted ← compactTransaction env now left
  let archive ← archiveCompactedHistory rt files left compacted
  if compacted = files.transaction then return ⟨left, compacted, archive, .ok result⟩
  let tx := { compacted with
    rest := env.markScheduler (compacted.revision + 1) compacted.rest
    revision := compacted.revision + 1 }
  if !assertTransaction env tx then return ⟨left, compacted, archive, .error "state_corrupt".toList⟩
  return ⟨left, compacted, archive ++ [.transaction tx], .ok result⟩

end Transact

end Vibrato.Coordinator
