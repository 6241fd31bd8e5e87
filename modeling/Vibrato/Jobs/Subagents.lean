import Mathlib.Data.List.Sort
import Vibrato.Jobs.Table

/-! The subagents of `AsyncJobManager`: the reservations of its capacity, the records of subagents
with the queue of resumes that wait for a slot, and the leases under which the subagents of an owner
are shut down. -/

namespace Vibrato.Jobs

open Lib Text

inductive SubagentLifecycle where
  | running
  | paused
  | queued
  | completed
  | failed
  | cancelled
  deriving DecidableEq

namespace SubagentLifecycle

/-- `#isTerminalSubagentStatus`. -/
def terminal : SubagentLifecycle → Bool
  | completed | failed | cancelled => true
  | running | paused | queued => false

def ofJob : JobStatus → SubagentLifecycle
  | .running => running
  | .completed => completed
  | .failed => failed
  | .cancelled => cancelled
  | .paused => paused

end SubagentLifecycle

structure QueuedResume where
  ownerId : Option Text
  seq : Nat
  message : Option Text

structure SubagentRecord where
  ownerId : Option Text
  currentJobId : Option Text
  currentJobGeneration : Option Generation
  status : SubagentLifecycle
  sessionFile : Option Text
  resumable : Bool
  queued : Option QueuedResume

structure ResumeDescriptor where
  ownerId : Option Text
  sessionFile : Option Text

structure ResumeQueueEntry where
  subagentId : Text
  ownerId : Option Text
  seq : Nat
  message : Option Text

def isSessionFile (sessionFile : Option Text) : Bool :=
  sessionFile.any fun file => !(trim file).isEmpty

def hasRetainedResumeContext (resumable : Bool) (sessionFile : Option Text)
    (descriptor : Option ResumeDescriptor) : Bool :=
  resumable && (descriptor.isSome || isSessionFile sessionFile)

/-- What a caller hands to `register`: `subagent` is `metadata.subagent.id`. -/
structure Launch where
  preferredId : Option Text
  ownerId : Option Text
  subagent : Option Text

def Launch.options (launch : Launch) : AsyncJobManager.RegisterOptions :=
  ⟨launch.preferredId, launch.ownerId, true, none⟩

/-- `register` of the jobs, after its checks. -/
def AsyncJobManager.admitJob (m : AsyncJobManager) (options : RegisterOptions) : AsyncJobManager :=
  let job := m.newJob options
  let m := m.addJob job
  { m with table := { m.table with jobs := m.table.jobs.set job.id job.generation } }

/-- A runner starts the job of a subagent through `register`, or fails. -/
abbrev ResumeRunner := Text → Option Text → Option Launch

inductive RegisterError where
  | ownerSubagentShutdown
  | invalidAdmission
  | limitReached

inductive ShutdownSource where
  | record
  | metadataJob
  deriving DecidableEq

structure OwnerSubagentShutdownTarget where
  subagentId : Text
  jobId : Option Text
  source : ShutdownSource
  deriving DecidableEq

inductive ShutdownReason where
  | confirmed
  | leaseLost
  | deadlineExceeded
  | missingTerminalEvidence
  deriving DecidableEq

structure OwnerSubagentShutdownProof where
  ownerId : Text
  leaseId : Nat
  reason : ShutdownReason
  targets : List OwnerSubagentShutdownTarget
  terminalIds : List Text
  unresolvedIds : List Text
  deriving DecidableEq

def OwnerSubagentShutdownProof.confirmed (proof : OwnerSubagentShutdownProof) : Bool :=
  proof.reason = .confirmed

inductive ShutdownPhase where
  | active
  | proving
  | proved
  deriving DecidableEq

structure OwnerSubagentShutdownLease where
  id : Nat
  targets : List OwnerSubagentShutdownTarget
  backingJobIds : OrderedMap Text (List Text)
  phase : ShutdownPhase
  proof : Option OwnerSubagentShutdownProof

/-- A call of `cancelAndProveOwnerSubagents` that waits: the promises that it captured, each by the
id and the generation of its job, and the ids that have settled. -/
structure ProvingCall where
  ownerId : Text
  leaseId : Nat
  captured : List (Text × Generation)
  settled : List Text
  deriving DecidableEq

/-- `admissions` has the reservations in the order in which they were made, each with whether it is
still unused, and a token is the place of its reservation.  `metadata` has the subagent of a job. -/
structure SubagentManager where
  manager : AsyncJobManager
  admissions : List Bool
  pendingAdmissions : Nat
  metadata : OrderedMap Generation Text
  settledJobIds : List Text
  subagentRecords : OrderedMap Text SubagentRecord
  resumeDescriptors : OrderedMap Text ResumeDescriptor
  descriptorResumeRunners : List Text
  resumeRunner : Bool
  resumeQueue : List ResumeQueueEntry
  resumeSeq : Nat
  ownerSubagentShutdownLeases : OrderedMap Text OwnerSubagentShutdownLease
  ownerSubagentShutdownSeq : Nat
  provingCalls : OrderedMap Nat ProvingCall
  provingSeq : Nat

namespace SubagentManager

def create (now : Int) (retentionMs maxRunningJobs maxDeadLetterOverflowOwners : Nat) :
    SubagentManager where
  manager := .create now retentionMs maxRunningJobs maxDeadLetterOverflowOwners
  admissions := []
  pendingAdmissions := 0
  metadata := .empty
  settledJobIds := []
  subagentRecords := .empty
  resumeDescriptors := .empty
  descriptorResumeRunners := []
  resumeRunner := false
  resumeQueue := []
  resumeSeq := 0
  ownerSubagentShutdownLeases := .empty
  ownerSubagentShutdownSeq := 0
  provingCalls := .empty
  provingSeq := 0

variable (s : SubagentManager)

/-- `#isOwnerSubagentShutdownFenced`. -/
def isFenced (ownerId : Option Text) : Bool :=
  ownerId.any s.ownerSubagentShutdownLeases.has

def running : Nat := (s.manager.table.getRunningJobs none).length

def hasCapacity : Bool := s.running + s.pendingAdmissions < s.manager.table.maxRunningJobs

def reserveCapacity : SubagentManager :=
  if s.hasCapacity then
    { s with
      admissions := s.admissions ++ [true]
      pendingAdmissions := s.pendingAdmissions + 1 }
  else s

def consumeAdmission (token : Nat) : Option SubagentManager :=
  if s.admissions[token]? = some true then
    some { s with
      admissions := s.admissions.set token false
      pendingAdmissions := s.pendingAdmissions - 1 }
  else none

def releaseCapacity (token : Nat) : SubagentManager := (s.consumeAdmission token).getD s

/-- `register` after its checks. -/
def enter (launch : Launch) : Text × SubagentManager :=
  let id := s.manager.resolveJobId launch.preferredId
  let generation := Generation.job (s.manager.table.jobGenerationSeq + 1)
  (id, { s with
    settledJobIds := s.settledJobIds.filter (· ≠ id)
    metadata := launch.subagent.elim s.metadata (s.metadata.set generation)
    manager := s.manager.admitJob launch.options })

def register (launch : Launch) (admissionToken : Option Nat) :
    Except RegisterError (Text × SubagentManager) :=
  if s.isFenced launch.ownerId then .error .ownerSubagentShutdown
  else
    match admissionToken with
    | some token =>
      match s.consumeAdmission token with
      | none => .error .invalidAdmission
      | some s => .ok (s.enter launch)
    | none => if s.hasCapacity then .ok (s.enter launch) else .error .limitReached

def recordByJobId (jobId : Text) (generation : Generation) : Option (Text × SubagentRecord) :=
  s.subagentRecords.entries.find? fun entry =>
    entry.2.currentJobId = some jobId && entry.2.currentJobGeneration = some generation

/-- `#markRecordPaused` and `#markRecordTerminal`. -/
def markRecord (jobId : Text) (generation : Generation) (status : SubagentLifecycle) :
    SubagentManager :=
  match s.recordByJobId jobId generation with
  | none => s
  | some (subagentId, record) =>
    { s with subagentRecords := s.subagentRecords.set subagentId { record with status } }

variable (subagentId : Text)

def getResumeDescriptor (filter : Option Text) : Option ResumeDescriptor :=
  (s.resumeDescriptors.get? (trim subagentId)).filter (matchesOwner filter ·.ownerId)

def recordFromResumeDescriptor (descriptor : ResumeDescriptor) : SubagentRecord where
  ownerId := descriptor.ownerId
  currentJobId := none
  currentJobGeneration := none
  status := .completed
  sessionFile := descriptor.sessionFile.filter fun file => isSessionFile (some file)
  resumable := true
  queued := none

def getSubagentRecord (filter : Option Text) : Option SubagentRecord × SubagentManager :=
  match s.subagentRecords.get? (trim subagentId) with
  | some record => (if matchesOwner filter record.ownerId then some record else none, s)
  | none =>
    match s.getResumeDescriptor (trim subagentId) filter with
    | none => (none, s)
    | some descriptor =>
      let record := recordFromResumeDescriptor descriptor
      (some record, { s with
        subagentRecords := s.subagentRecords.set (trim subagentId) record })

def descriptorForRecord (record : SubagentRecord) : Option ResumeDescriptor :=
  (s.resumeDescriptors.get? subagentId).filter (·.ownerId = record.ownerId)

/-- `#resolveResumeRunner` finds a runner. -/
def hasResumeRunner (record : SubagentRecord) : Bool :=
  (s.descriptorForRecord subagentId record).isSome &&
    s.descriptorResumeRunners.contains subagentId || s.resumeRunner

def publishQueuedTerminal (subagentId : Text) (seq : Nat) (status : JobStatus) : SubagentManager :=
  if s.manager.waits.publishedTerminalGenerations.contains (.queued subagentId seq) then s
  else
    let record := s.subagentRecords.get? subagentId
    let waits := s.manager.waits.publishQueuedTerminal s.manager.table (.queued subagentId seq)
      (record.bind (·.ownerId)) status
    { s with
      subagentRecords := record.elim s.subagentRecords fun record =>
        s.subagentRecords.set subagentId
          { record with currentJobId := none, status := .ofJob status, queued := none }
      manager := { s.manager with waits } }

/-- The record of a resume that has started, and the name under which its queued generation is
known. -/
def resumed (record : SubagentRecord) (jobId : Text) : SubagentManager :=
  let job := s.manager.table.get jobId
  let aliases := s.manager.waits.waitGenerationAliases
  { s with
    subagentRecords := s.subagentRecords.set subagentId
      { record with
        currentJobId := some jobId
        currentJobGeneration := job.map (·.generation)
        status := job.elim .running (.ofJob ·.status)
        queued := none }
    manager := { s.manager with waits := { s.manager.waits with
      waitGenerationAliases := match record.queued, job with
        | some queued, some job => aliases.set (.queued subagentId queued.seq) job.generation
        | _, _ => aliases } } }

variable (runner : ResumeRunner)

/-- `#startResume`: it throws, or the runner fails, or the job of the resume runs. -/
def startResume (subagentId : Text) (record : SubagentRecord)
    (message : Option Text) : Except RegisterError (Option SubagentManager) :=
  if s.isFenced record.ownerId then .error .ownerSubagentShutdown
  else if !s.hasResumeRunner subagentId record then .ok none
  else
    match runner subagentId message with
    | none => .ok none
    | some launch =>
      match s.register launch none with
      | .error error => .error error
      | .ok (jobId, next) => .ok (some (next.resumed subagentId record jobId))

def failQueued (subagentId : Text) (record : SubagentRecord) : SubagentManager :=
  record.queued.elim s fun queued => s.publishQueuedTerminal subagentId queued.seq .failed

/-- The loop of `#drainResumeQueue` over the entries from its index on, and the entries that it
leaves. -/
def drainEntries (runner : ResumeRunner) :
    List ResumeQueueEntry → SubagentManager → List ResumeQueueEntry × SubagentManager
  | [], s => ([], s)
  | entry :: rest, s =>
    if s.manager.table.maxRunningJobs ≤ s.running then (entry :: rest, s)
    else
      match s.subagentRecords.get? entry.subagentId with
      | none => drainEntries runner rest s
      | some record =>
        if record.status ≠ .queued then drainEntries runner rest s
        else if s.isFenced entry.ownerId then
          (drainEntries runner rest s).map (entry :: ·) id
        else
          match s.startResume runner entry.subagentId record entry.message with
          | .ok (some next) => drainEntries runner rest next
          | .error .ownerSubagentShutdown => (drainEntries runner rest s).map (entry :: ·) id
          | _ => drainEntries runner rest (s.failQueued entry.subagentId record)

def drainResumeQueue : SubagentManager :=
  let drained := drainEntries runner (s.resumeQueue.insertionSort fun a b => a.seq ≤ b.seq) s
  { drained.2 with resumeQueue := drained.1 }

/-- `rec.queued.message = message`, and the same in the queue. -/
def setQueuedMessage (subagentId : Text) (record : SubagentRecord) (message : Text) :
    SubagentManager :=
  { s with
    subagentRecords := s.subagentRecords.set subagentId
      { record with queued := record.queued.map fun queued => { queued with
        message := some message } }
    resumeQueue := match s.resumeQueue.findIdx? (·.subagentId = subagentId) with
      | none => s.resumeQueue
      | some index =>
          s.resumeQueue.modify index fun entry => { entry with message := some message } }

def enqueueResume (subagentId : Text) (record : SubagentRecord) (message : Option Text) :
    SubagentManager :=
  let seq := s.resumeSeq + 1
  { s with
    resumeSeq := seq
    subagentRecords := s.subagentRecords.set subagentId
      { record with status := .queued, queued := some ⟨record.ownerId, seq, message⟩ }
    resumeQueue := s.resumeQueue ++ [⟨subagentId, record.ownerId, seq, message⟩] }

/-- `resumeSubagent` of a subagent that has a record. -/
def resumeRecord (subagentId : Text) (record : SubagentRecord) (message : Option Text) :
    SubagentManager :=
  if s.isFenced record.ownerId then s
  else
    match record.status with
    | .running => s
    | .queued =>
      match message, record.queued with
      | some message, some _ => s.setQueuedMessage subagentId record message
      | _, _ => s
    | _ =>
      if !hasRetainedResumeContext record.resumable record.sessionFile
          (s.descriptorForRecord subagentId record) then s
      else if !s.hasResumeRunner subagentId record then s
      else if s.manager.table.maxRunningJobs ≤ s.running then
        s.enqueueResume subagentId record message
      else
        match s.startResume runner subagentId record message with
        | .ok (some next) => next
        | _ => s

def resumeSubagent (subagentId : Text) (filter message : Option Text) : SubagentManager :=
  match s.getSubagentRecord subagentId filter with
  | (none, s) => s
  | (some record, s) => s.resumeRecord runner (trim subagentId) record message

variable (jobId : Text)

def forgetEvicted : SubagentManager :=
  if s.manager.table.retentionMs = 0 then
    { s with settledJobIds := s.settledJobIds.filter (· ≠ jobId) }
  else s

def scheduleEviction (jobId : Text) : SubagentManager :=
  { s.forgetEvicted jobId with manager := s.manager.scheduleEviction jobId }

def evictionTimer (jobId : Text) : SubagentManager :=
  { s with
    manager := s.manager.evictionTimer jobId
    settledJobIds :=
      if (s.manager.table.evictionTimers.get? jobId).any (· ≤ s.manager.table.now) then
        s.settledJobIds.filter (· ≠ jobId)
      else s.settledJobIds }

def lifecycleAfter (job : AsyncJob) (outcome : AsyncJobManager.RunOutcome) : SubagentLifecycle :=
  if job.status = .cancelled then .cancelled
  else
    match outcome with
    | .completed _ => .completed
    | .failed _ => .failed
    | .paused => .paused

/-- The terminal path of a run that was not failed from outside, until it drains the queue. -/
def settleRun (job : AsyncJob) (generation : Generation) (outcome : AsyncJobManager.RunOutcome) :
    SubagentManager :=
  let ended := { s with manager := s.manager.runEnds generation outcome }
  if generation ∈ s.manager.table.externallySettled then ended
  else
    let status := lifecycleAfter job outcome
    let marked := ended.markRecord job.id generation status
    if status = .paused then marked else marked.forgetEvicted job.id

def runEnds (generation : Generation) (outcome : AsyncJobManager.RunOutcome) : SubagentManager :=
  match s.manager.table.objects.get? generation with
  | none => s
  | some job =>
    if generation ∉ s.manager.table.unsettled then s
    else
      let drained := (s.settleRun job generation outcome).drainResumeQueue runner
      { drained with settledJobIds := drained.settledJobIds.insert job.id }

/-- `failNow` of a job that runs, until it drains the queue. -/
def settleFailed (generation : Generation) (errorText : Text) : SubagentManager :=
  let failed := { s with manager := s.manager.failNow jobId generation errorText }
  (failed.markRecord jobId generation .failed).forgetEvicted jobId

def failNow (generation : Generation) (errorText : Text) : SubagentManager :=
  match s.manager.table.get jobId with
  | none => s
  | some job =>
    if job.generation ≠ generation ∨ job.status ≠ .running ∨
        generation ∈ s.manager.table.externallySettled then s
    else (s.settleFailed jobId generation errorText).drainResumeQueue runner

variable (id : Text)

/-- `cancel` of a job, and what it returns. -/
def cancelJob (filter : Option Text) : Bool × SubagentManager :=
  match s.manager.table.get id with
  | none => (false, s)
  | some job =>
    if !s.manager.cancels id filter then (false, s)
    else
      let cancelled := { s with manager := s.manager.cancel id filter }
      let marked := cancelled.markRecord id job.generation .cancelled
      (true, if job.status = .paused then (marked.forgetEvicted id).drainResumeQueue runner
        else marked)

/-- `cancelSubagent` of a queued resume. -/
def cancelQueued (subagentId : Text) (record : SubagentRecord) : SubagentManager :=
  let removed := { s with
    resumeQueue := s.resumeQueue.eraseP (·.subagentId = subagentId)
    subagentRecords := s.subagentRecords.set subagentId { record with status := .cancelled } }
  let published := record.queued.elim removed fun queued =>
    removed.publishQueuedTerminal subagentId queued.seq .cancelled
  { published with
    subagentRecords := published.subagentRecords.mapValues fun key record =>
      if key = subagentId then { record with queued := none } else record }

/-- The subagent of an id `queued:subagent:seq`. -/
def queuedSubagentId : Text :=
  (((id.drop "queued:".length).reverse.dropWhile (· ≠ ':')).drop 1).reverse

/-- `cancel`, which also takes the id of a queued resume. -/
def cancel (filter : Option Text) : Bool × SubagentManager :=
  if startsWith id "queued:".toList then
    let subagentId := queuedSubagentId id
    if subagentId = [] then (false, s)
    else
      match s.getSubagentRecord subagentId none with
      | (none, s) => (false, s)
      | (some record, s) =>
        if record.status = .queued ∧ matchesOwner filter record.ownerId then
          (true, s.cancelQueued (trim subagentId) record)
        else (false, s)
  else s.cancelJob runner id filter

/-- `cancelSubagent` of a paused subagent, whose run is over. -/
def cancelPaused (subagentId : Text) (record : SubagentRecord) : SubagentManager :=
  let settled :=
    match record.currentJobId.bind s.manager.table.get with
    | none => s
    | some job =>
      if job.status ≠ JobStatus.paused then s
      else
        let cancelled :=
          { s.manager with table := s.manager.table.setStatus job.generation .cancelled }
        { s with manager := cancelled.publishTerminal job.generation }.scheduleEviction job.id
  let marked := { settled with
    subagentRecords := settled.subagentRecords.set subagentId { record with status := .cancelled } }
  marked.drainResumeQueue runner

def cancelSubagent (subagentId : Text) (filter : Option Text) : SubagentManager :=
  match s.getSubagentRecord subagentId filter with
  | (none, s) => s
  | (some record, s) =>
    match record.status with
    | .running => record.currentJobId.elim s fun jobId => (s.cancel runner jobId filter).2
    | .paused => s.cancelPaused runner (trim subagentId) record
    | .queued => s.cancelQueued (trim subagentId) record
    | _ => s

def cancelAll (filter : Option Text) : SubagentManager :=
  (s.manager.table.getRunningJobs filter).foldl (fun s job =>
      match s.cancel runner job.id filter with
      | (true, s) => s.scheduleEviction job.id
      | (false, s) => s) s

structure Collected where
  targets : OrderedMap Text OwnerSubagentShutdownTarget
  backingJobIds : OrderedMap Text (List Text)

def Collected.addBackingJob (c : Collected) (subagentId : Text) (jobId : Option Text) : Collected :=
  jobId.elim c fun jobId =>
    { c with
      backingJobIds := c.backingJobIds.set subagentId
        (((c.backingJobIds.get? subagentId).getD []).insert jobId) }

variable (ownerId : Text)

def Collected.addRecord (c : Collected) (entry : Text × SubagentRecord) : Collected :=
  let (subagentId, record) := entry
  if record.ownerId ≠ some ownerId ∨ record.status.terminal then c
  else
    let jobId := if record.status = .queued then none else record.currentJobId
    { c with targets := c.targets.set subagentId ⟨subagentId, jobId, .record⟩ }.addBackingJob
      subagentId jobId

def Collected.addJob (s : SubagentManager) (ownerId : Text) (c : Collected) (job : AsyncJob) :
    Collected :=
  match s.metadata.get? job.generation with
  | none => c
  | some subagentId =>
    if job.ownerId ≠ some ownerId ∨ subagentId = [] ∨
        (job.status ≠ .running ∧ job.status ≠ .paused ∧ job.status ≠ .cancelled) then c
    else if job.status = .cancelled ∧ job.id ∈ s.settledJobIds ∧
        s.subagentRecords.has subagentId = false then c
    else
      let targets :=
        if c.targets.has subagentId then c.targets
        else c.targets.set subagentId ⟨subagentId, some job.id, .metadataJob⟩
      { c with targets }.addBackingJob subagentId (some job.id)

def collect : Collected :=
  (s.manager.table.jobs.keys.filterMap s.manager.table.get).foldl (Collected.addJob s ownerId)
    (s.subagentRecords.entries.foldl (Collected.addRecord ownerId) ⟨.empty, .empty⟩)

def beginOwnerSubagentShutdown (ownerId : Text) : SubagentManager :=
  if ownerId = [] ∨ s.ownerSubagentShutdownLeases.has ownerId then s
  else
    let id := s.ownerSubagentShutdownSeq + 1
    let collected := s.collect ownerId
    { s with
      manager := s.manager.step (.beginOwnerSubagentShutdown ownerId)
      ownerSubagentShutdownSeq := id
      ownerSubagentShutdownLeases := s.ownerSubagentShutdownLeases.set ownerId
        ⟨id, collected.targets.values, collected.backingJobIds, .active, none⟩ }

def setLease (lease : OwnerSubagentShutdownLease) : SubagentManager :=
  { s with ownerSubagentShutdownLeases := s.ownerSubagentShutdownLeases.set ownerId lease }

/-- One target of a lease: the promises of its jobs are captured, and it is cancelled. -/
def proveTarget (lease : OwnerSubagentShutdownLease)
    (acc : List (Text × Generation) × SubagentManager) (target : OwnerSubagentShutdownTarget) :
    List (Text × Generation) × SubagentManager :=
  let s := acc.2
  let jobIds := (lease.backingJobIds.get? target.subagentId).getD []
  let captured := jobIds.filterMap fun jobId =>
    ((s.manager.table.get jobId).filter (·.ownerId = some ownerId)).map fun job =>
      (jobId, job.generation)
  let s :=
    if target.source = .record then s.cancelSubagent runner target.subagentId (some ownerId) else s
  (acc.1 ++ captured, jobIds.foldl (fun s jobId => (s.cancel runner jobId (some ownerId)).2) s)

/-- `cancelAndProveOwnerSubagents` until it waits.  A lease that is lost, or has a confirmed proof,
has its answer at once. -/
def startProof (leaseId : Nat) : SubagentManager :=
  match s.ownerSubagentShutdownLeases.get? ownerId with
  | none => s
  | some lease =>
    if lease.id ≠ leaseId then s
    else if lease.phase = .proved ∧ lease.proof.any (·.confirmed) then s
    else
      let proved := lease.targets.foldl (proveTarget runner ownerId lease)
        ([], s.setLease ownerId { lease with phase := .proving })
      { proved.2 with
        provingSeq := proved.2.provingSeq + 1
        provingCalls := proved.2.provingCalls.set (proved.2.provingSeq + 1)
          ⟨ownerId, leaseId, proved.1, []⟩ }

def promiseSettles (call : Nat) (jobId : Text) (generation : Generation) : SubagentManager :=
  match s.provingCalls.get? call with
  | none => s
  | some proving =>
    if (jobId, generation) ∈ proving.captured ∧ generation ∉ s.manager.table.unsettled then
      let noted := { proving with settled := proving.settled.insert jobId }
      { s with provingCalls := s.provingCalls.set call noted }
    else s

def hasTerminalShutdownEvidence (lease : OwnerSubagentShutdownLease)
    (settled : List Text) (target : OwnerSubagentShutdownTarget) : Bool :=
  (s.subagentRecords.get? target.subagentId).any (fun record =>
    decide (record.ownerId = some ownerId) && record.status.terminal) &&
  ((lease.backingJobIds.get? target.subagentId).getD []).all fun jobId =>
    settled.contains jobId && (s.manager.table.get jobId).all fun job =>
      decide (job.ownerId = some ownerId)

def ownerSubagentShutdownProof (lease : OwnerSubagentShutdownLease)
    (reason : ShutdownReason) (unresolvedIds : List Text) : OwnerSubagentShutdownProof where
  ownerId := ownerId
  leaseId := lease.id
  reason := reason
  targets := lease.targets
  terminalIds := (lease.targets.map (·.subagentId)).filter fun id => !unresolvedIds.contains id
  unresolvedIds := unresolvedIds

def proofOf (call : ProvingCall) (deadlineExceeded : Bool) : Option OwnerSubagentShutdownProof :=
  match s.ownerSubagentShutdownLeases.get? call.ownerId with
  | none => none
  | some lease =>
    if lease.id ≠ call.leaseId ∨ lease.phase ≠ .proving then none
    else
      let unresolvedIds := (lease.targets.filter fun target =>
        !s.hasTerminalShutdownEvidence call.ownerId lease call.settled target).map (·.subagentId)
      let reason :=
        if unresolvedIds = [] then ShutdownReason.confirmed
        else if deadlineExceeded then .deadlineExceeded
        else .missingTerminalEvidence
      some (ownerSubagentShutdownProof call.ownerId lease reason unresolvedIds)

/-- A call waits until every promise that it captured has settled, or its deadline has passed. -/
def proofReady (call : ProvingCall) (deadlineExceeded : Bool) : Bool :=
  deadlineExceeded || call.captured.all fun entry => call.settled.contains entry.1

/-- `cancelAndProveOwnerSubagents` after it has waited. -/
def returnProof (call : Nat) (deadlineExceeded : Bool) : SubagentManager :=
  match s.provingCalls.get? call with
  | none => s
  | some proving =>
    if !proofReady proving deadlineExceeded then s
    else
      let returned := { s with provingCalls := s.provingCalls.erase call }
      match s.proofOf proving deadlineExceeded,
        s.ownerSubagentShutdownLeases.get? proving.ownerId with
      | some proof, some lease =>
        returned.setLease proving.ownerId { lease with phase := .proved, proof := some proof }
      | _, _ => returned

def purgeOwnerSubagentState : SubagentManager :=
  let owned := fun subagentId =>
    (s.subagentRecords.get? subagentId).any fun record => decide (record.ownerId = some ownerId)
  { s with
    resumeQueue := s.resumeQueue.filter (·.ownerId ≠ some ownerId)
    resumeDescriptors := s.resumeDescriptors.retain fun subagentId _ => !owned subagentId
    descriptorResumeRunners := s.descriptorResumeRunners.filter fun subagentId => !owned subagentId
    subagentRecords := s.subagentRecords.retain fun _ record =>
      decide (record.ownerId ≠ some ownerId) }

def finishOwnerSubagentShutdown (ownerId : Text) (leaseId : Nat) (commit : Bool) :
    SubagentManager :=
  match s.ownerSubagentShutdownLeases.get? ownerId with
  | none => s
  | some lease =>
    if lease.id ≠ leaseId then s
    else
      let committed := commit && lease.proof.any (·.confirmed)
      let purged := if committed then s.purgeOwnerSubagentState ownerId else s
      { purged with
        manager := s.manager.finishOwnerSubagentShutdown ownerId committed
        ownerSubagentShutdownLeases := s.ownerSubagentShutdownLeases.erase ownerId }

/-- A launch of a subagent by the task tool: in the turn in which `register` returns, it registers
the descriptor and the record of the subagent. -/
def launchSubagent (launch : Launch) (admissionToken : Option Nat) (subagentId : Text)
    (sessionFile : Option Text) : SubagentManager :=
  match s.register launch admissionToken with
  | .error _ => s
  | .ok (jobId, s) =>
    let job := s.manager.table.get jobId
    { s with
      resumeDescriptors := s.resumeDescriptors.set subagentId ⟨launch.ownerId, sessionFile⟩
      descriptorResumeRunners := s.descriptorResumeRunners.insert subagentId
      subagentRecords := s.subagentRecords.set subagentId
        { ownerId := launch.ownerId
          currentJobId := some jobId
          currentJobGeneration := job.map (·.generation)
          status := job.elim .running (.ofJob ·.status)
          sessionFile
          resumable := true
          queued := none } }

end SubagentManager

def AsyncJobManager.Step.aside : AsyncJobManager.Step → Bool
  | .tick _ | .subscribeTerminalWait .. | .acknowledgeWait .. | .closeWait _ | .pruneTerminalEvents
  | .startDelivery _ | .callbackReturns _ | .callbackThrows .. | .acknowledgeDeliveries _
  | .watchJobs _ | .unwatchJobs _ | .watchJobGenerations _ | .closeWatch
      _ | .retainParkedDelivery ..
  | .clearParkedDelivery _ | .retainDeliveryClaim _ | .releaseDeliveryClaim _ | .getDeliveryState
  | .getJobsSnapshot => true
  | _ => false

inductive SubagentStep where
  | aside (step : AsyncJobManager.Step)
  | reserveCapacity
  | releaseCapacity (token : Nat)
  | register (launch : Launch) (admissionToken : Option Nat)
  | launchSubagent (launch : Launch) (admissionToken : Option Nat) (subagentId : Text)
      (sessionFile : Option Text)
  | setResumeRunner
  | runEnds (runner : ResumeRunner) (generation : Generation) (outcome : AsyncJobManager.RunOutcome)
  | failNow (runner : ResumeRunner) (jobId : Text) (generation : Generation) (errorText : Text)
  | evictionTimer (jobId : Text)
  | getSubagentRecord (subagentId : Text) (filter : Option Text)
  | resumeSubagent (runner : ResumeRunner) (subagentId : Text) (filter message : Option Text)
  | cancel (runner : ResumeRunner) (id : Text) (filter : Option Text)
  | cancelSubagent (runner : ResumeRunner) (subagentId : Text) (filter : Option Text)
  | cancelAll (runner : ResumeRunner) (filter : Option Text)
  | beginOwnerSubagentShutdown (ownerId : Text)
  | startProof (runner : ResumeRunner) (ownerId : Text) (leaseId : Nat)
  | promiseSettles (call : Nat) (jobId : Text) (generation : Generation)
  | returnProof (call : Nat) (deadlineExceeded : Bool)
  | finishOwnerSubagentShutdown (ownerId : Text) (leaseId : Nat) (commit : Bool)

namespace SubagentManager

/-- `getSubagentRecord` also stands for `pauseSubagent`, which looks a record up and asks its run to
pause. -/
def step (s : SubagentManager) : SubagentStep → SubagentManager
  | .aside step => if step.aside then { s with manager := s.manager.step step } else s
  | .reserveCapacity => s.reserveCapacity
  | .releaseCapacity token => s.releaseCapacity token
  | .register launch admissionToken =>
    match s.register launch admissionToken with
    | .error _ => s
    | .ok (_, next) => next
  | .launchSubagent launch admissionToken subagentId sessionFile =>
    s.launchSubagent launch admissionToken subagentId sessionFile
  | .setResumeRunner => { s with resumeRunner := true }
  | .runEnds runner generation outcome => s.runEnds runner generation outcome
  | .failNow runner jobId generation errorText => s.failNow runner jobId generation errorText
  | .evictionTimer jobId => s.evictionTimer jobId
  | .getSubagentRecord subagentId filter => (s.getSubagentRecord subagentId filter).2
  | .resumeSubagent runner subagentId filter message =>
    s.resumeSubagent runner subagentId filter message
  | .cancel runner id filter => (s.cancel runner id filter).2
  | .cancelSubagent runner subagentId filter => s.cancelSubagent runner subagentId filter
  | .cancelAll runner filter => s.cancelAll runner filter
  | .beginOwnerSubagentShutdown ownerId => s.beginOwnerSubagentShutdown ownerId
  | .startProof runner ownerId leaseId => s.startProof runner ownerId leaseId
  | .promiseSettles call jobId generation => s.promiseSettles call jobId generation
  | .returnProof call deadlineExceeded => s.returnProof call deadlineExceeded
  | .finishOwnerSubagentShutdown ownerId leaseId commit =>
    s.finishOwnerSubagentShutdown ownerId leaseId commit

end SubagentManager

end Vibrato.Jobs
