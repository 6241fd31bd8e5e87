import Vibrato.Jobs.Deliveries

/-! The operations of `AsyncJobManager` on its table of jobs, its terminal waits, and its queue of
deliveries, and the runs of a manager that is not disposed. -/

namespace Vibrato.Jobs

open Lib DeliveryQueue

structure TerminalEvent where
  generation : Generation
  jobId : Option Text
  ownerId : Option Text
  status : JobStatus
  createdAt : Int

/-- A target names a job, or a queued resume, which has no job id. -/
structure AsyncJobWaitTarget where
  targetId : Text
  jobId : Option Text
  generation : Generation
  deriving DecidableEq

inductive AsyncJobWaitCondition where
  | allTerminal
  | anyTerminal
  deriving DecidableEq

inductive AsyncJobWaitOutcome where
  | completed
  | interrupted
  deriving DecidableEq

structure AsyncJobWaitResult where
  outcome : AsyncJobWaitOutcome
  condition : AsyncJobWaitCondition
  terminalJobIds : List Text
  pendingJobIds : List Text
  deriving DecidableEq

structure TerminalWait where
  targets : List AsyncJobWaitTarget
  condition : AsyncJobWaitCondition
  result : Option AsyncJobWaitResult
  acknowledged : Bool
  deriving DecidableEq

/-- `handles` holds every wait by its token, settled or not. -/
structure TerminalWaits where
  terminalEvents : OrderedMap Generation TerminalEvent
  waitGenerationAliases : OrderedMap Generation Generation
  publishedTerminalGenerations : List Generation
  deliveryAckOwners : OrderedMap Generation Nat
  waitSeq : Nat
  handles : OrderedMap Nat TerminalWait

namespace TerminalWaits

def eventRetentionMs (t : JobTable) : Nat := max t.retentionMs 300000

def isExpired (t : JobTable) (event : TerminalEvent) : Bool :=
  event.createdAt < t.now - eventRetentionMs t

variable (w : TerminalWaits)

variable (t : JobTable)

def pruneTerminalEvents : TerminalWaits :=
  let expired := fun g => (w.terminalEvents.get? g).any (isExpired t)
  { w with
    terminalEvents := w.terminalEvents.retain fun _ event => !isExpired t event
    publishedTerminalGenerations := w.publishedTerminalGenerations.filter fun g => !expired g
    deliveryAckOwners := w.deliveryAckOwners.retain fun g _ => !expired g }

/-- `#eventForTarget`, after it has pruned the events. -/
def eventForTarget (target : AsyncJobWaitTarget) : Option TerminalEvent :=
  match w.waitGenerationAliases.get? target.generation with
  | some generation => w.terminalEvents.get? generation
  | none =>
    match target.jobId.bind t.get with
    | some job =>
      if job.generation ≠ target.generation then none
      else if job.status.terminal then
        some
          { generation := job.generation
            jobId := some job.id
            ownerId := job.ownerId
            status := job.status
            createdAt := job.endTime.getD t.now }
      else none
    | none => w.terminalEvents.get? target.generation

def resultForWait (wait : TerminalWait) (outcome : AsyncJobWaitOutcome) : AsyncJobWaitResult :=
  { outcome
    condition := wait.condition
    terminalJobIds := (wait.targets.filter fun target => (w.eventForTarget t target).isSome).map
      (·.targetId)
    pendingJobIds := (wait.targets.filter fun target => (w.eventForTarget t target).isNone).map
      (·.targetId) }

def pruneFor (targets : List AsyncJobWaitTarget) : TerminalWaits :=
  if targets = [] then w else w.pruneTerminalEvents t

def conditionMet (wait : TerminalWait) : Bool :=
  let terminalCount := (wait.targets.filter fun target => (w.eventForTarget t target).isSome).length
  match wait.condition with
  | .allTerminal => terminalCount = wait.targets.length
  | .anyTerminal => terminalCount ≠ 0

def maybeResolveWait (w : TerminalWaits) (token : Nat) : TerminalWaits :=
  match w.handles.get? token with
  | none => w
  | some wait =>
    if wait.result.isSome then w
    else
      let w := w.pruneFor t wait.targets
      if w.conditionMet t wait then
        { w with
          handles := w.handles.set token
            { wait with result := some (w.resultForWait t wait .completed) } }
      else w

def resolveWaits (concerns : AsyncJobWaitTarget → Bool) : TerminalWaits :=
  (w.handles.entries.filter fun entry => entry.2.targets.any concerns).foldl
    (fun w entry => maybeResolveWait t w entry.1) w

def publish (event : TerminalEvent) (concerns : AsyncJobWaitTarget → Bool) : TerminalWaits :=
  if w.publishedTerminalGenerations.contains event.generation then w
  else
    resolveWaits
      { w with
        publishedTerminalGenerations := w.publishedTerminalGenerations ++ [event.generation]
        terminalEvents := w.terminalEvents.set event.generation event } t concerns

def publishTerminal (job : AsyncJob) : TerminalWaits :=
  if !job.status.terminal then w
  else
    w.publish t
      { generation := job.generation
        jobId := some job.id
        ownerId := job.ownerId
        status := job.status
        createdAt := t.now }
      fun target => decide (target.generation = job.generation) ||
        decide (target.jobId = some job.id) ||
        decide (w.waitGenerationAliases.get? target.generation = some job.generation)

def publishQueuedTerminal (generation : Generation) (ownerId : Option Text) (status : JobStatus) :
    TerminalWaits :=
  w.publish t { generation, jobId := none, ownerId, status, createdAt := t.now }
    fun target => decide (target.generation = generation) ||
      decide (w.waitGenerationAliases.get? target.generation = some generation)

def dedupTargets (targets : List AsyncJobWaitTarget) : List AsyncJobWaitTarget :=
  targets.foldl (fun kept target =>
    if kept.any (·.generation = target.generation) then kept else kept ++ [target]) []

def subscribeTerminalWait (targets : List AsyncJobWaitTarget) (condition : AsyncJobWaitCondition) :
    TerminalWaits :=
  let token := w.waitSeq + 1
  maybeResolveWait t
    { w with
      waitSeq := token
      handles := w.handles.set token ⟨dedupTargets targets, condition, none, false⟩ } token

/-- `handle.close`. -/
def closeWait (token : Nat) : TerminalWaits :=
  match w.handles.get? token with
  | none => w
  | some wait =>
    if wait.result.isSome then w
    else
      let w := w.pruneFor t wait.targets
      { w with
        handles := w.handles.set token
          { wait with result := some (w.resultForWait t wait .interrupted) } }

end TerminalWaits

structure AsyncJobManager where
  table : JobTable
  waits : TerminalWaits
  queue : DeliveryQueue

namespace AsyncJobManager

def create (now : Int) (retentionMs maxRunningJobs maxDeadLetterOverflowOwners : Nat) :
    AsyncJobManager where
  table :=
    { now, retentionMs, maxRunningJobs
      jobGenerationSeq := 0
      objects := .empty
      jobs := .empty
      evictionTimers := .empty
      unsettled := []
      externallySettled := [] }
  waits :=
    { terminalEvents := .empty
      waitGenerationAliases := .empty
      publishedTerminalGenerations := []
      deliveryAckOwners := .empty
      waitSeq := 0
      handles := .empty }
  queue :=
    { maxDeadLetterOverflowOwners
      deliveries := []
      inFlightDeliveries := []
      suppressedDeliveries := []
      suppressedDeliveryJobIds := .empty
      watchedJobs := .empty
      watchedGenerations := .empty
      deliveryFailures := .empty
      deadLetteredDeliveries := .empty
      deadLetteredDeliveryOwners := .empty
      deadLetterOverflowByOwner := .empty
      evictedDeadLetters := .empty
      parkedDeliveries := .empty
      receiptClaims := .empty
      ownerSubagentShutdownLeases := [] }

variable (m : AsyncJobManager)

def isTaken (id : Text) : Bool :=
  m.table.jobs.has id || m.queue.hasDeliveryCollisionForJobId id

def takenBound : Nat :=
  m.table.jobs.size + m.queue.deliveries.length + m.queue.inFlightDeliveries.length +
    m.queue.parkedDeliveries.size + m.queue.receiptClaims.size +
    m.queue.suppressedDeliveryJobIds.size + m.queue.deadLetteredDeliveries.size +
    m.queue.evictedDeadLetters.size

/-- The loops of `#resolveJobId` over numbered names. -/
def firstFree (taken : Text → Bool) (name : Nat → Text) : Nat → Nat → Text
  | 0, k => name k
  | fuel + 1, k => if taken (name k) then firstFree taken name fuel (k + 1) else name k

def resolveJobId (preferredId : Option Text) : Text :=
  let base := Text.trim (preferredId.getD [])
  if base = [] then
    firstFree m.isTaken (fun k => "bg_".toList ++ Text.ofNat k) m.takenBound 1
  else if !m.isTaken base then base
  else firstFree m.isTaken (fun k => base ++ '-' :: Text.ofNat k) m.takenBound 2

variable (jobId : Text)

def evictJob : AsyncJobManager :=
  let job := m.table.get jobId
  { table := { m.table with jobs := m.table.jobs.erase jobId }
    waits := { m.waits with
      publishedTerminalGenerations := m.waits.publishedTerminalGenerations.filter fun g =>
        (job.map (·.generation)) ≠ some g }
    queue := m.queue.evictRecord m.table.now jobId job }

def scheduleEviction : AsyncJobManager :=
  if m.table.retentionMs = 0 then m.evictJob jobId
  else
    { m with table := { m.table with
        evictionTimers := m.table.evictionTimers.set jobId (m.table.now + m.table.retentionMs) } }

def evictionTimer : AsyncJobManager :=
  match m.table.evictionTimers.get? jobId with
  | none => m
  | some due =>
    if m.table.now < due then m
    else
      { m with table := { m.table with
          evictionTimers := m.table.evictionTimers.erase jobId } }.evictJob jobId

def publishTerminal (m : AsyncJobManager) (generation : Generation) : AsyncJobManager :=
  match m.table.objects.get? generation with
  | none => m
  | some job => { m with waits := m.waits.publishTerminal m.table job }

def enqueueDelivery (m : AsyncJobManager) (jobId text : Text) : AsyncJobManager :=
  { m with queue := m.queue.enqueueDelivery m.table jobId text }

/-- A job ends as completed or failed: its terminal state is published and its text delivered. -/
def finishJob (job : AsyncJob) (status : JobStatus) (text : Text) : AsyncJobManager :=
  let m := { m with table := m.table.setStatus job.generation status }
  let m := m.publishTerminal job.generation
  let m := m.enqueueDelivery job.id text
  m.scheduleEviction job.id

structure RegisterOptions where
  preferredId : Option Text
  ownerId : Option Text
  /-- A reserved capacity is consumed. -/
  admitted : Bool
  /-- `run` throws before it returns a promise. -/
  throws : Option Text

def refuses (options : RegisterOptions) : Bool :=
  (options.ownerId.any fun owner => m.queue.ownerSubagentShutdownLeases.contains owner) ||
    (!options.admitted && decide (m.table.maxRunningJobs ≤ (m.table.getRunningJobs none).length))

def register (options : RegisterOptions) : AsyncJobManager :=
  if m.refuses options then m
  else
    let id := m.resolveJobId options.preferredId
    let generation := Generation.job (m.table.jobGenerationSeq + 1)
    let job : AsyncJob := ⟨id, generation, .running, options.ownerId, none⟩
    let m := { m with table := { m.table with
      jobGenerationSeq := m.table.jobGenerationSeq + 1
      objects := m.table.objects.set generation job
      unsettled := m.table.unsettled ++ [generation] } }
    let m := match options.throws with
      | none => m
      | some text =>
        let m := m.finishJob job .failed text
        { m with table := { m.table with unsettled := m.table.unsettled.erase generation } }
    { m with table := { m.table with jobs := m.table.jobs.set id generation } }

inductive RunOutcome where
  | completed (text : Text)
  | failed (text : Text)
  | paused
  deriving DecidableEq

def runEnds (generation : Generation) (outcome : RunOutcome) : AsyncJobManager :=
  match m.table.objects.get? generation with
  | none => m
  | some job =>
    if generation ∉ m.table.unsettled then m
    else
      let m' :=
        if generation ∈ m.table.externallySettled then m
        else if job.status = .cancelled then
          (m.publishTerminal generation).scheduleEviction job.id
        else
          match outcome with
          | .paused => { m with table := m.table.setStatus generation .paused }
          | .failed text => m.finishJob job .failed text
          | .completed text => m.finishJob job .completed text
      { m' with table := { m'.table with
          externallySettled := m'.table.externallySettled.erase generation
          unsettled := m'.table.unsettled.erase generation } }

def failNow (generation : Generation) (errorText : Text) : AsyncJobManager :=
  match m.table.get jobId with
  | none => m
  | some job =>
    if job.generation ≠ generation ∨ job.status ≠ .running ∨
        generation ∈ m.table.externallySettled then m
    else
      { m with table := { m.table with
          externallySettled := m.table.externallySettled ++ [generation] } }.finishJob job .failed
        errorText

/-- What `cancel` returns. -/
def cancels (id : Text) (filter : Option Text) : Bool :=
  (m.table.get id).any fun job => matchesOwner filter job.ownerId &&
    (decide (job.status = .paused) || decide (job.status = .running))

def cancel (id : Text) (filter : Option Text) : AsyncJobManager :=
  match m.table.get id with
  | none => m
  | some job =>
    if !m.cancels id filter then m
    else
      let m := { m with table := m.table.setStatus job.generation .cancelled }
      let m := m.publishTerminal job.generation
      if job.status = .paused then m.scheduleEviction id else m

variable (filter : Option Text)

def cancelAll : AsyncJobManager :=
  (m.table.getRunningJobs filter).foldl (fun m job =>
      if m.cancels job.id filter then (m.cancel job.id filter).scheduleEviction job.id else m) m

/-- `#startResume` of a queued resume whose runner has registered a job. -/
def startResume (subagentId : Text) (seq : Nat) (options : RegisterOptions) : AsyncJobManager :=
  let next := m.register options
  if next.table.jobGenerationSeq = m.table.jobGenerationSeq then m
  else
    { next with waits := { next.waits with
        waitGenerationAliases := next.waits.waitGenerationAliases.set (.queued subagentId seq)
          (.job next.table.jobGenerationSeq) } }

def acknowledgedEvents (token : Nat) (targets : List AsyncJobWaitTarget) : List TerminalEvent :=
  (targets.filterMap (m.waits.eventForTarget m.table)).filter fun event =>
    (m.waits.deliveryAckOwners.get? event.generation).all fun owner => decide (owner = token)

/-- `handle.acknowledge`. -/
def acknowledgeWait (token : Nat) (targetIds : Option (List Text)) : AsyncJobManager :=
  match m.waits.handles.get? token with
  | none => m
  | some wait =>
    if wait.acknowledged then m
    else
      let targets := wait.targets.filter fun target =>
        targetIds.all fun ids => ids.contains target.targetId
      let m := { m with waits := m.waits.pruneFor m.table targets }
      let events := m.acknowledgedEvents token targets
      { m with
        waits := { m.waits with
          handles := m.waits.handles.set token { wait with acknowledged := true }
          deliveryAckOwners := events.foldl (fun owners e => owners.set e.generation token)
            m.waits.deliveryAckOwners }
        queue := (events.foldl (fun q e => q.suppressDelivery e.jobId e.generation)
          m.queue).dropAcknowledged }

/-- `#runDeliveryLoop` and `#deliverNextFiltered` take a delivery that is due out of the queue. -/
def startDelivery (index : Nat) : AsyncJobManager :=
  match m.queue.deliveries[index]? with
  | none => m
  | some d =>
    if m.queue.isDeliverySuppressed d.jobId d.generation || m.queue.isDeliveryFenced d ||
        decide (m.table.now < d.nextAttemptAt) then m
    else
      let queue := { m.queue with deliveries := m.queue.deliveries.eraseIdx index }
      { m with queue := queue.beginDelivery m.table d }

def callbackReturns (index : Nat) : AsyncJobManager :=
  { m with queue := { m.queue with
      inFlightDeliveries := m.queue.inFlightDeliveries.eraseIdx index } }

def callbackThrows (index : Nat) (error : Text) (jitterMs : Nat) : AsyncJobManager :=
  match m.queue.inFlightDeliveries[index]? with
  | none => m
  | some d =>
    let queue := { m.queue with
      inFlightDeliveries := m.queue.inFlightDeliveries.eraseIdx index }
    { m with queue := queue.failDelivery m.table d error jitterMs }

def acknowledgeDeliveries (m : AsyncJobManager) (jobIds : List Text) : AsyncJobManager :=
  { m with queue := m.queue.acknowledgeDeliveries m.table jobIds }

/-- `retainParkedDelivery` of the job of a generation. -/
def retainParkedDelivery (generation : Generation) (text : Text) : AsyncJobManager :=
  match m.table.objects.get? generation with
  | none => m
  | some job =>
    { m with queue := { m.queue with
        parkedDeliveries := m.queue.parkedDeliveries.set generation
          ⟨job.id, generation, text, 0, m.table.now, none, job.ownerId⟩ } }

def retainDeliveryClaim (generation : Generation) : AsyncJobManager :=
  match m.table.objects.get? generation with
  | none => m
  | some job =>
    { m with queue := { m.queue with
        receiptClaims := m.queue.receiptClaims.set generation ⟨job.id, generation, job.ownerId⟩ } }

/-- `getDeliveryState(filter).pendingJobIds`. -/
def pendingJobIds : List Text :=
  (m.queue.filterDeliveries filter).map (·.jobId) ++ (m.queue.filterInFlightDeliveries filter).map
    (·.jobId) ++
    (m.queue.parkedDeliveries.values.filter (matchesOwner filter ·.ownerId)).map (·.jobId) ++
    (m.queue.receiptClaims.values.filter (matchesOwner filter ·.ownerId)).map (·.jobId)

/-- `finishOwnerSubagentShutdown`; a commit needs a confirmed proof. -/
def finishOwnerSubagentShutdown (ownerId : Text) (commit : Bool) : AsyncJobManager :=
  if ownerId ∉ m.queue.ownerSubagentShutdownLeases then m
  else
    let m :=
      if commit then
        let m := { m with queue := m.queue.pruneEvictedDeadLetters m.table }
        m.acknowledgeDeliveries (m.pendingJobIds (some ownerId))
      else m
    { m with queue := { m.queue with
        ownerSubagentShutdownLeases := m.queue.ownerSubagentShutdownLeases.erase ownerId } }

def watchCount {κ : Type} [DecidableEq κ] (counts : OrderedMap κ Nat) (key : κ) :
    OrderedMap κ Nat :=
  counts.set key ((counts.get? key).getD 0 + 1)

def unwatchCount {κ : Type} [DecidableEq κ] (counts : OrderedMap κ Nat) (key : κ) :
    OrderedMap κ Nat :=
  match counts.get? key with
  | none => counts
  | some n => if n ≤ 1 then counts.erase key else counts.set key (n - 1)

inductive Step where
  | tick (ms : Nat)
  | register (options : RegisterOptions)
  | startResume (subagentId : Text) (seq : Nat) (options : RegisterOptions)
  | runEnds (generation : Generation) (outcome : RunOutcome)
  | failNow (jobId : Text) (generation : Generation) (errorText : Text)
  | cancel (id : Text) (filter : Option Text)
  | cancelAll (filter : Option Text)
  | evictionTimer (jobId : Text)
  | publishQueuedTerminal (subagentId : Text) (seq : Nat) (ownerId : Option Text)
      (status : JobStatus)
  | subscribeTerminalWait (targets : List AsyncJobWaitTarget) (condition : AsyncJobWaitCondition)
  | acknowledgeWait (token : Nat) (targetIds : Option (List Text))
  | closeWait (token : Nat)
  | pruneTerminalEvents
  | startDelivery (index : Nat)
  | callbackReturns (index : Nat)
  | callbackThrows (index : Nat) (error : Text) (jitterMs : Nat)
  | acknowledgeDeliveries (jobIds : List Text)
  | watchJobs (jobIds : List Text)
  | unwatchJobs (jobIds : List Text)
  | watchJobGenerations (jobIds : List Text)
  | closeWatch (generations : List Generation)
  | retainParkedDelivery (generation : Generation) (text : Text)
  | clearParkedDelivery (generation : Generation)
  | retainDeliveryClaim (generation : Generation)
  | releaseDeliveryClaim (generation : Generation)
  | beginOwnerSubagentShutdown (ownerId : Text)
  | finishOwnerSubagentShutdown (ownerId : Text) (commit : Bool)
  | getDeliveryState
  | getJobsSnapshot

def step (m : AsyncJobManager) : Step → AsyncJobManager
  | .tick ms => { m with table := { m.table with now := m.table.now + ms } }
  | .register options => m.register options
  | .startResume subagentId seq options => m.startResume subagentId seq options
  | .runEnds generation outcome => m.runEnds generation outcome
  | .failNow jobId generation errorText => m.failNow jobId generation errorText
  | .cancel id filter => m.cancel id filter
  | .cancelAll filter => m.cancelAll filter
  | .evictionTimer jobId => m.evictionTimer jobId
  | .publishQueuedTerminal subagentId seq ownerId status =>
    { m with
      waits := m.waits.publishQueuedTerminal m.table (.queued subagentId seq) ownerId status }
  | .subscribeTerminalWait targets condition =>
    { m with waits := m.waits.subscribeTerminalWait m.table targets condition }
  | .acknowledgeWait token targetIds => m.acknowledgeWait token targetIds
  | .closeWait token => { m with waits := m.waits.closeWait m.table token }
  | .pruneTerminalEvents => { m with waits := m.waits.pruneTerminalEvents m.table }
  | .startDelivery index => m.startDelivery index
  | .callbackReturns index => m.callbackReturns index
  | .callbackThrows index error jitterMs => m.callbackThrows index error jitterMs
  | .acknowledgeDeliveries jobIds => m.acknowledgeDeliveries jobIds
  | .watchJobs jobIds =>
    { m with queue := { m.queue with
        watchedJobs := (uniqueJobIds jobIds).foldl watchCount m.queue.watchedJobs } }
  | .unwatchJobs jobIds =>
    { m with queue := { m.queue with
        watchedJobs := (uniqueJobIds jobIds).foldl unwatchCount m.queue.watchedJobs } }
  | .watchJobGenerations jobIds =>
    { m with queue := { m.queue with
        watchedGenerations := ((uniqueJobIds jobIds).filterMap m.table.jobs.get?).foldl
          watchCount m.queue.watchedGenerations } }
  | .closeWatch generations =>
    { m with queue := { m.queue with
        watchedGenerations := generations.foldl unwatchCount m.queue.watchedGenerations } }
  | .retainParkedDelivery generation text => m.retainParkedDelivery generation text
  | .clearParkedDelivery generation =>
    { m with queue := { m.queue with
        parkedDeliveries := m.queue.parkedDeliveries.erase generation } }
  | .retainDeliveryClaim generation => m.retainDeliveryClaim generation
  | .releaseDeliveryClaim generation =>
    { m with queue := { m.queue with receiptClaims := m.queue.receiptClaims.erase generation } }
  | .beginOwnerSubagentShutdown ownerId =>
    if ownerId = [] ∨ ownerId ∈ m.queue.ownerSubagentShutdownLeases then m
    else
      { m with queue := { m.queue with
          ownerSubagentShutdownLeases := m.queue.ownerSubagentShutdownLeases ++ [ownerId] } }
  | .finishOwnerSubagentShutdown ownerId commit => m.finishOwnerSubagentShutdown ownerId commit
  | .getDeliveryState => { m with queue := m.queue.pruneEvictedDeadLetters m.table }
  | .getJobsSnapshot =>
    { m with
      queue := (m.queue.pruneEvictedDeadLetters m.table).pruneSuppressedDeliveries m.table }

end AsyncJobManager

end Vibrato.Jobs
