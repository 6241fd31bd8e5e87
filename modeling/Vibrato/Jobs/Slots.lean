import Vibrato.Jobs.Output
import Vibrato.Jobs.Table

/-! What `AsyncJobManager` keeps under the id of a job: its record, its output, its lifecycle
callbacks, and the mark that its run has settled. -/

namespace Vibrato.Jobs

open Lib

inductive LifecyclePhase where
  | cancel
  | terminal
  | evict
  deriving DecidableEq

/-- `unwound` holds the runs whose `finally` is still to come, and `timerOwners` the generation that
scheduled the eviction timer of an id. -/
structure JobSlots where
  manager : AsyncJobManager
  outputRetentionBytes : Nat
  outputState : OrderedMap Text AsyncJobOutputState
  lifecycles : OrderedMap Text Generation
  lifecyclePhases : OrderedMap Text (List LifecyclePhase)
  settledJobIds : List Text
  unwound : List Generation
  timerOwners : OrderedMap Text Generation

namespace JobSlots

def create (now : Int) (retentionMs maxRunningJobs maxDeadLetterOverflowOwners
    outputRetentionBytes : Nat) : JobSlots where
  manager := .create now retentionMs maxRunningJobs maxDeadLetterOverflowOwners
  outputRetentionBytes
  outputState := .empty
  lifecycles := .empty
  lifecyclePhases := .empty
  settledJobIds := []
  unwound := []
  timerOwners := .empty

def table (m : JobSlots) : JobTable := m.manager.table

variable (m : JobSlots)

def runLifecycle (jobId : Text) (phase : LifecyclePhase) (jobOverride : Option AsyncJob) :
    JobSlots :=
  if !m.lifecycles.has jobId || (jobOverride <|> m.table.get jobId).isNone then m
  else
    let fired := (m.lifecyclePhases.get? jobId).getD []
    if phase ∈ fired then m
    else { m with lifecyclePhases := m.lifecyclePhases.set jobId (fired ++ [phase]) }

def evictJob (m : JobSlots) (jobId : Text) : JobSlots :=
  let m := m.runLifecycle jobId .evict none
  { m with
    manager := m.manager.evictJob jobId
    settledJobIds := m.settledJobIds.filter (· ≠ jobId)
    lifecycles := m.lifecycles.erase jobId
    lifecyclePhases := m.lifecyclePhases.erase jobId
    outputState := m.outputState.erase jobId }

/-- `owner` is the generation on whose behalf the eviction is scheduled. -/
def scheduleEviction (m : JobSlots) (owner : Generation) (jobId : Text) : JobSlots :=
  if m.table.retentionMs = 0 then m.evictJob jobId
  else
    { m with
      manager := m.manager.scheduleEviction jobId
      timerOwners := m.timerOwners.set jobId owner }

def finishJob (job : AsyncJob) (status : JobStatus) (text : Text) : JobSlots :=
  let manager := { m.manager with table := m.table.setStatus job.generation status }
  let manager := (manager.publishTerminal job.generation).enqueueDelivery job.id text
  let m := { m with manager }
  let m := m.runLifecycle job.id .terminal (some job)
  m.scheduleEviction job.generation job.id

/-- `lifecycle` says whether the options have one. -/
def register (options : AsyncJobManager.RegisterOptions) (lifecycle : Bool) : JobSlots :=
  if m.manager.refuses options then m
  else
    let job := m.manager.newJob options
    let m := { m with
      manager := m.manager.addJob job
      settledJobIds := m.settledJobIds.filter (· ≠ job.id)
      lifecycles := if lifecycle then m.lifecycles.set job.id job.generation else m.lifecycles }
    let m := match options.throws with
      | none => m
      | some text =>
        let m := m.finishJob job .failed text
        { m with
          manager := { m.manager with table := { m.table with
            unsettled := m.table.unsettled.erase job.generation } }
          unwound := m.unwound ++ [job.generation] }
    { m with
      manager := { m.manager with table := { m.table with
        jobs := m.table.jobs.set job.id job.generation } } }

def runEnds (generation : Generation) (outcome : AsyncJobManager.RunOutcome) : JobSlots :=
  match m.table.objects.get? generation with
  | none => m
  | some job =>
    if generation ∉ m.table.unsettled then m
    else
      let m' :=
        if generation ∈ m.table.externallySettled then m
        else if job.status = .cancelled then
          let m := { m with manager := m.manager.publishTerminal generation }
          (m.runLifecycle job.id .terminal (some job)).scheduleEviction generation job.id
        else
          match outcome with
          | .paused =>
            { m with manager := { m.manager with table := m.table.setStatus generation .paused } }
          | .failed text => m.finishJob job .failed text
          | .completed text => m.finishJob job .completed text
      { m' with
        manager := { m'.manager with table := { m'.table with
          externallySettled := m'.table.externallySettled.erase generation
          unsettled := m'.table.unsettled.erase generation } }
        unwound := m'.unwound ++ [generation] }

/-- The `finally` of a run. -/
def settles (generation : Generation) : JobSlots :=
  match m.table.objects.get? generation with
  | none => m
  | some job =>
    if generation ∉ m.unwound then m
    else
      { m with
        settledJobIds := m.settledJobIds.insert job.id
        unwound := m.unwound.erase generation }

def appendOutput (m : JobSlots) (generation : Generation) (chunk : Text) : JobSlots :=
  match m.table.objects.get? generation with
  | none => m
  | some job =>
    if generation ∉ m.table.unsettled then m
    else
      let outputs : JobOutputs := ⟨false, m.table, m.outputRetentionBytes, m.outputState⟩
      { m with outputState := (outputs.appendOutput job.id chunk).outputState }

def failNow (jobId : Text) (generation : Generation) (errorText : Text) : JobSlots :=
  match m.table.get jobId with
  | none => m
  | some job =>
    if job.generation ≠ generation ∨ job.status ≠ .running ∨
        generation ∈ m.table.externallySettled then m
    else
      { m with manager := { m.manager with table := { m.table with
          externallySettled := m.table.externallySettled ++ [generation] } } }.finishJob job .failed
        errorText

def cancel (m : JobSlots) (id : Text) (filter : Option Text) : JobSlots :=
  match m.table.get id with
  | none => m
  | some job =>
    if !m.manager.cancels id filter then m
    else
      let manager := { m.manager with table := m.table.setStatus job.generation .cancelled }
      let m := { m with manager := manager.publishTerminal job.generation }
      let m := m.runLifecycle id .cancel none
      if job.status = .paused then m.scheduleEviction job.generation id else m

def cancelAll (filter : Option Text) : JobSlots :=
  (m.table.getRunningJobs filter).foldl (fun m job =>
      if m.manager.cancels job.id filter then
        (m.cancel job.id filter).scheduleEviction job.generation job.id
      else m) m

def evictionTimer (jobId : Text) : JobSlots :=
  match m.table.evictionTimers.get? jobId with
  | none => m
  | some due =>
    if m.table.now < due then m
    else
      { m with
        manager := { m.manager with table := { m.table with
          evictionTimers := m.table.evictionTimers.erase jobId } }
        timerOwners := m.timerOwners.erase jobId }.evictJob jobId

def startResume (subagentId : Text) (seq : Nat) (options : AsyncJobManager.RegisterOptions)
    (lifecycle : Bool) : JobSlots :=
  let next := m.register options lifecycle
  if next.table.jobGenerationSeq = m.table.jobGenerationSeq then m
  else
    { next with manager := { next.manager with waits := { next.manager.waits with
        waitGenerationAliases :=
          next.manager.waits.waitGenerationAliases.set (.queued subagentId seq)
          (.job next.table.jobGenerationSeq) } } }

/-- A step of the manager, and, where it registers a job, whether the job has a lifecycle. -/
inductive Step where
  | call (s : AsyncJobManager.Step) (lifecycle : Bool)
  | settles (generation : Generation)
  | appendOutput (generation : Generation) (chunk : Text)

def call (lifecycle : Bool) : AsyncJobManager.Step → JobSlots
  | .register options => m.register options lifecycle
  | .startResume subagentId seq options => m.startResume subagentId seq options lifecycle
  | .runEnds generation outcome => m.runEnds generation outcome
  | .failNow jobId generation errorText => m.failNow jobId generation errorText
  | .cancel id filter => m.cancel id filter
  | .cancelAll filter => m.cancelAll filter
  | .evictionTimer jobId => m.evictionTimer jobId
  | s => { m with manager := m.manager.step s }

def step : Step → JobSlots
  | .call s lifecycle => m.call lifecycle s
  | .settles generation => m.settles generation
  | .appendOutput generation chunk => m.appendOutput generation chunk

variable (m : JobSlots)

variable (jobId : Text)

@[simp] theorem runLifecycle_manager (phase : LifecyclePhase)
    (jobOverride : Option AsyncJob) :
    (m.runLifecycle jobId phase jobOverride).manager = m.manager := by
  unfold runLifecycle
  split
  · rfl
  · dsimp only
    split <;> rfl

@[simp] theorem evictJob_manager : (m.evictJob jobId).manager = m.manager.evictJob jobId := by
  show (m.runLifecycle jobId .evict none).manager.evictJob jobId = _
  rw [runLifecycle_manager]

@[simp] theorem scheduleEviction_manager (owner : Generation) (jobId : Text) :
    (m.scheduleEviction owner jobId).manager = m.manager.scheduleEviction jobId := by
  unfold scheduleEviction AsyncJobManager.scheduleEviction table
  split
  · exact evictJob_manager m jobId
  · rfl

@[simp] theorem finishJob_manager (job : AsyncJob) (status : JobStatus) (text : Text) :
    (m.finishJob job status text).manager = m.manager.finishJob job status text := by
  unfold finishJob
  rw [scheduleEviction_manager, runLifecycle_manager]
  rfl

@[simp] theorem register_manager (options : AsyncJobManager.RegisterOptions) (lifecycle : Bool) :
    (m.register options lifecycle).manager = m.manager.register options := by
  rw [AsyncJobManager.register_eq]
  unfold register
  split
  · rfl
  · cases options.throws with
    | none => rfl
    | some text =>
      unfold table AsyncJobManager.throwsAtOnce
      dsimp only
      rw [finishJob_manager]

@[simp] theorem runEnds_manager (g : Generation) (outcome : AsyncJobManager.RunOutcome) :
    (m.runEnds g outcome).manager = m.manager.runEnds g outcome := by
  unfold runEnds AsyncJobManager.runEnds table
  cases m.manager.table.objects.get? g with
  | none => rfl
  | some job =>
  dsimp only
  by_cases hover : g ∉ m.manager.table.unsettled
  · rw [if_pos hover, if_pos hover]
  rw [if_neg hover, if_neg hover]
  by_cases hext : g ∈ m.manager.table.externallySettled
  · rw [if_pos hext, if_pos hext]
  rw [if_neg hext, if_neg hext]
  by_cases hcancelled : job.status = .cancelled
  · rw [if_pos hcancelled, if_pos hcancelled, scheduleEviction_manager, runLifecycle_manager]
  rw [if_neg hcancelled, if_neg hcancelled]
  cases outcome with
  | paused => rfl
  | failed text => rw [finishJob_manager]
  | completed text => rw [finishJob_manager]

@[simp] theorem failNow_manager (g : Generation) (errorText : Text) :
    (m.failNow jobId g errorText).manager = m.manager.failNow jobId g errorText := by
  unfold failNow AsyncJobManager.failNow table
  cases m.manager.table.get jobId with
  | none => rfl
  | some job =>
  dsimp only
  split
  · rfl
  · exact finishJob_manager _ _ _ _

@[simp] theorem cancel_manager (id : Text) (filter : Option Text) :
    (m.cancel id filter).manager = m.manager.cancel id filter := by
  unfold cancel AsyncJobManager.cancel table
  cases m.manager.table.get id with
  | none => rfl
  | some job =>
  dsimp only
  split
  · rfl
  split
  · rw [scheduleEviction_manager, runLifecycle_manager]
  · rw [runLifecycle_manager]

@[simp] theorem cancelAll_manager (filter : Option Text) :
    (m.cancelAll filter).manager = m.manager.cancelAll filter := by
  unfold cancelAll AsyncJobManager.cancelAll table
  generalize m.manager.table.getRunningJobs filter = jobs
  induction jobs generalizing m with
  | nil => rfl
  | cons job rest ih =>
    rw [List.foldl_cons, List.foldl_cons, ih]
    congr 1
    split
    · rw [scheduleEviction_manager, cancel_manager]
    · rfl

@[simp] theorem evictionTimer_manager :
    (m.evictionTimer jobId).manager = m.manager.evictionTimer jobId := by
  unfold evictionTimer AsyncJobManager.evictionTimer table
  cases m.manager.table.evictionTimers.get? jobId with
  | none => rfl
  | some due =>
  dsimp only
  split
  · rfl
  · exact evictJob_manager _ _

@[simp] theorem startResume_manager (subagentId : Text) (seq : Nat)
    (options : AsyncJobManager.RegisterOptions) (lifecycle : Bool) :
    (m.startResume subagentId seq options lifecycle).manager =
      m.manager.startResume subagentId seq options := by
  unfold startResume AsyncJobManager.startResume table
  dsimp only
  rw [register_manager]
  split <;> rfl

theorem call_manager (lifecycle : Bool) (s : AsyncJobManager.Step) :
    (m.call lifecycle s).manager = m.manager.step s := by
  cases s with
  | register options => exact register_manager m options lifecycle
  | startResume subagentId seq options =>
      exact startResume_manager m subagentId seq options lifecycle
  | runEnds g outcome => exact runEnds_manager m g outcome
  | failNow jobId g errorText => exact failNow_manager m jobId g errorText
  | cancel id filter => exact cancel_manager m id filter
  | cancelAll filter => exact cancelAll_manager m filter
  | evictionTimer jobId => exact evictionTimer_manager m jobId
  | _ => rfl

end JobSlots

end Vibrato.Jobs
