import Vibrato.Jobs.Custody
import Vibrato.Lib.Runs

namespace Vibrato.Jobs

open Lib List OrderedMap AsyncJobManager Custody

namespace AsyncJobManager

variable {m : AsyncJobManager} {handed ack : List Generation}

variable (m)

def runsUnder (id : Text) : Bool :=
  (m.table.get id).any fun job => decide (job.status = .running)

/-- The id under which the step evicts a record that need not be that of the job it is about: the
run of a cancelled job has unwound, or an eviction timer fires. -/
def evicts : Step → Option Text
  | .runEnds g _ =>
    if m.table.retentionMs = 0 ∧ g ∈ m.table.unsettled ∧ g ∉ m.table.externallySettled then
      ((m.table.objects.get? g).filter fun job => decide (job.status = .cancelled)).map (·.id)
    else none
  | .evictionTimer id =>
    if (m.table.evictionTimers.get? id).any fun due => decide (due ≤ m.table.now) then some id
      else none
  | _ => none

def registers : Step → Option RegisterOptions
  | .register options | .startResume _ _ options => some options
  | _ => none

def acknowledges : Step → List TerminalEvent
  | .acknowledgeWait token targetIds =>
    match m.waits.handles.get? token with
    | none => []
    | some wait =>
      if wait.acknowledged then []
      else
        let targets := wait.targets.filter fun target =>
          targetIds.all fun ids => ids.contains target.targetId
        { m with waits := m.waits.pruneFor m.table targets }.acknowledgedEvents token targets
  | _ => []

variable {m}

/-- No job that runs loses its record, no run throws before its record is set, and an id under which
an event is acknowledged stands for no generation that is not. -/
structure Safe (m : AsyncJobManager) (s : Step) : Prop where
  evicts : ∀ id ∈ m.evicts s, m.runsUnder id = false
  throws : ∀ options ∈ registers s, options.throws = none ∨ m.refuses options = true
  acknowledges : ∀ event ∈ m.acknowledges s, ∀ id ∈ event.jobId, ∀ g ∈ m.queue.holders m.table id,
    g ∈ m.queue.suppressedDeliveries ∨ g ∈ (m.acknowledges s).map (·.generation)

instance (m : AsyncJobManager) (s : Step) : Decidable (m.Safe s) :=
  decidable_of_iff ((∀ id ∈ m.evicts s, m.runsUnder id = false) ∧
      (∀ options ∈ registers s, options.throws = none ∨ m.refuses options = true) ∧
      ∀ event ∈ m.acknowledges s, ∀ id ∈ event.jobId, ∀ g ∈ m.queue.holders m.table id,
        g ∈ m.queue.suppressedDeliveries ∨ g ∈ (m.acknowledges s).map (·.generation))
    ⟨fun h => ⟨h.1, h.2.1, h.2.2⟩, fun h => ⟨h.evicts, h.throws, h.acknowledges⟩⟩

def InCustody (m : AsyncJobManager) (handed ack : List Generation) : Prop :=
  Custody m.table m.queue handed ack

theorem InCustody.scheduleEviction (h : m.InCustody handed ack) {jobId : Text}
    (hidle : m.table.retentionMs = 0 → m.runsUnder jobId = false) :
    (m.scheduleEviction jobId).InCustody handed ack := by
  unfold AsyncJobManager.scheduleEviction
  split
  · next hzero =>
    apply evict h m.table.now
    intro job hget hrunning
    have hnot := hidle hzero
    unfold runsUnder at hnot
    rw [hget] at hnot
    simp [hrunning] at hnot
  · exact of_table h rfl rfl rfl

theorem runsUnder_scheduleEviction {id : Text} (h : m.runsUnder id = false) :
    (m.scheduleEviction id).runsUnder id = false := by
  unfold scheduleEviction
  split
  · unfold runsUnder
    have hnone : (m.evictJob id).table.get id = none := by
      show ((m.table.jobs.erase id).get? id).bind _ = none
      rw [get?_erase_self]
      rfl
    rw [hnone]
    rfl
  · exact h

variable (h : m.InCustody handed ack)
include h

theorem InCustody.finishJob {job : AsyncJob}
    (hjob : m.table.objects.get? job.generation = some job) (hrunning : job.status = .running)
    {status : JobStatus} (hstatus : status = .completed ∨ status = .failed) (text : Text) :
    (m.finishJob job status text).InCustody handed ack := by
  let m₁ := ({ m with table := m.table.setStatus job.generation status }.publishTerminal
    job.generation).enqueueDelivery job.id text
  have htable : m₁.table = m.table.setStatus job.generation status := publishTerminal_table _ _
  have hqueue : m₁.queue = m.queue.enqueueDelivery
      (m.table.setStatus job.generation status) job.id text := by
    show DeliveryQueue.enqueueDelivery _ _ _ _ = _
    rw [publishTerminal_queue, publishTerminal_table]
  have hfinished : m₁.InCustody handed ack := by
    unfold InCustody
    rw [htable, hqueue]
    exact finish h hjob hrunning hstatus text
  apply hfinished.scheduleEviction
  intro _
  have hrecord := records h hjob hrunning
  unfold runsUnder
  rw [htable, JobTable.setStatus_record status hrecord hjob]
  rcases hstatus with rfl | rfl <;> rfl

theorem InCustody.retire (g : Generation) :
    InCustody { m with table := m.table.retire g } handed ack :=
  of_table h rfl rfl rfl

theorem InCustody.runEnds (hlive : m.table.Live) {g : Generation}
    {outcome : RunOutcome} (hsafe : m.Safe (.runEnds g outcome)) :
    (m.runEnds g outcome).InCustody handed ack := by
  unfold AsyncJobManager.runEnds
  split
  · exact h
  next job hjob =>
  have hgen := hlive.getElem_generation hjob
  split
  · exact h
  next hunsettled =>
  rw [not_not] at hunsettled
  split
  · exact h.retire g
  next hext =>
  split
  · next hcancelled =>
    apply InCustody.retire
    have hpublished : (m.publishTerminal g).InCustody handed ack := by
      unfold InCustody
      rw [publishTerminal_table, publishTerminal_queue]
      exact h
    apply hpublished.scheduleEviction
    intro hzero
    rw [publishTerminal_table] at hzero
    unfold runsUnder
    rw [publishTerminal_table]
    apply hsafe.evicts job.id
    show job.id ∈ ite _ _ _
    rw [if_pos ⟨hzero, hunsettled, hext⟩, hjob]
    simp [hcancelled]
  next hcancelled =>
  have hrunning : job.status = .running :=
    (hlive.running hunsettled hext hjob).resolve_right hcancelled
  split
  · apply InCustody.retire
    exact setStatus h (not_finished hjob hrunning) (by simp) (by simp)
  · next text =>
    subst hgen
    exact (h.finishJob hjob hrunning (.inr rfl) text).retire _
  · next text =>
    subst hgen
    exact (h.finishJob hjob hrunning (.inl rfl) text).retire _

theorem InCustody.failNow (jobId : Text) (g : Generation)
    (errorText : Text) : (m.failNow jobId g errorText).InCustody handed ack := by
  unfold AsyncJobManager.failNow
  split
  · exact h
  next job hget =>
  split
  · exact h
  next hguard =>
  push Not at hguard
  obtain ⟨-, hobject, -⟩ := (Custody.table h).get_eq_some hget
  have hquiet : InCustody { m with table := { m.table with
      externallySettled := m.table.externallySettled ++ [g] } } handed ack :=
    Custody.of_table h rfl rfl rfl
  exact hquiet.finishJob hobject hguard.2.1 (.inr rfl) errorText

theorem InCustody.cancel (id : Text) (filter : Option Text) :
    (m.cancel id filter).InCustody handed ack ∧
      (m.cancels id filter = true → (m.cancel id filter).runsUnder id = false) := by
  unfold AsyncJobManager.cancel
  split
  · next hnone =>
    refine ⟨h, fun _ => ?_⟩
    unfold runsUnder
    rw [hnone]
    rfl
  next job hget =>
  split
  · next hnot =>
    exact ⟨h, fun hcancels => by rw [hcancels] at hnot; cases hnot⟩
  next hcancels =>
  have hcancels : m.cancels id filter = true := by simpa using hcancels
  obtain ⟨hrecord, hobject, -⟩ := (Custody.table h).get_eq_some hget
  have hopen : ¬ m.table.Finished job.generation := by
    rintro ⟨job', hjob', hfinished⟩
    rw [hobject] at hjob'
    cases hjob'
    unfold cancels at hcancels
    rw [hget] at hcancels
    rcases hfinished with hfinished | hfinished <;> simp [hfinished] at hcancels
  let m₁ := { m with table := m.table.setStatus job.generation .cancelled }.publishTerminal
    job.generation
  have htable : m₁.table = m.table.setStatus job.generation .cancelled := publishTerminal_table _ _
  have hqueue : m₁.queue = m.queue := publishTerminal_queue _ _
  have hcancelled : m₁.InCustody handed ack := by
    unfold InCustody
    rw [htable, hqueue]
    exact Custody.setStatus h hopen (by simp) (by simp)
  have hidle : m₁.runsUnder id = false := by
    unfold runsUnder
    rw [htable, JobTable.setStatus_record .cancelled hrecord hobject]
    rfl
  split
  · refine ⟨hcancelled.scheduleEviction fun _ => hidle, fun _ => ?_⟩
    exact runsUnder_scheduleEviction hidle
  · exact ⟨hcancelled, fun _ => hidle⟩

theorem InCustody.cancelAll (filter : Option Text) : (m.cancelAll filter).InCustody handed ack := by
  unfold AsyncJobManager.cancelAll
  generalize m.table.getRunningJobs filter = jobs
  induction jobs generalizing m with
  | nil => exact h
  | cons job rest ih =>
    rw [foldl_cons]
    apply ih
    split
    · next hcancels =>
      obtain ⟨hcancelled, hidle⟩ := h.cancel job.id filter
      exact hcancelled.scheduleEviction fun _ => hidle hcancels
    · exact h

theorem InCustody.evictionTimer {jobId : Text}
    (hsafe : m.Safe (.evictionTimer jobId)) : (m.evictionTimer jobId).InCustody handed ack := by
  unfold AsyncJobManager.evictionTimer
  split
  · exact h
  next due hdue =>
  split
  · exact h
  next hnow =>
  have hquiet : InCustody { m with table := { m.table with
      evictionTimers := m.table.evictionTimers.erase jobId } } handed ack :=
    of_table h rfl rfl rfl
  have hidle : m.runsUnder jobId = false := by
    apply hsafe.evicts jobId
    show jobId ∈ ite _ _ _
    rw [hdue, if_pos (by simpa using hnow)]
    rfl
  apply evict hquiet m.table.now
  intro job hget hrunning
  unfold runsUnder at hidle
  rw [show m.table.get jobId = some job from hget] at hidle
  simp [hrunning] at hidle

omit h

theorem isTaken_eq_false {id : Text} (h : m.isTaken id = false) :
    m.table.jobs.get? id = none ∧ (∀ d ∈ m.queue.pending, d.jobId ≠ id) ∧
      id ∉ m.queue.suppressedDeliveryJobIds.values := by
  simp only [isTaken, DeliveryQueue.hasDeliveryCollisionForJobId,
    DeliveryQueue.hasPendingDeliveryForJobId, Bool.or_eq_false_iff, any_eq_false,
    decide_eq_true_eq] at h
  obtain ⟨hjobs, ⟨⟨⟨⟨⟨hdeliveries, hflight⟩, -⟩, -⟩, hids⟩, -⟩, -⟩ := h
  refine ⟨has_eq_false.mp hjobs, ?_, by simpa using hids⟩
  intro d hd
  rcases mem_append.mp hd with hqueued | hflying
  · exact hdeliveries d hqueued
  · exact hflight d hflying

variable (h : m.InCustody handed ack)
include h

theorem InCustody.register (hlive : m.table.Live)
    {options : RegisterOptions} (hthrows : options.throws = none ∨ m.refuses options = true) :
    (m.register options).InCustody handed ack := by
  have hwf := (Live.register hlive options).toWellFormed
  rw [register_eq] at hwf ⊢
  by_cases hrefuses : m.refuses options = true
  · rw [if_pos hrefuses]
    exact h
  rw [if_neg hrefuses, hthrows.resolve_right hrefuses] at hwf ⊢
  obtain ⟨hjobs, hpending, hids⟩ := isTaken_eq_false (m.resolveJobId_free options.preferredId)
  have hgen : (m.newJob options).generation = .job (m.table.jobGenerationSeq + 1) := rfl
  exact Custody.register h hgen rfl hwf hjobs hpending hids

theorem InCustody.acknowledgeWait {token : Nat}
    {targetIds : Option (List Text)} (hsafe : m.Safe (.acknowledgeWait token targetIds)) :
    (m.acknowledgeWait token targetIds).InCustody handed
      (ack ++ (m.acknowledgeWait token targetIds).queue.suppressedDeliveries) := by
  have hmono : m.InCustody handed (ack ++ m.queue.suppressedDeliveries) :=
    mono h fun _ hg => mem_append_left _ hg
  have hacknowledges := hsafe.acknowledges
  unfold acknowledges at hacknowledges
  dsimp only at hacknowledges
  unfold AsyncJobManager.acknowledgeWait
  split
  · exact hmono
  next wait hwait =>
  rw [hwait] at hacknowledges
  dsimp only at hacknowledges
  split
  · exact hmono
  next hopen =>
  rw [if_neg hopen] at hacknowledges
  dsimp only at hacknowledges ⊢
  generalize ({ m with waits := _ } : AsyncJobManager).acknowledgedEvents token _ = events
    at hacknowledges ⊢
  obtain ⟨suppressed, ids, heq, hmem, hids⟩ :=
    suppress_foldl (fun e : TerminalEvent => e.jobId) (·.generation) events m.queue
  rw [heq]
  apply dropAcknowledged
  refine suppress h (fun g hg => mem_append_left _ hg)
    (fun g hg => mem_append_right _ hg) fun g id hid => ?_
  refine (hids g id hid).imp_right fun ⟨event, hevent, hjobId⟩ holder hholder => ?_
  refine mem_append_right _ ((hmem holder).mpr ?_)
  exact hacknowledges event hevent id hjobId holder hholder

theorem InCustody.withQueue {queue : DeliveryQueue}
    (hsame : DeliveryQueue.SameDeliveries m.queue queue)
    (hcounts : queue.deadLetterOverflowByOwner = m.queue.deadLetterOverflowByOwner)
    (hfailures : queue.deliveryFailures = m.queue.deliveryFailures)
    (hevicted : queue.evictedDeadLetters = m.queue.evictedDeadLetters)
    (hletters : ∀ {jobId letter}, queue.deadLetteredDeliveries.get? jobId = some letter →
      m.queue.deadLetteredDeliveries.get? jobId = some letter) :
    InCustody { m with queue } handed ack := by
  refine same h hsame fun {counted} hledger => ⟨counted, ⟨?_, ?_⟩, ?_⟩
  · rw [hcounts]
    exact hledger.counts
  · intro jobId letter hletter
    rw [hfailures]
    exact hledger.letters (hletters hletter)
  · intro g hin
    unfold DeliveryQueue.InLedger at hin ⊢
    rw [hfailures, hevicted]
    exact hin

theorem InCustody.pruneEvictedDeadLetters :
    InCustody { m with queue := m.queue.pruneEvictedDeadLetters m.table } handed ack :=
  h.withQueue ⟨rfl, rfl, rfl, rfl⟩ rfl rfl rfl fun hletter =>
    (get?_retain_eq_some.mp hletter).1

theorem InCustody.pruneSuppressedDeliveries :
    InCustody { m with queue := m.queue.pruneSuppressedDeliveries m.table } handed ack :=
  suppress h (fun _ hg => hg) (fun _ hg => suppressed h (mem_of_mem_filter hg))
    fun _ _ hid => .inl (get?_retain_eq_some.mp hid).1

theorem InCustody.startDelivery (index : Nat) : (m.startDelivery index).InCustody handed ack := by
  unfold AsyncJobManager.startDelivery
  split
  · exact h
  next d hd =>
  split
  · exact h
  · exact beginDelivery h hd

theorem InCustody.callbackThrows (index : Nat) (error : Text)
    (jitterMs : Nat) : (m.callbackThrows index error jitterMs).InCustody handed ack := by
  unfold AsyncJobManager.callbackThrows
  split
  · exact h
  next d hd => exact failDelivery h hd error jitterMs

theorem InCustody.finishOwnerSubagentShutdown (ownerId : Text)
    (commit : Bool) : (m.finishOwnerSubagentShutdown ownerId commit).InCustody handed
      (ack ++ (m.finishOwnerSubagentShutdown ownerId commit).queue.suppressedDeliveries) := by
  have hmono : m.InCustody handed (ack ++ m.queue.suppressedDeliveries) :=
    Custody.mono h fun _ hg => mem_append_left _ hg
  unfold AsyncJobManager.finishOwnerSubagentShutdown
  split
  · exact hmono
  cases commit with
  | true =>
    let m₁ : AsyncJobManager := { m with queue := m.queue.pruneEvictedDeadLetters m.table }
    have hacknowledged :
        (m₁.acknowledgeDeliveries (m₁.pendingJobIds (some ownerId))).InCustody handed
        (ack ++ (m₁.acknowledgeDeliveries
          (m₁.pendingJobIds (some ownerId))).queue.suppressedDeliveries) :=
      Custody.acknowledgeDeliveries h.pruneEvictedDeadLetters _
    exact hacknowledged.withQueue ⟨rfl, rfl, rfl, rfl⟩ rfl rfl rfl fun hletter => hletter
  | false => exact hmono.withQueue ⟨rfl, rfl, rfl, rfl⟩ rfl rfl rfl fun hletter => hletter

omit h

def handsOver (m : AsyncJobManager) : Step → List Generation
  | .callbackReturns index => (m.queue.inFlightDeliveries[index]?).toList.map (·.generation)
  | _ => []

theorem InCustody.stepHolds (h : m.InCustody handed ack) (hlive : m.table.Live) {s : Step}
    (hsafe : m.Safe s) (hreturns : ∀ index, s ≠ .callbackReturns index) :
    (m.step s).InCustody handed (ack ++ (m.step s).queue.suppressedDeliveries) := by
  -- but for acknowledgements, a step keeps custody without acknowledging anything
  have hplain : ∀ {m' : AsyncJobManager}, m'.InCustody handed ack →
      m'.InCustody handed (ack ++ m'.queue.suppressedDeliveries) :=
    fun h' => Custody.mono h' fun _ hg => mem_append_left _ hg
  -- what no delivery depends on
  have hqueue : ∀ {queue : DeliveryQueue}, DeliveryQueue.SameDeliveries m.queue queue →
      queue.deadLetterOverflowByOwner = m.queue.deadLetterOverflowByOwner →
      queue.deliveryFailures = m.queue.deliveryFailures →
      queue.evictedDeadLetters = m.queue.evictedDeadLetters →
      queue.deadLetteredDeliveries = m.queue.deadLetteredDeliveries →
      InCustody { m with queue } handed (ack ++ queue.suppressedDeliveries) := by
    intro queue hsame hcounts hfailures hevicted hletters
    have hkept : InCustody { m with queue } handed ack :=
      h.withQueue hsame hcounts hfailures hevicted fun hletter => hletters ▸ hletter
    exact hplain hkept
  cases s with
  | tick ms => exact hplain (Custody.of_table h rfl rfl rfl)
  | register options => exact hplain (h.register hlive (hsafe.throws options rfl))
  | startResume subagentId seq options =>
    apply hplain
    show (m.startResume subagentId seq options).InCustody handed ack
    unfold startResume
    dsimp only
    split
    · exact h
    · exact h.register hlive (hsafe.throws options rfl)
  | runEnds g outcome => exact hplain (h.runEnds hlive hsafe)
  | failNow jobId g errorText => exact hplain (h.failNow jobId g errorText)
  | cancel id filter => exact hplain (h.cancel id filter).1
  | cancelAll filter => exact hplain (h.cancelAll filter)
  | evictionTimer jobId => exact hplain (h.evictionTimer hsafe)
  | publishQueuedTerminal subagentId seq ownerId status => exact hplain h
  | subscribeTerminalWait targets condition => exact hplain h
  | acknowledgeWait token targetIds => exact h.acknowledgeWait hsafe
  | closeWait token => exact hplain h
  | pruneTerminalEvents => exact hplain h
  | startDelivery index => exact hplain (h.startDelivery index)
  | callbackReturns index => exact absurd rfl (hreturns index)
  | callbackThrows index error jitterMs => exact hplain (h.callbackThrows index error jitterMs)
  | acknowledgeDeliveries jobIds => exact Custody.acknowledgeDeliveries h jobIds
  | watchJobs jobIds => exact hqueue ⟨rfl, rfl, rfl, rfl⟩ rfl rfl rfl rfl
  | unwatchJobs jobIds => exact hqueue ⟨rfl, rfl, rfl, rfl⟩ rfl rfl rfl rfl
  | watchJobGenerations jobIds => exact hqueue ⟨rfl, rfl, rfl, rfl⟩ rfl rfl rfl rfl
  | closeWatch generations => exact hqueue ⟨rfl, rfl, rfl, rfl⟩ rfl rfl rfl rfl
  | retainParkedDelivery g text =>
    simp only [step, retainParkedDelivery]
    split
    · exact hplain h
    · exact hqueue ⟨rfl, rfl, rfl, rfl⟩ rfl rfl rfl rfl
  | clearParkedDelivery g => exact hqueue ⟨rfl, rfl, rfl, rfl⟩ rfl rfl rfl rfl
  | retainDeliveryClaim g =>
    simp only [step, retainDeliveryClaim]
    split
    · exact hplain h
    · exact hqueue ⟨rfl, rfl, rfl, rfl⟩ rfl rfl rfl rfl
  | releaseDeliveryClaim g => exact hqueue ⟨rfl, rfl, rfl, rfl⟩ rfl rfl rfl rfl
  | beginOwnerSubagentShutdown ownerId =>
    simp only [step]
    split
    · exact hplain h
    · exact hqueue ⟨rfl, rfl, rfl, rfl⟩ rfl rfl rfl rfl
  | finishOwnerSubagentShutdown ownerId commit => exact h.finishOwnerSubagentShutdown ownerId commit
  | getDeliveryState => exact hplain h.pruneEvictedDeadLetters
  | getJobsSnapshot => exact hplain (h.pruneEvictedDeadLetters).pruneSuppressedDeliveries

theorem InCustody.step (h : m.InCustody handed ack) (hlive : m.table.Live) {s : Step}
    (hsafe : m.Safe s) : (m.step s).InCustody (handed ++ m.handsOver s)
      (ack ++ (m.step s).queue.suppressedDeliveries) := by
  by_cases hreturns : ∃ index, s = .callbackReturns index
  · obtain ⟨index, rfl⟩ := hreturns
    exact mono (handOver h index) fun _ hg => mem_append_left _ hg
  · have hnone : m.handsOver s = [] := by
      cases s with
      | callbackReturns index => exact absurd ⟨index, rfl⟩ hreturns
      | _ => rfl
    rw [hnone, append_nil]
    exact h.stepHolds hlive hsafe fun index heq => hreturns ⟨index, heq⟩

theorem create_inCustody (now : Int) (retentionMs maxRunningJobs maxOwners : Nat) :
    (create now retentionMs maxRunningJobs maxOwners).InCustody [] [] where
  table := (create_live now retentionMs maxRunningJobs maxOwners).toWellFormed
  records h := by cases h
  pending h := by cases h
  finished h := by cases h
  distinct := nodup_nil
  suppressed h := by cases h
  suppressedIds h := by cases h
  held := by
    refine ⟨[], ⟨rfl, fun h => by cases h⟩, ?_⟩
    rintro g ⟨job, hjob, -⟩
    cases hjob

end AsyncJobManager

/-- A manager, the generations whose callback has returned, and those that were acknowledged. -/
structure World where
  manager : AsyncJobManager
  handedOver : List Generation
  acknowledged : List Generation

namespace World

def create (now : Int) (retentionMs maxRunningJobs maxOwners : Nat) : World :=
  ⟨.create now retentionMs maxRunningJobs maxOwners, [], []⟩

def step (w : World) (s : AsyncJobManager.Step) : World :=
  let m := w.manager.step s
  ⟨m, w.handedOver ++ w.manager.handsOver s, w.acknowledged ++ m.queue.suppressedDeliveries⟩

def Safe (w : World) (s : AsyncJobManager.Step) : Prop := w.manager.Safe s

instance (w : World) (s : AsyncJobManager.Step) : Decidable (w.Safe s) :=
  inferInstanceAs (Decidable (w.manager.Safe s))

/-- The completion of a generation is queued, in flight, handed over, acknowledged, or a dead
letter: in a map, on the record of its job, or one of those that are only counted. -/
def Accounted (w : World) (counted : List Generation) (g : Generation) : Prop :=
  g ∈ w.manager.queue.deliveries.map (·.generation) ∨
    g ∈ w.manager.queue.inFlightDeliveries.map (·.generation) ∨ g ∈ w.handedOver ∨
    g ∈ w.acknowledged ∨ g ∈ w.manager.queue.deadLetteredDeliveries.values.map (·.generation) ∨
    w.manager.queue.evictedDeadLetters.has g = true ∨
    (g ∈ w.manager.table.jobs.values ∧ w.manager.queue.deliveryFailures.has g = true) ∨ g ∈ counted

instance (w : World) (counted : List Generation) (g : Generation) :
    Decidable (w.Accounted counted g) :=
  inferInstanceAs (Decidable (_ ∨ _))

/-- No completion is lost: the overflow counts count one for each generation that is nowhere
else. -/
def Conserved (w : World) : Prop :=
  ∃ counted : List Generation,
    counted.length = w.manager.queue.deadLetterOverflowByOwner.total ∧
      ∀ g, w.manager.table.Finished g → w.Accounted counted g

theorem conserved_of_custody {w : World} (h : w.manager.InCustody w.handedOver w.acknowledged) :
    w.Conserved ∧ w.handedOver.Nodup := by
  obtain ⟨counted, hledger, hheld⟩ := held h
  refine ⟨⟨counted, hledger.counts, fun g hg => ?_⟩, (nodup_append.mp (distinct h)).2.1⟩
  unfold Accounted
  rcases hheld hg with ⟨d, hd, hgen⟩ | hhanded | hack | hin
  · rcases mem_append.mp hd with hqueued | hflight
    · exact .inl (mem_map.mpr ⟨d, hqueued, hgen⟩)
    · exact .inr (.inl (mem_map.mpr ⟨d, hflight, hgen⟩))
  · exact .inr (.inr (.inl hhanded))
  · exact .inr (.inr (.inr (.inl hack)))
  · rcases hin with hevicted | ⟨⟨id, hrecord⟩, hfailed⟩ | hcounted
    · simp only [hevicted, true_or, or_true]
    · have hvalue := mem_values.mpr ⟨id, hrecord⟩
      simp only [hvalue, hfailed, and_self, true_or, or_true]
    · simp only [hcounted, or_true]

/-- Completions are conserved and each is handed over once at most. -/
theorem completions_conserved (now : Int) (retentionMs maxRunningJobs maxOwners : Nat)
    (steps : List AsyncJobManager.Step)
    (h : Guarded step Safe (create now retentionMs maxRunningJobs maxOwners) steps) :
    (steps.foldl step (create now retentionMs maxRunningJobs maxOwners)).Conserved ∧
      (steps.foldl step (create now retentionMs maxRunningJobs maxOwners)).handedOver.Nodup := by
  apply conserved_of_custody
  refine (Guarded.invariant (I := fun _ w => w.manager.table.Live ∧
    w.manager.InCustody w.handedOver w.acknowledged) ?_ ?_ h).2
  · rintro before s ⟨hlive, hcustody⟩ hsafe
    exact ⟨AsyncJobManager.Live.step hlive s, hcustody.step hlive hsafe⟩
  · exact ⟨create_live _ _ _ _, create_inCustody _ _ _ _⟩

/-- A job completes and its callback throws; its record is evicted, the delivery is tried again, and
a second job takes the id once the callback has returned. -/
def deliveredTwice : List AsyncJobManager.Step :=
  [.register ⟨some "x".toList, none, false, none⟩, .runEnds (.job 1) (.completed "done".toList),
    .startDelivery 0, .callbackThrows 0 "busy".toList 0, .tick 30000, .startDelivery 0,
    .callbackReturns 0, .register ⟨some "x".toList, none, false, none⟩,
    .runEnds (.job 2) (.failed "no".toList), .startDelivery 0, .callbackReturns 0]

theorem completions_conserved_retried :
    (deliveredTwice.foldl step (create 0 0 15 64)).handedOver = [.job 1, .job 2] ∧
      (deliveredTwice.foldl step (create 0 0 15 64)).Conserved ∧
      (deliveredTwice.foldl step (create 0 0 15 64)).handedOver.Nodup :=
  ⟨by decide +kernel, completions_conserved 0 0 15 64 deliveredTwice (by decide +kernel)⟩

/-- A job is cancelled and its id goes to a second job; the run of the first unwinds and evicts the
record of the second, which then completes. -/
def unwindsLate : List AsyncJobManager.Step :=
  [.register ⟨some "x".toList, none, false, none⟩, .cancelAll none,
    .register ⟨some "x".toList, none, false, none⟩, .runEnds (.job 1) (.completed []),
    .runEnds (.job 2) (.completed "done".toList)]

/-- The completion of the second job is nowhere. -/
theorem completion_lost : ¬ (unwindsLate.foldl step (create 0 0 15 64)).Conserved := by
  rintro ⟨counted, hcounts, hheld⟩
  have hnone : (unwindsLate.foldl step
      (create 0 0 15 64)).manager.queue.deadLetterOverflowByOwner.total = 0 := by decide +kernel
  rw [hnone, length_eq_zero_iff] at hcounts
  subst hcounts
  have hlost := hheld (.job 2) (by decide +kernel)
  revert hlost
  decide +kernel

end World

end Vibrato.Jobs
