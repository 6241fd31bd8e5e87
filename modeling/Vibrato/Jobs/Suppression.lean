import Vibrato.Jobs.Conservation

namespace Vibrato.Jobs

open Lib List OrderedMap AsyncJobManager DeliveryQueue

namespace DeliveryQueue

variable (q : DeliveryQueue) (t : JobTable)

@[simp] theorem recordDeadLetterOverflow_suppressed (ownerId : Option Text) :
    (q.recordDeadLetterOverflow ownerId).suppressedDeliveries = q.suppressedDeliveries := by
  obtain ⟨counts, heq, -⟩ := recordDeadLetterOverflow_eq q ownerId
  rw [heq]

@[simp] theorem trimEvictedDeadLetters_suppressed (fuel : Nat) :
    (trimEvictedDeadLetters fuel q).suppressedDeliveries = q.suppressedDeliveries := by
  induction fuel generalizing q with
  | zero => rfl
  | succ fuel ih =>
    unfold trimEvictedDeadLetters
    split
    · split
      · rfl
      · rw [ih, recordDeadLetterOverflow_suppressed]
    · rfl

variable (d : AsyncJobDelivery)

@[simp] theorem recordDeadLetter_suppressed :
    (q.recordDeadLetter t d).suppressedDeliveries = q.suppressedDeliveries := by
  unfold recordDeadLetter
  split
  · rfl
  · split
    · rfl
    · obtain ⟨letters, owners, heq, -⟩ := trimDeadLetters_eq _ _
      rw [heq]
      rfl

@[simp] theorem recordDeadLetterOrEvicted_suppressed :
    (q.recordDeadLetterOrEvicted t d).suppressedDeliveries = q.suppressedDeliveries := by
  unfold recordDeadLetterOrEvicted
  split
  · exact recordDeadLetter_suppressed q t d
  · exact trimEvictedDeadLetters_suppressed _ _

@[simp] theorem capDeliveries_suppressed (fuel : Nat) :
    (capDeliveries t fuel q).suppressedDeliveries = q.suppressedDeliveries := by
  induction fuel generalizing q with
  | zero => rfl
  | succ fuel ih =>
    unfold capDeliveries
    split
    · split
      · rfl
      · rw [ih, recordDeadLetterOrEvicted_suppressed]
    · rfl

@[simp] theorem enqueueDelivery_suppressed (jobId text : Text) :
    (q.enqueueDelivery t jobId text).suppressedDeliveries = q.suppressedDeliveries := by
  unfold enqueueDelivery
  split
  · rfl
  · split
    · rfl
    · exact capDeliveries_suppressed _ _ _

@[simp] theorem beginDelivery_suppressed :
    (q.beginDelivery t d).suppressedDeliveries = q.suppressedDeliveries := by
  unfold beginDelivery
  split
  · rfl
  · split <;> rfl

@[simp] theorem failDelivery_suppressed (error : Text) (jitterMs : Nat) :
    (q.failDelivery t d error jitterMs).suppressedDeliveries = q.suppressedDeliveries := by
  unfold failDelivery
  dsimp only
  split
  · exact recordDeadLetterOrEvicted_suppressed _ _ _
  · split <;> rfl

@[simp] theorem evictRecord_suppressed (now : Int) (jobId : Text) (job : Option AsyncJob) :
    (q.evictRecord now jobId job).suppressedDeliveries = q.suppressedDeliveries := by
  unfold evictRecord
  dsimp only
  split
  · exact trimEvictedDeadLetters_suppressed _ _
  · rfl

variable {q t}

theorem mem_acknowledgeJob {jobId : Text} {g : Generation}
    (h : g ∈ (acknowledgeJob t q jobId).suppressedDeliveries) :
    g ∈ q.suppressedDeliveries ∨ g ∈ q.generationsOf t jobId := by
  unfold acknowledgeJob at h
  obtain ⟨suppressed, ids, heq, hmem, -⟩ :=
    Custody.suppress_foldl (fun _ => some jobId) (fun g => g) (q.generationsOf t jobId) q
  rw [heq] at h
  simpa using (hmem g).mp h

theorem mem_generationsOf_acknowledgeJob {jobId id : Text} {g : Generation}
    (h : g ∈ (acknowledgeJob t q jobId).generationsOf t id) : g ∈ q.generationsOf t id := by
  unfold acknowledgeJob at h
  obtain ⟨suppressed, ids, heq, -, -⟩ :=
    Custody.suppress_foldl (fun _ => some jobId) (fun g => g) (q.generationsOf t jobId) q
  rw [heq] at h
  unfold generationsOf at h ⊢
  rw [mem_append, mem_append] at h ⊢
  rcases h with (hrecord | hparked) | hclaim
  · exact .inl (.inl hrecord)
  · refine .inl (.inr ?_)
    exact (((values_retain_sublist _ _).filter _).map _).subset hparked
  · refine .inr ?_
    exact (((values_retain_sublist _ _).filter _).map _).subset hclaim

theorem mem_acknowledgeDeliveries {jobIds : List Text} {g : Generation}
    (h : g ∈ (q.acknowledgeDeliveries t jobIds).suppressedDeliveries) :
    g ∈ q.suppressedDeliveries ∨ g ∈ (uniqueJobIds jobIds).flatMap (q.generationsOf t) := by
  unfold acknowledgeDeliveries at h
  split at h
  · exact .inl h
  generalize uniqueJobIds jobIds = ids at h ⊢
  induction ids generalizing q with
  | nil => exact .inl h
  | cons id rest ih =>
    rw [flatMap_cons, mem_append]
    rcases ih h with hsuppressed | hrest
    · exact (mem_acknowledgeJob hsuppressed).imp_right .inl
    · obtain ⟨id', hid', hg⟩ := mem_flatMap.mp hrest
      exact .inr (.inr (mem_flatMap.mpr ⟨id', hid', mem_generationsOf_acknowledgeJob hg⟩))

end DeliveryQueue

namespace AsyncJobManager

variable (m : AsyncJobManager)

@[simp] theorem scheduleEviction_suppressed (jobId : Text) :
    (m.scheduleEviction jobId).queue.suppressedDeliveries = m.queue.suppressedDeliveries := by
  unfold scheduleEviction
  split
  · exact evictRecord_suppressed _ _ _ _
  · rfl

@[simp] theorem finishJob_suppressed (job : AsyncJob) (status : JobStatus) (text : Text) :
    (m.finishJob job status text).queue.suppressedDeliveries = m.queue.suppressedDeliveries := by
  unfold finishJob
  rw [scheduleEviction_suppressed]
  show (DeliveryQueue.enqueueDelivery _ _ _ _).suppressedDeliveries = _
  rw [DeliveryQueue.enqueueDelivery_suppressed, publishTerminal_queue]

@[simp] theorem register_suppressed (options : RegisterOptions) :
    (m.register options).queue.suppressedDeliveries = m.queue.suppressedDeliveries := by
  rw [register_eq]
  split
  · rfl
  · split
    · rfl
    · dsimp only
      exact finishJob_suppressed _ _ _ _

@[simp] theorem runEnds_suppressed (g : Generation) (outcome : RunOutcome) :
    (m.runEnds g outcome).queue.suppressedDeliveries = m.queue.suppressedDeliveries := by
  unfold runEnds
  split
  · rfl
  split
  · rfl
  split
  · rfl
  split
  · rw [scheduleEviction_suppressed, publishTerminal_queue]
  cases outcome with
  | paused => rfl
  | failed text => exact finishJob_suppressed _ _ _ _
  | completed text => exact finishJob_suppressed _ _ _ _

@[simp] theorem cancel_suppressed (id : Text) (filter : Option Text) :
    (m.cancel id filter).queue.suppressedDeliveries = m.queue.suppressedDeliveries := by
  unfold cancel
  split
  · rfl
  split
  · rfl
  split
  · rw [scheduleEviction_suppressed, publishTerminal_queue]
  · rw [publishTerminal_queue]

@[simp] theorem cancelAll_suppressed (filter : Option Text) :
    (m.cancelAll filter).queue.suppressedDeliveries = m.queue.suppressedDeliveries := by
  unfold cancelAll
  generalize m.table.getRunningJobs filter = jobs
  induction jobs generalizing m with
  | nil => rfl
  | cons job rest ih =>
    rw [foldl_cons, ih]
    split
    · rw [scheduleEviction_suppressed, cancel_suppressed]
    · rfl

def standingUnder (jobIds : List Text) : List Generation :=
  (uniqueJobIds jobIds).flatMap (m.queue.generationsOf m.table)

/-- The generations that the step acknowledges, by `acknowledgeDeliveries` or by the handle of a
wait.  The shutdown of an owner acknowledges what is pending for it. -/
def acknowledgedBy : Step → List Generation
  | .acknowledgeDeliveries jobIds => m.standingUnder jobIds
  | .finishOwnerSubagentShutdown ownerId true =>
    if ownerId ∈ m.queue.ownerSubagentShutdownLeases then
      m.standingUnder (m.pendingJobIds (some ownerId))
    else []
  | .acknowledgeWait token targetIds =>
    (m.acknowledges (.acknowledgeWait token targetIds)).map (·.generation)
  | _ => []

variable {m}

theorem mem_acknowledgeWait {token : Nat} {targetIds : Option (List Text)} {g : Generation}
    (h : g ∈ (m.acknowledgeWait token targetIds).queue.suppressedDeliveries) :
    g ∈ m.queue.suppressedDeliveries ∨ g ∈ m.acknowledgedBy (.acknowledgeWait token targetIds) := by
  unfold acknowledgedBy acknowledges
  dsimp only
  unfold acknowledgeWait at h
  cases hwait : m.waits.handles.get? token with
  | none =>
    rw [hwait] at h
    exact .inl h
  | some wait =>
    rw [hwait] at h
    dsimp only at h ⊢
    by_cases hopen : wait.acknowledged = true
    · rw [if_pos hopen] at h
      exact .inl h
    · rw [if_neg hopen] at h ⊢
      generalize ({ m with waits := _ } : AsyncJobManager).acknowledgedEvents token _ =
        events at h ⊢
      obtain ⟨suppressed, ids, heq, hmem, -⟩ :=
        Custody.suppress_foldl (fun e : TerminalEvent => e.jobId) (·.generation) events m.queue
      rw [heq] at h
      exact (hmem g).mp h

theorem mem_step_suppressed {s : Step} {g : Generation}
    (h : g ∈ (m.step s).queue.suppressedDeliveries) :
    g ∈ m.queue.suppressedDeliveries ∨ g ∈ m.acknowledgedBy s := by
  -- every other step leaves the suppressions as they are
  have hsame : ∀ {m' : AsyncJobManager}, m'.queue.suppressedDeliveries =
      m.queue.suppressedDeliveries →
      g ∈ m'.queue.suppressedDeliveries → g ∈ m.queue.suppressedDeliveries ∨
        g ∈ m.acknowledgedBy s :=
    fun heq hg => .inl (heq ▸ hg)
  cases s with
  | acknowledgeDeliveries jobIds => exact mem_acknowledgeDeliveries h
  | acknowledgeWait token targetIds => exact mem_acknowledgeWait h
  | finishOwnerSubagentShutdown ownerId commit =>
    simp only [step, finishOwnerSubagentShutdown] at h
    split at h
    · exact .inl h
    next hleased =>
    cases commit with
    | false => exact .inl h
    | true =>
      rw [not_not] at hleased
      show _ ∨ g ∈ ite _ _ _
      rw [if_pos hleased]
      exact @mem_acknowledgeDeliveries (m.queue.pruneEvictedDeadLetters m.table) m.table
        (m.pendingJobIds (some ownerId)) g h
  | getJobsSnapshot => exact .inl (mem_of_mem_filter h)
  | register options => exact hsame (register_suppressed m options) h
  | startResume subagentId seq options =>
    refine hsame ?_ h
    show (m.startResume subagentId seq options).queue.suppressedDeliveries = _
    unfold startResume
    dsimp only
    split
    · rfl
    · exact register_suppressed m options
  | runEnds g outcome => exact hsame (runEnds_suppressed m g outcome) h
  | failNow jobId g errorText =>
    refine hsame ?_ h
    show (m.failNow jobId g errorText).queue.suppressedDeliveries = _
    unfold failNow
    split
    · rfl
    split
    · rfl
    · exact finishJob_suppressed _ _ _ _
  | cancel id filter => exact hsame (cancel_suppressed m id filter) h
  | cancelAll filter => exact hsame (cancelAll_suppressed m filter) h
  | evictionTimer jobId =>
    refine hsame ?_ h
    show (m.evictionTimer jobId).queue.suppressedDeliveries = _
    unfold evictionTimer
    split
    · rfl
    split
    · rfl
    · exact evictRecord_suppressed _ _ _ _
  | startDelivery index =>
    refine hsame ?_ h
    show (m.startDelivery index).queue.suppressedDeliveries = _
    unfold startDelivery
    split
    · rfl
    split
    · rfl
    · exact beginDelivery_suppressed _ _ _
  | callbackThrows index error jitterMs =>
    refine hsame ?_ h
    show (m.callbackThrows index error jitterMs).queue.suppressedDeliveries = _
    unfold callbackThrows
    split
    · rfl
    · exact failDelivery_suppressed _ _ _ _ _
  | retainParkedDelivery g text =>
    simp only [step, retainParkedDelivery] at h
    split at h <;> exact .inl h
  | retainDeliveryClaim g =>
    simp only [step, retainDeliveryClaim] at h
    split at h <;> exact .inl h
  | beginOwnerSubagentShutdown ownerId =>
    simp only [step] at h
    split at h <;> exact .inl h
  | tick ms => exact .inl h
  | publishQueuedTerminal subagentId seq ownerId status => exact .inl h
  | subscribeTerminalWait targets condition => exact .inl h
  | closeWait token => exact .inl h
  | pruneTerminalEvents => exact .inl h
  | callbackReturns index => exact .inl h
  | watchJobs jobIds => exact .inl h
  | unwatchJobs jobIds => exact .inl h
  | watchJobGenerations jobIds => exact .inl h
  | closeWatch generations => exact .inl h
  | clearParkedDelivery g => exact .inl h
  | releaseDeliveryClaim g => exact .inl h
  | getDeliveryState => exact .inl h

end AsyncJobManager

namespace World

variable (w : World)

def observe (s : AsyncJobManager.Step) : World :=
  ⟨w.manager.step s, w.handedOver ++ w.manager.handsOver s,
    w.acknowledged ++ w.manager.acknowledgedBy s⟩

/-- The completion of a generation is held back: its job has ended and the completion is neither
queued, nor in flight, nor handed over, nor a dead letter, or the manager reports its deliveries as
suppressed. -/
def Withheld (counted : List Generation) (g : Generation) : Prop :=
  w.manager.table.Finished g ∧ ¬ Accounted { w with acknowledged := [] } counted g ∨
    ∃ id, g ∈ w.manager.queue.holders w.manager.table id ∧
      w.manager.queue.isDeliverySuppressed id g = true

def Watched (g : Generation) : Prop :=
  0 < (w.manager.queue.watchedGenerations.get? g).getD 0 ∨
    ∃ job ∈ w.manager.table.objects.get? g, 0 < (w.manager.queue.watchedJobs.get? job.id).getD 0

/-- `counted` names the dead letters that are only counted. -/
def WithholdsOnlyAcknowledged : Prop :=
  ∃ counted : List Generation, counted.length = w.manager.queue.deadLetterOverflowByOwner.total ∧
    ∀ g, w.Withheld counted g → g ∈ w.acknowledged ∨ w.Watched g

variable {w : World}

variable (h : w.manager.InCustody w.handedOver w.acknowledged)
include h

theorem id_of_holder {id : Text} {g : Generation}
    (hholder : g ∈ w.manager.queue.holders w.manager.table id) :
    ∃ job, w.manager.table.objects.get? g = some job ∧ job.id = id := by
  rcases mem_holders.mp hholder with hrecord | ⟨d, hd, rfl, rfl⟩
  · exact (Custody.table h).recorded hrecord
  · exact (Custody.pending h hd).1

theorem withholds_of_custody : w.WithholdsOnlyAcknowledged := by
  obtain ⟨⟨counted, hcounts, haccounted⟩, -⟩ := conserved_of_custody h
  refine ⟨counted, hcounts, ?_⟩
  rintro g (⟨hfinished, hnowhere⟩ | ⟨id, hholder, hsuppressed⟩)
  · left
    by_contra hnot
    apply hnowhere
    have hheld := haccounted g hfinished
    unfold Accounted at hheld ⊢
    simpa [hnot] using hheld
  · unfold isDeliverySuppressed at hsuppressed
    rw [Bool.or_eq_true, Bool.or_eq_true, decide_eq_true_eq, decide_eq_true_eq] at hsuppressed
    rcases hsuppressed with (hacked | hwatched) | hwatched
    · exact .inl (Custody.acknowledged h hacked hholder)
    · obtain ⟨job, hjob, rfl⟩ := id_of_holder h hholder
      exact .inr (.inr ⟨job, hjob, hwatched⟩)
    · exact .inr (.inl hwatched)

theorem custody_observe (hlive : w.manager.table.Live) {s : AsyncJobManager.Step}
    (hsafe : w.Safe s) :
    (w.observe s).manager.InCustody (w.observe s).handedOver (w.observe s).acknowledged := by
  refine Custody.mono (h.step hlive hsafe) fun g hg => ?_
  rcases mem_append.mp hg with hold | hnew
  · exact mem_append_left _ hold
  · rcases mem_step_suppressed hnew with hsuppressed | hacked
    · exact mem_append_left _ (Custody.suppressed h hsuppressed)
    · exact mem_append_right _ hacked

omit h

/-- What is withheld was acknowledged, or is watched. -/
theorem observe_withholds_only_acknowledged (now : Int) (retentionMs maxRunningJobs maxOwners : Nat)
    (steps : List AsyncJobManager.Step)
    (h : Guarded observe Safe (create now retentionMs maxRunningJobs maxOwners) steps) :
    (steps.foldl observe
      (create now retentionMs maxRunningJobs maxOwners)).WithholdsOnlyAcknowledged := by
  apply withholds_of_custody
  refine (Guarded.invariant (I := fun _ w => w.manager.table.Live ∧
    w.manager.InCustody w.handedOver w.acknowledged) ?_ ?_ h).2
  · rintro before s ⟨hlive, hcustody⟩ hsafe
    exact ⟨AsyncJobManager.Live.step hlive s, custody_observe hcustody hlive hsafe⟩
  · exact ⟨create_live _ _ _ _, create_inCustody _ _ _ _⟩

def acknowledgedInTime : List AsyncJobManager.Step :=
  [.register ⟨some "x".toList, none, false, none⟩, .runEnds (.job 1) (.completed "one".toList),
    .subscribeTerminalWait [⟨"x".toList, some "x".toList, .job 1⟩] .allTerminal,
    .acknowledgeWait 1 none, .getJobsSnapshot,
    .register ⟨some "x".toList, none, false, none⟩, .runEnds (.job 2) (.completed "two".toList)]

theorem acknowledgedInTime_withholds :
    (acknowledgedInTime.foldl observe (create 0 0 15 64)).manager.queue.deliveries.map
      (·.generation) = [.job 2] ∧
      (acknowledgedInTime.foldl observe (create 0 0 15 64)).acknowledged = [.job 1] ∧
      (acknowledgedInTime.foldl observe (create 0 0 15 64)).WithholdsOnlyAcknowledged :=
  ⟨by decide +kernel, by decide +kernel,
    observe_withholds_only_acknowledged 0 0 15 64 acknowledgedInTime (by decide +kernel)⟩

/-- The first job is handed over and its id goes to a second job, which completes and whose record
is evicted; then the wait for the first job acknowledges it. -/
def acknowledgedLate : List AsyncJobManager.Step :=
  [.register ⟨some "x".toList, none, false, none⟩,
    .subscribeTerminalWait [⟨"x".toList, some "x".toList, .job 1⟩] .allTerminal,
    .runEnds (.job 1) (.completed "one".toList), .startDelivery 0, .callbackReturns 0,
    .register ⟨some "x".toList, none, false, none⟩, .runEnds (.job 2) (.completed "two".toList),
    .acknowledgeWait 1 none]

/-- The completion of the second job is dropped. -/
theorem late_acknowledgement_withholds :
    ¬ (acknowledgedLate.foldl observe (create 0 0 15 64)).WithholdsOnlyAcknowledged := by
  rintro ⟨counted, hcounts, honly⟩
  have hnone : (acknowledgedLate.foldl observe
      (create 0 0 15 64)).manager.queue.deadLetterOverflowByOwner.total = 0 := by decide +kernel
  rw [hnone, length_eq_zero_iff] at hcounts
  subst hcounts
  have hdropped : (acknowledgedLate.foldl observe (create 0 0 15 64)).Withheld [] (.job 2) :=
    .inl (by decide +kernel)
  rcases honly (.job 2) hdropped with hacked | hwatched | ⟨job, -, hwatched⟩
  · exact absurd hacked (by decide +kernel)
  · exact absurd hwatched (by decide +kernel)
  · have hempty :
        (acknowledgedLate.foldl observe (create 0 0 15 64)).manager.queue.watchedJobs.entries =
      [] := by decide +kernel
    simp [get?, hempty] at hwatched

end World

end Vibrato.Jobs
