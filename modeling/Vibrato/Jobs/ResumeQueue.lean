import Vibrato.Jobs.Capacity

namespace Vibrato.Jobs

open Lib List OrderedMap AsyncJobManager SubagentManager

/-- The calls that reserve, use and free capacity, and the timers and deliveries beside them.  The
runner of a resume starts a job whenever it is called. -/
def SubagentStep.UsesCapacity : SubagentStep → Prop
  | .aside _ | .reserveCapacity | .releaseCapacity _ | .register .. | .launchSubagent ..
  | .setResumeRunner | .evictionTimer _ | .getSubagentRecord .. => True
  | .runEnds runner .. | .failNow runner .. | .resumeSubagent runner .. =>
    ∀ subagentId message, (runner subagentId message).isSome = true
  | _ => False

namespace SubagentManager

variable {s s' : SubagentManager}

/-- The record of a queued resume says that its subagent is queued, and a runner can be found for
it. -/
structure Waiting (s : SubagentManager) (entry : ResumeQueueEntry) (record : SubagentRecord) :
    Prop where
  recorded : s.subagentRecords.get? entry.subagentId = some record
  status : record.status = .queued
  queued : ∃ queued, record.queued = some queued ∧ queued.seq = entry.seq
  runner : s.hasResumeRunner entry.subagentId record = true

/-- The job of a queued resume has been registered and runs, and waits for the resume follow it. -/
structure Started (s s' : SubagentManager) (entry : ResumeQueueEntry) : Prop where
  job : ∃ record g job, s'.subagentRecords.get? entry.subagentId = some record ∧
    record.status = .running ∧ record.currentJobGeneration = some g ∧
    s.manager.table.objects.get? g = none ∧ s'.manager.table.objects.get? g = some job ∧
    s'.manager.waits.waitGenerationAliases.get? (.queued entry.subagentId entry.seq) = some g

def Proceeds (s s' : SubagentManager) (entry : ResumeQueueEntry) : Prop :=
  (∃ entry' ∈ s'.resumeQueue, entry'.subagentId = entry.subagentId ∧ entry'.seq = entry.seq) ∨
    Started s s' entry

structure SameControl (s s' : SubagentManager) : Prop where
  admissions : s'.admissions = s.admissions
  pendingAdmissions : s'.pendingAdmissions = s.pendingAdmissions
  resumeDescriptors : s'.resumeDescriptors = s.resumeDescriptors
  descriptorResumeRunners : s'.descriptorResumeRunners = s.descriptorResumeRunners
  resumeRunner : s'.resumeRunner = s.resumeRunner
  leases : s'.ownerSubagentShutdownLeases = s.ownerSubagentShutdownLeases
  max : s'.manager.table.maxRunningJobs = s.manager.table.maxRunningJobs

variable {s'' : SubagentManager} {entry : ResumeQueueEntry} {record : SubagentRecord}
  {runner : ResumeRunner} {subagentId : Text} {entries : List ResumeQueueEntry} {token : Nat}
  {x : SubagentStep} {steps : List SubagentStep}

theorem SameControl.trans (h : SameControl s s') (h' : SameControl s' s'') : SameControl s s'' where
  admissions := h'.admissions.trans h.admissions
  pendingAdmissions := h'.pendingAdmissions.trans h.pendingAdmissions
  resumeDescriptors := h'.resumeDescriptors.trans h.resumeDescriptors
  descriptorResumeRunners := h'.descriptorResumeRunners.trans h.descriptorResumeRunners
  resumeRunner := h'.resumeRunner.trans h.resumeRunner
  leases := h'.leases.trans h.leases
  max := h'.max.trans h.max

theorem SameControl.hasResumeRunner (h : SameControl s s') (subagentId : Text)
    (record : SubagentRecord) :
    s'.hasResumeRunner subagentId record = s.hasResumeRunner subagentId record := by
  unfold SubagentManager.hasResumeRunner descriptorForRecord
  rw [h.resumeDescriptors, h.descriptorResumeRunners, h.resumeRunner]

theorem Waiting.congr (h : s.Waiting entry record) (hcontrol : SameControl s s')
    (hrecord : s'.subagentRecords.get? entry.subagentId = s.subagentRecords.get? entry.subagentId) :
    s'.Waiting entry record :=
  ⟨hrecord.trans h.recorded, h.status, h.queued, (hcontrol.hasResumeRunner _ _).trans h.runner⟩

structure Drains (s : SubagentManager) (entries : List ResumeQueueEntry) : Prop where
  sound : s.Sound
  tracked : s.manager.table.Tracked
  unfenced : s.ownerSubagentShutdownLeases = .empty
  bounded : s.running + s.pendingAdmissions ≤ s.manager.table.maxRunningJobs
  unreserved : entries ≠ [] → s.pendingAdmissions = 0
  waiting : ∀ entry ∈ entries, ∃ record, s.Waiting entry record
  distinct : (entries.map (·.subagentId)).Nodup
  noneQueued : s.manager.waits.NoneQueued

structure Drained (s : SubagentManager) (entries kept : List ResumeQueueEntry)
    (s' : SubagentManager) :
    Prop where
  drains : Drains s' kept
  moves : Moves s s'
  control : SameControl s s'
  full : kept ≠ [] → s'.manager.table.maxRunningJobs ≤ s'.running
  others : ∀ {subagentId}, subagentId ∉ entries.map (·.subagentId) →
    s'.subagentRecords.get? subagentId = s.subagentRecords.get? subagentId ∧
      ∀ {seq}, s'.manager.waits.waitGenerationAliases.get? (.queued subagentId seq) =
        s.manager.waits.waitGenerationAliases.get? (.queued subagentId seq)
  started : ∀ entry ∈ entries, entry ∈ kept ∨ Started s s' entry

theorem isFenced_of_empty (h : s.ownerSubagentShutdownLeases = .empty) (ownerId : Option Text) :
    s.isFenced ownerId = false := by
  unfold isFenced
  rw [h]
  cases ownerId <;> rfl

theorem startResume_starts (hunfenced : s.ownerSubagentShutdownLeases = .empty)
    (hcapacity : s.hasCapacity = true)
    (hwaiting : s.Waiting entry record)
    (hrunner : ∀ subagentId message, (runner subagentId message).isSome = true) :
    ∃ launch, s.startResume runner entry.subagentId record entry.message =
      .ok (some ((s.enter launch).2.resumed entry.subagentId record (s.enter launch).1)) := by
  obtain ⟨launch, hlaunch⟩ := Option.isSome_iff_exists.mp (hrunner entry.subagentId entry.message)
  refine ⟨launch, ?_⟩
  unfold startResume register
  simp [isFenced_of_empty hunfenced, hwaiting.runner, hlaunch, hcapacity]

theorem resumed_enter_control (s : SubagentManager) (launch : Launch) (subagentId : Text)
    (record : SubagentRecord) :
    SameControl s ((s.enter launch).2.resumed subagentId record (s.enter launch).1) :=
  ⟨rfl, rfl, rfl, rfl, rfl, rfl, rfl⟩

theorem resumed_enter_started (h : s.Sound) (hwaiting : s.Waiting entry record) (launch : Launch) :
    Started s ((s.enter launch).2.resumed entry.subagentId record (s.enter launch).1) entry := by
  have hjob := s.enter_get launch
  obtain ⟨queued, hqueued, hseq⟩ := hwaiting.queued
  refine ⟨_, (s.manager.newJob launch.options).generation, s.manager.newJob launch.options,
    get?_set_self _ _ _, ?_, ?_, h.live.toWellFormed.fresh, ?_, ?_⟩
  · simp only [hjob]
    rfl
  · simp only [hjob]
    rfl
  · exact get?_set_self _ _ _
  · unfold resumed
    simp only [hjob, hqueued, ← hseq]
    exact get?_set_self _ _ _

theorem resumed_others (s : SubagentManager) {other : Text} (jobId : Text)
    (record : SubagentRecord) (hother : other ≠ subagentId) :
    (s.resumed subagentId record jobId).subagentRecords.get? other = s.subagentRecords.get? other ∧
      ∀ {seq}, (s.resumed subagentId record jobId).manager.waits.waitGenerationAliases.get?
        (.queued other seq) = s.manager.waits.waitGenerationAliases.get? (.queued other seq) := by
  refine ⟨get?_set_ne _ _ hother, ?_⟩
  intro seq
  unfold resumed
  dsimp only
  split
  · exact get?_set_ne _ _ (by simp [hother])
  · rfl

theorem Started.of_moves (hmoves : Moves s s') (h : Started s' s'' entry) :
    Started s s'' entry := by
  obtain ⟨record, g, job, hrecord, hstatus, hgen, hnew, hjob, halias⟩ := h.job
  refine ⟨record, g, job, hrecord, hstatus, hgen, ?_, hjob, halias⟩
  cases hold : s.manager.table.objects.get? g with
  | none => rfl
  | some old =>
    obtain ⟨kept, hkept, -⟩ := hmoves.kept hold
    rw [hnew] at hkept
    cases hkept

theorem Started.then (h : Started s s' entry) (hmoves : Moves s' s'')
    (hother : s''.subagentRecords.get? entry.subagentId = s'.subagentRecords.get? entry.subagentId ∧
      ∀ {seq}, s''.manager.waits.waitGenerationAliases.get? (.queued entry.subagentId seq) =
        s'.manager.waits.waitGenerationAliases.get? (.queued entry.subagentId seq)) :
    Started s s'' entry := by
  obtain ⟨record, g, job, hrecord, hstatus, hgen, hnew, hjob, halias⟩ := h.job
  obtain ⟨job', hjob', -⟩ := hmoves.kept hjob
  exact ⟨record, g, job', hother.1.trans hrecord, hstatus, hgen, hnew, hjob', hother.2.trans halias⟩

theorem drainEntries_drained (hrunner : ∀ subagentId message,
    (runner subagentId message).isSome = true)
    (h : Drains s entries) :
    Drained s entries (drainEntries runner entries s).1 (drainEntries runner entries s).2 := by
  induction entries generalizing s with
  | nil =>
    exact ⟨h, .refl h.sound, ⟨rfl, rfl, rfl, rfl, rfl, rfl, rfl⟩, fun hne => absurd rfl hne,
      fun _ => ⟨rfl, rfl⟩, fun entry hmem => by cases hmem⟩
  | cons entry rest ih =>
    by_cases hfull : s.manager.table.maxRunningJobs ≤ s.running
    · have hstop : drainEntries runner (entry :: rest) s = (entry :: rest, s) := by
        unfold drainEntries
        rw [if_pos hfull]
      rw [hstop]
      exact ⟨h, .refl h.sound, ⟨rfl, rfl, rfl, rfl, rfl, rfl, rfl⟩, fun _ => hfull,
        fun _ => ⟨rfl, rfl⟩, fun entry hmem => .inl hmem⟩
    obtain ⟨record, hwaiting⟩ := h.waiting entry mem_cons_self
    have hunreserved := h.unreserved (cons_ne_nil entry rest)
    have hcapacity : s.hasCapacity = true := by
      simp only [hasCapacity, hunreserved, decide_eq_true_eq]
      omega
    obtain ⟨launch, hstart⟩ := startResume_starts h.unfenced hcapacity hwaiting hrunner
    have hstarted := resumed_enter_started h.sound hwaiting launch
    have hcontrol := s.resumed_enter_control launch entry.subagentId record
    have hmoves := startResume_moves h.sound hstart
    have hothers := fun {other} (hother : other ≠ entry.subagentId) =>
      (s.enter launch).2.resumed_others (s.enter launch).1 record hother
    obtain ⟨htracked, hrunning⟩ := AsyncJobManager.Tracked.admitJob h.tracked launch.options
    generalize hnext : (s.enter launch).2.resumed entry.subagentId record (s.enter launch).1 = next
      at hstart hstarted hcontrol hmoves hothers
    have htable : next.manager.table = (s.manager.admitJob launch.options).table := by
      rw [← hnext]
      rfl
    have hstep : drainEntries runner (entry :: rest) s = drainEntries runner rest next := by
      conv_lhs => unfold drainEntries
      rw [if_neg hfull, hwaiting.recorded]
      dsimp only
      rw [if_neg (not_not.mpr hwaiting.status),
        if_neg (by simp [isFenced_of_empty h.unfenced]), hstart]
    obtain ⟨hnew, hdistinct⟩ := nodup_cons.mp h.distinct
    have hother : ∀ {other : ResumeQueueEntry}, other ∈ rest →
        other.subagentId ≠ entry.subagentId := by
      intro other hmem heq
      exact hnew (mem_map.mpr ⟨other, hmem, heq⟩)
    have hrest : Drains next rest := by
      refine ⟨hmoves.sound, htable ▸ htracked, hcontrol.leases.trans h.unfenced, ?_, ?_, ?_,
        hdistinct, ?_⟩
      · rw [hcontrol.pendingAdmissions, hcontrol.max, running, htable]
        unfold running at hfull
        omega
      · intro _
        exact hcontrol.pendingAdmissions.trans hunreserved
      · intro other hmem
        obtain ⟨record', hwaiting'⟩ := h.waiting other (mem_cons_of_mem entry hmem)
        exact ⟨record', hwaiting'.congr hcontrol (hothers (hother hmem)).1⟩
      · rw [← hnext]
        exact h.noneQueued
    rw [hstep]
    have hdrained := ih hrest
    refine ⟨hdrained.drains, hmoves.trans hdrained.moves, hcontrol.trans hdrained.control,
      hdrained.full, fun {subagentId} hnot => ?_, fun e hmem => ?_⟩
    · rw [map_cons, mem_cons, not_or] at hnot
      obtain ⟨hrecord, halias⟩ := hdrained.others hnot.2
      obtain ⟨hrecord', halias'⟩ := hothers hnot.1
      exact ⟨hrecord.trans hrecord', halias.trans halias'⟩
    · rcases mem_cons.mp hmem with rfl | hmem
      · exact .inr (hstarted.then hdrained.moves (hdrained.others hnew))
      · exact (hdrained.started e hmem).imp id (Started.of_moves hmoves)

/-- Reservations are counted, and resumes wait only while every slot has a running job. -/
structure CapacityInv (s : SubagentManager) : Prop extends Drains s s.resumeQueue where
  reserved : s.pendingAdmissions = s.admissions.count true
  full : s.resumeQueue ≠ [] → s.manager.table.maxRunningJobs ≤ s.running

theorem unreserved_of_full (hbounded : s.running + s.pendingAdmissions ≤
    s.manager.table.maxRunningJobs)
    (hfull : s.resumeQueue ≠ [] → s.manager.table.maxRunningJobs ≤ s.running)
    (hne : s.resumeQueue ≠ []) : s.pendingAdmissions = 0 := by
  have := hfull hne
  omega

theorem create_capacityInv (now : Int) (retentionMs maxRunningJobs maxOwners : Nat) :
    (create now retentionMs maxRunningJobs maxOwners).CapacityInv where
  sound := create_sound now retentionMs maxRunningJobs maxOwners
  tracked :=
    { (create_sound now retentionMs maxRunningJobs maxOwners).live with
      tracked := fun h => by cases h
      timers := fun h => by cases h }
  unfenced := rfl
  bounded := Nat.zero_le _
  unreserved h := absurd rfl h
  waiting _ h := by cases h
  distinct := nodup_nil
  noneQueued _ _ := rfl
  reserved := rfl
  full h := absurd rfl h

theorem CapacityInv.settledJobIds (h : s.CapacityInv) (ids : List Text) :
    CapacityInv { s with settledJobIds := ids } where
  sound := ⟨h.sound.live, h.sound.records⟩
  tracked := h.tracked
  unfenced := h.unfenced
  bounded := h.bounded
  unreserved := h.unreserved
  waiting entry hmem := by
    obtain ⟨record, hwaiting⟩ := h.waiting entry hmem
    exact ⟨record, hwaiting.recorded, hwaiting.status, hwaiting.queued, hwaiting.runner⟩
  distinct := h.distinct
  noneQueued := h.noneQueued
  reserved := h.reserved
  full := h.full

theorem Drains.perm {entries' : List ResumeQueueEntry} (h : Drains s entries)
    (hperm : entries'.Perm entries) : Drains s entries' where
  sound := h.sound
  tracked := h.tracked
  unfenced := h.unfenced
  bounded := h.bounded
  unreserved hne := h.unreserved fun hnil => hne (hnil ▸ hperm).eq_nil
  waiting entry hmem := h.waiting entry (hperm.mem_iff.mp hmem)
  distinct := (hperm.map _).nodup_iff.mpr h.distinct
  noneQueued := h.noneQueued

theorem CapacityInv.drain (h : s.CapacityInv) (hmoves : Moves s s') (hcontrol : SameControl s s')
    (hqueue : s'.resumeQueue = s.resumeQueue) (htracked : s'.manager.table.Tracked)
    (hrunning : s'.running ≤ s.running) (hnone : s'.manager.waits.NoneQueued)
    (hrecords : ∀ {entry record}, s.Waiting entry record →
      s'.subagentRecords.get? entry.subagentId = s.subagentRecords.get? entry.subagentId)
    (hrunner : ∀ subagentId message, (runner subagentId message).isSome = true) :
    (s'.drainResumeQueue runner).CapacityInv ∧
      (s'.drainResumeQueue runner).admissions = s.admissions ∧
      (s'.drainResumeQueue runner).manager.table.maxRunningJobs = s.manager.table.maxRunningJobs ∧
      ∀ entry ∈ s.resumeQueue, Proceeds s (s'.drainResumeQueue runner) entry := by
  have hdrains : Drains s' s.resumeQueue := by
    refine ⟨hmoves.sound, htracked, hcontrol.leases.trans h.unfenced, ?_, ?_, ?_, h.distinct, hnone⟩
    · rw [hcontrol.pendingAdmissions, hcontrol.max]
      exact Nat.le_trans (Nat.add_le_add_right hrunning _) h.bounded
    · intro hne
      exact hcontrol.pendingAdmissions.trans (h.unreserved hne)
    · intro entry hmem
      obtain ⟨record, hwaiting⟩ := h.waiting entry hmem
      exact ⟨record, hwaiting.congr hcontrol (hrecords hwaiting)⟩
  have hperm := perm_insertionSort (fun a b : ResumeQueueEntry => a.seq ≤ b.seq) s.resumeQueue
  have hdrained := drainEntries_drained hrunner (hdrains.perm hperm)
  unfold drainResumeQueue
  rw [hqueue]
  generalize drainEntries runner (s.resumeQueue.insertionSort fun a b => a.seq ≤ b.seq) s' = drained
    at hdrained
  obtain ⟨kept, next⟩ := drained
  have hall := hcontrol.trans hdrained.control
  refine ⟨⟨⟨⟨hdrained.drains.sound.live, hdrained.drains.sound.records⟩, hdrained.drains.tracked,
    hdrained.drains.unfenced, hdrained.drains.bounded, hdrained.drains.unreserved, ?_,
    hdrained.drains.distinct, hdrained.drains.noneQueued⟩, ?_, hdrained.full⟩, hall.admissions,
    hall.max, ?_⟩
  · intro entry hmem
    obtain ⟨record, hwaiting⟩ := hdrained.drains.waiting entry hmem
    exact ⟨record, hwaiting.recorded, hwaiting.status, hwaiting.queued, hwaiting.runner⟩
  · exact hall.pendingAdmissions.trans (h.reserved.trans (congrArg _ hall.admissions.symm))
  · intro entry hmem
    rcases hdrained.started entry (hperm.mem_iff.mpr hmem) with hkept | hstarted
    · exact .inl ⟨entry, hkept, rfl, rfl⟩
    · obtain ⟨hjob⟩ := hstarted.of_moves hmoves
      exact .inr ⟨hjob⟩

theorem markRecord_waiting (h : s.Sound) {m : AsyncJobManager} {g : Generation} {job : AsyncJob}
    (hjob : s.manager.table.objects.get? g = some job) (hrunning : job.status = .running)
    (hwaiting : s.Waiting entry record) (jobId : Text) (status : SubagentLifecycle) :
    ({ s with manager := m }.markRecord jobId g status).subagentRecords.get? entry.subagentId =
      s.subagentRecords.get? entry.subagentId := by
  unfold markRecord
  cases hfound : recordByJobId { s with manager := m } jobId g with
  | none => rfl
  | some found =>
    obtain ⟨key, found⟩ := found
    obtain ⟨hrecord, -, hgen⟩ := recordByJobId_eq_some hfound
    refine get?_set_ne _ _ fun hkey => ?_
    rw [← hkey, hwaiting.recorded] at hrecord
    cases hrecord
    refine h.not_running hwaiting.recorded ?_ g job hgen hjob hrunning
    rw [hwaiting.status]
    decide

structure Keeps (s s' : SubagentManager) : Prop where
  inv : s'.CapacityInv
  max : s'.manager.table.maxRunningJobs = s.manager.table.maxRunningJobs
  spent : ∀ {token : Nat}, s.admissions[token]? = some false → s'.admissions[token]? = some false
  proceeds : ∀ entry ∈ s.resumeQueue, Proceeds s s' entry

theorem Keeps.refl (h : s.CapacityInv) : Keeps s s :=
  ⟨h, rfl, fun hspent => hspent, fun entry hmem => .inl ⟨entry, hmem, rfl, rfl⟩⟩

theorem runEnds_keeps (h : s.CapacityInv)
    (hrunner : ∀ subagentId message, (runner subagentId message).isSome = true) (g : Generation)
    (outcome : AsyncJobManager.RunOutcome) : Keeps s (s.runEnds runner g outcome) := by
  unfold runEnds
  cases hjob : s.manager.table.objects.get? g with
  | none => exact .refl h
  | some job =>
    dsimp only
    split
    · exact .refl h
    next hunsettled =>
    rw [not_not] at hunsettled
    have hmoves := settleRun_moves h.sound hjob hunsettled outcome
    have hsettles := s.manager.runEnds_settles g outcome
    have hframe : ∃ records ids, s.settleRun job g outcome = { s with
        manager := s.manager.runEnds g outcome, subagentRecords := records,
          settledJobIds := ids } := by
      unfold settleRun
      dsimp only
      split
      · exact ⟨_, _, rfl⟩
      obtain ⟨records, hmarked⟩ := markRecord_frame
        { s with manager := s.manager.runEnds g outcome } job.id g (lifecycleAfter job outcome)
      split
      · exact ⟨_, _, hmarked⟩
      · obtain ⟨ids, hids⟩ := forgetEvicted_frame (markRecord
          { s with manager := s.manager.runEnds g outcome } job.id g
            (lifecycleAfter job outcome)) job.id
        rw [hids, hmarked]
        exact ⟨_, _, rfl⟩
    have hrecords : ∀ {entry record}, s.Waiting entry record →
        (s.settleRun job g outcome).subagentRecords.get? entry.subagentId =
          s.subagentRecords.get? entry.subagentId := by
      intro entry record hwaiting
      unfold settleRun
      dsimp only
      split
      · rfl
      next hext =>
      have hrunning := (h.tracked.tracked hunsettled hext hjob).2
      have hmarked := markRecord_waiting (m := s.manager.runEnds g outcome) h.sound hjob hrunning
        hwaiting job.id (lifecycleAfter job outcome)
      split
      · exact hmarked
      · obtain ⟨ids, hids⟩ := forgetEvicted_frame (markRecord
          { s with manager := s.manager.runEnds g outcome } job.id g
            (lifecycleAfter job outcome)) job.id
        rw [hids]
        exact hmarked
    have htracked := AsyncJobManager.Tracked.runEnds h.tracked g outcome
    have hnone := runEnds_noneQueued h.noneQueued h.sound.live.toWellFormed g outcome
    obtain ⟨records, ids, hsettled⟩ := hframe
    rw [hsettled] at hmoves hrecords ⊢
    obtain ⟨hinv, hadmissions, hmax, hproceeds⟩ := h.drain hmoves
      ⟨rfl, rfl, rfl, rfl, rfl, rfl, hsettles.max⟩ rfl htracked hsettles.running_le hnone
        hrecords hrunner
    refine ⟨hinv.settledJobIds _, hmax, fun hspent => ?_, fun entry hmem => ?_⟩
    · rw [← hspent]
      exact congrArg (·[_]?) hadmissions
    · exact (hproceeds entry hmem).imp id fun hstarted => ⟨hstarted.job⟩

theorem failNow_keeps (h : s.CapacityInv)
    (hrunner : ∀ subagentId message, (runner subagentId message).isSome = true) (jobId : Text)
    (g : Generation) (errorText : Text) : Keeps s (s.failNow runner jobId g errorText) := by
  unfold failNow
  cases hget : s.manager.table.get jobId with
  | none => exact .refl h
  | some job =>
    dsimp only
    split
    · exact .refl h
    next hguard =>
    push Not at hguard
    obtain ⟨rfl, hrunning, hext⟩ := hguard
    have hmoves := settleFailed_moves h.sound hget hrunning hext errorText
    have hsettles := s.manager.failNow_settles jobId job.generation errorText
    obtain ⟨-, hjob, -⟩ := h.sound.live.toWellFormed.get_eq_some hget
    have hmarked := fun {entry record} (hwaiting : s.Waiting entry record) =>
      markRecord_waiting (m := s.manager.failNow jobId job.generation errorText) h.sound hjob
        hrunning
        hwaiting jobId .failed
    have htracked := AsyncJobManager.Tracked.failNow h.tracked hget hrunning hext errorText
    have hnone := failNow_noneQueued h.noneQueued h.sound.live.toWellFormed jobId
      job.generation errorText
    unfold settleFailed at hmoves ⊢
    obtain ⟨ids, hids⟩ := forgetEvicted_frame (markRecord
      { s with manager := s.manager.failNow jobId job.generation errorText } jobId job.generation
      .failed) jobId
    obtain ⟨records, hframe⟩ := markRecord_frame
      { s with manager := s.manager.failNow jobId job.generation errorText } jobId
        job.generation .failed
    rw [hids] at hmoves ⊢
    simp only [hframe] at hmoves hmarked ⊢
    obtain ⟨hinv, hadmissions, hmax, hproceeds⟩ := h.drain hmoves
      ⟨rfl, rfl, rfl, rfl, rfl, rfl, hsettles.max⟩ rfl htracked hsettles.running_le hnone
        hmarked hrunner
    refine ⟨hinv, hmax, fun hspent => ?_, hproceeds⟩
    rw [hadmissions]
    exact hspent

theorem CapacityInv.of_idle (hidle : s.resumeQueue = []) (hsound : s.Sound)
    (htracked : s.manager.table.Tracked) (hunfenced : s.ownerSubagentShutdownLeases = .empty)
    (hbounded : s.running + s.pendingAdmissions ≤ s.manager.table.maxRunningJobs)
    (hnone : s.manager.waits.NoneQueued)
    (hreserved : s.pendingAdmissions = s.admissions.count true) :
    s.CapacityInv where
  sound := hsound
  tracked := htracked
  unfenced := hunfenced
  bounded := hbounded
  unreserved hne := absurd hidle hne
  waiting entry hmem := by
    rw [hidle] at hmem
    cases hmem
  distinct := by
    rw [hidle]
    exact nodup_nil
  noneQueued := hnone
  reserved := hreserved
  full hne := absurd hidle hne

theorem CapacityInv.idle (h : s.CapacityInv) (hroom : s.running < s.manager.table.maxRunningJobs) :
    s.resumeQueue = [] := by
  by_contra hne
  have := h.full hne
  omega

theorem consumed_count (h : s.admissions[token]? = some true) :
    (s.admissions.set token false).count true + 1 = s.admissions.count true := by
  obtain ⟨hlt, hlive⟩ := List.getElem?_eq_some_iff.mp h
  have hpos : 0 < s.admissions.count true :=
    count_pos_iff.mpr (hlive ▸ getElem_mem hlt)
  rw [count_set hlt, hlive]
  simp
  omega

theorem register_capacity (h : s.CapacityInv) {launch : Launch} {token : Option Nat} {jobId : Text}
    (hok : s.register launch token = .ok (jobId, s')) :
    s.resumeQueue = [] ∧ s'.CapacityInv ∧ s'.resumeQueue = [] ∧
      s'.manager.table.maxRunningJobs = s.manager.table.maxRunningJobs ∧
      (∀ {t : Nat}, s.admissions[t]? = some false → s'.admissions[t]? = some false) ∧
      ∀ {t : Nat}, token = some t → s.admissions[t]? = some true ∧
        s'.admissions[t]? = some false := by
  have hsound := (register_moves h.sound hok).1.sound
  obtain ⟨htracked, hrunning⟩ := AsyncJobManager.Tracked.admitJob h.tracked launch.options
  have hbounded := h.bounded
  unfold running at hbounded
  obtain ⟨-, ⟨rfl, hcapacity, heq⟩ | ⟨t, used, rfl, hused, heq⟩⟩ := register_ok hok
  · simp only [hasCapacity, decide_eq_true_eq] at hcapacity
    have hidle := h.idle (by omega)
    cases heq
    refine ⟨hidle, .of_idle hidle hsound htracked h.unfenced ?_ h.noneQueued h.reserved, hidle,
      rfl, fun hspent => hspent, fun htoken => by cases htoken⟩
    show ((s.manager.admitJob launch.options).table.getRunningJobs none).length +
        s.pendingAdmissions ≤ s.manager.table.maxRunningJobs
    unfold running at hcapacity
    omega
  · obtain ⟨hlive, rfl⟩ := consumeAdmission_eq hused
    have hcount := consumed_count hlive
    have hreserved := h.reserved
    have hidle := h.idle (by unfold running; omega)
    cases heq
    refine ⟨hidle, .of_idle hidle hsound htracked h.unfenced ?_ h.noneQueued ?_, hidle, rfl, ?_, ?_⟩
    · show ((s.manager.admitJob launch.options).table.getRunningJobs none).length +
        (s.pendingAdmissions - 1) ≤ s.manager.table.maxRunningJobs
      omega
    · show s.pendingAdmissions - 1 = (s.admissions.set t false).count true
      omega
    · intro other hspent
      rw [getElem?_set]
      split
      · next heq =>
        subst heq
        rw [hspent] at hlive
        cases hlive
      · exact hspent
    · rintro _ ⟨⟩
      refine ⟨hlive, ?_⟩
      rw [getElem?_set_self (List.getElem?_eq_some_iff.mp hlive).1]

theorem Keeps.of_same (h : s.CapacityInv) (hsound : s'.Sound) (hcontrol : SameControl s s')
    (hqueue : s'.resumeQueue = s.resumeQueue) (htracked : s'.manager.table.Tracked)
    (hrunning : s'.running = s.running) (hnone : s'.manager.waits.NoneQueued)
    (hrecords : ∀ {entry record}, s.Waiting entry record →
      s'.subagentRecords.get? entry.subagentId = s.subagentRecords.get? entry.subagentId) :
    Keeps s s' := by
  have hbounded : s'.running + s'.pendingAdmissions ≤ s'.manager.table.maxRunningJobs := by
    rw [hrunning, hcontrol.pendingAdmissions, hcontrol.max]
    exact h.bounded
  have hfull : s'.resumeQueue ≠ [] → s'.manager.table.maxRunningJobs ≤ s'.running := by
    rw [hqueue, hcontrol.max, hrunning]
    exact h.full
  refine ⟨⟨⟨hsound, htracked, hcontrol.leases.trans h.unfenced, hbounded,
    unreserved_of_full hbounded hfull, ?_, ?_, hnone⟩, ?_, hfull⟩, hcontrol.max, ?_, ?_⟩
  · intro entry hmem
    obtain ⟨record, hwaiting⟩ := h.waiting entry (hqueue ▸ hmem)
    exact ⟨record, hwaiting.congr hcontrol (hrecords hwaiting)⟩
  · rw [hqueue]
    exact h.distinct
  · rw [hcontrol.pendingAdmissions, hcontrol.admissions]
    exact h.reserved
  · intro token hspent
    rw [hcontrol.admissions]
    exact hspent
  · intro entry hmem
    exact .inl ⟨entry, hqueue ▸ hmem, rfl, rfl⟩

theorem getSubagentRecord_keeps (h : s.CapacityInv) (subagentId : Text) (filter : Option Text) :
    Keeps s (s.getSubagentRecord subagentId filter).2 := by
  have hsound := (getSubagentRecord_moves h.sound subagentId filter).sound
  unfold getSubagentRecord at hsound ⊢
  cases hrecord : s.subagentRecords.get? (Text.trim subagentId) with
  | some record => exact .refl h
  | none =>
    simp only [hrecord] at hsound ⊢
    cases hdescriptor : s.getResumeDescriptor (Text.trim subagentId) filter with
    | none => exact .refl h
    | some descriptor =>
      simp only [hdescriptor] at hsound
      refine .of_same h hsound ⟨rfl, rfl, rfl, rfl, rfl, rfl, rfl⟩ rfl h.tracked rfl h.noneQueued ?_
      intro entry record hwaiting
      -- a subagent that waits has a record already
      refine get?_set_ne _ _ fun hkey => ?_
      have hrecorded := hwaiting.recorded
      rw [hkey, hrecord] at hrecorded
      cases hrecorded

theorem Keeps.trans (h : Keeps s s') (hmoves : Moves s s')
    (h' : Keeps s' s'') (hqueue : s'.resumeQueue = s.resumeQueue) : Keeps s s'' where
  inv := h'.inv
  max := h'.max.trans h.max
  spent hspent := h'.spent (h.spent hspent)
  proceeds entry hmem :=
    (h'.proceeds entry (hqueue ▸ hmem)).imp id (Started.of_moves hmoves)

def ticket (entry : ResumeQueueEntry) : Text × Nat := (entry.subagentId, entry.seq)

theorem setQueuedMessage_tickets (s : SubagentManager) (subagentId : Text) (record : SubagentRecord)
    (message : Text) : (s.setQueuedMessage subagentId record message).resumeQueue.map ticket =
      s.resumeQueue.map ticket := by
  unfold setQueuedMessage
  split
  · rfl
  · apply ext_getElem?
    intro index
    rw [getElem?_map, getElem?_map, getElem?_modify]
    cases s.resumeQueue[index]? with
    | none => rfl
    | some entry =>
      split <;> rfl

theorem mem_of_tickets {queue queue' : List ResumeQueueEntry}
    (h : queue'.map ticket = queue.map ticket) (hmem : entry ∈ queue) :
    ∃ entry' ∈ queue', entry'.subagentId = entry.subagentId ∧ entry'.seq = entry.seq := by
  have hticket : ticket entry ∈ queue'.map ticket := h ▸ mem_map_of_mem hmem
  obtain ⟨entry', hmem', heq⟩ := mem_map.mp hticket
  exact ⟨entry', hmem', congrArg Prod.fst heq, congrArg Prod.snd heq⟩

variable (h : s.CapacityInv)
include h

theorem setQueuedMessage_keeps (hrecord : s.subagentRecords.get? subagentId = some record)
    (message : Text) :
    Keeps s (s.setQueuedMessage subagentId record message) := by
  have htickets := s.setQueuedMessage_tickets subagentId record message
  have hsound := (setQueuedMessage_moves h.sound hrecord message).sound
  have hfull : (s.setQueuedMessage subagentId record message).resumeQueue ≠ [] →
      s.manager.table.maxRunningJobs ≤ s.running := by
    intro hne
    refine h.full fun hnil => hne ?_
    rw [hnil] at htickets
    exact map_eq_nil_iff.mp htickets
  refine ⟨⟨⟨hsound, h.tracked, h.unfenced, h.bounded, unreserved_of_full h.bounded hfull, ?_, ?_,
    h.noneQueued⟩, h.reserved, hfull⟩, rfl, fun hspent => hspent, fun entry hmem => ?_⟩
  · intro entry hmem
    obtain ⟨old, hold, hid, hseq⟩ := mem_of_tickets htickets.symm hmem
    obtain ⟨found, hwaiting⟩ := h.waiting old hold
    by_cases hsame : entry.subagentId = subagentId
    · have hfound := hwaiting.recorded
      rw [hid, hsame, hrecord] at hfound
      cases hfound
      obtain ⟨queued, hqueued, hnumber⟩ := hwaiting.queued
      subst hsame
      refine ⟨{ record with queued := record.queued.map fun queued =>
        { queued with message := some message } }, get?_set_self _ _ _, hwaiting.status, ?_,
        hid ▸ hwaiting.runner⟩
      exact ⟨{ queued with message := some message }, by simp [hqueued], hnumber.trans hseq⟩
    · refine ⟨found, (get?_set_ne _ _ hsame).trans (hid ▸ hwaiting.recorded),
        hwaiting.status, ?_, hid ▸ hwaiting.runner⟩
      rw [← hseq]
      exact hwaiting.queued
  · have hids := congrArg (List.map Prod.fst) htickets
    rw [map_map, map_map] at hids
    exact hids ▸ h.distinct
  · exact .inl (mem_of_tickets htickets hmem)

theorem enqueueResume_keeps
    (hrecord : s.subagentRecords.get? subagentId = some record)
    (hrunning : record.status ≠ .running)
    (hqueued : record.status ≠ .queued) (hrunner : s.hasResumeRunner subagentId record = true)
    (hfull : s.manager.table.maxRunningJobs ≤ s.running) (message : Option Text) :
    Keeps s (s.enqueueResume subagentId record message) := by
  have hsound :=
    (enqueueResume_moves h.sound hrecord (isFenced_of_empty h.unfenced _) hrunning message).sound
  -- the subagents that wait already have another record
  have hother : ∀ {entry found}, s.Waiting entry found → entry.subagentId ≠ subagentId := by
    intro entry found hwaiting heq
    have hfound := hwaiting.recorded
    rw [heq, hrecord] at hfound
    cases hfound
    exact hqueued hwaiting.status
  refine ⟨⟨⟨hsound, h.tracked, h.unfenced, h.bounded,
    unreserved_of_full h.bounded fun _ => hfull, ?_, ?_, h.noneQueued⟩, h.reserved, fun _ => hfull⟩,
    rfl, fun hspent => hspent, fun entry hmem => ?_⟩
  · intro entry hmem
    rcases mem_append.mp hmem with hold | hnew
    · obtain ⟨found, hwaiting⟩ := h.waiting entry hold
      exact ⟨found, (get?_set_ne _ _ (hother hwaiting)).trans hwaiting.recorded,
        hwaiting.status, hwaiting.queued, hwaiting.runner⟩
    · rw [mem_singleton.mp hnew]
      exact ⟨_, get?_set_self _ _ _, rfl, ⟨_, rfl, rfl⟩, hrunner⟩
  · show ((s.resumeQueue ++ [_]).map _).Nodup
    rw [map_append, nodup_append]
    refine ⟨h.distinct, nodup_singleton _, ?_⟩
    intro id hid id' hid' heq
    obtain ⟨entry, hmem, rfl⟩ := mem_map.mp hid
    obtain ⟨found, hwaiting⟩ := h.waiting entry hmem
    refine hother hwaiting (heq.trans ?_)
    simpa using hid'
  · exact .inl ⟨entry, mem_append_left _ hmem, rfl, rfl⟩

theorem resumeSubagent_keeps (runner : ResumeRunner) (subagentId : Text)
    (filter message : Option Text) :
    Keeps s (s.resumeSubagent runner subagentId filter message) := by
  have hlooked := getSubagentRecord_keeps h subagentId filter
  have hmoves := getSubagentRecord_moves h.sound subagentId filter
  have hqueue : (s.getSubagentRecord subagentId filter).2.resumeQueue = s.resumeQueue := by
    unfold getSubagentRecord
    split
    · rfl
    · split <;> rfl
  unfold resumeSubagent
  cases hfound : s.getSubagentRecord subagentId filter with
  | mk found looked =>
    rw [hfound] at hlooked hmoves hqueue
    cases found with
    | none => exact hlooked
    | some record =>
      have hrecord := getSubagentRecord_found hfound
      refine hlooked.trans hmoves ?_ hqueue
      have hinv : looked.CapacityInv := hlooked.inv
      dsimp only
      obtain heq | ⟨text, -, heq⟩ | ⟨-, hrunning, hqueued, hrunner, hfull, heq⟩ |
          ⟨-, -, hroom, heq⟩ :=
        looked.resumeRecord_cases runner (Text.trim subagentId) record message
      · rw [heq]
        exact .refl hinv
      · rw [heq]
        exact setQueuedMessage_keeps hinv hrecord text
      · rw [heq]
        exact enqueueResume_keeps hinv hrecord hrunning hqueued hrunner hfull message
      · -- a resume that finds a slot starts while no other waits
        obtain ⟨-, launch, jobId, next, -, hregister, hnext⟩ := startResume_ok heq
        obtain ⟨hidle, hcapacity, hidle', hmax, hspent, -⟩ := register_capacity hinv hregister
        have hsound := (startResume_moves hinv.sound heq).sound
        generalize looked.resumeRecord runner (Text.trim subagentId) record message = resumed
          at hnext hsound
        subst hnext
        refine ⟨.of_idle hidle' hsound hcapacity.tracked hcapacity.unfenced hcapacity.bounded
          hcapacity.noneQueued hcapacity.reserved, hmax, hspent, fun entry hmem => ?_⟩
        rw [hidle] at hmem
        cases hmem

theorem reserveCapacity_keeps : Keeps s s.reserveCapacity := by
  unfold reserveCapacity
  split
  · next hcapacity =>
    simp only [hasCapacity, decide_eq_true_eq] at hcapacity
    have hidle := h.idle (by omega)
    refine ⟨.of_idle hidle ⟨h.sound.live, h.sound.records⟩ h.tracked h.unfenced ?_ h.noneQueued ?_,
      rfl, fun {token} hspent => ?_, fun entry hmem => ?_⟩
    · show s.running + (s.pendingAdmissions + 1) ≤ s.manager.table.maxRunningJobs
      omega
    · rw [count_append, h.reserved]
      rfl
    · rw [getElem?_append_left (List.getElem?_eq_some_iff.mp hspent).1]
      exact hspent
    · rw [hidle] at hmem
      cases hmem
  · exact .refl h

theorem releaseCapacity_keeps (token : Nat) : Keeps s (s.releaseCapacity token) := by
  unfold releaseCapacity
  cases hused : s.consumeAdmission token with
  | none => exact .refl h
  | some used =>
    obtain ⟨hlive, rfl⟩ := consumeAdmission_eq hused
    have hcount := consumed_count hlive
    have hreserved := h.reserved
    have hbounded := h.bounded
    have hidle := h.idle (by omega)
    refine ⟨.of_idle hidle ⟨h.sound.live, h.sound.records⟩ h.tracked h.unfenced ?_ h.noneQueued ?_,
      rfl, fun {other} hspent => ?_, fun entry hmem => ?_⟩
    · show s.running + (s.pendingAdmissions - 1) ≤ s.manager.table.maxRunningJobs
      omega
    · show s.pendingAdmissions - 1 = (s.admissions.set token false).count true
      omega
    · show (s.admissions.set token false)[other]? = some false
      rw [getElem?_set]
      split
      · next heq =>
        subst heq
        rw [hspent] at hlive
        cases hlive
      · exact hspent
    · rw [hidle] at hmem
      cases hmem

theorem launchSubagent_keeps (launch : Launch) (token : Option Nat) (subagentId : Text)
    (sessionFile : Option Text) :
    Keeps s (s.launchSubagent launch token subagentId sessionFile) := by
  have hsound := (launchSubagent_moves h.sound launch token subagentId sessionFile).sound
  unfold launchSubagent at hsound ⊢
  cases hregister : s.register launch token with
  | error error => exact .refl h
  | ok registered =>
    obtain ⟨hidle, hcapacity, hidle', hmax, hspent, -⟩ := register_capacity h hregister
    rw [hregister] at hsound
    refine ⟨.of_idle hidle' hsound hcapacity.tracked hcapacity.unfenced hcapacity.bounded
      hcapacity.noneQueued hcapacity.reserved, hmax, hspent, fun entry hmem => ?_⟩
    rw [hidle] at hmem
    cases hmem

theorem setResumeRunner_keeps : Keeps s { s with resumeRunner := true } := by
  refine ⟨⟨⟨⟨h.sound.live, h.sound.records⟩, h.tracked, h.unfenced, h.bounded, h.unreserved, ?_,
    h.distinct, h.noneQueued⟩, h.reserved, h.full⟩, rfl, fun hspent => hspent,
    fun entry hmem => .inl ⟨entry, hmem, rfl, rfl⟩⟩
  intro entry hmem
  obtain ⟨record, hwaiting⟩ := h.waiting entry hmem
  exact ⟨record, hwaiting.recorded, hwaiting.status, hwaiting.queued, by simp [hasResumeRunner]⟩

theorem step_keeps (hx : x.UsesCapacity) : Keeps s (s.step x) := by
  cases x with
  | aside step =>
    show Keeps s (if step.aside then _ else s)
    split
    · next haside =>
      obtain ⟨now, htable⟩ := s.manager.step_aside haside
      refine .of_same h (aside_moves h.sound haside).sound
        ⟨rfl, rfl, rfl, rfl, rfl, rfl, ?_⟩ rfl ?_ ?_
        (step_aside_noneQueued h.noneQueued haside) fun _ => rfl
      · rw [htable]
      · rw [htable]
        exact ⟨h.tracked.toLive.of_objects rfl rfl (fun _ _ hg => hg) rfl rfl, h.tracked.tracked,
          h.tracked.timers⟩
      · show ((s.manager.step step).table.getRunningJobs none).length = _
        rw [htable]
        rfl
    · exact .refl h
  | reserveCapacity => exact reserveCapacity_keeps h
  | releaseCapacity token => exact releaseCapacity_keeps h token
  | register launch token =>
    simp only [step]
    cases hregister : s.register launch token with
    | error error => exact .refl h
    | ok registered =>
      obtain ⟨hidle, hcapacity, -, hmax, hspent, -⟩ := register_capacity h hregister
      refine ⟨hcapacity, hmax, hspent, fun entry hmem => ?_⟩
      rw [hidle] at hmem
      cases hmem
  | launchSubagent launch token subagentId sessionFile =>
    exact launchSubagent_keeps h launch token subagentId sessionFile
  | setResumeRunner => exact setResumeRunner_keeps h
  | runEnds runner g outcome => exact runEnds_keeps h hx g outcome
  | failNow runner jobId g errorText => exact failNow_keeps h hx jobId g errorText
  | evictionTimer jobId =>
    obtain ⟨htracked, hrunning⟩ := AsyncJobManager.Tracked.evictionTimer h.tracked jobId
    exact .of_same h (evictionTimer_moves h.sound jobId).sound
      ⟨rfl, rfl, rfl, rfl, rfl, rfl, (s.manager.evictionTimer_settles jobId).max⟩ rfl htracked
        hrunning
      (evictionTimer_noneQueued h.noneQueued jobId) fun _ => rfl
  | getSubagentRecord subagentId filter => exact getSubagentRecord_keeps h subagentId filter
  | resumeSubagent runner subagentId filter message =>
    exact resumeSubagent_keeps h runner subagentId filter message
  | _ => exact absurd hx id

omit h

def admitsWith (s : SubagentManager) (token : Nat) : SubagentStep → Bool
  | .register launch admissionToken | .launchSubagent launch admissionToken _ _ =>
    decide (admissionToken = some token) && (s.register launch admissionToken).isOk
  | _ => false

def jobsAdmitted (token : Nat) : SubagentManager → List SubagentStep → Nat
  | _, [] => 0
  | s, x :: rest => (if s.admitsWith token x then 1 else 0) + jobsAdmitted token (s.step x) rest

include h

theorem admitsWith_spends (hadmits : s.admitsWith token x = true) :
    s.admissions[token]? = some true ∧ (s.step x).admissions[token]? = some false := by
  cases x with
  | register launch admissionToken =>
    simp only [admitsWith, Bool.and_eq_true, decide_eq_true_eq] at hadmits
    obtain ⟨htoken, hok⟩ := hadmits
    simp only [step]
    cases hregister : s.register launch admissionToken with
    | error error =>
      rw [hregister] at hok
      cases hok
    | ok registered => exact (register_capacity h hregister).2.2.2.2.2 htoken
  | launchSubagent launch admissionToken subagentId sessionFile =>
    simp only [admitsWith, Bool.and_eq_true, decide_eq_true_eq] at hadmits
    obtain ⟨htoken, hok⟩ := hadmits
    simp only [step, launchSubagent]
    cases hregister : s.register launch admissionToken with
    | error error =>
      rw [hregister] at hok
      cases hok
    | ok registered => exact (register_capacity h hregister).2.2.2.2.2 htoken
  | _ => cases hadmits

theorem jobsAdmitted_le (token : Nat) (hsteps : ∀ x ∈ steps, x.UsesCapacity) :
    jobsAdmitted token s steps ≤ if s.admissions[token]? = some false then 0 else 1 := by
  induction steps generalizing s with
  | nil => exact Nat.zero_le _
  | cons x rest ih =>
    have hkeeps := step_keeps h (hsteps x mem_cons_self)
    have hrest := ih hkeeps.inv fun x hx => hsteps x (mem_cons_of_mem _ hx)
    unfold jobsAdmitted
    cases hadmits : s.admitsWith token x with
    | true =>
      obtain ⟨hunused, hspent⟩ := admitsWith_spends h hadmits
      rw [if_pos hspent] at hrest
      simp [hunused]
      omega
    | false =>
      by_cases hspent : s.admissions[token]? = some false
      · rw [if_pos (hkeeps.spent hspent)] at hrest
        simp
        omega
      · simp only [Bool.false_eq_true, if_false, Nat.zero_add]
        exact Nat.le_trans hrest (by split <;> omega)

theorem run_capacityInv (hsteps : ∀ x ∈ steps, x.UsesCapacity) :
    (steps.foldl step s).CapacityInv ∧
      (steps.foldl step s).manager.table.maxRunningJobs = s.manager.table.maxRunningJobs := by
  induction steps generalizing s with
  | nil => exact ⟨h, rfl⟩
  | cons x rest ih =>
    have hkeeps := step_keeps h (hsteps x mem_cons_self)
    obtain ⟨hinv, hmax⟩ := ih hkeeps.inv fun x hx => hsteps x (mem_cons_of_mem _ hx)
    exact ⟨hinv, hmax.trans hkeeps.max⟩

omit h

/-- In every run that reserves, uses and frees capacity: running jobs and unused reservations are
within the limit, a reservation admits one job at most, a resume that waits does so while every slot
has a running job and is not published as failed, and each step leaves it waiting or starts it. -/
theorem capacity_and_resumes (now : Int) (retentionMs maxRunningJobs maxOwners : Nat)
    {steps : List SubagentStep} (hsteps : ∀ x ∈ steps, x.UsesCapacity) :
    let s := steps.foldl step (create now retentionMs maxRunningJobs maxOwners)
    s.running + s.admissions.count true ≤ maxRunningJobs ∧
      (∀ token, jobsAdmitted token (create now retentionMs maxRunningJobs maxOwners) steps ≤ 1) ∧
      (∀ entry ∈ s.resumeQueue, s.running = maxRunningJobs ∧ ∃ record, s.Waiting entry record) ∧
      (∀ subagentId seq, s.manager.waits.terminalEvents.get? (.queued subagentId seq) = none) ∧
      ∀ x, x.UsesCapacity → ∀ entry ∈ s.resumeQueue, Proceeds s (s.step x) entry := by
  intro s
  have hcreated := create_capacityInv now retentionMs maxRunningJobs maxOwners
  obtain ⟨hinv, hmax⟩ : s.CapacityInv ∧ s.manager.table.maxRunningJobs = maxRunningJobs :=
    run_capacityInv hcreated hsteps
  have hbounded := hinv.bounded
  rw [hinv.reserved, hmax] at hbounded
  refine ⟨hbounded, fun token => ?_, fun entry hmem => ?_, hinv.noneQueued, fun x hx => ?_⟩
  · exact Nat.le_trans (jobsAdmitted_le hcreated token hsteps) (by split <;> omega)
  · refine ⟨?_, hinv.waiting entry hmem⟩
    have hfull := hinv.full (ne_nil_of_mem hmem)
    omega
  · exact (step_keeps hinv hx).proceeds

/-- Under a limit of one job, a subagent is paused, another is launched, and the resume of the first
waits. -/
def waitingRun : List SubagentStep :=
  [.setResumeRunner, .launchSubagent ⟨some "a".toList, some "o".toList,
    some "s".toList⟩ none "s".toList none,
    .runEnds (fun subagentId _ => some ⟨none, some "o".toList, some subagentId⟩) (.job 1) .paused,
    .launchSubagent ⟨some "b".toList, some "o".toList, some "t".toList⟩ none "t".toList none,
    .resumeSubagent (fun subagentId _ => some ⟨none, some "o".toList, some subagentId⟩)
      "s".toList none
      none]

theorem capacity_and_resumes_waitingRun :
    (waitingRun.foldl step (create 0 1000 1 1)).resumeQueue.length = 1 ∧
      (waitingRun.foldl step (create 0 1000 1 1)).running +
        (waitingRun.foldl step (create 0 1000 1 1)).admissions.count true ≤ 1 ∧
      ∀ entry ∈ (waitingRun.foldl step (create 0 1000 1 1)).resumeQueue,
        Proceeds (waitingRun.foldl step (create 0 1000 1 1))
          ((waitingRun.foldl step (create 0 1000 1 1)).step (.runEnds
            (fun subagentId _ => some ⟨none, some "o".toList, some subagentId⟩) (.job 2)
            (.completed []))) entry := by
  have hsteps : ∀ x ∈ waitingRun, x.UsesCapacity := by
    simp [waitingRun, SubagentStep.UsesCapacity]
  obtain ⟨hbounded, -, -, -, hproceeds⟩ := capacity_and_resumes 0 1000 1 1 hsteps
  exact ⟨by decide +kernel, hbounded, hproceeds _ fun _ _ => rfl⟩

end SubagentManager

end Vibrato.Jobs
