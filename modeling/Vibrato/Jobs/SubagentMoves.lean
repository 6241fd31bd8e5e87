import Vibrato.Jobs.Subagents

namespace Vibrato.Jobs

open Lib List Text OrderedMap JobTable

structure JobTable.Settles (t t' : JobTable) : Prop where
  known : ∀ {g job'}, t'.objects.get? g = some job' → ∃ job, t.objects.get? g = some job ∧
    job'.id = job.id ∧ job'.ownerId = job.ownerId ∧ (job'.status = .running → job.status = .running)
  kept : ∀ {g job}, t.objects.get? g = some job → ∃ job', t'.objects.get? g = some job'
  jobs : t'.jobs.entries.Sublist t.jobs.entries
  unsettled : t'.unsettled ⊆ t.unsettled
  max : t'.maxRunningJobs = t.maxRunningJobs

namespace JobTable.Settles

variable {t t' t'' : JobTable}

theorem refl (t : JobTable) : t.Settles t where
  known h := ⟨_, h, rfl, rfl, id⟩
  kept h := ⟨_, h⟩
  jobs := List.Sublist.refl _
  unsettled := List.Subset.refl _
  max := rfl

theorem trans (h : t.Settles t') (h' : t'.Settles t'') : t.Settles t'' where
  known hjob := by
    obtain ⟨mid, hmid, hid', howner', hrun'⟩ := h'.known hjob
    obtain ⟨job, hjob, hid, howner, hrun⟩ := h.known hmid
    exact ⟨job, hjob, hid'.trans hid, howner'.trans howner, hrun ∘ hrun'⟩
  kept hjob := by
    obtain ⟨mid, hmid⟩ := h.kept hjob
    exact h'.kept hmid
  jobs := h'.jobs.trans h.jobs
  unsettled := List.Subset.trans h'.unsettled h.unsettled
  max := h'.max.trans h.max

theorem of_objects (hobjects : t'.objects = t.objects)
    (hjobs : t'.jobs.entries.Sublist t.jobs.entries) (hunsettled : t'.unsettled ⊆ t.unsettled)
    (hmax : t'.maxRunningJobs = t.maxRunningJobs) : t.Settles t' where
  known hjob := ⟨_, hobjects ▸ hjob, rfl, rfl, id⟩
  kept hjob := ⟨_, hobjects ▸ hjob⟩
  jobs := hjobs
  unsettled := hunsettled
  max := hmax

theorem setStatus (t : JobTable) (g : Generation) {status : JobStatus}
    (hstatus : status ≠ .running) :
    t.Settles (t.setStatus g status) where
  known {g' job'} hjob := by
    rw [setStatus_get?, Option.map_eq_some_iff] at hjob
    obtain ⟨job, hjob, rfl⟩ := hjob
    refine ⟨job, hjob, ?_⟩
    by_cases heq : g' = g
    · rw [if_pos heq]
      exact ⟨rfl, rfl, fun h => absurd h hstatus⟩
    · rw [if_neg heq]
      exact ⟨rfl, rfl, id⟩
  kept hjob := by
    rw [setStatus_get?, hjob]
    exact ⟨_, rfl⟩
  jobs := List.Sublist.refl _
  unsettled := List.Subset.refl _
  max := rfl

theorem get?_jobs (h : t.Settles t') {id : Text} {g : Generation} (hg : t'.jobs.get? id = some g) :
    t.jobs.get? id = some g :=
  get?_eq_some.mpr (h.jobs.subset (get?_eq_some.mp hg))

end JobTable.Settles

namespace AsyncJobManager

variable (m : AsyncJobManager)

variable (jobId : Text)

theorem scheduleEviction_settles : m.table.Settles (m.scheduleEviction jobId).table := by
  unfold scheduleEviction
  split
  · exact .of_objects rfl filter_sublist (List.Subset.refl _) rfl
  · exact .of_objects rfl (List.Sublist.refl _) (List.Subset.refl _) rfl

theorem finishJob_settles (job : AsyncJob) {status : JobStatus} (hstatus : status ≠ .running)
    (text : Text) : m.table.Settles (m.finishJob job status text).table := by
  have hset := JobTable.Settles.setStatus m.table job.generation hstatus
  have hsame : (({ m with table := m.table.setStatus job.generation status }.publishTerminal
      job.generation).enqueueDelivery job.id text).table =
        m.table.setStatus job.generation status :=
    publishTerminal_table _ _
  rw [← hsame] at hset
  exact hset.trans (scheduleEviction_settles _ job.id)

theorem runEnds_settles (g : Generation) (outcome : RunOutcome) :
    m.table.Settles (m.runEnds g outcome).table := by
  -- the run leaves, whatever its job has become
  have hretire : ∀ {t : JobTable}, m.table.Settles t → m.table.Settles { t with
      externallySettled := t.externallySettled.erase g, unsettled := t.unsettled.erase g } := by
    intro t h
    exact h.trans (.of_objects rfl (List.Sublist.refl _) erase_subset rfl)
  unfold runEnds
  split
  · exact .refl _
  next job hjob =>
  split
  · exact .refl _
  split
  · exact hretire (.refl _)
  split
  · refine hretire ?_
    have hsettles := scheduleEviction_settles (m.publishTerminal g) job.id
    rw [publishTerminal_table] at hsettles
    exact hsettles
  cases outcome with
  | paused => exact hretire (.setStatus _ _ (by decide))
  | failed text => exact hretire (finishJob_settles m job (by decide) text)
  | completed text => exact hretire (finishJob_settles m job (by decide) text)

theorem failNow_settles (g : Generation) (errorText : Text) :
    m.table.Settles (m.failNow jobId g errorText).table := by
  unfold failNow
  split
  · exact .refl _
  split
  · exact .refl _
  · have hnoted : m.table.Settles { m.table with
        externallySettled := m.table.externallySettled ++ [g] } :=
      .of_objects rfl (List.Sublist.refl _) (List.Subset.refl _) rfl
    exact hnoted.trans (finishJob_settles { m with table := _ } _ (by decide) errorText)

theorem cancel_settles (id : Text) (filter : Option Text) :
    m.table.Settles (m.cancel id filter).table := by
  unfold cancel
  split
  · exact .refl _
  next job hjob =>
  split
  · exact .refl _
  have hset : m.table.Settles (m.table.setStatus job.generation .cancelled) :=
    .setStatus _ _ (by decide)
  have hpublished : m.table.Settles ({ m with table := m.table.setStatus job.generation .cancelled
      }.publishTerminal job.generation).table := by
    rw [publishTerminal_table]
    exact hset
  split
  · exact hpublished.trans (scheduleEviction_settles _ id)
  · exact hpublished

theorem evictionTimer_settles : m.table.Settles (m.evictionTimer jobId).table := by
  unfold evictionTimer
  split
  · exact .refl _
  split
  · exact .refl _
  · exact .of_objects rfl filter_sublist (List.Subset.refl _) rfl

theorem step_aside {step : Step} (h : step.aside = true) :
    ∃ now, (m.step step).table = { m.table with now } := by
  cases step with
  | tick ms => exact ⟨_, rfl⟩
  | subscribeTerminalWait targets condition => exact ⟨_, rfl⟩
  | acknowledgeWait token targetIds => exact ⟨_, acknowledgeWait_table token targetIds⟩
  | closeWait token => exact ⟨_, rfl⟩
  | pruneTerminalEvents => exact ⟨_, rfl⟩
  | register options => cases h
  | startResume subagentId seq options => cases h
  | runEnds g outcome => cases h
  | failNow jobId g errorText => cases h
  | cancel id filter => cases h
  | cancelAll filter => cases h
  | evictionTimer jobId => cases h
  | publishQueuedTerminal subagentId seq ownerId status => cases h
  | beginOwnerSubagentShutdown ownerId => cases h
  | finishOwnerSubagentShutdown ownerId commit => cases h
  | _ => exact ⟨_, (step_onQueue rfl).1⟩

end AsyncJobManager

def SubagentStep.onLeases : SubagentStep → Bool
  | .beginOwnerSubagentShutdown _ | .startProof .. | .promiseSettles .. | .returnProof ..
  | .finishOwnerSubagentShutdown .. => true
  | _ => false

namespace SubagentManager

variable {s s' s'' : SubagentManager}

structure SameLeases (s s' : SubagentManager) : Prop where
  leases : s'.ownerSubagentShutdownLeases = s.ownerSubagentShutdownLeases
  leaseSeq : s'.ownerSubagentShutdownSeq = s.ownerSubagentShutdownSeq
  provingCalls : s'.provingCalls = s.provingCalls
  provingSeq : s'.provingSeq = s.provingSeq

theorem SameLeases.trans (h : SameLeases s s') (h' : SameLeases s' s'') : SameLeases s s'' where
  leases := h'.leases.trans h.leases
  leaseSeq := h'.leaseSeq.trans h.leaseSeq
  provingCalls := h'.provingCalls.trans h.provingCalls
  provingSeq := h'.provingSeq.trans h.provingSeq

theorem SameLeases.isFenced (h : SameLeases s s') (ownerId : Option Text) :
    s'.isFenced ownerId = s.isFenced ownerId := by
  unfold SubagentManager.isFenced
  rw [h.leases]

/-- The record of a subagent names a job that was registered, and while that job runs it says so. -/
structure Sound (s : SubagentManager) : Prop where
  live : s.manager.table.Live
  records : ∀ {subagentId record g}, s.subagentRecords.get? subagentId = some record →
    record.currentJobGeneration = some g → ∃ job, s.manager.table.objects.get? g = some job ∧
      (job.status = .running → record.status = .running)

/-- What a step does to jobs and records, and that it leads to a sound state. -/
structure Moves (s s' : SubagentManager) : Prop where
  same : SameLeases s s'
  sound : s'.Sound
  kept : ∀ {g job}, s.manager.table.objects.get? g = some job →
    ∃ job', s'.manager.table.objects.get? g = some job' ∧ job'.id = job.id ∧
      job'.ownerId = job.ownerId ∧ s'.metadata.get? g = s.metadata.get? g
  added : ∀ {g job'}, s'.manager.table.objects.get? g = some job' →
    s.manager.table.objects.get? g = none → s.isFenced job'.ownerId = false
  jobs : ∀ {id g}, s'.manager.table.jobs.get? id = some g →
    s.manager.table.jobs.get? id = some g ∨ s.manager.table.objects.get? g = none
  unsettled : ∀ {g}, g ∈ s'.manager.table.unsettled →
    g ∈ s.manager.table.unsettled ∨ s.manager.table.objects.get? g = none
  ends : ∀ {subagentId record'}, s'.subagentRecords.get? subagentId = some record' →
    s.isFenced record'.ownerId = true → record'.status.terminal = false →
    ∃ record, s.subagentRecords.get? subagentId = some record ∧ record.ownerId = record'.ownerId ∧
      record.status.terminal = false

theorem Moves.trans (h : Moves s s') (h' : Moves s' s'') : Moves s s'' where
  same := h.same.trans h'.same
  sound := h'.sound
  kept hjob := by
    obtain ⟨mid, hmid, hid, howner, hmeta⟩ := h.kept hjob
    obtain ⟨job', hjob', hid', howner', hmeta'⟩ := h'.kept hmid
    exact ⟨job', hjob', hid'.trans hid, howner'.trans howner, hmeta'.trans hmeta⟩
  added {g job'} hjob' hnone := by
    cases hmid : s'.manager.table.objects.get? g with
    | none =>
      rw [← h.same.isFenced]
      exact h'.added hjob' hmid
    | some mid =>
      obtain ⟨job, hjob, -, howner, -⟩ := h'.kept hmid
      rw [hjob'] at hjob
      cases hjob
      rw [howner]
      exact h.added hmid hnone
  jobs {id g} hg := by
    rcases h'.jobs hg with hmid | hmid
    · exact h.jobs hmid
    · right
      cases hjob : s.manager.table.objects.get? g with
      | none => rfl
      | some job =>
        obtain ⟨job', hjob', -⟩ := h.kept hjob
        rw [hmid] at hjob'
        cases hjob'
  unsettled {g} hg := by
    rcases h'.unsettled hg with hmid | hmid
    · exact h.unsettled hmid
    · right
      cases hjob : s.manager.table.objects.get? g with
      | none => rfl
      | some job =>
        obtain ⟨job', hjob', -⟩ := h.kept hjob
        rw [hmid] at hjob'
        cases hjob'
  ends hrecord hfenced hstatus := by
    rw [← h.same.isFenced] at hfenced
    obtain ⟨mid, hmid, howner, hterminal⟩ := h'.ends hrecord hfenced hstatus
    rw [← howner, h.same.isFenced] at hfenced
    obtain ⟨record, hrecord, howner', hterminal'⟩ := h.ends hmid hfenced hterminal
    exact ⟨record, hrecord, howner'.trans howner, hterminal'⟩

inductive RecordStep (s : SubagentManager) (t' : JobTable) (subagentId : Text) :
    SubagentRecord → Prop
  | kept {record record' : SubagentRecord} : s.subagentRecords.get? subagentId = some record →
      record'.ownerId = record.ownerId →
        record'.currentJobGeneration = record.currentJobGeneration →
      record'.status = record.status → RecordStep s t' subagentId record'
  | changed {record record' : SubagentRecord} : s.subagentRecords.get? subagentId = some record →
      record'.ownerId = record.ownerId →
        record'.currentJobGeneration = record.currentJobGeneration →
      (∀ g job, record.currentJobGeneration = some g → t'.objects.get? g = some job →
        job.status ≠ .running) →
      (s.isFenced record.ownerId = true → record'.status.terminal = false →
        record.status.terminal = false) → RecordStep s t' subagentId record'
  | synthesized {record' : SubagentRecord} : record'.currentJobGeneration = none →
      record'.status.terminal = true → RecordStep s t' subagentId record'
  | bound {record' : SubagentRecord} {g : Generation} {job : AsyncJob} :
      s.isFenced record'.ownerId = false → record'.currentJobGeneration = some g →
      t'.objects.get? g = some job → record'.status = .ofJob job.status →
      RecordStep s t' subagentId record'

open RecordStep

variable {jobId subagentId : Text} {record record' : SubagentRecord} {launch : Launch}
    {token : Option Nat}
  {g : Generation} {status : SubagentLifecycle} {job : AsyncJob} {runner : ResumeRunner}
  {message : Option Text} {t' : JobTable}

theorem RecordStep.of_eq (h : s.subagentRecords.get? subagentId = some record) :
    RecordStep s t' subagentId record :=
  .kept h rfl rfl rfl

theorem RecordStep.of_set {key : Text} (hset : RecordStep s t' subagentId record)
    (h : (s.subagentRecords.set subagentId record).get? key = some record') :
    RecordStep s t' key record' := by
  rw [get?_set] at h
  split at h
  · next heq =>
    cases h
    exact heq ▸ hset
  · exact .of_eq h

theorem Moves.of_records (h : s.Sound) (same : SameLeases s s') (live : s'.manager.table.Live)
    (kept : ∀ {g job}, s.manager.table.objects.get? g = some job →
      ∃ job', s'.manager.table.objects.get? g = some job' ∧ job'.id = job.id ∧
        job'.ownerId = job.ownerId ∧ s'.metadata.get? g = s.metadata.get? g)
    (starts : ∀ {g job job'}, s.manager.table.objects.get? g = some job →
      s'.manager.table.objects.get? g = some job' → job'.status = .running → job.status = .running)
    (added : ∀ {g job'}, s'.manager.table.objects.get? g = some job' →
      s.manager.table.objects.get? g = none → s.isFenced job'.ownerId = false)
    (jobs : ∀ {id g}, s'.manager.table.jobs.get? id = some g →
      s.manager.table.jobs.get? id = some g ∨ s.manager.table.objects.get? g = none)
    (unsettled : ∀ {g}, g ∈ s'.manager.table.unsettled →
      g ∈ s.manager.table.unsettled ∨ s.manager.table.objects.get? g = none)
    (records : ∀ {subagentId record'}, s'.subagentRecords.get? subagentId = some record' →
      RecordStep s s'.manager.table subagentId record') : Moves s s' where
  same := same
  kept := kept
  added := added
  jobs := jobs
  unsettled := unsettled
  sound :=
    { live
      records := by
        intro subagentId record' g hrecord hg
        cases records hrecord with
        | kept hold _ hgen hstatus =>
          obtain ⟨job, hjob, hrunning⟩ := h.records hold (hgen.symm.trans hg)
          obtain ⟨job', hjob', -⟩ := kept hjob
          exact ⟨job', hjob', fun hrun => hstatus.trans (hrunning (starts hjob hjob' hrun))⟩
        | changed hold _ hgen hended _ =>
          obtain ⟨job, hjob, -⟩ := h.records hold (hgen.symm.trans hg)
          obtain ⟨job', hjob', -⟩ := kept hjob
          exact ⟨job', hjob', fun hrun => absurd hrun (hended g job' (hgen.symm.trans hg) hjob')⟩
        | synthesized hgen _ =>
          rw [hgen] at hg
          cases hg
        | bound _ hgen hjob hstatus =>
          rw [hgen] at hg
          cases hg
          refine ⟨_, hjob, fun hrun => ?_⟩
          rw [hstatus, hrun]
          rfl }
  ends := by
    intro subagentId record' hrecord hfenced hterminal
    cases records hrecord with
    | kept hold howner _ hstatus => exact ⟨_, hold, howner.symm, hstatus ▸ hterminal⟩
    | changed hold howner _ _ hends =>
      exact ⟨_, hold, howner.symm, hends (howner ▸ hfenced) hterminal⟩
    | synthesized _ hstatus =>
      rw [hstatus] at hterminal
      cases hterminal
    | bound hopen _ _ _ =>
      rw [hopen] at hfenced
      cases hfenced

theorem Moves.of_settles (h : s.Sound) (same : SameLeases s s') (hmeta : s'.metadata = s.metadata)
    (hsettles : s.manager.table.Settles s'.manager.table) (live : s'.manager.table.Live)
    (records : ∀ {subagentId record'}, s'.subagentRecords.get? subagentId = some record' →
      RecordStep s s'.manager.table subagentId record') : Moves s s' := by
  refine .of_records h same live ?_ ?_ ?_ (fun hg => .inl (hsettles.get?_jobs hg))
    (fun hg => .inl (hsettles.unsettled hg)) records
  · intro g job hjob
    obtain ⟨job', hjob'⟩ := hsettles.kept hjob
    obtain ⟨old, hold, hid, howner, -⟩ := hsettles.known hjob'
    rw [hjob] at hold
    cases hold
    exact ⟨job', hjob', hid, howner, by rw [hmeta]⟩
  · intro g job job' hjob hjob' hrun
    obtain ⟨old, hold, -, -, hstarts⟩ := hsettles.known hjob'
    rw [hjob] at hold
    cases hold
    exact hstarts hrun
  · intro g job' hjob' hnone
    obtain ⟨old, hold, -⟩ := hsettles.known hjob'
    rw [hnone] at hold
    cases hold

theorem Moves.of_table (h : s.Sound) (same : SameLeases s s') (hmeta : s'.metadata = s.metadata)
    (htable : s'.manager.table = s.manager.table)
    (records : ∀ {subagentId record'}, s'.subagentRecords.get? subagentId = some record' →
      RecordStep s s.manager.table subagentId record') : Moves s s' := by
  refine .of_settles h same hmeta ?_ ?_ ?_
  · rw [htable]
    exact .refl _
  · rw [htable]
    exact h.live
  · rw [htable]
    exact records

theorem Moves.refl (h : s.Sound) : Moves s s :=
  .of_table h ⟨rfl, rfl, rfl, rfl⟩ rfl rfl .of_eq

theorem Moves.congr (h : Moves s s') (same : SameLeases s' s'') (hmeta : s''.metadata = s'.metadata)
    (htable : s''.manager.table = s'.manager.table)
    (hrecords : s''.subagentRecords = s'.subagentRecords) : Moves s s'' :=
  h.trans (.of_table h.sound same hmeta htable fun hrecord => .of_eq (hrecords ▸ hrecord))

theorem enter_get (s : SubagentManager) (launch : Launch) :
    (s.enter launch).2.manager.table.get (s.enter launch).1 =
      some (s.manager.newJob launch.options) := by
  refine get_eq_some.mpr ⟨(s.manager.newJob launch.options).generation, ?_, ?_⟩
  · exact get?_set_self _ _ _
  · exact get?_set_self _ _ _

theorem admitJob_live {m : AsyncJobManager} (h : m.table.Live)
    (options : AsyncJobManager.RegisterOptions) : (m.admitJob options).table.Live := by
  have hadded : (m.table.addJob (m.newJob options)).Live := h.addJob rfl rfl
  exact hadded.record (get?_set_self _ _ _) rfl

theorem enter_moves (h : s.Sound) (hopen : s.isFenced launch.ownerId = false) :
    Moves s (s.enter launch).2 := by
  have hfresh : s.manager.table.objects.get? (.job (s.manager.table.jobGenerationSeq + 1)) = none :=
    h.live.toWellFormed.fresh
  have hother : ∀ {g job}, s.manager.table.objects.get? g = some job →
      g ≠ .job (s.manager.table.jobGenerationSeq + 1) := by
    rintro g job hjob rfl
    rw [hfresh] at hjob
    cases hjob
  have hobjects : ∀ g, (s.enter launch).2.manager.table.objects.get? g =
      if g = .job (s.manager.table.jobGenerationSeq + 1) then
        some (s.manager.newJob launch.options)
      else s.manager.table.objects.get? g := fun g => get?_set _ _ _ _
  refine .of_records h ⟨rfl, rfl, rfl, rfl⟩ (admitJob_live h.live launch.options) ?_ ?_ ?_ ?_ ?_
    fun hrecord => .of_eq hrecord
  · intro g job hjob
    refine ⟨job, ?_, rfl, rfl, ?_⟩
    · rw [hobjects, if_neg (hother hjob)]
      exact hjob
    · cases hsub : launch.subagent with
      | none =>
        simp only [enter, hsub]
        rfl
      | some subagentId =>
        simp only [enter, hsub]
        exact get?_set_ne _ _ (hother hjob)
  · intro g job job' hjob hjob' hrun
    rw [hobjects, if_neg (hother hjob), hjob] at hjob'
    cases hjob'
    exact hrun
  · intro g job' hjob' hnone
    rw [hobjects] at hjob'
    split at hjob'
    · cases hjob'
      exact hopen
    · rw [hnone] at hjob'
      cases hjob'
  · intro id g hg
    change (s.manager.table.jobs.set _ _).get? id = some g at hg
    rw [get?_set] at hg
    split at hg
    · cases hg
      exact .inr hfresh
    · exact .inl hg
  · intro g hg
    rcases mem_append.mp hg with hold | hnew
    · exact .inl hold
    · rw [mem_singleton.mp hnew]
      exact .inr hfresh

theorem consumeAdmission_eq {token : Nat} (h : s.consumeAdmission token = some s') :
    s.admissions[token]? = some true ∧ s' = { s with
        admissions := s.admissions.set token false
        pendingAdmissions := s.pendingAdmissions - 1 } := by
  unfold consumeAdmission at h
  split at h
  · next hlive => exact ⟨hlive, (Option.some.inj h).symm⟩
  · cases h

theorem register_ok (h : s.register launch token = .ok (jobId, s')) :
    s.isFenced launch.ownerId = false ∧
      ((token = none ∧ s.hasCapacity = true ∧ (jobId, s') = s.enter launch) ∨
        ∃ t used, token = some t ∧ s.consumeAdmission t = some used ∧
          (jobId, s') = used.enter launch) := by
  unfold register at h
  split at h
  · cases h
  next hopen =>
  refine ⟨by simpa using hopen, ?_⟩
  cases token with
  | none =>
    simp only at h
    split at h
    · next hcapacity => exact .inl ⟨rfl, hcapacity, (Except.ok.inj h).symm⟩
    · cases h
  | some t =>
    cases hused : s.consumeAdmission t with
    | none =>
      simp only [hused] at h
      cases h
    | some used =>
      simp only [hused] at h
      exact .inr ⟨t, used, rfl, hused, (Except.ok.inj h).symm⟩

theorem register_moves (h : s.Sound) (hok : s.register launch token = .ok (jobId, s')) :
    Moves s s' ∧ s.isFenced launch.ownerId = false ∧
      ∃ job, s'.manager.table.get jobId = some job := by
  obtain ⟨hopen, ⟨-, -, heq⟩ | ⟨t, used, -, hused, heq⟩⟩ := register_ok hok
  · cases heq
    exact ⟨enter_moves h hopen, hopen, _, enter_get s launch⟩
  · obtain ⟨-, rfl⟩ := consumeAdmission_eq hused
    have hmoved : Moves s { s with
        admissions := s.admissions.set t false
        pendingAdmissions := s.pendingAdmissions - 1 } :=
      (Moves.refl h).congr ⟨rfl, rfl, rfl, rfl⟩ rfl rfl rfl
    cases heq
    exact ⟨hmoved.trans (enter_moves hmoved.sound hopen), hopen, _, enter_get _ launch⟩

theorem recordByJobId_eq_some (h : s.recordByJobId jobId g = some (subagentId, record)) :
    s.subagentRecords.get? subagentId = some record ∧ record.currentJobId = some jobId ∧
      record.currentJobGeneration = some g := by
  have hmem := mem_of_find?_eq_some h
  have hfound := find?_some h
  simp only [Bool.and_eq_true, decide_eq_true_eq] at hfound
  exact ⟨get?_eq_some.mpr hmem, hfound⟩

theorem markRecord_step (ended : SubagentManager)
    (hrecords : ended.subagentRecords = s.subagentRecords)
    (hended : ∀ job, t'.objects.get? g = some job → job.status ≠ .running)
    (hstatus : status.terminal = false → ∀ subagentId record,
      s.subagentRecords.get? subagentId = some record → record.currentJobGeneration = some g →
      record.status.terminal = false)
    (h : (ended.markRecord jobId g status).subagentRecords.get? subagentId = some record') :
    RecordStep s t' subagentId record' := by
  unfold markRecord at h
  cases hfound : ended.recordByJobId jobId g with
  | none =>
    rw [hfound] at h
    exact .of_eq (hrecords ▸ h)
  | some found =>
    obtain ⟨key, record⟩ := found
    rw [hfound] at h
    obtain ⟨hrecord, -, hgen⟩ := recordByJobId_eq_some hfound
    simp only [hrecords] at h hrecord
    refine of_set ?_ h
    refine .changed hrecord rfl rfl ?_ fun _ hopen => ?_
    · intro g' job hg' hjob
      rw [hgen] at hg'
      cases hg'
      exact hended job hjob
    · exact hstatus hopen key record hrecord hgen

variable (s)

theorem markRecord_frame (jobId : Text) (g : Generation)
    (status : SubagentLifecycle) : ∃ records,
      s.markRecord jobId g status = { s with subagentRecords := records } := by
  unfold markRecord
  cases s.recordByJobId jobId g with
  | none => exact ⟨_, rfl⟩
  | some found => exact ⟨_, rfl⟩

theorem forgetEvicted_frame (jobId : Text) :
    ∃ ids, s.forgetEvicted jobId = { s with settledJobIds := ids } := by
  unfold forgetEvicted
  split <;> exact ⟨_, rfl⟩

variable {s}

theorem Moves.forgetEvicted (h : Moves s s') (jobId : Text) : Moves s (s'.forgetEvicted jobId) := by
  obtain ⟨ids, hids⟩ := s'.forgetEvicted_frame jobId
  rw [hids]
  exact h.congr ⟨rfl, rfl, rfl, rfl⟩ rfl rfl rfl

theorem markRecord_moves (h : s.Sound) {m : AsyncJobManager}
    (hsettles : s.manager.table.Settles m.table) (hlive : m.table.Live)
    (hended : ∀ job, m.table.objects.get? g = some job → job.status ≠ .running)
    (hstatus : status.terminal = false → ∀ subagentId record,
      s.subagentRecords.get? subagentId = some record → record.currentJobGeneration = some g →
      record.status.terminal = false) :
    Moves s ({ s with manager := m }.markRecord jobId g status) := by
  have hsteps : ∀ {subagentId record'},
      ({ s with manager := m }.markRecord jobId g status).subagentRecords.get? subagentId =
        some record' → RecordStep s m.table subagentId record' :=
    fun hrecord => markRecord_step { s with manager := m } rfl hended hstatus hrecord
  obtain ⟨records, hmarked⟩ := { s with manager := m }.markRecord_frame jobId g status
  rw [hmarked] at hsteps ⊢
  exact .of_settles h ⟨rfl, rfl, rfl, rfl⟩ rfl hsettles hlive hsteps

theorem getSubagentRecord_moves (h : s.Sound) (subagentId : Text) (filter : Option Text) :
    Moves s (s.getSubagentRecord subagentId filter).2 := by
  unfold getSubagentRecord
  cases s.subagentRecords.get? (trim subagentId) with
  | some record => exact .refl h
  | none =>
    cases s.getResumeDescriptor (trim subagentId) filter with
    | none => exact .refl h
    | some descriptor =>
      exact .of_table h ⟨rfl, rfl, rfl, rfl⟩ rfl rfl fun hrecord =>
        of_set (.synthesized rfl rfl) hrecord

theorem getSubagentRecord_found {filter : Option Text}
    (h : s.getSubagentRecord subagentId filter = (some record, s')) :
    s'.subagentRecords.get? (trim subagentId) = some record := by
  unfold getSubagentRecord at h
  cases hrecord : s.subagentRecords.get? (trim subagentId) with
  | some found =>
    rw [hrecord] at h
    simp only [Prod.mk.injEq] at h
    obtain ⟨hfound, rfl⟩ := h
    split at hfound
    · cases hfound
      exact hrecord
    · cases hfound
  | none =>
    rw [hrecord] at h
    cases hdescriptor : s.getResumeDescriptor (trim subagentId) filter with
    | none =>
      simp only [hdescriptor] at h
      cases h
    | some descriptor =>
      simp only [hdescriptor, Prod.mk.injEq, Option.some.injEq] at h
      obtain ⟨rfl, rfl⟩ := h
      exact get?_set_self _ _ _

theorem Sound.not_running (h : s.Sound)
    (hrecord : s.subagentRecords.get? subagentId = some record) (hstatus : record.status ≠ .running)
    (g : Generation) (job : AsyncJob) (hg : record.currentJobGeneration = some g)
    (hjob : s.manager.table.objects.get? g = some job) : job.status ≠ .running := by
  intro hrun
  obtain ⟨job', hjob', hrunning⟩ := h.records hrecord hg
  rw [hjob] at hjob'
  cases hjob'
  exact hstatus (hrunning hrun)

theorem publishQueuedTerminal_moves (h : s.Sound)
    (hrecord : s.subagentRecords.get? subagentId = some record) (hstatus : record.status ≠ .running)
    (seq : Nat) {status : JobStatus} (hterminal : status.terminal = true) :
    Moves s (s.publishQueuedTerminal subagentId seq status) := by
  have hended : (SubagentLifecycle.ofJob status).terminal = true := by
    cases status <;> first | rfl | cases hterminal
  unfold publishQueuedTerminal
  split
  · exact .refl h
  · rw [hrecord]
    refine .of_table h ⟨rfl, rfl, rfl, rfl⟩ rfl rfl fun hset => of_set ?_ hset
    refine .changed hrecord rfl rfl (h.not_running hrecord hstatus) fun _ hopen => ?_
    rw [hended] at hopen
    cases hopen

theorem publishQueued_moves (h : s.Sound)
    (hrecord : s.subagentRecords.get? subagentId = some record) (hstatus : record.status ≠ .running)
    (queued : Option QueuedResume) {status : JobStatus} (hterminal : status.terminal = true) :
    Moves s (queued.elim s fun queued => s.publishQueuedTerminal subagentId queued.seq status) := by
  cases queued with
  | none => exact .refl h
  | some queued => exact publishQueuedTerminal_moves h hrecord hstatus queued.seq hterminal

theorem resumed_moves (h : s.Sound)
    (hopen : s.isFenced record.ownerId = false) (hjob : s.manager.table.get jobId = some job) :
    Moves s (s.resumed subagentId record jobId) := by
  unfold resumed
  rw [hjob]
  refine .of_table h ⟨rfl, rfl, rfl, rfl⟩ rfl rfl fun hset => of_set ?_ hset
  exact .bound hopen rfl (h.live.toWellFormed.get_eq_some hjob).2.1 rfl

theorem startResume_ok (h : s.startResume runner subagentId record message = .ok (some s')) :
    s.isFenced record.ownerId = false ∧ ∃ launch jobId next,
      runner subagentId message = some launch ∧
      s.register launch none = .ok (jobId, next) ∧ s' = next.resumed subagentId record jobId := by
  unfold startResume at h
  split at h
  · cases h
  next hopen =>
  refine ⟨by simpa using hopen, ?_⟩
  split at h
  · cases h
  cases hlaunch : runner subagentId message with
  | none =>
    rw [hlaunch] at h
    cases h
  | some launch =>
    rw [hlaunch] at h
    dsimp only at h
    cases hregister : s.register launch none with
    | error error =>
      rw [hregister] at h
      cases h
    | ok registered =>
      rw [hregister] at h
      cases h
      exact ⟨launch, registered.1, registered.2, rfl, hregister, rfl⟩

theorem startResume_moves (h : s.Sound)
    (hok : s.startResume runner subagentId record message = .ok (some s')) : Moves s s' := by
  obtain ⟨hopen, launch, jobId, next, -, hregister, rfl⟩ := startResume_ok hok
  obtain ⟨hmoved, -, job, hjob⟩ := register_moves h hregister
  exact hmoved.trans (resumed_moves hmoved.sound (hmoved.same.isFenced _ ▸ hopen) hjob)

theorem failQueued_moves (h : s.Sound)
    (hrecord : s.subagentRecords.get? subagentId = some record)
    (hstatus : record.status = .queued) :
    Moves s (s.failQueued subagentId record) :=
  publishQueued_moves h hrecord (by rw [hstatus]; decide) record.queued rfl

theorem drainEntries_moves (runner : ResumeRunner) (h : s.Sound) (entries : List ResumeQueueEntry) :
    Moves s (drainEntries runner entries s).2 := by
  induction entries generalizing s with
  | nil => exact .refl h
  | cons entry rest ih =>
    unfold drainEntries
    split
    · exact .refl h
    cases hrecord : s.subagentRecords.get? entry.subagentId with
    | none => exact ih h
    | some record =>
      dsimp only
      split
      · exact ih h
      next hqueued =>
      rw [not_not] at hqueued
      split
      · exact ih h
      have hfails : Moves s (drainEntries runner rest (s.failQueued entry.subagentId record)).2 :=
        have hfailed := failQueued_moves h hrecord hqueued
        hfailed.trans (ih hfailed.sound)
      cases hstart : s.startResume runner entry.subagentId record entry.message with
      | ok next =>
        cases next with
        | none => exact hfails
        | some next =>
          have hstarted := startResume_moves h hstart
          exact hstarted.trans (ih hstarted.sound)
      | error error =>
        cases error with
        | ownerSubagentShutdown => exact ih h
        | invalidAdmission => exact hfails
        | limitReached => exact hfails

theorem drainResumeQueue_moves (runner : ResumeRunner) (h : s.Sound) :
    Moves s (s.drainResumeQueue runner) :=
  (drainEntries_moves runner h _).congr ⟨rfl, rfl, rfl, rfl⟩ rfl rfl rfl

theorem Moves.drain (h : Moves s s') (runner : ResumeRunner) :
    Moves s (s'.drainResumeQueue runner) :=
  h.trans (drainResumeQueue_moves runner h.sound)

theorem enqueueResume_moves (h : s.Sound)
    (hrecord : s.subagentRecords.get? subagentId = some record)
    (hopen : s.isFenced record.ownerId = false) (hstatus : record.status ≠ .running)
    (message : Option Text) : Moves s (s.enqueueResume subagentId record message) := by
  refine .of_table h ⟨rfl, rfl, rfl, rfl⟩ rfl rfl fun hset => of_set ?_ hset
  refine .changed hrecord rfl rfl (h.not_running hrecord hstatus) fun hfenced => ?_
  rw [hopen] at hfenced
  cases hfenced

theorem setQueuedMessage_moves (h : s.Sound)
    (hrecord : s.subagentRecords.get? subagentId = some record) (message : Text) :
    Moves s (s.setQueuedMessage subagentId record message) := by
  refine .of_table h ⟨rfl, rfl, rfl, rfl⟩ rfl rfl fun hset => of_set ?_ hset
  exact .kept hrecord rfl rfl rfl

theorem resumeRecord_cases (s : SubagentManager) (runner : ResumeRunner) (subagentId : Text)
    (record : SubagentRecord) (message : Option Text) :
    s.resumeRecord runner subagentId record message = s ∨
    (∃ text, record.status = .queued ∧
      s.resumeRecord runner subagentId record message = s.setQueuedMessage subagentId record text) ∨
    (s.isFenced record.ownerId = false ∧ record.status ≠ .running ∧ record.status ≠ .queued ∧
      s.hasResumeRunner subagentId record = true ∧ s.manager.table.maxRunningJobs ≤ s.running ∧
      s.resumeRecord runner subagentId record message = s.enqueueResume subagentId record message) ∨
    (record.status ≠ .running ∧ record.status ≠ .queued ∧
      s.running < s.manager.table.maxRunningJobs ∧
      s.startResume runner subagentId record message =
        .ok (some (s.resumeRecord runner subagentId record message))) := by
  by_cases hrunning : record.status = .running
  · left
    unfold resumeRecord
    simp only [hrunning, ite_self]
  by_cases hqueued : record.status = .queued
  · unfold resumeRecord
    rw [hqueued]
    split
    · exact .inl rfl
    cases message with
    | none => exact .inl rfl
    | some text =>
      cases record.queued with
      | none => exact .inl rfl
      | some queued => exact .inr (.inl ⟨text, rfl, rfl⟩)
  unfold resumeRecord
  split
  · exact .inl rfl
  next hopen =>
  split
  · next hstatus => exact absurd hstatus hrunning
  · next hstatus => exact absurd hstatus hqueued
  split
  · exact .inl rfl
  split
  · exact .inl rfl
  next hrunner =>
  split
  · next hfull =>
    exact .inr
      (.inr (.inl ⟨by simpa using hopen, hrunning, hqueued, by simpa using hrunner, hfull, rfl⟩))
  next hroom =>
  cases hstart : s.startResume runner subagentId record message with
  | error error => exact .inl rfl
  | ok next =>
    cases next with
    | none => exact .inl rfl
    | some next => exact .inr (.inr (.inr ⟨hrunning, hqueued, Nat.lt_of_not_le hroom, rfl⟩))

theorem resumeSubagent_moves (h : s.Sound) (runner : ResumeRunner) (subagentId : Text)
    (filter message : Option Text) :
    Moves s (s.resumeSubagent runner subagentId filter message) := by
  have hlooked := getSubagentRecord_moves h subagentId filter
  unfold resumeSubagent
  cases hfound : s.getSubagentRecord subagentId filter with
  | mk found looked =>
    rw [hfound] at hlooked
    cases found with
    | none => exact hlooked
    | some record =>
      have hrecord := getSubagentRecord_found hfound
      refine hlooked.trans ?_
      dsimp only at hlooked ⊢
      obtain heq | ⟨text, -, heq⟩ | ⟨hopen, hstatus, -, -, -, heq⟩ | ⟨-, -, -, heq⟩ :=
        looked.resumeRecord_cases runner (trim subagentId) record message
      · rw [heq]
        exact .refl hlooked.sound
      · rw [heq]
        exact setQueuedMessage_moves hlooked.sound hrecord text
      · rw [heq]
        exact enqueueResume_moves hlooked.sound hrecord hopen hstatus message
      · exact startResume_moves hlooked.sound heq

variable (h : s.Sound)
include h

theorem runEnds_ended {job' : AsyncJob}
    {outcome : AsyncJobManager.RunOutcome} (hjob : s.manager.table.objects.get? g = some job)
    (hunsettled : g ∈ s.manager.table.unsettled) (hext : g ∉ s.manager.table.externallySettled)
    (hjob' : (s.manager.runEnds g outcome).table.objects.get? g = some job') :
    job'.status ≠ .running := by
  have hgen := h.live.toWellFormed.getElem_generation hjob
  have hset : ∀ {status : JobStatus}, status ≠ .running →
      (s.manager.table.setStatus g status).objects.get? g = some job' → job'.status ≠ .running := by
    intro status hstatus hget
    rw [setStatus_self status hjob] at hget
    cases hget
    exact hstatus
  have hfinish : ∀ {status : JobStatus} (text : Text), status ≠ .running →
      (s.manager.finishJob job status text).table.objects.get? g = some job' →
        job'.status ≠ .running := by
    intro status text hstatus hget
    rw [(s.manager.finishJob_table job status text).1, hgen] at hget
    exact hset hstatus hget
  unfold AsyncJobManager.runEnds at hjob'
  rw [hjob] at hjob'
  dsimp only at hjob'
  rw [if_neg (not_not.mpr hunsettled), if_neg hext] at hjob'
  split at hjob'
  · next hcancelled =>
    have hsame := ((s.manager.publishTerminal g).scheduleEviction_table job.id).1
    rw [AsyncJobManager.publishTerminal_table] at hsame
    rw [hsame, hjob] at hjob'
    cases hjob'
    rw [hcancelled]
    decide
  cases outcome with
  | paused => exact hset (by decide) hjob'
  | failed text => exact hfinish text (by decide) hjob'
  | completed text => exact hfinish text (by decide) hjob'

theorem settleRun_moves
    (hjob : s.manager.table.objects.get? g = some job) (hunsettled : g ∈ s.manager.table.unsettled)
    (outcome : AsyncJobManager.RunOutcome) : Moves s (s.settleRun job g outcome) := by
  have hsettles := s.manager.runEnds_settles g outcome
  have hlive := AsyncJobManager.Live.runEnds h.live g outcome
  unfold settleRun
  dsimp only
  split
  · exact .of_settles h ⟨rfl, rfl, rfl, rfl⟩ rfl hsettles hlive fun hrecord => .of_eq hrecord
  next hext =>
  have hmarked : Moves s ({ s with manager := s.manager.runEnds g outcome }.markRecord job.id g
      (lifecycleAfter job outcome)) := by
    refine markRecord_moves h hsettles hlive
      (fun job' hjob' => runEnds_ended h hjob hunsettled hext hjob') fun hopen key record hrecord
        hg => ?_
    -- only a job that runs can pause, and then its record says that it runs
    obtain ⟨job', hjob', hrunning⟩ := h.records hrecord hg
    rw [hjob] at hjob'
    cases hjob'
    rcases h.live.running hunsettled hext hjob with hrun | hcancelled
    · rw [hrunning hrun]
      rfl
    · simp [lifecycleAfter, hcancelled, SubagentLifecycle.terminal] at hopen
  split
  · exact hmarked
  · exact hmarked.forgetEvicted job.id

theorem runEnds_moves (runner : ResumeRunner) (g : Generation)
    (outcome : AsyncJobManager.RunOutcome) : Moves s (s.runEnds runner g outcome) := by
  unfold runEnds
  cases hjob : s.manager.table.objects.get? g with
  | none => exact .refl h
  | some job =>
    dsimp only
    split
    · exact .refl h
    next hunsettled =>
    rw [not_not] at hunsettled
    exact Moves.congr (Moves.drain (settleRun_moves h hjob hunsettled outcome) runner)
      ⟨rfl, rfl, rfl, rfl⟩ rfl rfl rfl

theorem settleFailed_moves (hget : s.manager.table.get jobId = some job)
    (hrunning : job.status = .running)
    (hext : job.generation ∉ s.manager.table.externallySettled) (errorText : Text) :
    Moves s (s.settleFailed jobId job.generation errorText) := by
  have hsettles := s.manager.failNow_settles jobId job.generation errorText
  have hlive := AsyncJobManager.Live.failNow h.live jobId job.generation errorText
  obtain ⟨-, hjob, -⟩ := h.live.toWellFormed.get_eq_some hget
  refine Moves.forgetEvicted
    (markRecord_moves h hsettles hlive ?_ fun hopen => by cases hopen) jobId
  intro job' hjob'
  unfold AsyncJobManager.failNow at hjob'
  rw [hget] at hjob'
  dsimp only at hjob'
  rw [if_neg (by simp [hrunning, hext]),
    (AsyncJobManager.finishJob_table _ job .failed errorText).1] at hjob'
  have hset := setStatus_self (t := { s.manager.table with
    externallySettled := s.manager.table.externallySettled ++ [job.generation] }) .failed hjob
  rw [hset] at hjob'
  cases hjob'
  show JobStatus.failed ≠ .running
  decide

theorem failNow_moves (runner : ResumeRunner) (jobId : Text) (g : Generation)
    (errorText : Text) : Moves s (s.failNow runner jobId g errorText) := by
  unfold failNow
  cases hget : s.manager.table.get jobId with
  | none => exact .refl h
  | some job =>
    dsimp only
    split
    · exact .refl h
    next hguard =>
    push Not at hguard
    obtain ⟨rfl, hrunning, hext⟩ := hguard
    exact Moves.drain (settleFailed_moves h hget hrunning hext errorText) runner

theorem evictionTimer_moves (jobId : Text) : Moves s (s.evictionTimer jobId) :=
  .of_settles h ⟨rfl, rfl, rfl, rfl⟩ rfl (s.manager.evictionTimer_settles jobId)
    (AsyncJobManager.Live.evictionTimer h.live jobId) fun hrecord => .of_eq hrecord

theorem scheduleEviction_moves (jobId : Text) : Moves s (s.scheduleEviction jobId) := by
  unfold scheduleEviction
  obtain ⟨ids, hids⟩ := s.forgetEvicted_frame jobId
  rw [hids]
  exact .of_settles h ⟨rfl, rfl, rfl, rfl⟩ rfl (s.manager.scheduleEviction_settles jobId)
    (AsyncJobManager.Live.scheduleEviction h.live jobId) fun hrecord => .of_eq hrecord

omit h

include h

theorem cancelJob_moves (runner : ResumeRunner) (id : Text) (filter : Option Text) :
    Moves s (s.cancelJob runner id filter).2 := by
  have hsettles := s.manager.cancel_settles id filter
  have hlive := AsyncJobManager.Live.cancel h.live id filter
  unfold cancelJob
  cases hget : s.manager.table.get id with
  | none => exact .refl h
  | some job =>
    dsimp only
    split
    · exact .refl h
    next hcancels =>
    obtain ⟨-, hjob, -⟩ := h.live.toWellFormed.get_eq_some hget
    have hmarked : Moves s ({ s with manager := s.manager.cancel id filter }.markRecord id
        job.generation .cancelled) := by
      refine markRecord_moves h hsettles hlive (fun job' hjob' => ?_) (fun hopen => by cases hopen)
      have hobjects : (s.manager.cancel id filter).table.objects =
          (s.manager.table.setStatus job.generation .cancelled).objects := by
        unfold AsyncJobManager.cancel
        rw [hget]
        dsimp only
        rw [if_neg hcancels]
        split
        · rw [(AsyncJobManager.scheduleEviction_table _ id).1,
            AsyncJobManager.publishTerminal_table]
        · rw [AsyncJobManager.publishTerminal_table]
      rw [hobjects, setStatus_self .cancelled hjob] at hjob'
      cases hjob'
      show JobStatus.cancelled ≠ .running
      decide
    split
    · exact Moves.drain (hmarked.forgetEvicted id) runner
    · exact hmarked

theorem setCancelled_moves
    (hrecord : s.subagentRecords.get? subagentId = some record) (hstatus : record.status ≠ .running)
    (queue : List ResumeQueueEntry) :
    Moves s { s with
      resumeQueue := queue
      subagentRecords :=
        s.subagentRecords.set subagentId { record with status := .cancelled } } := by
  refine .of_table h ⟨rfl, rfl, rfl, rfl⟩ rfl rfl fun hset => of_set ?_ hset
  refine .changed hrecord rfl rfl (h.not_running hrecord hstatus) fun _ hopen => ?_
  cases hopen

theorem cancelQueued_moves
    (hrecord : s.subagentRecords.get? subagentId = some record)
    (hstatus : record.status = .queued) :
    Moves s (s.cancelQueued subagentId record) := by
  have hremoved := setCancelled_moves h hrecord (by rw [hstatus]; decide)
    (s.resumeQueue.eraseP (·.subagentId = subagentId))
  have hpublished := hremoved.trans (publishQueued_moves hremoved.sound
    (get?_set_self _ _ _) (show SubagentLifecycle.cancelled ≠ .running by decide)
    record.queued (show JobStatus.cancelled.terminal = true from rfl))
  unfold cancelQueued
  refine hpublished.trans (.of_table hpublished.sound ⟨rfl, rfl, rfl, rfl⟩ rfl rfl ?_)
  intro key record' hrecord'
  rw [get?_mapValues, Option.map_eq_some_iff] at hrecord'
  obtain ⟨old, hold, rfl⟩ := hrecord'
  refine .kept hold ?_ ?_ ?_ <;> split <;> rfl

theorem cancel_moves (runner : ResumeRunner) (id : Text) (filter : Option Text) :
    Moves s (s.cancel runner id filter).2 := by
  unfold cancel
  split
  · dsimp only
    split
    · exact .refl h
    have hlooked := getSubagentRecord_moves h (queuedSubagentId id) none
    cases hfound : s.getSubagentRecord (queuedSubagentId id) none with
    | mk found looked =>
      rw [hfound] at hlooked
      cases found with
      | none => exact hlooked
      | some record =>
        dsimp only at hlooked ⊢
        split
        · next hqueued =>
          exact hlooked.trans
            (cancelQueued_moves hlooked.sound (getSubagentRecord_found hfound) hqueued.1)
        · exact hlooked
  · exact cancelJob_moves h runner id filter

theorem cancelPaused_moves (runner : ResumeRunner)
    (hrecord : s.subagentRecords.get? subagentId = some record)
    (hstatus : record.status = .paused) : Moves s (s.cancelPaused runner subagentId record) := by
  have hidle : record.status ≠ .running := by
    rw [hstatus]
    decide
  refine Moves.drain ?_ runner
  cases record.currentJobId.bind s.manager.table.get with
  | none => exact setCancelled_moves h hrecord hidle s.resumeQueue
  | some job =>
    dsimp only
    split
    · exact setCancelled_moves h hrecord hidle s.resumeQueue
    let cancelled := { s.manager with table := s.manager.table.setStatus job.generation .cancelled }
    have hcancelled : Moves s { s with manager := cancelled.publishTerminal job.generation } := by
      refine .of_settles h ⟨rfl, rfl, rfl, rfl⟩ rfl ?_ ?_ fun hrecord => .of_eq hrecord
      · rw [AsyncJobManager.publishTerminal_table]
        exact .setStatus _ _ (by decide)
      · rw [AsyncJobManager.publishTerminal_table]
        exact h.live.setStatus rfl rfl (fun _ _ hg => hg) (List.Sublist.refl _)
          (fun _ _ hnot => hnot)
          fun _ _ => rfl
    have hevicted := hcancelled.trans (scheduleEviction_moves hcancelled.sound job.id)
    refine hevicted.trans (setCancelled_moves hevicted.sound ?_ hidle _)
    unfold scheduleEviction
    obtain ⟨ids, hids⟩ := forgetEvicted_frame
      { s with manager := cancelled.publishTerminal job.generation } job.id
    rw [hids]
    exact hrecord

theorem cancelSubagent_moves (runner : ResumeRunner) (subagentId : Text)
    (filter : Option Text) : Moves s (s.cancelSubagent runner subagentId filter) := by
  have hlooked := getSubagentRecord_moves h subagentId filter
  unfold cancelSubagent
  cases hfound : s.getSubagentRecord subagentId filter with
  | mk found looked =>
    rw [hfound] at hlooked
    cases found with
    | none => exact hlooked
    | some record =>
      have hrecord := getSubagentRecord_found hfound
      refine hlooked.trans ?_
      dsimp only at hlooked ⊢
      cases hstatus : record.status with
      | running =>
        cases record.currentJobId with
        | none => exact .refl hlooked.sound
        | some jobId => exact cancel_moves hlooked.sound runner jobId filter
      | paused => exact cancelPaused_moves hlooked.sound runner hrecord hstatus
      | queued => exact cancelQueued_moves hlooked.sound hrecord hstatus
      | completed => exact .refl hlooked.sound
      | failed => exact .refl hlooked.sound
      | cancelled => exact .refl hlooked.sound

theorem cancelAll_moves (runner : ResumeRunner) (filter : Option Text) :
    Moves s (s.cancelAll runner filter) := by
  unfold cancelAll
  generalize s.manager.table.getRunningJobs filter = jobs
  induction jobs generalizing s with
  | nil => exact .refl h
  | cons job rest ih =>
    rw [foldl_cons]
    have hcancelled := cancel_moves h runner job.id filter
    cases hcancel : s.cancel runner job.id filter with
    | mk done next =>
      rw [hcancel] at hcancelled
      cases done with
      | true =>
        have hevicted := hcancelled.trans (scheduleEviction_moves hcancelled.sound job.id)
        exact hevicted.trans (ih hevicted.sound)
      | false => exact hcancelled.trans (ih hcancelled.sound)

omit h

include h

theorem launchSubagent_moves (launch : Launch) (token : Option Nat) (subagentId : Text)
    (sessionFile : Option Text) :
    Moves s (s.launchSubagent launch token subagentId sessionFile) := by
  unfold launchSubagent
  cases hregister : s.register launch token with
  | error error => exact .refl h
  | ok registered =>
    obtain ⟨jobId, next⟩ := registered
    obtain ⟨hmoved, hopen, job, hjob⟩ := register_moves h hregister
    dsimp only
    rw [hjob]
    refine hmoved.trans ?_
    refine .of_table hmoved.sound ⟨rfl, rfl, rfl, rfl⟩ rfl rfl fun hset => of_set ?_ hset
    exact .bound (hmoved.same.isFenced _ ▸ hopen) rfl
      (hmoved.sound.live.toWellFormed.get_eq_some hjob).2.1 rfl

theorem aside_moves {step : AsyncJobManager.Step} (haside : step.aside = true) :
    Moves s { s with manager := s.manager.step step } := by
  obtain ⟨now, htable⟩ := s.manager.step_aside haside
  refine .of_settles h ⟨rfl, rfl, rfl, rfl⟩ rfl ?_ ?_ fun hrecord => .of_eq hrecord
  · rw [htable]
    exact .of_objects rfl (List.Sublist.refl _) (List.Subset.refl _) rfl
  · rw [htable]
    exact h.live.of_objects rfl rfl (fun _ _ hg => hg) rfl rfl

theorem step_moves {step : SubagentStep} (hstep : step.onLeases = false) :
    Moves s (s.step step) := by
  cases step with
  | aside step =>
    show Moves s (if step.aside then _ else s)
    split
    · next haside => exact aside_moves h haside
    · exact .refl h
  | reserveCapacity =>
    show Moves s s.reserveCapacity
    unfold reserveCapacity
    split
    · exact (Moves.refl h).congr ⟨rfl, rfl, rfl, rfl⟩ rfl rfl rfl
    · exact .refl h
  | releaseCapacity token =>
    show Moves s ((s.consumeAdmission token).getD s)
    cases hused : s.consumeAdmission token with
    | none => exact .refl h
    | some used =>
      obtain ⟨-, rfl⟩ := consumeAdmission_eq hused
      exact (Moves.refl h).congr ⟨rfl, rfl, rfl, rfl⟩ rfl rfl rfl
  | register launch token =>
    simp only [SubagentManager.step]
    cases hregister : s.register launch token with
    | error error => exact .refl h
    | ok registered => exact (register_moves h hregister).1
  | launchSubagent launch token subagentId sessionFile =>
    exact launchSubagent_moves h launch token subagentId sessionFile
  | setResumeRunner => exact (Moves.refl h).congr ⟨rfl, rfl, rfl, rfl⟩ rfl rfl rfl
  | runEnds runner g outcome => exact runEnds_moves h runner g outcome
  | failNow runner jobId g errorText => exact failNow_moves h runner jobId g errorText
  | evictionTimer jobId => exact evictionTimer_moves h jobId
  | getSubagentRecord subagentId filter => exact getSubagentRecord_moves h subagentId filter
  | resumeSubagent runner subagentId filter message =>
    exact resumeSubagent_moves h runner subagentId filter message
  | cancel runner id filter => exact cancel_moves h runner id filter
  | cancelSubagent runner subagentId filter => exact cancelSubagent_moves h runner subagentId filter
  | cancelAll runner filter => exact cancelAll_moves h runner filter
  | beginOwnerSubagentShutdown owner => cases hstep
  | startProof runner owner leaseId => cases hstep
  | promiseSettles call jobId g => cases hstep
  | returnProof call deadline => cases hstep
  | finishOwnerSubagentShutdown owner leaseId commit => cases hstep

omit h

theorem create_sound (now : Int) (retentionMs maxRunningJobs maxOwners : Nat) :
    (create now retentionMs maxRunningJobs maxOwners).Sound where
  live := AsyncJobManager.create_live now retentionMs maxRunningJobs maxOwners
  records h := by cases h

end SubagentManager

end Vibrato.Jobs
