import Vibrato.Jobs.Manager

namespace Vibrato.Jobs

open Lib List OrderedMap

/-- Generations are numbered, and a record names a job with its id. -/
structure JobTable.WellFormed (t : JobTable) : Prop where
  numbered : ∀ {g job}, t.objects.get? g = some job → job.generation = g ∧ ∃ n, g = .job n ∧
    n ≤ t.jobGenerationSeq
  recorded : ∀ {id g}, t.jobs.get? id = some g → ∃ job, t.objects.get? g = some job ∧ job.id = id

def JobTable.Ended (t : JobTable) (g : Generation) : Prop :=
  ∃ job, t.objects.get? g = some job ∧ job.status.terminal = true

instance (t : JobTable) (g : Generation) : Decidable (t.Ended g) :=
  decidable_of_iff ((t.objects.get? g).any (·.status.terminal) = true)
    (by simp [JobTable.Ended, Option.any_eq_true])

namespace JobTable

variable {t : JobTable}

variable {id : Text} {job : AsyncJob} {g g' : Generation} {status : JobStatus}

theorem get_eq_some : t.get id = some job ↔ ∃ g, t.jobs.get? id = some g ∧
    t.objects.get? g = some job := by
  exact Option.bind_eq_some_iff

theorem WellFormed.get_eq_some (h : t.WellFormed) (hget : t.get id = some job) :
    t.jobs.get? id = some job.generation ∧ t.objects.get? job.generation = some job ∧
      job.id = id := by
  obtain ⟨g, hg, hjob⟩ := JobTable.get_eq_some.mp hget
  have hgen := (h.numbered hjob).1
  obtain ⟨job', hjob', hid⟩ := h.recorded hg
  rw [hjob] at hjob'
  cases hjob'
  exact ⟨hgen ▸ hg, hgen ▸ hjob, hid⟩

variable (h : t.WellFormed)
include h

theorem WellFormed.get_of_record
    (hg : t.jobs.get? id = some g) : ∃ job, t.get id = some job ∧ job.generation = g := by
  obtain ⟨job, hjob, -⟩ := h.recorded hg
  exact ⟨job, JobTable.get_eq_some.mpr ⟨g, hg, hjob⟩, (h.numbered hjob).1⟩

theorem WellFormed.get_eq_none : t.get id = none ↔ t.jobs.get? id = none := by
  constructor
  · intro hget
    cases hg : t.jobs.get? id with
    | none => rfl
    | some g =>
      obtain ⟨job, hjob, -⟩ := h.get_of_record hg
      rw [hget] at hjob
      cases hjob
  · intro hg
    simp [get, hg]

theorem WellFormed.getElem_generation (hjob : t.objects.get? g = some job) : job.generation = g :=
  (h.numbered hjob).1

theorem WellFormed.mem_getRunningJobs {filter : Option Text}
    (hmem : job ∈ t.getRunningJobs filter) : t.jobs.get? job.id = some job.generation := by
  obtain ⟨id, -, hget⟩ := mem_filterMap.mp (mem_of_mem_filter hmem)
  obtain ⟨hrecord, -, hid⟩ := h.get_eq_some hget
  rw [hid]
  exact hrecord

omit h

theorem setStatus_get? (t : JobTable) (g g' : Generation) (status : JobStatus) :
    (t.setStatus g status).objects.get? g' = (t.objects.get? g').map fun job =>
      if g' = g then { job with status, endTime := job.endTime <|> some t.now } else job := by
  unfold setStatus
  rw [get?_mapValues]

theorem setStatus_of_ne (t : JobTable) (status : JobStatus) (h : g' ≠ g) :
    (t.setStatus g status).objects.get? g' = t.objects.get? g' := by
  rw [setStatus_get?]
  simp [h]

theorem setStatus_self {t : JobTable} (status : JobStatus) (h : t.objects.get? g = some job) :
    (t.setStatus g status).objects.get? g =
      some { job with status, endTime := job.endTime <|> some t.now } := by
  rw [setStatus_get?, h]
  simp

theorem setStatus_record {t : JobTable}
    (status : JobStatus) (hrecord : t.jobs.get? id = some g) (hjob : t.objects.get? g = some job) :
    (t.setStatus g status).get id =
      some { job with status, endTime := job.endTime <|> some t.now } :=
  get_eq_some.mpr ⟨g, hrecord, setStatus_self status hjob⟩

theorem setStatus_exists {t : JobTable} (h : (t.setStatus g status).objects.get? g' = some job) :
    ∃ old, t.objects.get? g' = some old ∧ old.id = job.id ∧ old.generation = job.generation ∧
      job.status = if g' = g then status else old.status := by
  rw [setStatus_get?, Option.map_eq_some_iff] at h
  obtain ⟨old, hold, rfl⟩ := h
  refine ⟨old, hold, ?_⟩
  split <;> exact ⟨rfl, rfl, rfl⟩

theorem setStatus_ids (g : Generation) (status : JobStatus) (h : t.objects.get? g' = some job) :
    ∃ job', (t.setStatus g status).objects.get? g' = some job' ∧ job'.id = job.id := by
  rw [setStatus_get?, h]
  refine ⟨_, rfl, ?_⟩
  split <;> rfl

theorem WellFormed.setStatus (h : t.WellFormed) (g : Generation) (status : JobStatus) :
    (t.setStatus g status).WellFormed := by
  constructor
  · intro g' job hjob
    obtain ⟨old, hold, -, hgen, -⟩ := setStatus_exists hjob
    rw [← hgen]
    exact h.numbered hold
  · intro id g' hg'
    obtain ⟨old, hold, hid⟩ := h.recorded hg'
    by_cases heq : g' = g
    · subst heq
      exact ⟨_, setStatus_self status hold, hid⟩
    · exact ⟨old, by rw [setStatus_of_ne t status heq]; exact hold, hid⟩

theorem WellFormed.of_objects {t' : JobTable} (h : t.WellFormed) (hobjects : t'.objects = t.objects)
    (hseq : t'.jobGenerationSeq = t.jobGenerationSeq)
    (hjobs : ∀ id g, t'.jobs.get? id = some g → t.jobs.get? id = some g) : t'.WellFormed := by
  constructor
  · intro g job hjob
    rw [hseq]
    exact h.numbered (hobjects ▸ hjob)
  · intro id g hg
    rw [hobjects]
    exact h.recorded (hjobs id g hg)

theorem ended_congr {t' : JobTable} (h : t'.objects = t.objects) (g : Generation) :
    t'.Ended g ↔ t.Ended g := by
  unfold Ended
  rw [h]

theorem Ended.setStatus (hstatus : status.terminal = true) (h : t.Ended g') :
    (t.setStatus g status).Ended g' := by
  obtain ⟨job, hjob, hterminal⟩ := h
  by_cases heq : g' = g
  · subst heq
    exact ⟨_, setStatus_self status hjob, hstatus⟩
  · exact ⟨job, by rw [setStatus_of_ne t status heq]; exact hjob, hterminal⟩

theorem Ended.of_setStatus (h : (t.setStatus g status).Ended g') : g' = g ∨ t.Ended g' := by
  by_cases heq : g' = g
  · exact .inl heq
  · obtain ⟨job, hjob, hterminal⟩ := h
    rw [setStatus_of_ne t status heq] at hjob
    exact .inr ⟨job, hjob, hterminal⟩

theorem WellFormed.fresh (h : t.WellFormed) :
    t.objects.get? (.job (t.jobGenerationSeq + 1)) = none := by
  cases hjob : t.objects.get? (.job (t.jobGenerationSeq + 1)) with
  | none => rfl
  | some job =>
    obtain ⟨-, n, hn, hle⟩ := h.numbered hjob
    cases hn
    omega

end JobTable

namespace AsyncJobManager

variable (m : AsyncJobManager)

@[simp] theorem publishTerminal_table (g : Generation) : (m.publishTerminal g).table = m.table := by
  unfold publishTerminal
  split <;> rfl

@[simp] theorem publishTerminal_queue (g : Generation) : (m.publishTerminal g).queue = m.queue := by
  unfold publishTerminal
  split <;> rfl

@[simp] theorem enqueueDelivery_table (jobId text : Text) :
    (m.enqueueDelivery jobId text).table = m.table := rfl

theorem scheduleEviction_table (jobId : Text) :
    (m.scheduleEviction jobId).table.objects = m.table.objects ∧
      (m.scheduleEviction jobId).table.jobGenerationSeq = m.table.jobGenerationSeq ∧
      (m.scheduleEviction jobId).table.now = m.table.now ∧
      (m.scheduleEviction jobId).table.retentionMs = m.table.retentionMs ∧
      (m.scheduleEviction jobId).table.unsettled = m.table.unsettled ∧
      (m.scheduleEviction jobId).table.externallySettled = m.table.externallySettled ∧
      ((m.scheduleEviction jobId).table.jobs = m.table.jobs ∨
        m.table.retentionMs = 0 ∧
          (m.scheduleEviction jobId).table.jobs = m.table.jobs.erase jobId) := by
  unfold scheduleEviction
  split
  · next h => exact ⟨rfl, rfl, rfl, rfl, rfl, rfl, .inr ⟨h, rfl⟩⟩
  · exact ⟨rfl, rfl, rfl, rfl, rfl, rfl, .inl rfl⟩

theorem finishJob_table (job : AsyncJob) (status : JobStatus) (text : Text) :
    (m.finishJob job status text).table.objects =
      (m.table.setStatus job.generation status).objects ∧
      (m.finishJob job status text).table.jobGenerationSeq = m.table.jobGenerationSeq ∧
      (m.finishJob job status text).table.unsettled = m.table.unsettled ∧
      (m.finishJob job status text).table.externallySettled = m.table.externallySettled ∧
      ((m.finishJob job status text).table.jobs = m.table.jobs ∨
        m.table.retentionMs = 0 ∧
          (m.finishJob job status text).table.jobs = m.table.jobs.erase job.id) := by
  let settled := ({ m with table := m.table.setStatus job.generation status }.publishTerminal
    job.generation).enqueueDelivery job.id text
  have htable : settled.table = m.table.setStatus job.generation status := publishTerminal_table _ _
  obtain ⟨hobjects, hseq, -, -, hunsettled, hext, hjobs⟩ := settled.scheduleEviction_table job.id
  rw [htable] at hobjects hseq hunsettled hext hjobs
  exact ⟨hobjects, hseq, hunsettled, hext, hjobs⟩

end AsyncJobManager

structure JobTable.Live (t : JobTable) : Prop extends t.WellFormed where
  distinct : t.unsettled.Nodup
  known : ∀ {g}, g ∈ t.unsettled → ∃ job, t.objects.get? g = some job
  running : ∀ {g job}, g ∈ t.unsettled → g ∉ t.externallySettled → t.objects.get? g = some job →
    job.status = .running ∨ job.status = .cancelled

namespace JobTable

variable {t t' : JobTable}

variable {id : Text} {g : Generation} {job : AsyncJob}

theorem mem_of_jobs {id' : Text} {jobs : OrderedMap Text Generation}
    (hjobs : jobs = t.jobs ∨ t.retentionMs = 0 ∧ jobs = t.jobs.erase id)
    (h : jobs.get? id' = some g) : t.jobs.get? id' = some g := by
  rcases hjobs with rfl | ⟨-, rfl⟩
  · exact h
  · rw [get?_erase] at h
    split at h
    · cases h
    · exact h

theorem Live.of_objects (h : t.Live) (hobjects : t'.objects = t.objects)
    (hseq : t'.jobGenerationSeq = t.jobGenerationSeq)
    (hjobs : ∀ id g, t'.jobs.get? id = some g → t.jobs.get? id = some g)
    (hunsettled : t'.unsettled = t.unsettled)
    (hext : t'.externallySettled = t.externallySettled) : t'.Live where
  toWellFormed := h.toWellFormed.of_objects hobjects hseq hjobs
  distinct := hunsettled ▸ h.distinct
  known hg := by
    rw [hobjects]
    exact h.known (hunsettled ▸ hg)
  running hg hnot hjob := h.running (hunsettled ▸ hg) (hext ▸ hnot) (hobjects ▸ hjob)

theorem Live.setStatus (h : t.Live) {status : JobStatus}
    (hobjects : t'.objects = (t.setStatus g status).objects)
    (hseq : t'.jobGenerationSeq = t.jobGenerationSeq)
    (hjobs : ∀ id g, t'.jobs.get? id = some g → t.jobs.get? id = some g)
    (hunsettled : t'.unsettled.Sublist t.unsettled)
    (hext : ∀ g' ∈ t'.unsettled, g' ∉ t'.externallySettled → g' ∉ t.externallySettled)
    (hg : g ∈ t'.unsettled → g ∉ t'.externallySettled → status = .cancelled) : t'.Live where
  toWellFormed := (h.toWellFormed.setStatus g status).of_objects hobjects hseq hjobs
  distinct := h.distinct.sublist hunsettled
  known {g'} hg' := by
    obtain ⟨job, hjob⟩ := h.known (hunsettled.subset hg')
    rw [hobjects, setStatus_get?, hjob]
    exact ⟨_, rfl⟩
  running {g' job} hg' hnot hjob := by
    rw [hobjects] at hjob
    obtain ⟨old, hold, -, -, hstatus⟩ := setStatus_exists hjob
    rw [hstatus]
    split
    · next heq =>
      subst heq
      exact .inr (hg hg' hnot)
    · exact h.running (hunsettled.subset hg') (hext g' hg' hnot) hold

def addJob (t : JobTable) (job : AsyncJob) : JobTable :=
  { t with
    jobGenerationSeq := t.jobGenerationSeq + 1
    objects := t.objects.set job.generation job
    unsettled := t.unsettled ++ [job.generation] }

theorem Live.addJob (h : t.Live)
    (hgen : job.generation = .job (t.jobGenerationSeq + 1)) (hstatus : job.status = .running) :
    (t.addJob job).Live := by
  have hfresh := h.toWellFormed.fresh
  rw [← hgen] at hfresh
  have hother : ∀ {g old}, t.objects.get? g = some old → g ≠ job.generation := by
    rintro g old hold rfl
    rw [hfresh] at hold
    cases hold
  have hobjects : ∀ {g old}, t.objects.get? g = some old →
      (t.objects.set job.generation job).get? g = some old := by
    intro g old hold
    rw [get?_set_ne _ _ (hother hold)]
    exact hold
  constructor
  · constructor
    · intro g job' hjob'
      change (t.objects.set job.generation job).get? g = some job' at hjob'
      show _ ∧ ∃ n, g = .job n ∧ n ≤ t.jobGenerationSeq + 1
      rw [get?_set] at hjob'
      split at hjob'
      · next heq =>
        cases hjob'
        exact ⟨heq.symm, _, heq.trans hgen, Nat.le_refl _⟩
      · obtain ⟨hg, n, hn, hle⟩ := h.numbered hjob'
        exact ⟨hg, n, hn, by omega⟩
    · intro id g hg
      obtain ⟨old, hold, hid⟩ := h.recorded hg
      exact ⟨old, hobjects hold, hid⟩
  · refine nodup_append.mpr ⟨h.distinct, nodup_singleton _, ?_⟩
    rintro g hg g' hg' rfl
    obtain ⟨old, hold⟩ := h.known hg
    exact hother hold (mem_singleton.mp hg')
  · intro g hg
    rcases mem_append.mp hg with hold | hnew
    · obtain ⟨old, hold⟩ := h.known hold
      exact ⟨old, hobjects hold⟩
    · rw [mem_singleton.mp hnew]
      exact ⟨job, get?_set_self _ _ _⟩
  · intro g job' hg hnot hjob'
    change (t.objects.set job.generation job).get? g = some job' at hjob'
    rw [get?_set] at hjob'
    split at hjob'
    · cases hjob'
      exact .inl hstatus
    · next hne =>
      refine h.running ?_ hnot hjob'
      exact (mem_append.mp hg).resolve_right fun hnew => hne (mem_singleton.mp hnew)

def retire (t : JobTable) (g : Generation) : JobTable :=
  { t with
    externallySettled := t.externallySettled.erase g
    unsettled := t.unsettled.erase g }

theorem Live.retire (h : t.Live) (g : Generation) : (t.retire g).Live where
  numbered := h.numbered
  recorded := h.recorded
  distinct := h.distinct.erase g
  known hg := h.known (mem_of_mem_erase hg)
  running {g' job} hg hnot hjob := by
    have hne : g' ≠ g := fun heq => h.distinct.not_mem_erase (heq ▸ hg)
    refine h.running (mem_of_mem_erase hg) (fun hmem => hnot ?_) hjob
    exact (mem_erase_of_ne hne).mpr hmem

theorem Live.record (h : t.Live) (hjob : t.objects.get? g = some job) (hid : job.id = id) :
    Live { t with jobs := t.jobs.set id g } where
  numbered := h.numbered
  recorded {id' g'} hg' := by
    rw [get?_set] at hg'
    split at hg'
    · next heq =>
      cases hg'
      exact ⟨job, hjob, hid.trans heq.symm⟩
    · exact h.recorded hg'
  distinct := h.distinct
  known := h.known
  running := h.running

end JobTable

namespace AsyncJobManager

variable {m : AsyncJobManager}

theorem Live.scheduleEviction (h : m.table.Live) (jobId : Text) :
    (m.scheduleEviction jobId).table.Live := by
  obtain ⟨hobjects, hseq, -, -, hunsettled, hext, hjobs⟩ := m.scheduleEviction_table jobId
  exact h.of_objects hobjects hseq (fun _ _ => JobTable.mem_of_jobs hjobs) hunsettled hext

variable (m)

/-- The job that `register` makes. -/
def newJob (options : RegisterOptions) : AsyncJob :=
  ⟨m.resolveJobId options.preferredId, .job (m.table.jobGenerationSeq + 1), .running,
    options.ownerId, none⟩

def addJob (m : AsyncJobManager) (job : AsyncJob) : AsyncJobManager :=
  { m with table := m.table.addJob job }

def throwsAtOnce (job : AsyncJob) (text : Text) : AsyncJobManager :=
  let m := m.finishJob job .failed text
  { m with table := { m.table with unsettled := m.table.unsettled.erase job.generation } }

variable {m}

theorem register_eq (options : RegisterOptions) : m.register options =
    if m.refuses options then m
    else
      let job := m.newJob options
      let m := match options.throws with
        | none => m.addJob job
        | some text => (m.addJob job).throwsAtOnce job text
      { m with table := { m.table with jobs := m.table.jobs.set job.id job.generation } } := by
  unfold register
  cases options.throws <;> rfl

variable (h : m.table.Live)
include h

theorem Live.register (options : RegisterOptions) : (m.register options).table.Live := by
  rw [register_eq]
  split
  · exact h
  have hadd : (m.addJob (m.newJob options)).table.Live := h.addJob rfl rfl
  have hself : (m.addJob (m.newJob options)).table.objects.get? (m.newJob options).generation =
      some (m.newJob options) := get?_set_self _ _ _
  split
  · exact hadd.record hself rfl
  next text _ =>
  obtain ⟨hobjects, hseq, hunsettled, hext, hjobs⟩ :=
    (m.addJob (m.newJob options)).finishJob_table (m.newJob options) .failed text
  have hthrows :
      ((m.addJob (m.newJob options)).throwsAtOnce (m.newJob options) text).table.Live := by
    unfold throwsAtOnce
    generalize (m.addJob (m.newJob options)).finishJob (m.newJob options) .failed text = finished
      at hobjects hseq hunsettled hext hjobs ⊢
    refine hadd.setStatus hobjects hseq (fun _ _ => JobTable.mem_of_jobs hjobs) ?_ ?_ ?_
    · show (List.erase _ _).Sublist _
      rw [hunsettled]
      exact erase_sublist
    · intro g' _ hnot
      exact hext ▸ hnot
    · intro hmem
      change _ ∈ List.erase _ _ at hmem
      rw [hunsettled] at hmem
      exact absurd hmem hadd.distinct.not_mem_erase
  have hrecord :
      ((m.addJob (m.newJob options)).throwsAtOnce (m.newJob options) text).table.objects.get?
      (m.newJob options).generation = some { m.newJob options with
        status := .failed, endTime := some m.table.now } := by
    refine Eq.trans (congrArg (get? · _) hobjects) ?_
    exact JobTable.setStatus_self _ hself
  exact hthrows.record hrecord rfl

theorem Live.runEnds (g : Generation) (outcome : RunOutcome) :
    (m.runEnds g outcome).table.Live := by
  unfold AsyncJobManager.runEnds
  split
  · exact h
  next job hjob =>
  have hgen := h.getElem_generation hjob
  split
  · exact h
  have hretired : g ∉ m.table.unsettled.erase g := h.distinct.not_mem_erase
  have hext : ∀ g' ∈ m.table.unsettled.erase g, g' ∉ m.table.externallySettled.erase g →
      g' ∉ m.table.externallySettled := by
    intro g' hg' hnot hmem
    have hne : g' ≠ g := fun heq => hretired (heq ▸ hg')
    exact hnot ((mem_erase_of_ne hne).mpr hmem)
  split
  · exact h.retire g
  split
  · have hevicted : ((m.publishTerminal g).scheduleEviction job.id).table.Live :=
      Live.scheduleEviction (by rw [publishTerminal_table]; exact h) job.id
    exact hevicted.retire g
  -- the status of the job changes as its run is retired
  have hfinish : ∀ status text, ((m.finishJob job status text).table.retire g).Live := by
    intro status text
    obtain ⟨hobjects, hseq, hunsettled, hsettled, hjobs⟩ := m.finishJob_table job status text
    rw [hgen] at hobjects
    refine h.setStatus hobjects hseq (fun _ _ => JobTable.mem_of_jobs hjobs) ?_ ?_ ?_
    · show (List.erase _ _).Sublist _
      rw [hunsettled]
      exact erase_sublist
    · show ∀ g' ∈ List.erase _ _, g' ∉ List.erase _ _ → _
      rw [hunsettled, hsettled]
      exact hext
    · show g ∈ List.erase _ _ → _
      rw [hunsettled]
      exact fun hmem => absurd hmem hretired
  split
  · exact h.setStatus rfl rfl (fun _ _ hg => hg) erase_sublist hext
      (fun hmem => absurd hmem hretired)
  · exact hfinish _ _
  · exact hfinish _ _

theorem Live.failNow (jobId : Text) (g : Generation) (errorText : Text) :
    (m.failNow jobId g errorText).table.Live := by
  unfold AsyncJobManager.failNow
  split
  · exact h
  next job hget =>
  split
  · exact h
  next hguard =>
  push Not at hguard
  obtain ⟨hobjects, hseq, hunsettled, hext, hjobs⟩ := finishJob_table { m with table :=
    { m.table with externallySettled := m.table.externallySettled ++ [g] } } job .failed errorText
  refine h.setStatus hobjects hseq (fun _ _ => JobTable.mem_of_jobs hjobs) ?_ ?_ ?_
  · rw [hunsettled]
  · intro g' _ hnot hmem
    rw [hext] at hnot
    exact hnot (mem_append_left _ hmem)
  · intro _ hnot
    rw [hext, hguard.1] at hnot
    exact absurd (mem_append_right _ (mem_singleton_self g)) hnot

theorem Live.cancel (id : Text) (filter : Option Text) : (m.cancel id filter).table.Live := by
  unfold AsyncJobManager.cancel
  split
  · exact h
  next job hget =>
  split
  · exact h
  have hset : (m.table.setStatus job.generation .cancelled).Live :=
    h.setStatus rfl rfl (fun _ _ hg => hg) (List.Sublist.refl _) (fun _ _ hnot => hnot)
      (fun _ _ => rfl)
  have hpublished : ({ m with table := m.table.setStatus job.generation .cancelled }.publishTerminal
      job.generation).table.Live := by
    rw [publishTerminal_table]
    exact hset
  split
  · exact Live.scheduleEviction hpublished id
  · exact hpublished

theorem Live.cancelAll (filter : Option Text) : (m.cancelAll filter).table.Live := by
  unfold AsyncJobManager.cancelAll
  generalize m.table.getRunningJobs filter = jobs
  induction jobs generalizing m with
  | nil => exact h
  | cons job rest ih =>
    rw [foldl_cons]
    apply ih
    split
    · exact Live.scheduleEviction (Live.cancel h job.id filter) job.id
    · exact h

theorem Live.evictionTimer (jobId : Text) : (m.evictionTimer jobId).table.Live := by
  unfold AsyncJobManager.evictionTimer
  split
  · exact h
  split
  · exact h
  · refine h.of_objects rfl rfl ?_ rfl rfl
    intro id g hg
    change (m.table.jobs.erase jobId).get? id = some g at hg
    rw [get?_erase] at hg
    split at hg
    · cases hg
    · exact hg

omit h

def Step.onQueue : Step → Bool
  | .startDelivery _ | .callbackReturns _ | .callbackThrows .. | .acknowledgeDeliveries _
  | .watchJobs _ | .unwatchJobs _ | .watchJobGenerations _ | .closeWatch
      _ | .retainParkedDelivery ..
  | .clearParkedDelivery _ | .retainDeliveryClaim _ | .releaseDeliveryClaim _
  | .beginOwnerSubagentShutdown _ | .finishOwnerSubagentShutdown .. | .getDeliveryState
  | .getJobsSnapshot => true
  | _ => false

theorem step_onQueue {s : Step} (hs : s.onQueue = true) :
    (m.step s).table = m.table ∧ (m.step s).waits = m.waits := by
  cases s with
  | startDelivery index =>
    simp only [step, startDelivery]
    split
    · exact ⟨rfl, rfl⟩
    · split <;> exact ⟨rfl, rfl⟩
  | callbackThrows index error jitterMs =>
    simp only [step, callbackThrows]
    split <;> exact ⟨rfl, rfl⟩
  | retainParkedDelivery g text =>
    simp only [step, retainParkedDelivery]
    split <;> exact ⟨rfl, rfl⟩
  | retainDeliveryClaim g =>
    simp only [step, retainDeliveryClaim]
    split <;> exact ⟨rfl, rfl⟩
  | beginOwnerSubagentShutdown ownerId =>
    simp only [step]
    split <;> exact ⟨rfl, rfl⟩
  | finishOwnerSubagentShutdown ownerId commit =>
    simp only [step, finishOwnerSubagentShutdown]
    split
    · exact ⟨rfl, rfl⟩
    · cases commit <;> exact ⟨rfl, rfl⟩
  | callbackReturns index => exact ⟨rfl, rfl⟩
  | acknowledgeDeliveries jobIds => exact ⟨rfl, rfl⟩
  | watchJobs jobIds => exact ⟨rfl, rfl⟩
  | unwatchJobs jobIds => exact ⟨rfl, rfl⟩
  | watchJobGenerations jobIds => exact ⟨rfl, rfl⟩
  | closeWatch generations => exact ⟨rfl, rfl⟩
  | clearParkedDelivery g => exact ⟨rfl, rfl⟩
  | releaseDeliveryClaim g => exact ⟨rfl, rfl⟩
  | getDeliveryState => exact ⟨rfl, rfl⟩
  | getJobsSnapshot => exact ⟨rfl, rfl⟩
  | _ => cases hs

theorem acknowledgeWait_table (token : Nat) (targetIds : Option (List Text)) :
    (m.acknowledgeWait token targetIds).table = m.table := by
  unfold acknowledgeWait
  split
  · rfl
  · split <;> rfl

theorem Live.step (h : m.table.Live) (s : Step) : (m.step s).table.Live := by
  cases hs : s.onQueue with
  | true =>
    rw [(step_onQueue hs).1]
    exact h
  | false =>
    cases s with
    | tick ms => exact h.of_objects rfl rfl (fun _ _ hg => hg) rfl rfl
    | register options => exact Live.register h options
    | startResume subagentId seq options =>
      show (m.startResume subagentId seq options).table.Live
      unfold AsyncJobManager.startResume
      dsimp only
      split
      · exact h
      · exact Live.register h options
    | runEnds g outcome => exact Live.runEnds h g outcome
    | failNow jobId g errorText => exact Live.failNow h jobId g errorText
    | cancel id filter => exact Live.cancel h id filter
    | cancelAll filter => exact Live.cancelAll h filter
    | evictionTimer jobId => exact Live.evictionTimer h jobId
    | publishQueuedTerminal subagentId seq ownerId status => exact h
    | subscribeTerminalWait targets condition => exact h
    | acknowledgeWait token targetIds =>
      show (m.acknowledgeWait token targetIds).table.Live
      rw [acknowledgeWait_table]
      exact h
    | closeWait token => exact h
    | pruneTerminalEvents => exact h
    | _ => cases hs

theorem create_live (now : Int) (retentionMs maxRunningJobs maxOwners : Nat) :
    (create now retentionMs maxRunningJobs maxOwners).table.Live where
  numbered h := by cases h
  recorded h := by cases h
  distinct := nodup_nil
  known h := by cases h
  running h := by cases h

end AsyncJobManager

end Vibrato.Jobs
