import Vibrato.Jobs.JobIds
import Vibrato.Jobs.SubagentMoves

namespace Vibrato.Jobs

open Lib List OrderedMap JobTable Option

namespace JobTable

variable {t t' : JobTable}

def isRunning (t : JobTable) (g : Generation) : Bool :=
  (t.objects.get? g).any fun job => decide (job.status = .running)

theorem length_filter_filterMap {α β : Type} (f : α → Option β) (p : β → Bool) (l : List α) :
    ((l.filterMap f).filter p).length = l.countP fun a => (f a).any p := by
  induction l with
  | nil => rfl
  | cons a l ih =>
    rw [filterMap_cons, countP_cons, ← ih]
    cases f a with
    | none => rfl
    | some b =>
      simp only [filter_cons, any_some]
      split <;> rfl

theorem length_getRunningJobs (t : JobTable) :
    (t.getRunningJobs none).length = t.jobs.entries.countP fun entry => t.isRunning entry.2 := by
  unfold getRunningJobs
  rw [length_filter_filterMap]
  unfold OrderedMap.keys
  rw [countP_map]
  apply countP_congr
  intro entry hentry
  have hget : t.get entry.1 = t.objects.get? entry.2 := by
    unfold get
    rw [get?_eq_some.mpr hentry, bind_some]
  simp only [Function.comp, hget, matchesOwner, Bool.true_and, isRunning]

theorem Settles.running_le (h : t.Settles t') :
    (t'.getRunningJobs none).length ≤ (t.getRunningJobs none).length := by
  rw [length_getRunningJobs, length_getRunningJobs]
  refine Nat.le_trans (countP_mono_left fun entry _ hrun => ?_) (h.jobs.countP_le)
  obtain ⟨job', hjob', hstatus⟩ := (any_eq_true _ _).mp hrun
  obtain ⟨job, hjob, -, -, hstarts⟩ := h.known hjob'
  exact (any_eq_true _ _).mpr ⟨job, hjob, by simpa using hstarts (by simpa using hstatus)⟩

theorem running_erase {id : Text} (hidle : ∀ {g}, t.jobs.get? id = some g → t.isRunning g = false) :
    (getRunningJobs { t with jobs := t.jobs.erase id } none).length =
      (t.getRunningJobs none).length := by
  rw [length_getRunningJobs, length_getRunningJobs]
  show (t.jobs.entries.filter _).countP (fun entry => t.isRunning entry.2) = _
  rw [countP_filter]
  apply countP_congr
  intro entry hentry
  constructor
  · intro hrun
    exact (Bool.and_eq_true _ _ ▸ hrun).1
  · intro hrun
    refine (Bool.and_eq_true _ _).mpr ⟨hrun, ?_⟩
    rw [decide_eq_true_eq]
    rintro rfl
    rw [hidle (get?_eq_some.mpr hentry)] at hrun
    cases hrun

/-- A run that has not ended, and was not failed from outside, has its record, and a timer evicts
only the record of a job that has ended. -/
structure Tracked (t : JobTable) : Prop extends t.Live where
  tracked : ∀ {g job}, g ∈ t.unsettled → g ∉ t.externallySettled → t.objects.get? g = some job →
    t.jobs.get? job.id = some g ∧ job.status = .running
  timers : ∀ {id due}, t.evictionTimers.get? id = some due →
    ∃ job, t.get id = some job ∧ job.status ≠ .running

end JobTable

namespace AsyncJobManager

variable {m : AsyncJobManager}

theorem finishJob_table_eq (m : AsyncJobManager) (job : AsyncJob) (status : JobStatus)
    (text : Text) :
    (m.finishJob job status text).table =
      if m.table.retentionMs = 0 then
        { m.table.setStatus job.generation status with jobs := m.table.jobs.erase job.id }
      else
        { m.table.setStatus job.generation status with
          evictionTimers :=
            m.table.evictionTimers.set job.id (m.table.now + m.table.retentionMs) } := by
  have hsettled : (({ m with table := m.table.setStatus job.generation status }.publishTerminal
      job.generation).enqueueDelivery job.id text).table =
        m.table.setStatus job.generation status :=
    publishTerminal_table _ _
  unfold finishJob scheduleEviction
  simp only [hsettled]
  have hretention : (m.table.setStatus job.generation status).retentionMs = m.table.retentionMs :=
    rfl
  rw [hretention]
  split
  · unfold evictJob
    simp only [hsettled]
    rfl
  · rfl

variable {job : AsyncJob} {g : Generation} {status : JobStatus}

variable (h : m.table.Tracked)
include h

theorem Tracked.finishJob (hjob : m.table.objects.get? g = some job)
    (hrecorded : m.table.jobs.get? job.id = some g)
    (hrunning : job.status = .running) (hstatus : status ≠ .running) (text : Text)
    {ext unsettled : List Generation}
    (hlive : JobTable.Live { (m.finishJob job status text).table with
      externallySettled := ext, unsettled := unsettled }) (hothers : ∀ {g'}, g' ∈ unsettled →
        g' ∉ ext →
      g' ≠ g ∧ g' ∈ m.table.unsettled ∧ g' ∉ m.table.externallySettled) :
    JobTable.Tracked { (m.finishJob job status text).table with
      externallySettled := ext, unsettled := unsettled } := by
  have hgen : job.generation = g := h.toWellFormed.getElem_generation hjob
  have hget : ∀ {id job'}, m.table.get id = some job' → job'.status ≠ .running → id ≠ job.id ∧
      (m.table.setStatus g status).get id = some job' := by
    intro id job' hget hidle
    obtain ⟨g', hrecord', hjob'⟩ := get_eq_some.mp hget
    have hne : g' ≠ g := by
      rintro rfl
      rw [hjob] at hjob'
      cases hjob'
      exact hidle hrunning
    refine ⟨?_, get_eq_some.mpr ⟨g', hrecord', ?_⟩⟩
    · rintro rfl
      rw [hrecorded] at hrecord'
      exact hne (some.inj hrecord').symm
    · rw [setStatus_of_ne _ _ hne]
      exact hjob'
  have htracked : ∀ {g' job'}, g' ∈ unsettled → g' ∉ ext →
      (m.table.setStatus g status).objects.get? g' = some job' →
        m.table.jobs.get? job'.id = some g' ∧ job'.id ≠ job.id ∧ job'.status = .running := by
    intro g' job' hmem hnot hjob'
    obtain ⟨hne, hmem', hnot'⟩ := hothers hmem hnot
    rw [setStatus_of_ne _ _ hne] at hjob'
    obtain ⟨hrecord', hrun⟩ := h.tracked hmem' hnot' hjob'
    refine ⟨hrecord', fun hid => ?_, hrun⟩
    rw [hid, hrecorded] at hrecord'
    exact hne (some.inj hrecord').symm
  have hended : (m.table.setStatus g status).get job.id =
      some { job with status, endTime := job.endTime <|> some m.table.now } :=
    setStatus_record status hrecorded hjob
  rw [finishJob_table_eq, hgen] at hlive ⊢
  split at hlive
  · next hretention =>
    rw [if_pos hretention]
    refine ⟨hlive, ?_, ?_⟩
    · intro g' job' hmem hnot hjob'
      obtain ⟨hrecord', hid, hrun⟩ := htracked hmem hnot hjob'
      exact ⟨(get?_erase_ne _ hid).trans hrecord', hrun⟩
    · intro id due hdue
      obtain ⟨job', hold, hidle⟩ := h.timers hdue
      obtain ⟨hid, hkept⟩ := hget hold hidle
      obtain ⟨g', hrecord', hjob'⟩ := get_eq_some.mp hkept
      refine ⟨job', get_eq_some.mpr ⟨g', ?_, hjob'⟩, hidle⟩
      exact (get?_erase_ne _ hid).trans hrecord'
  · next hretention =>
    rw [if_neg hretention]
    refine ⟨hlive, ?_, ?_⟩
    · intro g' job' hmem hnot hjob'
      obtain ⟨hrecord', -, hrun⟩ := htracked hmem hnot hjob'
      exact ⟨hrecord', hrun⟩
    · intro id due hdue
      rw [get?_set] at hdue
      split at hdue
      · next heq =>
        subst heq
        exact ⟨_, hended, hstatus⟩
      · obtain ⟨job', hold, hidle⟩ := h.timers hdue
        exact ⟨job', (hget hold hidle).2, hidle⟩

theorem Tracked.retire (hjob : m.table.objects.get? g = some job) (hstatus : status ≠ .running)
    {t : JobTable}
    (htable : t = m.table ∨ t = m.table.setStatus g status) (hlive : (t.retire g).Live) :
    (t.retire g).Tracked := by
  have hothers : ∀ {g'}, g' ∈ m.table.unsettled.erase g → g' ∉ m.table.externallySettled.erase g →
      g' ≠ g ∧ g' ∈ m.table.unsettled ∧ g' ∉ m.table.externallySettled := by
    intro g' hmem hnot
    have hne : g' ≠ g := fun heq => h.distinct.not_mem_erase (heq ▸ hmem)
    exact ⟨hne, mem_of_mem_erase hmem, fun hext => hnot ((mem_erase_of_ne hne).mpr hext)⟩
  rcases htable with rfl | rfl
  · refine ⟨hlive, ?_, h.timers⟩
    intro g' job' hmem hnot hjob'
    obtain ⟨-, hmem', hnot'⟩ := hothers hmem hnot
    exact h.tracked hmem' hnot' hjob'
  · refine ⟨hlive, ?_, ?_⟩
    · intro g' job' hmem hnot hjob'
      obtain ⟨hne, hmem', hnot'⟩ := hothers hmem hnot
      change (m.table.setStatus g status).objects.get? g' = some job' at hjob'
      rw [setStatus_of_ne _ _ hne] at hjob'
      exact h.tracked hmem' hnot' hjob'
    · intro id due hdue
      obtain ⟨job', hget, hidle⟩ := h.timers hdue
      obtain ⟨g', hrecord, hjob'⟩ := get_eq_some.mp hget
      by_cases heq : g' = g
      · subst heq
        exact ⟨_, setStatus_record status hrecord hjob', hstatus⟩
      · refine ⟨job', get_eq_some.mpr ⟨g', hrecord, ?_⟩, hidle⟩
        exact (setStatus_of_ne _ _ heq).trans hjob'

theorem Tracked.runEnds (g : Generation) (outcome : RunOutcome) :
    (m.runEnds g outcome).table.Tracked := by
  have hlive := Live.runEnds h.toLive g outcome
  unfold AsyncJobManager.runEnds at hlive ⊢
  cases hjob : m.table.objects.get? g with
  | none => exact h
  | some job =>
    rw [hjob] at hlive
    dsimp only at hlive ⊢
    split at hlive
    · next hsettled =>
      rw [if_pos hsettled]
      exact h
    next hunsettled =>
    rw [if_neg hunsettled]
    rw [not_not] at hunsettled
    split at hlive
    · next hext =>
      rw [if_pos hext]
      exact Tracked.retire h hjob (show JobStatus.failed ≠ .running by decide) (.inl rfl) hlive
    next hext =>
    obtain ⟨hrecorded, hrunning⟩ := h.tracked hunsettled hext hjob
    have hnot : ¬job.status = .cancelled := by
      rw [hrunning]
      decide
    rw [if_neg hnot] at hlive
    rw [if_neg hext, if_neg hnot]
    have hothers : ∀ {g'}, g' ∈ m.table.unsettled.erase g → g' ∉ m.table.externallySettled.erase g →
        g' ≠ g ∧ g' ∈ m.table.unsettled ∧ g' ∉ m.table.externallySettled := by
      intro g' hmem hnot
      have hne : g' ≠ g := fun heq => h.distinct.not_mem_erase (heq ▸ hmem)
      exact ⟨hne, mem_of_mem_erase hmem, fun hext => hnot ((mem_erase_of_ne hne).mpr hext)⟩
    have hfinish : ∀ {status : JobStatus} (text : Text), status ≠ .running →
        ((m.finishJob job status text).table.retire g).Live →
          ((m.finishJob job status text).table.retire g).Tracked := by
      intro status text hstatus hlive
      obtain ⟨-, -, hunsettled, hext, -⟩ := m.finishJob_table job status text
      refine Tracked.finishJob h hjob hrecorded hrunning hstatus text hlive fun hmem hnot => ?_
      rw [hunsettled] at hmem
      rw [hext] at hnot
      exact hothers hmem hnot
    cases outcome with
    | paused =>
        exact Tracked.retire h hjob (show JobStatus.paused ≠ .running by decide) (.inr rfl) hlive
    | failed text => exact hfinish text (by decide) hlive
    | completed text => exact hfinish text (by decide) hlive

theorem Tracked.failNow {jobId : Text} (hget : m.table.get jobId = some job)
    (hrunning : job.status = .running)
    (hext : job.generation ∉ m.table.externallySettled) (errorText : Text) :
    (m.failNow jobId job.generation errorText).table.Tracked := by
  have hlive := Live.failNow h.toLive jobId job.generation errorText
  obtain ⟨hrecorded, hjob, hid⟩ := h.toWellFormed.get_eq_some hget
  unfold AsyncJobManager.failNow at hlive ⊢
  rw [hget] at hlive ⊢
  dsimp only at hlive ⊢
  rw [if_neg (by simp [hrunning, hext])] at hlive ⊢
  let noted := { m with table := { m.table with
    externallySettled := m.table.externallySettled ++ [job.generation] } }
  have hnoted : noted.table.Tracked := by
    refine ⟨⟨⟨h.numbered, h.recorded⟩, h.distinct, h.known, fun hmem hnot hjob' => ?_⟩,
      fun hmem hnot hjob' => ?_, h.timers⟩
    · exact h.running hmem (fun hext => hnot (mem_append_left _ hext)) hjob'
    · exact h.tracked hmem (fun hext => hnot (mem_append_left _ hext)) hjob'
  obtain ⟨-, -, hunsettled, hsettled, -⟩ := noted.finishJob_table job .failed errorText
  refine Tracked.finishJob hnoted hjob (hid ▸ hrecorded) hrunning (by decide) errorText hlive
    fun {g'} hmem hnot => ?_
  rw [hunsettled] at hmem
  rw [hsettled] at hnot
  refine ⟨?_, hmem, hnot⟩
  rintro rfl
  exact hnot (mem_append_right _ (mem_singleton_self _))

theorem Tracked.evictionTimer (jobId : Text) :
    (m.evictionTimer jobId).table.Tracked ∧
      ((m.evictionTimer jobId).table.getRunningJobs none).length =
        (m.table.getRunningJobs none).length := by
  have hlive := Live.evictionTimer h.toLive jobId
  unfold AsyncJobManager.evictionTimer at hlive ⊢
  cases hdue : m.table.evictionTimers.get? jobId with
  | none => exact ⟨h, rfl⟩
  | some due =>
    rw [hdue] at hlive
    dsimp only at hlive ⊢
    split at hlive
    · next hearly =>
      rw [if_pos hearly]
      exact ⟨h, rfl⟩
    next hnow =>
    rw [if_neg hnow]
    obtain ⟨job, hget, hidle⟩ := h.timers hdue
    obtain ⟨g, hrecord, hjob⟩ := get_eq_some.mp hget
    refine ⟨⟨hlive, ?_, ?_⟩, ?_⟩
    · intro g' job' hmem hnot hjob'
      obtain ⟨hrecord', hrunning⟩ := h.tracked hmem hnot hjob'
      refine ⟨(get?_erase_ne _ fun hid => ?_).trans hrecord', hrunning⟩
      rw [hid, hrecord] at hrecord'
      cases hrecord'
      change m.table.objects.get? g = some job' at hjob'
      rw [hjob] at hjob'
      cases hjob'
      exact hidle hrunning
    · intro id due' hdue'
      change (m.table.evictionTimers.erase jobId).get? id = some due' at hdue'
      rw [get?_erase] at hdue'
      split at hdue'
      · cases hdue'
      next hid =>
      obtain ⟨job', hget', hidle'⟩ := h.timers hdue'
      obtain ⟨g', hrecord', hjob'⟩ := get_eq_some.mp hget'
      refine ⟨job', get_eq_some.mpr ⟨g', ?_, hjob'⟩, hidle'⟩
      exact (get?_erase_ne _ hid).trans hrecord'
    · refine running_erase (t := m.table) fun {g'} hrecord' => ?_
      rw [hrecord] at hrecord'
      cases hrecord'
      rw [isRunning, hjob]
      simpa using hidle

theorem Tracked.admitJob (options : RegisterOptions) :
    (m.admitJob options).table.Tracked ∧
      ((m.admitJob options).table.getRunningJobs none).length ≤
        (m.table.getRunningJobs none).length + 1 := by
  have hlive := SubagentManager.admitJob_live h.toLive options
  have hfresh : m.table.objects.get? (m.newJob options).generation = none := h.toWellFormed.fresh
  have hfree : m.table.jobs.get? (m.newJob options).id = none := by
    have hfree := m.resolveJobId_free options.preferredId
    exact has_eq_false.mp (Bool.or_eq_false_iff.mp hfree).1
  have hobjects : ∀ {g job}, m.table.objects.get? g = some job →
      (m.admitJob options).table.objects.get? g = some job := by
    intro g job hjob
    refine (get?_set_ne _ _ ?_).trans hjob
    rintro rfl
    rw [hfresh] at hjob
    cases hjob
  have hjobs : ∀ {id g}, m.table.jobs.get? id = some g →
      (m.admitJob options).table.jobs.get? id = some g := by
    intro id g hrecord
    refine (get?_set_ne _ _ ?_).trans hrecord
    rintro rfl
    rw [hfree] at hrecord
    cases hrecord
  refine ⟨⟨hlive, ?_, ?_⟩, ?_⟩
  · intro g job hmem hnot hjob
    change (m.table.objects.set _ _).get? g = some job at hjob
    rw [get?_set] at hjob
    split at hjob
    · next heq =>
      cases hjob
      exact ⟨heq ▸ get?_set_self _ _ _, rfl⟩
    · next hne =>
      have hold : g ∈ m.table.unsettled :=
        (mem_append.mp hmem).resolve_right fun hnew => hne (mem_singleton.mp hnew)
      obtain ⟨hrecord, hrunning⟩ := h.tracked hold hnot hjob
      exact ⟨hjobs hrecord, hrunning⟩
  · intro id due hdue
    obtain ⟨job, hget, hidle⟩ := h.timers hdue
    obtain ⟨g, hrecord, hjob⟩ := get_eq_some.mp hget
    exact ⟨job, get_eq_some.mpr ⟨g, hjobs hrecord, hobjects hjob⟩, hidle⟩
  · rw [length_getRunningJobs, length_getRunningJobs]
    have hperm := m.table.jobs.entries_set_perm (m.newJob options).id (m.newJob options).generation
    have hcount := hperm.countP_eq fun entry => (m.admitJob options).table.isRunning entry.2
    rw [countP_cons] at hcount
    -- the jobs that had a record run as before
    have hold : (m.table.jobs.erase (m.newJob options).id).entries.countP
          (fun entry => (m.admitJob options).table.isRunning entry.2) ≤
        m.table.jobs.entries.countP fun entry => m.table.isRunning entry.2 := by
      refine Nat.le_trans filter_sublist.countP_le (countP_mono_left fun entry hentry hrun => ?_)
      obtain ⟨job, hjob, -⟩ := h.recorded (get?_eq_some.mpr hentry)
      rw [isRunning, hobjects hjob] at hrun
      rw [isRunning, hjob]
      exact hrun
    refine Nat.le_trans (Nat.le_of_eq hcount) (Nat.add_le_add hold ?_)
    split <;> omega

end AsyncJobManager

namespace TerminalWaits

variable {w : TerminalWaits} {t : JobTable}

def NoneQueued (w : TerminalWaits) : Prop :=
  ∀ subagentId seq, w.terminalEvents.get? (.queued subagentId seq) = none

variable (h : w.NoneQueued)
include h

theorem NoneQueued.prune (t : JobTable) : (w.pruneTerminalEvents t).NoneQueued := by
  intro subagentId seq
  refine eq_none_iff_forall_not_mem.mpr fun event hevent => ?_
  have hold := (get?_retain_eq_some.mp hevent).1
  rw [h subagentId seq] at hold
  cases hold

theorem NoneQueued.pruneFor (t : JobTable) (targets : List AsyncJobWaitTarget) :
    (w.pruneFor t targets).NoneQueued := by
  unfold TerminalWaits.pruneFor
  split
  · exact h
  · exact h.prune t

theorem NoneQueued.maybeResolveWait (t : JobTable) (token : Nat) :
    (maybeResolveWait t w token).NoneQueued := by
  unfold TerminalWaits.maybeResolveWait
  split
  · exact h
  next wait _ =>
  split
  · exact h
  dsimp only
  split <;> exact h.pruneFor t wait.targets

theorem NoneQueued.resolveWaits (t : JobTable)
    (concerns : AsyncJobWaitTarget → Bool) : (w.resolveWaits t concerns).NoneQueued := by
  unfold TerminalWaits.resolveWaits
  generalize w.handles.entries.filter (fun entry => entry.2.targets.any concerns) = entries
  induction entries generalizing w with
  | nil => exact h
  | cons entry rest ih => exact ih (h.maybeResolveWait t entry.1)

theorem NoneQueued.publishTerminal (t : JobTable) {job : AsyncJob} {n : Nat}
    (hgen : job.generation = .job n) : (w.publishTerminal t job).NoneQueued := by
  unfold TerminalWaits.publishTerminal
  split
  · exact h
  unfold publish
  split
  · exact h
  refine NoneQueued.resolveWaits (fun subagentId seq => ?_) t _
  rw [get?_set_ne _ _ (by simp [hgen])]
  exact h subagentId seq

end TerminalWaits

namespace AsyncJobManager

variable {m : AsyncJobManager}

variable (h : m.waits.NoneQueued)
include h

theorem scheduleEviction_noneQueued (jobId : Text) :
    (m.scheduleEviction jobId).waits.NoneQueued := by
  unfold scheduleEviction
  split <;> exact h

variable (hwell : m.table.WellFormed)
include hwell

theorem publishTerminal_noneQueued (g : Generation) : (m.publishTerminal g).waits.NoneQueued := by
  unfold publishTerminal
  cases hjob : m.table.objects.get? g with
  | none => exact h
  | some job =>
    obtain ⟨hgen, n, hn, -⟩ := hwell.numbered hjob
    exact h.publishTerminal _ (hgen.trans hn)

theorem finishJob_noneQueued (job : AsyncJob)
    (status : JobStatus) (text : Text) : (m.finishJob job status text).waits.NoneQueued := by
  refine scheduleEviction_noneQueued ?_ job.id
  exact publishTerminal_noneQueued
    (m := { m with table := m.table.setStatus job.generation status }) h
    (hwell.setStatus _ _) job.generation

theorem runEnds_noneQueued (g : Generation) (outcome : RunOutcome) :
    (m.runEnds g outcome).waits.NoneQueued := by
  unfold runEnds
  split
  · exact h
  next job _ =>
  split
  · exact h
  split
  · exact h
  split
  · exact scheduleEviction_noneQueued (publishTerminal_noneQueued h hwell g) job.id
  cases outcome with
  | paused => exact h
  | failed text => exact finishJob_noneQueued h hwell job .failed text
  | completed text => exact finishJob_noneQueued h hwell job .completed text

theorem failNow_noneQueued (jobId : Text)
    (g : Generation) (errorText : Text) : (m.failNow jobId g errorText).waits.NoneQueued := by
  unfold failNow
  split
  · exact h
  next job _ =>
  split
  · exact h
  · exact finishJob_noneQueued (m := { m with table := { m.table with
      externallySettled := m.table.externallySettled ++ [g] } }) h
      ⟨hwell.numbered, hwell.recorded⟩ job .failed errorText

omit hwell

theorem evictionTimer_noneQueued (jobId : Text) : (m.evictionTimer jobId).waits.NoneQueued := by
  unfold evictionTimer
  split
  · exact h
  split <;> exact h

theorem step_aside_noneQueued {step : Step} (hstep : step.aside = true) :
    (m.step step).waits.NoneQueued := by
  cases step with
  | tick ms => exact h
  | subscribeTerminalWait targets condition =>
    exact TerminalWaits.NoneQueued.maybeResolveWait (w := { m.waits with
      waitSeq := m.waits.waitSeq + 1
      handles := m.waits.handles.set (m.waits.waitSeq + 1)
        ⟨TerminalWaits.dedupTargets targets, condition, none, false⟩ }) h m.table _
  | acknowledgeWait token targetIds =>
    show (m.acknowledgeWait token targetIds).waits.NoneQueued
    unfold acknowledgeWait
    split
    · exact h
    split
    · exact h
    · exact h.pruneFor m.table _
  | closeWait token =>
    show (m.waits.closeWait m.table token).NoneQueued
    unfold TerminalWaits.closeWait
    split
    · exact h
    split
    · exact h
    · exact h.pruneFor m.table _
  | pruneTerminalEvents => exact h.prune m.table
  | register options => cases hstep
  | startResume subagentId seq options => cases hstep
  | runEnds g outcome => cases hstep
  | failNow jobId g errorText => cases hstep
  | cancel id filter => cases hstep
  | cancelAll filter => cases hstep
  | evictionTimer jobId => cases hstep
  | publishQueuedTerminal subagentId seq ownerId status => cases hstep
  | beginOwnerSubagentShutdown ownerId => cases hstep
  | finishOwnerSubagentShutdown ownerId commit => cases hstep
  | _ =>
    rw [(step_onQueue rfl).2]
    exact h

end AsyncJobManager

end Vibrato.Jobs
