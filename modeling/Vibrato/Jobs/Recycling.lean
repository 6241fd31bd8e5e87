import Vibrato.Jobs.JobIds
import Vibrato.Jobs.Slots
import Vibrato.Lib.Runs

namespace Vibrato.Jobs

open Lib List OrderedMap JobTable AsyncJobManager

namespace JobSlots

structure View where
  record : Option AsyncJob
  output : Option AsyncJobOutputState
  lifecycle : Option Generation
  phases : Option (List LifecyclePhase)
  settled : Bool

variable (m : JobSlots)

def view (id : Text) : View where
  record := m.table.get id
  output := m.outputState.get? id
  lifecycle := m.lifecycles.get? id
  phases := m.lifecyclePhases.get? id
  settled := m.settledJobIds.contains id

/-- The runs that have not ended, or whose `finally` is still to come. -/
def executing : List Generation := m.table.unsettled ++ m.unwound

def Timed : Prop :=
  ∀ id, m.table.evictionTimers.has id = true → m.timerOwners.has id = true

/-- `m'` is `m` after something was done for the job of a generation under its id, which no other
job has. A record is only evicted once its job has ended, and an eviction is only scheduled then. -/
structure Acts (g : Generation) (id : Text) (m m' : JobSlots) : Prop where
  holder : m.table.jobs.get? id = none ∨ m.table.jobs.get? id = some g
  record : m'.table.jobs.get? id = m.table.jobs.get? id ∨ m'.table.jobs.get? id = none ∧
    m'.table.Ended g
  ended : m.table.Ended g → m'.table.Ended g
  object : ∀ {job'}, m'.table.objects.get? g = some job' →
    ∃ job, m.table.objects.get? g = some job ∧ job.id = job'.id
  objects : ∀ {g'}, g' ≠ g → m'.table.objects.get? g' = m.table.objects.get? g'
  records : ∀ {id'}, id' ≠ id → m'.table.jobs.get? id' = m.table.jobs.get? id'
  outputs : ∀ {id'}, id' ≠ id → m'.outputState.get? id' = m.outputState.get? id'
  lifecycles : ∀ {id'}, id' ≠ id → m'.lifecycles.get? id' = m.lifecycles.get? id'
  phases : ∀ {id'}, id' ≠ id → m'.lifecyclePhases.get? id' = m.lifecyclePhases.get? id'
  settled : ∀ {id'}, id' ≠ id → (id' ∈ m'.settledJobIds ↔ id' ∈ m.settledJobIds)
  executing : ∀ {g'}, g' ∈ m'.executing → g' ∈ m.executing
  timers : m.Timed → m'.Timed
  owners : ∀ {id'}, id' ≠ id → m'.timerOwners.get? id' = m.timerOwners.get? id'
  owner : ∀ {o}, m'.timerOwners.get? id = some o → m.timerOwners.get? id = some o ∨ o = g ∧
    m'.table.Ended g

variable {m m' m'' : JobSlots} {g : Generation} {id : Text}

namespace Acts

theorem refl (h : m.table.jobs.get? id = none ∨ m.table.jobs.get? id = some g) : Acts g id m m where
  holder := h
  record := .inl rfl
  ended h := h
  object h := ⟨_, h, rfl⟩
  objects _ := rfl
  records _ := rfl
  outputs _ := rfl
  lifecycles _ := rfl
  phases _ := rfl
  settled _ := Iff.rfl
  executing h := h
  timers h := h
  owners _ := rfl
  owner h := .inl h

theorem holder_after (h : Acts g id m m') :
    m'.table.jobs.get? id = none ∨ m'.table.jobs.get? id = some g := by
  rcases h.record with hsame | ⟨hnone, -⟩
  · rw [hsame]
    exact h.holder
  · exact .inl hnone

theorem trans (h : Acts g id m m') (h' : Acts g id m' m'') : Acts g id m m'' where
  holder := h.holder
  record := by
    rcases h'.record with hsame | hnone
    · rcases h.record with hsame' | ⟨hnone', hended⟩
      · exact .inl (hsame.trans hsame')
      · exact .inr ⟨hsame.trans hnone', h'.ended hended⟩
    · exact .inr hnone
  ended hended := h'.ended (h.ended hended)
  object hjob := by
    obtain ⟨job', hjob', hid'⟩ := h'.object hjob
    obtain ⟨job, hjob, hid⟩ := h.object hjob'
    exact ⟨job, hjob, hid.trans hid'⟩
  objects hne := (h'.objects hne).trans (h.objects hne)
  records hne := (h'.records hne).trans (h.records hne)
  outputs hne := (h'.outputs hne).trans (h.outputs hne)
  lifecycles hne := (h'.lifecycles hne).trans (h.lifecycles hne)
  phases hne := (h'.phases hne).trans (h.phases hne)
  settled hne := (h'.settled hne).trans (h.settled hne)
  executing hg := h.executing (h'.executing hg)
  timers htimed := h'.timers (h.timers htimed)
  owners hne := (h'.owners hne).trans (h.owners hne)
  owner ho := by
    rcases h'.owner ho with hold | hnew
    · exact (h.owner hold).imp_right fun ⟨heq, hended⟩ => ⟨heq, h'.ended hended⟩
    · exact .inr hnew

variable {id' : Text} {g' : Generation}

variable (h : Acts g id m m')
include h

theorem view_eq (ht : m.table.WellFormed) {job : AsyncJob}
    (hget : m.table.get id' = some job) (hne : job.generation ≠ g) : m'.view id' = m.view id' := by
  obtain ⟨hrecord, hobject, -⟩ := ht.get_eq_some hget
  have hid : id' ≠ id := by
    rintro rfl
    rcases h.holder with hnone | hsome
    · rw [hnone] at hrecord
      cases hrecord
    · rw [hsome] at hrecord
      exact hne (Option.some.inj hrecord).symm
  have hget' : m'.table.get id' = some job := by
    refine get_eq_some.mpr ⟨job.generation, ?_, ?_⟩
    · rw [h.records hid]
      exact hrecord
    · rw [h.objects hne]
      exact hobject
  have hsettled : m'.settledJobIds.contains id' = m.settledJobIds.contains id' := by
    rw [Bool.eq_iff_iff, contains_iff_mem, contains_iff_mem]
    exact h.settled hid
  unfold view
  rw [hget', hget, h.outputs hid, h.lifecycles hid, h.phases hid, hsettled]

theorem keeps_ended (hended : m.table.Ended g') : m'.table.Ended g' := by
  by_cases heq : g' = g
  · subst heq
    exact h.ended hended
  · obtain ⟨job, hjob, hterminal⟩ := hended
    exact ⟨job, by rw [h.objects heq]; exact hjob, hterminal⟩

theorem keeps_record (hrecord : m.table.jobs.get? id' = some g') :
    m'.table.jobs.get? id' = some g' ∨ m'.table.Ended g' := by
  by_cases hid : id' = id
  · subst hid
    rcases h.record with hsame | ⟨-, hended⟩
    · rw [hsame]
      exact .inl hrecord
    · rcases h.holder with hnone | hsome
      · rw [hnone] at hrecord
        cases hrecord
      · rw [hsome] at hrecord
        cases hrecord
        exact .inr hended
  · rw [h.records hid]
    exact .inl hrecord

theorem jobs_subset (hrecord : m'.table.jobs.get? id' = some g') :
    m.table.jobs.get? id' = some g' := by
  by_cases hid : id' = id
  · subst hid
    rcases h.record with hsame | ⟨hnone, -⟩
    · rw [← hsame]
      exact hrecord
    · rw [hnone] at hrecord
      cases hrecord
  · rw [← h.records hid]
    exact hrecord

end Acts

theorem runLifecycle_acts (h : m.table.jobs.get? id = none ∨ m.table.jobs.get? id = some g)
    (phase : LifecyclePhase) (jobOverride : Option AsyncJob) :
    Acts g id m (m.runLifecycle id phase jobOverride) := by
  unfold runLifecycle
  split
  · exact Acts.refl h
  · dsimp only
    split
    · exact Acts.refl h
    · exact { Acts.refl h with phases := fun hne => get?_set_ne _ _ hne }

theorem mem_filter_ne {ids : List Text} {id' : Text} (h : id' ≠ id) :
    id' ∈ ids.filter (· ≠ id) ↔ id' ∈ ids := by
  simp [h]

theorem evictJob_acts (h : m.table.jobs.get? id = none ∨ m.table.jobs.get? id = some g)
    (hended : m.table.jobs.get? id = some g → m.table.Ended g) : Acts g id m (m.evictJob id) := by
  have hrun := runLifecycle_acts h .evict none
  have hmanager := runLifecycle_manager m id .evict none
  refine hrun.trans ?_
  have htable : (m.runLifecycle id .evict none).table = m.table := by
    unfold table
    rw [hmanager]
  refine { Acts.refl hrun.holder_after with
    record := ?_
    records := fun hne => get?_erase_ne _ hne
    outputs := fun hne => get?_erase_ne _ hne
    lifecycles := fun hne => get?_erase_ne _ hne
    phases := fun hne => get?_erase_ne _ hne
    settled := fun hne => mem_filter_ne hne
    owner := fun ho => .inl ho }
  rw [htable]
  have hnone : (m.evictJob id).table.jobs.get? id = none := get?_erase_self _ _
  rcases h with hfree | hheld
  · exact .inl (hnone.trans hfree.symm)
  · exact .inr ⟨hnone, (ended_congr (congrArg objects htable) g).mpr (hended hheld)⟩

theorem scheduleEviction_acts (h : m.table.jobs.get? id = none ∨ m.table.jobs.get? id = some g)
    (hended : m.table.Ended g) : Acts g id m (m.scheduleEviction g id) := by
  unfold scheduleEviction
  split
  · exact evictJob_acts h fun _ => hended
  next hretention =>
  have hmanager : m.manager.scheduleEviction id = { m.manager with table := { m.table with
      evictionTimers := m.table.evictionTimers.set id (m.table.now + m.table.retentionMs) } } := by
    exact if_neg hretention
  rw [hmanager]
  refine { Acts.refl h with
    timers := fun htimed id' hid' => ?_
    owners := fun hne => get?_set_ne _ _ hne
    owner := fun {o} ho => ?_ }
  · rw [has_set]
    change (m.table.evictionTimers.set id _).has id' = true at hid'
    rw [has_set] at hid'
    exact hid'.imp_right (htimed id')
  · rw [get?_set_self] at ho
    exact .inr ⟨(Option.some.inj ho).symm, hended⟩

variable {status : JobStatus} {manager : AsyncJobManager} {job : AsyncJob} {lifecycle : Bool}
  {options : AsyncJobManager.RegisterOptions} {s : Step}

theorem setStatus_acts (h : m.table.jobs.get? id = none ∨ m.table.jobs.get? id = some g)
    (hstatus : m.table.Ended g → status.terminal = true)
    (htable : manager.table = m.table.setStatus g status) : Acts g id m { m with manager } := by
  have heq : ({ m with manager } : JobSlots).table = m.table.setStatus g status := htable
  refine { Acts.refl h with
    record := .inl (by rw [heq]; rfl)
    ended := ?_
    object := ?_
    objects := ?_
    records := fun _ => by rw [heq]; rfl
    executing := fun hg => ?_
    timers := fun htimed id' hid' => htimed id' ?_
    owner := fun ho => .inl ho }
  · rw [heq]
    exact fun hended => hended.setStatus (hstatus hended)
  · rw [heq]
    intro job' hjob'
    obtain ⟨old, hold, hid, -⟩ := setStatus_exists hjob'
    exact ⟨old, hold, hid⟩
  · rw [heq]
    exact fun hne => setStatus_of_ne _ _ hne
  · unfold executing at hg
    rw [heq] at hg
    exact hg
  · rw [heq] at hid'
    exact hid'

theorem manager_acts (h : m.table.jobs.get? id = none ∨ m.table.jobs.get? id = some g)
    (htable : manager.table = m.table) : Acts g id m { m with manager } := by
  have heq : ({ m with manager } : JobSlots).table = m.table := htable
  refine { Acts.refl h with
    record := .inl (by rw [heq])
    ended := by rw [heq]; exact fun hended => hended
    object := by rw [heq]; exact fun hjob => ⟨_, hjob, rfl⟩
    objects := fun _ => by rw [heq]
    records := fun _ => by rw [heq]
    executing := fun hg => by unfold executing at hg ⊢; rw [heq] at hg; exact hg
    timers := fun htimed id' hid' => htimed id' (by rw [heq] at hid'; exact hid')
    owner := fun ho => .inl ho }

theorem finishJob_acts (hjob : m.table.objects.get? job.generation = some job)
    (h : m.table.jobs.get? job.id = none ∨ m.table.jobs.get? job.id = some job.generation)
    (hstatus : status.terminal = true) (text : Text) :
    Acts job.generation job.id m (m.finishJob job status text) := by
  unfold finishJob
  dsimp only
  generalize hmanager : enqueueDelivery _ job.id text = manager
  have htable : manager.table = m.table.setStatus job.generation status := by
    rw [← hmanager, enqueueDelivery_table, publishTerminal_table]
  have hset := setStatus_acts h (fun _ => hstatus) htable
  have hrun := runLifecycle_acts hset.holder_after .terminal (some job)
  refine hset.trans (hrun.trans (scheduleEviction_acts hrun.holder_after ?_))
  apply hrun.ended
  show manager.table.Ended job.generation
  rw [htable]
  exact ⟨_, setStatus_self status hjob, hstatus⟩

theorem Acts.unwinds (h : Acts g id m m') (hg : g ∈ m.executing)
    (externallySettled : List Generation) :
    Acts g id m { m' with
      manager := { m'.manager with table := { m'.table with
        externallySettled
        unsettled := m'.table.unsettled.erase g } }
      unwound := m'.unwound ++ [g] } := by
  refine { h with executing := fun {g'} hg' => ?_ }
  rcases mem_append.mp hg' with hleft | hright
  · exact h.executing (mem_append_left _ (mem_of_mem_erase hleft))
  · rcases mem_append.mp hright with hold | hnew
    · exact h.executing (mem_append_right _ hold)
    · rw [mem_singleton.mp hnew]
      exact hg

/-- The id of a run that is executing is that of no other job, and the owner of a timer is the job
whose record it evicts, which has ended. -/
structure Slotted (m : JobSlots) : Prop where
  runs : ∀ {g job}, g ∈ m.executing → m.table.objects.get? g = some job →
    m.table.jobs.get? job.id = none ∨ m.table.jobs.get? job.id = some g
  timed : m.Timed
  owned : ∀ {id o}, m.timerOwners.get? id = some o →
    m.table.Ended o ∧ (m.table.jobs.get? id = none ∨ m.table.jobs.get? id = some o)

theorem Acts.slotted (h : Acts g id m m') (hm : m.Slotted) : m'.Slotted where
  runs {g' job'} hg' hjob' := by
    obtain ⟨job, hjob, hid⟩ : ∃ job, m.table.objects.get? g' = some job ∧ job.id = job'.id := by
      by_cases heq : g' = g
      · subst heq
        exact h.object hjob'
      · rw [h.objects heq] at hjob'
        exact ⟨job', hjob', rfl⟩
    rw [← hid]
    cases hrecord : m'.table.jobs.get? job.id with
    | none => exact .inl rfl
    | some g'' =>
      right
      rcases hm.runs (h.executing hg') hjob with hnone | hsome
      · rw [h.jobs_subset hrecord] at hnone
        cases hnone
      · rw [h.jobs_subset hrecord] at hsome
        exact hsome
  timed := h.timers hm.timed
  owned {id' o} ho := by
    by_cases hid : id' = id
    · subst hid
      rcases h.owner ho with hold | ⟨rfl, hended⟩
      · obtain ⟨hended, hrecord⟩ := hm.owned hold
        refine ⟨h.keeps_ended hended, ?_⟩
        rcases h.record with hsame | ⟨hnone, -⟩
        · rw [hsame]
          exact hrecord
        · exact .inl hnone
      · exact ⟨hended, h.holder_after⟩
    · rw [h.owners hid] at ho
      rw [h.records hid]
      exact (hm.owned ho).imp_left h.keeps_ended

variable (hm : m.Slotted)
include hm

theorem runEnds_acts (hlive : m.table.Live) (hjob : m.table.objects.get? g = some job)
    (hg : g ∈ m.table.unsettled)
    (outcome : AsyncJobManager.RunOutcome) : Acts g job.id m (m.runEnds g outcome) := by
  have hgen := hlive.getElem_generation hjob
  have hexecuting : g ∈ m.executing := mem_append_left _ hg
  have hholder := hm.runs hexecuting hjob
  unfold runEnds
  rw [hjob]
  dsimp only
  rw [if_neg (not_not.mpr hg)]
  refine Acts.unwinds ?_ hexecuting _
  split
  · exact Acts.refl hholder
  next hext =>
  split
  · next hcancelled =>
    have hpublished := manager_acts hholder (publishTerminal_table m.manager g)
    have hrun := runLifecycle_acts hpublished.holder_after .terminal (some job)
    have hended : m.table.Ended g := ⟨job, hjob, by rw [hcancelled]; rfl⟩
    have hschedule := scheduleEviction_acts hrun.holder_after (hrun.ended (hpublished.ended hended))
    exact hpublished.trans (hrun.trans hschedule)
  next hcancelled =>
  have hrunning : job.status = .running := (hlive.running hg hext hjob).resolve_right hcancelled
  subst hgen
  cases outcome with
  | paused =>
    refine setStatus_acts hholder (fun hended => ?_) rfl
    obtain ⟨job', hjob', hterminal⟩ := hended
    rw [hjob] at hjob'
    cases hjob'
    rw [hrunning] at hterminal
    cases hterminal
  | failed text => exact finishJob_acts hjob hholder rfl text
  | completed text => exact finishJob_acts hjob hholder rfl text

theorem settles_acts (hjob : m.table.objects.get? g = some job)
    (hg : g ∈ m.unwound) : Acts g job.id m (m.settles g) := by
  have hexecuting : g ∈ m.executing := mem_append_right _ hg
  unfold settles
  rw [hjob]
  dsimp only
  rw [if_neg (not_not.mpr hg)]
  refine { Acts.refl (hm.runs hexecuting hjob) with
    settled := fun hne => ?_
    executing := fun hg' => ?_ }
  · rw [mem_insert_iff]
    exact or_iff_right hne
  · rcases mem_append.mp hg' with hleft | hright
    · exact mem_append_left _ hleft
    · exact mem_append_right _ (mem_of_mem_erase hright)

theorem appendOutput_acts (hjob : m.table.objects.get? g = some job) (hg : g ∈ m.table.unsettled)
    (chunk : Text) :
    Acts g job.id m (m.appendOutput g chunk) := by
  have hexecuting : g ∈ m.executing := mem_append_left _ hg
  unfold appendOutput
  rw [hjob]
  dsimp only
  rw [if_neg (not_not.mpr hg)]
  refine { Acts.refl (hm.runs hexecuting hjob) with outputs := fun {id'} hne => ?_ }
  unfold JobOutputs.appendOutput
  rw [if_neg (by simp)]
  split
  · rfl
  split
  · rfl
  split
  · rfl
  · exact get?_set_ne _ _ hne

theorem evictionTimer_acts {o : Generation} (ho : m.timerOwners.get? id = some o) :
    Acts o id m (m.evictionTimer id) := by
  obtain ⟨hended, hholder⟩ := hm.owned ho
  unfold evictionTimer
  split
  · exact Acts.refl hholder
  split
  · exact Acts.refl hholder
  have hfired : Acts o id m { m with
      manager := { m.manager with table := { m.table with
        evictionTimers := m.table.evictionTimers.erase id } }
      timerOwners := m.timerOwners.erase id } := by
    refine { Acts.refl hholder with
      timers := fun htimed id' hid' => ?_
      owners := fun hne => get?_erase_ne _ hne
      owner := fun ho' => ?_ }
    · change (m.table.evictionTimers.erase id).has id' = true at hid'
      rw [has_erase] at hid' ⊢
      exact hid'.imp_right (htimed id')
    · rw [get?_erase_self] at ho'
      cases ho'
  exact hfired.trans (evictJob_acts hfired.holder_after fun _ => hended)

omit hm

structure Keeps (m m' : JobSlots) : Prop where
  slotted : m'.Slotted
  records : ∀ {id g}, m.table.jobs.get? id = some g → m'.table.jobs.get? id = some g ∨
    m'.table.Ended g
  ended : ∀ {g}, m.table.Ended g → m'.table.Ended g

theorem Keeps.refl (hm : m.Slotted) : Keeps m m := ⟨hm, .inl, fun h => h⟩

theorem Keeps.trans (h : Keeps m m') (h' : Keeps m' m'') : Keeps m m'' where
  slotted := h'.slotted
  records hrecord := by
    rcases h.records hrecord with hkept | hended
    · exact h'.records hkept
    · exact .inr (h'.ended hended)
  ended hended := h'.ended (h.ended hended)

theorem Acts.keeps (h : Acts g id m m') (hm : m.Slotted) : Keeps m m' :=
  ⟨h.slotted hm, h.keeps_record, h.keeps_ended⟩

theorem failNow_keeps (hm : m.Slotted) (ht : m.table.WellFormed) (jobId : Text) (g : Generation)
    (errorText : Text) : Keeps m (m.failNow jobId g errorText) := by
  unfold failNow
  split
  · exact Keeps.refl hm
  next job hget =>
  split
  · exact Keeps.refl hm
  obtain ⟨hrecord, hobject, rfl⟩ := ht.get_eq_some hget
  let marked : JobSlots := { m with manager := { m.manager with table := { m.table with
    externallySettled := m.table.externallySettled ++ [g] } } }
  have hmarked : Acts job.generation job.id m marked := { Acts.refl (.inr hrecord) with }
  have hfinish : Acts job.generation job.id marked (marked.finishJob job .failed errorText) :=
    finishJob_acts (m := marked) hobject hmarked.holder_after rfl errorText
  exact (hmarked.trans hfinish).keeps hm

theorem cancel_acts (ht : m.table.WellFormed) (hget : m.table.get id = some job)
    {filter : Option Text} (hcancels : m.manager.cancels id filter = true) :
    Acts job.generation id m (m.cancel id filter) ∧
      (m.cancel id filter).table.Ended job.generation := by
  obtain ⟨hrecord, hobject, -⟩ := ht.get_eq_some hget
  unfold cancel
  rw [hget]
  dsimp only
  rw [if_neg (by simp [hcancels])]
  generalize hmanager : publishTerminal _ job.generation = manager
  have htable : manager.table = m.table.setStatus job.generation .cancelled := by
    rw [← hmanager, publishTerminal_table]
  have hset := setStatus_acts (.inr hrecord) (fun _ => rfl) htable
  have hended : ({ m with manager } : JobSlots).table.Ended job.generation := by
    show manager.table.Ended job.generation
    rw [htable]
    exact ⟨_, setStatus_self .cancelled hobject, rfl⟩
  have hrun := runLifecycle_acts hset.holder_after .cancel none
  split
  · have hschedule := scheduleEviction_acts hrun.holder_after (hrun.ended hended)
    exact ⟨hset.trans (hrun.trans hschedule), hschedule.ended (hrun.ended hended)⟩
  · exact ⟨hset.trans hrun, hrun.ended hended⟩

theorem cancel_keeps (hm : m.Slotted) (ht : m.table.WellFormed) (id : Text) (filter : Option Text) :
    Keeps m (m.cancel id filter) := by
  cases hget : m.table.get id with
  | none =>
    unfold cancel
    rw [hget]
    exact Keeps.refl hm
  | some job =>
    cases hcancels : m.manager.cancels id filter with
    | true => exact (cancel_acts ht hget hcancels).1.keeps hm
    | false =>
      unfold cancel
      rw [hget]
      dsimp only
      rw [if_pos (by simp [hcancels])]
      exact Keeps.refl hm

theorem cancelAll_keeps (hm : m.Slotted) (hlive : m.table.Live) (filter : Option Text) :
    Keeps m (m.cancelAll filter) := by
  -- the jobs still to cancel are those of the records that are left
  suffices hfold : ∀ (jobs : List AsyncJob) (m₁ : JobSlots),
      (∀ job ∈ jobs, m.table.jobs.get? job.id = some job.generation) → m₁.Slotted →
      m₁.table.Live → (∀ {id g}, m₁.table.jobs.get? id = some g → m.table.jobs.get? id = some g) →
      Keeps m₁ (jobs.foldl (fun m job =>
        if m.manager.cancels job.id filter then
          (m.cancel job.id filter).scheduleEviction job.generation job.id
        else m) m₁) by
    exact hfold _ m (fun job hjob => hlive.toWellFormed.mem_getRunningJobs hjob) hm hlive fun h => h
  intro jobs
  induction jobs with
  | nil => exact fun m₁ _ hm₁ _ _ => Keeps.refl hm₁
  | cons job rest ih =>
    intro m₁ hjobs hm₁ hlive₁ hsubset
    rw [foldl_cons]
    have hrest := fun job' hjob' => hjobs job' (mem_cons_of_mem _ hjob')
    split
    · next hcancels =>
      obtain ⟨job', hget, -⟩ := (Option.any_eq_true _ _).mp hcancels
      have hrecord := (hlive₁.toWellFormed.get_eq_some hget).1
      have hgen : job'.generation = job.generation := by
        have hold := hsubset hrecord
        rw [hjobs job mem_cons_self] at hold
        exact (Option.some.inj hold).symm
      obtain ⟨hcancel, hended⟩ := cancel_acts hlive₁.toWellFormed hget hcancels
      rw [hgen] at hcancel hended
      have hacts := hcancel.trans (scheduleEviction_acts hcancel.holder_after hended)
      refine (hacts.keeps hm₁).trans (ih _ hrest (hacts.slotted hm₁) ?_ fun h =>
        hsubset (hacts.jobs_subset h))
      show (scheduleEviction _ _ _).manager.table.Live
      rw [scheduleEviction_manager, cancel_manager]
      exact AsyncJobManager.Live.scheduleEviction (AsyncJobManager.Live.cancel hlive₁ _ _) _
    · exact ih m₁ hrest hm₁ hlive₁ hsubset

/-- The id that a new job would get is that of no run that is executing, and of no eviction
timer. -/
def Fresh (m : JobSlots) (options : AsyncJobManager.RegisterOptions) : Prop :=
  (∀ g ∈ m.executing, ∀ job ∈ m.table.objects.get? g, job.id ≠ (m.manager.newJob options).id) ∧
    m.timerOwners.get? (m.manager.newJob options).id = none

instance (m : JobSlots) (options : AsyncJobManager.RegisterOptions) : Decidable (m.Fresh options) :=
  inferInstanceAs (Decidable (_ ∧ _))

def adds (m : JobSlots) (job : AsyncJob) (lifecycle : Bool) : JobSlots :=
  { m with
    manager := m.manager.addJob job
    settledJobIds := m.settledJobIds.filter (· ≠ job.id)
    lifecycles := if lifecycle then m.lifecycles.set job.id job.generation else m.lifecycles }

theorem adds_objects (lifecycle : Bool) (hne : g ≠ job.generation) :
    (m.adds job lifecycle).table.objects.get? g = m.table.objects.get? g :=
  get?_set_ne _ _ hne

theorem mem_executing_adds : g ∈ (m.adds job lifecycle).executing ↔
    g ∈ m.executing ∨ g = job.generation := by
  show g ∈ (m.table.unsettled ++ [job.generation]) ++ m.unwound ↔
      g ∈ m.table.unsettled ++ m.unwound ∨ _
  simp only [mem_append, mem_singleton]
  tauto

theorem adds_keeps (hm : m.Slotted) (hlive : m.table.Live) (lifecycle : Bool)
    (hgen : job.generation = .job (m.table.jobGenerationSeq + 1))
    (hfree : m.table.jobs.get? job.id = none) : Keeps m (m.adds job lifecycle) := by
  have hfresh : m.table.objects.get? job.generation = none := by
    rw [hgen]
    exact hlive.toWellFormed.fresh
  have hended : ∀ {g}, m.table.Ended g → (m.adds job lifecycle).table.Ended g := by
    rintro g ⟨old, hold, hterminal⟩
    refine ⟨old, ?_, hterminal⟩
    rw [adds_objects lifecycle fun heq => ?_]
    · exact hold
    · rw [heq, hfresh] at hold
      cases hold
  refine ⟨⟨?_, hm.timed, fun ho => (hm.owned ho).imp_left hended⟩, .inl, hended⟩
  intro g job' hg hjob'
  by_cases heq : g = job.generation
  · subst heq
    change (m.table.objects.set job.generation job).get? job.generation = some job' at hjob'
    rw [get?_set_self] at hjob'
    cases hjob'
    exact .inl hfree
  · rw [adds_objects lifecycle heq] at hjob'
    exact hm.runs ((mem_executing_adds.mp hg).resolve_right heq) hjob'

theorem record_keeps (hacts : Acts job.generation job.id m m') (hm : m.Slotted)
    (hfree : m.table.jobs.get? job.id = none)
    (hrun : ∀ {g old}, g ∈ m.executing → g ≠ job.generation → m.table.objects.get? g = some old →
      old.id ≠ job.id) (htimer : m.timerOwners.get? job.id = none) :
    Keeps m { m' with manager := { m'.manager with table := { m'.table with
      jobs := m'.table.jobs.set job.id job.generation } } } := by
  have hkeeps := hacts.keeps hm
  refine ⟨⟨?_, hkeeps.slotted.timed, ?_⟩, ?_, hkeeps.ended⟩
  · intro g old hg hold
    show (m'.table.jobs.set job.id job.generation).get? old.id = none ∨
      (m'.table.jobs.set job.id job.generation).get? old.id = some g
    rw [get?_set]
    split
    · next hid =>
      right
      by_contra hne
      have hg' : g ≠ job.generation := fun heq => hne (congrArg some heq.symm)
      change m'.table.objects.get? g = some old at hold
      rw [hacts.objects hg'] at hold
      exact hrun (hacts.executing hg) hg' hold hid
    · exact hkeeps.slotted.runs hg hold
  · intro id' o ho
    show m'.table.Ended o ∧ ((m'.table.jobs.set job.id job.generation).get? id' = none ∨
      (m'.table.jobs.set job.id job.generation).get? id' = some o)
    rw [get?_set]
    split
    · next hid =>
      subst hid
      rcases hacts.owner ho with hold | ⟨rfl, hended⟩
      · rw [htimer] at hold
        cases hold
      · exact ⟨hended, .inr rfl⟩
    · exact hkeeps.slotted.owned ho
  · intro id' g hrecord
    show (m'.table.jobs.set job.id job.generation).get? id' = some g ∨ _
    rw [get?_set_ne]
    · exact hkeeps.records hrecord
    · rintro rfl
      rw [hfree] at hrecord
      cases hrecord

theorem newJob_free (m : JobSlots) (options : AsyncJobManager.RegisterOptions) :
    m.table.jobs.get? (m.manager.newJob options).id = none := by
  have hfree := m.manager.resolveJobId_free options.preferredId
  unfold isTaken at hfree
  rw [Bool.or_eq_false_iff] at hfree
  exact has_eq_false.mp hfree.1

include hm

theorem register_keeps (hlive : m.table.Live)
    (hfresh : m.manager.refuses options = false → m.Fresh options) (lifecycle : Bool) :
    Keeps m (m.register options lifecycle) := by
  unfold register
  split
  · exact Keeps.refl hm
  next hadmits =>
  obtain ⟨hruns, htimer⟩ := hfresh (by simpa using hadmits)
  have hfree := m.newJob_free options
  generalize hjob : m.manager.newJob options = job at hruns htimer hfree
  have hgen : job.generation = .job (m.table.jobGenerationSeq + 1) := by
    rw [← hjob]
    rfl
  have hadds := adds_keeps hm hlive lifecycle hgen hfree
  have hself : (m.adds job lifecycle).table.objects.get? job.generation = some job :=
    get?_set_self _ _ _
  have hexecuting : job.generation ∈ (m.adds job lifecycle).executing :=
    mem_executing_adds.mpr (.inr rfl)
  have hothers : ∀ {g old}, g ∈ (m.adds job lifecycle).executing → g ≠ job.generation →
      (m.adds job lifecycle).table.objects.get? g = some old → old.id ≠ job.id := by
    intro g old hg hne hold
    rw [adds_objects lifecycle hne] at hold
    exact hruns g ((mem_executing_adds.mp hg).resolve_right hne) old hold
  refine hadds.trans (record_keeps ?_ hadds.slotted hfree hothers htimer)
  split
  · exact Acts.refl (.inl hfree)
  · next text _ =>
    have hfinish : Acts job.generation job.id (m.adds job lifecycle)
        ((m.adds job lifecycle).finishJob job .failed text) :=
      finishJob_acts hself (.inl hfree) rfl text
    exact hfinish.unwinds hexecuting _

theorem startResume_keeps (hlive : m.table.Live) (subagentId : Text) (seq : Nat)
    (hfresh : m.manager.refuses options = false → m.Fresh options) (lifecycle : Bool) :
    Keeps m (m.startResume subagentId seq options lifecycle) := by
  have hregister := register_keeps hm hlive hfresh lifecycle
  unfold startResume
  dsimp only
  split
  · exact Keeps.refl hm
  · obtain ⟨⟨hruns, htimed, howned⟩, hrecords, hended⟩ := hregister
    exact ⟨⟨hruns, htimed, howned⟩, hrecords, hended⟩

theorem quiet_keeps (hobjects : manager.table.objects = m.table.objects)
    (hjobs : manager.table.jobs = m.table.jobs)
    (htimers : manager.table.evictionTimers = m.table.evictionTimers)
    (hunsettled : manager.table.unsettled = m.table.unsettled) : Keeps m { m with manager } := by
  have hended : ∀ {g}, m.table.Ended g → manager.table.Ended g :=
    fun {g} h => (ended_congr hobjects g).mpr h
  refine ⟨⟨?_, ?_, ?_⟩, ?_, hended⟩
  · intro g job hg hjob
    change g ∈ manager.table.unsettled ++ m.unwound at hg
    change manager.table.objects.get? g = some job at hjob
    show manager.table.jobs.get? job.id = none ∨ manager.table.jobs.get? job.id = some g
    rw [hunsettled] at hg
    rw [hobjects] at hjob
    rw [hjobs]
    exact hm.runs hg hjob
  · intro id hid
    change manager.table.evictionTimers.has id = true at hid
    rw [htimers] at hid
    exact hm.timed id hid
  · intro id o ho
    show manager.table.Ended o ∧
      (manager.table.jobs.get? id = none ∨ manager.table.jobs.get? id = some o)
    rw [hjobs]
    exact (hm.owned ho).imp_left hended
  · intro id g hrecord
    left
    show manager.table.jobs.get? id = some g
    rw [hjobs]
    exact hrecord

theorem table_keeps (htable : manager.table = m.table) : Keeps m { m with manager } := by
  apply quiet_keeps hm <;> rw [htable]

omit hm

theorem runEnds_eq_self {g : Generation} {outcome : AsyncJobManager.RunOutcome}
    (h : ¬ ∃ job, m.table.objects.get? g = some job ∧ g ∈ m.table.unsettled) :
    m.runEnds g outcome = m := by
  unfold runEnds
  split
  · rfl
  · next job hjob => rw [if_pos fun hg => h ⟨job, hjob, hg⟩]

theorem evictionTimer_eq_self (htimed : m.Timed) (h : m.timerOwners.get? id = none) :
    m.evictionTimer id = m := by
  unfold evictionTimer
  split
  · rfl
  · next due hdue =>
    have howner := htimed id (has_iff.mpr ⟨due, hdue⟩)
    rw [has_eq_false.mpr h] at howner
    cases howner

def Step.registers : Step → Option AsyncJobManager.RegisterOptions
  | .call (.register options) _ => some options
  | .call (.startResume _ _ options) _ => some options
  | _ => none

def Admits (m : JobSlots) (s : Step) : Prop :=
  ∀ options ∈ s.registers, m.manager.refuses options = false → m.Fresh options

instance (m : JobSlots) (s : Step) : Decidable (m.Admits s) :=
  inferInstanceAs (Decidable (∀ options ∈ s.registers, _))

theorem call_keeps (hm : m.Slotted) (hlive : m.table.Live) {s : AsyncJobManager.Step}
    (hadmits : m.Admits (.call s lifecycle)) : Keeps m (m.call lifecycle s) := by
  cases s with
  | register options => exact register_keeps hm hlive (hadmits options rfl) lifecycle
  | startResume subagentId seq options =>
    exact startResume_keeps hm hlive subagentId seq (hadmits options rfl) lifecycle
  | runEnds g outcome =>
    show Keeps m (m.runEnds g outcome)
    by_cases hrun : ∃ job, m.table.objects.get? g = some job ∧ g ∈ m.table.unsettled
    · obtain ⟨job, hjob, hg⟩ := hrun
      exact (runEnds_acts hm hlive hjob hg outcome).keeps hm
    · rw [runEnds_eq_self hrun]
      exact Keeps.refl hm
  | failNow jobId g errorText => exact failNow_keeps hm hlive.toWellFormed jobId g errorText
  | cancel id filter => exact cancel_keeps hm hlive.toWellFormed id filter
  | cancelAll filter => exact cancelAll_keeps hm hlive filter
  | evictionTimer id =>
    show Keeps m (m.evictionTimer id)
    cases ho : m.timerOwners.get? id with
    | none =>
      rw [evictionTimer_eq_self hm.timed ho]
      exact Keeps.refl hm
    | some o => exact (evictionTimer_acts hm ho).keeps hm
  | tick ms => exact quiet_keeps hm rfl rfl rfl rfl
  | publishQueuedTerminal subagentId seq ownerId status => exact table_keeps hm rfl
  | subscribeTerminalWait targets condition => exact table_keeps hm rfl
  | closeWait token => exact table_keeps hm rfl
  | pruneTerminalEvents => exact table_keeps hm rfl
  | acknowledgeWait token targetIds =>
    exact table_keeps hm (acknowledgeWait_table token targetIds)
  | _ => exact table_keeps hm (step_onQueue rfl).1

/-- The generation for which a step is taken late: its run unwinds or reports output, its `finally`
runs, or its eviction timer fires. -/
def actor (m : JobSlots) : Step → Option Generation
  | .call (.runEnds g _) _ => some g
  | .call (.evictionTimer id) _ => m.timerOwners.get? id
  | .settles g => some g
  | .appendOutput g _ => some g
  | _ => none

/-- A step that is taken for a generation changes nothing that is kept under the id of another job,
and no record is lost but of a job that has ended. -/
structure Isolated (m : JobSlots) (s : Step) : Prop where
  others : ∀ {g id job}, m.actor s = some g → m.table.get id = some job → job.generation ≠ g →
    (m.step s).view id = m.view id
  evicts : ∀ {id g}, m.table.jobs.get? id = some g → (m.step s).table.jobs.get? id = some g ∨
    (m.step s).table.Ended g

include hm

theorem step_acts (hlive : m.table.Live) (hactor : m.actor s = some g) :
    m.step s = m ∨ ∃ id, Acts g id m (m.step s) := by
  cases s with
  | call s lifecycle =>
    cases s with
    | runEnds g' outcome =>
      cases hactor
      by_cases hrun : ∃ job, m.table.objects.get? g = some job ∧ g ∈ m.table.unsettled
      · obtain ⟨job, hjob, hg⟩ := hrun
        exact .inr ⟨job.id, runEnds_acts hm hlive hjob hg outcome⟩
      · exact .inl (runEnds_eq_self hrun)
    | evictionTimer id => exact .inr ⟨id, evictionTimer_acts hm hactor⟩
    | _ => cases hactor
  | settles g' =>
    cases hactor
    cases hjob : m.table.objects.get? g with
    | none => exact .inl (by simp only [step, settles, hjob])
    | some job =>
      by_cases hg : g ∈ m.unwound
      · exact .inr ⟨job.id, settles_acts hm hjob hg⟩
      · exact .inl (by simp only [step, settles, hjob]; rw [if_pos hg])
  | appendOutput g' chunk =>
    cases hactor
    cases hjob : m.table.objects.get? g with
    | none => exact .inl (by simp only [step, appendOutput, hjob])
    | some job =>
      by_cases hg : g ∈ m.table.unsettled
      · exact .inr ⟨job.id, appendOutput_acts hm hjob hg chunk⟩
      · exact .inl (by simp only [step, appendOutput, hjob]; rw [if_pos hg])

theorem step_keeps (hlive : m.table.Live) (hadmits : m.Admits s) : Keeps m (m.step s) := by
  have hlate : ∀ {s g}, m.actor s = some g → Keeps m (m.step s) := by
    intro s g hactor
    rcases step_acts hm hlive hactor with hsame | ⟨id, hacts⟩
    · rw [hsame]
      exact Keeps.refl hm
    · exact hacts.keeps hm
  cases s with
  | call s lifecycle => exact call_keeps hm hlive hadmits
  | settles g => exact hlate (s := .settles g) rfl
  | appendOutput g chunk => exact hlate (s := .appendOutput g chunk) rfl

theorem step_isolated (hlive : m.table.Live) (hadmits : m.Admits s) : m.Isolated s where
  others hactor hget hne := by
    rcases step_acts hm hlive hactor with hsame | ⟨id, hacts⟩
    · rw [hsame]
    · exact hacts.view_eq hlive.toWellFormed hget hne
  evicts := (step_keeps hm hlive hadmits).records

omit hm

theorem live_step (hlive : m.table.Live) (s : Step) : (m.step s).table.Live := by
  cases s with
  | call s lifecycle =>
    show (m.call lifecycle s).manager.table.Live
    rw [call_manager]
    exact AsyncJobManager.Live.step hlive s
  | settles g =>
    have htable : (m.settles g).table = m.table := by
      unfold settles
      split
      · rfl
      · split <;> rfl
    exact htable ▸ hlive
  | appendOutput g chunk =>
    have htable : (m.appendOutput g chunk).table = m.table := by
      unfold appendOutput
      split
      · rfl
      · split <;> rfl
    exact htable ▸ hlive

/-- No step that is taken late for one job falls on another, and only jobs that have ended are
evicted. -/
theorem run_isolated (now : Int) (retentionMs maxRunningJobs maxOwners outputRetentionBytes : Nat)
    (steps : List Step)
    (h : Guarded step Admits (create now retentionMs maxRunningJobs maxOwners outputRetentionBytes)
      steps) :
    Guarded step Isolated
      (create now retentionMs maxRunningJobs maxOwners outputRetentionBytes) steps := by
  refine Guarded.imp (I := fun m => m.Slotted ∧ m.table.Live) ?_ ?_ h
  · rintro m s ⟨hm, hlive⟩ hadmits
    exact ⟨⟨(step_keeps hm hlive hadmits).slotted, live_step hlive s⟩,
      step_isolated hm hlive hadmits⟩
  · refine ⟨⟨fun hg => ?_, fun id hid => ?_, fun ho => ?_⟩, create_live _ _ _ _⟩
    · cases hg
    · cases hid
    · cases ho

/-- A job is cancelled and unwinds; a second job takes its id, reports output, and completes. -/
def unwindsInTime : List Step :=
  [.call (.register ⟨some "x".toList, none, false, none⟩) true, .call (.cancelAll none) false,
    .call (.runEnds (.job 1) (.completed [])) false, .settles (.job 1),
    .call (.register ⟨some "x".toList, none, false, none⟩) true,
    .appendOutput (.job 2) "one".toList, .call (.runEnds (.job 2) (.completed "done".toList)) false,
    .settles (.job 2)]

theorem unwindsInTime_isolated :
    Guarded step Admits (create 0 0 15 64 1024) unwindsInTime ∧
      Guarded step Isolated (create 0 0 15 64 1024) unwindsInTime :=
  ⟨by decide +kernel, run_isolated 0 0 15 64 1024 unwindsInTime (by decide +kernel)⟩

def unwindsAfterReuse : List Step :=
  [.call (.register ⟨some "x".toList, none, false, none⟩) true, .call (.cancelAll none) false,
    .call (.register ⟨some "x".toList, none, false, none⟩) true,
    .call (.runEnds (.job 1) (.completed [])) false]

/-- The first run evicts the record of the second job, which runs. -/
theorem unwindsAfterReuse_not_isolated :
    ¬ Guarded step Isolated (create 0 0 15 64 1024) unwindsAfterReuse := by
  intro h
  obtain ⟨-, -, -, hlast, -⟩ := h
  have hevicts := @Isolated.evicts _ _ hlast "x".toList (.job 2) (by decide +kernel)
  revert hevicts
  decide +kernel

end JobSlots

end Vibrato.Jobs
