import Vibrato.Jobs.WaitLookup
import Vibrato.Lib.Runs

namespace Vibrato.Jobs

open Lib OrderedMap JobTable TerminalWaits Option

def Generation.isJob : Generation → Bool
  | .job _ => true
  | .queued .. => false

/-- A target as `resolveSubagentWaitTarget` returns it: the id and the generation of a job, or a
queued resume. -/
def Resolvable (t : JobTable) (target : AsyncJobWaitTarget) : Prop :=
  if target.generation.isJob then
    ∃ id ∈ target.jobId, (t.objects.get? target.generation).map (·.id) = some id
  else target.jobId = none

instance (t : JobTable) (target : AsyncJobWaitTarget) : Decidable (Resolvable t target) :=
  inferInstanceAs (Decidable (ite _ _ _))

theorem Resolvable.object {t : JobTable} {target : AsyncJobWaitTarget} (h : Resolvable t target)
    (hjob : target.generation.isJob = true) :
    ∃ job, t.objects.get? target.generation = some job ∧ target.jobId = some job.id := by
  unfold Resolvable at h
  rw [if_pos hjob] at h
  obtain ⟨id, hid, hmap⟩ := h
  obtain ⟨job, hget, rfl⟩ := map_eq_some_iff.mp hmap
  exact ⟨job, hget, hid⟩

theorem Resolvable.mono {t t' : JobTable} {target : AsyncJobWaitTarget}
    (hids : ∀ g job, t.objects.get? g = some job → ∃ job', t'.objects.get? g = some job' ∧
      job'.id = job.id)
    (h : Resolvable t target) : Resolvable t' target := by
  unfold Resolvable at h ⊢
  split at h
  · next hjob =>
    obtain ⟨id, hid, hmap⟩ := h
    obtain ⟨job, hget, rfl⟩ := map_eq_some_iff.mp hmap
    obtain ⟨job', hget', hid'⟩ := hids _ job hget
    rw [if_pos hjob]
    exact ⟨job.id, hid, by rw [hget', map_some, hid']⟩
  · next hqueued =>
    rw [if_neg hqueued]
    exact h

namespace TerminalWait

def OnJobs (wait : TerminalWait) : Prop := ∀ target ∈ wait.targets, target.generation.isJob = true

instance (wait : TerminalWait) : Decidable wait.OnJobs :=
  inferInstanceAs (Decidable (∀ target ∈ wait.targets, target.generation.isJob = true))

def Met (ended : Generation → Prop) (wait : TerminalWait) : Prop :=
  match wait.condition with
  | .allTerminal => ∀ target ∈ wait.targets, ended target.generation
  | .anyTerminal => ∃ target ∈ wait.targets, ended target.generation

instance (ended : Generation → Prop) [∀ g, Decidable (ended g)] (wait : TerminalWait) :
    Decidable (wait.Met ended) := by
  unfold Met
  exact match wait.condition with
    | .allTerminal => inferInstanceAs (Decidable (∀ _ ∈ _, _))
    | .anyTerminal => inferInstanceAs (Decidable (∃ _, _ ∧ _))

variable {ended : Generation → Prop}

theorem Met.mono {ended' : Generation → Prop} {wait : TerminalWait}
    (h : ∀ target ∈ wait.targets, ended target.generation → ended' target.generation)
    (hmet : wait.Met ended) : wait.Met ended' := by
  unfold Met at hmet ⊢
  split
  · next hall =>
    rw [hall] at hmet
    exact fun target hmem => h target hmem (hmet target hmem)
  · next hany =>
    rw [hany] at hmet
    obtain ⟨target, hmem, hended⟩ := hmet
    exact ⟨target, hmem, h target hmem hended⟩

theorem Met.congr {wait wait' : TerminalWait}
    (htargets : wait'.targets = wait.targets) (hcond : wait'.condition = wait.condition) :
    wait'.Met ended ↔ wait.Met ended := by
  unfold Met
  rw [htargets, hcond]

end TerminalWait

namespace TerminalWaits

instance (w : TerminalWaits) (t : JobTable) (g : Generation) : Decidable (w.EventLive t g) :=
  decidable_of_iff ((w.terminalEvents.get? g).any (fun event => !isExpired t event) = true)
    (by simp [EventLive, any_eq_true])

/-- The id of the target is not in use by another job, and if its record is gone after it ended, its
terminal event has not expired. -/
def Recalled (w : TerminalWaits) (t : JobTable) (target : AsyncJobWaitTarget) : Prop :=
  ∀ id ∈ target.jobId, t.jobs.get? id = some target.generation ∨
    t.jobs.get? id = none ∧ (t.Ended target.generation → w.EventLive t target.generation)

instance (w : TerminalWaits) (t : JobTable) (target : AsyncJobWaitTarget) :
    Decidable (w.Recalled t target) :=
  inferInstanceAs (Decidable (∀ id ∈ target.jobId, _))

def RecalledMet (w : TerminalWaits) (t : JobTable) (ended : Generation → Prop)
    (wait : TerminalWait) : Prop :=
  match wait.condition with
  | .allTerminal => ∀ target ∈ wait.targets, w.Recalled t target
  | .anyTerminal => ∃ target ∈ wait.targets, ended target.generation ∧ w.Recalled t target

instance (w : TerminalWaits) (t : JobTable) (ended : Generation → Prop) [∀ g, Decidable (ended g)]
    (wait : TerminalWait) : Decidable (w.RecalledMet t ended wait) := by
  unfold RecalledMet
  exact match wait.condition with
    | .allTerminal => inferInstanceAs (Decidable (∀ _ ∈ _, _))
    | .anyTerminal => inferInstanceAs (Decidable (∃ _, _ ∧ _))

variable {w : TerminalWaits} {t : JobTable} {target : AsyncJobWaitTarget} {wait : TerminalWait}

theorem Recalled.sees (ht : t.WellFormed)
    (halias : w.waitGenerationAliases.get? target.generation = none) {id : Text}
    (hid : target.jobId = some id) (hended : t.Ended target.generation)
    (hrecalled : w.Recalled t target) : w.Sees t target := by
  have halias' : (w.pruneTerminalEvents t).waitGenerationAliases.get? target.generation = none :=
    halias
  unfold Sees eventForTarget
  rw [halias', hid]
  rw [bind_some]
  rcases hrecalled id hid with hrecord | ⟨hnone, hlive⟩
  · obtain ⟨job, hget, hgen⟩ := ht.get_of_record hrecord
    obtain ⟨job', hjob', hterminal⟩ := hended
    have hobject := (ht.get_eq_some hget).2.1
    rw [hgen, hjob'] at hobject
    cases hobject
    rw [hget]
    simp [hgen, hterminal]
  · obtain ⟨event, hevent, hlive⟩ := hlive hended
    rw [ht.get_eq_none.mpr hnone]
    rw [(pruned_get? w t target.generation event).mpr ⟨hevent, hlive⟩]
    rfl

theorem RecalledMet.seenMet (hmet : wait.Met t.Ended) (hrecalled : w.RecalledMet t t.Ended wait)
    (hsees : ∀ target ∈ wait.targets, t.Ended target.generation → w.Recalled t target →
      w.Sees t target) : w.SeenMet t wait := by
  unfold SeenMet
  unfold TerminalWait.Met at hmet
  unfold RecalledMet at hrecalled
  split
  · next hall =>
    rw [hall] at hmet hrecalled
    exact fun target hmem => hsees target hmem (hmet target hmem) (hrecalled target hmem)
  · next hany =>
    rw [hany] at hrecalled
    obtain ⟨target, hmem, hended, hrecall⟩ := hrecalled
    exact ⟨target, hmem, hsees target hmem hended hrecall⟩

theorem RecalledMet.mono {w' : TerminalWaits} {t' : JobTable} {ended ended' : Generation → Prop}
    (hended : ∀ g, ended g → ended' g)
    (hrecalled : ∀ target, w.Recalled t target → w'.Recalled t' target)
    (h : w.RecalledMet t ended wait) : w'.RecalledMet t' ended' wait := by
  unfold RecalledMet at h ⊢
  split
  · next hall =>
    rw [hall] at h
    exact fun target hmem => hrecalled target (h target hmem)
  · next hany =>
    rw [hany] at h
    obtain ⟨target, hmem, hend, hrecall⟩ := h
    exact ⟨target, hmem, hended _ hend, hrecalled target hrecall⟩

def withEvent (w : TerminalWaits) (event : TerminalEvent) : TerminalWaits :=
  { w with
    publishedTerminalGenerations := w.publishedTerminalGenerations ++ [event.generation]
    terminalEvents := w.terminalEvents.set event.generation event }

variable {event : TerminalEvent}

theorem expired_fresh (t : JobTable) (h : event.createdAt = t.now) : isExpired t event = false := by
  unfold isExpired
  rw [decide_eq_false_iff_not]
  omega

theorem Recalled.withEvent {status : JobStatus} (hcreated : event.createdAt = t.now)
    (h : w.Recalled t target) :
    (w.withEvent event).Recalled (t.setStatus event.generation status) target := by
  intro id hid
  rcases h id hid with hrecord | ⟨hnone, hlive⟩
  · exact .inl hrecord
  · refine .inr ⟨hnone, fun hended => ?_⟩
    by_cases heq : target.generation = event.generation
    · refine ⟨event, ?_, expired_fresh _ hcreated⟩
      show (w.terminalEvents.set event.generation event).get? target.generation = some event
      rw [heq, get?_set_self]
    · obtain ⟨e, he, hlive⟩ := hlive (hended.of_setStatus.resolve_left heq)
      refine ⟨e, ?_, hlive⟩
      show (w.terminalEvents.set event.generation event).get? target.generation = some e
      rw [get?_set_ne _ _ heq]
      exact he

end TerminalWaits

namespace AsyncJobManager

variable (m : AsyncJobManager)

def ending : Step → List Generation
  | .runEnds generation outcome =>
    if outcome ≠ .paused ∧ generation ∈ m.table.unsettled ∧
        generation ∉ m.table.externallySettled then [generation]
    else []
  | .failNow jobId generation _ =>
    if m.table.jobs.get? jobId = some generation ∧ generation ∉ m.table.externallySettled ∧
        (m.table.get jobId).map (·.status) = some .running then [generation]
    else []
  | .cancel id filter => if m.cancels id filter then (m.table.jobs.get? id).toList else []
  | .cancelAll filter => (m.table.getRunningJobs filter).map (·.generation)
  | _ => []

def EndedBy (s : Step) (g : Generation) : Prop :=
  m.table.Ended g ∨ g ∈ m.ending s

instance (m : AsyncJobManager) (s : Step) (g : Generation) : Decidable (m.EndedBy s g) :=
  inferInstanceAs (Decidable (_ ∨ _))

def subscribed : Step → Option TerminalWait
  | .subscribeTerminalWait targets condition =>
    some ⟨dedupTargets targets, condition, none, false⟩
  | _ => none

/-- Each open wait that the step meets is met by targets that are recalled; a wait that is
subscribed has targets that were resolved, and if it is met they are recalled. -/
def Recalls (m : AsyncJobManager) (s : Step) : Prop :=
  (∀ entry ∈ m.waits.handles.entries, entry.2.result = none → entry.2.OnJobs →
    entry.2.Met (m.EndedBy s) → m.waits.RecalledMet m.table (m.EndedBy s) entry.2) ∧
  ∀ wait ∈ subscribed s, (∀ target ∈ wait.targets, Resolvable m.table target) ∧
    (wait.OnJobs → wait.Met m.table.Ended → m.waits.RecalledMet m.table m.table.Ended wait)

instance (m : AsyncJobManager) (s : Step) : Decidable (m.Recalls s) :=
  inferInstanceAs (Decidable ((∀ entry ∈ m.waits.handles.entries, _) ∧ ∀ wait ∈ subscribed s, _))

variable {m : AsyncJobManager} {closed : Nat → Prop}

/-- Targets are jobs of the table or queued resumes, and waits that are settled are completed unless
they were closed. -/
structure WaitsSound (closed : Nat → Prop) (m : AsyncJobManager) : Prop where
  table : m.table.WellFormed
  published : ∀ {n}, .job n ∈ m.waits.publishedTerminalGenerations → m.table.Ended (.job n)
  aliases : ∀ {g g'}, m.waits.waitGenerationAliases.get? g = some g' → g.isJob = false
  tokens : ∀ {token wait}, m.waits.handles.get? token = some wait → token ≤ m.waits.waitSeq
  targets : ∀ {token wait}, m.waits.handles.get? token = some wait →
    ∀ target ∈ wait.targets, Resolvable m.table target
  outcome : ∀ {token wait result}, m.waits.handles.get? token = some wait → wait.OnJobs →
    wait.result = some result → result.outcome = .completed ∨ closed token

structure WaitsInvariant (closed : Nat → Prop) (m : AsyncJobManager) : Prop extends
    WaitsSound closed m where
  unmet : ∀ {token wait}, m.waits.handles.get? token = some wait → wait.result = none →
    wait.OnJobs → ¬ wait.Met m.table.Ended

variable {token : Nat} {m' : AsyncJobManager} {event : TerminalEvent} {g : Generation}
    {job : AsyncJob}
  {status : JobStatus} {s : Step} {id : Text} {filter : Option Text} {target : AsyncJobWaitTarget}
  {wait : TerminalWait}

theorem WaitsSound.object (h : m.WaitsSound closed)
    (hget : m.waits.handles.get? token = some wait) (honJobs : wait.OnJobs)
    (hmem : target ∈ wait.targets) :
    ∃ job, m.table.objects.get? target.generation = some job ∧ target.jobId = some job.id :=
  (h.targets hget target hmem).object (honJobs target hmem)

variable (h : m.WaitsInvariant closed)
include h

theorem WaitsInvariant.quiet (htable : m'.table.WellFormed)
    (hobjects : ∀ g job, m.table.objects.get? g = some job →
      (∃ job', m'.table.objects.get? g = some job' ∧ job'.id = job.id) ∧
        (m'.table.Ended g ↔ m.table.Ended g)) (hpublished :
          ∀ g ∈ m'.waits.publishedTerminalGenerations, g ∈ m.waits.publishedTerminalGenerations)
    (haliases : ∀ {g g'}, m'.waits.waitGenerationAliases.get? g = some g' → g.isJob = false)
    (hseq : m'.waits.waitSeq = m.waits.waitSeq)
    (hhandles : ∀ {token wait'}, m'.waits.handles.get? token = some wait' → ∃ wait,
      m.waits.handles.get? token = some wait ∧ wait'.targets = wait.targets ∧
        wait'.condition = wait.condition ∧ wait'.result = wait.result) :
    m'.WaitsInvariant closed where
  table := htable
  published {n} hn := by
    obtain ⟨job, hjob, hterminal⟩ := h.published (hpublished _ hn)
    exact (hobjects _ job hjob).2.mpr ⟨job, hjob, hterminal⟩
  aliases := haliases
  tokens hget := by
    obtain ⟨wait, hwait, -⟩ := hhandles hget
    rw [hseq]
    exact h.tokens hwait
  targets hget target hmem := by
    obtain ⟨wait, hwait, htargets, -⟩ := hhandles hget
    rw [htargets] at hmem
    exact (h.targets hwait target hmem).mono fun g job hjob => (hobjects g job hjob).1
  unmet hget hopen honJobs hmet := by
    obtain ⟨wait, hwait, htargets, hcond, hresult⟩ := hhandles hget
    have honJobs' : wait.OnJobs := fun target hmem => honJobs target (htargets ▸ hmem)
    refine h.unmet hwait (hresult ▸ hopen) honJobs' ?_
    refine ((TerminalWait.Met.congr htargets hcond).mp hmet).mono fun target hmem hended => ?_
    obtain ⟨job, hjob, -⟩ := h.object hwait honJobs' hmem
    exact (hobjects _ job hjob).2.mp hended
  outcome hget honJobs hresult' := by
    obtain ⟨wait, hwait, htargets, -, hresult⟩ := hhandles hget
    exact h.outcome hwait (fun target hmem => honJobs target (htargets ▸ hmem)) (hresult ▸ hresult')

theorem WaitsInvariant.of_waits (hobjects : m'.table.objects = m.table.objects)
    (hseq : m'.table.jobGenerationSeq = m.table.jobGenerationSeq)
    (hjobs : ∀ id g, m'.table.jobs.get? id = some g → m.table.jobs.get? id = some g)
    (hwaits : m'.waits = m.waits) : m'.WaitsInvariant closed := by
  apply h.quiet (h.table.of_objects hobjects hseq hjobs)
  · intro g job hjob
    rw [hobjects]
    exact ⟨⟨job, hjob, rfl⟩, ended_congr hobjects g⟩
  · rw [hwaits]
    exact fun _ hg => hg
  · rw [hwaits]
    exact h.aliases
  · rw [hwaits]
  · rw [hwaits]
    exact fun {token wait'} hget => ⟨wait', hget, rfl, rfl, rfl⟩

theorem WaitsInvariant.evictJob (jobId : Text) : (m.evictJob jobId).WaitsInvariant closed := by
  apply h.quiet
  · refine h.table.of_objects (rfl : (m.evictJob jobId).table.objects = _) rfl ?_
    intro id g hg
    change (m.table.jobs.erase jobId).get? id = some g at hg
    rw [get?_erase] at hg
    split at hg
    · cases hg
    · exact hg
  · exact fun g job hjob => ⟨⟨job, hjob, rfl⟩, Iff.rfl⟩
  · exact fun g hg => List.mem_of_mem_filter hg
  · exact h.aliases
  · rfl
  · exact fun {token wait'} hget => ⟨wait', hget, rfl, rfl, rfl⟩

theorem WaitsInvariant.scheduleEviction (jobId : Text) :
    (m.scheduleEviction jobId).WaitsInvariant closed := by
  unfold AsyncJobManager.scheduleEviction
  split
  · exact h.evictJob jobId
  · exact h.of_waits rfl rfl (fun _ _ hg => hg) rfl

omit h

theorem WaitsSound.sees (h : m.WaitsSound closed)
    (hget : m.waits.handles.get? token = some wait) (honJobs : wait.OnJobs)
    (hmem : target ∈ wait.targets)
    (hended : m.table.Ended target.generation) (hrecalled : m.waits.Recalled m.table target) :
    m.waits.Sees m.table target := by
  obtain ⟨job, -, hid⟩ := h.object hget honJobs hmem
  refine hrecalled.sees h.table ?_ hid hended
  cases halias : m.waits.waitGenerationAliases.get? target.generation with
  | none => rfl
  | some g' =>
    have hqueued := h.aliases halias
    rw [honJobs target hmem] at hqueued
    cases hqueued

theorem WaitsSound.looks (h : m.WaitsSound closed) {w : TerminalWaits}
    (hlooks : TerminalWaits.Looks m.table m.waits w)
    (hunmet : ∀ {token wait wait'}, m.waits.handles.get? token = some wait → wait.result = none →
      wait.OnJobs → wait.Met m.table.Ended → w.handles.get? token = some wait' →
      wait'.result ≠ none) : WaitsInvariant closed { m with waits := w } where
  table := h.table
  published hg := h.published (hlooks.published _ hg)
  aliases {g g'} hg := by
    rw [hlooks.aliases] at hg
    exact h.aliases hg
  tokens hget := by
    obtain ⟨wait, hwait, -⟩ := hlooks.handles _ _ hget
    rw [hlooks.waitSeq]
    exact h.tokens hwait
  targets hget target hmem := by
    obtain ⟨wait, hwait, htargets, -⟩ := hlooks.handles _ _ hget
    rw [htargets] at hmem
    exact h.targets hwait target hmem
  unmet {token wait'} hget hopen honJobs hmet := by
    obtain ⟨wait, hwait, htargets, hcond, hsettled, -⟩ := hlooks.handles _ _ hget
    have hresult : wait.result = none := by
      cases hresult : wait.result with
      | none => rfl
      | some r =>
        rw [hsettled (by rw [hresult]; rfl), hresult] at hopen
        cases hopen
    exact hunmet hwait hresult (fun target hmem => honJobs target (htargets ▸ hmem))
      ((TerminalWait.Met.congr htargets hcond).mp hmet) hget hopen
  outcome {token wait' result} hget honJobs hresult' := by
    obtain ⟨wait, hwait, htargets, -, hsettled, hcompleted⟩ := hlooks.handles _ _ hget
    cases hresult : wait.result with
    | none => exact .inl (hcompleted hresult result hresult')
    | some r =>
      have heq := hsettled (by rw [hresult]; rfl)
      subst heq
      exact h.outcome hwait honJobs hresult'

theorem WaitsSound.withEvent (h : m.WaitsSound closed) {t : JobTable} (ht : t.WellFormed)
    (hids : ∀ g job, m.table.objects.get? g = some job →
      ∃ job', t.objects.get? g = some job' ∧ job'.id = job.id) (hended :
        ∀ g, m.table.Ended g → t.Ended g)
    (hevent : event.generation.isJob = true → t.Ended event.generation) :
    WaitsSound closed ⟨t, m.waits.withEvent event, m.queue⟩ where
  table := ht
  published hn := by
    rcases List.mem_append.mp hn with hold | hnew
    · exact hended _ (h.published hold)
    · have heq := List.mem_singleton.mp hnew
      rw [heq]
      exact hevent (heq ▸ rfl)
  aliases := h.aliases
  tokens := h.tokens
  targets hget target hmem := (h.targets hget target hmem).mono hids
  outcome := h.outcome

theorem WaitsInvariant.publish (h : m.WaitsInvariant closed)
    (hended : event.generation.isJob = true → m.table.Ended event.generation)
    (concerns : AsyncJobWaitTarget → Bool) :
    WaitsInvariant closed { m with waits := m.waits.publish m.table event concerns } := by
  unfold TerminalWaits.publish
  split
  · exact h
  · have hsound := h.toWaitsSound.withEvent h.table (fun _ job hjob => ⟨job, hjob, rfl⟩)
      (fun _ hg => hg) hended
    apply hsound.looks (TerminalWaits.resolveWaits_looks _ _ _)
    intro token wait wait' hget hopen honJobs hmet
    exact absurd hmet (h.unmet hget hopen honJobs)

theorem WaitsInvariant.publishTerminal (h : m.WaitsInvariant closed)
    (hended : m.table.Ended g) : (m.publishTerminal g).WaitsInvariant closed := by
  obtain ⟨job, hjob, hterminal⟩ := hended
  unfold AsyncJobManager.publishTerminal
  rw [hjob]
  simp only [TerminalWaits.publishTerminal, hterminal]
  apply h.publish
  intro _
  have hgen := h.table.getElem_generation hjob
  exact ⟨job, hgen ▸ hjob, hterminal⟩

variable (m)

def settle (g : Generation) (status : JobStatus) : AsyncJobManager :=
  { m with table := m.table.setStatus g status }.publishTerminal g

theorem settle_table (g : Generation) (status : JobStatus) :
    (m.settle g status).table = m.table.setStatus g status := publishTerminal_table _ _

theorem settle_queue (g : Generation) (status : JobStatus) :
    (m.settle g status).queue = m.queue := publishTerminal_queue _ _

variable {m}

variable (h : m.WaitsInvariant closed)
include h

theorem settle_waits (hjob : m.table.objects.get? g = some job)
    (hopen : job.status.terminal = false)
    (hstatus : status.terminal = true) :
    ∃ event concerns, event.generation = g ∧ event.createdAt = m.table.now ∧
      (∀ target : AsyncJobWaitTarget, target.generation = g → concerns target = true) ∧
      (m.settle g status).waits = (m.waits.withEvent event).resolveWaits
        (m.table.setStatus g status) concerns := by
  have hgen := h.table.getElem_generation hjob
  have hfresh : g ∉ m.waits.publishedTerminalGenerations := by
    intro hmem
    obtain ⟨-, n, hn, -⟩ := h.table.numbered hjob
    subst hn
    obtain ⟨job', hjob', hterminal⟩ := h.published hmem
    rw [hjob] at hjob'
    cases hjob'
    rw [hopen] at hterminal
    cases hterminal
  have hself := setStatus_self status hjob
  have hpublished : m.waits.publishedTerminalGenerations.contains g = false := by
    simpa using hfresh
  refine ⟨⟨g, some job.id, job.ownerId, status, m.table.now⟩,
    fun target => decide (target.generation = g) || decide (target.jobId = some job.id) ||
      decide (m.waits.waitGenerationAliases.get? target.generation = some g), rfl, rfl, ?_, ?_⟩
  · intro target htarget
    simp [htarget]
  · unfold settle AsyncJobManager.publishTerminal
    rw [hself]
    simp only [TerminalWaits.publishTerminal, hstatus, TerminalWaits.publish,
      TerminalWaits.withEvent, hgen, hpublished]
    rfl

theorem WaitsInvariant.settle_again (hended : m.table.Ended g) (hstatus : status.terminal = true) :
    (m.settle g status).WaitsInvariant closed := by
  have hiff : ∀ g', (m.table.setStatus g status).Ended g' ↔ m.table.Ended g' := by
    intro g'
    constructor
    · intro h'
      rcases h'.of_setStatus with heq | hold
      · exact heq ▸ hended
      · exact hold
    · exact fun h' => h'.setStatus hstatus
  have hquiet : WaitsInvariant closed { m with table := m.table.setStatus g status } :=
    h.quiet (h.table.setStatus g status)
      (fun g' job hjob => ⟨setStatus_ids g status hjob, hiff g'⟩) (fun _ hg => hg) h.aliases rfl
      (fun {token wait'} hget => ⟨wait', hget, rfl, rfl, rfl⟩)
  exact hquiet.publishTerminal ((hiff g).mpr hended)

theorem WaitsInvariant.settle (hjob : m.table.objects.get? g = some job)
    (hstatus : status.terminal = true)
    (hrecalled : ∀ {token wait}, m.waits.handles.get? token = some wait → wait.result = none →
      wait.OnJobs → wait.Met (m.table.setStatus g status).Ended →
      m.waits.RecalledMet m.table (m.table.setStatus g status).Ended wait) :
    (m.settle g status).WaitsInvariant closed := by
  by_cases hended : m.table.Ended g
  · exact h.settle_again hended hstatus
  have hopen : job.status.terminal = false := by
    cases hterminal : job.status.terminal with
    | false => rfl
    | true => exact absurd ⟨job, hjob, hterminal⟩ hended
  obtain ⟨event, concerns, rfl, hcreated, hconcerns, hwaits⟩ := settle_waits h hjob hopen hstatus
  have hsettled : m.settle event.generation status =
      ⟨m.table.setStatus event.generation status, (m.settle event.generation status).waits,
        m.queue⟩ := by
    rw [← settle_table, ← settle_queue m event.generation status]
  have hsound := h.toWaitsSound.withEvent (h.table.setStatus event.generation status)
    (fun _ _ => setStatus_ids event.generation status) (fun _ hg => hg.setStatus hstatus)
    (fun _ => ⟨_, setStatus_self status hjob, hstatus⟩)
  rw [hsettled, hwaits]
  apply hsound.looks (resolveWaits_looks _ _ concerns)
  · intro token wait wait' hget hresult honJobs hmet hget' hopen'
    have hrec := hrecalled hget hresult honJobs hmet
    have hseenMet : (m.waits.withEvent event).SeenMet
        (m.table.setStatus event.generation status) wait :=
      TerminalWaits.RecalledMet.seenMet hmet
        (hrec.mono (fun _ h => h) fun target => TerminalWaits.Recalled.withEvent hcreated)
        fun target hmem => hsound.sees hget honJobs hmem
    -- the wait was not met before, so one of its targets is the job that ends
    have hconcerned : ∃ target ∈ wait.targets, concerns target = true := by
      by_contra hnone
      push Not at hnone
      apply h.unmet hget hresult honJobs
      refine hmet.mono fun target hmem hend => ?_
      exact hend.of_setStatus.resolve_left fun heq => hnone target hmem (hconcerns target heq)
    obtain ⟨settled, hsettled', hsome⟩ := resolveWaits_resolves
      (w := m.waits.withEvent event) hget hseenMet hconcerned
    rw [hget'] at hsettled'
    cases hsettled'
    rw [hopen'] at hsome
    cases hsome

theorem WaitsInvariant.withQueue (queue : DeliveryQueue) : WaitsInvariant closed { m with queue } :=
  h.of_waits rfl rfl (fun _ _ hg => hg) rfl

theorem WaitsInvariant.finishJob
    (hjob : m.table.objects.get? job.generation = some job) (hstatus : status.terminal = true)
    (text : Text)
    (hrecalled : ∀ {token wait}, m.waits.handles.get? token = some wait → wait.result = none →
      wait.OnJobs → wait.Met (m.table.setStatus job.generation status).Ended →
      m.waits.RecalledMet m.table (m.table.setStatus job.generation status).Ended wait) :
    (m.finishJob job status text).WaitsInvariant closed := by
  have hsettled := h.settle hjob hstatus hrecalled
  have hqueued :
      ((m.settle job.generation status).enqueueDelivery job.id text).WaitsInvariant closed :=
    hsettled.withQueue _
  exact hqueued.scheduleEviction job.id

omit h

theorem endedBy_of_setStatus {g' : Generation}
    (hg : g ∈ m.ending s) (h : (m.table.setStatus g status).Ended g') : m.EndedBy s g' := by
  rcases h.of_setStatus with heq | hold
  · exact .inr (heq ▸ hg)
  · exact .inl hold

theorem Recalls.recalledMet (hs : m.Recalls s) (hg : g ∈ m.ending s)
    (hending : ∀ g' ∈ m.ending s, g' = g)
    (hjob : m.table.objects.get? g = some job) (hstatus : status.terminal = true)
    (hget : m.waits.handles.get? token = some wait)
    (hopen : wait.result = none) (honJobs : wait.OnJobs)
    (hmet : wait.Met (m.table.setStatus g status).Ended) :
    m.waits.RecalledMet m.table (m.table.setStatus g status).Ended wait := by
  have hmet' : wait.Met (m.EndedBy s) := hmet.mono fun _ _ h => endedBy_of_setStatus hg h
  have hentry := get?_eq_some.mp hget
  refine (hs.1 (token, wait) hentry hopen honJobs hmet').mono ?_ fun _ h => h
  rintro g' (hended | hmem)
  · exact hended.setStatus hstatus
  · rw [hending g' hmem]
    exact ⟨_, setStatus_self status hjob, hstatus⟩

variable (h : m.WaitsInvariant closed)
include h

theorem WaitsInvariant.retire (g : Generation) :
    WaitsInvariant closed { m with table := m.table.retire g } :=
  h.of_waits rfl rfl (fun _ _ hg => hg) rfl

theorem WaitsInvariant.pause (hnot : ¬ m.table.Ended g) :
    WaitsInvariant closed { m with table := m.table.setStatus g .paused } := by
  refine h.quiet (h.table.setStatus g .paused) ?_ (fun _ hg => hg) h.aliases rfl
    (fun {token wait'} hget => ⟨wait', hget, rfl, rfl, rfl⟩)
  intro g' job hjob
  refine ⟨setStatus_ids g .paused hjob, ?_, ?_⟩
  · rintro ⟨job', hjob', hterminal⟩
    obtain ⟨old, hold, -, -, hstatus⟩ := setStatus_exists hjob'
    rw [hstatus] at hterminal
    split at hterminal
    · cases hterminal
    · exact ⟨old, hold, hterminal⟩
  · rintro ⟨job', hjob', hterminal⟩
    have hne : g' ≠ g := fun heq => hnot (heq ▸ ⟨job', hjob', hterminal⟩)
    exact ⟨job', by rw [setStatus_of_ne _ _ hne]; exact hjob', hterminal⟩

theorem WaitsInvariant.runEnds (hlive : m.table.Live) {outcome : RunOutcome}
    (hs : m.Recalls (.runEnds g outcome)) :
    (m.runEnds g outcome).WaitsInvariant closed := by
  unfold AsyncJobManager.runEnds
  split
  · exact h
  next job hjob =>
  have hgen := h.table.getElem_generation hjob
  split
  · exact h
  next hunsettled =>
  rw [not_not] at hunsettled
  split
  · exact h.retire g
  next hext =>
  split
  · next hcancelled =>
    exact ((h.publishTerminal ⟨job, hjob, by rw [hcancelled]; rfl⟩).scheduleEviction job.id).retire
      g
  next hcancelled =>
  -- the run ends its job, or pauses it
  have hfinish : ∀ (status : JobStatus) (text : Text), status.terminal = true → outcome ≠ .paused →
      (m.finishJob job status text).WaitsInvariant closed := by
    intro status text hstatus hpaused
    have hending : m.ending (.runEnds g outcome) = [g] := if_pos ⟨hpaused, hunsettled, hext⟩
    subst hgen
    refine h.finishJob hjob hstatus text fun hget hopen honJobs hmet => ?_
    exact hs.recalledMet (by simp [hending])
      (by simp [hending]) hjob hstatus hget hopen honJobs hmet
  split
  · refine WaitsInvariant.retire (h.pause ?_) g
    rintro ⟨job', hjob', hterminal⟩
    rw [hjob] at hjob'
    cases hjob'
    rcases hlive.running hunsettled hext hjob with hrunning | hcancelled'
    · rw [hrunning] at hterminal
      cases hterminal
    · exact hcancelled hcancelled'
  · next text => exact (hfinish .failed text rfl (by simp)).retire g
  · next text => exact (hfinish .completed text rfl (by simp)).retire g

theorem WaitsInvariant.recalledMet_recorded (hget : m.table.get id = some job)
    (hwait : m.waits.handles.get? token = some wait) (hopen : wait.result = none)
    (honJobs : wait.OnJobs) (hmet : wait.Met (m.table.setStatus job.generation status).Ended)
    (hall : wait.condition = .allTerminal → ∀ target ∈ wait.targets,
      m.waits.Recalled m.table target) :
    m.waits.RecalledMet m.table (m.table.setStatus job.generation status).Ended wait := by
  have hunmet := h.unmet hwait hopen honJobs
  obtain ⟨hrecord, hobject, hid⟩ := h.table.get_eq_some hget
  unfold TerminalWait.Met at hmet hunmet
  unfold TerminalWaits.RecalledMet
  split
  · next hcond => exact hall hcond
  · next hcond =>
    rw [hcond] at hmet hunmet
    obtain ⟨target, hmem, hended⟩ := hmet
    refine ⟨target, hmem, hended, ?_⟩
    have heq : target.generation = job.generation := by
      rcases hended.of_setStatus with heq | hold
      · exact heq
      · exact absurd ⟨target, hmem, hold⟩ hunmet
    obtain ⟨job', hjob', hid'⟩ := h.object hwait honJobs hmem
    rw [heq, hobject] at hjob'
    cases hjob'
    intro id' hmem'
    rw [hid', mem_some_iff] at hmem'
    rw [heq, ← hmem', hid]
    exact .inl hrecord

omit h

theorem Recalls.recalled (hs : m.Recalls s)
    (hget : m.waits.handles.get? token = some wait) (hopen : wait.result = none)
    (honJobs : wait.OnJobs) (hcond : wait.condition = .allTerminal)
    (hmet : wait.Met (m.EndedBy s)) : ∀ target ∈ wait.targets, m.waits.Recalled m.table target := by
  have hrecalled := hs.1 (token, wait) (get?_eq_some.mp hget) hopen honJobs hmet
  unfold TerminalWaits.RecalledMet at hrecalled
  rw [hcond] at hrecalled
  exact hrecalled

theorem WaitsInvariant.failNow (h : m.WaitsInvariant closed) {jobId : Text}
    {errorText : Text} (hs : m.Recalls (.failNow jobId g errorText)) :
    (m.failNow jobId g errorText).WaitsInvariant closed := by
  unfold AsyncJobManager.failNow
  split
  · exact h
  next job hget =>
  split
  · exact h
  next hguard =>
  push Not at hguard
  obtain ⟨rfl, hrunning, hext⟩ := hguard
  obtain ⟨hrecord, hobject, -⟩ := h.table.get_eq_some hget
  have hending : m.ending (.failNow jobId job.generation errorText) = [job.generation] :=
    if_pos ⟨hrecord, hext, by rw [hget, map_some, hrunning]⟩
  have hquiet : WaitsInvariant closed { m with table := { m.table with
      externallySettled := m.table.externallySettled ++ [job.generation] } } :=
    h.of_waits rfl rfl (fun _ _ hg => hg) rfl
  refine hquiet.finishJob hobject rfl errorText fun hwait hopen honJobs hmet => ?_
  exact hs.recalledMet (by simp [hending]) (by simp [hending]) hobject rfl hwait hopen honJobs hmet

structure Keeps (m m' : AsyncJobManager) : Prop where
  opens : ∀ {token wait'}, m'.waits.handles.get? token = some wait' → wait'.result = none →
    ∃ wait, m.waits.handles.get? token = some wait ∧ wait.result = none ∧
      wait'.targets = wait.targets ∧ wait'.condition = wait.condition
  recalled : ∀ target, m.waits.Recalled m.table target → m'.waits.Recalled m'.table target
  records : ∀ {id g}, m'.table.jobs.get? id = some g → m.table.jobs.get? id = some g

theorem Keeps.trans {m'' : AsyncJobManager} (h1 : Keeps m m') (h2 : Keeps m' m'') :
    Keeps m m'' where
  opens hget hopen := by
    obtain ⟨wait', hwait', hopen', htargets', hcond'⟩ := h2.opens hget hopen
    obtain ⟨wait, hwait, hopen, htargets, hcond⟩ := h1.opens hwait' hopen'
    exact ⟨wait, hwait, hopen, htargets'.trans htargets, hcond'.trans hcond⟩
  recalled target h := h2.recalled target (h1.recalled target h)
  records hg := h1.records (h2.records hg)

def RecordLive (m : AsyncJobManager) (id : Text) : Prop :=
  ∀ g, m.table.jobs.get? id = some g → m.waits.EventLive m.table g

theorem keeps_scheduleEviction (hlive : m.RecordLive id) :
    Keeps m (m.scheduleEviction id) ∧ (m.scheduleEviction id).RecordLive id := by
  unfold scheduleEviction
  split
  · refine ⟨⟨fun {_ wait'} hget hopen => ⟨wait', hget, hopen, rfl, rfl⟩, ?_, ?_⟩, ?_⟩
    · intro target hrecalled id' hid'
      show (m.table.jobs.erase id).get? id' = _ ∨ (m.table.jobs.erase id).get? id' = none ∧ _
      rw [get?_erase]
      split
      · next heq =>
        refine .inr ⟨rfl, fun hended => ?_⟩
        rcases hrecalled id' hid' with hrecord | ⟨-, hevent⟩
        · exact hlive _ (heq ▸ hrecord)
        · exact hevent hended
      · exact hrecalled id' hid'
    · intro id' g hg
      have herased : m.table.jobs.erase id = m.table.jobs ∨ m.table.retentionMs = 0 ∧
          m.table.jobs.erase id = m.table.jobs.erase id := .inr ⟨‹_›, rfl⟩
      exact mem_of_jobs herased hg
    · intro g hg
      change (m.table.jobs.erase id).get? id = some g at hg
      rw [get?_erase_self] at hg
      cases hg
  · exact ⟨⟨fun {_ wait'} hget hopen => ⟨wait', hget, hopen, rfl, rfl⟩, fun _ h => h, fun h => h⟩,
      hlive⟩

theorem looks_recalled {t : JobTable} {w w' : TerminalWaits} (hlooks : TerminalWaits.Looks t w w')
    (h : w.Recalled t target) : w'.Recalled t target := by
  intro id hid
  refine (h id hid).imp_right fun ⟨hnone, hlive⟩ => ⟨hnone, fun hended => ?_⟩
  obtain ⟨event, hevent, hexpired⟩ := hlive hended
  exact ⟨event, (hlooks.events _ event hexpired).mpr hevent, hexpired⟩

variable (h : m.WaitsInvariant closed)
include h

theorem keeps_settle (hget : m.table.get id = some job) (hopen : job.status.terminal = false)
    (hstatus : status.terminal = true) :
    Keeps m (m.settle job.generation status) ∧ (m.settle job.generation status).RecordLive id := by
  obtain ⟨hrecord, hobject, -⟩ := h.table.get_eq_some hget
  obtain ⟨event, concerns, hevent, hcreated, -, hwaits⟩ := settle_waits h hobject hopen hstatus
  have htable := m.settle_table job.generation status
  have hlooks : TerminalWaits.Looks (m.table.setStatus job.generation status)
      (m.waits.withEvent event) (m.settle job.generation status).waits := by
    rw [hwaits]
    exact resolveWaits_looks _ _ _
  refine ⟨⟨?_, ?_, ?_⟩, ?_⟩
  · intro token wait' hget' hopen'
    obtain ⟨wait, hwait, htargets, hcond, hsettled, -⟩ := hlooks.handles token wait' hget'
    refine ⟨wait, hwait, ?_, htargets, hcond⟩
    cases hresult : wait.result with
    | none => rfl
    | some r =>
      rw [hsettled (by rw [hresult]; rfl), hresult] at hopen'
      cases hopen'
  · intro target hrecalled
    rw [htable]
    apply looks_recalled hlooks
    rw [← hevent]
    exact TerminalWaits.Recalled.withEvent hcreated hrecalled
  · intro id' g hg
    rw [htable] at hg
    exact hg
  · intro g hg
    rw [htable] at hg ⊢
    have heq : g = job.generation := some.inj (hg.symm.trans hrecord)
    have hfresh : isExpired (m.table.setStatus job.generation status) event = false :=
      expired_fresh _ hcreated
    refine ⟨event, (hlooks.events g event hfresh).mpr ?_, hfresh⟩
    show (m.waits.terminalEvents.set event.generation event).get? g = some event
    rw [heq, hevent, get?_set_self]

theorem WaitsInvariant.cancel (hcancels : m.cancels id filter = true)
    (hall : ∀ {token wait}, m.waits.handles.get? token = some wait → wait.result = none →
      wait.OnJobs → wait.condition = .allTerminal →
      wait.Met (fun g => m.table.Ended g ∨ m.table.jobs.get? id = some g) →
      ∀ target ∈ wait.targets, m.waits.Recalled m.table target) :
    (m.cancel id filter).WaitsInvariant closed ∧ Keeps m (m.cancel id filter) ∧
      (m.cancel id filter).RecordLive id ∧
      ∀ g, (m.cancel id filter).table.Ended g → m.table.Ended g ∨
        m.table.jobs.get? id = some g := by
  obtain ⟨job, hget, hmatches⟩ := (any_eq_true _ _).mp hcancels
  obtain ⟨hrecord, hobject, hid⟩ := h.table.get_eq_some hget
  have hopen : job.status.terminal = false := by
    rw [Bool.and_eq_true, Bool.or_eq_true, decide_eq_true_iff, decide_eq_true_iff] at hmatches
    rcases hmatches.2 with hpaused | hrunning
    · rw [hpaused]
      rfl
    · rw [hrunning]
      rfl
  have hended : ∀ g, (m.table.setStatus job.generation .cancelled).Ended g →
      m.table.Ended g ∨ m.table.jobs.get? id = some g := by
    intro g hg
    rcases hg.of_setStatus with heq | hold
    · exact .inr (heq ▸ hrecord)
    · exact .inl hold
  have hsettled : (m.settle job.generation .cancelled).WaitsInvariant closed := by
    refine h.settle hobject rfl fun hwait hopen' honJobs hmet => ?_
    apply h.recalledMet_recorded hget hwait hopen' honJobs hmet
    intro hcond
    exact hall hwait hopen' honJobs hcond (hmet.mono fun _ _ hg => hended _ hg)
  obtain ⟨hkeeps, hlive⟩ := keeps_settle h hget hopen (rfl : JobStatus.cancelled.terminal = true)
  have hcancel : m.cancel id filter =
      if job.status = .paused then (m.settle job.generation .cancelled).scheduleEviction id
      else m.settle job.generation .cancelled := by
    unfold AsyncJobManager.cancel
    rw [hget, hcancels]
    rfl
  rw [hcancel]
  split
  · obtain ⟨hkeeps', hlive'⟩ := keeps_scheduleEviction hlive
    refine ⟨hsettled.scheduleEviction id, hkeeps.trans hkeeps', hlive', fun g hg => ?_⟩
    obtain ⟨hobjects, -⟩ := (m.settle job.generation .cancelled).scheduleEviction_table id
    rw [ended_congr hobjects, settle_table] at hg
    exact hended g hg
  · refine ⟨hsettled, hkeeps, hlive, fun g hg => ?_⟩
    rw [settle_table] at hg
    exact hended g hg

theorem WaitsInvariant.cancelAll
    (hs : m.Recalls (.cancelAll filter)) : (m.cancelAll filter).WaitsInvariant closed := by
  let ended := m.EndedBy (.cancelAll filter)
  suffices hfold : ∀ (jobs : List AsyncJob) (m₁ : AsyncJobManager),
      (∀ job ∈ jobs, job ∈ m.table.getRunningJobs filter) → m₁.WaitsInvariant closed → Keeps m m₁ →
      (∀ g, m₁.table.Ended g → ended g) →
      WaitsInvariant closed (jobs.foldl (fun m job =>
        if m.cancels job.id filter then (m.cancel job.id filter).scheduleEviction job.id
          else m) m₁) by
    refine hfold _ m (fun _ hmem => hmem) h ?_ fun g hg => .inl hg
    exact ⟨fun {_ wait'} hget hopen => ⟨wait', hget, hopen, rfl, rfl⟩, fun _ h => h, fun h => h⟩
  intro jobs
  induction jobs with
  | nil => exact fun m₁ _ h₁ _ _ => h₁
  | cons job rest ih =>
    intro m₁ hjobs h₁ hkeeps hended
    rw [List.foldl_cons]
    have hrest : ∀ job ∈ rest, job ∈ m.table.getRunningJobs filter :=
      fun job hmem => hjobs job (List.mem_cons_of_mem _ hmem)
    split
    · next hcancels =>
      -- the record under the id is that of the job that was running at the start
      have hending : ∀ g, m₁.table.Ended g ∨ m₁.table.jobs.get? job.id = some g → ended g := by
        rintro g (hg | hg)
        · exact hended g hg
        · have hmem := hjobs job List.mem_cons_self
          have heq := (hkeeps.records hg).symm.trans (h.table.mem_getRunningJobs hmem)
          rw [some.inj heq]
          exact .inr (List.mem_map_of_mem hmem)
      obtain ⟨hcancel, hkeeps', hlive, hended'⟩ := h₁.cancel hcancels (by
        intro token wait' hget' hopen' honJobs' hcond' hmet' target htarget
        obtain ⟨wait, hget, hopen, htargets, hcond⟩ := hkeeps.opens hget' hopen'
        apply hkeeps.recalled
        refine hs.recalled hget hopen (fun t ht => honJobs' t (htargets ▸ ht)) (hcond ▸ hcond') ?_
          target (htargets ▸ htarget)
        exact (TerminalWait.Met.congr htargets hcond).mp (hmet'.mono fun _ _ hg => hending _ hg))
      obtain ⟨hkeeps'', -⟩ := keeps_scheduleEviction hlive
      apply ih _ hrest (hcancel.scheduleEviction job.id) ((hkeeps.trans hkeeps').trans hkeeps'')
      intro g hg
      obtain ⟨hobjects, -⟩ := (m₁.cancel job.id filter).scheduleEviction_table job.id
      rw [ended_congr hobjects] at hg
      exact hending g (hended' g hg)
    · exact ih m₁ hrest h₁ hkeeps hended

theorem WaitsInvariant.cancelJob
    (hs : m.Recalls (.cancel id filter)) : (m.cancel id filter).WaitsInvariant closed := by
  cases hcancels : m.cancels id filter with
  | false =>
    have hnoop : m.cancel id filter = m := by
      unfold AsyncJobManager.cancel
      rw [hcancels]
      split <;> rfl
    rw [hnoop]
    exact h
  | true =>
    refine (h.cancel hcancels ?_).1
    intro token wait hget hopen honJobs hcond hmet
    refine hs.recalled hget hopen honJobs hcond (hmet.mono ?_)
    rintro target - (hended | hrecord)
    · exact .inl hended
    · refine .inr ?_
      simp [ending, hcancels, hrecord]

theorem WaitsInvariant.addJob (hlive : m.table.Live)
    (hgen : job.generation = .job (m.table.jobGenerationSeq + 1))
    (hstatus : job.status = .running) :
    (m.addJob job).WaitsInvariant closed := by
  have hobjects : ∀ g old, m.table.objects.get? g = some old →
      (m.addJob job).table.objects.get? g = some old := by
    intro g old hold
    have hne : g ≠ job.generation := by
      rintro rfl
      rw [hgen, h.table.fresh] at hold
      cases hold
    show (m.table.objects.set job.generation job).get? g = some old
    rw [get?_set_ne _ _ hne]
    exact hold
  refine h.quiet (hlive.addJob hgen hstatus).toWellFormed ?_ (fun _ hg => hg) h.aliases rfl
    (fun {token wait'} hget => ⟨wait', hget, rfl, rfl, rfl⟩)
  intro g old hold
  refine ⟨⟨old, hobjects g old hold, rfl⟩, ?_⟩
  unfold JobTable.Ended
  rw [hobjects g old hold, hold]

theorem WaitsInvariant.register (hlive : m.table.Live)
    (options : RegisterOptions) : (m.register options).WaitsInvariant closed := by
  have hregistered := Live.register hlive options
  rw [register_eq] at hregistered ⊢
  by_cases hrefuses : m.refuses options = true
  · rw [if_pos hrefuses]
    exact h
  rw [if_neg hrefuses] at hregistered ⊢
  have hadd : (m.addJob (m.newJob options)).WaitsInvariant closed := h.addJob hlive rfl rfl
  have hself : (m.addJob (m.newJob options)).table.objects.get? (m.newJob options).generation =
      some (m.newJob options) := get?_set_self _ _ _
  have hrecord : ∀ {m₁ : AsyncJobManager}, m₁.WaitsInvariant closed → JobTable.Live { m₁.table with
        jobs := m₁.table.jobs.set (m.newJob options).id (m.newJob options).generation } →
      WaitsInvariant closed { m₁ with table := { m₁.table with
        jobs := m₁.table.jobs.set (m.newJob options).id (m.newJob options).generation } } := by
    intro m₁ h₁ hlive₁
    exact h₁.quiet hlive₁.toWellFormed (fun _ job hjob => ⟨⟨job, hjob, rfl⟩, Iff.rfl⟩)
      (fun _ hg => hg) h₁.aliases rfl (fun {token wait'} hget => ⟨wait', hget, rfl, rfl, rfl⟩)
  refine hrecord ?_ hregistered
  split
  · exact hadd
  next text _ =>
  have hfinished :
      ((m.addJob (m.newJob options)).finishJob (m.newJob options) .failed text).WaitsInvariant
      closed := by
    refine hadd.finishJob hself rfl text fun {token wait} hget hopen honJobs hmet => ?_
    refine absurd (hmet.mono fun target hmem hended => ?_) (h.unmet hget hopen honJobs)
    obtain ⟨old, hold, -⟩ := h.object hget honJobs hmem
    have hne : target.generation ≠ (m.newJob options).generation := by
      intro heq
      rw [heq] at hold
      exact absurd (hold.symm.trans h.table.fresh) (by simp)
    obtain ⟨job', hjob', hterminal⟩ := hended.of_setStatus.resolve_left hne
    change (m.table.objects.set _ _).get? _ = some job' at hjob'
    rw [get?_set_ne _ _ hne] at hjob'
    exact ⟨job', hjob', hterminal⟩
  unfold throwsAtOnce
  generalize (m.addJob (m.newJob options)).finishJob (m.newJob options) .failed text =
    finished at hfinished ⊢
  exact hfinished.of_waits rfl rfl (fun _ _ hg => hg) rfl

theorem WaitsInvariant.startResume (hlive : m.table.Live)
    (subagentId : Text) (seq : Nat) (options : RegisterOptions) :
    (m.startResume subagentId seq options).WaitsInvariant closed := by
  unfold AsyncJobManager.startResume
  dsimp only
  split
  · exact h
  · have hregistered := h.register hlive options
    refine hregistered.quiet hregistered.table (fun _ job hjob => ⟨⟨job, hjob, rfl⟩, Iff.rfl⟩)
      (fun _ hg => hg) ?_ rfl (fun {token wait'} hget => ⟨wait', hget, rfl, rfl, rfl⟩)
    intro g g' hg
    rw [get?_set] at hg
    split at hg
    · next heq => rw [heq]; rfl
    · exact hregistered.aliases hg

theorem WaitsInvariant.looks {w : TerminalWaits}
    (hlooks : TerminalWaits.Looks m.table m.waits w) :
    WaitsInvariant closed { m with waits := w } :=
  h.toWaitsSound.looks hlooks fun hget hopen honJobs hmet =>
    absurd hmet (h.unmet hget hopen honJobs)

theorem WaitsInvariant.subscribeTerminalWait {targets : List AsyncJobWaitTarget}
    {condition : AsyncJobWaitCondition}
    (hs : m.Recalls (.subscribeTerminalWait targets condition)) :
    WaitsInvariant closed
      { m with waits := m.waits.subscribeTerminalWait m.table targets condition } := by
  let wait₀ : TerminalWait := ⟨dedupTargets targets, condition, none, false⟩
  obtain ⟨htargets, hrecalled⟩ := hs.2 wait₀ rfl
  let w : TerminalWaits := { m.waits with
    waitSeq := m.waits.waitSeq + 1
    handles := m.waits.handles.set (m.waits.waitSeq + 1) wait₀ }
  have hcases : ∀ {token wait}, w.handles.get? token = some wait →
      token = m.waits.waitSeq + 1 ∧ wait = wait₀ ∨ m.waits.handles.get? token = some wait := by
    intro token wait hget
    rw [get?_set] at hget
    split at hget
    · next heq => exact .inl ⟨heq, (some.inj hget).symm⟩
    · exact .inr hget
  have hsound : WaitsSound closed { m with waits := w } := by
    refine ⟨h.table, h.published, h.aliases, ?_, ?_, ?_⟩
    · intro token wait hget
      rcases hcases hget with ⟨rfl, -⟩ | hold
      · exact Nat.le_refl _
      · exact Nat.le_succ_of_le (h.tokens hold)
    · intro token wait hget
      rcases hcases hget with ⟨-, rfl⟩ | hold
      · exact htargets
      · exact h.targets hold
    · intro token wait result hget honJobs hresult
      rcases hcases hget with ⟨-, rfl⟩ | hold
      · cases hresult
      · exact h.outcome hold honJobs hresult
  refine hsound.looks (maybeResolveWait_looks m.table w (m.waits.waitSeq + 1)) ?_
  intro token wait wait' hget hopen honJobs hmet hget' hopen'
  rcases hcases hget with ⟨rfl, rfl⟩ | hold
  · have hseenMet : w.SeenMet m.table wait₀ := TerminalWaits.RecalledMet.seenMet hmet
      (hrecalled honJobs hmet) fun target hmem => hsound.sees hget honJobs hmem
    obtain ⟨settled, hsettled, hsome⟩ := maybeResolveWait_resolves hget hseenMet
    have heq : wait' = settled := some.inj (hget'.symm.trans hsettled)
    rw [← heq, hopen'] at hsome
    cases hsome
  · exact h.unmet hold hopen honJobs hmet

theorem WaitsInvariant.acknowledgeWait (token : Nat)
    (targetIds : Option (List Text)) :
    (m.acknowledgeWait token targetIds).WaitsInvariant closed := by
  unfold AsyncJobManager.acknowledgeWait
  split
  · exact h
  next wait hwait =>
  split
  · exact h
  have hpruned := h.looks (pruneFor_looks m.waits m.table
    (wait.targets.filter fun target => targetIds.all fun ids => ids.contains target.targetId))
  refine hpruned.quiet h.table (fun _ job hjob => ⟨⟨job, hjob, rfl⟩, Iff.rfl⟩) (fun _ hg => hg)
    hpruned.aliases rfl ?_
  intro token' wait' hget
  rw [get?_set] at hget
  split at hget
  · next heq =>
    cases hget
    refine ⟨wait, ?_, rfl, rfl, rfl⟩
    rw [pruneFor_handles, heq]
    exact hwait
  · exact ⟨wait', hget, rfl, rfl, rfl⟩

theorem WaitsInvariant.closeWait {closed' : Nat → Prop} (token : Nat)
    (hmono : ∀ token, closed token → closed' token)
    (hclosed : ∀ wait, m.waits.handles.get? token = some wait → ¬ wait.Met m.table.Ended →
      closed' token) :
    WaitsInvariant closed' { m with waits := m.waits.closeWait m.table token } := by
  have hmono' : m.WaitsInvariant closed' :=
    { h with outcome := fun hget honJobs hresult =>
        (h.outcome hget honJobs hresult).imp_right (hmono _) }
  unfold TerminalWaits.closeWait
  split
  · exact hmono'
  next wait hwait =>
  split
  · exact hmono'
  next hopen =>
  have hpruned := hmono'.looks (TerminalWaits.pruneFor_looks m.waits m.table wait.targets)
  have hcases : ∀ {result token' wait'}, ((m.waits.pruneFor m.table wait.targets).handles.set token
      { wait with result }).get? token' = some wait' →
      token' = token ∧ wait' = { wait with result } ∨ m.waits.handles.get? token' = some wait' := by
    intro result token' wait' hget
    rw [get?_set, TerminalWaits.pruneFor_handles] at hget
    split at hget
    · next heq => exact .inl ⟨heq, (some.inj hget).symm⟩
    · exact .inr hget
  refine ⟨⟨h.table, hpruned.published, hpruned.aliases, ?_, ?_, ?_⟩, ?_⟩
  · intro token' wait' hget
    rw [(TerminalWaits.pruneFor_looks m.waits m.table wait.targets).waitSeq]
    rcases hcases hget with ⟨rfl, -⟩ | hold
    · exact h.tokens hwait
    · exact h.tokens hold
  · intro token' wait' hget target hmem
    rcases hcases hget with ⟨-, rfl⟩ | hold
    · exact h.targets hwait target hmem
    · exact h.targets hold target hmem
  · intro token' wait' result hget honJobs hresult
    rcases hcases hget with ⟨rfl, rfl⟩ | hold
    · exact .inr (hclosed wait hwait (h.unmet hwait (by simpa using hopen) honJobs))
    · exact hmono'.outcome hold honJobs hresult
  · intro token' wait' hget hopen' honJobs
    rcases hcases hget with ⟨-, rfl⟩ | hold
    · cases hopen'
    · exact h.unmet hold hopen' honJobs

theorem WaitsInvariant.evictionTimer (jobId : Text) :
    (m.evictionTimer jobId).WaitsInvariant closed := by
  unfold AsyncJobManager.evictionTimer
  split
  · exact h
  split
  · exact h
  · apply WaitsInvariant.evictJob
    exact h.of_waits rfl rfl (fun _ _ hg => hg) rfl

/-- A step whose condition holds keeps the invariant; only a close may interrupt a wait. -/
theorem WaitsInvariant.step {closed' : Nat → Prop} (hlive : m.table.Live)
    {s : Step} (hs : m.Recalls s) (hmono : ∀ token, closed token → closed' token)
    (hclosed : ∀ token wait, s = .closeWait token → m.waits.handles.get? token = some wait →
      ¬ wait.Met m.table.Ended → closed' token) : (m.step s).WaitsInvariant closed' := by
  have hmono' : m.WaitsInvariant closed' :=
    { h with outcome := fun hget honJobs hresult =>
        (h.outcome hget honJobs hresult).imp_right (hmono _) }
  cases hqueue : s.onQueue with
  | true =>
    obtain ⟨htable, hwaits⟩ := step_onQueue (m := m) hqueue
    exact hmono'.of_waits (by rw [htable]) (by rw [htable])
      (fun _ _ hg => by rw [htable] at hg; exact hg) hwaits
  | false =>
    cases s with
    | tick ms => exact hmono'.of_waits rfl rfl (fun _ _ hg => hg) rfl
    | register options => exact hmono'.register hlive options
    | startResume subagentId seq options => exact hmono'.startResume hlive subagentId seq options
    | runEnds g outcome => exact hmono'.runEnds hlive hs
    | failNow jobId g errorText => exact hmono'.failNow hs
    | cancel id filter => exact hmono'.cancelJob hs
    | cancelAll filter => exact hmono'.cancelAll hs
    | evictionTimer jobId => exact hmono'.evictionTimer jobId
    | publishQueuedTerminal subagentId seq ownerId status =>
      exact hmono'.publish (fun hjob => by cases hjob) _
    | subscribeTerminalWait targets condition => exact hmono'.subscribeTerminalWait hs
    | acknowledgeWait token targetIds => exact hmono'.acknowledgeWait token targetIds
    | closeWait token => exact h.closeWait token hmono fun wait => hclosed token wait rfl
    | pruneTerminalEvents => exact hmono'.looks (pruneTerminalEvents_looks _ _)
    | _ => cases hqueue

omit h

def ClosedUnmet (m : AsyncJobManager) (steps : List Step) (token : Nat) : Prop :=
  ∃ before after, steps = before ++ .closeWait token :: after ∧
    ∃ wait, (before.foldl AsyncJobManager.step m).waits.handles.get? token = some wait ∧
      ¬ wait.Met (before.foldl AsyncJobManager.step m).table.Ended

theorem create_waitsInvariant (now : Int) (retentionMs maxRunningJobs maxOwners : Nat) :
    (create now retentionMs maxRunningJobs maxOwners).WaitsInvariant fun _ => False where
  table := (create_live now retentionMs maxRunningJobs maxOwners).toWellFormed
  published h := by cases h
  aliases h := by cases h
  tokens h := by cases h
  targets h := by cases h
  unmet h := by cases h
  outcome h := by cases h

theorem run_waitsInvariant (now : Int) (retentionMs maxRunningJobs maxOwners : Nat)
    {steps : List Step}
    (h : Guarded step Recalls (create now retentionMs maxRunningJobs maxOwners) steps) :
    (steps.foldl step (create now retentionMs maxRunningJobs maxOwners)).table.Live ∧
      (steps.foldl step (create now retentionMs maxRunningJobs maxOwners)).WaitsInvariant
        (ClosedUnmet (create now retentionMs maxRunningJobs maxOwners) steps) := by
  let m₀ := create now retentionMs maxRunningJobs maxOwners
  refine Guarded.invariant (I := fun steps m => m.table.Live ∧
    m.WaitsInvariant (ClosedUnmet m₀ steps)) ?_ ?_ h
  · rintro before s ⟨hlive, hinv⟩ hs
    refine ⟨Live.step hlive s, hinv.step hlive hs ?_ ?_⟩
    · rintro token ⟨before', after, rfl, hunmet⟩
      exact ⟨before', after ++ [s], by simp, hunmet⟩
    · rintro token wait rfl hget hunmet
      exact ⟨before, [], rfl, wait, hget, hunmet⟩
  · refine ⟨create_live _ _ _ _, ?_⟩
    have hcreated := create_waitsInvariant now retentionMs maxRunningJobs maxOwners
    exact { hcreated with outcome := fun hget => by cases hget }

/-- A wait on jobs is completed by the time it is met, unless it was closed before. -/
theorem terminalWait_completes (now : Int) (retentionMs maxRunningJobs maxOwners : Nat)
    (steps : List Step)
    (h : Guarded step Recalls (create now retentionMs maxRunningJobs maxOwners) steps) (token : Nat)
    (wait : TerminalWait)
    (hget : (steps.foldl step (create now retentionMs maxRunningJobs maxOwners)).waits.handles.get?
      token = some wait)
    (honJobs : wait.OnJobs)
    (hmet : wait.Met
      (steps.foldl step (create now retentionMs maxRunningJobs maxOwners)).table.Ended) :
    ∃ result, wait.result = some result ∧ (result.outcome = .completed ∨
      ClosedUnmet (create now retentionMs maxRunningJobs maxOwners) steps token) := by
  obtain ⟨-, hinv⟩ := run_waitsInvariant now retentionMs maxRunningJobs maxOwners h
  cases hresult : wait.result with
  | none => exact absurd hmet (hinv.unmet hget hresult honJobs)
  | some result => exact ⟨result, rfl, hinv.outcome hget honJobs hresult⟩

def twoTargets : List AsyncJobWaitTarget :=
  [⟨"a".toList, some "a".toList, .job 1⟩, ⟨"b".toList, some "b".toList, .job 2⟩]

/-- Both jobs are waited for; the first ends, its record is evicted after a while, and the second
ends. -/
def waitForTwo (ms : Nat) : List Step :=
  [.register ⟨some "a".toList, none, false, none⟩, .register ⟨some "b".toList, none, false, none⟩,
    .subscribeTerminalWait twoTargets .allTerminal, .runEnds (.job 1) (.completed []), .tick ms,
    .evictionTimer "a".toList, .runEnds (.job 2) (.completed [])]

/-- The event of the first job has not expired when the second ends. -/
theorem terminalWait_completes_recent :
    ∃ wait, ((waitForTwo 300000).foldl step (create 0 300000 15 64)).waits.handles.get? 1 =
      some wait ∧
      wait.targets = twoTargets ∧
      ∃ result, wait.result = some result ∧ (result.outcome = .completed ∨
        ClosedUnmet (create 0 300000 15 64) (waitForTwo 300000) 1) := by
  have hget : ((waitForTwo 300000).foldl step (create 0 300000 15 64)).waits.handles.get? 1 =
      some ⟨twoTargets, .allTerminal,
        some ⟨.completed, .allTerminal, ["a".toList, "b".toList], []⟩, false⟩ := by decide +kernel
  exact ⟨_, hget, rfl, terminalWait_completes 0 300000 15 64 (waitForTwo 300000)
    (by decide +kernel) 1 _ hget (by decide +kernel) (by decide +kernel)⟩

/-- One millisecond later the event has expired: both jobs were there when the wait was subscribed,
both have ended, and the wait is open. -/
theorem terminalWait_forgets :
    (∀ target ∈ twoTargets,
      Resolvable (((waitForTwo 300001).take 2).foldl step (create 0 300000 15 64)).table target) ∧
    ((waitForTwo 300001).foldl step (create 0 300000 15 64)).waits.handles.get? 1 =
      some ⟨twoTargets, .allTerminal, none, false⟩ ∧
    ∀ target ∈ twoTargets,
      ((waitForTwo 300001).foldl step (create 0 300000 15 64)).table.Ended target.generation := by
  decide +kernel

end AsyncJobManager

end Vibrato.Jobs
