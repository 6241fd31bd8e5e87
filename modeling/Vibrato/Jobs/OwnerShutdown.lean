import Vibrato.Lib.Runs
import Vibrato.Jobs.SubagentMoves

namespace Vibrato.Jobs

open Lib List OrderedMap AsyncJobManager

namespace SubagentManager

variable {s s' : SubagentManager} {owner : Text} {lease : OwnerSubagentShutdownLease}

namespace Collected

variable {c : Collected} {subagentId jobId : Text}

variable (c)

def Backs (subagentId jobId : Text) : Prop :=
  jobId ∈ (c.backingJobIds.get? subagentId).getD []

structure Grows (c c' : Collected) : Prop where
  targets : ∀ {key}, c.targets.has key = true → c'.targets.has key = true
  backs : ∀ {key jobId}, c.Backs key jobId → c'.Backs key jobId
  keyed : (∀ {key target}, c.targets.get? key = some target → target.subagentId = key) →
    ∀ {key target}, c'.targets.get? key = some target → target.subagentId = key

theorem Grows.trans {c c' c'' : Collected} (h : Grows c c') (h' : Grows c' c'') : Grows c c'' where
  targets hkey := h'.targets (h.targets hkey)
  backs hbacks := h'.backs (h.backs hbacks)
  keyed hkeyed := h'.keyed (h.keyed hkeyed)

theorem Grows.refl : Grows c c := ⟨id, id, id⟩

theorem grows_addBackingJob (subagentId : Text) (jobId : Option Text) :
    Grows c (c.addBackingJob subagentId jobId) := by
  cases jobId with
  | none => exact .refl c
  | some jobId =>
    refine ⟨id, ?_, id⟩
    intro key id hbacks
    show id ∈ ((c.backingJobIds.set _ _).get? key).getD []
    rw [get?_set]
    split
    · next heq =>
      subst heq
      exact List.mem_insert_of_mem hbacks
    · exact hbacks

theorem addBackingJob_backs (subagentId jobId : Text) :
    (c.addBackingJob subagentId (some jobId)).Backs subagentId jobId := by
  show jobId ∈ ((c.backingJobIds.set _ _).get? subagentId).getD []
  rw [get?_set_self]
  exact mem_insert_self

theorem grows_setTarget (subagentId : Text) (jobId : Option Text) (source : ShutdownSource) :
    Grows c { c with targets := c.targets.set subagentId ⟨subagentId, jobId, source⟩ } := by
  refine ⟨fun hkey => has_set.mpr (.inr hkey), id, fun hkeyed key target htarget => ?_⟩
  rw [get?_set] at htarget
  split at htarget
  · next heq =>
    cases htarget
    exact heq.symm
  · exact hkeyed htarget

variable {c}

theorem grows_addRecord (owner : Text) (c : Collected) (entry : Text × SubagentRecord) :
    Grows c (c.addRecord owner entry) := by
  unfold addRecord
  dsimp only
  split
  · exact .refl c
  · exact (grows_setTarget c _ _ _).trans (grows_addBackingJob _ _ _)

theorem grows_addJob (s : SubagentManager) (owner : Text) (c : Collected) (job : AsyncJob) :
    Grows c (addJob s owner c job) := by
  unfold addJob
  cases s.metadata.get? job.generation with
  | none => exact .refl c
  | some subagentId =>
    dsimp only
    split
    · exact .refl c
    split
    · exact .refl c
    refine Grows.trans ?_ (grows_addBackingJob _ _ _)
    split
    · exact .refl c
    · exact grows_setTarget c _ _ _

end Collected

variable (s)

/-- `beginOwnerSubagentShutdown` collects the job of a run. -/
def collectsRun (job : AsyncJob) (subagentId : Text) : Bool :=
  decide (s.manager.table.jobs.get? job.id = some job.generation) && decide (subagentId ≠ []) &&
    (decide (job.status = .running) || decide (job.status = .cancelled)) &&
    !(decide (job.status = .cancelled) && s.settledJobIds.contains job.id &&
      !s.subagentRecords.has subagentId)

def collectsRuns (owner : Text) : Bool :=
  s.manager.table.unsettled.all fun g => (s.manager.table.objects.get? g).all fun job =>
    (s.metadata.get? g).all fun subagentId =>
      decide (job.ownerId ≠ some owner) || s.collectsRun job subagentId

variable {s}

structure PendingRun (s : SubagentManager) (owner : Text) (g : Generation) (job : AsyncJob)
    (subagentId : Text) : Prop where
  unsettled : g ∈ s.manager.table.unsettled
  object : s.manager.table.objects.get? g = some job
  owned : job.ownerId = some owner
  tagged : s.metadata.get? g = some subagentId

variable {g : Generation} {job : AsyncJob} {call : ProvingCall}
    {captured : List (Text × Generation)}
  {current : OwnerSubagentShutdownLease} {n : Nat} {deadline : Bool}
    {proof : OwnerSubagentShutdownProof}
  {subagentId : Text}

theorem PendingRun.collected (h : s.collectsRuns owner = true)
    (hrun : s.PendingRun owner g job subagentId) :
    s.collectsRun job subagentId = true := by
  have hall := all_eq_true.mp h g hrun.unsettled
  rw [hrun.object, Option.all_some, hrun.tagged, Option.all_some, Bool.or_eq_true] at hall
  exact hall.resolve_left (by simp [hrun.owned])

theorem addJob_collects
    (htagged : s.metadata.get? job.generation = some subagentId) (howned : job.ownerId = some owner)
    (h : s.collectsRun job subagentId = true) (c : Collected) :
    (Collected.addJob s owner c job).targets.has subagentId = true ∧
      (Collected.addJob s owner c job).Backs subagentId job.id := by
  simp only [collectsRun, Bool.and_eq_true, Bool.or_eq_true, decide_eq_true_eq, Bool.not_eq_true',
    Bool.and_eq_false_iff] at h
  obtain ⟨⟨⟨-, hnamed⟩, hstatus⟩, hseen⟩ := h
  have hkept : ¬(job.ownerId ≠ some owner ∨ subagentId = [] ∨
      (job.status ≠ .running ∧ job.status ≠ .paused ∧ job.status ≠ .cancelled)) := by
    rintro (hother | hempty | ⟨hrun, -, hcancelled⟩)
    · exact hother howned
    · exact hnamed hempty
    · exact hstatus.elim hrun hcancelled
  have hcaptured : ¬(job.status = .cancelled ∧ job.id ∈ s.settledJobIds ∧
      s.subagentRecords.has subagentId = false) := by
    rintro ⟨hcancelled, hsettled, hmissing⟩
    simp [hcancelled, hsettled, hmissing] at hseen
  unfold Collected.addJob
  rw [htagged]
  dsimp only
  rw [if_neg hkept, if_neg hcaptured]
  refine ⟨?_, Collected.addBackingJob_backs _ _ _⟩
  split
  · next hhas => exact hhas
  · exact has_set.mpr (.inl rfl)

theorem grows_jobs (s : SubagentManager) (owner : Text) (jobs : List AsyncJob) (c : Collected) :
    Collected.Grows c (jobs.foldl (Collected.addJob s owner) c) := by
  induction jobs generalizing c with
  | nil => exact .refl c
  | cons job rest ih => exact (Collected.grows_addJob s owner c job).trans (ih _)

theorem grows_records (owner : Text) (entries : List (Text × SubagentRecord)) (c : Collected) :
    Collected.Grows c (entries.foldl (Collected.addRecord owner) c) := by
  induction entries generalizing c with
  | nil => exact .refl c
  | cons entry rest ih => exact (Collected.grows_addRecord owner c entry).trans (ih _)

theorem mem_collect_targets (h : (s.collect owner).targets.has subagentId = true) :
    ∃ target ∈ (s.collect owner).targets.values, target.subagentId = subagentId := by
  obtain ⟨target, htarget⟩ := has_iff.mp h
  refine ⟨target, mem_values.mpr ⟨subagentId, htarget⟩, ?_⟩
  have hgrows := (grows_records owner s.subagentRecords.entries ⟨.empty, .empty⟩).trans
    (grows_jobs s owner (s.manager.table.jobs.keys.filterMap s.manager.table.get) _)
  exact hgrows.keyed (fun hempty => by cases hempty) htarget

theorem collect_record {record : SubagentRecord}
    (hrecord : s.subagentRecords.get? subagentId = some record)
    (howned : record.ownerId = some owner) (hopen : record.status.terminal = false) :
    (s.collect owner).targets.has subagentId = true := by
  have hcollected : (s.subagentRecords.entries.foldl (Collected.addRecord owner)
      ⟨.empty, .empty⟩).targets.has subagentId = true := by
    apply foldl_of_mem (P := fun c : Collected => c.targets.has subagentId = true)
    · exact fun c entry hkept => (Collected.grows_addRecord owner c entry).targets hkept
    · exact get?_eq_some.mp hrecord
    · intro c
      unfold Collected.addRecord
      dsimp only
      rw [if_neg (by simp [howned, hopen])]
      exact (Collected.grows_addBackingJob _ _ _).targets (has_set.mpr (.inl rfl))
  exact (grows_jobs s owner _ _).targets hcollected

theorem collect_run (hsound : s.Sound) (hcollects : s.collectsRuns owner = true)
    (hrun : s.PendingRun owner g job subagentId) :
    s.manager.table.jobs.get? job.id = some g ∧ (s.collect owner).targets.has subagentId = true ∧
      (s.collect owner).Backs subagentId job.id := by
  have hcollected := hrun.collected hcollects
  have hgen := hsound.live.toWellFormed.getElem_generation hrun.object
  have hrecorded : s.manager.table.jobs.get? job.id = some g := by
    simp only [collectsRun, Bool.and_eq_true, decide_eq_true_eq] at hcollected
    rw [← hgen]
    exact hcollected.1.1.1
  refine ⟨hrecorded, ?_⟩
  have hmem : job ∈ s.manager.table.jobs.keys.filterMap s.manager.table.get := by
    refine mem_filterMap.mpr ⟨job.id, mem_keys.mpr ⟨g, hrecorded⟩, ?_⟩
    exact JobTable.get_eq_some.mpr ⟨g, hrecorded, hrun.object⟩
  apply foldl_of_mem
    (P := fun c : Collected => c.targets.has subagentId = true ∧ c.Backs subagentId job.id)
  · intro c other hkept
    have hgrows := Collected.grows_addJob s owner c other
    exact ⟨hgrows.targets hkept.1, hgrows.backs hkept.2⟩
  · exact hmem
  · exact addJob_collects (hgen ▸ hrun.tagged) hrun.owned hcollected

structure Closed (s : SubagentManager) (owner : Text) : Prop where
  records : ∀ {subagentId record}, s.subagentRecords.get? subagentId = some record →
    record.ownerId = some owner → record.status.terminal = true
  runs : ∀ {g job subagentId}, ¬s.PendingRun owner g job subagentId

def Targets (lease : OwnerSubagentShutdownLease) (subagentId : Text) : Prop :=
  ∃ target ∈ lease.targets, target.subagentId = subagentId

structure CapturedWell (s : SubagentManager) (owner : Text) (call : ProvingCall) : Prop where
  known : ∀ {id g}, (id, g) ∈ call.captured → ∃ job, s.manager.table.objects.get? g = some job
  captured : ∀ {id g g' job subagentId}, (id, g) ∈ call.captured →
    s.PendingRun owner g' job subagentId → job.id = id → g' = g
  settled : ∀ {id}, id ∈ call.settled → ∃ g, (id, g) ∈ call.captured ∧ g ∉ s.manager.table.unsettled

/-- A lease has as targets the records of its owner that are not terminal and the subagents of the
runs of its owner that have not ended, with the jobs of those runs behind them. -/
structure Leased (s : SubagentManager) (owner : Text) (lease : OwnerSubagentShutdownLease) :
    Prop where
  records : ∀ {subagentId record}, s.subagentRecords.get? subagentId = some record →
    record.ownerId = some owner → record.status.terminal = false → Targets lease subagentId
  runs : ∀ {g job subagentId}, s.PendingRun owner g job subagentId →
    Targets lease subagentId ∧ job.id ∈ (lease.backingJobIds.get? subagentId).getD []
  recorded : ∀ {g job subagentId g' job'}, s.PendingRun owner g job subagentId →
    s.manager.table.jobs.get? job.id = some g' → s.manager.table.objects.get? g' = some job' →
    job'.ownerId = some owner → g' = g
  calls : ∀ {n call}, s.provingCalls.get? n = some call → call.ownerId = owner →
    call.leaseId = lease.id → s.CapturedWell owner call
  confirmed : ∀ {proof}, lease.proof = some proof → proof.confirmed = true →
    lease.phase = .proved ∧ s.Closed owner

structure Narrows (owner : Text) (s s' : SubagentManager) : Prop where
  records : ∀ {subagentId record'}, s'.subagentRecords.get? subagentId = some record' →
    record'.ownerId = some owner → record'.status.terminal = false →
    ∃ record, s.subagentRecords.get? subagentId = some record ∧ record.ownerId = some owner ∧
      record.status.terminal = false
  runs : ∀ {g job' subagentId}, s'.PendingRun owner g job' subagentId →
    ∃ job, s.PendingRun owner g job subagentId ∧ job.id = job'.id
  recorded : ∀ {id g job'}, s'.manager.table.jobs.get? id = some g →
    s'.manager.table.objects.get? g = some job' → job'.ownerId = some owner →
    ∃ job, s.manager.table.jobs.get? id = some g ∧ s.manager.table.objects.get? g = some job ∧
      job.ownerId = some owner
  known : ∀ {g job}, s.manager.table.objects.get? g = some job →
    ∃ job', s'.manager.table.objects.get? g = some job'
  settled : ∀ {g job}, s.manager.table.objects.get? g = some job → g ∉ s.manager.table.unsettled →
    g ∉ s'.manager.table.unsettled

theorem Moves.narrows (h : Moves s s') (hfenced : s.isFenced (some owner) = true) :
    Narrows owner s s' := by
  -- a job of the owner is not new
  have hold : ∀ {g job'}, s'.manager.table.objects.get? g = some job' → job'.ownerId = some owner →
      ∃ job, s.manager.table.objects.get? g = some job ∧ job.id = job'.id ∧
        job.ownerId = some owner ∧ s'.metadata.get? g = s.metadata.get? g := by
    intro g job' hjob' howned
    cases hjob : s.manager.table.objects.get? g with
    | none =>
      have hopen := h.added hjob' hjob
      rw [howned, hfenced] at hopen
      cases hopen
    | some job =>
      obtain ⟨kept, hkept, hid, howner, hmeta⟩ := h.kept hjob
      rw [hjob'] at hkept
      cases hkept
      exact ⟨job, rfl, hid.symm, howner.symm.trans howned, hmeta⟩
  refine ⟨?_, ?_, ?_, fun hjob => ?_, ?_⟩
  · intro subagentId record' hrecord howned hopen
    obtain ⟨record, hrecord, howner, hopen⟩ := h.ends hrecord (howned ▸ hfenced) hopen
    exact ⟨record, hrecord, howner.trans howned, hopen⟩
  · intro g job' subagentId hrun
    obtain ⟨job, hjob, hid, howned, hmeta⟩ := hold hrun.object hrun.owned
    refine ⟨job, ⟨?_, hjob, howned, hmeta ▸ hrun.tagged⟩, hid⟩
    refine (h.unsettled hrun.unsettled).resolve_right fun hnone => ?_
    rw [hjob] at hnone
    cases hnone
  · intro id g job' hrecorded hjob' howned
    obtain ⟨job, hjob, -, howned, -⟩ := hold hjob' howned
    refine ⟨job, (h.jobs hrecorded).resolve_right fun hnone => ?_, hjob, howned⟩
    rw [hjob] at hnone
    cases hnone
  · obtain ⟨job', hjob', -⟩ := h.kept hjob
    exact ⟨job', hjob'⟩
  · intro g job hjob hnot hmem
    refine hnot ((h.unsettled hmem).resolve_right fun hnone => ?_)
    rw [hjob] at hnone
    cases hnone

theorem Closed.narrows (h : s.Closed owner) (hnarrows : Narrows owner s s') : s'.Closed owner where
  records {subagentId record'} hrecord howned := by
    cases hterminal : record'.status.terminal with
    | true => rfl
    | false =>
      obtain ⟨record, hold, howned', hopen⟩ := hnarrows.records hrecord howned hterminal
      rw [h.records hold howned'] at hopen
      cases hopen
  runs hrun := by
    obtain ⟨job, hold, -⟩ := hnarrows.runs hrun
    exact h.runs hold

theorem CapturedWell.narrows (h : s.CapturedWell owner call)
    (hnarrows : Narrows owner s s') : s'.CapturedWell owner call where
  known hmem := by
    obtain ⟨job, hjob⟩ := h.known hmem
    exact hnarrows.known hjob
  captured hmem hrun hid := by
    obtain ⟨job, hold, hid'⟩ := hnarrows.runs hrun
    exact h.captured hmem hold (hid'.trans hid)
  settled hmem := by
    obtain ⟨g, hcaptured, hnot⟩ := h.settled hmem
    obtain ⟨job, hjob⟩ := h.known hcaptured
    exact ⟨g, hcaptured, hnarrows.settled hjob hnot⟩

theorem Leased.narrows (h : s.Leased owner lease) (hnarrows : Narrows owner s s')
    (hcalls : ∀ {n call}, s'.provingCalls.get? n = some call → call.ownerId = owner →
      call.leaseId = lease.id → s'.CapturedWell owner call) : s'.Leased owner lease where
  records hrecord howned hopen := by
    obtain ⟨record, hold, howned', hopen'⟩ := hnarrows.records hrecord howned hopen
    exact h.records hold howned' hopen'
  runs hrun := by
    obtain ⟨job, hold, hid⟩ := hnarrows.runs hrun
    rw [← hid]
    exact h.runs hold
  recorded hrun hrecorded hjob' howned := by
    obtain ⟨job, hold, hid⟩ := hnarrows.runs hrun
    obtain ⟨job', hrecorded', hjob', howned'⟩ := hnarrows.recorded hrecorded hjob' howned
    exact h.recorded hold (hid ▸ hrecorded') hjob' howned'
  calls := hcalls
  confirmed hproof hconfirmed := by
    obtain ⟨hphase, hclosed⟩ := h.confirmed hproof hconfirmed
    exact ⟨hphase, hclosed.narrows hnarrows⟩

structure ShutdownInv (s : SubagentManager) : Prop where
  sound : s.Sound
  leased : ∀ {owner lease}, s.ownerSubagentShutdownLeases.get? owner = some lease →
    s.Leased owner lease
  numbered : ∀ {owner lease}, s.ownerSubagentShutdownLeases.get? owner = some lease →
    lease.id ≤ s.ownerSubagentShutdownSeq
  calls : ∀ {n call}, s.provingCalls.get? n = some call → call.leaseId ≤ s.ownerSubagentShutdownSeq

theorem isFenced_of_lease (h : s.ownerSubagentShutdownLeases.get? owner = some lease) :
    s.isFenced (some owner) = true := has_iff.mpr ⟨lease, h⟩

theorem Narrows.of_table (htable : s'.manager.table = s.manager.table)
    (hmeta : s'.metadata = s.metadata)
    (hrecords : ∀ {subagentId record}, s'.subagentRecords.get? subagentId = some record →
      s.subagentRecords.get? subagentId = some record) : Narrows owner s s' where
  records hrecord howned hopen := ⟨_, hrecords hrecord, howned, hopen⟩
  runs hrun :=
    ⟨_, ⟨htable ▸ hrun.unsettled, htable ▸ hrun.object, hrun.owned, hmeta ▸ hrun.tagged⟩, rfl⟩
  recorded hrecorded hjob howned := ⟨_, htable ▸ hrecorded, htable ▸ hjob, howned⟩
  known hjob := ⟨_, htable ▸ hjob⟩
  settled _ hnot := htable ▸ hnot

theorem Leased.narrows_same (h : s.Leased owner lease) (hnarrows : Narrows owner s s')
    (hcalls : s'.provingCalls = s.provingCalls) : s'.Leased owner lease :=
  h.narrows hnarrows fun hcall howner hid =>
    (h.calls (hcalls ▸ hcall) howner hid).narrows hnarrows

theorem Moves.shutdownInv (hmoves : Moves s s') (h : s.ShutdownInv) : s'.ShutdownInv where
  sound := hmoves.sound
  leased hlease := by
    rw [hmoves.same.leases] at hlease
    exact (h.leased hlease).narrows_same (hmoves.narrows (isFenced_of_lease hlease))
      hmoves.same.provingCalls
  numbered hlease := by
    rw [hmoves.same.leaseSeq]
    exact h.numbered (hmoves.same.leases ▸ hlease)
  calls hcall := by
    rw [hmoves.same.leaseSeq]
    exact h.calls (hmoves.same.provingCalls ▸ hcall)

theorem begin_table (s : SubagentManager) (owner : Text) :
    (s.manager.step (.beginOwnerSubagentShutdown owner)).table = s.manager.table :=
  (step_onQueue rfl).1

theorem beginOwnerSubagentShutdown_inv (h : s.ShutdownInv)
    (hcollects : owner = [] ∨ s.ownerSubagentShutdownLeases.has owner = true ∨
      s.collectsRuns owner = true) : (s.beginOwnerSubagentShutdown owner).ShutdownInv := by
  unfold beginOwnerSubagentShutdown
  split
  · exact h
  next hnew =>
  have hruns : s.collectsRuns owner = true := by
    rcases hcollects with hempty | hhas | hruns
    · exact absurd (.inl hempty) hnew
    · exact absurd (.inr hhas) hnew
    · exact hruns
  have htable := begin_table s owner
  generalize s.manager.step (.beginOwnerSubagentShutdown owner) = manager at htable
  have hsame : ∀ {owner'}, Narrows owner' s { s with
      manager
      ownerSubagentShutdownSeq := s.ownerSubagentShutdownSeq + 1
      ownerSubagentShutdownLeases := s.ownerSubagentShutdownLeases.set owner
        ⟨s.ownerSubagentShutdownSeq + 1, (s.collect owner).targets.values,
          (s.collect owner).backingJobIds, .active, none⟩ } :=
    .of_table htable rfl fun hrecord => hrecord
  refine ⟨⟨htable ▸ h.sound.live, htable ▸ h.sound.records⟩, ?_, ?_, ?_⟩
  · intro owner' lease hlease
    rw [get?_set] at hlease
    split at hlease
    · next heq =>
      subst heq
      cases hlease
      -- the lease that has begun, before any call proves it
      refine Leased.narrows (s := s) ⟨?_, ?_, ?_, ?_, ?_⟩ hsame ?_
      · intro subagentId record hrecord howned hopen
        exact mem_collect_targets (collect_record hrecord howned hopen)
      · intro g job subagentId hrun
        obtain ⟨-, htarget, hbacks⟩ := collect_run h.sound hruns hrun
        exact ⟨mem_collect_targets htarget, hbacks⟩
      · intro g job subagentId g' job' hrun hrecorded _ _
        rw [(collect_run h.sound hruns hrun).1] at hrecorded
        exact (Option.some.inj hrecorded).symm
      · intro n call hcall _ hid
        have hle := h.calls hcall
        rw [hid] at hle
        exact absurd hle (Nat.not_succ_le_self _)
      · intro proof hproof
        cases hproof
      · intro n call hcall _ hid
        have hle := h.calls hcall
        rw [hid] at hle
        exact absurd hle (Nat.not_succ_le_self _)
    · exact (h.leased hlease).narrows_same hsame rfl
  · intro owner' lease hlease
    rw [get?_set] at hlease
    split at hlease
    · cases hlease
      exact Nat.le_refl _
    · exact Nat.le_succ_of_le (h.numbered hlease)
  · intro n call hcall
    exact Nat.le_succ_of_le (h.calls hcall)

theorem foldl_cancel_moves (h : s.Sound) (runner : ResumeRunner) (filter : Option Text)
    (jobIds : List Text) :
    Moves s (jobIds.foldl (fun s jobId => (s.cancel runner jobId filter).2) s) := by
  induction jobIds generalizing s with
  | nil => exact .refl h
  | cons jobId rest ih =>
    have hcancelled := cancel_moves h runner jobId filter
    exact hcancelled.trans (ih hcancelled.sound)

theorem CapturedWell.nil (leaseId : Nat) : s.CapturedWell owner ⟨owner, leaseId, [], []⟩ where
  known hmem := by cases hmem
  captured hmem := by cases hmem
  settled hmem := by cases hmem

theorem CapturedWell.append {leaseId : Nat} {captured' : List (Text × Generation)}
    (h : s.CapturedWell owner ⟨owner, leaseId, captured, []⟩)
    (h' : s.CapturedWell owner ⟨owner, leaseId, captured', []⟩) :
    s.CapturedWell owner ⟨owner, leaseId, captured ++ captured', []⟩ where
  known hmem := (mem_append.mp hmem).elim h.known h'.known
  captured hmem := (mem_append.mp hmem).elim h.captured h'.captured
  settled hmem := by cases hmem

theorem Leased.capturedWell (h : s.Leased owner lease) (hsound : s.Sound) (leaseId : Nat)
    (jobIds : List Text) :
    s.CapturedWell owner ⟨owner, leaseId, jobIds.filterMap fun jobId =>
      ((s.manager.table.get jobId).filter (·.ownerId = some owner)).map fun job =>
        (jobId, job.generation), []⟩ := by
  have hmem : ∀ {id g}, (id, g) ∈ (jobIds.filterMap fun jobId =>
      ((s.manager.table.get jobId).filter (·.ownerId = some owner)).map fun job =>
        (jobId, job.generation)) → ∃ job, s.manager.table.jobs.get? id = some g ∧
          s.manager.table.objects.get? g = some job ∧ job.ownerId = some owner := by
    intro id g hmem
    obtain ⟨jobId, -, hmap⟩ := mem_filterMap.mp hmem
    obtain ⟨job, hfilter, heq⟩ := Option.map_eq_some_iff.mp hmap
    obtain ⟨hget, howned⟩ := Option.filter_eq_some_iff.mp hfilter
    cases heq
    obtain ⟨hrecorded, hjob, -⟩ := hsound.live.toWellFormed.get_eq_some hget
    exact ⟨job, hrecorded, hjob, by simpa using howned⟩
  refine ⟨fun hin => ?_, ?_, fun hin => by cases hin⟩
  · obtain ⟨job, -, hjob, -⟩ := hmem hin
    exact ⟨job, hjob⟩
  · intro id g g' job subagentId hin hrun hid
    obtain ⟨job', hrecorded, hjob', howned⟩ := hmem hin
    subst hid
    exact (h.recorded hrun hrecorded hjob' howned).symm

variable (runner : ResumeRunner)

theorem proveTarget_keeps (lease : OwnerSubagentShutdownLease) (h : s.ShutdownInv)
    (hcurrent : s.ownerSubagentShutdownLeases.get? owner = some current)
    (hwell : s.CapturedWell owner ⟨owner, current.id, captured, []⟩)
    (target : OwnerSubagentShutdownTarget) :
    Moves s (proveTarget runner owner lease (captured, s) target).2 ∧
      (proveTarget runner owner lease (captured, s) target).2.CapturedWell owner
        ⟨owner, current.id, (proveTarget runner owner lease (captured, s) target).1, []⟩ := by
  have hmoves : Moves s (proveTarget runner owner lease (captured, s) target).2 := by
    unfold proveTarget
    split
    · have hcancelled := cancelSubagent_moves h.sound runner target.subagentId (some owner)
      exact hcancelled.trans (foldl_cancel_moves hcancelled.sound runner (some owner) _)
    · exact foldl_cancel_moves h.sound runner (some owner) _
  refine ⟨hmoves, CapturedWell.narrows ?_ (hmoves.narrows (isFenced_of_lease hcurrent))⟩
  exact hwell.append ((h.leased hcurrent).capturedWell h.sound current.id _)

theorem foldl_proveTarget_keeps (lease : OwnerSubagentShutdownLease)
    (targets : List OwnerSubagentShutdownTarget)
    (captured : List (Text × Generation)) (h : s.ShutdownInv)
    (hcurrent : s.ownerSubagentShutdownLeases.get? owner = some current)
    (hwell : s.CapturedWell owner ⟨owner, current.id, captured, []⟩) :
    Moves s (targets.foldl (proveTarget runner owner lease) (captured, s)).2 ∧
      (targets.foldl (proveTarget runner owner lease) (captured, s)).2.CapturedWell owner
        ⟨owner, current.id, (targets.foldl (proveTarget runner owner lease) (captured, s)).1,
          []⟩ := by
  induction targets generalizing s captured with
  | nil => exact ⟨.refl h.sound, hwell⟩
  | cons target rest ih =>
    obtain ⟨hmoves, hnext⟩ := proveTarget_keeps runner lease h hcurrent hwell target
    obtain ⟨hrest, hend⟩ := ih _ (hmoves.shutdownInv h) (hmoves.same.leases ▸ hcurrent) hnext
    exact ⟨hmoves.trans hrest, hend⟩

theorem setLease_get? (s : SubagentManager) (owner owner' : Text)
    (lease : OwnerSubagentShutdownLease) :
    (s.setLease owner lease).ownerSubagentShutdownLeases.get? owner' =
      if owner' = owner then some lease else s.ownerSubagentShutdownLeases.get? owner' :=
  get?_set _ _ _ _

variable (h : s.ShutdownInv)
include h

theorem setLease_inv (hlease : s.ownerSubagentShutdownLeases.get? owner = some lease)
    (phase : ShutdownPhase)
    (proof : Option OwnerSubagentShutdownProof)
    (hconfirmed : ∀ {found}, proof = some found → found.confirmed = true →
      phase = .proved ∧ s.Closed owner) :
    (s.setLease owner { lease with phase, proof }).ShutdownInv := by
  have hsame : ∀ {owner'}, Narrows owner' s (s.setLease owner { lease with phase, proof }) :=
    .of_table rfl rfl fun hrecord => hrecord
  have hold := h.leased hlease
  refine ⟨⟨h.sound.live, h.sound.records⟩, ?_, ?_, h.calls⟩
  · intro owner' lease' hlease'
    rw [setLease_get?] at hlease'
    split at hlease'
    · next heq =>
      subst heq
      cases hlease'
      refine Leased.narrows_same (s := s) ⟨hold.records, hold.runs, hold.recorded, hold.calls, ?_⟩
        hsame rfl
      exact hconfirmed
    · exact (h.leased hlease').narrows_same hsame rfl
  · intro owner' lease' hlease'
    rw [setLease_get?] at hlease'
    split at hlease'
    · cases hlease'
      show lease.id ≤ s.ownerSubagentShutdownSeq
      exact h.numbered hlease
    · exact h.numbered hlease'

theorem setCalls_inv {calls : OrderedMap Nat ProvingCall} (seq : Nat)
    (hnumbered : ∀ {n call}, calls.get? n = some call → call.leaseId ≤ s.ownerSubagentShutdownSeq)
    (hwell : ∀ {n call lease}, calls.get? n = some call →
      s.ownerSubagentShutdownLeases.get? call.ownerId = some lease → call.leaseId = lease.id →
      s.CapturedWell call.ownerId call) :
    ShutdownInv { s with provingCalls := calls, provingSeq := seq } := by
  refine ⟨⟨h.sound.live, h.sound.records⟩, ?_, h.numbered, hnumbered⟩
  intro owner lease hlease
  have hsame : Narrows owner s { s with provingCalls := calls, provingSeq := seq } :=
    .of_table rfl rfl fun hrecord => hrecord
  refine (h.leased hlease).narrows hsame fun {n call} hcall howner hid => ?_
  subst howner
  exact (hwell hcall hlease hid).narrows hsame

theorem ShutdownInv.capturedWell (hcall : s.provingCalls.get? n = some call)
    (hlease : s.ownerSubagentShutdownLeases.get? call.ownerId = some lease)
    (hid : call.leaseId = lease.id) : s.CapturedWell call.ownerId call :=
  (h.leased hlease).calls hcall rfl hid

theorem startProof_cases (runner : ResumeRunner) (owner : Text) (leaseId : Nat) :
    s.startProof runner owner leaseId = s ∨
      ∃ lease moved captured, s.ownerSubagentShutdownLeases.get? owner = some lease ∧
        lease.id = leaseId ∧
        ¬(lease.phase = .proved ∧ lease.proof.any (·.confirmed) = true) ∧
        (s.setLease owner { lease with phase := .proving }).ShutdownInv ∧
        Moves (s.setLease owner { lease with phase := .proving }) moved ∧
        moved.CapturedWell owner ⟨owner, leaseId, captured, []⟩ ∧
        s.startProof runner owner leaseId = { moved with
          provingSeq := moved.provingSeq + 1
          provingCalls :=
            moved.provingCalls.set (moved.provingSeq + 1) ⟨owner, leaseId, captured, []⟩ } := by
  unfold startProof
  cases hlease : s.ownerSubagentShutdownLeases.get? owner with
  | none => exact .inl rfl
  | some lease =>
    dsimp only
    split
    · exact .inl rfl
    next hid =>
    rw [not_not] at hid
    split
    · exact .inl rfl
    next hunproved =>
    have hproving := setLease_inv h hlease .proving lease.proof fun {found} hfound hconfirmed => by
      obtain ⟨hphase, -⟩ := (h.leased hlease).confirmed hfound hconfirmed
      exact absurd ⟨hphase, by rw [hfound]; exact hconfirmed⟩ hunproved
    obtain ⟨hmoves, hwell⟩ :=
      foldl_proveTarget_keeps runner lease lease.targets [] hproving (get?_set_self ..) (.nil _)
    exact .inr ⟨lease, _, _, rfl, hid, hunproved, hproving, hmoves, hid ▸ hwell, rfl⟩

theorem startProof_inv (runner : ResumeRunner) (owner : Text) (leaseId : Nat) :
    (s.startProof runner owner leaseId).ShutdownInv := by
  obtain heq | ⟨lease, moved, captured, -, hid, -, hproving, hmoves, hwell, heq⟩ :=
    startProof_cases h runner owner leaseId
  · rwa [heq]
  · have hnext := hmoves.shutdownInv hproving
    rw [heq]
    refine setCalls_inv hnext _ ?_ ?_
    · intro n call hcall
      rw [get?_set] at hcall
      split at hcall
      · cases hcall
        have hle := hproving.numbered (get?_set_self ..)
        exact hid ▸ hmoves.same.leaseSeq ▸ hle
      · exact hnext.calls hcall
    · intro n call lease' hcall hlease' hid'
      rw [get?_set] at hcall
      split at hcall
      · cases hcall
        exact hwell
      · exact hnext.capturedWell hcall hlease' hid'

theorem promiseSettles_inv (n : Nat) (jobId : Text) (g : Generation) :
    (s.promiseSettles n jobId g).ShutdownInv := by
  unfold promiseSettles
  cases hcall : s.provingCalls.get? n with
  | none => exact h
  | some call =>
    dsimp only
    split
    · next hsettled =>
      refine setCalls_inv h s.provingSeq ?_ ?_
      · intro n' call' hcall'
        rw [get?_set] at hcall'
        split at hcall'
        · cases hcall'
          show call.leaseId ≤ s.ownerSubagentShutdownSeq
          exact h.calls hcall
        · exact h.calls hcall'
      · intro n' call' lease hcall' hlease hid
        rw [get?_set] at hcall'
        split at hcall'
        · cases hcall'
          have hwell := h.capturedWell hcall hlease hid
          refine ⟨hwell.known, hwell.captured, fun {id} hmem => ?_⟩
          rcases mem_insert_iff.mp hmem with rfl | hold
          · exact ⟨g, hsettled⟩
          · exact hwell.settled hold
        · exact h.capturedWell hcall' hlease hid
    · exact h

omit h

theorem proofOf_confirmed (hproof : s.proofOf call deadline = some proof)
    (hconfirmed : proof.confirmed = true) :
    ∃ lease, s.ownerSubagentShutdownLeases.get? call.ownerId = some lease ∧
      lease.id = call.leaseId ∧ lease.phase = .proving ∧
      proof.ownerId = call.ownerId ∧ proof.leaseId = lease.id ∧
      ∀ target ∈ lease.targets,
        s.hasTerminalShutdownEvidence call.ownerId lease call.settled target = true := by
  unfold proofOf at hproof
  cases hlease : s.ownerSubagentShutdownLeases.get? call.ownerId with
  | none =>
    rw [hlease] at hproof
    cases hproof
  | some lease =>
    rw [hlease] at hproof
    dsimp only at hproof
    split at hproof
    · cases hproof
    next hcurrent =>
    push Not at hcurrent
    obtain ⟨hid, hphase⟩ := hcurrent
    refine ⟨lease, rfl, hid, hphase, ?_⟩
    cases hproof
    refine ⟨rfl, rfl, ?_⟩
    have hreason := of_decide_eq_true hconfirmed
    split at hreason
    · next hnone =>
      intro target htarget
      have hfilter := map_eq_nil_iff.mp hnone
      have hnot := filter_eq_nil_iff.mp hfilter target htarget
      simpa using hnot
    · split at hreason <;> cases hreason

include h

theorem proofOf_closed (hcall : s.provingCalls.get? n = some call)
    (hproof : s.proofOf call deadline = some proof) (hconfirmed : proof.confirmed = true) :
    s.Closed call.ownerId := by
  obtain ⟨lease, hlease, hid, -, -, -, hevidence⟩ := proofOf_confirmed hproof hconfirmed
  have hleased := h.leased hlease
  have hwell := h.capturedWell hcall hlease hid.symm
  constructor
  · intro subagentId record hrecord howned
    cases hterminal : record.status.terminal with
    | true => rfl
    | false =>
      obtain ⟨target, htarget, rfl⟩ := hleased.records hrecord howned hterminal
      have hfound := hevidence target htarget
      simp [hasTerminalShutdownEvidence, hrecord, hterminal] at hfound
  · intro g job subagentId hrun
    obtain ⟨⟨target, htarget, rfl⟩, hbacks⟩ := hleased.runs hrun
    have hfound := hevidence target htarget
    simp only [hasTerminalShutdownEvidence, Bool.and_eq_true, all_eq_true] at hfound
    have hsettled := (hfound.2 job.id hbacks).1
    obtain ⟨g', hcaptured, hnot⟩ := hwell.settled (contains_iff_mem.mp hsettled)
    rw [hwell.captured hcaptured hrun rfl] at hrun
    exact hnot hrun.unsettled

theorem eraseCall_inv (n : Nat) :
    ShutdownInv { s with provingCalls := s.provingCalls.erase n } := by
  have hold : ∀ {n' call}, (s.provingCalls.erase n).get? n' = some call →
      s.provingCalls.get? n' = some call := by
    intro n' call hcall
    rw [get?_erase] at hcall
    split at hcall
    · cases hcall
    · exact hcall
  exact setCalls_inv h s.provingSeq (fun hcall => h.calls (hold hcall))
    fun hcall hlease hid => h.capturedWell (hold hcall) hlease hid

theorem returnProof_inv (n : Nat) (deadline : Bool) : (s.returnProof n deadline).ShutdownInv := by
  unfold returnProof
  cases hcall : s.provingCalls.get? n with
  | none => exact h
  | some call =>
    dsimp only
    split
    · exact h
    have herased := eraseCall_inv h n
    cases hproof : s.proofOf call deadline with
    | none => exact herased
    | some proof =>
      cases hlease : s.ownerSubagentShutdownLeases.get? call.ownerId with
      | none => exact herased
      | some lease =>
        refine setLease_inv herased hlease .proved (some proof) fun hfound hconfirmed => ⟨rfl, ?_⟩
        cases hfound
        have hclosed := proofOf_closed h hcall hproof hconfirmed
        exact hclosed.narrows (.of_table rfl rfl fun hrecord => hrecord)

omit h

theorem finish_table (s : SubagentManager) (owner : Text) (commit : Bool) :
    (s.manager.finishOwnerSubagentShutdown owner commit).table = s.manager.table :=
  (step_onQueue (m := s.manager) (s := .finishOwnerSubagentShutdown owner commit) rfl).1

theorem finishOwnerSubagentShutdown_inv (h : s.ShutdownInv) (owner : Text) (leaseId : Nat)
    (commit : Bool) : (s.finishOwnerSubagentShutdown owner leaseId commit).ShutdownInv := by
  unfold finishOwnerSubagentShutdown
  cases hlease : s.ownerSubagentShutdownLeases.get? owner with
  | none => exact h
  | some lease =>
    dsimp only
    split
    · exact h
    have htable := finish_table s owner (commit && lease.proof.any (·.confirmed))
    generalize s.manager.finishOwnerSubagentShutdown owner
      (commit && lease.proof.any (·.confirmed)) = manager at htable
    -- whether it is purged or not, records only leave
    suffices hpurged : ∀ purged : SubagentManager, purged.metadata = s.metadata →
        purged.provingCalls = s.provingCalls →
        purged.ownerSubagentShutdownSeq = s.ownerSubagentShutdownSeq →
        (∀ {subagentId record}, purged.subagentRecords.get? subagentId = some record →
          s.subagentRecords.get? subagentId = some record) →
        ShutdownInv { purged with
          manager
          ownerSubagentShutdownLeases := s.ownerSubagentShutdownLeases.erase owner } by
      split
      · refine hpurged _ rfl rfl rfl fun hrecord => ?_
        exact (get?_retain_eq_some.mp hrecord).1
      · exact hpurged s rfl rfl rfl fun hrecord => hrecord
    intro purged hmeta hcalls hseq hrecords
    have hold : ∀ {owner' lease'}, (s.ownerSubagentShutdownLeases.erase owner).get? owner' =
        some lease' → s.ownerSubagentShutdownLeases.get? owner' = some lease' := by
      intro owner' lease' hlease'
      rw [get?_erase] at hlease'
      split at hlease'
      · cases hlease'
      · exact hlease'
    refine ⟨⟨htable ▸ h.sound.live, ?_⟩, ?_, ?_, ?_⟩
    · intro subagentId record g hrecord hg
      rw [htable]
      exact h.sound.records (hrecords hrecord) hg
    · intro owner' lease' hlease'
      exact (h.leased (hold hlease')).narrows_same (.of_table htable hmeta hrecords) hcalls
    · intro owner' lease' hlease'
      exact hseq ▸ h.numbered (hold hlease')
    · intro n call hcall
      exact hseq ▸ h.calls (hcalls ▸ hcall)

/-- A lease that begins collects every run of its owner's subagents that has not ended. -/
def BeginsWithRuns (s : SubagentManager) : SubagentStep → Prop
  | .beginOwnerSubagentShutdown owner =>
    owner = [] ∨ s.ownerSubagentShutdownLeases.has owner = true ∨ s.collectsRuns owner = true
  | _ => True

theorem step_shutdownInv (h : s.ShutdownInv) {step : SubagentStep}
    (hguard : s.BeginsWithRuns step) :
    (s.step step).ShutdownInv := by
  cases hstep : step.onLeases with
  | false => exact (step_moves h.sound hstep).shutdownInv h
  | true =>
    cases step with
    | beginOwnerSubagentShutdown owner => exact beginOwnerSubagentShutdown_inv h hguard
    | startProof runner owner leaseId => exact startProof_inv h runner owner leaseId
    | promiseSettles call jobId g => exact promiseSettles_inv h call jobId g
    | returnProof call deadline => exact returnProof_inv h call deadline
    | finishOwnerSubagentShutdown owner leaseId commit =>
      exact finishOwnerSubagentShutdown_inv h owner leaseId commit
    | _ => cases hstep

theorem create_shutdownInv (now : Int) (retentionMs maxRunningJobs maxOwners : Nat) :
    (create now retentionMs maxRunningJobs maxOwners).ShutdownInv where
  sound := create_sound now retentionMs maxRunningJobs maxOwners
  leased h := by cases h
  numbered h := by cases h
  calls h := by cases h

variable (s)

theorem returnProof_cases (n : Nat) (deadline : Bool) :
    (s.returnProof n deadline).manager = s.manager ∧
      ((s.returnProof n deadline).ownerSubagentShutdownLeases = s.ownerSubagentShutdownLeases ∨
        ∃ call lease proof, s.provingCalls.get? n = some call ∧
          s.ownerSubagentShutdownLeases.get? call.ownerId = some lease ∧ lease.phase = .proving ∧
          s.proofOf call deadline = some proof ∧
          (s.returnProof n deadline).ownerSubagentShutdownLeases =
            s.ownerSubagentShutdownLeases.set call.ownerId
              { lease with phase := .proved, proof := some proof }) := by
  unfold returnProof
  cases hcall : s.provingCalls.get? n with
  | none => exact ⟨rfl, .inl rfl⟩
  | some call =>
    dsimp only
    split
    · exact ⟨rfl, .inl rfl⟩
    cases hproof : s.proofOf call deadline with
    | none => exact ⟨rfl, .inl rfl⟩
    | some proof =>
      cases hlease : s.ownerSubagentShutdownLeases.get? call.ownerId with
      | none => exact ⟨rfl, .inl rfl⟩
      | some lease =>
        refine ⟨rfl, .inr ⟨call, lease, proof, rfl, hlease, ?_, hproof, rfl⟩⟩
        unfold proofOf at hproof
        rw [hlease] at hproof
        dsimp only at hproof
        split at hproof
        · cases hproof
        next hcurrent =>
        push Not at hcurrent
        exact hcurrent.2

theorem promiseSettles_frame (n : Nat) (jobId : Text) (g : Generation) :
    (s.promiseSettles n jobId g).manager = s.manager ∧
      (s.promiseSettles n jobId g).ownerSubagentShutdownLeases = s.ownerSubagentShutdownLeases := by
  unfold promiseSettles
  cases s.provingCalls.get? n with
  | none => exact ⟨rfl, rfl⟩
  | some call =>
    dsimp only
    split <;> exact ⟨rfl, rfl⟩

variable {s}

include h

theorem step_keeps_confirmed (hlease : s.ownerSubagentShutdownLeases.get? owner = some lease)
    (hproof : lease.proof = some proof) (hconfirmed : proof.confirmed = true) {step : SubagentStep}
    (hstep : ∀ commit, step ≠ .finishOwnerSubagentShutdown owner lease.id commit) :
    (s.step step).ownerSubagentShutdownLeases.get? owner = some lease := by
  have hphase := ((h.leased hlease).confirmed hproof hconfirmed).1
  cases honLeases : step.onLeases with
  | false =>
    rw [(step_moves h.sound honLeases).same.leases]
    exact hlease
  | true =>
    cases step with
    | beginOwnerSubagentShutdown owner' =>
      show (s.beginOwnerSubagentShutdown owner').ownerSubagentShutdownLeases.get? owner = _
      unfold beginOwnerSubagentShutdown
      split
      · exact hlease
      next hnew =>
      have hother : owner ≠ owner' := by
        rintro rfl
        exact hnew (.inr (has_iff.mpr ⟨lease, hlease⟩))
      exact (get?_set_ne _ _ hother).trans hlease
    | startProof runner owner' leaseId =>
      show (s.startProof runner owner' leaseId).ownerSubagentShutdownLeases.get? owner = _
      rcases startProof_cases h runner owner' leaseId with
        hsame | ⟨lease', moved, captured, hlease', -, hunproved, -, hmoves, -, heq⟩
      · rw [hsame]
        exact hlease
      · have hother : owner ≠ owner' := by
          rintro rfl
          rw [hlease] at hlease'
          cases hlease'
          exact hunproved ⟨hphase, by rw [hproof]; exact hconfirmed⟩
        rw [heq, hmoves.same.leases, setLease_get?, if_neg hother]
        exact hlease
    | promiseSettles call jobId g =>
      exact (congrArg (get? · owner) (s.promiseSettles_frame call jobId g).2).trans hlease
    | returnProof call deadline =>
      show (s.returnProof call deadline).ownerSubagentShutdownLeases.get? owner = _
      obtain ⟨-, hsame | ⟨proving, lease', proof', -, hlease', hproving, -, hleases⟩⟩ :=
        s.returnProof_cases call deadline
      · rw [hsame]
        exact hlease
      · have hother : owner ≠ proving.ownerId := by
          rintro rfl
          rw [hlease] at hlease'
          cases hlease'
          rw [hphase] at hproving
          cases hproving
        rw [hleases, get?_set_ne _ _ hother]
        exact hlease
    | finishOwnerSubagentShutdown owner' leaseId commit =>
      show (s.finishOwnerSubagentShutdown owner' leaseId commit).ownerSubagentShutdownLeases.get?
        owner = _
      unfold finishOwnerSubagentShutdown
      cases hlease' : s.ownerSubagentShutdownLeases.get? owner' with
      | none => exact hlease
      | some lease' =>
        dsimp only
        split
        · exact hlease
        next hid =>
        rw [not_not] at hid
        have hother : owner ≠ owner' := by
          rintro rfl
          rw [hlease] at hlease'
          cases hlease'
          exact hstep commit (by rw [hid])
        exact (get?_erase_ne _ hother).trans hlease
    | _ => cases honLeases

theorem step_adds_no_job (hlease : s.ownerSubagentShutdownLeases.get? owner = some lease)
    {step : SubagentStep}
    {job' : AsyncJob} (hjob' : (s.step step).manager.table.objects.get? g = some job')
    (howned : job'.ownerId = some owner) : ∃ job, s.manager.table.objects.get? g = some job := by
  have hmoved : ∀ {moved : SubagentManager} {lease' owner'},
      Moves (s.setLease owner' lease') moved → moved.manager.table.objects.get? g = some job' →
        ∃ job, s.manager.table.objects.get? g = some job := by
    intro moved lease' owner' hmoves hjob'
    cases hjob : s.manager.table.objects.get? g with
    | some job => exact ⟨job, rfl⟩
    | none =>
      have hopen := hmoves.added hjob' hjob
      have hfenced : (s.setLease owner' lease').isFenced (some owner) = true :=
        has_set.mpr (.inr (has_iff.mpr ⟨lease, hlease⟩))
      rw [howned, hfenced] at hopen
      cases hopen
  have hsame : ∀ {t : JobTable}, t = s.manager.table → t.objects.get? g = some job' →
      ∃ job, s.manager.table.objects.get? g = some job := by
    rintro t rfl hjob'
    exact ⟨job', hjob'⟩
  cases honLeases : step.onLeases with
  | false =>
    obtain hjob | ⟨job, hjob⟩ := Option.eq_none_or_eq_some (s.manager.table.objects.get? g)
    · have hopen := (step_moves h.sound honLeases).added hjob' hjob
      rw [howned, isFenced_of_lease hlease] at hopen
      cases hopen
    · exact ⟨job, hjob⟩
  | true =>
    cases step with
    | beginOwnerSubagentShutdown owner' =>
      refine hsame ?_ hjob'
      show (s.beginOwnerSubagentShutdown owner').manager.table = _
      unfold beginOwnerSubagentShutdown
      split
      · rfl
      · exact begin_table s owner'
    | startProof runner owner' leaseId =>
      rcases startProof_cases h runner owner' leaseId with heq | ⟨lease', moved, captured, -, -, -,
          -, hmoves, -, heq⟩
      · refine hsame ?_ hjob'
        show (s.startProof runner owner' leaseId).manager.table = _
        rw [heq]
      · refine hmoved hmoves ?_
        change (s.startProof runner owner' leaseId).manager.table.objects.get? _ = _ at hjob'
        rwa [heq] at hjob'
    | promiseSettles call jobId g' =>
      refine hsame ?_ hjob'
      exact congrArg table (s.promiseSettles_frame call jobId g').1
    | returnProof call deadline =>
      refine hsame ?_ hjob'
      exact congrArg table (s.returnProof_cases call deadline).1
    | finishOwnerSubagentShutdown owner' leaseId commit =>
      refine hsame ?_ hjob'
      show (s.finishOwnerSubagentShutdown owner' leaseId commit).manager.table = _
      unfold finishOwnerSubagentShutdown
      cases s.ownerSubagentShutdownLeases.get? owner' with
      | none => rfl
      | some lease' =>
        dsimp only
        split
        · rfl
        · exact finish_table s owner' _
    | _ => cases honLeases

omit h

/-- The subagents of an owner have ended, and none can start. -/
structure ShutDown (s : SubagentManager) (owner : Text) : Prop extends s.Closed owner where
  register : ∀ {launch token}, launch.ownerId = some owner →
    s.register launch token = .error .ownerSubagentShutdown
  resume : ∀ {runner subagentId record message}, record.ownerId = some owner →
    s.resumeRecord runner subagentId record message = s ∧
      s.startResume runner subagentId record message = .error .ownerSubagentShutdown
  step : ∀ {step g job'}, (s.step step).manager.table.objects.get? g = some job' →
    job'.ownerId = some owner → ∃ job, s.manager.table.objects.get? g = some job

include h

theorem ShutdownInv.shutDown (hlease : s.ownerSubagentShutdownLeases.get? owner = some lease)
    (hproof : lease.proof = some proof) (hconfirmed : proof.confirmed = true) :
    s.ShutDown owner where
  toClosed := ((h.leased hlease).confirmed hproof hconfirmed).2
  register howned := by
    unfold SubagentManager.register
    rw [howned, isFenced_of_lease hlease]
    rfl
  resume howned := by
    unfold resumeRecord startResume
    rw [howned, isFenced_of_lease hlease]
    exact ⟨rfl, rfl⟩
  step := step_adds_no_job h hlease

theorem run_keeps_confirmed (hlease : s.ownerSubagentShutdownLeases.get? owner = some lease)
    (hproof : lease.proof = some proof) (hconfirmed : proof.confirmed = true)
    {steps : List SubagentStep} (hruns : Guarded step BeginsWithRuns s steps)
    (hunfinished : ∀ commit, .finishOwnerSubagentShutdown owner lease.id commit ∉ steps) :
    (steps.foldl step s).ShutdownInv ∧
      (steps.foldl step s).ownerSubagentShutdownLeases.get? owner = some lease := by
  induction steps generalizing s with
  | nil => exact ⟨h, hlease⟩
  | cons x rest ih =>
    refine ih (step_shutdownInv h hruns.1) ?_ hruns.2 fun commit hmem =>
      hunfinished commit (mem_cons_of_mem x hmem)
    refine step_keeps_confirmed h hlease hproof hconfirmed fun commit heq => ?_
    exact hunfinished commit (heq ▸ mem_cons_self)

omit h

/-- Once a call has returned a confirmed proof, and until its lease is finished, the subagents of
the owner have ended and none can start, where each lease was begun with every run of its owner's
subagents that had not ended. -/
theorem shutDown_after_confirmed {now : Int} {retentionMs maxRunningJobs maxOwners n : Nat}
    {before after : List SubagentStep} {deadline : Bool} {call : ProvingCall}
    {proof : OwnerSubagentShutdownProof}
    (hruns : Guarded step BeginsWithRuns (create now retentionMs maxRunningJobs maxOwners)
      (before ++ .returnProof n deadline :: after))
    (hcall : (before.foldl step (create now retentionMs maxRunningJobs maxOwners)).provingCalls.get?
      n = some call)
    (hready : proofReady call deadline = true)
    (hproof : (before.foldl step
      (create now retentionMs maxRunningJobs maxOwners)).proofOf call deadline = some proof)
    (hconfirmed : proof.confirmed = true)
    (hunfinished : ∀ commit,
      .finishOwnerSubagentShutdown proof.ownerId proof.leaseId commit ∉ after) :
    ShutDown ((before ++ .returnProof n deadline :: after).foldl step
      (create now retentionMs maxRunningJobs maxOwners)) proof.ownerId := by
  obtain ⟨hbefore, hreturn, hafter⟩ := Guarded.append.mp hruns
  have hinv := Guarded.invariant (I := fun _ s => ShutdownInv s)
    (fun _ _ h hguard => step_shutdownInv h hguard)
    (create_shutdownInv now retentionMs maxRunningJobs maxOwners) hbefore
  rw [foldl_append]
  generalize before.foldl step (create now retentionMs maxRunningJobs maxOwners) = s at *
  obtain ⟨lease, hlease, -, -, howner, hid, -⟩ := proofOf_confirmed hproof hconfirmed
  have hreturned :
      (s.step (.returnProof n deadline)).ownerSubagentShutdownLeases.get? proof.ownerId =
      some { lease with phase := .proved, proof := some proof } := by
    simp only [SubagentManager.step, returnProof, hcall, hready, hproof, hlease, Bool.not_true,
      Bool.false_eq_true, if_false]
    rw [setLease_get?, if_pos howner]
  obtain ⟨hend, hkept⟩ :=
    run_keeps_confirmed (step_shutdownInv hinv hreturn) hreturned rfl hconfirmed
    hafter fun commit => hid ▸ hunfinished commit
  exact hend.shutDown hkept rfl hconfirmed

/-- A subagent of the owner `o` is launched. -/
def launchOwned : SubagentStep :=
  .launchSubagent ⟨some "a".toList, some "o".toList, some "s".toList⟩ none "s".toList none

/-- The subagent is cancelled by the call that proves the shutdown, and its run ends. -/
def provenRun : List SubagentStep :=
  [launchOwned, .beginOwnerSubagentShutdown "o".toList, .startProof (fun _ _ => none) "o".toList 1,
    .runEnds (fun _ _ => none) (.job 1) (.completed []), .promiseSettles 1 "a".toList (.job 1)]

def provenProof : OwnerSubagentShutdownProof where
  ownerId := "o".toList
  leaseId := 1
  reason := .confirmed
  targets := [⟨"s".toList, some "a".toList, .record⟩]
  terminalIds := ["s".toList]
  unresolvedIds := []

theorem shutDown_after_confirmed_provenRun :
    ShutDown ((provenRun ++ SubagentStep.returnProof 1 false :: [launchOwned]).foldl step
      (create 0 0 1 1)) "o".toList := by
  have hguard : Guarded step BeginsWithRuns (create 0 0 1 1)
      (provenRun ++ .returnProof 1 false :: [launchOwned]) := by
    refine ⟨trivial, .inr (.inr (by decide +kernel)), ?_⟩
    exact ⟨trivial, trivial, trivial, trivial, trivial, trivial⟩
  have hcall : (provenRun.foldl step (create 0 0 1 1)).provingCalls.get? 1 =
      some ⟨"o".toList, 1, [("a".toList, .job 1)], ["a".toList]⟩ := by decide +kernel
  have hproof : (provenRun.foldl step (create 0 0 1 1)).proofOf
      ⟨"o".toList, 1, [("a".toList, .job 1)], ["a".toList]⟩ false = some provenProof := by
    decide +kernel
  exact shutDown_after_confirmed hguard hcall (by decide) hproof (by decide)
    fun commit hmem => by simp [launchOwned] at hmem

/-- The owner's jobs are cancelled, which evicts their records before their runs have ended. -/
def evictedRun : List SubagentStep :=
  [launchOwned, .cancelAll (fun _ _ => none) (some "o".toList),
    .beginOwnerSubagentShutdown "o".toList, .startProof (fun _ _ => none) "o".toList 1]

/-- The proof is confirmed while the run of the subagent has not ended. -/
theorem confirmed_before_evictedRun_ended :
    ((evictedRun.foldl step (create 0 0 1 1)).provingCalls.get? 1).any (fun call =>
      proofReady call false &&
        ((evictedRun.foldl step (create 0 0 1 1)).proofOf call false).any (·.confirmed)) = true ∧
    ∃ job, ((evictedRun ++ [SubagentStep.returnProof 1 false]).foldl step
      (create 0 0 1 1)).PendingRun "o".toList (.job 1) job "s".toList := by
  refine ⟨by decide +kernel, ?_⟩
  refine ⟨⟨"a".toList, .job 1, .cancelled, some "o".toList, some 0⟩, ?_, ?_, ?_, ?_⟩
  · decide +kernel
  · decide +kernel
  · decide +kernel
  · decide +kernel

end SubagentManager

end Vibrato.Jobs
