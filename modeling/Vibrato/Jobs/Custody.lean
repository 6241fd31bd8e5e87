import Vibrato.Jobs.DeadLetters
import Vibrato.Jobs.JobIds

namespace Vibrato.Jobs

open Lib List OrderedMap JobTable DeliveryQueue

def JobTable.Finished (t : JobTable) (g : Generation) : Prop :=
  ∃ job, t.objects.get? g = some job ∧ (job.status = .completed ∨ job.status = .failed)

instance (t : JobTable) (g : Generation) : Decidable (t.Finished g) :=
  decidable_of_iff ((t.objects.get? g).any
      (fun job => decide (job.status = .completed ∨ job.status = .failed)) = true)
    (by simp [JobTable.Finished, Option.any_eq_true])

namespace DeliveryQueue

variable {q q' : DeliveryQueue} {t : JobTable}

variable (q)

def pending : List AsyncJobDelivery := q.deliveries ++ q.inFlightDeliveries

/-- The generations that an id stands for: that of its record, and those of its deliveries. -/
def holders (t : JobTable) (id : Text) : List Generation :=
  (t.jobs.get? id).toList ++ (q.pending.filter (·.jobId = id)).map (·.generation)

variable {q}

theorem mem_holders {id : Text} {g : Generation} : g ∈ q.holders t id ↔
    t.jobs.get? id = some g ∨ ∃ d ∈ q.pending, d.jobId = id ∧ d.generation = g := by
  simp [holders, and_assoc]

def Held (q : DeliveryQueue) (t : JobTable) (counted handed ack : List Generation)
    (g : Generation) : Prop :=
  (∃ d ∈ q.pending, d.generation = g) ∨ g ∈ handed ∨ g ∈ ack ∨ q.InLedger t counted g

end DeliveryQueue

/-- `handed` are the generations whose callback has returned and `ack` those that were
acknowledged. -/
structure Custody (t : JobTable) (q : DeliveryQueue) (handed ack : List Generation) : Prop where
  table : t.WellFormed
  records : ∀ {g job}, t.objects.get? g = some job → job.status = .running →
    t.jobs.get? job.id = some g
  pending : ∀ {d}, d ∈ q.pending →
    (∃ job, t.objects.get? d.generation = some job ∧ job.id = d.jobId) ∧
    t.Finished d.generation ∧
    (t.jobs.get? d.jobId = none ∨ t.jobs.get? d.jobId = some d.generation)
  finished : ∀ {g}, g ∈ handed → t.Finished g
  distinct : (q.pending.map (·.generation) ++ handed).Nodup
  suppressed : ∀ {g}, g ∈ q.suppressedDeliveries → g ∈ ack
  suppressedIds : ∀ {g id}, q.suppressedDeliveryJobIds.get? g = some id →
    ∀ holder ∈ q.holders t id, holder ∈ ack
  held : ∃ counted, q.Ledger t counted ∧ ∀ {g}, t.Finished g → q.Held t counted handed ack g

namespace Custody

variable {t t' : JobTable} {q q' : DeliveryQueue} {handed handed' ack ack' : List Generation}

theorem mono (h : Custody t q handed ack) (hack : ∀ g ∈ ack, g ∈ ack') :
    Custody t q handed ack' := by
  obtain ⟨counted, hledger, hheld⟩ := h.held
  refine ⟨h.table, h.records, h.pending, h.finished, h.distinct, fun hg => hack _ (h.suppressed hg),
    fun hid holder hmem => hack _ (h.suppressedIds hid holder hmem), counted, hledger, fun hg => ?_⟩
  rcases hheld hg with hpending | hhanded | hmem | hin
  · exact .inl hpending
  · exact .inr (.inl hhanded)
  · exact .inr (.inr (.inl (hack _ hmem)))
  · exact .inr (.inr (.inr hin))

variable {id : Text} {g g' : Generation} {index : Nat} {d : AsyncJobDelivery} {status : JobStatus}
    {job : AsyncJob}

variable (h : Custody t q handed ack)
include h

theorem acknowledged (hacked : q.isDeliveryAcknowledged id g = true)
    (hholder : g ∈ q.holders t id) : g ∈ ack := by
  unfold isDeliveryAcknowledged at hacked
  rw [Bool.or_eq_true, contains_iff_mem, contains_iff_mem] at hacked
  rcases hacked with hgen | hid
  · exact h.suppressed hgen
  · obtain ⟨g', hg'⟩ := mem_values.mp hid
    exact h.suppressedIds hg' g hholder

theorem move (hdistinct : (q'.pending.map (·.generation) ++ handed').Nodup)
    (hpending : ∀ d' ∈ q'.pending, ∃ d ∈ q.pending, d'.generation = d.generation ∧
      d'.jobId = d.jobId)
    (hhanded : ∀ g ∈ handed', g ∈ handed ∨ ∃ d ∈ q.pending, d.generation = g)
    (hkept : ∀ g ∈ handed, g ∈ handed')
    (hsuppressed : q'.suppressedDeliveries = q.suppressedDeliveries)
    (hids : q'.suppressedDeliveryJobIds = q.suppressedDeliveryJobIds)
    (hledger : ∀ {counted}, q.Ledger t counted → ∃ counted', q'.Ledger t counted' ∧
      (∀ g, q.InLedger t counted g → q'.InLedger t counted' g) ∧
      ∀ d ∈ q.pending, q'.Held t counted' handed' ack d.generation) :
    Custody t q' handed' ack := by
  obtain ⟨counted, hq, hheld⟩ := h.held
  obtain ⟨counted', hq', hin, hmoved⟩ := hledger hq
  refine ⟨h.table, h.records, ?_, ?_, hdistinct, ?_, ?_, counted', hq', ?_⟩
  · intro d' hd'
    obtain ⟨d, hd, hgen, hid⟩ := hpending d' hd'
    rw [hgen, hid]
    exact h.pending hd
  · intro g hg
    rcases hhanded g hg with hold | ⟨d, hd, rfl⟩
    · exact h.finished hold
    · exact (h.pending hd).2.1
  · rw [hsuppressed]
    exact h.suppressed
  · intro g id hget holder hholder
    rw [hids] at hget
    apply h.suppressedIds hget
    rw [mem_holders] at hholder ⊢
    refine hholder.imp_right fun ⟨d', hd', hid', hgen'⟩ => ?_
    obtain ⟨d, hd, hgen, hid⟩ := hpending d' hd'
    exact ⟨d, hd, hid ▸ hid', hgen ▸ hgen'⟩
  · intro g hg
    rcases hheld hg with ⟨d, hd, rfl⟩ | hold | hack | hold
    · exact hmoved d hd
    · exact .inr (.inl (hkept g hold))
    · exact .inr (.inr (.inl hack))
    · exact .inr (.inr (.inr (hin g hold)))

theorem same (hsame : DeliveryQueue.SameDeliveries q q')
    (hledger : ∀ {counted}, q.Ledger t counted → ∃ counted', q'.Ledger t counted' ∧
      ∀ g, q.InLedger t counted g → q'.InLedger t counted' g) : Custody t q' handed ack := by
  have hpending : q'.pending = q.pending := by
    unfold DeliveryQueue.pending
    rw [hsame.deliveries, hsame.inFlight]
  refine h.move (by rw [hpending]; exact h.distinct) ?_ (fun _ hg => .inl hg) (fun _ hg => hg)
    hsame.suppressed hsame.suppressedJobIds ?_
  · rw [hpending]
    exact fun d hd => ⟨d, hd, rfl, rfl⟩
  · intro counted hq
    obtain ⟨counted', hq', hin⟩ := hledger hq
    refine ⟨counted', hq', hin, fun d hd => .inl ⟨d, ?_, rfl⟩⟩
    rw [hpending]
    exact hd

omit h

theorem dropAcknowledged (h : Custody t q handed ack) :
    Custody t q.dropAcknowledged handed ack := by
  have hsub : q.dropAcknowledged.pending.Sublist q.pending :=
    filter_sublist.append_right _
  refine h.move (h.distinct.sublist ((hsub.map _).append_right _))
    (fun d hd => ⟨d, hsub.subset hd, rfl, rfl⟩) (fun _ hg => .inl hg) (fun _ hg => hg) rfl rfl ?_
  intro counted hq
  refine ⟨counted, ⟨hq.counts, hq.letters⟩, fun _ hin => hin, fun d hd => ?_⟩
  cases hacked : q.isDeliveryAcknowledged d.jobId d.generation with
  | true =>
    refine .inr (.inr (.inl (h.acknowledged hacked ?_)))
    exact mem_holders.mpr (.inr ⟨d, hd, rfl, rfl⟩)
  | false =>
    refine .inl ⟨d, ?_, rfl⟩
    rcases mem_append.mp hd with hqueued | hflight
    · exact mem_append_left _ (mem_filter.mpr ⟨hqueued, by rw [hacked]; rfl⟩)
    · exact mem_append_right _ hflight

theorem perm_eraseIdx {α : Type} {l : List α} {i : Nat} {a : α} (h : l[i]? = some a) :
    (a :: l.eraseIdx i).Perm l := by
  obtain ⟨hi, rfl⟩ := List.getElem?_eq_some_iff.mp h
  exact getElem_cons_eraseIdx_perm hi

theorem beginDelivery (h : Custody t q handed ack) (hd : q.deliveries[index]? = some d) :
    Custody t ({ q with deliveries := q.deliveries.eraseIdx index }.beginDelivery t d) handed
      ack := by
  have hmem : d ∈ q.pending := mem_append_left _ (mem_of_getElem? hd)
  obtain ⟨-, -, hrecord⟩ := h.pending hmem
  have hsub : (q.deliveries.eraseIdx index ++ q.inFlightDeliveries).Sublist q.pending :=
    (eraseIdx_sublist _ _).append_right _
  unfold DeliveryQueue.beginDelivery
  split
  · next hsuperseded =>
    obtain ⟨job, hget, hne⟩ := (Option.any_eq_true _ _).mp hsuperseded
    obtain ⟨hjob, -, -⟩ := h.table.get_eq_some hget
    rw [hjob] at hrecord
    rcases hrecord with hnone | hsame
    · cases hnone
    · exact absurd (Option.some.inj hsame) (of_decide_eq_true hne)
  split
  · next hacked =>
    refine h.move (h.distinct.sublist ((hsub.map _).append_right _))
      (fun d' hd' => ⟨d', hsub.subset hd', rfl, rfl⟩) (fun _ hg => .inl hg)
        (fun _ hg => hg) rfl rfl ?_
    intro counted hq
    refine ⟨counted, ⟨hq.counts, hq.letters⟩, fun _ hin => hin, fun d' hd' => ?_⟩
    by_cases heq : d' = d
    · rw [heq]
      refine .inr (.inr (.inl (h.acknowledged hacked ?_)))
      exact DeliveryQueue.mem_holders.mpr (.inr ⟨d, hmem, rfl, rfl⟩)
    · refine .inl ⟨d', ?_, rfl⟩
      refine mem_append.mpr ((mem_append.mp hd').imp_left fun hqueued => ?_)
      exact (mem_cons.mp ((perm_eraseIdx hd).mem_iff.mpr hqueued)).resolve_left heq
  · have hperm : (q.deliveries.eraseIdx index ++ (q.inFlightDeliveries ++ [d])).Perm q.pending := by
      rw [← append_assoc]
      refine perm_append_comm.trans ?_
      exact (perm_eraseIdx hd).append_right q.inFlightDeliveries
    refine h.move (((hperm.map _).append_right _).nodup_iff.mpr h.distinct)
      (fun d' hd' => ⟨d', hperm.mem_iff.mp hd', rfl, rfl⟩) (fun _ hg => .inl hg) (fun _ hg => hg)
      rfl rfl ?_
    intro counted hq
    exact ⟨counted, ⟨hq.counts, hq.letters⟩, fun _ hin => hin,
      fun d' hd' => .inl ⟨d', hperm.mem_iff.mpr hd', rfl⟩⟩

include h

theorem handOver (index : Nat) :
    Custody t { q with inFlightDeliveries := q.inFlightDeliveries.eraseIdx index }
      (handed ++ (q.inFlightDeliveries[index]?).toList.map (·.generation)) ack := by
  cases hd : q.inFlightDeliveries[index]? with
  | none =>
    have hlength : q.inFlightDeliveries.length ≤ index := List.getElem?_eq_none_iff.mp hd
    rw [eraseIdx_of_length_le hlength]
    simpa using h
  | some d =>
    have hperm := (perm_eraseIdx hd).append_left q.deliveries
    have hmem : d ∈ q.pending := mem_append_right _ (mem_of_getElem? hd)
    have hdistinct : ((q.deliveries ++ q.inFlightDeliveries.eraseIdx index).map (·.generation) ++
        (handed ++ [d.generation])).Nodup := by
      have hsame : ((q.deliveries ++ q.inFlightDeliveries.eraseIdx index).map (·.generation) ++
          (handed ++ [d.generation])).Perm (q.pending.map (·.generation) ++ handed) := by
        rw [← append_assoc]
        refine perm_append_comm.trans ?_
        rw [← append_assoc]
        refine List.Perm.append_right handed ?_
        refine List.Perm.trans ?_ (hperm.map (·.generation))
        simpa using perm_middle.symm
      exact hsame.nodup_iff.mpr h.distinct
    refine h.move hdistinct ?_ ?_ (fun _ hg => mem_append_left _ hg) rfl rfl ?_
    · intro d' hd'
      refine ⟨d', hperm.mem_iff.mp ?_, rfl, rfl⟩
      rcases mem_append.mp hd' with hqueued | hflight
      · exact mem_append_left _ hqueued
      · exact mem_append_right _ (mem_cons_of_mem _ hflight)
    · intro g hg
      refine (mem_append.mp hg).imp_right fun hnew => ?_
      exact ⟨d, hmem, (mem_singleton.mp hnew).symm⟩
    · intro counted hq
      refine ⟨counted, ⟨hq.counts, hq.letters⟩, fun _ hin => hin, fun d' hd' => ?_⟩
      rcases mem_append.mp (hperm.mem_iff.mpr hd') with hqueued | hflight
      · exact .inl ⟨d', mem_append_left _ hqueued, rfl⟩
      · rcases mem_cons.mp hflight with rfl | hrest
        · exact .inr (.inl (mem_append_right _ (mem_singleton_self _)))
        · exact .inl ⟨d', mem_append_right _ hrest, rfl⟩

theorem leavesFlight (hd : q.inFlightDeliveries[index]? = some d)
    (hsame : DeliveryQueue.SameDeliveries
      { q with inFlightDeliveries := q.inFlightDeliveries.eraseIdx index } q')
    (hledger : ∀ {counted}, q.Ledger t counted → ∃ counted', q'.Ledger t counted' ∧
      ∀ g, q.InLedger t counted g ∨ g = d.generation ∧ g ∉ ack → q'.InLedger t counted' g) :
    Custody t q' handed ack := by
  have hpending : q'.pending = q.deliveries ++ q.inFlightDeliveries.eraseIdx index := by
    unfold DeliveryQueue.pending
    rw [hsame.deliveries, hsame.inFlight]
  have hperm := (perm_eraseIdx hd).append_left q.deliveries
  have hsub : (q.deliveries ++ q.inFlightDeliveries.eraseIdx index).Sublist q.pending :=
    (eraseIdx_sublist _ _).append_left _
  refine h.move (by rw [hpending]; exact h.distinct.sublist ((hsub.map _).append_right _)) ?_
    (fun _ hg => .inl hg) (fun _ hg => hg) hsame.suppressed hsame.suppressedJobIds ?_
  · rw [hpending]
    exact fun d' hd' => ⟨d', hsub.subset hd', rfl, rfl⟩
  · intro counted hq
    obtain ⟨counted', hq', hin⟩ := hledger hq
    refine ⟨counted', hq', fun g hg => hin g (.inl hg), fun d' hd' => ?_⟩
    have hstays : d' ∈ q.deliveries ++ q.inFlightDeliveries.eraseIdx index →
        q'.Held t counted' handed ack d'.generation :=
      fun hrest => .inl ⟨d', by rw [hpending]; exact hrest, rfl⟩
    rcases mem_append.mp (hperm.mem_iff.mpr hd') with hqueued | hflight
    · exact hstays (mem_append_left _ hqueued)
    rcases mem_cons.mp hflight with rfl | hrest
    · by_cases hack : d'.generation ∈ ack
      · exact .inr (.inr (.inl hack))
      · exact .inr (.inr (.inr (hin _ (.inr ⟨rfl, hack⟩))))
    · exact hstays (mem_append_right _ hrest)

theorem requeue {d' : AsyncJobDelivery}
    (hd : q.inFlightDeliveries[index]? = some d) (hgen : d'.generation = d.generation)
    (hid : d'.jobId = d.jobId) :
    Custody t { q with
      inFlightDeliveries := q.inFlightDeliveries.eraseIdx index
      deliveries := q.deliveries ++ [d'] } handed ack := by
  have hperm := (perm_eraseIdx hd).append_left q.deliveries
  have hmem : d ∈ q.pending := mem_append_right _ (mem_of_getElem? hd)
  have hgens : (((q.deliveries ++ [d']) ++ q.inFlightDeliveries.eraseIdx index).map
      (·.generation)).Perm (q.pending.map (·.generation)) := by
    refine List.Perm.trans (List.Perm.of_eq ?_) (hperm.map (·.generation))
    simp [hgen]
  refine h.move ((hgens.append_right handed).nodup_iff.mpr h.distinct) ?_ (fun _ hg => .inl hg)
    (fun _ hg => hg) rfl rfl ?_
  · intro d'' hd''
    rcases mem_append.mp hd'' with hqueued | hflight
    · rcases mem_append.mp hqueued with hold | hnew
      · exact ⟨d'', mem_append_left _ hold, rfl, rfl⟩
      · rw [mem_singleton.mp hnew]
        exact ⟨d, hmem, hgen, hid⟩
    · exact ⟨d'', mem_append_right _ ((eraseIdx_sublist _ _).subset hflight), rfl, rfl⟩
  · intro counted hq
    refine ⟨counted, ⟨hq.counts, hq.letters⟩, fun _ hin => hin, fun d'' hd'' => .inl ?_⟩
    exact mem_map.mp (hgens.mem_iff.mpr (mem_map_of_mem hd''))

omit h

variable (h : Custody t q handed ack)
include h

theorem failDelivery (hd : q.inFlightDeliveries[index]? = some d) (error : Text) (jitterMs : Nat) :
    Custody t ({ q with inFlightDeliveries := q.inFlightDeliveries.eraseIdx index }.failDelivery t d
      error jitterMs) handed ack := by
  have hmem : d ∈ q.pending := mem_append_right _ (mem_of_getElem? hd)
  obtain ⟨-, -, hrecord⟩ := h.pending hmem
  unfold DeliveryQueue.failDelivery
  dsimp only
  split
  · let q₁ : DeliveryQueue :=
      { q with inFlightDeliveries := q.inFlightDeliveries.eraseIdx index }
    have hrecords : ∀ {counted}, q.Ledger t counted → DeliveryQueue.Records q₁
        (q₁.recordDeadLetterOrEvicted t { d with
          attempt := d.attempt + 1, lastError := some (boundedDeliveryErrorText error) }) t
            t counted
        (· = d.generation) := by
      intro counted hq
      have hq₁ : q₁.Ledger t counted := ⟨hq.counts, hq.letters⟩
      exact hq₁.recordDeadLetterOrEvicted h.table _
    obtain ⟨counted, hq, -⟩ := h.held
    refine h.leavesFlight hd (hrecords hq).1 fun {counted} hq => ?_
    obtain ⟨-, counted', hq', hin⟩ := hrecords hq
    exact ⟨counted', hq', fun g hg => hin g (hg.imp_right And.left)⟩
  split
  · exact h.requeue hd rfl rfl
  · next hdropped =>
    have hacked : q.isDeliveryAcknowledged d.jobId d.generation = true := by
      by_contra hnot
      apply hdropped
      rw [Bool.and_eq_true]
      refine ⟨?_, (Bool.not_eq_true' _).mpr (Bool.eq_false_iff.mpr hnot)⟩
      cases hget : t.get d.jobId with
      | none => rfl
      | some job =>
        obtain ⟨hjob, -, -⟩ := h.table.get_eq_some hget
        rw [hjob] at hrecord
        rcases hrecord with hnone | hsame
        · cases hnone
        · simpa using Option.some.inj hsame
    have hack := h.acknowledged hacked (DeliveryQueue.mem_holders.mpr (.inr ⟨d, hmem, rfl, rfl⟩))
    refine h.leavesFlight hd ⟨rfl, rfl, rfl, rfl⟩ fun {counted} hq =>
      ⟨counted, ⟨hq.counts, hq.letters⟩, ?_⟩
    rintro g (hin | ⟨rfl, hnot⟩)
    · exact hin
    · exact absurd hack hnot

theorem of_table (hobjects : t'.objects = t.objects)
    (hseq : t'.jobGenerationSeq = t.jobGenerationSeq) (hjobs : t'.jobs = t.jobs) :
    Custody t' q handed ack := by
  have hfinished : ∀ {g}, t'.Finished g ↔ t.Finished g := by
    unfold JobTable.Finished
    rw [hobjects]
  obtain ⟨counted, hledger, hheld⟩ := h.held
  refine ⟨h.table.of_objects hobjects hseq (by rw [hjobs]; exact fun _ _ hg => hg), ?_, ?_,
    fun hg => hfinished.mpr (h.finished hg), h.distinct, h.suppressed, ?_, counted,
    ⟨hledger.counts, ?_⟩, ?_⟩
  · rw [hobjects, hjobs]
    exact h.records
  · intro d hd
    rw [hobjects, hjobs, hfinished]
    exact h.pending hd
  · intro g id hget holder hmem
    rw [mem_holders, hjobs, ← mem_holders] at hmem
    exact h.suppressedIds hget holder hmem
  · rw [hjobs]
    exact hledger.letters
  · intro g hg
    have hin := hheld (hfinished.mp hg)
    unfold DeliveryQueue.Held DeliveryQueue.InLedger at hin ⊢
    rw [hjobs]
    exact hin

theorem setStatus (hnot : ¬ t.Finished g) (hrunning : status ≠ .running)
    (hstatus : ¬ (status = .completed ∨ status = .failed)) :
    Custody (t.setStatus g status) q handed ack := by
  have hfinished : ∀ {g'}, (t.setStatus g status).Finished g' ↔ t.Finished g' := by
    intro g'
    constructor
    · rintro ⟨job, hjob, hjob'⟩
      obtain ⟨old, hold, -, -, heq⟩ := setStatus_exists hjob
      rw [heq] at hjob'
      split at hjob'
      · exact absurd hjob' hstatus
      · exact ⟨old, hold, hjob'⟩
    · rintro ⟨job, hjob, hjob'⟩
      have hne : g' ≠ g := fun heq => hnot (heq ▸ ⟨job, hjob, hjob'⟩)
      exact ⟨job, by rw [setStatus_of_ne t status hne]; exact hjob, hjob'⟩
  obtain ⟨counted, hledger, hheld⟩ := h.held
  refine ⟨h.table.setStatus g status, ?_, ?_, fun hg => hfinished.mpr (h.finished hg), h.distinct,
    h.suppressed, h.suppressedIds, counted, ⟨hledger.counts, hledger.letters⟩,
    fun hg => hheld (hfinished.mp hg)⟩
  · intro g' job hjob hjob'
    obtain ⟨old, hold, hid, -, heq⟩ := setStatus_exists hjob
    rw [heq] at hjob'
    split at hjob'
    · exact absurd hjob' hrunning
    · rw [← hid]
      exact h.records hold hjob'
  · intro d hd
    obtain ⟨⟨job, hjob, hid⟩, hfin, hrecord⟩ := h.pending hd
    obtain ⟨job', hjob', hid'⟩ := setStatus_ids g status hjob
    exact ⟨⟨job', hjob', hid'.trans hid⟩, hfinished.mpr hfin, hrecord⟩

theorem evict (now : Int) {jobId : Text}
    (hidle : ∀ {job}, t.get jobId = some job → job.status ≠ .running) :
    Custody { t with jobs := t.jobs.erase jobId } (q.evictRecord now jobId (t.get jobId)) handed
      ack := by
  obtain ⟨counted, hledger, hheld⟩ := h.held
  obtain ⟨hsame, counted', hledger', hrecords⟩ := hledger.evictRecord h.table now jobId
  have hpending : (q.evictRecord now jobId (t.get jobId)).pending = q.pending := by
    unfold DeliveryQueue.pending
    rw [hsame.deliveries, hsame.inFlight]
  have herased : ∀ {id g}, (t.jobs.erase jobId).get? id = some g → t.jobs.get? id = some g := by
    intro id g hg
    rw [get?_erase] at hg
    split at hg
    · cases hg
    · exact hg
  refine ⟨?_, ?_, ?_, h.finished, ?_, ?_, ?_, counted', hledger', ?_⟩
  · exact h.table.of_objects rfl rfl fun id g hg => herased hg
  · intro g job hjob hrunning
    have hrecord := h.records hjob hrunning
    have hne : job.id ≠ jobId := by
      intro heq
      rw [heq] at hrecord
      exact hidle (get_eq_some.mpr ⟨g, hrecord, hjob⟩) hrunning
    rw [get?_erase_ne _ hne]
    exact hrecord
  · intro d hd
    rw [hpending] at hd
    obtain ⟨hjob, hfin, hrecord⟩ := h.pending hd
    refine ⟨hjob, hfin, ?_⟩
    rw [get?_erase]
    split
    · exact .inl rfl
    · exact hrecord
  · rw [hpending]
    exact h.distinct
  · rw [hsame.suppressed]
    exact h.suppressed
  · intro g id hget holder hmem
    rw [hsame.suppressedJobIds] at hget
    apply h.suppressedIds hget
    rw [DeliveryQueue.mem_holders, hpending] at hmem
    exact DeliveryQueue.mem_holders.mpr (hmem.imp_left fun hrecord => herased hrecord)
  · intro g hg
    rcases hheld hg with hold | hhanded | hack | hin
    · exact .inl (by rw [hpending]; exact hold)
    · exact .inr (.inl hhanded)
    · exact .inr (.inr (.inl hack))
    · exact .inr (.inr (.inr (hrecords g (.inl hin))))

omit h

theorem enqueueDelivery_eq (hget : t.get id = some job) (text : Text) :
    q.enqueueDelivery t id text =
      if q.isDeliveryAcknowledged id job.generation then q
      else
        let d : AsyncJobDelivery :=
          ⟨id, job.generation, boundedDeliveryText text, 0, t.now, none, job.ownerId⟩
        capDeliveries t (q.deliveries ++ [d]).length
          { q with deliveries := q.deliveries ++ [d] } := by
  unfold enqueueDelivery
  rw [hget]

theorem finished_setStatus (h : (t.setStatus g status).Finished g') : g' = g ∨ t.Finished g' := by
  by_cases heq : g' = g
  · exact .inl heq
  · obtain ⟨job, hjob, hstatus⟩ := h
    rw [setStatus_of_ne t status heq] at hjob
    exact .inr ⟨job, hjob, hstatus⟩

theorem Finished.setStatus (hne : g' ≠ g) (h : t.Finished g') :
    (t.setStatus g status).Finished g' := by
  obtain ⟨job, hjob, hstatus⟩ := h
  exact ⟨job, by rw [setStatus_of_ne t status hne]; exact hjob, hstatus⟩

theorem not_finished (hjob : t.objects.get? g = some job) (hrunning : job.status = .running) :
    ¬ t.Finished g := by
  rintro ⟨job', hjob', hfinished⟩
  rw [hjob] at hjob'
  cases hjob'
  rw [hrunning] at hfinished
  rcases hfinished with hfinished | hfinished <;> cases hfinished

include h

theorem finishWith (hjob : t.objects.get? g = some job) (hrunning : job.status = .running)
    (hstatus : status = .completed ∨ status = .failed) {added : List AsyncJobDelivery}
    (hadded : added = [] ∧ g ∈ ack ∨ ∃ d, added = [d] ∧ d.generation = g ∧ d.jobId = job.id ∧
      job.id ∉ q.suppressedDeliveryJobIds.values) :
    Custody (t.setStatus g status) { q with deliveries := q.deliveries ++ added } handed ack := by
  have hrecord : t.jobs.get? job.id = some g := h.records hjob hrunning
  have hopen := not_finished hjob hrunning
  have hpending : ∀ {d}, d ∈ q.deliveries ++ added ++ q.inFlightDeliveries →
      d ∈ q.pending ∨ d ∈ added := by
    intro d hd
    rcases mem_append.mp hd with hqueued | hflight
    · exact (mem_append.mp hqueued).imp_left fun hmem => mem_append_left _ hmem
    · exact .inl (mem_append_right _ hflight)
  have hnew : ∀ {d}, d ∈ added → d.generation = g ∧ d.jobId = job.id ∧
      job.id ∉ q.suppressedDeliveryJobIds.values := by
    intro d hd
    rcases hadded with ⟨rfl, -⟩ | ⟨d', rfl, hrest⟩
    · cases hd
    · rw [mem_singleton.mp hd]
      exact hrest
  have hkeeps : ∀ {g'}, t.Finished g' → (t.setStatus g status).Finished g' := fun hg' =>
    Finished.setStatus (fun heq => hopen (heq ▸ hg')) hg'
  have hself : (t.setStatus g status).Finished g :=
    ⟨_, setStatus_self status hjob, hstatus⟩
  obtain ⟨counted, hledger, hheld⟩ := h.held
  refine ⟨h.table.setStatus g status, ?_, ?_, fun hg => hkeeps (h.finished hg), ?_,
    h.suppressed, ?_, counted, ⟨hledger.counts, hledger.letters⟩, ?_⟩
  · intro g' job' hjob' hrunning'
    obtain ⟨old, hold, hid, -, heq⟩ := setStatus_exists hjob'
    rw [heq] at hrunning'
    split at hrunning'
    · rw [hrunning'] at hstatus
      rcases hstatus with hstatus | hstatus <;> cases hstatus
    · rw [← hid]
      exact h.records hold hrunning'
  · intro d hd
    rcases hpending hd with hold | hmem
    · obtain ⟨⟨old, hobject, hid⟩, hfinished, hrec⟩ := h.pending hold
      obtain ⟨new, hobject', hid'⟩ := setStatus_ids g status hobject
      exact ⟨⟨new, hobject', hid'.trans hid⟩, hkeeps hfinished, hrec⟩
    · obtain ⟨hgen, hid, -⟩ := hnew hmem
      rw [hgen, hid]
      exact ⟨⟨_, setStatus_self status hjob, rfl⟩, hself, .inr hrecord⟩
  · rcases hadded with ⟨rfl, -⟩ | ⟨d, rfl, hgen, -⟩
    · simpa using h.distinct
    · have hfresh : g ∉ q.pending.map (·.generation) ++ handed := by
        intro hmem
        rcases mem_append.mp hmem with hold | hold
        · obtain ⟨d', hd', rfl⟩ := mem_map.mp hold
          exact hopen (h.pending hd').2.1
        · exact hopen (h.finished hold)
      have hperm : ((q.deliveries ++ [d] ++ q.inFlightDeliveries).map (·.generation) ++ handed).Perm
          (g :: (q.pending.map (·.generation) ++ handed)) := by
        simp [DeliveryQueue.pending, hgen]
      exact hperm.nodup_iff.mpr (nodup_cons.mpr ⟨hfresh, h.distinct⟩)
  · intro g' id hget holder hmem
    rcases DeliveryQueue.mem_holders.mp hmem with hrec | ⟨d, hd, hid, hgen⟩
    · exact h.suppressedIds hget holder (DeliveryQueue.mem_holders.mpr (.inl hrec))
    · rcases hpending hd with hold | hmem'
      · exact h.suppressedIds hget holder
          (DeliveryQueue.mem_holders.mpr (.inr ⟨d, hold, hid, hgen⟩))
      · obtain ⟨-, hid', hnot⟩ := hnew hmem'
        exact absurd (mem_values.mpr ⟨g', hget⟩) (hid ▸ hid' ▸ hnot)
  · intro g' hg'
    have hmem : ∀ {d}, d ∈ q.pending → d ∈ q.deliveries ++ added ++ q.inFlightDeliveries := by
      intro d hd
      rcases mem_append.mp hd with hqueued | hflight
      · exact mem_append_left _ (mem_append_left _ hqueued)
      · exact mem_append_right _ hflight
    rcases finished_setStatus hg' with rfl | hold
    · rcases hadded with ⟨-, hack⟩ | ⟨d, rfl, hgen, -⟩
      · exact .inr (.inr (.inl hack))
      · exact .inl ⟨d, mem_append_left _ (mem_append_right _ (by simp)), hgen⟩
    · exact (hheld hold).imp_left fun ⟨d, hd, hgen⟩ => ⟨d, hmem hd, hgen⟩

theorem cap (fuel : Nat) : Custody t (DeliveryQueue.capDeliveries t fuel q) handed ack := by
  obtain ⟨counted₀, hledger₀, -⟩ := h.held
  obtain ⟨hsuffix, hsame, -⟩ := hledger₀.capDeliveries h.table fuel
  have hsub : (DeliveryQueue.capDeliveries t fuel q).pending.Sublist q.pending := by
    unfold DeliveryQueue.pending
    rw [hsame.inFlight]
    exact hsuffix.sublist.append_right _
  refine h.move (h.distinct.sublist ((hsub.map _).append_right _))
    (fun d hd => ⟨d, hsub.subset hd, rfl, rfl⟩) (fun _ hg => .inl hg) (fun _ hg => hg)
    hsame.suppressed hsame.suppressedJobIds ?_
  intro counted hledger
  obtain ⟨-, -, counted', hledger', hin, hmoved⟩ := hledger.capDeliveries h.table fuel
  refine ⟨counted', hledger', hin, fun d hd => ?_⟩
  rcases mem_append.mp hd with hqueued | hflight
  · rcases hmoved d hqueued with hstays | hgone
    · exact .inl ⟨d, mem_append_left _ hstays, rfl⟩
    · exact .inr (.inr (.inr hgone))
  · exact .inl ⟨d, mem_append_right _ (by rw [hsame.inFlight]; exact hflight), rfl⟩

theorem finish (hjob : t.objects.get? g = some job) (hrunning : job.status = .running)
    (hstatus : status = .completed ∨ status = .failed) (text : Text) :
    Custody (t.setStatus g status) (q.enqueueDelivery (t.setStatus g status) job.id text) handed
      ack := by
  have hgen := h.table.getElem_generation hjob
  have hrecord : t.jobs.get? job.id = some g := h.records hjob hrunning
  rw [enqueueDelivery_eq (setStatus_record status hrecord hjob)]
  split
  · next hacked =>
    have hholder : g ∈ q.holders t job.id := mem_holders.mpr (.inl hrecord)
    have hack : g ∈ ack := h.acknowledged (hgen ▸ hacked) hholder
    simpa using h.finishWith hjob hrunning hstatus (.inl ⟨rfl, hack⟩)
  · next hacked =>
    apply cap
    refine h.finishWith hjob hrunning hstatus (.inr ⟨_, rfl, hgen, rfl, fun hmem => hacked ?_⟩)
    unfold isDeliveryAcknowledged
    rw [Bool.or_eq_true, contains_iff_mem, contains_iff_mem]
    exact .inr hmem

theorem register (hgen : job.generation = .job (t.jobGenerationSeq + 1))
    (hstatus : job.status = .running)
    (hwf : JobTable.WellFormed { t.addJob job with
      jobs := t.jobs.set job.id job.generation })
    (hjobs : t.jobs.get? job.id = none) (hpending : ∀ d ∈ q.pending, d.jobId ≠ job.id)
    (hids : job.id ∉ q.suppressedDeliveryJobIds.values) :
    Custody { t.addJob job with jobs := t.jobs.set job.id job.generation } q handed ack := by
  have hfresh : t.objects.get? job.generation = none := by
    rw [hgen]
    exact h.table.fresh
  have hobjects : ∀ {g old}, t.objects.get? g = some old →
      (t.objects.set job.generation job).get? g = some old := by
    intro g old hold
    have hne : g ≠ job.generation := by
      rintro rfl
      rw [hfresh] at hold
      cases hold
    rw [get?_set_ne _ _ hne]
    exact hold
  have hcases : ∀ {g job'}, (t.objects.set job.generation job).get? g = some job' →
      g = job.generation ∧ job' = job ∨ t.objects.get? g = some job' := by
    intro g job' hjob'
    rw [get?_set] at hjob'
    split at hjob'
    · next heq => exact .inl ⟨heq, (Option.some.inj hjob').symm⟩
    · exact .inr hjob'
  have hrecord : ∀ {id g}, t.jobs.get? id = some g →
      (t.jobs.set job.id job.generation).get? id = some g := by
    intro id g hid
    have hne : id ≠ job.id := by
      rintro rfl
      rw [hjobs] at hid
      cases hid
    rw [get?_set_ne _ _ hne]
    exact hid
  have hfinished : ∀ {g}, JobTable.Finished { t.addJob job with
      jobs := t.jobs.set job.id job.generation } g → t.Finished g := by
    rintro g ⟨job', hjob', hfinished⟩
    rcases hcases hjob' with ⟨-, rfl⟩ | hold
    · rw [hstatus] at hfinished
      rcases hfinished with hfinished | hfinished <;> cases hfinished
    · exact ⟨job', hold, hfinished⟩
  have hkeeps : ∀ {g}, t.Finished g → JobTable.Finished { t.addJob job with
      jobs := t.jobs.set job.id job.generation } g :=
    fun ⟨job', hjob', hfinished⟩ => ⟨job', hobjects hjob', hfinished⟩
  obtain ⟨counted, hledger, hheld⟩ := h.held
  refine ⟨hwf, ?_, ?_, fun hg => hkeeps (h.finished hg), h.distinct, h.suppressed, ?_, counted,
    ⟨hledger.counts, ?_⟩, ?_⟩
  · intro g job' hjob' hrunning
    rcases hcases hjob' with ⟨rfl, rfl⟩ | hold
    · exact get?_set_self _ _ _
    · exact hrecord (h.records hold hrunning)
  · intro d hd
    obtain ⟨⟨old, hold, hid⟩, hfin, hrec⟩ := h.pending hd
    refine ⟨⟨old, hobjects hold, hid⟩, hkeeps hfin, ?_⟩
    rw [get?_set_ne _ _ (hpending d hd)]
    exact hrec
  · intro g id hget holder hmem
    have hne : id ≠ job.id := by
      rintro rfl
      exact hids (mem_values.mpr ⟨g, hget⟩)
    apply h.suppressedIds hget
    rw [mem_holders] at hmem ⊢
    refine hmem.imp_left fun hrec => ?_
    rwa [get?_set_ne _ _ hne] at hrec
  · intro jobId letter hletter
    obtain ⟨hrec, hfailed⟩ := hledger.letters hletter
    exact ⟨hrecord hrec, hfailed⟩
  · intro g hg
    rcases hheld (hfinished hg) with hold | hhanded | hack | hin
    · exact .inl hold
    · exact .inr (.inl hhanded)
    · exact .inr (.inr (.inl hack))
    · refine .inr (.inr (.inr (hin.imp_right (Or.imp_left fun hrec => ?_))))
      exact ⟨hrec.1.imp fun id hid => hrecord hid, hrec.2⟩

omit h

theorem suppress_foldl {α : Type} (jobId : α → Option Text) (generation : α → Generation)
    (l : List α)
    (q : DeliveryQueue) :
    ∃ suppressed ids, l.foldl (fun q a => q.suppressDelivery (jobId a) (generation a)) q =
        { q with suppressedDeliveries := suppressed, suppressedDeliveryJobIds := ids } ∧
      (∀ g, g ∈ suppressed ↔ g ∈ q.suppressedDeliveries ∨ g ∈ l.map generation) ∧
      ∀ g id, ids.get? g = some id → q.suppressedDeliveryJobIds.get? g = some id ∨
        ∃ a ∈ l, jobId a = some id := by
  induction l generalizing q with
  | nil => exact ⟨_, _, rfl, fun g => by simp, fun g id hid => .inl hid⟩
  | cons a rest ih =>
    obtain ⟨suppressed, ids, heq, hmem, hids⟩ := ih (q.suppressDelivery (jobId a) (generation a))
    refine ⟨suppressed, ids, heq, fun g => ?_, fun g id hid => ?_⟩
    · rw [hmem, map_cons, mem_cons]
      show g ∈ q.suppressedDeliveries.insert (generation a) ∨ _ ↔ _
      rw [mem_insert_iff]
      tauto
    · rcases hids g id hid with hold | ⟨b, hb, hb'⟩
      · unfold suppressDelivery at hold
        split at hold
        · exact .inl hold
        · next id' hid' =>
          rw [get?_set] at hold
          split at hold
          · exact .inr ⟨a, mem_cons_self, by rw [hid', Option.some.inj hold]⟩
          · exact .inl hold
      · exact .inr ⟨b, mem_cons_of_mem _ hb, hb'⟩

theorem suppress (h : Custody t q handed ack) (hack : ∀ g ∈ ack, g ∈ ack')
    {suppressed : List Generation} {ids : OrderedMap Generation Text}
    (hsuppressed : ∀ g ∈ suppressed, g ∈ ack')
    (hids : ∀ g id, ids.get? g = some id → q.suppressedDeliveryJobIds.get? g = some id ∨
      ∀ holder ∈ q.holders t id, holder ∈ ack') :
    Custody t { q with suppressedDeliveries := suppressed, suppressedDeliveryJobIds := ids } handed
      ack' := by
  have hmono := h.mono hack
  obtain ⟨counted, hledger, hheld⟩ := hmono.held
  refine ⟨h.table, h.records, h.pending, h.finished, h.distinct, fun hg => hsuppressed _ hg, ?_,
    counted, ⟨hledger.counts, hledger.letters⟩, hheld⟩
  intro g id hget holder hmem
  rcases hids g id hget with hold | hnew
  · exact hmono.suppressedIds hold holder hmem
  · exact hnew holder hmem

theorem holders_generationsOf (ht : t.WellFormed) (h : g ∈ q.holders t id) :
    g ∈ q.generationsOf t id := by
  unfold generationsOf
  rw [mem_append, mem_append, mem_append]
  rcases mem_holders.mp h with hrecord | ⟨d, hd, hid, hgen⟩
  · obtain ⟨job, hget, hgen⟩ := ht.get_of_record hrecord
    exact .inl (.inl (.inl (by simp [hget, hgen])))
  · refine .inl (.inl (.inr (mem_map.mpr ⟨d, mem_filter.mpr ⟨hd, ?_⟩, hgen⟩)))
    simpa using hid

theorem acknowledgeJob (h : Custody t q handed (ack ++ q.suppressedDeliveries)) (jobId : Text) :
    Custody t (DeliveryQueue.acknowledgeJob t q jobId) handed
      (ack ++ (DeliveryQueue.acknowledgeJob t q jobId).suppressedDeliveries) := by
  unfold DeliveryQueue.acknowledgeJob
  obtain ⟨suppressed, ids, heq, hmem, hids⟩ :=
    suppress_foldl (fun _ => some jobId) (fun g => g) (q.generationsOf t jobId) q
  rw [heq]
  have hsuppressed : Custody t
      { q with suppressedDeliveries := suppressed, suppressedDeliveryJobIds := ids } handed
      (ack ++ suppressed) := by
    refine h.suppress ?_ (fun g hg => mem_append_right _ hg) ?_
    · intro g hg
      refine mem_append.mpr ((mem_append.mp hg).imp_right fun hold => ?_)
      exact (hmem g).mpr (.inl hold)
    · intro g id hid
      refine (hids g id hid).imp_right fun ⟨_, _, hjobId⟩ holder hholder => ?_
      cases hjobId
      refine mem_append_right _ ((hmem holder).mpr (.inr ?_))
      rw [map_id']
      exact holders_generationsOf h.table hholder
  exact hsuppressed.same ⟨rfl, rfl, rfl, rfl⟩ fun {counted} hq =>
    ⟨counted, ⟨hq.counts, hq.letters⟩, fun _ hin => hin⟩

theorem acknowledgeDeliveries (h : Custody t q handed ack) (jobIds : List Text) :
    Custody t (q.acknowledgeDeliveries t jobIds) handed
      (ack ++ (q.acknowledgeDeliveries t jobIds).suppressedDeliveries) := by
  have hstart : Custody t q handed (ack ++ q.suppressedDeliveries) :=
    h.mono fun _ hg => mem_append_left _ hg
  unfold DeliveryQueue.acknowledgeDeliveries
  split
  · exact hstart
  · apply dropAcknowledged
    clear h
    generalize DeliveryQueue.uniqueJobIds jobIds = ids
    induction ids generalizing q with
    | nil => exact hstart
    | cons id rest ih =>
      exact ih (hstart.acknowledgeJob id)

end Custody

end Vibrato.Jobs
