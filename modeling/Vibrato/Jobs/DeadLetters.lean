import Vibrato.Jobs.Table

namespace Vibrato.Jobs

open Lib OrderedMap

namespace DeliveryQueue

variable {q q' : DeliveryQueue} {t : JobTable} {counted : List Generation}

structure Ledger (q : DeliveryQueue) (t : JobTable) (counted : List Generation) : Prop where
  counts : counted.length = q.deadLetterOverflowByOwner.total
  letters : ∀ {jobId letter}, q.deadLetteredDeliveries.get? jobId = some letter →
    t.jobs.get? jobId = some letter.generation ∧ q.deliveryFailures.has letter.generation = true

variable (q)

def InLedger (t : JobTable) (counted : List Generation) (g : Generation) : Prop :=
  q.evictedDeadLetters.has g = true ∨ (∃ id, t.jobs.get? id = some g) ∧
    q.deliveryFailures.has g = true ∨ g ∈ counted

/-- The deliveries and the acknowledgements are as they were. -/
structure SameDeliveries (q q' : DeliveryQueue) : Prop where
  deliveries : q'.deliveries = q.deliveries
  inFlight : q'.inFlightDeliveries = q.inFlightDeliveries
  suppressed : q'.suppressedDeliveries = q.suppressedDeliveries
  suppressedJobIds : q'.suppressedDeliveryJobIds = q.suppressedDeliveryJobIds

def Records (q' : DeliveryQueue) (t t' : JobTable) (counted : List Generation)
    (new : Generation → Prop) : Prop :=
  SameDeliveries q q' ∧ ∃ counted', q'.Ledger t' counted' ∧
    ∀ g, q.InLedger t counted g ∨ new g → q'.InLedger t' counted' g

theorem recordDeadLetterOverflow_eq (ownerId : Option Text) :
    ∃ counts, q.recordDeadLetterOverflow ownerId = { q with deadLetterOverflowByOwner := counts } ∧
      counts.total = q.deadLetterOverflowByOwner.total + 1 := by
  unfold recordDeadLetterOverflow
  dsimp only
  split
  · refine ⟨_, rfl, ?_⟩
    have hset := q.deadLetterOverflowByOwner.total_set ownerId
      ((q.deadLetterOverflowByOwner.get? ownerId).getD 0 + 1)
    omega
  next hnew =>
  push Not at hnew
  obtain ⟨hnamed, hnone⟩ := hnew
  have hget : q.deadLetterOverflowByOwner.get? ownerId = none := by
    rw [← has_eq_false]
    simpa using hnone
  refine ⟨_, rfl, ?_⟩
  -- the counts before the new owner is set: the same total, and no count of the owner
  have hfolded : ∀ counts : OrderedMap (Option Text) Nat,
      counts.total = q.deadLetterOverflowByOwner.total → counts.get? ownerId = none →
      (counts.set ownerId 1).total = q.deadLetterOverflowByOwner.total + 1 := by
    intro counts htotal hcount
    have hset := counts.total_set ownerId 1
    rw [hcount, Option.getD_none] at hset
    omega
  split
  · split
    · exact hfolded _ rfl hget
    next oldest _ =>
    apply hfolded
    · have herase := q.deadLetterOverflowByOwner.total_erase (some oldest)
      have hset := (q.deadLetterOverflowByOwner.erase (some oldest)).total_set none
        (((q.deadLetterOverflowByOwner.erase (some oldest)).get? none).getD 0 +
          (q.deadLetterOverflowByOwner.get? (some oldest)).getD 0)
      omega
    · rw [get?_set_ne _ _ hnamed, get?_erase, hget]
      split <;> rfl
  · exact hfolded _ rfl hget

variable {q}

theorem trimEvictedDeadLetters_eq (fuel : Nat) (q : DeliveryQueue)
    (hcounts : counted.length = q.deadLetterOverflowByOwner.total) :
    ∃ counts evicted, trimEvictedDeadLetters fuel q =
        { q with deadLetterOverflowByOwner := counts, evictedDeadLetters := evicted } ∧
      ∃ counted' : List Generation, counted'.length = counts.total ∧
        ∀ g, q.evictedDeadLetters.has g = true ∨ g ∈ counted →
          evicted.has g = true ∨ g ∈ counted' := by
  induction fuel generalizing q counted with
  | zero => exact ⟨_, _, rfl, counted, hcounts, fun _ h => h⟩
  | succ fuel ih =>
    unfold trimEvictedDeadLetters
    split
    · split
      · exact ⟨_, _, rfl, counted, hcounts, fun _ h => h⟩
      next g entry _ =>
      obtain ⟨counts, heq, htotal⟩ := q.recordDeadLetterOverflow_eq entry.ownerId
      rw [heq]
      have hlonger : (counted ++ [g]).length = counts.total := by
        rw [List.length_append, hcounts]
        exact htotal.symm
      obtain ⟨counts', evicted, htrim, counted', hlength, hkeeps⟩ := ih
        { q with
          deadLetterOverflowByOwner := counts, evictedDeadLetters := q.evictedDeadLetters.erase g }
        hlonger
      refine ⟨counts', evicted, htrim, counted', hlength, ?_⟩
      rintro g' (hhas | hmem)
      · apply hkeeps
        by_cases hg : g' = g
        · exact .inr (by simp [hg])
        · exact .inl (has_erase.mpr ⟨hg, hhas⟩)
      · exact hkeeps g' (.inr (List.mem_append_left _ hmem))
    · exact ⟨_, _, rfl, counted, hcounts, fun _ h => h⟩

theorem Ledger.trimEvicted (h : q.Ledger t counted) (fuel : Nat) {evicted : OrderedMap Generation _}
    {new : Generation → Prop} (hevicted : ∀ g, q.evictedDeadLetters.has g = true ∨ new g →
      evicted.has g = true) :
    Records q (trimEvictedDeadLetters fuel { q with evictedDeadLetters := evicted }) t t counted
      new := by
  obtain ⟨counts, evicted', htrim, counted', hlength, hkeeps⟩ :=
    trimEvictedDeadLetters_eq fuel { q with evictedDeadLetters := evicted } h.counts
  rw [htrim]
  refine ⟨⟨rfl, rfl, rfl, rfl⟩, counted', ⟨hlength, h.letters⟩, ?_⟩
  have hmoved : ∀ g, evicted.has g = true ∨ g ∈ counted → evicted'.has g = true ∨
      g ∈ counted' := hkeeps
  rintro g ((hhas | hrecord | hmem) | hnew)
  · exact (hmoved g (.inl (hevicted g (.inl hhas)))).imp_right .inr
  · exact .inr (.inl hrecord)
  · exact (hmoved g (.inr hmem)).imp_right .inr
  · exact (hmoved g (.inl (hevicted g (.inr hnew)))).imp_right .inr

theorem Ledger.recordEvictedDeadLetter (h : q.Ledger t counted) (now : Int) (d : AsyncJobDelivery) :
    Records q (q.recordEvictedDeadLetter now d) t t counted (· = d.generation) := by
  apply h.trimEvicted
  intro g hg
  rw [has_set, has_erase]
  by_cases heq : g = d.generation
  · exact .inl heq
  · exact .inr ⟨heq, hg.resolve_right heq⟩

theorem trimDeadLetters_eq (fuel : Nat) (q : DeliveryQueue) :
    ∃ letters owners, trimDeadLetters fuel q =
        { q with deadLetteredDeliveries := letters, deadLetteredDeliveryOwners := owners } ∧
      ∀ jobId letter, letters.get? jobId = some letter →
        q.deadLetteredDeliveries.get? jobId = some letter := by
  induction fuel generalizing q with
  | zero => exact ⟨_, _, rfl, fun _ _ h => h⟩
  | succ fuel ih =>
    unfold trimDeadLetters
    split
    · split
      · exact ⟨_, _, rfl, fun _ _ h => h⟩
      next oldest _ _ =>
      obtain ⟨letters, owners, htrim, hsub⟩ := ih { q with
        deadLetteredDeliveries := q.deadLetteredDeliveries.erase oldest
        deadLetteredDeliveryOwners := q.deadLetteredDeliveryOwners.erase oldest }
      refine ⟨letters, owners, htrim, fun jobId letter hget => ?_⟩
      have herased := hsub jobId letter hget
      rw [get?_erase] at herased
      split at herased
      · cases herased
      · exact herased
    · exact ⟨_, _, rfl, fun _ _ h => h⟩

theorem Ledger.recordDeadLetter (h : q.Ledger t counted) {d : AsyncJobDelivery} {job : AsyncJob}
    (hget : t.get d.jobId = some job) (hgen : job.generation = d.generation)
    (hrecord : t.jobs.get? d.jobId = some d.generation) :
    Records q (q.recordDeadLetter t d) t t counted (· = d.generation) := by
  unfold DeliveryQueue.recordDeadLetter
  rw [hget]
  dsimp only
  rw [if_neg (by simpa using hgen)]
  obtain ⟨letters, owners, htrim, hsub⟩ := trimDeadLetters_eq _ _
  rw [htrim]
  have hfailures : ∀ {g}, q.deliveryFailures.has g = true ∨ g = d.generation →
      (q.deliveryFailures.set d.generation ⟨d.attempt, d.lastError, t.now⟩).has g = true :=
    fun hg => has_set.mpr hg.symm
  refine ⟨⟨rfl, rfl, rfl, rfl⟩, counted, ⟨h.counts, ?_⟩, ?_⟩
  · intro jobId letter hletter
    have hold := hsub jobId letter hletter
    rw [get?_set] at hold
    split at hold
    · next heq =>
      cases hold
      rw [heq]
      exact ⟨hrecord, hfailures (.inr rfl)⟩
    · next hne =>
      rw [get?_erase_ne _ hne] at hold
      obtain ⟨hrec, hfail⟩ := h.letters (get?_retain_eq_some.mp hold).1
      exact ⟨hrec, hfailures (.inl hfail)⟩
  · rintro g ((hhas | ⟨hrec, hfail⟩ | hmem) | rfl)
    · exact .inl hhas
    · exact .inr (.inl ⟨hrec, hfailures (.inl hfail)⟩)
    · exact .inr (.inr hmem)
    · exact .inr (.inl ⟨⟨d.jobId, hrecord⟩, hfailures (.inr rfl)⟩)

theorem Ledger.recordDeadLetterOrEvicted (h : q.Ledger t counted) (ht : t.WellFormed)
    (d : AsyncJobDelivery) :
    Records q (q.recordDeadLetterOrEvicted t d) t t counted (· = d.generation) := by
  unfold DeliveryQueue.recordDeadLetterOrEvicted
  split
  · next hany =>
    obtain ⟨job, hget, hgen⟩ := (Option.any_eq_true _ _).mp hany
    have heq : job.generation = d.generation := by simpa using hgen
    exact h.recordDeadLetter hget heq (heq ▸ (ht.get_eq_some hget).1)
  · exact h.recordEvictedDeadLetter t.now d

theorem Ledger.capDeliveries (h : q.Ledger t counted) (ht : t.WellFormed) (fuel : Nat) :
    (capDeliveries t fuel q).deliveries <:+ q.deliveries ∧
      SameDeliveries { q with deliveries := (capDeliveries t fuel q).deliveries }
        (capDeliveries t fuel q) ∧
      ∃ counted', (capDeliveries t fuel q).Ledger t counted' ∧
        (∀ g, q.InLedger t counted g → (capDeliveries t fuel q).InLedger t counted' g) ∧
        ∀ d ∈ q.deliveries, d ∈ (capDeliveries t fuel q).deliveries ∨
          (capDeliveries t fuel q).InLedger t counted' d.generation := by
  induction fuel generalizing q counted with
  | zero =>
    exact ⟨List.suffix_refl _, ⟨rfl, rfl, rfl, rfl⟩, counted, h, fun _ hg => hg,
      fun _ hd => .inl hd⟩
  | succ fuel ih =>
    unfold DeliveryQueue.capDeliveries
    split
    · split
      · exact ⟨List.suffix_refl _, ⟨rfl, rfl, rfl, rfl⟩, counted, h, fun _ hg => hg,
          fun _ hd => .inl hd⟩
      next dropped rest hdeliveries =>
      have hrest : Ledger { q with deliveries := rest } t counted := ⟨h.counts, h.letters⟩
      obtain ⟨hsame, counted₁, hledger, hrecords⟩ := hrest.recordDeadLetterOrEvicted ht dropped
      obtain ⟨hsuffix, hframe, counted', hledger', hin, hmoved⟩ := ih hledger
      rw [hsame.deliveries] at hsuffix hmoved
      refine ⟨?_, ⟨rfl, hframe.inFlight.trans hsame.inFlight,
        hframe.suppressed.trans hsame.suppressed,
        hframe.suppressedJobIds.trans hsame.suppressedJobIds⟩, counted', hledger',
        fun g hg => hin g (hrecords g (.inl hg)), ?_⟩
      · rw [hdeliveries]
        exact hsuffix.trans (List.suffix_cons dropped rest)
      · intro d hd
        rw [hdeliveries] at hd
        rcases List.mem_cons.mp hd with rfl | hmem
        · exact .inr (hin _ (hrecords _ (.inr rfl)))
        · exact hmoved d hmem
    · exact ⟨List.suffix_refl _, ⟨rfl, rfl, rfl, rfl⟩, counted, h, fun _ hg => hg,
        fun _ hd => .inl hd⟩

variable (q)

def leavingFailure (jobId : Text) (job : AsyncJob) : Option DeliveryFailure :=
  match q.deliveryFailures.get? job.generation, q.deadLetteredDeliveries.get? jobId with
  | some failure, none => some failure
  | some failure, some letter => if letter.generation = job.generation then some failure else none
  | none, some letter => if job.generation = letter.generation then some letter.failure else none
  | none, none => none

def evictedWith (now : Int) (jobId : Text) (job : AsyncJob)
    (failure : DeliveryFailure) : OrderedMap Generation EvictedDeadLetteredDelivery :=
  q.evictedDeadLetters.set job.generation
    ⟨job.id, job.generation, ((q.deadLetteredDeliveryOwners.get? jobId).join <|> job.ownerId),
      { failure with recordedAt := now }⟩

def leave (now : Int) (jobId : Text) (job : AsyncJob) (failure : Option DeliveryFailure) :
    DeliveryQueue :=
  let q := match failure with
    | none => q
    | some failure => trimEvictedDeadLetters (q.evictedWith now jobId job failure).size
        { q with evictedDeadLetters := q.evictedWith now jobId job failure }
  { q with
    deadLetteredDeliveries := q.deadLetteredDeliveries.erase jobId
    deadLetteredDeliveryOwners := q.deadLetteredDeliveryOwners.erase jobId }

theorem evictRecord_some (now : Int) (jobId : Text) (job : AsyncJob) :
    q.evictRecord now jobId (some job) = q.leave now jobId job (q.leavingFailure jobId job) := by
  unfold DeliveryQueue.evictRecord leavingFailure
  dsimp only [Option.bind_some]
  cases q.deliveryFailures.get? job.generation with
  | none =>
    cases q.deadLetteredDeliveries.get? jobId with
    | none => rfl
    | some letter =>
      dsimp only
      by_cases hgen : job.generation = letter.generation
      · rw [if_pos hgen]
        rfl
      · rw [if_neg hgen]
        rfl
  | some failure =>
    cases q.deadLetteredDeliveries.get? jobId with
    | none => rfl
    | some letter =>
      dsimp only
      by_cases hgen : letter.generation = job.generation
      · rw [if_pos hgen]
        rfl
      · rw [if_neg hgen]
        rfl

variable {q}

theorem Ledger.leavingFailure_isSome (h : q.Ledger t counted) {jobId : Text} {job : AsyncJob}
    (hrecord : t.jobs.get? jobId = some job.generation)
    (hfailed : q.deliveryFailures.has job.generation = true) :
    (q.leavingFailure jobId job).isSome = true := by
  obtain ⟨failure, hfailure⟩ := has_iff.mp hfailed
  unfold leavingFailure
  rw [hfailure]
  cases hletter : q.deadLetteredDeliveries.get? jobId with
  | none => rfl
  | some letter =>
    have hgen := (h.letters hletter).1
    rw [hrecord] at hgen
    dsimp only
    rw [if_pos (Option.some.inj hgen).symm]
    rfl

theorem Ledger.eraseLetter (h : q.Ledger t counted) (jobId : Text) : Ledger { q with
      deadLetteredDeliveries := q.deadLetteredDeliveries.erase jobId
      deadLetteredDeliveryOwners := q.deadLetteredDeliveryOwners.erase jobId }
      { t with jobs := t.jobs.erase jobId } counted := by
  refine ⟨h.counts, ?_⟩
  intro id letter hletter
  rw [get?_erase] at hletter
  split at hletter
  · cases hletter
  · next hne =>
    obtain ⟨hrecord, hfailed⟩ := h.letters hletter
    exact ⟨(get?_erase_ne _ hne).trans hrecord, hfailed⟩

theorem Ledger.evictRecord (h : q.Ledger t counted) (ht : t.WellFormed) (now : Int) (jobId : Text) :
    Records q (q.evictRecord now jobId (t.get jobId)) t
      { t with jobs := t.jobs.erase jobId } counted
      fun _ => False := by
  -- the records of other ids stay
  have hother : ∀ {g}, (∃ id, t.jobs.get? id = some g) → t.jobs.get? jobId ≠ some g →
      ∃ id, (t.jobs.erase jobId).get? id = some g := by
    rintro g ⟨id, hid⟩ hne
    refine ⟨id, ?_⟩
    have hid' : id ≠ jobId := by
      rintro rfl
      exact hne hid
    rw [get?_erase_ne _ hid']
    exact hid
  cases hget : t.get jobId with
  | none =>
    have hnone := ht.get_eq_none.mp hget
    refine ⟨⟨rfl, rfl, rfl, rfl⟩, counted, h.eraseLetter jobId, ?_⟩
    rintro g ((hhas | ⟨hrecord, hfailed⟩ | hmem) | hfalse)
    · exact .inl hhas
    · exact .inr (.inl ⟨hother hrecord (by rw [hnone]; simp), hfailed⟩)
    · exact .inr (.inr hmem)
    · exact hfalse.elim
  | some job =>
    have hrecord := (ht.get_eq_some hget).1
    cases hfailure : q.leavingFailure jobId job with
    | none =>
      rw [evictRecord_some, hfailure]
      refine ⟨⟨rfl, rfl, rfl, rfl⟩, counted, h.eraseLetter jobId, ?_⟩
      rintro g ((hhas | ⟨hrec, hfailed⟩ | hmem) | hfalse)
      · exact .inl hhas
      · refine .inr (.inl ⟨hother hrec fun heq => ?_, hfailed⟩)
        rw [hrecord] at heq
        cases heq
        have hsome := h.leavingFailure_isSome hrecord hfailed
        rw [hfailure] at hsome
        cases hsome
      · exact .inr (.inr hmem)
      · exact hfalse.elim
    | some failure =>
      obtain ⟨counts, evicted, htrim, counted', hlength, hmoved⟩ := trimEvictedDeadLetters_eq
        (q.evictedWith now jobId job failure).size
        { q with evictedDeadLetters := q.evictedWith now jobId job failure } h.counts
      rw [evictRecord_some, hfailure]
      unfold leave
      dsimp only
      rw [htrim]
      have hledger : Ledger { q with
          deadLetterOverflowByOwner := counts, evictedDeadLetters := evicted } t counted' :=
        ⟨hlength, h.letters⟩
      have hkeeps : ∀ g, g = job.generation ∨ q.evictedDeadLetters.has g = true →
          evicted.has g = true ∨ g ∈ counted' := fun g hg =>
        hmoved g (.inl (has_set.mpr hg))
      refine ⟨⟨rfl, rfl, rfl, rfl⟩, counted', hledger.eraseLetter jobId, ?_⟩
      rintro g ((hhas | ⟨hrec, hfailed⟩ | hmem) | hfalse)
      · exact (hkeeps g (.inr hhas)).imp_right .inr
      · by_cases hleaves : t.jobs.get? jobId = some g
        · rw [hrecord] at hleaves
          exact (hkeeps g (.inl (Option.some.inj hleaves).symm)).imp_right .inr
        · exact .inr (.inl ⟨hother hrec hleaves, hfailed⟩)
      · exact (hmoved g (.inr hmem)).imp_right .inr
      · exact hfalse.elim

end DeliveryQueue

end Vibrato.Jobs
