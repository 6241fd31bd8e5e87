import Vibrato.Lib.OrderedMap
import Vibrato.Output.Bytes

/-! `AsyncJobManager` of `async/job-manager.ts`: the table of jobs, and the queue of completion
deliveries with its suppressions, watches, and dead letters. -/

namespace Vibrato.Jobs

open Lib

def DELIVERY_RETRY_BASE_MS : Nat := 500
def DELIVERY_RETRY_MAX_MS : Nat := 30000
def DEFAULT_MAX_DELIVERY_QUEUE : Nat := 100
def DELIVERY_MAX_TEXT_BYTES : Nat := 64 * 1024
def DELIVERY_PREVIEW_HEAD_BYTES : Nat := 32 * 1024
def DELIVERY_PREVIEW_TAIL_BYTES : Nat := 32 * 1024
def DELIVERY_MAX_ATTEMPTS : Nat := 3
def MAX_DEAD_LETTERED_DELIVERIES : Nat := 50
def MAX_EVICTED_DEAD_LETTERS : Nat := 64

/-- `job:n`, or `queued:subagentId:seq` for a resume that has no job yet. -/
inductive Generation where
  | job (n : Nat)
  | queued (subagentId : Text) (seq : Nat)
  deriving DecidableEq

inductive JobStatus where
  | running
  | completed
  | failed
  | cancelled
  | paused
  deriving DecidableEq

def JobStatus.terminal : JobStatus → Bool
  | completed | failed | cancelled => true
  | running | paused => false

structure AsyncJob where
  id : Text
  generation : Generation
  status : JobStatus
  ownerId : Option Text
  endTime : Option Int
  deriving DecidableEq

structure AsyncJobDelivery where
  jobId : Text
  generation : Generation
  text : Text
  attempt : Nat
  nextAttemptAt : Int
  lastError : Option Text
  ownerId : Option Text
  deriving DecidableEq

structure AsyncJobReceiptClaim where
  jobId : Text
  generation : Generation
  ownerId : Option Text

structure DeliveryFailure where
  attempt : Nat
  lastError : Option Text
  recordedAt : Int

structure DeadLetteredDelivery where
  jobId : Text
  generation : Generation
  failure : DeliveryFailure

structure EvictedDeadLetteredDelivery where
  jobId : Text
  generation : Generation
  ownerId : Option Text
  failure : DeliveryFailure

/-- `!filter?.ownerId || ownerId === filter.ownerId`. -/
def matchesOwner (filter ownerId : Option Text) : Bool :=
  match filter with
  | none => true
  | some owner => owner = [] || ownerId = some owner

/-- `unsettled` holds the generations whose run has not ended. -/
structure JobTable where
  now : Int
  retentionMs : Nat
  maxRunningJobs : Nat
  jobGenerationSeq : Nat
  objects : OrderedMap Generation AsyncJob
  jobs : OrderedMap Text Generation
  evictionTimers : OrderedMap Text Int
  unsettled : List Generation
  externallySettled : List Generation

namespace JobTable

/-- `this.#jobs.get(id)`. -/
def get (t : JobTable) (id : Text) : Option AsyncJob := (t.jobs.get? id).bind t.objects.get?

/-- `job.status = status`, with the end time frozen at the first stop. -/
def setStatus (t : JobTable) (generation : Generation) (status : JobStatus) : JobTable :=
  { t with
    objects := t.objects.mapValues fun g job =>
      if g = generation then { job with status, endTime := job.endTime <|> some t.now } else job }

def getRunningJobs (t : JobTable) (filter : Option Text) : List AsyncJob :=
  (t.jobs.keys.filterMap t.get).filter fun job =>
    matchesOwner filter job.ownerId && decide (job.status = .running)

end JobTable

def sliceTextAfterUtf8ByteOffset : Text → Nat → Text
  | text, 0 => text
  | [], _ + 1 => []
  | c :: rest, n + 1 =>
    if n + 1 ≤ c.utf8Size then rest else sliceTextAfterUtf8ByteOffset rest (n + 1 - c.utf8Size)

variable (text : Text)

def sliceTextToUtf8ByteLength (maxBytes : Nat) : Text :=
  takeBudget Char.utf8Size maxBytes text

def boundedDeliveryText : Text :=
  let bytes := Output.byteLength text
  if bytes ≤ DELIVERY_MAX_TEXT_BYTES then text
  else
    sliceTextToUtf8ByteLength text DELIVERY_PREVIEW_HEAD_BYTES ++
      "\n\n[async delivery output truncated from ".toList ++ Text.ofNat bytes ++
      " bytes]\n\n".toList ++ sliceTextAfterUtf8ByteOffset text
        (bytes - DELIVERY_PREVIEW_TAIL_BYTES)

def boundedDeliveryErrorText : Text :=
  let bytes := Output.byteLength text
  if bytes ≤ DELIVERY_MAX_TEXT_BYTES then text
  else
    let marker := " [async delivery error truncated from ".toList ++ Text.ofNat bytes ++
      " bytes]".toList
    sliceTextToUtf8ByteLength text (DELIVERY_MAX_TEXT_BYTES - Output.byteLength marker) ++ marker

/-- `#getRetryDelay`, for the jitter that was drawn. -/
def getRetryDelay (attempt jitterMs : Nat) : Nat :=
  min DELIVERY_RETRY_MAX_MS (DELIVERY_RETRY_BASE_MS * 2 ^ min (attempt - 1) 8 + jitterMs)

/-- `deadLetteredDeliveryOwners` and the overflow counts are keyed by owners that may be absent.
`ownerSubagentShutdownLeases` holds the owners whose shutdown is under way. -/
structure DeliveryQueue where
  maxDeadLetterOverflowOwners : Nat
  deliveries : List AsyncJobDelivery
  inFlightDeliveries : List AsyncJobDelivery
  suppressedDeliveries : List Generation
  suppressedDeliveryJobIds : OrderedMap Generation Text
  watchedJobs : OrderedMap Text Nat
  watchedGenerations : OrderedMap Generation Nat
  deliveryFailures : OrderedMap Generation DeliveryFailure
  deadLetteredDeliveries : OrderedMap Text DeadLetteredDelivery
  deadLetteredDeliveryOwners : OrderedMap Text (Option Text)
  deadLetterOverflowByOwner : OrderedMap (Option Text) Nat
  evictedDeadLetters : OrderedMap Generation EvictedDeadLetteredDelivery
  parkedDeliveries : OrderedMap Generation AsyncJobDelivery
  receiptClaims : OrderedMap Generation AsyncJobReceiptClaim
  ownerSubagentShutdownLeases : List Text

namespace DeliveryQueue

variable (q : DeliveryQueue)

variable (jobId : Text)

def isDeliveryAcknowledged (generation : Generation) : Bool :=
  q.suppressedDeliveries.contains generation || q.suppressedDeliveryJobIds.values.contains jobId

def suppressDelivery (jobId : Option Text) (generation : Generation) : DeliveryQueue :=
  { q with
    suppressedDeliveries := q.suppressedDeliveries.insert generation
    suppressedDeliveryJobIds := match jobId with
      | none => q.suppressedDeliveryJobIds
      | some id => q.suppressedDeliveryJobIds.set generation id }

def isDeliverySuppressed (generation : Generation) : Bool :=
  q.isDeliveryAcknowledged jobId generation || 0 < (q.watchedJobs.get? jobId).getD 0 ||
    0 < (q.watchedGenerations.get? generation).getD 0

def isDeliveryFenced (d : AsyncJobDelivery) : Bool :=
  d.ownerId.any fun owner => q.ownerSubagentShutdownLeases.contains owner

def filterDeliveries (filter : Option Text) : List AsyncJobDelivery :=
  q.deliveries.filter fun d =>
    matchesOwner filter d.ownerId && !q.isDeliverySuppressed d.jobId d.generation

def filterInFlightDeliveries (filter : Option Text) : List AsyncJobDelivery :=
  q.inFlightDeliveries.filter fun d =>
    matchesOwner filter d.ownerId && !q.isDeliverySuppressed d.jobId d.generation

def hasPendingDeliveryForJobId : Bool :=
  q.deliveries.any (·.jobId = jobId) || q.inFlightDeliveries.any (·.jobId = jobId)

def hasDeliveryCollisionForJobId : Bool :=
  q.hasPendingDeliveryForJobId jobId || q.parkedDeliveries.values.any (·.jobId = jobId) ||
    q.receiptClaims.values.any (·.jobId = jobId) ||
    q.suppressedDeliveryJobIds.values.contains jobId || q.deadLetteredDeliveries.has jobId ||
    q.evictedDeadLetters.values.any (·.jobId = jobId)

/-- The owner that `#recordDeadLetterOverflow` folds into the unnamed count: the oldest named
one. -/
def oldestNamedOwner : Option Text :=
  (q.deadLetterOverflowByOwner.keys.filterMap id).head?

def recordDeadLetterOverflow (ownerId : Option Text) : DeliveryQueue :=
  let counts := q.deadLetterOverflowByOwner
  if ownerId = none ∨ counts.has ownerId = true then
    { q with deadLetterOverflowByOwner := counts.set ownerId ((counts.get? ownerId).getD 0 + 1) }
  else
    let named := counts.keys.filterMap id
    let counts :=
      if q.maxDeadLetterOverflowOwners ≤ named.length then
        match q.oldestNamedOwner with
        | none => counts
        | some oldest =>
          let rest := counts.erase (some oldest)
          rest.set none ((rest.get? none).getD 0 + (counts.get? (some oldest)).getD 0)
      else counts
    { q with deadLetterOverflowByOwner := counts.set ownerId 1 }

def trimEvictedDeadLetters : Nat → DeliveryQueue → DeliveryQueue
  | 0, q => q
  | fuel + 1, q =>
    if MAX_EVICTED_DEAD_LETTERS < q.evictedDeadLetters.size then
      match q.evictedDeadLetters.oldest? with
      | none => q
      | some (generation, entry) =>
        trimEvictedDeadLetters fuel { q.recordDeadLetterOverflow entry.ownerId with
          evictedDeadLetters := q.evictedDeadLetters.erase generation }
    else q

def recordEvictedDeadLetter (now : Int) (d : AsyncJobDelivery) : DeliveryQueue :=
  let evicted := (q.evictedDeadLetters.erase d.generation).set d.generation
    ⟨d.jobId, d.generation, d.ownerId, ⟨d.attempt, d.lastError, now⟩⟩
  trimEvictedDeadLetters evicted.size { q with evictedDeadLetters := evicted }

variable (t : JobTable)

def pruneEvictedDeadLetters : DeliveryQueue :=
  { q with
    deadLetteredDeliveries := q.deadLetteredDeliveries.retain fun jobId _ => t.jobs.has jobId
    deadLetteredDeliveryOwners := q.deadLetteredDeliveryOwners.retain fun jobId _ =>
      !q.deadLetteredDeliveries.has jobId || t.jobs.has jobId }

def trimDeadLetters : Nat → DeliveryQueue → DeliveryQueue
  | 0, q => q
  | fuel + 1, q =>
    if MAX_DEAD_LETTERED_DELIVERIES < q.deadLetteredDeliveries.size then
      match q.deadLetteredDeliveries.oldest? with
      | none => q
      | some (jobId, _) =>
        trimDeadLetters fuel { q with
          deadLetteredDeliveries := q.deadLetteredDeliveries.erase jobId
          deadLetteredDeliveryOwners := q.deadLetteredDeliveryOwners.erase jobId }
    else q

def recordDeadLetter (d : AsyncJobDelivery) : DeliveryQueue :=
  let q := q.pruneEvictedDeadLetters t
  match t.get d.jobId with
  | none => q
  | some job =>
    if job.generation ≠ d.generation then q
    else
      let failure : DeliveryFailure := ⟨d.attempt, d.lastError, t.now⟩
      let letters := (q.deadLetteredDeliveries.erase d.jobId).set d.jobId
        ⟨d.jobId, d.generation, failure⟩
      trimDeadLetters letters.size { q with
        deliveryFailures := q.deliveryFailures.set d.generation failure
        deadLetteredDeliveries := letters
        deadLetteredDeliveryOwners :=
          (q.deadLetteredDeliveryOwners.erase d.jobId).set d.jobId d.ownerId }

def recordDeadLetterOrEvicted (d : AsyncJobDelivery) : DeliveryQueue :=
  if (t.get d.jobId).any fun job => decide (job.generation = d.generation) then
    q.recordDeadLetter t d
  else q.recordEvictedDeadLetter t.now d

/-- The loop of `#enqueueDelivery` that drops the oldest deliveries over the cap. -/
def capDeliveries (t : JobTable) : Nat → DeliveryQueue → DeliveryQueue
  | 0, q => q
  | fuel + 1, q =>
    if DEFAULT_MAX_DELIVERY_QUEUE < q.deliveries.length then
      match q.deliveries with
      | [] => q
      | dropped :: rest =>
        capDeliveries t fuel ({ q with deliveries := rest }.recordDeadLetterOrEvicted t dropped)
    else q

def enqueueDelivery (jobId text : Text) : DeliveryQueue :=
  match t.get jobId with
  | none => q
  | some job =>
    if q.isDeliveryAcknowledged jobId job.generation then q
    else
      let delivery : AsyncJobDelivery :=
        { jobId
          generation := job.generation
          text := boundedDeliveryText text
          attempt := 0
          nextAttemptAt := t.now
          lastError := none
          ownerId := job.ownerId }
      let deliveries := q.deliveries ++ [delivery]
      capDeliveries t deliveries.length { q with deliveries }

/-- `#deliverDelivery` up to its callback: a superseded or acknowledged delivery is dropped, any
other is in flight. -/
def beginDelivery (d : AsyncJobDelivery) : DeliveryQueue :=
  if (t.get d.jobId).any fun job => decide (job.generation ≠ d.generation) then q
  else if q.isDeliveryAcknowledged d.jobId d.generation then q
  else { q with inFlightDeliveries := q.inFlightDeliveries ++ [d] }

def failDelivery (d : AsyncJobDelivery) (error : Text) (jitterMs : Nat) : DeliveryQueue :=
  let d := { d with attempt := d.attempt + 1, lastError := some (boundedDeliveryErrorText error) }
  if DELIVERY_MAX_ATTEMPTS ≤ d.attempt then q.recordDeadLetterOrEvicted t d
  else
    let d := { d with nextAttemptAt := t.now + getRetryDelay d.attempt jitterMs }
    if (t.get d.jobId).all (fun job => decide (job.generation = d.generation)) &&
        !q.isDeliveryAcknowledged d.jobId d.generation then
      { q with deliveries := q.deliveries ++ [d] }
    else q

def dropAcknowledged : DeliveryQueue :=
  { q with
    deliveries := q.deliveries.filter fun d => !q.isDeliveryAcknowledged d.jobId d.generation }

/-- The generations under a job id that `acknowledgeDeliveries` suppresses. -/
def generationsOf (jobId : Text) : List Generation :=
  (t.get jobId).toList.map (·.generation) ++
    ((q.deliveries ++ q.inFlightDeliveries).filter (·.jobId = jobId)).map (·.generation) ++
    (q.parkedDeliveries.values.filter (·.jobId = jobId)).map (·.generation) ++
    (q.receiptClaims.values.filter (·.jobId = jobId)).map (·.generation)

def acknowledgeJob (q : DeliveryQueue) (jobId : Text) : DeliveryQueue :=
  let q := (q.generationsOf t jobId).foldl (fun q g => q.suppressDelivery (some jobId) g) q
  { q with
    parkedDeliveries := q.parkedDeliveries.retain fun _ d => d.jobId ≠ jobId
    receiptClaims := q.receiptClaims.retain fun _ c => c.jobId ≠ jobId }

def uniqueJobIds (jobIds : List Text) : List Text :=
  ((jobIds.map Text.trim).filter (· ≠ [])).eraseDups

def acknowledgeDeliveries (jobIds : List Text) : DeliveryQueue :=
  if uniqueJobIds jobIds = [] then q
  else ((uniqueJobIds jobIds).foldl (acknowledgeJob t) q).dropAcknowledged

def retainsGeneration (generation : Generation) : Bool :=
  (t.jobs.keys.filterMap t.get).any (·.generation = generation) ||
    q.deliveries.any (·.generation = generation) ||
    q.inFlightDeliveries.any (·.generation = generation) ||
    q.parkedDeliveries.has generation || q.receiptClaims.has generation ||
    q.deadLetteredDeliveries.values.any (·.generation = generation) ||
    q.evictedDeadLetters.has generation

def pruneSuppressedDeliveries : DeliveryQueue :=
  { q with
    suppressedDeliveries := q.suppressedDeliveries.filter (q.retainsGeneration t)
    suppressedDeliveryJobIds := q.suppressedDeliveryJobIds.retain fun g _ =>
      !q.suppressedDeliveries.contains g || q.retainsGeneration t g }

/-- What `#evictJob` does to the dead letters of the record that leaves. -/
def evictRecord (now : Int) (jobId : Text) (job : Option AsyncJob) : DeliveryQueue :=
  let deadLetter := q.deadLetteredDeliveries.get? jobId
  let failure := job.bind fun job =>
    match q.deliveryFailures.get? job.generation, deadLetter with
    | some failure, none => some failure
    | some failure, some letter =>
      if letter.generation = job.generation then some failure else none
    | none, some letter =>
      if job.generation = letter.generation then some letter.failure else none
    | none, none => none
  let q := match job, failure with
    | some job, some failure =>
      let evicted := q.evictedDeadLetters.set job.generation
        ⟨job.id, job.generation, ((q.deadLetteredDeliveryOwners.get? jobId).join <|> job.ownerId),
          { failure with recordedAt := now }⟩
      trimEvictedDeadLetters evicted.size { q with evictedDeadLetters := evicted }
    | _, _ => q
  { q with
    deadLetteredDeliveries := q.deadLetteredDeliveries.erase jobId
    deadLetteredDeliveryOwners := q.deadLetteredDeliveryOwners.erase jobId }

end DeliveryQueue

end Vibrato.Jobs
