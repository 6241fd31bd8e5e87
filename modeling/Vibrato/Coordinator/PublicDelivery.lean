import Mathlib.Data.List.Sort
import Vibrato.Text

/-! Public delivery in `coordinator-mcp/question-state.ts`: the outbox of a session's transaction,
and the claims, recoveries, acknowledgements, and releases that `withSessionTransaction` commits. -/

namespace Vibrato.Coordinator

open List

def PUBLIC_CLAIM_LEASE_MS : Int := 30000

def RETENTION_MS : Int := 30 * 24 * 60 * 60 * 1000

def DELIVERY_REVISION_WIDTH : Nat := 20

inductive PublicDeliveryState where
  | pending
  | claimed
  | acknowledged
  deriving DecidableEq

structure PublicDelivery where
  state : PublicDeliveryState
  claimFence : Option Nat
  claimExpiresAt : Option Int
  journalSeq : Option Nat
  acknowledgedAt : Option Int
  deriving DecidableEq

def PublicDelivery.fresh : PublicDelivery := ⟨.pending, none, none, none, none⟩

/-- `createdAt` is `payload.created_at`, parsed; the other texts of an event play no part here. -/
structure OutboxEvent where
  id : Text
  transactionRevision : Nat
  createdAt : Option Int
  emitted : Bool
  publicEventId : Text
  publicDelivery : PublicDelivery
  deriving DecidableEq

/-- A record of events, each under its id, in insertion order. -/
structure Outbox where
  events : List OutboxEvent
  keys_distinct : (events.map (·.id)).Nodup
  deriving DecidableEq

namespace Outbox

def empty : Outbox := ⟨[], nodup_nil⟩

variable (o : Outbox)

def update (f : OutboxEvent → OutboxEvent) (keeps : ∀ e, (f e).id = e.id) : Outbox :=
  ⟨o.events.map f, by
    have hids : (o.events.map f).map (·.id) = o.events.map (·.id) := by
      rw [map_map]
      exact map_congr_left fun e _ => keeps e
    rw [hids]
    exact o.keys_distinct⟩

/-- `delete outbox[id]` for the events that fail the test. -/
def keep (test : OutboxEvent → Bool) : Outbox :=
  ⟨o.events.filter test, o.keys_distinct.sublist (filter_sublist.map _)⟩

/-- `outbox[event.id] ??= event`. -/
def add (event : OutboxEvent) : Outbox :=
  if h : event.id ∈ o.events.map (·.id) then o
  else ⟨o.events ++ [event], by
    rw [map_append, nodup_append]
    refine ⟨o.keys_distinct, nodup_singleton _, ?_⟩
    rintro a ha b hb rfl
    rw [map_singleton, mem_singleton] at hb
    exact h (hb ▸ ha)⟩

def find (o : Outbox) (publicEventId : Text) : Option OutboxEvent :=
  o.events.find? fun e => e.publicEventId = publicEventId

end Outbox

/-- `rest` holds the canonical state, the requests, the projection, and the recovery marks. -/
structure SessionTransaction (ρ : Type) where
  sessionId : Text
  revision : Nat
  outbox : Outbox
  rest : ρ
  deriving DecidableEq

/-- What the operations use of the rest of a transaction: its part of `assertTransaction`, its part
of `compactTransaction`, and the scheduler marks for a revision.  `localeCompare` is the collation
of the runtime. -/
structure Env (ρ : Type) where
  localeCompare : Text → Text → Ordering
  assertRest : SessionTransaction ρ → Bool
  compactRest : Int → SessionTransaction ρ → Except Text ρ
  markScheduler : Nat → ρ → ρ

section Transaction

variable {ρ : Type} (env : Env ρ)

/-- `normalizeOutbox`, on an event whose delivery is well formed. -/
def normalizeEvent (event : OutboxEvent) : OutboxEvent :=
  if event.publicEventId = [] then { event with publicEventId := event.id } else event

theorem normalizeEvent_id (event : OutboxEvent) : (normalizeEvent event).id = event.id := by
  unfold normalizeEvent
  split <;> rfl

variable (tx : SessionTransaction ρ)

def normalizeOutbox : SessionTransaction ρ :=
  { tx with outbox := tx.outbox.update normalizeEvent normalizeEvent_id }

def isPublicIdChar (c : Char) : Bool :=
  c.isAlphanum || c = '_' || c = '.' || c = ':' || c = '-'

/-- `/^[a-zA-Z0-9][a-zA-Z0-9_.:-]{0,511}$/`. -/
def safePublicEventId : Text → Bool
  | [] => false
  | c :: rest => c.isAlphanum && rest.all isPublicIdChar && decide (rest.length ≤ 511)

def invalidDelivery (d : PublicDelivery) : Bool :=
  d.claimFence = some 0 || d.journalSeq = some 0 ||
  match d.state with
  | .pending =>
      d.claimFence.isSome || d.claimExpiresAt.isSome || d.journalSeq.isSome ||
        d.acknowledgedAt.isSome
  | .claimed =>
      d.claimFence.isNone || d.claimExpiresAt.isNone || d.journalSeq.isSome ||
        d.acknowledgedAt.isSome
  | .acknowledged => d.claimExpiresAt.isSome || d.journalSeq.isNone

def invalidOutbox (revision : Nat) (event : OutboxEvent) : Bool :=
  event.id = [] || event.transactionRevision < 1 || revision < event.transactionRevision ||
    !safePublicEventId event.publicEventId || invalidDelivery event.publicDelivery

def assertTransaction : Bool :=
  env.assertRest tx && !tx.outbox.events.any (invalidOutbox tx.revision) &&
    decide (tx.outbox.events.map (·.publicEventId)).Nodup

/-- An event that `compactTransaction` keeps. -/
def retained (revision : Nat) (now : Int) (event : OutboxEvent) : Bool :=
  !(event.emitted && event.publicDelivery.state = .acknowledged &&
    event.transactionRevision < revision &&
    event.createdAt.any fun created => created + RETENTION_MS < now)

def compactTransaction (now : Int) (tx : SessionTransaction ρ) :
    Except Text (SessionTransaction ρ) := do
  let tx := normalizeOutbox tx
  let tx := { tx with outbox := tx.outbox.keep (retained tx.revision now) }
  let rest ← env.compactRest now tx
  return { tx with rest }

/-- An error leaves the stored transaction as it is, and so does an operation that changes
nothing. -/
def withSessionTransaction [DecidableEq ρ] {α : Type} (now : Int)
    (operation : SessionTransaction ρ → Except Text (α × SessionTransaction ρ))
    (stored : SessionTransaction ρ) : Except Text (α × SessionTransaction ρ) := do
  if !assertTransaction env stored then throw "state_corrupt".toList
  let (result, tx) ← operation (normalizeOutbox stored)
  let tx ← compactTransaction env now (normalizeOutbox tx)
  if tx = stored then return (result, stored)
  let tx := { tx with
    rest := env.markScheduler (tx.revision + 1) tx.rest
    revision := tx.revision + 1 }
  if !assertTransaction env tx then throw "state_corrupt".toList
  return (result, tx)

/-- `text.padStart(width, "0")`. -/
def padStart (width : Nat) (text : Text) : Text :=
  List.replicate (width - text.length) '0' ++ text

def deliveryOrderKey (sessionId : Text) (event : OutboxEvent) : Text :=
  sessionId ++ Char.ofNat 0 :: padStart DELIVERY_REVISION_WIDTH
    (Text.ofNat event.transactionRevision) ++ Char.ofNat 0 :: event.publicEventId

def claimExpired (delivery : PublicDelivery) (now : Int) : Bool :=
  delivery.state = .claimed && delivery.claimExpiresAt.any (· ≤ now)

structure ClaimOptions where
  limit : Option Int := none
  leaseMs : Option Int := none
  afterOrderKey : Option Text := none

variable (options : ClaimOptions)

def ClaimOptions.boundedLimit : Nat :=
  (max 1 (min (options.limit.getD 16) 128)).toNat

def ClaimOptions.boundedLeaseMs : Int :=
  max 1000 (min (options.leaseMs.getD PUBLIC_CLAIM_LEASE_MS) (5 * 60000))

/-- `options.after_order_key && deliveryOrderKey(sessionId, event) <= options.after_order_key`, on
code units. -/
def ClaimOptions.behind (sessionId : Text) (event : OutboxEvent) : Bool :=
  match options.afterOrderKey with
  | none => false
  | some key => key ≠ [] && decide ((deliveryOrderKey sessionId event).utf16 ≤ Text.utf16 key)

structure PublicDeliveryClaim where
  event : OutboxEvent
  claimFence : Nat
  deriving DecidableEq

def sortsBefore (a b : OutboxEvent) : Prop :=
  a.transactionRevision < b.transactionRevision ∨
    a.transactionRevision = b.transactionRevision ∧
      env.localeCompare a.publicEventId b.publicEventId ≠ .gt

instance : DecidableRel (sortsBefore env) := fun _ _ => inferInstanceAs (Decidable (_ ∨ _))

/-- An event as `claimPublicDelivery` leaves it. -/
def OutboxEvent.claim (event : OutboxEvent) (fence : Nat) (expiresAt : Int) : OutboxEvent :=
  { event with
    publicDelivery := { event.publicDelivery with
      state := .claimed
      claimFence := some fence
      claimExpiresAt := some expiresAt } }

/-- The loop of `claimPublicDelivery` over the sorted events. -/
def claimLoop (options : ClaimOptions) (now : Int) (sessionId : Text) (revision : Nat) :
    List OutboxEvent → List PublicDeliveryClaim → List PublicDeliveryClaim
  | [], claimed => claimed
  | event :: rest, claimed =>
    if event.publicDelivery.state = .acknowledged then
      claimLoop options now sessionId revision rest claimed
    else if options.behind sessionId event then
      claimLoop options now sessionId revision rest claimed
    else if event.publicDelivery.state = .claimed ∧
      claimExpired event.publicDelivery now = false then
      claimLoop options now sessionId revision rest claimed
    else
      let fence := revision + claimed.length + 1
      let claimed := claimed ++ [⟨event.claim fence (now + options.boundedLeaseMs), fence⟩]
      if options.boundedLimit ≤ claimed.length then claimed
      else claimLoop options now sessionId revision rest claimed

variable (claims : List PublicDeliveryClaim)

def storeClaims (event : OutboxEvent) : OutboxEvent :=
  ((claims.map (·.event)).find? fun e => e.id = event.id).getD event

theorem storeClaims_id (event : OutboxEvent) : (storeClaims claims event).id = event.id := by
  unfold storeClaims
  cases h : (claims.map (·.event)).find? fun e => e.id = event.id with
  | none => rfl
  | some e => simpa using find?_some h

variable (now : Int)

def claimOperation (tx : SessionTransaction ρ) :
    Except Text (List PublicDeliveryClaim × SessionTransaction ρ) :=
  let tx := normalizeOutbox tx
  let claims := claimLoop options now tx.sessionId tx.revision
    (tx.outbox.events.insertionSort (sortsBefore env)) []
  .ok (claims, { tx with outbox := tx.outbox.update (storeClaims claims) (storeClaims_id claims) })

def claimPublicDelivery [DecidableEq ρ] (now commitAt : Int) :
    SessionTransaction ρ → Except Text (List PublicDeliveryClaim × SessionTransaction ρ) :=
  withSessionTransaction env commitAt (claimOperation env options now)

def recoverEvent (event : OutboxEvent) : OutboxEvent :=
  if claimExpired event.publicDelivery now then
    { event with
      publicDelivery := { event.publicDelivery with
        state := .pending
        claimFence := none
        claimExpiresAt := none } }
  else event

theorem recoverEvent_id (event : OutboxEvent) : (recoverEvent now event).id = event.id := by
  unfold recoverEvent
  split <;> rfl

def recoverOperation (tx : SessionTransaction ρ) : Except Text (Nat × SessionTransaction ρ) :=
  .ok ((tx.outbox.events.filter fun e => claimExpired e.publicDelivery now).length,
    { tx with outbox := tx.outbox.update (recoverEvent now) (recoverEvent_id now) })

def recoverExpiredPublicDelivery [DecidableEq ρ] (now commitAt : Int) :
    SessionTransaction ρ → Except Text (Nat × SessionTransaction ρ) :=
  withSessionTransaction env commitAt (recoverOperation now)

def setDelivery (id : Text) (delivery : PublicDelivery) (event : OutboxEvent) : OutboxEvent :=
  if event.id = id then { event with publicDelivery := delivery } else event

theorem setDelivery_id (id : Text) (delivery : PublicDelivery) (event : OutboxEvent) :
    (setDelivery id delivery event).id = event.id := by
  unfold setDelivery
  split <;> rfl

def SessionTransaction.setDelivery (tx : SessionTransaction ρ) (event : OutboxEvent)
    (delivery : PublicDelivery) : SessionTransaction ρ :=
  { tx with
    outbox := tx.outbox.update (Coordinator.setDelivery event.id delivery) (setDelivery_id _ _) }

structure AcknowledgeInput where
  publicEventId : Text
  claimFence : Nat
  journalSeq : Nat

def acknowledgeOperation (input : AcknowledgeInput) (now : Int) (tx : SessionTransaction ρ) :
    Except Text (OutboxEvent × SessionTransaction ρ) :=
  match tx.outbox.find input.publicEventId with
  | none => .error "resource_gone".toList
  | some event =>
    let delivery := event.publicDelivery
    if delivery.state = .acknowledged then
      if delivery.journalSeq ≠ some input.journalSeq then .error "terminal_uncertain".toList
      else .ok (event, tx)
    else if delivery.state ≠ .claimed ∨ delivery.claimFence ≠ some input.claimFence then
      .error "terminal_uncertain".toList
    else
      let delivery := { delivery with
        state := .acknowledged
        journalSeq := some input.journalSeq
        claimExpiresAt := none
        acknowledgedAt := some now }
      .ok ({ event with publicDelivery := delivery }, tx.setDelivery event delivery)

def acknowledgePublicDelivery [DecidableEq ρ] (input : AcknowledgeInput) (now commitAt : Int) :
    SessionTransaction ρ → Except Text (OutboxEvent × SessionTransaction ρ) :=
  withSessionTransaction env commitAt (acknowledgeOperation input now)

def releaseOperation (publicEventId : Text) (claimFence : Nat) (tx : SessionTransaction ρ) :
    Except Text (Unit × SessionTransaction ρ) :=
  match tx.outbox.find publicEventId with
  | none => .ok ((), tx)
  | some event =>
    let delivery := event.publicDelivery
    if delivery.state ≠ .claimed ∨ delivery.claimFence ≠ some claimFence then .ok ((), tx)
    else
      let delivery := { delivery with
        state := .pending
        claimFence := none
        claimExpiresAt := none }
      .ok ((), tx.setDelivery event delivery)

def releasePublicDeliveryClaim [DecidableEq ρ] (publicEventId : Text) (claimFence : Nat)
    (commitAt : Int) : SessionTransaction ρ → Except Text (Unit × SessionTransaction ρ) :=
  withSessionTransaction env commitAt (releaseOperation publicEventId claimFence)

/-- An event that a transaction appends, by its id and its payload's `created_at`. -/
structure NewEvent where
  id : Text
  createdAt : Option Int

def NewEvent.event (new : NewEvent) (revision : Nat) : OutboxEvent :=
  { id := new.id
    transactionRevision := revision
    createdAt := new.createdAt
    emitted := false
    publicEventId := new.id
    publicDelivery := .fresh }

def appendEvents (o : Outbox) (revision : Nat) (events : List NewEvent) : Outbox :=
  events.foldl (fun o new => o.add (new.event revision)) o

/-- `appendOutboxEvents` marks every event as emitted. -/
def markEmitted (event : OutboxEvent) : OutboxEvent := { event with emitted := true }

/-- A transaction that is not about public delivery: it may fail, change the rest, append events,
and mark all events as emitted. -/
structure OtherChange (ρ : Type) where
  rest : SessionTransaction ρ → Except Text ρ
  events : List NewEvent
  emit : Bool

def otherOperation (change : OtherChange ρ) (tx : SessionTransaction ρ) :
    Except Text (Unit × SessionTransaction ρ) := do
  let rest ← change.rest tx
  let outbox := appendEvents tx.outbox (tx.revision + 1) change.events
  let outbox := if change.emit then outbox.update markEmitted fun _ => rfl else outbox
  return ((), { tx with rest, outbox })

def createTransaction (sessionId : Text) (events : List NewEvent) (rest : ρ) :
    SessionTransaction ρ :=
  { sessionId
    revision := 1
    outbox := appendEvents .empty 1 events
    rest }

end Transaction

end Vibrato.Coordinator
