import Vibrato.Jobs.Deliveries

/-! `FoldCoordinator` of `session/fold-coordinator.ts`, for one job. -/

namespace Vibrato.Session.Fold

open Vibrato.Jobs Lib

def FOLD_WAKE_MERGE_WINDOW_MS : Nat := 800

inductive FoldWaitKind where
  | bashManaged
  | clientTerminal
  | bashPty
  deriving DecidableEq

structure JobOutputRetrieval where
  jobId : Text
  generation : Text
  instruction : Text
  deriving DecidableEq

structure FoldReceipt where
  jobId : Text
  jobGeneration : Text
  kind : FoldWaitKind
  label : Text
  outputRef : JobOutputRetrieval
  remainingIntent : Option Text
  foldedAt : Int
  cwdSensitive : Bool
  deriving DecidableEq

structure ForegroundTerminalPayload where
  jobId : Text
  generation : Text
  text : Text

/-- `signal` says whether there is one.  `resolves` says whether `resolveForegroundObserver` settles
the observer, which that of a terminal never does. -/
structure FoldAdapter where
  id : Nat
  kind : FoldWaitKind
  jobId : Text
  jobGeneration : Text
  label : Text
  cwdSensitive : Bool
  signal : Bool
  originatingTurn : Option Bool
  outputRef : JobOutputRetrieval
  resolves : Bool
  deriving DecidableEq

inductive FoldRequestResult where
  | folded (receipt : FoldReceipt)
  | unavailable (reason : Text)
  | alreadyTerminal (reason : Text)
  | captureFailed (reason : Text)

inductive FoldDeliveryDisposition where
  | ordinary
  | parked
  | receipt (receipt : FoldReceipt) (text : Text)

inductive FoldSlot where
  | reserved (adapter : FoldAdapter) (parked : Option ForegroundTerminalPayload)
      (parkedAt : Option Int)
  | present (adapter : FoldAdapter) (receipt : FoldReceipt)

def FoldSlot.adapter : FoldSlot → FoldAdapter
  | reserved adapter _ _ => adapter
  | present adapter _ => adapter

def FoldSlot.parked : FoldSlot → Option ForegroundTerminalPayload
  | reserved _ parked _ => parked
  | present _ _ => none

inductive FoldRetireReason where
  | cancel
  | evict

/-- What becomes of a call: its fence is armed and released, and it returns. -/
inductive CallEvent where
  | armed
  | released
  | returned (result : FoldRequestResult)

/-- What bears on receipts: a call folds, a receipt that is not yet taken is retired by
cancellation, or `onDelivery` returns. -/
inductive ReceiptEvent where
  | folded (receipt : FoldReceipt)
  | retired
  | delivered (disposition : FoldDeliveryDisposition)

structure Capture where
  call : Nat
  adapter : FoldAdapter
  deriving DecidableEq

/-- The coordinator as far as one job goes, with the job, its timers, the calls that are capturing,
and the signals and observers of the waits.  The last four fields record what happened: `handings`
has the texts that went to an observer or to the wake path. -/
structure FoldState where
  now : Int
  generation : Text
  status : JobStatus
  participants : OrderedMap Nat FoldAdapter
  nextParticipantId : Nat
  slot : Option FoldSlot
  carrier : Option FoldReceipt
  folding : Bool
  timers : List Int
  calls : Nat
  capturing : List Capture
  aborted : List Nat
  settled : List Nat
  trace : List (Nat × CallEvent)
  parkings : List Text
  handings : List Text
  history : List ReceiptEvent

namespace FoldState

def create (now : Int) (generation : Text) : FoldState where
  now
  generation
  status := .running
  participants := .empty
  nextParticipantId := 0
  slot := none
  carrier := none
  folding := false
  timers := []
  calls := 0
  capturing := []
  aborted := []
  settled := []
  trace := []
  parkings := []
  handings := []
  history := []

variable (s : FoldState)

def resolveTarget : Option FoldAdapter := s.participants.values.getLast?

def isAborted (adapter : FoldAdapter) : Bool :=
  adapter.signal && s.aborted.contains adapter.id

def note (call : Nat) (event : CallEvent) : FoldState :=
  { s with trace := s.trace ++ [(call, event)] }

def releaseFence (call : Nat) (fences : Bool) : FoldState :=
  if fences then s.note call .released else s

def resolveForegroundObserver (adapter : FoldAdapter) (payload : ForegroundTerminalPayload) :
    FoldState :=
  { s with
    settled := if adapter.resolves then s.settled.insert adapter.id else s.settled
    handings := s.handings ++ [payload.text] }

def onDelivery (text : Text) : FoldState × FoldDeliveryDisposition :=
  match s.carrier with
  | some carried => (s, .receipt carried text)
  | none =>
    match s.slot with
    | none => (s, .ordinary)
    | some (.reserved adapter _ _) =>
      ({ s with
          slot := some (.reserved adapter (some ⟨adapter.jobId, adapter.jobGeneration, text⟩)
            (some s.now))
          timers := s.timers ++ [s.now + FOLD_WAKE_MERGE_WINDOW_MS * 4]
          parkings := s.parkings ++ [text] }, .parked)
    | some (.present _ receipt) =>
      ({ s with carrier := some receipt, slot := none }, .receipt receipt text)

variable {s : FoldState} {receipt : FoldReceipt} {parkedAt : Option Int}
    {parked : Option ForegroundTerminalPayload}
  {adapter : FoldAdapter}

theorem onDelivery_carried (h : s.carrier = some receipt)
    (text : Text) : s.onDelivery text = (s, .receipt receipt text) := by
  unfold onDelivery
  rw [h]

theorem onDelivery_free (hcarrier : s.carrier = none) (hslot : s.slot = none)
    (text : Text) : s.onDelivery text = (s, .ordinary) := by
  unfold onDelivery
  rw [hcarrier, hslot]

theorem onDelivery_reserved (hcarrier : s.carrier = none)
    (hslot : s.slot = some (.reserved adapter parked parkedAt)) (text : Text) :
    s.onDelivery text = ({ s with
          slot := some (.reserved adapter (some ⟨adapter.jobId, adapter.jobGeneration, text⟩)
            (some s.now))
          timers := s.timers ++ [s.now + FOLD_WAKE_MERGE_WINDOW_MS * 4]
          parkings := s.parkings ++ [text] }, .parked) := by
  unfold onDelivery
  rw [hcarrier, hslot]

theorem onDelivery_present
    (hcarrier : s.carrier = none) (hslot : s.slot = some (.present adapter receipt)) (text : Text) :
    s.onDelivery text = ({ s with carrier := some receipt, slot := none },
      .receipt receipt text) := by
  unfold onDelivery
  rw [hcarrier, hslot]

variable (s)

def rollback (call : Nat) (adapter : FoldAdapter) (fences : Bool) (reason : Text) : FoldState :=
  let slot := s.slot
  let s := { s with slot := none, folding := false }
  let s := s.releaseFence call fences
  let s := match slot.bind FoldSlot.parked with
    | none => s
    | some parked => s.resolveForegroundObserver adapter parked
  s.note call (.returned (.captureFailed reason))

def settledText : Text := "the wait settled while its receipt was being captured".toList

def giveUp (call : Nat) (fences : Bool) (reason : Text) : FoldState :=
  let s := { s with folding := false }
  (s.releaseFence call fences).note call (.returned (.alreadyTerminal reason))

def receiptFor (adapter : FoldAdapter) (remainingIntent : Option Text) : FoldReceipt where
  jobId := adapter.jobId
  jobGeneration := adapter.jobGeneration
  kind := adapter.kind
  label := adapter.label
  outputRef := adapter.outputRef
  remainingIntent
  foldedAt := s.now
  cwdSensitive := adapter.cwdSensitive

def replay (parked : ForegroundTerminalPayload) : FoldState :=
  match s.onDelivery parked.text with
  | (s, .receipt _ text) => { s with handings := s.handings ++ [text] }
  | (s, _) => s

def promote (call : Nat) (adapter : FoldAdapter)
    (parked : Option ForegroundTerminalPayload) (receipt : FoldReceipt) : FoldState :=
  let s := { s with
    slot := some (.present adapter receipt)
    settled := s.settled.insert adapter.id
    folding := false }
  let s := match parked with
    | none => s
    | some parked => s.replay parked
  { s.note call (.returned (.folded receipt)) with history := s.history ++ [.folded receipt] }

/-- `requestFold` after its await. -/
def finishFold (call : Nat) (adapter : FoldAdapter) (fences : Bool)
    (remainingIntent : Option Text) : FoldState :=
  match s.slot.filter (·.adapter.id = adapter.id) with
  | none => s.giveUp call fences settledText
  | some current =>
    if s.isAborted adapter || decide (s.status ≠ .running) then
      s.rollback call adapter fences settledText
    else if s.settled.contains adapter.id then
      { s with slot := none }.giveUp call fences "the foreground observer already settled".toList
    else s.promote call adapter current.parked (s.receiptFor adapter remainingIntent)

variable {s}

theorem finishFold_none (h : s.slot = none) (call : Nat) (adapter : FoldAdapter)
    (fences : Bool) (remainingIntent : Option Text) :
    s.finishFold call adapter fences remainingIntent = s.giveUp call fences settledText := by
  unfold finishFold
  rw [h]
  rfl

theorem finishFold_reserved (h : s.slot = some (.reserved adapter parked parkedAt)) (call : Nat)
    (fences : Bool)
    (remainingIntent : Option Text) : s.finishFold call adapter fences remainingIntent =
      if s.isAborted adapter || decide (s.status ≠ .running) then
        s.rollback call adapter fences settledText
      else if s.settled.contains adapter.id then
        { s with slot := none }.giveUp call fences "the foreground observer already settled".toList
      else s.promote call adapter parked (s.receiptFor adapter remainingIntent) := by
  have hown : s.slot.filter (·.adapter.id = adapter.id) =
      some (.reserved adapter parked parkedAt) := by
    rw [h]
    simp [FoldSlot.adapter]
  unfold finishFold
  rw [hown]
  rfl

theorem promote_parked (hcarrier : s.carrier = none) (call : Nat) (adapter : FoldAdapter)
    (parked : ForegroundTerminalPayload) (receipt : FoldReceipt) :
    s.promote call adapter (some parked) receipt =
      { s with
        slot := none
        carrier := some receipt
        settled := s.settled.insert adapter.id
        folding := false
        handings := s.handings ++ [parked.text]
        trace := s.trace ++ [(call, .returned (.folded receipt))]
        history := s.history ++ [.folded receipt] } := by
  let s₁ : FoldState := { s with
    slot := some (.present adapter receipt)
    settled := s.settled.insert adapter.id
    folding := false }
  have hreplay : s₁.replay parked =
      { s₁ with
        carrier := some receipt, slot := none, handings := s.handings ++ [parked.text] } := by
    unfold replay
    rw [onDelivery_present (s := s₁) hcarrier rfl]
  show ({ (s₁.replay parked).note call (.returned (.folded receipt)) with
    history := (s₁.replay parked).history ++ [.folded receipt] } : FoldState) = _
  rw [hreplay]
  rfl

/-- What `requestFold` is called with, and what it reads from its dependencies: whether `getJob`
finds the job, whether a turn is active, and the message with which the capture throws at once. -/
structure FoldRequest where
  explicit : Option FoldAdapter
  getJob : Bool
  hasActiveTurn : Option Bool
  captureThrows : Option Text

variable (s)

/-- The slot is reserved and the fence armed, and the call goes up to its await, or to its end if it
does not wait. -/
def beginFold (call : Nat) (adapter : FoldAdapter) (request : FoldRequest) : FoldState :=
  let s := { s with folding := true, slot := some (.reserved adapter none none) }
  let fences := (adapter.originatingTurn <|> request.hasActiveTurn).getD true
  let s := if fences then s.note call .armed else s
  if s.isAborted adapter then s.rollback call adapter fences "fold capture aborted".toList
  else
    match request.captureThrows with
    | some error => s.rollback call adapter fences error
    | none =>
      if !fences then s.finishFold call adapter fences none
      else { s with capturing := s.capturing ++ [⟨call, adapter⟩] }

def requestFold (request : FoldRequest) : FoldState :=
  let call := s.calls + 1
  let next := { s with calls := call }
  match request.explicit <|> s.resolveTarget with
  | none => next.note call (.returned (.unavailable "no foldable wait is registered".toList))
  | some adapter =>
    if !request.getJob then
      next.note call (.returned (.alreadyTerminal "the wait already settled or was evicted".toList))
    else if s.generation ≠ adapter.jobGeneration then
      next.note call
        (.returned (.alreadyTerminal "the job id was reused under a new generation".toList))
    else if s.folding || s.slot.isSome then
      next.note call (.returned (.unavailable "a fold is already in progress for this wait".toList))
    else next.beginFold call adapter request

def resume (call : Nat) (result : Except Text (Option Text)) : FoldState :=
  match s.capturing.find? (·.call = call) with
  | none => s
  | some capture =>
    let s := { s with capturing := s.capturing.erase capture }
    match result with
    | .error reason => s.rollback call capture.adapter true reason
    | .ok remainingIntent => s.finishFold call capture.adapter true remainingIntent

def dropSlot (byCancel : Bool) : FoldState :=
  let history := match s.slot with
    | some (.present _ _) => if byCancel then s.history ++ [.retired] else s.history
    | _ => s.history
  { s with slot := none, folding := false, history }

def retire (reason : FoldRetireReason) : FoldState :=
  match s.slot with
  | none => s
  | some slot =>
    match reason with
    | .cancel => s.dropSlot true
    | .evict =>
      match slot with
      | .reserved adapter (some parked) parkedAt =>
        if s.now - parkedAt.getD s.now < FOLD_WAKE_MERGE_WINDOW_MS * 4 then s
        else
          { s with slot := none, folding := false }.resolveForegroundObserver adapter parked
      | _ =>
        if s.status = .cancelled ∨ s.status = .paused then s.dropSlot (s.status = .cancelled) else s

def deliver (text : Text) : FoldState :=
  let (s, disposition) := s.onDelivery text
  { s with history := s.history ++ [.delivered disposition] }

def parkingTimer (due : Int) : FoldState :=
  if due ∈ s.timers ∧ due ≤ s.now then { s with timers := s.timers.erase due }.retire .evict else s

inductive Step where
  | tick (ms : Nat)
  | setStatus (status : JobStatus)
  | registerParticipant (adapter : FoldAdapter)
  | unregister (key : Nat)
  | requestFold (request : FoldRequest)
  | captured (call : Nat) (remainingIntent : Option Text)
  | captureFails (call : Nat) (reason : Text)
  | abort (adapterId : Nat)
  | observerSettles (adapterId : Nat)
  | deliver (text : Text)
  | parkingTimer (due : Int)
  | cancel

def step : Step → FoldState
  | .tick ms => { s with now := s.now + ms }
  | .setStatus status => { s with status }
  | .registerParticipant adapter =>
    { s with
      nextParticipantId := s.nextParticipantId + 1
      participants := s.participants.set (s.nextParticipantId + 1) adapter }
  | .unregister key => { s with participants := s.participants.erase key }
  | .requestFold request => s.requestFold request
  | .captured call remainingIntent => s.resume call (.ok remainingIntent)
  | .captureFails call reason => s.resume call (.error reason)
  | .abort adapterId => { s with aborted := s.aborted.insert adapterId }
  | .observerSettles adapterId => { s with settled := s.settled.insert adapterId }
  | .deliver text => s.deliver text
  | .parkingTimer due => s.parkingTimer due
  | .cancel => s.retire .cancel

end FoldState

end Vibrato.Session.Fold
