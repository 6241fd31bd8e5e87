import Mathlib.Data.List.Dedup
import Vibrato.Coordinator.Transactions

/-! `enumeratePublicDeliveries` in `coordinator-mcp/question-state.ts`: one page of the deliveries
that await an export, claimed over the sessions of a namespace, and the pages that a caller gets who
passes each returned cursor to the next call. -/

namespace Vibrato.Coordinator

def isSessionIdChar (c : Char) : Bool := c.isAlphanum || c = '.' || c = '_' || c = '-'

/-- `COORDINATOR_SESSION_ID_PATTERN`, which is `/^[A-Za-z0-9][A-Za-z0-9._-]{0,127}$/`. -/
def sessionIdPattern : Text → Bool
  | [] => false
  | c :: rest => c.isAlphanum && rest.all isSessionIdChar && decide (rest.length ≤ 127)

/-- `a <= b` on strings. -/
def stringLe (a b : Text) : Prop := Text.utf16 a ≤ Text.utf16 b

instance : DecidableRel stringLe := fun _ _ => inferInstanceAs (Decidable (_ ≤ _))

/-- The keys of the registry's roster and retained sessions, and the transaction of each session. -/
structure NamespaceState (ρ : Type) where
  roster : List Text
  retainedSessions : List Text
  transactions : Text → Option (SessionTransaction ρ)

/-- The times that a call reads for each session: in the claim, at its commit, and at the commit of
a release. -/
structure CallClock where
  now : Text → Int
  commitAt : Text → Int
  releaseAt : Text → Int

/-- `PublicDeliveryClaimV1 & { session_id }`. -/
structure SessionClaim where
  sessionId : Text
  claim : PublicDeliveryClaim
  endpointIncarnation : Option Text

def SessionClaim.orderKey (c : SessionClaim) : Text := deliveryOrderKey c.sessionId c.claim.event

namespace NamespaceState

variable {ρ : Type} (env : Env ρ) (ns : NamespaceState ρ)

/-- The sessions that a call lists: those of the roster and the retained ones, sorted. -/
def sessions : List Text :=
  ((ns.roster ++ ns.retainedSessions).dedup.filter sessionIdPattern).insertionSort stringLe

variable (sessionId : Text)

def store (tx : SessionTransaction ρ) : NamespaceState ρ :=
  { ns with transactions := fun id => if id = sessionId then some tx else ns.transactions id }

def hasRetained : Bool :=
  (ns.transactions sessionId).any fun tx =>
    (normalizeOutbox tx).outbox.events.any fun e => e.publicDelivery.state ≠ .acknowledged

def pruneRetainedSessionIfEmpty : NamespaceState ρ :=
  if ns.hasRetained sessionId then ns
  else { ns with retainedSessions := ns.retainedSessions.filter (· ≠ sessionId) }

def readSessionTransaction : Except Text (Option (SessionTransaction ρ)) :=
  match ns.transactions sessionId with
  | none => .ok none
  | some tx =>
    if tx.sessionId ≠ sessionId ∨ assertTransaction env tx = false then
      .error "state_corrupt".toList
    else .ok (some (normalizeOutbox tx))

variable [DecidableEq ρ]

/-- `withSessionTransaction`, on the file of a session. -/
def withSession {α : Type} (run : SessionTransaction ρ → Except Text (α × SessionTransaction ρ)) :
    Except Text (α × NamespaceState ρ) :=
  match ns.transactions sessionId with
  | none => .error "resource_gone".toList
  | some tx =>
    if tx.sessionId ≠ sessionId then .error "state_corrupt".toList
    else (run tx).map fun (result, tx) => (result, ns.store sessionId tx)

def claimPublicDelivery (options : ClaimOptions) (clock : CallClock) (sessionId : Text) :
    Except Text (List PublicDeliveryClaim × NamespaceState ρ) :=
  (ns.withSession sessionId (Coordinator.claimPublicDelivery env options (clock.now sessionId)
    (clock.commitAt sessionId))).map fun (claims, ns) =>
      (claims, ns.pruneRetainedSessionIfEmpty sessionId)

def releasePublicDeliveryClaim (clock : CallClock) (c : SessionClaim) :
    Except Text (Unit × NamespaceState ρ) :=
  ns.withSession c.sessionId (Coordinator.releasePublicDeliveryClaim env c.claim.event.publicEventId
    c.claim.claimFence (clock.releaseAt c.sessionId))

end NamespaceState

variable (cursor : Text)

/-- `cursor.startsWith("@session:")`. -/
def roundRobin : Bool := Text.startsWith cursor "@session:".toList

def cursorSession : Text := cursor.takeWhile (· ≠ Char.ofNat 0)

def orderedSessions (sessions : List Text) : List Text :=
  if roundRobin cursor then
    match sessions.idxOf? (cursor.drop "@session:".length) with
    | none => sessions
    | some start => sessions.drop (start + 1) ++ sessions.take (start + 1)
  else sessions

/-- `!roundRobin && cursorSession && sessionId < cursorSession`. -/
def passesSession (sessionId : Text) : Bool :=
  !roundRobin cursor && decide (cursorSession cursor ≠ []) &&
    !decide (stringLe (cursorSession cursor) sessionId)

def afterOrderKey (sessionId : Text) : Option Text :=
  if roundRobin cursor = false ∧ sessionId = cursorSession cursor then some cursor else none

/-- `Math.max(1, Math.min(limit, 128))`. -/
def boundedPage (limit : Int) : Nat := (max 1 (min limit 128)).toNat

/-- `boundedSessions`: the first of the sessions, two for each claim of a full page. -/
def boundedSessions (limit : Int) (sessions : List Text) : List Text :=
  (orderedSessions cursor sessions).take (max 1 (boundedPage limit * 2))

section Enumerate

variable {ρ : Type} [DecidableEq ρ] (env : Env ρ) (endpointIncarnation : ρ → Option Text)

structure Discovery (ρ : Type) where
  claims : List SessionClaim
  lastVisitedSession : Option Text
  ns : NamespaceState ρ

/-- What a call is given: `signal` is the reason of an abort seen at a session. -/
structure EnumerateCall where
  cursor : Text := []
  limit : Int := 64
  clock : CallClock
  signal : Text → Option Text := fun _ => none

def addBatch (sessionId : Text) (batch : List PublicDeliveryClaim) (d : Discovery ρ) :
    Except Text Unit × Discovery ρ :=
  match d.ns.readSessionTransaction env sessionId with
  | .error message => (.error message, d)
  | .ok tx =>
    let incarnation := (tx.bind fun tx => endpointIncarnation tx.rest).filter (· ≠ [])
    (.ok (), { d with claims := d.claims ++ batch.map fun c => ⟨sessionId, c, incarnation⟩ })

variable (call : EnumerateCall)

def claimSession (sessionId : Text) (d : Discovery ρ) : Except Text Unit × Discovery ρ :=
  let options : ClaimOptions :=
    { limit := some (boundedPage call.limit - d.claims.length)
      afterOrderKey := afterOrderKey call.cursor sessionId }
  match d.ns.claimPublicDelivery env options call.clock sessionId with
  | .ok (batch, ns) => addBatch env endpointIncarnation sessionId batch { d with ns }
  | .error message =>
    if message ≠ "resource_gone".toList then (.error message, d)
    else addBatch env endpointIncarnation sessionId [] d

def enumerateLoop (call : EnumerateCall) : List Text → Discovery ρ → Except Text Unit × Discovery ρ
  | [], d => (.ok (), d)
  | sessionId :: rest, d =>
    let d := { d with lastVisitedSession := some sessionId }
    match call.signal sessionId with
    | some reason => (.error reason, d)
    | none =>
      if passesSession call.cursor sessionId then enumerateLoop call rest d
      else if boundedPage call.limit ≤ d.claims.length then (.ok (), d)
      else
        match claimSession env endpointIncarnation call sessionId d with
        | (.error message, d) => (.error message, d)
        | (.ok (), d) =>
          if boundedPage call.limit ≤ d.claims.length then (.ok (), d)
            else enumerateLoop call rest d

def releaseClaims (clock : CallClock) : List SessionClaim → NamespaceState ρ →
    Except Text Unit × NamespaceState ρ
  | [], ns => (.ok (), ns)
  | c :: rest, ns =>
    match ns.releasePublicDeliveryClaim env clock c with
    | .error message => (.error message, ns)
    | .ok ((), ns) => releaseClaims clock rest ns

structure Page where
  claims : List SessionClaim
  nextCursor : Option Text

def pageOf (d : Discovery ρ) : Page :=
  if roundRobin call.cursor then
    { claims := d.claims.take (boundedPage call.limit)
      nextCursor := some (d.lastVisitedSession.elim call.cursor ("@session:".toList ++ ·)) }
  else
    let filtered := (d.claims.filter fun c => !decide (stringLe c.orderKey call.cursor)).take
      (boundedPage call.limit)
    { claims := filtered
      nextCursor := filtered.getLast?.map SessionClaim.orderKey }

def enumeratePublicDeliveries (ns : NamespaceState ρ) : Except Text Page × NamespaceState ρ :=
  match enumerateLoop env endpointIncarnation call
      (boundedSessions call.cursor call.limit ns.sessions) ⟨[], none, ns⟩ with
  | (.ok (), d) => (.ok (pageOf call d), d.ns)
  | (.error message, d) =>
    match releaseClaims env call.clock d.claims d.ns with
    | (.ok (), ns) => (.error message, ns)
    | (.error failure, ns) => (.error failure, ns)

end Enumerate

end Vibrato.Coordinator
