import Vibrato.Lib.OrderedMap

/-! Reverse leases (`sdk/host/reverse-leases.ts`): a connection that provides a capability holds a
lease on it, which it keeps alive by heartbeats, releases, hands over or loses; the host sends
requests to the holder of a lease and waits for its responses. -/

namespace Vibrato.Host

open Lib

def REVERSE_LEASE_TTL_MS : Int := 15000

def REVERSE_RECLAIM_GRACE_MS : Int := 15000

def MAX_REVERSE_OUTSTANDING : Nat := 64

def MAX_REVERSE_PAYLOAD_BYTES : Nat := 256 * 1024

/-- The errors that the runtime throws. `installFailed` is what `installDefinitions` throws,
`requestCancelled` the rejection of a request whose signal is aborted already. -/
inductive ReverseLeaseError where
  | leaseUnavailable
  | leaseExpired
  | providerLeaseConflict
  | providerRequired
  | notLeaseOwner
  | payloadTooLarge
  | tooManyOutstanding
  | unknownRequest
  | idempotencyConflict
  | installFailed
  | requestCancelled

/-- `ProviderLease`. The objects are told apart by `object`; `definitions` is their canonical
JSON. -/
structure ProviderLease where
  object : Nat
  leaseId : Nat
  connectionId : String
  capability : String
  definitions : String
  expiresAt : Int
  graceUntil : Option Int := none
  active : Bool
deriving DecidableEq

/-- `Outstanding`, with whether the request has a signal. -/
structure Outstanding where
  connectionId : String
  capability : String
  leaseId : Nat
  signal : Bool
deriving DecidableEq

/-- What `registrationFingerprint` hashes. -/
structure Fingerprint where
  capability : String
  definitions : String
  expectedLeaseId : Option Nat
deriving DecidableEq

/-- `ReverseLeaseRuntime`, with the time. `randomUUID` and new objects take numbers from `nextId`.
The requests that were made, with the lease of each, and those that were resolved or rejected are
recorded. -/
structure ReverseLeaseRuntime where
  now : Int := 0
  leaseTtlMs : Int := REVERSE_LEASE_TTL_MS
  leases : OrderedMap String ProviderLease := .empty
  idempotency : OrderedMap String (Fingerprint × Nat) := .empty
  outstanding : OrderedMap Nat Outstanding := .empty
  installedCapabilities : List String := []
  nextId : Nat := 0
  made : List (Nat × Nat) := []
  settled : List Nat := []

namespace ReverseLeaseRuntime

variable (s : ReverseLeaseRuntime)

variable (capability : String)

def removeDefinitions : ReverseLeaseRuntime :=
  { s with installedCapabilities := s.installedCapabilities.filter (· ≠ capability) }

/-- `#installDefinitionsFor`, when the hook returns. -/
def installDefinitionsFor : ReverseLeaseRuntime :=
  { s with installedCapabilities := s.installedCapabilities.filter (· ≠
    capability) ++ [capability] }

def settleWhere (p : Nat → Outstanding → Bool) : ReverseLeaseRuntime :=
  { s with
    outstanding := s.outstanding.retain fun id r => !p id r
    settled := s.settled ++ (s.outstanding.entries.filter fun e => p e.1 e.2).map Prod.fst }

/-- `#takeOutstanding`, and the request is resolved or rejected. -/
def settle (id : Nat) : ReverseLeaseRuntime := s.settleWhere fun i _ => i = id

def cancelForConnection (connectionId : String) : ReverseLeaseRuntime :=
  s.settleWhere fun _ r => r.connectionId = connectionId

def owner (connectionId : String) (leaseId : Nat) : Option ProviderLease :=
  (s.leases.values.find? (·.leaseId = leaseId)).filter fun lease =>
    lease.active && lease.connectionId = connectionId

def liveLease : ReverseLeaseRuntime × Option ProviderLease :=
  match s.leases.get? capability with
  | none => (s, none)
  | some lease =>
    if lease.active && s.now < lease.expiresAt then (s, some lease)
    else (if lease.expiresAt ≤ s.now then s.removeDefinitions capability else s, none)

/-- The arguments of `registerProvider`, and whether the hook that installs definitions returns. -/
structure Registration where
  connectionId : String
  capability : String
  definitions : String
  expectedLeaseId : Option Nat := none
  idempotencyKey : Option String := none
  installs : Bool := true

namespace Registration

def fingerprint (r : Registration) : Fingerprint := ⟨r.capability, r.definitions, r.expectedLeaseId⟩

/-- The key of a registration in the table of idempotency keys, which an empty key has none of. -/
def key? (r : Registration) : Option String :=
  (r.idempotencyKey.filter (· ≠ "")).map fun key => r.connectionId ++ "\x00" ++ key

end Registration

variable (s : ReverseLeaseRuntime)

variable (r : Registration)

def storeLease (lease : ProviderLease) :
    ReverseLeaseRuntime × Except ReverseLeaseError ProviderLease :=
  ({ s with
      leases := s.leases.set r.capability lease
      idempotency :=
        match r.key? with
        | some key => s.idempotency.set key (r.fingerprint, lease.object)
        | none => s.idempotency }, .ok lease)

def grant (leaseId : Nat) : ReverseLeaseRuntime × Except ReverseLeaseError ProviderLease :=
  if r.installs then
    { s.installDefinitionsFor r.capability with nextId := s.nextId + 1 }.storeLease r
      { object := s.nextId
        leaseId
        connectionId := r.connectionId
        capability := r.capability
        definitions := r.definitions
        expiresAt := s.now + s.leaseTtlMs
        active := true }
  else (s, .error .installFailed)

def reclaiming (existing : ProviderLease) : Bool :=
  some existing.leaseId = r.expectedLeaseId && existing.graceUntil.any (s.now ≤ ·)

def refreshing (existing : ProviderLease) : Bool :=
  existing.active && existing.connectionId = r.connectionId && s.now < existing.expiresAt

/-- `registerProvider` for a capability that has a lease, after the definitions of an expired one
are removed. -/
def renew (existing : ProviderLease) :
    ReverseLeaseRuntime × Except ReverseLeaseError ProviderLease :=
  if existing.active = false ∧ s.now < existing.expiresAt then
    if existing.connectionId ≠ r.connectionId ∨ some existing.leaseId ≠ r.expectedLeaseId then
      (s, .error .providerLeaseConflict)
    else s.grant r existing.leaseId
  else if !s.reclaiming r existing && !s.refreshing r existing &&
      existing.connectionId ≠ r.connectionId && s.now < existing.expiresAt then
    (s, .error .providerLeaseConflict)
  else if s.refreshing r existing && existing.definitions = r.definitions then
    s.storeLease r
      { existing with expiresAt := s.now + s.leaseTtlMs, graceUntil := none, active := true }
  else if s.reclaiming r existing || s.refreshing r existing then s.grant r existing.leaseId
  else { s with nextId := s.nextId + 1 }.grant r s.nextId

/-- `registerProvider` after the check of the idempotency key. -/
def registerLease : ReverseLeaseRuntime × Except ReverseLeaseError ProviderLease :=
  match s.leases.get? r.capability with
  | none => { s with nextId := s.nextId + 1 }.grant r s.nextId
  | some existing =>
    (if existing.expiresAt ≤ s.now then s.removeDefinitions existing.capability
      else s).renew r existing

def registerProvider : ReverseLeaseRuntime × Except ReverseLeaseError ProviderLease :=
  match r.key?.bind s.idempotency.get? with
  | none => s.registerLease r
  | some (fingerprint, object) =>
    if fingerprint ≠ r.fingerprint then (s, .error .idempotencyConflict)
    else
      match s.leases.get? r.capability with
      | none => s.registerLease r
      | some current =>
        if object = current.object && current.active && s.now < current.expiresAt then
          (s, .ok current)
        else s.registerLease r

variable (connectionId : String)

def heartbeat (leaseId : Nat) : ReverseLeaseRuntime × Except ReverseLeaseError ProviderLease :=
  match s.owner connectionId leaseId with
  | none => (s, .error .notLeaseOwner)
  | some lease =>
    if lease.expiresAt ≤ s.now then (s.removeDefinitions lease.capability, .error .leaseExpired)
    else
      let lease := { lease with expiresAt := s.now + s.leaseTtlMs, graceUntil := none }
      ({ s with leases := s.leases.set lease.capability lease }, .ok lease)

def release (leaseId : Nat) (handoffTo : Option String) :
    ReverseLeaseRuntime × Except ReverseLeaseError ProviderLease :=
  match s.owner connectionId leaseId with
  | none => (s, .error .notLeaseOwner)
  | some lease =>
    let s := (s.cancelForConnection connectionId).removeDefinitions lease.capability
    match handoffTo.filter (· ≠ "") with
    | some target =>
      let lease := { lease with
        connectionId := target
        expiresAt := s.now + REVERSE_RECLAIM_GRACE_MS
        graceUntil := none
        active := false }
      ({ s with leases := s.leases.set lease.capability lease }, .ok lease)
    | none => ({ s with leases := s.leases.erase lease.capability }, .ok lease)

def disconnect : ReverseLeaseRuntime :=
  let lost := (s.leases.values.filter (·.connectionId = connectionId)).map (·.capability)
  { s with
      leases := s.leases.mapValues fun _ lease =>
        if lease.connectionId = connectionId then
          { lease with expiresAt := s.now, graceUntil := some (s.now + REVERSE_RECLAIM_GRACE_MS) }
        else lease
      installedCapabilities :=
        s.installedCapabilities.filter (· ∉ lost) }.cancelForConnection connectionId

/-- The arguments of `request`: the size of its payload, whether it has a signal and whether that is
aborted already, and whether `sendFrame` returns. -/
structure RequestArgs where
  capability : String
  payloadBytes : Nat := 0
  signal : Bool := false
  aborted : Bool := false
  sends : Bool := true

/-- `request`. A request whose frame cannot be sent is settled at once. -/
def request (r : RequestArgs) : ReverseLeaseRuntime × Except ReverseLeaseError Nat :=
  if MAX_REVERSE_PAYLOAD_BYTES < r.payloadBytes then (s, .error .payloadTooLarge)
  else
    match s.liveLease r.capability with
    | (s, none) =>
      match s.leases.get? r.capability with
      | some reservation =>
        if reservation.active = false ∧ s.now < reservation.expiresAt then
          (s, .error .leaseUnavailable)
        else (s, .error .providerRequired)
      | none => (s, .error .providerRequired)
    | (s, some lease) =>
      if r.signal && r.aborted then (s, .error .requestCancelled)
      else if MAX_REVERSE_OUTSTANDING ≤ s.outstanding.size then (s, .error .tooManyOutstanding)
      else
        let id := s.nextId
        let made := { s with
          nextId := s.nextId + 1
          outstanding :=
            s.outstanding.set id ⟨lease.connectionId, r.capability, lease.leaseId, r.signal⟩
          made := s.made ++ [(id, lease.leaseId)] }
        (if r.sends then made else made.settle id, .ok id)

def respond (id leaseId frameBytes : Nat) : ReverseLeaseRuntime × Except ReverseLeaseError Unit :=
  if MAX_REVERSE_PAYLOAD_BYTES < frameBytes then (s, .error .payloadTooLarge)
  else
    match s.outstanding.get? id with
    | none => (s, .error .unknownRequest)
    | some r =>
      if r.connectionId ≠ connectionId ∨ r.leaseId ≠ leaseId then (s, .error .notLeaseOwner)
      else (s.settle id, .ok ())

/-- `onAbort` of a request, which one without a signal does not have. -/
def abort (id : Nat) : ReverseLeaseRuntime :=
  s.settleWhere fun i r => i = id && r.signal

def expireStaleLeases : ReverseLeaseRuntime :=
  let stale := (s.leases.values.filter (·.expiresAt ≤ s.now)).map (·.capability)
  { s with installedCapabilities := s.installedCapabilities.filter (· ∉ stale) }

def dispose : ReverseLeaseRuntime :=
  { s.settleWhere fun _ _ => true with
    leases := .empty
    idempotency := .empty
    installedCapabilities := [] }

/-- A call, an event of a request, a tick of the sweep timer, or time that passes. -/
inductive Event where
  | register (r : Registration)
  | heartbeat (connectionId : String) (leaseId : Nat)
  | release (connectionId : String) (leaseId : Nat) (handoffTo : Option String)
  | disconnect (connectionId : String)
  | request (r : RequestArgs)
  | respond (connectionId : String) (id leaseId frameBytes : Nat)
  | abort (id : Nat)
  | deliveryFailed (id : Nat)
  | getLease (capability : String)
  | sweep
  | elapse (ms : Nat)
  | dispose

def step (s : ReverseLeaseRuntime) : Event → ReverseLeaseRuntime
  | .register r => (s.registerProvider r).1
  | .heartbeat connectionId leaseId => (s.heartbeat connectionId leaseId).1
  | .release connectionId leaseId handoffTo => (s.release connectionId leaseId handoffTo).1
  | .disconnect connectionId => s.disconnect connectionId
  | .request r => (s.request r).1
  | .respond connectionId id leaseId frameBytes => (s.respond connectionId id leaseId frameBytes).1
  | .abort id => s.abort id
  | .deliveryFailed id => s.settle id
  | .getLease capability => (s.liveLease capability).1
  | .sweep => s.expireStaleLeases
  | .elapse ms => { s with now := s.now + ms }
  | .dispose => s.dispose

end ReverseLeaseRuntime

end Vibrato.Host
