import Vibrato.Lib.OrderedMap

/-! The run resource ledger (`agent/src/run-resource-ledger.ts`): the resources of a run are
registered while it is open, and a wait for the run reports that it is settled when the run is
sealed and all of them are. -/

namespace Vibrato.Agent

open Lib

def MAX_TOMBSTONE_ENTRIES : Nat := 256

inductive RunLifecycle where
  | opened
  | sealed
  | quarantined
deriving DecidableEq

inductive RunResourceKind where
  | providerFactory
  | providerIterator
  | tool
  | postPrompt
deriving DecidableEq

structure RunResourceEntry where
  id : Nat
  kind : RunResourceKind
  label : String
  registeredAt : Int
deriving DecidableEq

inductive RunSettlementReason where
  | unknownRun
  | runNotSealed
  | resourcesPending
  | quarantined
deriving DecidableEq

inductive RunSettlementProof where
  | settled
  | unfenced (reason : RunSettlementReason) (pending : List RunResourceEntry)
deriving DecidableEq

inductive Disposition where
  | settled
  | quarantined
deriving DecidableEq

/-- `SettlementWaiter`: its number and the time of its timer. -/
structure SettlementWaiter where
  id : Nat
  deadline : Int

/-- What a wait was told, when, and how the run stood at that moment. -/
structure Resolution where
  waiter : Nat
  proof : RunSettlementProof
  time : Int
  lifecycle : RunLifecycle
  unsettled : List Nat
deriving DecidableEq

/-- `RunState`. The domain stands for the object by its number. What happened in the run is
recorded: the resources that were registered, those of them whose settlement is observed, those that
have settled, the waits with their timers, what they were told, and how the domain was released. -/
structure RunState where
  lifecycle : RunLifecycle := .opened
  domain : Option Nat
  resources : List RunResourceEntry := []
  tombstone : List RunResourceEntry := []
  waiters : List SettlementWaiter := []
  claimedOwners : List Nat := []
  released : Bool := false
  registered : List Nat := []
  observed : List Nat := []
  settledIds : List Nat := []
  waits : List SettlementWaiter := []
  resolutions : List Resolution := []
  releases : List Disposition := []

namespace RunState

variable (s : RunState)

def unsettled : List Nat := s.registered.filter (· ∉ s.settledIds)

/-- `waiter.resolve(proof)` -/
def resolution (time : Int) (waiter : Nat) (proof : RunSettlementProof) : Resolution :=
  { waiter, proof, time, lifecycle := s.lifecycle, unsettled := s.unsettled }

def snapshot : List RunResourceEntry :=
  if s.lifecycle = .quarantined then s.tombstone else s.resources

def settlementProof : Option RunSettlementProof :=
  if s.lifecycle = .quarantined then some (.unfenced .quarantined s.tombstone)
  else if s.lifecycle = .sealed ∧ s.resources.length = 0 then some .settled
  else none

def releaseIfSettled : RunState :=
  if s.released = true ∨ s.lifecycle ≠ .sealed ∨ s.resources.length ≠ 0 ∨ s.domain = none then s
  else { s with released := true, releases := s.releases ++ [.settled], domain := none }

variable (now : Int)

def notify : RunState :=
  match s.settlementProof with
  | some proof =>
    { s with
      waiters := []
      resolutions := s.resolutions ++ s.waiters.map fun w : SettlementWaiter =>
        s.resolution now w.id proof }.releaseIfSettled
  | none => s.releaseIfSettled

/-- `appendTombstone`, on the entries. -/
def appendTombstone (tombstone : List RunResourceEntry) (entry : RunResourceEntry) :
    List RunResourceEntry :=
  let tombstone := tombstone ++ [entry]
  tombstone.drop (tombstone.length - MAX_TOMBSTONE_ENTRIES)

/-- The part of `quarantineState` for a run that is not quarantined. -/
def detach : RunState :=
  let s := { s with
    lifecycle := .quarantined
    tombstone := s.resources.foldl appendTombstone []
    resources := [] }
  if s.domain = none then s
  else if s.released then { s with domain := none }
  else { s with released := true, releases := s.releases ++ [.quarantined], domain := none }

def quarantineState : RunState :=
  (if s.lifecycle ≠ .quarantined then s.detach else s).notify now

/-- `register`, which returns no id in a quarantined run. -/
def register (entry : RunResourceEntry) : RunState × Bool :=
  if s.lifecycle = .quarantined then
    ({ s with
        tombstone := appendTombstone s.tombstone entry
        registered := s.registered ++ [entry.id] }, false)
  else
    ({ s with
        resources := s.resources ++ [entry]
        registered := s.registered ++ [entry.id]
        observed := s.observed ++ [entry.id] }, true)

def settle (id : Nat) : RunState :=
  if id ∉ s.registered ∨ id ∈ s.settledIds then s
  else
    let s := { s with settledIds := s.settledIds ++ [id] }
    if id ∈ s.observed then { s with resources := s.resources.filter (·.id ≠ id) }.notify now else s

/-- `seal` -/
def sealRun : RunState :=
  if s.lifecycle ≠ .opened then s else { s with lifecycle := .sealed }.notify now

/-- `waitForSettlement` for a run that is known. -/
def waitForSettlement (id : Nat) (graceMs : Int) : RunState :=
  let waiter : SettlementWaiter := { id, deadline := now + max 0 graceMs }
  let s := { s with waits := s.waits ++ [waiter] }
  match s.settlementProof with
  | some proof => { s with resolutions := s.resolutions ++ [s.resolution now id proof] }
  | none => { s with waiters := s.waiters ++ [waiter] }

def timeoutProof : RunSettlementProof :=
  s.settlementProof.getD
    (.unfenced (if s.lifecycle = .opened then .runNotSealed else .resourcesPending) s.snapshot)

def fireTimers : RunState :=
  { s with
    waiters := s.waiters.filter (now < ·.deadline)
    resolutions := s.resolutions ++
      (s.waiters.filter (·.deadline ≤ now)).map fun w =>
        s.resolution w.deadline w.id s.timeoutProof }

end RunState

/-- `RunResourceProducerLease`, with the number of its own resource. -/
structure RunResourceProducerLease where
  resourceRunId : String
  domain : Nat
  resource : Nat
  closed : Bool := false

/-- The variables of `createRunResourceLedger`, with the time, the leases that were handed out, and
the number of the next wait. -/
structure RunResourceLedger where
  runs : OrderedMap String RunState := .empty
  agentSessionClaimKey : Option Nat := none
  sequence : Nat := 0
  now : Int := 0
  leases : List RunResourceProducerLease := []
  nextWait : Nat := 0

namespace RunResourceLedger

variable (l : RunResourceLedger)

variable (run : String)

def update (f : RunState → RunState) : RunResourceLedger :=
  match l.runs.get? run with
  | none => l
  | some s => { l with runs := l.runs.set run (f s) }

def nextEntry (kind : RunResourceKind) (label : String) : RunResourceEntry :=
  { id := l.sequence + 1, kind, label, registeredAt := l.now }

/-- `register`, which draws the number of the resource. -/
def register (l : RunResourceLedger) (run : String) (kind : RunResourceKind) (label : String) :
    RunResourceLedger :=
  { l.update run fun s => (s.register (l.nextEntry kind label)).1 with sequence := l.sequence + 1 }

def track (kind : RunResourceKind) (label : String) : RunResourceLedger :=
  if l.runs.has run then l.register run kind label else l

/-- `leaseFor`: the number of the new lease. -/
def leaseFor (s : RunState) (kind : RunResourceKind) (label : String) :
    RunResourceLedger × Option Nat :=
  match s.domain with
  | none => (l, none)
  | some domain =>
    if (s.register (l.nextEntry kind label)).2 then
      ({ l.register run kind label with
          leases := l.leases ++ [{ resourceRunId := run, domain, resource := l.sequence + 1 }] },
        some l.leases.length)
    else (l.register run kind label, none)

/-- `quarantineState` of a run. -/
def quarantineRun : RunResourceLedger :=
  l.update run fun s => s.quarantineState l.now

inductive Refusal where
  | unknownRun
  | sealed
  | quarantined
  | domainMismatch
  | alreadyClaimed
  | handleMismatch
  | closed
  | parentClosed

def leaseResult (given : RunResourceLedger × Option Nat) : RunResourceLedger × Except Refusal Nat :=
  (given.1, given.2.elim (.error .quarantined) .ok)

/-- `open`, with the domain that the bridge opens, if it does. -/
def openRun (domain : Option Nat) : RunResourceLedger × Option Nat :=
  match l.runs.get? run with
  | some existing => (l, if existing.lifecycle = .opened then existing.domain else none)
  | none =>
    match domain with
    | none => (l, none)
    | some domain => ({ l with runs := l.runs.set run { domain := some domain } }, some domain)

def reserveProducer (expectedDomain : Option Nat)
    (kind : RunResourceKind) (label : String) : RunResourceLedger × Except Refusal Nat :=
  match l.runs.get? run with
  | none => (l, .error .unknownRun)
  | some s =>
    if s.lifecycle = .quarantined then (l, .error .quarantined)
    else if s.lifecycle ≠ .opened then (l.quarantineRun run, .error .sealed)
    else if expectedDomain ≠ none ∧ expectedDomain ≠ s.domain then
      (l.quarantineRun run, .error .domainMismatch)
    else leaseResult (l.leaseFor run s kind label)

def claimProducer (expectedDomain : Option Nat) (ownerKey : Nat) :
    RunResourceLedger × Except Refusal Nat :=
  if l.agentSessionClaimKey ≠ some ownerKey then (l, .error .closed)
  else
    match l.runs.get? run with
    | none => (l, .error .handleMismatch)
    | some s =>
      if s.lifecycle = .quarantined then (l, .error .quarantined)
      else if s.lifecycle ≠ .opened then (l.quarantineRun run, .error .closed)
      else if expectedDomain ≠ none ∧ expectedDomain ≠ s.domain then
        (l.quarantineRun run, .error .domainMismatch)
      else if ownerKey ∈ s.claimedOwners then (l.quarantineRun run, .error .alreadyClaimed)
      else
        let claimed := { s with claimedOwners := s.claimedOwners ++ [ownerKey] }
        leaseResult
          ({ l with runs := l.runs.set run claimed }.leaseFor run claimed .postPrompt
            "agent-session")

variable (lease : Nat)

/-- `track` of a lease, which returns whether the resource is registered. -/
def leaseTrack (kind : RunResourceKind) (label : String) : RunResourceLedger × Bool :=
  match l.leases[lease]? with
  | none => (l, false)
  | some producer =>
    match l.runs.get? producer.resourceRunId with
    | none => (l, false)
    | some s =>
      if producer.closed ∨ s.lifecycle = .quarantined then
        (l.quarantineRun producer.resourceRunId, false)
      else (l.register producer.resourceRunId kind label, true)

/-- `fork` of a lease. -/
def leaseFork (expectedDomain : Nat) (kind : RunResourceKind)
    (label : String) : RunResourceLedger × Except Refusal Nat :=
  match l.leases[lease]? with
  | none => (l, .error .unknownRun)
  | some producer =>
    match l.runs.get? producer.resourceRunId with
    | none => (l, .error .unknownRun)
    | some s =>
      if expectedDomain ≠ producer.domain then
        (l.quarantineRun producer.resourceRunId, .error .domainMismatch)
      else if producer.closed ∨ s.lifecycle = .quarantined then
        (l.quarantineRun producer.resourceRunId,
          .error (if s.lifecycle = .quarantined then .quarantined else .parentClosed))
      else leaseResult (l.leaseFor producer.resourceRunId s kind label)

/-- `closeDiscovery` of a lease: the promise of its resource may settle from now on. -/
def closeDiscovery : RunResourceLedger :=
  { l with leases := l.leases.modify lease fun producer => { producer with closed := true } }

/-- The promise of a resource settles; the resource of a lease does so when the lease is closed. -/
def settle (l : RunResourceLedger) (run : String) (id : Nat) : RunResourceLedger :=
  if l.leases.any fun producer => producer.resource = id && !producer.closed then l
  else l.update run fun s => s.settle l.now id

/-- `waitForSettlement`. A wait for a run that is not known is told so at once. -/
def waitForSettlement (l : RunResourceLedger) (run : String) (graceMs : Int) :
    RunResourceLedger × Option RunSettlementProof :=
  match l.runs.get? run with
  | none => (l, some (.unfenced .unknownRun []))
  | some s =>
    ({ l.update run fun s => s.waitForSettlement l.now l.nextWait graceMs with
        nextWait := l.nextWait + 1 }, s.settlementProof)

def elapse (ms : Nat) : RunResourceLedger :=
  { l with
    now := l.now + ms
    runs := l.runs.mapValues fun _ s => s.fireTimers (l.now + ms) }

/-- A call on the ledger or on a lease, the settlement of a promise, or time that passes. -/
inductive Call where
  | bindAgentSessionClaimKey (key : Nat)
  | openRun (run : String) (domain : Option Nat)
  | reserveProducer (run : String) (expectedDomain : Option Nat) (kind : RunResourceKind)
      (label : String)
  | claimProducer (run : String) (expectedDomain : Option Nat) (ownerKey : Nat)
  | track (run : String) (kind : RunResourceKind) (label : String)
  | leaseTrack (lease : Nat) (kind : RunResourceKind) (label : String)
  | leaseFork (lease expectedDomain : Nat) (kind : RunResourceKind) (label : String)
  | closeDiscovery (lease : Nat)
  | sealRun (run : String)
  | quarantine (run : String)
  | settle (run : String) (id : Nat)
  | waitForSettlement (run : String) (graceMs : Int)
  | elapse (ms : Nat)

def step (l : RunResourceLedger) : Call → RunResourceLedger
  | .bindAgentSessionClaimKey key =>
    if l.agentSessionClaimKey.isSome then l else { l with agentSessionClaimKey := some key }
  | .openRun run domain => (l.openRun run domain).1
  | .reserveProducer run expectedDomain kind label =>
      (l.reserveProducer run expectedDomain kind label).1
  | .claimProducer run expectedDomain ownerKey => (l.claimProducer run expectedDomain ownerKey).1
  | .track run kind label => l.track run kind label
  | .leaseTrack lease kind label => (l.leaseTrack lease kind label).1
  | .leaseFork lease expectedDomain kind label => (l.leaseFork lease expectedDomain kind label).1
  | .closeDiscovery lease => l.closeDiscovery lease
  | .sealRun run => l.update run fun s => s.sealRun l.now
  | .quarantine run => l.quarantineRun run
  | .settle run id => l.settle run id
  | .waitForSettlement run graceMs => (l.waitForSettlement run graceMs).1
  | .elapse ms => l.elapse ms

end RunResourceLedger

end Vibrato.Agent
