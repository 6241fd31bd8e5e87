import Vibrato.Jobs.Manager

/-! `drainDeliveries` as turns of the event loop: each turn runs from one `await` to the next, and
any other code may change the manager in between. -/

namespace Vibrato.Jobs

/-- A manager as `drainDeliveries` finds it.  Disposal empties the queue, and nothing is queued
after it.  The promise of a delivery is set by the end of the turn that puts it in flight. -/
structure DrainState where
  manager : AsyncJobManager
  disposed : Bool
  deliveryLoop : Bool
  emptied : disposed = true → manager.queue.deliveries = []

open DrainState

/-- What a turn waits for, with the time at which a timer ends the wait. -/
inductive Awaited where
  | settled
  | delivery (d : AsyncJobDelivery) (deadline : Option Int)
  | sleep (wakeAt : Int)
  | loop (deadline : Option Int)

inductive Next where
  | returned (drained : Bool)
  | awaits (awaited : Awaited)

/-- A turn: the manager after it, whether it took a delivery out of the queue, whether it compared
the clock with the deadline, and how it ends. -/
structure Turn where
  state : DrainState
  removed : Bool
  observed : Bool
  next : Next

/-- Where `drainDeliveries` goes on after an `await`. -/
inductive Control where
  | check
  | scan
  | afterDelivery (timedOut : Bool)
  | afterLoop
  deriving DecidableEq

structure DrainConfig where
  state : DrainState
  control : Control

namespace DrainState

def now (s : DrainState) : Int := s.manager.table.now

def queue (s : DrainState) : DeliveryQueue := s.manager.queue

variable (s : DrainState)

def parked (filter : Option Text) : List AsyncJobDelivery :=
  s.queue.parkedDeliveries.values.filter (matchesOwner filter ·.ownerId)

def claims (filter : Option Text) : List AsyncJobReceiptClaim :=
  s.queue.receiptClaims.values.filter (matchesOwner filter ·.ownerId)

/-- `getDeliveryState(filter).queued`. -/
def queued (filter : Option Text) : Nat :=
  (s.queue.filterDeliveries filter).length + (s.queue.filterInFlightDeliveries filter).length +
    (s.parked filter).length + (s.claims filter).length

/-- The state after `hasPendingDeliveries`. -/
def checked : DrainState :=
  { s with manager := { s.manager with queue := s.queue.pruneEvictedDeadLetters s.manager.table } }

def ensureDeliveryLoop : DrainState :=
  if s.disposed then s else { s with deliveryLoop := true }

def deliver (d : AsyncJobDelivery) : DrainState :=
  { s with
    manager := { s.manager with
      queue := { s.queue with deliveries := s.queue.deliveries.erase d }.beginDelivery
        s.manager.table d }
    emptied := by
      intro hdisposed
      have hnil : s.queue.deliveries = [] := s.emptied hdisposed
      unfold DeliveryQueue.beginDelivery
      split
      · simp [hnil]
      split
      · simp [hnil]
      · simp [hnil] }

/-- The loop of `#deliverNextFiltered` that selects a delivery: the first with the least due
time. -/
def selectDelivery (owner : Text) : Option AsyncJobDelivery :=
  s.queue.deliveries.foldl (fun selected d =>
    if d.ownerId ≠ some owner then selected
    else if s.queue.isDeliverySuppressed d.jobId d.generation || s.queue.isDeliveryFenced d then
      selected
    else
      match selected with
      | none => some d
      | some best => if d.nextAttemptAt < best.nextAttemptAt then some d else some best) none

/-- `#waitForDeliveryPromise` on a promise that is not settled. -/
def waitForDelivery (removed : Bool) (d : AsyncJobDelivery) (deadline : Int) : Turn :=
  ⟨s, removed, true, if deadline ≤ s.now then .returned false
    else .awaits (.delivery d (some deadline))⟩

/-- A turn of `#deliverNextFiltered`, and of its caller once it returns. -/
def scanTurn (owner : Text) (deadline : Int) : Turn :=
  match s.selectDelivery owner with
  | none =>
    match s.queue.filterInFlightDeliveries (some owner) with
    | [] =>
      ⟨s, false, false,
        if s.queue.filterDeliveries (some owner) = [] then .awaits .settled else .returned false⟩
    | d :: _ => s.waitForDelivery false d deadline
  | some d =>
    if s.now < d.nextAttemptAt then
      ⟨s, false, true,
        if deadline < d.nextAttemptAt then .returned false else .awaits (.sleep d.nextAttemptAt)⟩
    else (s.deliver d).waitForDelivery true d deadline

/-- The body of the loop of `drainDeliveries` without an owner. -/
def drainTurn (deadline : Int) : Turn :=
  match s.queue.filterInFlightDeliveries none, s.queue.filterDeliveries none with
  | d :: _, [] => s.waitForDelivery false d deadline
  | _, pending =>
    let s := s.ensureDeliveryLoop
    if !s.deliveryLoop then
      match pending with
      | [] => ⟨s, false, false, .returned true⟩
      | d :: _ => ⟨s.deliver d, true, false, .awaits (.delivery d none)⟩
    else
      ⟨s, false, true, if deadline ≤ s.now then .returned false
        else .awaits (.loop (some deadline))⟩

/-- `!!filter?.ownerId`. -/
def namedOwner (filter : Option Text) : Option Text := filter.filter (· ≠ [])

def checkTurn (filter : Option Text) (deadline : Int) : Turn :=
  if s.queued filter = 0 then ⟨s.checked, false, false, .returned true⟩
  else
    match namedOwner filter with
    | some owner => s.checked.scanTurn owner deadline
    | none => s.checked.drainTurn deadline

end DrainState

open DrainState

variable (filter : Option Text)

def turn (deadline : Int) (c : DrainConfig) : Turn :=
  match c.control with
  | .check => c.state.checkTurn filter deadline
  | .scan => c.state.scanTurn (filter.getD []) deadline
  | .afterDelivery timedOut =>
    if timedOut then ⟨c.state, false, false, .returned false⟩
    else c.state.checkTurn filter deadline
  | .afterLoop =>
    if deadline ≤ c.state.now ∧ c.state.queued filter ≠ 0 then
      ⟨c.state.checked, false, true, .returned false⟩
    else { c.state.checkTurn filter deadline with observed := true }

/-- What may follow a wait: the clock does not go back, a sleep lasts until its time, and a timer
ends a wait only when it is due. -/
def Resumes (s : DrainState) (c : DrainConfig) : Awaited → Prop
  | .settled => c.control = .check ∧ s.now ≤ c.state.now
  | .sleep wakeAt => c.control = .scan ∧ wakeAt ≤ c.state.now
  | .delivery _ deadline => s.now ≤ c.state.now ∧
      (c.control = .afterDelivery false ∨
        c.control = .afterDelivery true ∧ ∃ due, deadline = some due ∧ due ≤ c.state.now)
  | .loop _ => c.control = .afterLoop ∧ s.now ≤ c.state.now

def Turns (deadline : Int) (c c' : DrainConfig) : Prop :=
  ∃ awaited, (turn filter deadline c).next = .awaits awaited ∧
    Resumes (turn filter deadline c).state c' awaited

/-- An endless run of `drainDeliveries`. -/
structure EndlessRun (filter : Option Text) (deadline : Int) (s : DrainState) where
  config : Nat → DrainConfig
  start : config 0 = ⟨s, .check⟩
  turns : ∀ k, Turns filter deadline (config k) (config (k + 1))

/-- A turn that takes no delivery, does not look at the clock, and waits for nothing. -/
def Turn.Idle (t : Turn) : Prop :=
  t.removed = false ∧ t.observed = false ∧ t.next = .awaits .settled

def RepeatsIdle (deadline : Int) (s : DrainState) : Prop :=
  ∃ run : EndlessRun filter deadline s, ∀ k, (turn filter deadline (run.config k)).Idle

def OnlyRetained (s : DrainState) : Prop :=
  namedOwner filter ≠ none ∧ s.queue.filterDeliveries filter = [] ∧
    s.queue.filterInFlightDeliveries filter = [] ∧ (s.parked filter ≠ [] ∨ s.claims filter ≠ [])

/-- `drainDeliveries({ timeoutMs })` computes its deadline once. -/
def drainDeadline (s : DrainState) (timeoutMs : Int) : Int := s.now + max timeoutMs 0

def Awaited.EndsBy (deadline : Int) : Awaited → Prop
  | .settled => True
  | .sleep wakeAt => wakeAt ≤ deadline
  | .delivery _ due => due = some deadline
  | .loop due => due = some deadline

variable {s : DrainState} {owner : Text} {filter : Option Text} {deadline : Int} {removed : Bool}
  {d : AsyncJobDelivery} {c : DrainConfig} {awaited : Awaited}

theorem selectDelivery_eq_none (howner : owner ≠ [])
    (h : s.queue.filterDeliveries (some owner) = []) : s.selectDelivery owner = none := by
  unfold selectDelivery
  have hskip : ∀ d ∈ s.queue.deliveries, d.ownerId ≠ some owner ∨
      s.queue.isDeliverySuppressed d.jobId d.generation = true := by
    intro d hd
    have hd' := List.filter_eq_nil_iff.mp h d hd
    by_contra hcontra
    push Not at hcontra
    apply hd'
    simp [matchesOwner, howner, hcontra.1, hcontra.2]
  generalize s.queue.deliveries = deliveries at hskip ⊢
  induction deliveries with
  | nil => rfl
  | cons d rest ih =>
    have hrest := ih fun d' hd' => hskip d' (List.mem_cons_of_mem _ hd')
    rw [List.foldl_cons]
    rcases hskip d List.mem_cons_self with hother | hsuppressed
    · rw [if_pos hother]
      exact hrest
    · by_cases hother : d.ownerId ≠ some owner
      · rw [if_pos hother]
        exact hrest
      · rw [if_neg hother, hsuppressed]
        exact hrest

theorem namedOwner_eq_some (h : namedOwner filter = some owner) :
    filter = some owner ∧ owner ≠ [] := by
  cases filter with
  | none => cases h
  | some o =>
    unfold namedOwner at h
    rw [Option.filter_some] at h
    split at h
    · next hne =>
      cases h
      exact ⟨rfl, by simpa using hne⟩
    · cases h

theorem scanTurn_settled (h : (s.scanTurn owner deadline).next = .awaits .settled) :
    s.queue.filterDeliveries (some owner) = [] ∧
      s.queue.filterInFlightDeliveries (some owner) = [] := by
  unfold scanTurn at h
  split at h
  · split at h
    · next hflight =>
      split at h
      · next hnone => exact ⟨hnone, hflight⟩
      · cases h
    · unfold waitForDelivery at h
      split at h <;> cases h
  · split at h
    · split at h <;> cases h
    · unfold waitForDelivery at h
      split at h <;> cases h

variable (s)

theorem drainTurn_ne_settled (deadline : Int) : (s.drainTurn deadline).next ≠ .awaits .settled := by
  unfold drainTurn
  split
  · unfold waitForDelivery
    split <;> exact fun h => by cases h
  · dsimp only
    split
    · split <;> exact fun h => by cases h
    · split <;> exact fun h => by cases h

theorem checkTurn_idle_iff (filter : Option Text) (deadline : Int) :
    (s.checkTurn filter deadline).Idle ↔ OnlyRetained filter s := by
  unfold checkTurn
  constructor
  · rintro ⟨-, -, hnext⟩
    split at hnext
    · cases hnext
    next hqueued =>
    split at hnext
    · next owner howner =>
      obtain ⟨rfl, -⟩ := namedOwner_eq_some howner
      obtain ⟨hdeliveries, hflight⟩ := scanTurn_settled hnext
      refine ⟨by rw [howner]; simp, hdeliveries, hflight, ?_⟩
      by_contra hnone
      push Not at hnone
      apply hqueued
      have hd : s.queue.filterDeliveries (some owner) = [] := hdeliveries
      have hf : s.queue.filterInFlightDeliveries (some owner) = [] := hflight
      rw [queued, hd, hf, hnone.1, hnone.2]
      rfl
    · exact absurd hnext (drainTurn_ne_settled _ _)
  · rintro ⟨hnamed, hdeliveries, hflight, hretained⟩
    have hqueued : s.queued filter ≠ 0 := by
      unfold queued
      rcases hretained with h | h
      · have := List.length_pos_of_ne_nil h
        omega
      · have := List.length_pos_of_ne_nil h
        omega
    rw [if_neg hqueued]
    cases howner : namedOwner filter with
    | none => exact absurd howner hnamed
    | some owner =>
      obtain ⟨rfl, hne⟩ := namedOwner_eq_some howner
      have hselect : s.checked.selectDelivery owner = none := selectDelivery_eq_none hne hdeliveries
      have hf : s.checked.queue.filterInFlightDeliveries (some owner) = [] := hflight
      have hd : s.checked.queue.filterDeliveries (some owner) = [] := hdeliveries
      simp only [scanTurn, hselect, hf, hd, ↓reduceIte]
      exact ⟨rfl, rfl, rfl⟩

theorem ensureDeliveryLoop_now : s.ensureDeliveryLoop.now = s.now := by
  unfold ensureDeliveryLoop
  split <;> rfl

variable {s}

variable (h : s.ensureDeliveryLoop.deliveryLoop = false)
include h

theorem deliveries_of_no_loop : s.queue.deliveries = [] := by
  unfold ensureDeliveryLoop at h
  split at h
  · next hdisposed => exact s.emptied hdisposed
  · cases h

theorem filterDeliveries_of_no_loop : s.queue.filterDeliveries none = [] := by
  unfold DeliveryQueue.filterDeliveries
  rw [deliveries_of_no_loop h]
  rfl

omit h

theorem waitForDelivery_late
    (hlate : deadline ≤ s.now) : (s.waitForDelivery removed d deadline).next = .returned false :=
  if_pos hlate

theorem scanTurn_late (hlate : deadline ≤ s.now) :
    (∃ drained, (s.scanTurn owner deadline).next = .returned drained) ∨
      (s.scanTurn owner deadline).next = .awaits .settled := by
  unfold scanTurn
  split
  · split
    · split
      · exact .inr rfl
      · exact .inl ⟨_, rfl⟩
    · exact .inl ⟨_, waitForDelivery_late hlate⟩
  · split
    · next hwait =>
      rw [if_pos (show deadline < _ by omega)]
      exact .inl ⟨_, rfl⟩
    · exact .inl ⟨_, waitForDelivery_late hlate⟩

theorem scanTurn_now (s : DrainState) (owner : Text) (deadline : Int) :
    (s.scanTurn owner deadline).state.now = s.now := by
  unfold scanTurn
  split
  · split <;> rfl
  · split <;> rfl

theorem drainTurn_late (hlate : deadline ≤ s.now) :
    ∃ drained, (s.drainTurn deadline).next = .returned drained := by
  unfold drainTurn
  split
  · exact ⟨_, waitForDelivery_late hlate⟩
  · dsimp only
    split
    · next hloop =>
      rw [filterDeliveries_of_no_loop (by simpa using hloop)]
      exact ⟨_, rfl⟩
    · rw [ensureDeliveryLoop_now, if_pos hlate]
      exact ⟨_, rfl⟩

theorem checkTurn_late (hlate : deadline ≤ s.now) (hretained : ¬ OnlyRetained filter s) :
    ∃ drained, (s.checkTurn filter deadline).next = .returned drained := by
  have hidle := mt (checkTurn_idle_iff s filter deadline).mp hretained
  unfold checkTurn at hidle ⊢
  split
  · exact ⟨_, rfl⟩
  next hqueued =>
  rw [if_neg hqueued] at hidle
  split
  · next owner howner =>
    rcases scanTurn_late (show deadline ≤ s.checked.now from hlate) with hreturned | hsettled
    · exact hreturned
    · obtain ⟨hdeliveries, hflight⟩ := scanTurn_settled hsettled
      obtain ⟨rfl, hne⟩ := namedOwner_eq_some howner
      exfalso
      apply hidle
      rw [howner]
      simp only [scanTurn, selectDelivery_eq_none hne hdeliveries, hflight, hdeliveries, ↓reduceIte]
      exact ⟨rfl, rfl, rfl⟩
  · exact drainTurn_late hlate

theorem turn_late (hlate : deadline ≤ c.state.now) (hretained : ¬ OnlyRetained filter c.state)
    (hscan : c.control ≠ .scan) : ∃ drained, (turn filter deadline c).next = .returned drained := by
  unfold turn
  split
  · exact checkTurn_late hlate hretained
  · next h => exact absurd h hscan
  · split
    · exact ⟨_, rfl⟩
    · exact checkTurn_late hlate hretained
  · split
    · exact ⟨_, rfl⟩
    · exact checkTurn_late hlate hretained

/-- An endless run stays before the deadline, unless it comes to where only parked deliveries and
claims are pending. -/
theorem EndlessRun.before_deadline (run : EndlessRun filter deadline s)
    (hretained : ∀ k, ¬ OnlyRetained filter (run.config k).state) (k : Nat) :
    (run.config k).state.now < deadline := by
  by_contra hlate
  push Not at hlate
  obtain ⟨awaited, hnext, hresumes⟩ := run.turns k
  by_cases hscan : (run.config k).control = .scan
  · -- a scan that finds nothing goes back to the check, which ends the drain
    have hturn : turn filter deadline (run.config k) =
      (run.config k).state.scanTurn (filter.getD []) deadline := by
      unfold turn
      rw [hscan]
    rw [hturn] at hnext hresumes
    rcases scanTurn_late hlate with ⟨drained, hreturned⟩ | hsettled
    · rw [hreturned] at hnext
      cases hnext
    · rw [hsettled] at hnext
      cases hnext
      obtain ⟨hcheck, hclock⟩ := hresumes
      rw [scanTurn_now] at hclock
      obtain ⟨drained, hreturned⟩ := turn_late (hlate.trans hclock) (hretained (k + 1))
        (show (run.config (k + 1)).control ≠ .scan by rw [hcheck]; decide)
      obtain ⟨awaited, hnext, -⟩ := run.turns (k + 1)
      rw [hreturned] at hnext
      cases hnext
  · obtain ⟨drained, hreturned⟩ := turn_late hlate (hretained k) hscan
    rw [hreturned] at hnext
    cases hnext

theorem waitForDelivery_endsBy
    (h : (s.waitForDelivery removed d deadline).next = .awaits awaited) :
    awaited.EndsBy deadline := by
  unfold waitForDelivery at h
  split at h
  · cases h
  · cases h
    rfl

theorem scanTurn_endsBy (h : (s.scanTurn owner deadline).next = .awaits awaited) :
    awaited.EndsBy deadline := by
  unfold scanTurn at h
  split at h
  · split at h
    · split at h
      · cases h
        trivial
      · cases h
    · exact waitForDelivery_endsBy h
  · split at h
    · split at h
      · cases h
      · next hsoon =>
        cases h
        exact not_lt.mp hsoon
    · exact waitForDelivery_endsBy h

theorem drainTurn_endsBy (h : (s.drainTurn deadline).next = .awaits awaited) :
    awaited.EndsBy deadline := by
  unfold drainTurn at h
  split at h
  · exact waitForDelivery_endsBy h
  · dsimp only at h
    split at h
    · next hloop =>
      rw [filterDeliveries_of_no_loop (by simpa using hloop)] at h
      cases h
    · split at h
      · cases h
      · cases h
        rfl

theorem checkTurn_endsBy (h : (s.checkTurn filter deadline).next = .awaits awaited) :
    awaited.EndsBy deadline := by
  unfold checkTurn at h
  split at h
  · cases h
  · split at h
    · exact scanTurn_endsBy h
    · exact drainTurn_endsBy h

theorem turn_endsBy (h : (turn filter deadline c).next = .awaits awaited) :
    awaited.EndsBy deadline := by
  unfold turn at h
  split at h
  · exact checkTurn_endsBy h
  · exact scanTurn_endsBy h
  · split at h
    · cases h
    · exact checkTurn_endsBy h
  · split at h
    · cases h
    · exact checkTurn_endsBy h

theorem OnlyRetained.checked (h : OnlyRetained filter s) : OnlyRetained filter s.checked := h

theorem OnlyRetained.iterate (h : OnlyRetained filter s)
    (k : Nat) : OnlyRetained filter (DrainState.checked^[k] s) := by
  induction k with
  | zero => exact h
  | succ k ih =>
    rw [Function.iterate_succ_apply']
    exact ih.checked

def spin {filter : Option Text} (deadline : Int) {s : DrainState} (h : OnlyRetained filter s) :
    EndlessRun filter deadline s where
  config k := ⟨checked^[k] s, .check⟩
  start := rfl
  turns := by
    intro k
    obtain ⟨-, -, hnext⟩ := (checkTurn_idle_iff _ filter deadline).mpr (h.iterate k)
    refine ⟨.settled, hnext, rfl, ?_⟩
    have hclock : ∀ j, (checked^[j] s).now = s.now := by
      intro j
      induction j with
      | zero => rfl
      | succ j ih =>
        rw [Function.iterate_succ_apply']
        exact ih
    have hstate : (turn filter deadline ⟨checked^[k] s, .check⟩).state.now =
        (checked^[k] s).now := by
      show ((checked^[k] s).checkTurn filter deadline).state.now = _
      unfold checkTurn at hnext ⊢
      split
      · rfl
      · split
        · exact scanTurn_now _ _ _
        · next hnone => exact absurd hnone h.1
    show _ ≤ (checked^[k + 1] s).now
    rw [hstate, hclock, hclock]

theorem repeatsIdle_iff (filter : Option Text) (deadline : Int) (s : DrainState) :
    RepeatsIdle filter deadline s ↔ OnlyRetained filter s := by
  constructor
  · rintro ⟨run, hidle⟩
    have hfirst := hidle 0
    rw [run.start] at hfirst
    exact (checkTurn_idle_iff s filter deadline).mp hfirst
  · intro h
    exact ⟨spin deadline h, fun k => (checkTurn_idle_iff _ filter deadline).mpr (h.iterate k)⟩

/-- The loop of `drainDeliveries` repeats without progress exactly when the owner has only parked
deliveries and claims; otherwise no wait outlasts the deadline and the drain ends with it. -/
theorem drainDeliveries_returns_iff (filter : Option Text) (timeoutMs : Int) (s : DrainState) :
    (¬ RepeatsIdle filter (drainDeadline s timeoutMs) s ↔ ¬ OnlyRetained filter s) ∧
    (∀ c awaited, (turn filter (drainDeadline s timeoutMs) c).next = .awaits awaited →
      awaited.EndsBy (drainDeadline s timeoutMs)) ∧
    (∀ run : EndlessRun filter (drainDeadline s timeoutMs) s,
      (∀ k, ¬ OnlyRetained filter (run.config k).state) →
        ∀ k, (run.config k).state.now < drainDeadline s timeoutMs) := by
  refine ⟨not_congr (repeatsIdle_iff filter _ s), fun _ _ => turn_endsBy, ?_⟩
  intro run hretained k
  exact run.before_deadline hretained k

def claimedOnly : DrainState where
  manager :=
    let m := AsyncJobManager.create 0 300000 15 64
    { m with queue := { m.queue with
        receiptClaims := Lib.OrderedMap.empty.set (.job 1)
          ⟨"bg_1".toList, .job 1, some "3-AuthLoader".toList⟩ } }
  disposed := false
  deliveryLoop := false
  emptied := fun h => by cases h

/-- A drain with a timeout of 50 ms repeats forever on a receipt claim. -/
theorem drainDeliveries_spins :
    RepeatsIdle (some "3-AuthLoader".toList) (drainDeadline claimedOnly 50) claimedOnly := by
  apply (repeatsIdle_iff _ _ _).mpr
  refine ⟨by decide, by decide, by decide, .inr (by decide)⟩

end Vibrato.Jobs
