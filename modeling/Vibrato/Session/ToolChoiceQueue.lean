import Vibrato.Text

/-! `ToolChoiceQueue` of `session/tool-choice-queue.ts`: directives yield tool choices for the
coming turns, and the choice that was handed out last is in flight until it is resolved, rejected,
or degraded. -/

namespace Vibrato.Session

open List

variable {Choice : Type}

inductive RejectReason where
  | aborted
  | error
  | cleared
  | removed

inductive RejectOutcome where
  | requeue
  | drop
  deriving DecidableEq

/-- What is yielded at each step of an iterator that is not done before. -/
abbrev ToolChoiceGenerator (Choice : Type) := Nat → Option Choice

def onceGen (choice : Choice) : ToolChoiceGenerator Choice
  | 0 => some choice
  | _ + 1 => none

/-- `id` is the identity of the object, and `index` the number of steps that its generator has
made. -/
structure ToolChoiceDirective (Choice : Type) where
  id : Nat
  generator : ToolChoiceGenerator Choice
  index : Nat
  label : Text
  onRejected : Option (Choice → RejectReason → Option RejectOutcome)

structure InFlight (Choice : Type) where
  directive : ToolChoiceDirective Choice
  yielded : Choice

structure ToolChoiceQueue (Choice : Type) where
  queue : List (ToolChoiceDirective Choice)
  inFlight : Option (InFlight Choice)
  lastResolvedLabel : Option Text
  nextId : Nat

structure PushOptions (Choice : Type) where
  now : Bool
  label : Option Text
  onRejected : Option (Choice → RejectReason → Option RejectOutcome)

inductive ToolChoiceOutcome where
  | resolved
  | rejected (reason : RejectReason)
  | degraded

/-- What a call does to the choices: one is handed out, or gets an outcome, or the queue is
cleared. -/
inductive ToolChoiceEvent (Choice : Type) where
  | handedOut (choice : Choice)
  | outcome (choice : Choice) (outcome : ToolChoiceOutcome)
  | cleared

namespace ToolChoiceQueue

def new : ToolChoiceQueue Choice := ⟨[], none, none, 0⟩

variable (q : ToolChoiceQueue Choice)

def push (generator : ToolChoiceGenerator Choice) (options : PushOptions Choice) :
    ToolChoiceQueue Choice :=
  let directive : ToolChoiceDirective Choice :=
    ⟨q.nextId, generator, 0, options.label.getD "anonymous".toList, options.onRejected⟩
  { q with
    queue := if options.now then directive :: q.queue else q.queue ++ [directive]
    nextId := q.nextId + 1 }

def advance : List (ToolChoiceDirective Choice) →
    List (ToolChoiceDirective Choice) × Option (InFlight Choice)
  | [] => ([], none)
  | head :: queue =>
    match head.generator head.index with
    | none => advance queue
    | some choice =>
      let head := { head with index := head.index + 1 }
      (head :: queue, some ⟨head, choice⟩)

def nextToolChoice : ToolChoiceQueue Choice × List (ToolChoiceEvent Choice) :=
  match advance q.queue with
  | (queue, none) => ({ q with queue }, [])
  | (queue, some inFlight) => ({ q with queue, inFlight }, [.handedOut inFlight.yielded])

def resolve : ToolChoiceQueue Choice × List (ToolChoiceEvent Choice) :=
  match q.inFlight with
  | none => (q, [])
  | some inFlight =>
    ({ q with inFlight := none, lastResolvedLabel := some inFlight.directive.label },
      [.outcome inFlight.yielded .resolved])

def reject (reason : RejectReason) : ToolChoiceQueue Choice × List (ToolChoiceEvent Choice) :=
  match q.inFlight with
  | none => (q, [])
  | some inFlight =>
    let answer := inFlight.directive.onRejected.bind fun f => f inFlight.yielded reason
    let events := [.outcome inFlight.yielded (.rejected reason)]
    if answer = some .requeue then
      let replay : ToolChoiceDirective Choice :=
        ⟨q.nextId, onceGen inFlight.yielded, 0, inFlight.directive.label ++ "-requeued".toList,
          inFlight.directive.onRejected⟩
      ({ q with queue := replay :: q.queue, inFlight := none, nextId := q.nextId + 1 }, events)
    else ({ q with inFlight := none }, events)

def degradeInFlight : ToolChoiceQueue Choice × List (ToolChoiceEvent Choice) :=
  match q.inFlight with
  | none => (q, [])
  | some inFlight =>
    let queue :=
      match q.queue with
      | [] => []
      | head :: rest => if head.id = inFlight.directive.id then rest else head :: rest
    ({ q with queue, inFlight := none }, [.outcome inFlight.yielded .degraded])

def removeByLabel (label : Text) : ToolChoiceQueue Choice × List (ToolChoiceEvent Choice) :=
  let rejected := if q.inFlight.any (·.directive.label = label) then q.reject .removed else (q, [])
  ({ rejected.1 with queue := rejected.1.queue.filter (·.label ≠ label) }, rejected.2)

def clear : ToolChoiceQueue Choice × List (ToolChoiceEvent Choice) :=
  let rejected := q.reject .cleared
  ({ rejected.1 with queue := [], lastResolvedLabel := none }, rejected.2 ++ [.cleared])

end ToolChoiceQueue

inductive ToolChoiceCall (Choice : Type) where
  | push (generator : ToolChoiceGenerator Choice) (options : PushOptions Choice)
  | nextToolChoice
  | resolve
  | reject (reason : RejectReason)
  | degradeInFlight
  | removeByLabel (label : Text)
  | clear

namespace ToolChoiceQueue

variable (q : ToolChoiceQueue Choice)

def call : ToolChoiceCall Choice → ToolChoiceQueue Choice × List (ToolChoiceEvent Choice)
  | .push generator options => (q.push generator options, [])
  | .nextToolChoice => q.nextToolChoice
  | .resolve => q.resolve
  | .reject reason => q.reject reason
  | .degradeInFlight => q.degradeInFlight
  | .removeByLabel label => q.removeByLabel label
  | .clear => q.clear

def run (q : ToolChoiceQueue Choice) :
    List (ToolChoiceCall Choice) → ToolChoiceQueue Choice × List (ToolChoiceEvent Choice)
  | [] => (q, [])
  | c :: calls =>
    let stepped := q.call c
    let rest := run stepped.1 calls
    (rest.1, stepped.2 ++ rest.2)

def exhausted : Prop := ∀ d ∈ q.queue, d.generator d.index = none

def HandsOutInTurn : ToolChoiceCall Choice → Prop
  | .nextToolChoice => q.inFlight = none ∨ q.exhausted
  | _ => True

end ToolChoiceQueue

/-- Each choice that is handed out, the first one perhaps before, gets one outcome, before the next
one is handed out and before the queue is cleared. -/
def OneOutcomeEach : Option Choice → List (ToolChoiceEvent Choice) → Prop
  | _, [] => True
  | none, .handedOut choice :: events => OneOutcomeEach (some choice) events
  | none, .cleared :: events => OneOutcomeEach none events
  | some choice, .outcome choice' _ :: events => choice' = choice ∧ OneOutcomeEach none events
  | none, .outcome .. :: _ | some _, .handedOut _ :: _ | some _, .cleared :: _ => False

def resolvedChoices (events : List (ToolChoiceEvent Choice)) : List Choice :=
  events.filterMap fun
    | .outcome choice .resolved => some choice
    | _ => none

/-- What a generator yields from step `index` on, up to step `index + n`. -/
def yields (generator : ToolChoiceGenerator Choice) : Nat → Nat → List Choice
  | _, 0 => []
  | index, n + 1 =>
    match generator index with
    | none => []
    | some choice => choice :: yields generator (index + 1) n

/-- The pushed sequences one after the other, each up to step `n`. -/
def pushedChoices (n : Nat) (calls : List (ToolChoiceCall Choice)) : List Choice :=
  calls.flatMap fun
    | .push generator _ => yields generator 0 n
    | _ => []

/-- A directive that is appended and always asks for a replay, or a call that hands out, resolves,
or rejects. -/
def ToolChoiceCall.Appends : ToolChoiceCall Choice → Prop
  | .push _ options => options.now = false ∧
      ∃ onRejected, options.onRejected = some onRejected ∧
        ∀ choice reason, onRejected choice reason = some .requeue
  | .nextToolChoice | .resolve | .reject _ => True
  | .degradeInFlight | .removeByLabel _ | .clear => False

namespace ToolChoiceQueue

variable (q : ToolChoiceQueue Choice)

def inFlightChoice : Option Choice := q.inFlight.map (·.yielded)

theorem advance_cases (queue : List (ToolChoiceDirective Choice)) :
    ((∀ d ∈ queue, d.generator d.index = none) ∧ advance queue = ([], none)) ∨
      ∃ dropped head rest choice, queue = dropped ++ head :: rest ∧
        (∀ d ∈ dropped, d.generator d.index = none) ∧ head.generator head.index = some choice ∧
        advance queue = ({ head with index := head.index + 1 } :: rest,
          some ⟨{ head with index := head.index + 1 }, choice⟩) := by
  induction queue with
  | nil => exact .inl ⟨by simp, rfl⟩
  | cons first queue ih =>
    rw [advance]
    cases hfirst : first.generator first.index with
    | none =>
      obtain ⟨hdone, hadvance⟩ | ⟨dropped, head, rest, choice, rfl, hdropped, hhead, hadvance⟩ := ih
      · exact .inl ⟨forall_mem_cons.2 ⟨hfirst, hdone⟩, hadvance⟩
      · exact .inr ⟨first :: dropped, head, rest, choice, rfl, forall_mem_cons.2 ⟨hfirst, hdropped⟩,
          hhead, hadvance⟩
    | some choice => exact .inr ⟨[], first, queue, choice, rfl, by simp, hfirst, rfl⟩

theorem nextToolChoice_cases :
    (q.exhausted ∧ q.nextToolChoice = ({ q with queue := [] }, [])) ∨
      ∃ dropped head rest choice, q.queue = dropped ++ head :: rest ∧
        (∀ d ∈ dropped, d.generator d.index = none) ∧ head.generator head.index = some choice ∧
        q.nextToolChoice = ({ q with
              queue := { head with index := head.index + 1 } :: rest
              inFlight := some ⟨{ head with index := head.index + 1 }, choice⟩ },
            [.handedOut choice]) := by
  obtain ⟨hdone, hadvance⟩ | ⟨dropped, head, rest, choice, hqueue, hdropped, hhead, hadvance⟩ :=
    advance_cases q.queue
  · exact .inl ⟨hdone, by rw [nextToolChoice, hadvance]⟩
  · exact .inr ⟨dropped, head, rest, choice, hqueue, hdropped, hhead, by
      rw [nextToolChoice, hadvance]⟩

theorem reject_events {q : ToolChoiceQueue Choice} {f : InFlight Choice} (h : q.inFlight = some f)
    (reason : RejectReason) :
    (q.reject reason).2 = [.outcome f.yielded (.rejected reason)] ∧
      (q.reject reason).1.inFlight = none := by
  simp only [reject, h]
  split
  · exact ⟨rfl, rfl⟩
  · exact ⟨rfl, rfl⟩

theorem reject_of_none {q : ToolChoiceQueue Choice} (h : q.inFlight = none)
    (reason : RejectReason) :
    q.reject reason = (q, []) := by
  simp only [reject, h]

theorem call_oneOutcomeEach (c : ToolChoiceCall Choice) (events : List (ToolChoiceEvent Choice)) :
    OneOutcomeEach q.inFlightChoice ((q.call c).2 ++ events) ↔
      q.HandsOutInTurn c ∧ OneOutcomeEach (q.call c).1.inFlightChoice events := by
  have hreject : ∀ reason, OneOutcomeEach q.inFlightChoice ((q.reject reason).2 ++ events) ↔
      OneOutcomeEach (q.reject reason).1.inFlightChoice events := by
    intro reason
    cases hflight : q.inFlight with
    | none => rw [reject_of_none hflight, nil_append]
    | some f =>
      obtain ⟨hevents, hnone⟩ := reject_events hflight reason
      rw [hevents, inFlightChoice, hflight, inFlightChoice, hnone]
      simp [OneOutcomeEach]
  cases c with
  | push generator options => exact ⟨fun h => ⟨trivial, h⟩, fun h => h.2⟩
  | nextToolChoice =>
    obtain ⟨hdone, hnext⟩ | ⟨dropped, head, rest, choice, hqueue, -, hhead, hnext⟩ :=
      q.nextToolChoice_cases
    · simp only [call, hnext, HandsOutInTurn, hdone, or_true, true_and, nil_append]
      rfl
    · have hnot : ¬q.exhausted := by
        intro hdone
        have hmem : head ∈ q.queue := by simp [hqueue]
        rw [hdone head hmem] at hhead
        cases hhead
      simp only [call, hnext, HandsOutInTurn, hnot, or_false, inFlightChoice, Option.map_some,
        singleton_append]
      cases q.inFlight with
      | none => simp [OneOutcomeEach]
      | some f => simp [OneOutcomeEach]
  | resolve =>
    simp only [call, resolve, HandsOutInTurn, inFlightChoice, true_and]
    cases hflight : q.inFlight with
    | none => simp [hflight]
    | some f => simp [OneOutcomeEach]
  | reject reason => simpa [call, HandsOutInTurn] using hreject reason
  | degradeInFlight =>
    simp only [call, degradeInFlight, HandsOutInTurn, inFlightChoice, true_and]
    cases hflight : q.inFlight with
    | none => simp [hflight]
    | some f => simp [OneOutcomeEach]
  | removeByLabel label =>
    simp only [call, removeByLabel, HandsOutInTurn, true_and]
    split
    · exact hreject .removed
    · rfl
  | clear =>
    simp only [call, clear, HandsOutInTurn, true_and]
    cases hflight : q.inFlight with
    | none =>
      rw [reject_of_none hflight]
      simp [inFlightChoice, hflight, OneOutcomeEach]
    | some f =>
      obtain ⟨hevents, hnone⟩ := reject_events hflight .cleared
      simp [hevents, inFlightChoice, hflight, hnone, OneOutcomeEach]

theorem run_oneOutcomeEach (calls : List (ToolChoiceCall Choice)) :
    OneOutcomeEach q.inFlightChoice (q.run calls).2 ↔
      ∀ before c after, calls = before ++ c :: after → (q.run before).1.HandsOutInTurn c := by
  induction calls generalizing q with
  | nil => simp [run, OneOutcomeEach]
  | cons c calls ih =>
    rw [run]
    rw [call_oneOutcomeEach, ih]
    constructor
    · rintro ⟨hfirst, hrest⟩ before c' after hcalls
      cases before with
      | nil =>
        obtain ⟨rfl, rfl⟩ := List.cons.inj hcalls
        exact hfirst
      | cons first before =>
        rw [cons_append, List.cons.injEq] at hcalls
        obtain ⟨rfl, hlater⟩ := hcalls
        exact hrest before c' after hlater
    · intro h
      exact ⟨h [] c calls rfl, fun before c' after hcalls =>
        h (c :: before) c' after (by rw [hcalls, cons_append])⟩

def AlwaysRequeues (d : ToolChoiceDirective Choice) : Prop :=
  ∃ onRejected, d.onRejected = some onRejected ∧ ∀ choice reason,
    onRejected choice reason = some .requeue

def queuedChoices (n : Nat) (queue : List (ToolChoiceDirective Choice)) : List Choice :=
  queue.flatMap fun d => yields d.generator d.index (n - d.index)

/-- The pushed choices are the resolved ones, then the one in flight, then the queued ones, as far
as one looks into the generators from some step on. -/
structure KeepsOrder (q : ToolChoiceQueue Choice) (pushed : Nat → List Choice)
    (resolved : List Choice) : Prop where
  queued : ∀ d ∈ q.queue, AlwaysRequeues d
  flying : ∀ f, q.inFlight = some f → AlwaysRequeues f.directive
  order : ∃ bound, ∀ n, bound ≤ n →
    pushed n = resolved ++ (q.inFlightChoice.toList ++ queuedChoices n q.queue)

variable {generator : ToolChoiceGenerator Choice} {index : Nat}

theorem yields_of_done (h : generator index = none) (n : Nat) : yields generator index n = [] := by
  cases n with
  | zero => rfl
  | succ n => rw [yields, h]

theorem yields_of_some {n : Nat} {choice : Choice} (h : generator index = some choice)
    (hn : index < n) :
    yields generator index (n - index) = choice :: yields generator (index + 1)
      (n - (index + 1)) := by
  rw [show n - index = n - (index + 1) + 1 by omega, yields, h]

theorem queuedChoices_of_done {queue : List (ToolChoiceDirective Choice)}
    (h : ∀ d ∈ queue, d.generator d.index = none) (n : Nat) : queuedChoices n queue = [] := by
  rw [queuedChoices, flatMap_eq_nil_iff]
  intro d hd
  exact yields_of_done (h d hd) _

variable {q : ToolChoiceQueue Choice} {pushed : Nat → List Choice} {resolved : List Choice}

variable (h : KeepsOrder q pushed resolved)
include h

theorem KeepsOrder.push {generator : ToolChoiceGenerator Choice}
    {options : PushOptions Choice} (hnow : options.now = false)
    (hrequeues : ∃ onRejected, options.onRejected = some onRejected ∧
      ∀ choice reason, onRejected choice reason = some .requeue) :
    KeepsOrder (q.push generator options) (fun n => pushed n ++ yields generator 0 n) resolved := by
  obtain ⟨bound, horder⟩ := h.order
  obtain ⟨directive, hqueue, hgenerator, hindex, hcallback⟩ : ∃ directive,
      (q.push generator options).queue = q.queue ++ [directive] ∧
        directive.generator = generator ∧ directive.index = 0 ∧
        directive.onRejected = options.onRejected := by
    refine ⟨⟨q.nextId, generator, 0, options.label.getD "anonymous".toList, options.onRejected⟩, ?_,
      rfl, rfl, rfl⟩
    simp only [ToolChoiceQueue.push, hnow, Bool.false_eq_true, if_false]
  have hflight : (q.push generator options).inFlightChoice = q.inFlightChoice := rfl
  refine ⟨?_, h.flying, bound, fun n hn => ?_⟩
  · rw [hqueue]
    intro d hd
    obtain hd | hd := mem_append.1 hd
    · exact h.queued d hd
    · obtain rfl := mem_singleton.1 hd
      rwa [← hcallback] at hrequeues
  · rw [hqueue, hflight, horder n hn, queuedChoices, queuedChoices, flatMap_append,
      flatMap_singleton, hgenerator, hindex, Nat.sub_zero]
    simp only [append_assoc]

theorem KeepsOrder.nextToolChoice (hturn : q.inFlight = none ∨ q.exhausted) :
    KeepsOrder q.nextToolChoice.1 pushed (resolved ++ resolvedChoices q.nextToolChoice.2) := by
  obtain ⟨bound, horder⟩ := h.order
  obtain ⟨hdone, hnext⟩ | ⟨dropped, head, rest, choice, hqueue, hdropped, hhead, hnext⟩ :=
    q.nextToolChoice_cases
  · rw [hnext]
    refine ⟨fun d hd => (not_mem_nil hd).elim, h.flying, bound, fun n hn => ?_⟩
    rw [horder n hn, queuedChoices_of_done hdone]
    simp [inFlightChoice, resolvedChoices, queuedChoices]
  · have hnone : q.inFlight = none := by
      refine hturn.resolve_right fun hdone => ?_
      have hmem : head ∈ q.queue := by simp [hqueue]
      rw [hdone head hmem] at hhead
      cases hhead
    have hheadRequeues : AlwaysRequeues head := h.queued head (by simp [hqueue])
    rw [hnext]
    refine ⟨?_, ?_, max bound (head.index + 1), fun n hn => ?_⟩
    · intro d hd
      obtain rfl | hd := mem_cons.1 hd
      · exact hheadRequeues
      · exact h.queued d (by simp [hqueue, hd])
    · intro f hf
      obtain rfl := Option.some.inj hf
      exact hheadRequeues
    · have hyields := yields_of_some hhead (show head.index < n by omega)
      rw [horder n (by omega), inFlightChoice, hnone, hqueue, queuedChoices, flatMap_append,
        flatMap_cons, hyields]
      have hdrop := queuedChoices_of_done hdropped n
      rw [queuedChoices] at hdrop
      rw [hdrop]
      simp [inFlightChoice, resolvedChoices, queuedChoices]

theorem KeepsOrder.resolve :
    KeepsOrder q.resolve.1 pushed (resolved ++ resolvedChoices q.resolve.2) := by
  obtain ⟨bound, horder⟩ := h.order
  rw [ToolChoiceQueue.resolve]
  cases hflight : q.inFlight with
  | none =>
      exact ⟨h.queued, h.flying, bound, fun n hn => by simpa [resolvedChoices] using horder n hn⟩
  | some f =>
    refine ⟨h.queued, by simp, bound, fun n hn => ?_⟩
    rw [horder n hn, inFlightChoice, hflight]
    simp [resolvedChoices, inFlightChoice]

theorem KeepsOrder.reject (reason : RejectReason) :
    KeepsOrder (q.reject reason).1 pushed (resolved ++ resolvedChoices (q.reject reason).2) := by
  obtain ⟨bound, horder⟩ := h.order
  cases hflight : q.inFlight with
  | none =>
    rw [reject_of_none hflight]
    exact ⟨h.queued, h.flying, bound, fun n hn => by simpa [resolvedChoices] using horder n hn⟩
  | some f =>
    obtain ⟨onRejected, honRejected, hrequeues⟩ := h.flying f hflight
    have hanswer : (f.directive.onRejected.bind fun g => g f.yielded reason) = some .requeue := by
      rw [honRejected]
      exact hrequeues f.yielded reason
    simp only [ToolChoiceQueue.reject, hflight, hanswer, if_true]
    refine ⟨?_, by simp, max bound 1, fun n hn => ?_⟩
    · intro d hd
      obtain rfl | hd := mem_cons.1 hd
      · exact ⟨onRejected, honRejected, hrequeues⟩
      · exact h.queued d hd
    · have hreplay : yields (onceGen f.yielded) 0 (n - 0) = [f.yielded] := by
        rw [yields_of_some (rfl : onceGen f.yielded 0 = some f.yielded) (show 0 < n by omega),
          yields_of_done rfl]
      rw [horder n (by omega), inFlightChoice, hflight]
      simp only [queuedChoices, flatMap_cons, hreplay]
      simp [resolvedChoices, inFlightChoice]

theorem KeepsOrder.call {c : ToolChoiceCall Choice} (happends : c.Appends)
    (hturn : q.HandsOutInTurn c) :
    KeepsOrder (q.call c).1 (fun n => pushed n ++ pushedChoices n [c])
      (resolved ++ resolvedChoices (q.call c).2) := by
  cases c with
  | push generator options =>
    simpa [ToolChoiceQueue.call, pushedChoices, resolvedChoices] using
      @KeepsOrder.push _ _ _ _ h generator options happends.1 happends.2
  | nextToolChoice => simpa [ToolChoiceQueue.call, pushedChoices] using h.nextToolChoice hturn
  | resolve => simpa [ToolChoiceQueue.call, pushedChoices] using h.resolve
  | reject reason => simpa [ToolChoiceQueue.call, pushedChoices] using h.reject reason
  | degradeInFlight => exact happends.elim
  | removeByLabel label => exact happends.elim
  | clear => exact happends.elim

theorem KeepsOrder.run {calls : List (ToolChoiceCall Choice)} (happends : ∀ c ∈ calls, c.Appends)
    (hturns : ∀ before c after, calls = before ++ c :: after → (q.run before).1.HandsOutInTurn c) :
    KeepsOrder (q.run calls).1 (fun n => pushed n ++ pushedChoices n calls)
      (resolved ++ resolvedChoices (q.run calls).2) := by
  induction calls generalizing q pushed resolved with
  | nil => simpa [ToolChoiceQueue.run, pushedChoices, resolvedChoices] using h
  | cons c calls ih =>
    have hstep := h.call (happends c mem_cons_self) (hturns [] c calls rfl)
    have hrest := ih hstep (fun c' hc' => happends c' (mem_cons_of_mem _ hc'))
      (fun before c' after hcalls => hturns (c :: before) c' after (by rw [hcalls, cons_append]))
    have hpushed : (fun n => pushed n ++ pushedChoices n (c :: calls)) =
        fun n => pushed n ++ pushedChoices n [c] ++ pushedChoices n calls := by
      funext n
      simp [pushedChoices]
    have hresolved : resolved ++ resolvedChoices (q.run (c :: calls)).2 =
        resolved ++ resolvedChoices (q.call c).2 ++ resolvedChoices ((q.call c).1.run calls).2 := by
      simp [ToolChoiceQueue.run, resolvedChoices]
    rw [hpushed, hresolved]
    exact hrest

omit h

/-- Each choice gets one outcome in time, and replays keep the order of what was pushed, exactly if
no call hands out a choice while another one is in flight. -/
theorem run_outcomes_iff (calls : List (ToolChoiceCall Choice)) :
    (OneOutcomeEach none ((new : ToolChoiceQueue Choice).run calls).2 ∧
      ((∀ c ∈ calls, c.Appends) → ∃ bound, ∀ n, bound ≤ n →
        resolvedChoices ((new : ToolChoiceQueue Choice).run calls).2 <+: pushedChoices n calls)) ↔
    ∀ before after, calls = before ++ .nextToolChoice :: after →
      ((new : ToolChoiceQueue Choice).run before).1.inFlight = none ∨
        ((new : ToolChoiceQueue Choice).run before).1.exhausted := by
  have honce := run_oneOutcomeEach (new : ToolChoiceQueue Choice) calls
  constructor
  · rintro ⟨houtcomes, -⟩ before after hcalls
    exact honce.1 houtcomes before .nextToolChoice after hcalls
  · intro hturns
    have hall : ∀ before c after, calls = before ++ c :: after →
        ((new : ToolChoiceQueue Choice).run before).1.HandsOutInTurn c := by
      intro before c after hcalls
      cases c with
      | nextToolChoice => exact hturns before after hcalls
      | push | resolve | reject | degradeInFlight | removeByLabel | clear => trivial
    refine ⟨honce.2 hall, fun happends => ?_⟩
    have hnew : KeepsOrder (new : ToolChoiceQueue Choice) (fun _ => []) [] :=
      ⟨fun d hd => (not_mem_nil hd).elim, by simp [new], 0, fun _ _ => rfl⟩
    obtain ⟨bound, horder⟩ := (hnew.run happends hall).order
    refine ⟨bound, fun n hn => ?_⟩
    have hprefixed := horder n hn
    simp only [nil_append] at hprefixed
    rw [hprefixed]
    exact prefix_append _ _

def overtaking : List (ToolChoiceCall Nat) :=
  [.push (fun i => [1, 2][i]?) ⟨false, none, some fun _ _ => some .requeue⟩, .nextToolChoice,
    .nextToolChoice, .resolve]

/-- The first choice has no outcome, and the resolved one is not the first that was pushed. -/
theorem overtaking_loses_choice :
    ¬(OneOutcomeEach none ((new : ToolChoiceQueue Nat).run overtaking).2 ∧
      ((∀ c ∈ overtaking, c.Appends) → ∃ bound, ∀ n, bound ≤ n →
        resolvedChoices ((new : ToolChoiceQueue Nat).run overtaking).2 <+:
          pushedChoices n overtaking)) := by
  rintro ⟨houtcomes, -⟩
  exact houtcomes

end ToolChoiceQueue

end Vibrato.Session
