import Vibrato.Text
import Mathlib.Data.List.Nodup

/-! `FallbackChainController` of `session/fallback-chain-controller.ts`: the attempts that each
entry of a fallback chain is given. -/

namespace Vibrato.Session

open List

/-- Selectors are not empty: `normalizeModelSelectorValue` and `normalizeConfiguredModelChainEntry`
drop empty ones. -/
structure ConfiguredFallbackChain where
  entries : List Text
  entries_ne : ∀ selector ∈ entries, selector ≠ []

inductive FallbackTriggerClass where
  | rateLimit
  | quota
  | auth
  | server
  | unknown
  | other

structure FallbackFailure where
  selector : Text
  triggerClass : FallbackTriggerClass
  reason : Text

structure FallbackSkip where
  selector : Text
  reason : Text

inductive FallbackFailureResult where
  | retry
  | advance
  | exhausted
  deriving DecidableEq

/-- The constructor throws unless `maxAttempts` is a positive integer. -/
structure FallbackChainController where
  chain : ConfiguredFallbackChain
  maxAttempts : Nat
  maxAttempts_pos : 0 < maxAttempts
  activeIndex : Nat
  attemptsUsed : Nat
  tried : List FallbackFailure
  attemptStarted : Bool
  totalAttemptsUsed : Nat
  restoredEntryIndices : List Nat
  skips : List FallbackSkip
  exhaustedForTurn : Bool

open FallbackChainController

namespace FallbackChainController

def new (chain : ConfiguredFallbackChain) (maxAttempts : Nat) (h : 0 < maxAttempts) :
    FallbackChainController :=
  { chain
    maxAttempts
    maxAttempts_pos := h
    activeIndex := 0
    attemptsUsed := 0
    tried := []
    attemptStarted := false
    totalAttemptsUsed := 0
    restoredEntryIndices := []
    skips := []
    exhaustedForTurn := chain.entries.length = 0 }

variable (c : FallbackChainController)

def maxTotalAttempts : Nat :=
  c.maxAttempts * c.chain.entries.length + c.restoredEntryIndices.length

/-- Since no selector is empty, `!selector` means that there is none. -/
def currentSelector : Option Text := c.chain.entries[c.activeIndex]?

/-- `advance`, with its answer. -/
def advance : FallbackChainController × Bool :=
  if c.exhaustedForTurn then (c, false)
  else
    let c := { c with activeIndex := c.activeIndex + 1, attemptsUsed := 0, attemptStarted := false }
    if c.activeIndex ≥ c.chain.entries.length then ({ c with exhaustedForTurn := true }, false)
    else (c, true)

def exhaust : FallbackChainController :=
  { c with activeIndex := c.chain.entries.length, exhaustedForTurn := true }

def onResolutionSkip (reason : Text) : FallbackChainController × Bool :=
  match c.currentSelector with
  | some selector => advance { c with skips := c.skips ++ [⟨selector, reason⟩] }
  | none => c.advance

def onAttemptStarted : FallbackChainController :=
  if c.currentSelector.isNone || c.exhaustedForTurn then c
  else if c.totalAttemptsUsed ≥ c.maxTotalAttempts then c.exhaust
  else
    { c with
      attemptsUsed := c.attemptsUsed + 1
      totalAttemptsUsed := c.totalAttemptsUsed + 1
      attemptStarted := true }

def discardStartedAttempt : FallbackChainController :=
  if c.attemptStarted then
    { c with
      attemptsUsed := c.attemptsUsed - 1
      totalAttemptsUsed := c.totalAttemptsUsed - 1
      attemptStarted := false }
  else c

def charge (failure : FallbackFailure) : FallbackChainController :=
  { c with
    attemptsUsed := if c.attemptStarted then c.attemptsUsed else c.attemptsUsed + 1
    totalAttemptsUsed := if c.attemptStarted then c.totalAttemptsUsed else c.totalAttemptsUsed + 1
    attemptStarted := false
    tried := c.tried ++ [failure] }

def onAttemptFailure (triggerClass : FallbackTriggerClass)
    (reason : Text) : FallbackChainController × FallbackFailureResult :=
  match c.currentSelector with
  | none => (c, .exhausted)
  | some selector =>
    if c.exhaustedForTurn then (c, .exhausted)
    else
      let c := c.charge ⟨selector, triggerClass, reason⟩
      if c.totalAttemptsUsed ≥ c.maxTotalAttempts then (c.exhaust, .exhausted)
      else if c.attemptsUsed < c.maxAttempts then (c, .retry)
      else
        match c.advance with
        | (c, true) => (c, .advance)
        | (c, false) => (c, .exhausted)

def restorePreviousEntryForRetry : FallbackChainController × Bool :=
  if c.activeIndex = 0 ∨ c.exhaustedForTurn = true ∨
      c.activeIndex - 1 ∈ c.restoredEntryIndices ∨ c.totalAttemptsUsed ≥ c.maxTotalAttempts then
    (c, false)
  else
    ({ c with
        restoredEntryIndices := c.restoredEntryIndices ++ [c.activeIndex - 1]
        activeIndex := c.activeIndex - 1
        attemptsUsed := c.maxAttempts - 1
        exhaustedForTurn := false
        attemptStarted := false }, true)

end FallbackChainController

inductive FallbackCall where
  | onAttemptStarted
  | onAttemptFailure (triggerClass : FallbackTriggerClass) (reason : Text)
  | discardStartedAttempt
  | onResolutionSkip (reason : Text)
  | restorePreviousEntryForRetry

inductive FallbackEvent where
  | charged (index : Nat)
  | skipped (index : Nat)
  | restored (index : Nat)
  deriving DecidableEq

/-- A controller with the answer of the call before, if it was a failure, and what has happened. -/
structure FallbackRun where
  controller : FallbackChainController
  answer : Option FallbackFailureResult
  events : List FallbackEvent

namespace FallbackRun

variable (r : FallbackRun)

def charges (index : Nat) : Nat := r.events.count (.charged index)

def restores (index : Nat) : Nat := r.events.count (.restored index)

def step : FallbackCall → FallbackRun
  | .onAttemptStarted => { r with controller := r.controller.onAttemptStarted, answer := none }
  | .onAttemptFailure triggerClass reason =>
    let failed := r.controller.onAttemptFailure triggerClass reason
    { controller := failed.1
      answer := some failed.2
      events := r.events ++
        if r.controller.currentSelector.isNone || r.controller.exhaustedForTurn then []
        else [.charged r.controller.activeIndex] }
  | .discardStartedAttempt =>
    { r with controller := r.controller.discardStartedAttempt, answer := none }
  | .onResolutionSkip reason =>
    { controller := (r.controller.onResolutionSkip reason).1
      answer := none
      events := r.events ++
        if r.controller.exhaustedForTurn then [] else [.skipped r.controller.activeIndex] }
  | .restorePreviousEntryForRetry =>
    let restored := r.controller.restorePreviousEntryForRetry
    { controller := restored.1
      answer := none
      events := r.events ++ if restored.2 then [.restored restored.1.activeIndex] else [] }

/-- An attempt starts after the one before has failed or been discarded or left, and an entry is
restored directly after the failure that left it. -/
def Allows : FallbackCall → Prop
  | .onAttemptStarted => r.controller.attemptStarted = false
  | .restorePreviousEntryForRetry => r.answer = some .advance
  | .onAttemptFailure .. | .discardStartedAttempt | .onResolutionSkip _ => True

inductive Reachable (chain : ConfiguredFallbackChain) (maxAttempts : Nat) (h : 0 < maxAttempts) :
    FallbackRun → Prop
  | new : Reachable chain maxAttempts h ⟨.new chain maxAttempts h, none, []⟩
  | step {r : FallbackRun} {call : FallbackCall} :
      Reachable chain maxAttempts h r → r.Allows call → Reachable chain maxAttempts h (r.step call)

def ReportsExhaustion : Prop :=
  r.controller.exhaustedForTurn = true ∨ r.answer = some .exhausted

/-- The attempts of the active entry are its charges and the one that has started, those of the
entries before it are within their share, and there are none of the entries after it. -/
structure Spends (r : FallbackRun) : Prop where
  index_lt : r.controller.activeIndex < r.controller.chain.entries.length
  used_le : r.controller.attemptsUsed ≤ r.controller.maxAttempts
  budget : r.controller.totalAttemptsUsed ≤ r.controller.maxAttempts * r.controller.activeIndex +
    r.controller.attemptsUsed + r.controller.restoredEntryIndices.length
  left : ∀ i < r.controller.activeIndex, .skipped i ∈ r.events ∨
    r.controller.maxAttempts ≤ r.charges i
  used_charged : r.controller.attemptsUsed ≤ r.charges r.controller.activeIndex +
    r.controller.attemptStarted.toNat
  charged_used : r.charges r.controller.activeIndex + r.controller.attemptStarted.toNat ≤
    r.controller.attemptsUsed + r.restores r.controller.activeIndex
  ahead : ∀ i, r.controller.activeIndex < i → r.charges i = 0

structure Active (r : FallbackRun) : Prop extends Spends r where
  rested : r.controller.attemptStarted = false →
    r.controller.attemptsUsed < r.controller.maxAttempts
  started : r.controller.attemptStarted = true → 0 < r.controller.attemptsUsed
  advanced : r.answer = some .advance → r.controller.attemptsUsed = 0 ∧
    r.charges r.controller.activeIndex = 0 ∧ 0 < r.controller.activeIndex ∧
    r.controller.maxAttempts ≤ r.charges (r.controller.activeIndex - 1)

structure Fair (r : FallbackRun) : Prop where
  bound : ∀ i, r.charges i ≤ r.controller.maxAttempts + r.restores i
  restored : ∀ i, r.restores i = r.controller.restoredEntryIndices.count i
  once : r.controller.restoredEntryIndices.Nodup
  active : r.controller.exhaustedForTurn = false → r.Active
  exhausted : r.ReportsExhaustion → r.controller.exhaustedForTurn = true ∧
    r.controller.chain.entries.length ≤ r.controller.activeIndex ∧
    ∀ i < r.controller.chain.entries.length, .skipped i ∈ r.events ∨
      r.controller.maxAttempts ≤ r.charges i

theorem Spends.exhausts {r : FallbackRun} (h : r.Spends)
    (hfull : r.controller.maxTotalAttempts ≤ r.controller.totalAttemptsUsed) :
    r.controller.activeIndex + 1 = r.controller.chain.entries.length ∧
      r.controller.attemptsUsed = r.controller.maxAttempts := by
  have hindex := h.index_lt
  have hused := h.used_le
  have hbudget := h.budget
  have hpos := r.controller.maxAttempts_pos
  unfold maxTotalAttempts at hfull
  have hnext := Nat.mul_le_mul_left r.controller.maxAttempts (Nat.succ_le_of_lt hindex)
  rw [Nat.mul_succ] at hnext
  refine ⟨?_, by omega⟩
  by_contra hne
  have hlater := Nat.mul_le_mul_left r.controller.maxAttempts
    (show r.controller.activeIndex + 2 ≤ r.controller.chain.entries.length by omega)
  rw [Nat.mul_add] at hlater
  omega

theorem Spends.currentSelector {r : FallbackRun} (h : r.Spends) :
    ∃ selector, r.controller.currentSelector = some selector :=
  ⟨_, getElem?_eq_getElem h.index_lt⟩

theorem Fair.currentSelector_eq_none {r : FallbackRun} (h : r.Fair)
    (hexhausted : r.controller.exhaustedForTurn = true) : r.controller.currentSelector = none :=
  getElem?_eq_none (h.exhausted (.inl hexhausted)).2.1

theorem Fair.of_exhausted {r r' : FallbackRun} (h : r.Fair)
    (hexhausted : r.controller.exhaustedForTurn = true)
    (hmax : r'.controller.maxAttempts = r.controller.maxAttempts)
    (hchain : r'.controller.chain = r.controller.chain)
    (hindex : r'.controller.activeIndex = r.controller.activeIndex)
    (hrestored : r'.controller.restoredEntryIndices = r.controller.restoredEntryIndices)
    (hstill : r'.controller.exhaustedForTurn = true) (hevents : r'.events = r.events) :
    r'.Fair := by
  refine ⟨?_, ?_, ?_, ?_, ?_⟩
  · simpa [charges, restores, hmax, hevents] using h.bound
  · simpa [restores, hrestored, hevents] using h.restored
  · rw [hrestored]
    exact h.once
  · rw [hstill]
    exact fun hfalse => by cases hfalse
  · intro _
    obtain ⟨-, hend, hdone⟩ := h.exhausted (.inl hexhausted)
    rw [hchain, hindex, hmax]
    refine ⟨hstill, hend, fun i hi => ?_⟩
    simpa [charges, hevents] using hdone i hi

theorem fair_advance {r : FallbackRun} {answer : Option FallbackFailureResult}
    (hfair : ∀ i, r.charges i ≤ r.controller.maxAttempts + r.restores i)
    (hrestored : ∀ i, r.restores i = r.controller.restoredEntryIndices.count i)
    (honce : r.controller.restoredEntryIndices.Nodup)
    (hactive : r.controller.exhaustedForTurn = false)
    (hindex : r.controller.activeIndex < r.controller.chain.entries.length)
    (hused : r.controller.attemptsUsed ≤ r.controller.maxAttempts)
    (hbudget : r.controller.totalAttemptsUsed ≤ r.controller.maxAttempts *
      r.controller.activeIndex +
      r.controller.attemptsUsed + r.controller.restoredEntryIndices.length)
    (hahead : ∀ i, r.controller.activeIndex < i → r.charges i = 0)
    (hleft : ∀ i ≤ r.controller.activeIndex, .skipped i ∈ r.events ∨
      r.controller.maxAttempts ≤ r.charges i)
    (hanswer : r.controller.advance.2 = true → answer ≠ some .exhausted)
    (hcharged : answer = some .advance →
      r.controller.maxAttempts ≤ r.charges r.controller.activeIndex) :
    Fair ⟨r.controller.advance.1, answer, r.events⟩ := by
  obtain ⟨c, answer', events⟩ := r
  simp only [charges, restores] at *
  have hadvance : c.advance =
      if c.activeIndex + 1 ≥ c.chain.entries.length then
        ({ c with
            activeIndex := c.activeIndex + 1
            attemptsUsed := 0
            attemptStarted := false
            exhaustedForTurn := true }, false)
      else
        ({ c with activeIndex := c.activeIndex + 1, attemptsUsed := 0, attemptStarted := false },
          true) := by
    rw [advance, hactive]
    rfl
  rw [hadvance] at hanswer ⊢
  split
  · next hend =>
    refine ⟨hfair, hrestored, honce, fun hfalse => by simp at hfalse, fun _ => ⟨rfl, hend, ?_⟩⟩
    exact fun i hi => hleft i (by simp only at hi; omega)
  · next hmore =>
    rw [if_neg hmore] at hanswer
    have hpos := c.maxAttempts_pos
    refine ⟨hfair, hrestored, honce, fun _ => ?_, ?_⟩
    · refine
        { index_lt := by simp only; omega
          used_le := Nat.zero_le _
          rested := fun _ => hpos
          started := fun hstarted => by simp at hstarted
          budget := ?_
          left := fun i hi => hleft i (Nat.le_of_lt_succ hi)
          used_charged := Nat.zero_le _
          charged_used := ?_
          ahead := fun i hi => hahead i (Nat.lt_of_succ_lt hi)
          advanced := ?_ }
      · simp only [Nat.mul_succ]
        omega
      · have hzero := hahead (c.activeIndex + 1) (Nat.lt_succ_self _)
        simp only [charges, hzero]
        exact Nat.zero_le _
      · intro hadvanced
        exact ⟨rfl, hahead _ (Nat.lt_succ_self _), Nat.succ_pos _, hcharged hadvanced⟩
    · rintro (hflag | hexhausted)
      · rw [show c.exhaustedForTurn = true from hflag] at hactive
        cases hactive
      · exact absurd hexhausted (hanswer rfl)

variable {r : FallbackRun}

theorem Fair.onAttemptStarted (h : r.Fair) (hrested : r.controller.attemptStarted = false) :
    (r.step .onAttemptStarted).Fair := by
  cases hexhausted : r.controller.exhaustedForTurn with
  | true =>
    have hsame : r.controller.onAttemptStarted = r.controller := by
      rw [FallbackChainController.onAttemptStarted, hexhausted, Bool.or_true, if_pos rfl]
    exact h.of_exhausted hexhausted (by simp [step, hsame]) (by simp [step, hsame])
      (by simp [step, hsame]) (by simp [step, hsame]) (by simp [step, hsame, hexhausted]) rfl
  | false =>
    have hactive := h.active hexhausted
    obtain ⟨selector, hselector⟩ := hactive.currentSelector
    have hroom : ¬r.controller.totalAttemptsUsed ≥ r.controller.maxTotalAttempts := by
      intro hfull
      have hused := (hactive.exhausts hfull).2
      have hless := hactive.rested hrested
      omega
    have hstart : r.controller.onAttemptStarted =
        { r.controller with
          attemptsUsed := r.controller.attemptsUsed + 1
          totalAttemptsUsed := r.controller.totalAttemptsUsed + 1
          attemptStarted := true } := by
      rw [FallbackChainController.onAttemptStarted, if_neg (by simp [hselector, hexhausted]),
        if_neg hroom]
    have hless := hactive.rested hrested
    have hbudget := hactive.budget
    have hlower := hactive.used_charged
    have hupper := hactive.charged_used
    rw [hrested] at hlower hupper
    simp only [step, hstart]
    refine ⟨h.bound, h.restored, h.once, fun _ => ?_, ?_⟩
    · exact
        { index_lt := hactive.index_lt
          used_le := hless
          rested := fun hfalse => by simp at hfalse
          started := fun _ => Nat.succ_pos _
          budget := by simp only; omega
          left := hactive.left
          used_charged := Nat.succ_le_succ hlower
          charged_used := by
            show r.charges r.controller.activeIndex + 1 ≤
              r.controller.attemptsUsed + 1 + r.restores r.controller.activeIndex
            omega
          ahead := hactive.ahead
          advanced := fun hfalse => by simp at hfalse }
    · rintro (hflag | hfalse)
      · rw [show r.controller.exhaustedForTurn = true from hflag] at hexhausted
        cases hexhausted
      · simp at hfalse

theorem Fair.discardStartedAttempt (h : r.Fair) : (r.step .discardStartedAttempt).Fair := by
  cases hexhausted : r.controller.exhaustedForTurn with
  | true =>
    simp only [step, FallbackChainController.discardStartedAttempt]
    split
    · exact h.of_exhausted hexhausted rfl rfl rfl rfl hexhausted rfl
    · exact h.of_exhausted hexhausted rfl rfl rfl rfl hexhausted rfl
  | false =>
    have hactive := h.active hexhausted
    have hnot : ∀ {c : FallbackChainController}, c.exhaustedForTurn = false →
        ¬(FallbackRun.ReportsExhaustion ⟨c, none, r.events⟩) := by
      rintro c hc (hflag | hfalse)
      · rw [show c.exhaustedForTurn = true from hflag] at hc
        cases hc
      · simp at hfalse
    simp only [step, FallbackChainController.discardStartedAttempt]
    split
    · next hstarted =>
      have hused := hactive.used_le
      have hpos := hactive.started hstarted
      have hbudget := hactive.budget
      have hlower := hactive.used_charged
      have hupper := hactive.charged_used
      rw [hstarted] at hlower hupper
      simp only [Bool.toNat_true] at hlower hupper
      refine ⟨h.bound, h.restored, h.once, fun _ => ?_,
        fun hreport => (hnot hexhausted hreport).elim⟩
      exact
        { index_lt := hactive.index_lt
          used_le := by simp only; omega
          rested := fun _ => by simp only; omega
          started := fun hfalse => by simp at hfalse
          budget := by simp only; omega
          left := hactive.left
          used_charged := by
            show r.controller.attemptsUsed - 1 ≤ r.charges r.controller.activeIndex + 0
            omega
          charged_used := by
            show r.charges r.controller.activeIndex + 0 ≤
              r.controller.attemptsUsed - 1 + r.restores r.controller.activeIndex
            omega
          ahead := hactive.ahead
          advanced := fun hfalse => by simp at hfalse }
    · refine ⟨h.bound, h.restored, h.once, fun _ => ?_,
        fun hreport => (hnot hexhausted hreport).elim⟩
      exact { hactive with advanced := fun hfalse => by simp at hfalse }

theorem Fair.onResolutionSkip (h : r.Fair) (reason : Text) :
    (r.step (.onResolutionSkip reason)).Fair := by
  cases hexhausted : r.controller.exhaustedForTurn with
  | true =>
    have hskip : (r.controller.onResolutionSkip reason).1 = r.controller := by
      rw [FallbackChainController.onResolutionSkip, h.currentSelector_eq_none hexhausted]
      simp only [FallbackChainController.advance, if_pos hexhausted]
    exact h.of_exhausted hexhausted (by simp only [step, hskip]) (by simp only [step, hskip])
      (by simp only [step, hskip]) (by simp only [step, hskip])
        (by simp only [step, hskip, hexhausted])
      (by simp [step, hexhausted])
  | false =>
    have hactive := h.active hexhausted
    obtain ⟨selector, hselector⟩ := hactive.currentSelector
    have hstep : r.step (.onResolutionSkip reason) =
        ⟨(FallbackChainController.advance
            { r.controller with skips := r.controller.skips ++ [⟨selector, reason⟩] }).1, none,
          r.events ++ [FallbackEvent.skipped r.controller.activeIndex]⟩ := by
      simp [step, FallbackChainController.onResolutionSkip, hselector, hexhausted]
    rw [hstep]
    have hcharges : ∀ i, (r.events ++ [FallbackEvent.skipped r.controller.activeIndex]).count
        (FallbackEvent.charged i) = r.charges i := fun i => by simp [charges, count_append]
    have hrestores : ∀ i, (r.events ++ [FallbackEvent.skipped r.controller.activeIndex]).count
        (FallbackEvent.restored i) = r.restores i := fun i => by simp [restores, count_append]
    refine @fair_advance
      ⟨{ r.controller with skips := r.controller.skips ++ [⟨selector, reason⟩] }, none,
        r.events ++ [.skipped r.controller.activeIndex]⟩ none ?_ ?_ h.once hexhausted
          hactive.index_lt
      hactive.used_le hactive.budget ?_ ?_ (fun _ => by simp) (fun hfalse => by simp at hfalse)
    · intro i
      simp only [charges, restores, hcharges, hrestores]
      exact h.bound i
    · intro i
      simp only [restores, hrestores]
      exact h.restored i
    · intro i hi
      simp only [charges, hcharges]
      exact hactive.ahead i hi
    · intro i hi
      simp only [charges, hcharges]
      obtain rfl | hlt := Nat.eq_or_lt_of_le hi
      · exact .inl (by simp)
      · exact (hactive.left i hlt).imp_left fun hskipped => mem_append_left _ hskipped

/-- A run as `onAttemptFailure` has charged the failure, and before it looks at the budget. -/
def charged (r : FallbackRun) (failure : FallbackFailure) : FallbackRun :=
  ⟨r.controller.charge failure, none, r.events ++ [.charged r.controller.activeIndex]⟩

variable (failure : FallbackFailure)

theorem charges_charged (i : Nat) :
    (r.charged failure).charges i = r.charges i + if i = r.controller.activeIndex then 1
      else 0 := by
  rw [charges, charged, count_append, ← charges, count_singleton]
  by_cases h : i = r.controller.activeIndex
  · rw [if_pos h, if_pos (by simp [h])]
  · rw [if_neg h, if_neg (by simp [Ne.symm h])]

theorem restores_charged (i : Nat) : (r.charged failure).restores i = r.restores i := by
  simp [restores, charged, count_append]

theorem Active.charged (h : r.Active) (failure : FallbackFailure) : (r.charged failure).Spends := by
  have hcharges := charges_charged (r := r) failure r.controller.activeIndex
  rw [if_pos rfl] at hcharges
  have hused := h.used_le
  have hbudget := h.budget
  have hlower := h.used_charged
  have hupper := h.charged_used
  refine
    { index_lt := h.index_lt
      used_le := ?_
      budget := ?_
      left := fun i hi => ?_
      used_charged := ?_
      charged_used := ?_
      ahead := fun i hi => ?_ }
  · show (if r.controller.attemptStarted = true then r.controller.attemptsUsed
      else r.controller.attemptsUsed + 1) ≤ r.controller.maxAttempts
    split
    · exact hused
    · next hrested => exact h.rested (by simpa using hrested)
  · simp only [FallbackRun.charged, charge]
    split <;> omega
  · have hlt : i < r.controller.activeIndex := hi
    rw [charges_charged, if_neg (Nat.ne_of_lt hlt)]
    exact (h.left i hlt).imp_left fun hskipped => mem_append_left _ hskipped
  · show (if r.controller.attemptStarted = true then r.controller.attemptsUsed
      else r.controller.attemptsUsed + 1) ≤ (r.charged failure).charges r.controller.activeIndex +
        false.toNat
    rw [hcharges]
    split
    · next hstarted =>
      rw [hstarted] at hlower
      exact hlower
    · next hrested =>
      rw [Bool.not_eq_true] at hrested
      rw [hrested] at hlower
      exact Nat.succ_le_succ hlower
  · show (r.charged failure).charges r.controller.activeIndex + false.toNat ≤
      (if r.controller.attemptStarted = true then r.controller.attemptsUsed
        else r.controller.attemptsUsed + 1) + (r.charged failure).restores r.controller.activeIndex
    rw [hcharges, restores_charged]
    split
    · next hstarted =>
      rw [hstarted] at hupper
      exact hupper
    · next hrested =>
      rw [Bool.not_eq_true] at hrested
      rw [hrested] at hupper
      omega
  · have hlt : r.controller.activeIndex < i := hi
    rw [charges_charged, if_neg (Nat.ne_of_gt hlt)]
    exact h.ahead i hlt

theorem onAttemptFailure_eq {selector : Text}
    (hselector : r.controller.currentSelector = some selector)
    (hactive : r.controller.exhaustedForTurn = false) (triggerClass : FallbackTriggerClass)
    (reason : Text) {c : FallbackChainController}
    (hc : c = r.controller.charge ⟨selector, triggerClass, reason⟩) :
    r.controller.onAttemptFailure triggerClass reason =
      if c.totalAttemptsUsed ≥ c.maxTotalAttempts then (c.exhaust, .exhausted)
      else if c.attemptsUsed < c.maxAttempts then (c, .retry)
      else (c.advance.1, if c.advance.2 then .advance else .exhausted) := by
  rw [onAttemptFailure, hselector]
  simp only [hactive, Bool.false_eq_true, if_false, ← hc]
  obtain ⟨c', advanced⟩ := c.advance
  cases advanced <;> rfl

theorem Fair.onAttemptFailure (h : r.Fair) (triggerClass : FallbackTriggerClass) (reason : Text) :
    (r.step (.onAttemptFailure triggerClass reason)).Fair := by
  cases hexhausted : r.controller.exhaustedForTurn with
  | true =>
    have hfailed :
        r.controller.onAttemptFailure triggerClass reason = (r.controller, .exhausted) := by
      rw [FallbackChainController.onAttemptFailure, h.currentSelector_eq_none hexhausted]
    exact h.of_exhausted hexhausted (by simp only [step, hfailed]) (by simp only [step, hfailed])
      (by simp only [step, hfailed]) (by simp only [step, hfailed])
      (by simp only [step, hfailed, hexhausted]) (by simp [step, hexhausted])
  | false =>
    have hactive := h.active hexhausted
    obtain ⟨selector, hselector⟩ := hactive.currentSelector
    have hspends := hactive.charged ⟨selector, triggerClass, reason⟩
    have hcharges := charges_charged (r := r) ⟨selector, triggerClass, reason⟩
    have hrestores := restores_charged (r := r) ⟨selector, triggerClass, reason⟩
    have hfailed := onAttemptFailure_eq hselector hexhausted triggerClass reason rfl
    have hstep : r.step (.onAttemptFailure triggerClass reason) =
        ⟨(r.controller.onAttemptFailure triggerClass reason).1,
          some (r.controller.onAttemptFailure triggerClass reason).2,
          (r.charged ⟨selector, triggerClass, reason⟩).events⟩ := by
      rw [step, if_neg (by simp [hselector, hexhausted])]
      rfl
    rw [hstep, hfailed]
    generalize hr : r.charged ⟨selector, triggerClass, reason⟩ = r' at *
    have hcontroller : r.controller.charge ⟨selector, triggerClass, reason⟩ = r'.controller := by
      rw [← hr]
      rfl
    have hflag : r'.controller.exhaustedForTurn = false := by rw [← hcontroller]; exact hexhausted
    have hmax : r'.controller.maxAttempts = r.controller.maxAttempts := by rw [← hcontroller]; rfl
    have hindex : r'.controller.activeIndex = r.controller.activeIndex := by rw [← hcontroller]; rfl
    have hindices : r'.controller.restoredEntryIndices = r.controller.restoredEntryIndices := by
      rw [← hcontroller]
      rfl
    have hrested : r'.controller.attemptStarted = false := by rw [← hcontroller]; rfl
    have hlower := hspends.used_charged
    have hupper := hspends.charged_used
    rw [hrested, Bool.toNat_false] at hlower hupper
    have hused := hspends.used_le
    have hbound : ∀ i, r'.charges i ≤ r'.controller.maxAttempts + r'.restores i := by
      intro i
      by_cases hi : i = r'.controller.activeIndex
      · rw [hi]
        omega
      · rw [hcharges, if_neg (hindex ▸ hi), hrestores, hmax]
        exact h.bound i
    have hrestored : ∀ i, r'.restores i = r'.controller.restoredEntryIndices.count i := by
      intro i
      rw [hrestores, hindices]
      exact h.restored i
    have honce : r'.controller.restoredEntryIndices.Nodup := by
      rw [hindices]
      exact h.once
    rw [hcontroller]
    split
    · next hfull =>
      obtain ⟨hlast, hmaximal⟩ := hspends.exhausts hfull
      refine ⟨hbound, hrestored, honce, fun hfalse => (by cases hfalse),
        fun _ => ⟨rfl, Nat.le_refl _, ?_⟩⟩
      intro i hi
      obtain hlt | heq := Nat.lt_or_eq_of_le (show i ≤ r'.controller.activeIndex by
        have hlength : i < r'.controller.chain.entries.length := hi
        omega)
      · exact hspends.left i hlt
      · exact .inr (by
          show r'.controller.maxAttempts ≤ r'.charges i
          rw [heq]
          omega)
    · split
      · next hagain =>
        refine ⟨hbound, hrestored, honce, fun _ => ?_, ?_⟩
        · exact
            { hspends with
              rested := fun _ => hagain
              started := fun hfalse => by rw [hrested] at hfalse; cases hfalse
              advanced := fun hfalse => by simp at hfalse }
        · rintro (hreport | hreport)
          · rw [show r'.controller.exhaustedForTurn = true from hreport] at hflag
            cases hflag
          · simp at hreport
      · next hdone =>
        refine fair_advance hbound hrestored honce hflag hspends.index_lt hused hspends.budget
          hspends.ahead ?_ ?_ ?_
        · intro i hi
          obtain hlt | rfl := Nat.lt_or_eq_of_le hi
          · exact hspends.left i hlt
          · exact .inr (by omega)
        · intro hadvanced
          rw [hadvanced]
          simp
        · intro _
          omega

theorem Fair.restorePreviousEntryForRetry (h : r.Fair) (hanswer : r.answer = some .advance) :
    (r.step .restorePreviousEntryForRetry).Fair := by
  have hactive : r.controller.exhaustedForTurn = false → r.Active := h.active
  simp only [step, FallbackChainController.restorePreviousEntryForRetry]
  split
  · next hkept =>
    simp only [Bool.false_eq_true, if_false, append_nil]
    cases hexhausted : r.controller.exhaustedForTurn with
    | true => exact h.of_exhausted hexhausted rfl rfl rfl rfl hexhausted rfl
    | false =>
      refine ⟨h.bound, h.restored, h.once, fun _ => ?_, ?_⟩
      · exact { h.active hexhausted with advanced := fun hfalse => by simp at hfalse }
      · rintro (hreport | hreport)
        · rw [show r.controller.exhaustedForTurn = true from hreport] at hexhausted
          cases hexhausted
        · simp at hreport
  · next hgoes =>
    simp only [not_or, Bool.not_eq_true, ge_iff_le, Nat.not_le] at hgoes
    obtain ⟨hindex, hexhausted, hnew, hroom⟩ := hgoes
    have hactive := h.active hexhausted
    obtain ⟨hused, hzero, -, hcharged⟩ := hactive.advanced hanswer
    obtain ⟨i, hi⟩ := Nat.exists_eq_succ_of_ne_zero hindex
    have hcharges :
        ∀ j, (r.events ++ [FallbackEvent.restored i]).count (.charged j) = r.charges j :=
      fun j => by simp [charges, count_append]
    have hrestores : ∀ j, (r.events ++ [FallbackEvent.restored i]).count (.restored j) =
        r.restores j + [i].count j := by
      intro j
      rw [count_append, ← restores]
      simp [count_singleton]
    have hbound := h.bound i
    have hbudget := hactive.budget
    have hpos := r.controller.maxAttempts_pos
    simp only [hi, Nat.succ_sub_one, if_true] at hcharged hzero hbudget hnew ⊢
    refine ⟨fun j => ?_, fun j => ?_, ?_, fun _ => ?_, ?_⟩
    · show (r.events ++ [FallbackEvent.restored i]).count (.charged j) ≤ r.controller.maxAttempts +
        (r.events ++ [FallbackEvent.restored i]).count (.restored j)
      rw [hcharges, hrestores, ← Nat.add_assoc]
      exact (h.bound j).trans (Nat.le_add_right _ _)
    · show (r.events ++ [FallbackEvent.restored i]).count (.restored j) =
        (r.controller.restoredEntryIndices ++ [i]).count j
      rw [hrestores, count_append, h.restored j]
    · exact nodup_append.2 ⟨h.once, nodup_singleton i, fun a ha b hb => by
        obtain rfl := mem_singleton.1 hb
        rintro rfl
        exact hnew ha⟩
    · exact
        { index_lt := by
            have hlt := hactive.index_lt
            simp only
            omega
          used_le := Nat.sub_le _ _
          budget := by
            simp only [length_append, length_singleton]
            rw [Nat.mul_succ] at hbudget
            omega
          left := fun j hj => by
            simp only [charges, hcharges]
            exact (hactive.left j (by simp only at hj; omega)).imp_left
              fun hskipped => mem_append_left _ hskipped
          used_charged := by
            show r.controller.maxAttempts - 1 ≤
                (r.events ++ [FallbackEvent.restored i]).count (.charged i) + 0
            rw [hcharges]
            omega
          charged_used := by
            show (r.events ++ [FallbackEvent.restored i]).count (.charged i) + 0 ≤
              r.controller.maxAttempts - 1 + (r.events ++ [FallbackEvent.restored i]).count
                (.restored i)
            rw [hcharges, hrestores, count_singleton_self]
            omega
          ahead := fun j hj => by
            simp only [charges, hcharges]
            obtain heq | hlt := Nat.eq_or_lt_of_le (Nat.succ_le_of_lt hj)
            · rw [← heq]
              exact hzero
            · exact hactive.ahead j (by rw [hi]; exact hlt)
          rested := fun _ => Nat.sub_lt hpos Nat.one_pos
          started := fun hfalse => by simp at hfalse
          advanced := fun hfalse => by simp at hfalse }
    · rintro (hreport | hreport)
      · simp at hreport
      · simp at hreport

theorem fair_new (chain : ConfiguredFallbackChain) (maxAttempts : Nat) (h : 0 < maxAttempts) :
    Fair ⟨.new chain maxAttempts h, none, []⟩ := by
  refine ⟨fun _ => Nat.zero_le _, fun _ => rfl, nodup_nil, fun hactive => ?_, ?_⟩
  · have hlength : chain.entries.length ≠ 0 := by
      simpa [new] using hactive
    exact
      { index_lt := Nat.pos_of_ne_zero hlength
        used_le := Nat.zero_le _
        budget := Nat.zero_le _
        left := fun i hi => (Nat.not_lt_zero i hi).elim
        used_charged := Nat.zero_le _
        charged_used := Nat.zero_le _
        ahead := fun _ _ => rfl
        rested := fun _ => h
        started := fun hfalse => by simp [new] at hfalse
        advanced := fun hfalse => by simp at hfalse }
  · rintro (hempty | hfalse)
    · have hlength : chain.entries.length = 0 := by
        simpa [new] using hempty
      exact ⟨hempty, Nat.le_of_eq hlength, fun i hi => (Nat.not_lt_zero i (hlength ▸ hi)).elim⟩
    · simp at hfalse

theorem advance_chain (c : FallbackChainController) :
    c.advance.1.chain = c.chain ∧ c.advance.1.maxAttempts = c.maxAttempts := by
  simp only [advance]
  split_ifs <;> exact ⟨rfl, rfl⟩

theorem step_chain (r : FallbackRun) (call : FallbackCall) :
    (r.step call).controller.chain = r.controller.chain ∧
      (r.step call).controller.maxAttempts = r.controller.maxAttempts := by
  cases call with
  | onAttemptStarted =>
    simp only [step, onAttemptStarted]
    split_ifs <;> exact ⟨rfl, rfl⟩
  | onAttemptFailure triggerClass reason =>
    simp only [step, onAttemptFailure]
    split
    · exact ⟨rfl, rfl⟩
    · next selector _ =>
      have hadvance := advance_chain (r.controller.charge ⟨selector, triggerClass, reason⟩)
      split
      · exact ⟨rfl, rfl⟩
      · split
        · exact ⟨rfl, rfl⟩
        · split
          · exact ⟨rfl, rfl⟩
          · split
            · next hresult => rwa [hresult] at hadvance
            · next hresult => rwa [hresult] at hadvance
  | discardStartedAttempt =>
    simp only [step, discardStartedAttempt]
    split_ifs <;> exact ⟨rfl, rfl⟩
  | onResolutionSkip reason =>
    simp only [step, onResolutionSkip]
    split
    · exact advance_chain _
    · exact advance_chain _
  | restorePreviousEntryForRetry =>
    simp only [step, restorePreviousEntryForRetry]
    split_ifs <;> exact ⟨rfl, rfl⟩

theorem Fair.step (h : r.Fair) {call : FallbackCall} (hallowed : r.Allows call) :
    (r.step call).Fair := by
  cases call with
  | onAttemptStarted => exact h.onAttemptStarted hallowed
  | onAttemptFailure triggerClass reason => exact h.onAttemptFailure triggerClass reason
  | discardStartedAttempt => exact h.discardStartedAttempt
  | onResolutionSkip reason => exact h.onResolutionSkip reason
  | restorePreviousEntryForRetry => exact h.restorePreviousEntryForRetry hallowed

theorem Reachable.fair {chain : ConfiguredFallbackChain} {maxAttempts : Nat}
    {hpos : 0 < maxAttempts}
    (h : Reachable chain maxAttempts hpos r) :
    r.Fair ∧ r.controller.chain = chain ∧ r.controller.maxAttempts = maxAttempts := by
  induction h with
  | new => exact ⟨fair_new chain maxAttempts hpos, rfl, rfl⟩
  | step hreach hallowed ih =>
    obtain ⟨hfair, hchain, hmax⟩ := ih
    obtain ⟨hchain', hmax'⟩ := step_chain _ _
    exact ⟨hfair.step hallowed, hchain'.trans hchain, hmax'.trans hmax⟩

/-- In every run, an entry is charged `maxAttempts` failures at most and one more if it is restored,
which happens once at most, and the chain is exhausted only when every entry has been skipped or has
had its `maxAttempts` failures. -/
theorem reachable_fair {chain : ConfiguredFallbackChain} {maxAttempts : Nat}
    {hpos : 0 < maxAttempts}
    (h : Reachable chain maxAttempts hpos r) :
    (∀ i, r.charges i ≤ maxAttempts + r.restores i ∧ r.restores i ≤ 1) ∧
      (r.ReportsExhaustion → ∀ i < chain.entries.length, .skipped i ∈ r.events ∨
        maxAttempts ≤ r.charges i) := by
  obtain ⟨hfair, rfl, rfl⟩ := h.fair
  refine ⟨fun i => ⟨hfair.bound i, ?_⟩, fun hreport => (hfair.exhausted hreport).2.2⟩
  rw [hfair.restored i]
  exact nodup_iff_count_le_one.1 hfair.once i

/-- Whether an attempt is started that has not failed and was not discarded or skipped. -/
def leavesAttempt (pending : Bool) : FallbackCall → Bool
  | .onAttemptStarted => true
  | .onAttemptFailure .. | .discardStartedAttempt | .onResolutionSkip _ => false
  | .restorePreviousEntryForRetry => pending

def Permits (pending : Bool) : FallbackCall → Prop
  | .onAttemptStarted => pending = false
  | .restorePreviousEntryForRetry => r.answer = some .advance
  | .onAttemptFailure .. | .discardStartedAttempt | .onResolutionSkip _ => True

/-- Calls in which every attempt fails or is discarded before the next one starts, and an entry is
restored directly after a failure with the answer `advance`. -/
def Settles (r : FallbackRun) (pending : Bool) : List FallbackCall → Prop
  | [] => True
  | call :: calls =>
      r.Permits pending call ∧ Settles (r.step call) (leavesAttempt pending call) calls

/-- An attempt that the controller counts as started is one of the calls that is not settled. -/
def Pends (r : FallbackRun) (pending : Bool) : Prop :=
  r.controller.attemptStarted = true →
    pending = true ∧ r.controller.exhaustedForTurn = false ∧
      r.controller.currentSelector.isSome = true

theorem advance_attemptStarted {c : FallbackChainController}
    (h : c.attemptStarted = true → c.exhaustedForTurn = false) :
    c.advance.1.attemptStarted = false := by
  unfold advance
  split
  · next hexhausted =>
    refine Bool.eq_false_of_not_eq_true fun hstarted => ?_
    rw [h hstarted] at hexhausted
    cases hexhausted
  · dsimp only
    split <;> rfl

theorem Pends.step {pending : Bool} (h : r.Pends pending) {call : FallbackCall}
    (hpermits : r.Permits pending call) : (r.step call).Pends (leavesAttempt pending call) := by
  have hnot : ∀ r' : FallbackRun, r'.controller.attemptStarted = false →
      ∀ pending', r'.Pends pending' := by
    intro r' hrested pending' hstarted
    rw [hrested] at hstarted
    cases hstarted
  cases call with
  | onAttemptStarted =>
    simp only [FallbackRun.step, Pends, FallbackChainController.onAttemptStarted, leavesAttempt]
    split
    · exact fun hstarted => ⟨trivial, (h hstarted).2⟩
    · next hlive =>
      rw [Bool.not_eq_true, Bool.or_eq_false_iff] at hlive
      split
      · intro hstarted
        rw [show pending = false from hpermits] at h
        exact absurd (h hstarted).1 Bool.false_ne_true
      · refine fun _ => ⟨trivial, hlive.2, ?_⟩
        rw [← Option.not_isNone]
        exact congrArg not hlive.1
  | onAttemptFailure triggerClass reason =>
    refine hnot _ ?_ _
    simp only [FallbackRun.step, FallbackChainController.onAttemptFailure]
    split
    · next hnone =>
      refine Bool.eq_false_of_not_eq_true fun hstarted => ?_
      have hsome := (h hstarted).2.2
      rw [hnone] at hsome
      cases hsome
    · split
      · next hexhausted =>
        refine Bool.eq_false_of_not_eq_true fun hstarted => ?_
        rw [(h hstarted).2.1] at hexhausted
        cases hexhausted
      · have hcharged := fun failure => advance_attemptStarted
            (c := r.controller.charge failure) fun h => by cases h
        split
        · rfl
        · split
          · rfl
          · split
            · next hadvance =>
              exact (congrArg (fun x => x.1.attemptStarted) hadvance).symm.trans (hcharged _)
            · next hadvance =>
              exact (congrArg (fun x => x.1.attemptStarted) hadvance).symm.trans (hcharged _)
  | discardStartedAttempt =>
    refine hnot _ ?_ _
    simp only [FallbackRun.step, FallbackChainController.discardStartedAttempt]
    split
    · rfl
    · next hrested => exact Bool.eq_false_of_not_eq_true hrested
  | onResolutionSkip reason =>
    refine hnot _ ?_ _
    simp only [FallbackRun.step, FallbackChainController.onResolutionSkip]
    split
    · exact advance_attemptStarted fun hstarted => (h hstarted).2.1
    · exact advance_attemptStarted fun hstarted => (h hstarted).2.1
  | restorePreviousEntryForRetry =>
    simp only [FallbackRun.step, FallbackChainController.restorePreviousEntryForRetry,
      leavesAttempt]
    split
    · exact h
    · exact hnot _ rfl _

/-- Calls that settle what they start are calls that the controller allows. -/
theorem Reachable.of_settles {chain : ConfiguredFallbackChain} {maxAttempts : Nat}
    {hpos : 0 < maxAttempts}
    (hreach : Reachable chain maxAttempts hpos r) (pending : Bool) (hpends : r.Pends pending)
    {calls : List FallbackCall} (h : r.Settles pending calls) :
    Reachable chain maxAttempts hpos (calls.foldl FallbackRun.step r) := by
  induction calls generalizing r pending with
  | nil => exact hreach
  | cons call calls ih =>
    obtain ⟨hpermits, hlater⟩ := h
    refine ih (hreach.step ?_) _ (hpends.step hpermits) hlater
    cases call with
    | onAttemptStarted =>
      refine Bool.eq_false_of_not_eq_true fun hstarted => ?_
      rw [show pending = false from hpermits] at hpends
      exact absurd (hpends hstarted).1 Bool.false_ne_true
    | restorePreviousEntryForRetry => exact hpermits
    | onAttemptFailure triggerClass reason => trivial
    | discardStartedAttempt => trivial
    | onResolutionSkip reason => trivial

def restoredCalls : List FallbackCall :=
  let failure := FallbackCall.onAttemptFailure .rateLimit []
  [.onAttemptStarted, failure, .restorePreviousEntryForRetry, .onAttemptStarted,
    .discardStartedAttempt, .onAttemptStarted, failure, .onAttemptStarted, failure]

def restoredRun : FallbackRun :=
  restoredCalls.foldl FallbackRun.step ⟨.new ⟨["a".toList, "b".toList], by decide⟩ 1 Nat.one_pos,
    none, []⟩

theorem restoredRun_fair :
    restoredRun.ReportsExhaustion ∧ restoredRun.charges 0 = 2 ∧
      ∀ i < 2, .skipped i ∈ restoredRun.events ∨ 1 ≤ restoredRun.charges i := by
  have hreports : restoredRun.ReportsExhaustion := .inl (by decide +kernel)
  have hreach : Reachable ⟨["a".toList, "b".toList], by decide⟩ 1 Nat.one_pos restoredRun := by
    refine Reachable.of_settles .new false (fun hstarted => by cases hstarted) ?_
    refine ⟨rfl, trivial, ?_, rfl, trivial, rfl, trivial, rfl, trivial, trivial⟩
    show FallbackRun.answer _ = some .advance
    decide +kernel
  exact ⟨hreports, by decide +kernel, (reachable_fair hreach).2 hreports⟩

end FallbackRun

end Vibrato.Session
