import Vibrato.Goals.Runtime
import Vibrato.Lib.Runs

/-! What the goals of a session are charged against what their turns use.  A meter reads the
counters of the host while a goal is active in an open turn. -/

namespace Vibrato.Goals

open Lib GoalRuntime Option

theorem goalTokenDelta_self (u : GoalTokenUsage) : goalTokenDelta u u = 0 := by
  simp [goalTokenDelta]

variable {a b c : GoalTokenUsage}

theorem goalTokenDelta_eq_zero :
    goalTokenDelta a b = 0 ↔ a.input ≤ b.input ∧ a.cacheWrite ≤ b.cacheWrite ∧
      a.output ≤ b.output := by
  unfold goalTokenDelta
  rw [Nat.add_eq_zero_iff, Nat.add_eq_zero_iff, Nat.sub_eq_zero_iff_le, Nat.sub_eq_zero_iff_le,
    Nat.sub_eq_zero_iff_le, and_assoc]

theorem goalTokenDelta_trans (hab : goalTokenDelta a b = 0)
    (hbc : goalTokenDelta b c = 0) : goalTokenDelta a c = 0 := by
  rw [goalTokenDelta_eq_zero] at *
  exact ⟨hab.1.trans hbc.1, hab.2.1.trans hbc.2.1, hab.2.2.trans hbc.2.2⟩

theorem goalTokenDelta_add (hab : goalTokenDelta a b = 0)
    (hbc : goalTokenDelta b c = 0) :
    goalTokenDelta b a + goalTokenDelta c b = goalTokenDelta c a := by
  obtain ⟨hinput, hcacheWrite, houtput⟩ := goalTokenDelta_eq_zero.mp hab
  obtain ⟨hinput', hcacheWrite', houtput'⟩ := goalTokenDelta_eq_zero.mp hbc
  unfold goalTokenDelta
  rw [← Nat.sub_add_sub_cancel hinput' hinput, ← Nat.sub_add_sub_cancel hcacheWrite' hcacheWrite,
    ← Nat.sub_add_sub_cancel houtput' houtput]
  ac_rfl

namespace GoalRuntime

variable (r : GoalRuntime)

theorem goalTokenDelta_grow (more : GoalTokenUsage) :
    goalTokenDelta r.usage (r.grow more).usage = 0 := by
  simp only [goalTokenDelta, grow]
  omega

def running : Bool := r.hasAccountingState && r.turnOpen

def tracked : Option GoalTokenUsage :=
  r.state.bind fun state => r.turnSnapshot.bind fun snapshot =>
    if state.isAccounting ∧ snapshot.activeGoalId = some state.goal.id then
      some snapshot.baselineUsage else none

def tokensUsed (r : GoalRuntime) : Nat := (r.state.map (·.goal.tokensUsed)).getD 0

def retires (r' : GoalRuntime) : Nat :=
  if r'.state.map (·.goal.id) = r.state.map (·.goal.id) then 0 else r.tokensUsed

def commits (currentUsage : GoalTokenUsage) : Bool :=
  r.state.any fun state => r.tokenDelta state.goal currentUsage ≠ 0 || r.wallSeconds state.goal ≠ 0

def Fresh : Prop := ∀ state, r.state = some state → state.goal.id < r.nextGoalId

variable {r r' : GoalRuntime}

variable {state : GoalModeState} {baseline u : GoalTokenUsage}

theorem tracked_of_state (hstate : r.state = some state) :
    r.tracked = r.turnSnapshot.bind fun snapshot =>
      if state.isAccounting ∧ snapshot.activeGoalId = some state.goal.id then
        some snapshot.baselineUsage
      else none := by
  unfold tracked
  rw [hstate]
  rfl

theorem tracked_eq_some (h : r.tracked = some baseline) :
    ∃ state, r.state = some state ∧ state.isAccounting = true ∧
      r.turnSnapshot = some ⟨baseline, some state.goal.id⟩ := by
  obtain ⟨state, hstate, h⟩ := bind_eq_some_iff.mp h
  obtain ⟨snapshot, hsnapshot, h⟩ := bind_eq_some_iff.mp h
  split at h
  next hactive =>
    injection h with h
    refine ⟨state, hstate, hactive.1, ?_⟩
    rw [hsnapshot, ← h, ← hactive.2]
  next => cases h

theorem hasAccountingState_of_tracked (h : r.tracked = some baseline) :
    r.hasAccountingState = true := by
  obtain ⟨state, hstate, hactive, -⟩ := tracked_eq_some h
  unfold hasAccountingState
  rw [hstate]
  exact hactive

theorem tracked_of_not_accounting (h : r.hasAccountingState = false) : r.tracked = none := by
  cases htracked : r.tracked with
  | none => rfl
  | some baseline =>
    rw [hasAccountingState_of_tracked htracked] at h
    cases h

theorem tracked_of_snapshot (h : r.turnSnapshot.bind (·.activeGoalId) = none) :
    r.tracked = none := by
  cases htracked : r.tracked with
  | none => rfl
  | some baseline =>
    obtain ⟨state, -, -, hsnapshot⟩ := tracked_eq_some htracked
    rw [hsnapshot] at h
    cases h

/-- A flush that commits counts the tokens from the tracked baseline on, and moves the baseline. -/
structure Flushed (r : GoalRuntime) (currentUsage : GoalTokenUsage) (r' : GoalRuntime) : Prop where
  commits : r.commits currentUsage = true
  usage : r'.usage = r.usage
  turnOpen : r'.turnOpen = r.turnOpen
  nextGoalId : r'.nextGoalId = r.nextGoalId
  accounting : r'.hasAccountingState = r.hasAccountingState
  id : r'.state.map (·.goal.id) = r.state.map (·.goal.id)
  tracked : r'.tracked = r.tracked.map fun _ => currentUsage
  tokensUsed : r'.tokensUsed = r.tokensUsed + (r.tracked.map (goalTokenDelta currentUsage)).getD 0

theorem tokenDelta_eq (hstate : r.state = some state) (hactive : state.isAccounting = true)
    (u : GoalTokenUsage) :
    r.tokenDelta state.goal u = (r.tracked.map (goalTokenDelta u)).getD 0 := by
  rw [tracked_of_state hstate]
  unfold tokenDelta
  cases r.turnSnapshot with
  | none => rfl
  | some snapshot =>
    simp only [bind_some, hactive, true_and]
    split
    · rfl
    · rfl

theorem flushUsageLocked_flushed (h : r.flushUsageLocked u = some r') : Flushed r u r' := by
  unfold flushUsageLocked at h
  split at h
  next => cases h
  next state hstate =>
  split at h
  next => cases h
  next hactive =>
  split at h
  next => cases h
  next =>
  split at h
  next => cases h
  next hcommits =>
  rw [Bool.not_eq_true', Bool.not_eq_false] at hactive
  injection h with h
  subst h
  exact
    { commits := by
        unfold commits
        rw [hstate]
        simp only [Option.any_some, Bool.or_eq_true, decide_eq_true_eq]
        by_contra hnone
        rw [not_or, not_not, not_not] at hnone
        exact hcommits hnone
      usage := rfl
      turnOpen := rfl
      nextGoalId := rfl
      accounting := by
        unfold hasAccountingState
        rw [hstate]
        rfl
      id := by
        rw [hstate]
        rfl
      tracked := by
        rw [tracked_of_state hstate]
        show Option.bind (Option.map _ r.turnSnapshot) _ = _
        cases r.turnSnapshot with
        | none => rfl
        | some snapshot =>
          by_cases hmarked : snapshot.activeGoalId = some state.goal.id
          · simp [hmarked, GoalModeState.isAccounting, isAccountingStatus]
          · simp [hmarked]
      tokensUsed := by
        rw [← tokenDelta_eq hstate hactive]
        unfold tokensUsed
        rw [hstate]
        rfl }

theorem flushUsageLocked_eq_none (h : r.flushUsageLocked u = none)
    (htracked : r.tracked = some baseline) : goalTokenDelta u baseline = 0 := by
  obtain ⟨state, hstate, hactive, hsnapshot⟩ := tracked_eq_some htracked
  have hdelta := tokenDelta_eq hstate hactive u
  rw [htracked] at hdelta
  unfold flushUsageLocked at h
  rw [hstate] at h
  simp only [hactive, Bool.not_true, Bool.false_eq_true, if_false] at h
  rw [hsnapshot] at h
  split at h
  next hmarked => exact absurd rfl hmarked.1
  next =>
  split at h
  next hnothing =>
    rw [hdelta] at hnothing
    exact hnothing.1
  next => cases h

structure Carries (r r' : GoalRuntime) : Prop where
  usage : r'.usage = r.usage
  tokens : r'.tokensUsed + r.retires r' = r.tokensUsed
  fresh : r.Fresh → r'.Fresh

def AtUsage (r : GoalRuntime) : Prop :=
  ∀ baseline, r.tracked = some baseline →
    r.turnOpen = true ∧ goalTokenDelta baseline r.usage = 0 ∧ goalTokenDelta r.usage baseline = 0

def Resets (r r' : GoalRuntime) : Prop := r.Carries r' ∧ r'.AtUsage

theorem AtUsage.of_none (h : r.tracked = none) : r.AtUsage := fun baseline htracked => by
  rw [h] at htracked
  cases htracked

theorem AtUsage.of_marked {id : GoalId} (hopen : r.turnOpen = true)
    (h : r.turnSnapshot = some ⟨r.usage, some id⟩) : r.AtUsage := fun baseline htracked => by
  obtain ⟨_, -, -, hsnapshot⟩ := tracked_eq_some htracked
  rw [h] at hsnapshot
  injection hsnapshot with hsnapshot
  injection hsnapshot with hbaseline
  rw [← hbaseline]
  exact ⟨hopen, goalTokenDelta_self _, goalTokenDelta_self _⟩

theorem Fresh.of_same (hfresh : r.Fresh) (hid : r'.nextGoalId = r.nextGoalId)
    (hgoal : r'.state.map (·.goal.id) = r.state.map (·.goal.id)) : r'.Fresh := by
  intro state hstate
  rw [hstate] at hgoal
  obtain ⟨before, hbefore, heq⟩ := map_eq_some_iff.mp hgoal.symm
  rw [hid]
  exact lt_of_eq_of_lt heq.symm (hfresh before hbefore)

theorem Carries.of_same (husage : r'.usage = r.usage) (hid : r'.nextGoalId = r.nextGoalId)
    (hgoal : r'.state.map (·.goal.id) = r.state.map (·.goal.id))
    (htokens : r'.state.map (·.goal.tokensUsed) = r.state.map (·.goal.tokensUsed)) :
    r.Carries r' where
  usage := husage
  tokens := by
    unfold retires tokensUsed
    rw [if_pos hgoal, htokens]
    rfl
  fresh hfresh := hfresh.of_same hid hgoal

theorem resets_of_marked {goal : Goal} (hid : r.state.map (·.goal.id) = some state.goal.id)
    (htokens : r.state.map (·.goal.tokensUsed) = some state.goal.tokensUsed) :
    r.Resets ((r.markActiveAccounting goal).commitState (some state)) :=
  ⟨.of_same rfl rfl hid.symm htokens.symm, .of_marked rfl rfl⟩

theorem tracked_clearActiveAccounting (r : GoalRuntime) (state : Option GoalModeState) :
    (r.clearActiveAccounting.commitState state).tracked = none := by
  apply tracked_of_snapshot
  show (r.turnSnapshot.map _).bind _ = none
  cases r.turnSnapshot with
  | none => rfl
  | some snapshot => rfl

theorem resets_of_cleared (hid : r.state.map (·.goal.id) = some state.goal.id)
    (htokens : r.state.map (·.goal.tokensUsed) = some state.goal.tokensUsed) :
    r.Resets (r.clearActiveAccounting.commitState (some state)) :=
  ⟨.of_same rfl rfl hid.symm htokens.symm, .of_none (tracked_clearActiveAccounting r _)⟩

theorem startGoal_resets (hfresh : r.Fresh) (objective : Text) (provenance : GoalProvenance) :
    r.Resets (r.startGoal objective provenance) := by
  refine ⟨⟨rfl, ?_, fun _ state hstate => ?_⟩, .of_marked rfl rfl⟩
  · have hnew : r.state.map (·.goal.id) ≠ some r.nextGoalId := by
      intro hsame
      obtain ⟨state, hstate, heq⟩ := map_eq_some_iff.mp hsame
      exact Nat.ne_of_lt (hfresh state hstate) heq
    unfold retires
    rw [if_neg fun hsame => hnew hsame.symm]
    exact Nat.zero_add _
  · injection hstate with hstate
    subst hstate
    exact Nat.lt_succ_self _

theorem Resets.withQueue (h : r.Resets r') (tasks : List GoalTask) (agentEnds : Nat) :
    r.Resets { r' with tasks, agentEnds } :=
  ⟨⟨h.1.usage, h.1.tokens, h.1.fresh⟩, h.2⟩

theorem Flushed.withQueue (h : Flushed r u r') (tasks : List GoalTask) (agentEnds : Nat) :
    Flushed r u { r' with tasks, agentEnds } :=
  { h with }

variable (r)

theorem resets_of_no_snapshot (turnOpen : Bool) (agentEnds : Nat) :
    r.Resets { r with turnSnapshot := none, turnOpen, agentEnds } :=
  ⟨.of_same rfl rfl rfl rfl, .of_none (tracked_of_snapshot rfl)⟩

theorem onTurnStart_carries (baseline : GoalTokenUsage) : r.Carries (r.onTurnStart baseline) := by
  unfold onTurnStart
  dsimp only
  split
  next => exact .of_same rfl rfl rfl rfl
  next =>
  split
  · exact .of_same rfl rfl rfl rfl
  · exact .of_same rfl rfl rfl rfl

theorem onTurnStart_turnOpen (baseline : GoalTokenUsage) :
    (r.onTurnStart baseline).turnOpen = true := by
  unfold onTurnStart
  dsimp only
  split
  next => rfl
  next =>
  split
  · rfl
  · rfl

theorem tracked_onTurnStart (baseline : GoalTokenUsage) :
    (r.onTurnStart baseline).tracked = if r.hasAccountingState then some baseline else none := by
  unfold onTurnStart hasAccountingState
  dsimp only
  split
  next hstate =>
    rw [hstate]
    exact tracked_of_snapshot rfl
  next state hstate =>
  rw [hstate, any_some]
  split
  next hactive =>
    rw [tracked_of_state rfl]
    simp only [bind_some, hactive, true_and, if_true]
  next => exact tracked_of_snapshot rfl

variable {r}

theorem onThreadResumed_resets (hstate : r.state ≠ none) : r.Resets r.onThreadResumed := by
  unfold onThreadResumed
  split
  next hnone => exact absurd hnone hstate
  next state hstate =>
  -- switching the state on leaves the goal
  have hgoal : (if state.goal.status = .active then { state with enabled := true }
      else state).goal = state.goal := by
    split
    · rfl
    · rfl
  generalize (if state.goal.status = .active then { state with enabled := true } else state) =
    resumed at hgoal
  have hid : r.state.map (·.goal.id) = some resumed.goal.id := by
    rw [hstate, hgoal]
    rfl
  have htokens : r.state.map (·.goal.tokensUsed) = some resumed.goal.tokensUsed := by
    rw [hstate, hgoal]
    rfl
  dsimp only
  split
  next => exact resets_of_marked hid htokens
  next => exact resets_of_cleared hid htokens

theorem abortTurn_resets (r : GoalRuntime) : r.Resets r.abortTurn := by
  unfold abortTurn
  dsimp only
  split
  next => exact resets_of_no_snapshot r _ _
  next state hstate =>
  split
  next =>
    refine ⟨.of_same rfl rfl ?_ ?_, .of_marked rfl rfl⟩
    · rw [hstate]
      rfl
    · rw [hstate]
      rfl
  next => exact resets_of_no_snapshot r _ _

theorem createGoal_resets (hfresh : r.Fresh) {objective : Text} {provenance : GoalProvenance}
    (h : r.createGoal objective provenance = .ok r') :
    r.hasAccountingState = false ∧ r.Resets r' := by
  unfold createGoal at h
  split at h
  next => cases h
  next hnone =>
    injection h with h
    subst h
    refine ⟨?_, startGoal_resets hfresh objective provenance⟩
    unfold hasAccountingState
    cases hstate : r.state with
    | none => rfl
    | some state =>
      rw [hstate] at hnone
      simp only [any_some, decide_eq_true_eq, not_and_or, not_not] at hnone
      unfold GoalModeState.isAccounting isAccountingStatus
      rcases hnone with hstatus | hstatus
      · simp [hstatus]
      · simp [hstatus]

theorem resumeGoal_resets (h : r.resumeGoal = .ok r') : r.Resets r' := by
  unfold resumeGoal at h
  split at h
  next => cases h
  next state hstate =>
  split at h
  next => cases h
  next =>
    injection h with h
    subst h
    exact resets_of_marked (by rw [hstate]; rfl) (by rw [hstate]; rfl)

theorem pauseGoal_resets (h : r.pauseGoal = .ok r') : r.Resets r' := by
  unfold pauseGoal at h
  split at h
  next hstate =>
    injection h with h
    subst h
    refine ⟨.of_same rfl rfl rfl rfl, .of_none ?_⟩
    unfold tracked
    rw [hstate]
    rfl
  next state hstate =>
  split at h
  next => cases h
  next =>
    injection h with h
    subst h
    exact resets_of_cleared (by rw [hstate]; rfl) (by rw [hstate]; rfl)

theorem completeGoalFromTool_resets (h : r.completeGoalFromTool = .ok r') : r.Resets r' := by
  unfold completeGoalFromTool at h
  split at h
  next => cases h
  next state hstate =>
  split at h
  next => cases h
  next => cases h
  all_goals
    injection h with h
    subst h
    exact resets_of_cleared (by rw [hstate]; rfl) (by rw [hstate]; rfl)

variable (r)

theorem clearActiveAccounting_resets : r.Resets r.clearActiveAccounting :=
  ⟨.of_same rfl rfl rfl rfl, .of_none (tracked_clearActiveAccounting r r.state)⟩

theorem commitNone_resets : r.Resets (r.commitState none) := by
  refine ⟨⟨rfl, ?_, fun _ state hstate => by cases hstate⟩, .of_none rfl⟩
  unfold retires tokensUsed commitState
  cases r.state with
  | none => rfl
  | some state => simp

end GoalRuntime

/-- A runtime under a meter.  `growth` is how far the counters grew while a goal was active in an
open turn, `mark` the usage at the end of the last such time, and `retired` the tokens of the goals
that the session has left. -/
structure Metered where
  runtime : GoalRuntime
  mark : GoalTokenUsage
  growth : Nat
  retired : Nat

namespace Metered

def start (state : Option GoalModeState) (usage : GoalTokenUsage) (now : Int) : Metered where
  runtime := .create state usage now
  mark := usage
  growth := 0
  retired := 0

variable (m : Metered)

/-- The meter is read after the runtime has gone on to `next`. -/
def read (next : GoalRuntime) : Metered where
  runtime := next
  mark := if next.running then next.usage else m.mark
  growth := m.growth + if m.runtime.running then goalTokenDelta next.usage m.runtime.usage else 0
  retired := m.retired + m.runtime.retires next

def step (m : Metered) (step : GoalRuntime.Step) : Metered := m.read (m.runtime.step step)

def tokens : Nat := m.runtime.tokensUsed + m.retired

def pending : Nat := (m.runtime.tracked.map (goalTokenDelta m.mark)).getD 0

/-- `tokens` is what the goals held at the start. -/
structure Inv (tokens : Nat) (m : Metered) : Prop where
  counted : m.tokens + m.pending = tokens + m.growth
  current : m.runtime.running = true → m.mark = m.runtime.usage
  mark_le : goalTokenDelta m.mark m.runtime.usage = 0
  baseline_le : ∀ baseline, m.runtime.tracked = some baseline → goalTokenDelta baseline m.mark = 0
  fresh : m.runtime.Fresh

variable {m : Metered} {next : GoalRuntime} {tokens : Nat}

theorem pending_of_none (h : m.runtime.tracked = none) : m.pending = 0 := by
  unfold pending
  rw [h]
  rfl

variable {baseline u : GoalTokenUsage}

theorem pending_of_some (h : m.runtime.tracked = some baseline) :
    m.pending = goalTokenDelta m.mark baseline := by
  unfold pending
  rw [h]
  rfl

theorem read_growth (h : next.usage = m.runtime.usage) : (m.read next).growth = m.growth := by
  unfold read
  rw [h, goalTokenDelta_self, ite_self]
  rfl

theorem Inv.read_mark (h : m.Inv tokens) (husage : next.usage = m.runtime.usage)
    (hrunning : next.running = true → m.runtime.running = true) : (m.read next).mark = m.mark := by
  unfold read
  split
  next hnext => rw [husage, h.current (hrunning hnext)]
  next => rfl

theorem Inv.read_mark_le (h : m.Inv tokens)
    (husage : goalTokenDelta m.runtime.usage next.usage = 0) :
    goalTokenDelta (m.read next).mark next.usage = 0 := by
  unfold read
  split
  next => exact goalTokenDelta_self _
  next => exact goalTokenDelta_trans h.mark_le husage

theorem read_current (hrunning : next.running = true) : (m.read next).mark = next.usage :=
  if_pos hrunning

theorem read_tokens :
    (m.read next).tokens = next.tokensUsed + (m.retired + m.runtime.retires next) := rfl

variable (h : m.Inv tokens)
include h

theorem Inv.quiet (hstate : next.state = m.runtime.state)
    (hsnapshot : next.turnSnapshot = m.runtime.turnSnapshot) (husage : next.usage = m.runtime.usage)
    (hid : next.nextGoalId = m.runtime.nextGoalId)
    (hopen : next.turnOpen = true → m.runtime.turnOpen = true) : (m.read next).Inv tokens := by
  have htracked : next.tracked = m.runtime.tracked := by
    unfold tracked
    rw [hstate, hsnapshot]
  have hrunning : next.running = true → m.runtime.running = true := by
    unfold running hasAccountingState
    rw [hstate, Bool.and_eq_true, Bool.and_eq_true]
    exact fun hnext => ⟨hnext.1, hopen hnext.2⟩
  have hmark := h.read_mark husage hrunning
  have hcarries : m.runtime.Carries next := .of_same husage hid (by rw [hstate]) (by rw [hstate])
  exact
    { counted := by
        have hpending : (m.read next).pending = m.pending := by
          unfold pending
          rw [hmark]
          show (next.tracked.map _).getD 0 = _
          rw [htracked]
        have hcounted := h.counted
        have htokens := hcarries.tokens
        rw [read_growth husage, read_tokens]
        unfold Metered.tokens at hcounted
        omega
      current := read_current
      mark_le := h.read_mark_le (by rw [husage, goalTokenDelta_self])
      baseline_le := fun baseline hbaseline => by
        rw [hmark]
        exact h.baseline_le baseline (htracked ▸ hbaseline)
      fresh := hcarries.fresh h.fresh }

theorem Inv.carry (hcarries : m.runtime.Carries next)
    (htracked : ∀ baseline, next.tracked = some baseline →
      next.turnOpen = true ∧ goalTokenDelta baseline next.usage = 0)
    (hpending : (next.tracked.map (goalTokenDelta next.usage)).getD 0 = m.pending) :
    (m.read next).Inv tokens := by
  have hmark : ∀ baseline, next.tracked = some baseline → (m.read next).mark = next.usage := by
    intro baseline hbaseline
    apply read_current
    unfold running
    rw [hasAccountingState_of_tracked hbaseline, (htracked baseline hbaseline).1]
    rfl
  exact
    { counted := by
        have hleft : (m.read next).pending = m.pending := by
          rw [← hpending]
          cases hbaseline : next.tracked with
          | none => exact pending_of_none hbaseline
          | some baseline =>
            rw [pending_of_some (m := m.read next) hbaseline, hmark baseline hbaseline]
            rfl
        have hcounted := h.counted
        have htokens := hcarries.tokens
        rw [read_growth hcarries.usage, read_tokens]
        unfold Metered.tokens at hcounted
        omega
      current := read_current
      mark_le := h.read_mark_le (by rw [hcarries.usage, goalTokenDelta_self])
      baseline_le := fun baseline hbaseline => by
        rw [hmark baseline hbaseline]
        exact (htracked baseline hbaseline).2
      fresh := hcarries.fresh h.fresh }

theorem Inv.reset (hpending : m.pending = 0) (hreset : m.runtime.Resets next) :
    (m.read next).Inv tokens := by
  obtain ⟨hcarries, hat⟩ := hreset
  refine h.carry hcarries (fun baseline hbaseline => ?_) ?_
  · obtain ⟨hopen, hle, -⟩ := hat baseline hbaseline
    exact ⟨hopen, hle⟩
  · rw [hpending]
    cases hbaseline : next.tracked with
    | none => rfl
    | some baseline => exact (hat baseline hbaseline).2.2

theorem Inv.flush (hflush : GoalRuntime.Flushed m.runtime u next)
    (hsound : ∀ baseline, m.runtime.tracked = some baseline →
      goalTokenDelta baseline u = 0 ∧ goalTokenDelta u m.mark = 0) : (m.read next).Inv tokens := by
  have hmark : (m.read next).mark = m.mark := by
    apply h.read_mark hflush.usage
    unfold running
    rw [hflush.accounting, hflush.turnOpen]
    exact id
  have hretires : m.runtime.retires next = 0 := if_pos hflush.id
  have hcounted := h.counted
  have htokens := hflush.tokensUsed
  unfold Metered.tokens at hcounted
  exact
    { counted := by
        rw [read_growth hflush.usage, read_tokens]
        cases htracked : m.runtime.tracked with
        | none =>
          have hnext := hflush.tracked
          rw [htracked, map_none] at hnext htokens
          rw [pending_of_none htracked] at hcounted
          rw [pending_of_none (m := m.read next) hnext]
          rw [getD_none] at htokens
          omega
        | some baseline =>
          have hnext := hflush.tracked
          rw [htracked, map_some] at hnext htokens
          rw [pending_of_some htracked] at hcounted
          rw [pending_of_some (m := m.read next) hnext, hmark]
          obtain ⟨hbaseline, hle⟩ := hsound baseline htracked
          have hadd := goalTokenDelta_add hbaseline hle
          rw [getD_some] at htokens
          omega
      current := read_current
      mark_le := h.read_mark_le (by rw [hflush.usage, goalTokenDelta_self])
      baseline_le := fun baseline hnext => by
        rw [hmark]
        have hnext' : next.tracked = some baseline := hnext
        rw [hflush.tracked] at hnext'
        obtain ⟨before, htracked, heq⟩ := map_eq_some_iff.mp hnext'
        rw [← heq]
        exact (hsound before htracked).2
      fresh := h.fresh.of_same hflush.nextGoalId hflush.id }

omit h

theorem Inv.grow (h : m.Inv tokens) {more : GoalTokenUsage}
    (hsound : m.runtime.running = true → m.runtime.tracked ≠ none ∨
      goalTokenDelta (m.runtime.grow more).usage m.runtime.usage = 0) :
    (m.read (m.runtime.grow more)).Inv tokens := by
  have hgrow := m.runtime.goalTokenDelta_grow more
  have htokens : (m.read (m.runtime.grow more)).tokens = m.tokens := by
    have hretires : m.runtime.retires (m.runtime.grow more) = 0 := if_pos rfl
    rw [read_tokens, hretires]
    rfl
  have hcounted := h.counted
  cases hrunning : m.runtime.running with
  | false =>
    have hmark : (m.read (m.runtime.grow more)).mark = m.mark := if_neg (by
      show ¬m.runtime.running = true
      rw [hrunning]
      exact Bool.false_ne_true)
    have hgrowth : (m.read (m.runtime.grow more)).growth = m.growth := by
      unfold read
      rw [hrunning]
      rfl
    exact
      { counted := by
          rw [htokens, hgrowth, ← hcounted]
          unfold pending
          rw [hmark]
          rfl
        current := read_current
        mark_le := h.read_mark_le hgrow
        baseline_le := fun baseline htracked => by
          rw [hmark]
          exact h.baseline_le baseline htracked
        fresh := h.fresh }
  | true =>
    have hmark : (m.read (m.runtime.grow more)).mark = (m.runtime.grow more).usage :=
      read_current hrunning
    have hgrowth : (m.read (m.runtime.grow more)).growth =
        m.growth + goalTokenDelta (m.runtime.grow more).usage m.runtime.usage := by
      unfold read
      rw [hrunning]
      rfl
    have hcurrent := h.current hrunning
    exact
      { counted := by
          rw [htokens, hgrowth]
          cases htracked : m.runtime.tracked with
          | none =>
            have hnone := (hsound hrunning).resolve_left fun hsome => hsome htracked
            rw [pending_of_none htracked] at hcounted
            rw [pending_of_none (m := m.read (m.runtime.grow more)) htracked, hnone]
            exact hcounted
          | some baseline =>
            have hbaseline := h.baseline_le baseline htracked
            rw [hcurrent] at hbaseline
            have hadd := goalTokenDelta_add hbaseline hgrow
            rw [pending_of_some htracked, hcurrent] at hcounted
            rw [pending_of_some (m := m.read (m.runtime.grow more)) htracked, hmark]
            omega
        current := read_current
        mark_le := h.read_mark_le hgrow
        baseline_le := fun baseline htracked => by
          have hbaseline := h.baseline_le baseline htracked
          rw [hcurrent] at hbaseline
          rw [hmark]
          exact goalTokenDelta_trans hbaseline hgrow
        fresh := h.fresh }

variable (m)

def SoundFlush (currentUsage : GoalTokenUsage) : Prop :=
  ∀ baseline ∈ m.runtime.tracked, m.runtime.commits currentUsage = true →
    goalTokenDelta baseline currentUsage = 0 ∧ goalTokenDelta currentUsage m.mark = 0

/-- A call flushes first.  What it does after that asks that nothing is left to count. -/
def SoundTask : GoalTask → Prop
  | .flushUsage currentUsage _ => m.SoundFlush currentUsage
  | .createGoal _ _ => True
  | .onTaskAborted false | .replaceGoal _ false | .pauseGoal false | .dropGoal false _
  | .completeGoalFromTool false => m.SoundFlush m.runtime.usage
  | .onTaskAborted true | .replaceGoal _ true | .pauseGoal true | .dropGoal true _
  | .completeGoalFromTool true | .resumeGoal => m.pending = 0

/-- The baseline of a turn leaves as much to count as there was, and no other baseline is given up
whose tokens are not counted.  The counters of an active goal in an open turn grow from a
baseline. -/
def Sound : GoalRuntime.Step → Prop
  | .call (.onTurnStart baseline) => m.runtime.hasAccountingState = true →
      goalTokenDelta baseline m.runtime.usage = 0 ∧
        goalTokenDelta m.runtime.usage baseline = m.pending
  | .call .onThreadResumed => m.pending = 0
  | .call _ => True
  | .runTask _ => ∀ task ∈ m.runtime.tasks.head?, m.SoundTask task
  | .agentEndContinues => 0 < m.runtime.agentEnds → m.pending = 0
  | .grow more => m.runtime.running = true → m.runtime.tracked ≠ none ∨
      goalTokenDelta (m.runtime.grow more).usage m.runtime.usage = 0
  | .clock _ => True

variable {m}

instance (m : Metered) (u : GoalTokenUsage) : Decidable (m.SoundFlush u) :=
  inferInstanceAs (Decidable (∀ _ ∈ m.runtime.tracked, _))

instance (m : Metered) : (task : GoalTask) → Decidable (m.SoundTask task)
  | .flushUsage u _ => inferInstanceAs (Decidable (m.SoundFlush u))
  | .createGoal _ _ => inferInstanceAs (Decidable True)
  | .onTaskAborted false | .replaceGoal _ false | .pauseGoal false | .dropGoal false _
  | .completeGoalFromTool false => inferInstanceAs (Decidable (m.SoundFlush m.runtime.usage))
  | .onTaskAborted true | .replaceGoal _ true | .pauseGoal true | .dropGoal true _
  | .completeGoalFromTool true | .resumeGoal => inferInstanceAs (Decidable (m.pending = 0))

instance (m : Metered) : (step : GoalRuntime.Step) → Decidable (m.Sound step)
  | .call (.onTurnStart _) => inferInstanceAs (Decidable (_ → _))
  | .call .onThreadResumed => inferInstanceAs (Decidable (_ = _))
  | .runTask _ => inferInstanceAs (Decidable (∀ _ ∈ m.runtime.tasks.head?, _))
  | .agentEndContinues => inferInstanceAs (Decidable (_ → _))
  | .grow _ => inferInstanceAs (Decidable (_ → _))
  | .clock _ => inferInstanceAs (Decidable True)
  | .call (.onToolCompleted _) | .call .onGoalToolCompleted | .call
      (.onAgentEnd _) | .call .onTaskAborted
  | .call (.flushUsage _) | .call (.createGoal _ _) | .call (.replaceGoal _) | .call .resumeGoal
  | .call .pauseGoal | .call .dropGoal | .call .completeGoalFromTool =>
      inferInstanceAs (Decidable True)

theorem pending_of_not_accounting (h : m.runtime.hasAccountingState = false) : m.pending = 0 :=
  pending_of_none (tracked_of_not_accounting h)

theorem SoundFlush.bounds (hsound : m.SoundFlush u)
    (hflush : GoalRuntime.Flushed m.runtime u next) (baseline : GoalTokenUsage)
    (htracked : m.runtime.tracked = some baseline) :
    goalTokenDelta baseline u = 0 ∧ goalTokenDelta u m.mark = 0 :=
  hsound baseline htracked hflush.commits

theorem Inv.queue (h : m.Inv tokens) (tasks : List GoalTask) (agentEnds : Nat) :
    (m.read { m.runtime with tasks, agentEnds }).Inv tokens :=
  h.quiet rfl rfl rfl rfl id

theorem Inv.withAccounting (h : m.Inv tokens) (task : GoalTask) :
    (m.read (m.runtime.withAccounting task)).Inv tokens :=
  h.queue _ _

theorem Inv.orThrow (h : m.Inv tokens) {result : Except Text GoalRuntime}
    (hresets : ∀ next, result = .ok next → m.pending = 0 ∧ m.runtime.Resets next)
    (tasks : List GoalTask) :
    (m.read { m.runtime.orThrow result with tasks }).Inv tokens := by
  cases result with
  | error message => exact h.queue tasks _
  | ok next =>
    obtain ⟨hpending, hreset⟩ := hresets next rfl
    exact h.reset hpending (hreset.withQueue tasks _)

theorem Inv.flushThen (h : m.Inv tokens) (hsound : m.SoundFlush m.runtime.usage) (task : GoalTask)
    (rest : List GoalTask) (emitFails : Bool) :
    (m.read (m.runtime.flushThen task rest emitFails)).Inv tokens := by
  unfold GoalRuntime.flushThen
  split
  next => exact h.queue _ _
  next next hcommits =>
    have hflush := GoalRuntime.flushUsageLocked_flushed hcommits
    exact h.flush (hflush.withQueue _ _) (hsound.bounds hflush)

include h

theorem Inv.flushTask (hsound : m.SoundFlush u) (tasks : List GoalTask) (agentEnds : Nat) :
    (m.read { (m.runtime.flushUsageLocked u).getD m.runtime with tasks, agentEnds }).Inv
      tokens := by
  cases hcommits : m.runtime.flushUsageLocked u with
  | none => exact h.queue tasks agentEnds
  | some next =>
    have hflush := flushUsageLocked_flushed hcommits
    exact h.flush (hflush.withQueue tasks agentEnds) (hsound.bounds hflush)

theorem runTask_inv (emitFails : Bool) (hsound : m.Sound (.runTask emitFails)) :
    (m.read (m.runtime.runTask emitFails)).Inv tokens := by
  have hhead : ∀ {task rest}, m.runtime.tasks = task :: rest → m.SoundTask task := by
    intro task rest htasks
    apply hsound task
    rw [htasks]
    rfl
  unfold runTask
  split
  next => exact h.queue _ _
  next u agentEnd rest htasks =>
    dsimp only
    split
    · exact h.flushTask (hhead htasks) rest _
    · exact h.flushTask (hhead htasks) rest _
  next rest htasks => exact h.flushThen (hhead htasks) _ rest emitFails
  next rest htasks => exact h.reset (hhead htasks) ((abortTurn_resets _).withQueue rest _)
  next objective provenance rest htasks =>
    refine h.orThrow (fun next hcreated => ?_) rest
    obtain ⟨hnot, hreset⟩ := createGoal_resets h.fresh hcreated
    exact ⟨pending_of_not_accounting hnot, hreset⟩
  next objective rest htasks =>
    split
    · exact h.queue rest _
    · exact h.flushThen (hhead htasks) _ rest emitFails
  next objective rest htasks =>
    exact h.reset (hhead htasks) ((startGoal_resets h.fresh _ _).withQueue rest _)
  next rest htasks => exact h.orThrow (fun _ heq => ⟨hhead htasks, resumeGoal_resets heq⟩) rest
  next rest htasks => exact h.flushThen (hhead htasks) _ rest emitFails
  next rest htasks => exact h.orThrow (fun _ heq => ⟨hhead htasks, pauseGoal_resets heq⟩) rest
  next dropped rest htasks => exact h.flushThen (hhead htasks) _ rest emitFails
  next rest htasks =>
    split
    · exact h.queue rest _
    · exact h.reset (hhead htasks) ((clearActiveAccounting_resets _).withQueue _ _)
  next dropped rest htasks =>
    exact h.reset (hhead htasks) ((commitNone_resets _).withQueue rest _)
  next rest htasks => exact h.flushThen (hhead htasks) _ rest emitFails
  next rest htasks =>
    exact h.orThrow (fun _ heq => ⟨hhead htasks, completeGoalFromTool_resets heq⟩) rest

theorem call_inv (call : GoalRuntime.Call) (hsound : m.Sound (.call call)) :
    (m.read (m.runtime.call call)).Inv tokens := by
  -- a turn that ends with no goal active has nothing to count
  have hends : m.runtime.hasAccountingState = false →
      (m.read { m.runtime with turnSnapshot := none, turnOpen := false }).Inv tokens := fun hnot =>
    h.reset (pending_of_not_accounting hnot) (m.runtime.resets_of_no_snapshot false _)
  cases call with
  | onTurnStart baseline =>
    have hcarries := m.runtime.onTurnStart_carries baseline
    have htracked := m.runtime.tracked_onTurnStart baseline
    show (m.read (m.runtime.onTurnStart baseline)).Inv tokens
    cases hactive : m.runtime.hasAccountingState with
    | false =>
      rw [hactive] at htracked
      exact h.reset (pending_of_not_accounting hactive) ⟨hcarries, .of_none htracked⟩
    | true =>
      obtain ⟨hle, hleft⟩ := hsound hactive
      rw [hactive] at htracked
      refine h.carry hcarries (fun tracked heq => ?_) ?_
      · rw [htracked] at heq
        injection heq with heq
        rw [hcarries.usage, ← heq]
        exact ⟨m.runtime.onTurnStart_turnOpen baseline, hle⟩
      · rw [htracked, hcarries.usage]
        exact hleft
  | onToolCompleted toolName =>
    simp only [call, onToolCompleted]
    split
    · exact h.queue _ _
    split
    · exact h.queue _ _
    · exact h.withAccounting _
  | onGoalToolCompleted =>
    simp only [call, onGoalToolCompleted]
    split
    · exact h.queue _ _
    · exact h.withAccounting _
  | onAgentEnd u =>
    simp only [call, onAgentEnd]
    split
    next hnot => exact hends (by simpa using hnot)
    next => exact h.quiet rfl rfl rfl rfl (fun hopen => by cases hopen)
  | onTaskAborted =>
    simp only [call, onTaskAborted]
    split
    next hnot => exact hends (by simpa using hnot)
    next => exact h.withAccounting _
  | onThreadResumed =>
    by_cases hstate : m.runtime.state = none
    · have hsame : m.runtime.onThreadResumed = m.runtime := by
        unfold onThreadResumed
        rw [hstate]
      show (m.read m.runtime.onThreadResumed).Inv tokens
      rw [hsame]
      exact h.queue _ _
    · exact h.reset hsound (onThreadResumed_resets hstate)
  | createGoal objective provenance =>
    simp only [call]
    split
    · exact h.queue _ _
    · exact h.withAccounting _
  | replaceGoal objective =>
    simp only [call]
    split
    · exact h.queue _ _
    · exact h.withAccounting _
  | flushUsage u => exact h.withAccounting _
  | resumeGoal => exact h.withAccounting _
  | pauseGoal => exact h.withAccounting _
  | dropGoal => exact h.withAccounting _
  | completeGoalFromTool => exact h.withAccounting _

theorem step_inv (step : GoalRuntime.Step) (hsound : m.Sound step) : (m.step step).Inv tokens := by
  cases step with
  | call call => exact call_inv h call hsound
  | runTask emitFails => exact runTask_inv h emitFails hsound
  | agentEndContinues =>
    show (m.read m.runtime.agentEndContinues).Inv tokens
    unfold agentEndContinues
    split
    next => exact h.queue _ _
    next hends =>
      exact h.reset (hsound (Nat.pos_of_ne_zero hends)) (m.runtime.resets_of_no_snapshot _ _)
  | grow more => exact h.grow hsound
  | clock now => exact h.quiet rfl rfl rfl rfl id

omit h

theorem start_inv (state : Option GoalModeState) (usage : GoalTokenUsage) (now : Int) :
    (start state usage now).Inv (start state usage now).tokens where
  counted := by
    have htracked : (start state usage now).runtime.tracked = none := tracked_of_snapshot rfl
    rw [pending_of_none htracked]
    rfl
  current _ := rfl
  mark_le := goalTokenDelta_self _
  baseline_le baseline htracked := by
    rw [tracked_of_snapshot (r := (start state usage now).runtime) rfl] at htracked
    cases htracked
  fresh goal hgoal := by
    have hstate : state = some goal := hgoal
    rw [hstate]
    exact Nat.lt_succ_self _

def finalFlush : List GoalRuntime.Step := [.call (.flushUsage none), .runTask false]

theorem runTask_flushUsage {r : GoalRuntime} (h : r.tasks = []) :
    (r.flushUsage none).runTask false =
      { ((r.flushUsage none).flushUsageLocked r.usage).getD (r.flushUsage none) with
        tasks := [] } := by
  unfold runTask
  have htasks : (r.flushUsage none).tasks = [.flushUsage r.usage false] := by
    show r.tasks ++ _ = _
    rw [h]
    rfl
  rw [htasks]
  rfl

theorem tracked_finalFlush {r : GoalRuntime} (h : r.tasks = [])
    (htracked : ((r.flushUsage none).runTask false).tracked = some baseline) :
    goalTokenDelta ((r.flushUsage none).runTask false).usage baseline = 0 := by
  rw [runTask_flushUsage h] at htracked ⊢
  cases hcommits : (r.flushUsage none).flushUsageLocked r.usage with
  | none =>
    rw [hcommits] at htracked
    exact flushUsageLocked_eq_none hcommits htracked
  | some next =>
    have hflush := flushUsageLocked_flushed hcommits
    rw [hcommits] at htracked
    have hmoved : next.tracked = some baseline := htracked
    rw [hflush.tracked] at hmoved
    obtain ⟨_, -, heq⟩ := map_eq_some_iff.mp hmoved
    show goalTokenDelta next.usage baseline = 0
    rw [hflush.usage, ← heq]
    exact goalTokenDelta_self _

theorem pending_finalFlush (hsettled : m.runtime.Settled)
    (h : (finalFlush.foldl step m).Inv tokens) :
    (finalFlush.foldl step m).pending = 0 := by
  cases htracked : (finalFlush.foldl step m).runtime.tracked with
  | none => exact pending_of_none htracked
  | some baseline =>
    rw [pending_of_some htracked]
    exact goalTokenDelta_trans h.mark_le (tracked_finalFlush hsettled.1 htracked)

/-- When every step of a run meets the condition, all calls have settled, and a last flush has run,
the goals together have been charged what the counters grew by while a goal was active in an open
turn. -/
theorem run_counts_once (state : Option GoalModeState) (usage : GoalTokenUsage) (now : Int)
    (steps : List GoalRuntime.Step)
    (hsettled : (steps.foldl step (start state usage now)).runtime.Settled)
    (hsound : Guarded step Sound (start state usage now) (steps ++ finalFlush)) :
    ((steps ++ finalFlush).foldl step (start state usage now)).tokens =
      (start state usage now).tokens +
        ((steps ++ finalFlush).foldl step (start state usage now)).growth := by
  have hinv : ((steps ++ finalFlush).foldl step (start state usage now)).Inv
      (start state usage now).tokens :=
    hsound.invariant (I := fun _ m => m.Inv (start state usage now).tokens)
      (fun _ next h => step_inv h next) (start_inv state usage now)
  have hcounted := hinv.counted
  rw [List.foldl_append] at hinv hcounted ⊢
  rw [pending_finalFlush hsettled hinv] at hcounted
  exact hcounted

/-- A goal is created in a turn, and charged by the flush of a tool, by the end of the agent, and by
its pause in the next turn. -/
def chargesTwice : List GoalRuntime.Step :=
  [.call (.onTurnStart ⟨10, 0, 0, 0⟩), .call (.createGoal " ship it ".toList none),
    .grow ⟨5, 0, 0, 0⟩,
    .runTask false, .grow ⟨100, 20, 7, 3⟩, .call (.onToolCompleted "bash".toList),
      .grow ⟨0, 9, 0, 0⟩,
    .runTask false, .call (.onAgentEnd none), .runTask false, .agentEndContinues, .clock 2500,
    .grow ⟨50, 0, 0, 0⟩, .call (.onTurnStart ⟨165, 29, 7, 3⟩), .grow ⟨0, 40, 0, 0⟩,
      .call .pauseGoal,
    .runTask false, .runTask false, .grow ⟨80, 0, 0, 0⟩]

theorem chargesTwice_counts :
    ((chargesTwice ++ finalFlush).foldl step (start none ⟨10, 0, 0, 0⟩ 0)).tokens = 172 :=
  (run_counts_once none ⟨10, 0, 0, 0⟩ 0 chargesTwice (by decide +kernel) (by decide +kernel)).trans
    (by decide +kernel)

def startsBeforeFlush : List GoalRuntime.Step :=
  [.call (.createGoal "ship it".toList none), .runTask false, .call (.onTurnStart ⟨0, 0, 0, 0⟩),
    .grow ⟨100, 0, 0, 0⟩, .call (.flushUsage none), .call (.onTurnStart ⟨100, 0, 0, 0⟩),
      .runTask false]

/-- The flush carries the usage of the first turn to the baseline of the second, and the goal is
charged nothing. -/
theorem startsBeforeFlush_loses :
    (startsBeforeFlush.foldl step (start none ⟨0, 0, 0, 0⟩ 0)).runtime.Settled ∧
      ((startsBeforeFlush ++ finalFlush).foldl step (start none ⟨0, 0, 0, 0⟩ 0)).tokens ≠
        (start none ⟨0, 0, 0, 0⟩ 0).tokens +
          ((startsBeforeFlush ++ finalFlush).foldl step (start none ⟨0, 0, 0, 0⟩ 0)).growth := by
  decide +kernel

end Metered

end Vibrato.Goals
