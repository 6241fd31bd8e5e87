import Vibrato.Text

/-! `GoalRuntime`: the goal of a session and the tokens and the time that its turns spend on it. -/

namespace Vibrato.Goals

structure GoalTokenUsage where
  input : Nat
  output : Nat
  cacheRead : Nat
  cacheWrite : Nat

/-- `Math.max(0, a - b)` is subtraction of natural numbers.  What is read from the cache does not
count. -/
def goalTokenDelta (current baseline : GoalTokenUsage) : Nat :=
  (current.input - baseline.input) + (current.cacheWrite - baseline.cacheWrite) +
    (current.output - baseline.output)

abbrev GoalId := Nat

inductive GoalStatus where
  | active
  | paused
  | complete
  | dropped
  deriving DecidableEq

inductive GoalProvenance where
  | ultragoal (runId goalId : Text)
  | user

structure Goal where
  id : GoalId
  objective : Text
  status : GoalStatus
  tokensUsed : Nat
  timeUsedSeconds : Nat
  createdAt : Int
  updatedAt : Int
  provenance : Option GoalProvenance

def isAccountingStatus (goal : Goal) : Bool := goal.status == .active

inductive GoalMode where
  | active
  | exiting

inductive GoalExitReason where
  | completed

structure GoalModeState where
  enabled : Bool
  mode : GoalMode
  reason : Option GoalExitReason
  goal : Goal

def GoalModeState.isAccounting (state : GoalModeState) : Bool :=
  state.enabled && isAccountingStatus state.goal

def validateGoalObjective (objective : Text) (op : Text) : Except Text Text :=
  let trimmed := objective.trim
  if trimmed = [] then .error ("objective is required when op=".toList ++ op)
  else if trimmed = "/goal".toList then
    .error ("objective must describe the goal; `/goal` is the command name, " ++
      "not a goal objective").toList
  else .ok trimmed

structure GoalTurnSnapshot where
  baselineUsage : GoalTokenUsage
  activeGoalId : Option GoalId

structure GoalWallClockSnapshot where
  lastAccountedAt : Int
  activeGoalId : Option GoalId

/-- The calls on `#accountingTail`.  `flushed` says that a call has come back from its flush, and
`dropped` is the goal of a `dropGoal` that has told of it. -/
inductive GoalTask where
  | flushUsage (currentUsage : GoalTokenUsage) (agentEnd : Bool)
  | onTaskAborted (flushed : Bool)
  | createGoal (objective : Text) (provenance : GoalProvenance)
  | replaceGoal (objective : Text) (flushed : Bool)
  | resumeGoal
  | pauseGoal (flushed : Bool)
  | dropGoal (flushed : Bool) (dropped : Option Goal)
  | completeGoalFromTool (flushed : Bool)

/-- `agentEnds` counts the calls of `onAgentEnd` that have come back from their flush.  `turnOpen`
is not read by the runtime: a turn is open from its start, or from the activation of a goal, until
the agent ends. -/
structure GoalRuntime where
  state : Option GoalModeState
  usage : GoalTokenUsage
  now : Int
  nextGoalId : GoalId
  turnSnapshot : Option GoalTurnSnapshot
  wallClock : GoalWallClockSnapshot
  tasks : List GoalTask
  agentEnds : Nat
  turnOpen : Bool

namespace GoalRuntime

def create (state : Option GoalModeState) (usage : GoalTokenUsage) (now : Int) : GoalRuntime where
  state
  usage
  now
  nextGoalId := (state.map (·.goal.id + 1)).getD 0
  turnSnapshot := none
  wallClock := ⟨now, none⟩
  tasks := []
  agentEnds := 0
  turnOpen := false

variable (r : GoalRuntime)

def hasAccountingState : Bool := r.state.any (·.isAccounting)

def commitState (state : Option GoalModeState) : GoalRuntime := { r with state }

variable (goal : Goal)

def startWallClock : GoalWallClockSnapshot :=
  if r.wallClock.activeGoalId ≠ some goal.id then ⟨r.now, some goal.id⟩ else r.wallClock

def markActiveAccounting : GoalRuntime :=
  { r with
    wallClock := r.startWallClock goal
    turnSnapshot := some ⟨r.usage, some goal.id⟩
    turnOpen := true }

def clearActiveAccounting : GoalRuntime :=
  { r with
    wallClock := ⟨r.now, none⟩
    turnSnapshot := r.turnSnapshot.map fun snapshot => { snapshot with activeGoalId := none } }

def tokenDelta (currentUsage : GoalTokenUsage) : Nat :=
  match r.turnSnapshot with
  | none => 0
  | some snapshot =>
    if snapshot.activeGoalId = some goal.id then
      goalTokenDelta currentUsage snapshot.baselineUsage else 0

def wallSeconds : Nat :=
  if r.wallClock.activeGoalId = some goal.id then
    ((r.now - r.wallClock.lastAccountedAt) / 1000).toNat else 0

/-- The snapshot of a goal that is accounted up to `currentUsage`. -/
def advanceBaseline (currentUsage : GoalTokenUsage) : Option GoalTurnSnapshot :=
  r.turnSnapshot.map fun snapshot =>
    if snapshot.activeGoalId = some goal.id then { snapshot with baselineUsage := currentUsage }
      else snapshot

def flushUsageLocked (currentUsage : GoalTokenUsage) : Option GoalRuntime :=
  match r.state with
  | none => none
  | some state =>
    if !state.isAccounting then none
    else if r.turnSnapshot.bind (·.activeGoalId) ≠ some state.goal.id ∧
        r.wallClock.activeGoalId ≠ some state.goal.id then none
    else if r.tokenDelta state.goal currentUsage = 0 ∧ r.wallSeconds state.goal = 0 then none
    else
      let goal := { state.goal with
        tokensUsed := state.goal.tokensUsed + r.tokenDelta state.goal currentUsage
        timeUsedSeconds := state.goal.timeUsedSeconds + r.wallSeconds state.goal
        updatedAt := r.now }
      let wallClock :=
        if r.wallClock.activeGoalId = some state.goal.id ∧ 0 < r.wallSeconds state.goal then
          { r.wallClock with
            lastAccountedAt := r.wallClock.lastAccountedAt + r.wallSeconds state.goal * 1000 }
        else r.wallClock
      some ({ r with
        turnSnapshot := r.advanceBaseline state.goal currentUsage, wallClock }.commitState
        (some { state with goal }))

/-- The first piece of a call that flushes before it goes on as `next`. -/
def flushThen (next : GoalTask) (rest : List GoalTask) (emitFails : Bool) : GoalRuntime :=
  match r.flushUsageLocked r.usage with
  | none => { r with tasks := next :: rest }
  | some r => { r with tasks := if emitFails then rest else next :: rest }

variable (objective : Text)

def createGoalState (provenance : GoalProvenance) : GoalModeState where
  enabled := true
  mode := .active
  reason := none
  goal := {
    id := r.nextGoalId
    objective
    status := .active
    tokensUsed := 0
    timeUsedSeconds := 0
    createdAt := r.now
    updatedAt := r.now
    provenance := some provenance }

def startGoal (provenance : GoalProvenance) : GoalRuntime :=
  let state := r.createGoalState objective provenance
  ({ r with nextGoalId := r.nextGoalId + 1 }.markActiveAccounting state.goal).commitState
    (some state)

def createGoal (provenance : GoalProvenance) : Except Text GoalRuntime :=
  if r.state.any fun existing => existing.goal.status ≠ .dropped ∧
    existing.goal.status ≠ .complete then
    .error "cannot create a new goal because this session already has a goal".toList
  else .ok (r.startGoal objective provenance)

/-- What `replaceGoal` asks for before it flushes. -/
def checkReplaceGoal : Except Text Unit :=
  if r.hasAccountingState then .ok ()
  else .error "cannot replace goal because no goal is active".toList

def resumeGoal : Except Text GoalRuntime :=
  match r.state with
  | none => .error "No paused goal.".toList
  | some state =>
    if state.goal.status = .complete then .error "Goal is already complete.".toList
    else
      let goal := { state.goal with status := .active, updatedAt := r.now }
      .ok ((r.markActiveAccounting goal).commitState
        (some { enabled := true, mode := .active, reason := none, goal }))

def statusText : GoalStatus → Text
  | .active => "active".toList
  | .paused => "paused".toList
  | .complete => "complete".toList
  | .dropped => "dropped".toList

/-- `pauseGoal` after its flush. -/
def pauseGoal : Except Text GoalRuntime :=
  match r.state with
  | none => .ok r
  | some state =>
    if state.goal.status ≠ .active then
      .error ("cannot pause a goal that is not active (current status: ".toList ++
        statusText state.goal.status ++ ")".toList)
    else
      let goal := { state.goal with status := .paused, updatedAt := r.now }
      .ok (r.clearActiveAccounting.commitState
        (some { enabled := false, mode := .active, reason := none, goal }))

/-- `completeGoalFromTool` after its flush. -/
def completeGoalFromTool : Except Text GoalRuntime :=
  match r.state with
  | none => .error "cannot complete goal because no goal is active".toList
  | some state =>
    match state.goal.status with
    | .complete => .error "goal is already complete".toList
    | .dropped => .error "cannot complete a dropped goal".toList
    | .active | .paused =>
      let goal := { state.goal with status := .complete, updatedAt := r.now }
      .ok (r.clearActiveAccounting.commitState
        (some { enabled := false, mode := .exiting, reason := some .completed, goal }))

/-- `onTaskAborted` after its flush: the turn ends, and a goal that is still active is activated
again. -/
def abortTurn : GoalRuntime :=
  let r := { r with turnSnapshot := none, turnOpen := false }
  match r.state with
  | none => r
  | some state =>
    if state.isAccounting then
      let goal := { state.goal with updatedAt := r.now }
      (r.markActiveAccounting goal).commitState (some { state with goal })
    else r

def orThrow : Except Text GoalRuntime → GoalRuntime
  | .error _ => r
  | .ok r => r

def runTask (emitFails : Bool) : GoalRuntime :=
  match r.tasks with
  | [] => r
  | .flushUsage currentUsage agentEnd :: rest =>
    let flushed := r.flushUsageLocked currentUsage
    let failed := flushed.isSome && emitFails
    let r := { flushed.getD r with tasks := rest }
    if agentEnd && !failed then { r with agentEnds := r.agentEnds + 1 } else r
  | .onTaskAborted false :: rest => r.flushThen (.onTaskAborted true) rest emitFails
  | .onTaskAborted true :: rest => { r.abortTurn with tasks := rest }
  | .createGoal objective provenance :: rest =>
    { r.orThrow (r.createGoal objective provenance) with tasks := rest }
  | .replaceGoal objective false :: rest =>
    match r.checkReplaceGoal with
    | .error _ => { r with tasks := rest }
    | .ok () => r.flushThen (.replaceGoal objective true) rest emitFails
  | .replaceGoal objective true :: rest => { r.startGoal objective .user with tasks := rest }
  | .resumeGoal :: rest => { r.orThrow r.resumeGoal with tasks := rest }
  | .pauseGoal false :: rest => r.flushThen (.pauseGoal true) rest emitFails
  | .pauseGoal true :: rest => { r.orThrow r.pauseGoal with tasks := rest }
  | .dropGoal false _ :: rest => r.flushThen (.dropGoal true none) rest emitFails
  | .dropGoal true none :: rest =>
    match r.state with
    | none => { r with tasks := rest }
    | some state =>
      let dropped := { state.goal with status := .dropped, updatedAt := r.now }
      { r.clearActiveAccounting with
        tasks := if emitFails then rest else .dropGoal true (some dropped) :: rest }
  | .dropGoal true (some _) :: rest => { r.commitState none with tasks := rest }
  | .completeGoalFromTool false :: rest => r.flushThen (.completeGoalFromTool true) rest emitFails
  | .completeGoalFromTool true :: rest => { r.orThrow r.completeGoalFromTool with tasks := rest }

inductive Call where
  | onTurnStart (baselineUsage : GoalTokenUsage)
  | onToolCompleted (toolName : Text)
  | onGoalToolCompleted
  | onAgentEnd (currentUsage : Option GoalTokenUsage)
  | onTaskAborted
  | onThreadResumed
  | flushUsage (currentUsage : Option GoalTokenUsage)
  | createGoal (objective : Text) (provenance : Option GoalProvenance)
  | replaceGoal (objective : Text)
  | resumeGoal
  | pauseGoal
  | dropGoal
  | completeGoalFromTool

def withAccounting (task : GoalTask) : GoalRuntime := { r with tasks := r.tasks ++ [task] }

def flushUsage (currentUsage : Option GoalTokenUsage) : GoalRuntime :=
  r.withAccounting (.flushUsage (currentUsage.getD r.usage) false)

def onTurnStart (baselineUsage : GoalTokenUsage) : GoalRuntime :=
  let r := { r with turnSnapshot := some ⟨baselineUsage, none⟩, turnOpen := true }
  match r.state with
  | none => r
  | some state =>
    if state.isAccounting then
      { r with
        turnSnapshot := some ⟨baselineUsage, some state.goal.id⟩
        wallClock := r.startWallClock state.goal }
    else r

def onToolCompleted (toolName : Text) : GoalRuntime :=
  if toolName = "goal".toList then r
  else if !r.hasAccountingState then r
  else r.flushUsage none

def onGoalToolCompleted : GoalRuntime :=
  if !r.hasAccountingState then r else r.flushUsage none

def onAgentEnd (currentUsage : Option GoalTokenUsage) : GoalRuntime :=
  if !r.hasAccountingState then { r with turnSnapshot := none, turnOpen := false }
  else { r with turnOpen := false }.withAccounting (.flushUsage (currentUsage.getD r.usage) true)

/-- `onAgentEnd` after its flush. -/
def agentEndContinues : GoalRuntime :=
  if r.agentEnds = 0 then r else { r with turnSnapshot := none, agentEnds := r.agentEnds - 1 }

def onTaskAborted : GoalRuntime :=
  if !r.hasAccountingState then { r with turnSnapshot := none, turnOpen := false }
  else r.withAccounting (.onTaskAborted false)

def onThreadResumed : GoalRuntime :=
  match r.state with
  | none => r
  | some state =>
    let state := if state.goal.status = .active then { state with enabled := true } else state
    (if state.isAccounting then r.markActiveAccounting state.goal
      else r.clearActiveAccounting).commitState (some state)

def call : Call → GoalRuntime
  | .onTurnStart baselineUsage => r.onTurnStart baselineUsage
  | .onToolCompleted toolName => r.onToolCompleted toolName
  | .onGoalToolCompleted => r.onGoalToolCompleted
  | .onAgentEnd currentUsage => r.onAgentEnd currentUsage
  | .onTaskAborted => r.onTaskAborted
  | .onThreadResumed => r.onThreadResumed
  | .flushUsage currentUsage => r.flushUsage currentUsage
  | .createGoal objective provenance =>
    match validateGoalObjective objective "create".toList with
    | .error _ => r
    | .ok objective => r.withAccounting (.createGoal objective (provenance.getD .user))
  | .replaceGoal objective =>
    match validateGoalObjective objective "replace".toList with
    | .error _ => r
    | .ok objective => r.withAccounting (.replaceGoal objective false)
  | .resumeGoal => r.withAccounting .resumeGoal
  | .pauseGoal => r.withAccounting (.pauseGoal false)
  | .dropGoal => r.withAccounting (.dropGoal false none)
  | .completeGoalFromTool => r.withAccounting (.completeGoalFromTool false)

/-- A step of a run: a call, a piece of a call that was made before, or a change of the host's
counters or clock. -/
inductive Step where
  | call (call : Call)
  | runTask (emitFails : Bool)
  | agentEndContinues
  | grow (more : GoalTokenUsage)
  | clock (now : Int)

def grow (more : GoalTokenUsage) : GoalRuntime :=
  { r with usage := {
      input := r.usage.input + more.input
      output := r.usage.output + more.output
      cacheRead := r.usage.cacheRead + more.cacheRead
      cacheWrite := r.usage.cacheWrite + more.cacheWrite } }

def step (r : GoalRuntime) : Step → GoalRuntime
  | .call call => r.call call
  | .runTask emitFails => r.runTask emitFails
  | .agentEndContinues => r.agentEndContinues
  | .grow more => r.grow more
  | .clock now => { r with now }

def Settled : Prop := r.tasks = [] ∧ r.agentEnds = 0

instance (r : GoalRuntime) : Decidable r.Settled := inferInstanceAs (Decidable (_ ∧ _))

end GoalRuntime

end Vibrato.Goals
