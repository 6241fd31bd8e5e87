import Vibrato.Lib.OrderedMap
import Vibrato.Lib.SimplePattern
import Vibrato.Text

/-! The manager of stream rules (`coding-agent/src/export/ttsr.ts`): a rule has conditions, which
are patterns, and it is reported when one of them matches what a stream has produced so far. -/

namespace Vibrato.Ttsr

open Lib Lib.SimplePattern Text

/-- What the manager takes from its runtime: the patterns that are read here only up to their text,
which paths a glob matches, and `toLowerCase`. -/
structure Runtime where
  regExp : CodeUnits → Option (CodeUnits → Bool)
  glob : Text → Text → Bool
  toLowerCase : Text → Text

def SAFE_REGEX_WINDOW_CAP : Nat := 4096

def SAFE_REGEX_WINDOW_MULTIPLIER : Nat := 4

/-- The source of a pattern that is not empty. A slash outside of a class gets a backslash, and a
line terminator is written as an escape. -/
def escapePattern (afterBackslash inBrackets : Bool) : CodeUnits → CodeUnits
  | [] => []
  | c :: rest =>
    let slash := if !afterBackslash && !inBrackets && c = unit '/' then [unit '\\'] else []
    let inBrackets' :=
      if afterBackslash then inBrackets
      else if inBrackets then c ≠ unit ']'
      else c = unit '['
    let written :=
      if isLineTerminator c then
        (if afterBackslash then [] else [unit '\\']) ++
          (if c = 0x0A then [unit 'n'] else if c = 0x0D then [unit 'r']
            else if c = 0x2028 then "u2028".toList.map unit else "u2029".toList.map unit)
      else [c]
    slash ++ written ++ escapePattern (!afterBackslash && c = unit '\\') inBrackets' rest

/-- The `source` of `new RegExp(pattern)`. -/
def sourceOf (pattern : CodeUnits) : CodeUnits :=
  if pattern = [] then "(?:)".toList.map unit else escapePattern false false pattern

/-- `/[$^*+{]|\\[bBAZz]|\\[1-9]|\(\?/.test(source)` -/
def needsWholeBuffer : CodeUnits → Bool
  | [] => false
  | c :: rest =>
    (c = unit '$' || c = unit '^' || c = unit '*' || c = unit '+' || c = unit '\x7b') ||
    (c = unit '\\' && rest.head?.any fun d => inRange '1' '9' d ||
      ("bBAZz".toList.map unit).contains d) ||
    (c = unit '(' && rest.head? = some (unit '?')) ||
    needsWholeBuffer rest

/-- How a pattern matches: one that only looks ahead and repeats nothing is read, and for any other
the runtime says what it matches. -/
inductive Matcher where
  | simple (node : Node)
  | other (test : CodeUnits → Bool)

structure RegExp where
  source : CodeUnits
  matcher : Matcher

/-- `condition.test(target)` -/
def RegExp.test (condition : RegExp) (target : CodeUnits) : Bool :=
  match condition.matcher with
  | .simple node => node.test target
  | .other test => test target

variable (rt : Runtime)

/-- `new RegExp(pattern)`, which may fail. -/
def newRegExp (pattern : CodeUnits) : Option RegExp :=
  let source := sourceOf pattern
  if needsWholeBuffer source then (rt.regExp source).map fun test =>
    { source, matcher := .other test }
  else (read source).map fun node => { source, matcher := .simple node }

def conditionWindow (condition : RegExp) : Option Nat :=
  if condition.source.length = 0 ∨ condition.source.length > SAFE_REGEX_WINDOW_CAP then none
  else if needsWholeBuffer condition.source then none
  else some
    (min SAFE_REGEX_WINDOW_CAP (max 1 (condition.source.length * SAFE_REGEX_WINDOW_MULTIPLIER)))

/-- `repeatMode` -/
inductive RepeatMode where
  | once
  | afterGap
deriving DecidableEq

/-- What the manager reads of a `Rule`. -/
structure Rule where
  name : Text
  condition : Option (List CodeUnits) := none
  scope : Option (List Text) := none
  globs : Option (List Text) := none
  repeatMode : Option RepeatMode := none
  repeatGap : Option Int := none

/-- `TtsrSettings`, as far as the manager reads them. -/
structure TtsrSettings where
  enabled : Bool := true
  repeatMode : RepeatMode := .once
  repeatGap : Int := 10

/-- `ToolScope`; the glob of the path pattern stands for itself. -/
structure ToolScope where
  toolName : Option Text := none
  pathPattern : Option Text := none

structure TtsrScope where
  allowText : Bool := false
  allowThinking : Bool := false
  allowAnyTool : Bool := false
  toolScopes : List ToolScope := []

def DEFAULT_SCOPE : TtsrScope := { allowText := true, allowThinking := false, allowAnyTool := true }

/-- `TtsrEntry`, with each condition next to its window. -/
structure TtsrEntry where
  rule : Rule
  conditions : List (RegExp × Option Nat)
  scope : TtsrScope
  globalPathGlobs : Option (List Text)

inductive TtsrMatchSource where
  | text
  | thinking
  | tool
deriving DecidableEq

structure TtsrMatchContext where
  source : TtsrMatchSource
  toolName : Option Text := none
  filePaths : List Text := []
  streamKey : Option Text := none

def TtsrMatchSource.name : TtsrMatchSource → Text
  | .text => "text".toList
  | .thinking => "thinking".toList
  | .tool => "tool".toList

structure InjectionRecord where
  lastInjectedAt : Int
  repeatMode : Option RepeatMode := none
  repeatGap : Option Int := none

/-- `#compileConditions`, where a pattern that is not valid is skipped. -/
def compileConditions (rule : Rule) : List RegExp :=
  (rule.condition.getD []).filterMap (newRegExp rt)

def compileGlobalPathGlobs (globs : Option (List Text)) : Option (List Text) :=
  let compiled := ((globs.getD []).map trim).filter (· ≠ [])
  if compiled = [] then none else some compiled

/-- A character of `[a-z0-9_-]`, in either case. -/
def isNameChar (c : Char) : Bool :=
  ('a' ≤ c && c ≤ 'z') || ('A' ≤ c && c ≤ 'Z') || ('0' ≤ c && c ≤ '9') || c = '_' || c = '-'

/-- An ASCII letter in lower case, as a pattern with the flag `i` compares. -/
def foldCase (c : Char) : Char := if 'A' ≤ c && c ≤ 'Z' then Char.ofNat (c.toNat + 32) else c

/-- The groups `prefix`, `tool`, and `bare` of a scope token: whether it starts with `tool`, and its
name. -/
def readToolName (head : Text) : Option (Option Text) :=
  let folded := head.map foldCase
  if folded = "tool".toList then some none
  else if "tool:".toList.isPrefixOf folded then
    let name := head.drop 5
    if name ≠ [] ∧ name.all isNameChar then some (some name) else none
  else if head ≠ [] ∧ head.all isNameChar then some (some head)
  else none

/-- The group `path` of a scope token, from its parenthesis on. -/
def readScopePath (tail : Text) : Option (Option Text) :=
  match tail with
  | [] => some none
  | _ :: inner =>
    let path := inner.dropLast
    if inner.getLast? = some ')' ∧ path ≠ [] ∧ ')' ∉ path then some (some path) else none

def parseToolScopeToken (token : Text) : Option ToolScope := do
  let name ← readToolName (token.takeWhile (· ≠ '('))
  let path ← readScopePath (token.dropWhile (· ≠ '('))
  let toolName := name.map fun name => rt.toLowerCase (trim name)
  let pathPattern := path.map trim
  if pathPattern.getD [] = [] then some { toolName }
  else some { toolName, pathPattern }

/-- One token of `#buildScope`. -/
def addScopeToken (scope : TtsrScope) (rawToken : Text) : TtsrScope :=
  let token := trim rawToken
  let normalizedToken := rt.toLowerCase token
  if token = [] then scope
  else if normalizedToken = "text".toList then { scope with allowText := true }
  else if normalizedToken = "thinking".toList then { scope with allowThinking := true }
  else if normalizedToken = "tool".toList ∨ normalizedToken = "toolcall".toList then
    { scope with allowAnyTool := true }
  else
    match parseToolScopeToken rt token with
    | none => scope
    | some toolScope =>
      if toolScope.toolName.getD [] = [] ∧ toolScope.pathPattern = none then
        { scope with allowAnyTool := true }
      else { scope with toolScopes := scope.toolScopes ++ [toolScope] }

def buildScope (rule : Rule) : TtsrScope :=
  match rule.scope with
  | none | some [] => DEFAULT_SCOPE
  | some tokens => tokens.foldl (addScopeToken rt) {}

def hasReachableScope (scope : TtsrScope) : Bool :=
  scope.allowText || scope.allowThinking || scope.allowAnyTool || scope.toolScopes ≠ []

def bufferKey (context : TtsrMatchContext) : Text :=
  match context.streamKey.filter fun key => trim key ≠ [] with
  | some key => key
  | none =>
    if context.source ≠ .tool then context.source.name
    else
      match (context.toolName.map fun name => rt.toLowerCase (trim name)).filter (· ≠ []) with
      | some toolName => "tool:".toList ++ toolName
      | none => "tool".toList

def normalizePath (path : Text) : Text := path.map fun c => if c = '\\' then '/' else c

def basename (path : Text) : Text := path.rtakeWhile (· ≠ '/')

def matchesGlob (glob : Text) (filePaths : List Text) : Bool :=
  filePaths.any fun filePath =>
    let normalized := normalizePath filePath
    rt.glob glob normalized ||
      (basename normalized ≠ normalized && rt.glob glob (basename normalized))

variable (entry : TtsrEntry)

def matchesGlobalPaths (context : TtsrMatchContext) : Bool :=
  match entry.globalPathGlobs with
  | none | some [] => true
  | some globs => globs.any fun glob => matchesGlob rt glob context.filePaths

def matchesScope (context : TtsrMatchContext) : Bool :=
  match context.source with
  | .text => entry.scope.allowText
  | .thinking => entry.scope.allowThinking
  | .tool =>
    entry.scope.allowAnyTool ||
      let toolName := context.toolName.map fun name => rt.toLowerCase (trim name)
      entry.scope.toolScopes.any fun toolScope =>
        (toolScope.toolName.getD [] = [] || toolScope.toolName = toolName) &&
        toolScope.pathPattern.all fun glob => matchesGlob rt glob context.filePaths

def target (window : Option Nat) (streamBuffer : CodeUnits) : CodeUnits :=
  match window with
  | none => streamBuffer
  | some window => streamBuffer.drop (streamBuffer.length - window)

def matchesCondition (streamBuffer : CodeUnits) : Bool :=
  entry.conditions.any fun (condition, window) => condition.test (target window streamBuffer)

structure TtsrManager where
  settings : TtsrSettings := {}
  rules : OrderedMap Text TtsrEntry := .empty
  injectionRecords : OrderedMap Text InjectionRecord := .empty
  buffers : OrderedMap Text CodeUnits := .empty
  messageCount : Int := 0

namespace TtsrManager

def canTrigger (m : TtsrManager) (ruleName : Text) : Bool :=
  match m.injectionRecords.get? ruleName with
  | none => true
  | some record =>
    let rule := (m.rules.get? ruleName).map (·.rule)
    let repeatMode := ((rule.bind (·.repeatMode)).or record.repeatMode).getD m.settings.repeatMode
    let repeatGap := ((rule.bind (·.repeatGap)).or record.repeatGap).getD m.settings.repeatGap
    repeatMode ≠ .once && m.messageCount - record.lastInjectedAt ≥ repeatGap

variable (rt : Runtime)

variable (m : TtsrManager)

def addRule (rule : Rule) : TtsrManager × Bool :=
  if !m.settings.enabled then (m, false)
  else if m.rules.has rule.name then (m, false)
  else
    let conditions := compileConditions rt rule
    let scope := buildScope rt rule
    if conditions.length = 0 then (m, false)
    else if !hasReachableScope scope then (m, false)
    else
      let entry : TtsrEntry :=
        { rule
          conditions := conditions.map fun condition => (condition, conditionWindow condition)
          scope
          globalPathGlobs := compileGlobalPathGlobs rule.globs }
      ({ m with rules := m.rules.set rule.name entry }, true)

/-- The checks of `checkDelta` before the conditions: the rule may trigger, and its scope and paths
fit. -/
def fits (name : Text) (entry : TtsrEntry) (context : TtsrMatchContext) : Bool :=
  m.canTrigger name && matchesScope rt entry context && matchesGlobalPaths rt entry context

def nextBuffer (delta : CodeUnits) (context : TtsrMatchContext) : CodeUnits :=
  (m.buffers.get? (bufferKey rt context)).getD [] ++ delta

def checkDelta (delta : CodeUnits) (context : TtsrMatchContext) : TtsrManager × List Rule :=
  if !m.settings.enabled then (m, [])
  else
    let nextBuffer := m.nextBuffer rt delta context
    let m := { m with buffers := m.buffers.set (bufferKey rt context) nextBuffer }
    (m, (m.rules.entries.filter fun (name, entry) =>
      m.fits rt name entry context && matchesCondition entry nextBuffer).map (·.2.rule))

def markInjectedByNames (ruleNames : List Text) : TtsrManager :=
  ruleNames.foldl (fun m rawName =>
    let ruleName := trim rawName
    if ruleName = [] then m
    else
      let rule := (m.rules.get? ruleName).map (·.rule)
      { m with
        injectionRecords := m.injectionRecords.set ruleName
          { lastInjectedAt := m.messageCount
            repeatMode := some ((rule.bind (·.repeatMode)).getD m.settings.repeatMode)
            repeatGap := some ((rule.bind (·.repeatGap)).getD m.settings.repeatGap) } }) m

/-- A name of an injected rule, or a record of it, whose time may not be finite. -/
inductive Injected where
  | name (name : Text)
  | record (name : Text) (lastInjectedAt : Option Int) (repeatMode : Option RepeatMode)
      (repeatGap : Option Int)

def restoreInjected (records : List Injected) : TtsrManager :=
  if !m.settings.enabled then m
  else
    records.foldl (fun m record =>
      match record with
      | .name name =>
          { m with injectionRecords := m.injectionRecords.set name { lastInjectedAt := 0 } }
      | .record rawName lastInjectedAt repeatMode repeatGap =>
        let name := trim rawName
        if name = [] then m
        else
          { m with
            injectionRecords := m.injectionRecords.set name
              { lastInjectedAt := lastInjectedAt.getD 0, repeatMode, repeatGap } }) m

inductive Call where
  | addRule (rule : Rule)
  | checkDelta (delta : CodeUnits) (context : TtsrMatchContext)
  | markInjectedByNames (ruleNames : List Text)
  | restoreInjected (records : List Injected)
  | resetBuffer
  | incrementMessageCount
  | restoreMessageCount (messageCount : Int)

def step (rt : Runtime) (m : TtsrManager) : Call → TtsrManager
  | .addRule rule => (m.addRule rt rule).1
  | .checkDelta delta context => (m.checkDelta rt delta context).1
  | .markInjectedByNames ruleNames => m.markInjectedByNames ruleNames
  | .restoreInjected records => m.restoreInjected records
  | .resetBuffer => { m with buffers := .empty }
  | .incrementMessageCount => { m with messageCount := m.messageCount + 1 }
  | .restoreMessageCount messageCount =>
    if !m.settings.enabled then m else { m with messageCount := max 0 messageCount }

def after (settings : TtsrSettings) (calls : List Call) : TtsrManager :=
  calls.foldl (step rt) { settings }

end TtsrManager

end Vibrato.Ttsr
