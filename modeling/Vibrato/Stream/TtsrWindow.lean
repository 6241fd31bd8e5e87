import Vibrato.Stream.TtsrManager

/-! When a rule is reported.  A condition that only looks ahead and repeats nothing is tested on the
end of the buffer only, so a match that starts before is missed. -/

namespace Vibrato.Ttsr

open Lib Lib.SimplePattern List OrderedMap

def matchesBuffer (rt : Runtime) (rule : Rule) (streamBuffer : CodeUnits) : Bool :=
  (compileConditions rt rule).any fun condition => condition.test streamBuffer

/-- A condition with a window has a match that starts within it, and one without any match. -/
def matchStartsInWindow (condition : RegExp) (streamBuffer : CodeUnits) : Bool :=
  match condition.matcher, conditionWindow condition with
  | .simple node, some window =>
    (List.range (streamBuffer.length + 1)).any fun start =>
      streamBuffer.length ≤ start + window && node.matchesAt streamBuffer start
  | _, _ => condition.test streamBuffer

variable {pattern : CodeUnits} {condition : RegExp}

theorem newRegExp_source {rt : Runtime}
    (h : newRegExp rt pattern = some condition)
    (hsafe : needsWholeBuffer condition.source = false) :
    ∃ node, condition.matcher = .simple node ∧ read condition.source = some node := by
  unfold newRegExp at h
  dsimp only at h
  split at h
  · next hwhole =>
    obtain ⟨test, -, rfl⟩ := Option.map_eq_some_iff.mp h
    rw [show needsWholeBuffer (sourceOf pattern) = false from hsafe] at hwhole
    cases hwhole
  · obtain ⟨node, hnode, rfl⟩ := Option.map_eq_some_iff.mp h
    exact ⟨node, rfl, hnode⟩

theorem conditionWindow_eq_some {window : Nat} (h : conditionWindow condition = some window) :
    needsWholeBuffer condition.source = false ∧ 0 < condition.source.length ∧
      window = min SAFE_REGEX_WINDOW_CAP
        (condition.source.length * SAFE_REGEX_WINDOW_MULTIPLIER) := by
  unfold conditionWindow at h
  split at h
  · cases h
  · next hlength =>
    split at h
    · cases h
    · next hsafe =>
      cases h
      refine ⟨by simpa using hsafe, by omega, ?_⟩
      have hone : 1 ≤ condition.source.length * SAFE_REGEX_WINDOW_MULTIPLIER := by
        unfold SAFE_REGEX_WINDOW_MULTIPLIER
        omega
      rw [Nat.max_eq_right hone]

theorem test_target {rt : Runtime} (h : newRegExp rt pattern = some condition)
    (streamBuffer : CodeUnits) :
    condition.test (target (conditionWindow condition) streamBuffer) =
      matchStartsInWindow condition streamBuffer := by
  cases hwindow : conditionWindow condition with
  | none =>
    unfold matchStartsInWindow
    rw [hwindow]
    cases condition.matcher with
    | simple node => rfl
    | other test => rfl
  | some window =>
    obtain ⟨node, hnode, -⟩ := newRegExp_source h (conditionWindow_eq_some hwindow).1
    have htest : ∀ target, condition.test target = node.test target := by
      intro target
      rw [RegExp.test, hnode]
    unfold matchStartsInWindow
    rw [hwindow, hnode, htest, target, Bool.eq_iff_iff, Node.test_drop_iff (Nat.sub_le _ _),
      any_eq_true]
    constructor
    · rintro ⟨start, hle, hstart, hmatch⟩
      refine ⟨start, mem_range.mpr (Nat.lt_succ_of_le hle), ?_⟩
      rw [Bool.and_eq_true, decide_eq_true_eq]
      exact ⟨by omega, hmatch⟩
    · rintro ⟨start, hle, hstart⟩
      rw [Bool.and_eq_true, decide_eq_true_eq] at hstart
      exact ⟨start, Nat.lt_succ_iff.mp (mem_range.mp hle), by omega, hstart.2⟩

theorem test_of_matchStartsInWindow {streamBuffer : CodeUnits}
    (h : matchStartsInWindow condition streamBuffer = true) :
    condition.test streamBuffer = true := by
  unfold matchStartsInWindow at h
  split at h
  · next node window hnode hwindow =>
    obtain ⟨start, hle, hstart⟩ := any_eq_true.mp h
    rw [Bool.and_eq_true] at hstart
    rw [RegExp.test, hnode]
    exact Node.test_iff.mpr ⟨start, Nat.lt_succ_iff.mp (mem_range.mp hle), hstart.2⟩
  · exact h

namespace TtsrManager

/-- What the streams have produced since the buffers were reset, after one more call. -/
def accumulate (rt : Runtime) (texts : Text → CodeUnits) : Call → Text → CodeUnits
  | .checkDelta delta context =>
      fun key => if key = bufferKey rt context then texts key ++ delta else texts key
  | .resetBuffer => fun _ => []
  | _ => texts

def accumulated (rt : Runtime) (calls : List Call) : Text → CodeUnits :=
  calls.foldl (accumulate rt) fun _ => []

/-- The manager of an enabled session has the texts of the streams in its buffers; its rules are
registered under their names, with their conditions. -/
structure Represents (rt : Runtime) (settings : TtsrSettings) (m : TtsrManager)
    (texts : Text → CodeUnits) :
    Prop where
  kept : m.settings = settings
  disabled : settings.enabled = false → ∀ name, m.rules.get? name = none
  buffers : settings.enabled = true → ∀ key, (m.buffers.get? key).getD [] = texts key
  entries : ∀ name entry, m.rules.get? name = some entry → entry.rule.name = name ∧
    entry.conditions = (compileConditions rt entry.rule).map fun condition =>
      (condition, conditionWindow condition)

section

variable {rt : Runtime} {settings : TtsrSettings} {m m' : TtsrManager} {texts : Text → CodeUnits}

variable (h : Represents rt settings m texts)
include h

theorem Represents.congr (hsettings : m'.settings = m.settings)
    (hrules : m'.rules = m.rules) (hbuffers : m'.buffers = m.buffers) :
    Represents rt settings m' texts where
  kept := hsettings.trans h.kept
  disabled := hrules ▸ h.disabled
  buffers := hbuffers ▸ h.buffers
  entries := hrules ▸ h.entries

theorem Represents.addRule (rule : Rule) : Represents rt settings (m.addRule rt rule).1 texts := by
  unfold TtsrManager.addRule
  split
  · exact h
  · next henabled =>
    split
    · exact h
    · dsimp only
      split
      · exact h
      · split
        · exact h
        · refine { h with disabled := ?_, entries := ?_ }
          · intro hdisabled
            rw [h.kept, hdisabled] at henabled
            exact absurd rfl henabled
          · intro name entry hentry
            rw [get?_set] at hentry
            split at hentry
            · next hname =>
              cases hentry
              exact ⟨hname.symm, rfl⟩
            · exact h.entries name entry hentry

theorem Represents.checkDelta (delta : CodeUnits) (context : TtsrMatchContext) :
    Represents rt settings (m.checkDelta rt delta context).1
      (accumulate rt texts (.checkDelta delta context)) := by
  unfold TtsrManager.checkDelta
  split
  · next hdisabled =>
    refine { h with buffers := ?_ }
    intro henabled
    rw [h.kept, henabled] at hdisabled
    cases hdisabled
  · refine { h with buffers := ?_ }
    intro henabled key
    show ((m.buffers.set _ _).get? key).getD [] = if key = bufferKey rt context then
        texts key ++ delta else texts key
    rw [get?_set]
    split
    · next hkey =>
      rw [hkey, ← h.buffers henabled]
      rfl
    · exact h.buffers henabled key

theorem Represents.markInjectedByNames (ruleNames : List Text) :
    Represents rt settings (m.markInjectedByNames ruleNames) texts := by
  induction ruleNames generalizing m with
  | nil => exact h
  | cons rawName ruleNames ih =>
    apply ih
    dsimp only
    split
    · exact h
    · exact h.congr rfl rfl rfl

theorem Represents.restoreInjected (records : List Injected) :
    Represents rt settings (m.restoreInjected records) texts := by
  unfold TtsrManager.restoreInjected
  split
  · exact h
  · clear * - h
    induction records generalizing m with
    | nil => exact h
    | cons record records ih =>
      apply ih
      cases record with
      | name name => exact h.congr rfl rfl rfl
      | record rawName lastInjectedAt repeatMode repeatGap =>
        dsimp only
        split
        · exact h
        · exact h.congr rfl rfl rfl

theorem Represents.step (call : Call) :
    Represents rt settings (m.step rt call) (accumulate rt texts call) := by
  cases call with
  | addRule rule => exact h.addRule rule
  | checkDelta delta context => exact h.checkDelta delta context
  | markInjectedByNames ruleNames => exact h.markInjectedByNames ruleNames
  | restoreInjected records => exact h.restoreInjected records
  | resetBuffer => exact { h with buffers := fun _ _ => rfl }
  | incrementMessageCount => exact h.congr rfl rfl rfl
  | restoreMessageCount messageCount =>
    unfold TtsrManager.step
    dsimp only
    split
    · exact h
    · exact h.congr rfl rfl rfl

theorem Represents.run (calls : List Call) :
    Represents rt settings (calls.foldl (TtsrManager.step rt) m)
      (calls.foldl (accumulate rt) texts) := by
  induction calls generalizing m texts with
  | nil => exact h
  | cons call calls ih => exact ih (h.step call)

omit h

theorem represents_after (rt : Runtime) (settings : TtsrSettings) (calls : List Call) :
    Represents rt settings (after rt settings calls) (accumulated rt calls) := by
  apply Represents.run
  exact
    { kept := rfl
      disabled := fun _ _ => rfl
      buffers := fun _ _ => rfl
      entries := fun name entry h => absurd h (by simp) }

end

section

variable (rt : Runtime) (settings : TtsrSettings)

variable (before : List Call)

variable (delta : CodeUnits)

def Reported (context : TtsrMatchContext) (name : Text) : Prop :=
  ∃ rule ∈ ((after rt settings before).checkDelta rt delta context).2, rule.name = name

def streamText (context : TtsrMatchContext) : CodeUnits :=
  accumulated rt before (bufferKey rt context) ++ delta

/-- A registered rule may trigger, its scope and paths fit, and what is asked of the rule and the
text of the stream with the delta holds. -/
def Fits (context : TtsrMatchContext) (name : Text) (condition : Rule → CodeUnits → Bool) : Prop :=
  ∃ entry, (after rt settings before).rules.get? name = some entry ∧
    (after rt settings before).fits rt name entry context = true ∧
    condition entry.rule (streamText rt before delta context) = true

def Due (context : TtsrMatchContext) (name : Text) : Prop :=
  Fits rt settings before delta context name (matchesBuffer rt)

def FirstDue (context : TtsrMatchContext) (name : Text) : Prop :=
  Due rt settings before delta context name ∧
  ∀ earlier delta' context' between, before = earlier ++ .checkDelta delta' context' :: between →
    bufferKey rt context' = bufferKey rt context → .resetBuffer ∉ between →
    ¬ Due rt settings earlier delta' context' name

/-- Rules are reported when they are due only, and at the latest when they are due for the first
time. -/
def ReportsFirst (calls : List Call) : Prop :=
  ∀ before delta context rest name, calls = before ++ .checkDelta delta context :: rest →
    (Reported rt settings before delta context name → Due rt settings before delta context name) ∧
    (FirstDue rt settings before delta context name →
      Reported rt settings before delta context name)

end

variable {rt : Runtime} {settings : TtsrSettings}

theorem matchesCondition_eq {entry : TtsrEntry} {streamBuffer : CodeUnits}
    (h : entry.conditions = (compileConditions rt entry.rule).map fun condition =>
      (condition, conditionWindow condition)) :
    matchesCondition entry streamBuffer =
      (compileConditions rt entry.rule).any fun condition =>
        matchStartsInWindow condition streamBuffer := by
  rw [matchesCondition, h, any_map, Bool.eq_iff_iff, any_eq_true, any_eq_true]
  refine exists_congr fun condition => and_congr_right fun hcondition => ?_
  obtain ⟨pattern, -, hpattern⟩ := mem_filterMap.mp hcondition
  rw [← test_target hpattern streamBuffer]
  rfl

/-- A rule is reported exactly if it fits and a condition has a match that starts in its window. -/
theorem reported_iff (before : List Call) (delta : CodeUnits) (context : TtsrMatchContext)
    (name : Text) :
    Reported rt settings before delta context name ↔
      Fits rt settings before delta context name fun rule text =>
        (compileConditions rt rule).any fun condition => matchStartsInWindow condition text := by
  have hrep := represents_after rt settings before
  cases henabled : settings.enabled with
  | false =>
    constructor
    · rintro ⟨rule, hrule, -⟩
      rw [TtsrManager.checkDelta, hrep.kept, henabled] at hrule
      cases hrule
    · rintro ⟨entry, hentry, -⟩
      rw [hrep.disabled henabled] at hentry
      cases hentry
  | true =>
    have htext : (after rt settings before).nextBuffer rt delta context =
        streamText rt before delta context :=
      congrArg (· ++ delta) (hrep.buffers henabled _)
    have hreported : ((after rt settings before).checkDelta rt delta context).2 =
        ((after rt settings before).rules.entries.filter fun e =>
          (after rt settings before).fits rt e.1 e.2 context &&
            matchesCondition e.2 (streamText rt before delta context)).map (·.2.rule) := by
      rw [TtsrManager.checkDelta, if_neg (by simp [hrep.kept, henabled]), ← htext]
      rfl
    unfold Reported
    rw [hreported]
    constructor
    · rintro ⟨rule, hrule, hname⟩
      obtain ⟨⟨name', entry⟩, hmem, rfl⟩ := mem_map.mp hrule
      obtain ⟨hmem, hfits⟩ := mem_filter.mp hmem
      have hentry := get?_eq_some.mpr hmem
      obtain ⟨hentryName, hconditions⟩ := hrep.entries name' entry hentry
      have hsame : name' = name := hentryName.symm.trans hname
      rw [Bool.and_eq_true, matchesCondition_eq hconditions] at hfits
      rw [hsame] at hentry hfits
      exact ⟨entry, hentry, hfits.1, hfits.2⟩
    · rintro ⟨entry, hentry, hfits, hmatch⟩
      obtain ⟨hname, hconditions⟩ := hrep.entries name entry hentry
      refine ⟨entry.rule, mem_map.mpr ⟨(name, entry), ?_, rfl⟩, hname⟩
      refine mem_filter.mpr ⟨get?_eq_some.mp hentry, ?_⟩
      rw [Bool.and_eq_true, matchesCondition_eq hconditions]
      exact ⟨hfits, hmatch⟩

theorem due_of_reported {before : List Call} {delta : CodeUnits} {context : TtsrMatchContext}
    {name : Text}
    (h : Reported rt settings before delta context name) :
    Due rt settings before delta context name := by
  obtain ⟨entry, hentry, hfits, hmatch⟩ := (reported_iff ..).mp h
  refine ⟨entry, hentry, hfits, ?_⟩
  obtain ⟨condition, hcondition, hstarts⟩ := any_eq_true.mp hmatch
  exact any_eq_true.mpr ⟨condition, hcondition, test_of_matchStartsInWindow hstarts⟩

/-- The rules are reported as they are due exactly if, whenever a rule is due for the first time, a
condition without a window matches the text of the stream, or one with a window has a match that
starts within it. -/
theorem reportsFirst_iff_matchStartsInWindow (rt : Runtime) (settings : TtsrSettings)
    (calls : List Call) :
    ReportsFirst rt settings calls ↔
      ∀ before delta context rest name, calls = before ++ .checkDelta delta context :: rest →
        FirstDue rt settings before delta context name →
        ∃ entry, (after rt settings before).rules.get? name = some entry ∧
          ∃ condition ∈ compileConditions rt entry.rule,
            matchStartsInWindow condition (streamText rt before delta context) = true := by
  constructor
  · intro h before delta context rest name hcalls hfirst
    obtain ⟨entry, hentry, -, hmatch⟩ :=
  (reported_iff ..).mp ((h before delta context rest name hcalls).2 hfirst)
    exact ⟨entry, hentry, any_eq_true.mp hmatch⟩
  · intro h before delta context rest name hcalls
    refine ⟨due_of_reported, fun hfirst => ?_⟩
    obtain ⟨entry, hentry, hmatch⟩ := h before delta context rest name hcalls hfirst
    obtain ⟨entry', hentry', hfits, -⟩ := hfirst.1
    rw [hentry] at hentry'
    cases hentry'
    exact (reported_iff ..).mpr ⟨entry, hentry, hfits, any_eq_true.mpr hmatch⟩

def plainRuntime : Runtime :=
  { regExp := fun _ => none, glob := fun _ _ => false, toLowerCase := id }

/-- A rule for the pattern `foo`. -/
def fooRule : Rule := { name := "foo".toList, condition := some ["foo".toList.map unit] }

def longDelta : CodeUnits := "fooxxxxxxxxxxxxx".toList.map unit

/-- They come in one delta, and the window is twelve. -/
theorem not_reportsFirst_long_delta : ¬ ∀ rt settings calls, ReportsFirst rt settings calls := by
  intro h
  have hreports := h plainRuntime {} [.addRule fooRule, .checkDelta longDelta { source := .text }]
    [.addRule fooRule] longDelta { source := .text } [] "foo".toList rfl
  have hfirst : FirstDue plainRuntime {} [.addRule fooRule] longDelta
      { source := .text } "foo".toList := by
    refine ⟨⟨_, rfl, by decide +kernel, by decide +kernel⟩, ?_⟩
    intro earlier delta context between hbefore
    have hmem : Call.checkDelta delta context ∈ [Call.addRule fooRule] := by
      rw [hbefore]
      exact mem_append_right _ mem_cons_self
    cases mem_singleton.mp hmem
  obtain ⟨rule, hrule, -⟩ := hreports.2 hfirst
  have hnone : ((after plainRuntime {} [.addRule fooRule]).checkDelta plainRuntime
      longDelta { source := .text }).2 = [] := by
    decide +kernel
  cases hrule

end TtsrManager

end Vibrato.Ttsr
