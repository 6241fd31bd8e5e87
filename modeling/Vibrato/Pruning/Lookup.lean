import Vibrato.Pruning.Staleness

/-! What a tool call looks up, and whether its key tells. -/

namespace Vibrato.Pruning

def SEARCH : Text := "search".toList

def BASH : Text := "bash".toList

/-- A value that is given; `null` stands for a missing one. -/
def present : Option Json → Option Json
  | some .null => none
  | value => value

def given? (call : ToolCall) (name : Text) : Option Json := present (argument? call name)

def shapesOutput (tool name : Text) : Bool :=
  if tool = READ then name ∈ ["path".toList, "truncation".toList]
  else if tool = SEARCH then
    name ∈ ["pattern".toList, "paths".toList, "skip".toList, "i".toList, "gitignore".toList]
  else if tool = BASH then
    name ∈ ["command".toList, "cwd".toList, "env".toList, "timeout".toList, "pty".toList,
      "async".toList]
  else name ≠ "_i".toList

def defaultArgument (tool name : Text) : Option Json :=
  if tool = SEARCH then
    if name = "skip".toList then some (.num (JsonNumber.ofNat 0))
    else if name = "i".toList then some (.bool false)
    else if name = "gitignore".toList then some (.bool true)
    else none
  else if tool = BASH then
    if name = "env".toList then some (.obj [])
    else if name = "timeout".toList then some (.num (JsonNumber.ofNat 300))
    else if name = "pty".toList then some (.bool false)
    else if name = "async".toList then some (.bool false)
    else none
  else none

/-- The spaces in an idempotent command do not tell lookups apart. -/
def commandArgument (call : ToolCall) : Option Json :=
  match given? call "command".toList with
  | some (.str command) =>
    some (.str (if (normalizedIdempotentBashCommand call).isSome then normalizedCommand command
      else command))
  | value => value

def effectiveArgument (call : ToolCall) (name : Text) : Option Json :=
  if call.name = READ ∧ name = "path".toList then (toolCallPath call).map .str
  else if call.name = BASH ∧ name = "command".toList then commandArgument call
  else (given? call name).or (defaultArgument call.name name)

def SameLookup (a b : ToolCall) : Prop :=
  a.name = b.name ∧ ∀ name, shapesOutput a.name name = true →
    effectiveArgument a name = effectiveArgument b name

def isStringArray : Json → Bool
  | .arr items => !items.isEmpty && items.all fun item => item.str?.isSome
  | _ => false

def isString (value : Json) : Bool := value.str?.isSome

def isBool : Json → Bool
  | .bool _ => true
  | _ => false

/-- The key of a call with this target holds the value of the argument.  The key of a search holds
values of the types that the schema asks for, that of a command its text and its directory. -/
def inKey (tool : Text) (target : Target) (name : Text) (value : Option Json) : Bool :=
  if tool = READ then name = "path".toList
  else
    match target with
    | .path _ => false
    | .command _ =>
        tool = BASH && (name = "command".toList || name = "cwd".toList && value.all isString)
    | .pattern .. =>
      tool = SEARCH &&
        (name = "pattern".toList || name = "paths".toList && value.all isStringArray ||
          name = "skip".toList && value.any (·.num?.isSome) ||
          name = "i".toList && value.any isBool || name = "gitignore".toList && value.any isBool)

def UnkeyedAgree (target : Target) (a b : ToolCall) : Prop :=
  ∀ name, shapesOutput a.name name = true →
    (inKey a.name target name (effectiveArgument a name) = false ∨
      inKey b.name target name (effectiveArgument b name) = false) →
    effectiveArgument a name = effectiveArgument b name

variable {call : ToolCall} {command : Text}

theorem command_of_toolTarget (h : toolTarget call = some (.command command)) :
    normalizedIdempotentBashCommand call = some command := by
  unfold toolTarget at h
  split at h
  · cases h
  · split at h
    · next hcommand =>
      cases h
      exact hcommand
    · obtain ⟨pattern, -, hpattern⟩ := Option.map_eq_some_iff.mp h
      cases hpattern

theorem patternTarget_of_toolTarget {pattern : Text} {paths : List Text} {skip : JsonNumber}
    {i gitignore : Bool}
    (h : toolTarget call = some (.pattern pattern paths skip i gitignore)) :
    patternTarget call = some (.pattern pattern paths skip i gitignore) := by
  unfold toolTarget at h
  split at h
  · cases h
  · split at h
    · cases h
    · exact h

def commandDirectory (call : ToolCall) : Json :=
  match argument? call "cwd".toList with
  | some (.str cwd) => .str cwd
  | _ => .null

theorem exists_of_normalizedIdempotentBashCommand
    (h : normalizedIdempotentBashCommand call = some command) :
    ∃ normalized, commandArgument call = some (.str normalized) ∧
      command = Json.stringify (.arr [.str normalized, commandDirectory call]) := by
  have hsome := congrArg Option.isSome h
  unfold normalizedIdempotentBashCommand at h
  split at h
  · cases h
  · split at h
    · next text htext =>
      dsimp only at h
      split at h
      · cases h
      · cases h
        refine ⟨normalizedCommand text, ?_, rfl⟩
        unfold commandArgument given?
        rw [htext]
        simp only [present, hsome, Option.isSome_some, if_true]
    · cases h

theorem given?_directory (h : (given? call "cwd".toList).all isString = true) :
    given? call "cwd".toList =
      if commandDirectory call = .null then none else some (commandDirectory call) := by
  unfold given? at h ⊢
  unfold commandDirectory
  generalize argument? call "cwd".toList = value at h ⊢
  cases value with
  | none => rfl
  | some value => cases value <;> simp_all [present, isString, Json.str?]

theorem eq_of_nonEmptyString? {value : Option Json} {s : Text}
    (h : nonEmptyString? value = some s) :
    value = some (.str s) := by
  unfold nonEmptyString? at h
  split at h
  · split at h
    · cases h
    · cases h
      rfl
  · cases h

theorem filterMap_str?_map {items : List Json}
    (h : items.all (fun item => item.str?.isSome) = true) :
    (items.filterMap Json.str?).map Json.str = items := by
  induction items with
  | nil => rfl
  | cons item items ih =>
    cases item <;> simp_all [Json.str?]

section

variable {value : Option Json}

theorem present_eq_stringItems (h : (present value).all isStringArray = true) :
    present value =
      if stringItems value = [] then none else some (.arr ((stringItems value).map .str)) := by
  cases value with
  | none => rfl
  | some value =>
    cases value with
    | arr items =>
      have hitems : items ≠ [] ∧ items.all (fun item => item.str?.isSome) = true := by
        simpa [present, isStringArray] using h
      have hmap := filterMap_str?_map hitems.2
      have hne : items.filterMap Json.str? ≠ [] := by
        intro hnil
        rw [hnil] at hmap
        exact hitems.1 hmap.symm
      simp [present, stringItems, hmap, hne]
    | _ => simp_all [present, isStringArray, stringItems]

theorem present_or_eq_num {default : JsonNumber}
    (h : ((present value).or (some (.num default))).any (·.num?.isSome) = true) :
    (present value).or (some (.num default)) =
      some (.num ((value.bind Json.num?).getD default)) := by
  cases value with
  | none => rfl
  | some value => cases value <;> simp_all [present, Json.num?]

theorem present_or_eq_isTrue (h : ((present value).or (some (.bool false))).any isBool = true) :
    (present value).or (some (.bool false)) =
      some (.bool (decide (value = some (.bool true)))) := by
  cases value with
  | none => rfl
  | some value => cases value <;> simp_all [present, isBool]

theorem present_or_eq_isNotFalse (h : ((present value).or (some (.bool true))).any isBool = true) :
    (present value).or (some (.bool true)) =
      some (.bool (decide (value ≠ some (.bool false)))) := by
  cases value with
  | none => rfl
  | some value => cases value <;> simp_all [present, isBool]

end

variable {name : Text} {a b : ToolCall} {target : Target}

theorem effectiveArgument_of_pattern {call : ToolCall} {pattern : Text} {paths : List Text}
    {skip : JsonNumber} {i gitignore : Bool} (hname : call.name = SEARCH)
    (htarget : toolTarget call = some (.pattern pattern paths skip i gitignore))
    (hkey : inKey call.name (.pattern pattern paths skip i gitignore) name
      (effectiveArgument call name) = true) :
    effectiveArgument call name =
      if name = "pattern".toList then some (.str pattern)
      else if name = "paths".toList then if paths = [] then none else some (.arr (paths.map .str))
      else if name = "skip".toList then some (.num skip)
      else if name = "i".toList then some (.bool i)
      else some (.bool gitignore) := by
  have hpattern := patternTarget_of_toolTarget htarget
  obtain ⟨pattern', hpattern', heq⟩ := Option.map_eq_some_iff.mp hpattern
  cases heq
  have hread : SEARCH ≠ READ := by decide
  have hbash : SEARCH ≠ BASH := by decide
  simp only [inKey, hname, hread, if_false, decide_true, Bool.true_and, Bool.or_eq_true,
    decide_eq_true_eq, Bool.and_eq_true] at hkey
  simp only [effectiveArgument, hname, hread, hbash, false_and, if_false, defaultArgument, if_true,
    given?] at hkey ⊢
  rcases hkey with (((rfl | ⟨rfl, htyped⟩) | ⟨rfl, htyped⟩) | ⟨rfl, htyped⟩) | ⟨rfl, htyped⟩
  · rw [eq_of_nonEmptyString? hpattern']
    simp +decide [present]
  · simp +decide only [if_false, if_true, Option.or_none] at htyped ⊢
    exact present_eq_stringItems htyped
  · exact present_or_eq_num htyped
  · exact present_or_eq_isTrue htyped
  · exact present_or_eq_isNotFalse htyped

theorem effectiveArgument_eq_of_inKey
    (hname : a.name = b.name) (ha : toolTarget a = some target) (hb : toolTarget b = some target)
    (hkeyA : inKey a.name target name (effectiveArgument a name) = true)
    (hkeyB : inKey b.name target name (effectiveArgument b name) = true) :
    effectiveArgument a name = effectiveArgument b name := by
  by_cases hread : a.name = READ
  · have hpath : name = "path".toList := by simpa [inKey, hread] using hkeyA
    simp only [effectiveArgument, hread, ← hname, hpath, and_self, if_true]
    rw [toolCallPath_of_toolTarget ha, toolCallPath_of_toolTarget hb]
  · have hread' : b.name ≠ READ := hname ▸ hread
    cases target with
    | path => simp [inKey, hread] at hkeyA
    | command command =>
      simp only [inKey, hread, hread', if_false, Bool.and_eq_true, Bool.or_eq_true,
        decide_eq_true_eq] at hkeyA hkeyB
      obtain ⟨hbash, hkeyA⟩ := hkeyA
      obtain ⟨hbash', hkeyB⟩ := hkeyB
      obtain ⟨na, hargA, hna⟩ :=
        exists_of_normalizedIdempotentBashCommand (command_of_toolTarget ha)
      obtain ⟨nb, hargB, hnb⟩ :=
        exists_of_normalizedIdempotentBashCommand (command_of_toolTarget hb)
      have hitems := Json.arr.inj (Json.stringify_inj.mp (hna.symm.trans hnb))
      rcases hkeyA with rfl | ⟨rfl, hstringA⟩
      · have heffective : ∀ call : ToolCall, call.name = BASH →
            effectiveArgument call "command".toList = commandArgument call := by
          intro call hcall
          simp +decide [effectiveArgument, hcall]
        rw [heffective a hbash, heffective b hbash', hargA, hargB, (List.cons.inj hitems).1]
      · have heffective : ∀ call : ToolCall, call.name = BASH →
            effectiveArgument call "cwd".toList = given? call "cwd".toList := by
          intro call hcall
          simp +decide [effectiveArgument, defaultArgument, hcall]
        have hstringB := (hkeyB.resolve_left (by decide)).2
        have hdirectory : commandDirectory a = commandDirectory b := by
          simpa using (List.cons.inj hitems).2
        rw [heffective a hbash] at hstringA ⊢
        rw [heffective b hbash'] at hstringB ⊢
        rw [given?_directory hstringA, given?_directory hstringB, hdirectory]
    | pattern pattern paths skip i gitignore =>
      have hsearch : a.name = SEARCH := by
        simp only [inKey, hread, if_false, Bool.and_eq_true, decide_eq_true_eq] at hkeyA
        exact hkeyA.1
      rw [effectiveArgument_of_pattern hsearch ha hkeyA,
        effectiveArgument_of_pattern (hname ▸ hsearch) hb hkeyB]

theorem sameLookup_iff (hname : a.name = b.name) (ha : toolTarget a = some target)
    (hb : toolTarget b = some target) :
    SameLookup a b ↔ UnkeyedAgree target a b := by
  constructor
  · rintro ⟨-, hsame⟩ name hshapes -
    exact hsame name hshapes
  · intro hagree
    refine ⟨hname, fun name hshapes => ?_⟩
    cases hkeyA : inKey a.name target name (effectiveArgument a name) with
    | false => exact hagree name hshapes (.inl hkeyA)
    | true =>
      cases hkeyB : inKey b.name target name (effectiveArgument b name) with
      | false => exact hagree name hshapes (.inr hkeyB)
      | true => exact effectiveArgument_eq_of_inKey hname ha hb hkeyA hkeyB

variable (entries : List Entry)

/-- Every result that is stale through its key has a later result of its lookup, and all later
results with its key are of its lookup. -/
def StaleOnlyBySameLookup : Prop :=
  ∀ i call message, SucceededAt entries i call message →
    staleByKey (stalenessMaps entries) i ⟨call, message⟩ = true →
    (∃ j call' message', i < j ∧ SucceededAt entries j call' message' ∧ SameLookup call call') ∧
    ∀ j call' message', i < j → SucceededAt entries j call' message' →
      toolTargetKey call' = toolTargetKey call → SameLookup call call'

/-- Successful results of one tool with one target agree on the arguments that their key leaves
out. -/
def UnkeyedArgumentsAgree : Prop :=
  ∀ i call message j call' message' target, SucceededAt entries i call message →
    SucceededAt entries j call' message' → i < j → call.name = call'.name →
    toolTarget call = some target → toolTarget call' = some target → UnkeyedAgree target call call'

/-- Results are replaced through their keys by results of the same lookup only, exactly in the
sessions in which nothing that the keys leave out tells two results of one target apart. -/
theorem staleOnlyBySameLookup_iff (entries : List Entry) :
    StaleOnlyBySameLookup entries ↔ UnkeyedArgumentsAgree entries := by
  constructor
  · intro hsound i call message j call' message' target hi hj hlt hname htarget htarget'
    obtain ⟨key, hkey⟩ : ∃ key, toolTargetKey call = some key := by
      simp [toolTargetKey, htarget]
    have hkey' : toolTargetKey call' = some key :=
      (toolTargetKey_eq_iff hkey).mpr ⟨hname.symm, htarget'.trans htarget.symm⟩
    have hstale : staleByKey (stalenessMaps entries) i ⟨call, message⟩ = true :=
      staleByKey_iff.mpr ⟨j, call', message', hlt, hj, key, hkey, hkey'⟩
    have hsame :=
      (hsound i call message hi hstale).2 j call' message' hlt hj (hkey'.trans hkey.symm)
    exact (sameLookup_iff hname htarget htarget').mp hsame
  · intro hagree i call message hi hstale
    have hlater : ∀ j call' message', i < j → SucceededAt entries j call' message' →
        ∀ key, toolTargetKey call = some key → toolTargetKey call' = some key →
          SameLookup call call' := by
      intro j call' message' hlt hj key hkey hkey'
      obtain ⟨hname, htargets⟩ := (toolTargetKey_eq_iff hkey).mp hkey'
      obtain ⟨target, htarget, -⟩ := Option.map_eq_some_iff.mp hkey
      have htarget' := htargets.trans htarget
      exact (sameLookup_iff hname.symm htarget htarget').mpr
        (hagree i call message j call' message' target hi hj hlt hname.symm htarget htarget')
    obtain ⟨j, call', message', hlt, hj, key, hkey, hkey'⟩ := staleByKey_iff.mp hstale
    refine ⟨⟨j, call', message', hlt, hj, hlater j call' message' hlt hj key hkey hkey'⟩, ?_⟩
    intro j call' message' hlt hj hsame
    exact hlater j call' message' hlt hj key hkey (hsame.trans hkey)

/-- A `read` with a truncation mode. -/
def truncatedRead (id : Text) (truncation : Text) : ToolCall :=
  ⟨id, READ, none, some (.obj [("path".toList, .str "a.ts".toList),
    ("truncation".toList, .str truncation)])⟩

def headAndLastReads : List Entry :=
  exchange (truncatedRead "1".toList "head".toList) "first lines".toList none ++
    exchange (truncatedRead "2".toList "last".toList) "last lines".toList none

/-- The read of the last lines makes the read of the first ones stale. -/
theorem headAndLastReads_stale :
    staleResultIndices headAndLastReads = [1] ∧ ¬StaleOnlyBySameLookup headAndLastReads := by
  refine ⟨by decide +kernel, fun hsound => ?_⟩
  have hfirst : SucceededAt headAndLastReads 1 (truncatedRead "1".toList "head".toList)
      ⟨"1".toList, READ, .text "first lines".toList, false, none, none⟩ := ⟨by decide +kernel, rfl⟩
  have hsecond : SucceededAt headAndLastReads 3 (truncatedRead "2".toList "last".toList)
      ⟨"2".toList, READ, .text "last lines".toList, false, none, none⟩ := ⟨by decide +kernel, rfl⟩
  have hsame := (hsound 1 _ _ hfirst (by decide +kernel)).2 3 _ _ (by decide) hsecond
    (by decide +kernel)
  exact absurd (hsame.2 "truncation".toList (by decide +kernel)) (by decide +kernel)

end Vibrato.Pruning
