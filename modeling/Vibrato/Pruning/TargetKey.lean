import Vibrato.Pruning.Entry

/-! The targets of tool calls: the paths a call names, and the key under which a later result
replaces an earlier one. -/

namespace Vibrato.Pruning

open Lib Json

variable (call : ToolCall)

/-- `toolArguments`: the arguments, unless they are missing or no object. -/
def toolArguments : Option Json := call.arguments.filter isObject

/-- The argument of a name; `none` stands for `undefined`. -/
def argument? (name : Text) : Option Json :=
  (toolArguments call).bind (·.get? name)

/-- `first ?? second`. -/
def coalesce (first second : Option Json) : Option Json :=
  match first with
  | none | some .null => second
  | some value => some value

def nonEmptyString? : Option Json → Option Text
  | some (.str value) => if value.isEmpty then none else some value
  | _ => none

def toolCallPath : Option Text :=
  nonEmptyString? (coalesce (argument? call "path".toList)
    (coalesce (argument? call "file_path".toList) (argument? call "filePath".toList)))

/-- `s.replace(/\s+/g, " ")`. -/
def collapseSpaces : Text → Text
  | [] => []
  | c :: rest =>
    if Text.isSpace c then
      if rest.head?.any Text.isSpace then collapseSpaces rest else ' ' :: collapseSpaces rest
    else c :: collapseSpaces rest

def isWordChar (c : Char) : Bool := c.isAlphanum || c = '_'

/-- `IDEMPOTENT_BASH_COMMAND`, on a command whose white space is single spaces. -/
def isIdempotentBashCommand (command : Text) : Bool :=
  let packageManagers := ["bun ", "npm ", "pnpm ", "yarn "]
  let scripts := packageManagers.flatMap fun manager =>
    ["test", "build", "run test", "run build"].map (manager ++ ·)
  (scripts ++ ["git status", "cargo build", "make build", "just build"]).any fun words =>
    Text.startsWith command words.toList && !(command.drop words.toList.length).head?.any isWordChar

def normalizedCommand (command : Text) : Text := collapseSpaces (Text.trim command)

def normalizedIdempotentBashCommand : Option Text :=
  if call.name ≠ "bash".toList then none
  else
    match argument? call "command".toList with
    | some (.str command) =>
      let normalized := normalizedCommand command
      if normalized.any (fun c => c = ';' || c = '&' || c = '|') ||
          !isIdempotentBashCommand normalized then none
      else
        let cwd := match argument? call "cwd".toList with
          | some (.str cwd) => str cwd
          | _ => .null
        some (stringify (.arr [.str normalized, cwd]))
    | _ => none

/-- What a call asks for: a path, an idempotent command, or a page of a search. -/
inductive Target where
  | path (path : Text)
  | command (command : Text)
  | pattern (pattern : Text) (paths : List Text) (skip : JsonNumber)
      (caseInsensitive gitignore : Bool)

def stringItems : Option Json → List Text
  | some (.arr items) => items.filterMap str?
  | _ => []

def patternTarget : Option Target :=
  (nonEmptyString? (argument? call "pattern".toList)).map fun pattern =>
    .pattern pattern (stringItems (argument? call "paths".toList))
      (((argument? call "skip".toList).bind num?).getD (JsonNumber.ofNat 0))
      (decide (argument? call "i".toList = some (.bool true)))
      (decide (argument? call "gitignore".toList ≠ some (.bool false)))

def toolTarget : Option Target :=
  match toolCallPath call with
  | some path => some (.path path)
  | none =>
    match normalizedIdempotentBashCommand call with
    | some command => some (.command command)
    | none => patternTarget call

def keyTuple (name : Text) : Target → Json
  | .path path => .arr [.str name, .str "path".toList, .str path]
  | .command command => .arr [.str name, .str "command".toList, .str command]
  | .pattern pattern paths skip caseInsensitive gitignore =>
    .arr [.str name, .str "pattern".toList, .str pattern, .arr (paths.map .str), .num skip,
      .bool caseInsensitive, .bool gitignore]

def toolTargetKey : Option Text :=
  (toolTarget call).map fun target => stringify (keyTuple call.name target)

theorem keyTuple_inj {name name' : Text} {target target' : Target}
    (h : keyTuple name target = keyTuple name' target') : name = name' ∧ target = target' := by
  have hpaths : ∀ paths paths' : List Text, paths.map str = paths'.map str → paths = paths' := by
    intro paths paths' hmap
    exact List.map_injective_iff.mpr (fun _ _ hstr => str.inj hstr) hmap
  cases target with
  | path | command => cases target' <;> simp_all [keyTuple]
  | pattern =>
    cases target' with
    | path | command => simp [keyTuple] at h
    | pattern =>
      simp only [keyTuple, arr.injEq, List.cons.injEq, str.injEq, num.injEq, bool.injEq,
        Target.pattern.injEq] at h ⊢
      obtain ⟨hname, -, hpattern, hitems, hskip, hi, hgit, -⟩ := h
      exact ⟨hname, hpattern, hpaths _ _ hitems, hskip, hi, hgit⟩

theorem toolTargetKey_eq_iff {a b : ToolCall} {key : Text} (hkey : toolTargetKey a = some key) :
    toolTargetKey b = some key ↔ b.name = a.name ∧ toolTarget b = toolTarget a := by
  obtain ⟨target, htarget, rfl⟩ := Option.map_eq_some_iff.mp hkey
  rw [toolTargetKey, Option.map_eq_some_iff, htarget]
  constructor
  · rintro ⟨target', htarget', hsame⟩
    obtain ⟨hname, rfl⟩ := keyTuple_inj (stringify_inj.mp hsame)
    exact ⟨hname, htarget'⟩
  · rintro ⟨hname, htarget'⟩
    exact ⟨target, htarget', by rw [hname]⟩

def Target.path? : Target → Option Text
  | .path target => some target
  | _ => none

theorem toolCallPath_of_toolTarget {call : ToolCall} {target : Target}
    (h : toolTarget call = some target) : toolCallPath call = target.path? := by
  unfold toolTarget at h
  split at h
  · next path hpath =>
    cases h
    exact hpath
  · next hpath =>
    rw [hpath]
    split at h
    · cases h
      rfl
    · obtain ⟨pattern, -, rfl⟩ := Option.map_eq_some_iff.mp h
      rfl

end Vibrato.Pruning
