import Vibrato.Pruning.TargetKey

/-! The files that an edit touches: as its call names them, in groups of one hunk each, and as its
result reports them. -/

namespace Vibrato.Pruning

open Text

def EDIT_TOOL_NAMES : List Text :=
  ["edit".toList, "write".toList, "apply_patch".toList, "ast_edit".toList]

def isEditToolCall (call : ToolCall) : Bool :=
  call.name ∈ EDIT_TOOL_NAMES || call.customWireName = some "apply_patch".toList

inductive PatchHeader where
  | file
  | moveTo

/-- `APPLY_PATCH_HEADER` on one line: the kind of the header and the text behind it. -/
def patchHeader? (line : Text) : Option (PatchHeader × Text) :=
  let heads := [(PatchHeader.file, "*** Add File: ".toList), (.file, "*** Update File: ".toList),
    (.file, "*** Delete File: ".toList), (.moveTo, "*** Move to: ".toList)]
  (heads.find? fun head => startsWith line head.2 && head.2.length < line.length).map
    fun head => (head.1, line.drop head.2.length)

variable (groups : List (List Text))

/-- The path of a header joins the group before it if it is the destination of a move. -/
def pushHeader (header : PatchHeader × Text) : List (List Text) :=
  let headerPath := trim header.2
  if headerPath.isEmpty then groups
  else
    match header.1, groups.getLast? with
    | .moveTo, some last => groups.dropLast ++ [last ++ [headerPath]]
    | _, _ => groups ++ [[headerPath]]

def editToolPathGroups (call : ToolCall) : List (List Text) :=
  match toolCallPath call with
  | some path => [[path]]
  | none =>
    match argument? call "input".toList with
    | some (.str input) =>
      ((input.splitOnP isLineTerminator).filterMap patchHeader?).foldl pushHeader []
    | _ => []

/-- `[...texts].sort()`: by UTF-16 code units. -/
def sortTexts (texts : List Text) : List Text :=
  texts.mergeSort fun a b => decide (utf16 a ≤ utf16 b)

def pathGroupKey (group : List Text) : Text := Json.stringify (.arr ((sortTexts group).map .str))

def pathHintsForGroups : List Text :=
  sortTexts groups.flatten.eraseDups

theorem mem_of_pathGroupKey_eq {group group' : List Text}
    (h : pathGroupKey group = pathGroupKey group')
    {path : Text} (hmem : path ∈ group) : path ∈ group' := by
  have hsorted : sortTexts group = sortTexts group' := by
    have hitems := Json.arr.inj (Json.stringify_inj.mp h)
    exact List.map_injective_iff.mpr (fun _ _ hstr => Json.str.inj hstr) hitems
  have hmem' : path ∈ sortTexts group := List.mem_mergeSort.mpr hmem
  rw [hsorted] at hmem'
  exact List.mem_mergeSort.mp hmem'

def appliedFiles? (details : Option Json) : Option (List Text) :=
  match details.bind (·.get? "applied".toList), details.bind (·.get? "files".toList) with
  | some (.bool true), some (.arr files) => some (files.filterMap (nonEmptyString? ∘ some))
  | _, _ => none

variable (message : ToolResultMessage)

def resultDetailFiles : List Text :=
  match appliedFiles? message.details with
  | some files => files
  | none =>
    (appliedFiles? (message.details.bind (·.get? "sourceResultDetails".toList))).getD []

def successfulPath? (row : Json) : Option Text :=
  match row.get? "path".toList, row.get? "isError".toList, row.get? "diff".toList with
  | some (.str path), some (.bool false), _ => some path
  | some (.str path), none, some (.str _) => some path
  | _, _, _ => none

def successfulEditPaths : Option (List Text) :=
  match message.details.bind (·.get? "perFileResults".toList) with
  | some (.arr rows) => some (rows.filterMap successfulPath?)
  | _ => none

/-- A result without per-file rows stands for all groups, another one for those it reports. -/
def groupSucceeded (group : List Text) : Bool :=
  match successfulEditPaths message with
  | none => true
  | some paths => group.any (· ∈ paths)

def readResolvedPath : Option Text :=
  nonEmptyString? (message.details.bind (·.get? "resolvedPath".toList))

end Vibrato.Pruning
