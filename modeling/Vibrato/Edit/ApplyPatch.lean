import Vibrato.Edit.Diff
import Vibrato.Tools.PathUtils

/-! `edit/apply-patch/parser.ts`, the parser of `*** Begin Patch` envelopes, and the file operations
of `edit/modes/patch.ts` that run what it returns. -/

namespace Vibrato.Edit

open List Text Function

inductive Operation where
  | create
  | delete
  | update
  deriving DecidableEq

structure PatchInput where
  path : Text
  op : Operation
  rename : Option Text
  diff : Option Text
  deriving DecidableEq

def BEGIN_PATCH_MARKER : Text := "*** Begin Patch".toList
def END_PATCH_MARKER : Text := "*** End Patch".toList
def ADD_FILE_MARKER : Text := "*** Add File: ".toList
def DELETE_FILE_MARKER : Text := "*** Delete File: ".toList
def UPDATE_FILE_MARKER : Text := "*** Update File: ".toList
def MOVE_TO_MARKER : Text := "*** Move to: ".toList

def HEREDOC_OPENERS : List Text := ["<<EOF".toList, "<<'EOF'".toList, "<<\"EOF\"".toList]

def stripHeredoc (lines : List Text) : List Text :=
  if 2 ≤ lines.length ∧ lines.head?.any (· ∈ HEREDOC_OPENERS) = true ∧
      lines.getLast?.any (fun last => trim last = "EOF".toList) = true then
    lines.tail.dropLast
  else lines

def takeAdded : List Text → Text × List Text
  | ('+' :: text) :: rest =>
    let (contents, rest) := takeAdded rest
    (text ++ '\n' :: contents, rest)
  | rest => ([], rest)

def isFileOpLine (line : Text) : Bool :=
  ["*** Add File:".toList, "*** Delete File:".toList, "*** Update File:".toList].any
    (startsWith line)

def takeMove : List Text → Option Text × List Text
  | line :: rest =>
    if startsWith line MOVE_TO_MARKER then (some (line.drop MOVE_TO_MARKER.length), rest)
    else (none, line :: rest)
  | [] => (none, [])

/-- The loop of `parseApplyPatchWithOptions` from line `lineNumber` on.  Each round takes at least
one line. -/
def parsePatchOps (streaming : Bool) : Nat → Nat → List Text → Except DiffError (List PatchInput)
  | 0, _, _ => .ok []
  | _, _, [] => .ok []
  | fuel + 1, lineNumber, line :: rest =>
    let firstLine := trim line
    if isBlank line then parsePatchOps streaming fuel (lineNumber + 1) rest
    else if startsWith firstLine ADD_FILE_MARKER then do
      let (contents, next) := takeAdded rest
      let later ← parsePatchOps streaming fuel (lineNumber + 1 + (rest.length - next.length)) next
      return ⟨firstLine.drop ADD_FILE_MARKER.length, .create, none, some contents⟩ :: later
    else if startsWith firstLine DELETE_FILE_MARKER then do
      let later ← parsePatchOps streaming fuel (lineNumber + 1) rest
      return ⟨firstLine.drop DELETE_FILE_MARKER.length, .delete, none, none⟩ :: later
    else if startsWith firstLine UPDATE_FILE_MARKER then do
      let path := firstLine.drop UPDATE_FILE_MARKER.length
      let (movePath, body) := takeMove rest
      let diffLines := body.takeWhile (!isFileOpLine ·)
      let next := body.dropWhile (!isFileOpLine ·)
      let nextLineNumber := lineNumber + 1 + (rest.length - next.length)
      if diffLines = [] ∧ streaming = false then
        .error (.parse ("Update file hunk for path '".toList ++ path ++ "' is empty".toList)
          (some nextLineNumber))
      let later ← parsePatchOps streaming fuel nextLineNumber next
      return ⟨path, .update, movePath, some (joinLines diffLines)⟩ :: later
    else if streaming then .ok []
    else .error (.parse ("'".toList ++ firstLine ++ ("' is not a valid hunk header. Valid hunk " ++
      "headers: '*** Add File: \x7bpath\x7d', '*** Delete File: \x7bpath\x7d', " ++
      "'*** Update File: \x7bpath\x7d'").toList) (some lineNumber))

variable (patchText : Text) {content : Text}

def parseApplyPatchWithOptions (streaming : Bool) : Except DiffError (List PatchInput) :=
  let lines := stripHeredoc (splitLines (trim patchText))
  let hasBeginMarker := lines.head?.any fun line => trim line = BEGIN_PATCH_MARKER
  let hasEndMarker := lines.getLast?.any fun line => trim line = END_PATCH_MARKER
  if hasBeginMarker = false then
    if streaming then .ok []
    else .error (.parse "The first line of the patch must be '*** Begin Patch'".toList none)
  else if hasEndMarker = false ∧ streaming = false then
    .error (.parse "The last line of the patch must be '*** End Patch'".toList none)
  else
    let remaining := if hasEndMarker then lines.tail.dropLast else lines.tail
    parsePatchOps streaming remaining.length 2 remaining

def parseApplyPatch : Except DiffError (List PatchInput) :=
  parseApplyPatchWithOptions patchText false

def parseApplyPatchStreaming : Except DiffError (List PatchInput) :=
  parseApplyPatchWithOptions patchText true

/-- The content of each absolute path that exists. -/
abbrev FileSystem := Text → Option Text

inductive PatchError where
  | diff (error : DiffError)
  | path (error : Tools.PathError)

structure FileChange where
  type : Operation
  path : Text
  newPath : Option Text
  oldContent : Option Text
  newContent : Option Text

/-- What `applyPatch` reads besides the files: the directory it runs in, and the matching of hunks
against a content, which returns the content to write. -/
structure PatchEnv where
  paths : Tools.PathEnv
  cwd : Text
  applyHunks : Text → List DiffHunk → Except DiffError Text

def applyPatchError {α : Type} (message : String) : Except PatchError α :=
  .error (.diff (.applyPatch message.toList))

section Apply

variable (env : PatchEnv)

def resolvePath (p : Text) : Except PatchError Text :=
  (Tools.resolveToCwd env.paths p env.cwd).mapError .path

def readExistingPatchFile (fs : FileSystem) (absolutePath path : Text) : Except PatchError Text :=
  match fs absolutePath with
  | some content => .ok content
  | none => .error (.diff (.applyPatch ("File not found: ".toList ++ path)))

def createContent (diff : Text) : Text :=
  let normalizedContent := normalizeCreateContent diff
  if normalizedContent.getLast? = some '\n' then normalizedContent else normalizedContent ++ ['\n']

/-- `applyNormalizedPatch` without other writers, for which the commit-time comparison succeeds. -/
def applyNormalizedPatch (input : PatchInput) (fs : FileSystem) :
    Except PatchError (FileChange × FileSystem) := do
  let absolutePath ← resolvePath env input.path
  let destPath ←
    match input.rename.filter (· ≠ []) with
    | none => pure absolutePath
    | some target => do
      let destPath ← resolvePath env target
      if destPath = absolutePath then applyPatchError "rename path is the same as source path"
      else pure destPath
  match input.op with
  | .create =>
    match input.diff with
    | none | some [] => applyPatchError "Create operation requires diff (file content)"
    | some diff =>
      let content := createContent diff
      return (⟨.create, absolutePath, none, none, some content⟩,
        update fs absolutePath (some content))
  | .delete =>
    let oldContent ← readExistingPatchFile fs absolutePath input.path
    return (⟨.delete, absolutePath, none, some oldContent, none⟩, update fs absolutePath none)
  | .update =>
    match input.diff with
    | none | some [] => applyPatchError "Update operation requires diff (hunks)"
    | some diff =>
      let originalContent ← readExistingPatchFile fs absolutePath input.path
      let hunks ← (parseDiffHunks diff).mapError .diff
      if hunks = [] then applyPatchError "Diff contains no hunks"
      let finalContent ← (env.applyHunks originalContent hunks).mapError .diff
      let written := update fs destPath (some finalContent)
      if destPath = absolutePath then
        return (⟨.update, absolutePath, none, some originalContent, some finalContent⟩, written)
      else
        return (⟨.update, absolutePath, some destPath, some originalContent, some finalContent⟩,
          update written absolutePath none)

def applyPatches : List PatchInput → FileSystem → Except PatchError (List FileChange × FileSystem)
  | [], fs => .ok ([], fs)
  | input :: inputs, fs => do
    let (change, fs) ← applyNormalizedPatch env input fs
    let (changes, fs) ← applyPatches inputs fs
    return (change :: changes, fs)

/-- `applyCodexPatch`: parse an envelope and run what it holds. -/
def applyCodexPatch (patchText : Text) (fs : FileSystem) :
    Except PatchError (List FileChange × FileSystem) := do
  let hunks ← (parseApplyPatch patchText).mapError .diff
  if hunks = [] then applyPatchError "No files were modified."
  else applyPatches env hunks fs

end Apply

def contentLines (content : Text) : List Text := (splitLines content).dropLast

/-- The lines of an envelope that adds the file `p`. -/
def addFileLines (p content : Text) : List Text :=
  BEGIN_PATCH_MARKER :: (ADD_FILE_MARKER ++ p) :: (contentLines content).map ('+' :: ·) ++
    [END_PATCH_MARKER]

def addFileEnvelope (p content : Text) : Text := joinLines (addFileLines p content)

/-- A content whose lines read as added lines of a diff: it has a line that is not empty, and all
such lines start with `+`. -/
def ReadsAsAdditions (content : Text) : Prop :=
  (∃ line ∈ splitLines content, line ≠ []) ∧ ∀ line ∈ splitLines content, line ≠ [] →
    line.head? = some '+'

instance (content : Text) : Decidable (ReadsAsAdditions content) :=
  inferInstanceAs (Decidable (_ ∧ _))

theorem splitLines_of_getLast_newline (hlast : content.getLast? = some '\n') :
    splitLines content = contentLines content ++ [[]] ∧ contentLines content ≠ [] := by
  obtain ⟨init, rfl⟩ := getLast?_eq_some_iff.1 hlast
  have hlines := splitLines_append_newline init
  rw [contentLines, hlines, dropLast_concat]
  exact ⟨rfl, splitOn_ne_nil '\n' init⟩

theorem takeAdded_map (lines : List Text) (hne : lines ≠ []) :
    takeAdded (lines.map ('+' :: ·)) = (joinLines (lines ++ [[]]), []) := by
  induction lines with
  | nil => exact absurd rfl hne
  | cons line lines ih =>
    cases lines with
    | nil => simp [takeAdded, joinLines]
    | cons next lines =>
      rw [map_cons, takeAdded, ih (by simp)]
      simp only [joinLines, cons_append]
      simp

theorem addFileLines_markers (p content : Text) :
    stripHeredoc (addFileLines p content) = addFileLines p content ∧
      (addFileLines p content).head? = some BEGIN_PATCH_MARKER ∧
      (addFileLines p content).getLast? = some END_PATCH_MARKER ∧
      (addFileLines p content).tail.dropLast =
        (ADD_FILE_MARKER ++ p) :: (contentLines content).map ('+' :: ·) := by
  have hhead : (addFileLines p content).head? = some BEGIN_PATCH_MARKER := rfl
  refine ⟨?_, hhead, ?_, ?_⟩
  · rw [stripHeredoc, hhead, if_neg fun hopen => absurd hopen.2.1 (by decide)]
  · rw [addFileLines, getLast?_concat]
  · rw [addFileLines, cons_append, tail_cons, dropLast_concat]

section AddFile

variable {p content : Text} (hp : '\n' ∉ p) (hblank : isBlank p = false)
    (hlast : content.getLast? = some '\n')

include hp in
theorem splitLines_addFileEnvelope :
    splitLines (trim (addFileEnvelope p content)) = addFileLines p content := by
  have htrim : trim (addFileEnvelope p content) = addFileEnvelope p content := by
    apply trim_eq_self
    · rfl
    · rw [addFileEnvelope, addFileLines, joinLines_concat (by simp), getLast?_append]
      rfl
  rw [htrim]
  refine splitLines_joinLines (by simp [addFileLines]) ?_
  intro line hline
  simp only [addFileLines, cons_append, mem_cons, mem_append, mem_map, not_mem_nil,
    or_false] at hline
  rcases hline with rfl | rfl | ⟨source, hsource, rfl⟩ | rfl
  · decide
  · rw [mem_append, not_or]
    exact ⟨by decide, hp⟩
  · have hmem := newline_not_mem_of_mem_splitLines
      ((dropLast_sublist _).subset hsource)
    simpa using hmem
  · decide

include hblank hlast in
theorem parsePatchOps_addFile :
    parsePatchOps false ((contentLines content).length + 1) 2
      ((ADD_FILE_MARKER ++ p) :: (contentLines content).map ('+' :: ·)) =
      .ok [⟨trimEnd p, .create, none, some content⟩] := by
  obtain ⟨hsplit, hne⟩ := splitLines_of_getLast_newline hlast
  have hcontent : joinLines (contentLines content ++ [[]]) = content := by
    rw [← hsplit, joinLines_splitLines]
  have hfirst : trim (ADD_FILE_MARKER ++ p) = ADD_FILE_MARKER ++ trimEnd p := by
    rw [← trimEnd_append_of_not_isBlank ADD_FILE_MARKER hblank]
    rfl
  have hlineBlank : isBlank (ADD_FILE_MARKER ++ p) = false := rfl
  have hstart : startsWith (ADD_FILE_MARKER ++ trimEnd p) ADD_FILE_MARKER = true := by
    rw [startsWith, isPrefixOf_iff_prefix]
    exact prefix_append _ _
  rw [parsePatchOps]
  simp only [hlineBlank, hfirst, hstart, takeAdded_map _ hne, hcontent, drop_left,
    Bool.false_eq_true, if_false, if_true]
  cases (contentLines content).length <;> rfl

include hp hblank hlast in
theorem parseApplyPatch_addFileEnvelope :
    parseApplyPatch (addFileEnvelope p content) =
      .ok [⟨trimEnd p, .create, none, some content⟩] := by
  obtain ⟨hheredoc, hhead, hlast', hrest⟩ := addFileLines_markers p content
  have hbegin : trim BEGIN_PATCH_MARKER = BEGIN_PATCH_MARKER := rfl
  have hend : trim END_PATCH_MARKER = END_PATCH_MARKER := rfl
  simp only [parseApplyPatch, parseApplyPatchWithOptions, splitLines_addFileEnvelope hp, hheredoc,
    hhead, hlast', hrest, hbegin, hend, Option.any_some, decide_true, Bool.true_eq_false,
    false_and, if_true, if_false, length_cons, length_map]
  exact parsePatchOps_addFile hblank hlast

end AddFile

theorem stripPlus_ne {line : Text} (hline : line.head? = some '+') : stripPlus line ≠ line := by
  obtain ⟨rest, rfl⟩ := head?_eq_some_iff.1 hline
  intro heq
  have hlength := congrArg List.length heq
  unfold stripPlus at hlength
  split at hlength
  · simp_all
    omega
  · simp_all
  · simp_all

theorem stripPlus_sublist (line : Text) : (stripPlus line).Sublist line := by
  unfold stripPlus
  split <;> simp

theorem normalizeCreateContent_of_not (h : ¬ReadsAsAdditions content) :
    normalizeCreateContent content = content := by
  refine if_neg fun hcond => h ?_
  obtain ⟨hne, hall⟩ := hcond
  obtain ⟨line, hline⟩ := exists_mem_of_ne_nil _ hne
  refine ⟨⟨line, by simpa using hline⟩, fun line hline hnonempty => ?_⟩
  have hstart := all_eq_true.1 hall line (mem_filter.2 ⟨hline, by simpa using hnonempty⟩)
  cases line with
  | nil => exact absurd rfl hnonempty
  | cons c rest =>
    have hplus : '+' = c := by simpa using hstart
    rw [head?_cons, hplus]

theorem normalizeCreateContent_of_readsAsAdditions (h : ReadsAsAdditions content) :
    normalizeCreateContent content = joinLines ((splitLines content).map stripPlus) := by
  obtain ⟨⟨line, hline, hne⟩, hall⟩ := h
  refine if_pos ⟨ne_nil_of_mem (mem_filter.2 ⟨hline, by simpa using hne⟩), ?_⟩
  rw [all_eq_true]
  intro line hline
  obtain ⟨hmem, hnonempty⟩ := mem_filter.1 hline
  obtain ⟨rest, rfl⟩ := head?_eq_some_iff.1 (hall line hmem (by simpa using hnonempty))
  simp

theorem createContent_eq_iff (hlast : content.getLast? = some '\n') :
    createContent content = content ↔ ¬ReadsAsAdditions content := by
  constructor
  · intro heq hreads
    obtain ⟨hsplit, hne⟩ := splitLines_of_getLast_newline hlast
    have hstripped := normalizeCreateContent_of_readsAsAdditions hreads
    have hend : (normalizeCreateContent content).getLast? = some '\n' := by
      rw [hstripped, hsplit, map_append, map_singleton,
        show stripPlus [] = [] from rfl, joinLines_concat (by simpa using hne),
        getLast?_concat]
    rw [createContent, if_pos hend, hstripped] at heq
    have hlines := congrArg splitLines heq
    rw [splitLines_joinLines (by simp [hsplit])] at hlines
    · obtain ⟨⟨line, hline, hnonempty⟩, hall⟩ := hreads
      refine stripPlus_ne (hall line hline hnonempty) ?_
      exact map_eq_map_iff.1 (hlines.trans (map_id _).symm) line hline
    · intro line hline
      obtain ⟨source, hsource, rfl⟩ := mem_map.1 hline
      intro hmem
      exact newline_not_mem_of_mem_splitLines hsource
        ((stripPlus_sublist source).subset hmem)
  · intro hreads
    rw [createContent, normalizeCreateContent_of_not hreads, if_pos hlast]

/-- An envelope that adds a file with a content of whole lines writes exactly that content if and
only if the content does not read as additions itself. -/
theorem applyCodexPatch_addFile (env : PatchEnv) (fs : FileSystem) (p content absolutePath : Text)
    (hp : '\n' ∉ p) (hblank : isBlank p = false)
    (hresolve : resolvePath env (trimEnd p) = .ok absolutePath)
    (hlast : content.getLast? = some '\n') :
    applyCodexPatch env (addFileEnvelope p content) fs =
        .ok ([⟨.create, absolutePath, none, none, some content⟩],
          update fs absolutePath (some content)) ↔
      ¬ReadsAsAdditions content := by
  have hcreate : applyCodexPatch env (addFileEnvelope p content) fs =
      .ok ([⟨.create, absolutePath, none, none, some (createContent content)⟩],
        update fs absolutePath (some (createContent content))) := by
    rw [applyCodexPatch, parseApplyPatch_addFileEnvelope hp hblank hlast]
    cases content with
    | nil => simp at hlast
    | cons c rest =>
      simp [Except.mapError, bind, Except.bind, applyPatches, applyNormalizedPatch, hresolve, pure,
        Except.pure]
  rw [hcreate, ← createContent_eq_iff hlast]
  constructor
  · intro heq
    simp only [Except.ok.injEq, Prod.mk.injEq, List.cons.injEq, FileChange.mk.injEq,
      Option.some.injEq, true_and, and_true] at heq
    exact heq.1
  · intro heq
    rw [heq]

/-- A process in `/w`, whose inputs hold no file URLs and no hunks. -/
def exampleEnv : PatchEnv where
  paths := ⟨"/home/u".toList, "/w".toList, fun _ => none⟩
  cwd := "/w".toList
  applyHunks := fun content _ => .ok content

theorem applyCodexPatch_addFile_greeting :
    applyCodexPatch exampleEnv (addFileEnvelope "a.txt".toList "hello\n\n+x\n".toList)
        (fun _ => none) =
      .ok ([⟨.create, "/w/a.txt".toList, none, none, some "hello\n\n+x\n".toList⟩],
        update (fun _ => none) "/w/a.txt".toList (some "hello\n\n+x\n".toList)) :=
  (applyCodexPatch_addFile exampleEnv (fun _ => none) "a.txt".toList "hello\n\n+x\n".toList
    "/w/a.txt".toList (by decide) (by decide) (by rfl) (by decide)).2 (by decide)

/-- The content `+x` is written as `x`. -/
theorem applyCodexPatch_addFile_strips_twice :
    ¬ ∀ (env : PatchEnv) (fs : FileSystem) (p content absolutePath : Text), '\n' ∉ p →
      isBlank p = false → resolvePath env (trimEnd p) = .ok absolutePath →
      content.getLast? = some '\n' →
      applyCodexPatch env (addFileEnvelope p content) fs =
        .ok ([⟨.create, absolutePath, none, none, some content⟩],
          update fs absolutePath (some content)) := by
  intro hall
  have hwritten := hall exampleEnv (fun _ => none) "a.txt".toList "+x\n".toList "/w/a.txt".toList
    (by decide) (by decide) (by rfl) (by decide)
  have hactual : (applyCodexPatch exampleEnv (addFileEnvelope "a.txt".toList "+x\n".toList)
      (fun _ => none)).map Prod.fst =
      .ok [⟨.create, "/w/a.txt".toList, none, none, some "x\n".toList⟩] := by rfl
  rw [hwritten] at hactual
  simp [Except.map] at hactual

end Vibrato.Edit
