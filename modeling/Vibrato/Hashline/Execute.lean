import Vibrato.Hashline.Apply
import Vibrato.Hashline.Input
import Vibrato.Edit.Normalize
import Vibrato.Lib.Lru

/-! `hashline/execute.ts`: the sections of an input are checked one after the other against the
files as they are, and then applied one after the other. -/

namespace Vibrato.Hashline

/-- The lines of a file that the model has seen, by line number. -/
abbrev FileReadSnapshot := List (Nat × Text)

def MAX_PATHS_PER_SESSION : Nat := 30

abbrev FileReadCache := Lru Text FileReadSnapshot MAX_PATHS_PER_SESSION

namespace FileReadSnapshot

variable (snapshot : FileReadSnapshot)

def line? (line : Nat) : Option Text :=
  (snapshot.find? (·.1 = line)).map Prod.snd

def setLine (entry : Nat × Text) : FileReadSnapshot :=
  if (snapshot.line? entry.1).isSome then
    snapshot.map fun old => if old.1 = entry.1 then entry else old
  else snapshot ++ [entry]

def hasConflict (incoming : List (Nat × Text)) : Bool :=
  incoming.any fun entry => (snapshot.line? entry.1).any (· ≠ entry.2)

/-- What a file's snapshot becomes when `entries` are read: they replace a snapshot they
contradict. -/
def record (existing : Option FileReadSnapshot) (entries : List (Nat × Text)) : FileReadSnapshot :=
  match existing with
  | none => entries
  | some snapshot =>
    if snapshot.hasConflict entries then entries else entries.foldl setLine snapshot

end FileReadSnapshot

/-- `recordContiguous` from the first line on. -/
def FileReadCache.recordLines (cache : FileReadCache) (absolutePath : Text) (lines : List Text) :
    FileReadCache :=
  let (existing, cache) := cache.get absolutePath
  cache.set absolutePath (FileReadSnapshot.record existing
    (lines.mapIdx fun i line => (i + 1, line)))

inductive HashlineError where
  | input (error : InputError)
  | path (error : Tools.PathError)
  | localUrl (message : Text)
  | parse (error : ParseError)
  | planMode (planFilePath : Text)
  | read (message : Text)
  | fileNotFound (path : Text)
  | notEditable (message : Text)
  | apply (error : ApplyError)
  | noChange (path : Text)
  | serialize (message : Text)

/-- What a session gives to its sections.  `planFile` is the plan file's path in plan mode, and
`fileOf` the file that an absolute path names.  Reading and serializing (which convert notebooks),
the guard of generated files, local URLs, and the three-way merge are parameters. -/
structure Session where
  paths : Tools.PathEnv
  cwd : Text
  planFile : Option Text
  autoDropPureInsertDuplicates : Bool
  fileOf : Text → Text
  resolveLocalUrlToPath : Text → Except Text Text
  readEditFileText : (absolutePath path raw : Text) → Except Text Text
  serializeEditFileText : (absolutePath path : Text) → (raw : Option Text) → Text → Except Text Text
  assertEditableFileContent : (content path : Text) → Except Text Unit
  merge : (previous applied current : Text) → Option Text

section Section

variable (session : Session)

variable (targetPath : Text)

def resolveRawPath : Except HashlineError Text :=
  let normalized := Tools.normalizeLocalScheme targetPath
  if Text.startsWith normalized "local:".toList then
    (session.resolveLocalUrlToPath normalized).mapError .localUrl
  else (Tools.resolveToCwd session.paths normalized session.cwd).mapError .path

def resolvePlanPath : Except HashlineError Text := do
  let resolved ← resolveRawPath session targetPath
  match session.planFile with
  | none => return resolved
  | some planFilePath =>
    let planResolved ← resolveRawPath session planFilePath
    if Tools.basename resolved = Tools.basename planResolved then return planResolved
    else return resolved

def enforcePlanModeWrite : Except HashlineError Unit :=
  match session.planFile with
  | none => .ok ()
  | some planFilePath => do
    let resolvedTarget ← resolvePlanPath session targetPath
    let resolvedPlan ← resolvePlanPath session planFilePath
    if resolvedTarget = resolvedPlan then return () else .error (.planMode planFilePath)

def hasAnchorScopedEdit (edits : List Edit) : Bool :=
  edits.any fun edit => (getAnchorTargetLine edit).isSome

def overlay (snapshot : FileReadSnapshot) (currentText : Text) : List Text :=
  let lines := Text.splitLines currentText
  let maxCachedLine := (snapshot.map Prod.fst).foldl max 0
  let padded := lines ++ List.replicate (maxCachedLine - lines.length) []
  snapshot.foldl (fun lines entry => lines.set (entry.1 - 1) entry.2) padded

variable (snapshot : Option FileReadSnapshot)

def tryRecoverHashlineWithCache (currentText : Text) (edits : List Edit) :
    Except ApplyError (Option Text) :=
  match snapshot with
  | none | some [] => .ok none
  | some snapshot =>
    let vouched := (edits.flatMap getHashlineEditAnchors).all fun anchor =>
      (snapshot.line? anchor.line).any fun line => computeLineHash line = anchor.hash
    let previousText := Text.joinLines (overlay snapshot currentText)
    if vouched = false ∨ previousText = currentText then .ok none
    else
      match applyHashlineEdits previousText edits session.autoDropPureInsertDuplicates with
      | .error (.mismatch _) => .ok none
      | .error error => .error error
      | .ok applied =>
        if applied.lines = previousText then .ok none
        else .ok ((session.merge previousText applied.lines currentText).filter (· ≠ currentText))

/-- Whether the anchors of the edits do not match the text, so that the cache is asked. -/
def isStale (text : Text) (edits : List Edit) : Bool :=
  match applyHashlineEdits text edits session.autoDropPureInsertDuplicates with
  | .error (.mismatch _) => true
  | _ => false

/-- The text after the edits.  `snapshot` is what the cache holds. -/
def applyOrRecover (text : Text) (edits : List Edit) : Except HashlineError Text :=
  match applyHashlineEdits text edits session.autoDropPureInsertDuplicates with
  | .ok result => .ok result.lines
  | .error (.mismatch mismatches) => do
    match ← (tryRecoverHashlineWithCache session snapshot text edits).mapError .apply with
    | some merged => return merged
    | none => .error (.apply (.mismatch mismatches))
  | .error error => .error (.apply error)

def applyHashlineEditsWithRecovery (cache : FileReadCache) (absolutePath text : Text)
    (edits : List Edit) : Except HashlineError Text × FileReadCache :=
  if isStale session text edits then
    let (snapshot, cache) := cache.get absolutePath
    (applyOrRecover session snapshot text edits, cache)
  else (applyOrRecover session none text edits, cache)

structure LoadedContent where
  edits : List Edit
  exists? : Bool
  bom : Text
  ending : Edit.LineEnding
  normalized : Text

structure LoadedSection extends LoadedContent where
  absolutePath : Text

/-- The content of a section's file, after the parse and the checks of the section.  `raw` is what
the file holds, if it exists. -/
def loadContent (absolutePath : Text) (raw : Option Text) (sec : HashlineInputSection) :
    Except HashlineError LoadedContent := do
  let (edits, _) ← (parseHashlineWithWarnings sec.diff).mapError .parse
  enforcePlanModeWrite session sec.path
  let rawContent ←
    match raw with
    | some raw => (session.readEditFileText absolutePath sec.path raw).mapError .read
    | none => pure []
  if raw = none ∧ hasAnchorScopedEdit edits = true then .error (.fileNotFound sec.path)
  if raw ≠ none then
    (session.assertEditableFileContent rawContent sec.path).mapError .notEditable
  let (bom, text) := Edit.stripBom rawContent
  return ⟨edits, raw.isSome, bom, Edit.detectLineEnding text, Edit.normalizeToLF text⟩

variable (files : Text → Option Text)

/-- What `preflightHashlineSection` and `executeHashlineSection` start with.  `files` gives the
content of each file. -/
def loadSection (sec : HashlineInputSection) : Except HashlineError LoadedSection := do
  let absolutePath ← resolvePlanPath session sec.path
  let content ← loadContent session absolutePath (files (session.fileOf absolutePath)) sec
  return { content with absolutePath }

structure ExecState where
  files : Text → Option Text
  cache : FileReadCache

def preflightHashlineSection (s : ExecState) (sec : HashlineInputSection) :
    Except HashlineError Unit × ExecState :=
  match loadSection session s.files sec with
  | .error error => (.error error, s)
  | .ok loaded =>
    let (result, cache) := applyHashlineEditsWithRecovery session s.cache loaded.absolutePath
      loaded.normalized loaded.edits
    (do if (← result) = loaded.normalized then .error (.noChange sec.path), { s with cache })

inductive SectionOutcome where
  | noChange
  | created
  | updated

structure SectionResult where
  path : Text
  outcome : SectionOutcome

/-- The content to write for a section whose edits leave `lines`. -/
def serializeSection (sec : HashlineInputSection)
    (loaded : LoadedSection) (lines : Text) : Except HashlineError Text :=
  (session.serializeEditFileText loaded.absolutePath sec.path
    (files (session.fileOf loaded.absolutePath))
    (loaded.bom ++ Edit.restoreLineEndings lines loaded.ending)).mapError .serialize

variable (s : ExecState)

def executeHashlineSection (sec : HashlineInputSection) :
    Except HashlineError SectionResult × ExecState :=
  match loadSection session s.files sec with
  | .error error => (.error error, s)
  | .ok loaded =>
    match applyHashlineEditsWithRecovery session s.cache loaded.absolutePath loaded.normalized
        loaded.edits with
    | (.error error, cache) => (.error error, { s with cache })
    | (.ok lines, cache) =>
      if lines = loaded.normalized then (.ok ⟨sec.path, .noChange⟩, { s with cache })
      else
        match serializeSection session s.files sec loaded lines with
        | .error error => (.error error, { s with cache })
        | .ok finalContent =>
          (.ok ⟨sec.path, if loaded.exists? then .updated else .created⟩,
            { files := Function.update s.files (session.fileOf loaded.absolutePath)
                (some finalContent)
              cache := cache.recordLines loaded.absolutePath (Text.splitLines lines) })

def preflightSections (s : ExecState) :
    List HashlineInputSection → Except HashlineError Unit × ExecState
  | [] => (.ok (), s)
  | sec :: sections =>
    match preflightHashlineSection session s sec with
    | (.error error, s) => (.error error, s)
    | (.ok (), s) => preflightSections s sections

def executeSections (s : ExecState) :
    List HashlineInputSection → Except HashlineError (List SectionResult) × ExecState
  | [] => (.ok [], s)
  | sec :: sections =>
    match executeHashlineSection session s sec with
    | (.error error, s) => (.error error, s)
    | (.ok result, s) =>
      let (results, s) := executeSections s sections
      (results.map (result :: ·), s)

def runSections (sections : List HashlineInputSection) :
    Except HashlineError (List SectionResult) × ExecState :=
  if sections.length = 1 then executeSections session s sections
  else
    match preflightSections session s sections with
    | (.error error, s) => (.error error, s)
    | (.ok (), s) => executeSections session s sections

def hashlineSections (input : Text) (path : Option Text) :
    Except HashlineError (List HashlineInputSection) :=
  ((splitHashlineInputs session.paths session.cwd input path).mapError .input).map
    mergeSamePathSections

def executeHashlineSingle (input : Text) (path : Option Text) :
    Except HashlineError (List SectionResult) × ExecState :=
  match hashlineSections session input path with
  | .error error => (.error error, s)
  | .ok sections => runSections session s sections

end Section

end Vibrato.Hashline
