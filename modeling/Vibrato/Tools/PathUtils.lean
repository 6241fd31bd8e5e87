import Vibrato.Text

/-! `tools/path-utils.ts`: how a path given to a tool becomes an absolute path. -/

namespace Vibrato.Tools

open Text

structure PathEnv where
  home : Text
  processCwd : Text
  fileURLToPath : Text → Option Text

/-- `assertNotInternalUrl` throws with the prefix it found. -/
inductive PathError where
  | internalUrl (original found : Text)

def PathError.message : PathError → Text
  | internalUrl original
      found => "Path \"".toList ++ original ++ "\" uses internal scheme \"".toList ++
      found ++ ("\" and must be resolved through the proper protocol handler, not as a " ++
        "filesystem path.").toList

def isAbsolute (p : Text) : Bool := p.head? = some '/'

/-- `path.win32.isAbsolute`. -/
def isAbsoluteWin32 : Text → Bool
  | '/' :: _ => true
  | '\\' :: _ => true
  | c :: ':' :: d :: _ => c.isAlpha && (d = '/' || d = '\\')
  | _ => false

variable (allowAboveRoot : Bool)

/-- One segment of `normalizeString`: `stack` holds the segments kept so far, the last first. -/
def pushSegment (stack : List Text) (segment : Text) : List Text :=
  if segment = [] ∨ segment = ['.'] then stack
  else if segment = ['.', '.'] then
    match stack with
    | last :: below => if last = ['.', '.'] then segment :: stack else below
    | [] => if allowAboveRoot then [segment] else []
  else segment :: stack

def normalizeSegments (p : Text) : List Text :=
  ((p.splitOn '/').foldl (pushSegment allowAboveRoot) []).reverse

def normalize (p : Text) : Text :=
  let body := ['/'].intercalate (normalizeSegments (!isAbsolute p) p)
  let trailing : Text := if p.getLast? = some '/' then ['/'] else []
  if p = [] then ['.']
  else if isAbsolute p then (if body = [] then ['/'] else '/' :: (body ++ trailing))
  else if body = [] then '.' :: trailing
  else body ++ trailing

/-- `path.join(a, b)`. -/
def join (a b : Text) : Text :=
  normalize (['/'].intercalate ([a, b].filter (· ≠ [])))

variable (env : PathEnv)

/-- `path.resolve(cwd, p)`: the last absolute path among the process directory, `cwd`, and `p`,
with what follows it. -/
def resolve (cwd p : Text) : Text :=
  let parts :=
    if isAbsolute p then [p]
    else if isAbsolute cwd then [cwd, p]
    else [env.processCwd, cwd, p]
  '/' :: ['/'].intercalate (normalizeSegments false (['/'].intercalate parts))

/-- `a` and `b` without the segments they start with in common. -/
def dropCommon : List Text → List Text → List Text × List Text
  | a :: as, b :: bs => if a = b then dropCommon as bs else (a :: as, b :: bs)
  | as, bs => (as, bs)

/-- `path.relative` on resolved paths. -/
def relative (start target : Text) : Text :=
  let (up, down) := dropCommon (normalizeSegments false start) (normalizeSegments false target)
  ['/'].intercalate (up.map (fun _ => "..".toList) ++ down)

/-- `path.basename`: the last segment that is not empty. -/
def basename (p : Text) : Text := ((p.splitOn '/').filter (· ≠ [])).getLastD []

def isUnicodeSpace (c : Char) : Bool :=
  let n := c.toNat
  n == 0xA0 || (0x2000 ≤ n && n ≤ 0x200A) || n == 0x202F || n == 0x205F || n == 0x3000

def normalizeUnicodeSpaces (p : Text) : Text := p.map fun c => if isUnicodeSpace c then ' ' else c

def normalizeAtPrefix : Text → Text
  | '@' :: withoutAt =>
    if startsWith withoutAt "/".toList || withoutAt == "~".toList ||
        startsWith withoutAt "~/".toList || isAbsoluteWin32 withoutAt ||
        startsWith withoutAt "agent://".toList ||
        startsWith withoutAt "artifact://".toList ||
        startsWith withoutAt "rule://".toList ||
        startsWith withoutAt "local:".toList then withoutAt
    else '@' :: withoutAt
  | p => p

def stripFileUrl (p : Text) : Text :=
  if startsWith (p.map Char.toLower) "file://".toList then (env.fileURLToPath p).getD p else p

def expandTilde : Text → Text
  | ['~'] => env.home
  | '~' :: '/' :: rest => env.home ++ '/' :: rest
  | '~' :: '\\' :: rest => env.home ++ '\\' :: rest
  | '~' :: rest => join env.home rest
  | p => p

variable (p : Text)

def expandPath : Text :=
  expandTilde env (stripFileUrl env (normalizeUnicodeSpaces (normalizeAtPrefix p)))

/-- `local:/x` becomes `local://x`. -/
def normalizeLocalScheme : Text :=
  if startsWith p "local:/".toList && !startsWith p "local://".toList then
    "local://".toList ++ p.drop 7
  else p

def TOP_LEVEL_INTERNAL_URL_PREFIXES : List Text :=
  ["agent://".toList, "artifact://".toList, "rule://".toList, "local://".toList]

def assertNotInternalUrl (expanded original : Text) : Except PathError Unit :=
  match TOP_LEVEL_INTERNAL_URL_PREFIXES.find? (startsWith expanded) with
  | some found => .error (.internalUrl original found)
  | none => .ok ()

/-- `resolveToCwd`: a path of slashes alone is the working directory. -/
def resolveToCwd (filePath cwd : Text) : Except PathError Text := do
  let normalized := normalizeLocalScheme filePath
  let expanded := expandPath env normalized
  assertNotInternalUrl (normalizeLocalScheme expanded) normalized
  if expanded ≠ [] ∧ expanded.all (· = '/') = true then return cwd
  else if isAbsolute expanded then return expanded
  else return resolve env cwd expanded

end Vibrato.Tools
