import Vibrato.Edit.PatchSearch
import Mathlib.Data.List.Sort

/-! `computeReplacements` and `applyHunksToContent` of `edit/modes/patch.ts`.  Each hunk becomes a
replacement of whole lines. -/

namespace Vibrato.Edit

open Vibrato.Lib Text

structure Replacement where
  startIndex : Nat
  oldLen : Nat
  newLines : List Text
  deriving DecidableEq

def areEqualTrimmedLines (left right : List Text) : Bool := left.map trim = right.map trim

def getIndentChar (lines : List Text) : Char :=
  (lines.findSome? fun line => (getLeadingWhitespace line).head?).getD ' '

def alignedLines (patternLines actualLines : List Text) : List (Text × Text) :=
  (patternLines.zip actualLines).filter fun (patternLine, actualLine) =>
    !isBlank patternLine && !isBlank actualLine

def collectIndentDeltas (oldLines actualLines : List Text) : List Int :=
  (alignedLines oldLines actualLines).map fun (oldLine, actualLine) =>
    (countLeadingWhitespace actualLine : Int) - countLeadingWhitespace oldLine

def canConvertTabsToSpaces (oldLines actualLines : List Text) (spacesPerTab : Nat) : Bool :=
  (alignedLines oldLines actualLines).all fun (oldLine, actualLine) =>
    countLeadingWhitespace oldLine = 0 ||
      countLeadingWhitespace actualLine = countLeadingWhitespace oldLine * spacesPerTab

def indentedWithout (c : Char) (lines : List Text) : Bool :=
  lines.all fun line => isBlank line || c ∉ getLeadingWhitespace line

def isMixed (lines : List Text) : Bool :=
  lines.any fun line =>
    !isBlank line && ' ' ∈ getLeadingWhitespace line && '\t' ∈ getLeadingWhitespace line

/-- How many spaces stand for a tab, if it is the same number in all lines; zero as long as none
does. -/
def tabRatio : List (Text × Text) → Nat → Option Nat
  | [], ratio => some ratio
  | (patternLine, actualLine) :: aligned, ratio =>
    let patternIndent := countLeadingWhitespace patternLine
    let actualIndent := countLeadingWhitespace actualLine
    if patternIndent = 0 then tabRatio aligned ratio
    else if actualIndent % patternIndent ≠ 0 then none
    else
      let nextRatio := actualIndent / patternIndent
      if ratio = 0 then tabRatio aligned nextRatio
      else if ratio = nextRatio then tabRatio aligned ratio
      else none

/-- How many spaces the lines have that are indented with so many tabs, if that is consistent. -/
def tabSamples : List (Text × Text) → List (Nat × Nat) → Option (List (Nat × Nat))
  | [], samples => some samples
  | (patternLine, actualLine) :: aligned, samples =>
    let spaces := countLeadingWhitespace patternLine
    let tabs := countLeadingWhitespace actualLine
    if tabs = 0 then tabSamples aligned samples
    else
      match samples.lookup tabs with
      | some existing => if existing = spaces then tabSamples aligned samples else none
      | none => tabSamples aligned (samples ++ [(tabs, spaces)])

/-- The width of a tab and the offset: spaces are tabs times the width, and the offset. -/
def tabModel (samples : List (Nat × Nat)) : Option (Int × Int) :=
  match samples with
  | [] => none
  | [(tabs, spaces)] => if spaces % tabs = 0 then some (spaces / tabs, 0) else none
  | (t1, s1) :: (t2, s2) :: _ =>
    let rise := (s2 : Int) - s1
    let run := (t2 : Int) - t1
    if run = 0 ∨ rise % run ≠ 0 ∨ rise / run ≤ 0 then none
    else
      let width := rise / run
      let offset := (s1 : Int) - t1 * width
      if samples.all fun (t, s) => (t : Int) * width + offset = s then some (width, offset)
        else none

def convertSpacesToTabs (tabWidth offset : Int) (line : Text) : Text :=
  let ws := countLeadingWhitespace line
  if isBlank line || ws = 0 then line
  else
    let adjusted := (ws : Int) - offset
    let tabCount := adjusted / tabWidth
    let remainder := adjusted % tabWidth
    if 0 ≤ tabCount then
      List.replicate tabCount.toNat '\t' ++ List.replicate remainder.toNat ' ' ++ line.drop ws
    else line

/-- One new line, and the lines of which a copy was taken: a line that stands in the file as well is
taken from there, and another gets the common change of indentation. -/
def adjustNewLine (actualLines : List Text) (delta : Option Int) (patternMin : Nat)
    (indentChar : Char)
    (used : List Text) (newLine : Text) : Text × List Text :=
  let trimmed := trim newLine
  let matching := actualLines.filter fun line => !isBlank line && trim line = trimmed
  let added :=
    match delta with
    | some delta =>
      if delta ≠ 0 ∧ countLeadingWhitespace newLine = patternMin then
        indentLine delta indentChar newLine
      else newLine
    | none => newLine
  if isBlank newLine then (newLine, used)
  else
    match matching with
    | [] => (added, used)
    | [line] => (line, used)
    | _ :: _ :: _ =>
      if newLine ∈ matching then (newLine, used)
      else
        match matching[used.count trimmed]? with
        | some line => (line, trimmed :: used)
        | none => (added, used)

def adjustNewLines (actualLines : List Text) (delta : Option Int) (patternMin : Nat)
    (indentChar : Char) :
    List Text → List Text → List Text
  | _, [] => []
  | used, newLine :: newLines =>
    let (line, used) := adjustNewLine actualLines delta patternMin indentChar used newLine
    line :: adjustNewLines actualLines delta patternMin indentChar used newLines

def adjustLinesIndentation (patternLines actualLines newLines : List Text) : List Text :=
  if patternLines = [] ∨ actualLines = [] ∨ newLines = [] then newLines
  else if patternLines = actualLines then newLines
  else if areEqualTrimmedLines patternLines newLines then newLines
  else
    let indentChar := getIndentChar actualLines
    let aligned := alignedLines patternLines actualLines
    let plain := !isMixed patternLines && !isMixed actualLines
    let toSpaces :=
      if plain && indentedWithout ' ' patternLines && indentedWithout '\t' actualLines then
        (tabRatio aligned 0).filter fun ratio =>
          ratio ≠ 0 && canConvertTabsToSpaces patternLines actualLines ratio
      else none
    let toTabs :=
      if plain && indentedWithout '\t' patternLines && indentedWithout ' ' actualLines then
        ((tabSamples aligned []).bind tabModel).filter fun (tabWidth, _) => 0 < tabWidth
      else none
    match toSpaces, toTabs with
    | some ratio, _ => splitLines (convertLeadingTabsToSpaces (joinLines newLines) ratio)
    | none, some (tabWidth, offset) => newLines.map (convertSpacesToTabs tabWidth offset)
    | none, none =>
      let patternMin := ((patternLines.filter (!isBlank ·)).map countLeadingWhitespace).min?.getD 0
      let delta :=
        match collectIndentDeltas patternLines actualLines with
        | [] => none
        | delta :: deltas => if deltas.all (· = delta) then some delta else none
      adjustNewLines actualLines delta patternMin indentChar [] newLines

theorem adjustLinesIndentation_self (pattern newLines : List Text) :
    adjustLinesIndentation pattern pattern newLines = newLines := by
  unfold adjustLinesIndentation
  split
  · rfl
  · rw [if_pos rfl]

/-- The `ApplyPatchError`s of this file, with what their texts are made of. -/
inductive HunkError (R : Type) where
  | lineHint (lineHint : Nat)
  | insertionHint (lineHint : Nat) (lineCount : Nat)
  | contextNotFound (context : Text)
  | contextAmbiguous (context : Text) (result : ContextLineResult R)
  | linesNotFound (oldLines : List Text) (closest : Option (Nat × R))
  | linesAmbiguous (result : SequenceSearchResult R)
  | secondOccurrence (found second : Nat)
  | overlapping (prev next : Replacement)
  | occurrences (outcome : MatchOutcome R)
  | fuzzyMatches (outcome : MatchOutcome R)
  | noMatch (oldText : Text) (closest : Option (FuzzyMatch R))

section Hunks

variable {R : Type} [Score R]

variable (lines : List Text)

def findClosestSequenceMatch (pattern : List Text) (start : Nat) (eof : Bool) : Option (Nat × R) :=
  if pattern = [] then some (start, ((1 : Nat) : R))
  else if lines.length < pattern.length then none
  else
    let scored : SequenceFuzzyResult R := scoreSequenceFuzzy lines pattern start eof
    scored.index.map fun index => (index, scored.confidence)

/-- A hunk with a line number and neither a context nor context lines is looked for from there. -/
def hintedLineIndex (hunk : DiffHunk) (lineIndex : Nat) : Nat :=
  match hunk.oldStartLine with
  | none => lineIndex
  | some lineHint =>
    if hunk.changeContext = none ∧ hunk.hasContextLines = false then
      min (hintIndexOf lineHint) (lines.length - 1)
    else lineIndex

def fallbackVariants (hunk : DiffHunk) : List HunkVariant :=
  filterFallbackVariants (buildFallbackVariants hunk) (allowAggressiveFallbacks hunk)
where
  allowAggressiveFallbacks (hunk : DiffHunk) : Bool :=
    hunk.changeContext.isSome || hunk.oldStartLine.isSome || hunk.isEndOfFile

def locateContext (runtime : MatchRuntime R) (lines : List Text) (allowFuzzy : Bool)
    (hunk : DiffHunk)
    (lineIndex : Nat) : Except (HunkError R) (Nat × Option Nat) :=
  match hunk.changeContext with
  | none => .ok (lineIndex, none)
  | some changeContext =>
    let result :=
      findHierarchicalContext runtime lines changeContext lineIndex hunk.oldStartLine allowFuzzy
    let lastContext := (splitLines changeContext).getLastD []
    if result.isUnique then
      let index := result.index.getD 0
      let isHierarchicalContext :=
        '\n' ∈ changeContext ∨ 2 < (splitWords (trim changeContext)).length
      match hunk.oldLines with
      | firstOldLine :: _ =>
        if trim firstOldLine = trim lastContext ∨ isHierarchicalContext then .ok (index, some index)
        else .ok (index + 1, some index)
      | [] => .ok (index + 1, some index)
    else
      match attemptSequenceFallback runtime lines hunk lineIndex hunk.oldStartLine allowFuzzy
          (fallbackVariants.allowAggressiveFallbacks hunk) with
      | some fallback => .ok (fallback, result.index)
      | none =>
        if result.isAmbiguous then .error (.contextAmbiguous lastContext result)
        else .error (.contextNotFound (" > ".toList.intercalate (splitLines changeContext)))

def insertionIndex (hunk : DiffHunk) (lineIndex : Nat) : Except (HunkError R) Nat :=
  match hunk.changeContext, hunk.oldStartLine <|> hunk.newStartLine with
  | some _, _ => .ok lineIndex
  | none, some lineHint =>
    if lineHint < 1 ∨ lines.length + 1 < lineHint then .error (.insertionHint lineHint lines.length)
    else .ok (hintIndexOf lineHint)
  | none, none => .ok (if lines.getLast? = some [] then lines.length - 1 else lines.length)

/-- The lines that are looked for, those that replace them, and what was found. -/
structure HunkSearch (R : Type) where
  pattern : List Text
  newSlice : List Text
  result : SequenceSearchResult R

def searchLines (find : List Text → SequenceSearchResult R) (hunk : DiffHunk) : HunkSearch R :=
  let result := find hunk.oldLines
  if result.index.isNone = true ∧ hunk.oldLines.getLast? = some [] then
    let newSlice :=
      if hunk.newLines.getLast? = some [] then hunk.newLines.dropLast else hunk.newLines
    ⟨hunk.oldLines.dropLast, newSlice, find hunk.oldLines.dropLast⟩
  else ⟨hunk.oldLines, hunk.newLines, result⟩

def searchVariants (find : List Text → SequenceSearchResult R) (hunk : DiffHunk)
    (search : HunkSearch R) : HunkSearch R :=
  if search.result.isUnique then search
  else
    match findVariant find (fallbackVariants hunk) with
    | some (variant, result) => ⟨variant.oldLines, variant.newLines, result⟩
    | none => search

def searchAroundContext (hunk : DiffHunk) (contextIndex : Option Nat) (search : HunkSearch R) :
    HunkSearch R :=
  match contextIndex, search.result.index with
  | some contextIndex, none =>
    let adjacent := (fallbackVariants hunk).findSome? fun variant =>
      match variant.oldLines, variant.newLines with
      | [removedLine], [_] =>
        let hasSharedDuplicate := hunk.newLines.any fun line => trim line = trim removedLine
        (findContextRelativeMatch lines removedLine contextIndex hasSharedDuplicate).map
          (variant, ·)
      | _, _ => none
    match adjacent with
    | some (variant, index) =>
      ⟨variant.oldLines, variant.newLines, { index := some index, confidence := percent 95 }⟩
    | none => search
  | _, _ => search

def preferContext (hunk : DiffHunk) (contextIndex : Option Nat) (search : HunkSearch R) :
    HunkSearch R :=
  match contextIndex, search.result.index, search.pattern with
  | some contextIndex, some _, [patternLine] =>
    let trimmed := trim patternLine
    if 1 < lines.countP fun line => trim line = trimmed then
      let hasSharedDuplicate := hunk.newLines.any fun line => trim line = trimmed
      match findContextRelativeMatch lines patternLine contextIndex hasSharedDuplicate with
      | some index =>
          { search with result := { index := some index, confidence := search.result.confidence } }
      | none => search
    else search
  | _, _, _ => search

def preferHint (hunk : DiffHunk) (matchHint : Option Nat) (search : HunkSearch R) : HunkSearch R :=
  if search.result.isAmbiguous then
    let hintIndex := matchHint <|> hunk.oldStartLine.map hintIndexOf
    match chooseHintedMatch search.result.matchIndices hintIndex AMBIGUITY_HINT_WINDOW with
    | some index =>
        { search with result := { search.result with index := some index, matchCount := some 1 } }
    | none => search
  else search

def searchHunk (runtime : MatchRuntime R) (lines : List Text) (allowFuzzy : Bool) (hunk : DiffHunk)
    (lineIndex : Nat) (contextIndex : Option Nat) : HunkSearch R :=
  let matchHint := getHunkHintIndex hunk lineIndex
  let find (pattern : List Text) :=
    findSequenceWithHint runtime lines pattern lineIndex matchHint hunk.isEndOfFile allowFuzzy
  preferHint hunk matchHint
    (preferContext lines hunk contextIndex
      (searchAroundContext lines hunk contextIndex
        (searchVariants find hunk (searchLines find hunk))))

/-- The loop over the hunks: the replacements, the lines of the warnings, and where the next search
begins. -/
structure HunkState where
  replacements : List Replacement
  warnings : List Nat
  lineIndex : Nat

def foundIndex (hunk : DiffHunk) (lineIndex : Nat) (search : HunkSearch R) :
    Except (HunkError R) Nat :=
  if search.result.isAmbiguous then .error (.linesAmbiguous search.result)
  else
    match search.result.index with
    | some found => .ok found
    | none =>
      .error (.linesNotFound hunk.oldLines
        (findClosestSequenceMatch lines search.pattern lineIndex hunk.isEndOfFile))

def checkSecondMatch (runtime : MatchRuntime R) (lines : List Text) (allowFuzzy : Bool)
    (hunk : DiffHunk)
    (pattern : List Text) (found : Nat) : Except (HunkError R) Unit :=
  if hunk.changeContext = none ∧ hunk.hasContextLines = false ∧ hunk.isEndOfFile = false ∧
      hunk.oldStartLine = none then
    match (seekSequence runtime lines pattern (found + 1) false allowFuzzy).index with
    | some second => .error (.secondOccurrence found second)
    | none => .ok ()
  else .ok ()

def replaceHunk (runtime : MatchRuntime R) (lines : List Text) (allowFuzzy : Bool) (hunk : DiffHunk)
    (st : HunkState) (lineIndex : Nat) (search : HunkSearch R) :
    Except (HunkError R) HunkState := do
  let found ← foundIndex lines hunk lineIndex search
  checkSecondMatch runtime lines allowFuzzy hunk search.pattern found
  let warnings :=
    if search.result.strategy = some .fuzzyDominant then st.warnings ++ [found + 1] else st.warnings
  let lineIndex := found + search.pattern.length
  -- A hunk of context lines only moves the search.
  if search.pattern = search.newSlice then .ok ⟨st.replacements, warnings, lineIndex⟩
  else
    let actualMatchedLines := (lines.drop found).take search.pattern.length
    let newLines := adjustLinesIndentation search.pattern actualMatchedLines search.newSlice
    .ok ⟨st.replacements ++ [⟨found, search.pattern.length, newLines⟩], warnings, lineIndex⟩

def placeHunk (runtime : MatchRuntime R) (lines : List Text) (allowFuzzy : Bool) (st : HunkState)
    (hunk : DiffHunk) : Except (HunkError R) HunkState := do
  if hunk.oldStartLine = some 0 ∨ hunk.newStartLine = some 0 then .error (.lineHint 0)
  else
    let lineIndex := hintedLineIndex lines hunk st.lineIndex
    let (lineIndex, contextIndex) ← locateContext runtime lines allowFuzzy hunk lineIndex
    if hunk.oldLines = [] then
      let startIndex ← insertionIndex lines hunk lineIndex
      .ok { st with replacements := st.replacements ++ [⟨startIndex, 0, hunk.newLines⟩], lineIndex }
    else
      replaceHunk runtime lines allowFuzzy hunk st lineIndex
        (searchHunk runtime lines allowFuzzy hunk lineIndex contextIndex)

def findOverlap : List Replacement → Option (Replacement × Replacement)
  | prev :: next :: rest =>
    if next.startIndex < prev.startIndex + prev.oldLen then some (prev, next)
      else findOverlap (next :: rest)
  | _ => none

def computeReplacements (runtime : MatchRuntime R) (lines : List Text) (hunks : List DiffHunk)
    (allowFuzzy : Bool) : Except (HunkError R) (List Replacement × List Nat) := do
  let st ← hunks.foldlM (placeHunk runtime lines allowFuzzy) ⟨[], [], 0⟩
  let replacements := st.replacements.insertionSort (fun a b => a.startIndex ≤ b.startIndex)
  match findOverlap replacements with
  | some (prev, next) => .error (.overlapping prev next)
  | none => .ok (replacements, st.warnings)

def applyReplacements (replacements : List Replacement) : List Text :=
  replacements.foldr (fun r result =>
    result.take r.startIndex ++ r.newLines ++ result.drop (r.startIndex + r.oldLen)) lines

def applyCharacterMatch (native : NativeBestFuzzyMatch R) (originalContent : Text) (hunk : DiffHunk)
    (fuzzyThreshold : R) (allowFuzzy : Bool) : Except (HunkError R) (Text × List Nat) :=
  let oldText := joinLines hunk.oldLines
  let newText := joinLines hunk.newLines
  let normalizedContent := normalizeToLF originalContent
  let normalizedOldText := normalizeToLF oldText
  let find := findMatch native normalizedContent normalizedOldText allowFuzzy
  let relaxedThreshold := if fuzzyThreshold ≤ percent 92 then fuzzyThreshold else percent 92
  let outcome :=
    if (find fuzzyThreshold).found.isNone = true ∧ allowFuzzy = true ∧
      relaxedThreshold < fuzzyThreshold ∧
        (find relaxedThreshold).found.isSome = true then find relaxedThreshold
    else find fuzzyThreshold
  if 1 < outcome.occurrences.getD 0 then .error (.occurrences outcome)
  else if 1 < outcome.fuzzyMatches.getD 0 then .error (.fuzzyMatches outcome)
  else
    match outcome.found with
    | none => .error (.noMatch oldText outcome.closest)
    | some m =>
      let adjustedNewText := adjustIndentation normalizedOldText m.actualText newText
      .ok (replaceMatch normalizedContent m adjustedNewText,
        if outcome.dominantFuzzy then [m.startLine] else [])

def endsWithNewline (content : Text) : Bool := content.getLast? = some '\n'

def applyTrailingNewlinePolicy (content : Text) (hadFinalNewline : Bool) : Text :=
  if hadFinalNewline then if endsWithNewline content then content else content ++ ['\n']
  else content.rdropWhile (· = '\n')

/-- The lines that hunks are applied to: an empty line after a final newline is not one of them. -/
def originalLines (content : Text) : List Text :=
  if endsWithNewline content then (splitLines content).dropLast else splitLines content

def joinContentLines (hadFinalNewline : Bool) : Text :=
  joinLines (if hadFinalNewline then lines ++ [[]] else lines)

variable (runtime : MatchRuntime R)

def applyLineHunks (originalContent : Text) (hunks : List DiffHunk)
    (allowFuzzy : Bool) : Except (HunkError R) (Text × List Nat) := do
  let hadFinalNewline := endsWithNewline originalContent
  let originalLines := originalLines originalContent
  let (replacements, warnings) ← computeReplacements runtime originalLines hunks allowFuzzy
  let content := joinContentLines (applyReplacements originalLines replacements) hadFinalNewline
  .ok (applyTrailingNewlinePolicy content hadFinalNewline, warnings)

def isSimpleHunk (hunk : DiffHunk) : Bool :=
  hunk.changeContext.isNone && !hunk.hasContextLines && hunk.oldLines ≠ [] &&
    hunk.oldStartLine.isNone && !hunk.isEndOfFile

def applyHunksToContent (originalContent : Text) (hunks : List DiffHunk)
    (fuzzyThreshold : R) (allowFuzzy : Bool) : Except (HunkError R) (Text × List Nat) :=
  match hunks with
  | [hunk] =>
    if isSimpleHunk hunk then do
      let (content, warnings) ← applyCharacterMatch runtime.findBestFuzzyMatchNative
          originalContent hunk
        fuzzyThreshold allowFuzzy
      .ok (applyTrailingNewlinePolicy content (endsWithNewline originalContent), warnings)
    else applyLineHunks runtime originalContent hunks allowFuzzy
  | _ => applyLineHunks runtime originalContent hunks allowFuzzy

variable {runtime : MatchRuntime R} {lines : List Text} {allowFuzzy : Bool} {hunk : DiffHunk}
    {k : Nat}
  {result : SequenceSearchResult R}

omit [Score R] in
theorem SequenceSearchResult.isUnique_iff :
    result.isUnique = true ↔ result.index.isSome = true ∧ result.isAmbiguous = false := by
  rw [isUnique, Bool.and_eq_true, Bool.not_eq_true']

theorem isUnique_exactResult (k : Nat) : (exactResult R k).isUnique = true := rfl

theorem findSequenceWithHint_of_unique {pattern : List Text} {currentIndex : Nat}
    {hintIndex : Option Nat}
    {eof : Bool}
    (h : (seekSequence runtime lines pattern currentIndex eof allowFuzzy).isUnique = true) :
    findSequenceWithHint runtime lines pattern currentIndex hintIndex eof allowFuzzy =
      seekSequence runtime lines pattern currentIndex eof allowFuzzy := by
  obtain ⟨hsome, hambiguous⟩ := SequenceSearchResult.isUnique_iff.1 h
  unfold findSequenceWithHint
  simp [SequenceSearchResult.answers, hsome, hambiguous]

omit [Score R] in
theorem preferHint_preferContext {search : HunkSearch R} (h : search.result.isAmbiguous = false)
    (contextIndex matchHint : Option Nat) :
    preferHint hunk matchHint (preferContext lines hunk contextIndex search) =
      preferContext lines hunk contextIndex search := by
  have hunique : (preferContext lines hunk contextIndex search).result.isAmbiguous = false := by
    unfold preferContext
    split
    · dsimp only
      split
      · split
        · rfl
        · exact h
      · exact h
    · exact h
  rw [preferHint, if_neg (by rw [hunique]; exact Bool.false_ne_true)]

theorem searchHunk_of_unique {lineIndex : Nat}
    (h : findSequenceWithHint runtime lines hunk.oldLines lineIndex
      (getHunkHintIndex hunk lineIndex)
      hunk.isEndOfFile allowFuzzy = result) (hunique : result.isUnique = true) (contextIndex :
        Option Nat) :
    searchHunk runtime lines allowFuzzy hunk lineIndex contextIndex =
      preferContext lines hunk contextIndex ⟨hunk.oldLines, hunk.newLines, result⟩ := by
  obtain ⟨hsome, hambiguous⟩ := SequenceSearchResult.isUnique_iff.1 hunique
  have hlines : searchLines (fun pattern => findSequenceWithHint runtime lines pattern lineIndex
      (getHunkHintIndex hunk lineIndex) hunk.isEndOfFile allowFuzzy) hunk =
      ⟨hunk.oldLines, hunk.newLines, result⟩ := by
    unfold searchLines
    dsimp only
    rw [h, if_neg fun hnone => by rw [Option.isNone_iff_eq_none] at hnone; simp [hnone.1] at hsome]
  have haround :
      searchAroundContext lines hunk contextIndex ⟨hunk.oldLines, hunk.newLines, result⟩ =
      ⟨hunk.oldLines, hunk.newLines, result⟩ := by
    obtain ⟨k, hk⟩ := Option.isSome_iff_exists.1 hsome
    unfold searchAroundContext
    cases contextIndex with
    | none => rfl
    | some contextIndex => simp [hk]
  unfold searchHunk
  dsimp only
  rw [hlines, searchVariants, if_pos hunique, haround, preferHint_preferContext hambiguous]

theorem replaceHunk_of_occursAt {newLines : List Text} {pattern : List Text}
    (hk : OccursAt pattern lines k)
    (hindex : result.index = some k)
    (hambiguous : result.isAmbiguous = false) (hstrategy : result.strategy ≠ some .fuzzyDominant)
    (st : HunkState) (lineIndex : Nat) :
    replaceHunk runtime lines allowFuzzy hunk st lineIndex ⟨pattern, newLines, result⟩ =
      (checkSecondMatch runtime lines allowFuzzy hunk pattern k).map fun _ =>
        ⟨st.replacements ++ if pattern = newLines then [] else [⟨k, pattern.length, newLines⟩],
          st.warnings, k + pattern.length⟩ := by
  have hactual : (lines.drop k).take pattern.length = pattern := (List.prefix_iff_eq_take.1 hk).symm
  have hfound : foundIndex lines hunk lineIndex ⟨pattern, newLines, result⟩ = .ok k := by
    unfold foundIndex
    rw [if_neg (by rw [hambiguous]; exact Bool.false_ne_true)]
    rw [hindex]
  unfold replaceHunk
  rw [hfound]
  cases hcheck : checkSecondMatch runtime lines allowFuzzy hunk pattern k with
  | error e => simp [Bind.bind, Except.bind, hcheck, Except.map]
  | ok u =>
    simp only [Bind.bind, Except.bind, hcheck, Except.map, if_neg hstrategy, hactual,
      adjustLinesIndentation_self]
    split
    · rw [List.append_nil]
    · rfl

end Hunks

end Vibrato.Edit
