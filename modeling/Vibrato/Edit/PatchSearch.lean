import Vibrato.Edit.Diff
import Vibrato.Edit.SeekSequence

/-! Where a hunk of `edit/modes/patch.ts` is looked for: the context line that its header names, the
search for its lines with the line number of its header as a hint, and the smaller hunks that are
tried if its own lines are not found. -/

namespace Vibrato.Edit

open Vibrato.Lib Text

/-- The strategies for context lines are some of those for sequences. -/
abbrev ContextLineResult (R : Type) := SequenceSearchResult R

namespace SequenceSearchResult

variable {R : Type}

variable (result : SequenceSearchResult R)

def isAmbiguous : Bool := 1 < result.matchCount.getD 0

def isUnique : Bool := result.index.isSome && !result.isAmbiguous

def answers : Bool := result.index.isSome || result.isAmbiguous

end SequenceSearchResult

section Search

variable {R : Type} [Score R]

def CONTEXT_FUZZY_THRESHOLD : R := percent 80

/-- The lines from `startFrom` on that contain the context, with the share of the line that it
is. -/
def substringMatches (lines : List Text) (contextNorm : Text) (startFrom : Nat) : List (Nat × R) :=
  (indicesFrom startFrom lines.length).filterMap fun i =>
    let lineNorm := normalizeForFuzzy (lines.getD i [])
    if (indexOf contextNorm lineNorm).isSome then
      some (i, ((utf16 contextNorm).length : R) / ((max 1 (utf16 lineNorm).length : Nat) : R))
    else none

/-- One match is taken as it is; of several, those that the context is a large part of. -/
def substringResult (found : List (Nat × R)) : Option (ContextLineResult R) :=
  let matchIndices := some ((found.take 5).map Prod.fst)
  let large := found.filter fun m => m.2 ≥ PARTIAL_MATCH_MIN_RATIO
  match found with
  | [] => none
  | [m] => some ⟨some m.1, percent 94, some 1, matchIndices, some .substring⟩
  | m :: _ :: _ =>
    match large with
    | first :: _ =>
        some ⟨some first.1, percent 94, some large.length, matchIndices, some .substring⟩
    | [] => some ⟨some m.1, percent 94, some found.length, matchIndices, some .substring⟩

structure ContextScan (R : Type) where
  bestIndex : Option Nat
  bestScore : R
  fuzzyMatches : IndexedMatches

def scanContext (lines : List Text) (contextNorm : Text) (startFrom : Nat) : ContextScan R :=
  (indicesFrom startFrom lines.length).foldl (fun scan i =>
      let score := similarity (normalizeForFuzzy (lines.getD i [])) contextNorm
      let fuzzyMatches :=
        if score ≥ CONTEXT_FUZZY_THRESHOLD then scan.fuzzyMatches.add i else scan.fuzzyMatches
      if score > scan.bestScore then ⟨some i, score, fuzzyMatches⟩
      else ⟨scan.bestIndex, scan.bestScore, fuzzyMatches⟩)
    ⟨none, ((0 : Nat) : R), .empty⟩

variable (runtime : MatchRuntime R)

variable (lines : List Text)

/-- The passes of `findContextLine`: a line, or the best score. -/
def findContextLineFrom (context : Text) (startFrom : Nat) (allowFuzzy : Bool) :
    ContextLineResult R :=
  let pass (predicate : Text → Bool) (confidence : R) (strategy : SequenceMatchStrategy) :=
    toAmbiguousMatchResult
      (collectIndexedMatches startFrom lines.length fun i => predicate (lines.getD i [])) confidence
        strategy
  let trimmedContext := trim context
  let normalizedContext := normalizeUnicode runtime.nfc context
  let exact := pass (· = context) ((1 : Nat) : R) .exact <|>
    pass (trim · = trimmedContext) (percent 99) .trim <|>
    pass (normalizeUnicode runtime.nfc · = normalizedContext) (percent 98) .unicode
  match exact with
  | some result => result
  | none =>
    if allowFuzzy = false then { index := none, confidence := ((0 : Nat) : R) }
    else
      let contextNorm := normalizeForFuzzy context
      let prefixed :=
        if contextNorm.length = 0 then none
        else pass (fun line => startsWith (normalizeForFuzzy line) contextNorm)
          (percent 96) .linePrefix
      let contained :=
        if (utf16 contextNorm).length < PARTIAL_MATCH_MIN_LENGTH then none
        else substringResult (substringMatches lines contextNorm startFrom)
      match prefixed <|> contained with
      | some result => result
      | none =>
        let scan := scanContext lines contextNorm startFrom
        if scan.bestIndex.isSome = true ∧ scan.bestScore ≥ CONTEXT_FUZZY_THRESHOLD then
          ⟨scan.bestIndex, scan.bestScore, some scan.fuzzyMatches.matchCount,
            some scan.fuzzyMatches.matchIndices, some .fuzzy⟩
        else { index := none, confidence := scan.bestScore }

/-- A context that ends in `()` and is nowhere may be the name of a function with arguments. -/
def findContextLine (context : Text) (startFrom : Nat) (allowFuzzy : Bool) : ContextLineResult R :=
  let result := findContextLineFrom runtime lines context startFrom allowFuzzy
  let trimmedContext := trim context
  if result.index.isNone = true ∧ allowFuzzy = true ∧ ['(', ')'] <:+ trimmedContext then
    let parenResult :=
      findContextLineFrom runtime lines trimmedContext.dropLast startFrom allowFuzzy
    if parenResult.index.isSome = true ∨ 0 < parenResult.matchCount.getD 0 then parenResult
    else findContextLineFrom runtime lines trimmedContext.dropLast.dropLast startFrom allowFuzzy
  else result

def splitWords (text : Text) : List Text := (text.splitOnP isSpace).filter (· ≠ [])

def hasSignatureChars (context : Text) : Bool := context.any (· ∈ ['(', ')', '{', '}', '[', ']'])

def hintIndexOf (lineHint : Nat) : Nat := lineHint - 1

def takeAsUnique (result : ContextLineResult R) : ContextLineResult R :=
  { result with matchCount := some 1, matchIndices := some result.index.toList }

def findNestedContext (runtime : MatchRuntime R) (lines : List Text) (lineHint : Option Nat)
    (allowFuzzy : Bool) : List Text → Nat → ContextLineResult R
  | [], _ => { index := none, confidence := ((0 : Nat) : R) }
  | part :: parts, currentStart =>
    let result := findContextLine runtime lines part currentStart allowFuzzy
    -- With a hint, the last part is searched once more from the line of the hint.
    let hinted :=
      match lineHint with
      | none => none
      | some hint =>
        if parts.isEmpty = true ∧ currentStart ≤ hintIndexOf hint then
          let hintedResult := findContextLine runtime lines part (hintIndexOf hint) allowFuzzy
          if hintedResult.index.isSome then some (takeAsUnique hintedResult) else none
        else none
    if result.isAmbiguous then hinted.getD { result with index := none }
    else
      match result.index with
      | none => hinted.getD { index := none, confidence := result.confidence }
      | some index =>
        if parts.isEmpty then result
        else findNestedContext runtime lines lineHint allowFuzzy parts (index + 1)

/-- The last word of a context, after the line on which the words before it stand.  Nothing, if they
stand nowhere or the last word stands nowhere after them. -/
def findLastWord (spaceParts : List Text) (startFrom : Nat)
    (allowFuzzy : Bool) : ContextLineResult R × Option (ContextLineResult R) :=
  let outer := [' '].intercalate spaceParts.dropLast
  let inner := spaceParts.getLastD []
  let outerResult := findContextLine runtime lines outer startFrom allowFuzzy
  if outerResult.isAmbiguous then (outerResult, some { outerResult with index := none })
  else
    match outerResult.index with
    | none => (outerResult, none)
    | some index =>
      let innerResult := findContextLine runtime lines inner (index + 1) allowFuzzy
      if innerResult.index.isSome then
        (outerResult, some (if innerResult.isAmbiguous then takeAsUnique innerResult
          else innerResult))
      else if innerResult.isAmbiguous then (outerResult,
        some { innerResult with matchCount := some 1 })
      else (outerResult, none)

def findHierarchicalContext (context : Text)
    (startFrom : Nat) (lineHint : Option Nat) (allowFuzzy : Bool) : ContextLineResult R :=
  if '\n' ∈ context then
    let parts := ((splitLines context).map trim).filter (· ≠ [])
    findNestedContext runtime lines lineHint allowFuzzy parts startFrom
  else
    let spaceParts := splitWords context
    let isPlain := !hasSignatureChars context
    let nested :=
      if isPlain = true ∧ 2 < spaceParts.length then
        (findLastWord runtime lines spaceParts startFrom allowFuzzy).2
      else none
    match nested with
    | some result => result
    | none =>
      let result := findContextLine runtime lines context startFrom allowFuzzy
      let hinted :=
        match lineHint with
        | none => none
        | some hint =>
          if result.index.isNone = true ∨ result.isAmbiguous = true then
            let hintedResult := findContextLine runtime lines context (hintIndexOf hint) allowFuzzy
            if hintedResult.index.isSome then some (takeAsUnique hintedResult) else none
          else none
      match hinted with
      | some hintedResult => hintedResult
      | none =>
        if result.index.isSome = true ∨ result.isAmbiguous = true then result
        else
          let fromStart :=
            if startFrom = 0 then none
            else
              let fromStartResult := findContextLine runtime lines context 0 allowFuzzy
              if fromStartResult.index.isSome = true ∨ fromStartResult.isAmbiguous = true then
                some fromStartResult
              else none
          match fromStart with
          | some fromStartResult => fromStartResult
          | none =>
            if isPlain = true ∧ 1 < spaceParts.length then
              let (outerResult, innerResult) :=
                findLastWord runtime lines spaceParts startFrom allowFuzzy
              match innerResult with
              | some innerResult => innerResult
              | none =>
                if outerResult.index.isNone then
                  { index := none, confidence := outerResult.confidence }
                else result
            else result

def AMBIGUITY_HINT_WINDOW : Nat := 200

def chooseHintedMatch (matchIndices : Option (List Nat)) (hintIndex : Option Nat) (window : Nat) :
    Option Nat :=
  match matchIndices, hintIndex with
  | some matchIndices, some hintIndex =>
    match matchIndices.filter fun index => index ≤ hintIndex + window ∧
      hintIndex ≤ index + window with
    | [candidate] => some candidate
    | _ => none
  | _, _ => none

def getHunkHintIndex (hunk : DiffHunk) (currentIndex : Nat) : Option Nat :=
  match hunk.oldStartLine with
  | none => none
  | some oldStartLine =>
    if currentIndex ≤ hintIndexOf oldStartLine then some (hintIndexOf oldStartLine) else none

def findSequenceWithHint (pattern : List Text) (currentIndex : Nat)
    (hintIndex : Option Nat) (eof allowFuzzy : Bool) : SequenceSearchResult R :=
  let seek (start : Nat) := seekSequence runtime lines pattern start eof allowFuzzy
  let primaryResult := seek currentIndex
  let hint := hintIndex.filter (· ≠ currentIndex)
  -- A match that is not the only one is looked for again from the hint on.
  let closer := hint.bind fun hint =>
    if primaryResult.isAmbiguous && (seek hint).answers then some (seek hint) else none
  match closer with
  | some hintedResult => hintedResult
  | none =>
    if primaryResult.answers then primaryResult
    else
      let hinted := hint.bind fun hint => if (seek hint).answers then some (seek hint) else none
      let fromStart := if currentIndex ≠ 0 ∧ (seek 0).answers = true then some (seek 0) else none
      (hinted <|> fromStart).getD primaryResult

inductive HunkVariantKind where
  | trimCommon
  | dedupeShared
  | collapseRepeated
  | singleLine
  deriving DecidableEq

structure HunkVariant where
  oldLines : List Text
  newLines : List Text
  kind : HunkVariantKind

def commonLines : List Text → List Text → Nat
  | a :: as, b :: bs => if a = b then commonLines as bs + 1 else 0
  | _, _ => 0

def trimCommonContext (oldLines newLines : List Text) : Option HunkVariant :=
  let start := commonLines oldLines newLines
  let oldRest := oldLines.drop start
  let newRest := newLines.drop start
  let stop := commonLines oldRest.reverse newRest.reverse
  let trimmedOld := oldRest.take (oldRest.length - stop)
  let trimmedNew := newRest.take (newRest.length - stop)
  if start = 0 ∧ stop = 0 then none
  else if trimmedOld = [] ∧ trimmedNew = [] then none
  else some ⟨trimmedOld, trimmedNew, .trimCommon⟩

def collapseRuns (shared : List Text) : Option Text → List Text → List Text
  | _, [] => []
  | previous, line :: lines =>
    if previous = some line ∧ line ∈ shared then collapseRuns shared previous lines
    else line :: collapseRuns shared (some line) lines

def collapseBoth (collapse : List Text → List Text → List Text) (kind : HunkVariantKind)
    (oldLines newLines : List Text) : Option HunkVariant :=
  let shared := oldLines.filter (· ∈ newLines)
  let collapsedOld := collapse shared oldLines
  let collapsedNew := collapse shared newLines
  if collapsedOld.length = oldLines.length ∧ collapsedNew.length = newLines.length then none
  else some ⟨collapsedOld, collapsedNew, kind⟩

def collapseConsecutiveSharedLines (oldLines newLines : List Text) : Option HunkVariant :=
  collapseBoth (fun shared => collapseRuns shared none) .dedupeShared oldLines newLines

def repeatedBlock (shared lines : List Text) : Option Nat :=
  ((List.range' 2 (lines.length / 2 - 1)).reverse).find? fun size =>
    (lines.take size).all (· ∈ shared) && lines.take size = (lines.drop size).take size

/-- A block that is followed by itself is left once; the count bounds the steps, one for each
line. -/
def collapseBlocks (shared : List Text) : Nat → List Text → List Text
  | 0, lines => lines
  | _ + 1, [] => []
  | steps + 1, line :: lines =>
    match repeatedBlock shared (line :: lines) with
    | some size =>
      collapseBlocks shared steps ((line :: lines).take size ++ (line :: lines).drop (2 * size))
    | none => line :: collapseBlocks shared steps lines

def collapseRepeatedBlocks (oldLines newLines : List Text) : Option HunkVariant :=
  collapseBoth (fun shared lines => collapseBlocks shared lines.length lines) .collapseRepeated
    oldLines
    newLines

def reduceToSingleLineChange (oldLines newLines : List Text) : Option HunkVariant :=
  if oldLines.length = newLines.length then
    match (oldLines.zip newLines).filter fun (oldLine, newLine) => oldLine ≠ newLine with
    | [(oldLine, newLine)] => some ⟨[oldLine], [newLine], .singleLine⟩
    | _ => none
  else none

def dedupeVariants : List Text → List HunkVariant → List HunkVariant
  | _, [] => []
  | seen, variant :: variants =>
    let key := joinLines variant.oldLines ++ ['|', '|'] ++ joinLines variant.newLines
    if variant.oldLines = [] ∧ variant.newLines = [] ∨ key ∈ seen then dedupeVariants seen variants
    else variant :: dedupeVariants (key :: seen) variants

def buildFallbackVariants (hunk : DiffHunk) : List HunkVariant :=
  let base : HunkVariant := ⟨hunk.oldLines, hunk.newLines, .trimCommon⟩
  let trimmed := trimCommonContext base.oldLines base.newLines
  let fromTrimmed := trimmed.getD base
  let deduped := collapseConsecutiveSharedLines fromTrimmed.oldLines fromTrimmed.newLines
  let fromDeduped := deduped.getD fromTrimmed
  let collapsed := collapseRepeatedBlocks fromDeduped.oldLines fromDeduped.newLines
  let singleLine := reduceToSingleLineChange fromTrimmed.oldLines fromTrimmed.newLines
  dedupeVariants [] (trimmed.toList ++ deduped.toList ++ collapsed.toList ++ singleLine.toList)

def filterFallbackVariants (variants : List HunkVariant) (allowAggressive : Bool) :
    List HunkVariant :=
  if allowAggressive then variants
  else variants.filter fun variant => variant.kind ≠ .collapseRepeated ∧ variant.kind ≠ .singleLine

def findVariant (find : List Text → SequenceSearchResult R) (variants : List HunkVariant) :
    Option (HunkVariant × SequenceSearchResult R) :=
  variants.findSome? fun variant =>
    if variant.oldLines = [] then none
    else if (find variant.oldLines).isUnique then some (variant, find variant.oldLines) else none

def attemptSequenceFallback (lines : List Text) (hunk : DiffHunk)
    (currentIndex : Nat) (lineHint : Option Nat) (allowFuzzy allowAggressiveFallbacks : Bool) :
    Option Nat :=
  if hunk.oldLines = [] then none
  else
    let hint := getHunkHintIndex hunk currentIndex <|> lineHint
    let find (pattern : List Text) :=
      findSequenceWithHint runtime lines pattern currentIndex hint false allowFuzzy
    let fallbackResult := find hunk.oldLines
    if fallbackResult.isUnique then
      fallbackResult.index.filter fun index =>
        -- Another match after this one makes it ambiguous.
        !(decide (index + 1 + hunk.oldLines.length ≤ lines.length) &&
          (seekSequence runtime lines hunk.oldLines (index + 1) false allowFuzzy).index.isSome)
    else
      let variants := filterFallbackVariants (buildFallbackVariants hunk) allowAggressiveFallbacks
      (findVariant find variants).bind fun found => found.2.index

/-- The first line after the context that reads like the pattern, or the second one; else the last
one before it. -/
def findContextRelativeMatch (lines : List Text) (patternLine : Text) (contextIndex : Nat)
    (preferSecondForwardMatch : Bool) : Option Nat :=
  let matching := (indicesFrom 0 lines.length).filter fun i =>
    trim (lines.getD i []) = trim patternLine
  match matching.filter (contextIndex < ·) with
  | first :: second :: _ => some (if preferSecondForwardMatch then second else first)
  | [first] => some first
  | [] => (matching.filter (· < contextIndex)).getLast?

end Search

end Vibrato.Edit
