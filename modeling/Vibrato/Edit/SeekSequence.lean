import Vibrato.Edit.ReplaceText

/-! `seekSequence` of `edit/modes/replace.ts`: where the lines of a hunk are found in a file. -/

namespace Vibrato.Edit

open Vibrato.Lib List

inductive SequenceMatchStrategy where
  | exact
  | trimTrailing
  | trim
  | commentPrefix
  | unicode
  | linePrefix
  | substring
  | fuzzy
  | fuzzyDominant
  | character
  deriving DecidableEq

structure SequenceSearchResult (R : Type) where
  index : Option Nat
  confidence : R
  matchCount : Option Nat := none
  matchIndices : Option (List Nat) := none
  strategy : Option SequenceMatchStrategy := none

structure IndexedMatches where
  firstMatch : Option Nat
  matchCount : Nat
  matchIndices : List Nat

namespace IndexedMatches

def empty : IndexedMatches := ⟨none, 0, []⟩

def add (m : IndexedMatches) (index : Nat) : IndexedMatches where
  firstMatch := m.firstMatch <|> some index
  matchCount := m.matchCount + 1
  matchIndices :=
    if m.matchIndices.length < MAX_RECORDED_MATCHES then m.matchIndices ++ [index]
      else m.matchIndices

end IndexedMatches

/-- The indices from `start` up to `stop`, which is not one of them. -/
def indicesFrom (start stop : Nat) : List Nat := List.range' start (stop - start)

def collectIndexedMatches (start stop : Nat) (predicate : Nat → Bool) : IndexedMatches :=
  (indicesFrom start stop).foldl (fun m index => if predicate index then m.add index else m) .empty

section Results

variable {R : Type}

def toSingleMatchResult (m : IndexedMatches) (confidence : R) (strategy : SequenceMatchStrategy) :
    Option (SequenceSearchResult R) :=
  m.firstMatch.map fun index => { index := some index, confidence, strategy := some strategy }

def toAmbiguousMatchResult (m : IndexedMatches) (confidence : R)
    (strategy : SequenceMatchStrategy) :
    Option (SequenceSearchResult R) :=
  m.firstMatch.map fun index =>
    { index := some index, confidence, matchCount := some m.matchCount
      matchIndices := some m.matchIndices, strategy := some strategy }

end Results

def PARTIAL_MATCH_MIN_LENGTH : Nat := 6

def stripCommentPrefix (line : Text) : Text :=
  let trimmed := Text.trimStart line
  Text.trimStart <|
    match trimmed with
    | '/' :: '*' :: rest => rest
    | '*' :: '/' :: rest => rest
    | '/' :: '/' :: rest => rest
    | '*' :: rest => rest
    | '#' :: rest => rest
    | ';' :: rest => rest
    | '/' :: ' ' :: rest => ' ' :: rest
    | _ => trimmed

/-- The replacements of `UNICODE_REPLACEMENTS`. -/
def unicodeReplacement (c : Char) : Text :=
  if '\u2010' ≤ c ∧ c ≤ '\u2015' ∨ c = '\u2212' then ['-']
  else if '\u2018' ≤ c ∧ c ≤ '\u201B' then ['\'']
  else if '\u201C' ≤ c ∧ c ≤ '\u201F' then ['"']
  else if c = '\u00A0' ∨ '\u2002' ≤ c ∧ c ≤ '\u200A' ∨ c = '\u202F' ∨ c = '\u205F' ∨
    c = '\u3000' then [' ']
  else if c = '\u2260' then ['!', '=']
  else if c = '\u00BD' then ['1', '/', '2']
  else if '\u200B' ≤ c ∧ c ≤ '\u200D' ∨ c = '\uFEFF' then []
  else [c]

def normalizeUnicode (nfc : Text → Text) (s : Text) : Text :=
  nfc ((Text.trim s).flatMap unicodeReplacement)

/-- What a scan over the windows has scored, by the native code or here. -/
structure SequenceFuzzyResult (R : Type) where
  index : Option Nat
  confidence : R
  matchCount : Nat
  matchIndices : List Nat
  secondBestScore : R

/-- What the search takes from outside: the canonical composition of a text, and the native matchers
once they are loaded. -/
structure MatchRuntime (R : Type) where
  nfc : Text → Text
  findBestFuzzyMatchNative : NativeBestFuzzyMatch R
  scoreSequenceFuzzyNative : Option (List Text → List Text → Nat → Bool → SequenceFuzzyResult R)

section Search

variable {R : Type} [Score R]

def perMille (n : Nat) : R := (n : R) / ((1000 : Nat) : R)

def SEQUENCE_FUZZY_THRESHOLD : R := percent 92

def PARTIAL_MATCH_MIN_RATIO : R := percent 30

def CHARACTER_MATCH_THRESHOLD : R := percent 92

def lineStartsWithPattern (line pattern : Text) : Bool :=
  let lineNorm := normalizeForFuzzy line
  let patternNorm := normalizeForFuzzy pattern
  if patternNorm.length = 0 then lineNorm.length = 0 else Text.startsWith lineNorm patternNorm

variable (R) in
def lineIncludesPattern (line pattern : Text) : Bool :=
  let lineNorm := normalizeForFuzzy line
  let patternNorm := normalizeForFuzzy pattern
  let lineLength := (Text.utf16 lineNorm).length
  let patternLength := (Text.utf16 patternNorm).length
  if patternLength = 0 then lineLength = 0
  else if patternLength < PARTIAL_MATCH_MIN_LENGTH then false
  else if (indexOf patternNorm lineNorm).isNone then false
  else (patternLength : R) / ((max 1 lineLength : Nat) : R) ≥ PARTIAL_MATCH_MIN_RATIO

/-- The lines of the pattern against those from line `i` on. -/
def matchesAt (lines pattern : List Text) (i : Nat) (compare : Text → Text → Bool) : Bool :=
  ((lines.drop i).zip pattern).all fun (line, patternLine) => compare line patternLine

def fuzzyScoreAt (lines pattern : List Text) (i : Nat) : R :=
  let total := ((lines.drop i).zip pattern).foldl
    (fun score (line, patternLine) =>
      score + similarity (normalizeForFuzzy line) (normalizeForFuzzy patternLine)) ((0 : Nat) : R)
  total / (pattern.length : R)

structure ComparisonPass (R : Type) where
  compare : Text → Text → Bool
  confidence : R
  strategy : SequenceMatchStrategy

variable (nfc : Text → Text)

def comparisonPasses : List (ComparisonPass R) :=
  [⟨fun a b => a = b, ((1 : Nat) : R), .exact⟩,
    ⟨fun a b => Text.trimEnd a = Text.trimEnd b, percent 99, .trimTrailing⟩,
    ⟨fun a b => Text.trim a = Text.trim b, percent 98, .trim⟩,
    ⟨fun a b => stripCommentPrefix a = stripCommentPrefix b, perMille 975, .commentPrefix⟩,
    ⟨fun a b => normalizeUnicode nfc a = normalizeUnicode nfc b, percent 97, .unicode⟩]

def partialPasses : List (ComparisonPass R) :=
  [⟨lineStartsWithPattern, perMille 965, .linePrefix⟩,
    ⟨lineIncludesPattern R, percent 94, .substring⟩]

def runPasses (passes : List (ComparisonPass R))
    (toResult : IndexedMatches → R → SequenceMatchStrategy → Option (SequenceSearchResult R))
    (lines pattern : List Text) (start stop : Nat) : Option (SequenceSearchResult R) :=
  passes.findSome? fun pass =>
    toResult (collectIndexedMatches start stop fun i => matchesAt lines pattern i pass.compare)
      pass.confidence pass.strategy

def runExactPasses (allowFuzzy : Bool) (lines pattern : List Text)
    (start stop : Nat) : Option (SequenceSearchResult R) :=
  runPasses (comparisonPasses nfc) toSingleMatchResult lines pattern start stop <|>
    if allowFuzzy then runPasses partialPasses toAmbiguousMatchResult lines pattern start stop
      else none

structure FuzzyScan (R : Type) where
  bestScore : R
  secondBestScore : R
  bestIndex : Option Nat
  fuzzyMatches : IndexedMatches

def FuzzyScan.addScore (scan : FuzzyScan R) (i : Nat) (score : R) : FuzzyScan R :=
  let fuzzyMatches :=
    if score ≥ SEQUENCE_FUZZY_THRESHOLD then scan.fuzzyMatches.add i else scan.fuzzyMatches
  if score > scan.bestScore then ⟨score, scan.bestScore, some i, fuzzyMatches⟩
  else if score > scan.secondBestScore then ⟨scan.bestScore, score, scan.bestIndex, fuzzyMatches⟩
  else ⟨scan.bestScore, scan.secondBestScore, scan.bestIndex, fuzzyMatches⟩

def scoreFuzzyRange (lines pattern : List Text) (indices : List Nat) (scan : FuzzyScan R) :
    FuzzyScan R :=
  indices.foldl (fun scan i => scan.addScore i (fuzzyScoreAt lines pattern i)) scan

/-- The first window that a search looks at: with the end of the file in view, the last one. -/
def searchStart (lines pattern : List Text) (start : Nat) (eof : Bool) : Nat :=
  if eof then lines.length - pattern.length else start

def scannedWindows (lines pattern : List Text) (start : Nat) (eof : Bool) : List Nat :=
  let first := searchStart lines pattern start eof
  indicesFrom first (lines.length - pattern.length + 1) ++
    if eof = true ∧ start < first then indicesFrom start first else []

def scoreSequenceFuzzy (lines pattern : List Text) (start : Nat) (eof : Bool) :
    SequenceFuzzyResult R :=
  let zero := ((0 : Nat) : R)
  let scan := scoreFuzzyRange lines pattern (scannedWindows lines pattern start eof)
    ⟨zero, zero, none, .empty⟩
  ⟨scan.bestIndex, scan.bestScore, scan.fuzzyMatches.matchCount, scan.fuzzyMatches.matchIndices,
    scan.secondBestScore⟩

def SequenceFuzzyResult.toResult (scored : SequenceFuzzyResult R) :
    Option (SequenceSearchResult R) :=
  if scored.index.isSome = true ∧ scored.confidence ≥ SEQUENCE_FUZZY_THRESHOLD then
    if 1 < scored.matchCount ∧ scored.confidence ≥ DOMINANT_FUZZY_MIN_CONFIDENCE ∧
        scored.confidence - scored.secondBestScore ≥ DOMINANT_FUZZY_DELTA then
      some ⟨scored.index, scored.confidence, some 1, some scored.matchIndices, some .fuzzyDominant⟩
    else
      some ⟨scored.index, scored.confidence, some scored.matchCount, some scored.matchIndices,
        some .fuzzy⟩
  else none

variable (native : NativeBestFuzzyMatch R)

/-- The text of the pattern among the characters from line `start` on. -/
def characterOutcome (lines pattern : List Text) (start : Nat) : MatchOutcome R :=
  findMatch native (Text.joinLines (lines.drop start)) (Text.joinLines pattern) true
    CHARACTER_MATCH_THRESHOLD

def characterResult (lines pattern : List Text) (start : Nat) (bestScore : R) :
    SequenceSearchResult R :=
  let outcome := characterOutcome native lines pattern start
  match outcome.found with
  | some m =>
    { index := some (start + lineNumberAt (Text.joinLines (lines.drop start)) m.startIndex - 1)
      confidence := m.confidence
      matchCount := some ((outcome.occurrences <|> outcome.fuzzyMatches).getD 1)
      strategy := some .character }
  | none =>
    { index := none, confidence := bestScore
      matchCount := outcome.occurrences <|> outcome.fuzzyMatches }

variable (runtime : MatchRuntime R)

/-- The passes over the first windows, and with the end of the file in view then over all of
them. -/
def seekExact (lines pattern : List Text) (start : Nat) (eof allowFuzzy : Bool) :
    Option (SequenceSearchResult R) :=
  let first := searchStart lines pattern start eof
  let stop := lines.length - pattern.length + 1
  runExactPasses runtime.nfc allowFuzzy lines pattern first stop <|>
    if eof = true ∧ start < first then
      runExactPasses runtime.nfc allowFuzzy lines pattern start stop
    else none

def seekSequence (lines pattern : List Text) (start : Nat) (eof allowFuzzy : Bool) :
    SequenceSearchResult R :=
  if pattern.length = 0 then
    { index := some start, confidence := ((1 : Nat) : R), strategy := some .exact }
  else if lines.length < pattern.length then { index := none, confidence := ((0 : Nat) : R) }
  else
    match seekExact runtime lines pattern start eof allowFuzzy with
    | some result => result
    | none =>
      if allowFuzzy = false then { index := none, confidence := ((0 : Nat) : R) }
      else
        let scored := scoreSequenceFuzzy lines pattern start eof
        ((runtime.scoreSequenceFuzzyNative.bind fun native =>
          (native lines pattern start eof).toResult) <|> scored.toResult).getD
          (characterResult runtime.findBestFuzzyMatchNative lines pattern start scored.confidence)

theorem mem_indicesFrom {start stop i : Nat} :
    i ∈ indicesFrom start stop ↔ start ≤ i ∧ i < stop := by
  rw [indicesFrom, mem_range'_1]
  omega

theorem collectIndexedMatches_firstMatch (start stop : Nat) (predicate : Nat → Bool) :
    (collectIndexedMatches start stop predicate).firstMatch =
      (indicesFrom start stop).find? predicate := by
  have hfold : ∀ (indices : List Nat) (m : IndexedMatches),
      (indices.foldl (fun m index => if predicate index then m.add index else m) m).firstMatch =
        (m.firstMatch <|> indices.find? predicate) := by
    intro indices
    induction indices with
    | nil => intro m; simp
    | cons index indices ih =>
      intro m
      rw [foldl_cons, ih]
      cases hindex : predicate index with
      | true => cases hfirst : m.firstMatch <;> simp [IndexedMatches.add, hindex, hfirst]
      | false => simp [hindex]
  rw [collectIndexedMatches, hfold]
  rfl

section Passes

variable {passes : List (ComparisonPass R)} {lines pattern : List Text} {start stop : Nat}
  {toResult : IndexedMatches → R → SequenceMatchStrategy → Option (SequenceSearchResult R)}

omit [Score R] in
theorem runPasses_eq_some (hfirst : ∀ m confidence strategy,
      (toResult m confidence strategy).map (·.index) = m.firstMatch.map some)
    {result : SequenceSearchResult R}
    (h : runPasses passes toResult lines pattern start stop = some result) :
    ∃ pass ∈ passes, ∃ i, result.index = some i ∧ i ∈ indicesFrom start stop ∧
      matchesAt lines pattern i pass.compare = true := by
  obtain ⟨pass, hpass, hresult⟩ := exists_of_findSome?_eq_some h
  have hindex :=
    hfirst (collectIndexedMatches start stop fun i => matchesAt lines pattern i pass.compare)
    pass.confidence pass.strategy
  rw [hresult, collectIndexedMatches_firstMatch] at hindex
  obtain ⟨i, hi, hindex⟩ := Option.map_eq_some_iff.1 hindex.symm
  have hmatch := find?_some hi
  exact ⟨pass, hpass, i, hindex.symm, mem_of_find?_eq_some hi, hmatch⟩

omit [Score R] in
theorem runPasses_eq_none (hfirst : ∀ m confidence strategy,
      (toResult m confidence strategy).map (·.index) = m.firstMatch.map some)
    (h : runPasses passes toResult lines pattern start stop = none) {pass : ComparisonPass R}
    (hpass : pass ∈ passes) {i : Nat} (hi : i ∈ indicesFrom start stop) :
    matchesAt lines pattern i pass.compare = false := by
  have hresult := findSome?_eq_none_iff.1 h pass hpass
  have hindex :=
    hfirst (collectIndexedMatches start stop fun i => matchesAt lines pattern i pass.compare)
    pass.confidence pass.strategy
  rw [hresult, Option.map_none, collectIndexedMatches_firstMatch, eq_comm, Option.map_eq_none_iff,
    find?_eq_none] at hindex
  exact Bool.eq_false_of_not_eq_true (hindex i hi)

end Passes

omit [Score R] in
theorem toSingleMatchResult_index (m : IndexedMatches) (confidence : R)
    (strategy : SequenceMatchStrategy) :
    (toSingleMatchResult m confidence strategy).map (·.index) = m.firstMatch.map some := by
  cases h : m.firstMatch <;> simp [toSingleMatchResult, h]

omit [Score R] in
theorem toAmbiguousMatchResult_index (m : IndexedMatches) (confidence : R)
    (strategy : SequenceMatchStrategy) :
    (toAmbiguousMatchResult m confidence strategy).map (·.index) = m.firstMatch.map some := by
  cases h : m.firstMatch <;> simp [toAmbiguousMatchResult, h]

variable (R) in
def LinesMatchAt (nfc : Text → Text) (lines pattern : List Text) (i : Nat) : Prop :=
  ∃ pass ∈ (comparisonPasses nfc ++ partialPasses : List (ComparisonPass R)),
    matchesAt lines pattern i pass.compare = true

section ExactPasses

variable {nfc : Text → Text} {lines pattern : List Text} {start stop : Nat}

theorem runExactPasses_eq_some {result : SequenceSearchResult R}
    (h : runExactPasses nfc true lines pattern start stop = some result) :
    ∃ i, result.index = some i ∧ i ∈ indicesFrom start stop ∧
      LinesMatchAt R nfc lines pattern i := by
  rw [runExactPasses, Option.orElse_eq_orElse, Option.orElse_eq_or, Option.or_eq_some_iff] at h
  rcases h with h | ⟨-, h⟩
  · obtain ⟨pass, hpass, i, hindex, hi, hmatch⟩ := runPasses_eq_some toSingleMatchResult_index h
    exact ⟨i, hindex, hi, pass, mem_append_left _ hpass, hmatch⟩
  · obtain ⟨pass, hpass, i, hindex, hi, hmatch⟩ := runPasses_eq_some toAmbiguousMatchResult_index h
    exact ⟨i, hindex, hi, pass, mem_append_right _ hpass, hmatch⟩

theorem runExactPasses_eq_none
    (h : runExactPasses nfc true lines pattern start stop =
      (none : Option (SequenceSearchResult R)))
    {i : Nat} (hi : i ∈ indicesFrom start stop) : ¬LinesMatchAt R nfc lines pattern i := by
  rw [runExactPasses, Option.orElse_eq_orElse, Option.orElse_eq_or, Option.or_eq_none_iff] at h
  rintro ⟨pass, hpass, hmatch⟩
  rcases mem_append.1 hpass with hpass | hpass
  · exact Bool.false_ne_true
      ((runPasses_eq_none toSingleMatchResult_index h.1 hpass hi).symm.trans hmatch)
  · exact Bool.false_ne_true
      ((runPasses_eq_none toAmbiguousMatchResult_index h.2 hpass hi).symm.trans hmatch)

end ExactPasses

theorem scoreFuzzyRange_bestIndex {lines pattern : List Text} {indices : List Nat}
    {scan : FuzzyScan R}
    {windows : List Nat} (hscan : ∀ i ∈ scan.bestIndex, i ∈ windows ∧
      scan.bestScore = fuzzyScoreAt lines pattern i) :
    ∀ i ∈ (scoreFuzzyRange lines pattern indices scan).bestIndex, i ∈ windows ++ indices ∧
      (scoreFuzzyRange lines pattern indices scan).bestScore = fuzzyScoreAt lines pattern i := by
  induction indices generalizing scan windows with
  | nil => simpa [scoreFuzzyRange] using hscan
  | cons index indices ih =>
    have hstep : ∀ i ∈ (scan.addScore index (fuzzyScoreAt lines pattern index)).bestIndex,
        i ∈ windows ++ [index] ∧
          (scan.addScore index (fuzzyScoreAt lines pattern index)).bestScore =
          fuzzyScoreAt lines pattern i := by
      intro i hi
      unfold FuzzyScan.addScore at hi ⊢
      dsimp only at hi ⊢
      split at hi
      · next hbest =>
        cases hi
        rw [if_pos hbest]
        exact ⟨by simp, rfl⟩
      · next hbest =>
        rw [if_neg hbest]
        split at hi
        · next hsecond =>
          rw [if_pos hsecond]
          exact ⟨mem_append_left _ (hscan i hi).1, (hscan i hi).2⟩
        · next hsecond =>
          rw [if_neg hsecond]
          exact ⟨mem_append_left _ (hscan i hi).1, (hscan i hi).2⟩
    intro i hi
    have h := ih hstep i hi
    rw [append_assoc] at h
    exact h

section Ordered

variable [Std.IsLinearOrder R] [Std.LawfulOrderLT R] {scan : FuzzyScan R}

def FuzzyScan.Seen (scan : FuzzyScan R) (good : Prop) : Prop :=
  (scan.bestIndex = none → scan.bestScore = ((0 : Nat) : R)) ∧
    (good → scan.bestIndex.isSome = true ∧ SEQUENCE_FUZZY_THRESHOLD ≤ scan.bestScore)

theorem FuzzyScan.Seen.addScore (hpos : ((0 : Nat) : R) < SEQUENCE_FUZZY_THRESHOLD)
    {good : Prop} (h : scan.Seen good) (i : Nat) (score : R) :
    (scan.addScore i score).Seen (good ∨ SEQUENCE_FUZZY_THRESHOLD ≤ score) := by
  unfold FuzzyScan.addScore
  by_cases hbest : score > scan.bestScore
  · rw [if_pos hbest]
    refine ⟨(fun hnone => by cases hnone), fun hgood => ⟨rfl, ?_⟩⟩
    rcases hgood with hgood | hgood
    · exact Std.le_of_lt (Std.lt_of_le_of_lt (h.2 hgood).2 hbest)
    · exact hgood
  · rw [if_neg hbest]
    -- A score that is good enough is above zero, so a best window is there.
    have hgood : good ∨ SEQUENCE_FUZZY_THRESHOLD ≤ score →
        scan.bestIndex.isSome = true ∧ SEQUENCE_FUZZY_THRESHOLD ≤ scan.bestScore := by
      rintro (hgood | hgood)
      · exact h.2 hgood
      · refine ⟨?_, Std.le_trans hgood (Std.not_lt.1 hbest)⟩
        cases hindex : scan.bestIndex with
        | some best => rfl
        | none =>
          rw [h.1 hindex] at hbest
          exact absurd (Std.lt_of_lt_of_le hpos hgood) hbest
    split
    · exact ⟨h.1, hgood⟩
    · exact ⟨h.1, hgood⟩

theorem scoreFuzzyRange_seen (hpos : ((0 : Nat) : R) < SEQUENCE_FUZZY_THRESHOLD)
    {lines pattern : List Text} (indices : List Nat) {good : Prop}
    (h : scan.Seen good) :
    (scoreFuzzyRange lines pattern indices scan).Seen
      (good ∨ ∃ i ∈ indices, SEQUENCE_FUZZY_THRESHOLD ≤ (fuzzyScoreAt lines pattern i : R)) := by
  induction indices generalizing scan good with
  | nil => simpa [scoreFuzzyRange] using h
  | cons index indices ih =>
    have hrest := ih (h.addScore hpos index (fuzzyScoreAt lines pattern index))
    refine ⟨hrest.1, fun hgood => hrest.2 ?_⟩
    rcases hgood with hgood | ⟨i, hi, hscore⟩
    · exact .inl (.inl hgood)
    · rcases mem_cons.1 hi with rfl | hi
      · exact .inl (.inr hscore)
      · exact .inr ⟨i, hi, hscore⟩

variable {lines pattern : List Text} {start : Nat} {eof : Bool}

omit [Std.IsLinearOrder R] [Std.LawfulOrderLT R] in
theorem scoreSequenceFuzzy_toResult_some {result : SequenceSearchResult R}
    (h : (scoreSequenceFuzzy lines pattern start eof).toResult = some result) :
    ∃ i, result.index = some i ∧ i ∈ scannedWindows lines pattern start eof ∧
      SEQUENCE_FUZZY_THRESHOLD ≤ (fuzzyScoreAt lines pattern i : R) := by
  unfold SequenceFuzzyResult.toResult at h
  split at h
  · next hgood =>
    obtain ⟨i, hi⟩ := Option.isSome_iff_exists.1 hgood.1
    have hempty : ∀ j ∈ (none : Option Nat), j ∈ ([] : List Nat) ∧
        ((0 : Nat) : R) = fuzzyScoreAt lines pattern j := fun j hj => by cases hj
    obtain ⟨hmem, hscore⟩ := scoreFuzzyRange_bestIndex hempty i hi
    have hthreshold : SEQUENCE_FUZZY_THRESHOLD ≤ (fuzzyScoreAt lines pattern i : R) := by
      rw [← hscore]
      exact hgood.2
    split at h
    · cases h
      exact ⟨i, hi, hmem, hthreshold⟩
    · cases h
      exact ⟨i, hi, hmem, hthreshold⟩
  · cases h

theorem scoreSequenceFuzzy_toResult_none (hpos : ((0 : Nat) : R) < SEQUENCE_FUZZY_THRESHOLD)
    (h : (scoreSequenceFuzzy lines pattern start eof : SequenceFuzzyResult R).toResult = none)
    {i : Nat}
    (hi : i ∈ scannedWindows lines pattern start eof) :
    ¬SEQUENCE_FUZZY_THRESHOLD ≤ (fuzzyScoreAt lines pattern i : R) := by
  intro hscore
  have hinit : FuzzyScan.Seen (R := R) ⟨((0 : Nat) : R), ((0 : Nat) : R), none, .empty⟩ False :=
    ⟨fun _ => rfl, False.elim⟩
  have hseen := (scoreFuzzyRange_seen hpos (scannedWindows lines pattern start eof) hinit).2
    (.inr ⟨i, hi, hscore⟩)
  unfold SequenceFuzzyResult.toResult at h
  split at h
  · split at h
    · cases h
    · cases h
  · next hnot => exact hnot hseen

end Ordered

theorem lineNumberAt_eq (content : Text) (index : Nat) :
    lineNumberAt content index = (content.take index).count '\n' + 1 :=
  Text.length_splitLines_eq (content.take index)

theorem IsLines.count_joinLines {lines : List Text} (h : IsLines lines) :
    (Text.joinLines lines).count '\n' + 1 = lines.length := by
  rw [← Text.length_splitLines_eq, h.splitLines]

theorem count_flatMap_newline {above : List Text} (h : ∀ line ∈ above, '\n' ∉ line) :
    (above.flatMap (· ++ ['\n'])).count '\n' = above.length := by
  induction above with
  | nil => rfl
  | cons line above ih =>
    have hline := count_eq_zero_of_not_mem (h line mem_cons_self)
    have hrest := ih fun line' hline' => h line' (mem_cons_of_mem _ hline')
    simp
    omega

theorem IsLines.lineNumberAt_lineOffset {lines : List Text} (h : IsLines lines) {k : Nat}
    (hk : k < lines.length) : lineNumberAt (Text.joinLines lines)
    (lineOffset (lines.take k)) = k + 1 := by
  have hdrop : lines.drop k ≠ [] := by
    rw [ne_eq, drop_eq_nil_iff]
    omega
  have htake : (Text.joinLines lines).take (lineOffset (lines.take k)) =
      (lines.take k).flatMap (· ++ ['\n']) := by
    have hjoin := Text.joinLines_append_left (lines.take k) hdrop
    rw [take_append_drop] at hjoin
    rw [hjoin, lineOffset_eq, take_left]
  rw [lineNumberAt_eq, htake, count_flatMap_newline fun line hline =>
    h.no_newline line (mem_of_mem_take hline), length_take]
  omega

theorem lineNumberAt_add_le {lines pattern : List Text} (hlines : ∀ line ∈ lines, '\n' ∉ line)
    (hpattern : IsLines pattern) (hne : Text.joinLines pattern ≠ []) {k : Nat}
    (h : OccursAt (Text.joinLines pattern) (Text.joinLines lines) k) :
    lineNumberAt (Text.joinLines lines) k - 1 + pattern.length ≤ lines.length := by
  have hnil : lines ≠ [] := by
    rintro rfl
    have hle := h.add_le hne
    have hpos := length_pos_of_ne_nil hne
    have hzero : (Text.joinLines ([] : List Text)).length = 0 := rfl
    omega
  have hall := IsLines.count_joinLines ⟨hnil, hlines⟩
  have hcount := hpattern.count_joinLines
  rw [h.eq_append, count_append, count_append] at hall
  rw [lineNumberAt_eq]
  omega

/-- The native code gives for the characters what the code here gives. -/
def CharactersAgree (native : NativeBestFuzzyMatch R) (lines pattern : List Text) (start : Nat) :
    Prop :=
  ∀ f ∈ native, f (Text.joinLines (lines.drop start))
    (Text.joinLines pattern) CHARACTER_MATCH_THRESHOLD =
    findBestFuzzyMatch (Text.joinLines (lines.drop start))
      (Text.joinLines pattern) CHARACTER_MATCH_THRESHOLD

/-- The native matchers, where they are loaded, answer a search as the code here does. -/
structure MatchRuntime.NativeAgrees (runtime : MatchRuntime R) (lines pattern : List Text)
    (start : Nat)
    (eof : Bool) : Prop where
  findBestFuzzyMatch : CharactersAgree runtime.findBestFuzzyMatchNative lines pattern start
  scoreSequenceFuzzy : ∀ f ∈ runtime.scoreSequenceFuzzyNative,
    f lines pattern start eof = scoreSequenceFuzzy lines pattern start eof

theorem CharactersAgree.outcome {native : NativeBestFuzzyMatch R} {lines pattern : List Text}
    {start : Nat}
    (h : CharactersAgree native lines pattern start) :
    characterOutcome native lines pattern start = characterOutcome none lines pattern start := by
  cases native with
  | none => rfl
  | some f =>
    unfold characterOutcome findMatch
    rw [Option.getD_some, h f rfl]
    rfl

variable (R) in
/-- The lines of a window are similar to those of the pattern, on average, by one of the measures
that are used for windows. -/
def SimilarAt (lines pattern : List Text) (i : Nat) : Prop :=
  SEQUENCE_FUZZY_THRESHOLD ≤ (fuzzyScoreAt lines pattern i : R) ∨
    ∃ includeDepth, SEQUENCE_FUZZY_THRESHOLD ≤
      (windowScore pattern ((lines.drop i).take pattern.length) includeDepth : R)

/-- The window at line `i` is in the file, and it matches the pattern or is similar to it. -/
structure FitsAt (runtime : MatchRuntime R) (lines pattern : List Text) (i : Nat) : Prop where
  inside : i + pattern.length ≤ lines.length
  fits : LinesMatchAt R runtime.nfc lines pattern i ∨ SimilarAt R lines pattern i

def NoWindowFits (runtime : MatchRuntime R) (lines pattern : List Text) (start : Nat) (eof : Bool) :
    Prop :=
  ∀ i ∈ scannedWindows lines pattern start eof, ¬LinesMatchAt R runtime.nfc lines pattern i ∧
    ¬SEQUENCE_FUZZY_THRESHOLD ≤ (fuzzyScoreAt lines pattern i : R)

/-- No window fits, and the text of the pattern occurs all the same, and not twice without overlap,
in lines that are not similar to it. -/
def OccursInside (runtime : MatchRuntime R) (lines pattern : List Text) (start : Nat) (eof : Bool) :
    Prop :=
  NoWindowFits runtime lines pattern start eof ∧ Text.joinLines pattern ≠ [] ∧
    ∃ k, indexOf (Text.joinLines pattern) (Text.joinLines (lines.drop start)) = some k ∧
      (splitBy (Text.joinLines pattern) (Text.joinLines (lines.drop start))).length ≤ 2 ∧
      ¬SimilarAt R lines pattern (start + lineNumberAt (Text.joinLines (lines.drop start)) k - 1)

/-- No window fits, and the search starts behind the last line with a pattern that an empty line is
similar to. -/
def MatchesBehindEnd (runtime : MatchRuntime R) (lines pattern : List Text) (start : Nat)
    (eof : Bool) : Prop :=
  NoWindowFits runtime lines pattern start eof ∧ pattern ≠ [] ∧ pattern.length ≤ lines.length ∧
    lines.length ≤ start ∧
    (findMatch none [] (Text.joinLines pattern) true (CHARACTER_MATCH_THRESHOLD : R)).found.isSome =
      true

section Windows

variable {lines pattern : List Text} {start i : Nat} {eof : Bool}

theorem mem_scannedWindows (hlen : pattern.length ≤ lines.length) :
    i ∈ scannedWindows lines pattern start eof ↔ i + pattern.length ≤ lines.length ∧
      (start ≤ i ∨ eof = true ∧ i + pattern.length = lines.length) := by
  unfold scannedWindows searchStart
  rw [mem_append, mem_indicesFrom]
  cases eof with
  | false => simp; omega
  | true =>
    simp only [if_true, true_and]
    split
    · rw [mem_indicesFrom]
      omega
    · simp
      omega

end Windows

section Seek

variable [Std.IsLinearOrder R] [Std.LawfulOrderLT R] {runtime : MatchRuntime R}
  {lines pattern : List Text} {start : Nat} {eof : Bool}

omit [Std.IsLinearOrder R] [Std.LawfulOrderLT R] in
variable (runtime) in
theorem exactPasses_cases (hlen : pattern.length ≤ lines.length) :
    (∃ i ∈ scannedWindows lines pattern start eof, ∃ result,
      seekExact runtime lines pattern start eof true = some result ∧ result.index = some i ∧
      LinesMatchAt R runtime.nfc lines pattern i) ∨
    seekExact runtime lines pattern start eof true = none ∧
      ∀ i ∈ scannedWindows lines pattern start eof,
        ¬LinesMatchAt R runtime.nfc lines pattern i := by
  cases hexact : seekExact runtime lines pattern start eof true with
  | some result =>
    left
    rw [seekExact, Option.orElse_eq_orElse, Option.orElse_eq_or, Option.or_eq_some_iff] at hexact
    rcases hexact with h | ⟨-, h⟩
    · obtain ⟨i, hindex, hi, hmatch⟩ := runExactPasses_eq_some h
      exact ⟨i, mem_append_left _ hi, result, rfl, hindex, hmatch⟩
    · split at h
      · next heof =>
        obtain ⟨i, hindex, hi, hmatch⟩ := runExactPasses_eq_some h
        rw [mem_indicesFrom] at hi
        exact ⟨i, (mem_scannedWindows hlen).2 ⟨by omega, .inl hi.1⟩, result, rfl, hindex, hmatch⟩
      · cases h
  | none =>
    right
    rw [seekExact, Option.orElse_eq_orElse, Option.orElse_eq_or, Option.or_eq_none_iff] at hexact
    refine ⟨rfl, fun i hi => ?_⟩
    rcases mem_append.1 hi with hi | hi
    · exact runExactPasses_eq_none hexact.1 hi
    · split at hi
      · next heof =>
        have hnone := hexact.2
        rw [if_pos heof] at hnone
        rw [mem_indicesFrom] at hi
        have hle : searchStart lines pattern start eof ≤ lines.length - pattern.length := by
          rw [searchStart, if_pos heof.1]
        exact runExactPasses_eq_none hnone (mem_indicesFrom.2 ⟨hi.1, by omega⟩)
      · cases hi

omit [Std.IsLinearOrder R] [Std.LawfulOrderLT R] in
theorem MatchRuntime.NativeAgrees.toResult
    (hagrees : runtime.NativeAgrees lines pattern start eof) :
    ((runtime.scoreSequenceFuzzyNative.bind fun native =>
      (native lines pattern start eof).toResult) <|>
      (Edit.scoreSequenceFuzzy lines pattern start eof).toResult) =
        (Edit.scoreSequenceFuzzy lines pattern start eof : SequenceFuzzyResult R).toResult := by
  cases hnative : runtime.scoreSequenceFuzzyNative with
  | none => rfl
  | some f =>
    rw [Option.bind_some, hagrees.scoreSequenceFuzzy f hnative]
    cases h :
      (Edit.scoreSequenceFuzzy lines pattern start eof : SequenceFuzzyResult R).toResult <;> simp

variable (start eof) in
/-- A search answers with a window that fits, or with what the characters give. -/
theorem seekSequence_cases (hagrees : runtime.NativeAgrees lines pattern start eof)
    (hpos : ((0 : Nat) : R) < SEQUENCE_FUZZY_THRESHOLD) (hne : pattern ≠ [])
    (hlen : pattern.length ≤ lines.length) :
    (∃ i ∈ scannedWindows lines pattern start eof,
      (seekSequence runtime lines pattern start eof true).index = some i ∧
      (LinesMatchAt R runtime.nfc lines pattern i ∨
        SEQUENCE_FUZZY_THRESHOLD ≤ (fuzzyScoreAt lines pattern i : R))) ∨
    NoWindowFits runtime lines pattern start eof ∧
      seekSequence runtime lines pattern start eof true =
        characterResult runtime.findBestFuzzyMatchNative lines pattern start
          (scoreSequenceFuzzy lines pattern start eof).confidence := by
  have hzero : ¬pattern.length = 0 := fun h => hne (length_eq_zero_iff.1 h)
  unfold seekSequence
  rw [if_neg hzero, if_neg (Nat.not_lt.2 hlen)]
  rcases exactPasses_cases runtime hlen with ⟨i, hi, result, hexact, hindex,
      hmatch⟩ | ⟨hexact, hnone⟩
  · rw [hexact]
    exact .inl ⟨i, hi, hindex, .inl hmatch⟩
  · rw [hexact]
    dsimp only
    rw [if_neg (by decide), hagrees.toResult]
    cases hscored :
      (scoreSequenceFuzzy lines pattern start eof : SequenceFuzzyResult R).toResult with
    | some result =>
      obtain ⟨i, hindex, hi, hscore⟩ := scoreSequenceFuzzy_toResult_some hscored
      exact .inl ⟨i, hi, hindex, .inr hscore⟩
    | none =>
      exact .inr ⟨fun i hi => ⟨hnone i hi, scoreSequenceFuzzy_toResult_none hpos hscored hi⟩, rfl⟩

omit [Std.IsLinearOrder R] [Std.LawfulOrderLT R] in
/-- What the characters give: the line of a window of similar lines, or of the first place at which
the text of the pattern occurs. -/
theorem characterResult_index {native : NativeBestFuzzyMatch R}
    (hnative : CharactersAgree native lines pattern start) (hlines : ∀ line ∈ lines, '\n' ∉ line)
    (hpattern : IsLines pattern) (hstart : start < lines.length) {bestScore : R} {i : Nat}
    (h : (characterResult native lines pattern start bestScore).index = some i) :
    start ≤ i ∧ i + pattern.length ≤ lines.length ∧ Text.joinLines pattern ≠ [] ∧
      (SimilarAt R lines pattern i ∨
        ∃ k, indexOf (Text.joinLines pattern) (Text.joinLines (lines.drop start)) = some k ∧
          (splitBy (Text.joinLines pattern) (Text.joinLines (lines.drop start))).length ≤ 2 ∧
          i = start + lineNumberAt (Text.joinLines (lines.drop start)) k - 1) := by
  have hrest : IsLines (lines.drop start) := by
    refine ⟨fun hnil => ?_, fun line hline => hlines line (mem_of_mem_drop hline)⟩
    rw [drop_eq_nil_iff] at hnil
    omega
  have hpos : 0 < pattern.length := length_pos_of_ne_nil hpattern.ne_nil
  unfold characterResult at h
  dsimp only at h
  split at h
  · next m hfound =>
    have hi := Option.some.inj h
    have hnil : Text.joinLines pattern ≠ [] := by
      intro hnil
      rw [characterOutcome, hnil] at hfound
      cases hfound
    rw [hnative.outcome, characterOutcome] at hfound
    cases hindex : indexOf (Text.joinLines pattern) (Text.joinLines (lines.drop start)) with
    | some k =>
      by_cases hcount :
        (splitBy (Text.joinLines pattern) (Text.joinLines (lines.drop start))).length ≤ 2
      · rw [findMatch_of_occurs hnil hindex hcount] at hfound
        cases hfound
        have hline : start + lineNumberAt (Text.joinLines (lines.drop start)) k - 1 = i := hi
        have hle := lineNumberAt_add_le hrest.no_newline hpattern hnil (indexOf_eq_some hindex).1
        rw [length_drop] at hle
        have hone := lineNumberAt_eq (Text.joinLines (lines.drop start)) k
        exact ⟨by omega, by omega, hnil, .inr ⟨k, rfl, hcount, hline.symm⟩⟩
      · rw [findMatch_of_repeated hnil (by omega)] at hfound
        cases hfound
    | none =>
      obtain ⟨hbest, hthreshold⟩ := findMatch_of_not_occurs hindex hfound
      obtain ⟨includeDepth, hcore⟩ := findBestFuzzyMatch_core hbest
      obtain ⟨k, hwindow, hscore⟩ := findBestFuzzyMatchCore_window hcore
      rw [hrest.splitLines, hpattern.splitLines] at hwindow hscore
      have hle := hwindow.le
      rw [length_drop] at hle
      have hline := hrest.lineNumberAt_lineOffset (k := k) (by rw [length_drop]; omega)
      rw [hwindow.startIndex] at hi
      have hi' : i = start + k := by omega
      refine ⟨by omega, by omega, hnil, .inl (.inr ⟨includeDepth, ?_⟩)⟩
      rw [drop_drop, ← hi'] at hscore
      rw [← hscore]
      exact hthreshold
  · cases h

omit [Std.IsLinearOrder R] [Std.LawfulOrderLT R] in
theorem characterResult_of_occurs (native : NativeBestFuzzyMatch R)
    (hnil : Text.joinLines pattern ≠ []) {k : Nat}
    (hindex : indexOf (Text.joinLines pattern) (Text.joinLines (lines.drop start)) = some k)
    (hcount : (splitBy (Text.joinLines pattern) (Text.joinLines (lines.drop start))).length ≤ 2)
    (bestScore : R) :
    (characterResult native lines pattern start bestScore).index =
      some (start + lineNumberAt (Text.joinLines (lines.drop start)) k - 1) := by
  unfold characterResult characterOutcome
  rw [findMatch_of_occurs hnil hindex hcount]

omit [Std.IsLinearOrder R] [Std.LawfulOrderLT R] in
theorem characterResult_behind {native : NativeBestFuzzyMatch R}
    (hnative : CharactersAgree native lines pattern start) (hstart : lines.length ≤ start)
    (bestScore : R) :
    (characterResult native lines pattern start bestScore).index =
      (findMatch none [] (Text.joinLines pattern) true (CHARACTER_MATCH_THRESHOLD : R)).found.map
        fun _ => start := by
  unfold characterResult
  rw [hnative.outcome, characterOutcome, drop_eq_nil_of_le hstart]
  dsimp only
  have hnil : Text.joinLines [] = [] := rfl
  rw [hnil]
  split
  · next m hfound =>
    rw [hfound, lineNumberAt_eq, take_nil]
    rfl
  · next hfound =>
    rw [hfound]
    rfl

omit [Std.IsLinearOrder R] [Std.LawfulOrderLT R] in
theorem OccursInside.occurs (h : OccursInside runtime lines pattern start eof)
    (hlines : ∀ line ∈ lines, '\n' ∉ line) (hpattern : ∀ line ∈ pattern, '\n' ∉ line) :
    pattern ≠ [] ∧ start < lines.length ∧ pattern.length ≤ lines.length := by
  obtain ⟨-, hnil, k, hindex, -, -⟩ := h
  have hne : pattern ≠ [] := by
    rintro rfl
    exact hnil rfl
  have hpos : 0 < pattern.length := length_pos_of_ne_nil hne
  have hle := lineNumberAt_add_le (fun line hline => hlines line (mem_of_mem_drop hline))
    ⟨hne, hpattern⟩ hnil (indexOf_eq_some hindex).1
  rw [length_drop] at hle
  exact ⟨hne, by omega, by omega⟩

/-- A search that is allowed to be fuzzy answers with lines that fit the pattern, unless the pattern
occurs only inside of lines, or an empty line behind the file stands for it. -/
theorem seekSequence_fits_iff (hagrees : runtime.NativeAgrees lines pattern start eof)
    (hpos : ((0 : Nat) : R) < SEQUENCE_FUZZY_THRESHOLD) (hlines : ∀ line ∈ lines, '\n' ∉ line)
    (hpattern : ∀ line ∈ pattern, '\n' ∉ line) :
    (∀ i, (seekSequence runtime lines pattern start eof true).index = some i →
      FitsAt runtime lines pattern i) ↔
    (pattern = [] → start ≤ lines.length) ∧ ¬OccursInside runtime lines pattern start eof ∧
      ¬MatchesBehindEnd runtime lines pattern start eof := by
  by_cases hne : pattern = []
  · subst hne
    have hindex : (seekSequence runtime lines [] start eof true).index = some start := rfl
    have hmatch : LinesMatchAt R runtime.nfc lines [] start :=
      ⟨_, mem_cons_self, by simp [matchesAt]⟩
    constructor
    · intro h
      have hinside := (h start hindex).inside
      exact ⟨fun _ => hinside, fun hoccurs => hoccurs.2.1 rfl, fun hbehind => hbehind.2.1 rfl⟩
    · rintro ⟨hstart, -, -⟩ i hi
      rw [hindex] at hi
      cases hi
      exact ⟨hstart rfl, .inl hmatch⟩
  by_cases hlen : lines.length < pattern.length
  · have hindex : (seekSequence runtime lines pattern start eof true).index = none := by
      unfold seekSequence
      rw [if_neg fun h => hne (length_eq_zero_iff.1 h), if_pos hlen]
    rw [hindex]
    refine iff_of_true (fun i hi => by cases hi) ⟨fun h => absurd h hne, ?_, ?_⟩
    · intro hoccurs
      have hle := (hoccurs.occurs hlines hpattern).2.2
      omega
    · intro hbehind
      have hle := hbehind.2.2.1
      omega
  have hlen' : pattern.length ≤ lines.length := Nat.not_lt.1 hlen
  have hcases := seekSequence_cases start eof hagrees hpos hne hlen'
  rcases hcases with ⟨i, hi, hindex, hfits⟩ | ⟨hnone, hseek⟩
  · have hinside := ((mem_scannedWindows hlen').1 hi).1
    have hnot : ¬NoWindowFits runtime lines pattern start eof := by
      intro hnone
      exact hfits.elim (hnone i hi).1 (hnone i hi).2
    refine iff_of_true (fun j hj => ?_) ⟨fun h => absurd h hne, fun h => hnot h.1,
      fun h => hnot h.1⟩
    rw [hindex] at hj
    cases hj
    exact ⟨hinside, hfits.imp_right .inl⟩
  rw [hseek]
  by_cases hstart : start < lines.length
  · -- The characters give lines of the file, so only the similarity is in question.
    constructor
    · intro h
      refine ⟨fun hnil => absurd hnil hne, ?_, fun hbehind => absurd hbehind.2.2.2.1 (by omega)⟩
      rintro ⟨-, hnil, k, hindex, hcount, hsimilar⟩
      have hi := characterResult_of_occurs runtime.findBestFuzzyMatchNative hnil hindex hcount
        (scoreSequenceFuzzy lines pattern start eof).confidence
      obtain ⟨hle, hinside, -⟩ :=
        characterResult_index hagrees.findBestFuzzyMatch hlines ⟨hne, hpattern⟩ hstart hi
      have hscanned : start + lineNumberAt (Text.joinLines (lines.drop start)) k - 1 ∈
          scannedWindows lines pattern start eof := (mem_scannedWindows hlen').2 ⟨hinside, .inl hle⟩
      exact (h _ hi).fits.elim (hnone _ hscanned).1 hsimilar
    · rintro ⟨-, hoccurs, -⟩ i hi
      obtain ⟨-, hinside, hnil, hsimilar | ⟨k, hindex, hcount, rfl⟩⟩ :=
        characterResult_index hagrees.findBestFuzzyMatch hlines ⟨hne, hpattern⟩ hstart hi
      · exact ⟨hinside, .inr hsimilar⟩
      · refine ⟨hinside, .inr ?_⟩
        by_contra hsimilar
        exact hoccurs ⟨hnone, hnil, k, hindex, hcount, hsimilar⟩
  · have hstart' : lines.length ≤ start := Nat.not_lt.1 hstart
    rw [characterResult_behind hagrees.findBestFuzzyMatch hstart']
    have hpos : 0 < pattern.length := length_pos_of_ne_nil hne
    constructor
    · intro h
      refine ⟨fun hnil => absurd hnil hne, fun hoccurs => ?_, fun hbehind => ?_⟩
      · exact hstart (hoccurs.occurs hlines hpattern).2.1
      · obtain ⟨m, hfound⟩ := Option.isSome_iff_exists.1 hbehind.2.2.2.2
        have hinside := (h start (by rw [hfound]; rfl)).inside
        omega
    · rintro ⟨-, -, hbehind⟩ i hi
      obtain ⟨m, hfound, -⟩ := Option.map_eq_some_iff.1 hi
      exact absurd ⟨hnone, hne, hlen', hstart', by rw [hfound]; rfl⟩ hbehind

end Seek

theorem zip_all_eq_iff {lines pattern : List Text} (hlen : pattern.length ≤ lines.length) :
    ((lines.zip pattern).all fun (line, patternLine) => line = patternLine) = true ↔
      pattern <+: lines := by
  induction pattern generalizing lines with
  | nil => simp
  | cons patternLine pattern ih =>
    cases lines with
    | nil => simp at hlen
    | cons line lines =>
      have hrest := ih (Nat.le_of_succ_le_succ hlen)
      rw [zip_cons_cons, all_cons, Bool.and_eq_true, hrest, cons_prefix_cons, decide_eq_true_iff,
        eq_comm]

theorem matchesAt_eq_iff {lines pattern : List Text} {i : Nat}
    (hi : i + pattern.length ≤ lines.length) :
    matchesAt lines pattern i (fun a b => a = b) = true ↔ OccursAt pattern lines i := by
  apply zip_all_eq_iff
  rw [length_drop]
  omega

variable (R) in
def exactResult (k : Nat) : SequenceSearchResult R :=
  { index := some k, confidence := ((1 : Nat) : R), strategy := some .exact }

theorem runExactPasses_of_occursAt (nfc : Text → Text) {lines pattern : List Text}
    {start stop k : Nat}
    (hne : pattern ≠ []) (hk : OccursAt pattern lines k) (hstart : start ≤ k) (hstop : k < stop)
    (hfirst : ∀ j, start ≤ j → j < k → ¬OccursAt pattern lines j) (allowFuzzy : Bool) :
    runExactPasses nfc allowFuzzy lines pattern start stop = some (exactResult R k) := by
  have hle := hk.add_le hne
  have hfind : (indicesFrom start stop).find?
      (fun i => matchesAt lines pattern i fun a b => a = b) = some k := by
    rw [indicesFrom, find?_range'_eq_some]
    refine ⟨(matchesAt_eq_iff hle).2 hk, by rw [mem_range'_1]; omega, fun j hj hjk => ?_⟩
    rw [Bool.not_eq_true']
    refine Bool.eq_false_of_not_eq_true fun hmatch => ?_
    exact hfirst j hj hjk ((matchesAt_eq_iff (by omega)).1 hmatch)
  have hpass : runPasses (comparisonPasses nfc) toSingleMatchResult lines pattern start stop =
      some (exactResult R k) := by
    unfold runPasses comparisonPasses
    rw [findSome?_cons, toSingleMatchResult, collectIndexedMatches_firstMatch, hfind]
    rfl
  unfold runExactPasses
  rw [hpass]
  rfl

theorem seekSequence_of_occursAt (runtime : MatchRuntime R) {lines pattern : List Text}
    {start k : Nat}
    (hne : pattern ≠ []) (hk : OccursAt pattern lines k) (hstart : start ≤ k)
    (hfirst : ∀ j, start ≤ j → j < k → ¬OccursAt pattern lines j) (allowFuzzy : Bool) :
    seekSequence runtime lines pattern start false allowFuzzy = exactResult R k := by
  have hle := hk.add_le hne
  have hexact : seekExact runtime lines pattern start false allowFuzzy =
      some (exactResult R k) := by
    have hsearch : searchStart lines pattern start false = start := rfl
    unfold seekExact
    dsimp only
    rw [hsearch, runExactPasses_of_occursAt _ hne hk hstart (by omega) hfirst]
    rfl
  unfold seekSequence
  rw [if_neg fun h => hne (length_eq_zero_iff.1 h), if_neg (by omega), hexact]

end Search

def nativeRuntime : MatchRuntime ℚ := ⟨id, some findBestFuzzyMatch, some scoreSequenceFuzzy⟩

theorem nativeRuntime_agrees (lines pattern : List Text) (start : Nat) (eof : Bool) :
    nativeRuntime.NativeAgrees lines pattern start eof := by
  refine ⟨fun f hf => ?_, fun f hf => ?_⟩
  · rw [← Option.some.inj hf]
  · rw [← Option.some.inj hf]

theorem seekSequence_fits_word :
    (∀ i, (seekSequence nativeRuntime ["let b = 2;".toList, "let a = 1;".toList]
      ["let a = 1".toList] 0 false true).index = some i →
      FitsAt nativeRuntime ["let b = 2;".toList, "let a = 1;".toList] ["let a = 1".toList] i) ↔
    (["let a = 1".toList] = [] → 0 ≤ 2) ∧
      ¬OccursInside nativeRuntime ["let b = 2;".toList, "let a = 1;".toList]
        ["let a = 1".toList] 0 false ∧
      ¬MatchesBehindEnd nativeRuntime ["let b = 2;".toList, "let a = 1;".toList]
        ["let a = 1".toList] 0
        false :=
  seekSequence_fits_iff (nativeRuntime_agrees _ _ _ _) (by decide +kernel) (by decide +kernel)
    (by decide +kernel)

/-- A whole line is found for three characters inside of it. -/
theorem seekSequence_fragment :
    ¬∀ i, (seekSequence nativeRuntime ["return foo(bar);".toList]
      ["bar".toList] 0 false true).index = some i →
      FitsAt nativeRuntime ["return foo(bar);".toList] ["bar".toList] i := by
  intro h
  have hindex :
      (seekSequence nativeRuntime ["return foo(bar);".toList] ["bar".toList] 0 false true).index =
      some 0 := by decide +kernel
  have hmatch : ¬LinesMatchAt ℚ id ["return foo(bar);".toList] ["bar".toList] 0 := by
    unfold LinesMatchAt
    decide +kernel
  have hsimilar : ¬SimilarAt ℚ ["return foo(bar);".toList] ["bar".toList] 0 := by
    unfold SimilarAt
    decide +kernel
  exact (h 0 hindex).fits.elim hmatch hsimilar

end Vibrato.Edit
