import Vibrato.Edit.Normalize
import Vibrato.Lib.Budget
import Vibrato.Lib.Occurrences
import Mathlib.Data.Rat.Cast.Order

/-! The text matching of `edit/modes/replace.ts`: `findMatch` looks for a text in a file, first
exactly and then by the similarity of line windows. -/

namespace Vibrato.Edit

open Vibrato.Lib List Text

/-- The arithmetic of scores, which are doubles in the source. -/
class Score (R : Type) extends Add R, Sub R, Div R, NatCast R, LE R, LT R where
  decidableLE : DecidableLE R
  decidableLT : DecidableLT R

instance decLE {R : Type} [Score R] : DecidableLE R := Score.decidableLE

instance decLT {R : Type} [Score R] : DecidableLT R := Score.decidableLT

instance : Score ℚ where
  decidableLE := inferInstance
  decidableLT := inferInstance

/-- A score given in percent.  Doubles round `n / 100` as they round the literal. -/
def percent {R : Type} [Score R] (n : Nat) : R := (n : R) / ((100 : Nat) : R)

section Thresholds

variable {R : Type} [Score R]

def DEFAULT_FUZZY_THRESHOLD : R := percent 95

def FALLBACK_THRESHOLD : R := percent 80

def DOMINANT_FUZZY_MIN_CONFIDENCE : R := percent 97

def DOMINANT_FUZZY_DELTA : R := percent 8

end Thresholds

def OCCURRENCE_PREVIEW_CONTEXT : Nat := 5

def OCCURRENCE_PREVIEW_MAX_LEN : Nat := 80

def MAX_RECORDED_MATCHES : Nat := 5

def levenshteinCells (aCode : Nat) : Nat → List Nat → List Nat → List Nat
  | left, diagonal :: above :: prev, bCode :: b =>
    let cost := if aCode = bCode then 0 else 1
    let cell := min (min (above + 1) (left + 1)) (diagonal + cost)
    cell :: levenshteinCells aCode cell (above :: prev) b
  | _, _, _ => []

/-- The rows of the table, one for each code of the first text; the last cell of the last row. -/
def levenshteinRows (b : List Nat) : Nat → List Nat → List Nat → Nat
  | _, prev, [] => prev.getLastD 0
  | i, prev, aCode :: a => levenshteinRows b (i + 1) (i :: levenshteinCells aCode i prev b) a

def levenshteinDistance (a b : List Nat) : Nat :=
  if a = b then 0
  else if a.length = 0 then b.length
  else if b.length = 0 then a.length
  else levenshteinRows b 1 (List.range (b.length + 1)) a

section Similarity

variable {R : Type} [Score R]

def similarity (a b : Text) : R :=
  let a := utf16 a
  let b := utf16 b
  if a.length = 0 ∧ b.length = 0 then ((1 : Nat) : R)
  else
    let maxLen := max a.length b.length
    ((1 : Nat) : R) - (levenshteinDistance a b : R) / (maxLen : R)

variable (lines : List Text)

def computeRelativeIndentDepths : List Nat :=
  let nonEmptyIndents := (lines.filter (!isBlank ·)).map countLeadingWhitespace
  let minIndent := nonEmptyIndents.min?.getD 0
  let indentSteps := (nonEmptyIndents.map (· - minIndent)).filter (0 < ·)
  let indentUnit := indentSteps.min?.getD 1
  lines.map fun line =>
    if isBlank line then 0
    else
      -- rounded half up
      let relativeIndent := countLeadingWhitespace line - minIndent
      (2 * relativeIndent + indentUnit) / (2 * indentUnit)

def normalizeLines (includeDepth : Bool) : List Text :=
  let depths := (computeRelativeIndentDepths lines).map ofNat
  let heads := if includeDepth then depths else lines.map fun _ => []
  (lines.zip heads).map fun (line, head) => head ++ '|' :: normalizeForFuzzy line

structure FuzzyMatch (R : Type) where
  actualText : Text
  startIndex : Nat
  startLine : Nat
  confidence : R
  deriving DecidableEq

/-- What a search found: a match; or the closest text; or how often the text occurs. -/
structure MatchOutcome (R : Type) where
  found : Option (FuzzyMatch R) := none
  closest : Option (FuzzyMatch R) := none
  occurrences : Option Nat := none
  occurrenceLines : List Nat := []
  occurrencePreviews : List Text := []
  fuzzyMatches : Option Nat := none
  dominantFuzzy : Bool := false

/-- The first `n` UTF-16 code units, in whole characters. -/
def takeUnits (n : Nat) (s : Text) : Text := takeBudget (fun c => (utf16 [c]).length) n s

def formatPreviewWindow (centerIndex context maxLen : Nat) : Text :=
  let start := centerIndex - context
  let stop := min lines.length (centerIndex + context + 1)
  joinLines (((lines.take stop).drop start).zipIdx.map fun (line, index) =>
    let num := start + index + 1
    let truncated :=
      if (utf16 line).length > maxLen then takeUnits (maxLen - 1) line ++ ['\u2026'] else line
    "  ".toList ++ ofNat num ++ " | ".toList ++ truncated)

def lineNumberAt (content : Text) (index : Nat) : Nat := (splitLines (content.take index)).length

def occurrenceLinesFrom (content target : Text) : Nat → Nat → List Nat
  | 0, _ => []
  | count + 1, searchStart =>
    match indexOf target (content.drop searchStart) with
    | none => []
    | some i =>
      lineNumberAt content (searchStart + i) :: occurrenceLinesFrom content target count
        (searchStart + i + 1)

def findExactMatchOutcome (content target : Text) : Option (MatchOutcome R) :=
  match indexOf target content with
  | none => none
  | some exactIndex =>
    let occurrences := (splitBy target content).length - 1
    if 1 < occurrences then
      let occurrenceLines := occurrenceLinesFrom content target MAX_RECORDED_MATCHES 0
      let occurrencePreviews := occurrenceLines.map fun lineNumber =>
        formatPreviewWindow (splitLines content) (lineNumber - 1) OCCURRENCE_PREVIEW_CONTEXT
          OCCURRENCE_PREVIEW_MAX_LEN
      some { occurrences := some occurrences, occurrenceLines, occurrencePreviews }
    else
      some { found := some ⟨target, exactIndex, lineNumberAt content exactIndex, ((1 : Nat) : R)⟩ }

structure BestFuzzyMatchResult (R : Type) where
  best : Option (FuzzyMatch R)
  aboveThresholdCount : Nat
  secondBestScore : R

def windowScore (targetLines windowLines : List Text) (includeDepth : Bool) : R :=
  let targetNormalized := normalizeLines targetLines includeDepth
  let windowNormalized := normalizeLines windowLines includeDepth
  let total := (targetNormalized.zip windowNormalized).foldl
    (fun score (a, b) => score + similarity a b) ((0 : Nat) : R)
  total / (targetLines.length : R)

structure BestSoFar (R : Type) extends BestFuzzyMatchResult R where
  bestScore : R

/-- The loop over the windows from `start` on, with the lines from there and their offset in the
text. -/
def findBestFuzzyMatchLoop (targetLines : List Text) (threshold : R) (includeDepth : Bool) :
    List Text → Nat → Nat → BestSoFar R → BestSoFar R
  | [], _, _, st => st
  | line :: rest, start, offset, st =>
    if (line :: rest).length < targetLines.length then st
    else
      let windowLines := (line :: rest).take targetLines.length
      let score := windowScore targetLines windowLines includeDepth
      let aboveThresholdCount := st.aboveThresholdCount + if score ≥ threshold then 1 else 0
      let best : FuzzyMatch R := ⟨joinLines windowLines, offset, start + 1, score⟩
      findBestFuzzyMatchLoop targetLines threshold includeDepth rest (start + 1)
        (offset + line.length + 1)
        (if score > st.bestScore then ⟨⟨some best, aboveThresholdCount, st.bestScore⟩, score⟩
        else if score > st.secondBestScore then ⟨⟨st.best, aboveThresholdCount, score⟩,
          st.bestScore⟩
        else ⟨⟨st.best, aboveThresholdCount, st.secondBestScore⟩, st.bestScore⟩)

def findBestFuzzyMatchCore (contentLines targetLines : List Text) (threshold : R)
    (includeDepth : Bool) : BestFuzzyMatchResult R :=
  let minusOne := ((0 : Nat) : R) - ((1 : Nat) : R)
  (findBestFuzzyMatchLoop targetLines threshold includeDepth contentLines 0 0
    ⟨⟨none, 0, minusOne⟩, minusOne⟩).toBestFuzzyMatchResult

def findBestFuzzyMatch (content target : Text) (threshold : R) : BestFuzzyMatchResult R :=
  let contentLines := splitLines content
  let targetLines := splitLines target
  if target.length = 0 ∨ contentLines.length < targetLines.length then ⟨none, 0, ((0 : Nat) : R)⟩
  else
    let result := findBestFuzzyMatchCore contentLines targetLines threshold true
    match result.best with
    | none => result
    | some best =>
      if best.confidence < threshold ∧ best.confidence ≥ FALLBACK_THRESHOLD then
        let noDepthResult := findBestFuzzyMatchCore contentLines targetLines threshold false
        match noDepthResult.best with
        | some noDepthBest =>
            if noDepthBest.confidence > best.confidence then noDepthResult else result
        | none => result
      else result

/-- The native matcher, once it is loaded. -/
abbrev NativeBestFuzzyMatch (R : Type) := Option (Text → Text → R → BestFuzzyMatchResult R)

def findMatch (native : NativeBestFuzzyMatch R) (content target : Text) (allowFuzzy : Bool)
    (threshold : R) : MatchOutcome R :=
  if target.length = 0 then {}
  else
    match findExactMatchOutcome content target with
    | some exactMatch => exactMatch
    | none =>
      let result := (native.getD findBestFuzzyMatch) content target threshold
      match result.best with
      | none => {}
      | some best =>
        if allowFuzzy = true ∧ best.confidence ≥ threshold ∧ result.aboveThresholdCount = 1 then
          { found := some best, closest := some best }
        else if allowFuzzy = true ∧ best.confidence ≥ threshold ∧ 1 < result.aboveThresholdCount ∧
            best.confidence ≥ DOMINANT_FUZZY_MIN_CONFIDENCE ∧
            best.confidence - result.secondBestScore ≥ DOMINANT_FUZZY_DELTA then
          { found := some best, closest := some best
            fuzzyMatches := some result.aboveThresholdCount, dominantFuzzy := true }
        else
          { closest := some best, fuzzyMatches := some result.aboveThresholdCount }

end Similarity

def lineOffset (lines : List Text) : Nat := (lines.map (·.length + 1)).sum

section Windows

variable {R : Type}

/-- A match is the window of `len` lines at line `start`. -/
structure IsWindow (contentLines : List Text) (len start : Nat) (m : FuzzyMatch R) : Prop where
  le : start + len ≤ contentLines.length
  actualText : m.actualText = joinLines ((contentLines.drop start).take len)
  startIndex : m.startIndex = lineOffset (contentLines.take start)
  startLine : m.startLine = start + 1

def FindsWindows (native : NativeBestFuzzyMatch R) : Prop :=
  ∀ f ∈ native, ∀ content target threshold best, (f content target threshold).best = some best →
    ∃ start, IsWindow (splitLines content) (splitLines target).length start best

variable [Score R]

variable {contentLines targetLines : List Text} {includeDepth : Bool} {best : FuzzyMatch R}
    {threshold : R}

theorem findBestFuzzyMatchLoop_window {rest : List Text} {start offset : Nat} {st : BestSoFar R}
    (hrest : contentLines.drop start = rest)
    (hoffset : offset = lineOffset (contentLines.take start))
    (hst : ∀ best ∈ st.best, ∃ k, IsWindow contentLines targetLines.length k best ∧
      best.confidence =
      windowScore targetLines ((contentLines.drop k).take targetLines.length) includeDepth) :
    ∀ best ∈ (findBestFuzzyMatchLoop targetLines threshold includeDepth rest start offset st).best,
      ∃ k, IsWindow contentLines targetLines.length k best ∧ best.confidence =
        windowScore targetLines ((contentLines.drop k).take targetLines.length) includeDepth := by
  induction rest generalizing start offset st with
  | nil => exact hst
  | cons line rest ih =>
    unfold findBestFuzzyMatchLoop
    split
    · exact hst
    · next hlength =>
      have hnext : contentLines.drop (start + 1) = rest := by
        rw [← drop_drop, hrest, drop_succ_cons, drop_zero]
      have hlt : start < contentLines.length := by
        have hlen := congrArg List.length hrest
        rw [length_drop, length_cons] at hlen
        omega
      have hline : contentLines.take (start + 1) = contentLines.take start ++ [line] := by
        rw [take_succ_eq_append_getElem hlt]
        have hget := congrArg List.head? hrest
        rw [head?_drop, getElem?_eq_getElem hlt] at hget
        rw [Option.some.inj hget]
      have hoffset' : offset + line.length + 1 = lineOffset (contentLines.take (start + 1)) := by
        rw [hline, lineOffset, map_append, sum_append, hoffset]
        rfl
      refine ih hnext hoffset' ?_
      have hle : start + targetLines.length ≤ contentLines.length := by
        have hlen := congrArg List.length hrest
        rw [length_drop] at hlen
        omega
      split
      · intro best hbest
        cases hbest
        rw [← hrest]
        exact ⟨start, ⟨hle, rfl, hoffset, rfl⟩, rfl⟩
      · split
        · exact hst
        · exact hst

theorem findBestFuzzyMatchCore_window
    (h : (findBestFuzzyMatchCore contentLines targetLines threshold includeDepth).best =
      some best) :
    ∃ k, IsWindow contentLines targetLines.length k best ∧ best.confidence =
      windowScore targetLines ((contentLines.drop k).take targetLines.length) includeDepth := by
  have hnone : ∀ best' ∈ (none : Option (FuzzyMatch R)), ∃ k,
      IsWindow contentLines targetLines.length k best' ∧ best'.confidence =
        windowScore targetLines ((contentLines.drop k).take targetLines.length) includeDepth :=
    fun best' hbest' => by cases hbest'
  exact findBestFuzzyMatchLoop_window drop_zero rfl hnone best h

theorem findBestFuzzyMatch_core {content target : Text}
    (h : (findBestFuzzyMatch content target threshold).best = some best) :
    ∃ includeDepth, (findBestFuzzyMatchCore (splitLines content) (splitLines target) threshold
      includeDepth).best = some best := by
  unfold findBestFuzzyMatch at h
  dsimp only at h
  split at h
  · cases h
  split at h
  · exact ⟨true, h⟩
  split at h
  · split at h
    · split at h
      · exact ⟨false, h⟩
      · exact ⟨true, h⟩
    · exact ⟨true, h⟩
  · exact ⟨true, h⟩

omit [Score R] in
theorem findsWindows_none : FindsWindows (none : NativeBestFuzzyMatch R) :=
  fun f hf => by cases hf

theorem FindsWindows.isWindow {native : NativeBestFuzzyMatch R} (hnative : FindsWindows native)
    {content target : Text}
    (h : ((native.getD findBestFuzzyMatch) content target threshold).best = some best) :
    ∃ k, IsWindow (splitLines content) (splitLines target).length k best := by
  cases native with
  | none =>
    obtain ⟨includeDepth, hcore⟩ := findBestFuzzyMatch_core h
    obtain ⟨k, hk, -⟩ := findBestFuzzyMatchCore_window hcore
    exact ⟨k, hk⟩
  | some f => exact hnative f rfl content target threshold best h

section Exact

variable {native : NativeBestFuzzyMatch R} {content target : Text} {allowFuzzy : Bool}
    {threshold : R}

theorem findMatch_of_occurs (hne : target ≠ []) {i : Nat} (hindex : indexOf target content = some i)
    (hcount : (splitBy target content).length ≤ 2) :
    findMatch native content target allowFuzzy threshold =
      { found := some ⟨target, i, lineNumberAt content i, ((1 : Nat) : R)⟩ } := by
  have hlength : ¬target.length = 0 := fun h => hne (length_eq_zero_iff.1 h)
  have hone : ¬1 < (splitBy target content).length - 1 := by omega
  simp only [findMatch, findExactMatchOutcome, if_neg hlength, hindex, if_neg hone]

theorem findMatch_of_repeated (hne : target ≠ []) (hcount : 2 < (splitBy target content).length) :
    (findMatch native content target allowFuzzy threshold).found = none := by
  have hlength : ¬target.length = 0 := fun h => hne (length_eq_zero_iff.1 h)
  have hone : 1 < (splitBy target content).length - 1 := by omega
  obtain ⟨i, -, hi, -⟩ := (two_lt_length_splitBy hne content).1 hcount
  cases hindex : indexOf target content with
  | none => exact absurd hi (indexOf_eq_none hindex i)
  | some first => simp only [findMatch, findExactMatchOutcome, if_neg hlength, hindex, if_pos hone]

variable {m : FuzzyMatch R}

theorem findMatch_of_not_occurs (hindex : indexOf target content = none)
    (h : (findMatch native content target allowFuzzy threshold).found = some m) :
    ((native.getD findBestFuzzyMatch) content target threshold).best = some m ∧
      m.confidence ≥ threshold := by
  unfold findMatch at h
  split at h
  · cases h
  simp only [findExactMatchOutcome, hindex] at h
  split at h
  · cases h
  · next best hbest =>
    split at h
    · next hfuzzy =>
      cases h
      exact ⟨hbest, hfuzzy.2.1⟩
    · split at h
      · next hfuzzy =>
        cases h
        exact ⟨hbest, hfuzzy.2.1⟩
      · cases h

theorem findMatch_closest (hindex : indexOf target content = none)
    (h : (findMatch native content target allowFuzzy threshold).closest = some m) :
    ((native.getD findBestFuzzyMatch) content target threshold).best = some m := by
  unfold findMatch at h
  split at h
  · cases h
  simp only [findExactMatchOutcome, hindex] at h
  split at h
  · cases h
  · next best hbest =>
    rw [hbest]
    split at h
    · exact h
    · split at h
      · exact h
      · exact h

end Exact

end Windows

theorem joinLines_infix (above lines below : List Text) :
    joinLines lines <:+: joinLines (above ++ (lines ++ below)) := by
  by_cases hnil : lines = []
  · rw [hnil]
    exact nil_infix
  · rw [joinLines_append_left _ (append_ne_nil_of_left_ne_nil hnil _), joinLines_append_right hnil,
      ← append_assoc]
    exact infix_append _ _ _

theorem IsWindow.infix {R : Type} {content : Text} {len start : Nat} {m : FuzzyMatch R}
    (h : IsWindow (splitLines content) len start m) : m.actualText <:+: content := by
  have hinfix := joinLines_infix ((splitLines content).take start)
    (((splitLines content).drop start).take len) (((splitLines content).drop start).drop len)
  rw [take_append_drop, take_append_drop, joinLines_splitLines] at hinfix
  rw [h.actualText]
  exact hinfix

section Unique

variable {R : Type} [Score R] {native : NativeBestFuzzyMatch R}

/-- An exact match is at the only place where the target occurs, exactly if a target that occurs
twice does so without overlap. -/
theorem findMatch_exact_unique_iff (hnative : FindsWindows native) (content : Text) {target : Text}
    (hne : target ≠ []) (allowFuzzy : Bool) (threshold : R) :
    (∀ m, (findMatch native content target allowFuzzy threshold).found = some m →
        m.actualText = target → ∀ i, OccursAt target content i ↔ i = m.startIndex) ↔
      ∀ i j, OccursAt target content i → OccursAt target content j → i < j →
        ∃ i' j', OccursAt target content i' ∧ OccursAt target content j' ∧
          i' + target.length ≤ j' := by
  cases hindex : indexOf target content with
  | none =>
    refine iff_of_true (fun m hm hactual => ?_) fun i j hi => absurd hi (indexOf_eq_none hindex i)
    obtain ⟨hbest, -⟩ := findMatch_of_not_occurs hindex hm
    obtain ⟨k, hwindow⟩ := hnative.isWindow hbest
    -- a window that is the target would be an occurrence
    obtain ⟨before, after, happend⟩ := hwindow.infix
    rw [hactual, append_assoc] at happend
    exact absurd (happend ▸ occursAt_append before after) (indexOf_eq_none hindex _)
  | some first =>
    obtain ⟨hfirst, hbefore⟩ := indexOf_eq_some hindex
    by_cases hcount : 2 < (splitBy target content).length
    · have hnone := @findMatch_of_repeated R _ native content target allowFuzzy threshold hne hcount
      refine iff_of_true (fun m hm => ?_) fun i j hi hj _ =>
        (two_lt_length_splitBy hne content).1 hcount
      rw [hnone] at hm
      cases hm
    · rw [findMatch_of_occurs hne hindex (Nat.le_of_not_lt hcount)]
      have hnot := mt (two_lt_length_splitBy hne content).2 hcount
      constructor
      · intro hunique i j hi hj hlt
        have hplaces := hunique _ rfl rfl
        rw [(hplaces i).1 hi, (hplaces j).1 hj] at hlt
        exact absurd hlt (Nat.lt_irrefl _)
      · intro hapart m hm _ i
        cases hm
        constructor
        · intro hi
          rcases Nat.lt_trichotomy i first with hlt | heq | hlt
          · exact absurd hi (hbefore i hlt)
          · exact heq
          · exact absurd (hapart first i hfirst hi hlt) hnot
        · rintro rfl
          exact hfirst

/-- A text that cannot overlap itself is matched where it alone occurs. -/
theorem findMatch_exact_unique_word :
    OccursAt "b c".toList "a b c".toList 2 ∧
      ∀ i, OccursAt "b c".toList "a b c".toList i → i = 2 := by
  have hapart : ∀ i j, OccursAt "b c".toList "a b c".toList i →
      OccursAt "b c".toList "a b c".toList j →
      i < j → ∃ i' j', OccursAt "b c".toList "a b c".toList i' ∧
        OccursAt "b c".toList "a b c".toList j' ∧ i' + "b c".toList.length ≤ j' := by
    intro i j hi hj hlt
    have hle : j + 3 ≤ 5 := hj.add_le (by decide)
    have hnot : ∀ i < 2, ¬OccursAt "b c".toList "a b c".toList i := by decide
    exact absurd hi (hnot i (by omega))
  have hunique :=
    (findMatch_exact_unique_iff (R := ℚ) findsWindows_none "a b c".toList (by decide) true
    (percent 95)).2 hapart ⟨"b c".toList, 2, 1, 1⟩ (by decide +kernel) rfl
  exact ⟨(hunique 2).2 rfl, fun i hi => (hunique i).1 hi⟩

/-- Two places where a text occurs count as one if they overlap. -/
theorem findMatch_exact_overlapping :
    (findMatch (R := ℚ) none "aaa".toList "aa".toList true (percent 95)).found.map
        (fun m => (m.actualText, m.startIndex)) = some ("aa".toList, 0) ∧
      OccursAt "aa".toList "aaa".toList 0 ∧ OccursAt "aa".toList "aaa".toList 1 := by
  decide +kernel

end Unique

end Vibrato.Edit
