import Vibrato.Text

/-! The targets of `read` calls: a path, and a selector of lines behind its last colon.  The grammar
of selectors is that of the read tool. -/

namespace Vibrato.Pruning

open Text

def lowerAscii (c : Char) : Char := if 'A' ≤ c ∧ c ≤ 'Z' then Char.ofNat (c.toNat + 32) else c

/-- A comparison by a case-insensitive regular expression, for a word of small letters. -/
def sameWord (s word : Text) : Bool := s.map lowerAscii = word

/-- The text behind an optional `L`. -/
def dropLineSign : Text → Text
  | 'L' :: rest => rest
  | 'l' :: rest => rest
  | s => s

variable (s : Text)

/-- `L?\d+` up to the end of the text. -/
def isLineNumber : Bool :=
  let digits := dropLineSign s
  !digits.isEmpty && digits.all isDigit

/-- `L?\d+(?:[-+]L?\d+|-)?`. -/
def isRangePart (part : Text) : Bool :=
  let rest := dropLineSign part
  !(rest.takeWhile isDigit).isEmpty &&
    match rest.dropWhile isDigit with
    | [] => true
    | sign :: last => (sign = '-' || sign = '+') && isLineNumber last || sign = '-' && last.isEmpty

/-- `READ_RANGE_SELECTOR_RE`. -/
def isRangeSelector : Bool := (s.splitOn ',').all isRangePart

/-- `READ_RAW_SELECTOR_RE`. -/
def isRawSelector : Bool := sameWord s "raw".toList

/-- `READ_SELECTOR_RE`. -/
def isReadSelector : Bool :=
  isRangeSelector s || isRawSelector s || sameWord s "conflicts".toList

def splitAtLastColon : Option (Text × Text) :=
  match s.reverse.dropWhile (· ≠ ':') with
  | [] => none
  | _ :: before =>
    if before.isEmpty then none
    else some (before.reverse, (s.reverse.takeWhile (· ≠ ':')).reverse)

structure ReadTarget where
  basePath : Text
  selector : Option Text

def isCompoundSelector (inner outer : Text) : Bool :=
  isRawSelector inner && isRangeSelector outer || isRangeSelector inner && isRawSelector outer

variable (path : Text)

def splitReadTarget : ReadTarget :=
  match splitAtLastColon path with
  | none => ⟨path, none⟩
  | some (basePath, outer) =>
    if !isReadSelector outer then ⟨path, none⟩
    else
      match splitAtLastColon basePath with
      | some (innerPath, inner) =>
        if isCompoundSelector inner outer then ⟨innerPath, some (inner ++ ':' :: outer)⟩
        else ⟨basePath, some outer⟩
      | none => ⟨basePath, some outer⟩

def readBasePath : Text := (splitReadTarget path).basePath

/-- The lines from `start` to `stop`. -/
structure ReadLineRange where
  start : Nat
  stop : Nat

def parseRangePart (part : Text) : Option ReadLineRange :=
  let rest := dropLineSign part
  let first := rest.takeWhile isDigit
  match rest.dropWhile isDigit with
  | [] => none
  | sign :: last =>
    if first.isEmpty || !(sign = '-' || sign = '+') || !isLineNumber last then none
    else
      let start := parseDigits first
      let second := parseDigits (dropLineSign last)
      let stop := if sign = '+' then start + second - 1 else second
      if 0 < start ∧ start ≤ stop then some ⟨start, stop⟩ else none

def isRangeFree (selector : Text) : Bool :=
  (selector.splitOn ':').any isRawSelector || sameWord selector "conflicts".toList

def readLineRanges : List ReadLineRange :=
  match (splitReadTarget path).selector with
  | none => []
  | some selector =>
    if isRangeFree selector then [] else (selector.splitOn ',').filterMap parseRangePart

def strictlyContainsReadRange (container contained : ReadLineRange) : Bool :=
  container.start ≤ contained.start && contained.stop ≤ container.stop &&
    (container.start < contained.start || contained.stop < container.stop)

theorem strictlyContainsReadRange_trans {a b c : ReadLineRange}
    (hab : strictlyContainsReadRange a b = true) (hbc : strictlyContainsReadRange b c = true) :
    strictlyContainsReadRange a c = true := by
  simp only [strictlyContainsReadRange, Bool.and_eq_true, Bool.or_eq_true, decide_eq_true_eq]
    at hab hbc ⊢
  omega

def isListSelector : Bool := (splitReadTarget path).selector.any (',' ∈ ·)

/-- The range that the selector of a path consists of, if it is one range with both ends. -/
def singleLineRange? : Option ReadLineRange :=
  if isListSelector path then none else (readLineRanges path).head?

theorem readLineRanges_eq_singleton {path : Text} {range : ReadLineRange}
    (hlist : isListSelector path = false) :
    readLineRanges path = [range] ↔ singleLineRange? path = some range := by
  have hlength : (readLineRanges path).length ≤ 1 := by
    unfold readLineRanges
    split
    · simp
    · next selector hselector =>
      have hcomma : ',' ∉ selector := by simpa [isListSelector, hselector] using hlist
      rw [List.splitOn_eq_singleton hcomma]
      split
      · simp
      · exact List.length_filterMap_le _ _
  rw [singleLineRange?, hlist]
  match hranges : readLineRanges path, hlength with
  | [], _ => simp
  | [_], _ => simp

end Vibrato.Pruning
