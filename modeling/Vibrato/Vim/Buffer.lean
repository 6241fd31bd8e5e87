import Vibrato.Lib.Utf16
import Vibrato.Lib.Lines

/-! The buffer of the vim engine.  Its lines are lists of UTF-16 code units; commands edit them by
line, or by offsets into the text that `\n` joins them to. -/

namespace Vibrato.Vim

open Lib List

/-- `"\n"` -/
def newline : UInt16 := 10

structure Position where
  line : Nat
  col : Nat
deriving DecidableEq

/-- `splitText`: `"".split("\n")` is `[""]` too. -/
def splitText (text : CodeUnits) : List CodeUnits := text.splitOn newline

variable (lines : List CodeUnits)

def joinLines : CodeUnits := [newline].intercalate lines

def Position.Inside (p : Position) (lines : List CodeUnits) : Prop :=
  p.line < lines.length ∧ p.col ≤ (lines.getD p.line []).length

/-- The cursor lies inside, so a buffer has a line.  Paths, the fingerprint, and the check for
editability are left out: edits do not change them. -/
structure VimBuffer where
  lines : List CodeUnits
  cursor : Position
  modified : Bool
  trailingNewline : Bool
  inside : cursor.Inside lines

/-- The loop of `offsetToPosition`, from a line on. -/
def locate (line : Nat) : List CodeUnits → Nat → Position
  | [], _ => ⟨line, 0⟩
  | [current], remaining => ⟨line, min remaining current.length⟩
  | current :: next :: rest, remaining =>
    if remaining ≤ current.length then ⟨line, remaining⟩
    else locate (line + 1) (next :: rest) (remaining - current.length - 1)

/-- The units of some lines, each with the `\n` after it. -/
def lineOffset : Nat := (lines.map (·.length + 1)).sum

theorem locate_spec {lines : List CodeUnits} (hne : lines ≠ []) (line remaining : Nat) :
    ∃ p : Position, locate line lines remaining = ⟨line + p.line, p.col⟩ ∧ p.Inside lines ∧
      (remaining ≤ (joinLines lines).length →
        lineOffset (lines.take p.line) + p.col = remaining) := by
  induction lines generalizing line remaining with
  | nil => exact absurd rfl hne
  | cons current rest ih =>
    cases rest with
    | nil =>
      refine ⟨⟨0, min remaining current.length⟩, rfl, ⟨Nat.zero_lt_one, Nat.min_le_right _ _⟩, ?_⟩
      intro hle
      rw [joinLines, intercalate_singleton] at hle
      exact (Nat.zero_add _).trans (Nat.min_eq_left hle)
    | cons next rest =>
      rw [locate]
      split
      · next hle => exact ⟨⟨0, remaining⟩, rfl, ⟨Nat.zero_lt_succ _, hle⟩, fun _ => Nat.zero_add _⟩
      · next hlt =>
        obtain ⟨p, heq, hinside, hoffset⟩ :=
          ih (by simp) (line + 1) (remaining - current.length - 1)
        refine ⟨⟨p.line + 1, p.col⟩, ?_, ⟨Nat.succ_lt_succ hinside.1, hinside.2⟩, ?_⟩
        · rw [heq, Nat.add_assoc, Nat.add_comm 1]
        · intro hle
          simp only [joinLines, intercalate_cons_cons, length_append,
            length_singleton] at hle hoffset
          simp only [lineOffset, take_succ_cons, map_cons, sum_cons] at hoffset ⊢
          omega

def offsetToPosition (offset : Nat) : Position :=
  locate 0 lines (min offset (joinLines lines).length)

theorem offsetToPosition_inside {lines : List CodeUnits} (hne : lines ≠ []) (offset : Nat) :
    (offsetToPosition lines offset).Inside lines := by
  obtain ⟨p, heq, hinside, -⟩ := locate_spec hne 0 (min offset (joinLines lines).length)
  rw [offsetToPosition, heq, Nat.zero_add]
  exact hinside

theorem offsetToPosition_inj {lines : List CodeUnits} (hne : lines ≠ []) {i j : Nat}
    (hi : i ≤ (joinLines lines).length) (hj : j ≤ (joinLines lines).length)
    (h : offsetToPosition lines i = offsetToPosition lines j) : i = j := by
  obtain ⟨p, hp, -, hpoffset⟩ := locate_spec hne 0 i
  obtain ⟨q, hq, -, hqoffset⟩ := locate_spec hne 0 j
  rw [offsetToPosition, offsetToPosition, Nat.min_eq_left hi, Nat.min_eq_left hj, hp, hq] at h
  obtain ⟨hline, hcol⟩ := Position.mk.inj h
  rw [← hpoffset hi, ← hqoffset hj, Nat.add_left_cancel hline, hcol]

namespace VimBuffer

variable (b : VimBuffer)

theorem lines_ne_nil : b.lines ≠ [] := ne_nil_of_length_pos (Nat.zero_lt_of_lt b.inside.1)

def lastLineIndex : Nat := b.lines.length - 1

def clampLine (line : Nat) : Nat := min line b.lastLineIndex

def getLine (line : Nat) : CodeUnits := b.lines.getD (b.clampLine line) []

def clampCol (line col : Nat) : Nat := min col (b.getLine line).length

/-- New lines, and `setCursor` in them. -/
def place (lines : List CodeUnits) (hne : lines ≠ []) (position : Position) : VimBuffer :=
  let line := min position.line (lines.length - 1)
  { b with
    lines
    cursor := ⟨line, min position.col (lines.getD line []).length⟩
    inside := by
      have hpos := length_pos_of_ne_nil hne
      exact ⟨Nat.lt_of_le_of_lt (Nat.min_le_right _ _) (Nat.sub_lt hpos Nat.one_pos),
        Nat.min_le_right _ _⟩ }

variable (position : Position)

def setCursor : VimBuffer := b.place b.lines b.lines_ne_nil position

def getText : CodeUnits := joinLines b.lines

def positionToOffset : Nat :=
  let line := b.clampLine position.line
  lineOffset (b.lines.take line) + b.clampCol line position.col

def currentOffset : Nat := b.positionToOffset b.cursor

/-- `replaceOffsets`; the end is not before the start. -/
def replaceOffsets (start stop : Nat) (replacement : CodeUnits) (cursorOffset : Nat) : VimBuffer :=
  let text := b.getText
  let start := min start text.length
  let stop := min (max stop start) text.length
  let lines := splitText (text.take start ++ replacement ++ text.drop stop)
  { b with
    lines
    cursor := offsetToPosition lines cursorOffset
    inside := offsetToPosition_inside (splitOn_ne_nil _ _) cursorOffset }

/-- `text.slice(start, end)` -/
def slice (start stop : Nat) : CodeUnits := (b.getText.take stop).drop start

def deleteOffsets (start stop : Nat) : CodeUnits × VimBuffer :=
  let text := b.getText
  let start := min start text.length
  let stop := min (max stop start) text.length
  (b.slice start stop, b.replaceOffsets start stop [] start)

/-- `if (this.lines.length === 0) this.lines = [""]` -/
def orEmptyLine (lines : List CodeUnits) : List CodeUnits := if lines = [] then [[]] else lines

theorem orEmptyLine_ne_nil (lines : List CodeUnits) : orEmptyLine lines ≠ [] := by
  unfold orEmptyLine
  split
  · simp
  · assumption

def deleteLines (startLine endLine : Nat) : List CodeUnits × VimBuffer :=
  let start := b.clampLine (min startLine endLine)
  let stop := b.clampLine (max startLine endLine)
  let removed := (b.lines.take (stop + 1)).drop start
  let lines := orEmptyLine (b.lines.take start ++ b.lines.drop (stop + 1))
  let next := b.place lines (orEmptyLine_ne_nil _) ⟨min start (lines.length - 1), 0⟩
  (removed,
    { next with trailingNewline := b.trailingNewline || lines.length > 1 || removed.length > 1 })

theorem insert_ne_nil (above newLines below : List CodeUnits) :
    above ++ orEmptyLine newLines ++ below ≠ [] :=
  append_ne_nil_of_left_ne_nil (append_ne_nil_of_right_ne_nil _ (orEmptyLine_ne_nil _)) _

def insertLines (index : Nat) (newLines : List CodeUnits) : VimBuffer :=
  let at_ := min index b.lines.length
  let lines := b.lines.take at_ ++ orEmptyLine newLines ++ b.lines.drop at_
  { b.place lines (insert_ne_nil _ _ _) ⟨at_, 0⟩ with trailingNewline := true }

end VimBuffer

variable (above : List CodeUnits)

def textAbove : CodeUnits := above.flatMap (· ++ [newline])

def textBelow (below : List CodeUnits) : CodeUnits := below.flatMap (newline :: ·)

theorem length_textAbove : (textAbove above).length = lineOffset above := by
  simp [textAbove, lineOffset, length_flatMap]

theorem joinLines_split (line : CodeUnits) (below : List CodeUnits) :
    joinLines (above ++ line :: below) = textAbove above ++ (line ++ textBelow below) := by
  have hright :
      [newline].intercalate ([line] ++ below) = [newline].intercalate [line] ++ textBelow below :=
    intercalate_append_right (by simp) below
  rw [singleton_append, intercalate_singleton] at hright
  rw [joinLines, intercalate_append_left above (by simp), hright]
  rfl

namespace VimBuffer

variable {b : VimBuffer} {start stop : Nat}

theorem exists_split (b : VimBuffer) : ∃ above line below, b.lines = above ++ line :: below ∧
    above.length = b.cursor.line ∧ b.cursor.col ≤ line.length := by
  obtain ⟨hline, hcol⟩ := b.inside
  rw [getD_eq_getElem?_getD, getElem?_eq_getElem hline] at hcol
  refine ⟨b.lines.take b.cursor.line, b.lines[b.cursor.line], b.lines.drop (b.cursor.line + 1), ?_,
    ?_, hcol⟩
  · rw [← drop_eq_getElem_cons hline, take_append_drop]
  · rw [length_take, Nat.min_eq_left (Nat.le_of_lt hline)]

theorem positionToOffset_cursor {above below : List CodeUnits} {line : CodeUnits}
    (hlines : b.lines = above ++ line :: below) (hline : above.length = b.cursor.line) (col : Nat) :
    b.positionToOffset ⟨b.cursor.line, col⟩ = (textAbove above).length + min col line.length := by
  have hlast : b.lastLineIndex = above.length + below.length := by
    rw [lastLineIndex, hlines, length_append]
    rfl
  have hself : b.clampLine above.length = above.length := by
    rw [clampLine, hlast]
    exact Nat.min_eq_left (Nat.le_add_right _ _)
  have hclamp : b.clampLine b.cursor.line = above.length := by rw [← hline, hself]
  simp only [positionToOffset, clampCol, getLine, hclamp, hself, hlines, take_left,
    length_textAbove]
  simp

theorem currentOffset_le (b : VimBuffer) : b.currentOffset ≤ b.getText.length := by
  obtain ⟨above, line, below, hlines, hline, hcol⟩ := b.exists_split
  have hoffset : b.currentOffset = _ := positionToOffset_cursor hlines hline b.cursor.col
  rw [getText, hlines, joinLines_split, length_append, length_append]
  omega

theorem length_slice (hstop : stop ≤ b.getText.length) :
    (b.slice start stop).length = stop - start := by
  rw [slice, length_drop, length_take, Nat.min_eq_left hstop]

theorem slice_min (start stop : Nat) :
    b.slice start (min stop b.getText.length) = b.slice start stop := by
  rw [slice, slice, ← take_eq_take_min]

theorem deleteOffsets_min (hstart : start ≤ b.getText.length) :
    b.deleteOffsets start (min stop b.getText.length) = b.deleteOffsets start stop := by
  simp only [deleteOffsets]
  congr 2 <;> omega

theorem deleteOffsets_fst (hle : start ≤ stop) (hstop : stop ≤ b.getText.length) :
    (b.deleteOffsets start stop).1 = b.slice start stop := by
  have hstart := Nat.le_trans hle hstop
  simp only [deleteOffsets, Nat.min_eq_left hstart, Nat.max_eq_left hle, Nat.min_eq_left hstop]

theorem deleteOffsets_lines (hle : start ≤ stop) (hstop : stop ≤ b.getText.length) :
    (b.deleteOffsets start stop).2.lines =
      splitText (b.getText.take start ++ b.getText.drop stop) := by
  have hstart := Nat.le_trans hle hstop
  simp only [deleteOffsets, replaceOffsets, Nat.min_eq_left hstart, Nat.max_eq_left hle,
    Nat.min_eq_left hstop, append_nil]

end VimBuffer

end Vibrato.Vim
