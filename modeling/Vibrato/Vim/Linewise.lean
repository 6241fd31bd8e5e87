import Vibrato.Vim.Engine
import Vibrato.Text

namespace Vibrato.Vim

open Lib List VimEngine VimBuffer

/-- `line.trim().length === 0` -/
def isBlankLine (line : CodeUnits) : Bool := line.all fun u => Text.isSpace (Char.ofNat u.toNat)

namespace VimBuffer

variable (b : VimBuffer)

variable (p : CodeUnits → Bool)

/-- `while (start > 0 && p(lines[start - 1])) start -= 1` -/
def extendUp (start : Nat) : Nat := start - ((b.lines.take start).rtakeWhile p).length

/-- `while (end < lines.length - 1 && p(lines[end + 1])) end += 1` -/
def extendDown (stop : Nat) : Nat := stop + ((b.lines.drop (stop + 1)).takeWhile p).length

/-- The lines of `#resolveParagraphTextObject`. -/
def paragraphLines (inner : Bool) : Nat × Nat :=
  let blank := isBlankLine (b.lines.getD b.cursor.line [])
  let same line := isBlankLine line == blank
  let start := b.extendUp same b.cursor.line
  let stop := b.extendDown same b.cursor.line
  (start, if inner then stop else b.extendDown (fun line => !same line) stop)

def resolveParagraphTextObject (inner : Bool) : OffsetRange :=
  b.linesRange (b.paragraphLines inner).1 (b.paragraphLines inner).2

/-- `expandVisualOffsets` of a visual-line selection. -/
def expandVisualLines (anchor : Position) : OffsetRange :=
  b.linesRange (min anchor.line b.cursor.line) (max anchor.line b.cursor.line)

end VimBuffer

inductive LineSelection where
  | motion (target : Position)
  | paragraph (inner : Bool)
  | visual (anchor : Position)

namespace LineSelection

def range (b : VimBuffer) : LineSelection → OffsetRange
  | motion target => b.resolveMotionRange { target, linewise := true }
  | paragraph inner =>
      b.resolveMotionRange
        { target := b.cursor, range := some (b.resolveParagraphTextObject inner) }
  | visual anchor => b.expandVisualLines anchor

variable (b : VimBuffer)

def lines : LineSelection → Nat × Nat
  | motion target => (min b.cursor.line target.line, max b.cursor.line target.line)
  | paragraph inner => b.paragraphLines inner
  | visual anchor => (min anchor.line b.cursor.line, max anchor.line b.cursor.line)

theorem range_eq (selection : LineSelection) :
    selection.range b = b.linesRange (selection.lines b).1 (selection.lines b).2 := by
  cases selection <;> rfl

theorem lines_cursor (selection : LineSelection) :
    (selection.lines b).1 ≤ b.cursor.line ∧ b.cursor.line ≤ (selection.lines b).2 := by
  cases selection with
  | motion target => exact ⟨Nat.min_le_left _ _, Nat.le_max_left _ _⟩
  | paragraph inner =>
    refine ⟨Nat.sub_le _ _, ?_⟩
    simp only [lines, paragraphLines]
    split
    · exact Nat.le_add_right _ _
    · exact Nat.le_trans (Nat.le_add_right _ _) (Nat.le_add_right _ _)
  | visual anchor => exact ⟨Nat.min_le_right _ _, Nat.le_max_right _ _⟩

end LineSelection

inductive LineOperator where
  | d
  | c

namespace VimEngine

variable (e : VimEngine)

variable (operator : LineOperator)

def operate (selection : LineSelection) : VimEngine :=
  match operator with
  | .d => e.applyAtomicChange (yankAndDeleteRange (selection.range e.buffer))
  | .c => e.startInsertChange (yankAndDeleteRange (selection.range e.buffer)) true

/-- The doubled operator on the same lines: the cursor is on the first, and the count is theirs. -/
def operateDoubled (selection : LineSelection) : VimEngine :=
  let (first, last) := selection.lines e.buffer
  let e := { e with buffer := e.buffer.setCursor ⟨first, 0⟩ }
  match operator with
  | .d => e.applyAtomicChange (deleteWholeLines (last - first + 1))
  | .c => e.startInsertChange (changeWholeLines (max 1 (last - first + 1))) true

/-- `P`, after `Esc` where text may be typed. -/
def putBefore : VimEngine :=
  match operator with
  | .d => e.applyAtomicChange (paste false 1)
  | .c => e.exitInsertMode.applyAtomicChange (paste false 1)

end VimEngine

/-- The same lines and register as of the doubled operator, and `P` restores the buffer. -/
structure ActsAsDoubled (operator : LineOperator) (e : VimEngine) (selection : LineSelection) :
    Prop where
  lines : (e.operate operator selection).buffer.lines =
    (e.operateDoubled operator selection).buffer.lines
  register :
    (e.operate operator selection).register = (e.operateDoubled operator selection).register
  restores : ((e.operate operator selection).putBefore operator).buffer.lines = e.buffer.lines

section Offsets

variable {b : VimBuffer} {first last : Nat}

variable (hfirst : first < b.lines.length)
include hfirst

theorem lines_split :
    b.lines = b.lines.take first ++ b.lines.getD first [] :: b.lines.drop (first + 1) := by
  rw [getD_eq_getElem?_getD, getElem?_eq_getElem hfirst, Option.getD_some,
    ← drop_eq_getElem_cons hfirst, take_append_drop]

theorem positionToOffset_start :
    b.positionToOffset ⟨first, 0⟩ = (textAbove (b.lines.take first)).length := by
  have hclamp : b.clampLine first = first := Nat.min_eq_left (Nat.le_sub_one_of_lt hfirst)
  simp only [positionToOffset, hclamp, clampCol, Nat.zero_min, Nat.add_zero, length_textAbove]

theorem getText_split : b.getText =
    textAbove (b.lines.take first) ++
      (b.lines.getD first [] ++ textBelow (b.lines.drop (first + 1))) := by
  rw [← joinLines_split, ← lines_split hfirst]
  rfl

omit hfirst

theorem textAbove_take (hfirst : first ≤ last) (hlast : last < b.lines.length) :
    (textAbove (b.lines.take first)).length + (b.lines.getD first []).length <
      (textAbove (b.lines.take (last + 1))).length := by
  have htake : b.lines.take (last + 1) =
      b.lines.take first ++ b.lines.getD first [] :: (b.lines.drop (first + 1)).take
        (last - first) := by
    conv_lhs => rw [lines_split (Nat.lt_of_le_of_lt hfirst hlast)]
    rw [take_append, take_of_length_le (by rw [length_take]; omega), length_take,
      show last + 1 - min first b.lines.length = (last - first) + 1 by omega, take_succ_cons]
  rw [htake, length_textAbove, length_textAbove, lineOffset, lineOffset, map_append, sum_append,
    map_cons, sum_cons]
  omega

theorem linesRange_spec (hfirst : first < b.lines.length) (hle : first ≤ last) :
    (b.linesRange first last).start ≤ (b.linesRange first last).stop ∧
      (b.linesRange first last).stop ≤ b.getText.length ∧
      ((b.linesRange first last).start = (b.linesRange first last).stop ↔
        b.lines = b.lines.take first ++ [[]]) := by
  have hstart : (b.linesRange first last).start = _ := positionToOffset_start hfirst
  have htext := congrArg length (getText_split hfirst)
  rw [length_append, length_append] at htext
  by_cases hlast : last ≥ b.lastLineIndex
  · have hstop : (b.linesRange first last).stop = b.getText.length := if_pos hlast
    rw [hstart, hstop]
    refine ⟨by omega, Nat.le_refl _, ?_, ?_⟩
    · intro heq
      have hline : b.lines.getD first [] = [] := length_eq_zero_iff.mp (by omega)
      have hbelow : textBelow (b.lines.drop (first + 1)) = [] := length_eq_zero_iff.mp (by omega)
      conv_lhs => rw [lines_split hfirst, hline]
      cases hdrop : b.lines.drop (first + 1) with
      | nil => rfl
      | cons next rest =>
        rw [hdrop] at hbelow
        cases hbelow
    · intro hlines
      have hjoin : b.getText = textAbove (b.lines.take first) ++ ([] ++ textBelow []) := by
        rw [← joinLines_split, ← hlines]
        rfl
      simp [hjoin, textBelow]
  · have hstop : (b.linesRange first last).stop = b.positionToOffset ⟨last + 1, 0⟩ := if_neg hlast
    have hnext : last + 1 < b.lines.length := by
      rw [lastLineIndex] at hlast
      omega
    rw [positionToOffset_start hnext] at hstop
    have hlt := textAbove_take hle (Nat.lt_of_succ_lt hnext)
    have htext' := congrArg length (getText_split hnext)
    rw [length_append] at htext'
    refine ⟨by omega, by omega, iff_of_false (by omega) fun hlines => ?_⟩
    have hlength := congrArg length hlines
    rw [length_append, length_take, length_singleton] at hlength
    omega

end Offsets

theorem length_le_count {lines : List CodeUnits} (hne : lines ≠ []) :
    lines.length ≤ (joinLines lines).count newline + 1 := by
  obtain ⟨line, below, rfl⟩ := exists_cons_of_ne_nil hne
  have hbelow : below.length ≤ (textBelow below).count newline := by
    induction below with
    | nil => exact Nat.zero_le _
    | cons next below ih =>
      rw [textBelow, flatMap_cons, cons_append, count_cons_self, count_append]
      exact Nat.succ_le_succ (Nat.le_trans (ih (by simp)) (Nat.le_add_left _ _))
  have hjoin : joinLines (line :: below) = line ++ textBelow below := joinLines_split [] line below
  rw [hjoin, count_append, length_cons]
  omega

theorem paste_length {b : VimBuffer} {text : CodeUnits} (hne : text ≠ []) :
    (paste false 1 (b, ⟨.line, text⟩)).1.lines.length =
      b.lines.length + (text.count newline + 1) := by
  have hsplit : orEmptyLine (splitText text) = splitText text := if_neg (splitOn_ne_nil _ _)
  have hcount : (splitText text).length = text.count newline + 1 := length_splitOn text
  simp only [paste, if_neg hne, pasteLines, insertLines, place, hsplit, length_append, hcount,
    length_take, length_drop]
  omega

theorem start_eq_stop_of_restores {b b' : VimBuffer} {start stop : Nat} (hle : start ≤ stop)
    (hstop : stop ≤ b.getText.length)
    (hlines : b'.lines = splitText (b.getText.take start ++ b.getText.drop stop))
    (hrestores : (paste false 1 (b', ⟨.line, b.slice start stop⟩)).1.lines = b.lines) :
    start = stop := by
  by_cases hne : b.slice start stop = []
  · have hlength : (b.slice start stop).length = stop - start := length_slice hstop
    rw [hne, length_nil] at hlength
    omega
  · have htotal : (paste false 1 (b', ⟨.line, b.slice start stop⟩)).1.lines.length = _ :=
      paste_length hne
    have hsplit : b'.lines.length = _ := (congrArg length hlines).trans (length_splitOn _)
    have htext :
        b.getText = b.getText.take start ++ (b.slice start stop ++ b.getText.drop stop) := by
      have htake : (b.getText.take stop).take start = b.getText.take start := by
        rw [take_take, Nat.min_eq_left hle]
      rw [slice, ← htake, ← append_assoc, take_append_drop, take_append_drop]
    have hcount := congrArg (count newline) htext
    have hmany := length_le_count b.lines_ne_nil
    rw [hrestores, hsplit, count_append] at htotal
    rw [count_append, count_append] at hcount
    have hjoin : b.getText = joinLines b.lines := rfl
    rw [← hjoin] at hmany
    omega

section Operators

variable (e : VimEngine) (operator : LineOperator) (selection : LineSelection)

theorem operate_lines (hle : (selection.range e.buffer).start ≤ (selection.range e.buffer).stop)
    (hstop : (selection.range e.buffer).stop ≤ e.buffer.getText.length) :
    (e.operate operator selection).buffer.lines =
      splitText (e.buffer.getText.take (selection.range e.buffer).start ++
      e.buffer.getText.drop (selection.range e.buffer).stop) := by
  have hlines := deleteOffsets_lines hle hstop
  cases operator with
  | d =>
    rw [operate, applyAtomicChange_buffer]
    exact hlines
  | c => exact hlines

theorem operate_register : (e.operate operator selection).register =
    ⟨.line, e.buffer.slice (selection.range e.buffer).start (selection.range e.buffer).stop⟩ := by
  have hline : (selection.range e.buffer).linewise = true := by
    rw [LineSelection.range_eq]
    rfl
  cases operator with
  | d =>
    rw [operate, applyAtomicChange_register]
    simp only [mutate, yankAndDeleteRange, hline, if_true]
  | c => simp only [operate, startInsertChange, mutate, yankAndDeleteRange, hline, if_true]

theorem exitInsertMode_startInsertChange (mutator : Mutator) :
    (e.startInsertChange mutator true).exitInsertMode.buffer = (e.mutate mutator).buffer ∧
      (e.startInsertChange mutator true).exitInsertMode.register = (e.mutate mutator).register := by
  simp [startInsertChange, exitInsertMode, commitPendingChange]

theorem putBefore_lines : ((e.operate operator selection).putBefore operator).buffer.lines =
    (paste false 1 ((e.operate operator selection).buffer,
      (e.operate operator selection).register)).1.lines := by
  cases operator with
  | d =>
    rw [putBefore, applyAtomicChange_buffer]
    rfl
  | c =>
    obtain ⟨hbuffer, hregister⟩ :=
      exitInsertMode_startInsertChange e (yankAndDeleteRange (selection.range e.buffer))
    rw [putBefore, applyAtomicChange_buffer]
    simp only [operate, mutate, hbuffer, hregister]
    rfl

theorem operateDoubled_last (hlast : e.buffer.lines =
    e.buffer.lines.take (selection.lines e.buffer).1 ++ [[]]) :
    (e.operateDoubled operator selection).buffer.lines = (match operator with
        | .d => orEmptyLine (e.buffer.lines.take (selection.lines e.buffer).1)
        | .c => e.buffer.lines) ∧
      (e.operateDoubled operator selection).register = ⟨.line, []⟩ := by
  have hlength := congrArg length hlast
  rw [length_append, length_take, length_singleton] at hlength
  generalize hfirst : (selection.lines e.buffer).1 = first at hlast hlength
  have htake : e.buffer.lines.take (first + 1) = e.buffer.lines := take_of_length_le (by omega)
  have hdrop : e.buffer.lines.drop (first + 1) = [] := drop_eq_nil_of_le (by omega)
  have hlines : e.buffer.lines.drop first = [[]] := by
    rw [hlast, drop_left' (by rw [length_take]; omega)]
  have hline : min first (e.buffer.lines.length - 1) = first := by omega
  have hclamp : ∀ line, first ≤ line → min line (e.buffer.lines.length - 1) = first := by omega
  cases operator with
  | d =>
    rw [operateDoubled, applyAtomicChange_buffer, applyAtomicChange_register]
    simp only [hfirst, mutate, deleteWholeLines, deleteLines, setCursor, place, clampLine,
      lastLineIndex, hline]
    rw [hclamp _ (by omega), hclamp _ (by omega), htake, hdrop, hlines, append_nil]
    exact ⟨rfl, rfl⟩
  | c =>
    simp only [operateDoubled, hfirst, startInsertChange, mutate, changeWholeLines,
      setCursor, place, clampLine, lastLineIndex, hline]
    rw [hclamp _ (by omega), htake, hdrop, hlines, append_nil, ← hlast]
    exact ⟨rfl, rfl⟩

end Operators

/-- Nothing is selected but an empty last line, which `d` may not leave beside others, and no line
holds a newline. -/
def SelectsNothing (b : VimBuffer) (selection : LineSelection) : LineOperator → Prop
  | .d => b.lines = [[]]
  | .c => b.lines = b.lines.take (selection.lines b).1 ++ [[]] ∧ ∀ line ∈ b.lines, newline ∉ line

theorem actsAsDoubled_iff (operator : LineOperator) (e : VimEngine) (selection : LineSelection) :
    ActsAsDoubled operator e selection ↔ SelectsNothing e.buffer selection operator := by
  obtain ⟨hcursor, hcursor'⟩ := selection.lines_cursor e.buffer
  have hfirst := Nat.lt_of_le_of_lt hcursor e.buffer.inside.1
  obtain ⟨hle, hstop, hempty⟩ := linesRange_spec hfirst (Nat.le_trans hcursor hcursor')
  rw [← LineSelection.range_eq] at hle hstop hempty
  have hlines := operate_lines e operator selection hle hstop
  have hregister := operate_register e operator selection
  have hput := putBefore_lines e operator selection
  rw [hregister] at hput
  -- an empty last line: nothing is deleted, and nothing is put back
  have hlast : e.buffer.lines = e.buffer.lines.take (selection.lines e.buffer).1 ++ [[]] →
      (ActsAsDoubled operator e selection ↔
        splitText e.buffer.getText = (e.operateDoubled operator selection).buffer.lines ∧
          splitText e.buffer.getText = e.buffer.lines) := by
    intro hlast
    have hnothing :
        e.buffer.slice (selection.range e.buffer).start (selection.range e.buffer).stop = [] := by
      rw [← length_eq_zero_iff, length_slice hstop, hempty.mpr hlast, Nat.sub_self]
    rw [hempty.mpr hlast, take_append_drop] at hlines
    rw [hnothing] at hregister hput
    have hrestored : ((e.operate operator selection).putBefore operator).buffer.lines =
        splitText e.buffer.getText :=
      hput.trans hlines
    have hyanked := hregister.trans (operateDoubled_last e operator selection hlast).2.symm
    rw [← hlines] at hrestored ⊢
    exact ⟨fun h => ⟨h.lines, hrestored ▸ h.restores⟩, fun h => ⟨h.1, hyanked, hrestored.trans h.2⟩⟩
  have hfree : splitText e.buffer.getText = e.buffer.lines ↔
      ∀ line ∈ e.buffer.lines, newline ∉ line := by
    rw [splitText, splitOn_eq_iff e.buffer.lines_ne_nil]
    exact and_iff_right rfl
  constructor
  · intro h
    have hselected :=
  hempty.mp (start_eq_stop_of_restores hle hstop hlines (hput.symm.trans h.restores))
    obtain ⟨hdoubled, hsame⟩ := (hlast hselected).mp h
    rw [(operateDoubled_last e operator selection hselected).1, hsame] at hdoubled
    cases operator with
    | c => exact ⟨hselected, hfree.mp hsame⟩
    | d =>
      by_cases hnil : e.buffer.lines.take (selection.lines e.buffer).1 = []
      · rw [hnil] at hselected
        exact hselected
      · have htake : e.buffer.lines = e.buffer.lines.take (selection.lines e.buffer).1 :=
          hdoubled.trans (if_neg hnil)
        have hlength := congrArg length (htake.symm.trans hselected)
        rw [length_append] at hlength
        exact absurd hlength (Nat.ne_of_lt (Nat.lt_succ_self _))
  · intro h
    cases operator with
    | c =>
      refine (hlast h.1).mpr ⟨?_, hfree.mpr h.2⟩
      rw [(operateDoubled_last e .c selection h.1).1, hfree.mpr h.2]
    | d =>
      have hone : e.buffer.lines = [[]] := h
      have hzero : (selection.lines e.buffer).1 = 0 := by
        rw [hone] at hfirst
        exact Nat.lt_one_iff.mp hfirst
      have hselected :
          e.buffer.lines = e.buffer.lines.take (selection.lines e.buffer).1 ++ [[]] := by
        rw [hzero, take_zero, nil_append, hone]
      have hsame := hfree.mpr (by simp [hone])
      refine (hlast hselected).mpr ⟨?_, hsame⟩
      rw [(operateDoubled_last e .d selection hselected).1, hsame, hzero, hone]
      rfl

/-- `dj` on the first of the lines `a`, `b`, and `c` yanks a newline more than `2dd`. -/
theorem not_actsAsDoubled_dj : ¬ActsAsDoubled .d (.ofLines [[97], [98], [99]]) (.motion ⟨1, 0⟩) :=
  fun h => absurd h.register (by decide)

end Vibrato.Vim
