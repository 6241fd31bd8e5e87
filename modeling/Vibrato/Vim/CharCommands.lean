import Vibrato.Vim.Engine

namespace Vibrato.Vim

open Lib List VimBuffer VimEngine

inductive CharMotion where
  | h
  | l

/-- `#resolveMotion` of `h` and `l`. -/
def resolveMotion (b : VimBuffer) (count : Nat) : CharMotion → MotionResult
  | .h => { target := ⟨b.cursor.line, b.cursor.col - count⟩ }
  | .l => { target := ⟨b.cursor.line, b.cursor.col + count⟩ }

namespace VimEngine

variable (e : VimEngine) (count : Nat)

def x : VimEngine := e.applyAtomicChange (deleteCharsForward count)

def X : VimEngine := e.applyAtomicChange (deleteCharsBackward count)

def s : VimEngine := e.startInsertChange (deleteCharsForward count) true

def r (replacement : UInt16) : VimEngine := e.applyAtomicChange (replaceChars count replacement)

/-- `d` with `h` or `l`. -/
def deleteMotion (motion : CharMotion) : VimEngine :=
  e.applyAtomicChange
    (yankAndDeleteRange (e.buffer.resolveMotionRange (resolveMotion e.buffer count motion)))

end VimEngine

def KeepsLines (b b' : VimBuffer) : Prop :=
  b'.lines.length = b.lines.length ∧ ∀ i, i ≠ b.cursor.line → b'.lines[i]? = b.lines[i]?

def SameEffect (e e' : VimEngine) : Prop := e.buffer = e'.buffer ∧ e.register = e'.register

/-- The commands keep to the line of the cursor, and `dl` and `dh` are `x` and `X`. -/
structure Charwise (e : VimEngine) (count : Nat) (replacement : UInt16) : Prop where
  x : KeepsLines e.buffer (e.x count).buffer
  X : KeepsLines e.buffer (e.X count).buffer
  s : KeepsLines e.buffer (e.s count).buffer
  r : KeepsLines e.buffer (e.r count replacement).buffer
  dl : SameEffect (e.deleteMotion count .l) (e.x count)
  dh : SameEffect (e.deleteMotion count .h) (e.X count)

variable {b b' : VimBuffer} {above below : List CodeUnits} {line text : CodeUnits} {count : Nat}

theorem getElem?_of_ne {i : Nat} (hi : i ≠ above.length) (line line' : CodeUnits) :
    (above ++ line :: below)[i]? = (above ++ line' :: below)[i]? := by
  rcases Nat.lt_or_gt_of_ne hi with hlt | hgt
  · rw [getElem?_append_left hlt, getElem?_append_left hlt]
  · obtain ⟨k, rfl⟩ : ∃ k, i = above.length + (k + 1) := ⟨i - above.length - 1, by omega⟩
    rw [getElem?_append_right (Nat.le_of_lt hgt), getElem?_append_right (Nat.le_of_lt hgt)]
    simp

theorem keepsLines_iff (hlines : b.lines = above ++ line :: below)
    (hline : above.length = b.cursor.line) :
    KeepsLines b b' ↔ ∃ line', b'.lines = above ++ line' :: below := by
  constructor
  · rintro ⟨hlength, hother⟩
    obtain ⟨line', hline'⟩ : ∃ line', b'.lines[b.cursor.line]? = some line' := by
      refine ⟨_, getElem?_eq_getElem ?_⟩
      rw [hlength]
      exact b.inside.1
    refine ⟨line', ext_getElem? fun i => ?_⟩
    by_cases hi : i = b.cursor.line
    · rw [hi, hline', ← hline]
      simp
    · rw [hother i hi, hlines]
      exact getElem?_of_ne (hline ▸ hi) line line'
  · rintro ⟨line', heq⟩
    rw [KeepsLines, heq, hlines, length_append, length_append]
    exact ⟨rfl, fun i hi => getElem?_of_ne (hline ▸ hi) line' line⟩

theorem keepsLines_splitText (hlines : b.lines = above ++ line :: below)
    (hline : above.length = b.cursor.line)
    (htext : b'.lines = splitText text) :
    KeepsLines b b' ↔ ∃ line', text = textAbove above ++ (line' ++ textBelow below) ∧
      ∀ l ∈ above ++ line' :: below, newline ∉ l := by
  rw [keepsLines_iff hlines hline, htext]
  refine exists_congr fun line' => ?_
  rw [splitText, splitOn_eq_iff (by simp), ← joinLines_split]
  rfl

def deleteToRegister (b : VimBuffer) (start stop : Nat) : VimBuffer × VimRegister :=
  ((b.deleteOffsets start stop).2, ⟨.char, (b.deleteOffsets start stop).1⟩)

variable {start stop : Nat}

theorem yankAndDeleteRange_eq (hle : start ≤ stop) (hstart : start ≤ b.getText.length)
    (register : VimRegister) : yankAndDeleteRange ⟨start, stop, false⟩ (b, register) =
      deleteToRegister b start (min stop b.getText.length) := by
  have hremoved := deleteOffsets_fst (Nat.le_min.mpr ⟨hle, hstart⟩) (Nat.min_le_right _ _)
  rw [slice_min] at hremoved
  rw [deleteToRegister, hremoved, deleteOffsets_min hstart]
  rfl

theorem deleteMotion_l (hlines : b.lines = above ++ line :: below)
    (hline : above.length = b.cursor.line)
    (hcol : b.cursor.col ≤ line.length) (register : VimRegister) :
    yankAndDeleteRange (b.resolveMotionRange (resolveMotion b count .l)) (b, register) =
      deleteToRegister b b.currentOffset
        (min (b.currentOffset + min count (line.length - b.cursor.col) + 1) b.getText.length) := by
  have hoffset : b.positionToOffset b.cursor = _ :=
    positionToOffset_cursor hlines hline b.cursor.col
  have htarget := positionToOffset_cursor hlines hline (b.cursor.col + count)
  have hrange : b.resolveMotionRange (resolveMotion b count .l) =
      ⟨b.currentOffset, b.currentOffset + min count (line.length - b.cursor.col) + 1, false⟩ := by
    simp only [resolveMotionRange, resolveMotion, currentOffset, hoffset, htarget]
    simp only [Bool.false_eq_true, if_false, if_true, OffsetRange.mk.injEq, and_true]
    omega
  rw [hrange, yankAndDeleteRange_eq (by omega) b.currentOffset_le]

theorem deleteMotion_h (hlines : b.lines = above ++ line :: below)
    (hline : above.length = b.cursor.line)
    (hcol : b.cursor.col ≤ line.length) (register : VimRegister) :
    yankAndDeleteRange (b.resolveMotionRange (resolveMotion b count .h)) (b, register) =
      deleteToRegister b (b.currentOffset - min count b.cursor.col)
        (min (b.currentOffset + 1) b.getText.length) := by
  have hoffset : b.positionToOffset b.cursor = _ :=
    positionToOffset_cursor hlines hline b.cursor.col
  have htarget := positionToOffset_cursor hlines hline (b.cursor.col - count)
  have hrange : b.resolveMotionRange (resolveMotion b count .h) =
      ⟨b.currentOffset - min count b.cursor.col, b.currentOffset + 1, false⟩ := by
    simp only [resolveMotionRange, resolveMotion, currentOffset, hoffset, htarget]
    simp only [Bool.false_eq_true, if_false, if_true, OffsetRange.mk.injEq, and_true]
    omega
  have hle := b.currentOffset_le
  rw [hrange, yankAndDeleteRange_eq (by omega) (by omega)]

theorem deleteToRegister_text (hle : start ≤ stop) (hstop : stop ≤ b.getText.length) :
    (deleteToRegister b start stop).2.text.length = stop - start := by
  rw [deleteToRegister, deleteOffsets_fst hle hstop, length_slice hstop]

theorem deleteToRegister_lines (hle : start ≤ stop) (hstop : stop ≤ b.getText.length) :
    (deleteToRegister b start stop).1.lines =
      splitText (b.getText.take start ++ b.getText.drop stop) :=
  deleteOffsets_lines hle hstop

theorem deleteToRegister_cursor (hle : start ≤ stop) (hstop : stop ≤ b.getText.length) :
    (deleteToRegister b start stop).1.cursor =
      offsetToPosition (deleteToRegister b start stop).1.lines start := by
  have hstart : min start b.getText.length = start := Nat.min_eq_left (Nat.le_trans hle hstop)
  simp only [deleteToRegister, deleteOffsets, replaceOffsets, hstart]

theorem deleteToRegister_inj {start' stop' : Nat} (hle : start ≤ stop)
    (hstop : stop ≤ b.getText.length)
    (hle' : start' ≤ stop') (hstop' : stop' ≤ b.getText.length)
    (hlines : (deleteToRegister b start stop).1.lines = (deleteToRegister b start' stop').1.lines)
    (hcursor : (deleteToRegister b start stop).1.cursor =
      (deleteToRegister b start' stop').1.cursor) :
    start = start' := by
  rw [deleteToRegister_cursor hle hstop, deleteToRegister_cursor hle' hstop', ← hlines] at hcursor
  have hlength : ∀ {i j : Nat}, i ≤ j → j ≤ b.getText.length →
      i ≤ (joinLines (splitText (b.getText.take i ++ b.getText.drop j))).length := by
    intro i j hij hj
    rw [joinLines, splitText, intercalate_splitOn, length_append, length_take,
      Nat.min_eq_left (Nat.le_trans hij hj)]
    exact Nat.le_add_right _ _
  refine offsetToPosition_inj (lines_ne_nil _) ?_ ?_ hcursor
  · rw [deleteToRegister_lines hle hstop]
    exact hlength hle hstop
  · rw [hlines, deleteToRegister_lines hle' hstop']
    exact hlength hle' hstop'

variable {e : VimEngine} {replacement : UInt16}

variable {m m' : Mutator}

theorem SameEffect.parts (h : SameEffect (e.applyAtomicChange m) (e.applyAtomicChange m')) :
    (m (e.buffer, e.register)).1.lines = (m' (e.buffer, e.register)).1.lines ∧
      (m (e.buffer, e.register)).1.cursor = (m' (e.buffer, e.register)).1.cursor ∧
      (m (e.buffer, e.register)).2 = (m' (e.buffer, e.register)).2 := by
  rw [SameEffect, applyAtomicChange_buffer, applyAtomicChange_buffer,
    applyAtomicChange_register, applyAtomicChange_register] at h
  obtain ⟨hlines, hcursor, -⟩ := mk.inj h.1
  exact ⟨hlines, hcursor, h.2⟩

theorem sameEffect_of_eq (h : m (e.buffer, e.register) = m' (e.buffer, e.register)) :
    SameEffect (e.applyAtomicChange m) (e.applyAtomicChange m') := by
  simp only [SameEffect, applyAtomicChange_buffer, applyAtomicChange_register, mutate, h, and_self]

theorem keepsLines_change (hlines : e.buffer.lines = above ++ line :: below)
    (hline : above.length = e.buffer.cursor.line)
    (htext : (m (e.buffer, e.register)).1.lines = splitText text) :
    KeepsLines e.buffer (e.applyAtomicChange m).buffer ↔
      ∃ line', text = textAbove above ++ (line' ++ textBelow below) ∧
        ∀ l ∈ above ++ line' :: below, newline ∉ l := by
  rw [applyAtomicChange_buffer]
  exact keepsLines_splitText hlines hline htext

theorem atEnd_of_sameEffect (h : SameEffect (e.deleteMotion count .h) (e.X count)) :
    e.buffer.currentOffset = e.buffer.getText.length := by
  obtain ⟨above, line, below, hsplit, hline, hcol⟩ := e.buffer.exists_split
  have hoffset : e.buffer.currentOffset = _ :=
    positionToOffset_cursor hsplit hline e.buffer.cursor.col
  have hle := e.buffer.currentOffset_le
  by_contra hne
  have hX : deleteCharsBackward count (e.buffer, e.register) =
      deleteToRegister e.buffer (e.buffer.currentOffset - count) e.buffer.currentOffset := rfl
  have hstop : min (e.buffer.currentOffset + 1) e.buffer.getText.length =
      e.buffer.currentOffset + 1 := by omega
  obtain ⟨hlines, hcursor, hregister⟩ := h.parts
  rw [deleteMotion_h hsplit hline hcol, hX] at hlines hcursor hregister
  have hsize := congrArg (length ∘ VimRegister.text) hregister
  simp only [Function.comp_apply] at hsize
  rw [deleteToRegister_text (by omega) (by omega),
    deleteToRegister_text (by omega) (by omega)] at hsize
  have hstart := deleteToRegister_inj (by omega) (by omega) (by omega) (by omega) hlines hcursor
  omega

section AtEnd

variable (hend : e.buffer.currentOffset = e.buffer.getText.length)
include hend

theorem deleteCharsForward_atEnd : deleteCharsForward count (e.buffer, e.register) =
    deleteToRegister e.buffer e.buffer.currentOffset e.buffer.getText.length := by
  have hstop : min e.buffer.getText.length (e.buffer.currentOffset + count) =
      e.buffer.getText.length := by omega
  rw [← hstop]
  rfl

theorem deleteCharsForward_lines :
    (deleteCharsForward count (e.buffer, e.register)).1.lines = splitText e.buffer.getText := by
  rw [deleteCharsForward_atEnd hend, deleteToRegister_lines (Nat.le_of_eq hend) (Nat.le_refl _),
    hend, take_length, drop_length, append_nil]

theorem deleteCharsBackward_lines : (deleteCharsBackward count (e.buffer, e.register)).1.lines =
    splitText (e.buffer.getText.take (e.buffer.getText.length - count)) := by
  have hX : deleteCharsBackward count (e.buffer, e.register) =
      deleteToRegister e.buffer (e.buffer.currentOffset - count) e.buffer.currentOffset := rfl
  rw [hX, deleteToRegister_lines (Nat.sub_le _ _) (Nat.le_of_eq hend), hend, drop_length,
    append_nil]

theorem replaceChars_lines : (replaceChars count replacement (e.buffer, e.register)).1.lines =
    splitText (e.buffer.getText ++ replicate count replacement) := by
  have hstop : min e.buffer.getText.length (e.buffer.getText.length + count) =
      e.buffer.getText.length :=
    Nat.min_eq_left (Nat.le_add_right _ _)
  simp only [replaceChars, hstop, replaceOffsets, hend, Nat.min_self, Nat.max_self, take_length,
    drop_length, append_nil]

variable (hsplit : e.buffer.lines = above ++ line :: below)
include hsplit

theorem atEnd_split (hline : above.length = e.buffer.cursor.line)
    (hcol : e.buffer.cursor.col ≤ line.length) :
    below = [] ∧ e.buffer.cursor.col = line.length := by
  have hoffset : e.buffer.currentOffset = _ :=
    positionToOffset_cursor hsplit hline e.buffer.cursor.col
  rw [hoffset, getText, hsplit, joinLines_split, Nat.min_eq_left hcol] at hend
  cases below with
  | nil => exact ⟨rfl, by simpa [textBelow] using hend⟩
  | cons next below =>
    simp only [textBelow, flatMap_cons, length_append, length_cons] at hend
    omega

theorem le_col_of_take
    (hline : above.length = e.buffer.cursor.line) (hcol : e.buffer.cursor.col ≤ line.length)
    {line' : CodeUnits}
    (htake : e.buffer.getText.take (e.buffer.getText.length - count) =
      textAbove above ++ (line' ++ textBelow below)) :
    count ≤ e.buffer.cursor.col ∨ e.buffer.cursor.line = 0 := by
  obtain ⟨rfl, hcol'⟩ := atEnd_split hend hsplit hline hcol
  have hlength := congrArg length htake
  rw [length_take, getText, hsplit, joinLines_split] at hlength
  simp only [length_append, textBelow, flatMap_nil, length_nil] at hlength
  cases above with
  | nil => exact .inr hline.symm
  | cons first above =>
    have hpos : 0 < (textAbove (first :: above)).length := by
      simp only [textAbove, flatMap_cons, length_append, length_singleton]
      omega
    exact .inl (by omega)

end AtEnd

/-- The commands keep to the line of the cursor, and `dl` and `dh` are `x` and `X`, exactly at the
end of a text whose lines hold no newline. -/
theorem charwise_iff (e : VimEngine) (count : Nat) (replacement : UInt16) :
    Charwise e count replacement ↔
      (∀ line ∈ e.buffer.lines, newline ∉ line) ∧ e.buffer.currentOffset = e.buffer.getText.length ∧
        (count ≤ e.buffer.cursor.col ∨ e.buffer.cursor.line = 0) ∧
          (count = 0 ∨ replacement ≠ newline) := by
  obtain ⟨above, line, below, hsplit, hline, hcol⟩ := e.buffer.exists_split
  have htext : e.buffer.getText = textAbove above ++ (line ++ textBelow below) := by
    rw [getText, hsplit, joinLines_split]
  constructor
  · intro h
    have hend := atEnd_of_sameEffect h.dh
    obtain ⟨rfl, -⟩ := atEnd_split hend hsplit hline hcol
    refine ⟨?_, hend, ?_, ?_⟩
    · obtain ⟨line', hline', hfree⟩ :=
        (keepsLines_change hsplit hline (deleteCharsForward_lines hend)).mp h.x
      rw [htext] at hline'
      rw [hsplit, append_cancel_right (append_cancel_left hline')]
      exact hfree
    · obtain ⟨line', hline', -⟩ :=
        (keepsLines_change hsplit hline (deleteCharsBackward_lines hend)).mp h.X
      exact le_col_of_take hend hsplit hline hcol hline'
    · obtain ⟨line', hline', hfree⟩ :=
        (keepsLines_change hsplit hline (replaceChars_lines hend)).mp h.r
      rw [htext, textBelow, flatMap_nil, append_nil, append_nil, append_assoc] at hline'
      have hmem := hfree line' (by simp)
      rw [← append_cancel_left hline', mem_append, not_or] at hmem
      by_cases hcount : count = 0
      · exact .inl hcount
      · exact .inr fun heq => hmem.2 (mem_replicate.mpr ⟨hcount, heq.symm⟩)
  · rintro ⟨hfree, hend, hcount, hreplacement⟩
    obtain ⟨rfl, hcol'⟩ := atEnd_split hend hsplit hline hcol
    have hoffset : e.buffer.currentOffset = _ :=
      positionToOffset_cursor hsplit hline e.buffer.cursor.col
    have habove : count ≤ line.length ∨ textAbove above = [] := by
      rcases hcount with hcount | hfirst
      · exact .inl (hcol' ▸ hcount)
      · rw [hfirst, length_eq_zero_iff] at hline
        exact .inr (by rw [hline]; rfl)
    rw [hsplit] at hfree
    have hfree' : ∀ {line'}, newline ∉ line' → ∀ l ∈ above ++ [line'], newline ∉ l := by
      intro line' hline' l hl
      rcases mem_append.mp hl with hl | hl
      · exact hfree l (mem_append_left _ hl)
      · rwa [mem_singleton.mp hl]
    have hx : KeepsLines e.buffer (e.x count).buffer :=
      (keepsLines_change hsplit hline (deleteCharsForward_lines hend)).mpr ⟨line, htext, hfree⟩
    refine ⟨hx, ?_, ?_, ?_, sameEffect_of_eq ?_, sameEffect_of_eq ?_⟩
    · refine (keepsLines_change hsplit hline (deleteCharsBackward_lines hend)).mpr
        ⟨line.take (line.length - count), ?_,
          hfree' fun hmem => hfree line (by simp) (mem_of_mem_take hmem)⟩
      rw [htext, textBelow, flatMap_nil, append_nil, append_nil, take_append, length_append]
      rcases habove with hle | hnil
      · rw [take_of_length_le (by omega)]
        congr 2
        omega
      · simp [hnil]
    · rwa [x, applyAtomicChange_buffer] at hx
    · refine (keepsLines_change hsplit hline (replaceChars_lines hend)).mpr
        ⟨line ++ replicate count replacement, ?_, hfree' fun hmem => ?_⟩
      · rw [htext, textBelow, flatMap_nil, append_nil, append_nil, append_assoc]
      · rcases mem_append.mp hmem with hmem | hmem
        · exact hfree line (by simp) hmem
        · obtain ⟨hne, heq⟩ := mem_replicate.mp hmem
          exact hreplacement.elim hne fun hreplacement => hreplacement heq.symm
    · rw [deleteMotion_l hsplit hline hcol]
      congr 1
      omega
    · rw [deleteMotion_h hsplit hline hcol]
      have hlength : count ≤ line.length ∨ (textAbove above).length = 0 :=
    habove.imp_right length_eq_zero_iff.mpr
      congr 1 <;> omega

/-- `2x` joins the lines `a` and `b`. -/
theorem not_charwise_two_lines : ¬Charwise (.ofLines [[97], [98]]) 2 99 :=
  fun h => absurd h.x.1 (by decide)

end Vibrato.Vim
