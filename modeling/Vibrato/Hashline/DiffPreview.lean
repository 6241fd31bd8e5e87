import Vibrato.Edit.DiffString
import Vibrato.Hashline.Hash

/-! `buildCompactHashlineDiffPreview` of `hashline/diff-preview.ts`: the printed diff with an anchor
for every line of the new text. -/

namespace Vibrato.Hashline

open Edit List Text

def readDigits (s : Text) : Option Int :=
  if s.head?.any isDigit then some (parseDigits (s.takeWhile isDigit)) else none

/-- `Number.parseInt(s, 10)`, where `none` is `NaN`. -/
def parseInt (s : Text) : Option Int :=
  match trimStart s with
  | '-' :: rest => (readDigits rest).map (- ·)
  | '+' :: rest => readDigits rest
  | rest => readDigits rest

def numberText : Option Int → Text
  | none => "NaN".toList
  | some (.ofNat n) => ofNat n
  | some (.negSucc n) => '-' :: ofNat (n + 1)

structure PreviewState where
  addedLines : Nat
  removedLines : Nat

structure CompactHashlineDiffPreview where
  preview : Text
  addedLines : Nat
  removedLines : Nat

def anchoredLine (sign : Char) (lineNumber : Option Int) (content : Text) : Text :=
  sign :: (numberText lineNumber ++ computeLineHash content ++ HL_BODY_SEP :: content)

variable (state : PreviewState)

def formatPreviewLine (line : Text) : PreviewState × Text :=
  match line with
  | [] => (state, line)
  | kind :: body =>
    if kind ∈ ['+', '-', ' '] ∧ '|' ∈ body then
      let lineNumber := parseInt (body.takeWhile (· ≠ '|'))
      let content := (body.dropWhile (· ≠ '|')).drop 1
      if kind = '+' then
        ({ state with addedLines := state.addedLines + 1 }, anchoredLine '+' lineNumber content)
      else if kind = '-' then
        ({ state with removedLines := state.removedLines + 1 },
          '-' :: (numberText lineNumber ++ "--".toList ++ HL_BODY_SEP :: content))
      else
        (state,
          anchoredLine ' ' (lineNumber.map (· + state.addedLines - state.removedLines)) content)
    else (state, line)

def formatPreviewLines : PreviewState → List Text → PreviewState × List Text
  | state, [] => (state, [])
  | state, line :: lines =>
    let (state, formatted) := formatPreviewLine state line
    let (state, rest) := formatPreviewLines state lines
    (state, formatted :: rest)

def buildCompactHashlineDiffPreview (diff : Text) : CompactHashlineDiffPreview :=
  let lines := if diff = [] then [] else splitLines diff
  let (state, formatted) := formatPreviewLines ⟨0, 0⟩ lines
  ⟨joinLines formatted, state.addedLines, state.removedLines⟩

variable {c : Char} {parts : List DiffLinePart} {before lines : List DiffLine} {line : DiffLine}

theorem toNat_of_isDigit (h : isDigit c = true) : 48 ≤ c.toNat ∧ c.toNat ≤ 57 := by
  unfold isDigit at h
  simp only [Bool.and_eq_true, decide_eq_true_eq] at h
  exact ⟨h.1, h.2⟩

theorem ne_of_mem_ofNat {n : Nat} {d : Char} (hc : c ∈ ofNat n) (hd : isDigit d = false) :
    c ≠ d := by
  rintro rfl
  rw [isDigit_of_mem_ofNat hc] at hd
  cases hd

variable (n : Nat)

theorem parseInt_ofNat : parseInt (ofNat n) = some (n : Int) := by
  have hdigits : (ofNat n).takeWhile isDigit = ofNat n :=
    takeWhile_eq_self_iff.2 fun c => isDigit_of_mem_ofNat
  have hne : ofNat n ≠ [] := Nat.toDigits_ne_nil
  obtain ⟨c, rest, hcons⟩ := exists_cons_of_ne_nil hne
  have hmem : c ∈ ofNat n := hcons ▸ mem_cons_self
  have hc := isDigit_of_mem_ofNat hmem
  have htrim : trimStart (ofNat n) = c :: rest := by
    have hspace : isSpace c = false := by
      have := toNat_of_isDigit hc
      simp [isSpace]
      omega
    rw [hcons, trimStart, dropWhile_cons_of_neg (by simp [hspace])]
  have hminus : c ≠ '-' := ne_of_mem_ofNat hmem (by decide)
  have hplus : c ≠ '+' := ne_of_mem_ofNat hmem (by decide)
  unfold parseInt
  rw [htrim]
  split
  · next heq => exact absurd (List.cons.inj heq).1 hminus
  · next heq => exact absurd (List.cons.inj heq).1 hplus
  · rw [readDigits, head?_cons, Option.any_some, if_pos hc, ← hcons, hdigits, parseDigits_ofNat]

theorem takeWhile_bar (content : Text) :
    (ofNat n ++ '|' :: content).takeWhile (· ≠ '|') = ofNat n := by
  have hall : ∀ c ∈ ofNat n, decide (c ≠ '|') = true :=
    fun c hc => decide_eq_true (ne_of_mem_ofNat hc (by decide))
  rw [takeWhile_append_of_pos hall, takeWhile_cons_of_neg (by simp), append_nil]

theorem dropWhile_bar (content : Text) :
    (ofNat n ++ '|' :: content).dropWhile (· ≠ '|') = '|' :: content := by
  have hall : ∀ c ∈ ofNat n, decide (c ≠ '|') = true :=
    fun c hc => decide_eq_true (ne_of_mem_ofNat hc (by decide))
  rw [dropWhile_append_of_pos hall, dropWhile_cons_of_neg (by simp)]

theorem formatPreviewLine_added (content : Text) :
    formatPreviewLine state (formatNumberedDiffLine '+' n content) =
      (⟨state.addedLines + 1, state.removedLines⟩, anchoredLine '+' (some n) content) := by
  unfold formatPreviewLine formatNumberedDiffLine
  dsimp only
  rw [if_pos ⟨by decide, by simp⟩, takeWhile_bar, dropWhile_bar, parseInt_ofNat]
  rfl

theorem formatPreviewLine_removed (content : Text) :
    formatPreviewLine state (formatNumberedDiffLine '-' n content) =
      (⟨state.addedLines, state.removedLines + 1⟩,
        '-' :: (ofNat n ++ "--".toList ++ HL_BODY_SEP :: content)) := by
  unfold formatPreviewLine formatNumberedDiffLine
  dsimp only
  rw [if_pos ⟨by decide, by simp⟩, takeWhile_bar, dropWhile_bar, parseInt_ofNat]
  rfl

theorem formatPreviewLine_context (content : Text) :
    formatPreviewLine state (formatNumberedDiffLine ' ' n content) =
      (state, anchoredLine ' ' (some (n + state.addedLines - state.removedLines)) content) := by
  unfold formatPreviewLine formatNumberedDiffLine
  dsimp only
  rw [if_pos ⟨by decide, by simp⟩, takeWhile_bar, dropWhile_bar, parseInt_ofNat]
  rfl

/-- The line of the preview for a printed line.  A line that did not change or was added has its
line number in the new text and the hash of that line. -/
def IsPreviewed (parts : List DiffLinePart) (newContent : Text) : DiffLine → Text → Prop
  | .line .common oldLineNum content,
      text => ∃ newLineNum : Nat, text = anchoredLine ' ' (some newLineNum) content ∧
      IsPartLine parts .common oldLineNum newLineNum content ∧
      lineAt newContent newLineNum = some content
  | .line .added newLineNum content, text =>
      text = anchoredLine '+' (some newLineNum) content ∧
        lineAt newContent newLineNum = some content
  | .line .removed oldLineNum content, text =>
      text = '-' :: (ofNat oldLineNum ++ "--".toList ++ HL_BODY_SEP :: content)
  | .elided _, text => ∃ lineNumber : Int, text = anchoredLine ' ' (some lineNumber) "...".toList

def IsLineOf (oldContent newContent : Text) : DiffLine → Prop
  | .line .common lineNum content => lineAt oldContent lineNum = some content
  | .line .added lineNum content => lineAt newContent lineNum = some content
  | .line .removed lineNum content => lineAt oldContent lineNum = some content
  | .elided _ => True

def countersAfter (before : List DiffLine) : PreviewState :=
  ⟨addedCount before, removedCount before⟩

variable {diffLines : Text → Text → List DiffLinePart} {oldContent newContent : Text}

variable (hdiff : IsLineDiff oldContent newContent parts)
include hdiff

theorem isLineOf_of_isPrinted (h : line.IsPrinted parts before) :
    IsLineOf oldContent newContent line := by
  cases line with
  | elided n => trivial
  | line kind lineNum content =>
    obtain ⟨oldLineNum, newLineNum, hpart, rfl, -⟩ := h
    cases kind with
    | common => exact hpart.lineAt_old hdiff (by decide)
    | removed => exact hpart.lineAt_old hdiff (by decide)
    | added => exact hpart.lineAt_new hdiff (by decide)

theorem formatPreviewLine_format (h : line.IsPrinted parts before) :
    ∃ text, formatPreviewLine (countersAfter before) line.format =
      (countersAfter (before ++ [line]), text) ∧
      IsPreviewed parts newContent line text := by
  have hline := isLineOf_of_isPrinted hdiff h
  unfold countersAfter
  rw [addedCount_concat, removedCount_concat]
  cases line with
  | elided n => exact ⟨_, formatPreviewLine_context _ n _, _, rfl⟩
  | line kind lineNum content =>
    obtain ⟨oldLineNum, newLineNum, hpart, rfl, hoffset⟩ := h
    cases kind with
    | removed => exact ⟨_, formatPreviewLine_removed _ _ content, rfl⟩
    | added => exact ⟨_, formatPreviewLine_added _ _ content, rfl, hline⟩
    | common =>
      refine ⟨_, formatPreviewLine_context _ _ content, newLineNum, ?_, hpart,
        hpart.lineAt_new hdiff (by decide)⟩
      have hnumber :
          ((oldLineNum : Int) + addedCount before - removedCount before) = newLineNum := by omega
      exact congrArg (fun n => anchoredLine ' ' (some n) content) hnumber

theorem formatPreviewLines_format
    (hprinted : ∀ before' line after, before ++ lines = before' ++ line :: after →
      line.IsPrinted parts before') :
    ∃ texts, formatPreviewLines (countersAfter before) (lines.map DiffLine.format) =
        (countersAfter (before ++ lines), texts) ∧
      List.Forall₂ (IsPreviewed parts newContent) lines texts := by
  induction lines generalizing before with
  | nil => exact ⟨[], by rw [append_nil]; rfl, List.Forall₂.nil⟩
  | cons line lines ih =>
    obtain ⟨text, hformat, hpreviewed⟩ :=
      formatPreviewLine_format hdiff (hprinted before line lines rfl)
    rw [append_cons] at hprinted ⊢
    obtain ⟨texts, hformats, hall⟩ := ih hprinted
    refine ⟨text :: texts, ?_, List.Forall₂.cons hpreviewed hall⟩
    rw [map_cons, formatPreviewLines, hformat]
    dsimp only
    rw [hformats]

omit hdiff

theorem newline_not_mem_format (h : line.IsPrinted parts before) : '\n' ∉ line.format := by
  have hnumber : ∀ n, '\n' ∉ ofNat n := fun n hmem => ne_of_mem_ofNat hmem (by decide) rfl
  cases line with
  | elided n =>
    unfold DiffLine.format formatNumberedDiffLine
    simp [hnumber n]
  | line kind lineNum content =>
    obtain ⟨_, _, hpart, -, -⟩ := h
    have hsign : '\n' ≠ kind.sign := by cases kind <;> decide
    unfold DiffLine.format formatNumberedDiffLine
    simp [hnumber lineNum, hsign, hpart.newline_not_mem]

theorem splitLines_diff
    (hprinted : ∀ before line after, lines = before ++ line :: after →
      line.IsPrinted parts before) :
    (if joinLines (lines.map DiffLine.format) = [] then []
      else splitLines (joinLines (lines.map DiffLine.format))) = lines.map DiffLine.format := by
  cases hlines : lines with
  | nil => rfl
  | cons line rest =>
    have hne : joinLines ((line :: rest).map DiffLine.format) ≠ [] := by
      have hformat : line.format ≠ [] := by cases line <;> exact cons_ne_nil _ _
      rw [map_cons, ← singleton_append, joinLines_append_right (cons_ne_nil _ _)]
      exact append_ne_nil_of_left_ne_nil (by simpa [joinLines] using hformat) _
    rw [if_neg hne]
    refine splitLines_joinLines (by simp) fun text hmem => ?_
    rw [← hlines] at hmem
    obtain ⟨line', hline', rfl⟩ := mem_map.1 hmem
    obtain ⟨before, after, heq⟩ := append_of_mem hline'
    exact newline_not_mem_format (hprinted before line' after heq)

/-- Every printed line is the line of the text that its number names, and every line of the preview
that is not left out has its number and its hash in the new text. -/
theorem generateDiffString_preview (contextLines : Int)
    (hdiff : IsLineDiff oldContent newContent (diffLines oldContent newContent)) :
    let lines := printedLines diffLines oldContent newContent contextLines
    let result := generateDiffString diffLines oldContent newContent contextLines
    result.diff = joinLines (lines.map DiffLine.format) ∧
      (∀ line ∈ lines, IsLineOf oldContent newContent line) ∧
      ∃ previews, (buildCompactHashlineDiffPreview result.diff).preview = joinLines previews ∧
        List.Forall₂ (IsPreviewed (diffLines oldContent newContent) newContent) lines previews := by
  intro lines result
  have hprinted : ∀ before line after, lines = before ++ line :: after →
      line.IsPrinted (diffLines oldContent newContent) before :=
    fun before line after heq => isPrinted_printedLines diffLines heq
  refine ⟨rfl, fun line hline => ?_, ?_⟩
  · obtain ⟨before, after, heq⟩ := append_of_mem hline
    exact isLineOf_of_isPrinted hdiff (hprinted before line after heq)
  · have hnone : countersAfter [] = ⟨0, 0⟩ := rfl
    have hfrom : ∀ before line after, [] ++ lines = before ++ line :: after →
        line.IsPrinted (diffLines oldContent newContent) before := hprinted
    obtain ⟨texts, hformat, hall⟩ := formatPreviewLines_format hdiff hfrom
    refine ⟨texts, ?_, hall⟩
    rw [hnone] at hformat
    show (buildCompactHashlineDiffPreview (joinLines (lines.map DiffLine.format))).preview = _
    unfold buildCompactHashlineDiffPreview
    dsimp only
    rw [splitLines_diff hprinted, hformat]

def secondLineDiff (_ _ : Text) : List DiffLinePart :=
  [⟨.common, "a\n".toList⟩, ⟨.removed, "b\n".toList⟩, ⟨.added, "c\n".toList⟩]

theorem generateDiffString_preview_second :
    let lines := printedLines secondLineDiff "a\nb\n".toList "a\nc\n".toList 4
    let result := generateDiffString secondLineDiff "a\nb\n".toList "a\nc\n".toList 4
    result.diff = " 1|a\n-2|b\n+2|c".toList ∧
      (∀ line ∈ lines, IsLineOf "a\nb\n".toList "a\nc\n".toList line) ∧
      ∃ previews, (buildCompactHashlineDiffPreview result.diff).preview = joinLines previews ∧
        List.Forall₂ (IsPreviewed (secondLineDiff "a\nb\n".toList "a\nc\n".toList) "a\nc\n".toList)
          lines previews := by
  have hdiff : IsLineDiff "a\nb\n".toList "a\nc\n".toList
      (secondLineDiff "a\nb\n".toList "a\nc\n".toList) := by
    have hends : ∀ values : List Text, (∀ value ∈ values, value.getLast? = some '\n') →
        EndsLines values :=
      fun values hall before value after heq _ => .inr (hall value (by rw [heq]; simp))
    exact ⟨by decide +kernel, by decide +kernel, hends _ (by decide +kernel), hends _ (by
      decide +kernel)⟩
  have hpreview := generateDiffString_preview 4 hdiff
  exact ⟨by decide +kernel, hpreview.2⟩

end Vibrato.Hashline
