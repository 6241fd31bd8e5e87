import Vibrato.Hashline.KeepsLines

namespace Vibrato.Hashline

open List Text

/-- The payload of an insertion before line `line`, or after the line above it. -/
def Edit.textBefore? (line : Nat) : Edit → Option Text
  | .insert (.beforeAnchor anchor) text _ _ => if anchor.line = line then some text else none
  | .insert (.afterAnchor anchor) text _ _ => if anchor.line + 1 = line then some text else none
  | _ => none

def Edit.textAtEnd? (lineCount : Nat) : Edit → Option Text
  | .insert .eof text _ _ => some text
  | .insert (.afterAnchor anchor) text _ _ => if lineCount ≤ anchor.line then some text else none
  | _ => none

def Edit.deletes (line : Nat) : Edit → Bool
  | .delete anchor _ _ => anchor.line = line
  | .insert .. => false

section Rendering

variable (edits : List Edit) (fileLines : List Text)

/-- The lines of the file, each after the payloads before it and left out if it is deleted. -/
def renderLines : List Text :=
  (fileLines.zipIdx 1).flatMap fun line =>
    edits.filterMap (Edit.textBefore? line.2) ++
      if edits.any (Edit.deletes line.2) then [] else [line.1]

/-- Lines at the start of a file.  A single empty line is an empty file, and is replaced. -/
def renderStart (bofLines lines : List Text) : List Text :=
  if bofLines ≠ [] ∧ lines = [[]] then bofLines else bofLines ++ lines

def renderEnd (eofLines lines : List Text) : List Text :=
  if eofLines ≠ [] ∧ lines = [[]] then eofLines
  else if lines.getLast? = some [] then lines.dropLast ++ eofLines ++ [[]]
  else lines ++ eofLines

def renderFile : List Text :=
  renderEnd (edits.filterMap (Edit.textAtEnd? fileLines.length))
    (renderStart (edits.filterMap bofText?) (renderLines edits fileLines))

end Rendering

variable {edits : List Edit} {fileLines : List Text}

variable {anchor : Anchor} {first line : Nat} {above eofLines rest : List Text}

theorem normalizeCursor_afterLast (h : fileLines.length ≤ anchor.line) (text : Text)
    (lineNum index : Nat) :
    normalizeCursor fileLines (.insert (.afterAnchor anchor) text lineNum index) =
      .insert .eof text lineNum index := if_pos h

theorem normalizeCursor_after (h : ¬fileLines.length ≤ anchor.line) (text : Text)
    (lineNum index : Nat) :
    normalizeCursor fileLines (.insert (.afterAnchor anchor) text lineNum index) =
      .insert (.beforeAnchor ⟨anchor.line + 1,
        computeLineHash (lineAt fileLines (anchor.line + 1))⟩) text
        lineNum index := if_neg h

variable (edit : Edit)

theorem bofText?_normalizeCursor : bofText? (normalizeCursor fileLines edit) = bofText? edit := by
  cases edit with
  | delete => rfl
  | insert cursor text lineNum index =>
    cases cursor with
    | afterAnchor anchor =>
      by_cases h : fileLines.length ≤ anchor.line
      · rw [normalizeCursor_afterLast h]
        rfl
      · rw [normalizeCursor_after h]
        rfl
    | _ => rfl

theorem eofText?_normalizeCursor :
    eofText? (normalizeCursor fileLines edit) = edit.textAtEnd? fileLines.length := by
  cases edit with
  | delete => rfl
  | insert cursor text lineNum index =>
    cases cursor with
    | afterAnchor anchor =>
      by_cases h : fileLines.length ≤ anchor.line
      · rw [normalizeCursor_afterLast h, Edit.textAtEnd?, if_pos h]
        rfl
      · rw [normalizeCursor_after h, Edit.textAtEnd?, if_neg h]
        rfl
    | _ => rfl

theorem text?_of_bucketLine? (hline : line ≤ fileLines.length) :
    (if bucketLine? (normalizeCursor fileLines edit) = some line then
      (normalizeCursor fileLines edit).text? else none) = edit.textBefore? line := by
  cases edit with
  | delete anchor lineNum index =>
    split <;> rfl
  | insert cursor text lineNum index =>
    cases cursor with
    | bof => rfl
    | eof => rfl
    | beforeAnchor anchor =>
      show (if some anchor.line = some line then some text else none) =
        if anchor.line = line then some text else none
      simp only [Option.some.injEq]
    | afterAnchor anchor =>
      by_cases h : fileLines.length ≤ anchor.line
      · have hne : anchor.line + 1 ≠ line := by omega
        rw [normalizeCursor_afterLast h, Edit.textBefore?, if_neg hne]
        rfl
      · rw [normalizeCursor_after h]
        show (if some (anchor.line + 1) = some line then some text else none) =
          if anchor.line + 1 = line then some text else none
        simp only [Option.some.injEq]

theorem deletes_of_bucketLine? (line : Nat) :
    (decide (bucketLine? (normalizeCursor fileLines edit) = some line) &&
      !(normalizeCursor fileLines edit).isInsert) = edit.deletes line := by
  cases edit with
  | delete anchor lineNum index =>
    show (decide (some anchor.line = some line) && true) = decide (anchor.line = line)
    simp only [Option.some.injEq, Bool.and_true]
  | insert cursor text lineNum index =>
    have hinsert : (normalizeCursor fileLines (.insert cursor text lineNum index)).isInsert =
        true := by
      cases cursor with
      | afterAnchor anchor =>
        by_cases h : fileLines.length ≤ anchor.line
        · rw [normalizeCursor_afterLast h]
          rfl
        · rw [normalizeCursor_after h]
          rfl
      | _ => rfl
    rw [hinsert, Bool.not_true, Bool.and_false]
    rfl

theorem bucketTexts_normalizeCursor (edits : List Edit) (hline : line ≤ fileLines.length) :
    bucketTexts (edits.map (normalizeCursor fileLines)) line =
      edits.filterMap (Edit.textBefore? line) := by
  unfold bucketTexts
  induction edits with
  | nil => rfl
  | cons edit edits ih =>
    rw [map_cons, filterMap_cons, ← text?_of_bucketLine? edit hline, ← ih]
    by_cases h : bucketLine? (normalizeCursor fileLines edit) = some line
    · rw [filter_cons_of_pos (by simpa using h), filterMap_cons, if_pos h]
    · rw [filter_cons_of_neg (by simpa using h), if_neg h]

theorem bucketDeletes_normalizeCursor (edits : List Edit) (line : Nat) :
    bucketDeletes (edits.map (normalizeCursor fileLines)) line = edits.any (Edit.deletes line) := by
  unfold bucketDeletes
  rw [any_filter, any_map]
  congr 1
  funext edit
  exact deletes_of_bucketLine? edit line

variable (hanchors : ∀ anchor ∈ edits.flatMap getHashlineEditAnchors, 1 ≤ anchor.line ∧
    anchor.line ≤ fileLines.length)
include hanchors

theorem bucketLines_inFile :
    ∀ l ∈ bucketLines (edits.map (normalizeCursor fileLines)), 1 ≤ l ∧ l ≤ fileLines.length := by
  intro l hl
  simp only [bucketLines, mem_insertionSort, mem_dedup, mem_filterMap, mem_map] at hl
  obtain ⟨_, ⟨edit, hedit, rfl⟩, hline⟩ := hl
  have hinside : ∀ anchor ∈ getHashlineEditAnchors edit, 1 ≤ anchor.line ∧
      anchor.line ≤ fileLines.length :=
    fun anchor hanchor => hanchors anchor (mem_flatMap.2 ⟨edit, hedit, hanchor⟩)
  cases edit with
  | delete anchor lineNum index =>
    cases hline
    exact hinside anchor mem_cons_self
  | insert cursor text lineNum index =>
    cases cursor with
    | bof => cases hline
    | eof => cases hline
    | beforeAnchor anchor =>
      cases hline
      exact hinside anchor mem_cons_self
    | afterAnchor anchor =>
      by_cases h : fileLines.length ≤ anchor.line
      · rw [normalizeCursor_afterLast h] at hline
        cases hline
      · rw [normalizeCursor_after h] at hline
        cases hline
        show 1 ≤ anchor.line + 1 ∧ anchor.line + 1 ≤ fileLines.length
        omega

theorem spliceBuckets_eq_renderLines :
    spliceBuckets (edits.map (normalizeCursor fileLines)) fileLines =
      renderLines edits fileLines := by
  rw [spliceBuckets_eq_flatMap (bucketLines_inFile hanchors)]
  refine flatMap_congr fun line hline => ?_
  obtain ⟨-, hlt, -⟩ := mem_zipIdx hline
  rw [bucketReplacement, bucketTexts_normalizeCursor edits (by omega),
    bucketDeletes_normalizeCursor]
  split
  · rw [append_nil]
  · rfl

omit hanchors

theorem insertAtStart_eq_renderStart (lines bofLines : List Text) :
    insertAtStart lines bofLines = renderStart bofLines lines := by
  unfold insertAtStart renderStart
  by_cases hnone : bofLines = []
  · simp [hnone]
  · simp [hnone]

theorem insertAtEnd_eq_renderEnd (lines eofLines : List Text) :
    (insertAtEnd lines eofLines).1 = renderEnd eofLines lines := by
  have hlast : lines.getLast? = some [] → lines.dropLast ++ [[]] = lines :=
    fun h => dropLast_append_getLast? [] h
  unfold insertAtEnd renderEnd
  by_cases hnone : eofLines = []
  · rw [if_pos hnone, if_neg fun h => h.1 hnone, hnone, append_nil, append_nil]
    split
    · next h => exact (hlast h).symm
    · rfl
  by_cases hempty : lines = [[]]
  · rw [if_neg hnone, if_pos hempty, if_pos ⟨hnone, hempty⟩]
  rw [if_neg hnone, if_neg hempty, if_neg fun h => hempty h.2]
  unfold endIndex
  split
  · next h =>
    have hdrop : lines.drop (lines.length - 1) = [[]] := by
      calc lines.drop (lines.length - 1)
          = (lines.dropLast ++ [[]]).drop lines.dropLast.length := by rw [hlast h, length_dropLast]
        _ = [[]] := drop_left
    rw [← dropLast_eq_take, hdrop]
  · rw [take_length, drop_length, append_nil]

include hanchors

theorem applyNormalizedEdits_eq_renderFile :
    (applyNormalizedEdits (edits.map (normalizeCursor fileLines)) fileLines).1 =
      renderFile edits fileLines := by
  have hbof : (edits.map (normalizeCursor fileLines)).filterMap bofText? =
      edits.filterMap bofText? := by
    rw [filterMap_map]
    exact congrArg (List.filterMap · edits) (funext bofText?_normalizeCursor)
  have heof : (edits.map (normalizeCursor fileLines)).filterMap eofText? =
      edits.filterMap (Edit.textAtEnd? fileLines.length) := by
    rw [filterMap_map]
    exact congrArg (List.filterMap · edits) (funext eofText?_normalizeCursor)
  unfold applyNormalizedEdits renderFile
  rw [insertAtEnd_eq_renderEnd, insertAtStart_eq_renderStart, hbof, heof,
    spliceBuckets_eq_renderLines hanchors]

omit hanchors

theorem spliceBuckets_above {below : List Text} {edits : List Edit}
    (hmem : ∀ l ∈ bucketLines edits, above.length < l ∧ l ≤ (above ++ below).length) :
    ∃ rest, spliceBuckets edits (above ++ below) = above ++ rest := by
  have hsplice : spliceBuckets edits (above ++ below) = ((above ++ below).zipIdx 1).flatMap
      fun line => bucketReplacement edits line.2 line.1 :=
    spliceBuckets_eq_flatMap fun l hl => ⟨by have := (hmem l hl).1; omega, (hmem l hl).2⟩
  rw [hsplice, zipIdx_append, flatMap_append]
  refine ⟨_, congrArg (· ++ _) (Lib.flatMap_zipIdx_eq_self ?_)⟩
  rintro ⟨line, l⟩ hline
  obtain ⟨-, hlt, -⟩ := mem_zipIdx hline
  apply bucketReplacement_eq_self
  intro hl
  have habove := (hmem l hl).1
  omega

theorem insertAtEnd_above (hchanged : ∀ l ∈ (insertAtEnd (above ++ rest) eofLines).2,
    above.length ≤ l - 1) :
    ∃ rest', (insertAtEnd (above ++ rest) eofLines).1 = above ++ rest' := by
  unfold insertAtEnd at hchanged ⊢
  by_cases hnone : eofLines = []
  · rw [if_pos hnone]
    exact ⟨rest, rfl⟩
  rw [if_neg hnone] at hchanged ⊢
  by_cases hempty : above ++ rest = [[]]
  · rw [if_pos hempty] at hchanged ⊢
    have hnil : above = [] := length_eq_zero_iff.1 (Nat.le_zero.1 (hchanged 1 rfl))
    rw [hnil]
    exact ⟨eofLines, rfl⟩
  rw [if_neg hempty] at hchanged ⊢
  have hindex : above.length ≤ endIndex (above ++ rest) := hchanged _ rfl
  refine ⟨rest.take (endIndex (above ++ rest) - above.length) ++ eofLines ++
    (above ++ rest).drop (endIndex (above ++ rest)), ?_⟩
  rw [take_append, take_of_length_le (by omega)]
  simp only [append_assoc]

theorem eofChangedLine_le {lines : List Text} {l : Nat}
    (h : l ∈ (insertAtEnd lines eofLines).2) : l ≤ lines.length + 1 := by
  unfold insertAtEnd at h
  split at h
  · cases h
  split at h
  · cases h
    omega
  · cases h
    unfold endIndex
    split <;> omega

theorem firstChanged_le {edits : List Edit}
    (hmem : ∀ l ∈ bucketLines edits, 1 ≤ l ∧ l ≤ fileLines.length)
    (hfirst : firstChanged (applyNormalizedEdits edits fileLines).2 = some first) :
    first ≤ fileLines.length + 1 := by
  obtain ⟨hchanged, hleast⟩ := min?_eq_some_iff.1 hfirst
  unfold applyNormalizedEdits at hchanged hleast
  simp only [mem_append, Option.mem_toList] at hchanged hleast
  cases hlines : bucketLines edits with
  | cons l lines =>
    have hl : l ∈ bucketLines edits := hlines ▸ mem_cons_self
    have hle := hleast l (.inl (.inl hl))
    have hinside := (hmem l hl).2
    omega
  | nil =>
    rw [hlines] at hchanged
    have hspliced : spliceBuckets edits fileLines = fileLines := by
      rw [spliceBuckets, hlines, foldl_nil]
    by_cases hbof : edits.filterMap bofText? = []
    · rw [if_pos hbof, hspliced, insertAtStart, if_pos hbof] at hchanged
      obtain (hnone | hnone) | heof := hchanged
      · cases hnone
      · cases hnone
      · exact eofChangedLine_le heof
    · have hone := hleast 1 (.inl (.inr (by rw [if_neg hbof]; exact mem_cons_self)))
      omega

theorem applyNormalizedEdits_above {edits : List Edit}
    (hmem : ∀ l ∈ bucketLines edits, 1 ≤ l ∧ l ≤ fileLines.length)
    (hfirst : firstChanged (applyNormalizedEdits edits fileLines).2 = some first) :
    ∃ above below rest, fileLines = above ++ below ∧ first ≤ above.length + 1 ∧
      (applyNormalizedEdits edits fileLines).1 = above ++ rest := by
  have hle := firstChanged_le hmem hfirst
  obtain ⟨-, hleast⟩ := min?_eq_some_iff.1 hfirst
  unfold applyNormalizedEdits at hleast ⊢
  dsimp only at hleast ⊢
  simp only [mem_append, Option.mem_toList] at hleast
  by_cases hbof : edits.filterMap bofText? = []
  · -- without lines at the start, the lines above every bucket stay where they are
    have habove : ∀ l ∈ bucketLines edits, first ≤ l := fun l hl => hleast l (.inl (.inl hl))
    have hsplit := take_append_drop (first - 1) fileLines
    have hlength : (fileLines.take (first - 1)).length ≤ first - 1 := length_take_le _ _
    obtain ⟨rest, hrest⟩ :
        ∃ rest, spliceBuckets edits fileLines = fileLines.take (first - 1) ++ rest := by
      conv => enter [1, rest, 1, 2]; rw [← hsplit]
      refine spliceBuckets_above fun l hl => ⟨?_, ?_⟩
      · have hpos := (hmem l hl).1
        have hge := habove l hl
        omega
      · rw [hsplit]
        exact (hmem l hl).2
    have hstart : insertAtStart (spliceBuckets edits fileLines) (edits.filterMap bofText?) =
        fileLines.take (first - 1) ++ rest := by
      rw [insertAtStart, if_pos hbof, hrest]
    rw [hstart] at hleast ⊢
    obtain ⟨rest', hrest'⟩ := insertAtEnd_above fun l hl =>
      Nat.le_trans hlength (Nat.sub_le_sub_right (hleast l (.inr hl)) 1)
    refine ⟨_, _, rest', hsplit.symm, ?_, hrest'⟩
    rw [length_take]
    omega
  · have hone : first ≤ 1 := hleast 1 (.inl (.inr (by rw [if_neg hbof]; exact mem_cons_self)))
    exact ⟨[], fileLines, _, rfl, hone, rfl⟩

theorem splitLines_joinLines_above (habove : ∀ line ∈ above, '\n' ∉ line) {i : Nat}
    (hi : i < above.length) :
    (splitLines (joinLines (above ++ rest)))[i]? = above[i]? := by
  have hne : above ++ rest ≠ [] := by
    intro hnil
    rw [(append_eq_nil_iff.1 hnil).1] at hi
    exact absurd hi (Nat.not_lt_zero i)
  have hself : above.flatMap splitLines = above := by
    have hline : ∀ line ∈ above, splitLines line = [line] :=
      fun line hline => splitOn_eq_singleton (habove line hline)
    rw [flatMap_congr hline, ← map_eq_flatMap, map_id']
  rw [splitLines_joinLines_eq_flatMap hne, flatMap_append, hself, getElem?_append_left hi]

/-- Validated edits that absorb nothing render the file, and keep every line above the first changed
one. -/
theorem applyHashlineEdits_eq_renderFile {text : Text} {edits : List Edit}
    {autoDropPureInsertDuplicates : Bool}
    (hvalid : validateHashlineAnchors edits (splitLines text) = .ok [])
    (habsorb : (absorbReplacementBoundaryDuplicates edits
      (splitLines text) autoDropPureInsertDuplicates).1 = edits) :
    ∃ result, applyHashlineEdits text edits autoDropPureInsertDuplicates = .ok result ∧
      result.lines = joinLines (renderFile edits (splitLines text)) ∧
      ∀ first, result.firstChangedLine = some first → ∀ i, i + 1 < first →
        (splitLines result.lines)[i]? = (splitLines text)[i]? := by
  have hanchors := validateAnchors_mem hvalid
  have hrender := applyNormalizedEdits_eq_renderFile hanchors
  by_cases hne : edits = []
  · refine ⟨⟨text, none, []⟩, if_pos hne, ?_, fun first hfirst => by cases hfirst⟩
    rw [← hrender, hne]
    exact (joinLines_splitLines text).symm
  obtain ⟨warnings, hpair⟩ : ∃ warnings, absorbReplacementBoundaryDuplicates edits
      (splitLines text) autoDropPureInsertDuplicates = (edits, warnings) :=
    ⟨_, Prod.ext habsorb rfl⟩
  refine ⟨⟨joinLines (renderFile edits (splitLines text)),
    firstChanged (applyNormalizedEdits (edits.map (normalizeCursor (splitLines text)))
      (splitLines text)).2, warnings⟩, ?_, rfl, ?_⟩
  · rw [applyHashlineEdits, if_neg hne, ← hrender]
    simp only [hvalid, bind, Except.bind, hpair, ne_eq, not_true_eq_false, if_false, pure,
      Except.pure]
  · intro first hfirst i hi
    obtain ⟨above, below, rest, hfile, hle, happlied⟩ :=
      applyNormalizedEdits_above (bucketLines_inFile hanchors) hfirst
    have habove : ∀ line ∈ above, '\n' ∉ line := by
      intro line hline
      apply newline_not_mem_of_mem_splitLines
      rw [hfile]
      exact mem_append_left _ hline
    have hlt : i < above.length := by omega
    rw [← hrender, happlied, splitLines_joinLines_above habove hlt, hfile, getElem?_append_left hlt]

/-- A line is deleted below an insertion, and a line goes to the end before the trailing newline. -/
theorem applyHashlineEdits_eq_renderFile_edits :
    ∃ result, applyHashlineEdits "a\nb\nc\n".toList
        [.insert (.afterAnchor ⟨1, "hs".toList⟩) ['x'] 1 0, .delete ⟨3, "ni".toList⟩ 3 1,
          .insert .eof ['y'] 4 2] false = .ok result ∧
      result.lines = "a\nx\nb\ny\n".toList ∧
      (splitLines result.lines)[0]? = (splitLines "a\nb\nc\n".toList)[0]? := by
  obtain ⟨result, hresult, hlines, habove⟩ := @applyHashlineEdits_eq_renderFile "a\nb\nc\n".toList
    [.insert (.afterAnchor ⟨1, "hs".toList⟩) ['x'] 1 0, .delete ⟨3, "ni".toList⟩ 3 1,
      .insert .eof ['y'] 4 2] false (by decide +kernel) (by decide +kernel)
  have hfirst : result.firstChangedLine = some 2 := by
    have hrun : applyHashlineEdits "a\nb\nc\n".toList
        [.insert (.afterAnchor ⟨1, "hs".toList⟩) ['x'] 1 0, .delete ⟨3, "ni".toList⟩ 3 1,
          .insert .eof ['y'] 4 2] false = .ok ⟨"a\nx\nb\ny\n".toList, some 2, []⟩ := by
      decide +kernel
    obtain rfl := Except.ok.inj (hrun.symm.trans hresult)
    rfl
  refine ⟨result, hresult, ?_, habove 2 hfirst 0 (by decide)⟩
  rw [hlines]
  decide +kernel

end Vibrato.Hashline
