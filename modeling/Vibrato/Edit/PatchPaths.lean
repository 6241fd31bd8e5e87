import Vibrato.Edit.PatchHunks

namespace Vibrato.Edit

open Vibrato.Lib List Text

theorem normalizeToLF_of_not_mem {text : Text} (h : '\r' ∉ text) : normalizeToLF text = text := by
  fun_induction normalizeToLF text with
  | case1 rest ih => simp at h
  | case2 rest hrest ih => simp at h
  | case3 c rest hcrlf hcr ih => rw [ih fun hmem => h (mem_cons_of_mem _ hmem)]
  | case4 => rfl

theorem lineOffset_append (above below : List Text) :
    lineOffset (above ++ below) = lineOffset above + lineOffset below := by
  rw [lineOffset, lineOffset, lineOffset, map_append, sum_append]

variable (lines : List Text)

theorem length_le_lineOffset : lines.length ≤ lineOffset lines := by
  induction lines with
  | nil => exact Nat.zero_le _
  | cons line lines ih =>
    have hcons : lineOffset (line :: lines) = line.length + 1 + lineOffset lines := rfl
    rw [length_cons]
    omega

theorem joinLines_concat_nil : joinLines (lines ++ [[]]) = lines.flatMap (· ++ ['\n']) := by
  rw [joinLines_append_left lines (cons_ne_nil [] [])]
  exact append_nil _

theorem length_joinLines {lines : List Text} (hne : lines ≠ []) :
    (joinLines lines).length + 1 = lineOffset lines := by
  rw [lineOffset_eq, ← joinLines_concat_nil, joinLines_concat hne, length_append]
  rfl

theorem occursAt_joinLines (above : List Text) {window : List Text} (hne : window ≠ [])
    (below : List Text) :
    OccursAt (joinLines window) (joinLines (above ++ (window ++ below))) (lineOffset above) := by
  rw [joinLines_append_left above (append_ne_nil_of_left_ne_nil hne below),
    joinLines_append_right hne, lineOffset_eq]
  exact occursAt_append _ _

theorem endsWithNewline_iff {content : Text} :
    endsWithNewline content = true ↔ ∃ text, content = text ++ ['\n'] := by
  rw [endsWithNewline, decide_eq_true_iff]
  constructor
  · intro h
    exact ⟨content.dropLast, (dropLast_append_getLast? '\n' h).symm⟩
  · rintro ⟨text, rfl⟩
    exact getLast?_concat

theorem endsWithNewline_concat (text : Text) : endsWithNewline (text ++ ['\n']) = true :=
  endsWithNewline_iff.2 ⟨text, rfl⟩

theorem splitLines_eq_originalLines (content : Text) :
    splitLines content = originalLines content ++ if endsWithNewline content then [[]] else [] := by
  unfold originalLines
  cases hend : endsWithNewline content with
  | true =>
    obtain ⟨text, rfl⟩ := endsWithNewline_iff.1 hend
    rw [splitLines_append_newline]
    simp
  | false => simp

theorem joinContentLines_eq (hadFinalNewline : Bool) :
    joinContentLines lines hadFinalNewline =
      joinLines (lines ++ if hadFinalNewline then [[]] else []) := by
  cases hadFinalNewline <;> simp [joinContentLines]

theorem joinContentLines_originalLines (content : Text) :
    joinContentLines (originalLines content) (endsWithNewline content) = content := by
  rw [joinContentLines_eq, ← splitLines_eq_originalLines, joinLines_splitLines]

def OccursOnce (target content : Text) : Prop :=
  ∃! i, i ≤ content.length ∧ OccursAt target content i

section Places

variable {content : Text} {above oldLines below : List Text}

theorem joinContentLines_window (above lines below : List Text) (hadFinalNewline : Bool) :
    joinContentLines (above ++ (lines ++ below)) hadFinalNewline =
      joinLines (above ++ (lines ++ (below ++ if hadFinalNewline then [[]] else []))) := by
  rw [joinContentLines_eq, append_assoc, append_assoc]

variable (hlines : originalLines content = above ++ (oldLines ++ below))
include hlines

theorem content_eq :
    content = joinLines
      (above ++ (oldLines ++ (below ++ if endsWithNewline content then [[]] else []))) := by
  rw [← joinContentLines_window, ← hlines, joinContentLines_originalLines]

theorem occursAt_lineOffset (hne : oldLines ≠ []) :
    lineOffset above ≤ content.length ∧
      OccursAt (joinLines oldLines) content (lineOffset above) := by
  have hcontent := content_eq hlines
  constructor
  · have hrest : oldLines ++ (below ++ if endsWithNewline content then [[]] else []) ≠ [] :=
      append_ne_nil_of_left_ne_nil hne _
    have hlength := length_joinLines (append_ne_nil_of_right_ne_nil above hrest)
    rw [← hcontent, lineOffset_append] at hlength
    have hpos :=
      length_le_lineOffset (oldLines ++ (below ++ if endsWithNewline content then [[]] else []))
    have hrestPos := length_pos_of_ne_nil hrest
    omega
  · have hoccurs :=
      occursAt_joinLines above hne (below ++ if endsWithNewline content then [[]] else [])
    rw [← hcontent] at hoccurs
    exact hoccurs

omit hlines

variable (honce : OccursOnce (joinLines oldLines) content)
include honce

theorem OccursOnce.not_occursAt
    (hlines : originalLines content = above ++ (oldLines ++ below)) (hne : oldLines ≠ []) {j : Nat}
    (hj : j < above.length) : ¬OccursAt oldLines (originalLines content) j := by
  intro hoccurs
  have hplace := occursAt_lineOffset hoccurs.eq_append hne
  have heq := honce.unique hplace (occursAt_lineOffset hlines hne)
  have htake : (originalLines content).take j = above.take j := by
    rw [hlines, take_append_of_le_length (Nat.le_of_lt hj)]
  have habove : lineOffset above = lineOffset (above.take j) + lineOffset (above.drop j) := by
    rw [← lineOffset_append, take_append_drop]
  have hpos := length_le_lineOffset (above.drop j)
  rw [length_drop] at hpos
  rw [htake] at heq
  omega

theorem OccursOnce.indexOf (hlines : originalLines content = above ++ (oldLines ++ below))
    (hne : oldLines ≠ []) :
    Lib.indexOf (joinLines oldLines) content = some (lineOffset above) := by
  obtain ⟨hle, hoccurs⟩ := occursAt_lineOffset hlines hne
  rw [indexOf_eq_some_iff]
  refine ⟨hoccurs, fun j hj hoccurs' => ?_⟩
  have heq := honce.unique ⟨by omega, hoccurs'⟩ ⟨hle, hoccurs⟩
  omega

theorem OccursOnce.length_splitBy
    (hnil : joinLines oldLines ≠ []) : (splitBy (joinLines oldLines) content).length ≤ 2 := by
  by_contra hmore
  obtain ⟨i, j, hi, hj, hij⟩ := (two_lt_length_splitBy hnil content).1 (by omega)
  have hpos := length_pos_of_ne_nil hnil
  have hileft := hi.add_le hnil
  have hjleft := hj.add_le hnil
  have heq := honce.unique ⟨by omega, hi⟩ ⟨by omega, hj⟩
  omega

end Places

/-- A hunk of removed and added lines, without context lines, context, line numbers or end of
file. -/
structure IsSimple (hunk : DiffHunk) : Prop where
  changeContext : hunk.changeContext = none
  hasContextLines : hunk.hasContextLines = false
  oldStartLine : hunk.oldStartLine = none
  newStartLine : hunk.newStartLine = none
  isEndOfFile : hunk.isEndOfFile = false
  oldLines : hunk.oldLines ≠ []

theorem IsSimple.isSimpleHunk {hunk : DiffHunk} (h : IsSimple hunk) : isSimpleHunk hunk = true := by
  simp [Edit.isSimpleHunk, h.changeContext, h.hasContextLines, h.oldStartLine, h.isEndOfFile,
    h.oldLines]

def textLines (lines : List Text) : List Text := if lines = [] then [[]] else lines

theorem textLines_ne_nil (lines : List Text) : textLines lines ≠ [] := by
  unfold textLines
  split
  · exact cons_ne_nil _ _
  · next hne => exact hne

theorem joinLines_textLines (lines : List Text) :
    joinLines (textLines lines) = joinLines lines := by
  unfold textLines
  split
  · next hnil => rw [hnil]; rfl
  · rfl

section Ways

variable {R : Type} [Score R] {content : Text} {above below : List Text} {hunk : DiffHunk}

variable (native : NativeBestFuzzyMatch R)

theorem applyCharacterMatch_of_once (hlf : '\r' ∉ content)
    (hlines : originalLines content = above ++ (hunk.oldLines ++ below)) (hne : hunk.oldLines ≠ [])
    (honce : OccursOnce (joinLines hunk.oldLines) content)
    (hnil : joinLines hunk.oldLines ≠ []) (fuzzyThreshold : R) (allowFuzzy : Bool) :
    applyCharacterMatch native content hunk fuzzyThreshold allowFuzzy =
      .ok (joinContentLines (above ++ (textLines hunk.newLines ++ below)) (endsWithNewline content),
        []) := by
  have hold : normalizeToLF (joinLines hunk.oldLines) = joinLines hunk.oldLines := by
    refine normalizeToLF_of_not_mem fun hmem => hlf ?_
    rw [(occursAt_lineOffset hlines hne).2.eq_append]
    exact mem_append_right _ (mem_append_left _ hmem)
  have hfind :
      ∀ threshold : R, findMatch native content (joinLines hunk.oldLines) allowFuzzy threshold =
      { found := some ⟨joinLines hunk.oldLines, lineOffset above,
        lineNumberAt content (lineOffset above), ((1 : Nat) : R)⟩ } := fun threshold =>
    findMatch_of_occurs hnil (honce.indexOf hlines hne) (honce.length_splitBy hnil)
  have hadjust : adjustIndentation (joinLines hunk.oldLines) (joinLines hunk.oldLines)
      (joinLines hunk.newLines) = joinLines hunk.newLines := if_pos rfl
  have hreplace : replaceMatch content (⟨joinLines hunk.oldLines, lineOffset above,
      lineNumberAt content (lineOffset above), ((1 : Nat) : R)⟩ : FuzzyMatch R)
        (joinLines hunk.newLines) =
      joinContentLines (above ++ (textLines hunk.newLines ++ below)) (endsWithNewline content) := by
    rw [joinContentLines_window, joinLines_append_left above
      (append_ne_nil_of_left_ne_nil (textLines_ne_nil _) _),
      joinLines_append_right (textLines_ne_nil _), joinLines_textLines, ← append_assoc]
    nth_rewrite 1 [content_eq hlines]
    exact replaceMatch_window hne rfl (lineOffset_eq above) (joinLines hunk.newLines)
  unfold applyCharacterMatch
  simp [normalizeToLF_of_not_mem hlf, hold, hfind, hadjust, hreplace]

theorem applyCharacterMatch_of_nil (hnil : joinLines hunk.oldLines = []) (fuzzyThreshold : R)
    (allowFuzzy : Bool) :
    applyCharacterMatch native content hunk fuzzyThreshold allowFuzzy =
      .error (.noMatch [] none) := by
  have hfind :
      ∀ (text : Text) (threshold : R), findMatch native text [] allowFuzzy threshold = {} :=
    fun text threshold => if_pos rfl
  unfold applyCharacterMatch
  simp [hnil, normalizeToLF, hfind]

theorem applyLineHunks_of_once (runtime : MatchRuntime R)
    (hlines : originalLines content = above ++ (hunk.oldLines ++ below)) (hsimple : IsSimple hunk)
    (honce : OccursOnce (joinLines hunk.oldLines) content) (allowFuzzy : Bool) :
    applyLineHunks runtime content [hunk] allowFuzzy =
      match (seekSequence runtime (originalLines content) hunk.oldLines (above.length + 1) false
        allowFuzzy).index with
      | some second => .error (.secondOccurrence above.length second)
      | none => .ok (applyTrailingNewlinePolicy
          (joinContentLines (above ++ (hunk.newLines ++ below)) (endsWithNewline content))
          (endsWithNewline content), []) := by
  have hk : OccursAt hunk.oldLines (originalLines content) above.length := by
    rw [hlines]
    exact occursAt_append above below
  have hseek :
      seekSequence runtime (originalLines content) hunk.oldLines 0 hunk.isEndOfFile allowFuzzy =
      exactResult R above.length := by
    rw [hsimple.isEndOfFile]
    exact seekSequence_of_occursAt runtime hsimple.oldLines hk (Nat.zero_le _)
      (fun j _ hj => honce.not_occursAt hlines hsimple.oldLines hj) allowFuzzy
  have hfind : findSequenceWithHint runtime (originalLines content) hunk.oldLines 0
      (getHunkHintIndex hunk 0)
      hunk.isEndOfFile allowFuzzy = exactResult R above.length := by
    rw [findSequenceWithHint_of_unique (by rw [hseek]; exact isUnique_exactResult _), hseek]
  have hplace : placeHunk runtime (originalLines content) allowFuzzy ⟨[], [], 0⟩ hunk =
      (checkSecondMatch runtime (originalLines content) allowFuzzy hunk hunk.oldLines
        above.length).map
        fun _ => ⟨if hunk.oldLines = hunk.newLines then []
          else [⟨above.length, hunk.oldLines.length, hunk.newLines⟩], [],
            above.length + hunk.oldLines.length⟩ := by
    have hreplace : replaceHunk runtime (originalLines content) allowFuzzy hunk ⟨[], [], 0⟩ 0
        ⟨hunk.oldLines, hunk.newLines, exactResult R above.length⟩ = _ :=
      replaceHunk_of_occursAt hk rfl rfl (fun h => by cases h) _ _
    unfold placeHunk
    rw [if_neg (by simp [hsimple.oldStartLine, hsimple.newStartLine])]
    simp [hintedLineIndex, hsimple.oldStartLine, locateContext, hsimple.changeContext,
      hsimple.oldLines,
      searchHunk_of_unique hfind (isUnique_exactResult _), preferContext, Bind.bind, Except.bind,
        hreplace]
  have hcheck :
      checkSecondMatch runtime (originalLines content) allowFuzzy hunk hunk.oldLines above.length =
      match (seekSequence runtime (originalLines content) hunk.oldLines (above.length + 1) false
        allowFuzzy).index with
      | some second => .error (.secondOccurrence above.length second)
      | none => .ok () :=
    if_pos ⟨hsimple.changeContext, hsimple.hasContextLines, hsimple.isEndOfFile,
      hsimple.oldStartLine⟩
  have happly : applyReplacements (originalLines content)
      (if hunk.oldLines = hunk.newLines then []
        else [⟨above.length, hunk.oldLines.length, hunk.newLines⟩]) =
      above ++ (hunk.newLines ++ below) := by
    rw [hlines]
    split
    · next hsame => rw [hsame]; rfl
    · simp [applyReplacements, ← drop_drop]
  unfold applyLineHunks computeReplacements
  rw [hcheck] at hplace
  cases hsecond :
    (seekSequence runtime (originalLines content) hunk.oldLines (above.length + 1) false
      allowFuzzy).index with
  | some second =>
    rw [hsecond] at hplace
    simp [hplace, Bind.bind, Except.bind, Except.map]
  | none =>
    rw [hsecond] at hplace
    rw [← happly]
    by_cases hsame : hunk.oldLines = hunk.newLines
    · simp [hplace, if_pos hsame, findOverlap, Bind.bind, Except.bind, Except.map, pure,
        Except.pure]
    · simp [hplace, if_neg hsame, findOverlap, Bind.bind, Except.bind, Except.map, pure,
        Except.pure]

end Ways

theorem joinContentLines_true (lines : List Text) :
    joinContentLines lines true = lines.flatMap (· ++ ['\n']) := joinLines_concat_nil lines

theorem endsWithNewline_flatMap {lines : List Text} (hne : lines ≠ []) :
    endsWithNewline (lines.flatMap (· ++ ['\n'])) = true := by
  rw [← joinLines_concat_nil, joinLines_concat hne]
  exact endsWithNewline_concat _

theorem applyTrailingNewlinePolicy_of_last (above : List Text) {last : Text} (hlast : last ≠ [])
    (hnewline : '\n' ∉ last) :
    applyTrailingNewlinePolicy (joinLines (above ++ [last])) false =
      joinLines (above ++ [last]) := by
  have hjoin : joinLines (above ++ [last]) = above.flatMap (· ++ ['\n']) ++ last := by
    rw [joinLines_append_left above (cons_ne_nil last [])]
    simp [joinLines]
  obtain ⟨init, c, hc⟩ : ∃ init c, last = init ++ [c] :=
    ⟨_, _, (dropLast_concat_getLast hlast).symm⟩
  have hne : ¬c = '\n' := by
    rintro rfl
    exact hnewline (by rw [hc]; simp)
  rw [hjoin, hc, ← append_assoc]
  exact rdropWhile_concat_neg _ _ _ (by simpa using hne)

/-- The removed lines are the last ones, and the only ones of a content with a final newline. -/
def DeletesToEnd (content : Text) (above below : List Text) : Prop :=
  below = [] ∧ (endsWithNewline content = true → above = [])

section Deletions

variable {content : Text} {above oldLines below : List Text}

variable (hlines : originalLines content = above ++ (oldLines ++ below))
include hlines

theorem last_ne_nil (hne : oldLines ≠ []) (hend : endsWithNewline content = false)
    {init : List Text} {last : Text}
    (hbelow : below = init ++ [last]) : last ≠ [] ∧ '\n' ∉ last := by
  have hsplit := splitLines_eq_originalLines content
  rw [hlines, hbelow] at hsplit
  constructor
  · rintro rfl
    have hcontent := joinContentLines_originalLines content
    rw [hend, hlines, hbelow, ← append_assoc, ← append_assoc, joinContentLines_eq,
      if_neg Bool.false_ne_true, append_nil, joinLines_concat_nil] at hcontent
    have habove : above ++ oldLines ++ init ≠ [] := by simp [hne]
    have hnewline := endsWithNewline_flatMap habove
    rw [hcontent, hend] at hnewline
    cases hnewline
  · have hmem : last ∈ splitLines content := by
      rw [hsplit]
      simp
    exact newline_not_mem_of_mem_splitLines hmem

theorem applyTrailingNewlinePolicy_textLines_iff (hne : oldLines ≠ []) (newLines : List Text) :
    applyTrailingNewlinePolicy (joinContentLines (above ++ (textLines newLines ++ below))
        (endsWithNewline content)) (endsWithNewline content) =
      applyTrailingNewlinePolicy (joinContentLines (above ++ (newLines ++ below))
        (endsWithNewline content)) (endsWithNewline content) ↔
    newLines ≠ [] ∨ DeletesToEnd content above below := by
  by_cases hnew : newLines = []
  · subst hnew
    rw [or_iff_right (fun h => h rfl)]
    have htext : textLines [] = [[]] := if_pos rfl
    rw [htext, nil_append, DeletesToEnd]
    cases hend : endsWithNewline content with
    | true =>
      rw [joinContentLines_true, joinContentLines_true]
      by_cases hrest : above ++ below = []
      · obtain ⟨rfl, rfl⟩ := append_eq_nil_iff.1 hrest
        exact iff_of_true rfl ⟨rfl, fun _ => rfl⟩
      · -- Both texts end with a newline, and one of them is a newline longer.
        have hkeep : ∀ lines : List Text, lines ≠ [] → applyTrailingNewlinePolicy
            (lines.flatMap (· ++ ['\n'])) true = lines.flatMap (· ++ ['\n']) := by
          intro lines hlines'
          unfold applyTrailingNewlinePolicy
          rw [if_pos rfl, if_pos (endsWithNewline_flatMap hlines')]
        rw [hkeep _ (by simp), hkeep _ hrest]
        refine iff_of_false (fun heq => ?_) fun hdeletes => hrest ?_
        · have hlength := congrArg List.length heq
          rw [← lineOffset_eq, ← lineOffset_eq, lineOffset_append, lineOffset_append,
            lineOffset_append] at hlength
          have hone : lineOffset [[]] = 1 := rfl
          omega
        · rw [hdeletes.1, hdeletes.2 rfl]
          rfl
    | false =>
      rw [joinContentLines_eq, joinContentLines_eq, if_neg Bool.false_ne_true, append_nil,
        append_nil]
      rcases eq_nil_or_concat below with rfl | ⟨init, last, hbelow⟩
      · refine iff_of_true ?_ ⟨rfl, fun h => by cases h⟩
        rw [append_nil, append_nil]
        by_cases habove : above = []
        · rw [habove]
          rfl
        · rw [joinLines_concat habove]
          exact rdropWhile_concat_pos _ _ _ (by decide)
      · rw [concat_eq_append] at hbelow
        obtain ⟨hlast, hnewline⟩ := last_ne_nil hlines hne hend hbelow
        refine iff_of_false (fun heq => ?_) fun hdeletes => ?_
        · rw [hbelow, ← append_assoc, ← append_assoc, ← append_assoc,
            applyTrailingNewlinePolicy_of_last _ hlast hnewline,
            applyTrailingNewlinePolicy_of_last _ hlast hnewline] at heq
          have hlength := congrArg (fun text : Text => text.length + 1) heq
          rw [length_joinLines (by simp), length_joinLines (by simp)] at hlength
          simp only [lineOffset_append] at hlength
          have hone : lineOffset [[]] = 1 := rfl
          omega
        · rw [hdeletes.1] at hbelow
          exact absurd hbelow (by simp)
  · refine iff_of_true ?_ (.inl hnew)
    rw [textLines, if_neg hnew]

end Deletions

section Paths

variable {R : Type} [Score R] {content : Text} {above below : List Text} {hunk : DiffHunk}

def replaceContentLines (content : Text) (above newLines below : List Text) : Text :=
  applyTrailingNewlinePolicy (joinContentLines (above ++ (newLines ++ below))
    (endsWithNewline content))
    (endsWithNewline content)

/-- A hunk whose removed lines occur once replaces exactly these lines, on the characters and on the
lines alike, if its removed lines are not one empty line, no other lines of the file are taken for
them, and there are added lines or the deletion is at the end. -/
theorem applyHunksToContent_eq_lines_iff (runtime : MatchRuntime R) (hlf : '\r' ∉ content)
    (hsimple : IsSimple hunk) (hlines : originalLines content = above ++ (hunk.oldLines ++ below))
    (honce : OccursOnce (joinLines hunk.oldLines) content) (fuzzyThreshold : R)
    (allowFuzzy : Bool) :
    (applyHunksToContent runtime content [hunk] fuzzyThreshold allowFuzzy =
        .ok (replaceContentLines content above hunk.newLines below, []) ∧
      applyLineHunks runtime content [hunk] allowFuzzy =
        .ok (replaceContentLines content above hunk.newLines below, [])) ↔
    joinLines hunk.oldLines ≠ [] ∧
      (seekSequence runtime (originalLines content) hunk.oldLines
        (above.length + 1) false allowFuzzy).index = none ∧
      (hunk.newLines ≠ [] ∨ DeletesToEnd content above below) := by
  have hchar : applyHunksToContent runtime content [hunk] fuzzyThreshold allowFuzzy =
      (applyCharacterMatch runtime.findBestFuzzyMatchNative content hunk fuzzyThreshold
        allowFuzzy).map
        fun result => (applyTrailingNewlinePolicy result.1 (endsWithNewline content),
          result.2) := by
    unfold applyHunksToContent
    dsimp only
    rw [if_pos hsimple.isSimpleHunk]
    cases applyCharacterMatch runtime.findBestFuzzyMatchNative content hunk fuzzyThreshold
      allowFuzzy <;> rfl
  have hdelete := applyTrailingNewlinePolicy_textLines_iff hlines hsimple.oldLines hunk.newLines
  rw [hchar, applyLineHunks_of_once runtime hlines hsimple honce]
  by_cases hnil : joinLines hunk.oldLines = []
  · rw [applyCharacterMatch_of_nil _ hnil]
    refine iff_of_false (fun h => ?_) fun h => h.1 hnil
    cases h.1
  · rw [applyCharacterMatch_of_once _ hlf hlines hsimple.oldLines honce hnil, ← hdelete]
    cases (seekSequence runtime (originalLines content) hunk.oldLines
      (above.length + 1) false allowFuzzy).index with
    | some second =>
      refine iff_of_false (fun h => ?_) fun h => ?_
      · cases h.2
      · cases h.2.1
    | none =>
      constructor
      · intro h
        have heq := Except.ok.inj h.1
        exact ⟨hnil, rfl, congrArg Prod.fst heq⟩
      · rintro ⟨-, -, heq⟩
        refine ⟨?_, rfl⟩
        show Except.ok (_, []) = _
        rw [heq]
        rfl

end Paths

def plainHunk (oldLines newLines : List Text) : DiffHunk :=
  ⟨none, none, none, false, oldLines, newLines, false⟩

theorem isSimple_plainHunk {oldLines : List Text} (hne : oldLines ≠ []) (newLines : List Text) :
    IsSimple (plainHunk oldLines newLines) := ⟨rfl, rfl, rfl, rfl, rfl, hne⟩

def threeLines : Text := "a\nb\nc\n".toList

theorem occursOnce_threeLines : OccursOnce (joinLines ["b".toList]) threeLines := by
  have hall : ∀ i ≤ threeLines.length, joinLines ["b".toList] <+: threeLines.drop i → i = 2 := by
    decide +kernel
  exact ⟨2, ⟨by decide +kernel, by unfold OccursAt; decide +kernel⟩, fun i hi => hall i hi.1 hi.2⟩

theorem applyHunksToContent_replaces_line :
    (applyHunksToContent nativeRuntime threeLines [plainHunk ["b".toList] ["x".toList]]
      (percent 95) true =
        .ok (replaceContentLines threeLines ["a".toList] ["x".toList] ["c".toList], []) ∧
      applyLineHunks nativeRuntime threeLines [plainHunk ["b".toList] ["x".toList]] true =
        .ok (replaceContentLines threeLines ["a".toList] ["x".toList] ["c".toList], [])) ↔
    joinLines ["b".toList] ≠ [] ∧
      (seekSequence nativeRuntime (originalLines threeLines) ["b".toList] 2 false true).index =
        none ∧
      (["x".toList] ≠ [] ∨ DeletesToEnd threeLines ["a".toList] ["c".toList]) :=
  applyHunksToContent_eq_lines_iff nativeRuntime (by decide +kernel)
    (isSimple_plainHunk (cons_ne_nil _ _) _) (by decide +kernel) occursOnce_threeLines
      (percent 95) true

/-- A line that is removed leaves an empty line. -/
theorem applyHunksToContent_deletes_line :
    IsSimple (plainHunk ["b".toList] []) ∧ OccursOnce (joinLines ["b".toList]) threeLines ∧
      originalLines threeLines = ["a".toList] ++ (["b".toList] ++ ["c".toList]) ∧
      ¬(applyHunksToContent nativeRuntime threeLines [plainHunk ["b".toList] []] (percent 95) true =
          .ok (replaceContentLines threeLines ["a".toList] [] ["c".toList], []) ∧
        applyLineHunks nativeRuntime threeLines [plainHunk ["b".toList] []] true =
          .ok (replaceContentLines threeLines ["a".toList] [] ["c".toList], [])) := by
  refine ⟨isSimple_plainHunk (cons_ne_nil _ _) _,
    occursOnce_threeLines, by decide +kernel, fun h => ?_⟩
  have hchar :
      (applyHunksToContent nativeRuntime threeLines [plainHunk ["b".toList] []] (percent 95)
      true).toOption.map Prod.fst = some "a\n\nc\n".toList := by decide +kernel
  have hspec : replaceContentLines threeLines ["a".toList] [] ["c".toList] = "a\nc\n".toList := by
    decide +kernel
  rw [h.1] at hchar
  exact absurd (Option.some.inj hchar) (by decide +kernel)

end Vibrato.Edit
