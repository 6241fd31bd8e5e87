import Vibrato.Edit.Diff

namespace Vibrato.Edit

open List Text HunkBody

inductive BodyLine where
  | context (text : Text)
  | removed (text : Text)
  | added (text : Text)
  deriving DecidableEq

open BodyLine

namespace BodyLine

def text : BodyLine → Text
  | context text | removed text | added text => text

def render : BodyLine → Text
  | context text => ' ' :: text
  | removed text => '-' :: text
  | added text => '+' :: text

def isContext : BodyLine → Bool
  | context _ => true
  | _ => false

def old? : BodyLine → Option Text
  | context text | removed text => some text
  | added _ => none

def new? : BodyLine → Option Text
  | context text | added text => some text
  | removed _ => none

/-- A removed line that reads `--- x`, or an added line that reads `+++ x`. -/
def isFileHeader : BodyLine → Bool
  | context _ => false
  | removed text => startsWith text "-- ".toList && !isBlank (text.drop 3)
  | added text => startsWith text "++ ".toList && !isBlank (text.drop 3)

def isWrapper : BodyLine → Bool
  | context text => isPatchWrapperLine (trim text)
  | _ => false

def isEllipsis : BodyLine → Bool
  | context text => trim text ∈ ["...".toList, "…".toList]
  | _ => false

end BodyLine

variable (body : List BodyLine)

def oldTexts : List Text := body.filterMap old?

def newTexts : List Text := body.filterMap new?

def renderHunk : Text :=
  joinLines (EMPTY_CHANGE_CONTEXT_MARKER :: body.map render)

/-- None of the lenient passes takes a line of the body for decoration. -/
structure Unambiguous (body : List BodyLine) : Prop where
  not_header : ∀ line ∈ body, line.isFileHeader = false
  not_wrapper : ∀ line, body.getLast? = some line → line.isWrapper = false
  not_ellipsis : ∀ line ∈ body, line.isEllipsis = false
  not_numbered : hasLineNumbers (oldTexts body) (newTexts body) = false

namespace BodyLine

variable (line : BodyLine)

theorem isBlank_render : isBlank line.render = (line.isContext && isBlank line.text) := by
  cases line with
  | context text =>
      simp [render, isBlank, isContext, BodyLine.text, show isSpace ' ' = true from rfl]
  | removed text => simp [render, isBlank, isContext, show isSpace '-' = false from rfl]
  | added text => simp [render, isBlank, isContext, show isSpace '+' = false from rfl]

theorem trim_render_context (text : Text) : trim (context text).render = trim text :=
  trim_cons_of_isSpace rfl text

theorem trim_render_removed (text : Text) : trim (removed text).render = '-' :: trimEnd text :=
  trim_cons_of_not_isSpace rfl text

theorem trim_render_added (text : Text) : trim (added text).render = '+' :: trimEnd text :=
  trim_cons_of_not_isSpace rfl text

theorem isTrailingBlank_render : isTrailingBlank line.render = false := by
  cases line <;>
    simp [isTrailingBlank, render, isDiffContentLine, isBlank,
      show isSpace '-' = false from rfl, show isSpace '+' = false from rfl]

theorem isPatchWrapperLine_render : isPatchWrapperLine (trim line.render) = line.isWrapper := by
  cases line with
  | context text => rw [trim_render_context, isWrapper]
  | removed text =>
    rw [trim_render_removed]
    simp [isPatchWrapperLine, matchesTrimmedPrefix, PATCH_WRAPPER_PREFIXES, isWrapper]
  | added text =>
    rw [trim_render_added]
    simp [isPatchWrapperLine, matchesTrimmedPrefix, PATCH_WRAPPER_PREFIXES, isWrapper]

theorem isEllipsisLine_render : isEllipsisLine line.render = line.isEllipsis := by
  cases line with
  | context text => rw [isEllipsisLine, trim_render_context, isEllipsis]
  | removed text => rw [isEllipsisLine, trim_render_removed]; simp [isEllipsis]
  | added text => rw [isEllipsisLine, trim_render_added]; simp [isEllipsis]

theorem isEofLine_render : isEofLine line.render = false := by
  have hstart : startsWith line.render EOF_MARKER = false := by
    cases line <;> rfl
  simp only [isEofLine, hstart, Bool.and_false]

end BodyLine

theorem startsWith_trimEnd_marker (c : Char) (hc : isSpace c = false) (rest : Text) :
    startsWith (trimEnd (c :: c :: ' ' :: rest)) [c, c, ' '] = !isBlank rest := by
  rw [trimEnd_cons_of_not_isSpace hc, trimEnd_cons_of_not_isSpace hc]
  cases hrest : isBlank rest with
  | false =>
    rw [trimEnd_cons_of_not_isBlank ' ' hrest]
    simp
  | true =>
    rw [trimEnd_of_isBlank (by
      simpa [isBlank, show isSpace ' ' = true from rfl] using hrest)]
    simp

theorem startsWith_trimEnd_marker_iff (c : Char) (hc : isSpace c = false) (text : Text) :
    (startsWith text [c, c, ' '] && startsWith (trimEnd text) [c, c, ' ']) =
      (startsWith text [c, c, ' '] && !isBlank (text.drop 3)) := by
  cases htext : startsWith text [c, c, ' '] with
  | false => rfl
  | true =>
    obtain ⟨rest, rfl⟩ := isPrefixOf_iff_prefix.1 htext
    have h := startsWith_trimEnd_marker c hc rest
    simpa using h

theorem BodyLine.isMetadataLine_render (line : BodyLine) :
    isMetadataLine line.render = line.isFileHeader := by
  cases line with
  | context text => simp [isMetadataLine, render, isDiffContentLine, isFileHeader]
  | removed text =>
    have h := startsWith_trimEnd_marker_iff '-' rfl text
    rw [isMetadataLine, trim_render_removed]
    simpa [render, isDiffContentLine, isFileHeader, matchesTrimmedPrefix,
      DIFF_METADATA_PREFIXES] using h
  | added text =>
    have h := startsWith_trimEnd_marker_iff '+' rfl text
    rw [isMetadataLine, trim_render_added]
    simpa [render, isDiffContentLine, isFileHeader, matchesTrimmedPrefix,
      DIFF_METADATA_PREFIXES] using h

def survivors (body : List BodyLine) : List BodyLine :=
  (if body.getLast?.any isWrapper then body.dropLast else body).filter
    (!isFileHeader ·)

theorem survivors_sublist (body : List BodyLine) : (survivors body).Sublist body := by
  refine filter_sublist.trans ?_
  split
  · exact dropLast_sublist body
  · exact List.Sublist.refl body

theorem newline_not_mem_render {line : BodyLine} (hline : '\n' ∉ line.text) :
    '\n' ∉ line.render := by
  cases line <;> simpa [render, text] using hline

variable {body : List BodyLine} {line : Text}

theorem splitLines_render (hbody : ∀ line ∈ body, '\n' ∉ line.text) :
    splitLines
        (joinLines (EMPTY_CHANGE_CONTEXT_MARKER :: body.map render)) =
      EMPTY_CHANGE_CONTEXT_MARKER :: body.map render := by
  refine splitLines_joinLines (by simp) ?_
  intro line hline
  rcases mem_cons.1 hline with rfl | hmem
  · decide
  · obtain ⟨source, hsource, rfl⟩ := mem_map.1 hmem
    exact newline_not_mem_render (hbody source hsource)

theorem dropLastWrapper_render (hne : body ≠ []) :
    dropLastWrapper (EMPTY_CHANGE_CONTEXT_MARKER :: body.map render) =
      EMPTY_CHANGE_CONTEXT_MARKER ::
        (if body.getLast?.any isWrapper then body.dropLast else body).map
          render := by
  obtain ⟨init, last, rfl⟩ := (eq_nil_or_concat body).resolve_left hne
  simp only [concat_eq_append, map_append, map_cons, map_nil]
  rw [dropLastWrapper, ← cons_append]
  simp only [Option.any_some, isPatchWrapperLine_render, getLast?_concat, dropLast_concat]
  split <;> simp

theorem normalizeDiffLines_render (hne : body ≠ []) :
    normalizeDiffLines (EMPTY_CHANGE_CONTEXT_MARKER :: body.map render) =
      EMPTY_CHANGE_CONTEXT_MARKER :: (survivors body).map render := by
  have htrail : (EMPTY_CHANGE_CONTEXT_MARKER :: body.map render).rdropWhile
      isTrailingBlank = EMPTY_CHANGE_CONTEXT_MARKER :: body.map render := by
    rw [rdropWhile_eq_self_iff]
    intro hl
    obtain ⟨init, last, rfl⟩ := (eq_nil_or_concat body).resolve_left hne
    simp [getLast_cons, isTrailingBlank_render]
  have hfirst (rest : List Text) :
      dropFirstWrapper (EMPTY_CHANGE_CONTEXT_MARKER :: rest) =
        EMPTY_CHANGE_CONTEXT_MARKER :: rest := by
    rw [dropFirstWrapper, if_neg (by decide)]
  rw [normalizeDiffLines, htrail, hfirst, dropLastWrapper_render hne, filter_cons,
    if_pos (by decide), filter_map]
  simp only [survivors, Function.comp_def, isMetadataLine_render]

theorem countMultiFileMarkers_render
    (hbody : ∀ line ∈ body, '\n' ∉ line.text) : countMultiFileMarkers (renderHunk body) = 0 := by
  have hmarked : ∀ line ∈ ((EMPTY_CHANGE_CONTEXT_MARKER :: body.map render).filter
      (!isDiffContentLine ·)).map trim, MULTI_FILE_MARKERS.find? (startsWith line) = none := by
    intro line hline
    obtain ⟨raw, hraw, rfl⟩ := mem_map.1 hline
    obtain ⟨hmem, hcontent⟩ := mem_filter.1 hraw
    rcases mem_cons.1 hmem with rfl | hmem
    · decide
    · obtain ⟨source, -, rfl⟩ := mem_map.1 hmem
      cases source with
      | context text => simp [render, isDiffContentLine] at hcontent
      | removed text =>
        rw [trim_render_removed]
        simp [MULTI_FILE_MARKERS]
      | added text =>
        rw [trim_render_added]
        simp [MULTI_FILE_MARKERS]
  have hnone : (((EMPTY_CHANGE_CONTEXT_MARKER :: body.map render).filter
      (!isDiffContentLine ·)).map trim).filterMap (fun line =>
        (MULTI_FILE_MARKERS.find? (startsWith line)).map fun marker => (marker, line)) =
      [] := by
    rw [filterMap_eq_nil_iff]
    intro line hline
    rw [hmarked line hline, Option.map_none]
  rw [countMultiFileMarkers, renderHunk, splitLines_render hbody, hnone]
  simp [MULTI_FILE_MARKERS]

variable (acc : HunkBody)

def pushLine (line : BodyLine) : HunkBody :=
  if line.isEllipsis then { acc with hasContextLines := true, parsedLines := acc.parsedLines + 1 }
  else
    match line with
    | .context text => acc.pushContext text
    | .removed text => acc.pushRemoved text
    | .added text => acc.pushAdded text

theorem parseHunkBody_render (lineNumber : Nat) (body : List BodyLine) (acc : HunkBody) :
    parseHunkBody lineNumber (body.map render) acc = .ok (body.foldl pushLine acc) := by
  induction body generalizing acc with
  | nil => rfl
  | cons line body ih =>
    have hsep (rest : List Text) : isHunkSeparator line.render rest = false := by
      cases line <;> simp [isHunkSeparator, render]
    rw [map_cons, parseHunkBody.eq_def, foldl_cons]
    simp only [hsep, line.isEofLine_render, line.isEllipsisLine_render, Bool.false_eq_true,
      and_false, if_false, pushLine]
    split
    · rw [ih]
    · cases line <;> simp only [render, ih]

theorem pushLine_parsedLines (line : BodyLine) :
    (pushLine acc line).parsedLines = acc.parsedLines + 1 := by
  unfold pushLine
  split
  · rfl
  · cases line <;> rfl

theorem pushLine_oldLines (line : BodyLine) :
    (pushLine acc line).oldLines = acc.oldLines ++ if line.isEllipsis then []
      else line.old?.toList := by
  unfold pushLine
  split
  · simp
  · cases line <;> simp [pushContext, pushRemoved, pushAdded, old?]

theorem pushLine_newLines (line : BodyLine) :
    (pushLine acc line).newLines = acc.newLines ++ if line.isEllipsis then []
      else line.new?.toList := by
  unfold pushLine
  split
  · simp
  · cases line <;> simp [pushContext, pushRemoved, pushAdded, new?]

variable (body)

def stored : List BodyLine := body.filter (!isEllipsis ·)

theorem foldl_pushLine (acc : HunkBody) :
    (body.foldl pushLine acc).parsedLines = acc.parsedLines + body.length ∧
      (body.foldl pushLine acc).oldLines = acc.oldLines ++ oldTexts (stored body) ∧
      (body.foldl pushLine acc).newLines = acc.newLines ++ newTexts (stored body) := by
  induction body generalizing acc with
  | nil => simp [stored, oldTexts, newTexts]
  | cons line body ih =>
    obtain ⟨hparsed, hold, hnew⟩ := ih (pushLine acc line)
    rw [foldl_cons, hparsed, hold, hnew, pushLine_parsedLines, pushLine_oldLines, pushLine_newLines]
    refine ⟨by simp only [length_cons]; omega, ?_, ?_⟩
    · cases hellipsis : line.isEllipsis <;> cases htext :
        line.old? <;> simp [stored, oldTexts, hellipsis, htext]
    · cases hellipsis : line.isEllipsis <;> cases htext :
        line.new? <;> simp [stored, newTexts, hellipsis, htext]

def hunkOf : DiffHunk where
  changeContext := none
  oldStartLine := none
  newStartLine := none
  hasContextLines := (body.foldl pushLine empty).hasContextLines
  oldLines := oldTexts (stored body)
  newLines := newTexts (stored body)
  isEndOfFile := (body.foldl pushLine empty).isEndOfFile

variable {body}

theorem parseOneHunk_render (hne : body ≠ []) :
    parseOneHunk (EMPTY_CHANGE_CONTEXT_MARKER :: body.map render) 1 true =
      .ok (stripLineNumberPrefixes (hunkOf body), body.length + 1) := by
  have hheader : parseHunkHeader EMPTY_CHANGE_CONTEXT_MARKER 1 true = .ok ⟨[], none, none, 1⟩ := rfl
  have hnested : nestedContexts (body.map render) = ([], 0) := by
    obtain ⟨line, rest, rfl⟩ := exists_cons_of_ne_nil hne
    cases line <;> simp [nestedContexts, render]
  obtain ⟨hparsed, hold, hnew⟩ := foldl_pushLine body empty
  rw [show empty.parsedLines = 0 from rfl] at hparsed
  rw [show empty.oldLines = [] from rfl] at hold
  rw [show empty.newLines = [] from rfl] at hnew
  rw [parseOneHunk]
  simp [hheader, bind, Except.bind, hnested, parseHunkBody_render, hparsed, hold, hnew, hne, hunkOf,
    pure, Except.pure]

theorem parseHunks_render (body : List BodyLine) :
    parseHunks (body.length + 1) 0 (EMPTY_CHANGE_CONTEXT_MARKER :: body.map render) =
      if (body.map render).all isBlank then .ok []
      else .ok [stripLineNumberPrefixes (hunkOf body)] := by
  rw [parseHunks]
  have hblank : isBlank EMPTY_CHANGE_CONTEXT_MARKER = false := rfl
  have hmeta : isUnifiedDiffMetadataLine (trim EMPTY_CHANGE_CONTEXT_MARKER) = false := by
    decide
  have hstart : startsWith (trim EMPTY_CHANGE_CONTEXT_MARKER) "@@".toList = true := rfl
  cases hall : (body.map render).all isBlank with
  | true => rfl
  | false =>
    have hne : body ≠ [] := by
      rintro rfl
      simp at hall
    have hdrop : (EMPTY_CHANGE_CONTEXT_MARKER :: body.map render).drop
        (body.length + 1) = [] := by
      simp
    simp only [parseOneHunk_render hne, hdrop, bind, Except.bind]
    cases body.length <;> rfl

theorem parseDiffHunks_renderHunk (hne : body ≠ []) (hbody : ∀ line ∈ body, '\n' ∉ line.text) :
    parseDiffHunks (renderHunk body) =
      if ((survivors body).map render).all isBlank then .ok []
      else .ok [stripLineNumberPrefixes (hunkOf (survivors body))] := by
  have hsurvivors : ∀ line ∈ survivors body, '\n' ∉ line.text := fun line hline =>
    hbody line ((survivors_sublist body).subset hline)
  have hlines : splitLines (normalizeDiff (renderHunk body)) =
      EMPTY_CHANGE_CONTEXT_MARKER :: (survivors body).map render := by
    rw [normalizeDiff, renderHunk, splitLines_render hbody, normalizeDiffLines_render hne,
      splitLines_render hsurvivors]
  simp only [parseDiffHunks, countMultiFileMarkers_render hbody, hlines, length_cons, length_map]
  rw [if_neg (by decide), parseHunks_render]

theorem length_lt_of_matchLineNumber {group : Text} {n : Nat}
    (hmatch : matchLineNumber line = some (n, group)) : group.length < line.length := by
  unfold matchLineNumber at hmatch
  simp only [Option.ite_none_right_eq_some, Option.some.injEq, Prod.mk.injEq] at hmatch
  obtain ⟨⟨hdigits, -⟩, -, hgroup⟩ := hmatch
  have hbody : (trimStart line).length ≤ line.length :=
    (dropWhile_sublist _).length_le
  have hsplit := congrArg List.length
    (takeWhile_append_dropWhile (p := isDigit) (l := trimStart line))
  have hafter := congrArg List.length (takeWhile_append_dropWhile (p := isSpace)
    (l := (trimStart line).dropWhile isDigit))
  rw [length_append] at hsplit hafter
  split at hgroup
  · next hspaces =>
    have hone : group.length ≤ 1 := by
      rw [← hgroup]
      cases (((trimStart line).dropWhile isDigit).takeWhile isSpace).getLast? <;> simp
    omega
  · rw [← hgroup]
    omega

theorem stripLineNumber_ne (hmatch : (matchLineNumber line).isSome) :
    stripLineNumber line ≠ line := by
  obtain ⟨⟨n, group⟩, hsome⟩ := Option.isSome_iff_exists.1 hmatch
  intro heq
  have hlt := length_lt_of_matchLineNumber hsome
  rw [stripLineNumber, hsome] at heq
  exact absurd (congrArg List.length heq) (by simpa using hlt.ne)

theorem exists_match_of_hasLineNumbers {oldLines newLines : List Text}
    (h : hasLineNumbers oldLines newLines = true) :
    ∃ line ∈ oldLines ++ newLines, (matchLineNumber line).isSome := by
  simp only [hasLineNumbers, Bool.and_eq_true, decide_eq_true_eq] at h
  have hlength := le_trans (le_max_left _ _) h.1.2
  obtain ⟨n, hn⟩ := exists_mem_of_length_pos (lt_of_lt_of_le (by decide) hlength)
  obtain ⟨line, hline, hmatch⟩ := mem_filterMap.1 hn
  refine ⟨line, mem_of_mem_filter hline, ?_⟩
  cases hm : matchLineNumber line with
  | none => simp [hm] at hmatch
  | some _ => rfl

theorem stripLineNumberPrefixes_eq_iff (hunk : DiffHunk) :
    ((stripLineNumberPrefixes hunk).oldLines = hunk.oldLines ∧
      (stripLineNumberPrefixes hunk).newLines = hunk.newLines) ↔
      hasLineNumbers hunk.oldLines hunk.newLines = false := by
  unfold stripLineNumberPrefixes
  split
  · next hnumbered =>
    simp only [hnumbered, Bool.true_eq_false, iff_false, not_and]
    intro hold hnew
    obtain ⟨line, hline, hmatch⟩ := exists_match_of_hasLineNumbers hnumbered
    refine stripLineNumber_ne hmatch ?_
    rcases mem_append.1 hline with hmem | hmem
    · exact map_eq_map_iff.1 (hold.trans (map_id _).symm) line hmem
    · exact map_eq_map_iff.1 (hnew.trans (map_id _).symm) line hmem
  · next hnumbered => simpa using hnumbered

theorem stripLineNumberPrefixes_length (hunk : DiffHunk) :
    (stripLineNumberPrefixes hunk).oldLines.length = hunk.oldLines.length ∧
      (stripLineNumberPrefixes hunk).newLines.length = hunk.newLines.length := by
  unfold stripLineNumberPrefixes
  split <;> simp

theorem eq_of_sublist_of_length {kept : List BodyLine} (hsub : kept.Sublist body)
    (hold : (oldTexts kept).length = (oldTexts body).length)
    (hnew : (newTexts kept).length = (newTexts body).length) : kept = body := by
  induction hsub with
  | slnil => rfl
  | @cons kept body line hsub ih =>
    have hle_old := (hsub.filterMap old?).length_le
    have hle_new := (hsub.filterMap new?).length_le
    cases line <;> simp [oldTexts, newTexts, old?, new?] at hold hnew hle_old hle_new <;> omega
  | @cons_cons kept body line hsub ih =>
    rw [ih]
    · cases line <;> simpa [oldTexts, filterMap_cons, old?] using hold
    · cases line <;> simpa [newTexts, filterMap_cons, new?] using hnew

variable (body)

theorem survivors_eq_self_iff :
    survivors body = body ↔ (∀ line ∈ body, line.isFileHeader = false) ∧
      ∀ line, body.getLast? = some line → line.isWrapper = false := by
  constructor
  · intro hall
    have hwrapper : body.getLast?.any isWrapper = false := by
      by_contra hlast
      have hlength := congrArg List.length hall
      have hpos : 0 < body.length := by
        cases body with
        | nil => simp at hlast
        | cons line body => simp
      rw [survivors, if_pos (by simpa using hlast)] at hlength
      have hle := length_filter_le (!isFileHeader ·) body.dropLast
      rw [length_dropLast] at hle
      omega
    rw [survivors, hwrapper] at hall
    refine ⟨fun line hline => ?_, fun line hline => ?_⟩
    · simpa using filter_eq_self.1 hall line hline
    · simpa [hline] using hwrapper
  · rintro ⟨hheader, hwrapper⟩
    have hlast : body.getLast?.any isWrapper = false := by
      cases hl : body.getLast? with
      | none => rfl
      | some line => exact hwrapper line hl
    rw [survivors, hlast]
    exact filter_eq_self.2 fun line hline => by simp [hheader line hline]

theorem stored_eq_self_iff : stored body = body ↔ ∀ line ∈ body, line.isEllipsis = false := by
  simp [stored, filter_eq_self]

variable {body}

theorem not_all_blank (hchange : ∃ line ∈ body, line.isContext = false) :
    (body.map render).all isBlank = false := by
  obtain ⟨line, hline, hcontext⟩ := hchange
  rw [Bool.eq_false_iff, ne_eq, all_eq_true]
  intro hall
  have hblank := hall line.render (mem_map_of_mem hline)
  simp [isBlank_render, hcontext] at hblank

/-- A rendered hunk is read back as one hunk with the context and removed texts on its old side,
and the context and added texts on its new side, exactly when no lenient pass takes one of its
lines for decoration. -/
theorem parseDiffHunks_render (body : List BodyLine) (hbody : ∀ line ∈ body, '\n' ∉ line.text)
    (hchange : ∃ line ∈ body, line.isContext = false) :
    (∃ hunk, parseDiffHunks (renderHunk body) = .ok [hunk] ∧
      hunk.oldLines = oldTexts body ∧ hunk.newLines = newTexts body) ↔ Unambiguous body := by
  have hne : body ≠ [] := by
    rintro rfl
    simp at hchange
  rw [parseDiffHunks_renderHunk hne hbody]
  constructor
  · rintro ⟨hunk, hparse, hold, hnew⟩
    split at hparse
    · simp at hparse
    simp only [Except.ok.injEq, List.cons.injEq, and_true] at hparse
    subst hparse
    have hlengths := stripLineNumberPrefixes_length (hunkOf (survivors body))
    rw [hold, hnew] at hlengths
    have hsub : (stored (survivors body)).Sublist body :=
      filter_sublist.trans (survivors_sublist body)
    have hstored := eq_of_sublist_of_length hsub hlengths.1.symm hlengths.2.symm
    have hsurvivors : survivors body = body :=
      (survivors_sublist body).eq_of_length_le (by
        rw [← congrArg List.length hstored]
        exact length_filter_le _ _)
    rw [hsurvivors] at hold hnew hstored
    obtain ⟨hheader, hwrapper⟩ := (survivors_eq_self_iff body).1 hsurvivors
    have hstrip := (stripLineNumberPrefixes_eq_iff (hunkOf body)).1
      ⟨hold.trans (by rw [hunkOf, hstored]), hnew.trans (by rw [hunkOf, hstored])⟩
    simp only [hunkOf, hstored] at hstrip
    exact ⟨hheader, hwrapper, (stored_eq_self_iff body).1 hstored, hstrip⟩
  · rintro ⟨hheader, hwrapper, hellipsis, hnumbered⟩
    have hsurvivors := (survivors_eq_self_iff body).2 ⟨hheader, hwrapper⟩
    have hstored := (stored_eq_self_iff body).2 hellipsis
    rw [hsurvivors, if_neg (by simp [not_all_blank hchange])]
    have hstrip := (stripLineNumberPrefixes_eq_iff (hunkOf body)).2 (by
      simpa only [hunkOf, hstored] using hnumbered)
    refine ⟨_, rfl, hstrip.1.trans ?_, hstrip.2.trans ?_⟩
    · simp only [hunkOf, hstored]
    · simp only [hunkOf, hstored]

/-- A replaced line between two lines of context. -/
theorem parseDiffHunks_render_replacement :
    ∃ hunk, parseDiffHunks (renderHunk [.context "a".toList, .removed "1 b".toList,
        .added "...".toList, .context [] ]) = .ok [hunk] ∧
      hunk.oldLines = ["a".toList, "1 b".toList, []] ∧
      hunk.newLines = ["a".toList, "...".toList, []] :=
  (parseDiffHunks_render [.context "a".toList, .removed "1 b".toList, .added "...".toList,
    .context [] ] (by decide) (by decide)).2
    ⟨by decide, by rintro line ⟨⟩; decide, by decide, by decide⟩

/-- A removed line whose text starts with `-- ` reads as a file header and is dropped. -/
theorem parseDiffHunks_render_drops :
    ¬ ∀ body : List BodyLine, (∀ line ∈ body, '\n' ∉ line.text) →
      (∃ line ∈ body, line.isContext = false) →
      ∃ hunk, parseDiffHunks (renderHunk body) = .ok [hunk] ∧
        hunk.oldLines = oldTexts body ∧ hunk.newLines = newTexts body := by
  intro hall
  obtain ⟨hunk, hparse, hold, -⟩ :=
    hall [.removed "-- note".toList, .added "x".toList] (by decide) (by decide)
  have hdropped : parseDiffHunks (renderHunk [.removed "-- note".toList, .added "x".toList]) =
      .ok [⟨none, none, none, false, [], ["x".toList], false⟩] := by decide
  rw [hdropped] at hparse
  simp only [Except.ok.injEq, List.cons.injEq, and_true] at hparse
  subst hparse
  simp [oldTexts, old?] at hold

end Vibrato.Edit
