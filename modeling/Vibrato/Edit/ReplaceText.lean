import Vibrato.Edit.Match

/-! `replaceText` of `edit/diff.ts`. -/

namespace Vibrato.Edit

open Vibrato.Lib List Text

structure ReplaceOptions (R : Type) where
  fuzzy : Bool
  all : Bool
  threshold : Option R

structure ReplaceResult where
  content : Text
  count : Nat

inductive ReplaceError where
  | emptyOldText
  | occurrences (count : Nat) (previews : List Text)
  deriving DecidableEq

section Replace

variable {R : Type} [Score R] (native : NativeBestFuzzyMatch R)

/-- The match that the loop replaces: the one that was found, or else the closest one. -/
def chooseMatch (oldText : Text) (fuzzy : Bool) (threshold : R) (content : Text) :
    Option (FuzzyMatch R) :=
  let outcome := findMatch native content oldText fuzzy threshold
  let shouldUseClosest :=
    fuzzy && outcome.closest.any (fun closest => closest.confidence ≥ threshold) &&
    outcome.fuzzyMatches.all (· ≤ 1)
  outcome.found <|> if shouldUseClosest then outcome.closest else none

def replaceMatch (content : Text) (m : FuzzyMatch R) (adjustedNewText : Text) : Text :=
  content.take m.startIndex ++ adjustedNewText ++ content.drop (m.startIndex + m.actualText.length)

def replaceRound (oldText newText : Text) (fuzzy : Bool) (threshold : R) (content : Text) :
    Option Text :=
  match chooseMatch native oldText fuzzy threshold content with
  | none => none
  | some m =>
    let adjustedNewText := adjustIndentation oldText m.actualText newText
    if adjustedNewText = m.actualText then none else some (replaceMatch content m adjustedNewText)

def replaceRounds (oldText newText : Text) (fuzzy : Bool) (threshold : R) :
    Nat → Text → Nat → Option ReplaceResult
  | 0, _, _ => none
  | rounds + 1, content, count =>
    match replaceRound native oldText newText fuzzy threshold content with
    | none => some ⟨content, count⟩
    | some next => replaceRounds oldText newText fuzzy threshold rounds next (count + 1)

def replaceText (rounds : Nat) (content oldText newText : Text) (options : ReplaceOptions R) :
    Option (Except ReplaceError ReplaceResult) :=
  if oldText.length = 0 then some (.error .emptyOldText)
  else
    let threshold := options.threshold.getD DEFAULT_FUZZY_THRESHOLD
    let normalizedContent := normalizeToLF content
    let normalizedOldText := normalizeToLF oldText
    let normalizedNewText := normalizeToLF newText
    if options.all then
      let exactCount := (splitBy normalizedOldText normalizedContent).length - 1
      if 0 < exactCount then
        some (.ok ⟨normalizedNewText.intercalate (splitBy normalizedOldText normalizedContent),
          exactCount⟩)
      else
        (replaceRounds native normalizedOldText normalizedNewText options.fuzzy threshold rounds
          normalizedContent 0).map .ok
    else
      let outcome := findMatch native normalizedContent normalizedOldText options.fuzzy threshold
      match outcome.occurrences.filter (1 < ·), outcome.found with
      | some occurrences, _ => some (.error (.occurrences occurrences outcome.occurrencePreviews))
      | none, none => some (.ok ⟨normalizedContent, 0⟩)
      | none, some m =>
        let adjustedNewText := adjustIndentation normalizedOldText m.actualText normalizedNewText
        some (.ok ⟨replaceMatch normalizedContent m adjustedNewText, 1⟩)

end Replace

/-- How many windows of `len` places have no mark. -/
def freshWindows (len : Nat) : List Bool → Nat
  | [] => 0
  | mark :: marks =>
    (if len ≤ (mark :: marks).length ∧ true ∉ (mark :: marks).take len then 1 else 0) +
      freshWindows len marks

theorem freshWindows_replicate (len n : Nat) (hlen : 0 < len) :
    freshWindows len (List.replicate n false) = n + 1 - len := by
  induction n with
  | zero =>
    rw [replicate_zero, freshWindows]
    omega
  | succ n ih =>
    have hfresh : true ∉ (List.replicate (n + 1) false).take len := by
      rw [take_replicate]
      exact fun hmem => by cases eq_of_mem_replicate hmem
    rw [replicate_succ, freshWindows, ← replicate_succ, length_replicate]
    by_cases hle : len ≤ n + 1
    · rw [if_pos ⟨hle, hfresh⟩]
      omega
    · rw [if_neg fun h => hle h.1]
      omega

theorem freshWindows_append_mark (len : Nat) (hlen : 0 < len) (marks later : List Bool) :
    freshWindows len (marks ++ true :: later) =
      freshWindows len marks + freshWindows len later := by
  induction marks with
  | nil =>
    have hmark : true ∈ (true :: later).take len := by
      obtain ⟨n, rfl⟩ := Nat.exists_eq_succ_of_ne_zero (Nat.ne_of_gt hlen)
      exact mem_cons_self
    rw [nil_append, freshWindows, freshWindows, if_neg fun h => h.2 hmark]
  | cons mark marks ih =>
    rw [cons_append, freshWindows, freshWindows, ← cons_append]
    by_cases hle : len ≤ (mark :: marks).length
    · rw [take_append_of_le_length hle]
      have hle' : len ≤ ((mark :: marks) ++ true :: later).length := by
        rw [length_append]
        omega
      simp only [hle, hle', true_and]
      omega
    · have hmark : true ∈ ((mark :: marks) ++ true :: later).take len := by
        rw [take_append, mem_append]
        obtain ⟨n, hn⟩ := Nat.exists_eq_succ_of_ne_zero
          (Nat.sub_ne_zero_of_lt (Nat.lt_of_not_le hle))
        rw [hn]
        exact .inr mem_cons_self
      rw [if_neg fun h => h.2 hmark, if_neg fun h => hle h.1]
      omega

theorem freshWindows_append_le (len : Nat) (marks later : List Bool) :
    freshWindows len marks + freshWindows len later ≤ freshWindows len (marks ++ later) := by
  induction marks with
  | nil => simp [freshWindows]
  | cons mark marks ih =>
    rw [cons_append, freshWindows, freshWindows, ← cons_append]
    by_cases hle : len ≤ (mark :: marks).length
    · rw [take_append_of_le_length hle]
      have hle' : len ≤ ((mark :: marks) ++ later).length := by
        rw [length_append]
        omega
      simp only [hle, hle', true_and]
      omega
    · rw [if_neg fun h => hle h.1]
      omega

theorem freshWindows_mark_lt {len : Nat} (hlen : 0 < len) (above below : List Bool)
    {window : List Bool}
    (hlength : window.length = len) (hwindow : true ∉ window) {marks : List Bool}
    (hmarks : marks ≠ [])
    (hall : ∀ mark ∈ marks, mark = true) :
    freshWindows len (above ++ (marks ++ below)) <
      freshWindows len (above ++ (window ++ below)) := by
  have hmarked : freshWindows len (above ++ (marks ++ below)) ≤
      freshWindows len above + freshWindows len below := by
    induction marks generalizing above with
    | nil => exact absurd rfl hmarks
    | cons mark marks ih =>
      obtain rfl := hall mark mem_cons_self
      rw [cons_append, freshWindows_append_mark len hlen]
      cases marks with
      | nil => exact Nat.le_refl _
      | cons next marks =>
        have hnext := ih [] (cons_ne_nil _ _) fun m hm => hall m (mem_cons_of_mem _ hm)
        rw [nil_append, freshWindows] at hnext
        omega
  have hfresh : freshWindows len below + 1 ≤ freshWindows len (window ++ below) := by
    obtain ⟨first, rest, rfl⟩ := exists_cons_of_ne_nil
      (ne_nil_of_length_pos (by omega : 0 < window.length))
    have htake : ((first :: rest) ++ below).take len = first :: rest := by
      rw [← hlength, take_left]
    have hle : len ≤ ((first :: rest) ++ below).length := by
      rw [length_append]
      omega
    have hrest := freshWindows_append_le len rest below
    rw [cons_append] at htake hle
    rw [cons_append, freshWindows, htake, if_pos ⟨hle, hwindow⟩]
    omega
  have happend := freshWindows_append_le len above (window ++ below)
  omega

theorem isInfix_of_marked {α : Type} {p : α → Bool} {part marks below : List α}
    (hpart : part <:+: marks ++ below)
    (hunmarked : ∀ x ∈ part, p x = false) (hmarks : ∀ x ∈ marks, p x = true) : part <:+: below := by
  induction marks with
  | nil => exact hpart
  | cons mark marks ih =>
    rcases infix_cons_iff.1 hpart with hfirst | hlater
    · cases part with
      | nil => exact nil_infix
      | cons x part =>
        obtain ⟨rfl, -⟩ := cons_prefix_cons.1 hfirst
        have hmark := hmarks x mem_cons_self
        rw [hunmarked x mem_cons_self] at hmark
        cases hmark
    · exact ih hlater fun x hx => hmarks x (mem_cons_of_mem _ hx)

theorem isInfix_of_marks {α : Type} {p : α → Bool} {part above marks below : List α}
    (hpart : part <:+: above ++ (marks ++ below)) (hunmarked : ∀ x ∈ part, p x = false)
    (hne : marks ≠ [])
    (hmarks : ∀ x ∈ marks, p x = true) : part <:+: above ∨ part <:+: below := by
  induction above with
  | nil => exact .inr (isInfix_of_marked hpart hunmarked hmarks)
  | cons line above ih =>
    rw [cons_append] at hpart
    rcases infix_cons_iff.1 hpart with hfirst | hlater
    · rw [← cons_append] at hfirst
      rcases prefix_or_prefix_of_prefix hfirst
        (prefix_append (line :: above) (marks ++ below)) with hin | ⟨rest, rfl⟩
      · exact .inl hin.isInfix
      · rw [prefix_append_right_inj] at hfirst
        have hrest := isInfix_of_marked hfirst.isInfix
          (fun x hx => hunmarked x (mem_append_right _ hx)) hmarks
        cases rest with
        | nil =>
          left
          rw [append_nil]
        | cons x rest =>
          -- a part that goes on below `above` would have the first mark
          obtain ⟨mark, marks, rfl⟩ := exists_cons_of_ne_nil hne
          obtain ⟨rfl, -⟩ := cons_prefix_cons.1 hfirst
          have hmark := hmarks x mem_cons_self
          rw [hunmarked x (mem_append_right _ mem_cons_self)] at hmark
          cases hmark
    · rcases ih hlater with habove | hbelow
      · exact .inl (habove.trans (suffix_cons line above).isInfix)
      · exact .inr hbelow

/-- A line of the content, marked if a replacement has put it there. -/
structure MarkedLine where
  text : Text
  inserted : Bool
  deriving DecidableEq

open MarkedLine

def markedContent (marked : List MarkedLine) : Text := joinLines (marked.map text)

def unmarked (content : Text) : List MarkedLine := (splitLines content).map (⟨·, false⟩)

section Marked

variable {R : Type}

variable (marked : List MarkedLine)

def matchedLines (m : FuzzyMatch R) : List MarkedLine :=
  (marked.drop (m.startLine - 1)).take (splitLines m.actualText).length

/-- The lines after a replacement.  Those that it reaches into are marked, with what is left of the
first and the last one. -/
def markReplaced (m : FuzzyMatch R) (adjustedNewText : Text) : List MarkedLine :=
  let above := marked.take (m.startLine - 1)
  let below := marked.drop (m.startLine - 1 + (splitLines m.actualText).length)
  let content := markedContent marked
  let left := (content.take m.startIndex).drop (lineOffset (above.map text))
  let right := (content.drop (m.startIndex + m.actualText.length)).takeWhile (· ≠ '\n')
  above ++ ((splitLines (left ++ adjustedNewText ++ right)).map (⟨·, true⟩) ++ below)

theorem lineOffset_eq (lines : List Text) :
    lineOffset lines = (lines.flatMap (· ++ ['\n'])).length := by
  rw [lineOffset]
  simp

structure IsLines (lines : List Text) : Prop where
  ne_nil : lines ≠ []
  no_newline : ∀ line ∈ lines, '\n' ∉ line

theorem isLines_splitLines (content : Text) : IsLines (splitLines content) :=
  ⟨splitOn_ne_nil _ _, fun _ => newline_not_mem_of_mem_splitLines⟩

theorem IsLines.splitLines {lines : List Text} (h : IsLines lines) :
    splitLines (joinLines lines) = lines :=
  splitLines_joinLines h.ne_nil h.no_newline

theorem replaceMatch_window {above window below : List Text} (hwindow : window ≠ [])
    {m : FuzzyMatch R}
    (hactual : m.actualText = joinLines window)
    (hstart : m.startIndex = (above.flatMap (· ++ ['\n'])).length) (adjustedNewText : Text) :
    replaceMatch (joinLines (above ++ (window ++ below))) m adjustedNewText =
      above.flatMap (· ++ ['\n']) ++ adjustedNewText ++ below.flatMap ('\n' :: ·) := by
  rw [replaceMatch, hstart, hactual,
    joinLines_append_left _ (append_ne_nil_of_left_ne_nil hwindow _),
    joinLines_append_right hwindow, take_left, ← drop_drop, drop_left,
    drop_left]

theorem takeWhile_newline (below : List Text) :
    (below.flatMap ('\n' :: ·)).takeWhile (· ≠ '\n') = [] := by
  cases below with
  | nil => rfl
  | cons line below => simp

variable {marked : List MarkedLine} {len start : Nat} {m : FuzzyMatch R}

theorem markReplaced_window (hlines : IsLines (marked.map text)) (hlen : 0 < len)
    (h : IsWindow (marked.map text) len start m) (adjustedNewText : Text) :
    ∃ above window below, marked = above ++ (window ++ below) ∧ window.length = len ∧
      matchedLines marked m = window ∧
      markReplaced marked m adjustedNewText =
        above ++ ((splitLines adjustedNewText).map (⟨·, true⟩) ++ below) ∧
      markedContent (markReplaced marked m adjustedNewText) =
        replaceMatch (markedContent marked) m adjustedNewText := by
  have hle : start + len ≤ marked.length := by
    have := h.le
    rwa [length_map] at this
  have hmarked : marked =
      marked.take start ++ ((marked.drop start).take len ++ (marked.drop start).drop len) := by
    rw [take_append_drop, take_append_drop]
  have hlength : ((marked.drop start).take len).length = len := by
    rw [length_take, length_drop]
    omega
  have habove : (marked.take start).length = start := by
    rw [length_take]
    omega
  generalize marked.take start = above at *
  generalize (marked.drop start).take len = window at *
  generalize (marked.drop start).drop len = below at *
  subst hmarked
  have hne : window.map text ≠ [] := ne_nil_of_length_pos (by simp; omega)
  have hactual : m.actualText = joinLines (window.map text) := by
    rw [h.actualText, map_append, map_append, drop_left' (by simpa using habove),
      take_left' (by simpa using hlength)]
  have hstart : m.startIndex = ((above.map text).flatMap (· ++ ['\n'])).length := by
    rw [h.startIndex, map_append, take_left' (by simpa using habove), lineOffset_eq]
  have hcount : (splitLines m.actualText).length = len := by
    have hwindow : IsLines (window.map text) := by
      refine ⟨hne, fun line hline => hlines.no_newline line ?_⟩
      rw [map_append, map_append]
      exact mem_append_right _ (mem_append_left _ hline)
    rw [hactual, hwindow.splitLines, length_map, hlength]
  have hline : m.startLine - 1 = above.length := by
    rw [h.startLine]
    omega
  have hcontent : markedContent (above ++ (window ++ below)) =
      (above.map text).flatMap (· ++ ['\n']) ++
        (m.actualText ++ (below.map text).flatMap ('\n' :: ·)) := by
    rw [markedContent, map_append, map_append,
      joinLines_append_left _ (append_ne_nil_of_left_ne_nil hne _),
      joinLines_append_right hne, ← hactual]
  have hmark : markReplaced (above ++ (window ++ below)) m adjustedNewText =
      above ++ ((splitLines adjustedNewText).map (⟨·, true⟩) ++ below) := by
    unfold markReplaced
    dsimp only
    rw [hcontent, hline, hcount, take_left, hstart, take_left, lineOffset_eq, drop_length,
      ← drop_drop, drop_left, drop_left, takeWhile_newline, nil_append,
      append_nil, ← hlength, ← drop_drop, drop_left, drop_left]
  refine ⟨above, window, below, rfl, hlength, ?_, hmark, ?_⟩
  · rw [matchedLines, hline, hcount, drop_left, take_left' hlength]
  · have hadjusted : splitLines adjustedNewText ≠ [] := splitOn_ne_nil _ _
    rw [hmark, markedContent, map_append, map_append, map_map,
      show text ∘ (fun text => (⟨text, true⟩ : MarkedLine)) = id from rfl, map_id,
      joinLines_append_left _ (append_ne_nil_of_left_ne_nil hadjusted _),
      joinLines_append_right hadjusted, joinLines_splitLines, markedContent, map_append,
      map_append, replaceMatch_window hne hactual hstart, append_assoc]

end Marked

section Loop

variable {R : Type} [Score R] (native : NativeBestFuzzyMatch R) (oldText newText : Text)
    (threshold : R)

/-- The lines that the loop comes to from a content, and the number of its rounds. -/
inductive Reaches (content : Text) : List MarkedLine → Nat → Prop where
  | start : Reaches content (unmarked content) 0
  | round {marked : List MarkedLine} {count : Nat} {m : FuzzyMatch R}
      (h : Reaches content marked count)
      (hmatch : chooseMatch native oldText true threshold (markedContent marked) = some m)
      (hchange : adjustIndentation oldText m.actualText newText ≠ m.actualText) :
      Reaches content (markReplaced marked m (adjustIndentation oldText m.actualText newText))
        (count + 1)

def NeverRematches (content : Text) : Prop :=
  ∀ marked count, Reaches native oldText newText threshold content marked count →
    ∀ m, chooseMatch native oldText true threshold (markedContent marked) = some m →
      ∀ line ∈ matchedLines marked m, line.inserted = false

/-- In so many rounds from these lines on, no match has a marked line. -/
def freshRounds : Nat → List MarkedLine → Bool
  | 0, _ => true
  | rounds + 1, marked =>
    match chooseMatch native oldText true threshold (markedContent marked) with
    | none => true
    | some m =>
      let adjustedNewText := adjustIndentation oldText m.actualText newText
      (matchedLines marked m).all (!·.inserted) &&
        (adjustedNewText = m.actualText ||
          freshRounds rounds (markReplaced marked m adjustedNewText))

variable {native oldText newText threshold} {m : FuzzyMatch R}

theorem chooseMatch_of_not_occurs {content : Text} (hindex : indexOf oldText content = none)
    (h : chooseMatch native oldText true threshold content = some m) :
    ((native.getD findBestFuzzyMatch) content oldText threshold).best = some m ∧
      m.confidence ≥ threshold := by
  unfold chooseMatch at h
  dsimp only at h
  cases hfound : (findMatch native content oldText true threshold).found with
  | some m' =>
    rw [hfound] at h
    cases h
    exact findMatch_of_not_occurs hindex hfound
  | none =>
    rw [hfound] at h
    change (if _ then _ else none) = some m at h
    split at h
    · next hclosest =>
      rw [h, Option.any_some, Bool.true_and, Bool.and_eq_true, decide_eq_true_eq] at hclosest
      exact ⟨findMatch_closest hindex h, hclosest.1⟩
    · cases h

variable {content : Text} {marked : List MarkedLine} {count : Nat}

theorem splitLines_pos (text : Text) : 0 < (splitLines text).length :=
  length_pos_of_ne_nil (splitOn_ne_nil _ _)

theorem chooseMatch_of_occurs {content : Text} (hne : oldText ≠ []) {i : Nat}
    (hindex : indexOf oldText content = some i)
    (h : chooseMatch native oldText true threshold content = some m) :
    m.actualText = oldText ∧ m.startLine = lineNumberAt content i := by
  have hlength : ¬oldText.length = 0 := fun h => hne (length_eq_zero_iff.1 h)
  by_cases hcount : 1 < (splitBy oldText content).length - 1
  · simp only [chooseMatch, findMatch, findExactMatchOutcome, if_neg hlength, hindex,
      if_pos hcount] at h
    cases h
  · simp only [chooseMatch, findMatch, findExactMatchOutcome, if_neg hlength, hindex,
      if_neg hcount] at h
    cases h
    exact ⟨rfl, rfl⟩

theorem occurs_isInfix_lines {content target : Text} {i : Nat} (h : OccursAt target content i) :
    target <:+: joinLines (((splitLines content).drop (lineNumberAt content i - 1)).take
      (splitLines target).length) := by
  obtain ⟨above, line, hbefore⟩ := exists_splitLines_concat (content.take i)
  have hline : '\n' ∉ line :=
    newline_not_mem_of_mem_splitLines (hbefore ▸ mem_append_right _ (mem_singleton_self _))
  have hsingle : splitLines line = [] ++ [line] := by
    have hjoined := splitLines_joinLines (cons_ne_nil line []) (by simpa using hline)
    simpa [joinLines] using hjoined
  obtain ⟨rest, hrest⟩ := h
  obtain ⟨first, below, hafter⟩ := exists_splitLines_cons (target ++ rest)
  have hlines : (splitLines content).drop (lineNumberAt content i - 1) =
      splitLines (line ++ (target ++ rest)) := by
    have hcontent := splitLines_append hbefore hafter
    rw [hrest, take_append_drop] at hcontent
    rw [lineNumberAt, hbefore, hcontent, length_append, length_singleton, Nat.add_sub_cancel,
      drop_left, splitLines_append hsingle hafter, nil_append]
  obtain ⟨first, below, htarget⟩ := exists_splitLines_cons target
  have hwhole := splitLines_append hsingle htarget
  obtain ⟨upper, lastLine, hlast⟩ := exists_splitLines_concat (line ++ target)
  obtain ⟨tail, later, hlater⟩ := exists_splitLines_cons rest
  have hcount : (splitLines target).length = upper.length + 1 := by
    rw [htarget, length_cons, ← length_cons (a := line ++ first),
      ← nil_append ((line ++ first) :: below), ← hwhole, hlast, length_append, length_singleton]
  rw [hlines, ← append_assoc, splitLines_append hlast hlater, hcount, append_cons,
    take_left' (by rw [length_append, length_singleton])]
  have hjoin := joinLines_append_joinLines upper lastLine tail []
  rw [← hlast, joinLines_splitLines] at hjoin
  rw [← hjoin]
  exact infix_append _ _ _

/-- The lines of a run: those without a mark that stand side by side did so in the content. -/
structure Descends (content : Text) (marked : List MarkedLine) : Prop where
  isLines : IsLines (marked.map text)
  sideBySide : ∀ part, part <:+: marked → (∀ line ∈ part, line.inserted = false) →
    part.map text <:+: splitLines content

theorem map_text_unmarked (content : Text) : (unmarked content).map text = splitLines content := by
  rw [unmarked, map_map]
  exact map_id _

theorem markedContent_unmarked (content : Text) : markedContent (unmarked content) = content := by
  rw [markedContent, map_text_unmarked, joinLines_splitLines]

theorem descends_unmarked (content : Text) : Descends content (unmarked content) := by
  refine ⟨?_, fun part hpart _ => ?_⟩
  · rw [map_text_unmarked]
    exact isLines_splitLines content
  · rw [← map_text_unmarked]
    exact hpart.map text

/-- A match without marked lines is a window: an occurrence there would have been one in the
content. -/
theorem Descends.isWindow (h : Descends content marked) (hnative : FindsWindows native)
    (hne : oldText ≠ [])
    (hcontent : indexOf oldText content = none)
    (hmatch : chooseMatch native oldText true threshold (markedContent marked) = some m)
    (hfresh : ∀ line ∈ matchedLines marked m, line.inserted = false) :
    ∃ start, IsWindow (marked.map text) (splitLines oldText).length start m := by
  have hlines : splitLines (markedContent marked) = marked.map text := h.isLines.splitLines
  cases hindex : indexOf oldText (markedContent marked) with
  | none =>
    obtain ⟨start, hwindow⟩ := hnative.isWindow (chooseMatch_of_not_occurs hindex hmatch).1
    rw [hlines] at hwindow
    exact ⟨start, hwindow⟩
  | some i =>
    obtain ⟨hactual, hstart⟩ := chooseMatch_of_occurs hne hindex hmatch
    have hpart := occurs_isInfix_lines (indexOf_eq_some hindex).1
    rw [hlines, ← hstart, ← hactual, ← map_drop, ← map_take] at hpart
    obtain ⟨above, below, hsplit⟩ := h.sideBySide (matchedLines marked m)
      (( take_prefix _ _).isInfix.trans (drop_suffix _ _).isInfix) hfresh
    have hjoined := joinLines_infix above ((matchedLines marked m).map text) below
    rw [← append_assoc, hsplit, joinLines_splitLines] at hjoined
    obtain ⟨before, after, hoccurs⟩ := hpart.trans hjoined
    rw [hactual, append_assoc] at hoccurs
    exact absurd (hoccurs ▸ occursAt_append before after) (indexOf_eq_none hcontent _)

/-- A round whose match has no marked line leaves a window without marks less. -/
theorem Descends.round (h : Descends content marked) (hnative : FindsWindows native)
    (hne : oldText ≠ [])
    (hcontent : indexOf oldText content = none)
    (hmatch : chooseMatch native oldText true threshold (markedContent marked) = some m)
    (hfresh : ∀ line ∈ matchedLines marked m, line.inserted = false) (adjustedNewText : Text) :
    Descends content (markReplaced marked m adjustedNewText) ∧
      markedContent (markReplaced marked m adjustedNewText) =
        replaceMatch (markedContent marked) m adjustedNewText ∧
      freshWindows (splitLines oldText).length
        ((markReplaced marked m adjustedNewText).map inserted) <
        freshWindows (splitLines oldText).length (marked.map inserted) := by
  obtain ⟨start, hwindow⟩ := h.isWindow hnative hne hcontent hmatch hfresh
  obtain ⟨above, window, below, rfl, hlength, hmatched, hreplaced, hreplace⟩ :=
    markReplaced_window h.isLines (splitLines_pos oldText) hwindow adjustedNewText
  have hnew := isLines_splitLines adjustedNewText
  have hmarks : ∀ line ∈ (splitLines adjustedNewText).map fun text => (⟨text, true⟩ : MarkedLine),
      line.inserted = true := by
    intro line hline
    obtain ⟨text, -, rfl⟩ := mem_map.1 hline
    rfl
  have hmarksNe : (splitLines adjustedNewText).map (fun text => (⟨text, true⟩ : MarkedLine)) ≠
      [] := by
    rw [ne_eq, map_eq_nil_iff]
    exact hnew.ne_nil
  refine ⟨⟨?_, fun part hpart hunmarked => ?_⟩, hreplace, ?_⟩
  · have htexts :
        ((splitLines adjustedNewText).map fun text => (⟨text, true⟩ : MarkedLine)).map text =
        splitLines adjustedNewText := by
      rw [map_map]
      exact map_id _
    have hold := h.isLines.no_newline
    rw [map_append, map_append] at hold
    rw [hreplaced, map_append, map_append, htexts]
    refine ⟨append_ne_nil_of_right_ne_nil _ (append_ne_nil_of_left_ne_nil hnew.ne_nil _),
      fun line hline => ?_⟩
    rcases mem_append.1 hline with habove | hline
    · exact hold line (mem_append_left _ habove)
    rcases mem_append.1 hline with hinserted | hbelow
    · exact hnew.no_newline line hinserted
    · exact hold line (mem_append_right _ (mem_append_right _ hbelow))
  · rw [hreplaced] at hpart
    rcases isInfix_of_marks hpart hunmarked hmarksNe hmarks with habove | hbelow
    · exact h.sideBySide part (habove.trans ( prefix_append _ _).isInfix) hunmarked
    · refine h.sideBySide part (hbelow.trans ?_) hunmarked
      rw [← append_assoc]
      exact (suffix_append _ _).isInfix
  · rw [hreplaced, map_append, map_append, map_append, map_append]
    refine freshWindows_mark_lt (splitLines_pos oldText) _ _ (by rw [length_map, hlength]) ?_ ?_ ?_
    · intro hmem
      obtain ⟨line, hline, htrue⟩ := mem_map.1 hmem
      rw [← hmatched] at hline
      rw [hfresh line hline] at htrue
      cases htrue
    · rw [ne_eq, map_eq_nil_iff]
      exact hmarksNe
    · intro mark hmark
      obtain ⟨line, hline, rfl⟩ := mem_map.1 hmark
      exact hmarks line hline

section Run

variable (hnative : FindsWindows native) (hne : oldText ≠ [])
    (hcontent : indexOf oldText content = none)

section Never

variable (hnever : NeverRematches native oldText newText threshold content)
  (h : Reaches native oldText newText threshold content marked count)

include hnever h in
theorem Reaches.freshRounds (rounds : Nat) :
    freshRounds native oldText newText threshold rounds marked = true := by
  induction rounds generalizing marked count with
  | zero => rfl
  | succ rounds ih =>
    rw [Edit.freshRounds]
    split
    · rfl
    · next m hmatch =>
      rw [Bool.and_eq_true, all_eq_true, Bool.or_eq_true, decide_eq_true_eq]
      refine ⟨fun line hline => ?_, ?_⟩
      · rw [hnever marked count h m hmatch line hline]
        rfl
      · by_cases hchange : adjustIndentation oldText m.actualText newText = m.actualText
        · exact .inl hchange
        · exact .inr (ih (h.round hmatch hchange))

include hnative hne hcontent hnever h

theorem Reaches.descends : Descends content marked := by
  induction h with
  | start => exact descends_unmarked content
  | @round marked count m h hmatch hchange ih =>
    exact (ih.round hnative hne hcontent hmatch (hnever marked count h m hmatch) _).1

theorem Reaches.stops :
    ∃ result, result.count ≤ count + freshWindows (splitLines oldText).length
      (marked.map inserted) ∧
      ∀ rounds > freshWindows (splitLines oldText).length (marked.map inserted),
        replaceRounds native oldText newText true threshold rounds (markedContent marked) count =
          some result := by
  -- induction on the number of windows without marks
  induction hn : freshWindows (splitLines oldText).length (marked.map inserted)
    using Nat.strong_induction_on generalizing marked count with
  | _ n ih =>
  have hstop : replaceRound native oldText newText true threshold (markedContent marked) = none →
      ∃ result : ReplaceResult, result.count ≤ count + n ∧ ∀ rounds > n,
        replaceRounds native oldText newText true threshold rounds (markedContent marked) count =
          some result := by
    intro hnone
    refine ⟨⟨markedContent marked, count⟩, Nat.le_add_right _ _, fun rounds hrounds => ?_⟩
    obtain ⟨k, rfl⟩ := Nat.exists_eq_succ_of_ne_zero (by omega : rounds ≠ 0)
    rw [replaceRounds, hnone]
  cases hmatch : chooseMatch native oldText true threshold (markedContent marked) with
  | none =>
    apply hstop
    unfold replaceRound
    rw [hmatch]
  | some m =>
    by_cases hchange : adjustIndentation oldText m.actualText newText = m.actualText
    · apply hstop
      unfold replaceRound
      rw [hmatch]
      dsimp only
      rw [if_pos hchange]
    · obtain ⟨-, hreplace, hlt⟩ :=
        (h.descends hnative hne hcontent hnever).round hnative hne hcontent hmatch
        (hnever marked count h m hmatch) (adjustIndentation oldText m.actualText newText)
      have hround : replaceRound native oldText newText true threshold (markedContent marked) =
          some (markedContent
            (markReplaced marked m (adjustIndentation oldText m.actualText newText))) := by
        unfold replaceRound
        rw [hmatch]
        dsimp only
        rw [if_neg hchange, hreplace]
      rw [hn] at hlt
      obtain ⟨result, hcount, hrounds⟩ := ih _ hlt (h.round hmatch hchange) rfl
      refine ⟨result, by omega, fun rounds hgt => ?_⟩
      obtain ⟨k, rfl⟩ := Nat.exists_eq_succ_of_ne_zero (by omega : rounds ≠ 0)
      rw [replaceRounds, hround]
      exact hrounds k (by omega)

end Never

variable (oldText) in
def lineWindows (content : Text) : Nat :=
  (splitLines content).length + 1 - (splitLines oldText).length

theorem freshWindows_unmarked (content : Text) :
    freshWindows (splitLines oldText).length ((unmarked content).map inserted) =
      lineWindows oldText content := by
  have hmarks :
      (unmarked content).map inserted = List.replicate (splitLines content).length false := by
    rw [unmarked, map_map]
    exact map_const'
  rw [hmarks, freshWindows_replicate _ _ (splitLines_pos oldText), lineWindows]

include hnative hne hcontent in
theorem Reaches.of_freshRounds
    (hfresh : Edit.freshRounds native oldText newText threshold (lineWindows oldText content + 1)
    (unmarked content) = true)
    (h : Reaches native oldText newText threshold content marked count) :
    Descends content marked ∧
      count + freshWindows (splitLines oldText).length (marked.map inserted) ≤
        lineWindows oldText content ∧
      ∀ m, chooseMatch native oldText true threshold (markedContent marked) = some m →
        (∀ line ∈ matchedLines marked m, line.inserted = false) ∧
        (adjustIndentation oldText m.actualText newText ≠ m.actualText →
          Edit.freshRounds native oldText newText threshold (lineWindows oldText content - count)
            (markReplaced marked m (adjustIndentation oldText m.actualText newText)) = true) := by
  have hround : ∀ rounds marked, Edit.freshRounds native oldText newText threshold
      (rounds + 1) marked = true →
      ∀ m, chooseMatch native oldText true threshold (markedContent marked) = some m →
        (∀ line ∈ matchedLines marked m, line.inserted = false) ∧
        (adjustIndentation oldText m.actualText newText ≠ m.actualText →
          Edit.freshRounds native oldText newText threshold rounds
            (markReplaced marked m (adjustIndentation oldText m.actualText newText)) = true) := by
    intro rounds marked hrounds m hmatch
    rw [Edit.freshRounds, hmatch] at hrounds
    simp only [Bool.and_eq_true, all_eq_true, Bool.or_eq_true, decide_eq_true_eq] at hrounds
    refine ⟨fun line hline => by simpa using hrounds.1 line hline, fun hchange => ?_⟩
    exact hrounds.2.resolve_left hchange
  induction h with
  | start =>
    refine ⟨descends_unmarked content, ?_, hround _ _ hfresh⟩
    rw [freshWindows_unmarked, Nat.zero_add]
  | @round marked count m h hmatch hchange ih =>
    obtain ⟨hdescends, hle, hnext⟩ := ih
    obtain ⟨hunmarked, hrounds⟩ := hnext m hmatch
    obtain ⟨hlines, -, hlt⟩ := hdescends.round hnative hne hcontent hmatch hunmarked
      (adjustIndentation oldText m.actualText newText)
    refine ⟨hlines, by omega, hround _ _ ?_⟩
    rw [show lineWindows oldText content - (count + 1) + 1 =
      lineWindows oldText content - count by omega]
    exact hrounds hchange

include hnative hne hcontent in
/-- As many rounds as there are windows, and one more, show whether a match ever has a marked
line. -/
theorem neverRematches_iff : NeverRematches native oldText newText threshold content ↔
    Edit.freshRounds native oldText newText threshold (lineWindows oldText content + 1)
      (unmarked content) = true := by
  constructor
  · intro hnever
    exact Reaches.start.freshRounds hnever _
  · intro hfresh marked count h m hmatch
    exact ((h.of_freshRounds hnative hne hcontent hfresh).2.2 m hmatch).1

end Run

theorem normalizeToLF_ne_nil {text : Text} (h : text ≠ []) : normalizeToLF text ≠ [] := by
  unfold normalizeToLF
  split <;> simp_all

end Loop

section ReplaceAll

variable {R : Type} [Score R] (native : NativeBestFuzzyMatch R) (content oldText newText : Text)
    (threshold : Option R)

/-- The call returns, no match has a line that it has inserted, and there are at most as many
replacements as line windows.  Occurrences are replaced all at once, without another search. -/
def ReplacesOriginal : Prop :=
  ∃ result, (∃ enough, ∀ rounds ≥ enough,
      replaceText native rounds content oldText newText ⟨true, true, threshold⟩ =
        some (.ok result)) ∧
    result.count ≤ lineWindows (normalizeToLF oldText) (normalizeToLF content) ∧
    (indexOf (normalizeToLF oldText) (normalizeToLF content) = none →
      NeverRematches native (normalizeToLF oldText) (normalizeToLF newText)
        (threshold.getD DEFAULT_FUZZY_THRESHOLD) (normalizeToLF content))

/-- The old text occurs at most once for each line window; or it does not occur, and in one round
more than there are windows no match has an inserted line. -/
def matchesOriginal : Bool :=
  if indexOf (normalizeToLF oldText) (normalizeToLF content) = none then
    freshRounds native (normalizeToLF oldText) (normalizeToLF newText)
      (threshold.getD DEFAULT_FUZZY_THRESHOLD)
      (lineWindows (normalizeToLF oldText) (normalizeToLF content) + 1)
        (unmarked (normalizeToLF content))
  else (splitBy (normalizeToLF oldText) (normalizeToLF content)).length - 1 ≤
    lineWindows (normalizeToLF oldText) (normalizeToLF content)

variable {native oldText}

theorem replaceRound_again {tail : Text} (htail : 'a' ∉ tail) :
    replaceRound (R := ℚ) none "a b".toList "a b c".toList true (percent 95)
      ("a b".toList ++ tail) = some ("a b c".toList ++ tail) := by
  have hindex : indexOf "a b".toList ("a b".toList ++ tail) = some 0 := by
    rw [indexOf_eq_some_iff]
    exact ⟨prefix_append _ _, fun j hj => absurd hj (Nat.not_lt_zero j)⟩
  have htailIndex : indexOf "a b".toList tail = none := by
    rw [indexOf_eq_none_iff]
    intro i hoccurs
    exact htail (mem_of_mem_drop (hoccurs.subset (by decide : 'a' ∈ "a b".toList)))
  have hcount : (splitBy "a b".toList ("a b".toList ++ tail)).length ≤ 2 := by
    rw [splitBy_of_some (by decide) hindex, Nat.zero_add, drop_left, splitBy_of_none htailIndex]
    exact Nat.le_refl 2
  have hmatch := @findMatch_of_occurs ℚ _ none _ _ true (percent 95) (by decide) 0 hindex hcount
  unfold replaceRound chooseMatch
  rw [hmatch]
  have hadjust : adjustIndentation "a b".toList "a b".toList "a b c".toList = "a b c".toList :=
    if_pos rfl
  rfl

theorem replaceRounds_again (rounds : Nat) {tail : Text} (htail : 'a' ∉ tail) (count : Nat) :
    replaceRounds (R := ℚ) none "a b".toList "a b c".toList true (percent 95) rounds
      ("a b".toList ++ tail) count = none := by
  induction rounds generalizing tail count with
  | zero => rfl
  | succ rounds ih =>
    have htail' : 'a' ∉ " c".toList ++ tail := by
      rw [mem_append, not_or]
      exact ⟨by decide, htail⟩
    rw [replaceRounds, replaceRound_again htail]
    exact ih htail' (count + 1)

end ReplaceAll

end Vibrato.Edit
