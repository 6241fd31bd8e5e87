import Vibrato.Hashline.Merging

/-! A body with one header, through the splitter and then the parser. -/

namespace Vibrato.Hashline

open List Text Except Prod

def parseSections : List HashlineInputSection → Except ParseError (List Edit × List Text)
  | [] => .ok ([], [])
  | s :: sections => do
    let (edits, warnings) ← parseHashlineWithWarnings s.diff
    let (later, laterWarnings) ← parseSections sections
    return (edits ++ later, warnings ++ laterWarnings)

variable (line : Text)

def isStopLine : Bool :=
  trimEnd line = END_PATCH_MARKER ∨ trimEnd line = ABORT_MARKER

def isBeginLine : Bool := trimEnd line = BEGIN_PATCH_MARKER

def sectionLines (lines : List Text) : List Text :=
  (lines.takeWhile (!isStopLine ·)).filter (!isBeginLine ·)

def isOpLine : Bool := line.head?.any (· ∈ HL_OP_CHARS)

def dropEmptyLast (lines : List Text) : List Text :=
  if lines.getLast? = some [] then lines.dropLast else lines

def unmarkedLines (body : Text) : List Text :=
  (diffLines body).takeWhile (!isEnvelopeOrAbortMarkerLine ·)

/-- The body does not end at an Abort marker; and if there is an operation in the lines that the
splitter keeps, then these are, but for an empty one at the end, the lines before the first marker,
and no payload line but the last ends with a carriage return. -/
def SurvivesSplit (body : Text) : Prop :=
  let kept := sectionLines (splitLinesCrlf body)
  diffEnding body ≠ .abort ∧ (kept.any isOpLine = false ∨ dropEmptyLast kept = unmarkedLines body ∧
    ∀ line ∈ kept.dropLast.dropWhile isBlank, isPayloadTerminatorLine line = true ∨
      line.getLast? ≠ some '\r')

theorem sectionLines_cons (line : Text) (lines : List Text) : sectionLines (line :: lines) =
    if isStopLine line then [] else if isBeginLine line then sectionLines lines
    else line :: sectionLines lines := by
  unfold sectionLines
  rw [takeWhile_cons]
  cases isStopLine line with
  | true => rfl
  | false =>
    show List.filter (!isBeginLine ·) (line :: _) = _
    rw [filter_cons]
    cases isBeginLine line <;> rfl

section Splitter

variable {env : Tools.PathEnv} {cwd : Text}

theorem parseHashlineHeaderLine_eq_none {line : Text} (h : line.head? ≠ some HL_FILE_PREFIX) :
    parseHashlineHeaderLine env cwd line = .ok none := by
  have htrim : (trimEnd line).head? ≠ some HL_FILE_PREFIX := by
    intro hhead
    obtain ⟨rest, hrest⟩ := rdropWhile_prefix isSpace (l := line)
    apply h
    rw [← hrest]
    cases hline : trimEnd line with
    | nil =>
      rw [hline] at hhead
      cases hhead
    | cons c s =>
      rw [hline] at hhead
      have hdrop : List.rdropWhile isSpace line = c :: s := hline
      rw [hdrop]
      exact hhead
  exact if_pos htrim

theorem splitSections_body (path : Text) {lines : List Text}
    (hlines : ∀ line ∈ lines, line.head? ≠ some HL_FILE_PREFIX) (above : List Text) :
    splitSections env cwd path above lines =
      .ok (flushSection path (above ++ sectionLines lines)) := by
  induction lines generalizing above with
  | nil =>
    show ok (flushSection path above) = ok (flushSection path (above ++ []))
    rw [append_nil]
  | cons line lines ih =>
    have hrest := ih fun line' hline' => hlines line' (mem_cons_of_mem _ hline')
    unfold splitSections
    rw [sectionLines_cons]
    by_cases hstop : trimEnd line = END_PATCH_MARKER ∨ trimEnd line = ABORT_MARKER
    · have hstop' : isStopLine line = true := decide_eq_true hstop
      rw [if_pos hstop, if_pos hstop', append_nil]
    have hstop' : ¬isStopLine line = true := fun h => hstop (of_decide_eq_true h)
    rw [if_neg hstop, if_neg hstop']
    by_cases hbegin : trimEnd line = BEGIN_PATCH_MARKER
    · have hbegin' : isBeginLine line = true := decide_eq_true hbegin
      rw [if_pos hbegin, if_pos hbegin']
      exact hrest above
    · have hbegin' : ¬isBeginLine line = true := fun h => hbegin (of_decide_eq_true h)
      rw [if_neg hbegin, if_neg hbegin',
        parseHashlineHeaderLine_eq_none (hlines line mem_cons_self)]
      have happend := hrest (above ++ [line])
      rw [append_assoc] at happend
      exact happend

theorem parseHashlineHeaderLine_dropCarriageReturn (line : Text) :
    parseHashlineHeaderLine env cwd (dropCarriageReturn line) =
      parseHashlineHeaderLine env cwd line := by
  rcases eq_of_dropCarriageReturn line with heq | heq
  · rw [heq]
  · have htrim : trimEnd line = trimEnd (dropCarriageReturn line) := by
      conv_lhs => rw [heq]
      exact rdropWhile_concat_pos _ _ _ isSpace_return
    unfold parseHashlineHeaderLine
    rw [htrim]

variable {path : Text}

theorem ne_nil_of_parseHashlineHeaderLine {line : Text}
    (h : parseHashlineHeaderLine env cwd line = .ok (some path)) : path ≠ [] := by
  unfold parseHashlineHeaderLine at h
  dsimp only at h
  split at h
  · cases h
  split at h
  · cases h
  split at h
  · cases h
  · next hne =>
    cases h
    exact hne

theorem header_ne_marker {p : Text} : isSkippedFirstLine (HL_FILE_PREFIX :: p) = false ∧
    isStopLine (HL_FILE_PREFIX :: p) = false ∧ isBeginLine (HL_FILE_PREFIX :: p) = false := by
  have htrim : trimEnd (HL_FILE_PREFIX :: p) = HL_FILE_PREFIX :: trimEnd p :=
    trimEnd_cons_of_not_isSpace (by decide) p
  have hmarker : ∀ marker ∈ [BEGIN_PATCH_MARKER, END_PATCH_MARKER, ABORT_MARKER],
      trimEnd (HL_FILE_PREFIX :: p) ≠ marker := by
    intro marker hmarker heq
    have hhead : marker.head? = some HL_FILE_PREFIX := by rw [← heq, htrim, head?_cons]
    have hstar : ∀ marker ∈ [BEGIN_PATCH_MARKER, END_PATCH_MARKER, ABORT_MARKER],
        marker.head? ≠ some HL_FILE_PREFIX := by decide
    exact hstar marker hmarker hhead
  have hbegin := hmarker BEGIN_PATCH_MARKER (by decide)
  have hend := hmarker END_PATCH_MARKER (by decide)
  have habort := hmarker ABORT_MARKER (by decide)
  have hblank : isBlank (HL_FILE_PREFIX :: p) = false := rfl
  refine ⟨?_, ?_, ?_⟩
  · rw [isSkippedFirstLine, hblank, Bool.false_or, decide_eq_false_iff_not]
    exact hbegin
  · rw [isStopLine, decide_eq_false_iff_not, not_or]
    exact ⟨hend, habort⟩
  · rw [isBeginLine, decide_eq_false_iff_not]
    exact hbegin

theorem splitHashlineInputs_body {p body : Text} (hp : '\n' ∉ p)
    (hheader : parseHashlineHeaderLine env cwd (HL_FILE_PREFIX :: p) = .ok (some path))
    (hbody : ∀ line ∈ splitLinesCrlf body, line.head? ≠ some HL_FILE_PREFIX)
    (fallback : Option Text) :
    splitHashlineInputs env cwd (HL_FILE_PREFIX :: (p ++ '\n' :: body)) fallback =
      .ok (flushSection path (sectionLines (splitLinesCrlf body))) := by
  have hlines : splitLinesCrlf (HL_FILE_PREFIX :: (p ++ '\n' :: body)) =
      dropCarriageReturn (HL_FILE_PREFIX :: p) :: splitLinesCrlf body := by
    have hsingle : splitLines (HL_FILE_PREFIX :: p) = [HL_FILE_PREFIX :: p] :=
      splitOn_eq_singleton (by simp [hp, HL_FILE_PREFIX])
    rw [← cons_append, splitLinesCrlf_append, hsingle]
    rfl
  have hfirst : parseHashlineHeaderLine env cwd (dropCarriageReturn (HL_FILE_PREFIX :: p)) =
      .ok (some path) := by rw [parseHashlineHeaderLine_dropCarriageReturn, hheader]
  have hbom : stripBomChar (HL_FILE_PREFIX :: (p ++ '\n' :: body)) =
      HL_FILE_PREFIX :: (p ++ '\n' :: body) := if_neg (by rw [head?_cons]; decide)
  have hfallback : normalizeFallbackInput env cwd (HL_FILE_PREFIX :: (p ++ '\n' :: body)) fallback =
      .ok (HL_FILE_PREFIX :: (p ++ '\n' :: body)) := by
    unfold normalizeFallbackInput
    rw [hbom, hlines]
    unfold hasHeader
    rw [hfirst]
    rfl
  have hstrip : stripLeadingBlankLines (HL_FILE_PREFIX :: (p ++ '\n' :: body)) =
      HL_FILE_PREFIX :: (p ++ '\n' :: body) := by
    have hsplit : splitLines (HL_FILE_PREFIX :: (p ++ '\n' :: body)) =
        (HL_FILE_PREFIX :: p) :: splitLines body := by
      rw [← cons_append, splitLines, splitOn_append_cons_self,
        splitOn_eq_singleton (by simp [hp, HL_FILE_PREFIX])]
      rfl
    unfold stripLeadingBlankLines
    rw [hbom, hsplit, dropWhile_cons_of_neg (by simp [header_ne_marker.1]), ← hsplit,
      joinLines_splitLines]
  unfold splitHashlineInputs
  rw [hfallback]
  dsimp only [bind, Except.bind]
  rw [hstrip, hlines, headD_cons]
  obtain ⟨p', hp'⟩ : ∃ p', dropCarriageReturn (HL_FILE_PREFIX :: p) = HL_FILE_PREFIX :: p' := by
    unfold dropCarriageReturn
    split
    · next hlast =>
      cases p with
      | nil => exact absurd hlast (by decide)
      | cons c p => exact ⟨(c :: p).dropLast, rfl⟩
    · exact ⟨p, rfl⟩
  obtain ⟨-, hstop, hbegin⟩ := @header_ne_marker p'
  have hstop' := of_decide_eq_false hstop
  have hbegin' := of_decide_eq_false hbegin
  rw [hp'] at hfirst ⊢
  unfold splitSections
  rw [if_neg hstop', if_neg hbegin', hfirst]
  show (do return flushSection [] [] ++ (← splitSections env cwd path [] _)) = _
  rw [splitSections_body path hbody]
  rfl

end Splitter

def rejoined (lines : List Text) : List Text :=
  lines.dropLast.map dropCarriageReturn ++
    if lines.getLast? = some [] then [] else lines.getLast?.toList

theorem rejoined_empty (above : List Text) :
    rejoined (above ++ [[]]) = above.map dropCarriageReturn ∧
      dropEmptyLast (above ++ [[]]) = above := by
  unfold rejoined dropEmptyLast
  rw [getLast?_concat, dropLast_concat, if_pos rfl, append_nil]
  exact ⟨rfl, rfl⟩

theorem rejoined_concat (above : List Text) {last : Text} (hlast : last ≠ []) :
    rejoined (above ++ [last]) = above.map dropCarriageReturn ++ [last] ∧
      dropEmptyLast (above ++ [last]) = above ++ [last] := by
  have hne : some last ≠ some [] := fun heq => hlast (Option.some.inj heq)
  unfold rejoined dropEmptyLast
  rw [getLast?_concat, dropLast_concat, if_neg hne, if_neg hne]
  exact ⟨rfl, rfl⟩

theorem diffLines_joinLines {lines : List Text} (hlines : ∀ line ∈ lines, '\n' ∉ line)
    (hsome : lines.any (!isBlank ·) = true) : diffLines (joinLines lines) = rejoined lines := by
  rcases eq_nil_or_concat lines with rfl | ⟨above, last, rfl⟩
  · cases hsome
  rw [concat_eq_append] at *
  have hcrlf : splitLinesCrlf (joinLines (above ++ [last])) =
      above.map dropCarriageReturn ++ [last] := by
    unfold splitLinesCrlf
    dsimp only
    rw [splitLines_joinLines (by simp) hlines, dropLast_concat, getLast?_concat]
    rfl
  unfold diffLines
  dsimp only
  rw [hcrlf, getLast?_concat, dropLast_concat]
  by_cases hnil : last = []
  · subst hnil
    have hne : above ≠ [] := by
      rintro rfl
      cases hsome
    have hend : (joinLines (above ++ [[]])).getLast? = some '\n' := by
      rw [joinLines_concat hne]
      exact getLast?_concat
    rw [if_pos ⟨hend, rfl⟩, (rejoined_empty above).1]
  · rw [if_neg fun h => hnil (Option.some.inj h.2), (rejoined_concat above hnil).1]

def MayDropReturn (line line' : Text) : Prop := line' = line ∨ line' = dropCarriageReturn line

theorem forall₂_rejoined (lines : List Text) :
    List.Forall₂ MayDropReturn (dropEmptyLast lines) (rejoined lines) := by
  have hmap :
      ∀ above : List Text, List.Forall₂ MayDropReturn above (above.map dropCarriageReturn) := by
    intro above
    rw [List.forall₂_map_right_iff, List.forall₂_same]
    exact fun _ _ => .inr rfl
  rcases eq_nil_or_concat lines with rfl | ⟨above, last, rfl⟩
  · exact .nil
  rw [concat_eq_append]
  by_cases hnil : last = []
  · rw [hnil, (rejoined_empty above).1, (rejoined_empty above).2]
    exact hmap above
  · rw [(rejoined_concat above hnil).1, (rejoined_concat above hnil).2]
    exact rel_append (hmap above) (.cons (.inl rfl) .nil)

namespace MayDropReturn

variable {line line' : Text}

variable (h : MayDropReturn line line')
include h

theorem readHead_eq : readHead line' = readHead line := by
  rcases h with rfl | rfl
  · rfl
  · exact readHead_dropCarriageReturn line

theorem isBlank_eq : isBlank line' = isBlank line := by
  rcases h with rfl | rfl
  · rfl
  · exact isBlank_dropCarriageReturn line

theorem isPayloadTerminatorLine_eq :
    isPayloadTerminatorLine line' = isPayloadTerminatorLine line := by
  rcases h with rfl | rfl
  · rfl
  · exact isPayloadTerminatorLine_dropCarriageReturn line

theorem trimEnd_eq : trimEnd line' = trimEnd line := by
  rcases h with rfl | rfl
  · rfl
  rcases eq_of_dropCarriageReturn line with heq | heq
  · rw [heq]
  · conv_rhs => rw [heq]
    exact (rdropWhile_concat_pos _ _ _ isSpace_return).symm

theorem isOpLine_eq : isOpLine line' = isOpLine line := by
  rcases h with rfl | rfl
  · rfl
  rcases eq_of_dropCarriageReturn line with heq | heq
  · rw [heq]
  · conv_rhs => rw [heq]
    cases dropCarriageReturn line with
    | nil => decide
    | cons c rest => rfl

end MayDropReturn

theorem not_isPayloadTerminatorLine_of_isBlank {line : Text} (h : isBlank line = true) :
    isPayloadTerminatorLine line = false := by
  have htrim : trimEnd line = [] := by
    unfold trimEnd
    rw [rdropWhile_eq_nil_iff]
    exact fun c hc => all_eq_true.1 h c hc
  unfold isPayloadTerminatorLine isEnvelopeOrAbortMarkerLine
  rw [htrim]
  cases line with
  | nil => decide
  | cons c rest =>
    have hc : isSpace c = true := all_eq_true.1 h c mem_cons_self
    have hsign : ∀ d, d = HL_FILE_PREFIX ∨ d ∈ HL_OP_CHARS → isSpace d = false := by
      rintro d (rfl | hd)
      · decide
      · exact not_isSpace_of_opChar hd
    have hnot : ¬(c = HL_FILE_PREFIX ∨ c ∈ HL_OP_CHARS) := by
      intro hd
      rw [hsign c hd] at hc
      cases hc
    simp only [head?_cons, Option.any_some, hnot, decide_false, Bool.false_or]
    decide

theorem isEnvelopeOrAbortMarkerLine_iff (line : Text) : isEnvelopeOrAbortMarkerLine line = true ↔
    isBeginLine line = true ∨ isStopLine line = true := by
  simp only [isEnvelopeOrAbortMarkerLine, isBeginLine, isStopLine, mem_cons, not_mem_nil, or_false,
    decide_eq_true_eq]

theorem isPayloadTerminatorLine_of_marker {line : Text}
    (h : isEnvelopeOrAbortMarkerLine line = true) :
    isPayloadTerminatorLine line = true := by
  rw [isPayloadTerminatorLine, h, Bool.or_true]

theorem isOpLine_of_readHead {line : Text} {head : OpHead} (h : readHead line = some head) :
    isOpLine line = true := by
  obtain ⟨c, rest, rfl, hc⟩ := readHead_sign h
  simp [isOpLine, hc]

theorem isEnvelopeOrAbortMarkerLine_of_isOpLine {line : Text} (h : isOpLine line = true) :
    isEnvelopeOrAbortMarkerLine line = false := by
  cases line with
  | nil => cases h
  | cons c rest =>
    have hc : c ∈ HL_OP_CHARS := by simpa [isOpLine] using h
    have hmarker : ∀ marker ∈ [BEGIN_PATCH_MARKER, END_PATCH_MARKER, ABORT_MARKER],
        HL_OP_CHARS.all (fun c => marker.head? ≠ some c) = true := by decide
    rw [isEnvelopeOrAbortMarkerLine, decide_eq_false_iff_not,
      trimEnd_cons_of_not_isSpace (not_isSpace_of_opChar hc)]
    intro hmem
    exact of_decide_eq_true (all_eq_true.1 (hmarker _ hmem) c hc) (head?_cons ..)

theorem isStopLine_eq_false {line : Text} (h : isEnvelopeOrAbortMarkerLine line = false) :
    isStopLine line = false := by
  rw [Bool.eq_false_iff] at h ⊢
  exact fun hstop => h ((isEnvelopeOrAbortMarkerLine_iff line).2 (.inr hstop))

theorem isEnvelopeOrAbortMarkerLine_eq_false {line : Text}
    (h : isPayloadTerminatorLine line = false) :
    isEnvelopeOrAbortMarkerLine line = false := by
  rw [Bool.eq_false_iff] at h ⊢
  exact fun hmarker => h (isPayloadTerminatorLine_of_marker hmarker)

variable {n : Nat} {ending : Ending} {lines' : List Text} {ops : List (Nat × Op)}

theorem Reads.before_stop {lines : List Text}
    (h : Reads n lines ops ending) : ∃ ending', ending'.stopped = false ∧
      Reads n (lines.takeWhile (!isStopLine ·)) ops ending' := by
  induction h with
  | nil n => exact ⟨.outside, rfl, .nil n⟩
  | @blank n line rest ops ending hblank hrest ih =>
    obtain ⟨ending', hstopped, hreads⟩ := ih
    have hstop : isStopLine line = false := isStopLine_eq_false
      (isEnvelopeOrAbortMarkerLine_eq_false (not_isPayloadTerminatorLine_of_isBlank hblank))
    refine ⟨ending', hstopped, ?_⟩
    rw [takeWhile_cons, hstop]
    exact .blank hblank hreads
  | beginPatch hrest ih =>
    obtain ⟨ending', hstopped, hreads⟩ := ih
    exact ⟨ending', hstopped, .beginPatch hreads⟩
  | endPatch n rest => exact ⟨.outside, rfl, .nil n⟩
  | abort n rest => exact ⟨.outside, rfl, .nil n⟩
  | @op n line payload next head ops ending hhead hpayload hnext hcomplete hrest ih =>
    obtain ⟨ending', hstopped, hreads⟩ := ih
    have hline : isStopLine line = false :=
      isStopLine_eq_false (isEnvelopeOrAbortMarkerLine_of_isOpLine (isOpLine_of_readHead hhead))
    have hall : ∀ text ∈ payload, (!isStopLine text) = true := by
      intro text htext
      rw [isStopLine_eq_false (isEnvelopeOrAbortMarkerLine_eq_false (hpayload text htext))]
      rfl
    have hends : EndsPayload (next.takeWhile (!isStopLine ·)) := by
      cases next with
      | nil => exact hnext
      | cons first next =>
        rw [takeWhile_cons]
        split
        · exact hnext
        · exact fun l hl => by cases hl
    have hop := Reads.op hhead hpayload hends hcomplete hreads
    rw [takeWhile_cons, hline, takeWhile_append_of_pos hall]
    refine ⟨_, ?_, hop⟩
    split
    · rfl
    · exact hstopped

theorem Reads.split {lines : List Text}
    (h : Reads n lines ops ending) (hstopped : ending.stopped = false) {above below : List Text}
    (hlines : lines = above ++ below) (hbelow : EndsPayload below) :
    ∃ opsAbove opsBelow endingAbove endingBelow, ops = opsAbove ++ opsBelow ∧
      Reads n above opsAbove endingAbove ∧ endingAbove.stopped = false ∧
      Reads (n + above.length) below opsBelow endingBelow ∧ endingBelow.stopped = false := by
  induction h generalizing above with
  | nil n =>
    obtain ⟨rfl, rfl⟩ := append_eq_nil_iff.1 hlines.symm
    exact ⟨[], [], .outside, .outside, rfl, .nil n, rfl, .nil _, rfl⟩
  | @blank n line rest ops ending hblank hrest ih =>
    cases above with
    | nil =>
      rw [nil_append] at hlines
      rw [← hlines]
      exact ⟨[], ops, .outside, ending, rfl, .nil n, rfl, .blank hblank hrest, hstopped⟩
    | cons first above =>
      obtain ⟨rfl, hrest'⟩ := List.cons.inj hlines
      obtain ⟨opsAbove, opsBelow, endingAbove, endingBelow, hops, habove, hstopped', hbelow',
        hstopped''⟩ := ih hstopped hrest'
      refine ⟨opsAbove, opsBelow, endingAbove, endingBelow, hops, .blank hblank habove, hstopped',
        ?_, hstopped''⟩
      rw [length_cons, ← Nat.add_assoc, Nat.add_right_comm]
      exact hbelow'
  | @beginPatch n rest ops ending hrest ih =>
    cases above with
    | nil =>
      rw [nil_append] at hlines
      rw [← hlines]
      exact ⟨[], ops, .outside, ending, rfl, .nil n, rfl, .beginPatch hrest, hstopped⟩
    | cons first above =>
      obtain ⟨rfl, hrest'⟩ := List.cons.inj hlines
      obtain ⟨opsAbove, opsBelow, endingAbove, endingBelow, hops, habove, hstopped', hbelow',
        hstopped''⟩ := ih hstopped hrest'
      refine ⟨opsAbove, opsBelow, endingAbove, endingBelow, hops, .beginPatch habove, hstopped', ?_,
        hstopped''⟩
      rw [length_cons, ← Nat.add_assoc, Nat.add_right_comm]
      exact hbelow'
  | endPatch n rest => cases hstopped
  | abort n rest => cases hstopped
  | @op n line payload next head ops ending hhead hpayload hnext hcomplete hrest ih =>
    cases above with
    | nil =>
      rw [nil_append] at hlines
      rw [← hlines]
      exact ⟨[], _, .outside, _, rfl, .nil n, rfl, .op hhead hpayload hnext hcomplete hrest,
        hstopped⟩
    | cons first above =>
      obtain ⟨rfl, htail⟩ := List.cons.inj hlines
      -- the payload of the operation is all above the cut
      obtain ⟨rest, rfl, hnext'⟩ : ∃ rest, above = payload ++ rest ∧ next = rest ++ below := by
        rcases append_eq_append_iff.1 htail with ⟨rest, habove, hnext'⟩ | ⟨rest, hpayload', hbelow'⟩
        · exact ⟨rest, habove, hnext'⟩
        · cases rest with
          | nil =>
            rw [append_nil] at hpayload'
            exact ⟨[], by rw [hpayload', append_nil], hbelow'.symm⟩
          | cons text rest =>
            have htext := hpayload text (by rw [hpayload']; simp)
            rw [hbelow text (by rw [hbelow']; rfl)] at htext
            cases htext
      have hrestStopped : ending.stopped = false := by
        cases next with
        | nil =>
          cases hrest
          rfl
        | cons => exact hstopped
      obtain ⟨opsAbove, opsBelow, endingAbove, endingBelow, rfl, habove, hstopped', hbelow',
        hstopped''⟩ := ih hrestStopped hnext'
      have hends : EndsPayload rest := by
        cases rest with
        | nil => exact fun l hl => by cases hl
        | cons text rest =>
          rw [hnext'] at hnext
          exact hnext
      refine ⟨_, opsBelow, _, endingBelow, rfl, .op hhead hpayload hends hcomplete habove, ?_, ?_,
        hstopped''⟩
      · split
        · rfl
        · exact hstopped'
      · have hcount :
            n + (line :: (payload ++ rest)).length = n + 1 + payload.length + rest.length := by
          rw [length_cons, length_append]
          omega
        rw [hcount]
        exact hbelow'

def Unmarked (lines : List Text) : Prop := ∀ line ∈ lines, isEnvelopeOrAbortMarkerLine line = false

theorem EndsPayload.dropWhile_isBlank {lines : List Text} (h : EndsPayload lines) :
    (lines.zip lines').dropWhile (fun pair => isBlank pair.1) = lines.zip lines' := by
  cases lines with
  | nil => rfl
  | cons line lines =>
    cases lines' with
    | nil => rfl
    | cons line' lines' =>
      have hline : ¬isBlank line = true := by
        intro hblank
        have hterminator := h line rfl
        rw [not_isPayloadTerminatorLine_of_isBlank hblank] at hterminator
        cases hterminator
      exact dropWhile_cons_of_neg hline

theorem forall_zip_eq_iff {lines : List Text} (hlength : lines.length = lines'.length) :
    (∀ pair ∈ lines.zip lines', pair.2 = pair.1) ↔ lines' = lines := by
  constructor
  · intro h
    have hsame : List.Forall₂ (fun a b => b = a) lines lines' :=
      List.forall₂_iff_zip.2 ⟨hlength, fun hmem => h _ hmem⟩
    clear h hlength
    induction hsame with
    | nil => rfl
    | cons heq _ ih => rw [heq, ih]
  · rintro rfl pair hpair
    obtain ⟨i, hi, rfl⟩ := getElem_of_mem hpair
    rw [getElem_zip]

theorem Reads.unmarked {lines : List Text} (h : Reads n lines ops ending)
    (hunmarked : Unmarked lines) :
    ending = if ops = [] then .outside else .inPayload := by
  induction h with
  | nil n => rfl
  | blank _ _ ih => exact ih fun l hl => hunmarked l (mem_cons_of_mem _ hl)
  | beginPatch => exact absurd (hunmarked _ mem_cons_self) (by decide)
  | endPatch n rest => exact absurd (hunmarked _ mem_cons_self) (by decide)
  | abort n rest => exact absurd (hunmarked _ mem_cons_self) (by decide)
  | @op n line payload next head ops ending hhead hpayload hnext hcomplete hrest ih =>
    split
    · rfl
    · next hne =>
      have hending := ih fun l hl => hunmarked l (mem_cons_of_mem _ (mem_append_right _ hl))
      cases hrest with
      | nil => exact absurd rfl hne
      | blank hblank =>
        have hterminator := hnext _ rfl
        rw [not_isPayloadTerminatorLine_of_isBlank hblank] at hterminator
        cases hterminator
      | beginPatch =>
        exact absurd (hunmarked BEGIN_PATCH_MARKER (by simp)) (by decide)
      | endPatch => exact absurd (hunmarked END_PATCH_MARKER (by simp)) (by decide)
      | abort => exact absurd (hunmarked ABORT_MARKER (by simp)) (by decide)
      | op => exact hending

theorem Reads.no_ops {lines : List Text}
    (h : Reads n lines ops ending) (hstopped : ending.stopped = false) (hops : ops = []) :
    ∀ line ∈ lines, isBlank line = true ∨ line = BEGIN_PATCH_MARKER := by
  induction h with
  | nil n => exact fun _ hnone => (not_mem_nil hnone).elim
  | blank hblank _ ih =>
    intro l hl
    rcases mem_cons.1 hl with rfl | hl
    · exact .inl hblank
    · exact ih hstopped hops l hl
  | beginPatch _ ih =>
    intro l hl
    rcases mem_cons.1 hl with rfl | hl
    · exact .inr rfl
    · exact ih hstopped hops l hl
  | endPatch n rest => cases hstopped
  | abort n rest => cases hstopped
  | op => cases hops

def opNums : Nat → List Text → List Nat
  | _, [] => []
  | n, line :: lines => if isOpLine line then n :: opNums (n + 1) lines else opNums (n + 1) lines

theorem opNums_append (n : Nat) (lines later : List Text) :
    opNums n (lines ++ later) = opNums n lines ++ opNums (n + lines.length) later := by
  induction lines generalizing n with
  | nil => rfl
  | cons line lines ih =>
    have hcount : n + (line :: lines).length = n + 1 + lines.length := by
      rw [length_cons]
      omega
    rw [cons_append, opNums, opNums, ih, hcount]
    split <;> rfl

theorem opNums_eq_nil {n : Nat} {lines : List Text} :
    opNums n lines = [] ↔ lines.any isOpLine = false := by
  induction lines generalizing n with
  | nil => simp [opNums]
  | cons line lines ih =>
    rw [opNums, any_cons]
    cases isOpLine line with
    | true => simp
    | false => simpa using ih

theorem isOpLine_eq_false {line : Text} (h : isPayloadTerminatorLine line = false) :
    isOpLine line = false := by
  cases line with
  | nil => rfl
  | cons c rest =>
    rw [Bool.eq_false_iff] at h ⊢
    intro hop
    have hc : c ∈ HL_OP_CHARS := by simpa [isOpLine] using hop
    exact h (by simp [isPayloadTerminatorLine, hc])

theorem Reads.opNums_eq {lines : List Text} (h : Reads n lines ops ending)
    (hstopped : ending.stopped = false) :
    ops.map fst = opNums n lines := by
  induction h with
  | nil n => rfl
  | blank hblank _ ih =>
    rw [opNums, isOpLine_eq_false (not_isPayloadTerminatorLine_of_isBlank hblank)]
    exact ih hstopped
  | beginPatch _ ih => exact ih hstopped
  | endPatch n rest => cases hstopped
  | abort n rest => cases hstopped
  | @op n line payload next head ops ending hhead hpayload hnext hcomplete hrest ih =>
    have hnone : opNums (n + 1) payload = [] := by
      rw [opNums_eq_nil, any_eq_false]
      exact fun text htext => by simp [isOpLine_eq_false (hpayload text htext)]
    have hrestStopped : ending.stopped = false := by
      cases next with
      | nil =>
        cases hrest
        rfl
      | cons => exact hstopped
    rw [opNums, isOpLine_of_readHead hhead, if_pos rfl, opNums_append, hnone, nil_append, map_cons,
      ih hrestStopped]

theorem opNums_filter_lt {m k : Nat} (hlt : n < m) {lines : List Text} {ks : List Nat}
    (h : opNums m lines = k :: ks) :
    ∃ k' ks', opNums n (lines.filter (!isBeginLine ·)) = k' :: ks' ∧ k' < k := by
  induction lines generalizing n m with
  | nil => cases h
  | cons line lines ih =>
    rw [opNums] at h
    cases hop : isOpLine line with
    | true =>
      have hbegin : isBeginLine line = false := by
        have hmarker := isEnvelopeOrAbortMarkerLine_of_isOpLine hop
        rw [Bool.eq_false_iff] at hmarker ⊢
        exact fun hbegin => hmarker ((isEnvelopeOrAbortMarkerLine_iff line).2 (.inl hbegin))
      rw [hop] at h
      rw [filter_cons, hbegin, Bool.not_false, if_pos rfl, opNums, hop]
      exact ⟨n, _, rfl, (List.cons.inj h).1 ▸ hlt⟩
    | false =>
      rw [hop] at h
      cases hbegin : isBeginLine line with
      | true =>
        rw [filter_cons, hbegin]
        exact ih (by omega) h
      | false =>
        rw [filter_cons, hbegin, Bool.not_false, if_pos rfl, opNums, hop]
        exact ih (by omega) h

theorem Reads.mayDropReturn {lines : List Text} (h : Reads n lines ops ending)
    (hunmarked : Unmarked lines)
    (hlines : List.Forall₂ MayDropReturn lines lines') :
    ∃ ops', Reads n lines' ops' ending ∧ (ops' = ops ↔
      ∀ pair ∈ (lines.zip lines').dropWhile fun pair => isBlank pair.1,
        isPayloadTerminatorLine pair.1 = false → pair.2 = pair.1) := by
  induction h generalizing lines' with
  | nil n =>
    cases hlines
    exact ⟨[], .nil n, by simp⟩
  | @blank n line rest ops ending hblank hrest ih =>
    obtain _ | ⟨hline, hlines⟩ := hlines
    obtain ⟨ops', hreads, hiff⟩ := ih (fun l hl => hunmarked l (mem_cons_of_mem _ hl)) hlines
    refine ⟨ops', .blank (by rw [hline.isBlank_eq, hblank]) hreads, ?_⟩
    rw [hiff, zip_cons_cons, dropWhile_cons, if_pos hblank]
  | beginPatch hrest ih => exact absurd (hunmarked _ mem_cons_self) (by decide)
  | endPatch n rest => exact absurd (hunmarked _ mem_cons_self) (by decide)
  | abort n rest => exact absurd (hunmarked _ mem_cons_self) (by decide)
  | @op n line payload next head ops ending hhead hpayload hnext hcomplete hrest ih =>
    obtain _ | ⟨hline, hlines⟩ := hlines
    next line' lines' =>
    have hsplit := (take_append_drop payload.length lines').symm
    have hpayload' := List.forall₂_take payload.length hlines
    have hnext' := List.forall₂_drop payload.length hlines
    rw [take_left] at hpayload'
    rw [drop_left] at hnext'
    generalize lines'.take payload.length = payload' at hsplit hpayload'
    generalize lines'.drop payload.length = next' at hsplit hnext'
    subst hsplit
    have hlength := hpayload'.length_eq
    obtain ⟨ops', hreads, hiff⟩ := ih
      (fun l hl => hunmarked l (mem_cons_of_mem _ (mem_append_right _ hl))) hnext'
    rw [hnext.dropWhile_isBlank] at hiff
    have hnonterm : ∀ text ∈ payload', isPayloadTerminatorLine text = false := by
      intro text htext
      obtain ⟨i, hi, rfl⟩ := getElem_of_mem htext
      have hpair := hpayload'.get (i := i) (by omega) hi
      exact hpair.isPayloadTerminatorLine_eq.trans (hpayload _ (getElem_mem _))
    have hends : EndsPayload next' := by
      cases hnext' with
      | nil => exact hnext
      | cons hfirst _ =>
        intro l hl
        cases hl
        rw [hfirst.isPayloadTerminatorLine_eq]
        exact hnext _ rfl
    have hempty : next' = [] ↔ next = [] := by
      cases hnext' with
      | nil => simp
      | cons => simp
    have hop := Reads.op (by rw [hline.readHead_eq, hhead]) hnonterm hends
      (head.complete_of_length_le hcomplete (Nat.le_of_eq hlength)) (hlength ▸ hreads)
    refine ⟨_, by simpa only [hempty] using hop, ?_⟩
    have hblank := (readHead_ne_marker hhead).1
    have hterminator := isPayloadTerminatorLine_of_readHead hhead
    rw [List.cons.injEq, mk.injEq, head.op_injective.eq_iff, hiff, zip_cons_cons,
      dropWhile_cons, if_neg (by simp [hblank]), zip_append hlength,
      ← forall_zip_eq_iff hlength]
    constructor
    · rintro ⟨⟨-, hsame⟩, hsameNext⟩ pair hpair hnot
      rcases mem_cons.1 hpair with rfl | hpair
      · rw [hterminator] at hnot
        cases hnot
      rcases mem_append.1 hpair with hpair | hpair
      · exact hsame pair hpair
      · exact hsameNext pair hpair hnot
    · intro hsame
      refine ⟨⟨rfl, fun pair hpair => ?_⟩, fun pair hpair => ?_⟩
      · exact hsame pair (mem_cons_of_mem _ (mem_append_left _ hpair))
          (hpayload _ (of_mem_zip hpair).1)
      · exact hsame pair (mem_cons_of_mem _ (mem_append_right _ hpair))

theorem opNums_forall₂ {lines : List Text} (h : List.Forall₂ MayDropReturn lines lines') (n : Nat) :
    opNums n lines' = opNums n lines := by
  induction h generalizing n with
  | nil => rfl
  | cons hline _ ih => rw [opNums, opNums, hline.isOpLine_eq, ih]

theorem opNums_dropEmptyLast (n : Nat) (lines : List Text) :
    opNums n (dropEmptyLast lines) = opNums n lines := by
  rcases eq_nil_or_concat lines with rfl | ⟨above, last, rfl⟩
  · rfl
  rw [concat_eq_append]
  by_cases hnil : last = []
  · rw [hnil, (rejoined_empty above).2, opNums_append]
    exact (append_nil _).symm
  · rw [(rejoined_concat above hnil).2]

theorem dropEmptyLast_isPrefix (lines : List Text) : dropEmptyLast lines <+: lines := by
  unfold dropEmptyLast
  split
  · exact dropLast_prefix lines
  · exact prefix_refl lines

theorem unmarked_sectionLines (lines : List Text) : Unmarked (sectionLines lines) := by
  intro line hline
  obtain ⟨hmem, hbegin⟩ := mem_filter.1 hline
  have hstop := mem_takeWhile_imp hmem
  rw [Bool.eq_false_iff]
  intro hmarker
  rcases (isEnvelopeOrAbortMarkerLine_iff line).1 hmarker with h | h
  · rw [h] at hbegin
    cases hbegin
  · rw [h] at hstop
    cases hstop

theorem unmarked_rejoined {lines : List Text} (h : Unmarked lines) : Unmarked (rejoined lines) := by
  intro line hline
  obtain ⟨i, hi, rfl⟩ := getElem_of_mem hline
  have hlength := (forall₂_rejoined lines).length_eq
  have hpair := (forall₂_rejoined lines).get (i := i) (by omega) hi
  have hmem := (dropEmptyLast_isPrefix lines).subset (getElem_mem (by omega : i < _))
  have hline := h _ hmem
  rw [← hline]
  exact congrArg (fun s => decide (s ∈ [BEGIN_PATCH_MARKER, END_PATCH_MARKER, ABORT_MARKER]))
    hpair.trimEnd_eq

structure BodyLines (body : Text) (ops : List (Nat × Op)) where
  below : List Text
  rest : List Text
  opsAbove : List (Nat × Op)
  opsBelow : List (Nat × Op)
  endingAbove : Ending
  endingBelow : Ending
  kept_eq : sectionLines (splitLinesCrlf body) =
    unmarkedLines body ++ (below.filter (!isBeginLine ·) ++ rest)
  rest_eq : rest = [] ∨ rest = [[]]
  ops_eq : ops = opsAbove ++ opsBelow
  above_reads : Reads 1 (unmarkedLines body) opsAbove endingAbove
  below_reads : Reads (1 + (unmarkedLines body).length) below opsBelow endingBelow
  below_stopped : endingBelow.stopped = false
  below_begins : ∀ line ∈ below.head?, isBeginLine line = true

theorem unmarked_unmarkedLines (body : Text) : Unmarked (unmarkedLines body) := by
  intro line hline
  simpa using mem_takeWhile_imp hline

theorem splitLinesCrlf_eq (body : Text) : splitLinesCrlf body = diffLines body ∨
    splitLinesCrlf body = diffLines body ++ [[]] := by
  unfold diffLines
  dsimp only
  split
  · next hend => exact .inr (dropLast_append_getLast? _ hend.2).symm
  · exact .inl rfl

theorem Reads.bodyLines {body : Text} (h : Reads 1 (diffLines body) ops ending) :
    Nonempty (BodyLines body ops) := by
  obtain ⟨ending', hstopped, hreads⟩ := h.before_stop
  have hsplit : (diffLines body).takeWhile (!isStopLine ·) = unmarkedLines body ++
      ((diffLines body).dropWhile (!isEnvelopeOrAbortMarkerLine ·)).takeWhile (!isStopLine ·) := by
    have hall : ∀ line ∈ unmarkedLines body, (!isStopLine line) = true := by
      intro line hline
      rw [isStopLine_eq_false (unmarked_unmarkedLines body line hline)]
      rfl
    rw [← takeWhile_append_of_pos hall, unmarkedLines, takeWhile_append_dropWhile]
  generalize hbelow : ((diffLines body).dropWhile (!isEnvelopeOrAbortMarkerLine ·)).takeWhile
    (!isStopLine ·) = below at hsplit
  have hbegins : ∀ line ∈ below.head?, isBeginLine line = true := by
    intro line hline
    rw [← hbelow] at hline
    have hmarker := head?_dropWhile_not (!isEnvelopeOrAbortMarkerLine ·) (diffLines body)
    cases hdrop : (diffLines body).dropWhile (!isEnvelopeOrAbortMarkerLine ·) with
    | nil =>
      rw [hdrop] at hline
      cases hline
    | cons first later =>
      rw [hdrop, takeWhile_cons] at hline
      rw [hdrop] at hmarker
      split at hline
      · next hgoes =>
        cases hline
        rcases (isEnvelopeOrAbortMarkerLine_iff line).1 (by simpa using hmarker) with hbegin | hstop
        · exact hbegin
        · rw [hstop] at hgoes
          cases hgoes
      · cases hline
  have hends : EndsPayload below := fun line hline => isPayloadTerminatorLine_of_marker
    ((isEnvelopeOrAbortMarkerLine_iff line).2 (.inl (hbegins line hline)))
  obtain ⟨opsAbove, opsBelow, endingAbove, endingBelow, hops, habove, -, hbelow', hstopped'⟩ :=
    hreads.split hstopped hsplit hends
  have hunmarked : (unmarkedLines body).filter (!isBeginLine ·) = unmarkedLines body := by
    rw [filter_eq_self]
    intro line hline
    have hline' := unmarked_unmarkedLines body line hline
    rw [Bool.eq_false_iff] at hline'
    cases hbegin : isBeginLine line with
    | true => exact absurd ((isEnvelopeOrAbortMarkerLine_iff line).2 (.inl hbegin)) hline'
    | false => rfl
  have hkept : ∃ rest, (rest = [] ∨ rest = [[]]) ∧ sectionLines (splitLinesCrlf body) =
      unmarkedLines body ++ (below.filter (!isBeginLine ·) ++ rest) := by
    unfold sectionLines
    rcases splitLinesCrlf_eq body with heq | heq
    · refine ⟨[], .inl rfl, ?_⟩
      rw [heq, hsplit, filter_append, hunmarked, append_nil]
    · rw [heq, takeWhile_append]
      split
      · next hall =>
        have hself := ( takeWhile_prefix (!isStopLine ·)).eq_of_length hall
        have hempty : ([[]] : List Text).takeWhile (!isStopLine ·) = [[]] := by decide
        refine ⟨[[]], .inr rfl, ?_⟩
        rw [← hself, hsplit, append_assoc, filter_append, filter_append, hunmarked]
        rfl
      · refine ⟨[], .inl rfl, ?_⟩
        rw [hsplit, filter_append, hunmarked, append_nil]
  obtain ⟨rest, hrest, hkept⟩ := hkept
  exact ⟨⟨below, rest, opsAbove, opsBelow, endingAbove, endingBelow, hkept, hrest, hops, habove,
    hbelow', hstopped', hbegins⟩⟩

namespace BodyLines

variable {body : Text} {ops : List (Nat × Op)} (lines : BodyLines body ops)

theorem no_ops_below {n : Nat}
    (h : opNums n lines.below = opNums n (lines.below.filter (!isBeginLine ·))) :
    lines.below.any isOpLine = false := by
  cases hbelow : lines.below with
  | nil => rfl
  | cons first below =>
    have hbegin : isBeginLine first = true := lines.below_begins first (by rw [hbelow]; rfl)
    have hop : isOpLine first = false := by
      rw [Bool.eq_false_iff]
      intro hop
      have hmarker := isEnvelopeOrAbortMarkerLine_of_isOpLine hop
      rw [(isEnvelopeOrAbortMarkerLine_iff first).2 (.inl hbegin)] at hmarker
      cases hmarker
    rw [hbelow, filter_cons, hbegin, if_neg (by simp), opNums, hop] at h
    rw [any_cons, hop, Bool.false_or, ← @opNums_eq_nil (n + 1)]
    cases hnums : opNums (n + 1) below with
    | nil => rfl
    | cons k ks =>
      obtain ⟨k', ks', hhigher, hlt⟩ := opNums_filter_lt (Nat.lt_succ_self n) hnums
      rw [hnums, hhigher] at h
      have heq := (List.cons.inj h).1
      omega

theorem of_no_ops_below (h : lines.below.any isOpLine = false) :
    lines.opsAbove = ops ∧ ∀ line ∈ lines.below.filter (!isBeginLine ·), isBlank line = true := by
  have hnums := lines.below_reads.opNums_eq lines.below_stopped
  rw [opNums_eq_nil.2 h, map_eq_nil_iff] at hnums
  have hops := lines.ops_eq
  rw [hnums, append_nil] at hops
  refine ⟨hops.symm, fun line hline => ?_⟩
  obtain ⟨hmem, hbegin⟩ := mem_filter.1 hline
  rcases lines.below_reads.no_ops lines.below_stopped hnums line hmem with hblank | rfl
  · exact hblank
  · exact absurd hbegin (by decide)

theorem opNums_kept (n : Nat) : opNums n (sectionLines (splitLinesCrlf body)) =
    opNums n (unmarkedLines body) ++
      opNums (n + (unmarkedLines body).length) (lines.below.filter (!isBeginLine ·)) := by
  have hrest : ∀ m, opNums m lines.rest = [] := by
    intro m
    rcases lines.rest_eq with h | h
    · rw [h]
      rfl
    · rw [h]
      rfl
  rw [lines.kept_eq, opNums_append, opNums_append, hrest, append_nil]

end BodyLines

theorem forall_mem_dropWhile_concat {α : Type} {p : α → Bool} {P : α → Prop} (xs : List α) {x : α}
    (hx : P x) : (∀ a ∈ (xs ++ [x]).dropWhile p, P a) ↔ ∀ a ∈ xs.dropWhile p, P a := by
  rw [dropWhile_append]
  split
  · next hnil =>
    rw [List.isEmpty_iff] at hnil
    rw [hnil]
    refine iff_of_true (fun a ha => ?_) fun a ha => (not_mem_nil ha).elim
    rw [mem_singleton.1 ((dropWhile_suffix p).subset ha)]
    exact hx
  · simp only [mem_append, mem_singleton]
    exact ⟨fun h a ha => h a (.inl ha), fun h a ha => ha.elim (h a) fun heq => heq ▸ hx⟩

theorem forall_rejoined_iff (kept : List Text) :
    (∀ pair ∈ ((dropEmptyLast kept).zip (rejoined kept)).dropWhile fun pair => isBlank pair.1,
        isPayloadTerminatorLine pair.1 = false → pair.2 = pair.1) ↔
      ∀ line ∈ kept.dropLast.dropWhile isBlank, isPayloadTerminatorLine line = true ∨
        line.getLast? ≠ some '\r' := by
  have hmap : ∀ above : List Text, above.zip (above.map dropCarriageReturn) =
      above.map fun line => (line, dropCarriageReturn line) := by
    intro above
    induction above with
    | nil => rfl
    | cons line above ih => rw [map_cons, zip_cons_cons, map_cons, ih]
  have habove : ∀ above : List Text,
      (∀ pair ∈ (above.zip (above.map dropCarriageReturn)).dropWhile
          fun pair => isBlank pair.1,
        isPayloadTerminatorLine pair.1 = false → pair.2 = pair.1) ↔
      ∀ line ∈ above.dropWhile isBlank, isPayloadTerminatorLine line = true ∨
        line.getLast? ≠ some '\r' := by
    intro above
    rw [hmap, dropWhile_map, forall_mem_map]
    refine forall₂_congr fun line _ => ?_
    rw [dropCarriageReturn_eq_self_iff]
    cases isPayloadTerminatorLine line <;> simp
  rcases eq_nil_or_concat kept with rfl | ⟨above, last, rfl⟩
  · exact habove []
  rw [concat_eq_append, dropLast_concat]
  by_cases hnil : last = []
  · rw [hnil, (rejoined_empty above).1, (rejoined_empty above).2]
    exact habove above
  · rw [(rejoined_concat above hnil).1, (rejoined_concat above hnil).2, zip_append (by simp),
      zip_cons_cons, zip_nil_right, forall_mem_dropWhile_concat _ fun _ => rfl]
    exact habove above

variable {n : Nat} {ending : Ending}

theorem Reads.unmarked_stopped {lines : List Text}
    (h : Reads n lines ops ending) (hunmarked : Unmarked lines) : ending.stopped = false := by
  rw [h.unmarked hunmarked]
  split <;> rfl

theorem Reads.unique {lines : List Text} {ops ops' : List (Nat × Op)}
    {ending' : Ending} (h : Reads n lines ops ending) (h' : Reads n lines ops' ending') :
    ops = ops' := by
  have heq := (h.parseOps_eq (Nat.le_refl _)).symm.trans (h'.parseOps_eq (Nat.le_refl _))
  exact (mk.inj (ok.inj heq)).1

section Body

variable {body : Text} {ops : List (Nat × Op)}

theorem BodyLines.opNums_ops (lines : BodyLines body ops) :
    ops.map fst = opNums 1 (unmarkedLines body) ++ opNums
      (1 + (unmarkedLines body).length) lines.below := by
  have hops := congrArg (List.map fst) lines.ops_eq
  have habove := lines.above_reads.unmarked_stopped (unmarked_unmarkedLines body)
  rw [hops, map_append, lines.above_reads.opNums_eq habove,
    lines.below_reads.opNums_eq lines.below_stopped]

theorem BodyLines.no_ops_of_filter (lines : BodyLines body ops)
    (h : (lines.below.filter (!isBeginLine ·)).any isOpLine = false) :
    lines.below.any isOpLine = false := by
  rw [any_eq_false] at h ⊢
  intro line hline hop
  refine h line (mem_filter.2 ⟨hline, ?_⟩) hop
  cases hbegin : isBeginLine line with
  | true =>
    have hmarker := isEnvelopeOrAbortMarkerLine_of_isOpLine hop
    rw [(isEnvelopeOrAbortMarkerLine_iff line).2 (.inl hbegin)] at hmarker
    cases hmarker
  | false => rfl

theorem length_eq_of_reads {lines lines' kept : List Text} {ops : List (Nat × Op)}
    (h : Reads 1 lines ops .inPayload) (h' : Reads 1 lines' ops .inPayload)
    (hkept : lines <+: kept) (hlines' : List.Forall₂ MayDropReturn (dropEmptyLast kept) lines') :
    lines'.length = lines.length := by
  obtain ⟨above, ending, line, head, payload, opsAbove, rfl, -, -, hhead, -, -, hops⟩ := h.inPayload
  obtain ⟨above', ending', line', head', payload', opsAbove', rfl, -, -, hhead', -, -, hops'⟩ :=
    h'.inPayload
  have hlast := append_inj' (hops.symm.trans hops') rfl
  have hpair := (List.cons.inj hlast.2).1
  have hlength : above.length = above'.length := by
    have hnumber := congrArg fst hpair
    omega
  -- both operation lines come from the same line
  have hline : MayDropReturn line line' := by
    have hi : above.length < (dropEmptyLast kept).length := by
      rw [hlines'.length_eq, length_append, length_cons]
      omega
    have hi' : above.length < (above' ++ line' :: payload').length := by
      rw [← hlines'.length_eq]
      exact hi
    have hpair := hlines'.get hi hi'
    have hright : (above' ++ line' :: payload').get ⟨above.length, hi'⟩ = line' := by
      simp [hlength]
    have hleft : (dropEmptyLast kept).get ⟨above.length, hi⟩ = line := by
      have hkept' := (dropEmptyLast_isPrefix kept).getElem hi
      have hline := hkept.getElem (i := above.length) (by simp)
      rw [get_eq_getElem, hkept', ← hline]
      simp
    rw [hleft, hright] at hpair
    exact hpair
  have hsame : head = head' := by
    rw [hline.readHead_eq, hhead] at hhead'
    exact Option.some.inj hhead'
  subst hsame
  have hpayload : payload = payload' := head.op_injective (congrArg snd hpair)
  rw [length_append, length_append, length_cons, length_cons, hlength, hpayload]

variable {ending : Ending}

theorem rejoined_reads_iff (h : Reads 1 (diffLines body) ops ending)
    (hop : (sectionLines (splitLinesCrlf body)).any isOpLine = true) :
    (∃ ending', Reads 1 (rejoined (sectionLines (splitLinesCrlf body))) ops ending') ↔
      dropEmptyLast (sectionLines (splitLinesCrlf body)) = unmarkedLines body ∧
        ∀ line ∈ (sectionLines (splitLinesCrlf body)).dropLast.dropWhile isBlank,
          isPayloadTerminatorLine line = true ∨ line.getLast? ≠ some '\r' := by
  obtain ⟨lines⟩ := h.bodyLines
  have hkept := lines.kept_eq
  have hnums := lines.opNums_kept 1
  have hunmarked := unmarked_sectionLines (splitLinesCrlf body)
  generalize sectionLines (splitLinesCrlf body) = kept at *
  have hforall := forall₂_rejoined kept
  have hbody := unmarked_unmarkedLines body
  constructor
  · rintro ⟨ending', hreads⟩
    have hending' := hreads.unmarked (unmarked_rejoined hunmarked)
    have hops := hreads.opNums_eq (hreads.unmarked_stopped (unmarked_rejoined hunmarked))
    rw [opNums_forall₂ hforall, opNums_dropEmptyLast, hnums, lines.opNums_ops] at hops
    have hnone := lines.no_ops_below (append_cancel_left hops)
    obtain ⟨habove, -⟩ := lines.of_no_ops_below hnone
    have hreadsAbove := lines.above_reads
    rw [habove] at hreadsAbove
    have hne : ops ≠ [] := by
      rintro rfl
      have hnil : opNums 1 kept = [] := by
        rw [hnums, ← hops, ← lines.opNums_ops]
        rfl
      rw [opNums_eq_nil, hop] at hnil
      cases hnil
    have hendingAbove := hreadsAbove.unmarked hbody
    rw [if_neg hne] at hending' hendingAbove
    rw [hending'] at hreads
    rw [hendingAbove] at hreadsAbove
    have hlength := length_eq_of_reads hreadsAbove hreads (hkept ▸ prefix_append _ _) hforall
    have hsame : dropEmptyLast kept = unmarkedLines body := by
      apply List.IsPrefix.eq_of_length _ (hforall.length_eq.trans hlength)
      apply prefix_of_prefix_length_le (dropEmptyLast_isPrefix kept)
        (hkept ▸ prefix_append _ _)
      exact Nat.le_of_eq (hforall.length_eq.trans hlength)
    refine ⟨hsame, ?_⟩
    rw [← hsame] at hreadsAbove hbody
    obtain ⟨ops', hreads', hiff⟩ := hreadsAbove.mayDropReturn hbody hforall
    exact (forall_rejoined_iff kept).1 (hiff.1 (hreads'.unique hreads))
  · rintro ⟨hsame, hreturn⟩
    have hfilter : (lines.below.filter (!isBeginLine ·)).any isOpLine = false := by
      rw [← @opNums_eq_nil (1 + (unmarkedLines body).length)]
      have hnums' := hnums
      rw [← opNums_dropEmptyLast, hsame] at hnums'
      exact append_right_eq_self.1 hnums'.symm
    obtain ⟨habove, -⟩ := lines.of_no_ops_below (lines.no_ops_of_filter hfilter)
    have hreadsAbove := lines.above_reads
    rw [habove, ← hsame] at hreadsAbove
    rw [← hsame] at hbody
    obtain ⟨ops', hreads', hiff⟩ := hreadsAbove.mayDropReturn hbody hforall
    rw [hiff.2 ((forall_rejoined_iff kept).2 hreturn)] at hreads'
    exact ⟨_, hreads'⟩

theorem BodyLines.of_no_ops (lines : BodyLines body ops)
    (h : (sectionLines (splitLinesCrlf body)).any isOpLine = false) :
    ops = [] ∧ ∀ line ∈ sectionLines (splitLinesCrlf body), isBlank line = true := by
  rw [← @opNums_eq_nil 1, lines.opNums_kept, append_eq_nil_iff] at h
  have hnone := lines.no_ops_of_filter (opNums_eq_nil.1 h.2)
  obtain ⟨habove, hbelow⟩ := lines.of_no_ops_below hnone
  have hops : ops = [] := by
    have hnums := lines.opNums_ops
    rw [h.1, opNums_eq_nil.2 hnone] at hnums
    exact map_eq_nil_iff.1 hnums
  have hunmarked := unmarked_unmarkedLines body
  have hreads := lines.above_reads
  rw [habove] at hreads
  refine ⟨hops, fun line hline => ?_⟩
  rw [lines.kept_eq, mem_append, mem_append] at hline
  rcases hline with hline | hline | hline
  · rcases hreads.no_ops (hreads.unmarked_stopped hunmarked) hops line hline with hblank | rfl
    · exact hblank
    · exact absurd (hunmarked _ hline) (by decide)
  · exact hbelow line hline
  · rcases lines.rest_eq with hrest | hrest
    · rw [hrest] at hline
      exact (not_mem_nil hline).elim
    · rw [hrest, mem_singleton] at hline
      rw [hline]
      rfl

theorem newline_not_mem_splitLinesCrlf {line : Text} (h : line ∈ splitLinesCrlf body) :
    '\n' ∉ line := by
  rcases mem_append.1 h with hline | hline
  · obtain ⟨line', hline', rfl⟩ := mem_map.1 hline
    intro hmem
    apply newline_not_mem_of_mem_splitLines (dropLast_subset _ hline')
    rcases eq_of_dropCarriageReturn line' with heq | heq
    · exact heq ▸ hmem
    · rw [heq]
      exact mem_append_left _ hmem
  · exact newline_not_mem_of_mem_splitLines (mem_of_getLast? (Option.mem_toList.1 hline))

theorem Ending.warnings_eq_nil : ending.warnings = [] ↔ ending ≠ .abort := by
  cases ending <;> simp [warnings]

theorem parseSections_singleton (s : HashlineInputSection) :
    parseSections [s] = parseHashlineWithWarnings s.diff := by
  show (parseHashlineWithWarnings s.diff >>= fun parsed => _) = _
  cases parseHashlineWithWarnings s.diff with
  | error e => rfl
  | ok parsed =>
    show ok (parsed.1 ++ [], parsed.2 ++ []) = _
    rw [append_nil, append_nil]

end Body

/-- A header and a body without header come out of the front end as the edits and warnings of the
body exactly if the body survives the splitter. -/
theorem frontEnd_agrees_iff {env : Tools.PathEnv} {cwd p path body : Text} (hp : '\n' ∉ p)
    (hheader : parseHashlineHeaderLine env cwd (HL_FILE_PREFIX :: p) = .ok (some path))
    (hbody : ∀ line ∈ splitLinesCrlf body, line.head? ≠ some HL_FILE_PREFIX)
    (fallback : Option Text) {edits : List Edit} {warnings : List Text}
    (hparse : parseHashlineWithWarnings body = .ok (edits, warnings)) :
    (∃ sections,
        splitHashlineInputs env cwd (HL_FILE_PREFIX :: (p ++ '\n' :: body)) fallback =
          .ok sections ∧
          parseSections sections = .ok (edits, warnings)) ↔ SurvivesSplit body := by
  obtain ⟨ops, ending, hreads, rfl, rfl⟩ := parses_iff.1 hparse
  obtain ⟨lines⟩ := hreads.bodyLines
  have hending : diffEnding body = ending := hreads.endingFrom_eq
  have hpath := ne_nil_of_parseHashlineHeaderLine hheader
  have hnewline : ∀ line ∈ sectionLines (splitLinesCrlf body), '\n' ∉ line := by
    intro line hline
    have hmem := ( takeWhile_prefix _).subset (mem_of_mem_filter hline)
    exact newline_not_mem_splitLinesCrlf hmem
  have hunmarked := unmarked_sectionLines (splitLinesCrlf body)
  rw [splitHashlineInputs_body hp hheader hbody]
  unfold SurvivesSplit
  dsimp only
  rw [hending, ← Ending.warnings_eq_nil]
  have hiff : (∃ sections, ok (ε := InputError)
        (flushSection path (sectionLines (splitLinesCrlf body))) = .ok sections ∧
        parseSections sections = .ok (opsEdits 0 ops, ending.warnings)) ↔
      parseSections (flushSection path (sectionLines (splitLinesCrlf body))) =
        .ok (opsEdits 0 ops, ending.warnings) := by
    constructor
    · rintro ⟨sections, heq, hsections⟩
      rw [ok.inj heq]
      exact hsections
    · exact fun h => ⟨_, rfl, h⟩
  rw [hiff]
  cases hop : (sectionLines (splitLinesCrlf body)).any isOpLine with
  | false =>
    -- nothing but blank lines is kept, so there is no section
    obtain ⟨rfl, hblank⟩ := lines.of_no_ops hop
    have hnone : ¬(path ≠ [] ∧ (sectionLines (splitLinesCrlf body)).any (!isBlank ·) = true) := by
      rintro ⟨-, hsome⟩
      obtain ⟨line, hline, hnot⟩ := any_eq_true.1 hsome
      rw [hblank line hline] at hnot
      cases hnot
    rw [flushSection, if_neg hnone]
    show ok ([], []) = ok (opsEdits 0 [], ending.warnings) ↔ _
    rw [ok.injEq, mk.injEq]
    exact ⟨fun h => ⟨h.2.symm, .inl rfl⟩, fun h => ⟨rfl, h.1.symm⟩⟩
  | true =>
    have hsome : (sectionLines (splitLinesCrlf body)).any (!isBlank ·) = true := by
      obtain ⟨line, hline, hopLine⟩ := any_eq_true.1 hop
      refine any_eq_true.2 ⟨line, hline, ?_⟩
      cases hblank : isBlank line with
      | true =>
        rw [isOpLine_eq_false (not_isPayloadTerminatorLine_of_isBlank hblank)] at hopLine
        cases hopLine
      | false => rfl
    rw [flushSection, if_pos ⟨hpath, hsome⟩, parseSections_singleton, parses_iff,
      diffLines_joinLines hnewline hsome, or_iff_right (by simp), ← rejoined_reads_iff hreads hop]
    constructor
    · rintro ⟨ops', ending', hreads', hedits, hwarnings⟩
      have hnot := hreads'.unmarked_stopped (unmarked_rejoined hunmarked)
      have hnone : ending'.warnings = [] := by
        rw [Ending.warnings_eq_nil]
        rintro rfl
        cases hnot
      have hops :=
        opsEdits_injective hreads.spec.1 hreads.spec.2 hreads'.spec.1 hreads'.spec.2 hedits
      rw [← hops] at hreads'
      exact ⟨hwarnings.trans hnone, ending', hreads'⟩
    · rintro ⟨hwarnings, ending', hreads'⟩
      have hnot := hreads'.unmarked_stopped (unmarked_rejoined hunmarked)
      have hnone : ending'.warnings = [] := by
        rw [Ending.warnings_eq_nil]
        rintro rfl
        cases hnot
      exact ⟨ops, ending', hreads', rfl, hwarnings.trans hnone.symm⟩

/-- An insertion comes through. -/
theorem frontEnd_agrees_insert :
    ∃ sections, splitHashlineInputs ⟨[], [], fun _ => none⟩ [] "§a\n»1hs\nfoo\n".toList none =
        .ok sections ∧
      parseSections sections = .ok (diffEdits "»1hs\nfoo\n".toList, []) := by
  have hheader : parseHashlineHeaderLine ⟨[], [], fun _ => none⟩ [] (HL_FILE_PREFIX :: ['a']) =
      .ok (some ['a']) := by decide +kernel
  have hinput : "§a\n»1hs\nfoo\n".toList =
      HL_FILE_PREFIX :: (['a'] ++ '\n' :: "»1hs\nfoo\n".toList) := by decide +kernel
  have hbody : ∀ line ∈ splitLinesCrlf "»1hs\nfoo\n".toList,
      line.head? ≠ some HL_FILE_PREFIX := by decide +kernel
  have hparse : parseHashlineWithWarnings "»1hs\nfoo\n".toList =
      .ok (diffEdits "»1hs\nfoo\n".toList, []) := by decide +kernel
  rw [hinput, frontEnd_agrees_iff (by decide) hheader hbody none hparse]
  have hkept : sectionLines (splitLinesCrlf "»1hs\nfoo\n".toList) =
      ["»1hs".toList, "foo".toList, []] := by decide +kernel
  exact ⟨by decide +kernel, .inr ⟨by decide +kernel, by decide +kernel⟩⟩

/-- The splitter takes an Abort marker away before the parser can warn of it. -/
theorem frontEnd_loses_abort :
    parseHashlineWithWarnings "»1hs\nfoo\n*** Abort\n".toList =
        .ok (diffEdits "»1hs\nfoo\n*** Abort\n".toList, [ABORT_WARNING]) ∧
      ∃ sections,
        splitHashlineInputs ⟨[], [], fun _ => none⟩ [] "§a\n»1hs\nfoo\n*** Abort\n".toList none =
          .ok sections ∧
        parseSections sections = .ok (diffEdits "»1hs\nfoo\n*** Abort\n".toList, []) := by
  exact ⟨by decide +kernel, [⟨['a'], "»1hs\nfoo".toList⟩], by decide +kernel, by decide +kernel⟩

end Vibrato.Hashline
