import Vibrato.Edit.ApplyPatch

/-! The streaming mode of the `apply_patch` parser.  It reads a patch while it is being written, so
its text ends anywhere. -/

namespace Vibrato.Edit

open List Text

inductive PatchHeader where
  | blank
  | add (path : Text)
  | delete (path : Text)
  | update (path : Text)
  | invalid

def patchHeader (line : Text) : PatchHeader :=
  let firstLine := trim line
  if isBlank line then .blank
  else if startsWith firstLine ADD_FILE_MARKER then .add (firstLine.drop ADD_FILE_MARKER.length)
  else if startsWith firstLine DELETE_FILE_MARKER then
    .delete (firstLine.drop DELETE_FILE_MARKER.length)
  else if startsWith firstLine UPDATE_FILE_MARKER then
    .update (firstLine.drop UPDATE_FILE_MARKER.length)
  else .invalid

theorem length_takeAdded_le (lines : List Text) : (takeAdded lines).2.length ≤ lines.length := by
  induction lines with
  | nil => exact Nat.le_refl 0
  | cons line lines ih =>
    unfold takeAdded
    split
    · next heq =>
      cases heq
      exact Nat.le_succ_of_le ih
    · exact Nat.le_refl _

theorem length_takeMove_le (lines : List Text) : (takeMove lines).2.length ≤ lines.length := by
  cases lines with
  | nil => exact Nat.le_refl 0
  | cons line lines =>
    unfold takeMove
    dsimp only
    split
    · exact Nat.le_succ _
    · exact Nat.le_refl _

def updateOp (path : Text) (movePath : Option Text) (diffLines : List Text) : PatchInput :=
  ⟨path, .update, movePath, some (joinLines diffLines)⟩

def createOp (path contents : Text) : PatchInput := ⟨path, .create, none, some contents⟩

def deleteOp (path : Text) : PatchInput := ⟨path, .delete, none, none⟩

def streamOps : List Text → List PatchInput
  | [] => []
  | line :: rest =>
    match patchHeader line with
    | .blank => streamOps rest
    | .add path => createOp path (takeAdded rest).1 :: streamOps (takeAdded rest).2
    | .delete path => deleteOp path :: streamOps rest
    | .update path =>
      updateOp path (takeMove rest).1 ((takeMove rest).2.takeWhile (!isFileOpLine ·)) ::
        streamOps ((takeMove rest).2.dropWhile (!isFileOpLine ·))
    | .invalid => []
termination_by lines => lines.length
decreasing_by
  · exact Nat.lt_succ_self _
  · exact Nat.lt_succ_of_le (length_takeAdded_le rest)
  · exact Nat.lt_succ_self _
  · exact Nat.lt_succ_of_le (Nat.le_trans (dropWhile_sublist _).length_le (length_takeMove_le rest))

variable {fuel lineNumber : Nat} {later lines middle rest tail : List Text} {ops : List PatchInput}
  {first last line text whole : Text}

theorem parsePatchOps_streaming (hfuel : lines.length ≤ fuel)
    (lineNumber : Nat) : parsePatchOps true fuel lineNumber lines = .ok (streamOps lines) := by
  induction fuel generalizing lines lineNumber with
  | zero =>
    obtain rfl := eq_nil_of_length_eq_zero (Nat.le_zero.1 hfuel)
    rw [parsePatchOps, streamOps]
  | succ fuel ih =>
    cases lines with
    | nil => rw [parsePatchOps, streamOps]; simp
    | cons line rest =>
      have hrest : rest.length ≤ fuel := Nat.le_of_succ_le_succ hfuel
      have hadded := Nat.le_trans (length_takeAdded_le rest) hrest
      have hmove := Nat.le_trans (Nat.le_trans (dropWhile_sublist (!isFileOpLine ·)).length_le
        (length_takeMove_le rest)) hrest
      rw [parsePatchOps, streamOps, patchHeader]
      dsimp only
      split
      · exact ih hrest _
      · split
        · rw [ih hadded]
          rfl
        · split
          · rw [ih hrest]
            rfl
          · split
            · rw [ih hmove]
              simp
              rfl
            · rfl

theorem parsePatchOps_of_strict (h : parsePatchOps false fuel lineNumber lines = .ok ops) :
    parsePatchOps true fuel lineNumber lines = .ok ops := by
  induction fuel generalizing lines lineNumber ops with
  | zero =>
    exact h
  | succ fuel ih =>
    cases lines with
    | nil => rw [parsePatchOps] at h ⊢ <;> first | exact h | simp
    | cons line rest =>
      rw [parsePatchOps] at h ⊢
      dsimp only at h ⊢
      split at h
      · next hblank =>
        rw [if_pos hblank]
        exact ih h
      · next hblank =>
        rw [if_neg hblank]
        split at h
        · next hadd =>
          rw [if_pos hadd]
          obtain ⟨later, hlater, heq⟩ := bind_eq_ok.1 h
          rw [ih hlater]
          exact heq
        · next hadd =>
          rw [if_neg hadd]
          split at h
          · next hdelete =>
            rw [if_pos hdelete]
            obtain ⟨later, hlater, heq⟩ := bind_eq_ok.1 h
            rw [ih hlater]
            exact heq
          · next hdelete =>
            rw [if_neg hdelete]
            split at h
            · next hupdate =>
              rw [if_pos hupdate]
              split at h
              · cases h
              · rw [if_neg (by simp)]
                obtain ⟨later, hlater, heq⟩ := bind_eq_ok.1 h
                rw [ih hlater]
                exact heq
            · cases h

theorem streamOps_of_parsePatchOps
    (hfuel : lines.length ≤ fuel) (h : parsePatchOps false fuel lineNumber lines = .ok ops) :
    streamOps lines = ops := by
  have hstreaming := parsePatchOps_of_strict h
  rw [parsePatchOps_streaming hfuel] at hstreaming
  exact Except.ok.inj hstreaming

def PatchHeader.isOp : PatchHeader → Bool
  | add _ | delete _ | update _ => true
  | blank | invalid => false

/-- How a text that ends early goes on after its complete lines, where the patch goes on with
`rest`: not at all, or with the first part of a line.  If this part reads as a header, then the line
is not missing. -/
inductive Cut : List Text → List Text → Prop
  | complete (rest : List Text) : Cut [] rest
  | part (line : Text) (rest : List Text)
      (h : (patchHeader line).isOp = true → ∃ whole later, rest = whole :: later ∧ line <+: whole) :
      Cut [line] rest

theorem streamOps_of_not_isOp (h : (patchHeader line).isOp = false) : streamOps [line] = [] := by
  rw [streamOps]
  split
  · rw [streamOps]
  · next hadd =>
    rw [hadd] at h
    cases h
  · next hdelete =>
    rw [hdelete] at h
    cases h
  · next hupdate =>
    rw [hupdate] at h
    cases h
  · rfl

theorem dropLast_streamOps_singleton (line : Text) : (streamOps [line]).dropLast = [] := by
  have hnil : streamOps [] = [] := by rw [streamOps]
  rw [streamOps]
  split
  · rw [hnil]
    rfl
  · rw [takeAdded]
    · rw [hnil]
      rfl
    · simp
  · rw [hnil]
    rfl
  · rw [takeMove, dropWhile_nil, hnil]
    rfl
  · rfl

theorem dropLast_streamOps_cut (h : Cut tail rest) : (streamOps tail).dropLast = [] := by
  cases h with
  | complete => rw [streamOps]; rfl
  | part line _ _ => exact dropLast_streamOps_singleton line

theorem dropLast_cons_isPrefix {α : Type} {x : α} {xs ys : List α} (h : xs.dropLast <+: ys) :
    (x :: xs).dropLast <+: x :: ys := by
  cases xs with
  | nil => exact nil_prefix
  | cons y xs =>
    exact cons_prefix_cons.2 ⟨rfl, h⟩

theorem takeAdded_cons (h : line.head? ≠ some '+') (lines : List Text) :
    takeAdded (line :: lines) = ([], line :: lines) := by
  unfold takeAdded
  split
  · next heq =>
    cases heq
    exact absurd rfl h
  · rfl

theorem takeAdded_append (lines later : List Text) :
    takeAdded (lines ++ later) =
      if (takeAdded lines).2 = [] then ((takeAdded lines).1 ++ (takeAdded later).1,
        (takeAdded later).2)
      else ((takeAdded lines).1, (takeAdded lines).2 ++ later) := by
  induction lines with
  | nil => rfl
  | cons line lines ih =>
    by_cases hplus : line.head? = some '+'
    · obtain ⟨text, rfl⟩ := head?_eq_some_iff.1 hplus
      rw [cons_append, takeAdded, ih, takeAdded]
      dsimp only
      split
      · rw [append_assoc, cons_append]
      · rfl
    · rw [cons_append, takeAdded_cons hplus, takeAdded_cons hplus]
      rfl

theorem ne_nil_of_isOp (h : (patchHeader line).isOp = true) : line ≠ [] := by
  rintro rfl
  cases h

theorem createOp_cut (h : Cut tail rest) (path contents : Text) :
    (createOp path (contents ++ (takeAdded tail).1) :: streamOps (takeAdded tail).2).dropLast <+:
      createOp path (contents ++ (takeAdded rest).1) :: streamOps (takeAdded rest).2 := by
  have hnil : streamOps [] = [] := by rw [streamOps]
  cases h with
  | complete =>
    have hnone : takeAdded [] = ([], []) := rfl
    rw [hnone, hnil]
    exact nil_prefix
  | part line rest hop =>
    by_cases hplus : line.head? = some '+'
    · obtain ⟨text, rfl⟩ := head?_eq_some_iff.1 hplus
      have htaken : takeAdded [ '+' :: text] = (text ++ ['\n'], []) := rfl
      rw [htaken, hnil]
      exact nil_prefix
    · rw [takeAdded_cons hplus]
      cases hheader : (patchHeader line).isOp with
      | false =>
        rw [streamOps_of_not_isOp hheader]
        exact nil_prefix
      | true =>
        obtain ⟨whole, later, rfl, hwhole⟩ := hop hheader
        have hhead : whole.head? ≠ some '+' := by
          obtain ⟨c, text, rfl⟩ := exists_cons_of_ne_nil (ne_nil_of_isOp hheader)
          obtain ⟨more, rfl⟩ := hwhole
          exact hplus
        rw [takeAdded_cons hhead]
        refine dropLast_cons_isPrefix ?_
        rw [dropLast_streamOps_singleton]
        exact nil_prefix

theorem isFileOpLine_of_isPrefix (hwhole : line <+: whole)
    (h : isFileOpLine line = true) : isFileOpLine whole = true := by
  unfold isFileOpLine at h ⊢
  rw [any_eq_true] at h ⊢
  obtain ⟨marker, hmarker, hstarts⟩ := h
  refine ⟨marker, hmarker, ?_⟩
  exact isPrefixOf_iff_prefix.2 (( isPrefixOf_iff_prefix.1 hstarts).trans hwhole)

theorem not_startsWith_move (h : isFileOpLine line = true) :
    startsWith line MOVE_TO_MARKER = false := by
  obtain ⟨marker, hmarker, hstarts⟩ := any_eq_true.1 h
  obtain ⟨rest, rfl⟩ := isPrefixOf_iff_prefix.1 hstarts
  simp only [mem_cons, not_mem_nil, or_false] at hmarker
  rcases hmarker with rfl | rfl | rfl <;> rfl

theorem updateOp_cut (h : Cut tail rest) (path : Text) (movePath : Option Text) (body : List Text) :
    (updateOp path movePath (body ++ tail.takeWhile (!isFileOpLine ·)) ::
        streamOps (tail.dropWhile (!isFileOpLine ·))).dropLast <+:
      updateOp path movePath (body ++ rest.takeWhile (!isFileOpLine ·)) ::
        streamOps (rest.dropWhile (!isFileOpLine ·)) := by
  have hnil : streamOps [] = [] := by rw [streamOps]
  cases h with
  | complete =>
    rw [dropWhile_nil, hnil]
    exact nil_prefix
  | part line rest hop =>
    cases hfile : isFileOpLine line with
    | false =>
      rw [dropWhile_cons_of_pos (by simp [hfile]), dropWhile_nil, hnil]
      exact nil_prefix
    | true =>
      rw [takeWhile_cons_of_neg (by simp [hfile]), dropWhile_cons_of_neg (by simp [hfile])]
      cases hheader : (patchHeader line).isOp with
      | false =>
        rw [streamOps_of_not_isOp hheader]
        exact nil_prefix
      | true =>
        obtain ⟨whole, later, rfl, hwhole⟩ := hop hheader
        have hnext := isFileOpLine_of_isPrefix hwhole hfile
        rw [takeWhile_cons_of_neg (by simp [hnext])]
        refine dropLast_cons_isPrefix ?_
        rw [dropLast_streamOps_singleton]
        exact nil_prefix

theorem update_cut (h : Cut tail rest) (path : Text) :
    (updateOp path (takeMove tail).1 ((takeMove tail).2.takeWhile (!isFileOpLine ·)) ::
        streamOps ((takeMove tail).2.dropWhile (!isFileOpLine ·))).dropLast <+:
      updateOp path (takeMove rest).1 ((takeMove rest).2.takeWhile (!isFileOpLine ·)) ::
        streamOps ((takeMove rest).2.dropWhile (!isFileOpLine ·)) := by
  have hnil : streamOps [] = [] := by rw [streamOps]
  cases h with
  | complete =>
    rw [takeMove, dropWhile_nil, hnil]
    exact nil_prefix
  | part line rest hop =>
    by_cases hmove : startsWith line MOVE_TO_MARKER = true
    · rw [takeMove, if_pos hmove, dropWhile_nil, hnil]
      exact nil_prefix
    · rw [takeMove, if_neg hmove]
      cases hfile : isFileOpLine line with
      | false =>
        rw [dropWhile_cons_of_pos (by simp [hfile]), dropWhile_nil, hnil]
        exact nil_prefix
      | true =>
        cases hheader : (patchHeader line).isOp with
        | false =>
          rw [dropWhile_cons_of_neg (by simp [hfile]), streamOps_of_not_isOp hheader]
          exact nil_prefix
        | true =>
          obtain ⟨whole, later, rfl, hwhole⟩ := hop hheader
          have hnext := not_startsWith_move (isFileOpLine_of_isPrefix hwhole hfile)
          have hcut : Cut [line] (whole :: later) :=
            .part line _ fun _ => ⟨whole, later, rfl, hwhole⟩
          rw [takeMove, hnext]
          exact updateOp_cut hcut path none []

theorem takeMove_append (hne : lines ≠ []) (later : List Text) :
    takeMove (lines ++ later) = ((takeMove lines).1, (takeMove lines).2 ++ later) := by
  obtain ⟨line, lines, rfl⟩ := exists_cons_of_ne_nil hne
  rw [cons_append, takeMove, takeMove]
  split <;> rfl

theorem dropLast_streamOps_append (lines : List Text) (h : Cut tail rest) :
    (streamOps (lines ++ tail)).dropLast <+: streamOps (lines ++ rest) := by
  induction hn : lines.length using Nat.strong_induction_on generalizing lines with
  | _ n ih =>
  cases lines with
  | nil =>
    rw [nil_append, dropLast_streamOps_cut h]
    exact nil_prefix
  | cons line lines =>
    rw [length_cons] at hn
    rw [cons_append, cons_append, streamOps, streamOps]
    cases patchHeader line with
    | blank => exact ih lines.length (by omega) lines rfl
    | add path =>
      dsimp only
      rw [takeAdded_append, takeAdded_append]
      split
      · exact createOp_cut h path _
      · have hle := length_takeAdded_le lines
        exact dropLast_cons_isPrefix (ih _ (by omega) _ rfl)
    | delete path => exact dropLast_cons_isPrefix (ih lines.length (by omega) lines rfl)
    | update path =>
      by_cases hne : lines = []
      · rw [hne]
        exact update_cut h path
      · rw [takeMove_append hne, takeMove_append hne]
        generalize hbody : (takeMove lines).2 = body
        have hle := length_takeMove_le lines
        rw [hbody] at hle
        rw [takeWhile_append, takeWhile_append, dropWhile_append, dropWhile_append]
        by_cases hall : body.dropWhile (!isFileOpLine ·) = []
        · have hlength : (body.takeWhile (!isFileOpLine ·)).length = body.length := by
            have happend := congrArg List.length
                (takeWhile_append_dropWhile (p := (!isFileOpLine ·)) (l := body))
            rw [hall, append_nil] at happend
            exact happend
          rw [if_pos hlength, if_pos hlength, hall]
          exact updateOp_cut h path _ body
        · have hlength : (body.takeWhile (!isFileOpLine ·)).length ≠ body.length := by
            intro heq
            have happend := congrArg List.length
                (takeWhile_append_dropWhile (p := (!isFileOpLine ·)) (l := body))
            rw [length_append] at happend
            exact hall (eq_nil_of_length_eq_zero (by omega))
          rw [if_neg hlength, if_neg hlength]
          have hdrop := (dropWhile_sublist (!isFileOpLine ·) (l := body)).length_le
          have hempty : (body.dropWhile (!isFileOpLine ·)).isEmpty = false := by simpa using hall
          rw [hempty]
          exact dropLast_cons_isPrefix (ih _ (by omega) _ rfl)
    | invalid => exact nil_prefix

theorem splitLines_of_isPrefix (h : text <+: whole) :
    ∃ lines line whole' later, splitLines text = lines ++ [line] ∧
      splitLines whole = lines ++ whole' :: later ∧ line <+: whole' := by
  obtain ⟨more, rfl⟩ := h
  induction text with
  | nil =>
    obtain ⟨first, later, hlines⟩ := exists_cons_of_ne_nil (splitOn_ne_nil '\n' more)
    exact ⟨[], [], first, later, rfl, hlines, nil_prefix⟩
  | cons c text ih =>
    obtain ⟨lines, line, whole', later, htext, hwhole, hprefix⟩ := ih
    unfold splitLines at htext hwhole ⊢
    rw [cons_append, splitOn_cons_eq_if_modifyHead, splitOn_cons_eq_if_modifyHead, htext, hwhole]
    split
    · exact ⟨[] :: lines, line, whole', later, rfl, rfl, hprefix⟩
    · cases lines with
      | nil =>
          exact ⟨[], c :: line, c :: whole', later, rfl, rfl, cons_prefix_cons.2 ⟨rfl, hprefix⟩⟩
      | cons first lines => exact ⟨(c :: first) :: lines, line, whole', later, rfl, rfl, hprefix⟩

theorem trim_isPrefix (h : text <+: whole) : trim text = [] ∨ trim text <+: trim whole := by
  obtain ⟨more, rfl⟩ := h
  cases hblank : isBlank text with
  | true =>
    left
    have hall : ∀ c ∈ text, isSpace c = true := all_eq_true.1 hblank
    rw [trim, trimStart, dropWhile_eq_nil_iff.2 hall]
    rfl
  | false =>
    right
    have hstart : trimStart (text ++ more) = trimStart text ++ more := by
      have hne : (text.dropWhile isSpace).isEmpty = false := by
        rw [isEmpty_eq_false_iff]
        intro hnil
        have hall : isBlank text = true := all_eq_true.2 (dropWhile_eq_nil_iff.1 hnil)
        rw [hall] at hblank
        cases hblank
      rw [trimStart, dropWhile_append, hne]
      rfl
    rw [trim, trim, hstart]
    cases hmore : isBlank more with
    | true =>
      have hall : ∀ c ∈ more.reverse, isSpace c = true := by
        intro c hc
        exact all_eq_true.1 hmore c (mem_reverse.1 hc)
      have hend : trimEnd (trimStart text ++ more) = trimEnd (trimStart text) := by
        simp only [trimEnd, List.rdropWhile, reverse_append, dropWhile_append_of_pos hall]
      exact hend ▸ prefix_rfl
    | false =>
      rw [trimEnd_append_of_not_isBlank _ hmore]
      exact ( rdropWhile_prefix _ _).trans (prefix_append _ _)

def streamedLines (lines : List Text) : List Text :=
  let lines := stripHeredoc lines
  if (lines.head?.any fun line => trim line = BEGIN_PATCH_MARKER) = true then
    if (lines.getLast?.any fun line => trim line = END_PATCH_MARKER) = true then lines.tail.dropLast
    else lines.tail
  else []

theorem parseApplyPatchStreaming_eq (text : Text) :
    parseApplyPatchStreaming text = .ok (streamOps (streamedLines (splitLines (trim text)))) := by
  have hnil : streamOps [] = [] := by rw [streamOps]
  unfold parseApplyPatchStreaming parseApplyPatchWithOptions streamedLines
  dsimp only
  cases (stripHeredoc (splitLines (trim text))).head?.any
      fun line => trim line = BEGIN_PATCH_MARKER with
  | false =>
    rw [if_pos rfl, if_pos rfl, if_neg Bool.false_ne_true, hnil]
  | true =>
    rw [if_neg (by simp), if_neg (by simp)]
    exact parsePatchOps_streaming (Nat.le_refl _) 2

theorem parseApplyPatch_eq_ok (h : parseApplyPatch text = .ok ops) :
    ∃ first middle last, stripHeredoc (splitLines (trim text)) = first :: (middle ++ [last]) ∧
      trim first = BEGIN_PATCH_MARKER ∧ trim last = END_PATCH_MARKER ∧ streamOps middle = ops := by
  unfold parseApplyPatch parseApplyPatchWithOptions at h
  dsimp only at h
  generalize stripHeredoc (splitLines (trim text)) = lines at h
  cases hbegin : lines.head?.any fun line => trim line = BEGIN_PATCH_MARKER with
  | false =>
    rw [hbegin] at h
    cases h
  | true =>
    cases hend : lines.getLast?.any fun line => trim line = END_PATCH_MARKER with
    | false =>
      rw [hbegin, hend] at h
      cases h
    | true =>
      rw [hbegin, hend] at h
      have hops := streamOps_of_parsePatchOps (Nat.le_refl _) h
      obtain ⟨first, hfirst, hbegins⟩ := (Option.any_eq_true _ _).1 hbegin
      obtain ⟨last, hlast, hends⟩ := (Option.any_eq_true _ _).1 hend
      rw [decide_eq_true_eq] at hbegins hends
      obtain ⟨tail, rfl⟩ := head?_eq_some_iff.1 hfirst
      rcases eq_nil_or_concat' tail with rfl | ⟨middle, last', rfl⟩
      · obtain rfl : first = last := Option.some.inj hlast
        rw [hbegins] at hends
        exact absurd hends (by decide)
      · have heq : last' = last := by
          rw [← cons_append, getLast?_concat] at hlast
          exact Option.some.inj hlast
        rw [tail_cons, dropLast_concat] at hops
        exact ⟨first, middle, last', rfl, hbegins, heq ▸ hends, hops⟩

theorem not_isOp_of_isPrefix_end (hwhole : line <+: whole)
    (hend : trim whole = END_PATCH_MARKER) : (patchHeader line).isOp = false := by
  have hmarker : ∀ marker ∈ [ADD_FILE_MARKER, DELETE_FILE_MARKER, UPDATE_FILE_MARKER],
      startsWith (trim line) marker = false := by
    intro marker hmem
    rw [Bool.eq_false_iff]
    intro hstarts
    have hstarts := isPrefixOf_iff_prefix.1 hstarts
    rcases trim_isPrefix hwhole with hnil | htrim
    · rw [hnil, prefix_nil] at hstarts
      rw [hstarts] at hmem
      exact absurd hmem (by decide)
    · have hlong := hstarts.trans htrim
      rw [hend] at hlong
      simp only [mem_cons, not_mem_nil, or_false] at hmem
      rcases hmem with rfl | rfl | rfl <;> exact absurd hlong (by decide)
  unfold patchHeader
  dsimp only
  split
  · rfl
  · rw [hmarker _ (by simp), hmarker _ (by simp), hmarker _ (by simp)]
    rfl

theorem streamedLines_singleton (line : Text) : streamedLines [line] = [] := by
  have hstrip : stripHeredoc [line] = [line] := if_neg fun h => absurd h.1 (by simp)
  unfold streamedLines
  dsimp only
  split
  · split <;> rfl
  · rfl

theorem not_mem_openers_of_trim (h : trim line = BEGIN_PATCH_MARKER) : line ∉ HEREDOC_OPENERS := by
  intro hmem
  simp only [HEREDOC_OPENERS, mem_cons, not_mem_nil, or_false] at hmem
  rcases hmem with rfl | rfl | rfl <;> exact absurd h (by decide +kernel)

theorem exists_eq_append_of_concat (h : lines ++ line :: later = middle ++ [last]) :
    (later = [] ∧ lines = middle ∧ line = last) ∨ ∃ later', middle = lines ++ line :: later' := by
  rcases eq_nil_or_concat' later with rfl | ⟨later, last', rfl⟩
  · obtain ⟨hlines, hlast⟩ := append_inj' h rfl
    exact .inl ⟨rfl, hlines, (List.cons.inj hlast).1⟩
  · rw [← cons_append, ← append_assoc] at h
    exact .inr ⟨later, (append_inj' h rfl).1.symm⟩

theorem streamedLines_cut (hbegin : trim first = BEGIN_PATCH_MARKER)
    (hend : trim last = END_PATCH_MARKER)
    (heq : lines ++ whole :: later = first :: (middle ++ [last])) (hwhole : line <+: whole) :
    (streamOps (streamedLines (lines ++ [line]))).dropLast <+: streamOps middle := by
  cases lines with
  | nil =>
    rw [nil_append, streamedLines_singleton, streamOps]
    exact nil_prefix
  | cons first' lines =>
    obtain ⟨rfl, htail⟩ := List.cons.inj heq
    have hopener := not_mem_openers_of_trim hbegin
    have hcut : ∃ rest, middle = lines ++ rest ∧ Cut [line] rest := by
      rcases exists_eq_append_of_concat htail with ⟨-, rfl, rfl⟩ | ⟨later', rfl⟩
      · refine ⟨[], (append_nil _).symm, .part line [] fun hop => ?_⟩
        rw [not_isOp_of_isPrefix_end hwhole hend] at hop
        cases hop
      · exact ⟨whole :: later', rfl, .part line _ fun _ => ⟨whole, later', rfl, hwhole⟩⟩
    obtain ⟨rest, rfl, hcut⟩ := hcut
    have hstrip : stripHeredoc (first' :: (lines ++ [line])) = first' :: (lines ++ [line]) := by
      unfold stripHeredoc
      rw [if_neg fun h => ?_]
      have hhead := h.2.1
      rw [head?_cons, Option.any_some, decide_eq_true_eq] at hhead
      exact hopener hhead
    unfold streamedLines
    rw [cons_append, hstrip]
    dsimp only
    rw [head?_cons, Option.any_some, if_pos (decide_eq_true hbegin), tail_cons]
    split
    · rw [dropLast_concat]
      have hcomplete := dropLast_streamOps_append lines (Cut.complete rest)
      rw [append_nil] at hcomplete
      exact hcomplete
    · exact dropLast_streamOps_append lines hcut

theorem streamedLines_cut_heredoc {opener eof : Text} (hopener : opener ∈ HEREDOC_OPENERS)
    (hbegin : trim first = BEGIN_PATCH_MARKER) (hend : trim last = END_PATCH_MARKER)
    (heq : lines ++ whole :: later = opener :: (first :: (middle ++ [last]) ++ [eof])) :
    (streamOps (streamedLines (lines ++ [line]))).dropLast <+: streamOps middle := by
  have hnil : streamOps [] = [] := by rw [streamOps]
  cases lines with
  | nil =>
    rw [nil_append, streamedLines_singleton, hnil]
    exact nil_prefix
  | cons opener' lines =>
    obtain ⟨rfl, htail⟩ := List.cons.inj heq
    obtain ⟨rest, hrest⟩ : ∃ rest, first :: (middle ++ [last]) = lines ++ rest := by
      rcases exists_eq_append_of_concat htail with ⟨-, hlines, -⟩ | ⟨later', hlines⟩
      · exact ⟨[], by rw [append_nil, hlines]⟩
      · exact ⟨_, hlines⟩
    have hnotBegin : trim opener' ≠ BEGIN_PATCH_MARKER :=
      fun h => not_mem_openers_of_trim h hopener
    unfold streamedLines stripHeredoc
    rw [cons_append]
    split
    · -- the last line is taken for the end of the heredoc, and the lines before it are whole
      rw [tail_cons, dropLast_concat]
      cases lines with
      | nil =>
        rw [if_neg (by simp), hnil]
        exact nil_prefix
      | cons first' lines =>
        rw [cons_append] at hrest
        obtain ⟨rfl, hmiddle⟩ := List.cons.inj hrest
        dsimp only
        rw [head?_cons, Option.any_some, if_pos (decide_eq_true hbegin), tail_cons]
        have hpart : ∀ {part}, part <+: middle →
            (streamOps part).dropLast <+: streamOps middle := by
          rintro part ⟨more, rfl⟩
          have hcomplete := dropLast_streamOps_append part (Cut.complete more)
          rw [append_nil] at hcomplete
          exact hcomplete
        rcases eq_nil_or_concat' rest with rfl | ⟨rest, last', rfl⟩
        · rw [append_nil] at hmiddle
          rw [← hmiddle, ← cons_append, getLast?_concat, Option.any_some,
            if_pos (decide_eq_true hend), dropLast_concat]
          exact hpart prefix_rfl
        · rw [← append_assoc] at hmiddle
          have hlines : lines <+: middle := ⟨rest, (append_inj' hmiddle rfl).1.symm⟩
          split
          · exact hpart (( dropLast_prefix _).trans hlines)
          · exact hpart hlines
    · rw [if_neg (by simpa using hnotBegin), hnil]
      exact nil_prefix

/-- The streaming mode reads what the strict mode accepts, and reads each text that it starts with
up to the last operation. -/
theorem parseApplyPatchStreaming_agrees {text : Text} {ops : List PatchInput}
    (h : parseApplyPatch text = .ok ops) :
    parseApplyPatchStreaming text = .ok ops ∧
      ∀ start, start <+: text → ∃ started, parseApplyPatchStreaming start = .ok started ∧
        ∀ i < started.length - 1, started[i]? = ops[i]? := by
  obtain ⟨first, middle, last, hstrip, hbegin, hend, rfl⟩ := parseApplyPatch_eq_ok h
  constructor
  · rw [parseApplyPatchStreaming_eq]
    unfold streamedLines
    rw [hstrip]
    dsimp only
    rw [head?_cons, Option.any_some, if_pos (decide_eq_true hbegin), ← cons_append,
      getLast?_concat, Option.any_some, if_pos (decide_eq_true hend), cons_append, tail_cons,
      dropLast_concat]
  · intro start hstart
    refine ⟨_, parseApplyPatchStreaming_eq start, ?_⟩
    suffices hprefix : (streamOps (streamedLines (splitLines (trim start)))).dropLast <+:
        streamOps middle by
      intro i hi
      obtain ⟨more, heq⟩ := hprefix
      rw [← heq, getElem?_append_left (by rw [length_dropLast]; exact hi), getElem?_dropLast,
        if_pos hi]
    rcases trim_isPrefix hstart with hnil | htrim
    · rw [hnil]
      have hsingle : splitLines [] = [[]] := rfl
      rw [hsingle, streamedLines_singleton, streamOps]
      exact nil_prefix
    · obtain ⟨lines, line, whole, later, hlines, hall, hwhole⟩ := splitLines_of_isPrefix htrim
      rw [hlines]
      rw [hall] at hstrip
      unfold stripHeredoc at hstrip
      split at hstrip
      · next hheredoc =>
        obtain ⟨opener, rest, hcons⟩ : ∃ opener rest, lines ++ whole :: later = opener :: rest :=
          exists_cons_of_ne_nil (by simp)
        rw [hcons] at hheredoc hstrip
        rw [tail_cons] at hstrip
        rcases eq_nil_or_concat' rest with rfl | ⟨rest, eof, rfl⟩
        · cases hstrip
        · rw [dropLast_concat] at hstrip
          rw [hstrip] at hcons
          have hopener : opener ∈ HEREDOC_OPENERS := by simpa using hheredoc.2.1
          exact streamedLines_cut_heredoc hopener hbegin hend hcons
      · exact streamedLines_cut hbegin hend hstrip hwhole

def twoFilePatch : Text :=
  "*** Begin Patch\n*** Update File: a\n@@\n-x\n+y\n*** Add File: b\n+z\n*** End Patch".toList

theorem parseApplyPatchStreaming_agrees_two :
    parseApplyPatch twoFilePatch =
        .ok [updateOp "a".toList none ["@@".toList, "-x".toList, "+y".toList],
          createOp "b".toList "z\n".toList] ∧
      parseApplyPatchStreaming twoFilePatch =
        .ok [updateOp "a".toList none ["@@".toList, "-x".toList, "+y".toList],
          createOp "b".toList "z\n".toList] ∧
      ∀ start, start <+: twoFilePatch → ∃ started, parseApplyPatchStreaming start = .ok started ∧
        ∀ i < started.length - 1, started[i]? =
          [updateOp "a".toList none ["@@".toList, "-x".toList, "+y".toList],
            createOp "b".toList "z\n".toList][i]? := by
  have hstrict : parseApplyPatch twoFilePatch =
      .ok [updateOp "a".toList none ["@@".toList, "-x".toList, "+y".toList],
        createOp "b".toList "z\n".toList] := by decide +kernel
  exact ⟨hstrict, parseApplyPatchStreaming_agrees hstrict⟩

end Vibrato.Edit
