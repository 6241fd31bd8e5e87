import Vibrato.Hashline.Reading
import Vibrato.Hashline.Recovery

namespace Vibrato.Hashline

open List Text Hashline.Edit Prod

variable (diff : Text)

theorem splitLinesCrlf_append (later : Text) :
    splitLinesCrlf (diff ++ '\n' :: later) =
      (splitLines diff).map dropCarriageReturn ++ splitLinesCrlf later := by
  have hsplit : splitLines (diff ++ '\n' :: later) =
      splitLines diff ++ splitLines later := splitOn_append_cons_self _ _
  have hne : splitLines later ≠ [] := splitOn_ne_nil _ _
  unfold splitLinesCrlf
  dsimp only
  rw [hsplit, dropLast_append_of_ne_nil hne, getLast?_append_of_ne_nil _ hne, map_append,
    append_assoc]

theorem splitLinesCrlf_ne_nil (s : Text) : splitLinesCrlf s ≠ [] := by
  obtain ⟨above, last, hsplit⟩ := (eq_nil_or_concat (splitLines s)).resolve_left
    (splitOn_ne_nil _ _)
  unfold splitLinesCrlf
  simp [hsplit]

theorem diffLines_append (later : Text) :
    diffLines (diff ++ '\n' :: later) = (splitLines diff).map dropCarriageReturn ++
      if later = [] then [] else diffLines later := by
  unfold diffLines
  dsimp only
  rw [splitLinesCrlf_append]
  split
  · next hlast =>
    cases later with
    | nil =>
      rw [if_pos rfl, append_nil]
      exact dropLast_concat
    | cons c later =>
      have hne := splitLinesCrlf_ne_nil (c :: later)
      have hend : (c :: later).getLast? = some '\n' := by
        rw [← hlast.1, getLast?_append_cons, getLast?_cons_cons]
      have hnil : (splitLinesCrlf (c :: later)).getLast? = some [] := by
        rw [← hlast.2, getLast?_append_of_ne_nil _ hne]
      rw [if_neg (cons_ne_nil _ _), if_pos ⟨hend, hnil⟩, dropLast_append_of_ne_nil hne]
  · next hlast =>
    cases later with
    | nil => exact absurd ⟨getLast?_concat, getLast?_concat⟩ hlast
    | cons c later =>
      have hne := splitLinesCrlf_ne_nil (c :: later)
      have hnot : ¬((c :: later).getLast? = some '\n' ∧
          (splitLinesCrlf (c :: later)).getLast? = some []) := by
        rintro ⟨hend, hnil⟩
        refine hlast ⟨?_, ?_⟩
        · rw [← hend, getLast?_append_cons, getLast?_cons_cons]
        · rw [← hnil, getLast?_append_of_ne_nil _ hne]
      rw [if_neg (cons_ne_nil _ _), if_neg hnot]

theorem map_dropCarriageReturn_splitLines :
    (diff.getLast? = some '\n' ∧
      (splitLines diff).map dropCarriageReturn = diffLines diff ++ [[]]) ∨
      diff.getLast? ≠ some '\n' ∧ ∃ above last, diffLines diff = above ++ [last] ∧
        (splitLines diff).map dropCarriageReturn = above ++ [dropCarriageReturn last] := by
  by_cases hend : diff.getLast? = some '\n'
  · left
    refine ⟨hend, ?_⟩
    obtain ⟨body, rfl⟩ : ∃ body, diff = body ++ ['\n'] :=
      ⟨diff.dropLast, (dropLast_append_getLast? _ hend).symm⟩
    rw [diffLines_append, if_pos rfl, append_nil, splitLines_append_newline, map_append]
    rfl
  · right
    obtain ⟨above, last, hsplit⟩ := (eq_nil_or_concat (splitLines diff)).resolve_left
      (splitOn_ne_nil _ _)
    rw [concat_eq_append] at hsplit
    refine ⟨hend, above.map dropCarriageReturn, last, ?_, ?_⟩
    · unfold diffLines splitLinesCrlf
      dsimp only
      rw [if_neg fun h => hend h.1, hsplit, dropLast_concat, getLast?_concat]
      rfl
    · rw [hsplit, map_append]
      rfl

/-- The newline after a text that ends in a payload adds nothing to the payload and takes nothing
from it: the text does not end with a newline, nor a payload line of it with a carriage return. -/
def KeepsPayload : Prop :=
  diff.getLast? ≠ some '\n' ∧ ∀ last ∈ (diffLines diff).getLast?,
    isPayloadTerminatorLine last = true ∨ last.getLast? ≠ some '\r'

/-- Each text but the last ends outside an operation; or in a payload that goes on neither in the
newline after it nor in the texts after it; or at a marker, with no operation after it. -/
def Mergeable : List Text → Prop
  | [] | [_] => True
  | diff :: next :: later =>
    match diffEnding diff with
    | .outside => Mergeable (next :: later)
    | .inPayload => KeepsPayload diff ∧
        (joinLines (next :: later) = [] ∨ EndsPayload (diffLines (joinLines (next :: later)))) ∧
        Mergeable (next :: later)
    | .endPatch | .abort => ∀ diff' ∈ next :: later, hashlineOps diff' = []

theorem OpHead.op_injective (head : OpHead) : Function.Injective head.op := by
  intro payload payload' h
  cases head with
  | insert cursor inlineBody =>
    injection h with _ hpayload
    exact append_cancel_left hpayload
  | replace start stop =>
    injection h

theorem OpHead.complete_of_length_le {head : OpHead} {payload payload' : List Text}
    (h : head.complete payload = true) (hle : payload.length ≤ payload'.length) :
    head.complete payload' = true := by
  cases head with
  | insert cursor inlineBody =>
    rw [complete, decide_eq_true_eq] at h ⊢
    intro hnil
    obtain ⟨hbody, rfl⟩ := append_eq_nil_iff.1 hnil
    have hshort : payload = [] := length_eq_zero_iff.1 (Nat.le_zero.1 hle)
    rw [hbody, hshort] at h
    exact h rfl
  | replace start stop => rfl

theorem dropCarriageReturn_eq_self_iff (line : Text) :
    dropCarriageReturn line = line ↔ line.getLast? ≠ some '\r' := by
  unfold dropCarriageReturn
  split
  · next hlast =>
    refine ⟨fun heq => ?_, fun hne => absurd hlast hne⟩
    have hlength := congrArg List.length heq
    rw [length_dropLast] at hlength
    cases line with
    | nil => cases hlast
    | cons c rest =>
      rw [length_cons] at hlength
      omega
  · next hlast => exact ⟨fun _ => hlast, fun _ => rfl⟩

variable {diff later : Text} {ops : List (Nat × Op)} {ending : Ending} {index lineNum n : Nat}
  {diffs : List Text} {start stop : Anchor} {op : Op}

theorem reads_inPayload_newline (h : Reads 1 (diffLines diff) ops .inPayload) :
    ∃ above ending line head payload payload' opsAbove,
      (splitLines diff).map dropCarriageReturn = above ++ line :: payload' ∧
      Reads 1 above opsAbove ending ∧ ending.stopped = false ∧ readHead line = some head ∧
      (∀ text ∈ payload', isPayloadTerminatorLine text = false) ∧ head.complete payload' = true ∧
      ops.map snd = opsAbove.map snd ++ [head.op payload] ∧
      payload.length ≤ payload'.length ∧ (payload' = payload ↔ KeepsPayload diff) := by
  obtain ⟨above, ending, line, head, payload, opsAbove, hlines, habove, hstopped, hhead, hpayload,
    hcomplete, rfl⟩ := h.inPayload
  have hops : (opsAbove ++ [(1 + above.length, head.op payload)]).map snd =
      opsAbove.map snd ++ [head.op payload] := by rw [map_append]; rfl
  rcases map_dropCarriageReturn_splitLines diff with ⟨hend, hmap⟩ | ⟨hend, above', last,
      hlast, hmap⟩
  · -- the final newline leaves an empty line
    have hlonger : payload.length ≤ (payload ++ [[]]).length := by
      rw [length_append]
      omega
    refine ⟨above, ending, line, head, payload, payload ++ [[]], opsAbove, ?_, habove,
      hstopped, hhead, ?_, head.complete_of_length_le hcomplete hlonger, hops, hlonger, ?_⟩
    · rw [hmap, hlines, append_assoc, cons_append]
    · intro text htext
      rcases mem_append.1 htext with htext | htext
      · exact hpayload text htext
      · rw [mem_singleton.1 htext]
        decide
    · constructor
      · intro heq
        exact absurd heq (by simp)
      · exact fun hkeeps => absurd hend hkeeps.1
  have hkeeps : KeepsPayload diff ↔ isPayloadTerminatorLine last = true ∨
      last.getLast? ≠ some '\r' := by
    unfold KeepsPayload
    rw [hlast, getLast?_concat]
    constructor
    · exact fun h => h.2 last rfl
    · rintro h
      refine ⟨hend, fun last' hlast' => ?_⟩
      cases hlast'
      exact h
  rw [hlast] at hlines
  rcases eq_nil_or_concat payload with rfl | ⟨payload, text, rfl⟩
  · -- the last line is the operation line
    obtain ⟨rfl, hline⟩ := append_inj' hlines rfl
    obtain rfl := (List.cons.inj hline).1
    refine ⟨above', ending, dropCarriageReturn last, head, [], [], opsAbove, hmap, habove, hstopped,
      by rw [readHead_dropCarriageReturn, hhead], hpayload, hcomplete, hops, Nat.le_refl _, ?_⟩
    exact ⟨fun _ => hkeeps.2 (.inl (isPayloadTerminatorLine_of_readHead hhead)), fun _ => rfl⟩
  · rw [concat_eq_append] at hlines hpayload hcomplete hops ⊢
    rw [← cons_append, ← append_assoc] at hlines
    obtain ⟨rfl, hline⟩ := append_inj' hlines rfl
    obtain rfl := (List.cons.inj hline).1
    have hlength : (payload ++ [last]).length ≤ (payload ++ [dropCarriageReturn last]).length := by
      rw [length_append, length_append]
      exact Nat.le_refl _
    have hnot := hpayload last (mem_append_right _ mem_cons_self)
    refine ⟨above, ending, line, head, payload ++ [last], payload ++ [dropCarriageReturn last],
      opsAbove, ?_, habove, hstopped, hhead, ?_, head.complete_of_length_le hcomplete hlength, hops,
      hlength, ?_⟩
    · rw [hmap, append_assoc, cons_append]
    · intro text htext
      rcases mem_append.1 htext with htext | htext
      · exact hpayload text (mem_append_left _ htext)
      · rw [mem_singleton.1 htext, isPayloadTerminatorLine_dropCarriageReturn, hnot]
    · rw [hkeeps, hnot, append_cancel_left_eq, List.cons.injEq, dropCarriageReturn_eq_self_iff]
      simp

theorem reads_newline (h : Reads 1 (diffLines diff) ops ending) (hending : ending ≠ .inPayload) :
    Reads 1 ((splitLines diff).map dropCarriageReturn) ops ending := by
  rcases map_dropCarriageReturn_splitLines diff with ⟨-, hmap⟩ | ⟨-, above, last, hlast, hmap⟩
  · rw [hmap]
    cases hstopped : ending.stopped with
    | true => exact h.append_stopped hstopped _
    | false =>
      have hempty : Reads (1 + (diffLines diff).length) [[]] [] .outside := .blank rfl (.nil _)
      have houtside : ending = .outside := by
        cases ending with
        | outside => rfl
        | inPayload => exact absurd rfl hending
        | endPatch => cases hstopped
        | abort => cases hstopped
      have happend := h.append hstopped hempty fun hin => absurd hin hending
      rw [append_nil] at happend
      rw [houtside]
      exact happend
  · rw [hmap]
    exact h.dropCarriageReturn hending hlast

theorem hashlineOps_eq (h : Reads n (diffLines diff) ops ending) :
    hashlineOps diff = ops.map snd := by
  obtain ⟨ops', hreads, hops⟩ := h.renumber 1
  rw [hashlineOps, parseHashlineOps_iff.2 ⟨ending, hreads, rfl⟩, ← hops]

theorem reads_later (h : Reads 1 (diffLines later) ops ending) (n : Nat) :
    ∃ ops' ending', Reads n (if later = [] then [] else diffLines later) ops' ending' ∧
      ops'.map snd = ops.map snd := by
  obtain ⟨ops', hreads, hops⟩ := h.renumber n
  by_cases hnil : later = []
  · have hempty : Reads n (diffLines []) [] .outside := .blank rfl (.nil _)
    rw [hnil] at hreads
    rw [if_pos hnil]
    exact ⟨[], .outside, .nil n, (hempty.ops_unique hreads).trans hops⟩
  · rw [if_neg hnil]
    exact ⟨ops', ending, hreads, hops⟩

theorem splitPayload (lines : List Text) : ∃ payload rest, lines = payload ++ rest ∧
    (∀ text ∈ payload, isPayloadTerminatorLine text = false) ∧ EndsPayload rest := by
  refine ⟨lines.takeWhile (!isPayloadTerminatorLine ·),
    lines.dropWhile (!isPayloadTerminatorLine ·), (takeWhile_append_dropWhile ..).symm, ?_, ?_⟩
  · intro text htext
    simpa using mem_takeWhile_imp htext
  · intro line hline
    have hstop := head?_dropWhile_not (!isPayloadTerminatorLine ·) lines
    rw [Option.mem_def.1 hline] at hstop
    simpa using hstop

theorem reads_join_inPayload {laterOps : List (Nat × Op)}
    (h : Reads 1 (diffLines diff) ops .inPayload)
    (hlater : Reads 1 (diffLines later) laterOps ending)
    (allLater : List Op) :
    ∃ joined ending', Reads 1 (diffLines (diff ++ '\n' :: later)) joined ending' ∧
      (joined.map snd = ops.map snd ++ allLater ↔
        KeepsPayload diff ∧ (later = [] ∨ EndsPayload (diffLines later)) ∧
          laterOps.map snd = allLater) := by
  obtain ⟨above, aboveEnding, line, head, payload, payload', opsAbove, hmap, habove,
      hstopped, hhead, hpayload, hcomplete, hops, hlength, hkeeps⟩ := reads_inPayload_newline h
  generalize hlines : (if later = [] then [] else diffLines later) = lines
  have hends : EndsPayload lines ↔ later = [] ∨ EndsPayload (diffLines later) := by
    rw [← hlines]
    split
    · next hnil => exact ⟨fun _ => .inl hnil, fun _ _ hnone => by cases hnone⟩
    · next hne => exact ⟨.inr, fun h => h.resolve_left hne⟩
  -- the lines that are taken into the payload, and the others
  obtain ⟨more, rest, hsplit, hmore, hrest⟩ := splitPayload lines
  have hnone : more = [] ↔ EndsPayload lines := by
    constructor
    · rintro rfl
      rw [hsplit]
      exact hrest
    · intro hends
      cases more with
      | nil => rfl
      | cons text more =>
        have htext := hends text (by rw [hsplit]; rfl)
        rw [hmore text mem_cons_self] at htext
        cases htext
  have hall : ∀ text ∈ payload' ++ more, isPayloadTerminatorLine text = false := by
    intro text htext
    rcases mem_append.1 htext with htext | htext
    · exact hpayload text htext
    · exact hmore text htext
  have hlonger : payload'.length ≤ (payload' ++ more).length := by
    rw [length_append]
    omega
  obtain ⟨restOps, restEnding, hreads, hrestOps⟩ :=
    reads_later hlater (1 + above.length + 1 + payload'.length)
  rw [hlines, hsplit] at hreads
  have hreads' := hreads.skip hmore
  rw [Nat.add_assoc _ payload'.length, ← length_append] at hreads'
  have hop := Reads.op hhead hall hrest (head.complete_of_length_le hcomplete hlonger) hreads'
  have hjoined := habove.append hstopped hop fun _ l hl => by
    cases hl
    exact isPayloadTerminatorLine_of_readHead hhead
  refine ⟨_, _, by rw [diffLines_append, hlines, hmap, hsplit]; simpa using hjoined, ?_⟩
  rw [map_append, map_cons, hops, append_assoc, append_cancel_left_eq,
    singleton_append, List.cons.injEq, head.op_injective.eq_iff, hrestOps, ← hends, ← hnone,
    ← hkeeps, ← and_assoc]
  refine and_congr_left fun _ => ?_
  constructor
  · intro heq
    have hlengths := congrArg List.length heq
    rw [length_append] at hlengths
    have hnil : more = [] := length_eq_zero_iff.1 (by omega)
    rw [hnil, append_nil] at heq
    exact ⟨heq, hnil⟩
  · rintro ⟨rfl, rfl⟩
    rw [append_nil]

theorem reads_joinLines (hne : diffs ≠ [])
    (hdiffs : ∀ diff ∈ diffs, ∃ ops ending, Reads 1 (diffLines diff) ops ending) :
    ∃ joined ending, Reads 1 (diffLines (joinLines diffs)) joined ending ∧
      (joined.map snd = diffs.flatMap hashlineOps ↔ Mergeable diffs) := by
  induction diffs with
  | nil => exact absurd rfl hne
  | cons diff later ih =>
    obtain ⟨ops, ending, hreads⟩ := hdiffs diff mem_cons_self
    cases later with
    | nil =>
      have hjoin : joinLines [diff] = diff := by simp [joinLines]
      refine ⟨ops, ending, by rw [hjoin]; exact hreads, iff_of_true ?_ trivial⟩
      rw [flatMap_singleton, hashlineOps_eq hreads]
    | cons next later =>
      obtain ⟨laterOps, laterEnding, hlater, hiff⟩ := ih (cons_ne_nil _ _)
        fun diff' hdiff' => hdiffs diff' (mem_cons_of_mem _ hdiff')
      have hending : diffEnding diff = ending := hreads.endingFrom_eq
      rw [Mergeable, hending, flatMap_cons, hashlineOps_eq hreads]
      -- a text that stops the parser
      have hstops : ending.stopped = true → ∃ joined ending',
          Reads 1 (diffLines (diff ++ '\n' :: joinLines (next :: later))) joined ending' ∧
            (joined.map snd = ops.map snd ++ (next :: later).flatMap hashlineOps ↔
              ∀ diff' ∈ next :: later, hashlineOps diff' = []) := by
        intro hstopped
        have hnot : ending ≠ .inPayload := by
          rintro rfl
          cases hstopped
        refine ⟨ops, ending, ?_, ?_⟩
        · rw [diffLines_append]
          exact (reads_newline hreads hnot).append_stopped hstopped _
        · rw [self_eq_append_right, flatMap_eq_nil_iff]
      cases ending with
      | endPatch => exact hstops rfl
      | abort => exact hstops rfl
      | inPayload =>
        obtain ⟨joined, ending', hjoined, hsame⟩ := reads_join_inPayload hreads hlater
          ((next :: later).flatMap hashlineOps)
        exact ⟨joined, ending', hjoined, by rw [hsame, hiff]⟩
      | outside =>
        have hfirst := reads_newline hreads (by simp)
        obtain ⟨restOps, restEnding, hrest, hrestOps⟩ := reads_later hlater
          (1 + ((splitLines diff).map dropCarriageReturn).length)
        have hjoined := hfirst.append rfl hrest fun hin => by cases hin
        rw [← diffLines_append] at hjoined
        refine ⟨_, _, hjoined, ?_⟩
        rw [map_append, hrestOps, append_cancel_left_eq, hiff]

theorem head?_expandRange (hle : start.line ≤ stop.line) :
    (expandRange start stop).head? = some start := by
  have hlength : stop.line + 1 - start.line = stop.line - start.line + 1 := by omega
  unfold expandRange
  rw [hlength, range_succ_eq_map]
  simp

theorem getLast?_expandRange (hle : start.line ≤ stop.line)
    (hsame : start.line = stop.line → start = stop) :
    (expandRange start stop).getLast? = some stop := by
  have hlength : stop.line + 1 - start.line = stop.line - start.line + 1 := by omega
  have hsum : start.line + (stop.line - start.line) = stop.line := by omega
  unfold expandRange
  rw [hlength, range_succ, map_append, map_singleton, getLast?_concat]
  dsimp only
  rw [hsum]
  split
  · next hline => rw [hsame hline.symm]
  · rw [if_pos rfl]

theorem filterMap_deleteAnchor?_insertEdits (cursor : Cursor) (payload : List Text)
    (lineNum index : Nat) :
    (insertEdits cursor payload lineNum index).filterMap deleteAnchor? = [] := by
  rw [filterMap_eq_nil_iff]
  intro edit hedit
  obtain ⟨text, k, rfl⟩ := mem_insertEdits hedit
  rfl

theorem filterMap_text?_deleteEdits (anchors : List Anchor) (lineNum index : Nat) :
    (deleteEdits anchors lineNum index).filterMap text? = [] := by
  rw [filterMap_eq_nil_iff]
  intro edit hedit
  obtain ⟨anchor, -, k, rfl⟩ := mem_deleteEdits hedit
  rfl

theorem Op.edits_injective {op' : Op} (hop : op.WellFormed ∧ op.Anchored)
    (hop' : op'.WellFormed ∧ op'.Anchored)
    (h : op.edits lineNum index = op'.edits lineNum index) : op = op' := by
  have htexts := congrArg (List.filterMap text?) h
  have hanchors := congrArg (List.filterMap deleteAnchor?) h
  cases op with
  | insert cursor payload =>
    cases op' with
    | insert cursor' payload' =>
      rw [Op.edits, Op.edits, filterMap_text?_insertEdits, filterMap_text?_insertEdits] at htexts
      subst htexts
      cases payload with
      | nil => exact absurd rfl hop.1
      | cons text payload =>
        rw [Op.edits, Op.edits, insertEdits_cons, insertEdits_cons] at h
        have hfirst := (List.cons.inj h).1
        injection hfirst with hcursor
        rw [hcursor]
    | replace start stop payload' =>
      rw [Op.edits, Op.edits, filterMap_deleteAnchor?_insertEdits, filterMap_append,
        filterMap_deleteAnchor?_insertEdits, filterMap_deleteAnchor?_deleteEdits] at hanchors
      exact absurd hanchors.symm (expandRange_ne_nil hop'.1)
  | replace start stop payload =>
    cases op' with
    | insert cursor payload' =>
      rw [Op.edits, Op.edits, filterMap_deleteAnchor?_insertEdits, filterMap_append,
        filterMap_deleteAnchor?_insertEdits, filterMap_deleteAnchor?_deleteEdits] at hanchors
      exact absurd hanchors (expandRange_ne_nil hop.1)
    | replace start' stop' payload' =>
      obtain ⟨hle, hsame⟩ := hop.2.2 start stop payload rfl
      obtain ⟨hle', hsame'⟩ := hop'.2.2 start' stop' payload' rfl
      simp only [Op.edits, filterMap_append, filterMap_text?_insertEdits,
        filterMap_text?_deleteEdits, filterMap_deleteAnchor?_insertEdits,
        filterMap_deleteAnchor?_deleteEdits, append_nil, nil_append] at htexts hanchors
      have hstart := congrArg List.head? hanchors
      have hstop := congrArg List.getLast? hanchors
      rw [head?_expandRange hle, head?_expandRange hle', Option.some.injEq] at hstart
      rw [getLast?_expandRange hle hsame, getLast?_expandRange hle' hsame',
        Option.some.injEq] at hstop
      rw [htexts, hstart, hstop]

theorem Op.edits_ne_nil (hop : op.WellFormed) (lineNum index : Nat) :
    op.edits lineNum index ≠ [] := by
  intro hnil
  cases op with
  | insert cursor payload =>
    have htexts := congrArg (List.filterMap text?) hnil
    rw [Op.edits, filterMap_text?_insertEdits] at htexts
    exact hop htexts
  | replace start stop payload =>
    have hanchors := congrArg (List.filterMap deleteAnchor?) hnil
    rw [Op.edits, filterMap_append, filterMap_deleteAnchor?_insertEdits,
      filterMap_deleteAnchor?_deleteEdits] at hanchors
    exact expandRange_ne_nil hop hanchors

theorem filter_lineNum_opsEdits (hlater : ∀ op' ∈ ops, lineNum < op'.1) :
    (opsEdits index ((lineNum, op) :: ops)).filter (·.lineNum = lineNum) =
      op.edits lineNum index := by
  rw [opsEdits, filter_append, filter_eq_self.2, filter_eq_nil_iff.2, append_nil]
  · intro edit hedit
    obtain ⟨op', hop', k, hk⟩ := mem_opsEdits hedit
    have hlt := hlater op' hop'
    rw [lineNum_of_mem_edits hk, decide_eq_true_eq]
    omega
  · intro edit hedit
    rw [lineNum_of_mem_edits hedit, decide_eq_true_eq]

theorem opsEdits_injective {ops' : List (Nat × Op)}
    (hops : ∀ op ∈ ops, op.2.WellFormed ∧ op.2.Anchored)
    (hsorted : ops.Pairwise fun a b => a.1 < b.1)
    (hops' : ∀ op ∈ ops', op.2.WellFormed ∧ op.2.Anchored)
    (hsorted' : ops'.Pairwise fun a b => a.1 < b.1)
    (h : opsEdits index ops = opsEdits index ops') : ops = ops' := by
  induction ops generalizing ops' index with
  | nil =>
    cases ops' with
    | nil => rfl
    | cons op' ops' =>
      exact absurd (append_eq_nil_iff.1 h.symm).1
        (Op.edits_ne_nil (hops' op' mem_cons_self).1 _ _)
  | cons op ops ih =>
    cases ops' with
    | nil =>
      exact absurd (append_eq_nil_iff.1 h).1 (Op.edits_ne_nil (hops op mem_cons_self).1 _ _)
    | cons op' ops' =>
      obtain ⟨lineNum, op⟩ := op
      obtain ⟨lineNum', op'⟩ := op'
      have hop := hops _ mem_cons_self
      have hop' := hops' _ mem_cons_self
      obtain ⟨hlater, hrest⟩ := pairwise_cons.1 hsorted
      obtain ⟨hlater', hrest'⟩ := pairwise_cons.1 hsorted'
      -- both start with an edit, which has the line of the first operation
      have hline : lineNum = lineNum' := by
        obtain ⟨edit, edits, hedits⟩ := exists_cons_of_ne_nil
          (Op.edits_ne_nil hop.1 lineNum index)
        obtain ⟨edit', edits', hedits'⟩ := exists_cons_of_ne_nil
          (Op.edits_ne_nil hop'.1 lineNum' index)
        have hedit : edit ∈ op.edits lineNum index := hedits ▸ mem_cons_self
        have hedit' : edit' ∈ op'.edits lineNum' index := hedits' ▸ mem_cons_self
        have hfirst := congrArg List.head? h
        rw [opsEdits, opsEdits, hedits, hedits'] at hfirst
        rw [← lineNum_of_mem_edits hedit, ← lineNum_of_mem_edits hedit', Option.some.inj hfirst]
      subst hline
      have hsame : op = op' := by
        apply Op.edits_injective hop hop'
        rw [← filter_lineNum_opsEdits hlater, ← filter_lineNum_opsEdits hlater', h]
      subst hsame
      rw [ih (fun op hmem => hops op (mem_cons_of_mem _ hmem)) hrest
        (fun op hmem => hops' op (mem_cons_of_mem _ hmem)) hrest' (append_cancel_left h)]

theorem map_erase_edits (op : Op) (lineNum index : Nat) :
    (op.edits lineNum index).map erase = (op.edits 0 0).map erase := by
  cases op with
  | insert cursor payload => rw [Op.edits, Op.edits, map_erase_insertEdits, map_erase_insertEdits]
  | replace start stop payload =>
    simp only [Op.edits, map_append, map_erase_insertEdits, map_erase_deleteEdits]

theorem map_erase_opsEdits (index : Nat) (ops : List (Nat × Op)) :
    (opsEdits index ops).map erase = (ops.map snd).flatMap fun op => (op.edits 0 0).map erase := by
  induction ops generalizing index with
  | nil => rfl
  | cons op ops ih => rw [opsEdits, map_append, ih, map_erase_edits, map_cons, flatMap_cons]

def diffEdits (diff : Text) : List Edit :=
  match parseHashlineWithWarnings diff with
  | .ok (edits, _) => edits
  | .error _ => []

/-- The edits are those of the texts one after the other, but for the numbers of lines and edits;
and the edits of different operations keep different line numbers. -/
structure SameUpToNumbers (edits : List Edit) (diffs : List Text) : Prop where
  erased : edits.map erase = (diffs.flatMap diffEdits).map erase
  numbered : ∃ ops : List (Nat × Op), ops.map snd = diffs.flatMap hashlineOps ∧
    ops.Pairwise (fun a b => a.1 < b.1) ∧ edits = opsEdits 0 ops

theorem parses_iff {edits : List Edit} {warnings : List Text} :
    parseHashlineWithWarnings diff = .ok (edits, warnings) ↔
      ∃ ops ending, Reads 1 (diffLines diff) ops ending ∧ edits = opsEdits 0 ops ∧
        warnings = ending.warnings := by
  rw [parseHashlineWithWarnings_eq]
  constructor
  · intro h
    cases hops : parseHashlineOps diff with
    | error e =>
      rw [hops] at h
      cases h
    | ok parsed =>
      rw [hops] at h
      cases h
      obtain ⟨ending, hreads, hwarnings⟩ := parseHashlineOps_iff.1 hops
      exact ⟨_, ending, hreads, rfl, hwarnings⟩
  · rintro ⟨ops, ending, hreads, rfl, rfl⟩
    rw [parseHashlineOps_iff.2 ⟨ending, hreads, rfl⟩]
    rfl

theorem Reads.spec {lines : List Text} (h : Reads n lines ops ending) :
    (∀ op ∈ ops, op.2.WellFormed ∧ op.2.Anchored) ∧ ops.Pairwise fun a b => a.1 < b.1 := by
  obtain ⟨hread, hsorted⟩ := parseOps_spec (h.parseOps_eq (Nat.le_refl _))
  refine ⟨fun op hop => ?_, hsorted⟩
  obtain ⟨⟨_, _, _, hop⟩, -⟩ := hread op hop
  exact ⟨parseOp_wellFormed hop, parseOp_anchored hop⟩

theorem diffEdits_erased (hdiffs : ∀ diff ∈ diffs, ∃ ops ending,
    Reads 1 (diffLines diff) ops ending) :
    (diffs.flatMap diffEdits).map erase = (diffs.flatMap hashlineOps).flatMap fun op =>
      (op.edits 0 0).map erase := by
  rw [map_flatMap, flatMap_assoc]
  refine flatMap_congr fun diff hdiff => ?_
  obtain ⟨ops, ending, hreads⟩ := hdiffs diff hdiff
  have hparse := parses_iff.2 ⟨ops, ending, hreads, rfl, rfl⟩
  rw [diffEdits, hparse, hashlineOps_eq hreads]
  exact map_erase_opsEdits 0 ops

/-- Merging the sections of a path commutes with parsing them exactly if their texts are
mergeable. -/
theorem mergeSamePathSections_commutes_iff {sections : List HashlineInputSection}
    (hparse : ∀ s ∈ sections, ∃ parsed, parseHashlineWithWarnings s.diff = .ok parsed)
    {merged : HashlineInputSection} (hmerged : merged ∈ mergeSamePathSections sections) :
    (∃ edits warnings, parseHashlineWithWarnings merged.diff = .ok (edits, warnings) ∧
        SameUpToNumbers edits
          ((sections.filter (·.path = merged.path)).map HashlineInputSection.diff)) ↔
      Mergeable ((sections.filter (·.path = merged.path)).map HashlineInputSection.diff) := by
  obtain ⟨path, hpath, rfl⟩ := mem_map.1 hmerged
  generalize hdiffs : (sections.filter (·.path = path)).map HashlineInputSection.diff = diffs
  have hreads : ∀ diff ∈ diffs, ∃ ops ending, Reads 1 (diffLines diff) ops ending := by
    intro diff hdiff
    rw [← hdiffs] at hdiff
    obtain ⟨s, hs, rfl⟩ := mem_map.1 hdiff
    obtain ⟨⟨edits, warnings⟩, hparsed⟩ := hparse s (mem_of_mem_filter hs)
    obtain ⟨ops, ending, hreads, -⟩ := parses_iff.1 hparsed
    exact ⟨ops, ending, hreads⟩
  have hne : diffs ≠ [] := by
    rw [mem_reverse, mem_dedup, mem_reverse] at hpath
    obtain ⟨s, hs, rfl⟩ := mem_map.1 hpath
    rw [← hdiffs]
    exact ne_nil_of_mem (mem_map_of_mem (mem_filter.2 ⟨hs, by simp⟩))
  obtain ⟨joined, ending, hjoined, hiff⟩ := reads_joinLines hne hreads
  have hjoinedSorted := hjoined.spec.2
  rw [← hiff]
  constructor
  · rintro ⟨edits, warnings, hparsed, hsame⟩
    obtain ⟨ops, hops, hsorted, rfl⟩ := hsame.numbered
    have hspec : ∀ op ∈ ops, op.2.WellFormed ∧ op.2.Anchored := by
      intro op hop
      have hmem : op.2 ∈ diffs.flatMap hashlineOps := hops ▸ mem_map_of_mem hop
      obtain ⟨diff, hdiff, hmem⟩ := mem_flatMap.1 hmem
      obtain ⟨diffOps, diffEnding, hdiffReads⟩ := hreads diff hdiff
      rw [hashlineOps_eq hdiffReads] at hmem
      obtain ⟨op', hop', heq⟩ := mem_map.1 hmem
      rw [← heq]
      exact hdiffReads.spec.1 op' hop'
    obtain ⟨ops', ending', hreads', hedits, -⟩ := parses_iff.1 hparsed
    rw [opsEdits_injective hspec hsorted hreads'.spec.1 hreads'.spec.2 hedits] at hops
    rw [hjoined.ops_unique hreads', hops]
  · intro hops
    refine ⟨opsEdits 0 joined, _, parses_iff.2 ⟨joined, ending, hjoined, rfl, rfl⟩, ?_,
      joined, hops, hjoinedSorted, rfl⟩
    rw [map_erase_opsEdits, hops, diffEdits_erased hreads]

def insertSections (first second : Text) : List HashlineInputSection :=
  [⟨['a'], first⟩, ⟨['a'], second⟩]

theorem insertSections_parse {first second : Text}
    (hfirst : (parseHashlineWithWarnings first).isOk = true)
    (hsecond : (parseHashlineWithWarnings second).isOk = true) :
    ∀ s ∈ insertSections first second, ∃ parsed, parseHashlineWithWarnings s.diff = .ok parsed := by
  have hok : ∀ diff, (parseHashlineWithWarnings diff).isOk = true →
      ∃ parsed, parseHashlineWithWarnings diff = .ok parsed := by
    intro diff h
    cases hparsed : parseHashlineWithWarnings diff with
    | error e =>
      rw [hparsed] at h
      cases h
    | ok parsed => exact ⟨parsed, rfl⟩
  intro s hs
  rcases mem_cons.1 hs with rfl | hs
  · exact hok _ hfirst
  · rw [mem_singleton.1 hs]
    exact hok _ hsecond

theorem mergeSamePathSections_commutes_inserts :
    ∃ edits warnings,
      parseHashlineWithWarnings "»1hs\nfoo\n»2yo\nbar".toList = .ok (edits, warnings) ∧
        SameUpToNumbers edits ["»1hs\nfoo".toList, "»2yo\nbar".toList] := by
  have hparse : ∀ s ∈ insertSections "»1hs\nfoo".toList "»2yo\nbar".toList,
      ∃ parsed, parseHashlineWithWarnings s.diff = .ok parsed :=
    insertSections_parse (by decide +kernel) (by decide +kernel)
  have hmerged : ⟨['a'], "»1hs\nfoo\n»2yo\nbar".toList⟩ ∈
      mergeSamePathSections (insertSections "»1hs\nfoo".toList "»2yo\nbar".toList) := by
    decide +kernel
  refine (mergeSamePathSections_commutes_iff hparse hmerged).2 ?_
  have hending : diffEnding "»1hs\nfoo".toList = .inPayload := by decide +kernel
  refine ⟨⟨by decide +kernel, ?_⟩, .inr (by decide +kernel), trivial⟩
  have hlast : (diffLines "»1hs\nfoo".toList).getLast? = some "foo".toList := by decide +kernel
  rintro last hlast'
  cases hlast'
  exact .inr (by decide)

/-- The blank line before the next header becomes payload. -/
theorem mergeSamePathSections_adds_payload :
    splitHashlineInputs ⟨[], [], fun _ => none⟩ [] "§a\n»1hs\nfoo\n\n§a\n»2yo\nbar".toList none =
        .ok (insertSections "»1hs\nfoo\n".toList "»2yo\nbar".toList) ∧
      (parseHashlineWithWarnings "»1hs\nfoo\n".toList).isOk = true ∧
      (parseHashlineWithWarnings "»2yo\nbar".toList).isOk = true ∧
      mergeSamePathSections (insertSections "»1hs\nfoo\n".toList "»2yo\nbar".toList) =
        [⟨['a'], "»1hs\nfoo\n\n»2yo\nbar".toList⟩] ∧
      (diffEdits "»1hs\nfoo\n\n»2yo\nbar".toList).map erase ≠
        (["»1hs\nfoo\n".toList, "»2yo\nbar".toList].flatMap diffEdits).map erase := by
  decide +kernel

end Vibrato.Hashline
