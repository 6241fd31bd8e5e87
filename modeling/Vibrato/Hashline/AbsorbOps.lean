import Vibrato.Hashline.Absorb
import Mathlib.Data.List.GetD

namespace Vibrato.Hashline

open List Op

namespace Op

variable (fileLines : List Text) (targets : List Nat) (autoDropPureInsertDuplicates : Bool)

def group (start stop : Anchor) (payload : List Text) : ReplacementGroup :=
  { sourceLineNum := 0, replacement := payload, deletes := expandRange start stop, edits := [],
    rest := [] }

def above : Op → Nat
  | .insert _ _ => 0
  | .replace start stop payload => safePrefixCount fileLines targets (group start stop payload)

def below : Op → Nat
  | .insert _ _ => 0
  | .replace start stop payload => safeSuffixCount fileLines targets (group start stop payload)

def kept : Op → List Text
  | .insert cursor payload => keptPayload fileLines autoDropPureInsertDuplicates cursor payload
  | .replace _ _ payload => payload

def insertsAt (cursor : Cursor) (payload : List Text) : List Edit :=
  payload.map fun text => .insert cursor text 0 0

def deletesOf (anchors : List Anchor) : List Edit := anchors.map fun anchor => .delete anchor 0 0

def anchorsAt (lines : List Nat) : List Anchor :=
  lines.map fun line => ⟨line, computeLineHash (lineAt fileLines line)⟩

def absorbed (op : Op) : List Edit :=
  match op with
  | .insert cursor _ => insertsAt cursor (op.kept fileLines autoDropPureInsertDuplicates)
  | .replace start stop payload =>
    let above := op.above fileLines targets
    let below := op.below fileLines targets
    deletesOf (anchorsAt fileLines (List.range' (start.line - above) above)) ++
      (insertsAt (.beforeAnchor start) payload ++ deletesOf (expandRange start stop)) ++
      deletesOf (anchorsAt fileLines (List.range' (stop.line + 1) below))

end Op

def Edit.erase : Edit → Edit
  | .insert cursor text _ _ => .insert cursor text 0 0
  | .delete anchor _ _ => .delete anchor 0 0

variable (cursor : Cursor)

theorem insertEdits_cons (text : Text) (payload : List Text)
    (lineNum index : Nat) : insertEdits cursor (text :: payload) lineNum index =
      .insert cursor text lineNum index :: insertEdits cursor payload lineNum (index + 1) := by
  simp [insertEdits, mapIdx_cons, Nat.add_comm, Nat.add_left_comm]

theorem deleteEdits_cons (anchor : Anchor) (anchors : List Anchor) (lineNum index : Nat) :
    deleteEdits (anchor :: anchors) lineNum index =
      .delete anchor lineNum index :: deleteEdits anchors lineNum (index + 1) := by
  simp [deleteEdits, mapIdx_cons, Nat.add_comm, Nat.add_left_comm]

theorem map_erase_insertEdits (payload : List Text) (lineNum index : Nat) :
    (insertEdits cursor payload lineNum index).map Edit.erase = insertsAt cursor payload := by
  induction payload generalizing index with
  | nil => rfl
  | cons text payload ih =>
    rw [insertEdits_cons, map_cons, ih]
    rfl

theorem map_erase_deleteEdits (anchors : List Anchor) (lineNum index : Nat) :
    (deleteEdits anchors lineNum index).map Edit.erase = deletesOf anchors := by
  induction anchors generalizing index with
  | nil => rfl
  | cons anchor anchors ih =>
    rw [deleteEdits_cons, map_cons, ih]
    rfl

theorem filterMap_text?_insertEdits (payload : List Text) (lineNum index : Nat) :
    (insertEdits cursor payload lineNum index).filterMap Edit.text? = payload := by
  induction payload generalizing index with
  | nil => rfl
  | cons text payload ih =>
    rw [insertEdits_cons, filterMap_cons, ih]
    rfl

theorem filterMap_deleteAnchor?_deleteEdits (anchors : List Anchor) (lineNum index : Nat) :
    (deleteEdits anchors lineNum index).filterMap Edit.deleteAnchor? = anchors := by
  induction anchors generalizing index with
  | nil => rfl
  | cons anchor anchors ih =>
    rw [deleteEdits_cons, filterMap_cons, ih]
    rfl

variable {cursor : Cursor} {edit : Edit} {lineNum index : Nat} {start stop : Anchor}

theorem mem_insertEdits {payload : List Text}
    (h : edit ∈ insertEdits cursor payload lineNum index) :
    ∃ text k, edit = .insert cursor text lineNum k := by
  obtain ⟨k, hk, rfl⟩ := mem_mapIdx.1 h
  exact ⟨_, _, rfl⟩

theorem mem_deleteEdits {anchors : List Anchor} (h : edit ∈ deleteEdits anchors lineNum index) :
    ∃ anchor ∈ anchors, ∃ k, edit = .delete anchor lineNum k := by
  obtain ⟨k, hk, rfl⟩ := mem_mapIdx.1 h
  exact ⟨_, getElem_mem hk, _, rfl⟩

theorem lineNum_of_mem_edits {op : Op} (h : edit ∈ op.edits lineNum index) :
    edit.lineNum = lineNum := by
  cases op with
  | insert cursor payload =>
    obtain ⟨text, k, rfl⟩ := mem_insertEdits h
    rfl
  | replace start stop payload =>
    rcases mem_append.1 h with h | h
    · obtain ⟨text, k, rfl⟩ := mem_insertEdits h
      rfl
    · obtain ⟨anchor, -, k, rfl⟩ := mem_deleteEdits h
      rfl

theorem mem_opsEdits {index : Nat} {ops : List (Nat × Op)}
    (h : edit ∈ opsEdits index ops) : ∃ op ∈ ops, ∃ k, edit ∈ op.2.edits op.1 k := by
  induction ops generalizing index with
  | nil => cases h
  | cons op ops ih =>
    rcases mem_append.1 h with h | h
    · exact ⟨op, mem_cons_self, _, h⟩
    · obtain ⟨op', hop', k, hk⟩ := ih h
      exact ⟨op', mem_cons_of_mem _ hop', k, hk⟩

theorem expandRange_ne_nil (h : start.line ≤ stop.line) : expandRange start stop ≠ [] := by
  simp only [expandRange, ne_eq, map_eq_nil_iff, range_eq_nil]
  omega

theorem map_line_expandRange (start stop : Anchor) :
    (expandRange start stop).map Anchor.line =
      List.range' start.line (stop.line + 1 - start.line) := by
  rw [expandRange, map_map, range'_eq_map_range]
  rfl

theorem startLine_group (h : start.line ≤ stop.line) (payload : List Text) :
    (group start stop payload).startLine = start.line := by
  have hlines := congrArg List.head? (map_line_expandRange start stop)
  rw [head?_map, head?_range', if_neg (by omega)] at hlines
  rw [ReplacementGroup.startLine, group, hlines]
  rfl

theorem endLine_group (h : start.line ≤ stop.line) (payload : List Text) :
    (group start stop payload).endLine = stop.line := by
  have hlines := congrArg List.getLast? (map_line_expandRange start stop)
  rw [getLast?_map, getLast?_range', if_neg (by omega)] at hlines
  rw [ReplacementGroup.endLine, group, hlines, Option.getD_some]
  omega

theorem takeWhile_dropWhile_append {α : Type*} {p : α → Bool} {l₁ l₂ : List α}
    (h₁ : ∀ a ∈ l₁, p a = true) (h₂ : ∀ a ∈ l₂, p a = false) :
    (l₁ ++ l₂).takeWhile p = l₁ ∧ (l₁ ++ l₂).dropWhile p = l₂ := by
  have htake : l₂.takeWhile p = [] := by
    cases l₂ with
    | nil => rfl
    | cons b l₂ => simp [h₂ b mem_cons_self]
  have hdrop : l₂.dropWhile p = l₂ := by
    cases l₂ with
    | nil => rfl
    | cons b l₂ => simp [h₂ b mem_cons_self]
  rw [takeWhile_append_of_pos h₁, dropWhile_append_of_pos h₁, htake, hdrop]
  exact ⟨append_nil l₁, rfl⟩

theorem isDeleteOf_eq_false {lineNum : Nat} (h : edit.lineNum ≠ lineNum) :
    isDeleteOf lineNum edit = false := by
  cases edit with
  | insert => rfl
  | delete => simpa [isDeleteOf, Edit.lineNum] using h

theorem isInsertAt_eq_false {lineNum : Nat}
    (h : edit.lineNum ≠ lineNum) : isInsertAt cursor lineNum edit = false := by
  cases edit with
  | insert c text n k => simp [isInsertAt, show n ≠ lineNum from h]
  | delete => rfl

theorem isReplacementInsert_eq_false {lineNum : Nat} (h : edit.lineNum ≠ lineNum) :
    isReplacementInsert lineNum edit = false := by
  cases edit with
  | insert c text n k => cases c <;> simp [isReplacementInsert, show n ≠ lineNum from h]
  | delete => rfl

section Groups

variable {lineNum index : Nat} {rest : List Edit} (hrest : ∀ edit ∈ rest, edit.lineNum ≠ lineNum)
  {payload : List Text}

include hrest

theorem findReplacementGroup_replace {start stop : Anchor} (hle : start.line ≤ stop.line)
    (hne : payload ≠ []) :
    findReplacementGroup ((replace start stop payload).edits lineNum index ++ rest) =
      some { group start stop payload with
        sourceLineNum := lineNum, edits := (replace start stop payload).edits lineNum index,
        rest } := by
  obtain ⟨text, texts, rfl⟩ := exists_cons_of_ne_nil hne
  obtain ⟨first, anchors, hanchors⟩ := exists_cons_of_ne_nil (expandRange_ne_nil hle)
  have hfirst := startLine_group hle (text :: texts)
  simp only [ReplacementGroup.startLine, group, hanchors, head?_cons, Option.map_some,
    Option.getD_some] at hfirst
  have hlines := map_line_expandRange start stop
  have hlength := congrArg List.length hlines
  rw [length_map, length_range'] at hlength
  let deletes := deleteEdits (expandRange start stop) lineNum (index + (text :: texts).length)
  let edits := insertEdits (.beforeAnchor start) (text :: texts) lineNum index ++ (deletes ++ rest)
  have hinserts : edits.takeWhile (isReplacementInsert lineNum) =
      insertEdits (.beforeAnchor start) (text :: texts) lineNum index ∧
      edits.dropWhile (isReplacementInsert lineNum) = deletes ++ rest := by
    refine takeWhile_dropWhile_append ?_ ?_
    · intro edit hedit
      obtain ⟨t, k, rfl⟩ := mem_insertEdits hedit
      simp [isReplacementInsert]
    · intro edit hedit
      rcases mem_append.1 hedit with hedit | hedit
      · obtain ⟨anchor, -, k, rfl⟩ := mem_deleteEdits hedit
        rfl
      · exact isReplacementInsert_eq_false (hrest edit hedit)
  have hdeletes : (deletes ++ rest).takeWhile (isDeleteOf lineNum) = deletes ∧
      (deletes ++ rest).dropWhile (isDeleteOf lineNum) = rest := by
    refine takeWhile_dropWhile_append ?_ fun edit hedit => isDeleteOf_eq_false (hrest edit hedit)
    intro edit hedit
    obtain ⟨anchor, -, k, rfl⟩ := mem_deleteEdits hedit
    simp [isDeleteOf]
  have hcons : edits = .insert (.beforeAnchor start) text lineNum index ::
      (insertEdits (.beforeAnchor start) texts lineNum (index + 1) ++ (deletes ++ rest)) := by
    simp only [edits, insertEdits_cons, cons_append]
  have hedits : (replace start stop (text :: texts)).edits lineNum index ++ rest = edits :=
    append_assoc _ _ _
  rw [hedits, hcons]
  simp only [findReplacementGroup]
  rw [← hcons, hinserts.1, hinserts.2, hdeletes.1, hdeletes.2,
    filterMap_deleteAnchor?_deleteEdits, filterMap_text?_insertEdits, hanchors]
  simp only
  rw [if_pos, ← hanchors]
  · rfl
  · rw [← hanchors, hlines, hfirst, hlength]
    exact ⟨rfl, rfl⟩

variable {cursor : Cursor}

theorem findReplacementGroup_insert (hne : payload ≠ []) :
    findReplacementGroup ((insert cursor payload).edits lineNum index ++ rest) = none := by
  obtain ⟨text, texts, rfl⟩ := exists_cons_of_ne_nil hne
  let edits := insertEdits cursor (text :: texts) lineNum index ++ rest
  have hcons : edits = .insert cursor text lineNum index ::
      (insertEdits cursor texts lineNum (index + 1) ++ rest) := by
    simp only [edits, insertEdits_cons, cons_append]
  have hedits : (insert cursor (text :: texts)).edits lineNum index ++ rest = edits := rfl
  rw [hedits, hcons]
  cases cursor with
  | bof => rfl
  | eof => rfl
  | afterAnchor anchor => rfl
  | beforeAnchor anchor =>
    have hinserts : edits.dropWhile (isReplacementInsert lineNum) = rest := by
      refine (takeWhile_dropWhile_append ?_ fun edit hedit =>
        isReplacementInsert_eq_false (hrest edit hedit)).2
      intro edit hedit
      obtain ⟨t, k, rfl⟩ := mem_insertEdits hedit
      simp [isReplacementInsert]
    have hdeletes : rest.takeWhile (isDeleteOf lineNum) = [] :=
      (takeWhile_dropWhile_append (fun edit hedit => absurd hedit not_mem_nil)
        fun edit hedit => isDeleteOf_eq_false (hrest edit hedit)).1
    simp only [findReplacementGroup]
    rw [← hcons, hinserts, hdeletes]
    rfl

theorem findPureInsertGroup_insert (hne : payload ≠ []) :
    findPureInsertGroup ((insert cursor payload).edits lineNum index ++ rest) =
      some { sourceLineNum := lineNum, cursor, payload,
             edits := (insert cursor payload).edits lineNum index, rest } := by
  obtain ⟨text, texts, rfl⟩ := exists_cons_of_ne_nil hne
  let edits := insertEdits cursor (text :: texts) lineNum index ++ rest
  have hinserts : edits.takeWhile (isInsertAt cursor lineNum) =
      insertEdits cursor (text :: texts) lineNum index ∧
      edits.dropWhile (isInsertAt cursor lineNum) = rest := by
    refine takeWhile_dropWhile_append ?_ fun edit hedit => isInsertAt_eq_false (hrest edit hedit)
    intro edit hedit
    obtain ⟨t, k, rfl⟩ := mem_insertEdits hedit
    simp [isInsertAt]
  have hhead : rest.head?.any (isDeleteOf lineNum) = false := by
    cases rest with
    | nil => rfl
    | cons edit rest => exact isDeleteOf_eq_false (hrest edit mem_cons_self)
  have hcons : edits = .insert cursor text lineNum index ::
      (insertEdits cursor texts lineNum (index + 1) ++ rest) := by
    simp only [edits, insertEdits_cons, cons_append]
  have hedits : (insert cursor (text :: texts)).edits lineNum index ++ rest = edits := rfl
  rw [hedits, hcons]
  simp only [findPureInsertGroup]
  rw [← hcons, hinserts.1, hinserts.2, hhead, filterMap_text?_insertEdits]
  rfl

end Groups

section Loop

variable {fileLines : List Text} {targets : List Nat} {autoDropPureInsertDuplicates : Bool}
    {lineNum index : Nat}

theorem absorbReplacement_group {start stop : Anchor}
    (hle : start.line ≤ stop.line) (payload : List Text) (rest : List Edit) (st : AbsorbState) :
    (absorbReplacement fileLines targets { group start stop payload with
      sourceLineNum := lineNum, edits := (replace start stop payload).edits lineNum index,
      rest } st).1.map Edit.erase =
      (replace start stop payload).absorbed fileLines targets autoDropPureInsertDuplicates := by
  have habove : linesAbove (group start stop payload)
      ((replace start stop payload).above fileLines targets) =
      List.range' (start.line - (replace start stop payload).above fileLines targets)
        ((replace start stop payload).above fileLines targets) := by
    rw [linesAbove, startLine_group hle]
  have hbelow : linesBelow (group start stop payload)
      ((replace start stop payload).below fileLines targets) =
      List.range' (stop.line + 1) ((replace start stop payload).below fileLines targets) := by
    rw [linesBelow, endLine_group hle]
  simp only [absorbReplacement, absorbedDeletes, map_append, map_erase_deleteEdits, edits,
    map_erase_insertEdits, absorbed, ← habove, ← hbelow]
  rfl

theorem absorbPureInsert_group (cursor : Cursor) (payload : List Text) (rest : List Edit)
    (st : AbsorbState) :
    (absorbPureInsert fileLines autoDropPureInsertDuplicates
      { sourceLineNum := lineNum, cursor, payload,
        edits := (insert cursor payload).edits lineNum index, rest } st).1.map Edit.erase =
      (insert cursor payload).absorbed fileLines targets autoDropPureInsertDuplicates := by
  unfold absorbPureInsert
  split
  · next hzero =>
    -- Nothing is dropped, so that the edits stay as they are.
    rw [edits, map_erase_insertEdits, absorbed, kept, keptPayload, hzero]
    simp
  · rw [map_erase_insertEdits]
    rfl

variable {edits : List Edit} {fuel : Nat}

theorem absorbLoop_of_replacement {group : ReplacementGroup}
    (h : findReplacementGroup edits = some group) (fuel : Nat) (st : AbsorbState) :
    (absorbLoop fileLines targets autoDropPureInsertDuplicates (fuel + 1) edits st).1 =
      (absorbReplacement fileLines targets group st).1 ++
        (absorbLoop fileLines targets autoDropPureInsertDuplicates fuel group.rest
          (absorbReplacement fileLines targets group st).2).1 := by
  cases edits with
  | nil => cases h
  | cons edit edits => simp only [absorbLoop, h]

theorem absorbLoop_of_pureInsert {group : PureInsertGroup}
    (hnone : findReplacementGroup edits = none) (h : findPureInsertGroup edits = some group)
    (fuel : Nat) (st : AbsorbState) :
    (absorbLoop fileLines targets autoDropPureInsertDuplicates (fuel + 1) edits st).1 =
      (absorbPureInsert fileLines autoDropPureInsertDuplicates group st).1 ++
        (absorbLoop fileLines targets autoDropPureInsertDuplicates fuel group.rest
          (absorbPureInsert fileLines autoDropPureInsertDuplicates group st).2).1 := by
  cases edits with
  | nil => cases h
  | cons edit edits => simp only [absorbLoop, hnone, h]

theorem absorbLoop_deletes (anchors : List Anchor) (lineNum index fuel : Nat) (rest : List Edit)
    (st : AbsorbState) :
    (absorbLoop fileLines targets autoDropPureInsertDuplicates (anchors.length + fuel)
        (deleteEdits anchors lineNum index ++ rest) st).1 =
      deleteEdits anchors lineNum index ++
        (absorbLoop fileLines targets autoDropPureInsertDuplicates fuel rest st).1 := by
  induction anchors generalizing index with
  | nil => simp [deleteEdits]
  | cons anchor anchors ih =>
    rw [deleteEdits_cons, length_cons, Nat.add_right_comm, cons_append, cons_append, ← ih]
    rfl

theorem above_nil (start stop : Anchor) : (replace start stop []).above fileLines targets = 0 := by
  simp [above, safePrefixCount, prefixCount, group, countMatchingPrefixBlock, largestBlock,
    countMatchingSingleStructuralPrefixBoundary, orElseCount]

theorem below_nil (start stop : Anchor) : (replace start stop []).below fileLines targets = 0 := by
  simp [below, safeSuffixCount, suffixCount, group, countMatchingSuffixBlock, largestBlock,
    countMatchingSingleStructuralSuffixBoundary, orElseCount]

theorem absorbLoop_op {op : Op} (hop : op.WellFormed) {rest : List Edit}
    (hrest : ∀ edit ∈ rest, edit.lineNum ≠ lineNum)
    (hfuel : (op.edits lineNum index ++ rest).length ≤ fuel) (st : AbsorbState) :
    ∃ pushed fuel' st',
      (absorbLoop fileLines targets autoDropPureInsertDuplicates fuel
        (op.edits lineNum index ++ rest) st).1 =
        pushed ++ (absorbLoop fileLines targets autoDropPureInsertDuplicates fuel' rest st').1 ∧
      pushed.map Edit.erase = op.absorbed fileLines targets autoDropPureInsertDuplicates ∧
      rest.length ≤ fuel' := by
  rw [length_append] at hfuel
  cases op with
  | insert cursor payload =>
    have hpos : 0 < ((insert cursor payload).edits lineNum index).length := by
      rw [edits, insertEdits, length_mapIdx]
      exact length_pos_of_ne_nil hop
    obtain ⟨fuel, rfl⟩ := Nat.exists_eq_succ_of_ne_zero (show fuel ≠ 0 by omega)
    exact ⟨_, fuel, _, absorbLoop_of_pureInsert (findReplacementGroup_insert hrest hop)
      (findPureInsertGroup_insert hrest hop) fuel st, absorbPureInsert_group cursor payload rest st,
      by omega⟩
  | replace start stop payload =>
    cases payload with
    | nil =>
      have hlen : ((replace start stop []).edits lineNum index).length =
          (expandRange start stop).length := by
        simp [edits, insertEdits, deleteEdits]
      obtain ⟨fuel, rfl⟩ := Nat.exists_eq_add_of_le (show (expandRange start stop).length ≤ fuel by
        omega)
      refine ⟨deleteEdits (expandRange start stop) lineNum index, fuel, st,
        absorbLoop_deletes _ _ _ _ _ _, ?_, by omega⟩
      simp only [map_erase_deleteEdits, absorbed, above_nil, below_nil]
      simp [deletesOf, insertsAt, anchorsAt]
    | cons text payload =>
      have hpos : 0 < ((replace start stop (text :: payload)).edits lineNum index).length := by
        simp [edits, insertEdits]
      obtain ⟨fuel, rfl⟩ := Nat.exists_eq_succ_of_ne_zero (show fuel ≠ 0 by omega)
      exact ⟨_, fuel, _, absorbLoop_of_replacement
        (findReplacementGroup_replace hrest hop (cons_ne_nil _ _)) fuel st,
        absorbReplacement_group hop (text :: payload) rest st, by omega⟩

theorem absorbLoop_ops {ops : List (Nat × Op)} (hops : ∀ op ∈ ops, op.2.WellFormed)
    (hlines : ops.Pairwise fun a b => a.1 < b.1) {index : Nat}
    (hfuel : (opsEdits index ops).length ≤ fuel) (st : AbsorbState) :
    (absorbLoop fileLines targets autoDropPureInsertDuplicates fuel (opsEdits index ops) st).1.map
      Edit.erase =
      (ops.map Prod.snd).flatMap (absorbed fileLines targets autoDropPureInsertDuplicates) := by
  induction ops generalizing index fuel st with
  | nil => cases fuel <;> rfl
  | cons op ops ih =>
    obtain ⟨hlt, hlines⟩ := pairwise_cons.1 hlines
    have hrest : ∀ edit ∈ opsEdits (index + (op.2.edits op.1 index).length) ops,
        edit.lineNum ≠ op.1 := by
      intro edit hedit
      obtain ⟨later, hlater, k, hk⟩ := mem_opsEdits hedit
      rw [lineNum_of_mem_edits hk]
      have := hlt later hlater
      omega
    obtain ⟨pushed, fuel', st', hloop, hpushed, hfuel'⟩ :=
      absorbLoop_op (hops op mem_cons_self) hrest hfuel st
    rw [opsEdits, hloop, map_append, hpushed,
      ih (fun op hop => hops op (mem_cons_of_mem _ hop)) hlines hfuel']
    rfl

end Loop

theorem largestBlock_spec (isMatch : Nat → Bool) (n : Nat) :
    largestBlock isMatch n = 0 ∨ 2 ≤ largestBlock isMatch n ∧ largestBlock isMatch n ≤ n ∧
      isMatch (largestBlock isMatch n) = true := by
  induction n with
  | zero => exact .inl rfl
  | succ n ih =>
    cases n with
    | zero => exact .inl rfl
    | succ n =>
      rw [largestBlock]
      split
      · next hmatch => exact .inr ⟨by omega, by omega, hmatch⟩
      · rcases ih with hzero | ⟨htwo, hle, hmatch⟩
        · exact .inl hzero
        · exact .inr ⟨htwo, by omega, hmatch⟩

structure RepeatsAbove (fileLines : List Text) (startLine : Nat) (payload : List Text)
    (count : Nat) : Prop where
  le_length : count ≤ payload.length
  lt_start : count < startLine
  eq_lines : (fileLines.drop (startLine - 1 - count)).take count = payload.take count
  single : count = 1 → payload.head?.any isStructuralClosingBoundaryLine = true

structure RepeatsBelow (fileLines : List Text) (endLine : Nat) (payload : List Text)
    (count : Nat) : Prop where
  le_length : count ≤ payload.length
  le_lines : endLine + count ≤ fileLines.length
  eq_lines : (fileLines.drop endLine).take count = payload.drop (payload.length - count)
  single : count = 1 → payload.getLast?.any isStructuralClosingBoundaryLine = true

theorem take_one_drop_eq {fileLines : List Text} {k : Nat} (hk : k < fileLines.length) :
    (fileLines.drop k).take 1 = [fileLines.getD k []] := by
  rw [drop_eq_getElem_cons hk, getD_eq_getElem _ _ hk]
  rfl

section Counts

variable {group : ReplacementGroup}

variable (fileLines : List Text)

theorem prefixCount_spec (hstart : 1 ≤ group.startLine)
    (hlen : group.startLine ≤ fileLines.length) :
    RepeatsAbove fileLines group.startLine group.replacement (prefixCount fileLines group) := by
  have hzero : RepeatsAbove fileLines group.startLine group.replacement 0 :=
    ⟨Nat.zero_le _, hstart, by simp, by simp⟩
  unfold prefixCount orElseCount
  split
  · unfold countMatchingSingleStructuralPrefixBoundary
    split
    · exact hzero
    · next line kept hpayload =>
      split
      · next hline =>
        obtain ⟨hlt, hstructural, hrepeat, -⟩ := hline
        refine ⟨by simp [hpayload], hlt, ?_, fun _ => by simp [hpayload, hstructural]⟩
        rw [take_one_drop_eq (by omega), hpayload, ← hrepeat]
        rfl
      · exact hzero
  · next hne =>
    unfold countMatchingPrefixBlock at hne ⊢
    rcases largestBlock_spec (fun count => (fileLines.drop (group.startLine - 1 - count)).take
      count == group.replacement.take count) (min group.replacement.length (group.startLine - 1))
      with hblock | ⟨htwo, hle, hmatch⟩
    · exact absurd hblock hne
    · exact ⟨by omega, by omega, by simpa using hmatch, by omega⟩

theorem suffixCount_spec (hlen : group.endLine ≤ fileLines.length) :
    RepeatsBelow fileLines group.endLine group.replacement (suffixCount fileLines group) := by
  have hzero : RepeatsBelow fileLines group.endLine group.replacement 0 :=
    ⟨Nat.zero_le _, hlen, by simp, by simp⟩
  unfold suffixCount orElseCount
  split
  · unfold countMatchingSingleStructuralSuffixBoundary
    split
    · exact hzero
    · next line hlast =>
      split
      · next hline =>
        obtain ⟨hlt, hstructural, hrepeat, -⟩ := hline
        obtain ⟨kept, hkept⟩ := getLast?_eq_some_iff.1 hlast
        refine ⟨by simp [hkept], hlt, ?_, fun _ => by simp [hlast, hstructural]⟩
        rw [take_one_drop_eq (by omega), hkept, ← hrepeat]
        simp [lineAt]
      · exact hzero
  · next hne =>
    unfold countMatchingSuffixBlock at hne ⊢
    rcases largestBlock_spec (fun count => (fileLines.drop group.endLine).take count ==
      group.replacement.drop (group.replacement.length - count))
      (min group.replacement.length (fileLines.length - group.endLine))
      with hblock | ⟨htwo, hle, hmatch⟩
    · exact absurd hblock hne
    · exact ⟨by omega, by omega, by simpa using hmatch, by omega⟩

end Counts

section OpCounts

variable {fileLines : List Text} {targets : List Nat} {start stop : Anchor} {payload : List Text}

theorem above_spec (hle : start.line ≤ stop.line) (hstart : 1 ≤ start.line)
    (hlen : start.line ≤ fileLines.length) :
    RepeatsAbove fileLines start.line payload
      ((replace start stop payload).above fileLines targets) := by
  have hspec := @prefixCount_spec (group start stop payload) fileLines
  rw [startLine_group hle] at hspec
  simp only [above, safePrefixCount]
  split
  · exact ⟨Nat.zero_le _, hstart, by simp, by simp⟩
  · exact hspec hstart hlen

theorem below_spec (hle : start.line ≤ stop.line) (hlen : stop.line ≤ fileLines.length) :
    RepeatsBelow fileLines stop.line payload
      ((replace start stop payload).below fileLines targets) := by
  have hspec := @suffixCount_spec (group start stop payload) fileLines
  rw [endLine_group hle] at hspec
  simp only [below, safeSuffixCount]
  split
  · exact ⟨Nat.zero_le _, hlen, by simp, by simp⟩
  · exact hspec hlen

variable {line : Nat}

theorem not_mem_targets_of_above (hle : start.line ≤ stop.line)
    (hfirst : start.line ≤ line + (replace start stop payload).above fileLines targets)
    (hlast : line < start.line) : line ∉ targets := by
  simp only [above, safePrefixCount] at hfirst
  split at hfirst
  · omega
  · next hnone =>
    intro hmem
    refine hnone (any_eq_true.2 ⟨line, ?_, by simpa using hmem⟩)
    rw [linesAbove, startLine_group hle, mem_range'_1]
    omega

theorem not_mem_targets_of_below (hle : start.line ≤ stop.line) (hfirst : stop.line < line)
    (hlast : line ≤ stop.line + (replace start stop payload).below fileLines targets) :
    line ∉ targets := by
  simp only [below, safeSuffixCount] at hlast
  split at hlast
  · omega
  · next hnone =>
    intro hmem
    refine hnone (any_eq_true.2 ⟨line, ?_, by simpa using hmem⟩)
    rw [linesBelow, endLine_group hle, mem_range'_1]
    omega

end OpCounts

end Vibrato.Hashline
