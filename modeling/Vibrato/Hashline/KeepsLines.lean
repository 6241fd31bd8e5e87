import Vibrato.Hashline.Patches

namespace Vibrato.Hashline

open Lib List Text

def hashlineOps (diff : Text) : List Op :=
  match parseHashlineOps diff with
  | .ok (ops, _) => ops.map Prod.snd
  | .error _ => []

def deleteTargets (edits : List Edit) : List Nat :=
  (edits.filterMap Edit.deleteAnchor?).map Anchor.line

/-- The lines of a text that no delete edit targets, without the empty element after a trailing
newline. -/
def keptLines (text : Text) (edits : List Edit) : List Text :=
  let fileLines := splitLines text
  ((List.range' 1 fileLines.length).filter fun l =>
    l ∉ deleteTargets edits ∧ ¬(l = fileLines.length ∧ lineAt fileLines l = [])).map
      (lineAt fileLines)

section Conditions

variable (fileLines : List Text) (edits : List Edit) (ops : List Op)
    (autoDropPureInsertDuplicates : Bool)

/-- No payload line stands for an absorbed line above a replacement and for one below it. -/
def DistinctPayloadLines : Prop :=
  ∀ op ∈ ops, op.above fileLines (collectAnchorTargetLines edits) +
    op.below fileLines (collectAnchorTargetLines edits) ≤
      (op.kept fileLines autoDropPureInsertDuplicates).length

/-- Of two operations before one line, the later does not absorb more lines above while the earlier
absorbs more lines below. -/
def UncrossedPayloads : Prop :=
  ops.Pairwise fun a b => a.line = b.line →
    b.above fileLines (collectAnchorTargetLines edits) ≤
      a.above fileLines (collectAnchorTargetLines edits) ∨
      a.below fileLines (collectAnchorTargetLines edits) ≤
        b.below fileLines (collectAnchorTargetLines edits)

/-- All lines but an empty one, which is not the last element, are deleted, nothing is inserted
between lines, and something is inserted at an edge of the file. -/
structure LoneEmptyLine (l : Nat) : Prop where
  line_lt : 1 ≤ l ∧ l < fileLines.length
  empty : lineAt fileLines l = []
  others : ∀ m, 1 ≤ m → m ≤ fileLines.length → m ≠ l → m ∈ deleteTargets edits
  inside : ∀ op ∈ ops, op.atEdge fileLines = false →
    op.kept fileLines autoDropPureInsertDuplicates = []
  edge : ∃ op ∈ ops, op.atEdge fileLines = true ∧
    op.kept fileLines autoDropPureInsertDuplicates ≠ []

structure SafeToAbsorb : Prop where
  distinct : DistinctPayloadLines fileLines edits ops autoDropPureInsertDuplicates
  uncrossed : UncrossedPayloads fileLines edits ops
  notLone : ∀ l, ¬LoneEmptyLine fileLines edits ops autoDropPureInsertDuplicates l

end Conditions

/-- No line is lost that the edits do not name, and absorbed lines are repeated by distinct payload
lines. -/
structure LosesNoLine (text diff : Text) (edits : List Edit) (autoDropPureInsertDuplicates : Bool)
    (result : ApplyResult) : Prop where
  kept : (keptLines text edits).Sublist (splitLines result.lines)
  distinct : DistinctPayloadLines (splitLines text) edits (hashlineOps diff)
    autoDropPureInsertDuplicates

variable {anchors : List Anchor} {mismatches : List HashMismatch} {index l : Nat}
    {ops : List (Nat × Op)}

theorem validateAnchors_mem {fileLines : List Text}
    (h : validateAnchors fileLines anchors = .ok mismatches) :
    ∀ anchor ∈ anchors, 1 ≤ anchor.line ∧ anchor.line ≤ fileLines.length := by
  induction anchors generalizing mismatches with
  | nil => simp
  | cons anchor anchors ih =>
    unfold validateAnchors at h
    split at h
    · cases h
    · next hline =>
      cases hlater : validateAnchors fileLines anchors with
      | error e => simp [hlater, bind, Except.bind] at h
      | ok later =>
        intro other hother
        rcases mem_cons.1 hother with rfl | hother
        · omega
        · exact ih hlater other hother

theorem edits_subset_opsEdits {op : Nat × Op} (hop : op ∈ ops)
    (index : Nat) : ∃ k, op.2.edits op.1 k ⊆ opsEdits index ops := by
  induction ops generalizing index with
  | nil => cases hop
  | cons first ops ih =>
    rcases mem_cons.1 hop with rfl | hop
    · exact ⟨index, subset_append_left _ _⟩
    · obtain ⟨k, hk⟩ := ih hop (index + (first.2.edits first.1 index).length)
      exact ⟨k, fun edit hedit => mem_append_right _ (hk hedit)⟩

theorem exists_mem_deleteEdits {anchor : Anchor} (h : anchor ∈ anchors)
    (lineNum index : Nat) :
    ∃ k, Edit.delete anchor lineNum k ∈ deleteEdits anchors lineNum index := by
  obtain ⟨k, hk, rfl⟩ := getElem_of_mem h
  exact ⟨index + k, mem_mapIdx.2 ⟨k, hk, rfl⟩⟩

theorem mem_deleteTargets {lineNum : Nat} {start stop : Anchor}
    {payload : List Text} (hop : (lineNum, Op.replace start stop payload) ∈ ops)
    (hfirst : start.line ≤ l) (hlast : l ≤ stop.line) : l ∈ deleteTargets (opsEdits index ops) := by
  obtain ⟨k, hk⟩ := edits_subset_opsEdits hop index
  have hrange : l ∈ (expandRange start stop).map Anchor.line := by
    rw [map_line_expandRange, mem_range'_1]
    omega
  obtain ⟨anchor, hanchor, rfl⟩ := mem_map.1 hrange
  obtain ⟨j, hj⟩ := exists_mem_deleteEdits hanchor lineNum (k + payload.length)
  have hmem := hk (mem_append_right _ hj)
  exact mem_map.2 ⟨anchor, mem_filterMap.2 ⟨_, hmem, rfl⟩, rfl⟩

theorem mem_targets_of_mem_deleteTargets {edits : List Edit} (h : l ∈ deleteTargets edits) :
    l ∈ collectAnchorTargetLines edits := by
  obtain ⟨anchor, hanchor, rfl⟩ := mem_map.1 h
  obtain ⟨edit, hedit, hdelete⟩ := mem_filterMap.1 hanchor
  cases edit with
  | insert => cases hdelete
  | delete anchor' lineNum index =>
    cases hdelete
    exact mem_filterMap.2 ⟨_, hedit, rfl⟩

theorem inFile_of_validate {fileLines : List Text} (hops : ∀ op ∈ ops, op.2.WellFormed)
    (h : validateHashlineAnchors (opsEdits index ops) fileLines = .ok mismatches) :
    ∀ op ∈ ops, op.2.InFile fileLines := by
  have hanchors := validateAnchors_mem h
  have hmem : ∀ edit ∈ opsEdits index ops, ∀ anchor ∈ getHashlineEditAnchors edit,
      1 ≤ anchor.line ∧ anchor.line ≤ fileLines.length :=
    fun edit hedit anchor hanchor => hanchors anchor (mem_flatMap.2 ⟨edit, hedit, hanchor⟩)
  rintro ⟨lineNum, op⟩ hop
  obtain ⟨k, hk⟩ := edits_subset_opsEdits hop index
  have hwf := hops _ hop
  cases op with
  | insert cursor payload =>
    obtain ⟨text, texts, rfl⟩ := exists_cons_of_ne_nil hwf
    have hfirst : Edit.insert cursor text lineNum k ∈ opsEdits index ops := by
      refine hk ?_
      rw [Op.edits, insertEdits_cons]
      exact mem_cons_self
    cases cursor with
    | bof => trivial
    | eof => trivial
    | beforeAnchor anchor => exact hmem _ hfirst anchor (mem_singleton.2 rfl)
    | afterAnchor anchor => exact hmem _ hfirst anchor (mem_singleton.2 rfl)
  | replace start stop payload =>
    have hline : ∀ l, start.line ≤ l → l ≤ stop.line → 1 ≤ l ∧ l ≤ fileLines.length := by
      intro l hfirst hlast
      have hrange : l ∈ (expandRange start stop).map Anchor.line := by
        rw [map_line_expandRange, mem_range'_1]
        omega
      obtain ⟨anchor, hanchor, rfl⟩ := mem_map.1 hrange
      obtain ⟨j, hj⟩ := exists_mem_deleteEdits hanchor lineNum (k + payload.length)
      exact hmem _ (hk (mem_append_right _ hj)) anchor (mem_singleton.2 rfl)
    have hle : start.line ≤ stop.line := hwf
    exact ⟨(hline start.line (Nat.le_refl _) hle).1, (hline stop.line hle (Nat.le_refl _)).2⟩

theorem sublist_insertAtEdges {lines spliced bofLines eofLines : List Text}
    (hsub : lines.Sublist spliced)
    (hlone : spliced = [[]] → lines ≠ [] → bofLines = [] ∧ eofLines = []) :
    lines.Sublist (insertAtEnd (insertAtStart spliced bofLines) eofLines).1 := by
  by_cases hnil : lines = []
  · rw [hnil]
    exact nil_sublist _
  have hstart : lines.Sublist (insertAtStart spliced bofLines) := by
    unfold insertAtStart
    split
    · exact hsub
    split
    · next hbof hempty => exact absurd (hlone hempty hnil).1 hbof
    · exact hsub.trans (sublist_append_right _ _)
  unfold insertAtEnd
  split
  · exact hstart
  · next heof =>
    split
    · next hempty =>
      -- Only an empty line is left, and it is not one of `bofLines`.
      refine absurd (hlone ?_ hnil).2 heof
      have hlen := hsub.length_le
      have hpos := length_pos_of_ne_nil hnil
      unfold insertAtStart at hempty
      split at hempty
      · exact hempty
      split at hempty
      · next hspliced => exact hspliced
      · next hbof _ =>
        have hboth := congrArg List.length hempty
        have hbofPos := length_pos_of_ne_nil hbof
        rw [length_append, length_singleton] at hboth
        omega
    · rw [append_assoc]
      have hsplit := take_append_drop (endIndex (insertAtStart spliced bofLines))
        (insertAtStart spliced bofLines)
      rw [← hsplit] at hstart
      exact hstart.trans (List.Sublist.append_left (sublist_append_right _ _) _)

section Edges

variable {fileLines : List Text} {targets : List Nat} {autoDropPureInsertDuplicates : Bool}

theorem edgeTexts_normalized {op : Op}
    (h : op.atEdge fileLines = false ∨ op.kept fileLines autoDropPureInsertDuplicates = []) :
    (op.normalized fileLines targets autoDropPureInsertDuplicates).filterMap bofText? = [] ∧
      (op.normalized fileLines targets autoDropPureInsertDuplicates).filterMap eofText? = [] := by
  cases op with
  | insert cursor payload =>
    cases hedge : (Op.insert cursor payload).atEdge fileLines with
    | true =>
      obtain ⟨cursor', -, heq⟩ := normalized_insert_edge fileLines targets
        autoDropPureInsertDuplicates hedge
      rcases h with h | h
      · rw [hedge] at h
        cases h
      · rw [heq, h]
        exact ⟨rfl, rfl⟩
    | false =>
      obtain ⟨anchor, -, heq⟩ := normalized_insert_line fileLines targets
        autoDropPureInsertDuplicates hedge
      rw [heq]
      simp [Op.insertsAt, filterMap_eq_nil_iff, bofText?, eofText?]
  | replace start stop payload =>
    rw [normalized_replace, Op.absorbed]
    simp only [filterMap_append, Op.insertsAt, Op.deletesOf, filterMap_map, append_eq_nil_iff,
      filterMap_eq_nil_iff]
    simp [bofText?, eofText?]

theorem edgeTexts_ops {ops : List Op} (h : ∀ op ∈ ops, op.atEdge fileLines = false ∨
      op.kept fileLines autoDropPureInsertDuplicates = []) :
    (ops.flatMap (Op.normalized fileLines targets autoDropPureInsertDuplicates)).filterMap
        bofText? = [] ∧
      (ops.flatMap (Op.normalized fileLines targets autoDropPureInsertDuplicates)).filterMap
        eofText? = [] := by
  rw [filterMap_flatMap, filterMap_flatMap, flatMap_eq_nil_iff, flatMap_eq_nil_iff]
  exact ⟨fun op hop => (edgeTexts_normalized (h op hop)).1,
    fun op hop => (edgeTexts_normalized (h op hop)).2⟩

end Edges

section Lone

variable {fileLines : List Text} {targets : List Nat} {autoDropPureInsertDuplicates : Bool}

theorem not_absorbs_of_empty {op : Op} (hop : op.WellFormed) (hfile : op.InFile fileLines)
    (hlen : (op.kept fileLines autoDropPureInsertDuplicates).length ≤ 1) {l : Nat}
    (hl : fileLines[l - 1]? = some []) (hline : 1 ≤ l) :
    ¬(op.patch fileLines targets autoDropPureInsertDuplicates).AbsorbsAbove l ∧
      ¬(op.patch fileLines targets autoDropPureInsertDuplicates).AbsorbsBelow l := by
  simp only [Patch.AbsorbsAbove, Patch.AbsorbsBelow, Op.patch]
  cases op with
  | insert cursor payload =>
    simp only [Op.above, Op.below]
    omega
  | replace start stop payload =>
    obtain ⟨haboveLen, haboveLt, -, hsingleAbove⟩ :=
      @above_spec fileLines targets start stop payload
      hop hfile.1 (Nat.le_trans hop hfile.2)
    obtain ⟨hbelowLen, -, -, hsingleBelow⟩ :=
      @below_spec fileLines targets start stop payload hop hfile.2
    simp only [Op.kept] at hlen
    constructor
    · rintro ⟨hfirst, hlast⟩
      simp only [Op.line] at hfirst hlast
      have hone : (Op.replace start stop payload).above fileLines targets = 1 := by omega
      have hget := @above_getElem? fileLines targets autoDropPureInsertDuplicates
        (Op.replace start stop payload) hop hfile 0 (by omega)
      have hindex : (Op.replace start stop payload).line -
          (Op.replace start stop payload).above fileLines targets - 1 + 0 = l - 1 := by
        simp only [Op.line]
        omega
      rw [hindex, hl, Op.kept, ← head?_eq_getElem?] at hget
      have hclosing := hsingleAbove hone
      rw [hget] at hclosing
      cases hclosing
    · rintro ⟨hfirst, hlast⟩
      simp only [Op.stop] at hfirst hlast
      have hone : (Op.replace start stop payload).below fileLines targets = 1 := by omega
      have hget := @below_getElem? fileLines targets autoDropPureInsertDuplicates
        (Op.replace start stop payload) hop hfile 0 (by omega)
      have hindex : (Op.replace start stop payload).stop + 0 = l - 1 := by
        simp only [Op.stop]
        omega
      rw [hindex, hl, Op.kept, hone, Nat.add_zero, ← getLast?_eq_getElem?] at hget
      have hclosing := hsingleBelow hone
      rw [hget] at hclosing
      cases hclosing

theorem eq_of_mem_of_length_le_one {α : Type*} {l : List α} (hlen : l.length ≤ 1) {a b : α}
    (ha : a ∈ l) (hb : b ∈ l) : a = b := by
  match l, hlen with
  | [c], _ => rw [mem_singleton.1 ha, mem_singleton.1 hb]

theorem lone_of_render {ops : List Op} (hops : ∀ op ∈ ops, op.WellFormed ∧ op.InFile fileLines)
    (hfits : Fits fileLines (Op.patches fileLines targets autoDropPureInsertDuplicates ops))
    (hsub : (kept fileLines (Op.patches fileLines targets autoDropPureInsertDuplicates ops)).Sublist
      (render fileLines (Op.patches fileLines targets autoDropPureInsertDuplicates ops)))
    (hrender : render fileLines (Op.patches fileLines targets autoDropPureInsertDuplicates ops) =
      [[]]) {l : Nat} (hl : 1 ≤ l) (hle : l ≤ fileLines.length)
    (hnamed : named (Op.patches fileLines targets autoDropPureInsertDuplicates ops) l = false) :
    fileLines[l - 1]? = some [] ∧
      deleted (Op.patches fileLines targets autoDropPureInsertDuplicates ops) l = false ∧
      ∀ m, 1 ≤ m → m ≤ fileLines.length → m ≠ l →
        named (Op.patches fileLines targets autoDropPureInsertDuplicates ops) m = true := by
  have hlen : (render fileLines
      (Op.patches fileLines targets autoDropPureInsertDuplicates ops)).length ≤ 1 := by
    rw [hrender]
    exact Nat.le_refl 1
  have hmem : ∀ m, 1 ≤ m → m ≤ fileLines.length →
      named (Op.patches fileLines targets autoDropPureInsertDuplicates ops) m = false →
      m ∈ (List.range' 1 fileLines.length).filter
        (!named (Op.patches fileLines targets autoDropPureInsertDuplicates ops) ·) := by
    intro m hm hmle hmnamed
    refine mem_filter.2 ⟨mem_range'_1.2 ⟨hm, by omega⟩, ?_⟩
    rw [hmnamed]
    rfl
  have hget : ∀ m, 1 ≤ m → m ≤ fileLines.length → (fileLines[m - 1]?).isSome = true := by
    intro m hm hmle
    simp
    omega
  obtain ⟨line, hline⟩ := Option.isSome_iff_exists.1 (hget l hl hle)
  have hempty : fileLines[l - 1]? = some [] := by
    have hkept : line ∈ kept fileLines
        (Op.patches fileLines targets autoDropPureInsertDuplicates ops) :=
      mem_filterMap.2 ⟨l, hmem l hl hle hnamed, hline⟩
    have hrendered := hsub.subset hkept
    rw [hrender, mem_singleton] at hrendered
    rw [hline, hrendered]
  refine ⟨hempty, ?_, ?_⟩
  · rw [deleted_eq_false]
    intro p hp hdel
    obtain ⟨op, hop, -, rfl⟩ := mem_patches.1 hp
    obtain ⟨hwf, hfile⟩ := hops op hop
    have hnames := (named_eq_false _).1 hnamed _ hp
    have habsorbs := @not_absorbs_of_empty fileLines targets autoDropPureInsertDuplicates op hwf
      hfile (payload_length_le_render hfits hp hlen) l hempty hl
    unfold Patch.Deletes at hdel
    unfold Patch.Names at hnames
    unfold Patch.AbsorbsAbove Patch.AbsorbsBelow at habsorbs
    omega
  · intro m hm hmle hne
    cases hmnamed : named (Op.patches fileLines targets autoDropPureInsertDuplicates ops) m with
    | true => rfl
    | false =>
      refine absurd (eq_of_mem_of_length_le_one ?_ (hmem m hm hmle hmnamed)
        (hmem l hl hle hnamed)) hne
      have hkeptLen := hsub.length_le.trans hlen
      rwa [kept, length_filterMap_eq_countP, countP_eq_length.2] at hkeptLen
      intro k hk
      rw [mem_filter, mem_range'_1] at hk
      exact hget k hk.1.1 (by omega)

end Lone

section Main

variable {text diff : Text} {edits : List Edit} {autoDropPureInsertDuplicates : Bool}

theorem applyHashlineEdits_ok {result : ApplyResult} (hne : edits ≠ [])
    (h : applyHashlineEdits text edits autoDropPureInsertDuplicates = .ok result) :
    validateHashlineAnchors edits (splitLines text) = .ok [] ∧
      result.lines = joinLines (applyNormalizedEdits
        ((absorbReplacementBoundaryDuplicates edits (splitLines text)
          autoDropPureInsertDuplicates).1.map (normalizeCursor (splitLines text)))
        (splitLines text)).1 := by
  rw [applyHashlineEdits, if_neg hne] at h
  cases hvalidate : validateHashlineAnchors edits (splitLines text) with
  | error e => simp [hvalidate, bind, Except.bind] at h
  | ok mismatches =>
    cases mismatches with
    | cons mismatch mismatches => simp [hvalidate, bind, Except.bind] at h
    | nil =>
      simp only [hvalidate, bind, Except.bind, ne_eq, not_true_eq_false, if_false, pure,
        Except.pure, Except.ok.injEq] at h
      rw [← h]
      exact ⟨rfl, rfl⟩

theorem applyNormalizedEdits_ops {ops : List (Nat × Op)} (hops : ∀ op ∈ ops, op.2.WellFormed)
    (hlines : ops.Pairwise fun a b => a.1 < b.1) (fileLines : List Text) :
    applyNormalizedEdits ((absorbReplacementBoundaryDuplicates (opsEdits 0 ops) fileLines
        autoDropPureInsertDuplicates).1.map (normalizeCursor fileLines)) fileLines =
      applyNormalizedEdits ((ops.map Prod.snd).flatMap (Op.normalized fileLines
        (collectAnchorTargetLines (opsEdits 0 ops)) autoDropPureInsertDuplicates)) fileLines := by
  have habsorbed : (absorbReplacementBoundaryDuplicates (opsEdits 0 ops) fileLines
      autoDropPureInsertDuplicates).1.map Edit.erase =
      (ops.map Prod.snd).flatMap (Op.absorbed fileLines
        (collectAnchorTargetLines (opsEdits 0 ops)) autoDropPureInsertDuplicates) :=
    absorbLoop_ops hops hlines (Nat.le_refl _) _
  have hcomm : normalizeCursor fileLines ∘ Edit.erase = Edit.erase ∘ normalizeCursor fileLines :=
    funext (normalizeCursor_erase fileLines)
  rw [← applyNormalizedEdits_erase, map_map, ← hcomm, ← map_map, habsorbed, map_flatMap]
  rfl

end Main

section Parsed

variable {text : Text} {ops : List (Nat × Op)} {autoDropPureInsertDuplicates : Bool}
  (hwf : ∀ op ∈ ops, op.2.WellFormed) (hfile : ∀ op ∈ ops, op.2.InFile (splitLines text))

include hwf hfile

theorem wellFormed_inFile : ∀ op ∈ ops.map Prod.snd, op.WellFormed ∧
    op.InFile (splitLines text) := by
  intro op hop
  obtain ⟨parsed, hparsed, rfl⟩ := mem_map.1 hop
  exact ⟨hwf parsed hparsed, hfile parsed hparsed⟩

theorem mem_deleteTargets_of_op {op : Op} (hop : op ∈ ops.map Prod.snd)
    (hedge : op.atEdge (splitLines text) = false) {l : Nat} (hfirst : op.line ≤ l)
    (hlast : l ≤ op.stop) : l ∈ deleteTargets (opsEdits 0 ops) := by
  obtain ⟨hopwf, hopfile⟩ := wellFormed_inFile hwf hfile op hop
  obtain ⟨start, stop, payload, rfl⟩ := eq_replace_of_names hopwf hopfile hedge hfirst hlast
  obtain ⟨⟨lineNum, op⟩, hparsed, rfl⟩ := mem_map.1 hop
  exact mem_deleteTargets hparsed hfirst hlast

theorem fits_ops : Fits (splitLines text) (Op.patches (splitLines text)
    (collectAnchorTargetLines (opsEdits 0 ops)) autoDropPureInsertDuplicates
    (ops.map Prod.snd)) := by
  refine fits_patches (wellFormed_inFile hwf hfile) fun op hop hedge l hfirst hlast => ?_
  exact mem_targets_of_mem_deleteTargets
    (mem_deleteTargets_of_op hwf hfile hop hedge hfirst hlast)

theorem named_eq_false_of_not_mem {l : Nat} (hl : l ∉ deleteTargets (opsEdits 0 ops)) :
    named (Op.patches (splitLines text) (collectAnchorTargetLines (opsEdits 0 ops))
      autoDropPureInsertDuplicates (ops.map Prod.snd)) l = false := by
  rw [named_eq_false]
  intro p hp hnames
  obtain ⟨op, hop, hedge, rfl⟩ := mem_patches.1 hp
  exact hl (mem_deleteTargets_of_op hwf hfile hop hedge hnames.1 hnames.2)

theorem keptLines_sublist_kept : (keptLines text (opsEdits 0 ops)).Sublist
    (kept (splitLines text) (Op.patches (splitLines text)
      (collectAnchorTargetLines (opsEdits 0 ops)) autoDropPureInsertDuplicates
      (ops.map Prod.snd))) := by
  have hlines : ∀ l ∈ (List.range' 1 (splitLines text).length).filter fun l =>
      l ∉ deleteTargets (opsEdits 0 ops) ∧
        ¬(l = (splitLines text).length ∧ lineAt (splitLines text) l = []),
      (splitLines text)[l - 1]? = some (lineAt (splitLines text) l) := by
    intro l hl
    rw [mem_filter, mem_range'_1] at hl
    have hlt : l - 1 < (splitLines text).length := by omega
    rw [lineAt, getD_eq_getElem _ _ hlt, getElem?_eq_getElem hlt]
  have hkept :
      keptLines text (opsEdits 0 ops) = ((List.range' 1 (splitLines text).length).filter fun l =>
        l ∉ deleteTargets (opsEdits 0 ops) ∧
          ¬(l = (splitLines text).length ∧ lineAt (splitLines text) l = [])).filterMap
        fun l => (splitLines text)[l - 1]? := by
    rw [filterMap_congr hlines, filterMap_eq_map']
    rfl
  rw [hkept]
  refine List.Sublist.filterMap _ (monotone_filter_right _ fun l hl => ?_)
  rw [decide_eq_true_eq] at hl
  rw [named_eq_false_of_not_mem hwf hfile hl.1]
  rfl

theorem spliceBuckets_ops : spliceBuckets ((ops.map Prod.snd).flatMap
      (Op.normalized (splitLines text) (collectAnchorTargetLines (opsEdits 0 ops))
        autoDropPureInsertDuplicates)) (splitLines text) =
    render (splitLines text) (Op.patches (splitLines text)
      (collectAnchorTargetLines (opsEdits 0 ops)) autoDropPureInsertDuplicates
      (ops.map Prod.snd)) := by
  have hops := wellFormed_inFile hwf hfile
  refine spliceBuckets_eq_render (bucketTexts_ops _ _ _ _) (bucketDeletes_ops _ _ _ hops) ?_
  intro l hl
  rcases mem_bucketLines hl with htexts | hdeletes
  · rw [bucketTexts_ops] at htexts
    obtain ⟨line, hline⟩ := exists_mem_of_ne_nil _ htexts
    obtain ⟨p, hp, -⟩ := mem_flatMap.1 hline
    rw [mem_filter, decide_eq_true_eq] at hp
    obtain ⟨hp, rfl⟩ := hp
    obtain ⟨op, hop, hedge, rfl⟩ := mem_patches.1 hp
    exact line_of_not_atEdge (hops op hop).1 (hops op hop).2 hedge
  · rw [bucketDeletes_ops _ _ _ hops, deleted, any_eq_true] at hdeletes
    obtain ⟨p, hp, hdel⟩ := hdeletes
    obtain ⟨op, hop, hedge, rfl⟩ := mem_patches.1 hp
    have habove := @above_lt_line _ (collectAnchorTargetLines (opsEdits 0 ops)) op (hops op hop).1
      (hops op hop).2 hedge
    have hbelow := @stop_add_below_le _ (collectAnchorTargetLines (opsEdits 0 ops)) op
      (hops op hop).1 (hops op hop).2 hedge
    rw [decide_eq_true_eq] at hdel
    simp only [Patch.Deletes, Op.patch] at hdel
    omega

theorem keptLines_sublist_applied (hsafe : SafeToAbsorb (splitLines text) (opsEdits 0 ops)
      (ops.map Prod.snd) autoDropPureInsertDuplicates) :
    (keptLines text (opsEdits 0 ops)).Sublist (applyNormalizedEdits ((ops.map Prod.snd).flatMap
      (Op.normalized (splitLines text) (collectAnchorTargetLines (opsEdits 0 ops))
        autoDropPureInsertDuplicates)) (splitLines text)).1 := by
  have hops := wellFormed_inFile hwf hfile
  have hfits := @fits_ops text ops autoDropPureInsertDuplicates hwf hfile
  have hdisjoint : DisjointEnds (Op.patches (splitLines text)
      (collectAnchorTargetLines (opsEdits 0 ops)) autoDropPureInsertDuplicates
      (ops.map Prod.snd)) := by
    intro p hp
    obtain ⟨op, hop, -, rfl⟩ := mem_patches.1 hp
    exact hsafe.distinct op hop
  have huncrossed : Uncrossed (Op.patches (splitLines text)
      (collectAnchorTargetLines (opsEdits 0 ops)) autoDropPureInsertDuplicates
      (ops.map Prod.snd)) :=
    pairwise_map.2 (List.Pairwise.filter _ hsafe.uncrossed)
  have hrender := kept_sublist_render hfits hdisjoint huncrossed
  have hkept := (keptLines_sublist_kept hwf hfile).trans hrender
  unfold applyNormalizedEdits
  rw [spliceBuckets_ops hwf hfile]
  refine sublist_insertAtEdges hkept fun hlone hne => ?_
  -- One empty line is left, so that it is kept in its own place and nothing goes to an edge.
  obtain ⟨line, hline⟩ := exists_mem_of_ne_nil _ hne
  obtain ⟨l, hl, -⟩ := mem_map.1 hline
  rw [mem_filter, mem_range'_1, decide_eq_true_eq] at hl
  obtain ⟨⟨hfirst, hlast⟩, htarget, hfinal⟩ := hl
  obtain ⟨hempty, hdel, hothers⟩ := lone_of_render hops hfits hrender hlone hfirst (by omega)
    (named_eq_false_of_not_mem hwf hfile htarget)
  have hlineAt : lineAt (splitLines text) l = [] := by
    rw [lineAt, getD_eq_getElem?_getD, hempty]
    rfl
  refine edgeTexts_ops fun op hop => ?_
  by_contra hnot
  push Not at hnot
  rw [ne_eq, Bool.not_eq_false] at hnot
  refine hsafe.notLone l ⟨⟨hfirst, ?_⟩, hlineAt, ?_, ?_, op, hop, hnot.1, hnot.2⟩
  · by_contra hge
    exact hfinal ⟨by omega, hlineAt⟩
  · intro m hm hmle hne
    by_contra htarget
    have hmnamed := @named_eq_false_of_not_mem text ops autoDropPureInsertDuplicates hwf hfile m
      htarget
    rw [hothers m hm hmle hne] at hmnamed
    cases hmnamed
  · intro other hother hedge
    exact payload_eq_nil_of_render hfits (mem_patches.2 ⟨other, hother, hedge, rfl⟩)
      (by rw [hlone]; exact Nat.le_refl 1) hfirst (by omega) hdel

end Parsed

theorem keptLines_sublist_splitLines (text : Text) (edits : List Edit) :
    (keptLines text edits).Sublist (splitLines text) := by
  have hall : (List.range' 1 (splitLines text).length).map (lineAt (splitLines text)) =
      splitLines text := by
    refine ext_getElem (by simp) fun i hi hlt => ?_
    simp [lineAt, Nat.add_comm 1 i, hlt]
  conv_rhs => rw [← hall]
  exact List.Sublist.map _ filter_sublist

theorem newline_not_mem_of_mem_keptLines {text line : Text} {edits : List Edit}
    (h : line ∈ keptLines text edits) : '\n' ∉ line := by
  obtain ⟨l, hl, rfl⟩ := mem_map.1 h
  rw [mem_filter, mem_range'_1] at hl
  have hlt : l - 1 < (splitLines text).length := by omega
  rw [lineAt, getD_eq_getElem _ _ hlt]
  exact newline_not_mem_of_mem_splitLines (getElem_mem hlt)

/-- Applying the edits of a diff loses no line that they do not name, unless the lines absorbed
around a replacement share payload lines, two replacements of one line cross, or an insertion at an
edge takes the place of an empty line that is all that is left. -/
theorem applyHashlineEdits_losesNoLine {text diff : Text} {edits : List Edit}
    {warnings : List Text} {autoDropPureInsertDuplicates : Bool} {result : ApplyResult}
    (hparse : parseHashlineWithWarnings diff = .ok (edits, warnings))
    (happly : applyHashlineEdits text edits autoDropPureInsertDuplicates = .ok result)
    (hsafe : SafeToAbsorb (splitLines text) edits (hashlineOps diff) autoDropPureInsertDuplicates) :
    LosesNoLine text diff edits autoDropPureInsertDuplicates result := by
  refine ⟨?_, hsafe.distinct⟩
  rw [parseHashlineWithWarnings_eq] at hparse
  cases hops : parseHashlineOps diff with
  | error e => simp [hops, Except.map] at hparse
  | ok parsed =>
    obtain ⟨ops, opWarnings⟩ := parsed
    simp only [hops, Except.map, Except.ok.injEq, Prod.mk.injEq] at hparse
    obtain ⟨rfl, -⟩ := hparse
    simp only [hashlineOps, hops] at hsafe
    obtain ⟨hspec, hlines⟩ := parseOps_spec hops
    have hwf : ∀ op ∈ ops, op.2.WellFormed := by
      intro op hop
      obtain ⟨⟨_, _, _, hread⟩, -⟩ := hspec op hop
      exact parseOp_wellFormed hread
    by_cases hnil : opsEdits 0 ops = []
    · rw [hnil] at happly
      cases happly
      exact keptLines_sublist_splitLines text _
    · obtain ⟨hvalidate, hresult⟩ := applyHashlineEdits_ok hnil happly
      rw [hresult, applyNormalizedEdits_ops hwf hlines]
      exact sublist_splitLines_joinLines
        (keptLines_sublist_applied hwf (inFile_of_validate hwf hvalidate) hsafe)
        fun line hline => newline_not_mem_of_mem_keptLines hline

/-- The edits of a diff that replaces the third line, `X`, by the payload. -/
def replaceThird (payload : List Text) : List Edit :=
  opsEdits 0 [(1, .replace ⟨3, "nz".toList⟩ ⟨3, "nz".toList⟩ payload)]

/-- The lines above the third are absorbed, and the payload puts them back. -/
theorem applyHashlineEdits_losesNoLine_absorbed :
    LosesNoLine "a\nb\nX\nc".toList "≔3nz\na\nb\np".toList (replaceThird [['a'], ['b'], ['p']])
      false ⟨"a\nb\np\nc".toList, some 1, [absorbedWarning 2 "above" 1 1 2 "leading"]⟩ := by
  refine applyHashlineEdits_losesNoLine (show parseHashlineWithWarnings _ = .ok (_, []) by
    decide +kernel) (by decide +kernel) ⟨?_, ?_, ?_⟩
  · unfold DistinctPayloadLines
    decide +kernel
  · unfold UncrossedPayloads
    decide +kernel
  · intro l hlone
    have hedge : ∃ op ∈ hashlineOps "≔3nz\na\nb\np".toList,
        op.atEdge (splitLines "a\nb\nX\nc".toList) = true := by
      obtain ⟨op, hop, hedge, -⟩ := hlone.edge
      exact ⟨op, hop, hedge⟩
    revert hedge
    decide +kernel

/-- The payload repeats the two lines above the third and the two lines below it: all four are
deleted, and two are put back. -/
theorem applyHashlineEdits_losesLines :
    parseHashlineWithWarnings "≔3nz\na\nb".toList = .ok (replaceThird [['a'], ['b']], []) ∧
      ∃ result, applyHashlineEdits "a\nb\nX\na\nb".toList (replaceThird [['a'], ['b']]) false =
        .ok result ∧ result.lines = "a\nb".toList ∧
        ¬LosesNoLine "a\nb\nX\na\nb".toList "≔3nz\na\nb".toList (replaceThird [['a'], ['b']])
          false result := by
  refine ⟨by decide +kernel, ⟨"a\nb".toList, some 1, [absorbedWarning 2 "above" 1 1 2 "leading",
    absorbedWarning 2 "below" 1 4 5 "trailing"]⟩, by decide +kernel, rfl, fun h => ?_⟩
  have hlen := h.kept.length_le
  revert hlen
  decide +kernel

end Vibrato.Hashline
