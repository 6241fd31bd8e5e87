import Vibrato.Hashline.AbsorbOps
import Vibrato.Hashline.Apply
import Vibrato.Lib.Patches

namespace Vibrato.Hashline

open Lib List Op Function

namespace Op

variable (fileLines : List Text) (targets : List Nat) (autoDropPureInsertDuplicates : Bool)

def line : Op → Nat
  | .insert (.beforeAnchor anchor) _ => anchor.line
  | .insert (.afterAnchor anchor) _ => anchor.line + 1
  | .insert _ _ => 0
  | .replace start _ _ => start.line

def stop : Op → Nat
  | .replace _ stop _ => stop.line
  | op => op.line - 1

def atEdge : Op → Bool
  | .insert .bof _ | .insert .eof _ => true
  | .insert (.afterAnchor anchor) _ => fileLines.length ≤ anchor.line
  | _ => false

def patch (op : Op) : Patch Text :=
  ⟨op.line, op.stop, op.kept fileLines autoDropPureInsertDuplicates, op.above fileLines targets,
    op.below fileLines targets⟩

def patches (ops : List Op) : List (Patch Text) :=
  (ops.filter (!·.atEdge fileLines)).map (patch fileLines targets autoDropPureInsertDuplicates)

def InFile : Op → Prop
  | .insert (.beforeAnchor anchor) _ => 1 ≤ anchor.line ∧ anchor.line ≤ fileLines.length
  | .insert (.afterAnchor anchor) _ => 1 ≤ anchor.line ∧ anchor.line ≤ fileLines.length
  | .insert _ _ => True
  | .replace start stop _ => 1 ≤ start.line ∧ stop.line ≤ fileLines.length

def normalized (op : Op) : List Edit :=
  (op.absorbed fileLines targets autoDropPureInsertDuplicates).map (normalizeCursor fileLines)

end Op

variable (edit : Edit)

@[simp] theorem bucketLine?_erase : bucketLine? edit.erase = bucketLine? edit := by
  cases edit with
  | insert cursor => cases cursor <;> rfl
  | delete => rfl

@[simp] theorem text?_erase : edit.erase.text? = edit.text? := by
  cases edit <;> rfl

@[simp] theorem isInsert_erase : edit.erase.isInsert = edit.isInsert := by
  cases edit <;> rfl

@[simp] theorem bofText?_erase : bofText? edit.erase = bofText? edit := by
  cases edit with
  | insert cursor => cases cursor <;> rfl
  | delete => rfl

@[simp] theorem eofText?_erase : eofText? edit.erase = eofText? edit := by
  cases edit with
  | insert cursor => cases cursor <;> rfl
  | delete => rfl

theorem normalizeCursor_erase (fileLines : List Text) (edit : Edit) :
    normalizeCursor fileLines edit.erase = (normalizeCursor fileLines edit).erase := by
  cases edit with
  | delete => rfl
  | insert cursor text lineNum index =>
    cases cursor with
    | afterAnchor anchor =>
      simp only [Edit.erase, normalizeCursor]
      split <;> rfl
    | _ => rfl

variable (edits : List Edit)

theorem bucketTexts_erase : bucketTexts (edits.map Edit.erase) = bucketTexts edits := by
  funext l
  simp [bucketTexts, filter_map, filterMap_map, comp_def]

theorem bucketDeletes_erase : bucketDeletes (edits.map Edit.erase) = bucketDeletes edits := by
  funext l
  simp [bucketDeletes, filter_map, any_map, comp_def]

theorem bucketLines_erase : bucketLines (edits.map Edit.erase) = bucketLines edits := by
  simp [bucketLines, filterMap_map]

theorem applyNormalizedEdits_erase (fileLines : List Text) :
    applyNormalizedEdits (edits.map Edit.erase) fileLines =
      applyNormalizedEdits edits fileLines := by
  have hsplice : spliceBuckets (edits.map Edit.erase) fileLines =
      spliceBuckets edits fileLines := by
    have hstep : spliceBucket (edits.map Edit.erase) = spliceBucket edits := by
      funext lines l
      rw [spliceBucket, bucketReplacement, bucketTexts_erase, bucketDeletes_erase]
      rfl
    rw [spliceBuckets, bucketLines_erase, hstep]
    rfl
  simp only [applyNormalizedEdits, hsplice, bucketLines_erase, filterMap_map,
    comp_def, bofText?_erase, eofText?_erase]

section Buckets

variable (fileLines : List Text) (targets : List Nat) (autoDropPureInsertDuplicates : Bool)

theorem bucketTexts_append (edits later : List Edit) (l : Nat) :
    bucketTexts (edits ++ later) l = bucketTexts edits l ++ bucketTexts later l := by
  simp [bucketTexts]

theorem bucketDeletes_append (edits later : List Edit) (l : Nat) :
    bucketDeletes (edits ++ later) l = (bucketDeletes edits l || bucketDeletes later l) := by
  simp [bucketDeletes]

variable (anchors : List Anchor)

theorem bucketTexts_deletesOf (l : Nat) : bucketTexts (deletesOf anchors) l = [] := by
  induction anchors with
  | nil => rfl
  | cons anchor anchors ih =>
    rw [deletesOf, map_cons, ← singleton_append, bucketTexts_append, ← deletesOf, ih]
    by_cases hl : anchor.line = l <;> simp [bucketTexts, bucketLine?, hl, Edit.text?]

theorem bucketDeletes_deletesOf (l : Nat) :
    bucketDeletes (deletesOf anchors) l = decide (l ∈ anchors.map Anchor.line) := by
  induction anchors with
  | nil => rfl
  | cons anchor anchors ih =>
    rw [deletesOf, map_cons, ← singleton_append, bucketDeletes_append, ← deletesOf, ih]
    by_cases hl : anchor.line = l <;> simp [bucketDeletes, bucketLine?, hl, Edit.isInsert, eq_comm]

theorem bucketTexts_insertsAt (anchor : Anchor) (texts : List Text) (l : Nat) :
    bucketTexts (insertsAt (.beforeAnchor anchor) texts) l =
      if anchor.line = l then texts else [] := by
  induction texts with
  | nil => simp [insertsAt, bucketTexts]
  | cons text texts ih =>
    rw [insertsAt, map_cons, ← singleton_append, bucketTexts_append, ← insertsAt, ih]
    by_cases hl : anchor.line = l <;> simp [bucketTexts, bucketLine?, hl, Edit.text?]

theorem bucketDeletes_insertsAt (cursor : Cursor) (texts : List Text) (l : Nat) :
    bucketDeletes (insertsAt cursor texts) l = false := by
  simp [bucketDeletes, insertsAt, filter_map, Edit.isInsert]

theorem map_normalizeCursor_deletesOf :
    (deletesOf anchors).map (normalizeCursor fileLines) = deletesOf anchors := by
  rw [deletesOf, map_map]
  rfl

variable {cursor : Cursor} {payload : List Text}

theorem bucketTexts_insertsAt_edge (hcursor : cursor = .bof ∨ cursor = .eof)
    (texts : List Text) (l : Nat) : bucketTexts (insertsAt cursor texts) l = [] := by
  rcases hcursor with rfl | rfl <;> simp [bucketTexts, insertsAt, filter_map, comp_def, bucketLine?]

theorem normalized_insert_edge (hedge : (Op.insert cursor payload).atEdge fileLines = true) :
    ∃ cursor', (cursor' = .bof ∨ cursor' = .eof) ∧
      (Op.insert cursor payload).normalized fileLines targets autoDropPureInsertDuplicates =
        Op.insertsAt cursor'
          ((Op.insert cursor payload).kept fileLines autoDropPureInsertDuplicates) := by
  cases cursor with
  | bof =>
    exact ⟨.bof, .inl rfl,
      by simp [Op.normalized, Op.absorbed, Op.insertsAt, normalizeCursor, Op.kept]⟩
  | eof =>
    exact ⟨.eof, .inr rfl,
      by simp [Op.normalized, Op.absorbed, Op.insertsAt, normalizeCursor, Op.kept]⟩
  | beforeAnchor anchor => cases hedge
  | afterAnchor anchor =>
    have hle : fileLines.length ≤ anchor.line := by simpa [Op.atEdge] using hedge
    exact ⟨.eof, .inr rfl,
      by simp [Op.normalized, Op.absorbed, Op.insertsAt, normalizeCursor, Op.kept, hle]⟩

theorem normalized_insert_line (hedge : (Op.insert cursor payload).atEdge fileLines = false) :
    ∃ anchor : Anchor, anchor.line = (Op.insert cursor payload).line ∧
      (Op.insert cursor payload).normalized fileLines targets autoDropPureInsertDuplicates =
        Op.insertsAt (.beforeAnchor anchor)
          ((Op.insert cursor payload).kept fileLines autoDropPureInsertDuplicates) := by
  cases cursor with
  | bof => cases hedge
  | eof => cases hedge
  | beforeAnchor anchor =>
    exact ⟨anchor, rfl,
      by simp [Op.normalized, Op.absorbed, Op.insertsAt, normalizeCursor, Op.kept]⟩
  | afterAnchor anchor =>
    have hlt : ¬fileLines.length ≤ anchor.line := by simpa [Op.atEdge] using hedge
    exact ⟨⟨anchor.line + 1, computeLineHash (lineAt fileLines (anchor.line + 1))⟩, rfl,
      by simp [Op.normalized, Op.absorbed, Op.insertsAt, normalizeCursor, Op.kept, hlt]⟩

theorem normalized_replace (start stop : Anchor) (payload : List Text) :
    (replace start stop payload).normalized fileLines targets autoDropPureInsertDuplicates =
      (replace start stop payload).absorbed fileLines targets autoDropPureInsertDuplicates := by
  have hinserts : (insertsAt (.beforeAnchor start) payload).map (normalizeCursor fileLines) =
      insertsAt (.beforeAnchor start) payload := by
    rw [insertsAt, map_map]
    rfl
  simp only [normalized, absorbed, map_append, map_normalizeCursor_deletesOf, hinserts]

theorem bucketTexts_normalized (op : Op) (l : Nat) :
    bucketTexts (op.normalized fileLines targets autoDropPureInsertDuplicates) l =
      if op.atEdge fileLines = false ∧ op.line = l then
        op.kept fileLines autoDropPureInsertDuplicates else [] := by
  cases op with
  | insert cursor payload =>
    cases hedge : (Op.insert cursor payload).atEdge fileLines with
    | true =>
      obtain ⟨cursor', hcursor, heq⟩ := normalized_insert_edge fileLines targets
        autoDropPureInsertDuplicates hedge
      rw [heq, bucketTexts_insertsAt_edge hcursor]
      simp
    | false =>
      obtain ⟨anchor, hline, heq⟩ := normalized_insert_line fileLines targets
        autoDropPureInsertDuplicates hedge
      rw [heq, bucketTexts_insertsAt, hline]
      simp
  | replace start stop payload =>
    rw [normalized_replace, Op.absorbed]
    simp only [bucketTexts_append, bucketTexts_deletesOf, bucketTexts_insertsAt]
    simp [Op.atEdge, Op.line, Op.kept]

theorem bucketDeletes_normalized {op : Op} (hop : op.WellFormed) (hfile : op.InFile fileLines)
    (l : Nat) :
    bucketDeletes (op.normalized fileLines targets autoDropPureInsertDuplicates) l =
      (!op.atEdge fileLines &&
        decide ((op.patch fileLines targets autoDropPureInsertDuplicates).Deletes l)) := by
  cases op with
  | insert cursor payload =>
    cases hedge : (Op.insert cursor payload).atEdge fileLines with
    | true =>
      obtain ⟨cursor', -, heq⟩ := normalized_insert_edge fileLines targets
        autoDropPureInsertDuplicates hedge
      rw [heq, bucketDeletes_insertsAt]
      rfl
    | false =>
      obtain ⟨anchor, -, heq⟩ := normalized_insert_line fileLines targets
        autoDropPureInsertDuplicates hedge
      have hline : 1 ≤ (Op.insert cursor payload).line := by
        cases cursor with
        | bof => cases hedge
        | eof => cases hedge
        | beforeAnchor anchor => exact hfile.1
        | afterAnchor anchor => exact Nat.le_add_left _ _
      have hnot : ¬((Op.insert cursor payload).patch fileLines targets
          autoDropPureInsertDuplicates).Deletes l := by
        simp only [Patch.Deletes, Op.patch, Op.stop, Op.above, Op.below]
        omega
      rw [heq, bucketDeletes_insertsAt]
      simp [hnot]
  | replace start stop payload =>
    have habove := (@above_spec fileLines targets start stop payload hop hfile.1
        (Nat.le_trans hop hfile.2)).lt_start
    have hle : start.line ≤ stop.line := hop
    rw [normalized_replace, Op.absorbed]
    simp only [bucketDeletes_append, bucketDeletes_deletesOf, bucketDeletes_insertsAt,
      map_line_expandRange, Op.anchorsAt, map_map, comp_def, map_id']
    rw [Bool.eq_iff_iff]
    simp only [Bool.or_eq_true, decide_eq_true_eq, mem_range'_1, Op.atEdge, Bool.not_false,
      Bool.true_and, Bool.false_or]
    simp only [Patch.Deletes, Op.patch, Op.stop, Op.line]
    omega

theorem patches_cons (op : Op) (ops : List Op) :
    patches fileLines targets autoDropPureInsertDuplicates (op :: ops) =
      (if op.atEdge fileLines then [] else
        [op.patch fileLines targets autoDropPureInsertDuplicates]) ++
        patches fileLines targets autoDropPureInsertDuplicates ops := by
  cases hedge : op.atEdge fileLines <;> simp [patches, hedge]

theorem bucketTexts_ops (ops : List Op) (l : Nat) :
    bucketTexts (ops.flatMap (normalized fileLines targets autoDropPureInsertDuplicates)) l =
      textsBefore (patches fileLines targets autoDropPureInsertDuplicates ops) l := by
  induction ops with
  | nil => rfl
  | cons op ops ih =>
    rw [flatMap_cons, bucketTexts_append, ih, bucketTexts_normalized, patches_cons]
    by_cases hedge : op.atEdge fileLines = true
    · simp [hedge]
    · by_cases hline : op.line = l <;> simp [hedge, hline, textsBefore, patch]

theorem bucketDeletes_ops {ops : List Op} (hops : ∀ op ∈ ops, op.WellFormed ∧ op.InFile fileLines)
    (l : Nat) :
    bucketDeletes (ops.flatMap (normalized fileLines targets autoDropPureInsertDuplicates)) l =
      deleted (patches fileLines targets autoDropPureInsertDuplicates ops) l := by
  induction ops with
  | nil => rfl
  | cons op ops ih =>
    obtain ⟨hop, hfile⟩ := hops op mem_cons_self
    rw [flatMap_cons, bucketDeletes_append, bucketDeletes_normalized _ _ _ hop hfile,
      ih fun op hop => hops op (mem_cons_of_mem _ hop), patches_cons]
    by_cases hedge : op.atEdge fileLines = true <;> simp [hedge, deleted]

end Buckets

section Fits

variable {fileLines : List Text} {targets : List Nat} {autoDropPureInsertDuplicates : Bool}

variable {ops : List Op} {op : Op} {l : Nat}

theorem mem_patches {p : Patch Text} :
    p ∈ patches fileLines targets autoDropPureInsertDuplicates ops ↔
      ∃ op ∈ ops, op.atEdge fileLines = false ∧
        op.patch fileLines targets autoDropPureInsertDuplicates = p := by
  simp [patches, and_assoc]

theorem line_of_not_atEdge (hop : op.WellFormed) (hfile : op.InFile fileLines)
    (hedge : op.atEdge fileLines = false) : 1 ≤ op.line ∧ op.line ≤ fileLines.length := by
  cases op with
  | insert cursor payload =>
    cases cursor with
    | bof => cases hedge
    | eof => cases hedge
    | beforeAnchor anchor => exact hfile
    | afterAnchor anchor =>
      have hlt : anchor.line < fileLines.length := by simpa [atEdge] using hedge
      exact ⟨Nat.le_add_left _ _, hlt⟩
  | replace start stop payload => exact ⟨hfile.1, Nat.le_trans hop hfile.2⟩

theorem eq_replace_of_names (hop : op.WellFormed) (hfile : op.InFile fileLines)
    (hedge : op.atEdge fileLines = false) (hfirst : op.line ≤ l) (hlast : l ≤ op.stop) :
    ∃ start stop payload, op = .replace start stop payload := by
  cases op with
  | insert cursor payload =>
    have hline := line_of_not_atEdge hop hfile hedge
    simp only [stop] at hlast
    omega
  | replace start stop payload => exact ⟨start, stop, payload, rfl⟩

theorem above_getElem? {op : Op} (hop : op.WellFormed) (hfile : op.InFile fileLines) {k : Nat}
    (hk : k < op.above fileLines targets) :
    (op.kept fileLines autoDropPureInsertDuplicates)[k]? =
      fileLines[op.line - op.above fileLines targets - 1 + k]? := by
  cases op with
  | insert cursor payload => exact absurd hk (Nat.not_lt_zero k)
  | replace start stop payload =>
    obtain ⟨-, -, hlines, -⟩ := @above_spec fileLines targets start stop payload hop hfile.1
      (Nat.le_trans hop hfile.2)
    have hget := congrArg (·[k]?) hlines
    simp only [getElem?_take, if_pos hk, getElem?_drop] at hget
    rw [Op.kept, ← hget, Op.line, Nat.sub_right_comm]

theorem below_getElem? {op : Op} (hop : op.WellFormed) (hfile : op.InFile fileLines) {k : Nat}
    (hk : k < op.below fileLines targets) :
    (op.kept fileLines autoDropPureInsertDuplicates)[
        (op.kept fileLines autoDropPureInsertDuplicates).length - op.below fileLines targets + k]? =
      fileLines[op.stop + k]? := by
  cases op with
  | insert cursor payload => exact absurd hk (Nat.not_lt_zero k)
  | replace start stop payload =>
    obtain ⟨-, -, hlines, -⟩ := @below_spec fileLines targets start stop payload hop hfile.2
    have hget := congrArg (·[k]?) hlines
    simp only [getElem?_take, if_pos hk, getElem?_drop] at hget
    rw [Op.kept, ← hget, Op.stop]

theorem above_lt_line {op : Op} (hop : op.WellFormed) (hfile : op.InFile fileLines)
    (hedge : op.atEdge fileLines = false) : op.above fileLines targets < op.line := by
  cases op with
  | insert cursor payload => exact (line_of_not_atEdge hop hfile hedge).1
  | replace start stop payload =>
    exact (@above_spec fileLines targets start stop payload hop hfile.1
      (Nat.le_trans hop hfile.2)).lt_start

theorem stop_add_below_le {op : Op} (hop : op.WellFormed) (hfile : op.InFile fileLines)
    (hedge : op.atEdge fileLines = false) :
    op.stop + op.below fileLines targets ≤ fileLines.length := by
  cases op with
  | insert cursor payload =>
    have hline := line_of_not_atEdge hop hfile hedge
    simp only [stop, below]
    omega
  | replace start stop payload =>
    exact (@below_spec fileLines targets start stop payload hop hfile.2).le_lines

theorem not_mem_targets_of_absorbs (hop : op.WellFormed)
    (hl : (op.patch fileLines targets autoDropPureInsertDuplicates).AbsorbsAbove l ∨
      (op.patch fileLines targets autoDropPureInsertDuplicates).AbsorbsBelow l) : l ∉ targets := by
  simp only [Patch.AbsorbsAbove, Patch.AbsorbsBelow, patch] at hl
  cases op with
  | insert cursor payload =>
    simp only [above, below] at hl
    omega
  | replace start stop payload =>
    rcases hl with ⟨hfirst, hlast⟩ | ⟨hfirst, hlast⟩
    · exact not_mem_targets_of_above hop hfirst hlast
    · exact not_mem_targets_of_below hop hfirst hlast

theorem fits_patches (hops : ∀ op ∈ ops, op.WellFormed ∧ op.InFile fileLines)
    (htargets : ∀ op ∈ ops, op.atEdge fileLines = false → ∀ l, op.line ≤ l → l ≤ op.stop →
      l ∈ targets) :
    Fits fileLines (patches fileLines targets autoDropPureInsertDuplicates ops) := by
  have hpatch : ∀ p ∈ patches fileLines targets autoDropPureInsertDuplicates ops,
      ∃ op ∈ ops, (op.WellFormed ∧ op.InFile fileLines) ∧ op.atEdge fileLines = false ∧
        op.patch fileLines targets autoDropPureInsertDuplicates = p := by
    intro p hp
    obtain ⟨op, hop, hedge, heq⟩ := mem_patches.1 hp
    exact ⟨op, hop, hops op hop, hedge, heq⟩
  constructor
  · intro p hp
    obtain ⟨op, -, ⟨hop, hfile⟩, hedge, rfl⟩ := hpatch p hp
    exact line_of_not_atEdge hop hfile hedge
  · intro p hp
    obtain ⟨op, -, ⟨hop, hfile⟩, hedge, rfl⟩ := hpatch p hp
    exact above_lt_line hop hfile hedge
  · intro p hp k hk
    obtain ⟨op, -, ⟨hop, hfile⟩, -, rfl⟩ := hpatch p hp
    exact above_getElem? hop hfile hk
  · intro p hp k hk
    obtain ⟨op, -, ⟨hop, hfile⟩, -, rfl⟩ := hpatch p hp
    exact below_getElem? hop hfile hk
  · intro p hp hpos
    obtain ⟨op, -, ⟨hop, -⟩, -, rfl⟩ := hpatch p hp
    cases op with
    | insert => exact absurd hpos (Nat.lt_irrefl 0)
    | replace => exact hop
  · intro p hp q hq l hnames habove
    obtain ⟨op, -, ⟨hop, -⟩, -, rfl⟩ := hpatch p hp
    obtain ⟨other, hother, -, hedge, rfl⟩ := hpatch q hq
    exact not_mem_targets_of_absorbs hop (.inl habove)
      (htargets other hother hedge l hnames.1 hnames.2)
  · intro p hp q hq l hnames hbelow
    obtain ⟨op, -, ⟨hop, -⟩, -, rfl⟩ := hpatch p hp
    obtain ⟨other, hother, -, hedge, rfl⟩ := hpatch q hq
    exact not_mem_targets_of_absorbs hop (.inr hbelow)
      (htargets other hother hedge l hnames.1 hnames.2)

end Fits

section Splicing

variable {fileLines : List Text}

variable {edits : List Edit} {l : Nat}

theorem mem_bucketLines (h : l ∈ bucketLines edits) :
    bucketTexts edits l ≠ [] ∨ bucketDeletes edits l = true := by
  simp only [bucketLines, mem_insertionSort, mem_dedup, mem_filterMap] at h
  obtain ⟨edit, hmem, hline⟩ := h
  have hbucket : edit ∈ edits.filter (bucketLine? · = some l) :=
    mem_filter.2 ⟨hmem, by simpa using hline⟩
  cases edit with
  | insert cursor text lineNum index =>
    refine .inl (ne_nil_of_mem (a := text) ?_)
    exact mem_filterMap.2 ⟨_, hbucket, rfl⟩
  | delete anchor lineNum index => exact .inr (any_eq_true.2 ⟨_, hbucket, rfl⟩)

theorem bucketReplacement_eq_self (h : l ∉ bucketLines edits)
    (line : Text) : bucketReplacement edits l line = [line] := by
  have hnone : edits.filter (bucketLine? · = some l) = [] := by
    rw [filter_eq_nil_iff]
    intro edit hmem hline
    refine h ?_
    simp only [bucketLines, mem_insertionSort, mem_dedup, mem_filterMap]
    exact ⟨edit, hmem, by simpa using hline⟩
  simp [bucketReplacement, bucketDeletes, bucketTexts, hnone]

theorem pairwise_bucketLines (edits : List Edit) : (bucketLines edits).Pairwise (· > ·) := by
  have hsorted : (bucketLines edits).Pairwise (· ≥ ·) :=
    pairwise_insertionSort _ _
  have hnodup : (bucketLines edits).Nodup :=
    (perm_insertionSort _ _).nodup_iff.2 (nodup_dedup _)
  exact hsorted.imp₂ (fun a b hge hne => lt_of_le_of_ne hge hne.symm) hnodup

theorem spliceBuckets_eq_flatMap (hmem : ∀ l ∈ bucketLines edits, 1 ≤ l ∧ l ≤ fileLines.length) :
    spliceBuckets edits fileLines =
      (fileLines.zipIdx 1).flatMap fun line => bucketReplacement edits line.2 line.1 := by
  have hsplice := foldl_splice [] (bucketReplacement edits) (pairwise_bucketLines edits) [] hmem
    fun l _ hl line => bucketReplacement_eq_self hl line
  rw [append_nil, append_nil] at hsplice
  exact hsplice

theorem spliceBuckets_eq_render {patches : List (Patch Text)}
    (htexts : ∀ l, bucketTexts edits l = textsBefore patches l)
    (hdeletes : ∀ l, bucketDeletes edits l = deleted patches l)
    (hmem : ∀ l ∈ bucketLines edits, 1 ≤ l ∧ l ≤ fileLines.length) :
    spliceBuckets edits fileLines = render fileLines patches := by
  rw [spliceBuckets_eq_flatMap hmem, ← flatMap_zipIdx_eq_render]
  refine flatMap_congr fun line _ => ?_
  rw [bucketReplacement, htexts, hdeletes]
  cases deleted patches line.2 <;> simp

end Splicing

end Vibrato.Hashline
