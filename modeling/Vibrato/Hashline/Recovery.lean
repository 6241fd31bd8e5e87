import Vibrato.Hashline.Execute

/-! The gate of `hashline/recovery.ts`: edits are replayed on a snapshot only if the snapshot
vouches for each of their anchors. -/

namespace Vibrato.Hashline

open List

def collectEditAnchors : List Edit → List Anchor
  | [] => []
  | .delete anchor _ _ :: edits => anchor :: collectEditAnchors edits
  | .insert (.beforeAnchor anchor) _ _ _ :: edits => anchor :: collectEditAnchors edits
  | .insert (.afterAnchor anchor) _ _ _ :: edits => anchor :: collectEditAnchors edits
  | .insert .bof _ _ _ :: edits | .insert .eof _ _ _ :: edits => collectEditAnchors edits

def vouched (snapshot : FileReadSnapshot) (edits : List Edit) : Bool :=
  (collectEditAnchors edits).all fun anchor =>
    (snapshot.line? anchor.line).any fun line => computeLineHash line = anchor.hash

theorem collectEditAnchors_eq (edits : List Edit) :
    collectEditAnchors edits = edits.flatMap getHashlineEditAnchors := by
  induction edits with
  | nil => rfl
  | cons edit edits ih =>
    cases edit with
    | delete anchor => simp [collectEditAnchors, getHashlineEditAnchors, ih]
    | insert cursor =>
      cases cursor <;> simp [collectEditAnchors, getHashlineEditAnchors, ih]

theorem computeLineHash_ne_interior (line : Text) : computeLineHash line ≠ RANGE_INTERIOR_HASH := by
  have hnone : RANGE_INTERIOR_HASH ∉ HL_BIGRAMS := by
    intro hmem
    obtain ⟨a, ha, hpair⟩ := mem_flatMap.mp (mem_of_mem_filter hmem)
    obtain ⟨b, -, heq⟩ := mem_map.mp hpair
    obtain rfl : a = '*' := (cons.inj heq).1
    exact absurd ha (by decide +kernel)
  unfold computeLineHash
  rw [getD_eq_getElem?_getD]
  generalize (xxHash32 _).toNat % HL_BIGRAMS_COUNT = k
  cases hk : HL_BIGRAMS[k]? with
  | none => exact (cons_ne_nil _ _).symm
  | some hash =>
    intro heq
    exact hnone (heq ▸ mem_of_getElem? hk)

namespace Op

def anchors : Op → List Anchor
  | .insert (.beforeAnchor anchor) _ => [anchor]
  | .insert (.afterAnchor anchor) _ => [anchor]
  | .insert _ _ => []
  | .replace start stop _ => [start, stop]

def hasInterior : Op → Bool
  | .insert _ _ => false
  | .replace start stop _ => start.line + 1 < stop.line

def FillsIn : Op → Anchor → Prop
  | .insert _ _, _ => False
  | .replace start stop _, anchor =>
    start.line < anchor.line ∧ anchor.line < stop.line ∧ anchor.hash = RANGE_INTERIOR_HASH

variable {op : Op} {anchor : Anchor}

theorem FillsIn.hash (h : op.FillsIn anchor) : anchor.hash = RANGE_INTERIOR_HASH := by
  cases op with
  | insert => exact h.elim
  | replace => exact h.2.2

theorem FillsIn.pos (h : op.FillsIn anchor) : 1 ≤ anchor.line := by
  cases op with
  | insert => exact h.elim
  | replace start =>
    have hafter : start.line < anchor.line := h.1
    omega

theorem hasInterior_iff (op : Op) : op.hasInterior = true ↔ ∃ anchor, op.FillsIn anchor := by
  cases op with
  | insert cursor payload => simp [hasInterior, FillsIn]
  | replace start stop payload =>
    rw [hasInterior, decide_eq_true_eq]
    constructor
    · intro hlt
      exact ⟨⟨start.line + 1, RANGE_INTERIOR_HASH⟩, Nat.lt_succ_self _, hlt, rfl⟩
    · rintro ⟨anchor, hstart, hstop, -⟩
      omega

end Op

/-- What `parseOp` guarantees of the anchors: they are numbered from 1, carry no filler hash, and
are equal if they name the same line. -/
def Op.Anchored (op : Op) : Prop :=
  (∀ anchor ∈ op.anchors, 1 ≤ anchor.line ∧ anchor.hash ≠ RANGE_INTERIOR_HASH) ∧
    ∀ start stop payload, op = .replace start stop payload →
      start.line ≤ stop.line ∧ (start.line = stop.line → start = stop)

variable {anchor : Anchor} {raw : Text} {lineNum : Nat} {next rest warnings : List Text} {op : Op}
    {edits : List Edit}

theorem mem_expandRange {start stop : Anchor} (hle : start.line ≤ stop.line)
    (hsame : start.line = stop.line → start = stop) :
    anchor ∈ expandRange start stop ↔ anchor = start ∨ anchor = stop ∨
      start.line < anchor.line ∧ anchor.line < stop.line ∧ anchor.hash = RANGE_INTERIOR_HASH := by
  unfold expandRange
  rw [mem_map]
  constructor
  · rintro ⟨k, hk, rfl⟩
    rw [mem_range] at hk
    dsimp only
    split
    · next hfirst =>
      left
      rw [hfirst]
    split
    · next hlast =>
      right
      left
      rw [hlast]
    · right
      right
      exact ⟨by omega, by omega, rfl⟩
  · rintro (rfl | rfl | ⟨hstart, hstop, hhash⟩)
    · refine ⟨0, mem_range.2 (by omega), ?_⟩
      simp
    · refine ⟨anchor.line - start.line, mem_range.2 (by omega), ?_⟩
      by_cases hline : start.line = anchor.line
      · rw [hsame hline]
        simp
      · have hnot : anchor.line ≠ start.line := fun heq => hline heq.symm
        have hsum : start.line + (anchor.line - start.line) = anchor.line := by omega
        simp [hsum, hnot]
    · refine ⟨anchor.line - start.line, mem_range.2 (by omega), ?_⟩
      have hsum : start.line + (anchor.line - start.line) = anchor.line := by omega
      have hfirst : anchor.line ≠ start.line := by omega
      have hlast : anchor.line ≠ stop.line := by omega
      simp only [hsum, if_neg hfirst, if_neg hlast, ← hhash]

theorem parseDigits_pos {digits : Text} (hne : digits ≠ []) (hzero : digits.head? ≠ some '0')
    (hdigits : ∀ c ∈ digits, Text.isDigit c = true) : 1 ≤ Text.parseDigits digits := by
  have hgrows :
      ∀ (rest : Text) (n : Nat), n ≤ rest.foldl (fun n c => 10 * n + (c.toNat - '0'.toNat)) n := by
    intro rest
    induction rest with
    | nil => exact fun n => Nat.le_refl n
    | cons c rest ih =>
      intro n
      have hstep := ih (10 * n + (c.toNat - '0'.toNat))
      rw [foldl_cons]
      omega
  cases digits with
  | nil => exact absurd rfl hne
  | cons c rest =>
    have hdigit := hdigits c mem_cons_self
    rw [Text.isDigit, Bool.and_eq_true, decide_eq_true_eq, Char.le_def] at hdigit
    have hnot : c.toNat ≠ '0'.toNat := fun heq => hzero (by rw [head?_cons, Char.toNat_inj.1 heq])
    have hfirst : 1 ≤ 10 * 0 + (c.toNat - '0'.toNat) := by
      have hle : '0'.toNat ≤ c.toNat := hdigit.1
      omega
    exact Nat.le_trans hfirst (hgrows rest _)

theorem parseLid_spec (h : parseLid raw lineNum = .ok anchor) :
    1 ≤ anchor.line ∧ anchor.hash ≠ RANGE_INTERIOR_HASH := by
  unfold parseLid at h
  dsimp only at h
  split at h
  · split at h
    · next hmatch =>
      obtain ⟨hne, hzero, ha, -, -⟩ := hmatch
      cases h
      refine ⟨parseDigits_pos hne hzero fun c hc => mem_takeWhile_imp hc, ?_⟩
      intro heq
      rw [(List.cons.inj heq).1] at ha
      exact absurd ha (by decide)
    · cases h
  · cases h

theorem parseInsertTarget_anchored {side : Side} {target : Text} {cursor : Cursor}
    (h : parseInsertTarget target lineNum side = .ok cursor) (payload : List Text) :
    (Op.insert cursor payload).Anchored := by
  refine ⟨?_, fun _ _ _ heq => by cases heq⟩
  unfold parseInsertTarget at h
  split at h
  · cases h
    exact fun _ hnone => (not_mem_nil hnone).elim
  split at h
  · cases h
    exact fun _ hnone => (not_mem_nil hnone).elim
  obtain ⟨anchor, hlid, h⟩ := bind_eq_ok.1 h
  have hanchors : ∀ anchor' ∈ [anchor], 1 ≤ anchor'.line ∧ anchor'.hash ≠ RANGE_INTERIOR_HASH := by
    intro anchor' hmem
    rw [mem_singleton.1 hmem]
    exact parseLid_spec hlid
  cases side with
  | before =>
    cases h
    exact hanchors
  | after =>
    cases h
    exact hanchors

theorem parseRange_anchored {range : Anchor × Anchor} (h : parseRange raw lineNum = .ok range)
    (payload : List Text) :
    (Op.replace range.1 range.2 payload).Anchored := by
  obtain ⟨⟨startLine, startHash⟩, stopLine, stopHash⟩ := range
  obtain ⟨startRaw, endRaw, hstart, hstop, hle, hsame⟩ := parseRange_cases h
  constructor
  · intro anchor hmem
    rcases mem_cons.1 hmem with rfl | hmem
    · exact parseLid_spec hstart
    · rw [mem_singleton.1 hmem]
      exact parseLid_spec hstop
  · intro start' stop' payload' heq
    cases heq
    refine ⟨hle, fun hline => ?_⟩
    have hhash := hsame hline
    simp only at hline hhash
    rw [hline, hhash]

theorem parseOp_anchored {line : Text} (h : parseOp lineNum line rest = .ok (op, next)) :
    op.Anchored := by
  rcases (parseOp_cases h).2 with ⟨_, _, _, payload, hcursor, _, rfl⟩ | ⟨_, _, payload, hrange, rfl⟩
  · exact parseInsertTarget_anchored hcursor payload
  · exact parseRange_anchored hrange payload

theorem mem_anchors_insertEdits {cursor : Cursor} {payload : List Text} (hne : payload ≠ [])
    (lineNum index : Nat) (anchor : Anchor) :
    anchor ∈ collectEditAnchors (insertEdits cursor payload lineNum index) ↔
      anchor ∈ (Op.insert cursor payload).anchors := by
  have hedit : ∀ text index', getHashlineEditAnchors (.insert cursor text lineNum index') =
      (Op.insert cursor payload).anchors := by
    intro text index'
    cases cursor <;> rfl
  rw [collectEditAnchors_eq, mem_flatMap]
  constructor
  · rintro ⟨edit, hedit', hanchor⟩
    obtain ⟨k, hk, rfl⟩ := mem_mapIdx.1 hedit'
    rw [hedit] at hanchor
    exact hanchor
  · intro hanchor
    have hpos : 0 < payload.length := length_pos_iff.2 hne
    refine ⟨_, mem_mapIdx.2 ⟨0, hpos, rfl⟩, ?_⟩
    rw [hedit]
    exact hanchor

theorem collectEditAnchors_deleteEdits (anchors : List Anchor) (lineNum index : Nat) :
    collectEditAnchors (deleteEdits anchors lineNum index) = anchors := by
  unfold deleteEdits
  induction anchors generalizing index with
  | nil => rfl
  | cons anchor anchors ih =>
    rw [mapIdx_cons, collectEditAnchors]
    have hshift : (anchors.mapIdx fun k anchor => Edit.delete anchor lineNum (index + (k + 1))) =
        anchors.mapIdx fun k anchor => Edit.delete anchor lineNum (index + 1 + k) := by
      congr
      funext k
      rw [Nat.add_assoc, Nat.add_comm 1 k]
    rw [hshift, ih]

theorem collectEditAnchors_append (edits later : List Edit) :
    collectEditAnchors (edits ++ later) = collectEditAnchors edits ++ collectEditAnchors later := by
  simp only [collectEditAnchors_eq, flatMap_append]

theorem Op.mem_anchors_edits (hwf : op.WellFormed) (hanchored : op.Anchored) (lineNum index : Nat)
    (anchor : Anchor) :
    anchor ∈ collectEditAnchors (op.edits lineNum index) ↔ anchor ∈ op.anchors ∨
      op.FillsIn anchor := by
  cases op with
  | insert cursor payload =>
    rw [Op.edits, mem_anchors_insertEdits hwf]
    simp only [FillsIn, or_false]
  | replace start stop payload =>
    obtain ⟨hle, hsame⟩ := hanchored.2 start stop payload rfl
    rw [Op.edits, collectEditAnchors_append, mem_append, collectEditAnchors_deleteEdits,
      mem_expandRange hle hsame]
    have hpayload : anchor ∈ collectEditAnchors
        (insertEdits (.beforeAnchor start) payload lineNum index) → anchor = start := by
      intro hmem
      by_cases hne : payload = []
      · rw [hne] at hmem
        exact (not_mem_nil hmem).elim
      · exact mem_singleton.1 ((mem_anchors_insertEdits hne _ _ _).1 hmem)
    simp only [anchors, FillsIn, mem_cons, not_mem_nil, or_false]
    constructor
    · rintro (hmem | hrest)
      · exact .inl (.inl (hpayload hmem))
      · exact or_assoc.2 hrest
    · exact fun h => .inr (or_assoc.1 h)

theorem mem_anchors_opsEdits {ops : List (Nat × Op)}
    (hops : ∀ op ∈ ops, op.2.WellFormed ∧ op.2.Anchored) (index : Nat) (anchor : Anchor) :
    anchor ∈ collectEditAnchors (opsEdits index ops) ↔ ∃ op ∈ ops, anchor ∈ op.2.anchors ∨
      op.2.FillsIn anchor := by
  induction ops generalizing index with
  | nil => simp [opsEdits, collectEditAnchors]
  | cons op ops ih =>
    obtain ⟨hwf, hanchored⟩ := hops op mem_cons_self
    rw [opsEdits, collectEditAnchors_append, mem_append,
      Op.mem_anchors_edits hwf hanchored, ih fun op' hop' => hops op' (mem_cons_of_mem _ hop')]
    simp only [mem_cons, exists_eq_or_imp]

theorem validateAnchors_spec {fileLines : List Text} {anchors : List Anchor}
    (hlines : ∀ anchor ∈ anchors, 1 ≤ anchor.line ∧ anchor.line ≤ fileLines.length) :
    ∃ mismatches, validateAnchors fileLines anchors = .ok mismatches ∧
      (mismatches ≠ [] ↔ ∃ anchor ∈ anchors, anchor.hash ≠ RANGE_INTERIOR_HASH ∧
        computeLineHash (lineAt fileLines anchor.line) ≠ anchor.hash) := by
  induction anchors with
  | nil => exact ⟨[], rfl, by simp⟩
  | cons anchor anchors ih =>
    obtain ⟨later, hlater, hiff⟩ := ih fun anchor' hmem => hlines anchor' (mem_cons_of_mem _ hmem)
    have hinside := hlines anchor mem_cons_self
    have hnot : ¬(anchor.line < 1 ∨ fileLines.length < anchor.line) := by omega
    unfold validateAnchors
    rw [if_neg hnot, hlater]
    dsimp only [bind, Except.bind, pure, Except.pure]
    split
    · next hpass =>
      refine ⟨later, rfl, ?_⟩
      have hself : ¬(anchor.hash ≠ RANGE_INTERIOR_HASH ∧
          computeLineHash (lineAt fileLines anchor.line) ≠ anchor.hash) := by
        rintro ⟨hhash, hline⟩
        exact hpass.elim hhash hline
      rw [hiff]
      simp only [mem_cons, exists_eq_or_imp, hself, false_or]
    · next hfail =>
      refine ⟨_, rfl, ?_⟩
      have hself := not_or.1 hfail
      simp only [ne_eq, reduceCtorEq, not_false_eq_true, true_iff]
      exact ⟨anchor, mem_cons_self, hself⟩

variable {snapshot : FileReadSnapshot} {fileLines : List Text}

def SameLines (snapshot : FileReadSnapshot) (fileLines : List Text) (edits : List Edit) : Prop :=
  ∀ anchor ∈ collectEditAnchors edits, (snapshot.line? anchor.line).isSome = true ∧
    fileLines[anchor.line - 1]? = snapshot.line? anchor.line

instance (edits : List Edit) : Decidable (SameLines snapshot fileLines edits) :=
  inferInstanceAs (Decidable (∀ anchor ∈ collectEditAnchors edits,
    (snapshot.line? anchor.line).isSome = true ∧
      fileLines[anchor.line - 1]? = snapshot.line? anchor.line))

theorem SameLines.line_eq (h : SameLines snapshot fileLines edits)
    (hanchor : anchor ∈ collectEditAnchors edits) :
    snapshot.line? anchor.line = some (lineAt fileLines anchor.line) ∧
      anchor.line - 1 < fileLines.length := by
  obtain ⟨hsome, hfile⟩ := h anchor hanchor
  obtain ⟨line, hline⟩ := Option.isSome_iff_exists.1 hsome
  rw [hline] at hfile
  rw [lineAt, getD_eq_getElem?_getD, hfile, hline]
  exact ⟨rfl, (List.getElem?_eq_some_iff.1 hfile).1⟩

theorem vouched_eq_false (hlines : SameLines snapshot fileLines edits) :
    vouched snapshot edits = false ↔ ∃ anchor ∈ collectEditAnchors edits,
      computeLineHash (lineAt fileLines anchor.line) ≠ anchor.hash := by
  unfold vouched
  rw [all_eq_false]
  refine exists_congr fun anchor => and_congr_right fun hmem => ?_
  rw [(hlines.line_eq hmem).1, Option.any_some, decide_eq_true_eq]

theorem parseHashlineOps_spec {diff : Text} {ops : List (Nat × Op)}
    (h : parseHashlineOps diff = .ok (ops, warnings)) :
    ∀ op ∈ ops, op.2.WellFormed ∧ op.2.Anchored := by
  intro op hop
  obtain ⟨⟨_, _, _, hread⟩, -⟩ := (parseOps_spec h).1 op hop
  exact ⟨parseOp_wellFormed hread, parseOp_anchored hread⟩

section Gate

variable {ops : List (Nat × Op)} (hops : ∀ op ∈ ops, op.2.WellFormed ∧ op.2.Anchored)
  (hlines : SameLines snapshot fileLines (opsEdits 0 ops))

include hops hlines

variable {anchor : Anchor}

theorem anchors_inFile (hanchor : anchor ∈ collectEditAnchors (opsEdits 0 ops)) :
    1 ≤ anchor.line ∧ anchor.line ≤ fileLines.length := by
  have hlt := (hlines.line_eq hanchor).2
  obtain ⟨op, hop, hwrites | hfills⟩ := (mem_anchors_opsEdits hops 0 anchor).1 hanchor
  · have hpos := ((hops op hop).2.1 anchor hwrites).1
    omega
  · have hpos := hfills.pos
    omega

theorem snapshot_hash_ne_iff {op : Nat × Op} (hop : op ∈ ops) (hanchor : anchor ∈ op.2.anchors) :
    (snapshot.line? anchor.line).map computeLineHash ≠ some anchor.hash ↔
      computeLineHash (lineAt fileLines anchor.line) ≠ anchor.hash := by
  have hmem := (mem_anchors_opsEdits hops 0 anchor).2 ⟨op, hop, .inl hanchor⟩
  rw [(hlines.line_eq hmem).1, Option.map_some, ne_eq, Option.some.injEq]

theorem validate_reports_iff :
    (∃ mismatches, validateHashlineAnchors (opsEdits 0 ops) fileLines = .ok mismatches ∧
      mismatches ≠ []) ↔
      ∃ op ∈ ops, ∃ anchor ∈ op.2.anchors, (snapshot.line? anchor.line).map computeLineHash ≠
        some anchor.hash := by
  have hmem := mem_anchors_opsEdits hops 0
  obtain ⟨mismatches, hvalid, hreports⟩ :=
    validateAnchors_spec fun anchor hanchor => anchors_inFile hops hlines hanchor
  rw [validateHashlineAnchors, ← collectEditAnchors_eq, hvalid]
  constructor
  · rintro ⟨found, heq, hne⟩
    cases heq
    obtain ⟨anchor, hanchor, hnot, hline⟩ := hreports.1 hne
    obtain ⟨op, hop, hwrites | hfills⟩ := (hmem anchor).1 hanchor
    · exact ⟨op, hop, anchor, hwrites, (snapshot_hash_ne_iff hops hlines hop hwrites).2 hline⟩
    · exact absurd hfills.hash hnot
  · rintro ⟨op, hop, anchor, hwrites, hline⟩
    exact ⟨mismatches, rfl, hreports.2 ⟨anchor, (hmem anchor).2 ⟨op, hop, .inl hwrites⟩,
      ((hops op hop).2.1 anchor hwrites).2, (snapshot_hash_ne_iff hops hlines hop hwrites).1 hline⟩⟩

theorem gate_refuses_iff : vouched snapshot (opsEdits 0 ops) = false ↔
    (∃ op ∈ ops, op.2.hasInterior = true) ∨ ∃ op ∈ ops, ∃ anchor ∈ op.2.anchors,
      (snapshot.line? anchor.line).map computeLineHash ≠ some anchor.hash := by
  have hmem := mem_anchors_opsEdits hops 0
  rw [vouched_eq_false hlines]
  constructor
  · rintro ⟨anchor, hanchor, hline⟩
    obtain ⟨op, hop, hwrites | hfills⟩ := (hmem anchor).1 hanchor
    · right
      exact ⟨op, hop, anchor, hwrites, (snapshot_hash_ne_iff hops hlines hop hwrites).2 hline⟩
    · left
      exact ⟨op, hop, op.2.hasInterior_iff.2 ⟨anchor, hfills⟩⟩
  · rintro (⟨op, hop, hinterior⟩ | ⟨op, hop, anchor, hwrites, hline⟩)
    · obtain ⟨anchor, hfills⟩ := op.2.hasInterior_iff.1 hinterior
      refine ⟨anchor, (hmem anchor).2 ⟨op, hop, .inr hfills⟩, ?_⟩
      rw [hfills.hash]
      exact computeLineHash_ne_interior _
    · exact ⟨anchor, (hmem anchor).2 ⟨op, hop, .inl hwrites⟩,
        (snapshot_hash_ne_iff hops hlines hop hwrites).1 hline⟩

end Gate

/-- The gate refuses what the validation would report, and nothing else, exactly if the batch has no
range of three lines or more, or an anchor that is written in it does not match the snapshot. -/
theorem vouchingGate_agrees_iff {diff : Text} {ops : List (Nat × Op)} {edits : List Edit}
    {warnings : List Text} (hparse : parseHashlineWithWarnings diff = .ok (edits, warnings))
    (hops : parseHashlineOps diff = .ok (ops, warnings))
    (hlines : SameLines snapshot fileLines edits) :
    (vouched snapshot edits = false ↔
        ∃ mismatches, validateHashlineAnchors edits fileLines = .ok mismatches ∧ mismatches ≠ []) ↔
      (∀ op ∈ ops, op.2.hasInterior = false) ∨
        ∃ op ∈ ops, ∃ anchor ∈ op.2.anchors, (snapshot.line? anchor.line).map computeLineHash ≠
          some anchor.hash := by
  have hspec := parseHashlineOps_spec hops
  rw [parseHashlineWithWarnings_eq, hops] at hparse
  obtain rfl : opsEdits 0 ops = edits := (Prod.mk.inj (Except.ok.inj hparse)).1
  rw [validate_reports_iff hspec hlines, gate_refuses_iff hspec hlines]
  have hnone : (∀ op ∈ ops, op.2.hasInterior = false) ↔ ¬∃ op ∈ ops, op.2.hasInterior = true := by
    push Not
    simp
  rw [hnone, or_iff_right_iff_imp, imp_iff_not_or]

/-- The three lines `a`, `b`, `c` as they were read. -/
def abcSnapshot : FileReadSnapshot := [(1, ['a']), (2, ['b']), (3, ['c'])]

/-- The replacement of the lines from `a` to `stop`. -/
def replaceFromA (stop : Anchor) : List (Nat × Op) := [(1, .replace ⟨1, "hs".toList⟩ stop [['d']])]

theorem vouchingGate_agrees_two_lines :
    vouched abcSnapshot (opsEdits 0 (replaceFromA ⟨2, "yo".toList⟩)) = false ↔
      ∃ mismatches, validateHashlineAnchors (opsEdits 0 (replaceFromA ⟨2, "yo".toList⟩))
        [['a'], ['b'], ['c']] = .ok mismatches ∧ mismatches ≠ [] := by
  have hparse : parseHashlineWithWarnings "≔1hs..2yo\nd".toList =
      .ok (opsEdits 0 (replaceFromA ⟨2, "yo".toList⟩), []) := by decide +kernel
  have hops : parseHashlineOps "≔1hs..2yo\nd".toList = .ok (replaceFromA ⟨2, "yo".toList⟩, []) := by
    decide +kernel
  exact (vouchingGate_agrees_iff hparse hops (by decide +kernel)).2 (.inl (by decide))

/-- Both ends of the range match the snapshot, and the gate refuses the line between them. -/
theorem vouchingGate_refuses_interior :
    parseHashlineWithWarnings "≔1hs..3ni\nd".toList =
        .ok (opsEdits 0 (replaceFromA ⟨3, "ni".toList⟩), []) ∧
      SameLines abcSnapshot [['a'], ['b'], ['c']] (opsEdits 0 (replaceFromA ⟨3, "ni".toList⟩)) ∧
      ¬(vouched abcSnapshot (opsEdits 0 (replaceFromA ⟨3, "ni".toList⟩)) = false ↔
        ∃ mismatches, validateHashlineAnchors (opsEdits 0 (replaceFromA ⟨3, "ni".toList⟩))
          [['a'], ['b'], ['c']] = .ok mismatches ∧ mismatches ≠ []) := by
  refine ⟨by decide +kernel, by decide +kernel, fun h => ?_⟩
  obtain ⟨mismatches, hvalid, hne⟩ := h.1 (by decide +kernel)
  have hnone : validateHashlineAnchors (opsEdits 0 (replaceFromA ⟨3, "ni".toList⟩))
      [['a'], ['b'], ['c']] = .ok [] := by decide +kernel
  rw [hnone] at hvalid
  exact hne (Except.ok.inj hvalid).symm

end Vibrato.Hashline
