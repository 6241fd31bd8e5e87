import Vibrato.Hashline.Merging

/-! Operations as the grammar of `grammar.lark` writes them, and that the parser reads them back. -/

namespace Vibrato.Hashline

open List Text

inductive Target where
  | bof
  | eof
  | anchor (anchor : Anchor)

/-- An operation of the grammar.  The range of a replacement is one anchor or two. -/
inductive GrammarOp where
  | insert (side : Side) (target : Target) (payload : List Text)
  | replaceLine (anchor : Anchor) (payload : List Text)
  | replaceRange (start stop : Anchor) (payload : List Text)

/-- `LID`: a line number from one on, and two letters. -/
structure Anchor.IsLid (anchor : Anchor) : Prop where
  line_pos : 0 < anchor.line
  hash : ∃ a b, anchor.hash = [a, b] ∧ isLower a = true ∧ isLower b = true

/-- A line that a payload can have: within one line, without the sign of an operation or of a file
at its start, and no marker. -/
structure IsPayloadLine (line : Text) : Prop where
  no_return : '\r' ∉ line
  no_newline : '\n' ∉ line
  no_sign : ∀ c ∈ line.head?, c ≠ HL_FILE_PREFIX ∧ c ∉ HL_OP_CHARS
  no_marker : isEnvelopeOrAbortMarkerLine line = false

namespace Target

def render : Target → Text
  | bof => "BOF".toList
  | eof => "EOF".toList
  | anchor a => ofNat a.line ++ a.hash

def cursor (side : Side) : Target → Cursor
  | bof => .bof
  | eof => .eof
  | anchor a =>
    match side with
    | .before => .beforeAnchor a
    | .after => .afterAnchor a

end Target

def Side.sign : Side → Char
  | .before => HL_OP_INSERT_BEFORE
  | .after => HL_OP_INSERT_AFTER

namespace GrammarOp

def payload : GrammarOp → List Text
  | insert _ _ payload => payload
  | replaceLine _ payload => payload
  | replaceRange _ _ payload => payload

def headLine : GrammarOp → Text
  | insert side target _ => side.sign :: target.render
  | replaceLine anchor _ => HL_OP_REPLACE :: (Target.anchor anchor).render
  | replaceRange start stop _ =>
    HL_OP_REPLACE :: ((Target.anchor start).render ++ "..".toList ++ (Target.anchor stop).render)

def op : GrammarOp → Op
  | insert side target payload => .insert (target.cursor side) payload
  | replaceLine anchor payload => .replace anchor anchor payload
  | replaceRange start stop payload => .replace start stop payload

def WellFormed : GrammarOp → Prop
  | insert _ target payload => payload ≠ [] ∧ ∀ a, target = .anchor a → a.IsLid
  | replaceLine anchor _ => anchor.IsLid
  | replaceRange start stop _ =>
    start.IsLid ∧ stop.IsLid ∧ (start.line < stop.line ∨ start = stop)

end GrammarOp

variable (ops : List GrammarOp) {s : Text} {op : GrammarOp}

def opLines : List Text := ops.flatMap fun op => op.headLine :: op.payload

def renderOps : Text := (opLines ops).flatMap (· ++ ['\n'])

def numberOps : Nat → List GrammarOp → List (Nat × Op)
  | _, [] => []
  | n, op :: ops => (n, op.op) :: numberOps (n + 1 + op.payload.length) ops

def isLidChar (c : Char) : Bool := isDigit c || isLower c

theorem isLidChar_spec {c : Char} (h : isLidChar c = true) :
    isSpace c = false ∧ c ≠ HL_BODY_SEP ∧ c ≠ '.' ∧ c ∉ ['>', '+', '-', '*'] ∧
      c ∉ ['+', '<', '-', '='] := by
  have hrange : (48 ≤ c.toNat ∧ c.toNat ≤ 57) ∨ (97 ≤ c.toNat ∧ c.toNat ≤ 122) := by
    unfold isLidChar isDigit isLower at h
    simp only [Bool.or_eq_true, Bool.and_eq_true, decide_eq_true_eq] at h
    exact h
  have hne : ∀ d : Char, d.toNat < 48 ∨ (57 < d.toNat ∧ d.toNat < 97) ∨ 122 < d.toNat → c ≠ d := by
    rintro d hd rfl
    omega
  refine ⟨?_, hne _ (by decide), hne _ (by decide), ?_, ?_⟩
  · unfold isSpace
    simp only [Bool.or_eq_false_iff, Bool.and_eq_false_iff, decide_eq_false_iff_not,
      beq_eq_false_iff_ne]
    omega
  · simp only [mem_cons, not_mem_nil, or_false, not_or]
    exact ⟨hne _ (by decide), hne _ (by decide), hne _ (by decide), hne _ (by decide)⟩
  · simp only [mem_cons, not_mem_nil, or_false, not_or]
    exact ⟨hne _ (by decide), hne _ (by decide), hne _ (by decide), hne _ (by decide)⟩

theorem takeWhile_eq_self_of_all {p : Char → Bool} (h : ∀ c ∈ s, p c = true) :
    s.takeWhile p = s ∧ s.dropWhile p = [] :=
  ⟨takeWhile_eq_self_iff.2 h, dropWhile_eq_nil_iff.2 h⟩

section Lid

variable {anchor : Anchor}

theorem Anchor.IsLid.chars (h : anchor.IsLid) :
    ∀ c ∈ (Target.anchor anchor).render, isLidChar c = true := by
  intro c hc
  obtain ⟨a, b, hhash, ha, hb⟩ := h.hash
  rcases mem_append.1 hc with hc | hc
  · rw [isLidChar, isDigit_of_mem_ofNat hc, Bool.true_or]
  · rw [hhash] at hc
    have hlower : isLower c = true := by
      rcases mem_cons.1 hc with rfl | hc
      · exact ha
      · rw [mem_singleton.1 hc]
        exact hb
    rw [isLidChar, hlower, Bool.or_true]

theorem Anchor.IsLid.ne_nil (_h : anchor.IsLid) : (Target.anchor anchor).render ≠ [] :=
  append_ne_nil_of_left_ne_nil Nat.toDigits_ne_nil _

theorem dropWhile_lid {p : Char → Bool} (hp : ∀ c, isLidChar c = true → p c = false) {s : Text}
    (hs : ∀ c ∈ s, isLidChar c = true) : s.dropWhile p = s := by
  cases s with
  | nil => rfl
  | cons c s =>
    exact dropWhile_cons_of_neg (by rw [hp c (hs c mem_cons_self)]; exact Bool.false_ne_true)

theorem not_isDigit_of_isLower {c : Char} (h : isLower c = true) : isDigit c = false := by
  unfold isLower at h
  unfold isDigit
  simp only [Bool.and_eq_true, decide_eq_true_eq] at h
  simp only [Bool.and_eq_false_iff, decide_eq_false_iff_not]
  right
  intro hle
  exact absurd (Char.le_trans h.1 hle) (by decide)

theorem parseLid_render (h : anchor.IsLid) (lineNum : Nat) :
    parseLid (Target.anchor anchor).render lineNum = .ok anchor := by
  have hstart : trimStart (Target.anchor anchor).render = (Target.anchor anchor).render :=
    dropWhile_lid (fun c hc => (isLidChar_spec hc).1) h.chars
  have hdecoration : ((Target.anchor anchor).render.dropWhile fun c => c ∈ ['>', '+', '-', '*']) =
      (Target.anchor anchor).render :=
    dropWhile_lid (fun c hc => decide_eq_false (isLidChar_spec hc).2.2.2.1) h.chars
  obtain ⟨a, b, hhash, ha, hb⟩ := h.hash
  have hdigits : ∀ c ∈ ofNat anchor.line, isDigit c = true := fun c => isDigit_of_mem_ofNat
  have htake : (Target.anchor anchor).render.takeWhile isDigit = ofNat anchor.line := by
    rw [Target.render, takeWhile_append_of_pos hdigits, hhash,
      takeWhile_cons_of_neg (by rw [not_isDigit_of_isLower ha]; exact Bool.false_ne_true),
      append_nil]
  have hdrop : (Target.anchor anchor).render.dropWhile isDigit = [a, b] := by
    rw [Target.render, dropWhile_append_of_pos hdigits, hhash,
      dropWhile_cons_of_neg (by rw [not_isDigit_of_isLower ha]; exact Bool.false_ne_true)]
  have hne : ofNat anchor.line ≠ [] := Nat.toDigits_ne_nil
  unfold parseLid
  dsimp only
  rw [hstart, hdecoration, hstart, htake, hdrop]
  dsimp only
  rw [if_pos ⟨hne, head?_ofNat h.line_pos, ha, hb, rfl⟩, parseDigits_ofNat, ← hhash]

theorem parseInsertTarget_render (target : Target) (h : ∀ a, target = .anchor a → a.IsLid)
    (lineNum : Nat) (side : Side) :
    parseInsertTarget target.render lineNum side = .ok (target.cursor side) := by
  cases target with
  | bof => rfl
  | eof => rfl
  | anchor a =>
    have hlid := h a rfl
    have hnot : ∀ word : Text, 'O' ∈ word → (Target.anchor a).render ≠ word := by
      rintro word hword rfl
      exact absurd (hlid.chars 'O' hword) (by decide)
    unfold parseInsertTarget
    rw [if_neg (hnot _ (by decide)), if_neg (hnot _ (by decide)), parseLid_render hlid]
    cases side <;> rfl

end Lid

theorem splitDots_cons {c : Char} (hc : c ≠ '.') {s part : Text} {parts : List Text}
    (h : splitDots s = part :: parts) : splitDots (c :: s) = (c :: part) :: parts := by
  conv_lhs => unfold splitDots
  split
  · next heq => exact absurd (List.cons.inj heq).1 hc
  · next heq =>
    obtain ⟨rfl, rfl⟩ := List.cons.inj heq
    rw [h]
  · next heq => cases heq

theorem splitDots_of_not_mem (h : '.' ∉ s) : splitDots s = [s] := by
  induction s with
  | nil => rfl
  | cons c s ih =>
    have hc : c ≠ '.' := fun heq => h (heq ▸ mem_cons_self)
    exact splitDots_cons hc (ih fun hmem => h (mem_cons_of_mem _ hmem))

theorem splitDots_append (h : '.' ∉ s) (rest : Text) :
    splitDots (s ++ "..".toList ++ rest) = s :: splitDots rest := by
  induction s with
  | nil => rfl
  | cons c s ih =>
    have hc : c ≠ '.' := fun heq => h (heq ▸ mem_cons_self)
    exact splitDots_cons hc (ih fun hmem => h (mem_cons_of_mem _ hmem))

theorem Anchor.IsLid.no_dot {anchor : Anchor} (h : anchor.IsLid) :
    '.' ∉ (Target.anchor anchor).render :=
  fun hmem => (isLidChar_spec (h.chars '.' hmem)).2.2.1 rfl

theorem parseRange_line {anchor : Anchor} (h : anchor.IsLid) (lineNum : Nat) :
    parseRange (Target.anchor anchor).render lineNum = .ok (anchor, anchor) := by
  unfold parseRange
  rw [splitDots_of_not_mem h.no_dot]
  rw [parseLid_render h]
  rfl

theorem parseRange_range {start stop : Anchor} (hstart : start.IsLid) (hstop : stop.IsLid)
    (h : start.line < stop.line ∨ start = stop) (lineNum : Nat) :
    parseRange ((Target.anchor start).render ++ "..".toList ++ (Target.anchor stop).render)
      lineNum = .ok (start, stop) := by
  have hforward : ¬stop.line < start.line := by
    rcases h with h | rfl
    · omega
    · exact Nat.lt_irrefl _
  have hhashes : ¬(stop.line = start.line ∧ stop.hash ≠ start.hash) := by
    rintro ⟨hline, hhash⟩
    rcases h with h | rfl
    · omega
    · exact hhash rfl
  unfold parseRange
  rw [splitDots_append hstart.no_dot, splitDots_of_not_mem hstop.no_dot]
  dsimp only
  rw [if_neg (not_or.2 ⟨hstart.ne_nil, hstop.ne_nil⟩), parseLid_render hstart,
    parseLid_render hstop]
  show (if stop.line < start.line then _ else if _ then _ else _) = _
  rw [if_neg hforward, if_neg hhashes]
  rfl

theorem target_chars {target : Target} (h : ∀ a, target = .anchor a → a.IsLid) :
    ∀ c ∈ target.render, (c != HL_BODY_SEP && !isSpace c) = true := by
  cases target with
  | bof => exact all_eq_true.1 (by decide)
  | eof => exact all_eq_true.1 (by decide)
  | anchor a =>
    intro c hc
    obtain ⟨hspace, hbar, -⟩ := isLidChar_spec ((h a rfl).chars c hc)
    rw [hspace, Bool.not_false, Bool.and_true, bne_iff_ne]
    exact hbar

theorem Target.render_ne_nil (target : Target) : target.render ≠ [] := by
  cases target with
  | bof => decide +kernel
  | eof => decide +kernel
  | anchor a => exact append_ne_nil_of_left_ne_nil Nat.toDigits_ne_nil _

theorem trimStart_of_not_isSpace (h : ∀ c ∈ s, isSpace c = false) : trimStart s = s := by
  cases s with
  | nil => rfl
  | cons c s =>
    exact dropWhile_cons_of_neg (by rw [h c mem_cons_self]; exact Bool.false_ne_true)

theorem matchInsertOp_render {target : Target} (h : ∀ a, target = .anchor a → a.IsLid)
    (sign : Char) :
    matchInsertOp sign (sign :: target.render) = some (target.render, none) := by
  have hchars := target_chars h
  have hspace : ∀ c ∈ target.render, isSpace c = false := by
    intro c hc
    have hchar := hchars c hc
    rw [Bool.and_eq_true, Bool.not_eq_true'] at hchar
    exact hchar.2
  obtain ⟨htake, hdrop⟩ := takeWhile_eq_self_of_all hchars
  unfold matchInsertOp
  dsimp only
  rw [trimStart_of_not_isSpace hspace, htake, hdrop, if_pos ⟨rfl, target.render_ne_nil⟩]
  rfl

theorem matchReplaceOp_render {range : Text} (hne : range ≠ [])
    (hchars : ∀ c ∈ range, isLidChar c = true ∨ c = '.') :
    matchReplaceOp (HL_OP_REPLACE :: range) = some range := by
  have hspace : ∀ c ∈ range, isSpace c = false := by
    intro c hc
    rcases hchars c hc with hlid | rfl
    · exact (isLidChar_spec hlid).1
    · decide
  have hall : ∀ c ∈ range, (!isSpace c) = true := by
    intro c hc
    rw [hspace c hc]
    rfl
  have hfirst : range.head?.all (· ∉ ['+', '<', '-', '=']) = true := by
    cases range with
    | nil => rfl
    | cons c rest =>
      rw [head?_cons, Option.all_some, decide_eq_true_eq]
      rcases hchars c mem_cons_self with hlid | rfl
      · exact (isLidChar_spec hlid).2.2.2.2
      · decide
  obtain ⟨htake, hdrop⟩ := takeWhile_eq_self_of_all hall
  unfold matchReplaceOp
  dsimp only
  rw [trimStart_of_not_isSpace hspace, htake, hdrop, if_pos ⟨rfl, hne, hfirst, rfl⟩]

theorem matchInsertOp_of_ne {sigil c : Char} (h : c ≠ sigil) (rest : Text) :
    matchInsertOp sigil (c :: rest) = none := if_neg fun hmatch => h hmatch.1

def GrammarOp.head : GrammarOp → OpHead
  | .insert side target _ => .insert (target.cursor side) none
  | .replaceLine anchor _ => .replace anchor anchor
  | .replaceRange start stop _ => .replace start stop

theorem readHead_headLine (h : op.WellFormed) : readHead op.headLine = some op.head := by
  cases op with
  | insert side target payload =>
    have hread : readInsert side target.render none = some (.insert (target.cursor side) none) := by
      unfold readInsert
      rw [parseInsertTarget_render target h.2]
      cases target <;> cases side <;> rfl
    unfold readHead
    cases side with
    | before =>
      have hline : (GrammarOp.insert .before target payload).headLine =
          HL_OP_INSERT_BEFORE :: target.render := rfl
      rw [hline, matchInsertOp_render h.2]
      exact hread
    | after =>
      have hline : (GrammarOp.insert .after target payload).headLine =
          HL_OP_INSERT_AFTER :: target.render := rfl
      rw [hline, matchInsertOp_render h.2]
      exact hread
  | replaceLine anchor payload =>
    unfold readHead GrammarOp.headLine
    rw [matchInsertOp_of_ne (by decide), matchReplaceOp_render h.ne_nil fun c hc =>
      .inl (h.chars c hc)]
    dsimp only [Option.bind_some]
    rw [parseRange_line h]
    rfl
  | replaceRange start stop payload =>
    obtain ⟨hstart, hstop, hrange⟩ := h
    have hchars : ∀ c ∈ (Target.anchor start).render ++ "..".toList ++ (Target.anchor stop).render,
        isLidChar c = true ∨ c = '.' := by
      intro c hc
      rcases mem_append.1 hc with hc | hc
      · rcases mem_append.1 hc with hc | hc
        · exact .inl (hstart.chars c hc)
        · right
          have hdots : "..".toList.all (· = '.') = true := by decide
          exact of_decide_eq_true (all_eq_true.1 hdots c hc)
      · exact .inl (hstop.chars c hc)
    have hne : (Target.anchor start).render ++ "..".toList ++ (Target.anchor stop).render ≠ [] :=
      append_ne_nil_of_right_ne_nil _ hstop.ne_nil
    unfold readHead GrammarOp.headLine
    rw [matchInsertOp_of_ne (by decide), matchReplaceOp_render hne hchars]
    dsimp only [Option.bind_some]
    rw [parseRange_range hstart hstop hrange]
    rfl

theorem IsPayloadLine.not_terminator {line : Text} (h : IsPayloadLine line) :
    isPayloadTerminatorLine line = false := by
  unfold isPayloadTerminatorLine
  rw [h.no_marker, Bool.or_false]
  cases line with
  | nil => rfl
  | cons c rest =>
    obtain ⟨hfile, hop⟩ := h.no_sign c rfl
    rw [head?_cons, Option.any_some, decide_eq_false_iff_not, not_or]
    exact ⟨hfile, hop⟩

theorem GrammarOp.head_op (op : GrammarOp) : op.head.op op.payload = op.op := by
  cases op <;> rfl

theorem GrammarOp.WellFormed.complete (h : op.WellFormed) : op.head.complete op.payload = true := by
  cases op with
  | insert side target payload => exact decide_eq_true h.1
  | replaceLine anchor payload => rfl
  | replaceRange start stop payload => rfl

theorem reads_opLines {ops : List GrammarOp} (hops : ∀ op ∈ ops, op.WellFormed)
    (hpayload : ∀ op ∈ ops, ∀ line ∈ op.payload, IsPayloadLine line) (n : Nat) :
    ∃ ending, ending.warnings = [] ∧ Reads n (opLines ops) (numberOps n ops) ending := by
  induction ops generalizing n with
  | nil => exact ⟨.outside, rfl, .nil n⟩
  | cons op ops ih =>
    have hop := hops op mem_cons_self
    obtain ⟨ending, hwarnings, hrest⟩ := ih (fun op hmem => hops op (mem_cons_of_mem _ hmem))
      (fun op hmem => hpayload op (mem_cons_of_mem _ hmem)) (n + 1 + op.payload.length)
    have hends : EndsPayload (opLines ops) := by
      intro line hline
      cases ops with
      | nil => cases hline
      | cons next ops =>
        cases hline
        exact isPayloadTerminatorLine_of_readHead
          (readHead_headLine (hops next (mem_cons_of_mem _ mem_cons_self)))
    have hreads := Reads.op (readHead_headLine hop)
      (fun line hline => (hpayload op mem_cons_self line hline).not_terminator) hends hop.complete
      hrest
    rw [op.head_op] at hreads
    refine ⟨_, ?_, hreads⟩
    split
    · rfl
    · exact hwarnings

theorem headLine_not_isSpace (h : op.WellFormed) : ∀ c ∈ op.headLine, isSpace c = false := by
  have hlid : ∀ a : Anchor, a.IsLid → ∀ c ∈ (Target.anchor a).render, isSpace c = false :=
    fun a ha c hc => (isLidChar_spec (ha.chars c hc)).1
  cases op with
  | insert side target payload =>
    intro c hc
    rcases mem_cons.1 hc with rfl | hc
    · cases side <;> decide
    · have hchar := target_chars h.2 c hc
      rw [Bool.and_eq_true, Bool.not_eq_true'] at hchar
      exact hchar.2
  | replaceLine anchor payload =>
    intro c hc
    rcases mem_cons.1 hc with rfl | hc
    · decide
    · exact hlid anchor h c hc
  | replaceRange start stop payload =>
    intro c hc
    rcases mem_cons.1 hc with rfl | hc
    · decide
    rcases mem_append.1 hc with hc | hc
    · rcases mem_append.1 hc with hc | hc
      · exact hlid start h.1 c hc
      · have hdots : "..".toList.all (!isSpace ·) = true := by decide
        simpa using all_eq_true.1 hdots c hc
    · exact hlid stop h.2.1 c hc

theorem diffLines_flatMap {lines : List Text} (hne : lines ≠ [])
    (hlines : ∀ line ∈ lines, '\r' ∉ line ∧ '\n' ∉ line) :
    diffLines (lines.flatMap (· ++ ['\n'])) = lines := by
  have hjoin : lines.flatMap (· ++ ['\n']) = joinLines (lines ++ [[]]) := by
    rw [joinLines_append_left lines (cons_ne_nil _ _)]
    exact (append_nil _).symm
  have hlast : (lines.flatMap (· ++ ['\n'])).getLast? = some '\n' := by
    rw [hjoin, joinLines_concat hne]
    exact getLast?_concat
  have hnewline : ∀ line ∈ lines ++ [[]], '\n' ∉ line := by
    intro line hline
    rcases mem_append.1 hline with hline | hline
    · exact (hlines line hline).2
    · rw [mem_singleton.1 hline]
      exact not_mem_nil
  have hreturn : lines.map dropCarriageReturn = lines := by
    conv_rhs => rw [← map_id lines]
    refine map_congr_left fun line hline => ?_
    show dropCarriageReturn line = line
    rw [dropCarriageReturn_eq_self_iff]
    exact fun hlast => (hlines line hline).1 (mem_of_getLast? hlast)
  have hsplit : splitLinesCrlf (lines.flatMap (· ++ ['\n'])) = lines ++ [[]] := by
    unfold splitLinesCrlf
    dsimp only
    rw [hjoin, splitLines_joinLines (by simp) hnewline, dropLast_concat, hreturn, getLast?_concat]
    rfl
  unfold diffLines
  rw [hsplit, if_pos ⟨hlast, getLast?_concat⟩, dropLast_concat]

/-- Operations written in the grammar are read back, with their payloads as they are. -/
theorem parseHashlineWithWarnings_renderOps {ops : List GrammarOp}
    (hops : ∀ op ∈ ops, op.WellFormed)
    (hpayload : ∀ op ∈ ops, ∀ line ∈ op.payload, IsPayloadLine line) :
    parseHashlineWithWarnings (renderOps ops) = .ok (opsEdits 0 (numberOps 1 ops), []) := by
  cases hnil : ops with
  | nil => rfl
  | cons op later =>
    rw [← hnil]
    obtain ⟨ending, hwarnings, hreads⟩ := reads_opLines hops hpayload 1
    have hlines : ∀ line ∈ opLines ops, '\r' ∉ line ∧ '\n' ∉ line := by
      intro line hline
      obtain ⟨op', hop', hmem⟩ := mem_flatMap.1 hline
      rcases mem_cons.1 hmem with rfl | hmem
      · have hspace := headLine_not_isSpace (hops op' hop')
        exact ⟨fun hmem => absurd (hspace _ hmem) (by decide),
          fun hmem => absurd (hspace _ hmem) (by decide)⟩
      · have hline' := hpayload op' hop' line hmem
        exact ⟨hline'.no_return, hline'.no_newline⟩
    have hne : opLines ops ≠ [] := by
      rw [hnil]
      exact cons_ne_nil _ _
    rw [← diffLines_flatMap hne hlines] at hreads
    exact parses_iff.2 ⟨_, ending, hreads, rfl, hwarnings.symm⟩

/-- An insertion with a blank line, and the replacement of a range. -/
theorem parseHashlineWithWarnings_renderOps_two :
    parseHashlineWithWarnings "»1ab\nx\n\n≔2cd..3ef\n".toList =
      .ok ([.insert (.afterAnchor ⟨1, "ab".toList⟩) "x".toList 1 0,
        .insert (.afterAnchor ⟨1, "ab".toList⟩) [] 1 1, .delete ⟨2, "cd".toList⟩ 4 2,
        .delete ⟨3, "ef".toList⟩ 4 3], []) := by
  have hlid : ∀ line a b, 0 < line → isLower a = true → isLower b = true →
      (⟨line, [a, b]⟩ : Anchor).IsLid := fun line a b hline ha hb => ⟨hline, a, b, rfl, ha, hb⟩
  have hops : ∀ op ∈ [GrammarOp.insert .after (.anchor ⟨1, ['a', 'b']⟩) ["x".toList, []],
      .replaceRange ⟨2, ['c', 'd']⟩ ⟨3, ['e', 'f']⟩ []], op.WellFormed := by
    intro op hop
    rcases mem_cons.1 hop with rfl | hop
    · refine ⟨cons_ne_nil _ _, fun a ha => ?_⟩
      cases ha
      exact hlid _ _ _ (by decide) (by decide) (by decide)
    · rw [mem_singleton.1 hop]
      exact ⟨hlid _ _ _ (by decide) (by decide) (by decide),
        hlid _ _ _ (by decide) (by decide) (by decide), .inl (by decide)⟩
  have hpayload : ∀ op ∈ [GrammarOp.insert .after (.anchor ⟨1, ['a', 'b']⟩) ["x".toList, []],
      .replaceRange ⟨2, ['c', 'd']⟩ ⟨3, ['e', 'f']⟩ []], ∀ line ∈ op.payload,
        IsPayloadLine line := by
    intro op hop line hline
    rcases mem_cons.1 hop with rfl | hop
    · rcases mem_cons.1 hline with rfl | hline
      · refine ⟨by decide, by decide, fun c hc => ?_, by decide⟩
        cases hc
        decide
      · rw [mem_singleton.1 hline]
        exact ⟨by decide, by decide, fun c hc => absurd hc (by simp), by decide⟩
    · rw [mem_singleton.1 hop] at hline
      exact (not_mem_nil hline).elim
  exact parseHashlineWithWarnings_renderOps hops hpayload

/-- A range that has two hashes for one line does not end before it starts, and is rejected. -/
theorem parseHashlineWithWarnings_two_hashes :
    renderOps [.replaceRange ⟨1, "ab".toList⟩ ⟨1, "cd".toList⟩ []] = "≔1ab..1cd\n".toList ∧
      parseHashlineWithWarnings "≔1ab..1cd\n".toList =
        .error (.rangeTwoHashes 1 "1ab".toList "1cd".toList) := by
  decide +kernel

end Vibrato.Hashline
