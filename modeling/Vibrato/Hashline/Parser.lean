import Vibrato.Hashline.Hash

/-! `hashline/parser.ts`: the edits that a hashline diff denotes. -/

namespace Vibrato.Hashline

open Text

structure Anchor where
  line : Nat
  hash : Text
  deriving DecidableEq

inductive Cursor where
  | bof
  | eof
  | beforeAnchor (anchor : Anchor)
  | afterAnchor (anchor : Anchor)
  deriving DecidableEq

/-- `lineNum` is the line of the diff that holds the operation, and `index` counts the edits. -/
inductive Edit where
  | insert (cursor : Cursor) (text : Text) (lineNum index : Nat)
  | delete (anchor : Anchor) (lineNum index : Nat)
  deriving DecidableEq

namespace Edit

def lineNum : Edit → Nat
  | insert _ _ n _ => n
  | delete _ n _ => n

def isInsert : Edit → Bool
  | insert .. => true
  | delete .. => false

end Edit

/-- What `parseHashline` throws. -/
inductive ParseError where
  | badAnchor (lineNum : Nat) (raw : Text)
  | badRange (lineNum : Nat)
  | rangeBackwards (lineNum : Nat) (startRaw endRaw : Text)
  | rangeTwoHashes (lineNum : Nat) (startRaw endRaw : Text)
  | missingPayload (opLineNum : Nat)
  | unrecognizedOp (lineNum : Nat) (line : Text)
  | strayPayload (lineNum : Nat) (line : Text)
  deriving DecidableEq

/-- The message of an error.  `quote` is `JSON.stringify` on texts. -/
def ParseError.message (quote : Text → Text) : ParseError → Text
  | badAnchor n raw => head n ++ ("expected a full anchor such as \"119sr\", \"119ab\", " ++
      "\"119th\"; got ").toList ++ quote raw ++ ".".toList
  | badRange n => head n ++ ("range must include exactly two full anchors separated by \"..\". " ++
      "For a one-line edit, repeat the same anchor on both sides.").toList
  | rangeBackwards n a b => head n ++ "range ".toList ++ a ++ "..".toList ++ b ++
      " ends before it starts.".toList
  | rangeTwoHashes n a b => head n ++ "range ".toList ++ a ++ "..".toList ++ b ++
      " uses two different hashes for the same line.".toList
  | missingPayload n =>
      head n ++ "« and » operations require at least one verbatim payload line.".toList
  | unrecognizedOp n line => head n ++ ("unrecognized op. Use «ANCHOR (insert before), " ++
      "»ANCHOR (insert after), or ≔A..B (replace/delete). Got ").toList ++ quote line ++ ".".toList
  | strayPayload n line => head n ++ ("payload line has no preceding «, », or ≔ operation. " ++
      "Got ").toList ++ quote line ++ ".".toList
where
  head (n : Nat) : Text := "line ".toList ++ ofNat n ++ ": ".toList

def isLower (c : Char) : Bool := 'a' ≤ c && c ≤ 'z'

/-- The rest of a match of `(?:\|(.*))?\s*$`: the group's text, if the bar is there. -/
def matchBody : Text → Option (Option Text)
  | '|' :: rest =>
    if (rest.dropWhile fun c => !isLineTerminator c).all isSpace then
      some (some (rest.takeWhile fun c => !isLineTerminator c))
    else none
  | rest => if rest.all isSpace then some none else none

variable (raw : Text)

/-- `parseLid`: optional decoration, a line number without leading zero, a two-letter hash, and
an optional body after a bar. -/
def parseLid (lineNum : Nat) : Except ParseError Anchor :=
  let body := trimStart ((trimStart raw).dropWhile fun c => c ∈ ['>', '+', '-', '*'])
  let digits := body.takeWhile isDigit
  match body.dropWhile isDigit with
  | a :: b :: rest =>
    if digits ≠ [] ∧ digits.head? ≠ some '0' ∧ isLower a = true ∧ isLower b = true ∧
        (matchBody rest).isSome = true then
      .ok ⟨parseDigits digits, [a, b]⟩
    else .error (.badAnchor lineNum raw)
  | _ => .error (.badAnchor lineNum raw)

/-- `raw.split("..")`. -/
def splitDots : Text → List Text
  | '.' :: '.' :: rest => [] :: splitDots rest
  | c :: rest =>
    match splitDots rest with
    | part :: parts => (c :: part) :: parts
    | [] => [[c]]
  | [] => [[]]

/-- `parseRange`: an anchor, or two anchors with `..` between them. -/
def parseRange (lineNum : Nat) : Except ParseError (Anchor × Anchor) :=
  match splitDots raw with
  | [_] => do
    let start ← parseLid raw lineNum
    return (start, start)
  | [startRaw, endRaw] =>
    if startRaw = [] ∨ endRaw = [] then .error (.badRange lineNum)
    else do
      let start ← parseLid startRaw lineNum
      let stop ← parseLid endRaw lineNum
      if stop.line < start.line then .error (.rangeBackwards lineNum startRaw endRaw)
      else if stop.line = start.line ∧ stop.hash ≠ start.hash then
        .error (.rangeTwoHashes lineNum startRaw endRaw)
      else return (start, stop)
  | _ => .error (.badRange lineNum)

/-- `expandRange`: an anchor for each line of the range, with the filler hash inside. -/
def expandRange (start stop : Anchor) : List Anchor :=
  (List.range (stop.line + 1 - start.line)).map fun k =>
    let line := start.line + k
    ⟨line, if line = start.line then start.hash
      else if line = stop.line then stop.hash else RANGE_INTERIOR_HASH⟩

inductive Side where
  | before
  | after

def parseInsertTarget (lineNum : Nat) (side : Side) : Except ParseError Cursor :=
  if raw = "BOF".toList then .ok .bof
  else if raw = "EOF".toList then .ok .eof
  else do
    let anchor ← parseLid raw lineNum
    return match side with
      | .before => .beforeAnchor anchor
      | .after => .afterAnchor anchor

/-- `resolveInlineInsertBody`: a body whose hash is the anchor's repeats the anchored line and is
no payload. -/
def resolveInlineInsertBody (cursor : Cursor) (body : Option Text) : Option Text :=
  match cursor with
  | .beforeAnchor anchor | .afterAnchor anchor =>
    body.filter fun text => computeLineHash text ≠ anchor.hash
  | _ => body

/-- `INSERT_BEFORE_OP_RE` and `INSERT_AFTER_OP_RE`: the target and the inline body. -/
def matchInsertOp (sigil : Char) : Text → Option (Text × Option Text)
  | c :: rest =>
    let body := trimStart rest
    let target := body.takeWhile fun c => c != HL_BODY_SEP && !isSpace c
    if c = sigil ∧ target ≠ [] then
      (matchBody (body.dropWhile fun c => c != HL_BODY_SEP && !isSpace c)).map (target, ·)
    else none
  | [] => none

/-- `REPLACE_OP_RE`: the range. -/
def matchReplaceOp : Text → Option Text
  | c :: rest =>
    let body := trimStart rest
    let range := body.takeWhile fun c => !isSpace c
    if c = HL_OP_REPLACE ∧ range ≠ [] ∧ range.head?.all (· ∉ ['+', '<', '-', '=']) = true ∧
        (body.dropWhile fun c => !isSpace c).all isSpace = true then some range
    else none
  | [] => none

def isEnvelopeOrAbortMarkerLine (line : Text) : Bool :=
  trimEnd line ∈ [BEGIN_PATCH_MARKER, END_PATCH_MARKER, ABORT_MARKER]

def isPayloadTerminatorLine (line : Text) : Bool :=
  line.head?.any (fun c => c = HL_FILE_PREFIX ∨ c ∈ HL_OP_CHARS) || isEnvelopeOrAbortMarkerLine line

inductive Op where
  | insert (cursor : Cursor) (payload : List Text)
  | replace (start stop : Anchor) (payload : List Text)
  deriving DecidableEq

/-- One insertion for each payload line, numbered from `index`. -/
def insertEdits (cursor : Cursor) (payload : List Text) (lineNum index : Nat) : List Edit :=
  payload.mapIdx fun k text => .insert cursor text lineNum (index + k)

/-- One deletion for each anchor, numbered from `index`. -/
def deleteEdits (anchors : List Anchor) (lineNum index : Nat) : List Edit :=
  anchors.mapIdx fun k anchor => .delete anchor lineNum (index + k)

def Op.edits : Op → Nat → Nat → List Edit
  | .insert cursor payload, lineNum, index => insertEdits cursor payload lineNum index
  | .replace start stop payload, lineNum, index =>
    insertEdits (.beforeAnchor start) payload lineNum index ++
      deleteEdits (expandRange start stop) lineNum (index + payload.length)

/-- The payload after an operation line, with the inline body first, and the lines after it. -/
def collectPayload (inlineBody : Option Text) (rest : List Text) : List Text × List Text :=
  (inlineBody.toList ++ rest.takeWhile (!isPayloadTerminatorLine ·),
    rest.dropWhile (!isPayloadTerminatorLine ·))

def parseInsert (lineNum : Nat) (side : Side) (target : Text) (body : Option Text)
    (rest : List Text) : Except ParseError (Op × List Text) := do
  let cursor ← parseInsertTarget target lineNum side
  let (payload, next) := collectPayload (resolveInlineInsertBody cursor body) rest
  if payload = [] then .error (.missingPayload lineNum)
  else return (.insert cursor payload, next)

/-- The operation on `line`, with its payload in the lines `rest` after it. -/
def parseOp (lineNum : Nat) (line : Text) (rest : List Text) : Except ParseError (Op × List Text) :=
  match matchInsertOp HL_OP_INSERT_BEFORE line with
  | some (target, body) => parseInsert lineNum .before target body rest
  | none =>
    match matchInsertOp HL_OP_INSERT_AFTER line with
    | some (target, body) => parseInsert lineNum .after target body rest
    | none =>
      match matchReplaceOp line with
      | some range => do
        let (start, stop) ← parseRange range lineNum
        let (payload, next) := collectPayload none rest
        return (.replace start stop payload, next)
      | none =>
        if isPayloadTerminatorLine line || line.head?.any (· ∈ ['-', '@', '¶']) then
          .error (.unrecognizedOp lineNum line)
        else .error (.strayPayload lineNum line)

/-- The loop of `parseHashlineWithWarnings` from line `lineNum` and edit `index` on.  Each round
takes at least one line, so that as much fuel as there are lines suffices. -/
def parseLines : Nat → Nat → Nat → List Text → Except ParseError (List Edit × List Text)
  | 0, _, _, _ => .ok ([], [])
  | _, _, _, [] => .ok ([], [])
  | fuel + 1, lineNum, index, line :: rest =>
    if isBlank line then parseLines fuel (lineNum + 1) index rest
    else if line = END_PATCH_MARKER then .ok ([], [])
    else if line = ABORT_MARKER then .ok ([], [ABORT_WARNING])
    else if line = BEGIN_PATCH_MARKER then parseLines fuel (lineNum + 1) index rest
    else do
      let (op, next) ← parseOp lineNum line rest
      let edits := op.edits lineNum index
      let (later, warnings) ←
        parseLines fuel (lineNum + (1 + rest.length - next.length)) (index + edits.length) next
      return (edits ++ later, warnings)

variable (diff : Text)

def diffLines : List Text :=
  let lines := splitLinesCrlf diff
  if diff.getLast? = some '\n' ∧ lines.getLast? = some [] then lines.dropLast else lines

def parseHashlineWithWarnings : Except ParseError (List Edit × List Text) :=
  parseLines (diffLines diff).length 1 0 (diffLines diff)

/-- The loop of `parseHashlineWithWarnings`, with each operation beside its line number instead of
its edits. -/
def parseOps : Nat → Nat → List Text → Except ParseError (List (Nat × Op) × List Text)
  | 0, _, _ => .ok ([], [])
  | _, _, [] => .ok ([], [])
  | fuel + 1, lineNum, line :: rest =>
    if isBlank line then parseOps fuel (lineNum + 1) rest
    else if line = END_PATCH_MARKER then .ok ([], [])
    else if line = ABORT_MARKER then .ok ([], [ABORT_WARNING])
    else if line = BEGIN_PATCH_MARKER then parseOps fuel (lineNum + 1) rest
    else do
      let (op, next) ← parseOp lineNum line rest
      let (later, warnings) ← parseOps fuel (lineNum + (1 + rest.length - next.length)) next
      return ((lineNum, op) :: later, warnings)

def parseHashlineOps : Except ParseError (List (Nat × Op) × List Text) :=
  parseOps (diffLines diff).length 1 (diffLines diff)

/-- The edits of operations in order, numbered from `index`. -/
def opsEdits : Nat → List (Nat × Op) → List Edit
  | _, [] => []
  | index, (lineNum, op) :: ops =>
    op.edits lineNum index ++ opsEdits (index + (op.edits lineNum index).length) ops

theorem parseLines_eq (fuel lineNum index : Nat) (lines : List Text) :
    parseLines fuel lineNum index lines =
      (parseOps fuel lineNum lines).map fun parsed => (opsEdits index parsed.1, parsed.2) := by
  induction fuel generalizing lineNum index lines with
  | zero => rfl
  | succ fuel ih =>
    cases lines with
    | nil => rfl
    | cons line rest =>
      unfold parseLines parseOps
      split
      · exact ih _ _ _
      split
      · rfl
      split
      · rfl
      split
      · exact ih _ _ _
      cases parseOp lineNum line rest with
      | error e => rfl
      | ok parsed =>
        simp only [bind, Except.bind, ih]
        cases parseOps fuel (lineNum + (1 + rest.length - parsed.2.length)) parsed.2 with
        | error e => rfl
        | ok later => rfl

theorem parseHashlineWithWarnings_eq : parseHashlineWithWarnings diff =
    (parseHashlineOps diff).map fun parsed => (opsEdits 0 parsed.1, parsed.2) :=
  parseLines_eq _ _ _ _

def Op.WellFormed : Op → Prop
  | .insert _ payload => payload ≠ []
  | .replace start stop _ => start.line ≤ stop.line

theorem parseRange_cases {raw : Text} {lineNum : Nat} {range : Anchor × Anchor}
    (h : parseRange raw lineNum = .ok range) :
    ∃ startRaw endRaw, parseLid startRaw lineNum = .ok range.1 ∧
      parseLid endRaw lineNum = .ok range.2 ∧
      range.1.line ≤ range.2.line ∧
        (range.1.line = range.2.line → range.1.hash = range.2.hash) := by
  unfold parseRange at h
  split at h
  · obtain ⟨start, hlid, h⟩ := bind_eq_ok.1 h
    cases h
    exact ⟨raw, raw, hlid, hlid, Nat.le_refl _, fun _ => rfl⟩
  · next startRaw endRaw _ =>
    split at h
    · cases h
    obtain ⟨start, hstart, h⟩ := bind_eq_ok.1 h
    obtain ⟨stop, hstop, h⟩ := bind_eq_ok.1 h
    split at h
    · cases h
    split at h
    · cases h
    · next hle htwo =>
      cases h
      refine ⟨startRaw, endRaw, hstart, hstop, Nat.le_of_not_lt hle, fun hline => ?_⟩
      by_contra hhash
      exact htwo ⟨hline.symm, fun heq => hhash heq.symm⟩
  · cases h

theorem collectPayload_length (body : Option Text) (rest : List Text) :
    (collectPayload body rest).2.length ≤ rest.length :=
  (List.dropWhile_suffix _).length_le

section Ops

variable {lineNum : Nat} {line : Text} {rest next : List Text} {op : Op}

theorem parseInsert_cases {side : Side} {target : Text} {body : Option Text}
    (h : parseInsert lineNum side target body rest = .ok (op, next)) : next.length ≤ rest.length ∧
      ∃ cursor payload, parseInsertTarget target lineNum side = .ok cursor ∧ payload ≠ [] ∧
        op = .insert cursor payload := by
  obtain ⟨cursor, hcursor, h⟩ := bind_eq_ok.1 h
  dsimp only at h
  split at h
  · cases h
  · next hne =>
    cases h
    exact ⟨collectPayload_length _ _, cursor, _, hcursor, hne, rfl⟩

theorem parseOp_cases (h : parseOp lineNum line rest = .ok (op, next)) : next.length ≤ rest.length ∧
    ((∃ target side cursor payload, parseInsertTarget target lineNum side = .ok cursor ∧
      payload ≠ [] ∧
      op = .insert cursor payload) ∨
    ∃ raw range payload, parseRange raw lineNum = .ok range ∧
      op = .replace range.1 range.2 payload) := by
  unfold parseOp at h
  split at h
  · exact ⟨(parseInsert_cases h).1, .inl ⟨_, _, (parseInsert_cases h).2⟩⟩
  split at h
  · exact ⟨(parseInsert_cases h).1, .inl ⟨_, _, (parseInsert_cases h).2⟩⟩
  split at h
  · next raw _ =>
    obtain ⟨range, hrange, h⟩ := bind_eq_ok.1 h
    cases h
    exact ⟨collectPayload_length none _, .inr ⟨raw, range, _, hrange, rfl⟩⟩
  · split at h <;> cases h

theorem parseOp_wellFormed (h : parseOp lineNum line rest = .ok (op, next)) : op.WellFormed := by
  rcases (parseOp_cases h).2 with ⟨_, _, _, _, _, hne, rfl⟩ | ⟨_, _, _, hrange, rfl⟩
  · exact hne
  · obtain ⟨_, _, _, _, hle, _⟩ := parseRange_cases hrange
    exact hle

/-- Each operation of a diff was read on its line, and they stand on later and later lines. -/
theorem parseOps_spec {fuel : Nat} {lines : List Text} {ops : List (Nat × Op)}
    {warnings : List Text}
    (h : parseOps fuel lineNum lines = .ok (ops, warnings)) :
    (∀ op ∈ ops, (∃ line rest next, parseOp op.1 line rest = .ok (op.2, next)) ∧ lineNum ≤ op.1) ∧
      ops.Pairwise fun a b => a.1 < b.1 := by
  induction fuel generalizing lineNum lines ops with
  | zero =>
    cases h
    simp
  | succ fuel ih =>
    cases lines with
    | nil =>
      cases h
      simp
    | cons line rest =>
      have hskip : parseOps fuel (lineNum + 1) rest = .ok (ops, warnings) →
          (∀ op ∈ ops, (∃ line rest next, parseOp op.1 line rest = .ok (op.2, next)) ∧
            lineNum ≤ op.1) ∧
            ops.Pairwise fun a b => a.1 < b.1 := by
        intro hrest
        obtain ⟨hops, hpairs⟩ := ih hrest
        exact ⟨fun op hop => ⟨(hops op hop).1, by have := (hops op hop).2; omega⟩, hpairs⟩
      unfold parseOps at h
      split at h
      · exact hskip h
      split at h
      · cases h
        simp
      split at h
      · cases h
        simp
      split at h
      · exact hskip h
      obtain ⟨⟨op, next⟩, hop, h⟩ := bind_eq_ok.1 h
      obtain ⟨⟨later, laterWarnings⟩, hlater, h⟩ := bind_eq_ok.1 h
      cases h
      have hlen := (parseOp_cases hop).1
      obtain ⟨hops, hpairs⟩ := ih hlater
      refine ⟨?_, List.pairwise_cons.2 ⟨fun later hmem => ?_, hpairs⟩⟩
      · intro op' hmem
        rcases List.mem_cons.1 hmem with rfl | hmem
        · exact ⟨⟨line, rest, next, hop⟩, Nat.le_refl _⟩
        · exact ⟨(hops op' hmem).1, by have := (hops op' hmem).2; omega⟩
      · have := (hops later hmem).2
        omega

end Ops

end Vibrato.Hashline
