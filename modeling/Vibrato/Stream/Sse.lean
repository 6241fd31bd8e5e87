import Vibrato.Lib.Utf16

/-! Server-sent events (`utils/src/stream.ts`): a byte stream is read in chunks, lines are put
together across chunks, and the fields of the lines are collected into events. -/

namespace Vibrato.Stream

open Lib List

def LF : UInt8 := 0x0a

def CR : UInt8 := 0x0d

def COLON : UInt8 := 0x3a

def ascii (s : String) : CodeUnits := s.toList.map fun c => UInt16.ofNat c.toNat

/-- `new TextDecoder("utf-8").decode(bytes)`: a byte-order mark at the beginning is dropped, and
errors become U+FFFD. -/
def decode (bytes : List UInt8) : CodeUnits :=
  let bytes := bytes.map UInt8.toNat
  CodeUnits.ofUtf8 (if [0xEF, 0xBB, 0xBF] <+: bytes then bytes.drop 3 else bytes)

structure ServerSentEvent where
  event : Option CodeUnits
  data : CodeUnits
  raw : List CodeUnits

structure SseEventState where
  event : Option CodeUnits := none
  data : Option CodeUnits := none
  raw : List CodeUnits := []

def flushSseEvent (state : SseEventState) : SseEventState × Option ServerSentEvent :=
  if state.event = none ∧ state.data = none then ({ state with raw := [] }, none)
  else ({}, some { event := state.event, data := state.data.getD [], raw := state.raw })

/-- The name and the value of the field on a line, without one space after the colon. -/
def splitField (text : CodeUnits) : CodeUnits × CodeUnits :=
  let colon := text.idxOf? 0x3a
  let fieldName := match colon with
    | none => text
    | some i => text.take i
  let value := match colon with
    | none => []
    | some i => text.drop (i + 1)
  (fieldName, if value.head? = some 0x20 then value.drop 1 else value)

def pushSseLine (line : List UInt8) (state : SseEventState) :
    SseEventState × Option ServerSentEvent :=
  let stop := if 0 < line.length ∧ line.getLast? = some CR then line.length - 1 else line.length
  if stop = 0 then flushSseEvent state
  else if line.head? = some COLON then
    ({ state with raw := state.raw ++ [decode (line.take stop)] }, none)
  else
    let text := decode (line.take stop)
    let state := { state with raw := state.raw ++ [text] }
    let (fieldName, value) := splitField text
    if fieldName = ascii "event" then ({ state with event := some value }, none)
    else if fieldName = ascii "data" then
      match state.data with
      | none => ({ state with data := some value }, none)
      | some data => ({ state with data := some (data ++ [0x0a] ++ value) }, none)
    else (state, none)

/-- The variables of `readSseEvents`, with the bytes that its line buffer holds and the events that
it has yielded. -/
structure Reader where
  lineBuffer : List UInt8 := []
  state : SseEventState := {}
  eventBytes : Nat := 0
  events : List ServerSentEvent := []

variable (maxEventBytes : Option Int)

/-- `length > maxLineBytes()`; without `maxEventBytes` the limit is infinite. -/
def exceeds (eventBytes length : Nat) : Bool :=
  match maxEventBytes with
  | none => false
  | some max => max - eventBytes < length

/-- The loop body of `readSseEvents` for one line. -/
def Reader.takeLine (r : Reader) (line : List UInt8) : Reader :=
  { r with
    state := (pushSseLine line r.state).1
    eventBytes :=
      if line.length = 0 ∨ (line.length = 1 ∧ line.head? = some CR) then 0
      else r.eventBytes + (line.length + 1)
    events := r.events ++ (pushSseLine line r.state).2.toList }

/-- `appendAndFlushLines` with the loop body that takes its lines. An error stands for the exception
at the size limit and has the events that were yielded before it. -/
def appendAndFlushLines (maxEventBytes : Option Int) (r : Reader) (chunk : List UInt8) :
    Except (List ServerSentEvent) Reader :=
  if _hchunk : chunk = [] then .ok r
  else
    match chunk.idxOf? LF with
    | none =>
      if exceeds maxEventBytes r.eventBytes (r.lineBuffer.length + chunk.length) then
        .error r.events
      else .ok { r with lineBuffer := r.lineBuffer ++ chunk }
    | some nl =>
      let suffix := chunk.take nl
      if exceeds maxEventBytes r.eventBytes (r.lineBuffer.length + suffix.length + 1) then
        .error r.events
      else
        let line := if r.lineBuffer = [] then suffix else r.lineBuffer ++ suffix
        appendAndFlushLines maxEventBytes { r.takeLine line with lineBuffer := [] }
          (chunk.drop (nl + 1))
  termination_by chunk.length
  decreasing_by
    rw [length_drop]
    have := length_pos_of_ne_nil _hchunk
    omega

/-- The end of `readSseEvents`: a line without its line end counts as a line, and an event without
its blank line is yielded. -/
def Reader.finish (r : Reader) : List ServerSentEvent :=
  let r := if r.lineBuffer = [] then r
    else { r with
      lineBuffer := []
      state := (pushSseLine r.lineBuffer r.state).1
      events := r.events ++ (pushSseLine r.lineBuffer r.state).2.toList }
  r.events ++ (flushSseEvent r.state).2.toList

/-- `readSseEvents` without a total limit, on a stream that arrives in the given chunks. -/
def readSseEvents (chunks : List (List UInt8)) :
    Except (List ServerSentEvent) (List ServerSentEvent) :=
  (chunks.foldlM (appendAndFlushLines maxEventBytes) {}).map Reader.finish

def stripCr (line : List UInt8) : List UInt8 :=
  if line.getLast? = some CR then line.dropLast else line

def field (line : List UInt8) : Option (CodeUnits × CodeUnits) :=
  if line.head? = some COLON then none else some (splitField (decode line))

def fieldValues (name : String) (block : List (List UInt8)) : List CodeUnits :=
  (block.filterMap field).filterMap fun f => if f.1 = ascii name then some f.2 else none

/-- The event of the lines between two blank lines: its last event field, and its data fields joined
by newlines. Lines without either field give no event. -/
def blockEvent (block : List (List UInt8)) : Option ServerSentEvent :=
  if fieldValues "event" block = [] ∧ fieldValues "data" block = [] then none
  else some
    { event := (fieldValues "event" block).getLast?
      data := [0x0a].intercalate (fieldValues "data" block)
      raw := block.map decode }

variable (lines : List (List UInt8))

def blocks : List (List (List UInt8)) := (lines.map stripCr).splitOn []

def lineEvents : List ServerSentEvent := (blocks lines).filterMap blockEvent

def closedEvents : List ServerSentEvent :=
  (blocks lines).dropLast.filterMap blockEvent

def openBytes : Nat :=
  lines.foldl (fun bytes line => if stripCr line = [] then 0 else bytes + (line.length + 1)) 0

/-- The lines of a stream one after the other, after the lines `before`. The last one has no line
end, and there is none when it is empty. -/
def readLines (maxEventBytes : Option Int) (before : List (List UInt8)) :
    List (List UInt8) → Except (List ServerSentEvent) (List ServerSentEvent)
  | [] => .ok (lineEvents before)
  | [tail] =>
    if tail ≠ [] ∧ exceeds maxEventBytes (openBytes before) tail.length then
      .error (closedEvents before)
    else .ok (lineEvents (before ++ [tail]))
  | line :: next :: rest =>
    if exceeds maxEventBytes (openBytes before) (line.length + 1) then .error (closedEvents before)
    else readLines maxEventBytes (before ++ [line]) (next :: rest)

theorem splitOn_concat_of_ne {α : Type} [BEq α] [LawfulBEq α] {sep x : α} (xs : List α)
    (hx : x ≠ sep) :
    (xs ++ [x]).splitOn sep =
      (xs.splitOn sep).dropLast ++ [((xs.splitOn sep).getLast (splitOn_ne_nil sep xs)) ++ [x]] := by
  induction xs with
  | nil =>
    rw [splitOn_eq_singleton (by simpa using hx.symm)]
    rfl
  | cons y ys ih =>
    have hne := splitOn_ne_nil sep ys
    simp only [cons_append, splitOn_cons_eq_if_modifyHead, ih]
    by_cases hy : (y == sep) = true
    · simp only [hy, if_true]
      rw [dropLast_cons_of_ne_nil hne, getLast_cons hne]
      rfl
    · simp only [hy, Bool.false_eq_true, if_false]
      obtain ⟨first, rest, hsplit⟩ := exists_cons_of_ne_nil hne
      simp only [hsplit]
      cases rest with
      | nil => rfl
      | cons second rest => simp

def openBlock : List (List UInt8) :=
  (blocks lines).getLast (splitOn_ne_nil [] _)

theorem blocks_eq : blocks lines = (blocks lines).dropLast ++ [openBlock lines] :=
  (dropLast_append_getLast _).symm

variable {block lines : List (List UInt8)} {line : List UInt8}

theorem blocks_concat_blank (h : stripCr line = []) :
    blocks (lines ++ [line]) = blocks lines ++ [[]] := by
  rw [blocks, map_append, map_singleton, h, splitOn_append_cons_self]
  rfl

theorem blocks_concat (h : stripCr line ≠ []) :
    blocks (lines ++ [line]) = (blocks lines).dropLast ++ [openBlock lines ++ [stripCr line]] := by
  rw [blocks, map_append, map_singleton, splitOn_concat_of_ne _ h]
  rfl

theorem openBlock_concat_blank (h : stripCr line = []) : openBlock (lines ++ [line]) = [] := by
  simp [openBlock, blocks_concat_blank h]

theorem openBlock_concat (h : stripCr line ≠ []) :
    openBlock (lines ++ [line]) = openBlock lines ++ [stripCr line] := by
  simp [openBlock, blocks_concat h]

theorem lineEvents_eq (lines : List (List UInt8)) :
    lineEvents lines = closedEvents lines ++ (blockEvent (openBlock lines)).toList := by
  rw [lineEvents, blocks_eq, closedEvents]
  cases h : blockEvent (openBlock lines) <;> simp [h]

theorem closedEvents_concat_blank (h : stripCr line = []) :
    closedEvents (lines ++ [line]) = lineEvents lines := by
  rw [closedEvents, blocks_concat_blank h, dropLast_concat, lineEvents]

theorem closedEvents_concat (h : stripCr line ≠ []) :
    closedEvents (lines ++ [line]) = closedEvents lines := by
  rw [closedEvents, blocks_concat h, dropLast_concat, closedEvents]

theorem lineEvents_concat_nil (lines : List (List UInt8)) :
    lineEvents (lines ++ [[]]) = lineEvents lines := by
  rw [lineEvents_eq, closedEvents_concat_blank rfl, openBlock_concat_blank rfl]
  exact append_nil _

variable (block)

def blockState : SseEventState :=
  { event := (fieldValues "event" block).getLast?
    data := if fieldValues "data" block = [] then none
      else some ([0x0a].intercalate (fieldValues "data" block))
    raw := block.map decode }

theorem flushSseEvent_blockState : flushSseEvent (blockState block) = ({}, blockEvent block) := by
  unfold flushSseEvent blockEvent
  by_cases hevent : fieldValues "event" block = [] <;> by_cases hdata :
    fieldValues "data" block = [] <;>
    simp [blockState, hevent, hdata]

variable {block}

theorem fieldValues_concat_comment (name : String)
    (h : line.head? = some COLON) :
    fieldValues name (block ++ [line]) = fieldValues name block := by
  simp [fieldValues, field, h]

theorem fieldValues_concat (name : String) (h : line.head? ≠ some COLON) :
    fieldValues name (block ++ [line]) = fieldValues name block ++
      if (splitField (decode line)).1 = ascii name then [(splitField (decode line)).2] else [] := by
  rw [fieldValues, filterMap_append, filterMap_append]
  congr 1
  simp only [field, filterMap_cons, filterMap_nil, if_neg h]
  by_cases hname : (splitField (decode line)).1 = ascii name
  · rw [if_pos hname, if_pos hname]
  · rw [if_neg hname, if_neg hname]

theorem intercalate_concat {α : Type} (sep : List α) {values : List (List α)} (value : List α)
    (h : values ≠ []) :
    sep.intercalate (values ++ [value]) = sep.intercalate values ++ sep ++ value := by
  induction values with
  | nil => exact absurd rfl h
  | cons first rest ih =>
    cases rest with
    | nil => simp [intercalate_cons_cons]
    | cons second rest =>
      have hrest := ih (cons_ne_nil second rest)
      rw [cons_append, intercalate_cons_of_ne_nil (by simp), hrest,
        intercalate_cons_of_ne_nil (cons_ne_nil second rest)]
      simp only [append_assoc]

theorem length_stripCr (line : List UInt8) : (stripCr line).length =
    if 0 < line.length ∧ line.getLast? = some CR then line.length - 1 else line.length := by
  unfold stripCr
  by_cases hcr : line.getLast? = some CR
  · have hpos : 0 < line.length := length_pos_of_ne_nil fun hnil => by simp [hnil] at hcr
    rw [if_pos hcr, if_pos ⟨hpos, hcr⟩, length_dropLast]
  · rw [if_neg hcr, if_neg fun h => hcr h.2]

theorem take_length_stripCr (line : List UInt8) :
    line.take (stripCr line).length = stripCr line := by
  unfold stripCr
  split
  · rw [length_dropLast, dropLast_eq_take]
  · exact take_length

theorem head?_stripCr (h : stripCr line ≠ []) : (stripCr line).head? = line.head? := by
  have htake := take_length_stripCr line
  rw [← htake, head?_take, if_neg]
  exact fun h0 => h (length_eq_zero_iff.mp h0)

theorem pushSseLine_blockState (block : List (List UInt8)) (line : List UInt8) :
    pushSseLine line (blockState block) =
      if stripCr line = [] then ({}, blockEvent block)
        else (blockState (block ++ [stripCr line]), none) := by
  unfold pushSseLine
  simp only [← length_stripCr, take_length_stripCr, length_eq_zero_iff]
  by_cases hblank : stripCr line = []
  · rw [if_pos hblank, if_pos hblank, flushSseEvent_blockState]
  rw [if_neg hblank, if_neg hblank, ← head?_stripCr hblank]
  by_cases hcomment : (stripCr line).head? = some COLON
  · rw [if_pos hcomment]
    simp [blockState, fieldValues_concat_comment _ hcomment]
  rw [if_neg hcomment]
  have hne : ascii "event" ≠ ascii "data" := by decide
  by_cases hevent : (splitField (decode (stripCr line))).1 = ascii "event"
  · simp [blockState, fieldValues_concat _ hcomment, hevent, hne]
  by_cases hdata : (splitField (decode (stripCr line))).1 = ascii "data"
  · by_cases hnone : fieldValues "data" block = []
    · simp [blockState, fieldValues_concat _ hcomment, hdata, hne.symm, hnone]
    · simp [blockState, fieldValues_concat _ hcomment, hdata, hne.symm, hnone, intercalate_concat]
  simp [blockState, fieldValues_concat _ hcomment, hevent, hdata]

end Vibrato.Stream
