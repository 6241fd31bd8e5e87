import Mathlib.Data.List.Basic

/-! The two consumers of transcript lines in `session-manager.ts`. -/

namespace Vibrato.Session

open List

/-- `BOUNDED_FIRST_OPEN_MAX_LINE_BYTES` -/
def MAX_LINE_BYTES : Nat := 8 * 1024 * 1024

inductive BoundedLineScanFailure
  | readFailed
  | oversizedLine
  | unterminated
  | aborted

abbrev Bytes := List UInt8

/-- The offset of a line and its bytes. -/
abbrev LineVisit := Nat × Bytes

/-- How a consumer keeps the bytes of a line that has not ended; the number is that of these bytes.
`assemble` makes a whole line with its last segment. -/
structure PendingStore (S : Type) where
  new : S
  isEmpty : S → Nat → Bool
  push : S → Nat → Bytes → S
  assemble : S → Nat → Bytes → S × Bytes
  contents : S → Nat → Bytes

structure LineConsumer (S : Type) where
  pending : S
  visits : List LineVisit := []
  pendingBytes : Nat := 0
  pendingStart : Nat := 0

namespace LineConsumer

/-- A failure, with the visits before it. -/
abbrev Failed := BoundedLineScanFailure × List LineVisit

variable (visit : List LineVisit → Bool)

/-- The visitor says from all visits so far whether to go on. -/
def visitLine (visits : List LineVisit) (lineStart : Nat) (line : Bytes) :
    Except Failed (List LineVisit) :=
  let visits := visits ++ [(lineStart, line)]
  if visit visits = false then .error (.aborted, visits) else .ok visits

section Consumer

variable {S : Type} (store : PendingStore S) (c : LineConsumer S)

def startOf (consumed : Nat) : Nat :=
  if store.isEmpty c.pending c.pendingBytes then consumed else c.pendingStart

def endLine (consumed : Nat) (segment : Bytes) : Except Failed (LineConsumer S) :=
  let lineBytes := c.pendingBytes + segment.length
  if MAX_LINE_BYTES < lineBytes then .error (.oversizedLine, c.visits)
  else
    let (pending, line) :=
      if store.isEmpty c.pending c.pendingBytes then (c.pending, segment)
      else store.assemble c.pending c.pendingBytes segment
    (visitLine visit c.visits (c.startOf store consumed) line).map fun visits =>
      { c with pending, visits, pendingBytes := 0 }

def keep (consumed : Nat) (remainder : Bytes) : Except Failed (LineConsumer S) :=
  let pendingBytes := c.pendingBytes + remainder.length
  if MAX_LINE_BYTES < pendingBytes then .error (.oversizedLine, c.visits)
  else .ok { c with
    pending := store.push c.pending c.pendingBytes remainder
    pendingBytes
    pendingStart := c.startOf store consumed }

/-- The loop over a chunk: `segment` has the bytes from `consumed` on in which no newline was
found. -/
def consume (c : LineConsumer S) (consumed : Nat) (segment : Bytes) :
    Bytes → Except Failed (LineConsumer S)
  | [] => if segment = [] then .ok c else c.keep store consumed segment
  | byte :: chunk =>
    if byte = 0x0a then
      (c.endLine visit store consumed (segment ++ [byte])).bind fun c =>
        c.consume (consumed + (segment ++ [byte]).length) [] chunk
    else c.consume consumed (segment ++ [byte]) chunk

def consumeAll (c : LineConsumer S) (chunkStart : Nat) : List Bytes → Except Failed (LineConsumer S)
  | [] => .ok c
  | chunk :: chunks =>
    (c.consume visit store chunkStart [] chunk).bind fun c =>
      c.consumeAll (chunkStart + chunk.length) chunks

end Consumer

def finish (includeUnterminated : Bool) (visits : List LineVisit) (pendingStart pendingBytes : Nat)
    (line : Bytes) : Except Failed (List LineVisit) :=
  if pendingBytes = 0 then .ok visits
  else if !includeUnterminated then .error (.unterminated, visits)
  else visitLine visit visits pendingStart line

/-- A scan from the start of the bytes: the visits, or the first failure. -/
def run {S : Type} (store : PendingStore S) (includeUnterminated : Bool) (chunks : List Bytes) :
    Except Failed (List LineVisit) :=
  (consumeAll visit store { pending := store.new } 0 chunks).bind fun c =>
    finish visit includeUnterminated c.visits c.pendingStart c.pendingBytes
      (store.contents c.pending c.pendingBytes)

end LineConsumer

def createBoundedLineChunkConsumer : PendingStore (List Bytes) where
  new := []
  isEmpty pendingChunks _ := pendingChunks.length = 0
  push pendingChunks _ remainder := pendingChunks ++ [remainder]
  assemble pendingChunks _ segment := ([], (pendingChunks ++ [segment]).flatten)
  contents pendingChunks _ := pendingChunks.flatten

/-- The capacity doubles until it is enough; behind the limit, without progress, the source would
not stop. -/
def growCapacity (capacity required : Nat) : Nat :=
  let doubled := min MAX_LINE_BYTES (capacity * 2)
  if capacity < required ∧ capacity < doubled then growCapacity doubled required else capacity
termination_by MAX_LINE_BYTES - capacity
decreasing_by omega

/-- `allocUnsafe` gives any bytes: `garbage capacity` at each position. -/
def ensureCapacity (garbage : Nat → Nat → UInt8) (pendingBuffer : Option Bytes)
    (pendingBytes required : Nat) :
    Bytes :=
  let old := pendingBuffer.getD []
  if pendingBuffer.isSome ∧ required ≤ old.length then old
  else
    let capacity := growCapacity (if pendingBuffer.isSome then old.length else 64 * 1024) required
    old.take pendingBytes ++ ((range capacity).map (garbage capacity)).drop pendingBytes

def copyInto (target : Bytes) (position : Nat) (source : Bytes) : Bytes :=
  target.take position ++ source.take (target.length - position) ++
    target.drop (position + source.length)

def createReusableBoundedLineChunkConsumer (garbage : Nat → Nat → UInt8) :
    PendingStore (Option Bytes) where
  new := none
  isEmpty _ pendingBytes := pendingBytes = 0
  push pendingBuffer pendingBytes remainder :=
    some (copyInto (ensureCapacity garbage pendingBuffer pendingBytes
      (pendingBytes + remainder.length)) pendingBytes remainder)
  assemble pendingBuffer pendingBytes segment :=
    let lineBytes := pendingBytes + segment.length
    let assembled :=
      copyInto (ensureCapacity garbage pendingBuffer pendingBytes lineBytes) pendingBytes segment
    (some assembled, assembled.take lineBytes)
  contents pendingBuffer pendingBytes := (pendingBuffer.getD []).take pendingBytes

namespace LineConsumer

/-- The line that has not ended yet, and where it starts. -/
structure Pending where
  visits : List LineVisit := []
  start : Nat := 0
  line : Bytes := []

section Scan

variable (visit : List LineVisit → Bool)

def Pending.endLine (p : Pending) (segment : Bytes) : Except Failed Pending :=
  let line := p.line ++ segment
  if MAX_LINE_BYTES < line.length then .error (.oversizedLine, p.visits)
  else (visitLine visit p.visits p.start line).map fun visits => ⟨visits, p.start + line.length, []⟩

/-- The lines of all bytes, as they are: each is visited at its offset, up to the first that is too
long. -/
def scan : Pending → Bytes → Except Failed Pending
  | p, [] => if MAX_LINE_BYTES < p.line.length then .error (.oversizedLine, p.visits) else .ok p
  | p, byte :: bytes =>
    if byte = 0x0a then (p.endLine visit [byte]).bind (scan · bytes)
    else scan { p with line := p.line ++ [byte] } bytes

def scanLines (includeUnterminated : Bool) (bytes : Bytes) : Except Failed (List LineVisit) :=
  (scan visit {} bytes).bind fun p =>
    finish visit includeUnterminated p.visits p.start p.line.length p.line

end Scan

/-- The pieces of the bytes up to each newline, and a last one without; `line` is what there is of
the first, which starts at `start`. -/
def linesFrom (start : Nat) (line : Bytes) : Bytes → List LineVisit
  | [] => if line = [] then [] else [(start, line)]
  | byte :: bytes =>
    if byte = 0x0a then
      (start, line ++ [byte]) :: linesFrom (start + (line ++ [byte]).length) [] bytes
    else linesFrom start (line ++ [byte]) bytes

/-- The visits before a failure are the first lines, and those without a failure are all. -/
def Visits (lines : List LineVisit) : Except Failed (List LineVisit) → Prop
  | .ok visits => visits = lines
  | .error (_, visits) => visits <+: lines

variable {S : Type} {visit : List LineVisit → Bool} {store : PendingStore S} {R : S → Bytes → Prop}
  {c : LineConsumer S} {p : Pending} {segment : Bytes} {position : Nat}

/-- `R` says which bytes a store holds. -/
structure Lawful (store : PendingStore S) (R : S → Bytes → Prop) : Prop where
  new : R store.new []
  isEmpty : ∀ {s line}, R s line → (store.isEmpty s line.length = true ↔ line = [])
  push : ∀ {s line segment}, R s line → segment ≠ [] →
    line.length + segment.length ≤ MAX_LINE_BYTES →
    R (store.push s line.length segment) (line ++ segment)
  assemble : ∀ {s line segment}, R s line → line ≠ [] →
    line.length + segment.length ≤ MAX_LINE_BYTES →
    (store.assemble s line.length segment).2 = line ++ segment ∧
      R (store.assemble s line.length segment).1 []
  contents : ∀ {s line}, R s line → store.contents s line.length = line

structure Holds (R : S → Bytes → Prop) (c : LineConsumer S) (p : Pending) : Prop where
  visits : c.visits = p.visits
  bytes : c.pendingBytes = p.line.length
  bounded : p.line.length ≤ MAX_LINE_BYTES
  start : p.line ≠ [] → c.pendingStart = p.start
  pending : R c.pending p.line

def Agree (R : S → Bytes → Prop) (position : Nat) :
    Except Failed (LineConsumer S) → Except Failed Pending → Prop
  | .ok c, .ok p => c.Holds R p ∧ p.start + p.line.length = position
  | .error failed, .error failed' => failed = failed'
  | _, _ => False

theorem Agree.bind {position' : Nat} {x : Except Failed (LineConsumer S)}
    {y : Except Failed Pending}
    {f : LineConsumer S → Except Failed (LineConsumer S)} {g : Pending → Except Failed Pending}
    (h : Agree R position x y)
    (hnext : ∀ c p, c.Holds R p → p.start + p.line.length = position →
      Agree R position' (f c) (g p)) :
    Agree R position' (x.bind f) (y.bind g) := by
  cases x <;> cases y
  · exact h
  · exact h.elim
  · exact h.elim
  · exact hnext _ _ h.1 h.2

theorem scan_oversized (h : MAX_LINE_BYTES < p.line.length) (bytes : Bytes) :
    scan visit p bytes = .error (.oversizedLine, p.visits) := by
  induction bytes generalizing p with
  | nil => exact if_pos h
  | cons byte bytes ih =>
    have hlonger : MAX_LINE_BYTES < (p.line ++ [byte]).length := by
      rw [length_append]
      omega
    rw [scan]
    split
    · rw [Pending.endLine, if_pos hlonger]
      rfl
    · exact ih hlonger

theorem scan_append (bytes bytes' : Bytes) :
    scan visit p (bytes ++ bytes') = (scan visit p bytes).bind (scan visit · bytes') := by
  induction bytes generalizing p with
  | nil =>
    rw [scan]
    split
    · next h => exact scan_oversized h bytes'
    · rfl
  | cons byte bytes ih =>
    rw [cons_append, scan, scan]
    split
    · cases p.endLine visit [byte] with
      | error failed => rfl
      | ok p' => exact ih
    · exact ih

theorem Holds.scan_nil (h : c.Holds R p) : scan visit p [] = .ok p :=
  if_neg (Nat.not_lt.mpr h.bounded)

variable (visit) in
theorem visitLine_visits (visits : List LineVisit) (lineStart : Nat) (line : Bytes) :
    Visits (visits ++ [(lineStart, line)]) (visitLine visit visits lineStart line) := by
  rw [visitLine]
  split
  · exact prefix_rfl
  · rfl

variable (visit p) in
theorem scan_visits (bytes : Bytes) :
    Visits (p.visits ++ linesFrom p.start p.line bytes)
      ((scan visit p bytes).map fun p' => p'.visits ++ linesFrom p'.start p'.line []) := by
  induction bytes generalizing p with
  | nil =>
    rw [scan]
    split
    · exact prefix_append _ _
    · rfl
  | cons byte bytes ih =>
    rw [scan, linesFrom]
    split
    · rw [Pending.endLine]
      split
      · exact prefix_append _ _
      · have hvisited := visitLine_visits visit p.visits p.start (p.line ++ [byte])
        cases hvisit : visitLine visit p.visits p.start (p.line ++ [byte]) with
        | error failed =>
          rw [hvisit] at hvisited
          have hfirst := prefix_append (p.visits ++ [(p.start, p.line ++ [byte])])
            (linesFrom (p.start + (p.line ++ [byte]).length) [] bytes)
          rw [← append_cons] at hfirst
          exact IsPrefix.trans hvisited hfirst
        | ok visits =>
          rw [hvisit] at hvisited
          obtain rfl : visits = _ := hvisited
          have hrest := ih (p := ⟨p.visits ++ [(p.start, p.line ++ [byte])],
            p.start + (p.line ++ [byte]).length, []⟩)
          rw [append_cons p.visits]
          exact hrest
    · exact ih (p := { p with line := p.line ++ [byte] })

theorem scanLines_visits (includeUnterminated : Bool) (bytes : Bytes) :
    Visits (linesFrom 0 [] bytes) (scanLines visit includeUnterminated bytes) := by
  have hscan := scan_visits visit {} bytes
  rw [scanLines]
  cases hscanned : scan visit {} bytes with
  | error failed =>
    rw [hscanned] at hscan
    exact hscan
  | ok p =>
    rw [hscanned] at hscan
    have hlines : p.visits ++ linesFrom p.start p.line [] = linesFrom 0 [] bytes := hscan
    rw [← hlines]
    show Visits _ (finish visit includeUnterminated p.visits p.start p.line.length p.line)
    simp only [finish, linesFrom, length_eq_zero_iff]
    split
    · exact (append_nil p.visits).symm
    · split
      · exact prefix_append _ _
      · exact visitLine_visits visit p.visits p.start p.line

variable (hstore : Lawful store R) (h : c.Holds R p)
include hstore h

theorem Holds.startOf : c.startOf store (p.start + p.line.length) = p.start := by
  rw [LineConsumer.startOf, h.bytes]
  split
  · next hempty =>
    rw [(hstore.isEmpty h.pending).mp hempty]
    rfl
  · next hne => exact h.start fun hnil => hne ((hstore.isEmpty h.pending).mpr hnil)

theorem Holds.endLine (segment : Bytes) : Agree R (p.start + (p.line ++ segment).length)
    (c.endLine visit store (p.start + p.line.length) segment) (p.endLine visit segment) := by
  rw [LineConsumer.endLine, Pending.endLine, h.startOf hstore, h.bytes, h.visits, ← length_append]
  split
  · rfl
  · next hfits =>
    have hline : ∃ pending, R pending [] ∧
        (if store.isEmpty c.pending p.line.length then (c.pending, segment)
        else store.assemble c.pending p.line.length segment) = (pending, p.line ++ segment) := by
      split
      · next hempty =>
        have hnil := (hstore.isEmpty h.pending).mp hempty
        exact ⟨c.pending, hnil ▸ h.pending, by rw [hnil, nil_append]⟩
      · next hne =>
        have hwhole :=
          hstore.assemble h.pending (fun hnil => hne ((hstore.isEmpty h.pending).mpr hnil))
          (length_append ▸ Nat.not_lt.mp hfits)
        exact ⟨_, hwhole.2, Prod.ext rfl hwhole.1⟩
    obtain ⟨pending, hpending, heq⟩ := hline
    rw [heq]
    cases hvisit : visitLine visit p.visits p.start (p.line ++ segment) with
    | error failed => simp [hvisit, Except.map, Agree]
    | ok visits =>
      simp only [hvisit, Except.map, Agree]
      exact ⟨⟨rfl, rfl, Nat.zero_le _, absurd rfl, hpending⟩, rfl⟩

theorem Holds.keep (hne : segment ≠ []) : Agree R (p.start + (p.line ++ segment).length)
    (c.keep store (p.start + p.line.length) segment)
      (scan visit { p with line := p.line ++ segment } []) := by
  rw [LineConsumer.keep, scan, h.startOf hstore, h.bytes, h.visits, ← length_append]
  split
  · rfl
  · next hfits =>
    have hfits := Nat.not_lt.mp hfits
    exact ⟨⟨rfl, rfl, hfits, fun _ => rfl, hstore.push h.pending hne (length_append ▸ hfits)⟩, rfl⟩

theorem Holds.consume (visit : List LineVisit → Bool) (segment chunk : Bytes) :
    Agree R (p.start + p.line.length + (segment ++ chunk).length)
      (c.consume visit store (p.start + p.line.length) segment chunk)
      (scan visit { p with line := p.line ++ segment } chunk) := by
  induction chunk generalizing c p segment with
  | nil =>
    rw [LineConsumer.consume, append_nil, Nat.add_assoc, ← length_append]
    split
    · next hnil =>
      rw [hnil, append_nil, h.scan_nil]
      exact ⟨h, rfl⟩
    · next hne => exact h.keep hstore hne
  | cons byte chunk ih =>
    rw [LineConsumer.consume, scan]
    split
    · have hsame :
          { p with line := p.line ++ segment }.endLine visit [byte] =
            p.endLine visit (segment ++ [byte]) := by
        simp only [Pending.endLine, append_assoc]
      rw [hsame]
      refine (h.endLine hstore (segment ++ [byte])).bind fun c' p' h' hposition => ?_
      have hrest := ih h' []
      rw [append_nil, hposition, length_append, ← Nat.add_assoc] at hrest
      have hlength :
          (segment ++ byte :: chunk).length = (segment ++ [byte]).length + chunk.length := by
        rw [append_cons, length_append]
      rwa [hlength, ← Nat.add_assoc]
    · have hrest := ih h (segment ++ [byte])
      rwa [append_assoc, singleton_append, ← append_assoc] at hrest

theorem Holds.consumeAll (chunks : List Bytes) :
    Agree R (p.start + p.line.length + chunks.flatten.length)
    (c.consumeAll visit store (p.start + p.line.length) chunks) (scan visit p chunks.flatten) := by
  induction chunks generalizing c p with
  | nil =>
    rw [flatten_nil, h.scan_nil]
    exact ⟨h, rfl⟩
  | cons chunk chunks ih =>
    rw [flatten_cons, scan_append, length_append, ← Nat.add_assoc]
    have hchunk := h.consume hstore visit [] chunk
    rw [append_nil] at hchunk
    exact hchunk.bind fun c' p' h' hposition => hposition ▸ ih h'

theorem Holds.finish (includeUnterminated : Bool) :
    finish visit includeUnterminated c.visits c.pendingStart c.pendingBytes
        (store.contents c.pending c.pendingBytes) =
      finish visit includeUnterminated p.visits p.start p.line.length p.line := by
  simp only [LineConsumer.finish, h.visits, h.bytes, hstore.contents h.pending]
  split
  · rfl
  · next hne => rw [h.start fun hnil => hne (length_eq_zero_iff.mpr hnil)]

omit h

theorem Lawful.holds_new : Holds R { pending := store.new } {} :=
  ⟨rfl, rfl, Nat.zero_le _, absurd rfl, hstore.new⟩

theorem run_eq_scanLines (includeUnterminated : Bool) (chunks : List Bytes) :
    run visit store includeUnterminated chunks =
      scanLines visit includeUnterminated chunks.flatten := by
  have hend : Agree R _ (consumeAll visit store { pending := store.new } 0 chunks)
      (scan visit {} chunks.flatten) :=
    hstore.holds_new.consumeAll hstore chunks
  rw [run, scanLines]
  cases hconsumed : consumeAll visit store { pending := store.new } 0 chunks <;>
    cases hscanned : scan visit {} chunks.flatten <;> rw [hconsumed, hscanned] at hend
  · exact congrArg Except.error hend
  · exact hend.elim
  · exact hend.elim
  · exact hend.1.finish hstore includeUnterminated

end LineConsumer

open LineConsumer

def PiecesOf (pendingChunks : List Bytes) (line : Bytes) : Prop :=
  pendingChunks.flatten = line ∧ (pendingChunks = [] ↔ line = [])

theorem lawful_pieces : Lawful createBoundedLineChunkConsumer PiecesOf where
  new := ⟨rfl, iff_of_true rfl rfl⟩
  isEmpty h := by simp [createBoundedLineChunkConsumer, h.2]
  push h hne _ := ⟨by simp [createBoundedLineChunkConsumer,
    h.1], by simp [createBoundedLineChunkConsumer, hne]⟩
  assemble h _ _ := ⟨by simp [createBoundedLineChunkConsumer, h.1], rfl, iff_of_true rfl rfl⟩
  contents h := h.1

def BufferOf (pendingBuffer : Option Bytes) (line : Bytes) : Prop :=
  (pendingBuffer.getD []).take line.length = line ∧ ∀ buffer, pendingBuffer = some buffer →
    0 < buffer.length

variable (garbage : Nat → Nat → UInt8) {pendingBuffer : Option Bytes} {line segment : Bytes}
    {required : Nat}

theorem le_growCapacity {capacity : Nat} (hpos : 0 < capacity) (hle : required ≤ MAX_LINE_BYTES) :
    required ≤ growCapacity capacity required := by
  induction capacity using growCapacity.induct required with
  | case1 capacity doubled hgrow ih =>
    rw [growCapacity, if_pos hgrow]
    exact ih (Nat.lt_trans hpos hgrow.2)
  | case2 capacity doubled hstop =>
    rw [growCapacity, if_neg hstop]
    omega

theorem BufferOf.hasRoom (h : BufferOf pendingBuffer line) (hle : required ≤ MAX_LINE_BYTES) :
    (ensureCapacity garbage pendingBuffer line.length required).take line.length = line ∧
      required ≤ (ensureCapacity garbage pendingBuffer line.length required).length := by
  rw [ensureCapacity]
  split
  · next hlarge => exact ⟨h.1, hlarge.2⟩
  · have hpos : 0 < if pendingBuffer.isSome then (pendingBuffer.getD []).length else 64 * 1024 := by
      cases pendingBuffer with
      | none => decide
      | some buffer => exact h.2 buffer rfl
    have hgrown := le_growCapacity hpos hle
    rw [h.1, take_left, length_append, length_drop, length_map, length_range]
    exact ⟨rfl, by omega⟩

theorem BufferOf.copied (h : BufferOf pendingBuffer line)
    (hle : line.length + segment.length ≤ MAX_LINE_BYTES)
    (hpos : 0 < line.length + segment.length) :
    BufferOf (some
      (copyInto (ensureCapacity garbage pendingBuffer line.length (line.length + segment.length))
      line.length segment)) (line ++ segment) := by
  obtain ⟨htake, hroom⟩ := h.hasRoom garbage hle
  rw [BufferOf, Option.getD_some, copyInto, htake, take_of_length_le (i := _ - _) (by omega),
    take_left]
  refine ⟨rfl, fun buffer hbuffer => ?_⟩
  cases hbuffer
  rw [length_append, length_append]
  omega

theorem lawful_buffer : Lawful (createReusableBoundedLineChunkConsumer garbage) BufferOf where
  new := ⟨rfl, nofun⟩
  isEmpty h := by simp [createReusableBoundedLineChunkConsumer]
  push h hne hle := h.copied garbage hle (Nat.add_pos_right _ (length_pos_of_ne_nil hne))
  assemble h hne hle := by
    have hcopied := h.copied garbage hle (Nat.add_pos_left (length_pos_of_ne_nil hne) _)
    have hwhole := hcopied.1
    rw [length_append] at hwhole
    exact ⟨hwhole, rfl, hcopied.2⟩
  contents h := h.1

/-- The choice that `scanTranscriptLinesBounded` makes between the consumers. -/
def scanChunks (visit : List LineVisit → Bool) (garbage : Nat → Nat → UInt8)
    (reuseLineAssembly includeUnterminated : Bool) (chunks : List Bytes) :
    Except Failed (List LineVisit) :=
  if reuseLineAssembly then
    run visit (createReusableBoundedLineChunkConsumer garbage) includeUnterminated chunks
  else run visit createBoundedLineChunkConsumer includeUnterminated chunks

/-- Either consumer visits the lines of the bytes and fails where these do, for every visitor and
every cut. -/
theorem scanChunks_eq_scanLines (visit : List LineVisit → Bool) (garbage : Nat → Nat → UInt8)
    (reuseLineAssembly includeUnterminated : Bool) (chunks : List Bytes) :
    scanChunks visit garbage reuseLineAssembly includeUnterminated chunks =
      scanLines visit includeUnterminated chunks.flatten := by
  rw [scanChunks]
  split
  · exact run_eq_scanLines (lawful_buffer garbage) ..
  · exact run_eq_scanLines lawful_pieces ..

end Vibrato.Session
