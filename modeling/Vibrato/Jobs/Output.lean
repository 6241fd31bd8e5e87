import Vibrato.Jobs.Deliveries
import Mathlib.Data.Rat.Floor

/-! The output of a background job: `appendOutput` keeps the last bytes of the stream of chunks, and
`readOutputSince` reads them from an offset that counts every byte of the stream. -/

namespace Vibrato.Jobs

open Lib Output List OrderedMap

def DEFAULT_JOB_OUTPUT_RETENTION_BYTES : Nat := 512 * 1024

def sliceTextFromUtf8ByteOffset : Text → Nat → Text
  | text, 0 => text
  | [], _ + 1 => []
  | c :: rest, n + 1 =>
    if n + 1 < c.utf8Size then c :: rest else sliceTextFromUtf8ByteOffset rest (n + 1 - c.utf8Size)

structure AsyncJobOutputChunk where
  startByte : Nat
  endByte : Nat
  text : Text
  deriving DecidableEq

structure AsyncJobOutputState where
  chunks : List AsyncJobOutputChunk
  startOffset : Nat
  nextOffset : Nat
  retainedBytes : Nat
  deriving DecidableEq

structure AsyncJobOutputSlice where
  jobId : Text
  status : JobStatus
  text : Text
  startOffset : Nat
  nextOffset : Nat
  truncated : Bool

namespace AsyncJobOutputState

def empty : AsyncJobOutputState := ⟨[], 0, 0, 0⟩

/-- The loop of `appendOutput` that drops the oldest chunks. -/
def dropOldest (retentionBytes nextOffset : Nat) :
    List AsyncJobOutputChunk → Nat → Nat → AsyncJobOutputState
  | [], startOffset, retainedBytes => ⟨[], startOffset, nextOffset, retainedBytes⟩
  | dropped :: chunks, startOffset, retainedBytes =>
    if retentionBytes < retainedBytes then
      dropOldest retentionBytes nextOffset chunks (max startOffset dropped.endByte)
        (retainedBytes - (dropped.endByte - dropped.startByte))
    else ⟨dropped :: chunks, startOffset, nextOffset, retainedBytes⟩

variable (state : AsyncJobOutputState)

/-- `appendOutput`, from the retained part of the chunk on. -/
def push (retentionBytes skippedBytes : Nat) (retainedChunk : Text) : AsyncJobOutputState :=
  let startByte := state.nextOffset + skippedBytes
  let endByte := startByte + byteLength retainedChunk
  dropOldest retentionBytes endByte (state.chunks ++ [⟨startByte, endByte, retainedChunk⟩])
    (if skippedBytes > 0 then max state.startOffset startByte else state.startOffset)
    (state.retainedBytes + byteLength retainedChunk)

def append (retentionBytes : Nat) (chunk : Text) : AsyncJobOutputState :=
  let retainedChunk :=
    if byteLength chunk > retentionBytes then
      sliceTextAfterUtf8ByteOffset chunk (byteLength chunk - retentionBytes)
    else chunk
  state.push retentionBytes (byteLength chunk - byteLength retainedChunk) retainedChunk

/-- The loop of `readOutputSince` over the chunks. -/
def textFrom (effectiveOffset : Nat) : List AsyncJobOutputChunk → Text
  | [] => []
  | chunk :: chunks =>
    if chunk.endByte ≤ effectiveOffset then textFrom effectiveOffset chunks
    else if effectiveOffset > chunk.startByte then
      sliceTextFromUtf8ByteOffset chunk.text (effectiveOffset - chunk.startByte) ++
        textFrom effectiveOffset chunks
    else chunk.text ++ textFrom effectiveOffset chunks

end AsyncJobOutputState

/-- What `appendOutput` and `readOutputSince` use of the manager. -/
structure JobOutputs where
  disposed : Bool
  table : JobTable
  outputRetentionBytes : Nat := DEFAULT_JOB_OUTPUT_RETENTION_BYTES
  outputState : OrderedMap Text AsyncJobOutputState

open JobOutputs

namespace JobOutputs

variable (m : JobOutputs)

def appendOutput (jobId chunk : Text) : JobOutputs :=
  if m.disposed then m
  else if chunk = [] then m
  else if (m.table.get jobId).isNone then m
  else
    let state := (m.outputState.get? jobId).getD .empty
    if byteLength chunk = 0 then m
    else
      { m with outputState := m.outputState.set jobId (state.append m.outputRetentionBytes chunk) }

def readOutputSince (jobId : Text) (offset : ℚ) (filter : Option Text) :
    Option AsyncJobOutputSlice :=
  match m.table.get jobId with
  | none => none
  | some job =>
    if !matchesOwner filter job.ownerId then none
    else
      match m.outputState.get? jobId with
      | none => some ⟨jobId, job.status, [], 0, 0, false⟩
      | some state =>
        let requestedOffset := (max 0 ⌊offset⌋).toNat
        if requestedOffset ≥ state.nextOffset then
          some ⟨jobId, job.status, [], state.startOffset, state.nextOffset, false⟩
        else
          let truncated := decide (requestedOffset < state.startOffset)
          let effectiveOffset := if truncated then state.startOffset else requestedOffset
          some ⟨jobId, job.status, AsyncJobOutputState.textFrom effectiveOffset state.chunks,
            state.startOffset, state.nextOffset, truncated⟩

def appendAll (jobId : Text) (chunks : List Text) : JobOutputs :=
  chunks.foldl (fun m chunk => m.appendOutput jobId chunk) m

/-- A reader that waits for some chunks, reads, and goes on from the returned `nextOffset`. -/
def follow (m : JobOutputs) (jobId : Text) (filter : Option Text) (offset : Nat) :
    List (List Text) → List AsyncJobOutputSlice
  | [] => []
  | chunks :: rounds =>
    let m := m.appendAll jobId chunks
    match m.readOutputSince jobId offset filter with
    | none => []
    | some slice => slice :: follow m jobId filter slice.nextOffset rounds

end JobOutputs

/-- The places in the stream of the bytes of a slice, which ends at its `nextOffset`. -/
def AsyncJobOutputSlice.positions (slice : AsyncJobOutputSlice) : List Nat :=
  List.range' (slice.nextOffset - byteLength slice.text) (byteLength slice.text)

theorem sliceTextFromUtf8ByteOffset_append (a b : Text) :
    sliceTextFromUtf8ByteOffset (a ++ b) (byteLength a) = b := by
  induction a with
  | nil => cases b <;> rfl
  | cons c a ih =>
    have hpos := c.utf8Size_pos
    obtain ⟨n, hn⟩ : ∃ n, byteLength (c :: a) = n + 1 := ⟨byteLength (c :: a) - 1, by
      rw [byteLength_cons]
      omega⟩
    have hsum := byteLength_cons c a
    rw [hn, cons_append, sliceTextFromUtf8ByteOffset, if_neg (by omega),
      show n + 1 - c.utf8Size = byteLength a by omega, ih]

theorem sliceTextAfterUtf8ByteOffset_isSuffix {text : Text} {n : Nat} (h : n ≤ byteLength text) :
    ∃ cut, text = cut ++ sliceTextAfterUtf8ByteOffset text n ∧ n ≤ byteLength cut := by
  induction text generalizing n with
  | nil =>
    obtain rfl : n = 0 := Nat.le_zero.1 h
    exact ⟨[], rfl, Nat.le_refl 0⟩
  | cons c rest ih =>
    rw [byteLength_cons] at h
    cases n with
    | zero => exact ⟨[], rfl, Nat.le_refl 0⟩
    | succ n =>
      rw [sliceTextAfterUtf8ByteOffset]
      split
      · next hlast =>
        exact ⟨[c], rfl, by
          rw [byteLength_cons]
          omega⟩
      · next hmore =>
        obtain ⟨cut, hcut, hle⟩ := @ih (n + 1 - c.utf8Size) (by omega)
        refine ⟨c :: cut, ?_, ?_⟩
        · rw [cons_append, ← hcut]
        · rw [byteLength_cons]
          omega

variable {a b stream : Text} {effectiveOffset offset retainedBytes retentionBytes : Nat}
  {chunks : List AsyncJobOutputChunk} {state : AsyncJobOutputState}

theorem isPrefix_of_byteLength_le {c d : Text} (h : a ++ b = c ++ d)
    (hle : byteLength c ≤ byteLength a) : ∃ rest, a = c ++ rest ∧ d = rest ++ b := by
  obtain ⟨rest, hc, hb⟩ | ⟨rest, ha, hd⟩ := append_eq_append_iff.1 h
  · subst hc
    rw [byteLength_append] at hle
    obtain rfl := byteLength_eq_zero.1 (show byteLength rest = 0 by omega)
    exact ⟨[], by simp, by simpa using hb.symm⟩
  · exact ⟨rest, ha, hd⟩

def keptText (chunks : List AsyncJobOutputChunk) : Text := chunks.flatMap (·.text)

@[simp] theorem keptText_cons (chunk : AsyncJobOutputChunk) (chunks : List AsyncJobOutputChunk) :
    keptText (chunk :: chunks) = chunk.text ++ keptText chunks := rfl

@[simp] theorem keptText_append (a b : List AsyncJobOutputChunk) :
    keptText (a ++ b) = keptText a ++ keptText b := flatMap_append

def Consecutive : Nat → List AsyncJobOutputChunk → Prop
  | _, [] => True
  | offset, chunk :: chunks =>
    chunk.startByte = offset ∧ chunk.endByte = offset + byteLength chunk.text ∧
      Consecutive chunk.endByte chunks

theorem Consecutive.append_singleton {chunk : AsyncJobOutputChunk} (h : Consecutive offset chunks)
    (hstart : chunk.startByte = offset + byteLength (keptText chunks))
    (hend : chunk.endByte = chunk.startByte + byteLength chunk.text) :
    Consecutive offset (chunks ++ [chunk]) := by
  induction chunks generalizing offset with
  | nil =>
    have hoffset : chunk.startByte = offset := hstart
    exact ⟨hoffset, by rw [hend, hoffset], trivial⟩
  | cons first rest ih =>
    obtain ⟨hfirst, hlast, hrest⟩ := h
    rw [keptText_cons, byteLength_append] at hstart
    exact ⟨hfirst, hlast, ih hrest (by omega)⟩

open AsyncJobOutputState

theorem textFrom_eq_keptText (h : Consecutive offset chunks) (hle : effectiveOffset ≤ offset) :
    textFrom effectiveOffset chunks = keptText chunks := by
  induction chunks generalizing offset with
  | nil => rfl
  | cons chunk chunks ih =>
    obtain ⟨hstart, hend, hrest⟩ := h
    rw [textFrom, keptText_cons, ih hrest (by omega)]
    split
    · next hempty =>
      rw [byteLength_eq_zero.1 (show byteLength chunk.text = 0 by omega)]
      rfl
    · rw [if_neg (by omega)]

theorem textFrom_consecutive (h : Consecutive offset chunks) (hsplit : keptText chunks = a ++ b) :
    textFrom (offset + byteLength a) chunks = b := by
  induction chunks generalizing offset a with
  | nil =>
    obtain ⟨-, rfl⟩ := append_eq_nil_iff.1 hsplit.symm
    rfl
  | cons chunk chunks ih =>
    obtain ⟨hstart, hend, hrest⟩ := h
    rw [keptText_cons] at hsplit
    rw [textFrom]
    split
    · next hpassed =>
      obtain ⟨more, rfl, hmore⟩ := isPrefix_of_byteLength_le hsplit.symm (by omega)
      have hoffset :
          offset + byteLength (chunk.text ++ more) = chunk.endByte + byteLength more := by
        rw [byteLength_append]
        omega
      rw [hoffset, ih hrest hmore]
    · next hinside =>
      obtain ⟨more, hmore, rfl⟩ := isPrefix_of_byteLength_le hsplit (by omega)
      rw [textFrom_eq_keptText hrest (by omega)]
      split
      · rw [hmore, show offset + byteLength a - chunk.startByte = byteLength a by omega,
          sliceTextFromUtf8ByteOffset_append]
      · rw [byteLength_eq_zero.1 (show byteLength a = 0 by omega)] at hmore
        rw [hmore]
        rfl

theorem textFrom_append_of_passed {stale : List AsyncJobOutputChunk}
    (live : List AsyncJobOutputChunk) (h : ∀ chunk ∈ stale, chunk.endByte ≤ effectiveOffset) :
    textFrom effectiveOffset (stale ++ live) = textFrom effectiveOffset live := by
  induction stale with
  | nil => rfl
  | cons chunk stale ih =>
    rw [cons_append, textFrom, if_pos (h chunk mem_cons_self),
      ih fun chunk hchunk => h chunk (mem_cons_of_mem _ hchunk)]

/-- The chunks end with the text of the stream from `startOffset` on.  Chunks before these are kept
when a long chunk is cut to less than the budget, and no read reaches them. -/
structure Retains (stream : Text) (chunks : List AsyncJobOutputChunk)
    (startOffset retainedBytes : Nat) : Prop where
  sized : ∀ chunk ∈ chunks, chunk.endByte = chunk.startByte + byteLength chunk.text
  counted : retainedBytes = byteLength (keptText chunks)
  layout : ∃ lost stale live, stream = lost ++ keptText live ∧ byteLength lost = startOffset ∧
    chunks = stale ++ live ∧ (∀ chunk ∈ stale, chunk.endByte ≤ startOffset) ∧
    Consecutive startOffset live

structure IsWindow (retentionBytes : Nat) (stream : Text) (state : AsyncJobOutputState) : Prop
    extends Retains stream state.chunks state.startOffset state.retainedBytes where
  next : state.nextOffset = byteLength stream
  within : state.retainedBytes ≤ retentionBytes

theorem Retains.startOffset_le {startOffset : Nat}
    (h : Retains stream chunks startOffset retainedBytes) :
    startOffset ≤ byteLength stream := by
  obtain ⟨lost, stale, live, rfl, rfl, -⟩ := h.layout
  rw [byteLength_append]
  exact Nat.le_add_right _ _

theorem Retains.endByte_le {startOffset : Nat}
    (h : Retains stream chunks startOffset retainedBytes) :
    ∀ chunk ∈ chunks, chunk.endByte ≤ byteLength stream := by
  have hconsecutive : ∀ {offset live}, Consecutive offset live →
      ∀ chunk ∈ live, chunk.endByte ≤ offset + byteLength (keptText live) := by
    intro offset live
    induction live generalizing offset with
    | nil => simp
    | cons first rest ih =>
      rintro ⟨hstart, hend, hrest⟩ chunk hchunk
      rw [keptText_cons, byteLength_append]
      obtain rfl | hchunk := mem_cons.1 hchunk
      · omega
      · have := ih hrest chunk hchunk
        omega
  intro chunk hchunk
  have hstart := h.startOffset_le
  obtain ⟨lost, stale, live, rfl, rfl, rfl, hstale, hlive⟩ := h.layout
  obtain hchunk | hchunk := mem_append.1 hchunk
  · exact (hstale chunk hchunk).trans hstart
  · rw [byteLength_append]
    exact hconsecutive hlive chunk hchunk

theorem Retains.drop_head {dropped : AsyncJobOutputChunk} {startOffset : Nat}
    (h : Retains stream (dropped :: chunks) startOffset retainedBytes) :
    Retains stream chunks (max startOffset dropped.endByte)
      (retainedBytes - (dropped.endByte - dropped.startByte)) := by
  have hdropped := h.sized dropped mem_cons_self
  refine ⟨fun chunk hchunk => h.sized chunk (mem_cons_of_mem _ hchunk), ?_, ?_⟩
  · rw [h.counted, keptText_cons, byteLength_append]
    omega
  · obtain ⟨lost, stale, live, hstream, hlost, hchunks, hstale, hlive⟩ := h.layout
    cases stale with
    | nil =>
      subst hchunks
      obtain ⟨hstart, hend, hrest⟩ := hlive
      rw [Nat.max_eq_right (by omega)]
      refine ⟨lost ++ dropped.text, [], chunks, ?_, ?_, rfl, by simp, hrest⟩
      · rw [hstream, keptText_cons, append_assoc]
      · rw [byteLength_append]
        omega
    | cons first stale =>
      obtain ⟨rfl, rfl⟩ := hchunks
      rw [Nat.max_eq_left (hstale dropped mem_cons_self)]
      exact ⟨lost, stale, live, hstream, hlost, rfl,
        fun chunk hchunk => hstale chunk (mem_cons_of_mem _ hchunk), hlive⟩

theorem dropOldest_isWindow {startOffset : Nat}
    (h : Retains stream chunks startOffset retainedBytes) :
    IsWindow retentionBytes stream
      (dropOldest retentionBytes (byteLength stream) chunks startOffset retainedBytes) := by
  induction chunks generalizing startOffset retainedBytes with
  | nil =>
    have hzero : retainedBytes = 0 := h.counted
    exact ⟨h, rfl, by
      show retainedBytes ≤ retentionBytes
      omega⟩
  | cons dropped chunks ih =>
    rw [dropOldest]
    split
    · exact ih h.drop_head
    · next hfits => exact ⟨h, rfl, Nat.le_of_not_lt hfits⟩

theorem startOffset_le_dropOldest (retentionBytes nextOffset : Nat)
    (chunks : List AsyncJobOutputChunk) (startOffset retainedBytes : Nat) :
    startOffset ≤
      (dropOldest retentionBytes nextOffset chunks startOffset retainedBytes).startOffset := by
  induction chunks generalizing startOffset retainedBytes with
  | nil => exact Nat.le_refl _
  | cons dropped chunks ih =>
    rw [dropOldest]
    split
    · exact (Nat.le_max_left _ _).trans (ih _ _)
    · exact Nat.le_refl _

theorem IsWindow.push {retentionBytes : Nat} {stream : Text} {state : AsyncJobOutputState}
    (h : IsWindow retentionBytes stream state) (skipped retainedChunk : Text) :
    IsWindow retentionBytes (stream ++ (skipped ++ retainedChunk))
      (state.push retentionBytes (byteLength skipped) retainedChunk) := by
  have hnext := h.next
  have hlength : state.nextOffset + byteLength skipped + byteLength retainedChunk =
      byteLength (stream ++ (skipped ++ retainedChunk)) := by
    simp only [byteLength_append]
    omega
  rw [AsyncJobOutputState.push, hlength]
  apply dropOldest_isWindow
  refine ⟨?_, ?_, ?_⟩
  · intro chunk hchunk
    obtain hchunk | hchunk := mem_append.1 hchunk
    · exact h.sized chunk hchunk
    · obtain rfl := mem_singleton.1 hchunk
      exact hlength.symm
  · have hchunk : keptText [⟨state.nextOffset + byteLength skipped,
        byteLength (stream ++ (skipped ++ retainedChunk)), retainedChunk⟩] = retainedChunk :=
      append_nil retainedChunk
    rw [keptText_append, byteLength_append, h.counted, hchunk]
  · split
    · next hskipped =>
      -- The stream up to the kept part is lost, with every chunk before it.
      have hstart := h.startOffset_le
      rw [Nat.max_eq_right (by omega)]
      refine ⟨stream ++ skipped, state.chunks, [_], ?_, ?_, rfl, ?_, rfl, hlength.symm, trivial⟩
      · simp [keptText]
      · rw [byteLength_append, hnext]
      · intro chunk hchunk
        have hend := h.endByte_le chunk hchunk
        omega
    · next hskipped =>
      obtain rfl := byteLength_eq_zero.1 (Nat.eq_zero_of_not_pos hskipped)
      obtain ⟨lost, stale, live, hstream, hlost, hchunks, hstale, hlive⟩ := h.layout
      refine ⟨lost, stale, live ++ [⟨state.nextOffset + byteLength [],
        byteLength (stream ++ ([] ++ retainedChunk)), retainedChunk⟩], ?_, hlost, ?_, hstale,
        hlive.append_singleton ?_ ?_⟩
      · rw [hstream]
        simp [keptText]
      · rw [hchunks, append_assoc]
      · rw [hnext, hstream, byteLength_append, hlost]
        rfl
      · exact hlength.symm

theorem IsWindow.append (h : IsWindow retentionBytes stream state) (chunk : Text) :
    IsWindow retentionBytes (stream ++ chunk) (state.append retentionBytes chunk) := by
  rw [AsyncJobOutputState.append]
  split
  · next hlong =>
    obtain ⟨cut, hcut, -⟩ := sliceTextAfterUtf8ByteOffset_isSuffix
      (Nat.sub_le (byteLength chunk) retentionBytes)
    generalize sliceTextAfterUtf8ByteOffset chunk (byteLength chunk - retentionBytes) = kept at hcut
    subst hcut
    rw [byteLength_append, Nat.add_sub_cancel]
    exact h.push cut kept
  · rw [Nat.sub_self]
    exact h.push [] chunk

theorem startOffset_le_append (state : AsyncJobOutputState) (retentionBytes : Nat) (chunk : Text) :
    state.startOffset ≤ (state.append retentionBytes chunk).startOffset := by
  refine le_trans ?_ (startOffset_le_dropOldest _ _ _ _ _)
  split_ifs
  · exact Nat.le_max_left _ _
  · exact Nat.le_refl _
  · exact Nat.le_max_left _ _
  · exact Nat.le_refl _

theorem IsWindow.textFrom_eq (h : IsWindow retentionBytes stream state) {before after : Text}
    (hstream : stream = before ++ after) :
    ∃ skipped, stream = skipped ++ textFrom
      (max (byteLength before) state.startOffset) state.chunks ∧
      byteLength skipped = max (byteLength before) state.startOffset := by
  obtain ⟨lost, stale, live, hlive, hlost, hchunks, hstale, hconsecutive⟩ := h.layout
  have hpassed : ∀ chunk ∈ stale, chunk.endByte ≤ max (byteLength before) state.startOffset :=
    fun chunk hchunk => (hstale chunk hchunk).trans (Nat.le_max_right _ _)
  rw [hchunks, textFrom_append_of_passed live hpassed]
  obtain hle | hlt := le_or_gt (byteLength before) state.startOffset
  · rw [Nat.max_eq_right hle, textFrom_eq_keptText hconsecutive (Nat.le_refl _)]
    exact ⟨lost, hlive, hlost⟩
  · rw [Nat.max_eq_left (Nat.le_of_lt hlt)]
    obtain ⟨more, rfl, hmore⟩ := isPrefix_of_byteLength_le (hstream.symm.trans hlive) (by omega)
    have hoffset : byteLength (lost ++ more) = state.startOffset + byteLength more := by
      rw [byteLength_append, hlost]
    rw [hoffset, textFrom_consecutive hconsecutive hmore]
    exact ⟨lost ++ more, hstream, hoffset⟩

namespace JobOutputs

structure Streams (m : JobOutputs) (jobId stream : Text) : Prop where
  live : m.disposed = false
  window : IsWindow m.outputRetentionBytes stream ((m.outputState.get? jobId).getD .empty)

def startOffset (m : JobOutputs) (jobId : Text) : Nat :=
  ((m.outputState.get? jobId).getD .empty).startOffset

theorem appendOutput_table (m : JobOutputs) (jobId chunk : Text) :
    (m.appendOutput jobId chunk).table = m.table := by
  unfold appendOutput
  split_ifs <;> rfl

theorem appendOutput_retention (m : JobOutputs) (jobId chunk : Text) :
    (m.appendOutput jobId chunk).outputRetentionBytes = m.outputRetentionBytes := by
  unfold appendOutput
  split_ifs <;> rfl

variable {m : JobOutputs} {after before jobId stream : Text} {job : AsyncJob} {filter : Option Text}

theorem appendOutput_of_live (hlive : m.disposed = false) {chunk : Text}
    (hjob : m.table.get jobId = some job) (hchunk : chunk ≠ []) :
    m.appendOutput jobId chunk =
      { m with
        outputState := m.outputState.set jobId
          (((m.outputState.get? jobId).getD .empty).append m.outputRetentionBytes chunk) } := by
  have hbytes : byteLength chunk ≠ 0 := fun h => hchunk (byteLength_eq_zero.1 h)
  rw [appendOutput, hlive, if_neg (by simp), if_neg hchunk, if_neg (by simp [hjob]), if_neg hbytes]

theorem Streams.appendOutput (h : m.Streams jobId stream) (hjob : m.table.get jobId = some job)
    (chunk : Text) :
    (m.appendOutput jobId chunk).Streams jobId (stream ++ chunk) ∧
      m.startOffset jobId ≤ (m.appendOutput jobId chunk).startOffset jobId := by
  by_cases hchunk : chunk = []
  · have hsame : m.appendOutput jobId chunk = m := by
      rw [JobOutputs.appendOutput, if_pos hchunk, ite_self]
    rw [hsame, hchunk, append_nil]
    exact ⟨h, Nat.le_refl _⟩
  · have happend := appendOutput_of_live h.live hjob hchunk
    have hget : (m.appendOutput jobId chunk).outputState.get? jobId =
        some (((m.outputState.get? jobId).getD .empty).append m.outputRetentionBytes chunk) := by
      rw [happend]
      exact get?_set_self _ _ _
    constructor
    · refine ⟨?_, ?_⟩
      · rw [happend]
        exact h.live
      · rw [appendOutput_retention, hget]
        exact h.window.append chunk
    · unfold startOffset
      rw [hget]
      exact startOffset_le_append _ _ _

theorem appendAll_table (m : JobOutputs) (jobId : Text) (chunks : List Text) :
    (m.appendAll jobId chunks).table = m.table := by
  induction chunks generalizing m with
  | nil => rfl
  | cons chunk chunks ih => exact (ih _).trans (m.appendOutput_table jobId chunk)

theorem appendAll_retention (m : JobOutputs) (jobId : Text) (chunks : List Text) :
    (m.appendAll jobId chunks).outputRetentionBytes = m.outputRetentionBytes := by
  induction chunks generalizing m with
  | nil => rfl
  | cons chunk chunks ih => exact (ih _).trans (m.appendOutput_retention jobId chunk)

theorem Streams.appendAll (h : m.Streams jobId stream) (hjob : m.table.get jobId = some job)
    (chunks : List Text) :
    (m.appendAll jobId chunks).Streams jobId (stream ++ chunks.flatten) ∧
      m.startOffset jobId ≤ (m.appendAll jobId chunks).startOffset jobId := by
  induction chunks generalizing m stream with
  | nil => exact ⟨by simpa [appendAll] using h, Nat.le_refl _⟩
  | cons chunk chunks ih =>
    obtain ⟨hstep, hstart⟩ := h.appendOutput hjob chunk
    obtain ⟨hrest, hmore⟩ := ih hstep (by rw [appendOutput_table, hjob])
    rw [flatten_cons, ← append_assoc]
    exact ⟨hrest, hstart.trans hmore⟩

theorem Streams.readOutputSince (h : m.Streams jobId stream) (hjob : m.table.get jobId = some job)
    (howner : matchesOwner filter job.ownerId = true) (hstream : stream = before ++ after) :
    ∃ slice, m.readOutputSince jobId (byteLength before) filter = some slice ∧
      (∃ skipped, stream = skipped ++ slice.text ∧
        byteLength skipped = max (byteLength before) slice.startOffset) ∧
      (slice.truncated = true ↔ byteLength before < slice.startOffset) ∧
      slice.startOffset = m.startOffset jobId ∧ slice.nextOffset = byteLength stream := by
  have hwindow := h.window
  have hfloor : (max 0 ⌊((byteLength before : ℕ) : ℚ)⌋).toNat = byteLength before := by
    rw [Int.floor_natCast, Int.max_eq_right (Int.natCast_nonneg _), Int.toNat_natCast]
  have hbefore : byteLength before ≤ byteLength stream := by
    rw [hstream, byteLength_append]
    exact Nat.le_add_right _ _
  unfold startOffset
  simp only [JobOutputs.readOutputSince, hjob, howner, hfloor]
  cases hstate : m.outputState.get? jobId with
  | none =>
    rw [hstate] at hwindow
    obtain rfl := byteLength_eq_zero.1 hwindow.next.symm
    obtain ⟨rfl, -⟩ := append_eq_nil_iff.1 hstream.symm
    exact ⟨_, rfl, ⟨[], rfl, rfl⟩, by simp, rfl, rfl⟩
  | some state =>
    rw [hstate, Option.getD_some] at hwindow
    have hnext := hwindow.next
    have hstart := hwindow.startOffset_le
    simp only [Bool.not_true, Bool.false_eq_true, if_false]
    by_cases hend : state.nextOffset ≤ byteLength before
    · rw [if_pos hend]
      refine ⟨_, rfl, ⟨stream, (append_nil stream).symm, ?_⟩, ?_, rfl, hnext⟩
      · show byteLength stream = max (byteLength before) state.startOffset
        omega
      · simp only [Bool.false_eq_true, false_iff, not_lt]
        omega
    · rw [if_neg hend]
      have heffective : (if decide (byteLength before < state.startOffset) = true then
          state.startOffset else byteLength before) =
          max (byteLength before) state.startOffset := by
        simp only [decide_eq_true_eq]
        split <;> omega
      refine ⟨_, rfl, ?_, decide_eq_true_iff, rfl, hnext⟩
      simp only [heffective]
      exact hwindow.textFrom_eq hstream

theorem startOffset_le_of_mem_follow (h : m.Streams jobId stream)
    (hjob : m.table.get jobId = some job)
    (howner : matchesOwner filter job.ownerId = true)
    (hstream : stream = before ++ after) {rounds : List (List Text)} {slice : AsyncJobOutputSlice}
    (hslice : slice ∈ m.follow jobId filter (byteLength before) rounds) :
    m.startOffset jobId ≤ slice.startOffset := by
  induction rounds generalizing m stream before after with
  | nil => cases hslice
  | cons chunks rounds ih =>
    obtain ⟨hround, hmono⟩ := h.appendAll hjob chunks
    have hjob' : (m.appendAll jobId chunks).table.get jobId = some job := by
      rw [appendAll_table, hjob]
    obtain ⟨first, hfirst, -, -, hstart, hnext⟩ := hround.readOutputSince hjob' howner
      (show stream ++ chunks.flatten = before ++ (after ++ chunks.flatten) by
        rw [hstream, append_assoc])
    rw [follow, hfirst] at hslice
    obtain rfl | hslice := mem_cons.1 hslice
    · exact hmono.trans (Nat.le_of_eq hstart.symm)
    · rw [hnext] at hslice
      exact hmono.trans (ih hround hjob' (append_nil _).symm hslice)

end JobOutputs

theorem toBuffer_eq_positions (skipped text more : Text) :
    (toBuffer text).map some = (List.range' (byteLength skipped) (byteLength text)).map
      fun p => (toBuffer (skipped ++ text ++ more))[p]? := by
  apply ext_getElem?
  intro n
  rw [getElem?_map, getElem?_map]
  obtain hlt | hge := Nat.lt_or_ge n (byteLength text)
  · rw [getElem?_range' hlt, Option.map_some, Nat.one_mul, append_assoc, toBuffer_append,
      getElem?_append_right (by simp), length_toBuffer, Nat.add_sub_cancel_left,
      toBuffer_append, getElem?_append_left (by simpa using hlt),
      getElem?_eq_getElem (by simpa using hlt), Option.map_some]
  · rw [getElem?_eq_none (by simpa using hge), getElem?_eq_none (by simpa using hge)]
    rfl

namespace JobOutputs

/-- What a reader gets that starts between two characters and goes on from each `nextOffset`. -/
structure Follows (stream : Text) (offset : Nat) (slices : List AsyncJobOutputSlice) : Prop where
  fromOffset : ∀ p ∈ slices.flatMap (·.positions), offset ≤ p
  once : (slices.flatMap (·.positions)).Nodup
  bytes : ∀ slice ∈ slices, (toBuffer slice.text).map some =
    slice.positions.map fun p => (toBuffer stream)[p]?
  covers : ∀ {n slice p}, slices[n]? = some slice → offset ≤ p → slice.startOffset ≤ p →
    p < slice.nextOffset → p ∈ (slices.take (n + 1)).flatMap (·.positions)

variable {m : JobOutputs} {jobId : Text}

theorem Streams.follow {stream : Text} (h : m.Streams jobId stream)
    {job : AsyncJob} (hjob : m.table.get jobId = some job) {filter : Option Text}
    (howner : matchesOwner filter job.ownerId = true) {before after : Text}
    (hstream : stream = before ++ after) (rounds : List (List Text)) :
    (m.follow jobId filter (byteLength before) rounds).length = rounds.length ∧
      Follows (stream ++ rounds.flatten.flatten) (byteLength before)
        (m.follow jobId filter (byteLength before) rounds) := by
  induction rounds generalizing m stream before after with
  | nil => exact ⟨rfl, by simp [follow], nodup_nil, by simp [follow],
      by simp [follow]⟩
  | cons chunks rounds ih =>
    obtain ⟨hround, hmono⟩ := h.appendAll hjob chunks
    have hjob' : (m.appendAll jobId chunks).table.get jobId = some job := by
      rw [appendAll_table, hjob]
    obtain ⟨first, hfirst, ⟨skipped, htext, hskipped⟩, -, hstart, hnext⟩ :=
      hround.readOutputSince hjob' howner
        (show stream ++ chunks.flatten = before ++ (after ++ chunks.flatten) by
          rw [hstream, append_assoc])
    obtain ⟨hlength, hrest⟩ := ih hround hjob' (append_nil _).symm
    rw [← hnext] at hlength hrest
    have hfinal : stream ++ (chunks :: rounds).flatten.flatten =
        stream ++ chunks.flatten ++ rounds.flatten.flatten := by
      rw [flatten_cons, flatten_append, append_assoc]
    have hsize : first.nextOffset = byteLength skipped + byteLength first.text := by
      rw [hnext, htext, byteLength_append]
    have hpositions :
        first.positions = List.range' (byteLength skipped) (byteLength first.text) := by
      rw [AsyncJobOutputSlice.positions, hsize, Nat.add_sub_cancel]
    have hmem : ∀ p, p ∈ first.positions ↔ max (byteLength before) first.startOffset ≤ p ∧
        p < first.nextOffset := by
      intro p
      rw [hpositions, mem_range'_1, hsize, hskipped]
    rw [follow, hfirst, hfinal]
    refine ⟨congrArg (· + 1) hlength, ?_, ?_, ?_, ?_⟩
    · intro p hp
      rw [flatMap_cons, mem_append] at hp
      obtain hp | hp := hp
      · exact (Nat.le_max_left _ _).trans ((hmem p).1 hp).1
      · have := hrest.fromOffset p hp
        omega
    · rw [flatMap_cons, nodup_append]
      refine ⟨?_, hrest.once, ?_⟩
      · exact nodup_range'
      · rintro p hp q hq rfl
        have hlt := ((hmem p).1 hp).2
        have hge := hrest.fromOffset p hq
        omega
    · intro slice hslice
      obtain rfl | hslice := mem_cons.1 hslice
      · rw [hpositions, htext]
        exact toBuffer_eq_positions skipped _ _
      · exact hrest.bytes slice hslice
    · intro n slice p hn hp hslice hlt
      rw [take_succ_cons, flatMap_cons, mem_append]
      cases n with
      | zero =>
        obtain rfl := Option.some.inj hn
        exact .inl ((hmem p).2 ⟨Nat.max_le.2 ⟨hp, hslice⟩, hlt⟩)
      | succ n =>
        rw [getElem?_cons_succ] at hn
        obtain hold | hnew := Nat.lt_or_ge p first.nextOffset
        · -- What is retained later was retained at the first read.
          have hlater := startOffset_le_of_mem_follow hround hjob' howner
            (append_nil _).symm (hnext ▸ mem_of_getElem? hn)
          exact .inl ((hmem p).2 ⟨Nat.max_le.2 ⟨hp, by omega⟩, hold⟩)
        · exact .inr (hrest.covers hn hnew hslice hlt)

theorem streams_of_fresh (hlive : m.disposed = false)
    (hfresh : m.outputState.get? jobId = none) : m.Streams jobId [] := by
  refine ⟨hlive, ?_⟩
  rw [hfresh]
  exact ⟨⟨by simp [AsyncJobOutputState.empty], rfl, [], [], [], rfl, rfl, rfl, by simp, trivial⟩,
    rfl, Nat.zero_le _⟩

/-- The window refines the stream.  After any chunks, a read from between two characters returns the
text from there on, or from `startOffset` on, with `truncated` in the second case, and no more bytes
are held than the budget.  A reader that goes on from each `nextOffset` gets the bytes of the stream
at their places, none of them twice, and each byte that is retained when it reads. -/
theorem readOutputSince_refines_stream {m : JobOutputs} {jobId : Text} {job : AsyncJob}
    {filter : Option Text} (hlive : m.disposed = false) (hjob : m.table.get jobId = some job)
    (howner : matchesOwner filter job.ownerId = true) (hfresh : m.outputState.get? jobId = none)
    {chunks : List Text} {before after : Text} (hstream : chunks.flatten = before ++ after) :
    (∃ slice, (m.appendAll jobId chunks).readOutputSince jobId (byteLength before) filter =
      some slice ∧
      (∃ skipped, chunks.flatten = skipped ++ slice.text ∧
        byteLength skipped = max (byteLength before) slice.startOffset) ∧
      (slice.truncated = true ↔ byteLength before < slice.startOffset) ∧
      slice.nextOffset = byteLength chunks.flatten) ∧
    (∀ state, (m.appendAll jobId chunks).outputState.get? jobId = some state →
      byteLength (keptText state.chunks) ≤ m.outputRetentionBytes) ∧
    ∀ rounds slices, (m.appendAll jobId chunks).follow jobId filter (byteLength before) rounds =
      slices →
      slices.length = rounds.length ∧
      (∀ slice ∈ slices, (toBuffer slice.text).map some =
        slice.positions.map fun p => (toBuffer (chunks ++ rounds.flatten).flatten)[p]?) ∧
      (slices.flatMap (·.positions)).Nodup ∧
      ∀ n slice p, slices[n]? = some slice → byteLength before ≤ p → slice.startOffset ≤ p →
        p < slice.nextOffset → p ∈ (slices.take (n + 1)).flatMap (·.positions) := by
  obtain ⟨hstreams, -⟩ := (streams_of_fresh hlive hfresh).appendAll hjob chunks
  have hjob' : (m.appendAll jobId chunks).table.get jobId = some job := by
    rw [appendAll_table, hjob]
  refine ⟨?_, ?_, ?_⟩
  · obtain ⟨slice, hread, htext, htruncated, -, hnext⟩ :=
      hstreams.readOutputSince hjob' howner hstream
    exact ⟨slice, hread, htext, htruncated, hnext⟩
  · intro state hstate
    have hwindow := hstreams.window
    rw [hstate, appendAll_retention, Option.getD_some] at hwindow
    rw [← hwindow.counted]
    exact hwindow.within
  · rintro rounds _ rfl
    obtain ⟨hlength, hfollows⟩ := hstreams.follow hjob' howner hstream rounds
    rw [flatten_append]
    exact ⟨hlength, hfollows.bytes, hfollows.once, fun n slice p => hfollows.covers⟩

def fourBytes : JobOutputs where
  disposed := false
  table :=
    { now := 0
      retentionMs := 0
      maxRunningJobs := 1
      jobGenerationSeq := 1
      objects := empty.set (.job 1) ⟨"a".toList, .job 1, .running, none, none⟩
      jobs := empty.set "a".toList (.job 1)
      evictionTimers := .empty
      unsettled := [.job 1]
      externallySettled := [] }
  outputRetentionBytes := 4
  outputState := .empty

/-- A long chunk is cut to three bytes, and a chunk before it stays in the list unread. -/
theorem fourBytes_refines_stream :
    ((fourBytes.appendAll "a".toList ["x".toList, "éé€".toList]).outputState.get? "a".toList) =
        some ⟨[⟨0, 1, "x".toList⟩, ⟨5, 8, "€".toList⟩], 5, 8, 4⟩ ∧
      ∃ slice, (fourBytes.appendAll "a".toList ["x".toList, "éé€".toList]).readOutputSince
          "a".toList (byteLength ['x', 'é']) none = some slice ∧
        ∃ skipped, ["x".toList, "éé€".toList].flatten = skipped ++ slice.text ∧
          byteLength skipped = max (byteLength ['x', 'é']) slice.startOffset := by
  refine ⟨by decide +kernel, ?_⟩
  obtain ⟨⟨slice, hread, htext, -, -⟩, -, -⟩ := @readOutputSince_refines_stream fourBytes "a".toList
    ⟨"a".toList, .job 1, .running, none, none⟩ none rfl (by decide +kernel) rfl rfl
    ["x".toList, "éé€".toList] ['x', 'é'] ['é', '€'] (by decide)
  exact ⟨slice, hread, htext⟩

end JobOutputs

end Vibrato.Jobs
