import Vibrato.Output.SinkOrder

/-! The raw copy that an `OutputSink` writes to its artifact, a file or a terminal publisher, as
long as neither fails. -/

namespace Vibrato.Output

open Lib List Char

/-- Where the raw copy goes: the file at `artifactPath`, or the `artifactPublisher`. -/
inductive ArtifactTarget where
  | path
  | publisher

structure ArtifactOptions where
  target : ArtifactTarget
  artifactMaxBytes : Nat

/-- `file` holds the writes to the file sink once it is open. -/
structure ArtifactState where
  artifactBytes : Nat
  artifactTruncatedBytes : Nat
  file : Option (List Text)
  pendingFileWrites : List Text
  pendingFileWriteBytes : Nat
  pendingArtifactContent : List Text

open ArtifactState

namespace ArtifactState

def empty : ArtifactState := ⟨0, 0, none, [], 0, []⟩

variable (st : ArtifactState)

def capArtifactChunk (artifactMaxBytes : Nat) (chunk : Text) (bytes : Nat) :
    Option (Text × Nat) × ArtifactState :=
  if bytes = 0 then (none, st)
  else if artifactMaxBytes = 0 ∨ artifactMaxBytes ≤ st.artifactBytes then
    (none, { st with artifactTruncatedBytes := st.artifactTruncatedBytes + bytes })
  else
    let room := artifactMaxBytes - st.artifactBytes
    if bytes ≤ room then (some (chunk, bytes), st)
    else
      let kept := truncateHeadBytes chunk room
      (if 0 < kept.bytes then some (kept.text, kept.bytes) else none,
        { st with artifactTruncatedBytes := st.artifactTruncatedBytes + (bytes - kept.bytes) })

def createFileSink : ArtifactState :=
  match st.file with
  | some _ => st
  | none =>
    { st with
      file := some st.pendingFileWrites, pendingFileWrites := [], pendingFileWriteBytes := 0 }

def queuePendingFileWrite (chunk : Text) (bytes : Nat) : ArtifactState :=
  { st with
    pendingFileWrites := st.pendingFileWrites ++ [chunk]
    pendingFileWriteBytes := st.pendingFileWriteBytes + bytes }

def enqueueFileWrite (o : SinkOptions) (artifactMaxBytes bufferBytes : Nat)
    (chunk : Text) (bytes : Nat) : ArtifactState :=
  match st.capArtifactChunk artifactMaxBytes chunk bytes with
  | (none, st) => st
  | (some (capped, cappedBytes), st) =>
    let st := { st with artifactBytes := st.artifactBytes + cappedBytes }
    match st.file with
    | none =>
      let st := st.queuePendingFileWrite capped cappedBytes
      if bufferBytes + bytes > o.spillThreshold ∨ st.pendingFileWriteBytes > o.spillThreshold then
        st.createFileSink
      else st
    | some writes => { st with file := some (writes ++ [capped]) }

def MAX_PENDING : Nat := 10

def enqueueTerminalArtifactChunk (artifactMaxBytes : Nat) (chunk : Text) (bytes : Nat) :
    ArtifactState :=
  match st.capArtifactChunk artifactMaxBytes chunk bytes with
  | (none, st) => st
  | (some (capped, cappedBytes), st) =>
    let pending := st.pendingArtifactContent ++ [capped]
    { st with
      artifactBytes := st.artifactBytes + cappedBytes
      pendingArtifactContent :=
        if pending.length > MAX_PENDING then [pending.flatten] else pending }

end ArtifactState

structure ArtifactSink where
  sink : OutputSink
  artifact : ArtifactState

open ArtifactSink

namespace ArtifactSink

variable (o : SinkOptions) (a : ArtifactOptions)

def empty : ArtifactSink := ⟨.empty, .empty⟩

/-- `#ingest` with the raw copy, which looks at the tail window as it was before the chunk. -/
def ingest (s : ArtifactSink) (chunk : Text) : ArtifactSink :=
  let bytes := byteLength chunk
  let sink := s.sink.ingest o chunk
  match a.target with
  | .path =>
    let artifact :=
      s.artifact.enqueueFileWrite o a.artifactMaxBytes s.sink.windows.bufferBytes chunk bytes
    ⟨sink, if bytes ≠ 0 ∧ 0 < sink.columns.columnDroppedBytes then artifact.createFileSink
      else artifact⟩
  | .publisher => ⟨sink, s.artifact.enqueueTerminalArtifactChunk a.artifactMaxBytes chunk bytes⟩

def flushCoalesced (s : ArtifactSink) : ArtifactSink :=
  if s.sink.coalesceBuf = [] then s
  else ingest o a { s with sink := { s.sink with coalesceBuf := [] } } s.sink.coalesceBuf

def push (s : ArtifactSink) (chunk : Text) : ArtifactSink :=
  if o.coalesceSanitize then
    let s := { s with sink := { s.sink with coalesceBuf := s.sink.coalesceBuf ++ chunk } }
    if COALESCE_FLUSH_CHARS ≤ utf16Length s.sink.coalesceBuf then s.flushCoalesced o a else s
  else s.ingest o a chunk

end ArtifactSink

/-- The artifact after `dump`: its text, the truncation notice behind it, and what is reported. -/
structure WrittenArtifact where
  content : Text
  notice : Text
  omittedBytes : Nat
  totalBytes : Nat

def artifactTruncationNotice (artifactBytes droppedBytes : Nat) : Text :=
  "\n[artifact truncated after ".toList ++ Text.ofNat artifactBytes ++
    " bytes; omitted at least ".toList ++ Text.ofNat droppedBytes ++ " bytes]\n".toList

/-- The artifact part of `dump`, on a sink whose coalesced text is flushed.  A file that was never
needed is not opened, and a publisher gets only what the windows do not show. -/
def dumpArtifact (a : ArtifactOptions) (s : ArtifactSink) : Option WrittenArtifact :=
  let truncatedBytes := s.artifact.artifactTruncatedBytes
  match a.target with
  | .path =>
    let artifact := if 0 < truncatedBytes then s.artifact.createFileSink else s.artifact
    artifact.file.map fun writes =>
      { content := writes.flatten
        notice :=
          if 0 < truncatedBytes then artifactTruncationNotice artifact.artifactBytes truncatedBytes
          else []
        omittedBytes := truncatedBytes
        totalBytes := s.sink.totalBytes }
  | .publisher =>
    if s.sink.windows.truncated = true ∨ 0 < s.sink.columns.columnDroppedBytes ∨
      0 < truncatedBytes then
      some
        { content := s.artifact.pendingArtifactContent.flatten
          notice := []
          omittedBytes := truncatedBytes
          totalBytes := s.sink.totalBytes }
    else none

def artifactOf (o : SinkOptions) (a : ArtifactOptions) (chunks : List Text) :
    Option WrittenArtifact :=
  dumpArtifact a ((chunks.foldl (push o a) .empty).flushCoalesced o a)

/-- Before the notice the artifact is a start of the raw text, and the bytes that are not in it are
counted. -/
structure IsTruthfulArtifact (chunks : List Text) (artifact : WrittenArtifact) : Prop where
  isPrefix : artifact.content <+: chunks.flatten
  accounted : byteLength artifact.content + artifact.omittedBytes = artifact.totalBytes
  total : artifact.totalBytes = byteLength chunks.flatten

def keepHead (limit : Nat) (kept chunk : Text) : Text :=
  kept ++ takeBudget utf8Size (limit - byteLength kept) chunk

theorem isPrefix_foldl_keepHead (limit : Nat) (kept : Text) (chunks : List Text) :
    kept <+: chunks.foldl (keepHead limit) kept := by
  induction chunks generalizing kept with
  | nil => exact prefix_refl kept
  | cons chunk chunks ih => exact (prefix_append kept _).trans (ih (keepHead limit kept chunk))

variable {limit : Nat} {kept : Text}

theorem byteLength_keepHead_le (h : byteLength kept ≤ limit) (chunk : Text) :
    byteLength (keepHead limit kept chunk) ≤ limit := by
  have hle : byteLength (takeBudget utf8Size (limit - byteLength kept) chunk) ≤ _ :=
    totalWeight_takeBudget_le utf8Size (limit - byteLength kept) chunk
  rw [keepHead, byteLength_append]
  omega

theorem foldl_keepHead_closed {tail : Text} {d : Char} (chunks : List Text)
    (hkept : byteLength kept ≤ limit) (hd : limit < byteLength kept + d.utf8Size) :
    chunks.foldl (keepHead limit) kept <+: kept ++ d :: (tail ++ chunks.flatten) ↔
      ∀ later ∈ chunks, ∀ c ∈ later.head?, limit - byteLength kept < c.utf8Size := by
  induction chunks generalizing tail with
  | nil => simp
  | cons chunk chunks ih =>
    rw [foldl_cons, flatten_cons, forall_mem_cons]
    cases chunk with
    | nil =>
      have hsame : keepHead limit kept [] = kept := append_nil kept
      rw [hsame, nil_append, ih]
      simp
    | cons c chunk =>
      by_cases hc : limit - byteLength kept < c.utf8Size
      · have hsame : keepHead limit kept (c :: chunk) = kept := by
          rw [keepHead, takeBudget, if_neg (by omega), append_nil]
        rw [hsame, ← append_assoc, ih]
        simp [hc]
      · have hne : c ≠ d := by
          rintro rfl
          omega
        refine iff_of_false (fun hprefix => ?_) (fun h => hc (h.1 c rfl))
        have hmore :=
          (isPrefix_foldl_keepHead limit (keepHead limit kept (c :: chunk)) chunks).trans
          hprefix
        rw [keepHead, takeBudget, if_pos (by omega), prefix_append_right_inj,
          cons_prefix_cons] at hmore
        exact hne hmore.1

/-- The kept text is a start of the whole exactly if nothing is kept behind a cut. -/
theorem foldl_keepHead_isPrefix_iff {limit : Nat} {kept : Text} (hkept : byteLength kept ≤ limit)
    (chunks : List Text) :
    chunks.foldl (keepHead limit) kept <+: kept ++ chunks.flatten ↔
      HeadStaysClosed limit (byteLength kept) chunks := by
  induction chunks generalizing kept with
  | nil => simp [HeadStaysClosed]
  | cons chunk chunks ih =>
    rw [foldl_cons, flatten_cons, HeadStaysClosed]
    split
    · next hfits =>
      have hwhole : keepHead limit kept chunk = kept ++ chunk := by
        rw [keepHead, takeBudget_eq_self _ (by show byteLength chunk ≤ _; omega)]
      rw [hwhole, ← append_assoc, ← byteLength_append]
      exact ih (by rw [byteLength_append]; exact hfits)
    · next hlong =>
      obtain ⟨rest, hrest⟩ := takeBudget_isPrefix utf8Size (limit - byteLength kept) chunk
      have hle : byteLength (takeBudget utf8Size (limit - byteLength kept) chunk) ≤ _ :=
        totalWeight_takeBudget_le utf8Size (limit - byteLength kept) chunk
      cases rest with
      | nil =>
        rw [append_nil] at hrest
        rw [hrest] at hle
        omega
      | cons d rest =>
        have hnext : limit - byteLength kept <
            byteLength (takeBudget utf8Size (limit - byteLength kept) chunk) + d.utf8Size :=
          lt_of_takeBudget_append _ hrest.symm
        have hd : limit < byteLength (keepHead limit kept chunk) + d.utf8Size := by
          rw [keepHead, byteLength_append]
          omega
        have hsplit : kept ++ (chunk ++ chunks.flatten) =
            keepHead limit kept chunk ++ d :: (rest ++ chunks.flatten) := by
          conv_lhs => rw [← hrest]
          rw [keepHead]
          simp
        have hroom : limit - byteLength kept -
            byteLength (takeBudget utf8Size (limit - byteLength kept) chunk) =
            limit - byteLength (keepHead limit kept chunk) := by
          rw [keepHead, byteLength_append]
          omega
        rw [hsplit, foldl_keepHead_closed chunks (byteLength_keepHead_le hkept chunk) hd]
        simp only [hroom]

theorem headStaysClosed_of_le {used : Nat} {chunks : List Text}
    (h : used + byteLength chunks.flatten ≤ limit) : HeadStaysClosed limit used chunks := by
  induction chunks generalizing used with
  | nil => trivial
  | cons chunk chunks ih =>
    rw [flatten_cons, byteLength_append] at h
    rw [HeadStaysClosed, if_pos (by omega)]
    exact ih (by omega)

namespace ArtifactState

theorem capArtifactChunk_eq (st : ArtifactState) (artifactMaxBytes : Nat) (chunk : Text) :
    st.capArtifactChunk artifactMaxBytes chunk (byteLength chunk) =
      (if takeBudget utf8Size (artifactMaxBytes - st.artifactBytes) chunk = [] then none
        else some (takeBudget utf8Size (artifactMaxBytes - st.artifactBytes) chunk,
          byteLength (takeBudget utf8Size (artifactMaxBytes - st.artifactBytes) chunk)),
        { st with
          artifactTruncatedBytes := st.artifactTruncatedBytes + (byteLength chunk -
            byteLength (takeBudget utf8Size (artifactMaxBytes - st.artifactBytes) chunk)) }) := by
  unfold capArtifactChunk
  split
  · next hzero =>
    rw [byteLength_eq_zero.1 hzero]
    rfl
  · next hnonempty =>
    split
    · next hfull =>
      rw [show artifactMaxBytes - st.artifactBytes = 0 by omega, takeBudget_zero]
      rfl
    · dsimp only
      split
      · next hfits =>
        rw [takeBudget_eq_self _ hfits, if_neg fun hnil => hnonempty (byteLength_eq_zero.2 hnil),
          Nat.sub_self]
        rfl
      · rw [truncateHeadBytes_eq]
        congr 1
        by_cases hnil : takeBudget utf8Size (artifactMaxBytes - st.artifactBytes) chunk = []
        · rw [hnil]
          rfl
        · have hpos : 0 < byteLength
              (takeBudget utf8Size (artifactMaxBytes - st.artifactBytes) chunk) :=
            Nat.pos_of_ne_zero fun hzero => hnil (byteLength_eq_zero.1 hzero)
          rw [if_neg hnil]
          exact if_pos hpos

variable (target : ArtifactTarget)

def content (st : ArtifactState) : Text :=
  match target with
  | .path => ((st.file.getD []) ++ st.pendingFileWrites).flatten
  | .publisher => st.pendingArtifactContent.flatten

/-- The sizes are those of the texts, and nothing waits for a file that is open. -/
structure Sound (a : ArtifactOptions) (seen : Nat) (st : ArtifactState) : Prop where
  bytes : st.artifactBytes = byteLength (st.content a.target)
  limit : st.artifactBytes ≤ a.artifactMaxBytes
  accounted : st.artifactBytes + st.artifactTruncatedBytes = seen
  written : st.file.isSome = true → st.pendingFileWrites = []

theorem content_createFileSink (st : ArtifactState) :
    st.createFileSink.content target = st.content target := by
  unfold createFileSink
  split
  · rfl
  · rename_i hfile
    cases target with
    | path => simp [content, hfile]
    | publisher => rfl

variable {st : ArtifactState} {a : ArtifactOptions}

theorem Sound.createFileSink {seen : Nat} (h : st.Sound a seen) :
    st.createFileSink.Sound a seen := by
  have hcontent := content_createFileSink a.target st
  unfold ArtifactState.createFileSink at hcontent ⊢
  split
  · exact h
  · rename_i hfile
    rw [hfile] at hcontent
    exact ⟨h.bytes.trans (congrArg byteLength hcontent.symm), h.limit, h.accounted, fun _ => rfl⟩

/-- What fits of a chunk is behind the content, and the rest of it is counted. -/
structure Appends (a : ArtifactOptions) (st st' : ArtifactState) (chunk : Text) : Prop where
  content : st'.content a.target = st.content a.target ++
    takeBudget utf8Size (a.artifactMaxBytes - st.artifactBytes) chunk
  bytes : st'.artifactBytes = st.artifactBytes +
    byteLength (takeBudget utf8Size (a.artifactMaxBytes - st.artifactBytes) chunk)
  truncated : st'.artifactTruncatedBytes = st.artifactTruncatedBytes + (byteLength chunk -
    byteLength (takeBudget utf8Size (a.artifactMaxBytes - st.artifactBytes) chunk))
  written : st'.file.isSome = true → st'.pendingFileWrites = []

theorem Sound.step {seen : Nat} {st st' : ArtifactState} (h : st.Sound a seen)
    {chunk : Text} (hstep : Appends a st st' chunk) :
    st'.Sound a (seen + byteLength chunk) ∧
      st'.content a.target = keepHead a.artifactMaxBytes (st.content a.target) chunk := by
  have hkept : byteLength (takeBudget utf8Size (a.artifactMaxBytes - st.artifactBytes) chunk) ≤ _ :=
    totalWeight_takeBudget_le utf8Size (a.artifactMaxBytes - st.artifactBytes) chunk
  have hchunk : byteLength (takeBudget utf8Size (a.artifactMaxBytes - st.artifactBytes) chunk) ≤
      byteLength chunk := by
    obtain ⟨rest, hrest⟩ :=
      takeBudget_isPrefix utf8Size (a.artifactMaxBytes - st.artifactBytes) chunk
    conv_rhs => rw [← hrest]
    rw [byteLength_append]
    omega
  have hbytes := h.bytes
  have hlimit := h.limit
  have haccounted := h.accounted
  refine ⟨⟨?_, ?_, ?_, hstep.written⟩, ?_⟩
  · rw [hstep.bytes, hstep.content, byteLength_append, hbytes]
  · rw [hstep.bytes]
    omega
  · rw [hstep.bytes, hstep.truncated]
    omega
  · rw [hstep.content, keepHead, hbytes]

theorem appends_enqueueFileWrite (htarget : a.target = .path)
    (hwritten : st.file.isSome = true → st.pendingFileWrites = [])
    (o : SinkOptions) (bufferBytes : Nat) (chunk : Text) :
    Appends a st (st.enqueueFileWrite o a.artifactMaxBytes bufferBytes chunk (byteLength chunk))
      chunk := by
  unfold enqueueFileWrite
  rw [capArtifactChunk_eq]
  by_cases hnil : takeBudget utf8Size (a.artifactMaxBytes - st.artifactBytes) chunk = []
  · rw [if_pos hnil]
    refine ⟨?_, ?_, rfl, hwritten⟩
    · rw [hnil, append_nil]
      rfl
    · rw [hnil]
      rfl
  · rw [if_neg hnil]
    cases hfile : st.file with
    | none =>
      dsimp only
      split
      · refine ⟨?_, rfl, rfl, fun _ => rfl⟩
        rw [content_createFileSink, htarget]
        simp [content, queuePendingFileWrite, hfile]
      · refine ⟨?_, rfl, rfl, fun hsome => ?_⟩
        · rw [htarget]
          simp [content, queuePendingFileWrite, hfile]
        · cases hsome
    | some writes =>
      have hpending := hwritten (by rw [hfile]; rfl)
      refine ⟨?_, rfl, rfl, fun _ => hpending⟩
      rw [htarget]
      simp [content, hfile, hpending]

theorem appends_enqueueTerminalArtifactChunk (htarget : a.target = .publisher)
    (hwritten : st.file.isSome = true → st.pendingFileWrites = []) (chunk : Text) :
    Appends a st (st.enqueueTerminalArtifactChunk a.artifactMaxBytes chunk (byteLength chunk))
      chunk := by
  unfold enqueueTerminalArtifactChunk
  rw [capArtifactChunk_eq]
  by_cases hnil : takeBudget utf8Size (a.artifactMaxBytes - st.artifactBytes) chunk = []
  · rw [if_pos hnil]
    refine ⟨?_, ?_, rfl, hwritten⟩
    · rw [hnil, append_nil]
      rfl
    · rw [hnil]
      rfl
  · rw [if_neg hnil]
    refine ⟨?_, rfl, rfl, hwritten⟩
    rw [htarget]
    unfold content
    dsimp only
    split <;> simp

end ArtifactState

section Run

variable (o : SinkOptions) (a : ArtifactOptions)

@[simp] theorem ArtifactSink.ingest_sink (s : ArtifactSink) (chunk : Text) :
    (s.ingest o a chunk).sink = s.sink.ingest o chunk := by
  unfold ingest
  cases a.target <;> rfl

theorem ArtifactSink.ingest_coalesceBuf (s : ArtifactSink) (chunk held : Text) :
    { s.ingest o a chunk with sink := { (s.ingest o a chunk).sink with coalesceBuf := held } } =
      ingest o a { s with sink := { s.sink with coalesceBuf := held } } chunk := by
  unfold ingest
  cases a.target <;> rfl

theorem ArtifactSink.flushCoalesced_pushes (chunks : List Text) (s : ArtifactSink) :
    (chunks.foldl (push o a) s).flushCoalesced o a =
      (batches o s.sink.coalesceBuf chunks).foldl (ingest o a)
        { s with sink := { s.sink with coalesceBuf := [] } } := by
  induction chunks generalizing s with
  | nil =>
    rw [foldl_nil, flushCoalesced, batches]
    split
    · next hempty => rw [foldl_nil, ← hempty]
    · rfl
  | cons chunk chunks ih =>
    rw [foldl_cons, ih, push, batches]
    by_cases hcoalesce : o.coalesceSanitize = true
    · rw [if_pos hcoalesce, if_pos hcoalesce]
      by_cases hflush : COALESCE_FLUSH_CHARS ≤ utf16Length (s.sink.coalesceBuf ++ chunk)
      · have hne : s.sink.coalesceBuf ++ chunk ≠ [] := by
          intro hnil
          rw [hnil] at hflush
          exact absurd hflush (by decide)
        rw [if_pos hflush, if_pos hflush, flushCoalesced, if_neg hne, ingest_coalesceBuf,
          ingest_sink]
        rfl
      · rw [if_neg hflush, if_neg hflush]
    · rw [if_neg hcoalesce, if_neg hcoalesce, ingest_coalesceBuf, ingest_sink]
      rfl

variable {seen : Nat} {s : ArtifactSink}

theorem ArtifactState.Sound.ingest (h : s.artifact.Sound a seen) (chunk : Text) :
    (s.ingest o a chunk).artifact.Sound a (seen + byteLength chunk) ∧
      (s.ingest o a chunk).artifact.content a.target =
        keepHead a.artifactMaxBytes (s.artifact.content a.target) chunk := by
  unfold ArtifactSink.ingest
  cases htarget : a.target with
  | path =>
    obtain ⟨hsound, hcontent⟩ := h.step (appends_enqueueFileWrite htarget h.written o
      s.sink.windows.bufferBytes chunk)
    rw [htarget] at hcontent
    dsimp only
    split
    · refine ⟨hsound.createFileSink, ?_⟩
      rw [content_createFileSink, hcontent]
    · exact ⟨hsound, hcontent⟩
  | publisher =>
    have hstep := h.step (appends_enqueueTerminalArtifactChunk htarget h.written chunk)
    rw [htarget] at hstep
    exact hstep

theorem ArtifactState.Sound.ingests (h : s.artifact.Sound a seen) (chunks : List Text) :
    (chunks.foldl (ArtifactSink.ingest o a) s).artifact.Sound a (seen + byteLength chunks.flatten) ∧
      (chunks.foldl (ArtifactSink.ingest o a) s).artifact.content a.target =
        chunks.foldl (keepHead a.artifactMaxBytes) (s.artifact.content a.target) ∧
      (chunks.foldl (ArtifactSink.ingest o a) s).sink.totalBytes =
        s.sink.totalBytes + byteLength chunks.flatten := by
  induction chunks generalizing s seen with
  | nil => exact ⟨h, rfl, rfl⟩
  | cons chunk chunks ih =>
    obtain ⟨hstep, hcontent⟩ := h.ingest o a chunk
    obtain ⟨hsound, hall, htotal⟩ := ih hstep
    rw [foldl_cons, foldl_cons, flatten_cons, byteLength_append, ← Nat.add_assoc, ← Nat.add_assoc,
      ← hcontent]
    refine ⟨hsound, hall, htotal.trans ?_⟩
    rw [ArtifactSink.ingest_sink]
    rfl

variable {o a}

theorem content_of_file {st : ArtifactState} (h : st.Sound a seen) {writes : List Text}
    (hfile : st.file = some writes) : st.content .path = writes.flatten := by
  have hpending := h.written (by rw [hfile]; rfl)
  simp [content, hfile, hpending]

theorem dumpArtifact_eq_some (h : s.artifact.Sound a seen)
    {artifact : WrittenArtifact} (hdump : dumpArtifact a s = some artifact) :
    artifact.content = s.artifact.content a.target ∧
      artifact.omittedBytes = s.artifact.artifactTruncatedBytes ∧
      artifact.totalBytes = s.sink.totalBytes := by
  unfold dumpArtifact at hdump
  cases htarget : a.target with
  | path =>
    rw [htarget] at hdump
    obtain ⟨writes, hfile, rfl⟩ := Option.map_eq_some_iff.1 hdump
    refine ⟨?_, rfl, rfl⟩
    split at hfile
    · rw [← content_of_file h.createFileSink hfile, content_createFileSink]
    · rw [content_of_file h hfile]
  | publisher =>
    rw [htarget] at hdump
    dsimp only at hdump
    split at hdump
    · cases hdump
      exact ⟨rfl, rfl, rfl⟩
    · cases hdump

theorem exists_dumpArtifact (h : 0 < s.artifact.artifactTruncatedBytes) :
    ∃ artifact, dumpArtifact a s = some artifact := by
  unfold dumpArtifact
  cases a.target with
  | path =>
    obtain ⟨writes, hwrites⟩ : ∃ writes, s.artifact.createFileSink.file = some writes := by
      unfold createFileSink
      cases hfile : s.artifact.file with
      | none => exact ⟨_, rfl⟩
      | some writes => exact ⟨writes, hfile⟩
    simp only [h, if_true, hwrites]
    exact ⟨_, rfl⟩
  | publisher => exact ⟨_, if_pos (.inr (.inr h))⟩

theorem sound_empty : empty.Sound a 0 := by
  refine ⟨?_, Nat.zero_le _, rfl, fun _ => rfl⟩
  cases a.target <;> rfl

theorem content_empty (target : ArtifactTarget) : empty.content target = [] := by
  cases target <;> rfl

/-- The artifact is truthful exactly if, once a chunk that is ingested does not fit, no later one
starts with a character that fits into the room that is left.  The bytes are always accounted
for. -/
theorem artifactOf_isTruthful_iff (chunks : List Text) :
    (∀ artifact, artifactOf o a chunks = some artifact → IsTruthfulArtifact chunks artifact) ↔
      HeadStaysClosed a.artifactMaxBytes 0 (batches o [] chunks) := by
  have hflatten : (batches o [] chunks).flatten = chunks.flatten :=
    flatten_batches (.inr rfl) chunks
  have hrun : (chunks.foldl (ArtifactSink.push o a) .empty).flushCoalesced o a =
      (batches o [] chunks).foldl (ArtifactSink.ingest o a) .empty :=
    ArtifactSink.flushCoalesced_pushes o a chunks .empty
  have hempty : (ArtifactSink.empty).artifact.Sound a 0 := sound_empty
  obtain ⟨hsound, hcontent, htotal⟩ := hempty.ingests o a (batches o [] chunks)
  have hclosed := @foldl_keepHead_isPrefix_iff a.artifactMaxBytes [] (Nat.zero_le _)
    (batches o [] chunks)
  rw [hflatten, Nat.zero_add] at hsound
  rw [hflatten] at htotal hclosed
  have htotal' : ((batches o [] chunks).foldl (ArtifactSink.ingest o a) .empty).sink.totalBytes =
      byteLength chunks.flatten := htotal.trans (Nat.zero_add _)
  have hstart : (ArtifactSink.empty).artifact.content a.target = [] := content_empty a.target
  rw [hstart] at hcontent
  rw [byteLength_nil, ← hcontent] at hclosed
  unfold artifactOf
  rw [hrun, ← hclosed]
  constructor
  · intro htruthful
    by_cases hcut : 0 < ((batches o [] chunks).foldl
      (ArtifactSink.ingest o a) .empty).artifact.artifactTruncatedBytes
    · obtain ⟨artifact, hdump⟩ := exists_dumpArtifact (a := a) hcut
      rw [← (dumpArtifact_eq_some hsound hdump).1]
      exact (htruthful artifact hdump).isPrefix
    · rw [hclosed]
      apply headStaysClosed_of_le
      have haccounted := hsound.accounted
      have hlimit := hsound.limit
      rw [hflatten]
      omega
  · intro hprefix artifact hdump
    obtain ⟨hwritten, homitted, hreported⟩ := dumpArtifact_eq_some hsound hdump
    refine ⟨by rw [hwritten]; exact hprefix, ?_, hreported.trans htotal'⟩
    rw [hwritten, homitted, hreported, htotal', ← hsound.bytes]
    exact hsound.accounted

end Run

/-- Two bytes are in the artifact, the two bytes of the next chunk do not fit into the one that is
left, and the last chunk does. -/
theorem artifactOf_leaves_gap :
    ¬∀ artifact, artifactOf ⟨1024, 0, 0, false, id, fun _ _ => []⟩ ⟨.path, 3⟩
        ["ab".toList, "é".toList, "c".toList] = some artifact →
      IsTruthfulArtifact ["ab".toList, "é".toList, "c".toList] artifact := by
  have hwritten : (artifactOf ⟨1024, 0, 0, false, id, fun _ _ => []⟩ ⟨.path, 3⟩
      ["ab".toList, "é".toList, "c".toList]).map WrittenArtifact.content = some "abc".toList := by
    decide +kernel
  obtain ⟨artifact, hartifact, hcontent⟩ := Option.map_eq_some_iff.1 hwritten
  intro h
  have hprefix := (h artifact hartifact).isPrefix
  rw [hcontent] at hprefix
  revert hprefix
  decide +kernel

end Vibrato.Output
