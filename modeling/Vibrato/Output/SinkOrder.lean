import Vibrato.Output.Sink

namespace Vibrato.Output

open Lib List OutputSink Char

section Statement

variable (o : SinkOptions)

/-- The chunks that are ingested when `chunks` are pushed and then dumped, after `pending`. -/
def batches (pending : Text) : List Text → List Text
  | [] => if pending = [] then [] else [pending]
  | chunk :: chunks =>
    if o.coalesceSanitize then
      if COALESCE_FLUSH_CHARS ≤ utf16Length (pending ++ chunk) then
        (pending ++ chunk) :: batches [] chunks
      else batches (pending ++ chunk) chunks
    else chunk :: batches pending chunks

def visibleChunks (columns : ColumnState) : List Text → List Text
  | [] => []
  | chunk :: chunks =>
    let (visible, columns) := visibleChunk o columns chunk
    visible :: visibleChunks columns chunks

def visibleTexts (chunks : List Text) : List Text :=
  visibleChunks o empty.columns (batches o [] chunks)

/-- The summary counts no elided bytes.  It never counts them for an empty head, where only the
sink's `truncated` flag tells that text was dropped. -/
def ReportsNoElision (s : OutputSink) (summary : OutputSummary) : Prop :=
  summary.elidedBytes = none ∧ (s.windows.head = [] → s.windows.truncated = false)

/-- The windows are a start and an end of the visible text, and if nothing is elided the body is
all of it. -/
structure InOrder (chunks : List Text) (notice : Text) : Prop where
  head : ((pushAll o chunks).flushCoalesced o).windows.head <+:
    (visibleTexts o chunks).flatten
  tail : ((pushAll o chunks).flushCoalesced o).windows.buffer <:+
    (visibleTexts o chunks).flatten
  body : ReportsNoElision ((pushAll o chunks).flushCoalesced o)
      ((pushAll o chunks).dump o notice) →
    ((pushAll o chunks).dump o notice).output = noticeLine notice ++ (visibleTexts o chunks).flatten

end Statement

/-- Once a text does not fit into the head, which leaves `room` bytes of it free, no later text
starts with a character of at most `room` bytes. -/
def HeadStaysClosed (headLimit : Nat) : Nat → List Text → Prop
  | _, [] => True
  | used, text :: texts =>
    if used + byteLength text ≤ headLimit then
      HeadStaysClosed headLimit (used + byteLength text) texts
    else
      let room := headLimit - used -
        byteLength (takeBudget utf8Size (headLimit - used) text)
      ∀ later ∈ texts, ∀ c ∈ later.head?, room < c.utf8Size

namespace Windows

variable {o : SinkOptions} {w : Windows}

structure Sized (o : SinkOptions) (w : Windows) : Prop where
  head : w.headBytes = byteLength w.head
  buffer : w.bufferBytes = byteLength w.buffer
  limit : w.headBytes ≤ o.headLimit

theorem trimTailTo_spec (hbuffer : w.bufferBytes = byteLength w.buffer) (maxBytes : Nat) :
    (w.trimTailTo maxBytes).buffer <:+ w.buffer ∧
      (w.trimTailTo maxBytes).bufferBytes = byteLength (w.trimTailTo maxBytes).buffer ∧
      (w.trimTailTo maxBytes).head = w.head ∧ (w.trimTailTo maxBytes).headBytes = w.headBytes ∧
      (w.trimTailTo maxBytes).truncated = w.truncated := by
  unfold trimTailTo
  split
  · exact ⟨suffix_refl _, hbuffer, rfl, rfl, rfl⟩
  · rw [truncateTailBytes_eq]
    exact ⟨lastBudget_isSuffix _ _ _, rfl, rfl, rfl, rfl⟩

structure TailGrows (w w' : Windows) (text : Text) : Prop where
  head : w'.head = w.head
  headBytes : w'.headBytes = w.headBytes
  bufferBytes : w'.bufferBytes = byteLength w'.buffer
  suffix : w'.buffer <:+ w.buffer ++ text
  whole : w'.truncated = false → w.truncated = false ∧ w'.buffer = w.buffer ++ text

theorem pushTail_spec (hbuffer : w.bufferBytes = byteLength w.buffer) (text : Text) :
    TailGrows w (w.pushTail o text (byteLength text)) text := by
  unfold pushTail
  split
  · next hzero =>
    rw [byteLength_eq_zero] at hzero
    rw [hzero]
    exact ⟨rfl, rfl, hbuffer, by simp, fun h => ⟨h, by simp⟩⟩
  split
  · exact ⟨rfl, rfl, by simp [appendTail, hbuffer], suffix_refl _, fun h => ⟨h, rfl⟩⟩
  split
  · rw [truncateTailBytes_eq]
    refine ⟨rfl, rfl, rfl, ?_, fun h => by cases h⟩
    exact (lastBudget_isSuffix _ _ _).trans (suffix_append _ _)
  · have happend : ({ w with truncated := true }.appendTail text (byteLength text)).bufferBytes =
        byteLength ({ w with truncated := true }.appendTail text (byteLength text)).buffer := by
      simp [appendTail, hbuffer]
    obtain ⟨hsuffix, hbytes, hhead, hheadBytes, htruncated⟩ :=
      trimTailTo_spec happend o.spillThreshold
    refine ⟨hhead, hheadBytes, hbytes, hsuffix, fun h => ?_⟩
    rw [htruncated] at h
    cases h

structure Open (o : SinkOptions) (w : Windows) (seen : Text) : Prop where
  sized : Sized o w
  head : w.head = seen
  buffer : w.buffer = []

structure Closed (o : SinkOptions) (w : Windows) (seen : Text) : Prop where
  sized : Sized o w
  rest : ∃ c text, seen = w.head ++ c :: text ∧ o.headLimit < w.headBytes + c.utf8Size ∧
    w.buffer <:+ c :: text ∧ (w.truncated = false → w.buffer = c :: text)

def Broken (w : Windows) (seen : Text) : Prop :=
  ∃ start c d head rest, c ≠ d ∧ w.head = start ++ c :: head ∧ seen = start ++ d :: rest

variable {seen : Text}

theorem Broken.not_isPrefix (h : Broken w seen) : ¬w.head <+: seen := by
  obtain ⟨start, c, d, head, rest, hne, hhead, hseen⟩ := h
  rw [hhead, hseen, prefix_append_right_inj, cons_prefix_cons]
  exact fun hprefix => hne hprefix.1

theorem retain_spec (hsized : Sized o w) (text : Text) :
    w.headBytes + byteLength text ≤ o.headLimit ∧
      w.retain o text = w.appendHead text (byteLength text) ∨
      o.headLimit < w.headBytes + byteLength text ∧ ∃ slice rest,
        slice = takeBudget utf8Size (o.headLimit - w.headBytes) text ∧ text = slice ++ rest ∧
          TailGrows (w.appendHead slice (byteLength slice)) (w.retain o text) rest := by
  have hlimit := hsized.limit
  obtain ⟨rest, hrest⟩ := takeBudget_isPrefix utf8Size (o.headLimit - w.headBytes) text
  have hall : takeBudget utf8Size (o.headLimit - w.headBytes) text = [] →
      TailGrows (w.appendHead [] 0) (w.pushTail o text (byteLength text)) text := by
    intro _
    have hsame : w.appendHead [] 0 = w := by simp [appendHead]
    rw [hsame]
    exact pushTail_spec hsized.buffer text
  unfold retain
  simp only
  split
  · next hzero =>
    refine .inl ⟨by omega, ?_⟩
    rw [byteLength_eq_zero.1 hzero]
    simp [appendHead]
  split
  · split
    · exact .inl ⟨by omega, rfl⟩
    · rw [truncateHeadBytes_eq]
      refine .inr ⟨by omega, _, rest, rfl, hrest.symm, ?_⟩
      generalize hslice : takeBudget utf8Size (o.headLimit - w.headBytes) text = slice at *
      split
      · have hbytes : byteLength text - byteLength slice = byteLength rest := by
          rw [← hrest, byteLength_append, Nat.add_sub_cancel_left]
        have hdrop : text.drop slice.length = rest := by rw [← hrest, drop_left]
        simp only [hbytes, hdrop]
        exact @pushTail_spec o (w.appendHead slice (byteLength slice)) hsized.buffer rest
      · next hnone =>
        have hnil : slice = [] := byteLength_eq_zero.1 (by simpa using hnone)
        rw [hnil, nil_append] at hrest
        rw [hnil, hrest]
        exact hall hnil
  · next hzero hfull =>
    have hroom : o.headLimit - w.headBytes = 0 := by omega
    have hnil : takeBudget utf8Size (o.headLimit - w.headBytes) text = [] := by
      rw [hroom, takeBudget_zero]
    rw [hnil, nil_append] at hrest
    refine .inr ⟨by omega, _, rest, rfl, by rw [hnil, nil_append, hrest], ?_⟩
    rw [hnil, hrest]
    exact hall hnil

theorem Sized.retain (hsized : Sized o w) (text : Text) : Sized o (w.retain o text) := by
  have hhead := hsized.head
  rcases retain_spec hsized text with ⟨hfit, heq⟩ | ⟨-, slice, rest, hslice, -, htail⟩
  · rw [heq]
    exact ⟨by simp [appendHead, hhead], hsized.buffer, hfit⟩
  · have hle : byteLength slice ≤ o.headLimit - w.headBytes := by
      rw [hslice]
      exact totalWeight_takeBudget_le _ _ _
    have hlimit := hsized.limit
    refine ⟨?_, htail.bufferBytes, ?_⟩
    · rw [htail.head, htail.headBytes]
      simp [appendHead, hhead]
    · rw [htail.headBytes]
      simp only [appendHead]
      omega

theorem retain_head_isPrefix (hsized : Sized o w) (text : Text) :
    w.head <+: (w.retain o text).head := by
  rcases retain_spec hsized text with ⟨-, heq⟩ | ⟨-, slice, rest, -, -, htail⟩
  · rw [heq]
    exact prefix_append _ _
  · rw [htail.head]
    exact prefix_append _ _

theorem Broken.retain (hsized : Sized o w) (h : Broken w seen) (text : Text) :
    Broken (w.retain o text) (seen ++ text) := by
  obtain ⟨start, c, d, head, rest, hne, hhead, hseen⟩ := h
  obtain ⟨more, hmore⟩ := retain_head_isPrefix hsized text
  refine ⟨start, c, d, head ++ more, rest ++ text, hne, ?_, ?_⟩
  · rw [← hmore, hhead]
    simp
  · rw [hseen]
    simp

variable {text : Text}

theorem Open.retain_fits (h : Open o w seen) (hfit : w.headBytes + byteLength text ≤ o.headLimit) :
    Open o (w.retain o text) (seen ++ text) ∧
      (w.retain o text).headBytes = w.headBytes + byteLength text := by
  rcases retain_spec h.sized text with ⟨-, heq⟩ | ⟨hlong, -⟩
  · refine ⟨⟨h.sized.retain text, ?_, ?_⟩, ?_⟩
    · rw [heq, appendHead, h.head]
    · rw [heq]
      exact h.buffer
    · rw [heq]
      rfl
  · omega

theorem Open.retain_closes (h : Open o w seen)
    (hlong : o.headLimit < w.headBytes + byteLength text) :
    Closed o (w.retain o text) (seen ++ text) ∧
      (w.retain o text).headBytes = w.headBytes +
        byteLength (takeBudget utf8Size (o.headLimit - w.headBytes) text) := by
  have hlimit := h.sized.limit
  rcases retain_spec h.sized text with ⟨hfit, -⟩ | ⟨-, slice, rest, hslice, hsplit, htail⟩
  · omega
  · have hle : byteLength slice ≤ o.headLimit - w.headBytes := by
      rw [hslice]
      exact totalWeight_takeBudget_le _ _ _
    have hbytes : (w.retain o text).headBytes = w.headBytes + byteLength slice := htail.headBytes
    refine ⟨⟨h.sized.retain text, ?_⟩, by rw [hbytes, hslice]⟩
    cases rest with
    | nil =>
      rw [hsplit, append_nil] at hlong
      omega
    | cons c rest =>
      have hnext : o.headLimit - w.headBytes < byteLength slice + c.utf8Size := by
        rw [hslice] at hsplit ⊢
        exact lt_of_takeBudget_append _ hsplit
      refine ⟨c, rest, ?_, by omega, ?_, ?_⟩
      · rw [htail.head, appendHead, h.head, hsplit]
        simp
      · have hsuffix := htail.suffix
        rwa [appendHead, h.buffer, nil_append] at hsuffix
      · intro hwhole
        have hbuffer := (htail.whole hwhole).2
        rwa [appendHead, h.buffer, nil_append] at hbuffer

theorem Closed.retain (h : Closed o w seen)
    (hstart : ∀ c ∈ text.head?, o.headLimit - w.headBytes < c.utf8Size) :
    Closed o (w.retain o text) (seen ++ text) ∧ (w.retain o text).headBytes = w.headBytes := by
  have hlimit := h.sized.limit
  obtain ⟨d, tail, hseen, hd, hsuffix, hwhole⟩ := h.rest
  have hslice : takeBudget utf8Size (o.headLimit - w.headBytes) text = [] := by
    cases text with
    | nil => rfl
    | cons c text =>
      have hc := hstart c rfl
      rw [takeBudget, if_neg (by omega)]
  cases text with
  | nil =>
    have hsame : w.retain o [] = w := by simp [Windows.retain]
    rw [append_nil]
    exact ⟨h, rfl⟩
  | cons c text =>
    rcases retain_spec h.sized (c :: text) with ⟨hfit, -⟩ | ⟨-, slice, rest, heq, hsplit, htail⟩
    · have hc := hstart c rfl
      rw [byteLength_cons] at hfit
      omega
    · rw [hslice] at heq
      subst heq hsplit
      refine ⟨⟨h.sized.retain _, d, tail ++ (c :: text), ?_, ?_, ?_, ?_⟩, ?_⟩
      · rw [htail.head, hseen]
        simp [appendHead]
      · rw [htail.headBytes]
        exact hd
      · obtain ⟨before, hbefore⟩ := hsuffix
        refine htail.suffix.trans ⟨before, ?_⟩
        show before ++ (w.buffer ++ c :: text) = d :: (tail ++ c :: text)
        rw [← append_assoc, hbefore, cons_append]
      · intro hnew
        obtain ⟨hold, hbuffer⟩ := htail.whole hnew
        rw [hbuffer, ← cons_append, ← hwhole hold]
        rfl
      · exact htail.headBytes

theorem Closed.retain_breaks (h : Closed o w seen) {c : Char}
    (hc : c.utf8Size ≤ o.headLimit - w.headBytes) :
    Broken (w.retain o (c :: text)) (seen ++ c :: text) := by
  have hlimit := h.sized.limit
  obtain ⟨d, tail, hseen, hd, -, -⟩ := h.rest
  have hne : c ≠ d := by
    rintro rfl
    omega
  have hhead : ∃ more, (w.retain o (c :: text)).head = w.head ++ c :: more := by
    rcases retain_spec h.sized (c :: text) with ⟨-, heq⟩ | ⟨-, slice, rest, hslice, -, htail⟩
    · exact ⟨text, by rw [heq]; rfl⟩
    · rw [takeBudget, if_pos hc] at hslice
      exact ⟨_, by rw [htail.head, hslice]; rfl⟩
  obtain ⟨more, hmore⟩ := hhead
  exact ⟨w.head, c, d, more, tail ++ c :: text, hne, hmore, by rw [hseen]; simp⟩

theorem Broken.retainAll (hsized : Sized o w) (h : Broken w seen) (texts : List Text) :
    Broken (texts.foldl (Windows.retain o) w) (seen ++ texts.flatten) := by
  induction texts generalizing w seen with
  | nil => simpa using h
  | cons text texts ih =>
    rw [flatten_cons, ← append_assoc]
    exact ih (hsized.retain text) (h.retain hsized text)

theorem Closed.retainAll (h : Closed o w seen) (texts : List Text) :
    ((∀ text ∈ texts, ∀ c ∈ text.head?, o.headLimit - w.headBytes < c.utf8Size) →
      Closed o (texts.foldl (Windows.retain o) w) (seen ++ texts.flatten)) ∧
    ((¬∀ text ∈ texts, ∀ c ∈ text.head?, o.headLimit - w.headBytes < c.utf8Size) →
      Broken (texts.foldl (Windows.retain o) w) (seen ++ texts.flatten)) := by
  induction texts generalizing w seen with
  | nil => exact ⟨fun _ => by simpa using h, fun hnot => absurd (by simp) hnot⟩
  | cons text texts ih =>
    rw [flatten_cons, ← append_assoc]
    by_cases hstart : ∀ c ∈ text.head?, o.headLimit - w.headBytes < c.utf8Size
    · obtain ⟨hclosed, hbytes⟩ := h.retain hstart
      have hlater := ih hclosed
      rw [hbytes] at hlater
      simp only [forall_mem_cons]
      exact ⟨fun hall => hlater.1 hall.2, fun hnot => hlater.2 fun hall => hnot ⟨hstart, hall⟩⟩
    · have hbroken : Broken (w.retain o text) (seen ++ text) := by
        push Not at hstart
        obtain ⟨c, hc, hle⟩ := hstart
        cases text with
        | nil => cases hc
        | cons d text =>
          cases hc
          exact h.retain_breaks hle
      refine ⟨fun hall => absurd (hall text mem_cons_self) hstart, fun _ => ?_⟩
      exact hbroken.retainAll (h.sized.retain text) texts

theorem Open.retainAll (h : Open o w seen) (texts : List Text) :
    (HeadStaysClosed o.headLimit w.headBytes texts →
      Open o (texts.foldl (Windows.retain o) w) (seen ++ texts.flatten) ∨
        Closed o (texts.foldl (Windows.retain o) w) (seen ++ texts.flatten)) ∧
    (¬HeadStaysClosed o.headLimit w.headBytes texts →
      Broken (texts.foldl (Windows.retain o) w) (seen ++ texts.flatten)) := by
  induction texts generalizing w seen with
  | nil => exact ⟨fun _ => .inl (by simpa using h), fun hnot => absurd trivial hnot⟩
  | cons text texts ih =>
    rw [flatten_cons, ← append_assoc, HeadStaysClosed]
    by_cases hfit : w.headBytes + byteLength text ≤ o.headLimit
    · obtain ⟨hopen, hbytes⟩ := h.retain_fits hfit
      rw [if_pos hfit, ← hbytes]
      exact ih hopen
    · have hlong : o.headLimit < w.headBytes + byteLength text := by omega
      obtain ⟨hclosed, hbytes⟩ := h.retain_closes hlong
      have hlater := hclosed.retainAll texts
      rw [hbytes, ← Nat.sub_sub] at hlater
      rw [if_neg hfit]
      exact ⟨fun hall => .inr (hlater.1 hall), hlater.2⟩

end Windows

section Run

variable (o : SinkOptions)

theorem flatten_batches {o : SinkOptions} {pending : Text}
    (h : o.coalesceSanitize = true ∨ pending = [])
    (chunks : List Text) : (batches o pending chunks).flatten = pending ++ chunks.flatten := by
  induction chunks generalizing pending with
  | nil =>
    rw [batches]
    split
    · next hempty => rw [hempty]; rfl
    · simp
  | cons chunk chunks ih =>
    rw [batches]
    split
    · next hcoalesce =>
      split
      · rw [flatten_cons, ih (.inr rfl)]
        simp
      · rw [ih (.inl hcoalesce)]
        simp
    · next hcoalesce =>
      rw [flatten_cons, ih h, h.resolve_left hcoalesce]
      rfl

variable (chunks : List Text)

theorem flushCoalesced_pushes (s : OutputSink) :
    (chunks.foldl (push o) s).flushCoalesced o =
      (batches o s.coalesceBuf chunks).foldl (ingest o) { s with coalesceBuf := [] } := by
  induction chunks generalizing s with
  | nil =>
    rw [foldl_nil, flushCoalesced, batches]
    split
    · next hempty => rw [foldl_nil, ← hempty]
    · rfl
  | cons chunk chunks ih =>
    rw [foldl_cons, ih, push, batches]
    by_cases hcoalesce : o.coalesceSanitize = true
    · rw [if_pos hcoalesce, if_pos hcoalesce]
      by_cases hflush : COALESCE_FLUSH_CHARS ≤ utf16Length (s.coalesceBuf ++ chunk)
      · have hne : s.coalesceBuf ++ chunk ≠ [] := by
          intro hnil
          rw [hnil] at hflush
          exact absurd hflush (by decide)
        rw [if_pos hflush, if_pos hflush, flushCoalesced, if_neg hne]
        rfl
      · rw [if_neg hflush, if_neg hflush]
    · rw [if_neg hcoalesce, if_neg hcoalesce]
      rfl

theorem ingests_spec (s : OutputSink) :
    (chunks.foldl (ingest o) s).windows = (visibleChunks o s.columns chunks).foldl
      (Windows.retain o) s.windows ∧
      (chunks.foldl (ingest o) s).processedBytes =
        s.processedBytes + byteLength (visibleChunks o s.columns chunks).flatten := by
  induction chunks generalizing s with
  | nil => exact ⟨rfl, rfl⟩
  | cons chunk chunks ih =>
    obtain ⟨hwindows, hbytes⟩ := ih (s.ingest o chunk)
    rw [visibleChunks, flatten_cons, byteLength_append, ← Nat.add_assoc]
    exact ⟨hwindows, hbytes⟩

theorem pushAll_spec :
    ((pushAll o chunks).flushCoalesced o).windows =
      (visibleTexts o chunks).foldl (Windows.retain o) Windows.empty ∧
      ((pushAll o chunks).flushCoalesced o).processedBytes =
        byteLength (visibleTexts o chunks).flatten := by
  obtain ⟨hwindows, hbytes⟩ := ingests_spec o (batches o [] chunks) empty
  rw [pushAll, flushCoalesced_pushes]
  refine ⟨hwindows, hbytes.trans ?_⟩
  exact Nat.zero_add _

variable {o}

theorem composeSummary_output {s : OutputSink} {notice : Text}
    (h : (composeSummary o s notice).elidedBytes = none) :
    (composeSummary o s notice).output = noticeLine notice ++ (s.windows.head ++ s.windows.buffer) ∧
      (s.windows.head ≠ [] →
        s.processedBytes ≤ byteLength s.windows.head + byteLength s.windows.buffer) := by
  unfold composeSummary at h ⊢
  simp only at h ⊢
  split at h
  · cases h
  · next hnone =>
    rw [if_neg hnone]
    split
    · next hhead => exact ⟨rfl, fun _ => by omega⟩
    · next hhead =>
      have hnil : s.windows.head = [] := byteLength_eq_zero.1 (by omega)
      rw [hnil]
      exact ⟨rfl, fun hne => absurd rfl hne⟩

end Run

theorem eq_of_isSuffix_of_byteLength_le {text whole : Text} (hsuffix : text <:+ whole)
    (hbytes : byteLength whole ≤ byteLength text) : text = whole := by
  obtain ⟨before, rfl⟩ := hsuffix
  rw [byteLength_append] at hbytes
  have hnil : before = [] := byteLength_eq_zero.1 (by omega)
  rw [hnil, nil_append]

theorem Windows.Open.inOrder {o : SinkOptions} {w : Windows} {seen : Text}
    (h : w.Open o seen ∨ w.Closed o seen) :
    w.head <+: seen ∧ w.buffer <:+ seen ∧
      ((w.head ≠ [] → byteLength seen ≤ byteLength w.head + byteLength w.buffer) →
        (w.head = [] → w.truncated = false) → w.head ++ w.buffer = seen) := by
  rcases h with hopen | hclosed
  · rw [hopen.head, hopen.buffer]
    exact ⟨prefix_refl _, nil_suffix, fun _ _ => append_nil _⟩
  · obtain ⟨c, text, hseen, -, hsuffix, hwhole⟩ := hclosed.rest
    refine ⟨⟨c :: text, hseen.symm⟩, ?_, fun hbytes htruncated => ?_⟩
    · rw [hseen]
      exact hsuffix.trans (suffix_append _ _)
    · rw [hseen]
      congr 1
      by_cases hhead : w.head = []
      · exact hwhole (htruncated hhead)
      · have hle := hbytes hhead
        rw [hseen, byteLength_append] at hle
        exact eq_of_isSuffix_of_byteLength_le hsuffix (by omega)

/-- The sink keeps the order of its text exactly if a closed head is never filled again. -/
theorem pushAll_inOrder_iff (o : SinkOptions) (chunks : List Text) (notice : Text) :
    InOrder o chunks notice ↔ HeadStaysClosed o.headLimit 0 (visibleTexts o chunks) := by
  obtain ⟨hwindows, hbytes⟩ := pushAll_spec o chunks
  have hempty : Windows.empty.Open o [] :=
    ⟨⟨rfl, rfl, Nat.zero_le _⟩, rfl, rfl⟩
  have hrun := hempty.retainAll (visibleTexts o chunks)
  rw [nil_append, ← hwindows] at hrun
  constructor
  · intro horder
    by_contra hnot
    exact (hrun.2 hnot).not_isPrefix horder.head
  · intro hclosed
    obtain ⟨hhead, htail, hall⟩ := Windows.Open.inOrder (hrun.1 hclosed)
    refine ⟨hhead, htail, fun ⟨helided, htruncated⟩ => ?_⟩
    obtain ⟨houtput, hcount⟩ := composeSummary_output helided
    rw [dump, houtput, hall _ htruncated]
    rw [hbytes] at hcount
    exact hcount

/-- The head of three bytes takes `ab`, sends the three bytes of the euro sign to the tail, and then
takes `c`. -/
theorem pushAll_reorders : ¬InOrder ⟨100, 3, 0, false, id, fun _ _ => []⟩ ["ab€".toList, "c".toList]
    [] := by
  intro horder
  have hhead := horder.head
  revert hhead
  decide +kernel

end Vibrato.Output
