import Vibrato.Output.SinkOrder

namespace Vibrato.Output

open Lib List OutputSink

/-- The number of lines of a body, as `dump` counts it. -/
def bodyLines (body : Text) : Nat := if body = [] then 0 else countNewlines body + 1

def headLinesOf (head : Text) : Nat :=
  countNewlines head + if head ≠ [] ∧ head.getLast? ≠ some '\n' then 1 else 0

/-- The counts of a summary agree with its body, with the retained head and tail, and with the
processed stream. -/
structure CountsAgree (notice head tail stream : Text) (summary : OutputSummary) : Prop where
  body : ∃ body, summary.output = noticeLine notice ++ body ∧
    summary.outputBytes = byteLength body ∧
    ((summary.elidedBytes ≠ none → tail ≠ [] ∧ tail.head? ≠ some '\n') →
      summary.outputLines = bodyLines body)
  bytes : head ≠ [] →
    byteLength head + summary.elidedBytes.getD 0 + byteLength tail = byteLength stream
  tailOnly : head = [] → summary.elidedBytes = none ∧ byteLength tail ≤ byteLength stream
  lines : ∀ elidedLines, summary.elidedLines = some elidedLines →
    headLinesOf head + elidedLines + bodyLines tail = bodyLines stream ∨
    headLinesOf head + elidedLines + bodyLines tail = bodyLines stream + 1 ∧
      head.getLast? ≠ some '\n' ∧ countNewlines head + countNewlines tail = countNewlines stream

section Weights

variable {o : SinkOptions} (weight : Char → Nat)

theorem totalWeight_le_of_isSuffix {text whole : Text} (h : text <:+ whole) :
    totalWeight weight text ≤ totalWeight weight whole := by
  obtain ⟨start, rfl⟩ := h
  rw [totalWeight_append]
  omega

theorem weight_retain_le {w : Windows} (hsized : w.Sized o) (text : Text) :
    totalWeight weight (w.retain o text).head + totalWeight weight (w.retain o text).buffer ≤
      totalWeight weight w.head + totalWeight weight w.buffer + totalWeight weight text := by
  rcases Windows.retain_spec hsized text with ⟨-, heq⟩ | ⟨-, slice, rest, -, hsplit, htail⟩
  · rw [heq]
    show totalWeight weight (w.head ++ text) + totalWeight weight w.buffer ≤ _
    rw [totalWeight_append]
    omega
  · have hbuffer := totalWeight_le_of_isSuffix weight htail.suffix
    have hhead : (w.retain o text).head = w.head ++ slice := htail.head
    have htext : totalWeight weight text = totalWeight weight slice + totalWeight weight rest := by
      rw [hsplit, totalWeight_append]
    have happended : (w.appendHead slice (byteLength slice)).buffer = w.buffer := rfl
    rw [happended, totalWeight_append] at hbuffer
    rw [hhead, totalWeight_append]
    omega

theorem weight_retainAll_le {w : Windows} (hsized : w.Sized o) (texts : List Text) :
    totalWeight weight (texts.foldl (Windows.retain o) w).head +
        totalWeight weight (texts.foldl (Windows.retain o) w).buffer ≤
      totalWeight weight w.head + totalWeight weight w.buffer +
        totalWeight weight texts.flatten := by
  induction texts generalizing w with
  | nil => exact Nat.le_refl _
  | cons text texts ih =>
    have hone := weight_retain_le weight hsized text
    have hall := ih (hsized.retain text)
    rw [foldl_cons, flatten_cons, totalWeight_append]
    omega

theorem countNewlines_eq_totalWeight (text : Text) :
    countNewlines text = totalWeight (fun c => if c = '\n' then 1 else 0) text := by
  induction text with
  | nil => rfl
  | cons c text ih =>
    rw [totalWeight_cons, ← ih]
    unfold countNewlines
    rw [count_cons, Nat.add_comm]
    simp

end Weights

section Run

variable (o : SinkOptions)

theorem ingests_lines (chunks : List Text) (s : OutputSink) :
    (chunks.foldl (ingest o) s).processedLines =
        s.processedLines + countNewlines (visibleChunks o s.columns chunks).flatten ∧
      ((chunks.foldl (ingest o) s).sawData = false →
        s.sawData = false ∧ (visibleChunks o s.columns chunks).flatten = []) := by
  induction chunks generalizing s with
  | nil => exact ⟨rfl, fun h => ⟨h, rfl⟩⟩
  | cons chunk chunks ih =>
    obtain ⟨hlines, hdata⟩ := ih (s.ingest o chunk)
    rw [foldl_cons, visibleChunks, flatten_cons]
    constructor
    · rw [hlines]
      show s.processedLines + countNewlines _ + countNewlines _ = _
      unfold countNewlines
      rw [count_append, Nat.add_assoc]
      rfl
    · intro hnone
      obtain ⟨hstep, hrest⟩ := hdata hnone
      have hboth : s.sawData = false ∧ chunk = [] := by simpa [ingest] using hstep
      refine ⟨hboth.1, ?_⟩
      rw [hboth.2]
      rw [hboth.2] at hrest
      exact hrest

/-- What the sink counts is the stream, and what it retains is part of it. -/
structure Counted (s : OutputSink) (stream : Text) : Prop where
  processedBytes : s.processedBytes = byteLength stream
  processedLines : s.processedLines = countNewlines stream
  sawData : s.sawData = false → stream = []
  bytes : byteLength s.windows.head + byteLength s.windows.buffer ≤ byteLength stream
  newlines : countNewlines s.windows.head + countNewlines s.windows.buffer ≤ countNewlines stream

theorem pushAll_counted (chunks : List Text) :
    Counted ((pushAll o chunks).flushCoalesced o) (visibleTexts o chunks).flatten := by
  obtain ⟨hwindows, hbytes⟩ := pushAll_spec o chunks
  obtain ⟨hlines, hdata⟩ := ingests_lines o (batches o [] chunks) empty
  have hrun : (pushAll o chunks).flushCoalesced o = (batches o [] chunks).foldl (ingest o) empty :=
    flushCoalesced_pushes o chunks empty
  have hempty : Windows.Sized o Windows.empty := ⟨rfl, rfl, Nat.zero_le _⟩
  have hweights : ∀ weight : Char → Nat,
      totalWeight weight ((pushAll o chunks).flushCoalesced o).windows.head +
        totalWeight weight ((pushAll o chunks).flushCoalesced o).windows.buffer ≤
      totalWeight weight (visibleTexts o chunks).flatten := by
    intro weight
    rw [hwindows]
    have hle := weight_retainAll_le weight hempty (visibleTexts o chunks)
    have hzero : totalWeight weight Windows.empty.head + totalWeight weight Windows.empty.buffer =
        0 := rfl
    omega
  refine ⟨hbytes, ?_, ?_, hweights Char.utf8Size, ?_⟩
  · rw [hrun, hlines]
    exact Nat.zero_add _
  · intro hnone
    rw [hrun] at hnone
    exact (hdata hnone).2
  · simp only [countNewlines_eq_totalWeight]
    exact hweights _

variable {o}

theorem countNewlines_append (a b : Text) :
    countNewlines (a ++ b) = countNewlines a + countNewlines b :=
  count_append

theorem bodyLines_of_ne_nil {text : Text} (h : text ≠ []) :
    bodyLines text = countNewlines text + 1 :=
  if_neg h

theorem headLinesOf_eq {head : Text} (hhead : head ≠ []) :
    headLinesOf head = countNewlines head + countNewlines
      (if head.getLast? = some '\n' then [] else ['\n']) := by
  unfold headLinesOf
  by_cases hlast : head.getLast? = some '\n'
  · simp [hlast, countNewlines]
  · simp [hlast, hhead, countNewlines]

theorem bodyLines_middle {head marker tail : Text} (hhead : head ≠ []) (hmarker : '\n' ∉ marker)
    (htail : tail ≠ []) (hstart : tail.head? ≠ some '\n') :
    bodyLines (head ++ (if head.getLast? = some '\n' then [] else ['\n']) ++ marker ++
        (if tail.head? = some '\n' then [] else ['\n']) ++ tail) =
      headLinesOf head + 1 + bodyLines tail := by
  have hnewlines : countNewlines marker = 0 := count_eq_zero.2 hmarker
  have hsep : countNewlines ['\n'] = 1 := rfl
  rw [bodyLines_of_ne_nil (by simp [hhead]), bodyLines_of_ne_nil htail, headLinesOf_eq hhead]
  rw [if_neg hstart]
  simp only [countNewlines_append, hnewlines, hsep]
  omega

theorem coveredLines {head tail stream : Text} (hhead : head ≠ [])
    (hnewlines : countNewlines head + countNewlines tail ≤ countNewlines stream)
    (hstream : stream ≠ []) :
    headLinesOf head + (bodyLines stream - headLinesOf head - bodyLines tail) + bodyLines tail =
      bodyLines stream ∨
    headLinesOf head + (bodyLines stream - headLinesOf head - bodyLines tail) + bodyLines tail =
        bodyLines stream + 1 ∧
      head.getLast? ≠ some '\n' ∧
        countNewlines head + countNewlines tail = countNewlines stream := by
  have htail : bodyLines tail ≤ countNewlines tail + 1 := by
    unfold bodyLines
    split <;> omega
  rw [bodyLines_of_ne_nil hstream]
  unfold headLinesOf
  by_cases hlast : head.getLast? = some '\n'
  · rw [if_neg fun h => h.2 hlast]
    left
    omega
  · rw [if_pos ⟨hhead, hlast⟩]
    by_cases hfits : countNewlines head + 1 + bodyLines tail ≤ countNewlines stream + 1
    · left
      omega
    · right
      exact ⟨by omega, hlast, by omega⟩

theorem composeSummary_countsAgree
    (hmarker : ∀ lines bytes, '\n' ∉ o.formatMiddleElisionMarker lines bytes) {s : OutputSink}
    {stream : Text} (h : Counted s stream) (notice : Text) :
    CountsAgree notice s.windows.head s.windows.buffer stream (composeSummary o s notice) := by
  have hbytes := h.bytes
  have hprocessed := h.processedBytes
  have hheadPos : 0 < byteLength s.windows.head ↔ s.windows.head ≠ [] := by
    rw [Nat.pos_iff_ne_zero, ne_eq, byteLength_eq_zero]
  have hheadLines : countNewlines s.windows.head +
      (if 0 < byteLength s.windows.head ∧ s.windows.head.getLast? ≠ some '\n' then 1 else 0) =
      headLinesOf s.windows.head := by
    simp only [headLinesOf, hheadPos]
  unfold composeSummary
  dsimp only
  rw [hheadLines]
  split
  · next helided =>
    have hhead := hheadPos.1 helided.1
    have hstream : stream ≠ [] := by
      rintro rfl
      rw [byteLength_nil] at hbytes
      omega
    have hdata : s.sawData = true := by
      by_contra hnone
      exact hstream (h.sawData (by simpa using hnone))
    refine ⟨⟨_, rfl, ?_, fun htail => ?_⟩, fun _ => ?_, fun hnil => absurd hnil hhead,
      fun elidedLines hsome => ?_⟩
    · rw [byteLength_append, byteLength_append, byteLength_append, byteLength_append]
      have hsep : ∀ c : Prop, ∀ _ : Decidable c,
          byteLength (if c then [] else ['\n']) = (if c then ([] : Text) else ['\n']).length := by
        intro c _
        split <;> rfl
      rw [hsep, hsep]
      dsimp only
      omega
    · obtain ⟨hne, hstart⟩ := htail (by simp)
      exact (bodyLines_middle hhead (hmarker _ _) hne hstart).symm
    · rw [Option.getD_some]
      omega
    · cases hsome
      rw [hdata, h.processedLines, ← bodyLines_of_ne_nil hstream]
      exact coveredLines hhead h.newlines hstream
  · next hwhole =>
    split
    · next hpos =>
      have hhead := hheadPos.1 hpos
      refine ⟨⟨_, rfl, (byteLength_append _ _).symm, fun _ => rfl⟩, fun _ => ?_,
        fun hnil => absurd hnil hhead, fun elidedLines hsome => by cases hsome⟩
      rw [Option.getD_none]
      omega
    · next hzero =>
      have hhead : s.windows.head = [] := by
        by_contra hne
        exact hzero (hheadPos.2 hne)
      exact ⟨⟨_, rfl, rfl, fun _ => rfl⟩, fun hne => absurd hhead hne, fun _ => ⟨rfl, by omega⟩,
        fun elidedLines hsome => by cases hsome⟩

/-- The summary of every run is truthful: about its bytes always, about its lines unless a tail
behind an elided middle is empty or starts with a newline. -/
theorem dump_countsAgree (hmarker : ∀ lines bytes, '\n' ∉ o.formatMiddleElisionMarker lines bytes)
    (chunks : List Text) (notice : Text) :
    CountsAgree notice ((pushAll o chunks).flushCoalesced o).windows.head
      ((pushAll o chunks).flushCoalesced o).windows.buffer (visibleTexts o chunks).flatten
      ((pushAll o chunks).dump o notice) :=
  composeSummary_countsAgree hmarker (pushAll_counted o chunks) notice

end Run

/-- A tail of one byte, and a head of `headLimit` bytes. -/
def oneByteTail (headLimit : Nat) : SinkOptions :=
  { spillThreshold := 1
    headLimit
    maxColumns := 0
    coalesceSanitize := false
    sanitize := id
    formatMiddleElisionMarker := fun _ _ => "[… elided …]".toList }

theorem dump_countsAgree_abc :
    CountsAgree [] ((pushAll (oneByteTail 1) ["abc".toList]).flushCoalesced
        (oneByteTail 1)).windows.head
      ((pushAll (oneByteTail 1) ["abc".toList]).flushCoalesced (oneByteTail 1)).windows.buffer
      (visibleTexts (oneByteTail 1) ["abc".toList]).flatten
      ((pushAll (oneByteTail 1) ["abc".toList]).dump (oneByteTail 1) []) :=
  dump_countsAgree (o := oneByteTail 1) (fun _ _ => show '\n' ∉ "[… elided …]".toList by decide)
    ["abc".toList] []

/-- Without a head, one of two bytes is dropped and no bytes are reported as elided. -/
theorem dump_tailOnly_ab :
    byteLength ((pushAll (oneByteTail 0) ["ab".toList]).flushCoalesced
        (oneByteTail 0)).windows.head +
      (((pushAll (oneByteTail 0) ["ab".toList]).dump (oneByteTail 0) []).elidedBytes.getD 0) +
      byteLength ((pushAll (oneByteTail 0) ["ab".toList]).flushCoalesced
        (oneByteTail 0)).windows.buffer ≠
      byteLength (visibleTexts (oneByteTail 0) ["ab".toList]).flatten := by
  decide +kernel

end Vibrato.Output
