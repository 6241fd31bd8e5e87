import Mathlib.Data.Nat.Init
import Vibrato.Stream.Sse

namespace Vibrato.Stream

open Lib List

theorem stripCr_eq_nil_iff (line : List UInt8) :
    stripCr line = [] ↔ line.length = 0 ∨ (line.length = 1 ∧ line.head? = some CR) := by
  rw [← length_eq_zero_iff, length_stripCr]
  match line with
  | [] => simp
  | [b] => by_cases hb : b = CR <;> simp [hb]
  | b :: c :: rest => split <;> simp

structure Reader.Took (r : Reader) (lines : List (List UInt8)) : Prop where
  state : r.state = blockState (openBlock lines)
  eventBytes : r.eventBytes = openBytes lines
  events : r.events = closedEvents lines

theorem Reader.took_nil : ({} : Reader).Took [] := ⟨rfl, rfl, rfl⟩

variable {r : Reader} {before lines : List (List UInt8)} {max : Option Int} {start : List UInt8}
  {events : List ServerSentEvent}

theorem Reader.Took.takeLine (h : r.Took lines) (line : List UInt8) :
    (r.takeLine line).Took (lines ++ [line]) := by
  have hpush := pushSseLine_blockState (openBlock lines) line
  rw [← h.state] at hpush
  have hbytes : openBytes (lines ++ [line]) =
      if stripCr line = [] then 0 else openBytes lines + (line.length + 1) := by
    simp [openBytes]
  refine ⟨?_, ?_, ?_⟩
  · rw [Reader.takeLine, hpush]
    by_cases hblank : stripCr line = []
    · rw [if_pos hblank, openBlock_concat_blank hblank]
      rfl
    · rw [if_neg hblank, openBlock_concat hblank]
  · rw [hbytes, ← h.eventBytes]
    simp only [Reader.takeLine, stripCr_eq_nil_iff]
  · simp only [Reader.takeLine, hpush]
    by_cases hblank : stripCr line = []
    · rw [if_pos hblank, closedEvents_concat_blank hblank, lineEvents_eq, h.events]
    · rw [if_neg hblank, closedEvents_concat hblank, h.events]
      exact append_nil _

theorem Reader.Took.finish (h : r.Took lines) :
    r.finish = lineEvents (lines ++ [r.lineBuffer]) := by
  by_cases hnone : r.lineBuffer = []
  · rw [hnone, lineEvents_concat_nil, lineEvents_eq, Reader.finish]
    simp [hnone, h.events, h.state, flushSseEvent_blockState]
  · have htail := h.takeLine r.lineBuffer
    have hfinish : r.finish = (r.takeLine r.lineBuffer).events ++
        (flushSseEvent (r.takeLine r.lineBuffer).state).2.toList := by
      simp [Reader.finish, hnone, Reader.takeLine]
    rw [hfinish, htail.events, htail.state, flushSseEvent_blockState, lineEvents_eq]

theorem exceeds_mono {bytes a b : Nat} (hle : a ≤ b)
    (h : exceeds max bytes a = true) : exceeds max bytes b = true := by
  unfold exceeds at h ⊢
  cases max with
  | none => exact h
  | some m =>
    simp only [decide_eq_true_eq] at h ⊢
    omega

theorem splitOn_append_of_not_mem (rest : List UInt8) (h : LF ∉ start) :
    (start ++ rest).splitOn LF = (rest.splitOn LF).modifyHead (start ++ ·) := by
  induction start with
  | nil =>
    obtain ⟨first, others, hsplit⟩ := exists_cons_of_ne_nil (splitOn_ne_nil LF rest)
    simp [hsplit]
  | cons b start ih =>
    simp only [mem_cons, not_or] at h
    have hb : (b == LF) = false := beq_eq_false_iff_ne.mpr (Ne.symm h.1)
    rw [cons_append, splitOn_cons_eq_if_modifyHead, ih h.2, hb]
    obtain ⟨first, others, hsplit⟩ := exists_cons_of_ne_nil (splitOn_ne_nil LF rest)
    simp [hsplit]

theorem split_of_idxOf? {chunk : List UInt8} {i : Nat} (h : chunk.idxOf? LF = some i) :
    chunk = chunk.take i ++ LF :: chunk.drop (i + 1) ∧ LF ∉ chunk.take i := by
  obtain ⟨hlt, hat, hbefore⟩ := idxOf?_eq_some_iff.mp h
  refine ⟨?_, ?_⟩
  · conv_lhs => rw [← take_append_drop i chunk, drop_eq_getElem_cons hlt, hat]
  · intro hmem
    obtain ⟨j, hj, hget⟩ := mem_iff_getElem.mp hmem
    rw [length_take] at hj
    rw [getElem_take] at hget
    exact hbefore j (by omega) hget

theorem readLines_of_exceeds (rest : List UInt8) (hstart : LF ∉ start) (hne : start ≠ [])
    (hlong : exceeds max (openBytes before) start.length = true) :
    readLines max before ((start ++ rest).splitOn LF) = .error (closedEvents before) := by
  obtain ⟨first, others, hsplit⟩ := exists_cons_of_ne_nil (splitOn_ne_nil LF rest)
  rw [splitOn_append_of_not_mem rest hstart, hsplit, modifyHead_cons]
  cases others with
  | nil =>
    rw [readLines, if_pos]
    refine ⟨by simp [hne], exceeds_mono ?_ hlong⟩
    rw [length_append]
    omega
  | cons next others =>
    rw [readLines, if_pos]
    refine exceeds_mono ?_ hlong
    rw [length_append]
    omega

theorem readLines_line {line : List UInt8} (rest : List UInt8) (hline : LF ∉ line) :
    readLines max before ((line ++ LF :: rest).splitOn LF) =
      if exceeds max (openBytes before) (line.length + 1) then .error (closedEvents before)
      else readLines max (before ++ [line]) (rest.splitOn LF) := by
  rw [splitOn_append_cons_self_of_not_mem hline]
  obtain ⟨first, others, hsplit⟩ := exists_cons_of_ne_nil (splitOn_ne_nil LF rest)
  rw [hsplit, readLines]

/-- The reader has taken the given lines, and its line buffer has the beginning of the next one,
which has passed the check. -/
structure Reader.Holds (max : Option Int) (r : Reader) (lines : List (List UInt8)) : Prop where
  took : r.Took lines
  partialLine : LF ∉ r.lineBuffer
  fits : ¬(r.lineBuffer ≠ [] ∧ exceeds max (openBytes lines) r.lineBuffer.length = true)

theorem readLines_tail (h : r.Holds max lines) :
    readLines max lines (r.lineBuffer.splitOn LF) = .ok r.finish := by
  rw [splitOn_eq_singleton h.partialLine, readLines, if_neg h.fits, h.took.finish]

def Agrees (max : Option Int)
    (expected : List UInt8 → Except (List ServerSentEvent) (List ServerSentEvent)) :
    Except (List ServerSentEvent) Reader → Prop
  | .error events => ∀ rest, expected rest = .error events
  | .ok r => ∃ lines, r.Holds max lines ∧
      ∀ rest, expected rest = readLines max lines ((r.lineBuffer ++ rest).splitOn LF)

theorem appendAndFlushLines_agrees (h : r.Holds max lines) (chunk : List UInt8) :
    Agrees max (fun rest => readLines max lines ((r.lineBuffer ++ (chunk ++ rest)).splitOn LF))
      (appendAndFlushLines max r chunk) := by
  -- The induction is that of the loop: over what is left of the chunk.
  induction hlen : chunk.length using Nat.strong_induction_on generalizing r lines chunk with
  | _ n ih =>
    subst hlen
    rw [appendAndFlushLines]
    by_cases hchunk : chunk = []
    · rw [dif_pos hchunk]
      refine ⟨lines, h, fun rest => ?_⟩
      dsimp only
      rw [hchunk, nil_append]
    rw [dif_neg hchunk]
    cases hnl : chunk.idxOf? LF with
    | none =>
      have hmem : LF ∉ chunk := idxOf?_eq_none_iff.mp hnl
      have hline : LF ∉ r.lineBuffer ++ chunk := by simp [h.partialLine, hmem]
      have hbytes := h.took.eventBytes
      rw [← length_append]
      by_cases hlong : exceeds max r.eventBytes (r.lineBuffer ++ chunk).length = true
      · rw [if_pos hlong]
        rw [hbytes] at hlong
        intro rest
        dsimp only
        rw [← append_assoc, readLines_of_exceeds rest hline (by simp [hchunk]) hlong, h.took.events]
      · rw [if_neg hlong]
        rw [hbytes] at hlong
        refine ⟨lines, ⟨⟨h.took.state, hbytes, h.took.events⟩, hline, fun hfits => hlong hfits.2⟩,
          ?_⟩
        intro rest
        rw [append_assoc]
    | some nl =>
      obtain ⟨hsplit, hmem⟩ := split_of_idxOf? hnl
      have hpass : (if r.lineBuffer = [] then chunk.take nl else r.lineBuffer ++ chunk.take nl) =
          r.lineBuffer ++ chunk.take nl := by
        split
        · next hnone => rw [hnone, nil_append]
        · rfl
      have hline : LF ∉ r.lineBuffer ++ chunk.take nl := by simp [h.partialLine, hmem]
      have hexpected : ∀ rest, readLines max lines ((r.lineBuffer ++ (chunk ++ rest)).splitOn LF) =
          if exceeds max r.eventBytes (r.lineBuffer.length + (chunk.take nl).length + 1) then
            .error r.events
          else readLines max (lines ++ [r.lineBuffer ++ chunk.take nl])
            ((chunk.drop (nl + 1) ++ rest).splitOn LF) := by
        intro rest
        have hstream : r.lineBuffer ++ (chunk ++ rest) =
            (r.lineBuffer ++ chunk.take nl) ++ LF :: (chunk.drop (nl + 1) ++ rest) := by
          conv_lhs => rw [hsplit]
          simp
        rw [hstream, readLines_line _ hline, length_append, h.took.eventBytes, h.took.events]
      simp only [hpass, hexpected]
      split
      · exact fun rest => rfl
      · have hnext :
            Reader.Holds max { r.takeLine (r.lineBuffer ++ chunk.take nl) with lineBuffer := [] }
            (lines ++ [r.lineBuffer ++ chunk.take nl]) := by
          have htook := h.took.takeLine (r.lineBuffer ++ chunk.take nl)
          exact ⟨⟨htook.state, htook.eventBytes, htook.events⟩, by simp, by simp⟩
        have hshorter : (chunk.drop (nl + 1)).length < chunk.length := by
          have hpos := length_pos_of_ne_nil hchunk
          rw [length_drop]
          omega
        exact ih _ hshorter hnext (chunk.drop (nl + 1)) rfl

theorem foldlM_agrees (h : r.Holds max lines) (chunks : List (List UInt8)) :
    (chunks.foldlM (appendAndFlushLines max) r).map Reader.finish =
      readLines max lines ((r.lineBuffer ++ chunks.flatten).splitOn LF) := by
  induction chunks generalizing r lines with
  | nil =>
    rw [flatten_nil, append_nil, readLines_tail h]
    rfl
  | cons chunk chunks ih =>
    have hagrees := appendAndFlushLines_agrees h chunk
    rw [foldlM_cons]
    cases hnext : appendAndFlushLines max r chunk with
    | error events =>
      rw [hnext] at hagrees
      exact (hagrees chunks.flatten).symm
    | ok r' =>
      rw [hnext] at hagrees
      obtain ⟨lines', hholds, hexpected⟩ := hagrees
      exact (ih hholds).trans (hexpected chunks.flatten).symm

theorem readLines_none (before lines : List (List UInt8)) :
    readLines none before lines = .ok (lineEvents (before ++ lines)) := by
  induction lines generalizing before with
  | nil => rw [readLines, append_nil]
  | cons line rest ih =>
    cases rest with
    | nil => simp [readLines, exceeds]
    | cons next rest =>
      rw [readLines, ih]
      simp [exceeds]

theorem readLines_ok (h : readLines max before lines = .ok events) :
    events = lineEvents (before ++ lines) := by
  induction lines generalizing before with
  | nil =>
    rw [append_nil]
    exact (Except.ok.inj h).symm
  | cons line rest ih =>
    cases rest with
    | nil =>
      rw [readLines] at h
      split at h
      · cases h
      · exact (Except.ok.inj h).symm
    | cons next rest =>
      rw [readLines] at h
      split at h
      · cases h
      · have hrest := ih h
        rw [hrest, append_assoc]
        rfl

theorem closedEvents_isPrefix (before lines : List (List UInt8)) :
    closedEvents before <+: lineEvents (before ++ lines) := by
  induction lines generalizing before with
  | nil =>
    rw [append_nil, lineEvents_eq]
    exact prefix_append _ _
  | cons line rest ih =>
    have hrest := ih (before ++ [line])
    rw [append_assoc] at hrest
    refine List.IsPrefix.trans ?_ hrest
    by_cases hblank : stripCr line = []
    · rw [closedEvents_concat_blank hblank, lineEvents_eq]
      exact prefix_append _ _
    · simp [closedEvents_concat hblank]

theorem readLines_error
    (h : readLines max before lines = .error events) : events <+: lineEvents (before ++ lines) := by
  induction lines generalizing before with
  | nil => cases h
  | cons line rest ih =>
    cases rest with
    | nil =>
      rw [readLines] at h
      split at h
      · cases h
        exact closedEvents_isPrefix before [line]
      · cases h
    | cons next rest =>
      rw [readLines] at h
      split at h
      · cases h
        exact closedEvents_isPrefix before (line :: next :: rest)
      · have hrest := ih h
        rwa [append_assoc, singleton_append] at hrest

/-- The chunks of a stream are read as its lines one after the other: the events are those of the
blocks of its lines, all of them when there is no limit or it is kept, and otherwise those before
the line at which the limit is passed. Another cutting of the stream ends in the same way after the
same events. -/
theorem readSseEvents_eq_readLines (max : Option Int) (chunks : List (List UInt8)) :
    readSseEvents max chunks = readLines max [] (chunks.flatten.splitOn LF) ∧
      readSseEvents none chunks = .ok (lineEvents (chunks.flatten.splitOn LF)) ∧
      (∀ events, readSseEvents max chunks = .ok events →
        events = lineEvents (chunks.flatten.splitOn LF)) ∧
      (∀ events, readSseEvents max chunks = .error events →
        events <+: lineEvents (chunks.flatten.splitOn LF)) ∧
      ∀ other : List (List UInt8), other.flatten = chunks.flatten →
        ∀ events, readSseEvents max chunks = .error events ↔
          readSseEvents max other = .error events := by
  have hread : ∀ max cs, readSseEvents max cs = readLines max [] (cs.flatten.splitOn LF) := by
    intro max cs
    have hstart : ({} : Reader).Holds max [] := ⟨Reader.took_nil, by simp, by simp⟩
    exact foldlM_agrees hstart cs
  refine ⟨hread max chunks, ?_, ?_, ?_, ?_⟩
  · rw [hread, readLines_none, nil_append]
  · intro events h
    rw [hread] at h
    exact readLines_ok h
  · intro events h
    rw [hread] at h
    exact readLines_error h
  · intro other hother events
    rw [hread, hread, hother]

end Vibrato.Stream
