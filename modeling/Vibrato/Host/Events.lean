import Mathlib.Data.List.Range

/-! The event stream of a session (`sdk/host/events.ts`): events are numbered within a generation,
the last `ringSize` of them are kept, and a client that comes back with the position it had is sent
what it missed, or told which numbers it cannot be sent any more. -/

namespace Vibrato.Host

open List

/-- `EventFrame`: the fields of the emitted frame with the generation and the number the stream
adds. -/
structure EventFrame (α : Type) where
  frame : α
  generation : Nat
  seq : Nat

inductive EventReplayGap where
  | generationReset (fromGeneration toGeneration : Nat) (resyncQueries : List String)
  | sequenceGap (fromSeq toSeq : Nat) (resyncQueries : List String)

structure EventReplay (α : Type) where
  events : List (EventFrame α)
  gap : Option EventReplayGap := none

def EventReplay.missing {α : Type} (r : EventReplay α) : List Nat :=
  match r.gap with
  | some (.sequenceGap fromSeq toSeq _) => List.range' fromSeq (toSeq + 1 - fromSeq)
  | _ => []

structure SessionEventStream (α : Type) where
  generation : Nat := 0
  seq : Nat := 0
  frames : List (EventFrame α) := []
  ringSize : Nat := 256
  resyncQueries : List String := ["Q01", "Q02", "Q03"]

namespace SessionEventStream

variable {α : Type}

def create (generation ringSize : Nat) (resyncQueryIds : List String) : SessionEventStream α :=
  { generation, ringSize, resyncQueries := resyncQueryIds }

variable (s : SessionEventStream α)

def restart : SessionEventStream α :=
  { s with generation := s.generation + 1, seq := 0, frames := [] }

/-- The event that `emit` returns. -/
def nextEvent (frame : α) : EventFrame α :=
  { frame, generation := s.generation, seq := s.seq + 1 }

def emit (frame : α) : SessionEventStream α :=
  let frames := s.frames ++ [s.nextEvent frame]
  { s with
    seq := s.seq + 1
    frames := if s.ringSize < frames.length then frames.tail else frames }

def oldest : Nat :=
  (s.frames.head?.map (·.seq)).getD (s.seq + 1)

def replay (lastSeq generation : Nat) : EventReplay α :=
  let events := s.frames.filter (lastSeq < ·.seq)
  if generation ≠ s.generation then
    { events := s.frames
      gap := some (.generationReset generation s.generation s.resyncQueries) }
  else
    let replayFrom := lastSeq + 1
    if replayFrom < s.oldest then
      { events := s.frames.filter (s.oldest ≤ ·.seq)
        gap := some (.sequenceGap replayFrom (s.oldest - 1) s.resyncQueries) }
    else { events }

inductive Call (α : Type) where
  | emit (frame : α)
  | restart

def step : Call α → SessionEventStream α
  | .emit frame => s.emit frame
  | .restart => s.restart

def run (calls : List (Call α)) : SessionEventStream α :=
  calls.foldl step s

def emitted (s : SessionEventStream α) : List (Call α) → List (EventFrame α)
  | [] => []
  | .emit frame :: rest => s.nextEvent frame :: emitted (s.emit frame) rest
  | .restart :: rest => emitted s.restart rest

@[simp] theorem emit_seq (frame : α) : (s.emit frame).seq = s.seq + 1 := rfl

theorem run_append (before after : List (Call α)) :
    s.run (before ++ after) = (s.run before).run after := foldl_append

/-- The stream holds the end of `history`, the events of its generation, as much of it as the ring
has room for; the events of a generation are numbered from one. -/
structure Retains (s : SessionEventStream α) (history : List (EventFrame α)) : Prop where
  numbered : history.map (·.seq) = List.range' 1 s.seq
  current : ∀ e ∈ history, e.generation = s.generation
  held : s.frames <:+ history
  size : s.frames.length = min s.ringSize s.seq

theorem retains_create (generation ringSize : Nat) (queries : List String) :
    (create generation ringSize queries : SessionEventStream α).Retains [] := by
  refine ⟨rfl, by simp, suffix_refl [], ?_⟩
  simp [create]

theorem retains_restart : s.restart.Retains [] := by
  refine ⟨rfl, by simp, suffix_refl [], ?_⟩
  simp [restart]

variable {s : SessionEventStream α} {history : List (EventFrame α)}

theorem Retains.emit (h : s.Retains history)
    (frame : α) : (s.emit frame).Retains (history ++ [s.nextEvent frame]) := by
  have hall : s.frames ++ [s.nextEvent frame] <:+ history ++ [s.nextEvent frame] := by
    obtain ⟨before, rfl⟩ := h.held
    exact ⟨before, by simp⟩
  refine ⟨?_, ?_, ?_, ?_⟩
  · rw [map_append, h.numbered, emit_seq, range'_concat]
    simp [nextEvent, Nat.add_comm]
  · intro e he
    rcases mem_append.mp he with he | he
    · exact h.current e he
    · rw [mem_singleton.mp he]
      rfl
  · simp only [SessionEventStream.emit]
    split
    · exact (tail_suffix _).trans hall
    · exact hall
  · have hsize := h.size
    simp only [SessionEventStream.emit]
    split <;> rename_i hfull
    · simp only [length_append, length_tail, length_singleton] at hfull ⊢
      omega
    · simp only [length_append, length_singleton] at hfull ⊢
      omega

theorem Retains.run (h : s.Retains history) (calls : List (Call α)) :
    ∃ later, later <:+ history ++ s.emitted calls ∧ (s.run calls).Retains later := by
  induction calls generalizing s history with
  | nil => exact ⟨history, by simp [emitted], h⟩
  | cons call rest ih =>
    cases call with
    | emit frame =>
      obtain ⟨later, hlater, hretains⟩ := ih (h.emit frame)
      refine ⟨later, ?_, hretains⟩
      simpa [emitted] using hlater
    | restart =>
      obtain ⟨later, hlater, hretains⟩ := ih s.retains_restart
      refine ⟨later, ?_, hretains⟩
      exact hlater.trans (suffix_append history _)

theorem range'_of_suffix {l : List Nat} {n : Nat} (h : l <:+ List.range' 1 n) :
    l = List.range' (n + 1 - l.length) l.length := by
  have hlen : l.length ≤ n := by simpa using h.length_le
  have hdrop := suffix_iff_eq_drop.mp h
  rw [drop_range', length_range'] at hdrop
  conv_lhs => rw [hdrop]
  congr 1 <;> omega

theorem Retains.frames_seq (h : s.Retains history) :
    s.frames.map (·.seq) = List.range' (s.seq + 1 - s.frames.length) s.frames.length := by
  have hsuffix : s.frames.map (·.seq) <:+ List.range' 1 s.seq := by
    rw [← h.numbered]
    exact h.held.map (·.seq)
  have hall := range'_of_suffix hsuffix
  rwa [length_map] at hall

theorem Retains.oldest_eq (h : s.Retains history) : s.oldest = s.seq + 1 - s.frames.length := by
  have hseq := h.frames_seq
  cases hframes : s.frames with
  | nil => simp [oldest, hframes]
  | cons e rest =>
    rw [hframes] at hseq
    simp only [oldest, hframes, head?_cons, Option.map_some, Option.getD_some, length_cons]
    exact (List.cons.inj hseq).1

theorem filter_seq_eq_drop {events : List (EventFrame α)} {first : Nat} (bound : Nat)
    (h : events.map (·.seq) = List.range' first events.length) :
    events.filter (bound ≤ ·.seq) = events.drop (bound - first) := by
  induction events generalizing first with
  | nil => simp
  | cons e rest ih =>
    obtain ⟨rfl, hrest⟩ := List.cons.inj h
    rw [filter_cons, ih hrest]
    by_cases hle : bound ≤ e.seq
    · have hfirst : bound - e.seq = 0 := by omega
      have hnext : bound - (e.seq + 1) = 0 := by omega
      simp [hle, hfirst, hnext]
    · have hlater : bound - e.seq = (bound - (e.seq + 1)) + 1 := by omega
      simp [hle, hlater]

theorem Retains.filter_frames
    (h : s.Retains history) {bound : Nat} (hlow : s.oldest ≤ bound) (hhigh : bound ≤ s.seq + 1) :
    s.frames.filter (bound ≤ ·.seq) <:+ s.frames ∧
      (s.frames.filter (bound ≤ ·.seq)).map (·.seq) = List.range' bound (s.seq + 1 - bound) := by
  rw [h.oldest_eq] at hlow
  have hlen : s.frames.length ≤ s.seq := by
    rw [h.size]
    exact Nat.min_le_right ..
  rw [filter_seq_eq_drop bound h.frames_seq]
  refine ⟨drop_suffix .., ?_⟩
  rw [map_drop, h.frames_seq, drop_range']
  congr 1 <;> omega

variable (s)

theorem position_le (calls : List (Call α)) :
    s.generation < (s.run calls).generation ∨
      (s.generation = (s.run calls).generation ∧ s.seq ≤ (s.run calls).seq) := by
  induction calls generalizing s with
  | nil => exact .inr ⟨rfl, le_refl _⟩
  | cons call rest ih =>
    cases call with
    | emit frame =>
      rcases ih (s.emit frame) with hlt | ⟨heq, hle⟩
      · exact .inl hlt
      · exact .inr ⟨heq, (Nat.le_succ _).trans hle⟩
    | restart =>
      left
      have hstart : s.generation < s.restart.generation := Nat.lt_succ_self _
      rcases ih s.restart with hlt | ⟨heq, -⟩
      · exact hstart.trans hlt
      · exact hstart.trans_eq heq

theorem run_keeps (calls : List (Call α)) :
    (s.run calls).ringSize = s.ringSize ∧ (s.run calls).resyncQueries = s.resyncQueries := by
  induction calls generalizing s with
  | nil => exact ⟨rfl, rfl⟩
  | cons call rest ih =>
    cases call with
    | emit frame => exact ih (s.emit frame)
    | restart => exact ih s.restart

variable {s} {lastSeq : Nat}

/-- A replay for a position of the current generation: what is sent and what is reported missing are
the numbers after the position. -/
theorem Retains.replay_current (h : s.Retains history) (hpos : lastSeq ≤ s.seq) :
    (s.replay lastSeq s.generation).events <:+ s.frames ∧
      (s.replay lastSeq s.generation).missing ++ (s.replay lastSeq s.generation).events.map
        (·.seq) = List.range' (lastSeq + 1) (s.seq - lastSeq) := by
  have hold := h.oldest_eq
  have hlen : s.frames.length ≤ s.seq := by
    rw [h.size]
    exact Nat.min_le_right ..
  by_cases hgap : lastSeq + 1 < s.oldest
  · obtain ⟨hsuffix, hnumbers⟩ := h.filter_frames (le_refl s.oldest) (by omega)
    simp only [replay, ne_eq, not_true_eq_false, if_false, if_pos hgap, EventReplay.missing]
    refine ⟨hsuffix, ?_⟩
    rw [hnumbers]
    have hcut : s.oldest = (lastSeq + 1) + (s.oldest - 1 + 1 - (lastSeq + 1)) := by omega
    conv_lhs =>
      rhs
      rw [hcut]
    rw [range'_append_1]
    congr 1
    omega
  · obtain ⟨hsuffix, hnumbers⟩ := h.filter_frames (Nat.not_lt.mp hgap) (Nat.succ_le_succ hpos)
    simp only [replay, ne_eq, not_true_eq_false, if_false, if_neg hgap, EventReplay.missing,
      nil_append]
    refine ⟨hsuffix, ?_⟩
    rw [show s.seq - lastSeq = s.seq + 1 - (lastSeq + 1) by omega]
    exact hnumbers

theorem Retains.replay_events (h : s.Retains history) :
    (s.replay lastSeq s.generation).events = s.frames.filter (lastSeq < ·.seq) := by
  simp only [replay, ne_eq, not_true_eq_false, if_false]
  split
  · next hgap =>
    have hsame : ∀ bound ≤ s.oldest, s.frames.filter (bound ≤ ·.seq) = s.frames := by
      intro bound hle
      rw [filter_seq_eq_drop bound h.frames_seq, ← h.oldest_eq, Nat.sub_eq_zero_of_le hle,
        drop_zero]
    exact (hsame _ (le_refl _)).trans (hsame _ hgap.le).symm
  · rfl

theorem Retains.not_mem_missing (h : s.Retains history) {e : EventFrame α} (he : e ∈ s.frames) :
    e.seq ∉ (s.replay lastSeq s.generation).missing := by
  have hseq : e.seq ∈ s.frames.map (·.seq) := mem_map_of_mem he
  rw [h.frames_seq, ← h.oldest_eq, mem_range'_1] at hseq
  simp only [replay, ne_eq, not_true_eq_false, if_false]
  split
  · simp only [EventReplay.missing, mem_range'_1]
    omega
  · exact not_mem_nil

theorem Retains.replay_held
    (h : s.Retains history) {generation : Nat}
    (hpos : generation = s.generation → lastSeq ≤ s.seq) :
    (s.replay lastSeq generation).events <:+ s.frames := by
  by_cases hgen : generation = s.generation
  · rw [hgen]
    exact (h.replay_current (hpos hgen)).1
  · simp [replay, hgen]

theorem replay_gap_reset_iff (s : SessionEventStream α) (lastSeq generation : Nat) :
    (s.replay lastSeq generation).gap =
      some (.generationReset generation s.generation s.resyncQueries) ↔
      generation ≠ s.generation := by
  by_cases hgen : generation = s.generation
  · simp only [replay, hgen, ne_eq, not_true_eq_false, if_false, iff_false]
    split <;> simp
  · simp [replay, hgen]

/-- A client comes back with the position that the stream had after `before`.  The stream holds the
last `ringSize` events of its generation.  In the same generation the client is sent all of them
after its position, and these and the reported gap are exactly the numbers it has not seen; the gap
is of numbers no longer held.  When its generation is over it is sent all that is held, and a reset
is reported. -/
theorem replay_covers (generation ringSize : Nat) (queries : List String)
    (before after : List (Call α)) :
    let start : SessionEventStream α := create generation ringSize queries
    let client := start.run before
    let s := start.run (before ++ after)
    let sent := s.replay client.seq client.generation
    s.frames <:+ start.emitted (before ++ after) ∧ s.frames.length = min ringSize s.seq ∧
      (∀ e ∈ s.frames, e.generation = s.generation) ∧ sent.events <:+ s.frames ∧
      sent.events.map (·.seq) = List.range' (s.seq + 1 - sent.events.length) sent.events.length ∧
      (client.generation = s.generation →
        sent.events = s.frames.filter (client.seq < ·.seq) ∧
        sent.missing ++ sent.events.map (·.seq) =
          List.range' (client.seq + 1) (s.seq - client.seq) ∧
        ∀ e ∈ s.frames, e.seq ∉ sent.missing) ∧
      (client.generation < s.generation → sent.events = s.frames) ∧
      (sent.gap = some (.generationReset client.generation s.generation queries) ↔
        client.generation < s.generation) := by
  intro start client s sent
  obtain ⟨history, hhistory, hretains⟩ :=
    (retains_create generation ringSize queries : start.Retains []).run (before ++ after)
  have hrun : s = client.run after := start.run_append before after
  have hmoved := client.position_le after
  rw [← hrun] at hmoved
  have hpos : client.generation = s.generation → client.seq ≤ s.seq := by
    intro hgen
    rcases hmoved with hlt | ⟨-, hle⟩
    · omega
    · exact hle
  have hsize := hretains.size
  rw [(start.run_keeps (before ++ after)).1] at hsize
  refine ⟨hretains.held.trans hhistory, hsize,
    fun e he => hretains.current e (hretains.held.subset he),
    hretains.replay_held hpos, ?_, fun hgen => ⟨?_, ?_, ?_⟩, fun hlt => ?_, ?_⟩
  · have hnumbers : sent.events.map (·.seq) <:+ List.range' 1 s.seq := by
      rw [← hretains.numbered]
      exact ((hretains.replay_held hpos).trans hretains.held).map (·.seq)
    have hall := range'_of_suffix hnumbers
    rwa [length_map] at hall
  · have hevents : (s.replay client.seq s.generation).events = _ := hretains.replay_events
    rwa [← hgen] at hevents
  · have hcurrent := (hretains.replay_current (hpos hgen)).2
    rwa [← hgen] at hcurrent
  · intro e he
    have hmissing : e.seq ∉ (s.replay client.seq s.generation).missing :=
  hretains.not_mem_missing he
    rwa [← hgen] at hmissing
  · exact congrArg EventReplay.events (if_pos hlt.ne)
  · have hqueries : s.resyncQueries = queries := (start.run_keeps (before ++ after)).2
    have hreset := s.replay_gap_reset_iff client.seq client.generation
    rw [hqueries] at hreset
    refine hreset.trans ⟨fun hne => ?_, fun hlt => hlt.ne⟩
    rcases hmoved with hlt | ⟨heq, -⟩
    · exact hlt
    · exact absurd heq hne

end SessionEventStream

end Vibrato.Host
