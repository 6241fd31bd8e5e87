import Vibrato.Ai.TransformMessages
import Mathlib.Data.List.Nodup
import Mathlib.Data.List.Count

namespace Vibrato.Ai

open List

def leadingResults : List Message → List Text
  | .toolResult result :: messages => result.toolCallId :: leadingResults messages
  | _ => []

@[simp] theorem leadingResults_nil : leadingResults [] = [] := rfl

/-- `current` holds the call ids of the last assistant message. -/
def PairedFrom (current : List Text) : List Message → Prop
  | [] => True
  | .toolResult result :: messages => result.toolCallId ∈ current ∧ PairedFrom current messages
  | .assistant message :: messages =>
    (∀ call ∈ message.toolCalls, (leadingResults messages).count call.id = 1) ∧
      PairedFrom (message.toolCalls.map ToolCall.id) messages
  | .user _ _ :: messages => PairedFrom current messages
  | .developer _ _ :: messages => PairedFrom current messages

def WellPaired (messages : List Message) : Prop := PairedFrom [] messages

instance decidablePairedFrom (current : List Text) : (messages : List Message) →
    Decidable (PairedFrom current messages)
  | [] => isTrue trivial
  | .toolResult _ :: messages =>
    have := decidablePairedFrom current messages
    inferInstanceAs (Decidable (_ ∧ _))
  | .assistant message :: messages =>
    have := decidablePairedFrom (message.toolCalls.map ToolCall.id) messages
    inferInstanceAs (Decidable (_ ∧ _))
  | .user _ _ :: messages => decidablePairedFrom current messages
  | .developer _ _ :: messages => decidablePairedFrom current messages

instance (messages : List Message) : Decidable (WellPaired messages) :=
  decidablePairedFrom [] messages

/-- The results that the messages start with, up to the first one that is shown as a stale note:
one without call and with text, once the calls `openIds` of the aborted message have results. -/
def resultsBeforeNote (validToolUseIds : List Text) : List Text → List Message → List Text
  | openIds, .toolResult result :: messages =>
    if result.toolCallId ∉ validToolUseIds ∧ openIds = [] ∧ staleTexts result ≠ [] then []
    else result.toolCallId :: resultsBeforeNote validToolUseIds
      (openIds.filter (· ≠ result.toolCallId)) messages
  | _, _ => []

/-- A call has one result directly after its message, or none at all (for an aborted message, none
directly after it). -/
def CallAnswered (realToolResultIds validToolUseIds : List Text) (message : AssistantMessage)
    (messages : List Message) (id : Text) : Prop :=
  if message.isAborted then
    (resultsBeforeNote validToolUseIds (message.toolCalls.map ToolCall.id) messages).count id = 1 ∨
      id ∉ leadingResults messages
  else (leadingResults messages).count id = 1 ∨ id ∉ realToolResultIds

def abortedIds (message : AssistantMessage) (messages : List Message) : List Text :=
  if message.isAborted then
    (message.toolCalls.map ToolCall.id).filter (· ∉ leadingResults messages)
  else []

/-- Every call is answered, and every result of a call belongs to the last assistant message
(`current`) or to an aborted call that was answered before it (`skipped`). -/
def InPlaceFrom (realToolResultIds validToolUseIds : List Text) (current skipped : List Text) :
    List Message → Prop
  | [] => True
  | .toolResult result :: messages =>
    (result.toolCallId ∈ validToolUseIds → result.toolCallId ∈ current ∨
      result.toolCallId ∈ skipped) ∧
      InPlaceFrom realToolResultIds validToolUseIds current skipped messages
  | .assistant message :: messages =>
    (∀ call ∈ message.toolCalls,
      CallAnswered realToolResultIds validToolUseIds message messages call.id) ∧
      InPlaceFrom realToolResultIds validToolUseIds (message.toolCalls.map ToolCall.id)
        (skipped ++ abortedIds message messages) messages
  | .user _ _ :: messages => InPlaceFrom realToolResultIds validToolUseIds current skipped messages
  | .developer _ _ :: messages =>
    InPlaceFrom realToolResultIds validToolUseIds current skipped messages

def ResultsInPlace (history : List Message) : Prop :=
  InPlaceFrom (toolResultIds history) (toolCallIds history) [] [] history

instance (realToolResultIds validToolUseIds : List Text) (message : AssistantMessage)
    (messages : List Message) (id : Text) :
    Decidable (CallAnswered realToolResultIds validToolUseIds message messages id) :=
  inferInstanceAs (Decidable (ite _ _ _))

instance decidableInPlaceFrom (realToolResultIds validToolUseIds current skipped : List Text) :
    (messages : List Message) →
      Decidable (InPlaceFrom realToolResultIds validToolUseIds current skipped messages)
  | [] => isTrue trivial
  | .toolResult _ :: messages =>
    have := decidableInPlaceFrom realToolResultIds validToolUseIds current skipped messages
    inferInstanceAs (Decidable (_ ∧ _))
  | .assistant message :: messages =>
    have := decidableInPlaceFrom realToolResultIds validToolUseIds
      (message.toolCalls.map ToolCall.id) (skipped ++ abortedIds message messages) messages
    inferInstanceAs (Decidable (_ ∧ _))
  | .user _ _ :: messages =>
    decidableInPlaceFrom realToolResultIds validToolUseIds current skipped messages
  | .developer _ _ :: messages =>
    decidableInPlaceFrom realToolResultIds validToolUseIds current skipped messages

instance (history : List Message) : Decidable (ResultsInPlace history) :=
  decidableInPlaceFrom (toolResultIds history) (toolCallIds history) [] [] history

theorem mapOfCalls_of_nodup {calls : List ToolCall} (h : (calls.map ToolCall.id).Nodup) :
    mapOfCalls calls = calls := by
  suffices hfold : ∀ entries : List ToolCall, ((entries ++ calls).map ToolCall.id).Nodup →
      calls.foldl (fun entries call =>
        if entries.any (·.id = call.id) then
          entries.map fun entry => if entry.id = call.id then call else entry
        else entries ++ [call]) entries = entries ++ calls from hfold [] h
  clear h
  induction calls with
  | nil => simp
  | cons call calls ih =>
    intro entries h
    have hnew : entries.any (·.id = call.id) = false := by
      rw [any_eq_false]
      intro entry hentry heq
      rw [map_append, nodup_append] at h
      exact h.2.2 entry.id (mem_map_of_mem hentry) call.id (by simp) (of_decide_eq_true heq)
    rw [foldl_cons, hnew]
    have hrest := ih (entries ++ [call]) (by simpa using h)
    simpa using hrest

section Synthesize

variable {wanted : ToolCall → Bool} {text : String} {status : ToolCallStatus} {timestamp : Nat}

variable (st : PassState)

theorem setStatus_toolCallStatus (id : Text) (status : ToolCallStatus) (x : Text) :
    (st.setStatus id status).toolCallStatus x = if x = id then some status
      else st.toolCallStatus x := by
  rw [PassState.setStatus]
  by_cases hx : x = id
  · simp [hx]
  · simp [hx]

variable (calls : List ToolCall)

@[simp] theorem synthesize_pendingToolCalls (st : PassState) :
    (synthesize wanted text status timestamp calls st).2.pendingToolCalls =
      st.pendingToolCalls := by
  induction calls generalizing st with
  | nil => rfl
  | cons call calls ih =>
    rw [synthesize]
    split
    · exact ih (st.setStatus call.id status)
    · exact ih st

@[simp] theorem synthesize_pendingAborted (st : PassState) :
    (synthesize wanted text status timestamp calls st).2.pendingAborted = st.pendingAborted := by
  induction calls generalizing st with
  | nil => rfl
  | cons call calls ih =>
    rw [synthesize]
    split
    · exact ih (st.setStatus call.id status)
    · exact ih st

theorem synthesize_status (st : PassState) (x : Text) :
    (synthesize wanted text status timestamp calls st).2.toolCallStatus x =
      if st.toolCallStatus x = none ∧ ∃ call ∈ calls, call.id = x ∧ wanted call = true then
        some status
      else st.toolCallStatus x := by
  induction calls generalizing st with
  | nil => simp [synthesize]
  | cons call calls ih =>
    rw [synthesize]
    split
    · next hpush =>
      rw [Bool.and_eq_true, decide_eq_true_eq] at hpush
      rw [ih, setStatus_toolCallStatus]
      by_cases hx : x = call.id
      · subst hx
        simp [hpush]
      · simp [hx, Ne.symm hx]
    · next hskip =>
      rw [ih]
      by_cases hx : call.id = x
      · subst hx
        by_cases hnone : st.toolCallStatus call.id = none
        · have hwanted : wanted call = false := by simpa [hnone] using hskip
          simp [hwanted]
        · simp [hnone]
      · simp [hx]

theorem synthesize_pushed {calls : List ToolCall} (st : PassState)
    (h : (calls.map ToolCall.id).Nodup) :
    (synthesize wanted text status timestamp calls st).1 =
      (calls.filter fun call => wanted call && st.toolCallStatus call.id = none).map
        (syntheticResult · text timestamp) := by
  induction calls generalizing st with
  | nil => rfl
  | cons call calls ih =>
    obtain ⟨hcall, hnodup⟩ := nodup_cons.1 h
    rw [synthesize]
    split
    · next hpush =>
      have hfilter : (calls.filter fun other => wanted other &&
          (st.setStatus call.id status).toolCallStatus other.id = none) =
          calls.filter fun other => wanted other && st.toolCallStatus other.id = none := by
        refine filter_congr fun other hother => ?_
        rw [setStatus_toolCallStatus, if_neg]
        intro heq
        exact hcall (heq ▸ mem_map_of_mem hother)
      change syntheticResult call text timestamp ::
        (synthesize wanted text status timestamp calls (st.setStatus call.id status)).1 = _
      rw [ih _ hnodup, hfilter, filter_cons, if_pos hpush, map_cons]
    · next hskip => rw [filter_cons, if_neg hskip, ih st hnodup]

end Synthesize

theorem leadingResults_synthetic_append (calls : List ToolCall) (text : String) (timestamp : Nat)
    (messages : List Message) :
    leadingResults (calls.map (syntheticResult · text timestamp) ++ messages) =
      calls.map ToolCall.id ++ leadingResults messages := by
  induction calls with
  | nil => rfl
  | cons call calls ih =>
    rw [map_cons, cons_append, syntheticResult, leadingResults, ih]
    rfl

theorem pairedFrom_synthetic_append {current : List Text} {calls : List ToolCall}
    (h : ∀ call ∈ calls, call.id ∈ current) (text : String) (timestamp : Nat)
    (messages : List Message) :
    PairedFrom current (calls.map (syntheticResult · text timestamp) ++ messages) ↔
      PairedFrom current messages := by
  induction calls with
  | nil => rfl
  | cons call calls ih =>
    obtain ⟨hcall, hcalls⟩ := forall_mem_cons.1 h
    rw [map_cons, cons_append, syntheticResult, PairedFrom, ih hcalls]
    exact and_iff_right hcall

section Flush

variable {realToolResultIds validToolUseIds : List Text} {st : PassState}

def flushedCalls (realToolResultIds : List Text) (st : PassState) : List ToolCall :=
  match st.pendingAborted with
  | none => st.pendingToolCalls.filter fun call =>
      call.id ∉ realToolResultIds && st.toolCallStatus call.id = none
  | some (_, calls) => calls.filter fun call => st.toolCallStatus call.id = none

/-- The open window of a state: the calls of the last assistant message, which was aborted or
not. -/
structure Window (st : PassState) : Prop where
  nodup_pending : (st.pendingToolCalls.map ToolCall.id).Nodup
  nodup_aborted : (st.abortedCalls.map ToolCall.id).Nodup
  exclusive : st.pendingToolCalls = [] ∨ st.pendingAborted = none

theorem flush_of_none (haborted : st.pendingAborted = none) (timestamp : Nat) :
    flush realToolResultIds timestamp st =
      flushPendingToolCalls realToolResultIds timestamp st := by
  simp [flush, flushPendingToolCalls, flushPendingAbortedToolCalls, haborted]

theorem flush_of_nil (hpending : st.pendingToolCalls = []) (timestamp : Nat) :
    flush realToolResultIds timestamp st = flushPendingAbortedToolCalls st := by
  have hst : { st with pendingToolCalls := [] } = st := by
    rw [← hpending]
  simp [flush, flushPendingToolCalls, hpending, synthesize, hst]

theorem flush_pushed (realToolResultIds : List Text) (h : Window st) (timestamp : Nat) :
    ∃ text stamp, (flush realToolResultIds timestamp st).1 =
      (flushedCalls realToolResultIds st).map (syntheticResult · text stamp) ++
        (st.pendingAborted.map fun aborted =>
          Message.developer [.text turnAbortedGuidance] (aborted.1 + 1)).toList := by
  cases haborted : st.pendingAborted with
  | none =>
    refine ⟨"No result provided", timestamp, ?_⟩
    rw [flush_of_none haborted, flushPendingToolCalls, flushedCalls, haborted]
    simpa using synthesize_pushed st h.nodup_pending
  | some aborted =>
    obtain ⟨abortedAt, calls⟩ := aborted
    have hnodup : (calls.map ToolCall.id).Nodup := by
      simpa [PassState.abortedCalls, haborted] using h.nodup_aborted
    refine ⟨"aborted", abortedAt, ?_⟩
    rw [flush_of_nil (h.exclusive.resolve_right (by simp [haborted])), flushPendingAbortedToolCalls,
      flushedCalls, haborted]
    have hpushed : (synthesize (fun _ => true) "aborted" .aborted abortedAt calls st).1 = _ :=
      synthesize_pushed st hnodup
    simp [hpushed]

theorem flush_pending (realToolResultIds : List Text) (st : PassState) (timestamp : Nat) :
    (flush realToolResultIds timestamp st).2.pendingToolCalls = [] ∧
      (flush realToolResultIds timestamp st).2.pendingAborted = none := by
  simp only [flush, flushPendingToolCalls, flushPendingAbortedToolCalls, synthesize_pendingAborted]
  cases st.pendingAborted with
  | none => exact ⟨rfl, by simp⟩
  | some aborted => exact ⟨by simp, rfl⟩

theorem mem_flushedCalls {x : Text} : x ∈ (flushedCalls realToolResultIds st).map ToolCall.id ↔
    st.toolCallStatus x = none ∧
      match st.pendingAborted with
      | none =>
          ∃ call ∈ st.pendingToolCalls, call.id = x ∧ decide (call.id ∉ realToolResultIds) = true
      | some (_, calls) => ∃ call ∈ calls, call.id = x ∧ true = true := by
  rw [flushedCalls, mem_map]
  cases st.pendingAborted with
  | none =>
    simp only [mem_filter, Bool.and_eq_true, decide_eq_true_eq]
    constructor
    · rintro ⟨call, ⟨hcall, hreal, hnone⟩, rfl⟩
      exact ⟨hnone, call, hcall, rfl, hreal⟩
    · rintro ⟨hnone, call, hcall, rfl, hreal⟩
      exact ⟨call, ⟨hcall, hreal, hnone⟩, rfl⟩
  | some aborted =>
    simp only [mem_filter, decide_eq_true_eq]
    constructor
    · rintro ⟨call, ⟨hcall, hnone⟩, rfl⟩
      exact ⟨hnone, call, hcall, rfl, trivial⟩
    · rintro ⟨hnone, call, hcall, rfl, -⟩
      exact ⟨call, ⟨hcall, hnone⟩, rfl⟩

theorem flush_status (realToolResultIds : List Text) (h : Window st) (timestamp : Nat) (x : Text) :
    (flush realToolResultIds timestamp st).2.toolCallStatus x =
      if x ∈ (flushedCalls realToolResultIds st).map ToolCall.id then
        some (if st.pendingAborted = none then .resolved else .aborted)
      else st.toolCallStatus x := by
  cases haborted : st.pendingAborted with
  | none =>
    rw [flush_of_none haborted]
    refine (synthesize_status _ st x).trans (if_congr ?_ rfl rfl)
    rw [mem_flushedCalls, haborted]
  | some aborted =>
    obtain ⟨abortedAt, calls⟩ := aborted
    rw [flush_of_nil (h.exclusive.resolve_right (by simp [haborted])), flushPendingAbortedToolCalls,
      haborted]
    refine (synthesize_status calls st x).trans (if_congr ?_ rfl rfl)
    rw [mem_flushedCalls, haborted]

theorem leadingResults_flush_append (h : Window st) (timestamp : Nat) {tail : List Message}
    (htail : leadingResults tail = []) :
    leadingResults ((flush realToolResultIds timestamp st).1 ++ tail) =
      (flushedCalls realToolResultIds st).map ToolCall.id := by
  obtain ⟨text, stamp, hpushed⟩ := flush_pushed realToolResultIds h timestamp
  rw [hpushed, append_assoc, leadingResults_synthetic_append]
  cases st.pendingAborted with
  | none => simp [htail]
  | some aborted => simp [leadingResults]

theorem pairedFrom_flush_append (h : Window st) {current : List Text}
    (hcurrent : ∀ call ∈ flushedCalls realToolResultIds st, call.id ∈ current) (timestamp : Nat)
    (tail : List Message) :
    PairedFrom current ((flush realToolResultIds timestamp st).1 ++ tail) ↔
      PairedFrom current tail := by
  obtain ⟨text, stamp, hpushed⟩ := flush_pushed realToolResultIds h timestamp
  rw [hpushed, append_assoc, pairedFrom_synthetic_append hcurrent]
  cases st.pendingAborted with
  | none => rfl
  | some aborted => rfl

theorem exists_secondPass_eq_flush (now : Nat) {messages : List Message}
    (h : leadingResults messages = []) (st : PassState) :
    ∃ timestamp tail, secondPass realToolResultIds validToolUseIds now messages st =
      (flush realToolResultIds timestamp st).1 ++ tail ∧ leadingResults tail = [] := by
  cases messages with
  | nil => exact ⟨now, [], by rw [secondPass, append_nil], rfl⟩
  | cons message messages =>
    cases message with
    | toolResult result => cases h
    | user content timestamp =>
      refine ⟨timestamp, .user content timestamp :: secondPass realToolResultIds validToolUseIds now
        messages (flush realToolResultIds timestamp st).2, ?_, rfl⟩
      simp [secondPass, passMessage, Message.timestamp]
    | developer content timestamp =>
      refine ⟨timestamp, .developer content timestamp ::
        secondPass realToolResultIds validToolUseIds
        now messages (flush realToolResultIds timestamp st).2, ?_, rfl⟩
      simp [secondPass, passMessage, Message.timestamp]
    | assistant message =>
      refine ⟨message.timestamp, .assistant message ::
        secondPass realToolResultIds validToolUseIds now messages (if message.isAborted then
          { (flush realToolResultIds message.timestamp st).2 with
            pendingAborted := some (message.timestamp, mapOfCalls message.toolCalls) }
          else { (flush realToolResultIds message.timestamp st).2 with
            pendingToolCalls := message.toolCalls }), ?_, rfl⟩
      simp [secondPass, passMessage, Message.timestamp]

end Flush

section Count

variable {realToolResultIds validToolUseIds : List Text} {now : Nat}

theorem count_filter_ids {calls : List ToolCall} (h : (calls.map ToolCall.id).Nodup)
    (keep : ToolCall → Bool) {call : ToolCall} (hcall : call ∈ calls) :
    ((calls.filter keep).map ToolCall.id).count call.id = if keep call then 1 else 0 := by
  have hnodup : ((calls.filter keep).map ToolCall.id).Nodup :=
    h.sublist (filter_sublist.map _)
  rw [hnodup.count]
  refine if_congr ⟨fun hmem => ?_, fun hkeep => ?_⟩ rfl rfl
  · obtain ⟨other, hother, heq⟩ := mem_map.1 hmem
    obtain ⟨hother, hkeep⟩ := mem_filter.1 hother
    rwa [inj_on_of_nodup_map h hother hcall heq] at hkeep
  · exact mem_map_of_mem (mem_filter.2 ⟨hcall, hkeep⟩)

variable (result : ToolResultMessage)

theorem secondPass_toolResult (messages : List Message) (st : PassState) :
    secondPass realToolResultIds validToolUseIds now (.toolResult result :: messages) st =
      (passToolResult validToolUseIds result st).1 ++
        secondPass realToolResultIds validToolUseIds now messages
          (passToolResult validToolUseIds result st).2 := rfl

theorem leadingResults_staleToolResult (messages : List Message) :
    leadingResults (staleToolResult result :: messages) = [] := rfl

theorem toolResult_or_leadingResults_nil (message : Message) (messages : List Message) :
    (∃ result, message = .toolResult result) ∨ leadingResults (message :: messages) = [] := by
  cases message with
  | toolResult result => exact .inl ⟨result, rfl⟩
  | user content timestamp => exact .inr rfl
  | developer content timestamp => exact .inr rfl
  | assistant message => exact .inr rfl

section Pending

variable {st : PassState} {call : ToolCall}

variable {messages : List Message}

theorem count_flush_pending (hwindow : Window st) (haborted : st.pendingAborted = none)
    (h : leadingResults messages = []) (hcall : call ∈ st.pendingToolCalls) :
    (leadingResults (secondPass realToolResultIds validToolUseIds now messages st)).count call.id =
      if call.id ∉ realToolResultIds ∧ st.toolCallStatus call.id = none then 1 else 0 := by
  obtain ⟨timestamp, tail, heq, htail⟩ := exists_secondPass_eq_flush now h st
  rw [heq, leadingResults_flush_append hwindow timestamp htail, flushedCalls, haborted,
    count_filter_ids hwindow.nodup_pending _ hcall]
  simp

theorem count_secondPass_pending (hwindow : Window st) (haborted : st.pendingAborted = none)
    (hvalid : ∀ call ∈ st.pendingToolCalls, call.id ∈ validToolUseIds)
    (hstatus : ∀ call ∈ st.pendingToolCalls, st.toolCallStatus call.id ≠ some .aborted)
    (hreal : ∀ x ∈ leadingResults messages, x ∈ realToolResultIds)
    (hcall : call ∈ st.pendingToolCalls) :
    (leadingResults (secondPass realToolResultIds validToolUseIds now messages st)).count call.id =
      (leadingResults messages).count call.id +
        if call.id ∉ realToolResultIds ∧ st.toolCallStatus call.id = none then 1 else 0 := by
  induction messages generalizing st with
  | nil =>
    rw [count_flush_pending hwindow haborted rfl hcall, leadingResults_nil, count_nil, zero_add]
  | cons message messages ih =>
    rcases toolResult_or_leadingResults_nil message messages with ⟨result, rfl⟩ | hnil
    · rw [secondPass_toolResult, passToolResult, PassState.abortedCalls, haborted]
      rw [leadingResults, forall_mem_cons] at hreal
      simp only [Option.map_none, Option.getD_none, any_nil, Bool.false_eq_true, if_false]
      split
      · -- The result of an aborted call is dropped; it is none of this window.
        next hskip =>
        have hne : result.toolCallId ≠ call.id := fun heq => hstatus call hcall (heq ▸ hskip)
        rw [nil_append, ih hwindow haborted hvalid hstatus hreal.2 hcall, leadingResults,
          count_cons_of_ne hne]
      · split
        · -- A result without call is dropped while the window is open.
          next hinvalid =>
          have hne : result.toolCallId ≠ call.id := fun heq => hinvalid (heq ▸ hvalid call hcall)
          rw [if_pos (.inl (ne_nil_of_mem hcall)), nil_append,
            ih hwindow haborted hvalid hstatus hreal.2 hcall, leadingResults, count_cons_of_ne hne]
        · have hrest := @ih (st.setStatus result.toolCallId .resolved)
            ⟨hwindow.nodup_pending, hwindow.nodup_aborted, hwindow.exclusive⟩ haborted hvalid
            (fun other hother => ?_) hreal.2 hcall
          · rw [singleton_append, leadingResults, leadingResults, count_cons, hrest,
              setStatus_toolCallStatus]
            by_cases heq : call.id = result.toolCallId
            · simp [heq, hreal.1]
            · simp [heq, Ne.symm heq]
          · rw [setStatus_toolCallStatus]
            split
            · simp
            · exact hstatus other hother
    · rw [count_flush_pending hwindow haborted hnil hcall, hnil, count_nil, zero_add]

end Pending

section Aborted

variable {st : PassState} {stamp : Nat} {calls : List ToolCall} {x : Text}

structure AbortedWindow (validToolUseIds : List Text) (st : PassState) (stamp : Nat)
    (calls : List ToolCall) (x : Text) : Prop where
  pending : st.pendingToolCalls = []
  aborted : st.pendingAborted = some (stamp, calls)
  nodup : (calls.map ToolCall.id).Nodup
  unanswered : ∀ call ∈ calls, st.toolCallStatus call.id = none
  seen : ∀ y, st.toolCallStatus y = some .aborted → y ∈ validToolUseIds
  status : st.toolCallStatus x ≠ some .aborted

theorem AbortedWindow.abortedCalls (h : AbortedWindow validToolUseIds st stamp calls x) :
    st.abortedCalls = calls := by
  rw [PassState.abortedCalls, h.aborted]
  rfl

theorem AbortedWindow.window (h : AbortedWindow validToolUseIds st stamp calls x) : Window st := by
  refine ⟨by rw [h.pending]; exact nodup_nil, ?_, .inl h.pending⟩
  rw [h.abortedCalls]
  exact h.nodup

variable {id : Text} {messages : List Message} {ids later openIds pushed : List Text}
    {result : ToolResultMessage}

theorem AbortedWindow.resolve (h : AbortedWindow validToolUseIds st stamp calls x)
    (hid : id ∉ calls.map ToolCall.id) :
    AbortedWindow validToolUseIds (st.setStatus id .resolved) stamp calls x := by
  refine ⟨h.pending, h.aborted, h.nodup, fun call hcall => ?_, fun y hy => ?_, ?_⟩
  · rw [setStatus_toolCallStatus, if_neg, h.unanswered call hcall]
    intro heq
    exact hid (heq ▸ mem_map_of_mem hcall)
  · rw [setStatus_toolCallStatus] at hy
    split at hy
    · cases hy
    · exact h.seen y hy
  · rw [setStatus_toolCallStatus]
    split
    · simp
    · exact h.status

theorem map_filter_ids (calls : List ToolCall) (id : Text) :
    (calls.filter fun call => call.id ≠ id).map ToolCall.id =
      (calls.map ToolCall.id).filter (· ≠ id) := by
  rw [filter_map]
  rfl

variable (h : AbortedWindow validToolUseIds st stamp calls x)
include h

theorem AbortedWindow.answer (id : Text) :
    AbortedWindow validToolUseIds
      { st.setStatus id .resolved with
        pendingAborted := some (stamp, calls.filter fun call => call.id ≠ id) }
      stamp (calls.filter fun call => call.id ≠ id) x := by
  refine ⟨h.pending, rfl, h.nodup.sublist (filter_sublist.map _), fun call hcall => ?_,
    fun y hy => ?_, ?_⟩
  · obtain ⟨hcall, hne⟩ := mem_filter.1 hcall
    rw [setStatus_toolCallStatus, if_neg (by simpa using hne), h.unanswered call hcall]
  · rw [setStatus_toolCallStatus] at hy
    split at hy
    · cases hy
    · exact h.seen y hy
  · rw [setStatus_toolCallStatus]
    split
    · simp
    · exact h.status

theorem count_flush_aborted (hnil : leadingResults messages = []) :
    (leadingResults (secondPass realToolResultIds validToolUseIds now messages st)).count x =
      if x ∈ calls.map ToolCall.id then 1 else 0 := by
  obtain ⟨timestamp, tail, heq, htail⟩ := exists_secondPass_eq_flush now hnil st
  rw [heq, leadingResults_flush_append h.window timestamp htail, flushedCalls, h.aborted]
  dsimp only
  rw [filter_eq_self.2 (fun call hcall => by simp [h.unanswered call hcall]), h.nodup.count]

omit h

theorem resultsBeforeNote_of_nil
    (h : leadingResults messages = []) :
    resultsBeforeNote validToolUseIds openIds messages = [] := by
  cases messages with
  | nil => rfl
  | cons message messages =>
    cases message with
    | toolResult result => cases h
    | user content timestamp => rfl
    | developer content timestamp => rfl
    | assistant message => rfl

theorem resultsBeforeNote_cons (h : ¬ (result.toolCallId ∉ validToolUseIds ∧ openIds = [] ∧
    staleTexts result ≠ [])) :
    resultsBeforeNote validToolUseIds openIds (.toolResult result :: messages) =
      result.toolCallId :: resultsBeforeNote validToolUseIds
        (openIds.filter (· ≠ result.toolCallId)) messages := by
  rw [resultsBeforeNote, if_neg h]

theorem filter_ne_of_not_mem (h : id ∉ ids) : ids.filter (· ≠ id) = ids := by
  rw [filter_eq_self]
  intro other hother
  rw [decide_eq_true_eq]
  rintro rfl
  exact h hother

theorem count_window_cons (hid : result.toolCallId = id) (h : pushed.count x = later.count x +
      if x ∈ ids.filter (· ≠ id) ∧ x ∉ leadingResults messages then 1 else 0) :
    (id :: pushed).count x = (id :: later).count x +
      if x ∈ ids ∧ x ∉ leadingResults (.toolResult result :: messages) then 1 else 0 := by
  rw [leadingResults, hid, count_cons, h]
  by_cases hx : x = id
  · simp [hx]
  · simp [hx, Ne.symm hx]

theorem count_window_drop (hid : result.toolCallId = id) (hx : id ≠ x)
    (h : pushed.count x = later.count x + if x ∈ ids ∧ x ∉ leadingResults messages then 1 else 0) :
    pushed.count x = (id :: later).count x +
      if x ∈ ids ∧ x ∉ leadingResults (.toolResult result :: messages) then 1 else 0 := by
  rw [leadingResults, hid, count_cons_of_ne hx, h]
  simp [Ne.symm hx]

theorem count_secondPass_aborted (hx : x ∈ validToolUseIds)
    (h : AbortedWindow validToolUseIds st stamp calls x) :
    (leadingResults (secondPass realToolResultIds validToolUseIds now messages st)).count x =
      (resultsBeforeNote validToolUseIds (calls.map ToolCall.id) messages).count x +
        if x ∈ calls.map ToolCall.id ∧ x ∉ leadingResults messages then 1 else 0 := by
  induction messages generalizing st calls with
  | nil =>
    rw [count_flush_aborted h rfl]
    simp [resultsBeforeNote]
  | cons message messages ih =>
    rcases toolResult_or_leadingResults_nil message messages with ⟨result, rfl⟩ | hnil
    · rw [secondPass_toolResult, passToolResult, h.abortedCalls, h.pending]
      by_cases hmem : result.toolCallId ∈ calls.map ToolCall.id
      · have hany : (calls.any fun call => call.id = result.toolCallId) = true := by
          obtain ⟨call, hcall, heq⟩ := mem_map.1 hmem
          exact any_eq_true.2 ⟨call, hcall, by simpa using heq⟩
        have hrest := ih (h.answer result.toolCallId)
        rw [map_filter_ids] at hrest
        rw [if_pos hany, h.aborted, resultsBeforeNote_cons (by simp [ne_nil_of_mem hmem])]
        exact count_window_cons rfl hrest
      · have hany : (calls.any fun call => call.id = result.toolCallId) = false := by
          rw [any_eq_false]
          intro call hcall heq
          rw [← of_decide_eq_true heq] at hmem
          exact hmem (mem_map_of_mem hcall)
        have hfilter := filter_ne_of_not_mem hmem
        rw [hany, if_neg Bool.false_ne_true]
        split
        · -- The result of an earlier aborted call is dropped.
          next hskip =>
          have hne : result.toolCallId ≠ x := fun heq => h.status (heq ▸ hskip)
          rw [resultsBeforeNote_cons (by simp [h.seen _ hskip]), hfilter]
          exact count_window_drop rfl hne (ih h)
        · split
          · next hinvalid =>
            have hne : result.toolCallId ≠ x := fun heq => hinvalid (heq ▸ hx)
            by_cases hnote : calls = [] ∧ staleTexts result ≠ []
            · -- The window is closed, and the stale note ends the results.
              rw [if_neg (by simp [hnote.1]), if_neg hnote.2, resultsBeforeNote,
                if_pos ⟨hinvalid, by simp [hnote.1], hnote.2⟩]
              rw [singleton_append, leadingResults_staleToolResult, hnote.1]
              simp
            · rw [resultsBeforeNote_cons (by simpa [hinvalid] using hnote), hfilter]
              have hpushed :
                (if ([] : List ToolCall) ≠ [] ∨ calls ≠ [] then (([] : List Message), st)
                  else (if staleTexts result = [] then [] else [staleToolResult result], st)) =
                  ([], st) := by
                split
                · rfl
                · next hclosed =>
                  rw [if_pos]
                  by_contra htexts
                  exact hnote ⟨by simpa using hclosed, htexts⟩
              rw [hpushed]
              exact count_window_drop rfl hne (ih h)
          · next hvalid =>
            rw [resultsBeforeNote_cons (by simp [not_not.1 hvalid])]
            have hrest := ih (h.resolve hmem)
            refine count_window_cons rfl ?_
            rw [hfilter]
            exact hrest
    · rw [count_flush_aborted h hnil, hnil, resultsBeforeNote_of_nil hnil]
      simp

end Aborted

end Count

end Vibrato.Ai
