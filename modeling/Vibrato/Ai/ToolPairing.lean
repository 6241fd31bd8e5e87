import Vibrato.Ai.ToolWindow

namespace Vibrato.Ai

open List PassState

/-- The state of the second pass before `messages`, when the last assistant message has the calls
`current`, the calls `skipped` are answered as aborted, and `done` are all calls so far. -/
structure PassInv (st : PassState) (current skipped done : List Text) (messages : List Message) :
    Prop where
  window : Window st
  pending : ∀ call ∈ st.pendingToolCalls, call.id ∈ current
  aborted : ∀ call ∈ st.abortedCalls, call.id ∈ current
  current_done : ∀ x ∈ current, x ∈ done
  unanswered : ∀ call ∈ st.abortedCalls, st.toolCallStatus call.id = none
  seen : ∀ x, st.toolCallStatus x ≠ none → x ∈ done
  status_skipped : ∀ x, st.toolCallStatus x = some .aborted → x ∈ skipped
  open_skipped : ∀ call ∈ st.abortedCalls, call.id ∉ leadingResults messages → call.id ∈ skipped
  skipped : ∀ x ∈ skipped, st.toolCallStatus x = some .aborted ∨
    x ∈ st.abortedCalls.map ToolCall.id ∧ x ∉ leadingResults messages

namespace PassInv

variable {st : PassState} {current skipped done : List Text} {messages : List Message}
  {result : ToolResultMessage} {realToolResultIds : List Text}

variable (h : PassInv st current skipped done (.toolResult result :: messages))
include h

theorem drop (hopen : result.toolCallId ∉ st.abortedCalls.map ToolCall.id) :
    PassInv st current skipped done messages := by
  refine ⟨h.window, h.pending, h.aborted, h.current_done, h.unanswered, h.seen, h.status_skipped,
    fun call hcall hnext => ?_, fun x hx => ?_⟩
  · refine h.open_skipped call hcall ?_
    rw [leadingResults, mem_cons, not_or]
    refine ⟨?_, hnext⟩
    rintro heq
    exact hopen (heq ▸ mem_map_of_mem hcall)
  · refine (h.skipped x hx).imp_right fun hright => ⟨hright.1, ?_⟩
    have hnext := hright.2
    rw [leadingResults, mem_cons, not_or] at hnext
    exact hnext.2

theorem resolve (hopen : result.toolCallId ∉ st.abortedCalls.map ToolCall.id)
    (hstatus : st.toolCallStatus result.toolCallId ≠ some .aborted)
    (hcurrent : result.toolCallId ∈ current) :
    PassInv (st.setStatus result.toolCallId .resolved) current skipped done messages := by
  have hdrop := h.drop hopen
  refine ⟨⟨h.window.nodup_pending, h.window.nodup_aborted, h.window.exclusive⟩, h.pending,
    h.aborted,
    h.current_done, fun call hcall => ?_, fun x hx => ?_, fun x hx => ?_, hdrop.open_skipped,
    fun x hx => ?_⟩
  · rw [setStatus_toolCallStatus, if_neg, h.unanswered call hcall]
    rintro heq
    exact hopen (heq ▸ mem_map_of_mem hcall)
  · rw [setStatus_toolCallStatus] at hx
    split at hx
    · next heq => rw [heq]; exact h.current_done _ hcurrent
    · exact h.seen x hx
  · rw [setStatus_toolCallStatus] at hx
    split at hx
    · cases hx
    · exact h.status_skipped x hx
  · rw [setStatus_toolCallStatus]
    rcases hdrop.skipped x hx with hleft | hright
    · left
      rwa [if_neg]
      rintro rfl
      exact hstatus hleft
    · exact .inr hright

theorem answer (hopen : result.toolCallId ∈ st.abortedCalls.map ToolCall.id) :
    PassInv { st.setStatus result.toolCallId .resolved with
        pendingAborted := st.pendingAborted.map fun (timestamp, calls) =>
          (timestamp, calls.filter (·.id ≠ result.toolCallId)) } current skipped done messages := by
  have hcalls : abortedCalls { st.setStatus result.toolCallId .resolved with
      pendingAborted := st.pendingAborted.map fun (timestamp, calls) =>
        (timestamp, calls.filter (·.id ≠ result.toolCallId)) } =
      st.abortedCalls.filter (·.id ≠ result.toolCallId) := by
    rw [abortedCalls, abortedCalls]
    cases st.pendingAborted <;> rfl
  have hstatus : ∀ x, toolCallStatus { st.setStatus result.toolCallId .resolved with
      pendingAborted := st.pendingAborted.map fun (timestamp, calls) =>
        (timestamp, calls.filter (·.id ≠ result.toolCallId)) } x =
      if x = result.toolCallId then some .resolved else st.toolCallStatus x :=
    setStatus_toolCallStatus st result.toolCallId .resolved
  have hnext : ∀ x, x ≠ result.toolCallId → x ∉ leadingResults messages →
      x ∉ leadingResults (.toolResult result :: messages) := by
    intro x hx hx'
    rw [leadingResults, mem_cons, not_or]
    exact ⟨hx, hx'⟩
  refine ⟨⟨h.window.nodup_pending, ?_, ?_⟩, h.pending, fun call hcall => ?_, h.current_done,
    fun call hcall => ?_, fun x hx => ?_, fun x hx => ?_, fun call hcall hlead => ?_,
      fun x hx => ?_⟩
  · rw [hcalls]
    exact h.window.nodup_aborted.sublist (filter_sublist.map _)
  · refine h.window.exclusive.imp_right fun hnone => ?_
    rw [hnone]
    rfl
  · rw [hcalls] at hcall
    exact h.aborted call (mem_filter.1 hcall).1
  · rw [hcalls] at hcall
    obtain ⟨hcall, hne⟩ := mem_filter.1 hcall
    rw [hstatus, if_neg (by simpa using hne), h.unanswered call hcall]
  · rw [hstatus] at hx
    split at hx
    · next heq =>
      obtain ⟨call, hcall, hid⟩ := mem_map.1 hopen
      rw [heq, ← hid]
      exact h.current_done _ (h.aborted call hcall)
    · exact h.seen x hx
  · rw [hstatus] at hx
    split at hx
    · cases hx
    · exact h.status_skipped x hx
  · rw [hcalls] at hcall
    obtain ⟨hcall, hne⟩ := mem_filter.1 hcall
    exact h.open_skipped call hcall (hnext _ (by simpa using hne) hlead)
  · have hne : x ≠ result.toolCallId := by
      rintro rfl
      rcases h.skipped _ hx with hleft | hright
      · obtain ⟨call, hcall, hid⟩ := mem_map.1 hopen
        rw [← hid, h.unanswered call hcall] at hleft
        cases hleft
      · exact hright.2 (by rw [leadingResults]; exact mem_cons_self)
    rw [hstatus, if_neg hne, hcalls]
    refine (h.skipped x hx).imp_right fun hright => ⟨?_, fun hlead => hright.2 ?_⟩
    · obtain ⟨call, hcall, rfl⟩ := mem_map.1 hright.1
      exact mem_map_of_mem (mem_filter.2 ⟨hcall, by simpa using hne⟩)
    · exact mem_cons_of_mem _ hlead

omit h

variable {call : ToolCall}

theorem flushed_current (h : PassInv st current skipped done messages)
    (hcall : call ∈ flushedCalls realToolResultIds st) : call.id ∈ current := by
  rw [flushedCalls] at hcall
  cases haborted : st.pendingAborted with
  | none =>
    rw [haborted] at hcall
    exact h.pending call (mem_filter.1 hcall).1
  | some aborted =>
    rw [haborted] at hcall
    refine h.aborted call ?_
    rw [abortedCalls, haborted]
    exact (mem_filter.1 hcall).1

theorem flushed_of_aborted (h : PassInv st current skipped done messages)
    (hcall : call ∈ st.abortedCalls) :
    st.pendingAborted ≠ none ∧ call ∈ flushedCalls realToolResultIds st := by
  have hnone := h.unanswered call hcall
  rw [abortedCalls] at hcall
  rw [flushedCalls]
  cases haborted : st.pendingAborted with
  | none =>
    rw [haborted] at hcall
    cases hcall
  | some aborted =>
    rw [haborted] at hcall
    exact ⟨by simp, mem_filter.2 ⟨hcall, by simp [hnone]⟩⟩

theorem aborted_of_flushed (haborted : st.pendingAborted ≠ none)
    (hcall : call ∈ flushedCalls realToolResultIds st) : call ∈ st.abortedCalls := by
  rw [flushedCalls] at hcall
  rw [abortedCalls]
  cases hcase : st.pendingAborted with
  | none => exact absurd hcase haborted
  | some aborted =>
    rw [hcase] at hcall
    exact (mem_filter.1 hcall).1

theorem flush (h : PassInv st current skipped done messages) (hnil : leadingResults messages = [])
    (timestamp : Nat) (later : List Message) :
    PassInv (flush realToolResultIds timestamp st).2 current skipped done later := by
  obtain ⟨hpending, haborted⟩ := flush_pending realToolResultIds st timestamp
  have hcalls : (Ai.flush realToolResultIds timestamp st).2.abortedCalls = [] := by
    rw [abortedCalls, haborted]
    rfl
  have hstatus := flush_status realToolResultIds h.window timestamp
  refine ⟨⟨by rw [hpending]; exact nodup_nil, by rw [hcalls]; exact nodup_nil,
    .inl hpending⟩, by simp [hpending], by simp [hcalls], h.current_done, by simp [hcalls],
    fun x hx => ?_, fun x hx => ?_, by simp [hcalls], fun x hx => ?_⟩
  · rw [hstatus] at hx
    split at hx
    · next hmem =>
      obtain ⟨call, hcall, rfl⟩ := mem_map.1 hmem
      exact h.current_done _ (h.flushed_current hcall)
    · exact h.seen x hx
  · rw [hstatus] at hx
    split at hx
    · next hmem =>
      obtain ⟨call, hcall, rfl⟩ := mem_map.1 hmem
      have hsome : st.pendingAborted ≠ none := by
        intro hnone
        simp [hnone] at hx
      exact h.open_skipped call (aborted_of_flushed hsome hcall) (by simp [hnil])
    · exact h.status_skipped x hx
  · left
    rw [hstatus]
    rcases h.skipped x hx with hleft | hright
    · rw [if_neg, hleft]
      intro hmem
      have hnone := (mem_flushedCalls.1 hmem).1
      rw [hnone] at hleft
      cases hleft
    · obtain ⟨call, hcall, rfl⟩ := mem_map.1 hright.1
      obtain ⟨hsome, hflushed⟩ := h.flushed_of_aborted hcall
      rw [if_pos (mem_map_of_mem hflushed), if_neg hsome]

section Assistant

variable {validToolUseIds : List Text} {now : Nat} {message : AssistantMessage}

theorem status_calls (h : PassInv st current skipped done messages)
    (hnodup : (done ++ message.toolCalls.map ToolCall.id).Nodup) {call : ToolCall}
    (hcall : call ∈ message.toolCalls) : st.toolCallStatus call.id = none := by
  by_contra hstatus
  have hnew := (nodup_append.1 hnodup).2.2
  exact hnew _ (h.seen _ hstatus) _ (mem_map_of_mem hcall) rfl

theorem status_of_skipped (h : PassInv st current skipped done messages)
    (haborted : st.pendingAborted = none) {x : Text} (hx : x ∈ skipped) :
    st.toolCallStatus x = some .aborted := by
  refine (h.skipped x hx).resolve_right fun hright => ?_
  rw [abortedCalls, haborted] at hright
  cases hright.1

theorem openPending (h : PassInv st current skipped done messages)
    (haborted : st.pendingAborted = none)
    (hnodup : (done ++ message.toolCalls.map ToolCall.id).Nodup) :
    PassInv { st with pendingToolCalls := message.toolCalls } (message.toolCalls.map ToolCall.id)
      skipped (done ++ message.toolCalls.map ToolCall.id) messages := by
  have hcalls : abortedCalls { st with pendingToolCalls := message.toolCalls } = [] := by
    rw [haborted]
    rfl
  refine ⟨⟨(nodup_append.1 hnodup).2.1, by rw [hcalls]; exact nodup_nil, .inr haborted⟩,
    fun call hcall => mem_map_of_mem hcall, by simp [hcalls],
    fun x hx => mem_append_right _ hx, by simp [hcalls],
    fun x hx => mem_append_left _ (h.seen x hx), h.status_skipped, by simp [hcalls],
    fun x hx => .inl (h.status_of_skipped haborted hx)⟩

theorem openAborted (h : PassInv st current skipped done messages)
    (hpending : st.pendingToolCalls = [])
    (haborted : st.pendingAborted = none)
    (hnodup : (done ++ message.toolCalls.map ToolCall.id).Nodup) (stamp : Nat) :
    PassInv { st with pendingAborted := some (stamp, message.toolCalls) }
      (message.toolCalls.map ToolCall.id)
      (skipped ++ (message.toolCalls.map ToolCall.id).filter (· ∉ leadingResults messages))
      (done ++ message.toolCalls.map ToolCall.id) messages := by
  refine ⟨⟨by rw [hpending]; exact nodup_nil, (nodup_append.1 hnodup).2.1, .inl hpending⟩,
    by simp [hpending], fun call hcall => mem_map_of_mem hcall,
    fun x hx => mem_append_right _ hx, fun call hcall => h.status_calls hnodup hcall,
    fun x hx => mem_append_left _ (h.seen x hx),
    fun x hx => mem_append_left _ (h.status_skipped x hx), fun call hcall hlead => ?_,
    fun x hx => ?_⟩
  · refine mem_append_right _ (mem_filter.2 ⟨mem_map_of_mem hcall, ?_⟩)
    simpa using hlead
  · rcases mem_append.1 hx with hx | hx
    · exact .inl (h.status_of_skipped haborted hx)
    · obtain ⟨hx, hlead⟩ := mem_filter.1 hx
      exact .inr ⟨hx, by simpa using hlead⟩

end Assistant

end PassInv

theorem mem_leadingResults_of_mem_resultsBeforeNote {validToolUseIds openIds : List Text}
    {messages : List Message} {x : Text}
    (h : x ∈ resultsBeforeNote validToolUseIds openIds messages) :
    x ∈ leadingResults messages := by
  induction messages generalizing openIds with
  | nil => cases h
  | cons message messages ih =>
    rcases toolResult_or_leadingResults_nil message messages with ⟨result, rfl⟩ | hnil
    · rw [resultsBeforeNote] at h
      split at h
      · cases h
      · rcases mem_cons.1 h with rfl | h
        · exact mem_cons_self
        · exact mem_cons_of_mem _ (ih h)
    · rw [resultsBeforeNote_of_nil hnil] at h
      cases h

section Pass

variable {realToolResultIds validToolUseIds : List Text} {now : Nat} {st : PassState}
  {current skipped done : List Text} {messages : List Message} {message : AssistantMessage}

variable {call : ToolCall}

theorem count_pending_eq_one_iff (h : PassInv st current skipped done messages)
    (haborted : st.pendingAborted = none)
    (hnodup : (done ++ message.toolCalls.map ToolCall.id).Nodup)
    (hvalid : ∀ call ∈ message.toolCalls, call.id ∈ validToolUseIds)
    (hreal : ∀ x ∈ leadingResults messages, x ∈ realToolResultIds)
    (hcall : call ∈ message.toolCalls) :
    (leadingResults (secondPass realToolResultIds validToolUseIds now messages
        { st with pendingToolCalls := message.toolCalls })).count call.id = 1 ↔
      (leadingResults messages).count call.id = 1 ∨ call.id ∉ realToolResultIds := by
  have hopen := h.openPending haborted hnodup
  have hstatus : ∀ call ∈ message.toolCalls, st.toolCallStatus call.id = none :=
    fun call hcall => h.status_calls hnodup hcall
  rw [count_secondPass_pending hopen.window haborted hvalid
    (fun other hother => by simp [hstatus other hother]) hreal hcall]
  by_cases hmem : call.id ∈ realToolResultIds
  · simp [hmem]
  · have hzero : (leadingResults messages).count call.id = 0 :=
      count_eq_zero.2 fun hlead => hmem (hreal _ hlead)
    simp [hmem, hzero, hstatus call hcall]

theorem count_aborted_eq_one_iff (h : PassInv st current skipped done messages)
    (hpending : st.pendingToolCalls = [])
    (hnodup : (done ++ message.toolCalls.map ToolCall.id).Nodup)
    (hvalid : ∀ x ∈ done ++ message.toolCalls.map ToolCall.id, x ∈ validToolUseIds) (stamp : Nat)
    (hcall : call ∈ message.toolCalls) :
    (leadingResults (secondPass realToolResultIds validToolUseIds now messages
        { st with pendingAborted := some (stamp, message.toolCalls) })).count call.id = 1 ↔
      (resultsBeforeNote validToolUseIds (message.toolCalls.map ToolCall.id) messages).count
        call.id = 1 ∨
        call.id ∉ leadingResults messages := by
  have hstatus : ∀ call ∈ message.toolCalls, st.toolCallStatus call.id = none :=
    fun call hcall => h.status_calls hnodup hcall
  have hid : call.id ∈ message.toolCalls.map ToolCall.id := mem_map_of_mem hcall
  have hwindow : AbortedWindow validToolUseIds
      { st with pendingAborted := some (stamp, message.toolCalls) } stamp message.toolCalls
        call.id :=
    ⟨hpending, rfl, (nodup_append.1 hnodup).2.1, hstatus,
      fun y hy => hvalid y (mem_append_left _ (h.seen y fun hnone => by simp [hnone] at hy)),
      by simp [hstatus call hcall]⟩
  rw [count_secondPass_aborted (hvalid _ (mem_append_right _ hid)) hwindow]
  by_cases hlead : call.id ∈ leadingResults messages
  · simp [hlead]
  · have hzero : (resultsBeforeNote validToolUseIds
        (message.toolCalls.map ToolCall.id) messages).count call.id = 0 :=
      count_eq_zero.2 fun hmem => hlead (mem_leadingResults_of_mem_resultsBeforeNote hmem)
    simp [hlead, hzero, hid]

theorem mem_toolResultIds_of_mem_leadingResults {x : Text} (h : x ∈ leadingResults messages) :
    x ∈ toolResultIds messages := by
  induction messages with
  | nil => cases h
  | cons message messages ih =>
    rcases toolResult_or_leadingResults_nil message messages with ⟨result, rfl⟩ | hnil
    · rcases mem_cons.1 h with rfl | h
      · exact mem_cons_self
      · exact mem_cons_of_mem _ (ih h)
    · rw [hnil] at h
      cases h

theorem pairedFrom_toolResult_iff {result : ToolResultMessage}
    (h : PassInv st current skipped done (.toolResult result :: messages))
    (ih : ∀ {st : PassState}, PassInv st current skipped done messages →
      (PairedFrom current (secondPass realToolResultIds validToolUseIds now messages st) ↔
        InPlaceFrom realToolResultIds validToolUseIds current skipped messages)) :
    PairedFrom current (secondPass realToolResultIds validToolUseIds now
      (.toolResult result :: messages) st) ↔
      InPlaceFrom realToolResultIds validToolUseIds current skipped
        (.toolResult result :: messages) := by
  rw [secondPass_toolResult, passToolResult, InPlaceFrom]
  by_cases hopen : result.toolCallId ∈ st.abortedCalls.map ToolCall.id
  · obtain ⟨call, hcall, hid⟩ := mem_map.1 hopen
    have hcurrent : result.toolCallId ∈ current := hid ▸ h.aborted call hcall
    rw [if_pos (any_eq_true.2 ⟨call, hcall, by simpa using hid⟩), singleton_append, PairedFrom,
      ih (h.answer hopen)]
    simp [hcurrent]
  · have hany : (st.abortedCalls.any fun call => call.id = result.toolCallId) = false := by
      rw [any_eq_false]
      intro call hcall heq
      rw [← of_decide_eq_true heq] at hopen
      exact hopen (mem_map_of_mem hcall)
    rw [hany, if_neg Bool.false_ne_true]
    split
    · next hskip =>
      rw [nil_append, ih (h.drop hopen)]
      simp [h.status_skipped _ hskip]
    · next hstatus =>
      split
      · next hinvalid =>
        have hpaired : ∀ pushed : List Message, pushed = [] ∨ pushed = [staleToolResult result] →
            (PairedFrom current
              (pushed ++ secondPass realToolResultIds validToolUseIds now messages st) ↔
              InPlaceFrom realToolResultIds validToolUseIds current skipped messages) := by
          rintro pushed (rfl | rfl)
          · exact ih (h.drop hopen)
          · exact ih (h.drop hopen)
        rw [and_iff_right (fun hmem => absurd hmem hinvalid)]
        split
        · exact hpaired [] (.inl rfl)
        · split
          · exact hpaired [] (.inl rfl)
          · exact hpaired _ (.inr rfl)
      · next hvalid =>
        rw [singleton_append, PairedFrom]
        by_cases hcurrent : result.toolCallId ∈ current
        · rw [ih (h.resolve hopen hstatus hcurrent)]
          simp [hcurrent]
        · have hskipped : result.toolCallId ∉ skipped := fun hmem =>
            (h.skipped _ hmem).elim hstatus fun hright => hopen hright.1
          simp [hcurrent, hskipped, not_not.1 hvalid]

theorem pairedFrom_flush_iff {timestamp : Nat} {tail : List Message}
    (h : PassInv st current skipped done messages)
    (heq : secondPass realToolResultIds validToolUseIds now messages st =
      (flush realToolResultIds timestamp st).1 ++ tail) :
    PairedFrom current (secondPass realToolResultIds validToolUseIds now messages st) ↔
      PairedFrom current tail := by
  rw [heq]
  exact pairedFrom_flush_append h.window (fun call hcall => h.flushed_current hcall) timestamp tail

variable (content : List Part)

theorem secondPass_user (timestamp : Nat) :
    secondPass realToolResultIds validToolUseIds now (.user content timestamp :: messages) st =
      (flush realToolResultIds timestamp st).1 ++ .user content timestamp ::
        secondPass realToolResultIds validToolUseIds now messages
          (flush realToolResultIds timestamp st).2 := by
  simp [secondPass, passMessage, Message.timestamp]

theorem secondPass_developer (timestamp : Nat) :
    secondPass realToolResultIds validToolUseIds now (.developer content timestamp :: messages) st =
      (flush realToolResultIds timestamp st).1 ++ .developer content timestamp ::
        secondPass realToolResultIds validToolUseIds now messages
          (flush realToolResultIds timestamp st).2 := by
  simp [secondPass, passMessage, Message.timestamp]

variable (message)

def openWindow (st : PassState) : PassState :=
  if message.isAborted then
    { st with pendingAborted := some (message.timestamp, mapOfCalls message.toolCalls) }
  else { st with pendingToolCalls := message.toolCalls }

theorem secondPass_assistant :
    secondPass realToolResultIds validToolUseIds now (.assistant message :: messages) st =
      (flush realToolResultIds message.timestamp st).1 ++ .assistant message ::
        secondPass realToolResultIds validToolUseIds now messages
          (openWindow message (flush realToolResultIds message.timestamp st).2) := by
  simp [secondPass, passMessage, Message.timestamp, openWindow]

variable {message}

theorem openWindow_spec (now : Nat) (h : PassInv st current skipped done messages)
    (hpending : st.pendingToolCalls = []) (haborted : st.pendingAborted = none)
    (hnodup : (done ++ message.toolCalls.map ToolCall.id).Nodup)
    (hvalid : ∀ x ∈ done ++ message.toolCalls.map ToolCall.id, x ∈ validToolUseIds)
    (hreal : ∀ x ∈ leadingResults messages, x ∈ realToolResultIds) :
    PassInv (openWindow message st) (message.toolCalls.map ToolCall.id)
        (skipped ++ abortedIds message messages)
          (done ++ message.toolCalls.map ToolCall.id) messages ∧
      ∀ call ∈ message.toolCalls,
        ((leadingResults (secondPass realToolResultIds validToolUseIds now messages
          (openWindow message st))).count call.id = 1 ↔
        CallAnswered realToolResultIds validToolUseIds message messages call.id) := by
  have hids := (nodup_append.1 hnodup).2.1
  cases hcase : message.isAborted with
  | true =>
    simp only [openWindow, abortedIds, CallAnswered, hcase, if_true, mapOfCalls_of_nodup hids]
    exact ⟨h.openAborted hpending haborted hnodup message.timestamp, fun call hcall =>
      count_aborted_eq_one_iff h hpending hnodup hvalid message.timestamp hcall⟩
  | false =>
    simp only [openWindow, abortedIds, CallAnswered, hcase, Bool.false_eq_true, if_false,
      append_nil]
    refine ⟨h.openPending haborted hnodup, fun call hcall =>
      count_pending_eq_one_iff h haborted hnodup (fun other hother => ?_) hreal hcall⟩
    exact hvalid _ (mem_append_right _ (mem_map_of_mem hother))

/-- The second pass pairs the rest of a history if and only if its results are in place. -/
theorem pairedFrom_secondPass_iff (h : PassInv st current skipped done messages)
    (hnodup : (done ++ toolCallIds messages).Nodup)
    (hvalid : ∀ x ∈ done ++ toolCallIds messages, x ∈ validToolUseIds)
    (hreal : ∀ x ∈ toolResultIds messages, x ∈ realToolResultIds) :
    PairedFrom current (secondPass realToolResultIds validToolUseIds now messages st) ↔
      InPlaceFrom realToolResultIds validToolUseIds current skipped messages := by
  induction messages generalizing st current skipped done with
  | nil =>
    have hpass : secondPass realToolResultIds validToolUseIds now [] st =
        (flush realToolResultIds now st).1 ++ [] := by
      rw [secondPass, append_nil]
    rw [pairedFrom_flush_iff h hpass]
    rfl
  | cons message messages ih =>
    cases message with
    | toolResult result =>
      refine pairedFrom_toolResult_iff h fun hinv => ih hinv hnodup hvalid fun x hx => hreal x ?_
      exact mem_cons_of_mem _ hx
    | user content timestamp =>
      rw [pairedFrom_flush_iff h (secondPass_user content timestamp)]
      exact ih (h.flush rfl timestamp messages) hnodup hvalid hreal
    | developer content timestamp =>
      rw [pairedFrom_flush_iff h (secondPass_developer content timestamp)]
      exact ih (h.flush rfl timestamp messages) hnodup hvalid hreal
    | assistant message =>
      have hsplit : toolCallIds (.assistant message :: messages) =
          message.toolCalls.map ToolCall.id ++ toolCallIds messages := rfl
      rw [hsplit, ← append_assoc] at hnodup hvalid
      obtain ⟨hpending, haborted⟩ := flush_pending realToolResultIds st message.timestamp
      replace hreal : ∀ x ∈ toolResultIds messages, x ∈ realToolResultIds := hreal
      obtain ⟨hinv, hcalls⟩ := openWindow_spec now (h.flush rfl message.timestamp messages)
        hpending haborted (nodup_append.1 hnodup).1
        (fun x hx => hvalid x (mem_append_left _ hx))
        (fun x hx => hreal x (mem_toolResultIds_of_mem_leadingResults hx))
      rw [pairedFrom_flush_iff h (secondPass_assistant message), PairedFrom,
        ih hinv hnodup hvalid hreal]
      exact and_congr_left fun _ => forall₂_congr hcalls

end Pass

/-- When tool-call ids are unique after normalization, the output pairs calls and results if and
only if each call of the transformed history has one result directly after its message (or none at
all; for an aborted message, none directly after it), and each result belongs to the last assistant
message before it, or to an aborted call that was answered before. -/
theorem transformMessages_wellPaired_iff (model : Model)
    (normalizeToolCallId : Option (Text → AssistantMessage → Text)) (options : TransformOptions)
    (now : Nat) (messages : List Message)
    (hunique : (toolCallIds (transformed model normalizeToolCallId options messages)).Nodup) :
    WellPaired (transformMessages model normalizeToolCallId options now messages) ↔
      ResultsInPlace (transformed model normalizeToolCallId options messages) := by
  have hstart :
      PassInv start [] [] [] (transformed model normalizeToolCallId options messages) := by
    have hcalls : start.abortedCalls = [] := rfl
    exact ⟨⟨nodup_nil, nodup_nil, .inl rfl⟩, by simp [start], by simp [hcalls],
      by simp, by simp [hcalls], by simp [start], by simp [start],
      by simp [hcalls], by simp⟩
  exact pairedFrom_secondPass_iff hstart hunique (fun x hx => hx) (fun x hx => hx)

def callMessage (id : String) (stopReason : StopReason) : Message :=
  .assistant ⟨[.toolCall ⟨id.toList, "read".toList, [], none⟩], ANTHROPIC_MESSAGES,
    "anthropic".toList, "claude".toList, ⟨0, 0, 0, 0, 0⟩, stopReason, 1⟩

def resultMessage (id : String) (timestamp : Nat) : Message :=
  .toolResult ⟨id.toList, "read".toList, [.text "ok".toList], false, timestamp⟩

def claude : Model := ⟨ANTHROPIC_MESSAGES, "anthropic".toList, "claude".toList⟩

/-- The late result of an aborted call is dropped for the synthetic one, and the result of the next
call is in place. -/
def abortedHistory : List Message :=
  [callMessage "t1" .aborted, .user [.text "go on".toList] 2, resultMessage "t1" 3,
    callMessage "t2" .toolUse, resultMessage "t2" 4]

theorem transformMessages_wellPaired_aborted :
    (toolCallIds (transformed claude none ⟨false, false⟩ abortedHistory)).Nodup ∧
      WellPaired (transformMessages claude none ⟨false, false⟩ 9 abortedHistory) := by
  have hunique : (toolCallIds (transformed claude none ⟨false, false⟩ abortedHistory)).Nodup := by
    decide +kernel
  refine ⟨hunique,
    (transformMessages_wellPaired_iff claude none ⟨false, false⟩ 9 abortedHistory hunique).2 ?_⟩
  decide +kernel

def steeredHistory : List Message :=
  [callMessage "t1" .toolUse, .user [.text "wait".toList] 2, resultMessage "t1" 3]

/-- The call gets no synthetic result, since it has a real one, and the real one comes too late. -/
theorem transformMessages_late_result :
    (toolCallIds (transformed claude none ⟨false, false⟩ steeredHistory)).Nodup ∧
      ¬ WellPaired (transformMessages claude none ⟨false, false⟩ 9 steeredHistory) := by
  decide +kernel

end Vibrato.Ai
