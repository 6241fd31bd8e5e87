import Vibrato.Output.Bytes

/-! `TailBuffer` of `session/streaming-output.ts`: the pieces are joined and trimmed lazily, and
still every answer is that of a buffer that keeps everything and cuts once. -/

namespace Vibrato.Output

open Lib Char

structure TailBuffer where
  pending : List Text
  pos : Nat

namespace TailBuffer

def MAX_PENDING : Nat := 10

def empty : TailBuffer := ⟨[], 0⟩

variable (b : TailBuffer)

def compact : TailBuffer := { b with pending := [b.pending.flatten] }

def flush : Text × TailBuffer :=
  match b.pending with
  | [] => ([], b)
  | [piece] => (piece, b)
  | _ => (b.pending.flatten, b.compact)

def trimTo (max : Nat) : TailBuffer :=
  if max = 0 then ⟨[], 0⟩
  else if b.pos ≤ max then b
  else
    let joined := b.flush.1
    let trimmed := truncateTailBytes joined max
    ⟨[trimmed.text], trimmed.bytes⟩

def append (max : Nat) (text : Text) : TailBuffer :=
  if text = [] then b
  else if max = 0 then ⟨[], 0⟩
  else
    let n := byteLength text
    if max ≤ n then
      let trimmed := truncateTailBytes text max
      ⟨[trimmed.text], trimmed.bytes⟩
    else
      let b := { b with pos := b.pos + n }
      let b :=
        if b.pending = [] then { b with pending := [text] }
        else
          let b := { b with pending := b.pending ++ [text] }
          if MAX_PENDING < b.pending.length then b.compact else b
      if max * 2 < b.pos then b.trimTo max else b

/-- `text()`. -/
def text (max : Nat) : Text × TailBuffer := (b.trimTo max).flush

/-- `bytes()`. -/
def bytes (max : Nat) : Nat × TailBuffer := ((b.trimTo max).pos, b.trimTo max)

end TailBuffer

inductive TailCall where
  | append (text : Text)
  | text
  | bytes

inductive TailReply where
  | appended
  | text (text : Text)
  | bytes (bytes : Nat)

def TailBuffer.call (max : Nat) (b : TailBuffer) : TailCall → TailReply × TailBuffer
  | .append text => (.appended, b.append max text)
  | .text => (.text (b.text max).1, (b.text max).2)
  | .bytes => (.bytes (b.bytes max).1, (b.bytes max).2)

def TailBuffer.replies (max : Nat) : TailBuffer → List TailCall → List TailReply
  | _, [] => []
  | b, call :: calls =>
    let (reply, b) := b.call max call
    reply :: b.replies max calls

/-- The longest end of a text, in whole characters, that has at most `max` bytes. -/
structure IsLongestTail (max : Nat) (whole tail : Text) : Prop where
  isSuffix : tail <:+ whole
  fits : byteLength tail ≤ max
  longest : ∀ other, other <:+ whole → byteLength other ≤ max → other <:+ tail

def Answers (max : Nat) : Text → List TailCall → List TailReply → Prop
  | _, [], [] => True
  | seen, .append text :: calls, .appended :: replies => Answers max (seen ++ text) calls replies
  | seen, .text :: calls, .text tail :: replies =>
    IsLongestTail max seen tail ∧ Answers max seen calls replies
  | seen, .bytes :: calls, .bytes bytes :: replies =>
    (∃ tail, IsLongestTail max seen tail ∧ bytes = byteLength tail) ∧ Answers max seen calls replies
  | _, _, _ => False

theorem isLongestTail_lastBudget (max : Nat) (whole : Text) :
    IsLongestTail max whole (lastBudget utf8Size max whole) :=
  ⟨lastBudget_isSuffix utf8Size max whole, totalWeight_lastBudget_le utf8Size max whole,
    fun _ hother hfits => isSuffix_lastBudget utf8Size hother hfits⟩

namespace TailBuffer

/-- The pieces hold enough of what was seen: under the budget they end as it does. -/
structure Holds (max : Nat) (b : TailBuffer) (seen : Text) : Prop where
  pos : b.pos = byteLength b.pending.flatten
  tail : lastBudget utf8Size max b.pending.flatten = lastBudget utf8Size max seen

variable {max : Nat} {b : TailBuffer} {seen : Text}

theorem Holds.empty (max : Nat) : TailBuffer.empty.Holds max [] := ⟨rfl, rfl⟩

theorem Holds.trimmed (max : Nat) (seen : Text) :
    Holds max ⟨[lastBudget utf8Size max seen],
      byteLength (lastBudget utf8Size max seen)⟩ seen := by
  refine ⟨by simp, ?_⟩
  rw [List.flatten_singleton]
  exact lastBudget_eq_self _ (totalWeight_lastBudget_le utf8Size max seen)

theorem lastBudget_zero (seen : Text) : lastBudget utf8Size 0 seen = [] := by
  rw [lastBudget, takeBudget_zero]
  rfl

variable (b)

theorem flush_text : b.flush.1 = b.pending.flatten := by
  unfold flush
  split
  · next hpending => rw [hpending]; rfl
  · next piece hpending => rw [hpending]; simp
  · rfl

theorem flush_pending : b.flush.2.pending.flatten = b.pending.flatten := by
  unfold flush
  split
  · rfl
  · rfl
  · simp [compact]

theorem flush_pos : b.flush.2.pos = b.pos := by
  unfold flush
  split <;> rfl

variable {b}

theorem Holds.flush (h : b.Holds max seen) : b.flush.2.Holds max seen :=
  ⟨by rw [flush_pos, flush_pending]; exact h.pos, by rw [flush_pending]; exact h.tail⟩

theorem Holds.trimTo (h : b.Holds max seen) :
    (b.trimTo max).Holds max seen ∧
      (b.trimTo max).pending.flatten = lastBudget utf8Size max seen := by
  unfold TailBuffer.trimTo
  split
  · next hzero =>
    subst hzero
    rw [lastBudget_zero]
    exact ⟨⟨rfl, by rw [lastBudget_zero, lastBudget_zero]⟩, rfl⟩
  · split
    · next hfits =>
      refine ⟨h, ?_⟩
      rw [← h.tail]
      exact (lastBudget_eq_self _ (by rw [h.pos] at hfits; exact hfits)).symm
    · dsimp only
      rw [truncateTailBytes_eq, flush_text, h.tail]
      exact ⟨Holds.trimmed max seen, by simp⟩

theorem Holds.tail_append (h : b.Holds max seen) (text : Text) :
    lastBudget utf8Size max (b.pending.flatten ++ text) =
      lastBudget utf8Size max (seen ++ text) := by
  rw [← lastBudget_lastBudget_append, h.tail, lastBudget_lastBudget_append]

theorem lastBudget_append_of_le {text : Text} (h : max ≤ byteLength text) (seen : Text) :
    lastBudget utf8Size max (seen ++ text) = lastBudget utf8Size max text := by
  unfold lastBudget
  rw [List.reverse_append]
  rcases Nat.lt_or_eq_of_le h with hlt | heq
  · rw [takeBudget_append_of_lt _ _ (by rw [totalWeight_reverse]; exact hlt)]
  · have hle : totalWeight utf8Size text.reverse ≤ max := by
      rw [totalWeight_reverse, heq]
      exact Nat.le_refl _
    have hrest : max - totalWeight utf8Size text.reverse = 0 := by
      rw [totalWeight_reverse]
      exact Nat.sub_eq_zero_of_le h
    rw [takeBudget_append_of_le _ _ hle, hrest, takeBudget_zero, takeBudget_eq_self _ hle,
      List.append_nil]

theorem Holds.append (h : b.Holds max seen) (text : Text) :
    (b.append max text).Holds max (seen ++ text) := by
  unfold TailBuffer.append
  by_cases hempty : text = []
  · rw [hempty, List.append_nil]
    exact h
  · rw [if_neg hempty]
    by_cases hzero : max = 0
    · subst hzero
      exact ⟨rfl, by rw [lastBudget_zero, lastBudget_zero]⟩
    · rw [if_neg hzero]
      dsimp only
      by_cases hfull : max ≤ byteLength text
      · rw [if_pos hfull, truncateTailBytes_eq, ← lastBudget_append_of_le hfull seen]
        exact Holds.trimmed max (seen ++ text)
      · rw [if_neg hfull]
        -- The piece is added, joined with the others or not; only then may the pieces be trimmed.
        have hadded : ∀ b' : TailBuffer, b'.pending.flatten = b.pending.flatten ++ text →
            b'.pos = b.pos + byteLength text → b'.Holds max (seen ++ text) := by
          intro b' hpending hpos
          refine ⟨?_, by rw [hpending]; exact h.tail_append text⟩
          rw [hpos, hpending, byteLength_append, h.pos]
        have htrimmed : ∀ b' : TailBuffer, b'.Holds max (seen ++ text) →
            (if max * 2 < b'.pos then b'.trimTo max else b').Holds max (seen ++ text) := by
          intro b' hb'
          split
          · exact hb'.trimTo.1
          · exact hb'
        apply htrimmed
        split
        · next hnone => exact hadded _ (by simp [hnone]) rfl
        · split
          · exact hadded _ (by simp [compact]) rfl
          · exact hadded _ (by simp) rfl

theorem Holds.answers (h : b.Holds max seen) (calls : List TailCall) :
    Answers max seen calls (b.replies max calls) := by
  induction calls generalizing b seen with
  | nil => trivial
  | cons call calls ih =>
    obtain ⟨htrim, htail⟩ := h.trimTo
    cases call with
    | append text => exact ih (h.append text)
    | text =>
      refine ⟨?_, ih htrim.flush⟩
      show IsLongestTail max seen (b.trimTo max).flush.1
      rw [flush_text, htail]
      exact isLongestTail_lastBudget max seen
    | bytes =>
      refine ⟨⟨_, isLongestTail_lastBudget max seen, ?_⟩, ih htrim⟩
      show (b.trimTo max).pos = _
      rw [htrim.pos, htail]

/-- Whatever the calls and their order, the buffer answers as one that keeps everything. -/
theorem replies_answer (max : Nat) (calls : List TailCall) :
    Answers max [] calls (TailBuffer.empty.replies max calls) :=
  (Holds.empty max).answers calls

end TailBuffer

end Vibrato.Output
