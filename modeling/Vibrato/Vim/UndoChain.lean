import Vibrato.Vim.Engine
import Vibrato.Lib.Runs
import Mathlib.Logic.Function.Iterate

/-! The undo stack along runs of the engine. -/

namespace Vibrato.Vim

open Lib List Function

/-- A command of the normal and visual modes and of the prompt, by what it does: the motions,
searches, and yanks only look; `undo` counts with `u`, and `write` with what the host has saved. -/
inductive Command where
  | look (cursor : Position) (register : VimRegister)
      (mode : { mode : VimInputMode // mode ≠ .insert })
  | change (mutator : Mutator)
  | insert (mutator : Mutator) (moveCursorLeftOnEscape : Bool)
  | undo (count : Nat)
  | redo (count : Nat)
  | write (saved : VimBuffer)

def insertText (text : CodeUnits) (b : VimBuffer) : VimBuffer :=
  b.replaceOffsets b.currentOffset b.currentOffset text (b.currentOffset + text.length)

/-- What is typed.  `typed` stands for characters, `CR`, `Tab`, `BS`, `C-w`, and `C-u` in insert
mode. -/
inductive Input where
  | command (command : Command)
  | typed (edit : VimBuffer → VimBuffer)
  | escape
  | oneShot (command : Command) (throws : Bool)

namespace VimEngine

variable (e : VimEngine)

/-- One round of the loop in `#undo`. -/
def undoOne : VimEngine :=
  match e.undoStack with
  | [] => e
  | entry :: rest =>
      { e with undoStack := rest, redoStack := entry :: e.redoStack, buffer := entry.before }

def redoOne : VimEngine :=
  match e.redoStack with
  | [] => e
  | entry :: rest =>
      { e with redoStack := rest, undoStack := entry :: e.undoStack, buffer := entry.after }

def undo (count : Nat) : VimEngine :=
  { undoOne^[count] e with inputMode := .normal, pendingChange := none }

def redo (count : Nat) : VimEngine :=
  { redoOne^[count] e with inputMode := .normal, pendingChange := none }

def execute : Command → VimEngine
  | .look cursor register mode =>
    { e with
      buffer := e.buffer.setCursor cursor
      register
      inputMode := mode }
  | .change mutator => { e.applyAtomicChange mutator with inputMode := .normal }
  | .insert mutator moveCursorLeftOnEscape => e.startInsertChange mutator moveCursorLeftOnEscape
  | .undo count => e.undo count
  | .redo count => e.redo count
  | .write saved =>
      { e with buffer := saved, undoStack := [], redoStack := [], inputMode := .normal }

def step : Input → VimEngine
  | .command command => e.execute command
  | .typed edit =>
    { e with
      buffer := { edit e.buffer with modified := true }
      pendingChange := e.pendingChange.map fun pending => { pending with inserted := true } }
  | .escape => e.exitInsertMode
  | .oneShot command throws =>
    let next := { e with inputMode := .normal }.execute command
    if throws then next else { next with inputMode := .insert }

def Fits : Input → Prop
  | .command _ => e.inputMode ≠ .insert
  | _ => e.inputMode = .insert

end VimEngine

def Input.OnlyLooks : Input → Prop
  | .oneShot (.look ..) throws => throws = false
  | .oneShot .. => False
  | _ => True

/-- Each change starts from the text that the change before it left; undoing changes goes back
through these texts, and redoing as many returns. -/
structure Chained (e : VimEngine) : Prop where
  chain : e.undoStack.IsChain fun later earlier => earlier.after.lines = later.before.lines
  undoes :
    ∀ count ≤ e.undoStack.length, (e.buffer.lines :: e.undoStack.map (·.before.lines))[count]? =
    some (e.undo count).buffer.lines
  redoes : e.inputMode ≠ .insert → ∀ count ≤ e.undoStack.length,
    ((e.undo count).redo count).buffer.lines = e.buffer.lines

def LeadTo (lines : List CodeUnits) : List VimUndoEntry → Prop
  | [] => True
  | entry :: rest => entry.after.lines = lines ∧ LeadTo entry.before.lines rest

def GoOn (lines : List CodeUnits) : List VimUndoEntry → Prop
  | [] => True
  | entry :: rest => entry.before.lines = lines ∧ GoOn entry.after.lines rest

namespace VimEngine

def settledLines (e : VimEngine) : List CodeUnits :=
  match e.pendingChange with
  | some pending => pending.before.lines
  | none => e.buffer.lines

/-- A change is open in insert mode only, and the stacks meet in the text before it. -/
structure Consistent (e : VimEngine) : Prop where
  mode : e.inputMode = .insert ↔ e.pendingChange.isSome
  back : LeadTo e.settledLines e.undoStack
  forth : GoOn e.settledLines e.redoStack

end VimEngine

theorem LeadTo.isChain {lines : List CodeUnits} {entries : List VimUndoEntry}
    (h : LeadTo lines entries) :
    entries.IsChain fun later earlier => earlier.after.lines = later.before.lines := by
  induction entries generalizing lines with
  | nil => exact .nil
  | cons entry rest ih =>
    cases rest with
    | nil => exact .singleton _
    | cons next rest => exact .cons_cons h.2.1 (ih h.2)

namespace VimEngine

variable {e : VimEngine} {pending : PendingChange}

theorem undoOne_linked (hback : LeadTo e.buffer.lines e.undoStack)
    (hforth : GoOn e.buffer.lines e.redoStack) :
    LeadTo e.undoOne.buffer.lines e.undoOne.undoStack ∧
      GoOn e.undoOne.buffer.lines e.undoOne.redoStack := by
  unfold undoOne
  split
  · exact ⟨hback, hforth⟩
  · next heq =>
    rw [heq] at hback
    exact ⟨hback.2, rfl, hback.1 ▸ hforth⟩

theorem redoOne_linked (hback : LeadTo e.buffer.lines e.undoStack)
    (hforth : GoOn e.buffer.lines e.redoStack) :
    LeadTo e.redoOne.buffer.lines e.redoOne.undoStack ∧
      GoOn e.redoOne.buffer.lines e.redoOne.redoStack := by
  unfold redoOne
  split
  · exact ⟨hback, hforth⟩
  · next heq =>
    rw [heq] at hforth
    exact ⟨⟨rfl, hforth.1 ▸ hback⟩, hforth.2⟩

theorem pushUndo_linked {before : VimBuffer} (hback : LeadTo before.lines e.undoStack)
    (hforth : GoOn before.lines e.redoStack) :
    LeadTo e.buffer.lines (e.pushUndo ⟨before, e.buffer⟩).undoStack ∧
      GoOn e.buffer.lines (e.pushUndo ⟨before, e.buffer⟩).redoStack := by
  unfold pushUndo
  split
  · next heq =>
    rw [show before = e.buffer from heq] at hback hforth
    exact ⟨hback, hforth⟩
  · exact ⟨⟨rfl, hback⟩, trivial⟩

theorem Consistent.linked (h : e.Consistent) (hmode : e.inputMode ≠ .insert) :
    e.pendingChange = none ∧ LeadTo e.buffer.lines e.undoStack ∧
      GoOn e.buffer.lines e.redoStack := by
  have hnone : e.pendingChange = none := Option.not_isSome_iff_eq_none.mp (mt h.mode.mpr hmode)
  have hsettled : e.settledLines = e.buffer.lines := by rw [settledLines, hnone]
  exact ⟨hnone, hsettled ▸ h.back, hsettled ▸ h.forth⟩

theorem consistent_of_linked (hmode : e.inputMode ≠ .insert) (hnone : e.pendingChange = none)
    (hlinked : LeadTo e.buffer.lines e.undoStack ∧ GoOn e.buffer.lines e.redoStack) :
    e.Consistent := by
  have hsettled : e.settledLines = e.buffer.lines := by rw [settledLines, hnone]
  exact ⟨iff_of_false hmode (by simp [hnone]), hsettled ▸ hlinked.1, hsettled ▸ hlinked.2⟩

theorem Consistent.opened (h : e.Consistent) (hmode : e.inputMode = .insert) :
    ∃ pending, e.pendingChange = some pending ∧ LeadTo pending.before.lines e.undoStack ∧
      GoOn pending.before.lines e.redoStack := by
  obtain ⟨pending, hpending⟩ := Option.isSome_iff_exists.mp (h.mode.mp hmode)
  have hsettled : e.settledLines = pending.before.lines := by rw [settledLines, hpending]
  exact ⟨pending, hpending, hsettled ▸ h.back, hsettled ▸ h.forth⟩

theorem consistent_of_opened (hmode : e.inputMode = .insert)
    (hpending : e.pendingChange = some pending) (hback : LeadTo pending.before.lines e.undoStack)
    (hforth : GoOn pending.before.lines e.redoStack) : e.Consistent := by
  have hsettled : e.settledLines = pending.before.lines := by rw [settledLines, hpending]
  exact ⟨iff_of_true hmode (by simp [hpending]), hsettled ▸ hback, hsettled ▸ hforth⟩

theorem iterate_linked {f : VimEngine → VimEngine}
    (hf : ∀ {e : VimEngine}, LeadTo e.buffer.lines e.undoStack → GoOn e.buffer.lines e.redoStack →
      LeadTo (f e).buffer.lines (f e).undoStack ∧ GoOn (f e).buffer.lines (f e).redoStack) (count :
        Nat)
    (h : LeadTo e.buffer.lines e.undoStack ∧ GoOn e.buffer.lines e.redoStack) :
    LeadTo (f^[count] e).buffer.lines (f^[count] e).undoStack ∧
      GoOn (f^[count] e).buffer.lines (f^[count] e).redoStack := by
  induction count with
  | zero => exact h
  | succ count ih =>
    rw [iterate_succ_apply']
    exact hf ih.1 ih.2

theorem Consistent.execute (h : e.Consistent) (hmode : e.inputMode ≠ .insert) (command : Command) :
    (e.execute command).Consistent := by
  obtain ⟨hnone, hback, hforth⟩ := h.linked hmode
  have hnormal : VimInputMode.normal ≠ .insert := nofun
  cases command with
  | look cursor register mode => exact consistent_of_linked mode.2 hnone ⟨hback, hforth⟩
  | change mutator =>
    have hlinked : LeadTo (e.mutate mutator).buffer.lines (e.applyAtomicChange mutator).undoStack ∧
        GoOn (e.mutate mutator).buffer.lines (e.applyAtomicChange mutator).redoStack :=
      pushUndo_linked hback hforth
    rw [← applyAtomicChange_buffer] at hlinked
    exact consistent_of_linked hnormal ((pushUndo_pendingChange _ _).trans hnone) hlinked
  | insert mutator left => exact ⟨iff_of_true rfl rfl, hback, hforth⟩
  | undo count =>
      exact consistent_of_linked hnormal rfl (iterate_linked undoOne_linked count ⟨hback, hforth⟩)
  | redo count =>
      exact consistent_of_linked hnormal rfl (iterate_linked redoOne_linked count ⟨hback, hforth⟩)
  | write saved => exact consistent_of_linked hnormal hnone ⟨trivial, trivial⟩

theorem commitPendingChange_consistent (hmode : e.inputMode ≠ .insert)
    (hpending : e.pendingChange = some pending) (hback : LeadTo pending.before.lines e.undoStack)
    (hforth : GoOn pending.before.lines e.redoStack) : e.commitPendingChange.Consistent := by
  rw [commitPendingChange, hpending]
  refine consistent_of_linked ?_ rfl ?_
  · rw [pushUndo_inputMode]
    exact hmode
  · rw [pushUndo_buffer]
    exact pushUndo_linked hback hforth

/-- An input that fits the mode keeps the engine consistent, if one-shot commands only look. -/
theorem Consistent.step (h : e.Consistent) {input : Input} (hfits : e.Fits input)
    (hlooks : input.OnlyLooks) :
    (e.step input).Consistent := by
  cases input with
  | command command => exact h.execute hfits command
  | typed edit =>
    obtain ⟨pending, hpending, hback, hforth⟩ := h.opened hfits
    have hopen : (e.step (.typed edit)).pendingChange = some { pending with inserted := true } := by
      simp only [VimEngine.step, hpending, Option.map_some]
    exact consistent_of_opened hfits hopen hback hforth
  | escape =>
    obtain ⟨pending, hpending, hback, hforth⟩ := h.opened hfits
    have hnormal : VimInputMode.normal ≠ .insert := by rintro ⟨⟩
    exact commitPendingChange_consistent hnormal hpending hback hforth
  | oneShot command throws =>
    cases command with
    | look cursor register mode =>
      obtain rfl : throws = false := hlooks
      obtain ⟨pending, hpending, hback, hforth⟩ := h.opened hfits
      exact consistent_of_opened rfl hpending hback hforth
    | change _ | insert _ _ | undo _ | redo _ | write _ => exact hlooks.elim

theorem undoes (e : VimEngine) {count : Nat} (hle : count ≤ e.undoStack.length) :
    (e.buffer.lines :: e.undoStack.map (·.before.lines))[count]? =
      some (e.undo count).buffer.lines := by
  have hiterate : ∀ e : VimEngine, count ≤ e.undoStack.length →
      (e.buffer.lines :: e.undoStack.map (·.before.lines))[count]? =
        some (undoOne^[count] e).buffer.lines := by
    clear hle e
    induction count with
    | zero => exact fun _ _ => rfl
    | succ count ih =>
      intro e hle
      obtain ⟨entry, rest, hstack⟩ :=
        exists_cons_of_length_pos (Nat.lt_of_lt_of_le (Nat.succ_pos _) hle)
      rw [hstack] at hle ⊢
      rw [iterate_succ_apply]
      have hone : e.undoOne =
          { e with
            undoStack := rest, redoStack := entry :: e.redoStack, buffer := entry.before } := by
        rw [undoOne, hstack]
      rw [hone, ← ih _ (Nat.le_of_succ_le_succ hle)]
      rfl
  exact hiterate e hle

theorem redo_undo {count : Nat} (hback : LeadTo e.buffer.lines e.undoStack)
    (hle : count ≤ e.undoStack.length) :
    (redoOne^[count] (undoOne^[count] e)).undoStack = e.undoStack ∧
      (redoOne^[count] (undoOne^[count] e)).redoStack = e.redoStack ∧
      (redoOne^[count] (undoOne^[count] e)).buffer.lines = e.buffer.lines := by
  induction count generalizing e with
  | zero => exact ⟨rfl, rfl, rfl⟩
  | succ count ih =>
    obtain ⟨entry, rest, hstack⟩ :=
      exists_cons_of_length_pos (Nat.lt_of_lt_of_le (Nat.succ_pos _) hle)
    rw [hstack] at hback hle
    have hone : e.undoOne =
        { e with
          undoStack := rest, redoStack := entry :: e.redoStack, buffer := entry.before } := by
      rw [undoOne, hstack]
    obtain ⟨hundo, hredo, -⟩ :=
      ih (e := e.undoOne) (hone ▸ hback.2) (hone ▸ Nat.le_of_succ_le_succ hle)
    rw [iterate_succ_apply', iterate_succ_apply]
    rw [hone] at hundo hredo
    rw [redoOne, hone, hredo]
    exact ⟨by rw [hstack, hundo], rfl, hback.1⟩

theorem redoOne_settled (e : VimEngine) (count : Nat) :
    redoOne^[count] { e with inputMode := .normal, pendingChange := none } =
      { redoOne^[count] e with inputMode := .normal, pendingChange := none } := by
  induction count generalizing e with
  | zero => rfl
  | succ count ih =>
    rw [iterate_succ_apply, iterate_succ_apply, ← ih]
    congr 1
    obtain ⟨buffer, inputMode, register, undoStack, redoStack, pendingChange⟩ := e
    cases redoStack with
    | nil => rfl
    | cons entry rest => rfl

theorem Consistent.chained (h : e.Consistent) : Chained e where
  chain := h.back.isChain
  undoes _ hle := undoes e hle
  redoes hmode count hle := by
    obtain ⟨-, hback, -⟩ := h.linked hmode
    rw [← (redo_undo hback hle).2.2, redo, undo, redoOne_settled]

/-- Where one-shot commands only look, the changes of every state are a chain. -/
theorem run_chained (b : VimBuffer) (inputs : List Input)
    (h : Guarded step (fun e input => e.Fits input ∧ input.OnlyLooks) (ofBuffer b) inputs) :
    Chained (inputs.foldl step (ofBuffer b)) := by
  have hinit : (ofBuffer b).Consistent :=
    consistent_of_linked (nofun : VimInputMode.normal ≠ .insert) rfl ⟨trivial, trivial⟩
  have hconsistent := h.invariant (I := fun _ e => e.Consistent)
    (fun _ _ h hguard => h.step hguard.1 hguard.2) hinit
  exact hconsistent.chained

/-- `x`, `ix`, `C-o`, `l`, `y`, `Esc`: the deletion and the two inserted characters are one change
each. -/
def movesInBetween : List Input :=
  [.command (.change (deleteCharsForward 1)), .command (.insert id true), .typed (insertText [120]),
    .oneShot (.look ⟨0, 2⟩ ⟨.char, [97]⟩ ⟨.normal, fun h => by cases h⟩) false,
      .typed (insertText [121]), .escape]

theorem run_chained_movesInBetween :
    (movesInBetween.foldl step (ofLines [[97, 98, 99]])).buffer.lines = [[120, 98, 121, 99]] ∧
      (movesInBetween.foldl step (ofLines [[97, 98, 99]])).undoStack.map (·.before.lines) =
        [[[98, 99]], [[97, 98, 99]]] ∧
      Chained (movesInBetween.foldl step (ofLines [[97, 98, 99]])) := by
  refine ⟨by decide +kernel, by decide +kernel, run_chained _ movesInBetween ?_⟩
  have hnormal : VimInputMode.normal ≠ .insert := fun h => by cases h
  exact ⟨⟨hnormal, trivial⟩, ⟨hnormal, trivial⟩, ⟨rfl, trivial⟩, ⟨rfl, rfl⟩, ⟨rfl, trivial⟩,
    ⟨rfl, trivial⟩, trivial⟩

/-- `ix`, `C-o`, `x`, `Esc`: the deletion is pushed before the insert, and starts from the text with
`x`. -/
def deletesInBetween : List Input :=
  [.command (.insert id true), .typed (insertText [120]),
    .oneShot (.change (deleteCharsForward 1)) false, .escape]

theorem not_chained_deletesInBetween :
    ¬Chained (deletesInBetween.foldl step (ofLines [[97, 98]])) :=
  fun h => absurd h.chain (by decide)

end VimEngine

end Vibrato.Vim
