import Vibrato.Edit.ApplyPatch
import Vibrato.Hashline.AllOrNothing
import Vibrato.Lib.LockedWindow

/-! `edit/path-mutation-lock.ts` and the edit modes that reach it: two sessions edit one file, in
steps that any schedule interleaves. -/

namespace Vibrato.Edit

open LockedWindow

section Modes

variable {ε : Type}

/-- What an edit computes from the content it reads. -/
abbrev EditCompute (ε : Type) := LockedWindow.Compute Text ε

abbrev EditProgram (ε : Type) := List (LockedWindow.Action Text ε)

def executeReplaceSingle (compute : EditCompute ε) : EditProgram ε :=
  [.acquire, .read compute, .write, .release]

/-- One entry of the patch mode.  A moved file is gone from its old path. -/
inductive PatchEntry (ε : Type) where
  | create (content : Text)
  | delete (notFound : ε)
  | update (compute : EditCompute ε)
  | move (compute : EditCompute ε)

def PatchEntry.compute : PatchEntry ε → EditCompute ε
  | create content => fun _ => .ok (some (some content))
  | delete notFound => fun
    | none => .error notFound
    | some _ => .ok (some none)
  | update compute => compute
  | move compute => compute

/-- `executePatchSingle`: an update observes the file before it waits for the lock, compares the
file with what it read before it writes, and verifies after the lock that the file has changed. -/
def executePatchSingle (entry : PatchEntry ε) : EditProgram ε :=
  match entry with
  | .create _ | .delete _ => [.acquire, .read entry.compute, .write, .release]
  | .update _ => [.observe, .acquire, .read entry.compute, .check, .write, .release, .verify]
  | .move _ => [.observe, .acquire, .read entry.compute, .check, .write, .release]

def preflightCompute (noChange : ε) (compute : EditCompute ε) : EditCompute ε := fun content => do
  match ← compute content with
  | none => .error noChange
  | some next => return some next

/-- `executeHashlineSingle`, for the sections that name the file. -/
def executeHashlineSections (noChange : ε) : List (EditCompute ε) → EditProgram ε
  | [compute] => [.read compute, .write]
  | sections => sections.map (fun compute => .read (preflightCompute noChange compute)) ++
      sections.flatMap fun compute => [.read compute, .write]

/-- An execution of the edit tool on the file at a resolved path. -/
inductive EditExecution (ε : Type) where
  | replace (path : Text) (edits : List (EditCompute ε))
  | patch (path : Text) (edits : List (PatchEntry ε))
  | hashline (path : Text) (noChange : ε) (sections : List (EditCompute ε))

namespace EditExecution

def path : EditExecution ε → Text
  | replace path _ => path
  | patch path _ => path
  | hashline path _ _ => path

/-- The entries of a replace or patch execution run one after the other, each on its own. -/
def programs : EditExecution ε → List (EditProgram ε)
  | replace _ edits => edits.map executeReplaceSingle
  | patch _ edits => edits.map executePatchSingle
  | hashline _ noChange sections => [executeHashlineSections noChange sections]

def LocksOnce : EditExecution ε → Prop
  | replace _ edits => edits.length = 1
  | patch _ edits => edits.length = 1
  | hashline .. => False

end EditExecution

inductive EditSession where
  | first
  | second
  deriving DecidableEq

variable (exec : EditSession → EditExecution ε)

variable (content : Option Text)

def bothSessions : State EditSession Text Text ε :=
  LockedWindow.init content fun p => (exec p).programs

def interleave (schedule : List (Event EditSession)) : State EditSession Text Text ε :=
  LockedWindow.run (fun p => (exec p).path) (bothSessions exec content) schedule

def oneAfterOther (order : List EditSession) : Option Text :=
  (interleave exec content (LockedWindow.serial (fun p => (exec p).programs) order)).content

/-- If both sessions report success, the file is what they leave one after the other. -/
def Serializable (schedule : List (Event EditSession)) : Prop :=
  ((interleave exec content schedule).proc .first).Succeeded →
  ((interleave exec content schedule).proc .second).Succeeded →
    (interleave exec content schedule).content = oneAfterOther exec content [.first, .second] ∨
    (interleave exec content schedule).content = oneAfterOther exec content [.second, .first]

instance (exec : EditSession → EditExecution ε) (content : Option Text)
    (schedule : List (Event EditSession)) : Decidable (Serializable exec content schedule) :=
  inferInstanceAs (Decidable (_ → _ → _ ∨ _))

theorem locked_executeReplaceSingle (compute : EditCompute ε) :
    Locked compute .before (executeReplaceSingle compute) :=
  .acquire (.read (.write (.release .done)))

theorem locked_executePatchSingle (entry : PatchEntry ε) :
    Locked entry.compute .before (executePatchSingle entry) := by
  cases entry with
  | create content => exact .acquire (.read (.write (.release .done)))
  | delete notFound => exact .acquire (.read (.write (.release .done)))
  | update compute => exact .observe (.acquire (.read (.check (.write (.release (.verify .done))))))
  | move compute => exact .observe (.acquire (.read (.check (.write (.release .done)))))

theorem EditExecution.LocksOnce.exists_locked {exec : EditExecution ε} (h : exec.LocksOnce) :
    ∃ compute acts, exec.programs = [acts] ∧ Locked compute .before acts := by
  cases exec with
  | replace path edits =>
    obtain ⟨compute, rfl⟩ := List.length_eq_one_iff.1 h
    exact ⟨compute, _, rfl, locked_executeReplaceSingle compute⟩
  | patch path edits =>
    obtain ⟨entry, rfl⟩ := List.length_eq_one_iff.1 h
    exact ⟨entry.compute, _, rfl, locked_executePatchSingle entry⟩
  | hashline path noChange sections => cases h

theorem nodup_both {order : List EditSession} (hnodup : order.Nodup)
    (hfirst : EditSession.first ∈ order) (hsecond : EditSession.second ∈ order) :
    order = [.first, .second] ∨ order = [.second, .first] := by
  have hperm : order.Perm [.first, .second] := by
    rw [List.perm_ext_iff_of_nodup hnodup (by decide)]
    intro p
    cases p <;> simp [hfirst, hsecond]
  have hlength := hperm.length_eq
  match order, hlength with
  | [p, q], _ =>
    cases p <;> cases q <;> simp at hnodup ⊢

/-- Two sessions that edit one path in the replace or patch mode, with one entry each, leave what
they leave one after the other, in every schedule in which both succeed. -/
theorem interleave_serializable (exec : EditSession → EditExecution ε) (content : Option Text)
    (hpath : (exec .first).path = (exec .second).path) (hlocks : ∀ p, (exec p).LocksOnce)
    (schedule : List (Event EditSession)) : Serializable exec content schedule := by
  have hkey : ∀ p, (exec p).path = (exec .first).path := by
    intro p
    cases p with
    | first => rfl
    | second => exact hpath.symm
  choose compute acts hprograms hlocked using fun p => (hlocks p).exists_locked
  have hboth : (fun p => (exec p).programs) = fun p => [acts p] := funext hprograms
  intro hfirst hsecond
  unfold oneAfterOther
  unfold interleave bothSessions at *
  rw [hboth] at hfirst hsecond ⊢
  obtain ⟨order, hnodup, hsucceeded, hcontent⟩ := run_eq_serial hkey hlocked content schedule
  rw [hcontent]
  rcases nodup_both hnodup (hsucceeded _ hfirst) (hsucceeded _ hsecond) with rfl | rfl
  · exact .inl rfl
  · exact .inr rfl

def greetings : EditSession → EditExecution Text
  | .first =>
      .replace "/w/a.ts".toList [fun content => .ok (some (content.map (· ++ "hello\n".toList)))]
  | .second =>
      .replace "/w/a.ts".toList [fun content => .ok (some (content.map (· ++ "bye\n".toList)))]

def greetingsSchedule : List (Event EditSession) :=
  [.advance .first, .advance .second, .advance .first, .advance .first, .advance .first,
    .advance .first, .advance .second, .advance .second, .advance .second, .advance .second,
    .advance .second]

theorem interleave_serializable_greetings :
    (greetings .first).path = (greetings .second).path ∧ (∀ p, (greetings p).LocksOnce) ∧
      Serializable greetings (some []) greetingsSchedule ∧
      (interleave greetings (some []) greetingsSchedule).content = some "hello\nbye\n".toList := by
  have hlocks : ∀ p, (greetings p).LocksOnce := by
    intro p
    cases p <;> rfl
  exact ⟨rfl, hlocks, interleave_serializable greetings (some []) rfl hlocks greetingsSchedule,
    by decide +kernel⟩

end Modes

section HashlineMode

open Hashline

/-- What a section of a hashline input computes, with the snapshots that its session has read. -/
def hashlineCompute (session : Hashline.Session) (cache : FileReadCache)
    (sec : HashlineInputSection) :
    EditCompute HashlineError := fun content => do
  let loaded ← loadSection session (fun _ => content) sec
  let lines ← applyOrRecover session (cache.get loaded.absolutePath).1 loaded.normalized
      loaded.edits
  if lines = loaded.normalized then return none
  else return some (some (← serializeSection session (fun _ => content) sec loaded lines))

def appendBoth : EditSession → EditExecution HashlineError
  | .first => appendLine "four".toList
  | .second => appendLine "five".toList
where
  appendLine (line : Text) : EditExecution HashlineError :=
    .hashline "/w/a.ts".toList (.noChange "a.ts".toList)
      [hashlineCompute plainSession Lru.empty ⟨"a.ts".toList, "»EOF\n".toList ++ line⟩]

def bothRead : List (Event EditSession) :=
  [.advance .first, .advance .second, .advance .first, .advance .second, .advance .first,
    .advance .second]

/-- Both sessions succeed, and the line of the first is lost. -/
theorem interleave_hashline_overwrites :
    ¬ Serializable appendBoth (some "one\ntwo\n".toList) bothRead := by
  decide +kernel

end HashlineMode

end Vibrato.Edit
