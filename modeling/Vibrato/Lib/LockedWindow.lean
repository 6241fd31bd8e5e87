import Mathlib.Algebra.GroupWithZero.Nat
import Mathlib.Data.List.Nodup

/-! Processes that change one shared cell. -/

namespace LockedWindow

open List

/-- The cell holds `none` when it does not exist.  A computation fails, asks for no write, or gives
the content to write. -/
abbrev Compute (σ ε : Type*) := Option σ → Except ε (Option (Option σ))

inductive Action (σ ε : Type*) where
  | observe
  | acquire
  | read (compute : Compute σ ε)
  | check
  | write
  | release
  | verify

/-- A process: the programs it has still to run, what it observed before its window, what it read
and what it computed, and whether one of its programs failed. -/
structure Proc (σ ε : Type*) where
  todo : List (List (Action σ ε))
  observed : Option σ
  seen : Option (Option σ)
  next : Option (Option σ)
  failed : Bool

def Proc.start {σ ε : Type*} (programs : List (List (Action σ ε))) : Proc σ ε :=
  ⟨programs, none, none, none, false⟩

def Proc.Succeeded {σ ε : Type*} (proc : Proc σ ε) : Prop :=
  proc.todo.isEmpty = true ∧ proc.failed = false

instance {σ ε : Type*} (proc : Proc σ ε) : Decidable proc.Succeeded :=
  inferInstanceAs (Decidable (_ ∧ _))

structure State (ι κ σ ε : Type*) where
  content : Option σ
  lock : κ → Option ι
  proc : ι → Proc σ ε

open State

/-- A process takes its next action, or gives up waiting for its lock. -/
inductive Event (ι : Type*) where
  | advance (p : ι)
  | giveUp (p : ι)

section Semantics

variable {ι κ σ ε : Type*} [DecidableEq ι] [DecidableEq κ] [DecidableEq σ] (key : ι → κ)

variable (s : State ι κ σ ε)

def State.setProc (p : ι) (proc : Proc σ ε) : State ι κ σ ε :=
  { s with proc := Function.update s.proc p proc }

/-- The end of a failed program: its lock is released, and the process goes on with the programs
after it. -/
def State.fail (p : ι) (later : List (List (Action σ ε))) : State ι κ σ ε :=
  { s.setProc p { s.proc p with todo := later, failed := true } with
    lock := if s.lock (key p) = some p then Function.update s.lock (key p) none else s.lock }

/-- One action of `p`, before the actions `acts` and the programs `later`. -/
def State.perform (p : ι) (acts : List (Action σ ε)) (later : List (List (Action σ ε))) :
    Action σ ε → State ι κ σ ε
  | .observe => s.setProc p { s.proc p with todo := acts :: later, observed := s.content }
  | .acquire =>
    if s.lock (key p) = none then
      { s.setProc p { s.proc p with todo := acts :: later } with
        lock := Function.update s.lock (key p) (some p) }
    else s
  | .read compute =>
    match compute s.content with
    | .ok next =>
      s.setProc p { s.proc p with todo := acts :: later, seen := some s.content, next := next }
    | .error _ => s.fail key p later
  | .check =>
    if (s.proc p).seen = some s.content then
      s.setProc p { s.proc p with todo := acts :: later }
    else s.fail key p later
  | .write =>
    { s.setProc p { s.proc p with todo := acts :: later } with
      content := (s.proc p).next.getD s.content }
  | .release =>
    { s.setProc p { s.proc p with todo := acts :: later } with
      lock := Function.update s.lock (key p) none }
  | .verify =>
    if (s.proc p).observed ≠ none ∧ (s.proc p).next ≠ (s.proc p).seen ∧
        (s.proc p).observed = s.content then s.fail key p later
    else s.setProc p { s.proc p with todo := acts :: later }

def step : Event ι → State ι κ σ ε
  | .advance p =>
    match (s.proc p).todo with
    | [] => s
    | [] :: later => s.setProc p { s.proc p with todo := later }
    | (action :: acts) :: later => s.perform key p acts later action
  | .giveUp p =>
    match (s.proc p).todo with
    | (.acquire :: _) :: later => s.fail key p later
    | _ => s

def run (schedule : List (Event ι)) : State ι κ σ ε := schedule.foldl (step key) s

def init (content : Option σ) (programs : ι → List (List (Action σ ε))) : State ι κ σ ε :=
  ⟨content, fun _ => none, fun p => Proc.start (programs p)⟩

def size (programs : List (List (Action σ ε))) : Nat :=
  (programs.map fun acts => acts.length + 1).sum

def serial (programs : ι → List (List (Action σ ε))) (order : List ι) : List (Event ι) :=
  order.flatMap fun p => List.replicate (size (programs p)) (.advance p)

end Semantics

/-- Where a locked program stands: before it takes the lock, before it reads, before it writes,
before it releases the lock, and after. -/
inductive Stage where
  | before
  | unread
  | computed
  | written
  | after

inductive Locked {σ ε : Type*} (compute : Compute σ ε) : Stage → List (Action σ ε) → Prop
  | observe {acts} : Locked compute .before acts → Locked compute .before (.observe :: acts)
  | acquire {acts} : Locked compute .unread acts → Locked compute .before (.acquire :: acts)
  | read {acts} : Locked compute .computed acts → Locked compute .unread (.read compute :: acts)
  | check {acts} : Locked compute .computed acts → Locked compute .computed (.check :: acts)
  | write {acts} : Locked compute .written acts → Locked compute .computed (.write :: acts)
  | release {acts} : Locked compute .after acts → Locked compute .written (.release :: acts)
  | verify {acts} : Locked compute .after acts → Locked compute .after (.verify :: acts)
  | done : Locked compute .after []

def effect {σ ε : Type*} (compute : Compute σ ε) (content : Option σ) : Except ε (Option σ) :=
  (compute content).map (·.getD content)

theorem effect_eq_ok {σ ε : Type*} {compute : Compute σ ε} {content : Option σ}
    {next : Option (Option σ)} (h : compute content = .ok next) :
    effect compute content = .ok (next.getD content) := by
  rw [effect, h]
  rfl

section Invariant

variable {ι κ σ ε : Type*} [DecidableEq ι] [DecidableEq κ] [DecidableEq σ]
  {key : ι → κ} {k : κ} {compute : ι → Compute σ ε} {content : Option σ} {order : List ι}

def AtStage (k : κ) (compute : Compute σ ε) (s : State ι κ σ ε) (order : List ι) (p : ι) :
    Stage → Prop
  | .before => p ∉ order ∧ s.lock k ≠ some p
  | .unread => p ∉ order ∧ s.lock k = some p
  | .computed => p ∉ order ∧ s.lock k = some p ∧ (s.proc p).seen = some s.content ∧
      compute s.content = .ok (s.proc p).next
  | .written => p ∈ order ∧ s.lock k = some p
  | .after => p ∈ order ∧ s.lock k ≠ some p

def ProcInv (k : κ) (compute : Compute σ ε) (s : State ι κ σ ε) (order : List ι) (p : ι) : Prop :=
  (∃ stage acts, (s.proc p).todo = [acts] ∧ Locked compute stage acts ∧
    AtStage k compute s order p stage) ∨
  ((s.proc p).todo = [] ∧ s.lock k ≠ some p ∧ ((s.proc p).failed = false → p ∈ order))

/-- The content is what the processes of `order` leave one after the other. -/
structure Inv (k : κ) (compute : ι → Compute σ ε) (content : Option σ) (s : State ι κ σ ε)
    (order : List ι) : Prop where
  nodup : order.Nodup
  content_eq : order.foldlM (fun c p => effect (compute p) c) content = .ok s.content
  proc : ∀ p, ProcInv k (compute p) s order p

omit [DecidableEq ι] [DecidableEq κ] [DecidableEq σ] in
theorem ProcInv.frame {compute : Compute σ ε} {s t : State ι κ σ ε} {order orderT : List ι} {q : ι}
    (hproc : t.proc q = s.proc q) (hlock : t.lock k = some q ↔ s.lock k = some q)
    (hcontent : s.lock k = some q → t.content = s.content) (hmem : q ∈ orderT ↔ q ∈ order)
    (h : ProcInv k compute s order q) : ProcInv k compute t orderT q := by
  rcases h with ⟨stage, acts, htodo, hacts, hstage⟩ | ⟨htodo, hfree, hdone⟩
  · refine .inl ⟨stage, acts, by rw [hproc, htodo], hacts, ?_⟩
    cases stage with
    | before => exact ⟨by rw [hmem]; exact hstage.1, by rw [ne_eq, hlock]; exact hstage.2⟩
    | unread => exact ⟨by rw [hmem]; exact hstage.1, by rw [hlock]; exact hstage.2⟩
    | computed =>
      obtain ⟨hq, hheld, hseen, hnext⟩ := hstage
      refine ⟨by rw [hmem]; exact hq, by rw [hlock]; exact hheld, ?_, ?_⟩
      · rw [hproc, hcontent hheld, hseen]
      · rw [hproc, hcontent hheld, hnext]
    | written => exact ⟨by rw [hmem]; exact hstage.1, by rw [hlock]; exact hstage.2⟩
    | after => exact ⟨by rw [hmem]; exact hstage.1, by rw [ne_eq, hlock]; exact hstage.2⟩
  · refine .inr ⟨by rw [hproc, htodo], by rw [ne_eq, hlock]; exact hfree, ?_⟩
    rw [hproc, hmem]
    exact hdone

omit [DecidableEq κ] [DecidableEq σ] in
theorem Inv.update {s t : State ι κ σ ε} {p : ι}
    (h : Inv k compute content s order) (hproc : ∀ q, q ≠ p → t.proc q = s.proc q)
    (hlock : ∀ q, q ≠ p → (t.lock k = some q ↔ s.lock k = some q))
    (hcontent : t.content = s.content) (hp : ProcInv k (compute p) t order p) :
    Inv k compute content t order := by
  refine ⟨h.nodup, by rw [hcontent, h.content_eq], fun q => ?_⟩
  by_cases hq : q = p
  · subst hq
    exact hp
  · exact (h.proc q).frame (hproc q hq) (hlock q hq) (fun _ => hcontent) Iff.rfl

omit [DecidableEq σ] in
theorem Inv.fail {s : State ι κ σ ε} {p : ι} (hkey : key p = k)
    (h : Inv k compute content s order) :
    Inv k compute content (s.fail key p []) order := by
  subst hkey
  refine h.update (p := p) (fun q hq => ?_) (fun q hq => ?_) rfl (.inr ⟨?_, ?_, ?_⟩)
  · simp [fail, setProc, hq]
  · by_cases hheld : s.lock (key p) = some p
    · simp [fail, hheld, Ne.symm hq]
    · simp [fail, hheld]
  · simp [fail, setProc]
  · by_cases hheld : s.lock (key p) = some p
    · simp [fail, hheld]
    · simp [fail, hheld]
  · simp [fail, setProc]

omit [DecidableEq κ] [DecidableEq σ] in
theorem Inv.setProc {s : State ι κ σ ε} {p : ι} {proc : Proc σ ε} {stage : Stage}
    {acts : List (Action σ ε)}
    (h : Inv k compute content s order) (htodo : proc.todo = [acts])
    (hacts : Locked (compute p) stage acts)
    (hstage : AtStage k (compute p) (s.setProc p proc) order p stage) :
    Inv k compute content (s.setProc p proc) order := by
  refine h.update (p := p) (fun q hq => ?_) (fun q hq => Iff.rfl) rfl
    (.inl ⟨stage, acts, ?_, hacts, hstage⟩)
  · simp [State.setProc, hq]
  · simp [State.setProc, htodo]

variable {content : Option σ} {s : State ι κ σ ε} {order : List ι} {p : ι}
    {acts : List (Action σ ε)}

theorem Inv.acquire (hkey : key p = k) (h : Inv k compute content s order)
    (hacts : Locked (compute p) .unread acts) (hp : p ∉ order) :
    Inv k compute content (s.perform key p acts [] .acquire) order := by
  subst hkey
  rw [State.perform]
  split
  · next hfree =>
    refine h.update (p := p) (fun q hq => ?_) (fun q hq => ?_) rfl
      (.inl ⟨.unread, acts, ?_, hacts, hp, ?_⟩)
    · simp [State.setProc, hq]
    · simp [hfree, Ne.symm hq]
    · simp [State.setProc]
    · simp
  · exact h

theorem Inv.write (h : Inv k compute content s order)
    (hacts : Locked (compute p) .written acts)
    (hstage : AtStage k (compute p) s order p .computed) :
    Inv k compute content (s.perform key p acts [] .write) (order ++ [p]) := by
  obtain ⟨hp, hheld, hseen, hnext⟩ := hstage
  refine ⟨?_, ?_, fun q => ?_⟩
  · exact h.nodup.append (nodup_singleton p) (disjoint_singleton.2 hp)
  · rw [foldlM_append, h.content_eq]
    simp only [bind, Except.bind, foldlM_cons, foldlM_nil, effect_eq_ok hnext]
    rfl
  · by_cases hq : q = p
    · subst hq
      refine .inl ⟨.written, acts, ?_, hacts, by simp, ?_⟩
      · simp [State.perform, State.setProc]
      · simpa [State.perform, State.setProc] using hheld
    · -- `p` holds the lock, so that no other process has read the content.
      refine ProcInv.frame (s := s) ?_ Iff.rfl (fun hother => ?_) ?_ (h.proc q)
      · simp [State.perform, State.setProc, hq]
      · exact absurd (Option.some.inj (hother.symm.trans hheld)) hq
      · simp [hq]

theorem Inv.release (hkey : key p = k) (h : Inv k compute content s order)
    (hacts : Locked (compute p) .after acts) (hstage : AtStage k (compute p) s order p .written) :
    Inv k compute content (s.perform key p acts [] .release) order := by
  subst hkey
  obtain ⟨hp, hheld⟩ := hstage
  refine h.update (p := p) (fun q hq => ?_) (fun q hq => ?_) rfl
    (.inl ⟨.after, acts, ?_, hacts, hp, ?_⟩)
  · simp [State.perform, State.setProc, hq]
  · simp [State.perform, hheld, Ne.symm hq]
  · simp [State.perform, State.setProc]
  · simp [State.perform]

theorem Inv.perform {action : Action σ ε} {stage : Stage} (hkey : key p = k)
    (h : Inv k compute content s order) (hacts : Locked (compute p) stage (action :: acts))
    (hstage : AtStage k (compute p) s order p stage) :
    ∃ later, Inv k compute content (s.perform key p acts [] action) later := by
  cases hacts with
  | observe hacts => exact ⟨order, h.setProc rfl hacts hstage⟩
  | acquire hacts => exact ⟨order, h.acquire hkey hacts hstage.1⟩
  | read hacts =>
    refine ⟨order, ?_⟩
    rw [State.perform]
    split
    · next next hnext =>
      refine h.setProc rfl hacts ⟨hstage.1, hstage.2, ?_, ?_⟩
      · simp [State.setProc]
      · simpa [State.setProc] using hnext
    · exact h.fail hkey
  | check hacts =>
    refine ⟨order, ?_⟩
    obtain ⟨hp, hheld, hseen, hnext⟩ := hstage
    rw [State.perform, if_pos hseen]
    refine h.setProc rfl hacts ⟨hp, hheld, ?_, ?_⟩
    · simpa [State.setProc] using hseen
    · simpa [State.setProc] using hnext
  | write hacts => exact ⟨order ++ [p], h.write hacts hstage⟩
  | release hacts => exact ⟨order, h.release hkey hacts hstage⟩
  | verify hacts =>
    refine ⟨order, ?_⟩
    rw [State.perform]
    split
    · exact h.fail hkey
    · exact h.setProc rfl hacts hstage

theorem Inv.advance (hkey : key p = k) (h : Inv k compute content s order) :
    ∃ later, Inv k compute content (step key s (.advance p)) later := by
  rcases h.proc p with ⟨stage, acts, htodo, hacts, hstage⟩ | ⟨htodo, -, -⟩
  · cases acts with
    | nil =>
      cases hacts
      refine ⟨order, ?_⟩
      simp only [step, htodo]
      refine h.update (p := p) (fun q hq => ?_) (fun q hq => Iff.rfl) rfl
        (.inr ⟨?_, hstage.2, fun _ => hstage.1⟩)
      · simp [State.setProc, hq]
      · simp [State.setProc]
    | cons action acts =>
      simp only [step, htodo]
      exact h.perform hkey hacts hstage
  · refine ⟨order, ?_⟩
    simp only [step, htodo]
    exact h

theorem Inv.giveUp (hkey : key p = k) (h : Inv k compute content s order) :
    ∃ later, Inv k compute content (step key s (.giveUp p)) later := by
  refine ⟨order, ?_⟩
  rw [step]
  split
  · next acts later htodo =>
    have hlater : later = [] := by
      rcases h.proc p with ⟨stage, acts, hone, -, -⟩ | ⟨hnone, -, -⟩
      · rw [htodo] at hone
        exact (List.cons.inj hone).2
      · rw [htodo] at hnone
        cases hnone
    rw [hlater]
    exact h.fail hkey
  · exact h

theorem Inv.run (hkey : ∀ p, key p = k) (schedule : List (Event ι))
    (h : Inv k compute content s order) :
    ∃ later, Inv k compute content (run key s schedule) later := by
  induction schedule generalizing s order with
  | nil => exact ⟨order, h⟩
  | cons event schedule ih =>
    obtain ⟨later, hstep⟩ : ∃ later, Inv k compute content (step key s event) later := by
      cases event with
      | advance p => exact h.advance (hkey p)
      | giveUp p => exact h.giveUp (hkey p)
    exact ih hstep

omit [DecidableEq ι] [DecidableEq κ] [DecidableEq σ] in
theorem Inv.init {acts : ι → List (Action σ ε)} (hacts : ∀ p, Locked (compute p) .before (acts p)) :
    Inv k compute content (init content fun p => [acts p]) [] := by
  refine ⟨nodup_nil, rfl, fun p => .inl ⟨.before, acts p, rfl, hacts p, ?_⟩⟩
  exact ⟨not_mem_nil, by simp [LockedWindow.init]⟩

end Invariant

section Serial

variable {ι κ σ ε : Type*} [DecidableEq ι] [DecidableEq κ] [DecidableEq σ] {key : ι → κ}

def Alone (compute : Compute σ ε) (k : κ) (s : State ι κ σ ε) (p : ι) (c : Option σ) : Stage → Prop
  | .before => s.lock k = none ∧ effect compute s.content = .ok c
  | .unread => s.lock k = some p ∧ effect compute s.content = .ok c
  | .computed =>
      s.lock k = some p ∧ (s.proc p).seen = some s.content ∧ c = (s.proc p).next.getD s.content
  | .written => s.lock k = some p ∧ c = s.content
  | .after => s.lock k = none ∧ c = s.content

variable {s : State ι κ σ ε} {p : ι} {compute : Compute σ ε}

theorem run_replicate_finished (h : (s.proc p).todo = []) (n : Nat) :
    run key s (List.replicate n (.advance p)) = s := by
  induction n with
  | zero => rfl
  | succ n ih =>
    rw [replicate_succ, run, foldl_cons]
    simp only [step, h]
    exact ih

omit [DecidableEq σ] in
theorem exists_ok_of_effect {content c : Option σ} (h : effect compute content = .ok c) :
    ∃ next, compute content = .ok next ∧ c = next.getD content := by
  rw [effect] at h
  cases hnext : compute content with
  | error e => rw [hnext] at h; cases h
  | ok next =>
    rw [hnext] at h
    exact ⟨next, rfl, (Except.ok.inj h).symm⟩

theorem run_replicate_succ (s : State ι κ σ ε) (p : ι) (n : Nat) :
    run key s (List.replicate (n + 1) (.advance p)) =
      run key (step key s (.advance p)) (List.replicate n (.advance p)) := by
  rfl

variable {acts : List (Action σ ε)}

theorem step_advance {action : Action σ ε} (htodo : (s.proc p).todo = [action :: acts]) :
    step key s (.advance p) = s.perform key p acts [] action := by
  simp only [step, htodo]

structure Left (key : ι → κ) (s t : State ι κ σ ε) (p : ι) (c : Option σ) : Prop where
  content : t.content = c
  lock : t.lock (key p) = none
  proc : ∀ q, q ≠ p → t.proc q = s.proc q

omit [DecidableEq ι] [DecidableEq κ] [DecidableEq σ] in
theorem Left.trans {s t u : State ι κ σ ε} {p : ι} {c : Option σ}
    (hproc : ∀ q, q ≠ p → t.proc q = s.proc q) (h : Left key t u p c) : Left key s u p c :=
  ⟨h.content, h.lock, fun q hq => (h.proc q hq).trans (hproc q hq)⟩

variable {c : Option σ}

theorem run_alone {stage : Stage} (hacts : Locked compute stage acts)
    (htodo : (s.proc p).todo = [acts]) (h : Alone compute (key p) s p c stage) :
    Left key s (run key s (List.replicate (acts.length + 1) (.advance p))) p c := by
  induction hacts generalizing s with
  | observe hacts ih =>
    rw [run_replicate_succ, step_advance htodo, perform]
    refine Left.trans (fun q hq => ?_) (ih ?_ h)
    · simp [setProc, hq]
    · simp [setProc]
  | acquire hacts ih =>
    obtain ⟨hfree, heffect⟩ := h
    rw [run_replicate_succ, step_advance htodo, perform, if_pos hfree]
    refine Left.trans (fun q hq => ?_) (ih ?_ ⟨?_, heffect⟩)
    · simp [setProc, hq]
    · simp [setProc]
    · simp
  | read hacts ih =>
    obtain ⟨hheld, heffect⟩ := h
    obtain ⟨next, hnext, hc⟩ := exists_ok_of_effect heffect
    rw [run_replicate_succ, step_advance htodo, perform, hnext]
    refine Left.trans (fun q hq => ?_) (ih ?_ ⟨hheld, ?_, ?_⟩)
    · simp [setProc, hq]
    · simp [setProc]
    · simp [setProc]
    · simpa [setProc] using hc
  | check hacts ih =>
    obtain ⟨hheld, hseen, hc⟩ := h
    rw [run_replicate_succ, step_advance htodo, perform, if_pos hseen]
    refine Left.trans (fun q hq => ?_) (ih ?_ ⟨hheld, ?_, ?_⟩)
    · simp [setProc, hq]
    · simp [setProc]
    · simpa [setProc] using hseen
    · simpa [setProc] using hc
  | write hacts ih =>
    obtain ⟨hheld, -, hc⟩ := h
    rw [run_replicate_succ, step_advance htodo, perform]
    refine Left.trans (fun q hq => ?_) (ih ?_ ⟨hheld, hc⟩)
    · simp [setProc, hq]
    · simp [setProc]
  | release hacts ih =>
    obtain ⟨hheld, hc⟩ := h
    rw [run_replicate_succ, step_advance htodo, perform]
    refine Left.trans (fun q hq => ?_) (ih ?_ ⟨?_, hc⟩)
    · simp [setProc, hq]
    · simp [setProc]
    · simp
  | verify hacts ih =>
    obtain ⟨hfree, hc⟩ := h
    rw [run_replicate_succ, step_advance htodo, perform]
    split
    · -- The failed program is over, and its lock was released before.
      rw [run_replicate_finished (by simp [fail, setProc])]
      refine ⟨hc.symm, by simp [fail, hfree], fun q hq => ?_⟩
      simp [fail, setProc, hq]
    · refine Left.trans (fun q hq => ?_) (ih ?_ ⟨hfree, hc⟩)
      · simp [setProc, hq]
      · simp [setProc]
  | done =>
    obtain ⟨hfree, hc⟩ := h
    have hstep : step key s (.advance p) = s.setProc p { s.proc p with todo := [] } := by
      simp only [step, htodo]
    rw [run_replicate_succ, hstep]
    refine ⟨hc.symm, hfree, fun q hq => ?_⟩
    simp [run, setProc, hq]

theorem run_serial {k : κ} {compute : ι → Compute σ ε} {acts : ι → List (Action σ ε)}
    (hkey : ∀ p, key p = k) (hacts : ∀ p, Locked (compute p) .before (acts p)) {order : List ι}
    (hnodup : order.Nodup) (htodo : ∀ p ∈ order, (s.proc p).todo = [acts p])
    (hfree : s.lock k = none)
    (h : order.foldlM (fun c p => effect (compute p) c) s.content = .ok c) :
    (run key s (serial (fun p => [acts p]) order)).content = c := by
  induction order generalizing s with
  | nil => exact Except.ok.inj h
  | cons p order ih =>
    obtain ⟨hp, hnodup⟩ := nodup_cons.1 hnodup
    rw [foldlM_cons] at h
    cases hfirst : effect (compute p) s.content with
    | error e => rw [hfirst] at h; cases h
    | ok first =>
      rw [hfirst] at h
      have hleft : Left key s (run key s (List.replicate ((acts p).length + 1) (.advance p))) p
          first :=
        run_alone (hacts p) (htodo p (by simp)) ⟨by rw [hkey p]; exact hfree, hfirst⟩
      have hrun : run key s (serial (fun p => [acts p]) (p :: order)) =
          run key (run key s (List.replicate ((acts p).length + 1) (.advance p)))
            (serial (fun p => [acts p]) order) := by
        simp [run, serial, size, foldl_append]
      rw [hrun]
      refine ih hnodup (fun q hq => ?_) ?_ ?_
      · rw [hleft.proc q (fun heq => hp (heq ▸ hq))]
        exact htodo q (by simp [hq])
      · rw [← hkey p]
        exact hleft.lock
      · rw [hleft.content]
        exact h

/-- Every schedule leaves the content of a serial schedule in which all processes that succeeded
take part. -/
theorem run_eq_serial {k : κ} {compute : ι → Compute σ ε} {acts : ι → List (Action σ ε)}
    (hkey : ∀ p, key p = k) (hacts : ∀ p, Locked (compute p) .before (acts p)) (content : Option σ)
    (schedule : List (Event ι)) :
    let s := run key (init content fun p => [acts p]) schedule
    ∃ order : List ι, order.Nodup ∧ (∀ p, (s.proc p).Succeeded → p ∈ order) ∧
      s.content = (run key (init content fun p => [acts p])
        (serial (fun p => [acts p]) order)).content := by
  have hinit : Inv k compute content (init content fun p => [acts p]) [] := Inv.init hacts
  obtain ⟨order, hinv⟩ := Inv.run hkey schedule hinit
  refine ⟨order, hinv.nodup, fun p hp => ?_, ?_⟩
  · rcases hinv.proc p with ⟨stage, acts, htodo, -, -⟩ | ⟨-, -, hdone⟩
    · rw [List.isEmpty_iff.1 hp.1] at htodo
      cases htodo
    · exact hdone hp.2
  · refine (run_serial hkey hacts hinv.nodup (fun p _ => rfl) rfl ?_).symm
    exact hinv.content_eq

end Serial

end LockedWindow
