import Vibrato.Lib.Positions

/-! `task/parallel.ts`: the workers of `mapWithConcurrencyLimit`, whatever order their tasks end
in. -/

namespace Vibrato.Task

open List

/-- `none` is a number that is not finite. -/
def limit (length : Nat) (concurrency : Option Rat) : Nat :=
  let normalizedConcurrency : Int := (concurrency.map Rat.floor).getD length
  let effectiveConcurrency := if normalizedConcurrency > 0 then normalizedConcurrency else length
  max 1 (min effectiveConcurrency.toNat length)

/-- A worker is at the head of its loop, awaits a task, or has returned or thrown. -/
inductive Worker
  | ready
  | awaiting (index : Nat)
  | ended
  deriving DecidableEq

/-- The workers with what they share, and what has happened so far: the items started in order, and
the results. The internal controller is aborted when the first error is kept. -/
structure Pool (R E : Type) where
  workers : List Worker
  nextIndex : Nat := 0
  results : Nat → Option R := fun _ => none
  signalAborted : Bool := false
  firstError : Option E := none
  started : List Nat := []
  returned : List (Nat × R) := []

inductive Event (R E : Type)
  | turn (w : Nat)
  | returns (w : Nat) (result : R)
  | throws (w : Nat) (error : E)
  | abort

inductive Outcome (R E : Type)
  | report (results : Nat → Option R) (aborted : Bool)
  | rejects (error : E)

namespace Pool

variable {R E : Type} (length : Nat) (s : Pool R E)

/-- `workerSignal.aborted` -/
def aborted : Bool := s.signalAborted || s.firstError.isSome

def step : Event R E → Pool R E
  | .turn w =>
    if s.workers[w]? ≠ some .ready then s
    else if s.aborted then { s with workers := s.workers.set w .ended }
    else if length ≤ s.nextIndex then
      { s with nextIndex := s.nextIndex + 1, workers := s.workers.set w .ended }
    else
      { s with
        nextIndex := s.nextIndex + 1
        workers := s.workers.set w (.awaiting s.nextIndex)
        started := s.started ++ [s.nextIndex] }
  | .returns w result =>
    match s.workers[w]? with
    | some (.awaiting index) =>
      { s with
        results := Function.update s.results index (some result)
        workers := s.workers.set w .ready
        returned := s.returned ++ [(index, result)] }
    | _ => s
  | .throws w error =>
    match s.workers[w]? with
    | some (.awaiting _) =>
      if s.aborted then { s with workers := s.workers.set w .ready }
      else { s with firstError := some error, workers := s.workers.set w .ended }
    | _ => s
  | .abort => { s with signalAborted := true }

def run (events : List (Event R E)) : Pool R E := events.foldl (step length) s

def start (concurrency : Option Rat) : Pool R E :=
  { workers := replicate (limit length concurrency) .ready }

def inFlight : Nat := s.workers.countP fun worker => worker matches .awaiting _

/-- What the race comes to, once it is decided. -/
def outcome : Option (Outcome R E) :=
  match s.firstError with
  | some error => some (if s.signalAborted then .report s.results true else .rejects error)
  | none => if s.workers.all (· = .ended) then some (.report s.results s.signalAborted) else none

structure Safe (concurrency : Option Rat) : Prop where
  inFlight : s.inFlight ≤ limit length concurrency
  inOrder : ∃ k ≤ length, s.started = range k
  stops : s.aborted = true → ∀ events, (s.run length events).started = s.started
  stored : ∀ entry ∈ s.returned, s.results entry.1 = some entry.2
  complete : ∀ results, s.outcome = some (.report results false) →
    s.started = range length ∧ ∀ i < length, ∃ result, (i, result) ∈ s.returned ∧
      results i = some result

/-- How often a worker awaits the task of an item, or has its result. -/
def holders (i : Nat) : Nat := s.workers.count (.awaiting i) + (s.returned.map Prod.fst).count i

structure Inv : Prop where
  started : s.started = range (min s.nextIndex length)
  once : ∀ i, s.holders i ≤ if i < min s.nextIndex length then 1 else 0
  live : s.aborted = false → ∀ i < min s.nextIndex length, 0 < s.holders i
  stored : ∀ entry ∈ s.returned, s.results entry.1 = some entry.2
  ended : s.aborted = false → .ended ∈ s.workers → length ≤ s.nextIndex

variable {length s} {w : Nat}

theorem count_set_add {α : Type} [DecidableEq α] {l : List α} {old : α} (h : l[w]? = some old)
    (new x : α) :
    (l.set w new).count x + (if old = x then 1 else 0) = l.count x + if new = x then 1 else 0 := by
  obtain ⟨hw, rfl⟩ := List.getElem?_eq_some_iff.mp h
  have hle : (if l[w] = x then 1 else 0) ≤ l.count x := by
    split
    · next heq => exact heq ▸ count_pos_iff.mpr (getElem_mem hw)
    · exact Nat.zero_le _
  rw [count_set hw]
  simp only [beq_iff_eq]
  omega

variable (h : Inv length s)
include h

theorem Inv.starts (hready : s.workers[w]? = some .ready) (hlt : s.nextIndex < length) :
    Inv length { s with
      nextIndex := s.nextIndex + 1
      workers := s.workers.set w (.awaiting s.nextIndex)
      started := s.started ++ [s.nextIndex] } := by
  have hmin : min s.nextIndex length = s.nextIndex := by omega
  have hnext : min (s.nextIndex + 1) length = s.nextIndex + 1 := by omega
  have hcount := fun i => count_set_add hready (.awaiting s.nextIndex) (.awaiting i)
  obtain ⟨hstarted, honce, hlive, hstored, hended⟩ := h
  simp only [hmin, holders, reduceCtorEq, if_false, Worker.awaiting.injEq] at honce hlive hcount
  constructor
  · simp only [hnext, range_succ, hstarted, hmin]
  · intro i
    have := honce i
    have := hcount i
    simp only [hnext, holders]
    split_ifs at * <;> omega
  · intro hs i hi
    have := hlive hs i
    have := hcount i
    simp only [hnext, holders] at hi ⊢
    split_ifs at * <;> omega
  · exact hstored
  · intro hs hmem
    rcases mem_or_eq_of_mem_set hmem with hmem | heq
    · have := hended hs hmem
      omega
    · cases heq

theorem Inv.returns {index : Nat} (hw : s.workers[w]? = some (.awaiting index)) (result : R) :
    Inv length { s with
      results := Function.update s.results index (some result)
      workers := s.workers.set w .ready
      returned := s.returned ++ [(index, result)] } := by
  have hcount := fun i => count_set_add hw .ready (.awaiting i)
  obtain ⟨hstarted, honce, hlive, hstored, hended⟩ := h
  simp only [holders, reduceCtorEq, if_false, Worker.awaiting.injEq] at honce hlive hcount
  refine ⟨hstarted, fun i => ?_, fun hs i hi => ?_, ?_, ?_⟩
  · have := honce i
    have := hcount i
    simp only [holders, map_append, count_append, map_cons, map_nil, count_singleton, beq_iff_eq]
    omega
  · have := hlive hs i hi
    have := hcount i
    simp only [holders, map_append, count_append, map_cons, map_nil, count_singleton, beq_iff_eq]
    omega
  · intro entry hmem
    rcases mem_append.mp hmem with hold | hnew
    · -- the task is awaited, so the item has no result yet
      have hne : entry.1 ≠ index := by
        rintro rfl
        have hawaits := count_pos_iff.mpr (mem_of_getElem? hw)
        have hhas := count_pos_iff.mpr (mem_map_of_mem (f := Prod.fst) hold)
        have := honce entry.1
        split at this <;> omega
      simp only [Function.update_of_ne hne, hstored entry hold]
    · cases mem_singleton.mp hnew
      exact Function.update_self ..
  · exact fun hs hmem => hended hs ((mem_or_eq_of_mem_set hmem).resolve_right nofun)

theorem Inv.of_same {s' : Pool R E} (hnext : min s'.nextIndex length = min s.nextIndex length)
    (hstarted : s'.started = s.started) (hreturned : s'.returned = s.returned)
    (hresults : s'.results = s.results)
    (hcount : ∀ i, s'.workers.count (.awaiting i) ≤ s.workers.count (.awaiting i))
    (hlive : s'.aborted = false → s.aborted = false ∧ length ≤ s'.nextIndex ∧
      ∀ i, s.workers.count (.awaiting i) ≤ s'.workers.count (.awaiting i)) : Inv length s' where
  started := by rw [hstarted, hnext, h.started]
  once i := by
    rw [hnext, holders, hreturned]
    exact Nat.le_trans (Nat.add_le_add_right (hcount i) _) (h.once i)
  live hs i hi := by
    rw [holders, hreturned]
    exact Nat.lt_of_lt_of_le (h.live (hlive hs).1 i (hnext ▸ hi))
      (Nat.add_le_add_right ((hlive hs).2.2 i) _)
  stored := by
    rw [hreturned, hresults]
    exact h.stored
  ended hs _ := (hlive hs).2.1

theorem Inv.step (event : Event R E) : Inv length (s.step length event) := by
  cases event with
  | turn w =>
    rw [Pool.step]
    split
    · exact h
    · next hready =>
      rw [not_not] at hready
      have hcount :
          ∀ i, (s.workers.set w .ended).count (.awaiting i) = s.workers.count (.awaiting i) := by
        simpa using fun i => count_set_add hready .ended (.awaiting i)
      split
      · next habort =>
        exact h.of_same rfl rfl rfl rfl (fun i => Nat.le_of_eq (hcount i)) fun hlive => by
          cases habort.symm.trans hlive
      · next hlive =>
        split
        · next hend =>
          exact h.of_same (by simp only; omega) rfl rfl rfl (fun i => Nat.le_of_eq (hcount i))
            fun _ =>
              ⟨by simpa using hlive, by simp only; omega, fun i => Nat.le_of_eq (hcount i).symm⟩
        · next hlt => exact h.starts hready (by omega)
  | returns w result =>
    rw [Pool.step]
    split
    · next hw => exact h.returns hw result
    · exact h
  | throws w error =>
    rw [Pool.step]
    split
    · next index hw =>
      have hcount : ∀ new : Worker, (∀ i, new ≠ .awaiting i) → ∀ i,
          (s.workers.set w new).count (.awaiting i) ≤ s.workers.count (.awaiting i) := by
        intro new hnew i
        have := count_set_add hw new (.awaiting i)
        rw [if_neg (hnew i)] at this
        omega
      split
      · next habort =>
        exact h.of_same rfl rfl rfl rfl (hcount .ready nofun) fun hlive => by
          cases habort.symm.trans hlive
      · exact h.of_same rfl rfl rfl rfl (hcount .ended nofun) fun hlive => by
          simp [aborted] at hlive
    · exact h
  | abort =>
    exact h.of_same rfl rfl rfl rfl (fun _ => Nat.le_refl _) fun hlive => by
      simp [Pool.step, aborted] at hlive

theorem Inv.run (events : List (Event R E)) : Inv length (s.run length events) := by
  induction events generalizing s with
  | nil => exact h
  | cons event events ih => exact ih (h.step event)

omit h

theorem inv_start (concurrency : Option Rat) :
    Inv length (start length concurrency : Pool R E) := by
  refine ⟨rfl, fun i => ?_, fun _ i hi => absurd hi (Nat.not_lt_zero i), nofun, fun _ hmem => ?_⟩
  · simp [start, holders, count_replicate]
  · cases (mem_replicate.mp hmem).2

theorem step_keeps (event : Event R E) : (s.step length event).workers.length = s.workers.length ∧
    (s.aborted = true → (s.step length event).aborted = true ∧
      (s.step length event).started = s.started) := by
  cases event with
  | turn w =>
    rw [step]
    split
    · exact ⟨rfl, fun h => ⟨h, rfl⟩⟩
    · split
      · exact ⟨length_set, fun h => ⟨h, rfl⟩⟩
      · next hlive => split <;> exact ⟨length_set, fun h => absurd h hlive⟩
  | returns w result =>
    rw [step]
    split
    · exact ⟨length_set, fun h => ⟨h, rfl⟩⟩
    · exact ⟨rfl, fun h => ⟨h, rfl⟩⟩
  | throws w error =>
    rw [step]
    split
    · split
      · exact ⟨length_set, fun h => ⟨h, rfl⟩⟩
      · next hlive => exact ⟨length_set, fun h => absurd h hlive⟩
    · exact ⟨rfl, fun h => ⟨h, rfl⟩⟩
  | abort => exact ⟨rfl, fun _ => ⟨by simp [step, aborted], rfl⟩⟩

theorem run_keeps (events : List (Event R E)) :
    (s.run length events).workers.length = s.workers.length ∧
    (s.aborted = true → (s.run length events).started = s.started) := by
  induction events generalizing s with
  | nil => exact ⟨rfl, fun _ => rfl⟩
  | cons event events ih =>
    have hstep := @step_keeps R E length s event
    exact ⟨ih.1.trans hstep.1, fun h => (ih.2 (hstep.2 h).1).trans (hstep.2 h).2⟩

theorem Inv.complete (h : Inv length s) (hworkers : s.workers ≠ []) {results : Nat → Option R}
    (houtcome : s.outcome = some (.report results false)) : s.started = range length ∧
      ∀ i < length, ∃ result, (i, result) ∈ s.returned ∧ results i = some result := by
  unfold outcome at houtcome
  split at houtcome
  · split at houtcome <;> cases houtcome
  · next hnone =>
    split at houtcome
    · next hall =>
      obtain ⟨rfl, hsignal⟩ : s.results = results ∧ s.signalAborted = false := by
        simpa using houtcome
      have hlive : s.aborted = false := by simp [aborted, hsignal, hnone]
      have hended : ∀ worker ∈ s.workers, worker = .ended := by simpa using hall
      obtain ⟨worker, hmem⟩ := exists_mem_of_ne_nil _ hworkers
      have hle := h.ended hlive (hended worker hmem ▸ hmem)
      refine ⟨by rw [h.started, Nat.min_eq_right hle], fun i hi => ?_⟩
      have hnone : s.workers.count (.awaiting i) = 0 := count_eq_zero.mpr fun hmem => by
        cases hended _ hmem
      have hholds := h.live hlive i (by omega)
      rw [holders, hnone, Nat.zero_add, count_pos_iff, mem_map] at hholds
      obtain ⟨⟨_, result⟩, hreturned, rfl⟩ := hholds
      exact ⟨result, hreturned, h.stored _ hreturned⟩
    · cases houtcome

theorem safe_run (length : Nat) (concurrency : Option Rat) (events : List (Event R E)) :
    ((start length concurrency).run length events).Safe length concurrency := by
  have hinv := (@inv_start R E length concurrency).run events
  have hlength := (@run_keeps R E length (start length concurrency) events).1
  rw [start, length_replicate] at hlength
  refine ⟨?_, ⟨_, Nat.min_le_right .., hinv.started⟩, fun h events => (run_keeps events).2 h,
    hinv.stored, fun results => hinv.complete ?_⟩
  · exact Nat.le_trans countP_le_length (Nat.le_of_eq hlength)
  · apply ne_nil_of_length_pos
    rw [start, hlength, limit]
    omega

/-- How often a worker goes on in a run. -/
def moves (length : Nat) : Pool R E → List (Event R E) → Nat
  | _, [] => 0
  | s, event :: events =>
    (if (s.step length event).workers = s.workers then 0 else 1) +
      moves length (s.step length event) events

def toGoOf : Worker → Int
  | .ready => 1
  | .awaiting _ => 2
  | .ended => 0

/-- A bound on how often workers can still go on. -/
def toGo (length : Nat) (s : Pool R E) : Int :=
  2 * (length - s.nextIndex : Nat) + (s.workers.map toGoOf).sum

theorem step_cases (event : Event R E) :
    ((s.step length event).workers = s.workers ∧ (s.step length event).nextIndex = s.nextIndex) ∨
      ∃ w old new, s.workers[w]? = some old ∧ (s.step length event).workers = s.workers.set w new ∧
        2 * ((length - (s.step length event).nextIndex : Nat) : Int) + toGoOf new <
          2 * (length - s.nextIndex : Nat) + toGoOf old := by
  cases event with
  | turn w =>
    rw [step]
    split
    · exact .inl ⟨rfl, rfl⟩
    · next hready =>
      have hready := not_not.mp hready
      split
      · exact .inr ⟨w, _, _, hready, rfl, by simp only [toGoOf]; omega⟩
      · split
        · exact .inr ⟨w, _, _, hready, rfl, by simp only [toGoOf]; omega⟩
        · exact .inr ⟨w, _, _, hready, rfl, by simp only [toGoOf]; omega⟩
  | returns w result =>
    rw [step]
    split
    · next hawaits => exact .inr ⟨w, _, _, hawaits, rfl, by simp only [toGoOf]; omega⟩
    · exact .inl ⟨rfl, rfl⟩
  | throws w error =>
    rw [step]
    split
    · next hawaits =>
      split
      · exact .inr ⟨w, _, _, hawaits, rfl, by simp only [toGoOf]; omega⟩
      · exact .inr ⟨w, _, _, hawaits, rfl, by simp only [toGoOf]; omega⟩
    · exact .inl ⟨rfl, rfl⟩
  | abort => exact .inl ⟨rfl, rfl⟩

theorem toGo_step (event : Event R E) : toGo length (s.step length event) +
    (if (s.step length event).workers = s.workers then 0 else 1) ≤ toGo length s := by
  obtain ⟨hworkers, hnext⟩ | ⟨w, old, new, hold, hworkers, hless⟩ := @step_cases R E length s event
  · rw [if_pos hworkers, toGo, toGo, hworkers, hnext]
    exact Int.le_of_eq (Int.add_zero _)
  · have hsum := Lib.sum_map_set toGoOf hold new
    rw [toGo, toGo, hworkers, hsum]
    split <;> omega

theorem sum_toGoOf_nonneg (workers : List Worker) : 0 ≤ (workers.map toGoOf).sum := by
  induction workers with
  | nil => exact Int.le_refl _
  | cons worker workers ih => cases worker <;> simp only [map_cons, sum_cons, toGoOf] <;> omega

theorem moves_le (events : List (Event R E)) : moves length s events ≤ toGo length s := by
  induction events generalizing s with
  | nil =>
    have hsum := sum_toGoOf_nonneg s.workers
    simp only [moves, toGo]
    omega
  | cons event events ih =>
    have hrest := @ih (s.step length event)
    have hstep := @toGo_step R E length s event
    rw [moves]
    by_cases hsame : (s.step length event).workers = s.workers
    · rw [if_pos hsame] at hstep ⊢
      omega
    · rw [if_neg hsame] at hstep ⊢
      omega

theorem step_moves {event : Event R E} {old : Worker} (hold : s.workers[w]? = some old)
    (h : ∃ new, (s.step length event).workers = s.workers.set w new ∧ new ≠ old) :
    (s.step length event).workers ≠ s.workers := by
  obtain ⟨new, hworkers, hne⟩ := h
  intro hsame
  have hset : (s.workers.set w new)[w]? = some new := by
    rw [getElem?_set_self (List.getElem?_eq_some_iff.mp hold).1]
  rw [← hworkers, hsame, hold] at hset
  exact hne (Option.some.inj hset).symm

theorem turn_moves (h : s.workers[w]? = some .ready) :
    (s.step length (.turn w : Event R E)).workers ≠ s.workers := by
  apply step_moves h
  rw [step, if_neg (not_not.mpr h)]
  split
  · exact ⟨.ended, rfl, by decide⟩
  · split
    · exact ⟨.ended, rfl, by decide⟩
    · exact ⟨.awaiting s.nextIndex, rfl, by simp⟩

theorem returns_moves {index : Nat} (h : s.workers[w]? = some (.awaiting index)) (result : R) :
    (s.step length (.returns w result)).workers ≠ s.workers := by
  apply step_moves h
  simp only [step, h]
  exact ⟨.ready, rfl, by simp⟩

theorem throws_moves {index : Nat} (h : s.workers[w]? = some (.awaiting index)) (error : E) :
    (s.step length (.throws w error)).workers ≠ s.workers := by
  apply step_moves h
  simp only [step, h]
  split
  · exact ⟨.ready, rfl, by simp⟩
  · exact ⟨.ended, rfl, by simp⟩

theorem goes_on_of_undecided (h : s.outcome = none) :
    ∃ w : Nat, s.workers[w]? = some .ready ∨ ∃ index, s.workers[w]? = some (.awaiting index) := by
  unfold outcome at h
  split at h
  · cases h
  · split at h
    · cases h
    · next hall =>
      obtain ⟨worker, hmem, hgoes⟩ : ∃ worker ∈ s.workers, worker ≠ .ended := by simpa using hall
      obtain ⟨w, hw⟩ := mem_iff_getElem?.mp hmem
      cases worker with
      | ready => exact ⟨w, .inl hw⟩
      | awaiting index => exact ⟨w, .inr ⟨index, hw⟩⟩
      | ended => exact absurd rfl hgoes

/-- Workers go on at most twice for each item and once more each.  While the race is undecided one
is ready or awaits a task; a turn of a ready one moves it, and so does the end of an awaited
task. -/
theorem run_ends (length : Nat) (concurrency : Option Rat) (events : List (Event R E)) :
    let s := (start length concurrency : Pool R E).run length events
    moves length (start length concurrency) events ≤ 2 * length + limit length concurrency ∧
      (s.outcome = none → ∃ w : Nat, s.workers[w]? = some .ready ∨
        ∃ index, s.workers[w]? = some (.awaiting index)) ∧
      ∀ w : Nat, (s.workers[w]? = some .ready → (s.step length (.turn w)).workers ≠ s.workers) ∧
        ∀ index, s.workers[w]? = some (.awaiting index) →
          (∀ result, (s.step length (.returns w result)).workers ≠ s.workers) ∧
          ∀ error, (s.step length (.throws w error)).workers ≠ s.workers := by
  intro s
  refine ⟨?_, goes_on_of_undecided, fun w => ⟨turn_moves, fun index hawaits =>
    ⟨returns_moves hawaits, throws_moves hawaits⟩⟩⟩
  have hle := @moves_le R E length (start length concurrency) events
  have htotal : toGo length (start length concurrency : Pool R E) =
      2 * length + limit length concurrency := by
    simp [toGo, start, toGoOf]
  omega

end Pool
end Vibrato.Task
