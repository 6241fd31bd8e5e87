import Vibrato.Lib.OrderedMap
import Vibrato.Text

/-! `YieldQueue` of `session/yield-queue.ts`. -/

namespace Vibrato.Session

open Lib List OrderedMap

variable {Entry Message Error : Type}

structure StoredDispatcher (Entry Message Error : Type) where
  isStale : Option (Entry → Except Error Bool)
  groupKey : Option (Entry → Except Error Text)
  build : List Entry → Except Error (Option Message)

/-- `scheduleIdleFlush` is the answer of the callback to a run that it is given. -/
structure YieldQueueOptions (Message Error : Type) where
  isStreaming : Bool
  injectStreaming : Message → Except Error Unit
  injectIdle : List Message → Except Error Unit
  scheduleIdleFlush : Except Error Unit

inductive YieldFlushMode where
  | streaming
  | idle
  deriving DecidableEq

structure YieldQueue (Entry Message Error : Type) where
  dispatchers : OrderedMap Text (StoredDispatcher Entry Message Error)
  entries : OrderedMap Text (List Entry)
  idleFlushPending : Bool

/-- A message that was handed to the session, with the answer of the callback. -/
structure Handover (Message Error : Type) where
  kind : Text
  message : Message
  answer : Except Error Unit

namespace StoredDispatcher

variable (d : StoredDispatcher Entry Message Error)

def survives (entry : Entry) : Bool :=
  match d.isStale with
  | none => true
  | some isStale =>
    match isStale entry with
    | .ok stale => !stale
    | .error _ => false

def keyOf (entry : Entry) : Except Error Text :=
  match d.groupKey with
  | none => .ok "default".toList
  | some groupKey => groupKey entry

/-- `last.push(entry)`. -/
def pushLast (groups : List (List Entry)) (entry : Entry) : List (List Entry) :=
  groups.dropLast ++ [groups.getLastD [] ++ [entry]]

/-- The loop of `#build` over the survivors. -/
def groupFrom : List Entry → List (List Entry) → Option Text → Except Error (List (List Entry))
  | [], groups, _ => .ok groups
  | entry :: rest, groups, currentGroupKey =>
    match d.keyOf entry with
    | .error error => .error error
    | .ok key =>
      if groups ≠ [] ∧ currentGroupKey = some key then
        groupFrom rest (pushLast groups entry) currentGroupKey
      else groupFrom rest (groups ++ [[entry]]) (some key)

/-- A group whose message is not built is left out, with a warning if `build` threw. -/
def built (group : List Entry) : Option Message :=
  match d.build group with
  | .ok message => message
  | .error _ => none

/-- `#build`, with no message for `null`. -/
def buildMessages (entries : List Entry) : Except Error (List Message) :=
  (d.groupFrom (entries.filter d.survives) [] none).map fun groups => groups.filterMap d.built

end StoredDispatcher

/-- The messages handed over so far, and those kept for one idle turn. -/
structure Flushed (Message Error : Type) where
  handed : List (Handover Message Error)
  idleMessages : List (Text × Message)

/-- The loop of `flush` over the messages of one kind. -/
def Flushed.accept (options : YieldQueueOptions Message Error) (mode : YieldFlushMode) (kind : Text)
    (messages : List Message) (f : Flushed Message Error) : Flushed Message Error :=
  match mode with
  | .streaming =>
    { f with
      handed := f.handed ++ messages.map fun message =>
        ⟨kind, message, options.injectStreaming message⟩ }
  | .idle =>
      { f with idleMessages := f.idleMessages ++ messages.map fun message => (kind, message) }

namespace YieldQueue

variable (q : YieldQueue Entry Message Error)

def entriesOf (kind : Text) : List Entry :=
  (q.entries.get? kind).getD []

def scheduleIdleFlush (q : YieldQueue Entry Message Error)
    (options : YieldQueueOptions Message Error) :
    YieldQueue Entry Message Error :=
  if q.idleFlushPending then q
  else
    match options.scheduleIdleFlush with
    | .ok _ => { q with idleFlushPending := true }
    | .error _ => { q with idleFlushPending := false }

variable (options : YieldQueueOptions Message Error)

def enqueue (kind : Text) (entry : Entry) : YieldQueue Entry Message Error :=
  if q.dispatchers.has kind then
    let q := { q with entries := q.entries.set kind (q.entriesOf kind ++ [entry]) }
    if options.isStreaming then q else q.scheduleIdleFlush options
  else q

/-- `#drain`, with the entries it returns. -/
def drain (kind : Text) : List Entry × YieldQueue Entry Message Error :=
  if q.entriesOf kind = [] then ([], q)
  else (q.entriesOf kind, { q with entries := q.entries.erase kind })

/-- The loop of `flush` over the kinds, with the error that left it, if one did. -/
def flushKinds (options : YieldQueueOptions Message Error) (mode : YieldFlushMode) :
    List (Text × StoredDispatcher Entry Message Error) → YieldQueue Entry Message Error →
      Flushed Message Error →
      YieldQueue Entry Message Error × Flushed Message Error × Except Error Unit
  | [], q, f => (q, f, .ok ())
  | (kind, dispatcher) :: kinds, q, f =>
    let drained := q.drain kind
    if drained.1 = [] then flushKinds options mode kinds drained.2 f
    else
      match dispatcher.buildMessages drained.1 with
      | .error error => (drained.2, f, .error error)
      | .ok messages =>
        flushKinds options mode kinds drained.2 (f.accept options mode kind messages)

/-- The queue after a flush, the messages handed over, and whether the promise was resolved. -/
def flush (mode : YieldFlushMode) :
    YieldQueue Entry Message Error × List (Handover Message Error) × Except Error Unit :=
  let q := if mode = .idle then { q with idleFlushPending := false } else q
  match flushKinds options mode q.dispatchers.entries q ⟨[], []⟩ with
  | (q, f, .error error) => (q, f.handed, .error error)
  | (q, f, .ok _) =>
    if mode = .idle ∧ f.idleMessages ≠ [] then
      let answer := options.injectIdle (f.idleMessages.map Prod.snd)
      (q, f.handed ++ f.idleMessages.map fun m => ⟨m.1, m.2, answer⟩, .ok ())
    else (q, f.handed, .ok ())

/-- The flush is over, and the survivors of each kind have been built in the order in which they
were queued, run by run, and every message built has been handed over, in that order. -/
structure Delivers (q : YieldQueue Entry Message Error) (handed : List (Handover Message Error))
    (result : Except Error Unit) : Prop where
  completes : result = .ok ()
  kinds : ∀ kind d, q.dispatchers.get? kind = some d → ∃ groups : List (List Entry),
    groups.flatten = (q.entriesOf kind).filter d.survives ∧
      (handed.filter (·.kind = kind)).map (·.message) = groups.filterMap d.built
  registered : ∀ h ∈ handed, q.dispatchers.has h.kind = true

end YieldQueue

namespace StoredDispatcher

theorem flatten_pushLast {groups : List (List Entry)} (h : groups ≠ []) (entry : Entry) :
    (pushLast groups entry).flatten = groups.flatten ++ [entry] := by
  obtain ⟨start, last, rfl⟩ := eq_nil_or_concat groups |>.resolve_left h
  simp [pushLast]

variable (d : StoredDispatcher Entry Message Error) {entries : List Entry}

theorem flatten_groupFrom {groups result : List (List Entry)} {currentGroupKey : Option Text}
    (h : d.groupFrom entries groups currentGroupKey = .ok result) :
    result.flatten = groups.flatten ++ entries := by
  induction entries generalizing groups currentGroupKey with
  | nil =>
    rw [groupFrom, Except.ok.injEq] at h
    rw [h, append_nil]
  | cons entry entries ih =>
    rw [groupFrom] at h
    split at h
    · cases h
    · split at h
      · next hsame =>
        rw [ih h, flatten_pushLast hsame.1, append_assoc]
        rfl
      · rw [ih h, flatten_append, append_assoc]
        rfl

theorem groupFrom_ok_iff {groups : List (List Entry)} {currentGroupKey : Option Text} :
    (∃ result, d.groupFrom entries groups currentGroupKey = .ok result) ↔
      ∀ entry ∈ entries, ∃ key, d.keyOf entry = .ok key := by
  induction entries generalizing groups currentGroupKey with
  | nil => simp [groupFrom]
  | cons entry entries ih =>
    rw [forall_mem_cons, groupFrom]
    cases hkey : d.keyOf entry with
    | error error => simp
    | ok key =>
      simp only
      split
      · rw [ih]
        simp
      · rw [ih]
        simp

theorem buildMessages_ok_iff :
    (∃ messages, d.buildMessages entries = .ok messages) ↔
      ∀ entry ∈ entries, d.survives entry = true → ∃ key, d.keyOf entry = .ok key := by
  have hgroups := @groupFrom_ok_iff _ _ _ d (entries.filter d.survives) [] none
  simp only [mem_filter, and_imp] at hgroups
  rw [← hgroups, buildMessages]
  cases d.groupFrom (entries.filter d.survives) [] none with
  | error error => simp [Except.map]
  | ok groups => simp [Except.map]

theorem buildMessages_eq_ok {messages : List Message} (h : d.buildMessages entries = .ok messages) :
    ∃ groups : List (List Entry), groups.flatten = entries.filter d.survives ∧
      messages = groups.filterMap d.built := by
  rw [buildMessages] at h
  cases hgroups : d.groupFrom (entries.filter d.survives) [] none with
  | error error =>
    rw [hgroups] at h
    cases h
  | ok groups =>
    rw [hgroups] at h
    exact ⟨groups, by simpa using d.flatten_groupFrom hgroups, (Except.ok.inj h).symm⟩

@[simp] theorem buildMessages_nil : d.buildMessages [] = .ok [] := rfl

end StoredDispatcher

namespace Flushed

def offered (f : Flushed Message Error) : List (Text × Message) :=
  f.handed.map (fun h => (h.kind, h.message)) ++ f.idleMessages

variable {options : YieldQueueOptions Message Error} {mode : YieldFlushMode}

theorem accept_idleMessages {kind : Text} {messages : List Message} {f : Flushed Message Error}
    (h : mode = .streaming → f.idleMessages = []) :
    mode = .streaming → (f.accept options mode kind messages).idleMessages = [] := by
  rintro rfl
  exact h rfl

theorem offered_accept {kind : Text} {messages : List Message} {f : Flushed Message Error}
    (h : mode = .streaming → f.idleMessages = []) :
    (f.accept options mode kind messages).offered =
      f.offered ++ messages.map fun message => (kind, message) := by
  cases mode with
  | streaming =>
    simp only [accept, offered, h rfl, map_append, map_map, append_nil]
    rfl
  | idle => rw [accept, offered, offered, append_assoc]

end Flushed

namespace YieldQueue

variable (q : YieldQueue Entry Message Error)

theorem entriesOf_drain_self (kind : Text) : (q.drain kind).1 = q.entriesOf kind := by
  rw [drain]
  split
  · next hempty => exact hempty.symm
  · rfl

theorem entriesOf_drain_ne {kind other : Text}
    (h : other ≠ kind) : (q.drain kind).2.entriesOf other = q.entriesOf other := by
  rw [drain]
  split
  · rfl
  · rw [entriesOf, get?_erase_ne _ h]
    rfl

def messagesOf (entriesOf : Text → List Entry)
    (kind : Text × StoredDispatcher Entry Message Error) : List (Text × Message) :=
  match kind.2.buildMessages (entriesOf kind.1) with
  | .ok messages => messages.map fun message => (kind.1, message)
  | .error _ => []

theorem flushKinds_spec {options : YieldQueueOptions Message Error} {mode : YieldFlushMode}
    {kinds : List (Text × StoredDispatcher Entry Message Error)}
    (hdistinct : (kinds.map Prod.fst).Nodup)
    {q : YieldQueue Entry Message Error} {entriesOf : Text → List Entry}
    (hentries : ∀ kind ∈ kinds, q.entriesOf kind.1 = entriesOf kind.1) {f : Flushed Message Error}
    (hidle : mode = .streaming → f.idleMessages = []) :
    ((flushKinds options mode kinds q f).2.2 = .ok () ↔
      ∀ kind ∈ kinds, ∃ messages, kind.2.buildMessages (entriesOf kind.1) = .ok messages) ∧
    ((flushKinds options mode kinds q f).2.2 = .ok () →
      (flushKinds options mode kinds q f).2.1.offered =
        f.offered ++ kinds.flatMap (messagesOf entriesOf) ∧
        (mode = .streaming → (flushKinds options mode kinds q f).2.1.idleMessages = [])) := by
  induction kinds generalizing q f with
  | nil => exact ⟨by simp [flushKinds], fun _ => ⟨by simp [flushKinds], hidle⟩⟩
  | cons first kinds ih =>
    obtain ⟨kind, d⟩ := first
    rw [map_cons, nodup_cons] at hdistinct
    obtain ⟨hfirst, hrest⟩ := forall_mem_cons.1 hentries
    have hlater : ∀ other ∈ kinds, (q.drain kind).2.entriesOf other.1 = entriesOf other.1 := by
      intro other hother
      have hne : other.1 ≠ kind := by
        rintro rfl
        exact hdistinct.1 (mem_map.2 ⟨other, hother, rfl⟩)
      rw [entriesOf_drain_ne q hne, hrest other hother]
    simp only [flushKinds, entriesOf_drain_self, forall_mem_cons, flatMap_cons]
    rw [show q.entriesOf kind = entriesOf kind from hfirst]
    split
    · next hempty =>
      have hmessages : messagesOf entriesOf (kind, d) = [] := by
        simp [messagesOf, hempty]
      rw [hmessages, hempty]
      simpa using ih hdistinct.2 hlater hidle
    · cases hbuild : d.buildMessages (entriesOf kind) with
      | error error => simp
      | ok messages =>
        have hmessages :
            messagesOf entriesOf (kind, d) = messages.map fun message => (kind, message) := by
          simp only [messagesOf, hbuild]
        obtain ⟨hok, hoffered⟩ := ih hdistinct.2 hlater
          (@Flushed.accept_idleMessages _ _ options mode kind messages f hidle)
        rw [Flushed.offered_accept hidle, append_assoc] at hoffered
        rw [hmessages]
        exact ⟨by simpa using hok, hoffered⟩

theorem flush_spec (options : YieldQueueOptions Message Error) (mode : YieldFlushMode) :
    ((q.flush options mode).2.2 = .ok () ↔ ∀ kind ∈ q.dispatchers.entries,
      ∃ messages, kind.2.buildMessages (q.entriesOf kind.1) = .ok messages) ∧
    ((q.flush options mode).2.2 = .ok () →
      (q.flush options mode).2.1.map (fun h => (h.kind, h.message)) =
        q.dispatchers.entries.flatMap (messagesOf q.entriesOf)) := by
  obtain ⟨started, hstarted⟩ : ∃ started,
    started = if mode = .idle then { q with idleFlushPending := false } else q := ⟨_, rfl⟩
  have hentries : started.entriesOf = q.entriesOf := by
    rw [hstarted]
    split <;> rfl
  have hdispatchers : started.dispatchers = q.dispatchers := by
    rw [hstarted]
    split <;> rfl
  obtain ⟨hok, hoffered⟩ := @flushKinds_spec _ _ _ options mode started.dispatchers.entries
    started.dispatchers.distinct started started.entriesOf (fun _ _ => rfl) ⟨[], []⟩ (fun _ => rfl)
  rw [hentries, hdispatchers] at hok hoffered
  simp only [flush, ← hstarted, hdispatchers]
  generalize flushKinds options mode q.dispatchers.entries started ⟨[], []⟩ = run at hok hoffered ⊢
  obtain ⟨q', f, error | done⟩ := run
  · rw [← hok]
    simp
  · obtain ⟨hall, hstreaming⟩ := hoffered rfl
    simp only at hall hstreaming ⊢
    split
    · refine ⟨by rw [← hok], fun _ => ?_⟩
      rw [map_append, map_map]
      exact (congrArg _ (map_id _)).trans hall
    · next hnone =>
      refine ⟨by rw [← hok], fun _ => ?_⟩
      have hidle : f.idleMessages = [] := by
        cases mode with
        | streaming => exact hstreaming rfl
        | idle => simpa using hnone
      rw [Flushed.offered, hidle, append_nil] at hall
      exact hall

theorem filter_flatMap_messagesOf {entriesOf : Text → List Entry} {kind : Text}
    {d : StoredDispatcher Entry Message Error}
    {kinds : List (Text × StoredDispatcher Entry Message Error)}
    (hdistinct : (kinds.map Prod.fst).Nodup)
    (hmem : (kind, d) ∈ kinds) :
    (kinds.flatMap (messagesOf entriesOf)).filter (·.1 = kind) =
      messagesOf entriesOf (kind, d) := by
  have hkind : ∀ (k : Text × StoredDispatcher Entry Message Error), ∀ m ∈ messagesOf entriesOf k,
      m.1 = k.1 := by
    intro k m hm
    rw [messagesOf] at hm
    split at hm
    · obtain ⟨message, -, rfl⟩ := mem_map.1 hm
      rfl
    · cases hm
  obtain ⟨before, after, rfl⟩ := append_of_mem hmem
  rw [map_append, map_cons, nodup_append, nodup_cons] at hdistinct
  obtain ⟨-, ⟨hafter, -⟩, hbefore⟩ := hdistinct
  have hother : ∀ {kinds : List (Text × StoredDispatcher Entry Message Error)},
      (∀ k ∈ kinds, k.1 ≠ kind) →
        (kinds.flatMap (messagesOf entriesOf)).filter (·.1 = kind) = [] := by
    intro kinds hne
    rw [filter_eq_nil_iff]
    intro m hm
    obtain ⟨k, hk, hm⟩ := mem_flatMap.1 hm
    simpa [hkind k m hm] using hne k hk
  rw [flatMap_append, flatMap_cons, filter_append, filter_append,
    hother (fun k hk heq => hbefore k.1 (mem_map_of_mem hk) kind mem_cons_self heq),
    hother (fun k hk heq => hafter (mem_map.2 ⟨k, hk, heq⟩)), append_nil]
  exact filter_eq_self.2 fun m hm => by simpa using hkind _ m hm

/-- A flush delivers the entries of every kind exactly if no group key throws on an entry that is
not stale. -/
theorem flush_delivers_iff (q : YieldQueue Entry Message Error)
    (options : YieldQueueOptions Message Error) (mode : YieldFlushMode) :
    q.Delivers (q.flush options mode).2.1 (q.flush options mode).2.2 ↔
      ∀ kind d, q.dispatchers.get? kind = some d → ∀ groupKey, d.groupKey = some groupKey →
        ∀ entry ∈ q.entriesOf kind, d.survives entry = true → ∃ key, groupKey entry = .ok key := by
  obtain ⟨hok, hoffered⟩ := q.flush_spec options mode
  have hkeys : ∀ (d : StoredDispatcher Entry Message Error) (entry : Entry),
      (∃ key, d.keyOf entry = .ok key) ↔
        ∀ groupKey, d.groupKey = some groupKey → ∃ key, groupKey entry = .ok key := by
    intro d entry
    rw [StoredDispatcher.keyOf]
    cases d.groupKey with
    | none => simp
    | some groupKey => simp
  constructor
  · intro hdelivers kind d hd groupKey hgroupKey entry hentry hsurvives
    have hbuilt := hok.1 hdelivers.completes (kind, d) (get?_eq_some.1 hd)
    exact (hkeys d entry).1 (d.buildMessages_ok_iff.1 hbuilt entry hentry hsurvives) groupKey
      hgroupKey
  · intro hquiet
    have hbuilds : ∀ kind ∈ q.dispatchers.entries,
        ∃ messages, kind.2.buildMessages (q.entriesOf kind.1) = .ok messages := by
      rintro ⟨kind, d⟩ hmem
      rw [d.buildMessages_ok_iff]
      intro entry hentry hsurvives
      rw [hkeys]
      intro groupKey hgroupKey
      exact hquiet kind d (get?_eq_some.2 hmem) groupKey hgroupKey entry hentry hsurvives
    have hall := hoffered (hok.2 hbuilds)
    refine ⟨hok.2 hbuilds, ?_, ?_⟩
    · intro kind d hd
      have hmem := get?_eq_some.1 hd
      obtain ⟨messages, hmessages⟩ := hbuilds (kind, d) hmem
      obtain ⟨groups, hflatten, hgroups⟩ := d.buildMessages_eq_ok hmessages
      refine ⟨groups, hflatten, ?_⟩
      have hkind := congrArg (fun l => (l.filter (·.1 = kind)).map Prod.snd) hall
      simp only [filter_flatMap_messagesOf q.dispatchers.distinct hmem, messagesOf, hmessages,
        filter_map, map_map] at hkind
      rw [← hgroups]
      simpa [Function.comp_def] using hkind
    · intro h hh
      have hmem : (h.kind, h.message) ∈ q.dispatchers.entries.flatMap (messagesOf q.entriesOf) := by
        rw [← hall]
        exact mem_map.2 ⟨h, hh, rfl⟩
      obtain ⟨⟨kind, d⟩, hk, hm⟩ := mem_flatMap.1 hmem
      rw [messagesOf] at hm
      split at hm
      · obtain ⟨message, -, heq⟩ := mem_map.1 hm
        rw [← (Prod.mk.inj heq).1, has, get?_eq_some.2 hk]
        rfl
      · cases hm

def quietOptions : YieldQueueOptions (List Nat) Unit :=
  { isStreaming := false
    injectStreaming := fun _ => .ok ()
    injectIdle := fun _ => .ok ()
    scheduleIdleFlush := .ok () }

/-- Two kinds with an entry each, of which the second has no group key for its entry. -/
def throwingGroupKey : YieldQueue Nat (List Nat) Unit :=
  let kinds := (empty.set "mail".toList ⟨none, none, fun survivors => .ok (some survivors)⟩).set
    "async-result".toList ⟨none, some fun _ => .error (), fun survivors => .ok (some survivors)⟩
  let q : YieldQueue Nat (List Nat) Unit := ⟨kinds, .empty, false⟩
  (q.enqueue quietOptions "mail".toList 1).enqueue quietOptions "async-result".toList 2

/-- The idle flush throws, and the entry of the first kind is gone. -/
theorem throwingGroupKey_not_delivers :
    ¬throwingGroupKey.Delivers (throwingGroupKey.flush quietOptions .idle).2.1
        (throwingGroupKey.flush quietOptions .idle).2.2 ∧
      (throwingGroupKey.flush quietOptions .idle).2.1.length = 0 ∧
      (throwingGroupKey.flush quietOptions .idle).1.entriesOf "mail".toList = [] := by
  refine ⟨fun h => ?_, by decide +kernel, by decide +kernel⟩
  have hthrows : (throwingGroupKey.flush quietOptions .idle).2.2.isOk = false := by decide +kernel
  rw [h.completes] at hthrows
  cases hthrows

end YieldQueue

end Vibrato.Session
