import Mathlib.Data.List.Infix

/-! The message log of `append-only-context.ts`. -/

namespace Vibrato.Agent

open List

/-- The part of `AppendOnlyContextManager` that `syncMessages` reads.  A message is its JSON
content, which `cloneJson` keeps. -/
structure AppendOnlyContextManager (M H : Type*) where
  log : List M
  lastSyncCount : Nat
  syncedHashes : List H
  seededPrefixCount : Nat

namespace AppendOnlyContextManager

variable {M H : Type*} [DecidableEq H] (hashMessage : Option M → H)

def empty : AppendOnlyContextManager M H := ⟨[], 0, [], 0⟩

/-- A message past the end of a list is `undefined`, which has a hash too. -/
def hashRange (messages : List M) (start stop : Nat) : List H :=
  (List.range' start (stop - start)).map fun i => hashMessage messages[i]?

def rangeHashesEqual (a b : List M) (count : Nat) : Bool :=
  (List.range count).all fun i => hashMessage a[i]? = hashMessage b[i]?

variable (m : AppendOnlyContextManager M H)

def prefixChanged (messages : List M) (count : Nat) : Bool :=
  if m.syncedHashes.length < count then false
  else (List.range count).any fun i => some (hashMessage messages[i]?) ≠ m.syncedHashes[i]?

def rebaseToBaseline (messages : List M) (seededPrefixCount : Nat) : AppendOnlyContextManager M H :=
  ⟨messages, messages.length, hashRange hashMessage messages 0 messages.length, seededPrefixCount⟩

def clearLog : AppendOnlyContextManager M H :=
  { m with log := [], lastSyncCount := 0, syncedHashes := [] }

/-- The end of `syncMessages`, which appends what was not synced yet. -/
def appendNew (messagesToSync : List M) : AppendOnlyContextManager M H :=
  { m with
    log := m.log ++ messagesToSync.drop m.lastSyncCount
    lastSyncCount := messagesToSync.length
    syncedHashes := hashRange hashMessage messagesToSync 0 messagesToSync.length }

def includesSeedPrefix (normalizedMessages : List M) : Bool :=
  0 < m.seededPrefixCount ∧ m.seededPrefixCount ≤ normalizedMessages.length ∧
    rangeHashesEqual hashMessage normalizedMessages m.log m.seededPrefixCount = true

def messagesToSync (normalizedMessages : List M) : List M :=
  if 0 < m.seededPrefixCount ∧ m.includesSeedPrefix hashMessage normalizedMessages = false then
    m.log.take m.seededPrefixCount ++ normalizedMessages
  else normalizedMessages

def syncMessages (normalizedMessages : List M) : AppendOnlyContextManager M H :=
  let messages := m.messagesToSync hashMessage normalizedMessages
  let rewritten := 0 < m.lastSyncCount ∧ m.lastSyncCount ≤ messages.length ∧
    m.prefixChanged hashMessage messages m.lastSyncCount = true
  if rewritten ∧ 0 < m.seededPrefixCount then
    rebaseToBaseline hashMessage messages m.seededPrefixCount
  else
    let m := if rewritten then m.clearLog else m
    -- A shorter list is a compaction.
    if messages.length < m.lastSyncCount then
      if 0 < m.seededPrefixCount then rebaseToBaseline hashMessage messages m.seededPrefixCount
      else m.clearLog.appendNew hashMessage messages
    else m.appendNew hashMessage messages

/-- Fails if it would overwrite a log without `reset`. -/
def seedNormalizedMessages (messages : List M) (reset : Bool) :
    Option (AppendOnlyContextManager M H) :=
  if 0 < m.log.length ∧ reset = false then none
  else some ⟨messages, messages.length, hashRange hashMessage messages 0 messages.length,
    messages.length⟩

def releaseAfterHistoryRewrite (preserveSeededPrefix : Bool) : AppendOnlyContextManager M H :=
  let seeded := if preserveSeededPrefix then m.seededPrefixCount else 0
  let kept := if 0 < seeded then m.log.take seeded else []
  ⟨kept, kept.length, hashRange hashMessage kept 0 kept.length, kept.length⟩

def resetSyncCursor (_ : AppendOnlyContextManager M H) : AppendOnlyContextManager M H := empty

def invalidateForModelChange (_ : AppendOnlyContextManager M H) : AppendOnlyContextManager M H :=
  empty

def reset (_ : AppendOnlyContextManager M H) : AppendOnlyContextManager M H := empty

end AppendOnlyContextManager

inductive ContextOp (M : Type*) where
  | syncMessages (normalizedMessages : List M)
  | seedNormalizedMessages (messages : List M) (reset : Bool)
  | releaseAfterHistoryRewrite (preserveSeededPrefix : Bool)
  | resetSyncCursor
  | invalidateForModelChange
  | reset

def ContextOp.perform {M H : Type*} [DecidableEq H] (hashMessage : Option M → H)
    (m : AppendOnlyContextManager M H) : ContextOp M → AppendOnlyContextManager M H
  | .syncMessages messages => m.syncMessages hashMessage messages
  | .seedNormalizedMessages messages overwrite =>
    (m.seedNormalizedMessages hashMessage messages overwrite).getD m
  | .releaseAfterHistoryRewrite preserve => m.releaseAfterHistoryRewrite hashMessage preserve
  | .resetSyncCursor => m.resetSyncCursor
  | .invalidateForModelChange => m.invalidateForModelChange
  | .reset => m.reset

def runContext {M H : Type*} [DecidableEq H] (hashMessage : Option M → H)
    (ops : List (ContextOp M)) :
    AppendOnlyContextManager M H :=
  ops.foldl (ContextOp.perform hashMessage) .empty

/-- The seed, and the messages synced since the log was last rewritten. -/
structure ContextSpec (M : Type*) where
  seed : List M
  synced : List M

namespace ContextSpec

variable {M : Type*} [DecidableEq M]

variable (s : ContextSpec M)

def log : List M :=
  if s.seed <+: s.synced then s.synced else s.seed ++ s.synced

def perform : ContextOp M → ContextSpec M
  | .syncMessages messages => { s with synced := messages }
  | .seedNormalizedMessages messages overwrite =>
    if s.log ≠ [] ∧ overwrite = false then s else ⟨messages, []⟩
  | .releaseAfterHistoryRewrite preserve => if preserve then ⟨s.seed, []⟩ else ⟨[], []⟩
  | .resetSyncCursor | .invalidateForModelChange | .reset => ⟨[], []⟩

def run (ops : List (ContextOp M)) : ContextSpec M := ops.foldl perform ⟨[], []⟩

theorem seed_isPrefix_log : s.seed <+: s.log := by
  unfold log
  split
  · assumption
  · exact prefix_append _ _

theorem log_nil (seed : List M) : log ⟨seed, []⟩ = seed := by
  unfold log
  split
  · next h => exact (prefix_nil.1 h).symm
  · exact append_nil seed

end ContextSpec

section Refinement

open AppendOnlyContextManager

variable {M H : Type*} {hashMessage : Option M → H}

theorem hashRange_eq_map (messages : List M) :
    hashRange hashMessage messages 0 messages.length =
      messages.map fun x => hashMessage (some x) := by
  refine ext_getElem (by simp [hashRange]) fun i hi hlt => ?_
  have hlen : i < messages.length := by simpa using hlt
  simp [hashRange, hlen]

theorem rangeHashesEqual_iff [DecidableEq H] (hhash : Function.Injective hashMessage) {a b : List M}
    {count : Nat} :
    rangeHashesEqual hashMessage a b count = true ↔ a.take count = b.take count := by
  rw [rangeHashesEqual, all_eq_true]
  constructor
  · intro hall
    refine ext_getElem? fun i => ?_
    rw [getElem?_take, getElem?_take]
    split
    · next hi => exact hhash (of_decide_eq_true (hall i (mem_range.2 hi)))
    · rfl
  · intro heq i hi
    have hget := congrArg (·[i]?) heq
    simp only [getElem?_take, if_pos (mem_range.1 hi)] at hget
    simp [hget]

variable [DecidableEq M]

/-- The manager has the log of the abstract state, all of it synced, and the seed at its start. -/
structure Represents (hashMessage : Option M → H) (m : AppendOnlyContextManager M H)
    (s : ContextSpec M) : Prop where
  log_eq : m.log = s.log
  count_eq : m.lastSyncCount = m.log.length
  hashes_eq : m.syncedHashes = hashRange hashMessage m.log 0 m.log.length
  seed_eq : m.seededPrefixCount = s.seed.length

namespace Represents

variable {m : AppendOnlyContextManager M H} {s : ContextSpec M} (h : Represents hashMessage m s)

include h

theorem take_seed : m.log.take m.seededPrefixCount = s.seed := by
  rw [h.seed_eq, h.log_eq]
  exact (prefix_iff_eq_take.1 s.seed_isPrefix_log).symm

theorem seed_length_le : m.seededPrefixCount ≤ m.log.length := by
  rw [h.seed_eq, h.log_eq]
  exact s.seed_isPrefix_log.length_le

variable [DecidableEq H]

variable (hhash : Function.Injective hashMessage)
include hhash

theorem messagesToSync_eq (messages : List M) :
    m.messagesToSync hashMessage messages = ContextSpec.log ⟨s.seed, messages⟩ := by
  have hincludes : 0 < m.seededPrefixCount →
      (m.includesSeedPrefix hashMessage messages = true ↔ s.seed <+: messages) := by
    intro hpos
    rw [includesSeedPrefix, decide_eq_true_eq, prefix_iff_eq_take, ← h.take_seed]
    have hlen := h.seed_length_le
    rw [length_take, Nat.min_eq_left hlen]
    constructor
    · rintro ⟨-, -, heq⟩
      exact ((rangeHashesEqual_iff hhash).1 heq).symm
    · intro heq
      have hle : m.seededPrefixCount ≤ messages.length := by
        have hlength := congrArg List.length heq
        rw [length_take, length_take] at hlength
        omega
      exact ⟨hpos, hle, (rangeHashesEqual_iff hhash).2 heq.symm⟩
  unfold messagesToSync ContextSpec.log
  by_cases hpos : 0 < m.seededPrefixCount
  · by_cases hseed : s.seed <+: messages
    · rw [if_neg (by simp [(hincludes hpos).2 hseed]), if_pos hseed]
    · have hnot : m.includesSeedPrefix hashMessage messages = false := by
        rw [← Bool.not_eq_true, hincludes hpos]
        exact hseed
      rw [if_pos ⟨hpos, hnot⟩, if_neg hseed, h.take_seed]
  · have hnil : s.seed = [] := by
      rw [h.seed_eq] at hpos
      exact eq_nil_of_length_eq_zero (by omega)
    rw [if_neg (fun hboth => hpos hboth.1), if_pos (hnil ▸ nil_prefix)]

theorem isPrefix_of_prefixChanged_eq_false
    {messages : List M} (hsame : m.prefixChanged hashMessage messages m.lastSyncCount = false) :
    m.log <+: messages := by
  rw [prefixChanged, h.hashes_eq, hashRange_eq_map, h.count_eq, length_map,
    if_neg (Nat.lt_irrefl _), any_eq_false] at hsame
  rw [prefix_iff_eq_take]
  refine ext_getElem? fun i => ?_
  rw [getElem?_take]
  split
  · next hi =>
    have hget := hsame i (mem_range.2 hi)
    simp only [ne_eq, decide_not, Bool.not_eq_true, Bool.not_eq_false', decide_eq_true_eq,
      getElem?_map, getElem?_eq_getElem hi, Option.map_some, Option.some.injEq] at hget
    rw [hhash hget, getElem?_eq_getElem hi]
  · next hi => exact getElem?_eq_none (by omega)

theorem syncMessages_eq (messages : List M) :
    m.syncMessages hashMessage messages =
      rebaseToBaseline hashMessage (m.messagesToSync hashMessage messages) m.seededPrefixCount := by
  have hclear : m.clearLog.appendNew hashMessage (m.messagesToSync hashMessage messages) =
      rebaseToBaseline hashMessage (m.messagesToSync hashMessage messages) m.seededPrefixCount := by
    simp [clearLog, appendNew, rebaseToBaseline]
  unfold syncMessages
  simp only
  split
  · rfl
  · next hrewrite =>
    by_cases hrewritten :
      0 < m.lastSyncCount ∧ m.lastSyncCount ≤ (m.messagesToSync hashMessage messages).length ∧
        m.prefixChanged hashMessage (m.messagesToSync hashMessage messages) m.lastSyncCount = true
    · rw [if_pos hrewritten]
      exact hclear
    · rw [if_neg hrewritten]
      split
      · split
        · rfl
        · exact hclear
      · next hlen =>
        have hle : m.lastSyncCount ≤ (m.messagesToSync hashMessage messages).length := by omega
        have hprefix : m.log <+: m.messagesToSync hashMessage messages := by
          by_cases hpos : 0 < m.lastSyncCount
          · refine h.isPrefix_of_prefixChanged_eq_false hhash ?_
            rw [← Bool.not_eq_true]
            exact fun hchanged => hrewritten ⟨hpos, hle, hchanged⟩
          · rw [h.count_eq] at hpos
            rw [eq_nil_of_length_eq_zero (show m.log.length = 0 by omega)]
            exact nil_prefix
        obtain ⟨later, hlater⟩ := hprefix
        rw [appendNew, rebaseToBaseline, h.count_eq, ← hlater, drop_left]

theorem perform (op : ContextOp M) :
    Represents hashMessage (op.perform hashMessage m) (s.perform op) := by
  have hempty : Represents hashMessage (empty : AppendOnlyContextManager M H) ⟨[], []⟩ :=
    ⟨rfl, rfl, rfl, rfl⟩
  have hseeded : ∀ seed : List M, Represents hashMessage
      ⟨seed, seed.length, hashRange hashMessage seed 0 seed.length, seed.length⟩ ⟨seed, []⟩ :=
    fun seed => ⟨(ContextSpec.log_nil seed).symm, rfl, rfl, rfl⟩
  cases op with
  | syncMessages messages =>
    rw [ContextOp.perform, h.syncMessages_eq hhash, h.messagesToSync_eq hhash]
    exact ⟨rfl, rfl, rfl, h.seed_eq⟩
  | seedNormalizedMessages messages overwrite =>
    rw [ContextOp.perform, ContextSpec.perform, seedNormalizedMessages]
    by_cases hthrow : 0 < m.log.length ∧ overwrite = false
    · rw [if_pos hthrow, if_pos ⟨h.log_eq ▸ ne_nil_of_length_pos hthrow.1, hthrow.2⟩]
      exact h
    · have hnot : ¬(s.log ≠ [] ∧ overwrite = false) := fun hboth =>
        hthrow ⟨h.log_eq ▸ length_pos_of_ne_nil hboth.1, hboth.2⟩
      rw [if_neg hthrow, if_neg hnot]
      exact hseeded messages
  | releaseAfterHistoryRewrite preserve =>
    rw [ContextOp.perform, releaseAfterHistoryRewrite]
    cases preserve with
    | false => exact hempty
    | true =>
      have hkept : (if 0 < m.seededPrefixCount then m.log.take m.seededPrefixCount else []) =
          s.seed := by
        split
        · exact h.take_seed
        · next hpos =>
          rw [h.seed_eq] at hpos
          exact (eq_nil_of_length_eq_zero (by omega)).symm
      simp only [if_true, hkept]
      exact hseeded s.seed
  | resetSyncCursor => exact hempty
  | invalidateForModelChange => exact hempty
  | reset => exact hempty

end Represents

variable [DecidableEq H]

theorem runContext_represents (hhash : Function.Injective hashMessage) (ops : List (ContextOp M)) :
    Represents hashMessage (runContext hashMessage ops) (ContextSpec.run ops) := by
  induction ops using List.reverseRecOn with
  | nil => exact ⟨rfl, rfl, rfl, rfl⟩
  | append_singleton ops op ih =>
    rw [runContext, ContextSpec.run, foldl_append, foldl_append]
    exact ih.perform hhash op

/-- After `syncMessages` the log is the list of messages, with the seed before it if a seed is
active and the list does not start with it.  It grows when the list extends the one before, except
that a list that starts with the seed comes after a part of the seed. -/
theorem runContext_syncMessages (hhash : Function.Injective hashMessage) (ops : List (ContextOp M))
    (messages : List M) :
    (runContext hashMessage (ops ++ [.syncMessages messages])).log =
      (if (ContextSpec.run ops).seed = [] then messages
        else if (ContextSpec.run ops).seed <+: messages then messages
        else (ContextSpec.run ops).seed ++ messages) ∧
      ((ContextSpec.run ops).synced <+: messages →
        ((ContextSpec.run ops).synced = [] ∨
          (ContextSpec.run ops).seed <+: (ContextSpec.run ops).synced ∨
          ¬(ContextSpec.run ops).seed <+: messages) →
        (runContext hashMessage ops).log <+:
          (runContext hashMessage (ops ++ [.syncMessages messages])).log) := by
  have hbefore := (runContext_represents hhash ops).log_eq
  have hafter : (runContext hashMessage (ops ++ [.syncMessages messages])).log =
      ContextSpec.log ⟨(ContextSpec.run ops).seed, messages⟩ := by
    have hrun := (runContext_represents hhash (ops ++ [.syncMessages messages])).log_eq
    rwa [ContextSpec.run, foldl_append] at hrun
  rw [hafter, hbefore]
  constructor
  · unfold ContextSpec.log
    by_cases hnil : (ContextSpec.run ops).seed = []
    · rw [if_pos hnil, hnil, if_pos nil_prefix]
    · rw [if_neg hnil]
  · intro hextends hcases
    by_cases hstarts : (ContextSpec.run ops).seed <+: messages
    · rw [ContextSpec.log, ContextSpec.log, if_pos hstarts]
      rcases hcases with hempty | hsynced | hnot
      · rw [hempty, append_nil]
        split
        · exact nil_prefix
        · exact hstarts
      · rw [if_pos hsynced]
        exact hextends
      · exact absurd hstarts hnot
    · have hbeforeNot : ¬(ContextSpec.run ops).seed <+: (ContextSpec.run ops).synced :=
        fun hsynced => hstarts (hsynced.trans hextends)
      rw [ContextSpec.log, ContextSpec.log, if_neg hstarts, if_neg hbeforeNot]
      exact (prefix_append_right_inj _).2 hextends

end Refinement

theorem runContext_syncMessages_seeded :
    (runContext (fun message : Option Nat => message)
        [.seedNormalizedMessages [1, 2] false, .syncMessages [3]]).log <+:
      (runContext (fun message : Option Nat => message)
        [.seedNormalizedMessages [1, 2] false, .syncMessages [3], .syncMessages [3, 4]]).log :=
  (runContext_syncMessages Function.injective_id
    [.seedNormalizedMessages [1, 2] false, .syncMessages [3]] [3, 4]).2 (by decide) (by decide)

/-- A list that starts with the seed replaces the part of the seed that was synced before it. -/
theorem runContext_syncMessages_rebases :
    [1] <+: [1, 2, 4] ∧
      (runContext (fun message : Option Nat => message)
        [.seedNormalizedMessages [1, 2] false, .syncMessages [1]]).log = [1, 2, 1] ∧
      (runContext (fun message : Option Nat => message)
        [.seedNormalizedMessages [1, 2] false, .syncMessages [1], .syncMessages [1, 2, 4]]).log =
        [1, 2, 4] := by
  decide

end Vibrato.Agent
