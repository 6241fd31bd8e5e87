import Vibrato.Coordinator.History
import Vibrato.Coordinator.CompactionLinks

namespace Vibrato.Coordinator

open Lib Records List OrderedMap SessionFiles Except

variable {rt : Runtime} {α : Type}

variable {id : Text} {now : Int} {tx : SessionTransaction Records}

theorem hasProperty_of_get?_eq_none {table : Table} (h : table.get? id = none) :
    hasProperty table id = decide (id ∈ inheritedNames) := by
  unfold hasProperty
  rw [has_eq_false.mpr h, Bool.false_or]

theorem get?_foldl_copy (after : Table) (id : Text) (entries : List (Text × Json))
    (target : Table) :
    (entries.foldl (fun target entry =>
        if !hasProperty after entry.1 && !hasProperty target entry.1 then target.set entry.1 entry.2
        else target) target).get? id =
      (target.get? id).or
        (if hasProperty after id then none
          else (entries.find? fun entry => entry.1 = id).map Prod.snd) := by
  induction entries generalizing target with
  | nil => simp
  | cons entry rest ih =>
    rw [foldl_cons, ih]
    by_cases hid : entry.1 = id
    · cases hafter : hasProperty after id with
      | true => simp [hid, hafter]
      | false =>
        cases hget : target.get? id with
        | some value =>
          have hhas : hasProperty target entry.1 = true := by
            unfold hasProperty has
            rw [hid, hget]
            rfl
          simp [hhas, hget]
        | none =>
          have hinherited : decide (id ∈ inheritedNames) = false := by
            exact (Bool.or_eq_false_iff.mp hafter).2
          have hfree : hasProperty target entry.1 = false := by
            rw [hid, hasProperty_of_get?_eq_none hget, hinherited]
          simp [hid, hafter, hid ▸ hfree]
    · rw [find?_cons_of_neg (by simpa using hid)]
      have hsame : (if !hasProperty after entry.1 && !hasProperty target entry.1 then
        target.set entry.1 entry.2 else target).get? id = target.get? id := by
        split
        · exact get?_set_ne _ _ fun heq => hid heq.symm
        · rfl
      rw [hsame]

theorem get?_copyRemovedHistory (before after target : Table) (id : Text) :
    (copyRemovedHistory before after target).get? id =
      (target.get? id).or (if hasProperty after id then none else before.get? id) :=
  get?_foldl_copy after id before.entries target

def Within (rt : Runtime) (tx' tx : SessionTransaction Records) : Prop :=
  ∀ table id value, (tx'.table rt table).get? id = some value →
    (tx.table rt table).get? id = some value

theorem Within.trans {a b c : SessionTransaction Records} (h : Within rt a b) (h' : Within rt b c) :
    Within rt a c :=
  fun table id value hget => h' table id value (h table id value hget)

theorem get?_outbox_keep (o : Outbox) (test : OutboxEvent → Bool) {value : Json}
    (h : ((o.keep test).table rt).get? id = some value) : (o.table rt).get? id = some value := by
  rw [get?_eq_some] at h ⊢
  obtain ⟨event, hmem, heq⟩ := mem_map.mp h
  exact mem_map.mpr ⟨event, mem_of_mem_filter hmem, heq⟩

theorem within_expireRequests (now : Int) (tx : SessionTransaction Records) :
    Within rt (expireRequests rt now tx) tx := by
  intro table id value hget
  cases table with
  | prompts | answers | operations => exact (get?_retain_eq_some.mp hget).1
  | _ => exact hget

theorem within_deleteRecords (turnGone questionGone : Text → Bool) (ownerGone : Value → Bool)
    (tx : SessionTransaction Records) :
    Within rt (deleteRecords turnGone questionGone ownerGone tx) tx := by
  intro table id value hget
  cases table with
  | outbox => exact hget
  | _ => exact (get?_retain_eq_some.mp hget).1

theorem within_deleteTurns (now : Int) (turnIds : List Text) (tx : SessionTransaction Records) :
    Within rt (deleteTurns rt now turnIds tx) tx := by
  induction turnIds generalizing tx with
  | nil => exact fun _ _ _ hget => hget
  | cons turnId rest ih =>
    unfold deleteTurns
    split
    · exact ih tx
    · split
      · exact ih tx
      · split
        · exact ih tx
        · dsimp only
          split
          · exact within_deleteRecords _ _ _ tx
          · exact (ih _).trans (within_deleteRecords _ _ _ tx)

theorem within_deleteForSize (now : Int) (tx : SessionTransaction Records) :
    Within rt (deleteForSize rt now tx) tx := by
  unfold deleteForSize
  split
  · exact within_deleteTurns now _ tx
  · exact fun _ _ _ hget => hget

theorem compactTransaction_ok {ρ : Type} {env : Env ρ} {tx tx' : SessionTransaction ρ}
    (hnormal : normalizeOutbox tx = tx) (h : compactTransaction env now tx = .ok tx') :
    ∃ rest, env.compactRest now { tx with outbox := tx.outbox.keep (retained tx.revision now) } =
      .ok rest ∧
      tx' = { tx with outbox := tx.outbox.keep (retained tx.revision now), rest } := by
  rw [compactTransaction, hnormal] at h
  obtain ⟨rest, hrest, h⟩ := bind_eq_ok.1 h
  exact ⟨rest, hrest, (ok.inj h).symm⟩

theorem compactRecords_ok {rest : Records}
    (h : compactRecords rt now tx = .ok rest) :
    rest = (deleteForSize rt now (expireRequests rt now tx)).rest := by
  unfold compactRecords at h
  dsimp only at h
  split at h
  · cases h
  · exact (ok.inj h).symm

theorem within_compactTransaction {namespaceId sessionId : Text} {tx' : SessionTransaction Records}
    (hnormal : normalizeOutbox tx = tx)
    (h : compactTransaction (rt.env namespaceId sessionId) now tx = .ok tx') :
    Within rt tx' tx := by
  obtain ⟨rest, hrest, rfl⟩ := compactTransaction_ok hnormal h
  have hcompactRest : (rt.env namespaceId sessionId).compactRest = compactRecords rt := by
    simp only [Runtime.env]
  rw [hcompactRest] at hrest
  have heq := compactRecords_ok hrest
  have hwithin : Within rt (deleteForSize rt now (expireRequests rt now
      { tx with outbox := tx.outbox.keep (retained tx.revision now) })) _ :=
    (within_deleteForSize now _).trans (within_expireRequests now _)
  generalize deleteForSize rt now (expireRequests rt now
    { tx with outbox := tx.outbox.keep (retained tx.revision now) }) = small at heq hwithin
  rw [heq]
  intro table id value hget
  cases table with
  | outbox => exact get?_outbox_keep tx.outbox _ hget
  | turns => exact hwithin .turns id value hget
  | questions => exact hwithin .questions id value hget
  | gateAuthorities => exact hwithin .gateAuthorities id value hget
  | reports => exact hwithin .reports id value hget
  | prompts => exact hwithin .prompts id value hget
  | answers => exact hwithin .answers id value hget
  | operations => exact hwithin .operations id value hget

theorem normalizeOutbox_idem {ρ : Type} (tx : SessionTransaction ρ) :
    normalizeOutbox (normalizeOutbox tx) = normalizeOutbox tx := by
  have hevents : (tx.outbox.events.map normalizeEvent).map normalizeEvent =
      tx.outbox.events.map normalizeEvent := by
    rw [map_map]
    apply map_congr_left
    intro event _
    by_cases hempty : event.publicEventId = []
    · by_cases hid : event.id = []
      · simp [normalizeEvent, hempty, hid]
      · simp [normalizeEvent, hempty, hid]
    · simp [normalizeEvent, hempty]
  unfold normalizeOutbox Outbox.update
  simp only [hevents]

def SessionFiles.lookup (files : SessionFiles) (endpointIncarnation : Option Text)
    (table : HistoryTable) (id : Text) :
    Option Json :=
  (files.history? endpointIncarnation).bind fun history => (history.tables table).get? id

namespace Transacted

variable (rt)

def Removed (t : Transacted α) (table : HistoryTable) (id : Text) (value : Json) : Prop :=
  (t.left.table rt table).get? id = some value ∧ (t.compacted.table rt table).get? id = none

def Begun (t : Transacted α) (n : Nat) : Prop :=
  (t.writes ≠ [] ∧ 0 < n) ∨ (t.writes = [] ∧ ∃ result, t.result = .ok result)

def Done (t : Transacted α) (n : Nat) : Prop :=
  t.writes.length ≤ n ∧ ∃ result, t.result = .ok result

/-- No record is lost, whichever of its writes the call makes before a crash. -/
structure Conserves (rt : Runtime) (files : SessionFiles) (t : Transacted α) : Prop where
  archived : ∀ n, t.Begun n → ∀ table id value, t.Removed rt table id value →
    (files.crash t.writes n).lookup t.left.endpointIncarnation table id = some value
  stored : ∀ n, t.Done n → ∀ table id value, (t.left.table rt table).get? id = some value →
    ((files.crash t.writes n).transaction.table rt table).get? id = some value ∨
      (files.crash t.writes n).lookup t.left.endpointIncarnation table id = some value
  unchanged : ∀ n, ¬ t.Done n → (files.crash t.writes n).transaction = files.transaction
  kept : ∀ n file history, files.histories.get? file = some history →
    ∃ history', (files.crash t.writes n).histories.get? file = some history' ∧
      ∀ table id value, (history.tables table).get? id = some value →
        (history'.tables table).get? id = some value

/-- The history has each removed record already, or has nothing under its id, which is no inherited
name. -/
def Archivable (files : SessionFiles) (t : Transacted α) : Prop :=
  (t.writes = [] → ∃ result, t.result = .ok result) →
    ∀ table id value, t.Removed rt table id value →
    files.lookup t.left.endpointIncarnation table id = some value ∨
      (files.lookup t.left.endpointIncarnation table id = none ∧ id ∉ inheritedNames)

end Transacted

structure Steps (rt : Runtime) (namespaceId : Text) (now : Int) (files : SessionFiles)
    (t : Transacted α)
    (archive : List FileWrite) : Prop where
  normal : normalizeOutbox t.left = t.left
  compacted : compactTransaction (rt.env namespaceId files.transaction.sessionId) now t.left =
    .ok t.compacted
  archived : archiveCompactedHistory rt files t.left t.compacted = .ok archive
  ends : (t.writes = archive ∧ t.compacted = files.transaction ∧ ∃ result, t.result = .ok result) ∨
    (t.writes = archive ∧ ∃ message, t.result = .error message) ∨
    (∃ tx, t.writes = archive ++ [.transaction tx] ∧
      (∀ table, tx.table rt table = t.compacted.table rt table) ∧
      ∃ result, t.result = .ok result)

variable {namespaceId : Text} {now : Int} {files : SessionFiles}
  {compacted left : SessionTransaction Records} {archive : List FileWrite}

variable {operation : SessionTransaction Records → Except Text (α × SessionTransaction Records)}
    {t : Transacted α}

theorem transact_ok (h : transact rt namespaceId now operation files = .ok t) :
    ∃ archive, Steps rt namespaceId now files t archive := by
  have hmark : ∀ compacted : SessionTransaction Records, ∀ table,
      SessionTransaction.table rt { compacted with
        rest := (rt.env namespaceId files.transaction.sessionId).markScheduler
          (compacted.revision + 1) compacted.rest
        revision := compacted.revision + 1 } table = compacted.table rt table := by
    intro compacted table
    cases table <;> rfl
  unfold transact at h
  generalize henv : rt.env namespaceId files.transaction.sessionId = env at h hmark
  dsimp only at h
  split at h
  · cases h
  obtain ⟨opened, -, h⟩ := bind_eq_ok.1 h
  obtain ⟨compacted, hcompact, h⟩ := bind_eq_ok.1 h
  obtain ⟨archive, harchive, h⟩ := bind_eq_ok.1 h
  have hnormal := normalizeOutbox_idem opened.2
  refine ⟨archive, ?_⟩
  rw [← henv] at hcompact
  split at h
  · next hsame =>
    obtain rfl := ok.inj h
    exact ⟨hnormal, hcompact, harchive, .inl ⟨rfl, hsame, _, rfl⟩⟩
  split at h
  · obtain rfl := ok.inj h
    exact ⟨hnormal, hcompact, harchive, .inr (.inl ⟨rfl, _, rfl⟩)⟩
  · obtain rfl := ok.inj h
    exact ⟨hnormal, hcompact, harchive, .inr (.inr ⟨_, rfl, hmark compacted, _, rfl⟩)⟩

theorem get?_removedHistory (left compacted : SessionTransaction Records) (table : HistoryTable)
    (id : Text) :
    ((removedHistory rt left compacted).tables table).get? id =
      if hasProperty (compacted.table rt table) id then none
        else (left.table rt table).get? id := by
  show (copyRemovedHistory _ _ _).get? id = _
  rw [get?_copyRemovedHistory]
  rfl

theorem archive_cases (h : archiveCompactedHistory rt files left compacted = .ok archive) :
    (archive = [] ∧ ∀ table id, ((removedHistory rt left compacted).tables table).get? id = none) ∨
    ∃ history, archive = [.history (sessionHistoryPath left.endpointIncarnation) history] ∧
      ∀ table id, (history.tables table).get? id =
        (files.lookup left.endpointIncarnation table id).or
        (((removedHistory rt left compacted).tables table).get? id) := by
  unfold archiveCompactedHistory at h
  dsimp only at h
  cases hnew : hasNewHistory (removedHistory rt left compacted) with
  | false =>
    rw [hnew] at h
    obtain rfl := ok.inj h
    refine .inl ⟨rfl, ?_⟩
    intro table id
    have hempty := any_eq_false.mp hnew table table.mem_all
    have hnil : ((removedHistory rt left compacted).tables table).entries = [] := by
      simpa using hempty
    unfold get?
    rw [hnil]
    rfl
  | true =>
    rw [hnew, if_neg (by decide)] at h
    split at h
    · cases h
    · refine .inr ⟨_, (ok.inj h).symm, ?_⟩
      intro table id
      have hlookup : (((files.history? left.endpointIncarnation).getD
          (emptySessionHistory left)).tables table).get? id =
          files.lookup left.endpointIncarnation table id := by
        unfold SessionFiles.lookup
        cases files.history? left.endpointIncarnation with
        | none => rfl
        | some history => rfl
      rw [get?_copyRemovedHistory, get?_removedHistory]
      congr 1
      -- what is not removed, or has an inherited name, was not copied in the first place
      cases hinherited : decide (id ∈ inheritedNames) with
      | true =>
        have hproperty : hasProperty (compacted.table rt table) id = true := by
          unfold hasProperty
          rw [hinherited, Bool.or_true]
        simp [hproperty]
      | false =>
        have hproperty : hasProperty .empty id = false := by
          rw [hasProperty_of_get?_eq_none (get?_empty id), hinherited]
        simp [hproperty]

theorem writes_cases (h : Steps rt namespaceId now files t archive) :
    (t.writes = archive ∧ ((∃ result, t.result = .ok result) → t.compacted = files.transaction)) ∨
      ∃ tx, t.writes = archive ++ [.transaction tx] ∧
        (∀ table, tx.table rt table = t.compacted.table rt table) ∧
        ∃ result, t.result = .ok result := by
  rcases h.ends with ⟨hwrites, hsame, -⟩ | ⟨hwrites, message, herror⟩ | hwritten
  · exact .inl ⟨hwrites, fun _ => hsame⟩
  · refine .inl ⟨hwrites, ?_⟩
    rintro ⟨result, hok⟩
    rw [herror] at hok
    cases hok
  · exact .inr hwritten

theorem crash_archive_transaction (h : archiveCompactedHistory rt files left compacted =
    .ok archive) (n : Nat) :
    (files.crash archive n).transaction = files.transaction := by
  unfold crash
  rcases archive_cases h with ⟨rfl, -⟩ | ⟨history, rfl, -⟩
  · rw [take_nil]
    rfl
  · cases n with
    | zero => rfl
    | succ m =>
      rw [take_succ_cons, take_nil]
      rfl

theorem history?_set (files : SessionFiles) (endpointIncarnation : Option Text)
    (history : SessionHistory)
    (tx : SessionTransaction Records) :
    history? ⟨tx, files.histories.set (sessionHistoryPath endpointIncarnation) history⟩
      endpointIncarnation = some history := by
  unfold history?
  rw [get?_set_self]

theorem crash_cases (h : Steps rt namespaceId now files t archive) (n : Nat) :
    ((files.crash t.writes n).histories = (files.crash archive n).histories) ∧
      ((¬ t.Done n ∧ (files.crash t.writes n).transaction = files.transaction) ∨
        (t.Done n ∧ ∀ table, (files.crash t.writes n).transaction.table rt table = t.compacted.table
          rt table)) := by
  have htaken := crash_archive_transaction h.archived
  rcases writes_cases h with ⟨hwrites, hsame⟩ | ⟨tx, hwrites, htables, hok⟩
  · rw [hwrites]
    refine ⟨rfl, ?_⟩
    by_cases hdone : t.Done n
    · refine .inr ⟨hdone, ?_⟩
      rw [htaken, hsame hdone.2]
      exact fun _ => rfl
    · exact .inl ⟨hdone, htaken n⟩
  · by_cases hle : n ≤ archive.length
    · have htake : files.crash t.writes n = files.crash archive n := by
        unfold crash
        rw [hwrites, take_append_of_le_length hle]
      rw [htake]
      refine ⟨rfl, .inl ⟨?_, htaken n⟩⟩
      rintro ⟨hlength, -⟩
      rw [hwrites, length_append, length_singleton] at hlength
      omega
    · have hwritten :
          files.crash t.writes n = { files.crash archive n with transaction := tx } := by
        unfold crash
        rw [hwrites, take_of_length_le (by simp; omega), take_of_length_le (by omega), foldl_append]
        rfl
      rw [hwritten]
      refine ⟨rfl, .inr ⟨⟨?_, hok⟩, htables⟩⟩
      rw [hwrites, length_append, length_singleton]
      omega

theorem history?_of_histories {files' : SessionFiles} (h : files'.histories = files.histories)
    (endpointIncarnation : Option Text) :
    files'.history? endpointIncarnation = files.history? endpointIncarnation := by
  unfold history?
  rw [h]

/-- From its first write on, the history has what it had, and what was removed. -/
theorem lookup_crash (h : Steps rt namespaceId now files t archive) {n : Nat} (hbegun : t.Begun n)
    (table : HistoryTable) (id : Text) :
    (files.crash t.writes n).lookup t.left.endpointIncarnation table id =
      (files.lookup t.left.endpointIncarnation table id).or
        (((removedHistory rt t.left t.compacted).tables table).get? id) := by
  have hlookup : (files.crash t.writes n).lookup t.left.endpointIncarnation table id =
      (files.crash archive n).lookup t.left.endpointIncarnation table id := by
    unfold SessionFiles.lookup
    rw [history?_of_histories (crash_cases h n).1]
  rw [hlookup]
  rcases archive_cases h.archived with ⟨rfl, hnone⟩ | ⟨history, rfl, hhistory⟩
  · rw [hnone, Option.or_none]
    unfold SessionFiles.crash
    rw [take_nil]
    rfl
  · have hpos : 0 < n := by
      rcases hbegun with ⟨-, hpos⟩ | ⟨hnil, -⟩
      · exact hpos
      · rcases writes_cases h with ⟨hwrites, -⟩ | ⟨tx, hwrites, -⟩
        · rw [hnil] at hwrites
          cases hwrites
        · rw [hnil] at hwrites
          cases hwrites
    obtain ⟨m, rfl⟩ : ∃ m, n = m + 1 := ⟨n - 1, by omega⟩
    rw [← hhistory]
    unfold SessionFiles.crash SessionFiles.lookup
    rw [take_succ_cons, take_nil]
    show (SessionFiles.history? ⟨_, files.histories.set _ history⟩ _).bind _ = _
    rw [history?_set]
    rfl

theorem histories_kept (h : Steps rt namespaceId now files t archive) (n : Nat) (file : Text)
    (history : SessionHistory) (hget : files.histories.get? file = some history) :
    ∃ history', (files.crash t.writes n).histories.get? file = some history' ∧
      ∀ table id value, (history.tables table).get? id = some value →
        (history'.tables table).get? id = some value := by
  rw [(crash_cases h n).1]
  rcases archive_cases h.archived with ⟨rfl, -⟩ | ⟨archived, rfl, htables⟩
  · refine ⟨history, ?_, fun _ _ _ hvalue => hvalue⟩
    unfold SessionFiles.crash
    rw [take_nil]
    exact hget
  · cases n with
    | zero => exact ⟨history, hget, fun _ _ _ hvalue => hvalue⟩
    | succ m =>
      have hset : (files.crash [.history (sessionHistoryPath t.left.endpointIncarnation) archived]
          (m + 1)).histories =
          files.histories.set (sessionHistoryPath t.left.endpointIncarnation) archived := by
        unfold SessionFiles.crash
        rw [take_succ_cons, take_nil]
        rfl
      rw [hset, get?_set]
      by_cases hfile : file = sessionHistoryPath t.left.endpointIncarnation
      · rw [if_pos hfile]
        refine ⟨archived, rfl, ?_⟩
        intro table id value hvalue
        have hlookup : files.lookup t.left.endpointIncarnation table id = some value := by
          unfold SessionFiles.lookup SessionFiles.history?
          rw [← hfile, hget]
          exact hvalue
        rw [htables, hlookup, Option.some_or]
      · rw [if_neg hfile]
        exact ⟨history, hget, fun _ _ _ hvalue => hvalue⟩

/-- A call conserves every record exactly when its history can take what the compaction removes. -/
theorem conserves_iff_archivable (rt : Runtime) (namespaceId : Text) (now : Int)
    (operation : SessionTransaction Records → Except Text (α × SessionTransaction Records))
    (files : SessionFiles)
    (t : Transacted α) (h : transact rt namespaceId now operation files = .ok t) :
    t.Conserves rt files ↔ t.Archivable rt files := by
  obtain ⟨archive, hsteps⟩ := transact_ok h
  have hwithin := within_compactTransaction hsteps.normal hsteps.compacted
  -- a removed record is among what is copied unless its name is inherited
  have hremoved : ∀ {table id value}, t.Removed rt table id value →
      ((removedHistory rt t.left t.compacted).tables table).get? id =
        if id ∈ inheritedNames then none else some value := by
    intro table id value hr
    rw [get?_removedHistory, hasProperty_of_get?_eq_none hr.2, hr.1]
    by_cases hin : id ∈ inheritedNames
    · simp [hin]
    · simp [hin]
  constructor
  · intro hconserves hok table id value hr
    have hbegun : t.Begun 1 := by
      by_cases hnil : t.writes = []
      · exact .inr ⟨hnil, hok hnil⟩
      · exact .inl ⟨hnil, Nat.one_pos⟩
    have hfound := hconserves.archived 1 hbegun table id value hr
    rw [lookup_crash hsteps hbegun, hremoved hr] at hfound
    cases hlookup : files.lookup t.left.endpointIncarnation table id with
    | some value' =>
      rw [hlookup] at hfound
      exact .inl hfound
    | none =>
      rw [hlookup] at hfound
      refine .inr ⟨rfl, ?_⟩
      intro hin
      rw [if_pos hin] at hfound
      cases hfound
  · intro harchivable
    have harchived : ∀ n, t.Begun n → ∀ table id value, t.Removed rt table id value →
        (files.crash t.writes n).lookup t.left.endpointIncarnation table id = some value := by
      intro n hbegun table id value hr
      have hok : t.writes = [] → ∃ result, t.result = .ok result := by
        intro hnil
        rcases hbegun with ⟨hne, -⟩ | ⟨-, hok⟩
        · exact absurd hnil hne
        · exact hok
      rw [lookup_crash hsteps hbegun, hremoved hr]
      rcases harchivable hok table id value hr with hhas | ⟨hnone, hin⟩
      · rw [hhas, Option.some_or]
      · rw [hnone, Option.none_or, if_neg hin]
    refine ⟨harchived, ?_, ?_, ?_⟩
    · intro n hdone table id value hleft
      cases hget : (t.compacted.table rt table).get? id with
      | none =>
        have hbegun : t.Begun n := by
          by_cases hnil : t.writes = []
          · exact .inr ⟨hnil, hdone.2⟩
          · exact .inl ⟨hnil, (length_pos_iff.mpr hnil).trans_le hdone.1⟩
        exact .inr (harchived n hbegun table id value ⟨hleft, hget⟩)
      | some value' =>
        rcases (crash_cases hsteps n).2 with ⟨hnot, -⟩ | ⟨-, htables⟩
        · exact absurd hdone hnot
        · rw [htables, hget, ← hleft, hwithin table id value' hget]
          exact .inl rfl
    · intro n hnot
      rcases (crash_cases hsteps n).2 with ⟨-, hsame⟩ | ⟨hdone, -⟩
      · exact hsame
      · exact absurd hdone hnot
    · exact histories_kept hsteps

def historyRuntime : Runtime :=
  { sampleRuntime with
    eventJson := fun event =>
      record [("id", .str event.id), ("transaction_revision", number event.transactionRevision)] }

def oldEvent : OutboxEvent :=
  ⟨"event-1".toList, 1, some 1767225600000, true, "event-1".toList,
    ⟨.acknowledged, none, none, some 1, some 0⟩⟩

variable (histories : OrderedMap Text SessionHistory)

/-- A session of the endpoint `a:b` whose event is old on the first of February. -/
def agedFiles : SessionFiles where
  transaction := { longTurn with
    revision := 2
    outbox := ⟨[oldEvent], by simp⟩
    rest := { longTurn.rest with
      endpoint := record [("incarnation", string "a:b"), ("observed_at", string newYear)]
      requests := ⟨.empty, .empty, .empty⟩
      canonical := { longTurn.rest.canonical with
        turns := .empty
        queue := record [("ordered_turn_ids", .arr []), ("active_turn_id", .null),
          ("selected_promotion", .null)] } } }
  histories

/-- The history file that the endpoint `a_b` has left, with an event under the same id. -/
def otherHistory : SessionHistory where
  schemaVersion := number 1
  sessionId := "s".toList
  endpointIncarnation := some "a_b".toList
  tables
    | .outbox =>
        ⟨[("event-1".toList,
          record [("id", string "event-1"), ("transaction_revision", number 7)])], by simp⟩
    | _ => .empty

def compactsOnly : Except Text (Transacted Unit) :=
  transact historyRuntime "n".toList 1769904000000 (fun tx => .ok ((), tx)) (agedFiles histories)

theorem exists_ok_of_any {ε β : Type} {x : Except ε β} {p : β → Bool}
    (h : x.toOption.any p = true) :
    ∃ b, x = .ok b ∧ p b = true := by
  cases x with
  | error e => cases h
  | ok b => exact ⟨b, rfl, h⟩

/-- Without a history the event is archived, and then the transaction is written without it. -/
theorem conserves_iff_archivable_first :
    ∃ t, compactsOnly .empty = .ok t ∧ t.writes.length = 2 ∧
      t.Conserves historyRuntime (agedFiles .empty) := by
  obtain ⟨t, ht, htest⟩ := exists_ok_of_any (x := compactsOnly .empty)
    (p := fun t => decide (t.writes.length = 2) && HistoryTable.all.all fun table =>
      (t.left.table historyRuntime table).entries.all fun entry =>
        decide (entry.1 ∉ inheritedNames))
    (by decide +kernel)
  rw [Bool.and_eq_true, decide_eq_true_eq] at htest
  refine ⟨t, ht, htest.1,
    (conserves_iff_archivable historyRuntime "n".toList 1769904000000 _ (agedFiles .empty) t ht).mpr
      ?_⟩
  intro _ table id value hremoved
  have hentries := all_eq_true.mp htest.2 table table.mem_all
  exact .inr
    ⟨rfl, of_decide_eq_true (all_eq_true.mp hentries (id, value) (get?_eq_some.mp hremoved.1))⟩

def otherHistories : OrderedMap Text SessionHistory :=
  ⟨[("history.a_b.v1.json".toList, otherHistory)], by simp⟩

/-- The endpoints `a:b` and `a_b` have one file, and the event of the second one keeps its place in
it. -/
theorem not_conserves_other_endpoint :
    ∃ t, compactsOnly otherHistories = .ok t ∧
      ¬ t.Conserves historyRuntime (agedFiles otherHistories) := by
  obtain ⟨t, ht, htest⟩ := exists_ok_of_any (x := compactsOnly otherHistories)
    (p := fun t => decide (t.writes ≠ [] ∧
      (t.left.table historyRuntime .outbox).get? "event-1".toList =
        some (historyRuntime.eventJson oldEvent) ∧
      (t.compacted.table historyRuntime .outbox).get? "event-1".toList = none ∧
      ((agedFiles otherHistories).crash t.writes 1).lookup t.left.endpointIncarnation .outbox
        "event-1".toList ≠ some (historyRuntime.eventJson oldEvent)))
    (by decide +kernel)
  obtain ⟨hwrites, hleft, hcompacted, hlookup⟩ := of_decide_eq_true htest
  refine ⟨t, ht, ?_⟩
  intro hconserves
  exact hlookup (hconserves.archived 1 (.inl ⟨hwrites, Nat.one_pos⟩) .outbox _ _ ⟨hleft,
    hcompacted⟩)

end Vibrato.Coordinator
