import Vibrato.Query.Cursors

namespace Vibrato.Query

open Lib List OrderedMap

variable {π : Type} (format : CursorFormat)

namespace RevisionStore

/-- The pin of a cursor stays, and with it the revision that it pins. -/
structure KeepsPin (s s' : RevisionStore π) (cursorId : Text) : Prop where
  index : s'.pinIndex.get? cursorId = s.pinIndex.get? cursorId
  revision : ∀ {key id revision}, s.find key id = some revision → cursorId ∈ revision.pins →
    ∃ revision', s'.find key id = some revision' ∧ cursorId ∈ revision'.pins ∧
      revision'.payload = revision.payload

theorem KeepsPin.refl (s : RevisionStore π) (cursorId : Text) : KeepsPin s s cursorId :=
  ⟨rfl, fun hfind hpin => ⟨_, hfind, hpin, rfl⟩⟩

variable {cursorId key other : Text} {id : Nat}

variable {s s' : RevisionStore π}

theorem KeepsPin.trans {s'' : RevisionStore π} (h : KeepsPin s s' cursorId)
    (h' : KeepsPin s' s'' cursorId) : KeepsPin s s'' cursorId where
  index := h'.index.trans h.index
  revision hfind hpin := by
    obtain ⟨revision', hfind', hpin', hpayload'⟩ := h.revision hfind hpin
    obtain ⟨revision'', hfind'', hpin'', hpayload''⟩ := h'.revision hfind' hpin'
    exact ⟨revision'', hfind'', hpin'', hpayload''.trans hpayload'⟩

variable {f : Revision π → Revision π}

variable (s)

theorem find_updateRevision (key key' : Text) (id id' : Nat)
    (hf : ∀ revision, (f revision).id = revision.id) :
    (s.updateRevision key id f).find key' id' =
      (s.find key' id').map fun revision => if key' = key ∧ revision.id = id then f revision
        else revision := by
  unfold find updateRevision
  rw [revisionsOf_update]
  by_cases hkey : key' = key
  · rw [if_pos hkey, find?_map]
    have hsame : ((fun revision : Revision π => decide (revision.id = id')) ∘
        fun revision => if revision.id = id then f revision else revision) =
        fun revision => decide (revision.id = id') := by
      funext revision
      by_cases hid : revision.id = id
      · simp [hid, hf]
      · simp [hid]
    rw [hsame]
    simp only [hkey, true_and]
  · simp [hkey]

theorem keepsPin_updateRevision (key : Text) (id : Nat)
    (hid : ∀ revision, (f revision).id = revision.id)
    (hpayload : ∀ revision, (f revision).payload = revision.payload)
    (hpins : ∀ revision, cursorId ∈ revision.pins → cursorId ∈ (f revision).pins)
    {pinIndex : OrderedMap Text (Text × Nat)}
    (hindex : pinIndex.get? cursorId = s.pinIndex.get? cursorId) :
    KeepsPin s { s.updateRevision key id f with pinIndex } cursorId where
  index := hindex
  revision := by
    intro key' id' revision hfind hpin
    have hupdated := find_updateRevision s key key' id id' hid
    rw [hfind, Option.map_some] at hupdated
    by_cases hchanged : key' = key ∧ revision.id = id
    · rw [if_pos hchanged] at hupdated
      exact ⟨f revision, hupdated, hpins revision hpin, hpayload revision⟩
    · rw [if_neg hchanged] at hupdated
      exact ⟨revision, hupdated, hpin, rfl⟩

theorem keepsPin_unpin (hne : cursorId ≠ other) : KeepsPin s (s.unpin other) cursorId := by
  unfold unpin
  cases s.pinIndex.get? other with
  | none => exact KeepsPin.refl s cursorId
  | some pinned =>
    apply keepsPin_updateRevision
    · exact fun _ => rfl
    · exact fun _ => rfl
    · intro revision hpin
      exact mem_filter.mpr ⟨hpin, decide_eq_true hne⟩
    · exact get?_erase_ne _ hne

def canPin (cursorId key : Text) (id : Nat) : Bool :=
  s.pinIndex.has cursorId || (decide (s.pinIndex.size < MAX_PINNED_REVISIONS) &&
    (s.find key id).isSome)

def pinned (cursorId key : Text) (id : Nat) : RevisionStore π :=
  { s.updateRevision key id (fun revision =>
    { revision with pins := revision.pins ++ [cursorId] }) with
    pinIndex := s.pinIndex.set cursorId (key, id) }

theorem pin_cases (cursorId key : Text) (id : Nat) :
    (s.canPin cursorId key id = false ∧ ∃ error, s.pin cursorId key id = .error error) ∨
    (s.canPin cursorId key id = true ∧ s.pin cursorId key id =
      .ok (if s.pinIndex.has cursorId then s else s.pinned cursorId key id)) := by
  unfold pin canPin pinned
  cases s.pinIndex.has cursorId with
  | true => simp
  | false =>
    by_cases hsize : MAX_PINNED_REVISIONS ≤ s.pinIndex.size
    · simp [hsize, Nat.not_lt.mpr hsize]
    · cases s.find key id with
      | none => simp [hsize]
      | some revision => simp [hsize, Nat.not_le.mp hsize]

variable {s}

theorem pin_eq_ok (h : s.pin cursorId key id = .ok s') :
    (s.pinIndex.has cursorId = true ∧ s' = s) ∨
      (s.pinIndex.has cursorId = false ∧ s' = s.pinned cursorId key id) := by
  obtain ⟨-, error, heq⟩ | ⟨-, heq⟩ := pin_cases s cursorId key id
  · rw [heq] at h
    cases h
  · obtain rfl := Except.ok.inj (heq.symm.trans h)
    cases hhas : s.pinIndex.has cursorId with
    | true => exact .inl ⟨rfl, rfl⟩
    | false => exact .inr ⟨rfl, rfl⟩

theorem keepsPin_pin (hne : cursorId ≠ other) (h : s.pin other key id = .ok s') :
    KeepsPin s s' cursorId := by
  obtain ⟨-, rfl⟩ | ⟨-, rfl⟩ := pin_eq_ok h
  · exact KeepsPin.refl _ cursorId
  · apply keepsPin_updateRevision
    · exact fun _ => rfl
    · exact fun _ => rfl
    · intro revision hpin
      exact mem_append_left _ hpin
    · exact get?_set_ne _ _ hne

theorem find?_filter_of_find? {α : Type} {p q : α → Bool} {l : List α} {a : α}
    (h : l.find? p = some a)
    (ha : q a = true) : (l.filter q).find? p = some a := by
  induction l with
  | nil => cases h
  | cons b rest ih =>
    cases hp : p b with
    | true =>
      rw [find?_cons_of_pos hp] at h
      obtain rfl := Option.some.inj h
      rw [filter_cons_of_pos ha, find?_cons_of_pos hp]
    | false =>
      rw [find?_cons_of_neg (by simp [hp])] at h
      cases hq : q b with
      | true => rw [filter_cons_of_pos hq, find?_cons_of_neg (by simp [hp]), ih h]
      | false => rw [filter_cons_of_neg (by simp [hq]), ih h]

variable (s)

theorem keepsPin_sweep (cursorId : Text) : KeepsPin s s.sweep cursorId where
  index := rfl
  revision := by
    intro key id revision hfind hpin
    refine ⟨revision, ?_, hpin, rfl⟩
    unfold find
    rw [revisionsOf_sweep]
    apply find?_filter_of_find? hfind
    unfold isKept
    rw [isEmpty_eq_false_iff.mpr (ne_nil_of_mem hpin)]
    rfl

@[simp] theorem unpin_now (cursorId : Text) : (s.unpin cursorId).now = s.now := by
  unfold unpin
  cases s.pinIndex.get? cursorId with
  | none => rfl
  | some pinned => rfl

theorem get?_pinIndex_unpin (cursorId other : Text) :
    (s.unpin other).pinIndex.get? cursorId = if cursorId = other then none
      else s.pinIndex.get? cursorId := by
  unfold unpin
  cases hget : s.pinIndex.get? other with
  | none =>
    by_cases heq : cursorId = other
    · rw [if_pos heq, heq]
      exact hget
    · rw [if_neg heq]
  | some pinned => exact get?_erase _ _ _

end RevisionStore

namespace CursorRegistry

open RevisionStore

theorem get?_active_releaseAll (s : CursorRegistry π) (cursors : List Text) (cursor : Text) :
    (s.releaseAll cursors).active.get? cursor = if cursor ∈ cursors then none
      else s.active.get? cursor := by
  induction cursors generalizing s with
  | nil => rfl
  | cons other rest ih =>
    show ((s.release other).releaseAll rest).active.get? cursor = _
    rw [ih, show (s.release other).active = s.active.erase other from rfl, get?_erase]
    by_cases hrest : cursor ∈ rest
    · simp [hrest]
    · simp [hrest, mem_cons]

variable {connectionId cursor owner : Text}

variable (s : CursorRegistry π)

theorem keepsPin_releaseAll {cursors : List Text} (hnot : cursor ∉ cursors) :
    KeepsPin s.revisions (s.releaseAll cursors).revisions cursor := by
  induction cursors generalizing s with
  | nil => exact KeepsPin.refl _ _
  | cons other rest ih =>
    rw [mem_cons, not_or] at hnot
    exact (keepsPin_unpin s.revisions hnot.1).trans (ih (s.release other) hnot.2)

@[simp] theorem releaseAll_now (cursors : List Text) : (s.releaseAll cursors).now = s.now := by
  induction cursors generalizing s with
  | nil => rfl
  | cons other rest ih => exact (ih (s.release other)).trans (unpin_now s.revisions other)

@[simp] theorem sweep_now : s.sweep.now = s.now := releaseAll_now s s.expired

variable {s s' : CursorRegistry π}

theorem mem_expired :
    cursor ∈ s.expired ↔ ∃ active, s.active.get? cursor = some active ∧
      active.expiresAt ≤ s.now := by
  constructor
  · intro hmem
    obtain ⟨entry, hentry, rfl⟩ := mem_map.mp hmem
    obtain ⟨hin, htime⟩ := mem_filter.mp hentry
    exact ⟨entry.2, get?_eq_some.mpr hin, of_decide_eq_true htime⟩
  · rintro ⟨active, hget, htime⟩
    exact mem_map.mpr ⟨(cursor, active),
      mem_filter.mpr ⟨get?_eq_some.mp hget, decide_eq_true htime⟩, rfl⟩

inductive CursorCall where
  | grant (envelope : CursorEnvelope) (resourceKind resourceId : Text)
  | exchange (cursor : Text) (expected : CursorQueryContext) (resourceKind resourceId nonce : Text)
  | consume (cursor : Text) (expected : CursorQueryContext)

def finished : CursorRegistry π × Except CursorError Granting → CursorRegistry π
  | (s, .ok granting) => s.finishGrant granting
  | (s, .error _) => s

variable (s)

def call (connectionId : Text) : CursorCall → CursorRegistry π
  | .grant envelope resourceKind resourceId =>
    finished (s.startGrant format connectionId envelope resourceKind resourceId)
  | .exchange cursor expected resourceKind resourceId nonce =>
    finished (s.startExchange format cursor connectionId expected resourceKind resourceId nonce)
  | .consume cursor expected => (s.consume format cursor connectionId expected).1

/-- The connection holds the cursor: the cursor is recorded for it, is what the registry signs, and
has time left. -/
structure Holds (s : CursorRegistry π) (connectionId cursor : Text) : Prop where
  recorded : ∃ active, s.active.get? cursor = some active ∧ active.connectionId = connectionId ∧
    s.now < active.expiresAt
  signed : ∃ envelope, format.verifyCursor cursor = some envelope ∧
    ∀ time ∈ envelope.expiresAt, s.now < time

/-- The owner consumes the cursor with the same result as before, and its pin stays. -/
structure Undisturbed (s s' : CursorRegistry π) (connectionId cursor : Text) : Prop where
  consumes : ∀ expected,
    (s'.consume format cursor connectionId expected).2 =
      (s.consume format cursor connectionId expected).2
  pinned : KeepsPin s.revisions s'.revisions cursor

def accepts (connectionId : Text) (envelope : CursorEnvelope) (resourceKind resourceId : Text) :
    Bool :=
  !s.sweep.isFull connectionId &&
    s.sweep.revisions.canPin (format.signCursor (s.minted envelope))
      (resourceKey resourceKind resourceId)
      envelope.revision

/-- The call does not consume this very cursor, and signs no cursor with the same text. -/
def Spares (connectionId cursor : Text) : CursorCall → Prop
  | .grant envelope resourceKind resourceId =>
    ¬ (format.signCursor (s.minted envelope) = cursor ∧
      s.accepts format connectionId envelope resourceKind resourceId = true)
  | .exchange presented expected resourceKind resourceId nonce =>
    ∀ envelope, s.exchangedEnvelope format presented expected nonce = .ok envelope →
      ¬ (format.signCursor (s.minted envelope) = cursor ∧
        s.accepts format connectionId envelope resourceKind resourceId = true)
  | .consume presented _ => presented ≠ cursor

variable {s}

variable {format}

theorem consume_congr (hactive : s'.active.get? cursor = s.active.get? cursor)
    (hnow : s'.revisions.now = s.revisions.now) (connectionId : Text)
    (expected : CursorQueryContext) :
    (s'.consume format cursor connectionId expected).2 =
      (s.consume format cursor connectionId expected).2 := by
  unfold consume
  cases format.verifyCursor cursor with
  | none => rfl
  | some envelope =>
    have hexpired : s'.isExpired envelope (s.active.get? cursor) connectionId =
        s.isExpired envelope (s.active.get? cursor) connectionId := by
      unfold isExpired now
      rw [hnow]
    simp only [hactive, hexpired, apply_ite Prod.snd]

theorem Holds.not_mem_expired (h : s.Holds format connectionId cursor) : cursor ∉ s.expired := by
  obtain ⟨active, hget, -, htime⟩ := h.recorded
  rw [mem_expired]
  rintro ⟨active', hget', htime'⟩
  obtain rfl := Option.some.inj (hget.symm.trans hget')
  omega

theorem Undisturbed.refl (s : CursorRegistry π) (connectionId cursor : Text) :
    Undisturbed format s s connectionId cursor :=
  ⟨fun _ => rfl, KeepsPin.refl _ _⟩

theorem Holds.sweep_active
    (h : s.Holds format connectionId cursor) :
    s.sweep.active.get? cursor = s.active.get? cursor := by
  show (s.releaseAll s.expired).active.get? cursor = _
  rw [get?_active_releaseAll, if_neg h.not_mem_expired]

theorem Holds.sweep_keepsPin
    (h : s.Holds format connectionId cursor) : KeepsPin s.revisions s.sweep.revisions cursor :=
  (keepsPin_releaseAll s h.not_mem_expired).trans (keepsPin_sweep _ cursor)

theorem startGrant_cases (format : CursorFormat) (s : CursorRegistry π) (connectionId : Text)
    (envelope : CursorEnvelope)
    (resourceKind resourceId : Text) :
    (s.accepts format connectionId envelope resourceKind resourceId = false ∧
      ∃ error, s.startGrant format connectionId envelope resourceKind resourceId =
        (s.sweep, .error error)) ∨
    (s.accepts format connectionId envelope resourceKind resourceId = true ∧
      ∃ revisions, s.sweep.revisions.pin (format.signCursor (s.minted envelope))
        (resourceKey resourceKind resourceId)
          envelope.revision = .ok revisions ∧
        s.startGrant format connectionId envelope resourceKind resourceId =
          ({ s.sweep with revisions }, .ok ⟨format.signCursor (s.minted envelope),
            ⟨connectionId, resourceId, s.now + CURSOR_TTL_MS⟩, s.minted envelope⟩)) := by
  have hminted : s.sweep.minted envelope = s.minted envelope := by
    unfold minted
    rw [sweep_now]
  unfold startGrant accepts
  simp only [hminted, sweep_now]
  cases hfull : s.sweep.isFull connectionId with
  | true => exact .inl ⟨rfl, _, rfl⟩
  | false =>
    rw [show (s.minted envelope).revision = envelope.revision from rfl]
    obtain ⟨hrefused, error, hpin⟩ | ⟨haccepts, hpin⟩ := pin_cases s.sweep.revisions
      (format.signCursor (s.minted envelope))
        (resourceKey resourceKind resourceId) envelope.revision
    · rw [hpin, hrefused]
      exact .inl ⟨rfl, _, rfl⟩
    · rw [hpin, haccepts]
      exact .inr ⟨rfl, _, rfl, rfl⟩

theorem not_undisturbed (h : s.Holds format connectionId cursor)
    (hlost : ∀ active ∈ s'.active.get? cursor, active.connectionId ≠ connectionId) :
    ¬ Undisturbed format s s' connectionId cursor := by
  obtain ⟨active, hget, howner, htime⟩ := h.recorded
  obtain ⟨envelope, hverify, hsigned⟩ := h.signed
  intro hundisturbed
  have hbefore : s.isExpired envelope (s.active.get? cursor) connectionId = false := by
    rw [hget]
    show (decide (active.connectionId ≠ connectionId) || decide (active.expiresAt ≤ s.now) ||
      envelope.expiresAt.any (· ≤ s.now)) = false
    rw [howner, decide_eq_false (by simp), decide_eq_false (by omega)]
    cases hexpires : envelope.expiresAt with
    | none => rfl
    | some time =>
      have := hsigned time hexpires
      simpa using this
  have hafter : s'.isExpired envelope (s'.active.get? cursor) connectionId = true := by
    cases hget' : s'.active.get? cursor with
    | none => rfl
    | some active' =>
      show (decide (active'.connectionId ≠ connectionId) || decide (active'.expiresAt ≤ s'.now) ||
        envelope.expiresAt.any (· ≤ s'.now)) = true
      rw [decide_eq_true (hlost active' hget')]
      rfl
  -- a query that the envelope fits
  have hsame := hundisturbed.consumes ⟨envelope.sessionId, none, none, envelope.direction,
      envelope.pageShape⟩
  unfold consume at hsame
  rw [hverify] at hsame
  simp only [hbefore, hafter] at hsame
  simp [fits] at hsame

theorem undisturbed_finished_grant
    (h : s.Holds format owner cursor) (hother : connectionId ≠ owner) (envelope : CursorEnvelope)
    (resourceKind resourceId : Text) :
    Undisturbed format s (finished
      (s.startGrant format connectionId envelope resourceKind resourceId)) owner cursor ↔
      ¬ (format.signCursor (s.minted envelope) = cursor ∧
        s.accepts format connectionId envelope resourceKind resourceId = true) := by
  obtain ⟨hrefused, error, heq⟩ | ⟨haccepts, revisions, hpin, heq⟩ :=
    startGrant_cases format s connectionId envelope resourceKind resourceId
  · rw [heq, hrefused]
    refine iff_of_true ?_ (by simp)
    exact ⟨consume_congr h.sweep_active (sweep_now s) owner, h.sweep_keepsPin⟩
  · rw [heq, haccepts]
    by_cases hsame : format.signCursor (s.minted envelope) = cursor
    · refine iff_of_false ?_ (by simp [hsame])
      apply not_undisturbed h
      intro active hactive
      rw [hsame] at hactive
      have hset : active = ⟨connectionId, resourceId, s.now + CURSOR_TTL_MS⟩ := by
        have : (s.sweep.active.set cursor ⟨connectionId, resourceId, s.now + CURSOR_TTL_MS⟩).get?
            cursor = some active :=
          hactive
        rw [get?_set_self] at this
        exact (Option.some.inj this).symm
      rw [hset]
      exact hother
    · refine iff_of_true ?_ (by simp [hsame])
      have hne : cursor ≠ format.signCursor (s.minted envelope) := fun heq => hsame heq.symm
      constructor
      · have hnow : revisions.now = s.revisions.now := by
          obtain ⟨-, rfl⟩ | ⟨-, rfl⟩ := pin_eq_ok hpin
          · exact sweep_now s
          · exact sweep_now s
        have hactive : (s.sweep.active.set (format.signCursor (s.minted envelope))
            ⟨connectionId, resourceId, s.now + CURSOR_TTL_MS⟩).get? cursor =
              s.active.get? cursor := by
          rw [get?_set_ne _ _ hne, h.sweep_active]
        exact consume_congr hactive hnow owner
      · exact h.sweep_keepsPin.trans (keepsPin_pin hne hpin)

theorem undisturbed_release {presented : Text} (hne : cursor ≠ presented) :
    Undisturbed format s (s.release presented) owner cursor := by
  constructor
  · exact consume_congr (get?_erase_ne _ hne) (unpin_now _ _) owner
  · exact keepsPin_unpin _ hne

/-- A call of another connection leaves a cursor to its owner exactly when it neither consumes that
cursor nor records one with the same text. -/
theorem undisturbed_iff_spares (s : CursorRegistry π) (owner cursor connectionId : Text)
    (h : s.Holds format owner cursor) (hother : connectionId ≠ owner) (foreign : CursorCall) :
    Undisturbed format s (s.call format connectionId foreign) owner cursor ↔
      s.Spares format connectionId cursor foreign := by
  cases foreign with
  | grant envelope resourceKind resourceId =>
    exact undisturbed_finished_grant h hother envelope resourceKind resourceId
  | exchange presented expected resourceKind resourceId nonce =>
    show Undisturbed format s
        (finished (s.startExchange format presented connectionId expected resourceKind resourceId
      nonce)) owner cursor ↔
        ∀ envelope, s.exchangedEnvelope format presented expected nonce = .ok envelope → _
    unfold startExchange
    cases s.exchangedEnvelope format presented expected nonce with
    | error error =>
      refine iff_of_true (Undisturbed.refl s owner cursor) ?_
      intro envelope hok
      cases hok
    | ok envelope =>
      rw [undisturbed_finished_grant h hother]
      constructor
      · rintro hspares envelope' hok
        cases hok
        exact hspares
      · intro hspares
        exact hspares envelope rfl
  | consume presented expected =>
    show Undisturbed format s (s.consume format presented connectionId expected).1 owner cursor ↔
        presented ≠ cursor
    by_cases hsame : presented = cursor
    · subst hsame
      refine iff_of_false ?_ (by simp)
      obtain ⟨active, hget, howner, -⟩ := h.recorded
      obtain ⟨envelope, hverify, -⟩ := h.signed
      -- the owner is part of the test that ends the cursor
      have hexpired : s.isExpired envelope (s.active.get? presented) connectionId = true := by
        rw [hget]
        show (decide (active.connectionId ≠ connectionId) || _ || _) = true
        rw [howner, decide_eq_true hother.symm]
        rfl
      have hconsume :
          (s.consume format presented connectionId expected).1 = s.release presented := by
        unfold consume
        rw [hverify]
        simp only [hexpired, if_true]
      rw [hconsume]
      apply not_undisturbed h
      intro active' hactive'
      rw [show (s.release presented).active = s.active.erase presented from rfl,
        get?_erase_self] at hactive'
      cases hactive'
    · refine iff_of_true ?_ hsame
      have hne : cursor ≠ presented := fun heq => hsame heq.symm
      unfold consume
      cases format.verifyCursor presented with
      | none => exact Undisturbed.refl s owner cursor
      | some envelope =>
        simp only
        split
        · exact undisturbed_release hne
        · split
          · exact Undisturbed.refl s owner cursor
          · exact undisturbed_release hne

def checkpointEnvelope (nonce : Text) : CursorEnvelope :=
  ⟨"s".toList, "transcript".toList, some nonce, 1, none, none, none, .null,
    "backward".toList, .null⟩

/-- A cursor is the nonce of its envelope, and was signed at time `0`. -/
def nonceFormat : CursorFormat where
  canonicalJson := Json.stringify
  signCursor envelope := envelope.nonce.getD []
  verifyCursor cursor :=
    some { checkpointEnvelope cursor with issuedAt := some 0, expiresAt := some CURSOR_TTL_MS }

/-- A connection has been granted the cursor `n` on the first revision of the transcript. -/
def checkpointed : CursorRegistry Nat :=
  CursorRegistry.call nonceFormat
    ⟨(RevisionStore.create 0).push "transcript:default".toList 7, .empty⟩
    "a".toList (.grant (checkpointEnvelope "n".toList) "transcript".toList "default".toList)

theorem checkpointed_holds : checkpointed.Holds nonceFormat "a".toList "n".toList where
  recorded :=
    ⟨⟨"a".toList, "default".toList, CURSOR_TTL_MS⟩, by decide +kernel, rfl, by decide +kernel⟩
  signed := by
    refine ⟨_, rfl, ?_⟩
    intro time htime
    obtain rfl : CURSOR_TTL_MS = time := by simpa [nonceFormat] using htime
    decide +kernel

/-- A checkpoint that another connection takes leaves the first one. -/
theorem undisturbed_iff_spares_checkpoint :
    Undisturbed nonceFormat checkpointed (checkpointed.call nonceFormat "b".toList
      (.grant (checkpointEnvelope "m".toList) "transcript".toList "default".toList)) "a".toList
        "n".toList :=
  (undisturbed_iff_spares checkpointed "a".toList "n".toList "b".toList checkpointed_holds
    (by decide) _).mpr
    (fun h => absurd h.1 (by decide))

/-- Another connection consumes the cursor; its owner then cannot, and the revision is no longer
pinned. -/
theorem not_undisturbed_consume :
    ¬ ∀ (s : CursorRegistry Nat) (owner cursor connectionId : Text),
      s.Holds nonceFormat owner cursor →
      connectionId ≠ owner → ∀ foreign,
        Undisturbed nonceFormat s (s.call nonceFormat connectionId foreign) owner cursor := by
  intro h
  have hundisturbed :=
    h checkpointed "a".toList "n".toList "b".toList checkpointed_holds (by decide)
    (.consume "n".toList ⟨"s".toList, none, none, "backward".toList, .null⟩)
  have hpinned : (checkpointed.revisions.pinIndex.get? "n".toList).isSome = true := by
    decide +kernel
  rw [← hundisturbed.pinned.index] at hpinned
  exact absurd hpinned (by decide +kernel)

end CursorRegistry

end Vibrato.Query
