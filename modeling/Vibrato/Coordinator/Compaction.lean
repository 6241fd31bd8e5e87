import Vibrato.Coordinator.CompactRecords

namespace Vibrato.Coordinator

open Lib List OrderedMap

namespace Value

variable {v : Value} {text : Text}

@[simp] theorem is_iff : v.is text = true ↔ v = some (.str text) := by
  unfold is
  rcases v with _ | value
  · simp [strictEq]
  · cases value <;> simp [strictEq]

theorem oneOf_iff {options : List String} :
    v.oneOf options = true ↔ ∃ option ∈ options, v = some (.str option.toList) := by
  simp [oneOf]

theorem eq_of_isString (h : v.isString = true) : v = some (.str v.text) := by
  rcases v with _ | value
  · cases h
  · cases value <;> first | rfl | cases h

theorem eq_of_safeId (h : safeId v = true) : v = some (.str v.text) := by
  rw [safeId, Bool.and_eq_true] at h
  exact eq_of_isString h.1

theorem strictEq_str : v.strictEq (some (.str text)) = true ↔ v = some (.str text) := is_iff

end Value

namespace Records

variable (turnIds : List Text)

def ownedBy (owner : Value) : Bool := turnIds.any owner.is

def listedBy (turns : Table) (turnIds : List Text) (questionId : Text) : Bool :=
  turnIds.any fun turnId => decide (questionId ∈ questionIds (turns.get? turnId))

def withoutTurns (tx : SessionTransaction Records) : SessionTransaction Records :=
  deleteRecords (fun id => decide (id ∈ turnIds)) (listedBy tx.rest.canonical.turns turnIds)
    (ownedBy turnIds) tx

theorem deleteRecords_deleteRecords (turnGone questionGone turnGone' questionGone' : Text → Bool)
    (ownerGone ownerGone' : Value → Bool) (tx : SessionTransaction Records) :
    deleteRecords turnGone' questionGone' ownerGone'
      (deleteRecords turnGone questionGone ownerGone tx) =
      deleteRecords (fun id => turnGone id || turnGone' id)
        (fun id => questionGone id || questionGone' id)
        (fun owner => ownerGone owner || ownerGone' owner) tx := by
  unfold deleteRecords
  simp only [retain_retain, Bool.not_or]

theorem withoutTurns_nil (tx : SessionTransaction Records) : withoutTurns [] tx = tx := by
  have hlisted : listedBy tx.rest.canonical.turns [] = fun _ => false := rfl
  have howned : ownedBy [] = fun _ => false := rfl
  unfold withoutTurns deleteRecords
  simp only [hlisted, howned, not_mem_nil, decide_false, Bool.not_false, retain_true]

theorem deleteTurn_withoutTurns {turnIds : List Text} {turnId : Text} {turn : Json}
    {tx : SessionTransaction Records} (hturn : tx.rest.canonical.turns.get? turnId = some turn) :
    deleteTurn turnId turn (withoutTurns turnIds tx) = withoutTurns (turnIds ++ [turnId]) tx := by
  unfold deleteTurn withoutTurns
  rw [deleteRecords_deleteRecords]
  congr 1
  · funext id
    simp
  · funext id
    simp [listedBy, hturn]
  · funext owner
    simp [ownedBy]

section Loop

variable (rt : Runtime) (now : Int)

variable (tx : SessionTransaction Records)

def isRemovable (turnId : Text) : Bool :=
  tx.rest.canonical.turns.has turnId && !isPromotion tx.rest.canonical turnId &&
    !isNeeded rt now tx.rest.requests.operations turnId

def removableTurns : List Text :=
  (terminalTurnIds rt tx.rest.canonical).filter (isRemovable rt now tx)

/-- A turn is dropped if it may go and the transaction is too large without any number of the turns
that go before it. -/
def Dropped (turnId : Text) : Prop :=
  ∃ before after, removableTurns rt now tx = before ++ turnId :: after ∧
    ∀ earlier, earlier <+: before → MAX_NORMAL_BYTES < rt.bytes (withoutTurns earlier tx)

variable {rt now}

variable {tx : SessionTransaction Records} {turnIds : List Text} {turnId : Text}

variable (hkept : turnId ∉ turnIds) {tx : SessionTransaction Records}
include hkept

theorem get?_turns_withoutTurns :
    (withoutTurns turnIds tx).rest.canonical.turns.get? turnId =
      tx.rest.canonical.turns.get? turnId := by
  ext turn
  show (retain _ _).get? turnId = some turn ↔ _
  rw [get?_retain_eq_some]
  simp [hkept]

theorem isNeeded_withoutTurns :
    isNeeded rt now (withoutTurns turnIds tx).rest.requests.operations turnId =
      isNeeded rt now tx.rest.requests.operations turnId := by
  rw [Bool.eq_iff_iff]
  unfold isNeeded
  rw [any_values, any_values]
  refine exists_congr fun id => exists_congr fun request => and_congr_left fun hneeds => ?_
  rw [Bool.and_eq_true, Value.is_iff] at hneeds
  show (retain _ _).get? id = some request ↔ _
  rw [get?_retain_eq_some, hneeds.1]
  simp only [ownedBy, Bool.not_eq_true', and_iff_left_iff_imp]
  rintro -
  rw [any_eq_false]
  intro other hother howned
  rw [Value.is_iff] at howned
  cases howned
  exact hkept hother

theorem isRemovable_withoutTurns :
    isRemovable rt now (withoutTurns turnIds tx) turnId = isRemovable rt now tx turnId := by
  unfold isRemovable has
  rw [get?_turns_withoutTurns hkept, isNeeded_withoutTurns hkept]
  rfl

omit hkept

theorem deleteTurns_cons_of_not (hnot : isRemovable rt now tx turnId = false)
    (turnIds : List Text) :
    deleteTurns rt now (turnId :: turnIds) tx = deleteTurns rt now turnIds tx := by
  unfold isRemovable has at hnot
  rw [deleteTurns]
  split
  · rfl
  next turn hturn =>
  split
  · rfl
  next hpromotion =>
  split
  · rfl
  next hneeded =>
  simp [hturn, hpromotion, hneeded] at hnot

theorem deleteTurns_cons {turn : Json} (hturn : tx.rest.canonical.turns.get? turnId = some turn)
    (hremovable : isRemovable rt now tx turnId = true) (turnIds : List Text) :
    deleteTurns rt now (turnId :: turnIds) tx =
      if rt.bytes (deleteTurn turnId turn tx) ≤ MAX_NORMAL_BYTES then deleteTurn turnId turn tx
      else deleteTurns rt now turnIds (deleteTurn turnId turn tx) := by
  simp only [isRemovable, Bool.and_eq_true, Bool.not_eq_true'] at hremovable
  rw [deleteTurns, hturn]
  simp only [hremovable.1.2, hremovable.2, Bool.false_eq_true, if_false]

theorem exists_deleteTurns_eq (turnIds : List Text) {gone : List Text}
    (hdistinct : (gone ++ turnIds).Nodup)
    (hlarge : MAX_NORMAL_BYTES < rt.bytes (withoutTurns gone tx)) :
    ∃ more, more <+: turnIds.filter (isRemovable rt now tx) ∧
      deleteTurns rt now turnIds (withoutTurns gone tx) = withoutTurns (gone ++ more) tx ∧
      (∀ part, part <+: more → part ≠ more →
        MAX_NORMAL_BYTES < rt.bytes (withoutTurns (gone ++ part) tx)) ∧
      (more = turnIds.filter (isRemovable rt now tx) ∨
        rt.bytes (withoutTurns (gone ++ more) tx) ≤ MAX_NORMAL_BYTES) := by
  induction turnIds generalizing gone with
  | nil =>
    refine ⟨[], nil_prefix, by rw [append_nil, deleteTurns], ?_, .inl rfl⟩
    intro part hpart hne
    exact absurd (prefix_nil.mp hpart) hne
  | cons turnId turnIds ih =>
    have hkept : turnId ∉ gone := fun hmem =>
      (nodup_append.mp hdistinct).2.2 turnId hmem turnId mem_cons_self rfl
    by_cases hremovable : isRemovable rt now tx turnId = true
    · obtain ⟨turn, hturn⟩ : ∃ turn, tx.rest.canonical.turns.get? turnId = some turn := by
        simp only [isRemovable, Bool.and_eq_true] at hremovable
        exact has_iff.mp hremovable.1.1
      rw [filter_cons_of_pos hremovable,
        deleteTurns_cons ((get?_turns_withoutTurns hkept).trans hturn)
        ((isRemovable_withoutTurns hkept).trans hremovable), deleteTurn_withoutTurns hturn]
      by_cases hfits : rt.bytes (withoutTurns (gone ++ [turnId]) tx) ≤ MAX_NORMAL_BYTES
      · rw [if_pos hfits]
        refine ⟨[turnId], ?_, rfl, ?_, .inr hfits⟩
        · exact cons_prefix_cons.mpr ⟨rfl, nil_prefix⟩
        · intro part hpart hne
          cases part with
          | nil =>
            rw [append_nil]
            exact hlarge
          | cons first rest =>
            obtain ⟨rfl, hrest⟩ := cons_prefix_cons.mp hpart
            exact absurd (by rw [prefix_nil.mp hrest]) hne
      · rw [if_neg hfits]
        obtain ⟨more, hfirst, heq, hparts, hend⟩ := @ih (gone ++ [turnId])
          (by rw [append_assoc]; exact hdistinct) (Nat.lt_of_not_le hfits)
        simp only [append_assoc, singleton_append] at heq hparts hend
        refine ⟨turnId :: more, cons_prefix_cons.mpr ⟨rfl, hfirst⟩, heq, ?_, ?_⟩
        · intro part hpart hne
          cases part with
          | nil =>
            rw [append_nil]
            exact hlarge
          | cons first rest =>
            obtain ⟨rfl, hrest⟩ := cons_prefix_cons.mp hpart
            exact hparts rest hrest fun h => hne (by rw [h])
        · rcases hend with hall | hfits'
          · exact .inl (by rw [hall])
          · exact .inr hfits'
    · have hnot : isRemovable rt now tx turnId = false := by simpa using hremovable
      rw [filter_cons_of_neg hremovable,
        deleteTurns_cons_of_not ((isRemovable_withoutTurns hkept).trans hnot)]
      exact ih (hdistinct.sublist ((sublist_cons_self _ _).append_left gone)) hlarge

theorem mem_iff_dropped {gone : List Text} (hfirst : gone <+: removableTurns rt now tx)
    (hparts : ∀ part, part <+: gone → part ≠ gone →
      MAX_NORMAL_BYTES < rt.bytes (withoutTurns part tx)) (hend : gone = removableTurns rt now tx ∨
      rt.bytes (withoutTurns gone tx) ≤ MAX_NORMAL_BYTES) (turnId : Text) :
    turnId ∈ gone ↔ Dropped rt now tx turnId := by
  obtain ⟨left, hleft⟩ := hfirst
  constructor
  · intro hmem
    obtain ⟨before, after, rfl⟩ := append_of_mem hmem
    refine ⟨before,
      after ++ left, by rw [← hleft]; simp, fun earlier hearlier => hparts earlier ?_ ?_⟩
    · exact hearlier.trans (prefix_append before (turnId :: after))
    · intro heq
      have hle := hearlier.length_le
      rw [heq, length_append, length_cons] at hle
      omega
  · rintro ⟨before, after, heq, hlarge⟩
    -- If the list ends before the turn, it ends at a point where the transaction is too large.
    by_contra hnot
    have hbefore : gone <+: before := by
      have hpre : gone <+: before ++ turnId :: after := ⟨left, hleft.trans heq⟩
      refine ( prefix_or_prefix_of_prefix hpre (prefix_append before _)).elim id ?_
      rintro ⟨rest, rfl⟩
      cases rest with
      | nil => simp
      | cons first rest =>
        rw [prefix_append_right_inj, cons_prefix_cons] at hpre
        simp [hpre.1] at hnot
    rcases hend with hall | hfits
    · have hle := hbefore.length_le
      rw [hall, heq, length_append, length_cons] at hle
      omega
    · exact absurd hfits (Nat.not_le_of_lt (hlarge gone hbefore))

theorem Dropped.mem (h : Dropped rt now tx turnId) : turnId ∈ removableTurns rt now tx := by
  obtain ⟨before, after, heq, -⟩ := h
  rw [heq]
  simp

theorem exists_deleteForSize_eq (hdistinct : (terminalTurnIds rt tx.rest.canonical).Nodup) :
    ∃ gone, deleteForSize rt now tx = withoutTurns gone tx ∧ ∀ turnId, turnId ∈ gone ↔
      Dropped rt now tx turnId := by
  unfold deleteForSize
  by_cases hlarge : MAX_NORMAL_BYTES < rt.bytes tx
  · rw [if_pos hlarge]
    rw [← withoutTurns_nil tx] at hlarge
    obtain ⟨gone, hfirst, heq, hparts, hend⟩ := @exists_deleteTurns_eq rt now
      tx (terminalTurnIds rt tx.rest.canonical) [] hdistinct hlarge
    rw [withoutTurns_nil] at heq
    exact ⟨gone, heq, mem_iff_dropped hfirst hparts hend⟩
  · rw [if_neg hlarge]
    refine ⟨[], (withoutTurns_nil tx).symm, fun turnId => iff_of_false not_mem_nil ?_⟩
    rintro ⟨before, after, -, hearlier⟩
    have hnone := hearlier [] nil_prefix
    rw [withoutTurns_nil] at hnone
    exact hlarge hnone

theorem compactRecords_eq_ok {records : Records} (h : compactRecords rt now tx = .ok records) :
    records = (deleteForSize rt now (expireRequests rt now tx)).rest := by
  unfold compactRecords at h
  by_cases hover : MAX_NORMAL_BYTES + EMERGENCY_BYTES <
    rt.bytes (deleteForSize rt now (expireRequests rt now tx))
  · rw [if_pos hover] at h
    cases h
  · rw [if_neg hover] at h
    exact (Except.ok.inj h).symm

end Loop

end Records

end Vibrato.Coordinator
