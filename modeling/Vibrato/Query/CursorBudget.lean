import Mathlib.Data.List.Perm.Basic
import Vibrato.Lib.Runs
import Vibrato.Query.CursorOwners

namespace Vibrato.Query

open Lib RevisionStore List OrderedMap

variable {π η : Type} [DecidableEq η] (hash : π → η) (format : CursorFormat)

structure Grants (π : Type) where
  registry : CursorRegistry π
  granting : List Granting

inductive GrantStep (π : Type) where
  | clock (now : Int)
  | createRevision (key : Text) (payload : Option π)
  | startGrant (connectionId : Text) (envelope : CursorEnvelope) (resourceKind resourceId : Text)
  | startExchange (cursor connectionId : Text) (expected : CursorQueryContext)
      (resourceKind resourceId nonce : Text)
  /-- A grant that waits goes on. -/
  | finishGrant (index : Nat)
  | consume (cursor connectionId : Text) (expected : CursorQueryContext)
  | release (cursor : Text)
  | sweep
  | close

namespace Grants

def start (now : Int) : Grants π := ⟨.create now, []⟩

variable (g : Grants π)

def waiting : CursorRegistry π × Except CursorError Granting → Grants π
  | (registry, .ok granting) => ⟨registry, g.granting ++ [granting]⟩
  | (registry, .error _) => { g with registry }

def step : GrantStep π → Grants π
  | .clock now => { g with registry.revisions.now := now }
  | .createRevision key payload =>
    match g.registry.revisions.createRevision hash key payload with
    | .ok (revisions, _) => { g with registry.revisions := revisions }
    | .error _ => g
  | .startGrant connectionId envelope resourceKind resourceId =>
    g.waiting (g.registry.startGrant format connectionId envelope resourceKind resourceId)
  | .startExchange cursor connectionId expected resourceKind resourceId nonce =>
    g.waiting (g.registry.startExchange format cursor connectionId expected resourceKind
      resourceId nonce)
  | .finishGrant index =>
    match g.granting[index]? with
    | none => g
    | some granting => ⟨g.registry.finishGrant granting, g.granting.eraseIdx index⟩
  | .consume cursor connectionId expected =>
    { g with registry := (g.registry.consume format cursor connectionId expected).1 }
  | .release cursor => { g with registry := g.registry.release cursor }
  | .sweep => { g with registry := g.registry.sweep }
  | .close => { g with registry := g.registry.close }

/-- No connection has too many cursors, and when no grant waits, the cursors are those that pin a
revision. -/
def Bounded : Prop :=
  (∀ connectionId, (g.registry.held connectionId).length ≤ MAX_CURSORS_PER_CONNECTION) ∧
    (g.granting = [] →
      ∀ cursor, g.registry.active.has cursor = g.registry.revisions.pinIndex.has cursor)

def waitingOf (connectionId : Text) : List Granting :=
  g.granting.filter fun granting => granting.record.connectionId = connectionId

def IsWaiting (cursor : Text) : Prop := ∃ granting ∈ g.granting, granting.cursor = cursor

instance (g : Grants π) (cursor : Text) : Decidable (g.IsWaiting cursor) :=
  inferInstanceAs (Decidable (∃ granting ∈ g.granting, granting.cursor = cursor))

def SweepsApart (g : Grants π) : Prop := ∀ cursor ∈ g.registry.expired, ¬ g.IsWaiting cursor

def HasRoom (g : Grants π) (connectionId : Text) (envelope : CursorEnvelope)
    (resourceKind resourceId : Text) : Prop :=
  g.SweepsApart ∧
    (g.registry.accepts format connectionId envelope resourceKind resourceId = true →
      (g.registry.sweep.held connectionId).length + (g.waitingOf connectionId).length <
        MAX_CURSORS_PER_CONNECTION)

def KeepsApart (g : Grants π) : GrantStep π → Prop
  | .startGrant connectionId envelope resourceKind resourceId =>
    g.HasRoom format connectionId envelope resourceKind resourceId
  | .startExchange cursor connectionId expected resourceKind resourceId nonce =>
    match g.registry.exchangedEnvelope format cursor expected nonce with
    | .error _ => True
    | .ok envelope => g.HasRoom format connectionId envelope resourceKind resourceId
  | .consume cursor _ _ => ¬ g.IsWaiting cursor
  | .release cursor => ¬ g.IsWaiting cursor
  | .sweep => g.SweepsApart
  | .close => ∀ cursor ∈ g.registry.active.keys, ¬ g.IsWaiting cursor
  | _ => True

instance (g : Grants π) : Decidable g.SweepsApart :=
  inferInstanceAs (Decidable (∀ cursor ∈ g.registry.expired, ¬ g.IsWaiting cursor))

instance (g : Grants π) (connectionId : Text) (envelope : CursorEnvelope)
    (resourceKind resourceId : Text) :
    Decidable (g.HasRoom format connectionId envelope resourceKind resourceId) :=
  inferInstanceAs (Decidable (_ ∧ (_ → _)))

instance (g : Grants π) : (s : GrantStep π) → Decidable (g.KeepsApart format s)
  | .startGrant connectionId envelope resourceKind resourceId =>
    inferInstanceAs (Decidable (g.HasRoom format connectionId envelope resourceKind resourceId))
  | .startExchange cursor _ expected _ _ nonce => by
    simp only [KeepsApart]
    cases g.registry.exchangedEnvelope format cursor expected nonce with
    | error error => exact inferInstanceAs (Decidable True)
    | ok envelope => infer_instance
  | .consume cursor _ _ => inferInstanceAs (Decidable (¬ g.IsWaiting cursor))
  | .release cursor => inferInstanceAs (Decidable (¬ g.IsWaiting cursor))
  | .sweep => inferInstanceAs (Decidable g.SweepsApart)
  | .close => inferInstanceAs (Decidable (∀ cursor ∈ g.registry.active.keys, ¬ g.IsWaiting cursor))
  | .clock _ => inferInstanceAs (Decidable True)
  | .createRevision _ _ => inferInstanceAs (Decidable True)
  | .finishGrant _ => inferInstanceAs (Decidable True)

structure Inv (g : Grants π) : Prop where
  room : ∀ connectionId,
    (g.registry.held connectionId).length + (g.waitingOf connectionId).length ≤
      MAX_CURSORS_PER_CONNECTION
  pinned : ∀ cursor, g.registry.revisions.pinIndex.has cursor = true ↔
    g.registry.active.has cursor = true ∨ g.IsWaiting cursor

theorem Inv.start (now : Int) : Inv (start (π := π) now) where
  room _ := Nat.zero_le _
  pinned cursor := by
    constructor
    · intro h
      cases h
    · rintro (h | ⟨_, hmem, _⟩)
      · cases h
      · cases hmem

variable {g : Grants π}

theorem Inv.bounded (hinv : Inv g) : g.Bounded := by
  constructor
  · intro connectionId
    have := hinv.room connectionId
    omega
  · intro hnone cursor
    rw [Bool.eq_iff_iff, hinv.pinned]
    constructor
    · exact .inl
    · rintro (hactive | ⟨granting, hmem, -⟩)
      · exact hactive
      · rw [hnone] at hmem
        cases hmem

theorem Inv.of_same (hinv : Inv g) {registry : CursorRegistry π}
    (hactive : registry.active = g.registry.active)
    (hpins : registry.revisions.pinIndex = g.registry.revisions.pinIndex) :
    Inv { g with registry } where
  room connectionId := by
    show (registry.active.values.filter _).length + _ ≤ _
    rw [hactive]
    exact hinv.room connectionId
  pinned cursor := by
    rw [hactive, hpins]
    exact hinv.pinned cursor

variable {connectionId cursor : Text}

theorem Inv.release (hinv : Inv g) (hnot : ¬ g.IsWaiting cursor) :
    Inv { g with registry := g.registry.release cursor } where
  room connectionId := by
    have hle : ((g.registry.release cursor).held connectionId).length ≤
        (g.registry.held connectionId).length :=
      ((values_retain_sublist g.registry.active _).filter _).length_le
    have := hinv.room connectionId
    show ((g.registry.release cursor).held connectionId).length +
        (g.waitingOf connectionId).length ≤ _
    omega
  pinned cursor' := by
    show (g.registry.revisions.unpin cursor).pinIndex.has cursor' = true ↔
      (g.registry.active.erase cursor).has cursor' = true ∨ g.IsWaiting cursor'
    unfold has
    rw [get?_pinIndex_unpin, get?_erase]
    by_cases hsame : cursor' = cursor
    · subst hsame
      simp [hnot]
    · simp only [if_neg hsame]
      exact hinv.pinned cursor'

theorem Inv.releaseAll (hinv : Inv g) {cursors : List Text}
    (hnot : ∀ cursor ∈ cursors, ¬ g.IsWaiting cursor) :
    Inv { g with registry := g.registry.releaseAll cursors } := by
  induction cursors generalizing g with
  | nil => exact hinv
  | cons cursor rest ih =>
    exact ih (hinv.release (hnot cursor mem_cons_self)) fun other hother =>
      hnot other (mem_cons_of_mem _ hother)

theorem Inv.sweep (hinv : Inv g) (hapart : g.SweepsApart) :
    Inv { g with registry := g.registry.sweep } :=
  (hinv.releaseAll hapart).of_same rfl rfl

theorem get?_pinIndex_of_pin {s s' : RevisionStore π} {cursorId key : Text} {id : Nat}
    (h : s.pin cursorId key id = .ok s') :
    s'.pinIndex.has cursor = true ↔ s.pinIndex.has cursor = true ∨ cursor = cursorId := by
  obtain ⟨hhas, rfl⟩ | ⟨-, rfl⟩ := pin_eq_ok h
  · constructor
    · exact .inl
    · rintro (hcursor | rfl)
      · exact hcursor
      · exact hhas
  · exact has_set.trans or_comm

theorem Inv.startGrant (hinv : Inv g) {resourceKind resourceId : Text}
    {envelope : CursorEnvelope}
    (hroom : g.HasRoom format connectionId envelope resourceKind resourceId) :
    Inv (g.waiting
      (g.registry.startGrant format connectionId envelope resourceKind resourceId)) := by
  have hswept := hinv.sweep hroom.1
  obtain ⟨-, error, heq⟩ | ⟨haccepts, revisions, hpin, heq⟩ :=
    CursorRegistry.startGrant_cases format g.registry connectionId envelope resourceKind resourceId
  · rw [heq]
    exact hswept
  · rw [heq]
    have hless := hroom.2 haccepts
    constructor
    · intro connectionId'
      have hof := hswept.room connectionId'
      show (g.registry.sweep.held connectionId').length + ((g.granting ++ [_]).filter _).length ≤ _
      rw [filter_append, length_append]
      by_cases hsame : connectionId = connectionId'
      · subst hsame
        rw [filter_cons_of_pos (by simp)]
        exact hless
      · rw [filter_cons_of_neg (by simpa using hsame)]
        exact hof
    · intro cursor
      have hof := hswept.pinned cursor
      show revisions.pinIndex.has cursor = true ↔ g.registry.sweep.active.has cursor = true ∨
        ∃ granting ∈ g.granting ++ [_], granting.cursor = cursor
      rw [get?_pinIndex_of_pin hpin, hof, or_assoc]
      apply or_congr Iff.rfl
      constructor
      · rintro (⟨granting, hmem, hcursor⟩ | rfl)
        · exact ⟨granting, mem_append_left _ hmem, hcursor⟩
        · exact ⟨_, mem_append_right _ (mem_singleton_self _), rfl⟩
      · rintro ⟨granting, hmem, hcursor⟩
        rcases mem_append.mp hmem with hold | hnew
        · exact .inl ⟨granting, hold, hcursor⟩
        · rw [mem_singleton.mp hnew] at hcursor
          exact .inr hcursor.symm

theorem Inv.finishGrant (hinv : Inv g) {index : Nat} {granting : Granting}
    (hget : g.granting[index]? = some granting) :
    Inv ⟨g.registry.finishGrant granting, g.granting.eraseIdx index⟩ := by
  obtain ⟨hindex, rfl⟩ := List.getElem?_eq_some_iff.mp hget
  have hperm : (g.granting[index] :: g.granting.eraseIdx index).Perm g.granting := by
    have hset := (set_perm_cons_eraseIdx hindex g.granting[index]).symm
    rwa [set_getElem_self] at hset
  constructor
  · intro connectionId
    have hof := hinv.room connectionId
    have hlength := (hperm.filter fun granting =>
        decide (granting.record.connectionId = connectionId)).length_eq
    have hset := length_filter_values_set_le g.registry.active g.granting[index].cursor
      g.granting[index].record fun item => decide (item.connectionId = connectionId)
    unfold CursorRegistry.held waitingOf at hof ⊢
    show ((g.registry.active.set g.granting[index].cursor g.granting[index].record).values.filter
        _).length + ((g.granting.eraseIdx index).filter _).length ≤ _
    rw [filter_cons] at hlength
    by_cases hsame : g.granting[index].record.connectionId = connectionId
    · simp only [hsame, decide_true, if_true, length_cons] at hlength hset
      omega
    · simp only [hsame, decide_false, Bool.false_eq_true, if_false] at hlength hset
      omega
  · intro cursor
    show g.registry.revisions.pinIndex.has cursor = true ↔
      (g.registry.active.set g.granting[index].cursor g.granting[index].record).has cursor = true ∨
        ∃ granting ∈ g.granting.eraseIdx index, granting.cursor = cursor
    rw [hinv.pinned, has_set]
    have hwaiting : g.IsWaiting cursor ↔ cursor = g.granting[index].cursor ∨
        ∃ granting ∈ g.granting.eraseIdx index, granting.cursor = cursor := by
      constructor
      · rintro ⟨granting, hmem, hcursor⟩
        rcases mem_cons.mp (hperm.mem_iff.mpr hmem) with rfl | hrest
        · exact .inl hcursor.symm
        · exact .inr ⟨granting, hrest, hcursor⟩
      · rintro (rfl | ⟨granting, hmem, hcursor⟩)
        · exact ⟨_, hperm.mem_iff.mp mem_cons_self, rfl⟩
        · exact ⟨granting, hperm.mem_iff.mp (mem_cons_of_mem _ hmem), hcursor⟩
    rw [hwaiting]
    tauto

theorem Inv.consume (hinv : Inv g) {expected : CursorQueryContext} (hnot : ¬ g.IsWaiting cursor) :
    Inv { g with registry := (g.registry.consume format cursor connectionId expected).1 } := by
  unfold CursorRegistry.consume
  cases format.verifyCursor cursor with
  | none => exact hinv
  | some envelope =>
    simp only
    split
    · exact hinv.release hnot
    · split
      · exact hinv
      · exact hinv.release hnot

theorem Inv.step {g : Grants π} (hinv : Inv g) {s : GrantStep π} (hkeeps : g.KeepsApart format s) :
    Inv (g.step hash format s) := by
  cases s with
  | clock now => exact hinv.of_same rfl rfl
  | createRevision key payload =>
    show Inv (match g.registry.revisions.createRevision hash key payload with
      | .ok (revisions, _) => { g with registry.revisions := revisions }
      | .error _ => g)
    cases hcreate : g.registry.revisions.createRevision hash key payload with
    | error error => exact hinv
    | ok result => exact hinv.of_same rfl (createRevision_pinIndex hash hcreate)
  | startGrant connectionId envelope resourceKind resourceId => exact hinv.startGrant format hkeeps
  | startExchange cursor connectionId expected resourceKind resourceId nonce =>
    show Inv (g.waiting (g.registry.startExchange format cursor connectionId expected resourceKind
        resourceId nonce))
    unfold CursorRegistry.startExchange
    simp only [KeepsApart] at hkeeps
    cases hexchanged : g.registry.exchangedEnvelope format cursor expected nonce with
    | error error => exact hinv
    | ok envelope =>
      rw [hexchanged] at hkeeps
      exact hinv.startGrant format hkeeps
  | finishGrant index =>
    show Inv (match g.granting[index]? with
      | none => g
      | some granting => ⟨g.registry.finishGrant granting, g.granting.eraseIdx index⟩)
    cases hget : g.granting[index]? with
    | none => exact hinv
    | some granting => exact hinv.finishGrant hget
  | consume cursor connectionId expected => exact hinv.consume format hkeeps
  | release cursor => exact hinv.release hkeeps
  | sweep => exact hinv.sweep hkeeps
  | close => exact hinv.releaseAll hkeeps

/-- In a run that counts the grants that wait and lets none of their cursors go, no connection has
too many cursors, and those that are recorded pin their revisions. -/
theorem bounded_of_keepsApart (now : Int) (steps : List (GrantStep π))
    (h : Guarded (step hash format) (KeepsApart format) (start now) steps) :
    (steps.foldl (step hash format) (start now)).Bounded :=
  (Guarded.invariant (I := fun _ g => Inv g) (fun _ _ hinv hkeeps => hinv.step hash format hkeeps)
    (Inv.start now) h).bounded

def checkpoint (connectionId nonce : Text) : GrantStep Nat :=
  .startGrant connectionId (CursorRegistry.checkpointEnvelope nonce) "transcript".toList
    "default".toList

/-- Two grants wait together, and a third one comes after one of the cursors was consumed. -/
theorem bounded_of_two_grants :
    ([.createRevision "transcript:default".toList (some 7), checkpoint "a".toList "n".toList,
        checkpoint "a".toList "m".toList, .finishGrant 0, .finishGrant 0,
        .consume "n".toList "a".toList ⟨"s".toList, none, none, "backward".toList, .null⟩,
        checkpoint "a".toList "k".toList, .finishGrant 0].foldl (step id CursorRegistry.nonceFormat)
          (start 0)).Bounded :=
  bounded_of_keepsApart id CursorRegistry.nonceFormat 0 _ (by decide +kernel)

/-- Thirty-three grants of one connection start before the first of them goes on. -/
theorem not_bounded_of_many_grants :
    ¬ (([GrantStep.createRevision "transcript:default".toList (some 7)] ++
        ((List.range 33).map fun k => checkpoint "a".toList (Nat.toDigits 10 k)) ++
        List.replicate 33 (GrantStep.finishGrant 0)).foldl (step id CursorRegistry.nonceFormat)
          (start 0)).Bounded := by
  intro h
  exact absurd (h.1 "a".toList) (by decide +kernel)

end Grants

end Vibrato.Query
