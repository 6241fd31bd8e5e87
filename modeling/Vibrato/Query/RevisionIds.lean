import Vibrato.Lib.Runs
import Vibrato.Query.RevisionStore

namespace Vibrato.Query

open Lib RevisionStore List

variable {π η : Type} [DecidableEq η] (hash : π → η)

/-- A call of `createRevision` that returned an id, and what a read of that id gives right after
it. -/
structure Returned (π : Type) where
  key : Text
  id : Nat
  payload : π
  readBack : Option π
  deriving DecidableEq

/-- A store, with all that its calls of `createRevision` have returned. -/
structure StoreHistory (π : Type) where
  store : RevisionStore π
  returned : List (Returned π)

inductive StoreCall (π : Type) where
  | clock (now : Int)
  | createRevision (key : Text) (payload : Option π)
  | readRevision (key : Text) (id : Nat)
  | pin (cursorId key : Text) (id : Nat)
  | unpin (cursorId : Text)
  | sweep
  | close

namespace StoreHistory

def start (now : Int) : StoreHistory π := ⟨.create now, []⟩

variable (s : StoreHistory π)

def step : StoreCall π → StoreHistory π
  | .clock now => { s with store := { s.store with now } }
  | .createRevision key payload? =>
    match s.store.createRevision hash key payload?, payload? with
    | .ok (store, id), some payload =>
      ⟨store, s.returned ++ [⟨key, id, payload, (store.readRevision key id).2⟩]⟩
    | _, _ => s
  | .readRevision key id => { s with store := (s.store.readRevision key id).1 }
  | .pin cursorId key id =>
    match s.store.pin cursorId key id with
    | .ok store => { s with store }
    | .error _ => s
  | .unpin cursorId => { s with store := s.store.unpin cursorId }
  | .sweep => { s with store := s.store.sweep }
  | .close => { s with store := s.store.close }

/-- Each returned id was readable at once, and an id of a resource denotes one payload: in all that
was returned, and in what a read gives now. -/
def IdsDenote : Prop :=
  (∀ e ∈ s.returned, e.readBack = some e.payload) ∧
    (∀ e ∈ s.returned, ∀ e' ∈ s.returned, e.key = e'.key → e.id = e'.id → e.payload = e'.payload) ∧
    ∀ e ∈ s.returned, ∀ payload, (s.store.readRevision e.key e.id).2 = some payload →
      payload = e.payload

/-- A new revision is made only while the newest one that was ever returned for the resource is
retained, and while there is room for it or an older one that is not pinned. -/
def KeepsNewest : StoreCall π → Prop
  | .createRevision key (some payload) =>
    s.store.closing = false → s.store.isUnchanged hash key payload = false →
      (∀ e ∈ s.returned, e.key = key → e.id ≤ lastId (s.store.revisionsOf key)) ∧
        ((s.store.revisionsOf key).length < MAX_REVISIONS_PER_RESOURCE ∨
          (s.store.revisionsOf key).any (·.pins.isEmpty) = true)
  | _ => True

instance (s : StoreHistory π) (call : StoreCall π) : Decidable (s.KeepsNewest hash call) := by
  cases call with
  | createRevision key payload =>
    cases payload with
    | none => exact inferInstanceAs (Decidable True)
    | some payload => unfold KeepsNewest; infer_instance
  | _ => exact inferInstanceAs (Decidable True)

def numbered (revisions : List (Revision π)) : List (Nat × π) :=
  revisions.map fun revision => (revision.id, revision.payload)

def Leaves (s s' : RevisionStore π) : Prop :=
  ∀ key, (numbered (s'.revisionsOf key)).Sublist (numbered (s.revisionsOf key))

variable {f : Revision π → Revision π}

theorem numbered_map (hf : ∀ revision, (f revision).id = revision.id ∧
    (f revision).payload = revision.payload)
    (revisions : List (Revision π)) : numbered (revisions.map f) = numbered revisions := by
  unfold numbered
  rw [map_map]
  apply map_congr_left
  intro revision _
  simp [hf revision]

theorem leaves_updateRevision (s : RevisionStore π) (key : Text) (id : Nat)
    (hf : ∀ revision, (f revision).id = revision.id ∧ (f revision).payload = revision.payload) :
    Leaves s (s.updateRevision key id f) := by
  intro key'
  unfold updateRevision
  rw [revisionsOf_update]
  split
  · rw [numbered_map]
    intro revision
    by_cases hid : revision.id = id
    · simp [hid, hf revision]
    · simp [hid]
  · exact List.Sublist.refl _

theorem leaves_readRevision (s : RevisionStore π) (key : Text) (id : Nat) :
    Leaves s (s.readRevision key id).1 := by
  unfold readRevision
  cases s.find key id with
  | none => exact fun _ => List.Sublist.refl _
  | some revision => exact leaves_updateRevision s key id fun _ => ⟨rfl, rfl⟩

variable {key : Text}

theorem leaves_pin {s s' : RevisionStore π} {cursorId : Text} {id : Nat}
    (h : s.pin cursorId key id = .ok s') :
    Leaves s s' := by
  unfold RevisionStore.pin at h
  split at h
  · cases h
    exact fun _ => List.Sublist.refl _
  · split at h
    · cases h
    · split at h
      · cases h
      · cases h
        exact leaves_updateRevision s key id fun _ => ⟨rfl, rfl⟩

theorem leaves_unpin (s : RevisionStore π) (cursorId : Text) : Leaves s (s.unpin cursorId) := by
  unfold RevisionStore.unpin
  cases s.pinIndex.get? cursorId with
  | none => exact fun _ => List.Sublist.refl _
  | some pinned => exact leaves_updateRevision s pinned.1 pinned.2 fun _ => ⟨rfl, rfl⟩

theorem leaves_sweep (s : RevisionStore π) : Leaves s s.sweep := by
  intro key
  rw [revisionsOf_sweep]
  exact filter_sublist.map _

theorem leaves_close (s : RevisionStore π) : Leaves s s.close := fun _ => nil_sublist _

theorem readRevision_eq (s : RevisionStore π) (key : Text) (id : Nat) :
    (s.readRevision key id).2 = (s.find key id).map (·.payload) := by
  unfold readRevision
  cases s.find key id with
  | none => rfl
  | some revision => rfl

variable {revisions : List (Revision π)}

theorem enforceLimit_append (revision : Revision π)
    (hfew : revisions.length ≤ MAX_REVISIONS_PER_RESOURCE)
    (hroom : revisions.length < MAX_REVISIONS_PER_RESOURCE ∨
      revisions.any (·.pins.isEmpty) = true) :
    ∃ kept, kept.Sublist revisions ∧ kept.length < MAX_REVISIONS_PER_RESOURCE ∧
      enforceLimit (revisions.length + 1) (revisions ++ [revision]) = kept ++ [revision] := by
  by_cases hless : revisions.length < MAX_REVISIONS_PER_RESOURCE
  · refine ⟨revisions, List.Sublist.refl _, hless, ?_⟩
    have hle : (revisions ++ [revision]).length ≤ MAX_REVISIONS_PER_RESOURCE := by
      rw [length_append]
      exact hless
    simp only [enforceLimit, if_pos hle]
  · have hany := hroom.resolve_left hless
    have hfull : revisions.length = MAX_REVISIONS_PER_RESOURCE := by omega
    obtain ⟨candidate, hmem, hunpinned⟩ := any_eq_true.mp hany
    have hlength : (revisions.eraseP (·.pins.isEmpty)).length + 1 = MAX_REVISIONS_PER_RESOURCE := by
      have hpos := length_pos_of_mem hmem
      rw [length_eraseP_of_mem hmem hunpinned]
      omega
    refine ⟨revisions.eraseP (·.pins.isEmpty), eraseP_sublist, by omega, ?_⟩
    have hgt : ¬ (revisions ++ [revision]).length ≤ MAX_REVISIONS_PER_RESOURCE := by
      rw [length_append, hfull]
      simp
    have hall : (revisions ++ [revision]).any (·.pins.isEmpty) = true := by
      rw [any_append, hany, Bool.true_or]
    have herase : (revisions ++ [revision]).eraseP (·.pins.isEmpty) =
        revisions.eraseP (·.pins.isEmpty) ++ [revision] :=
      eraseP_append_left (p := fun r : Revision π => r.pins.isEmpty) hunpinned _ hmem
    rw [enforceLimit, if_neg hgt, if_pos hall, herase, hfull]
    show enforceLimit (7 + 1) _ = _
    rw [enforceLimit, if_pos]
    rw [length_append]
    exact hlength.le

/-- The revisions of a resource have ids that increase, and each was returned by a call. -/
structure Inv (s : StoreHistory π) : Prop where
  increasing : ∀ key, (numbered (s.store.revisionsOf key)).Pairwise fun a b => a.1 < b.1
  few : ∀ key, (numbered (s.store.revisionsOf key)).length ≤ MAX_REVISIONS_PER_RESOURCE
  known : ∀ key, ∀ r ∈ numbered (s.store.revisionsOf key),
    ∃ e ∈ s.returned, e.key = key ∧ e.id = r.1 ∧ e.payload = r.2
  single : ∀ e ∈ s.returned, ∀ e' ∈ s.returned, e.key = e'.key → e.id = e'.id →
    e.payload = e'.payload
  readable : ∀ e ∈ s.returned, e.readBack = some e.payload

theorem Inv.start (now : Int) : Inv (start (π := π) now) where
  increasing _ := List.Pairwise.nil
  few _ := Nat.zero_le _
  known _ _ h := absurd h not_mem_nil
  single _ h := absurd h not_mem_nil
  readable _ h := absurd h not_mem_nil

variable {s : StoreHistory π}

theorem Inv.leaves (hinv : Inv s) {store : RevisionStore π} (h : Leaves s.store store) :
    Inv { s with store } where
  increasing key := (hinv.increasing key).sublist (h key)
  few key := (h key).length_le.trans (hinv.few key)
  known key r hr := hinv.known key r ((h key).subset hr)
  single := hinv.single
  readable := hinv.readable

variable {revision : Revision π}

theorem find_of_mem (hincreasing : (numbered revisions).Pairwise fun a b => a.1 < b.1)
    (hmem : revision ∈ revisions) :
    revisions.find? (fun r => r.id = revision.id) = some revision := by
  induction revisions with
  | nil => cases hmem
  | cons r rest ih =>
    obtain ⟨hhead, htail⟩ := pairwise_cons.mp hincreasing
    rcases mem_cons.mp hmem with rfl | hrest
    · simp
    · have hlt : r.id < revision.id := hhead (revision.id, revision.payload) (mem_map_of_mem hrest)
      rw [find?_cons_of_neg (by simp [hlt.ne])]
      exact ih htail hrest

theorem Inv.readRevision (hinv : Inv s) (hmem : revision ∈ s.store.revisionsOf key) :
    (s.store.readRevision key revision.id).2 = some revision.payload := by
  rw [readRevision_eq]
  unfold RevisionStore.find
  rw [find_of_mem (hinv.increasing key) hmem]
  rfl

theorem le_lastId (hincreasing : (numbered revisions).Pairwise fun a b => a.1 < b.1) :
    ∀ r ∈ numbered revisions, r.1 ≤ lastId revisions := by
  intro r hr
  obtain ⟨revision, hmem, rfl⟩ := mem_map.mp hr
  obtain ⟨before, last, rfl⟩ : ∃ before last, revisions = before ++ [last] :=
    ⟨_, _, (dropLast_append_getLast (ne_nil_of_mem hmem)).symm⟩
  have hlast : lastId (before ++ [last]) = last.id := by
    unfold lastId
    rw [getLast?_concat]
    rfl
  rw [hlast]
  rcases mem_append.mp hmem with hbefore | hsame
  · unfold numbered at hincreasing
    rw [map_append, pairwise_append] at hincreasing
    exact (hincreasing.2.2 _ (mem_map_of_mem hbefore) (last.id, last.payload) (by simp)).le
  · rw [mem_singleton.mp hsame]

variable {returned : List (Returned π)} {e : Returned π}

theorem single_concat (hsingle : ∀ a ∈ returned, ∀ b ∈ returned, a.key = b.key → a.id = b.id →
    a.payload = b.payload)
    (hsame : ∀ a ∈ returned, a.key = e.key → a.id = e.id → a.payload = e.payload) :
    ∀ a ∈ returned ++ [e], ∀ b ∈ returned ++ [e], a.key = b.key → a.id = b.id →
      a.payload = b.payload := by
  intro a ha b hb hkey hid
  rcases mem_append.mp ha with hold | hnew
  · rcases mem_append.mp hb with hold' | hnew'
    · exact hsingle a hold b hold' hkey hid
    · rw [mem_singleton.mp hnew'] at hkey hid ⊢
      exact hsame a hold hkey hid
  · rw [mem_singleton.mp hnew] at hkey hid ⊢
    rcases mem_append.mp hb with hold' | hnew'
    · exact (hsame b hold' hkey.symm hid.symm).symm
    · rw [mem_singleton.mp hnew']

theorem readable_concat (hreadable : ∀ a ∈ returned, a.readBack = some a.payload)
    (he : e.readBack = some e.payload) :
    ∀ a ∈ returned ++ [e], a.readBack = some a.payload := by
  intro a ha
  rcases mem_append.mp ha with ha | ha
  · exact hreadable a ha
  · rw [mem_singleton.mp ha]
    exact he

theorem Inv.unchanged (hinv : Inv s) {previous : Revision π}
    (hlast : (s.store.revisionsOf key).getLast? = some previous) :
    Inv ⟨s.store, s.returned ++ [⟨key, lastId (s.store.revisionsOf key), previous.payload,
      (s.store.readRevision key (lastId (s.store.revisionsOf key))).2⟩]⟩ := by
  have hid : lastId (s.store.revisionsOf key) = previous.id := by
    unfold lastId
    rw [hlast]
    rfl
  have hmem : previous ∈ s.store.revisionsOf key := mem_of_getLast? hlast
  obtain ⟨e, he, hekey, heid, hepayload⟩ := hinv.known key _ (mem_map_of_mem hmem)
  rw [hid, hinv.readRevision hmem]
  refine ⟨hinv.increasing, hinv.few, ?_, ?_, ?_⟩
  · intro key' r hr
    obtain ⟨e', he', hof⟩ := hinv.known key' r hr
    exact ⟨e', mem_append_left _ he', hof⟩
  · -- the call that made the revision stands for this one
    have hsame : ∀ e' ∈ s.returned, e'.key = key → e'.id = previous.id →
      e'.payload = previous.payload := by
      intro e' he' hkey hid'
      exact (hinv.single e' he' e he (hkey.trans hekey.symm) (hid'.trans heid.symm)).trans hepayload
    exact single_concat hinv.single hsame
  · exact readable_concat hinv.readable rfl

theorem Inv.push {s : StoreHistory π} (hinv : Inv s) {key : Text} (payload : π)
    (hnewest : ∀ e ∈ s.returned, e.key = key → e.id ≤ lastId (s.store.revisionsOf key))
    (hroom : (s.store.revisionsOf key).length < MAX_REVISIONS_PER_RESOURCE ∨
      (s.store.revisionsOf key).any (·.pins.isEmpty) = true) :
    Inv ⟨s.store.push key payload,
      s.returned ++ [⟨key, lastId (s.store.revisionsOf key) + 1, payload,
      ((s.store.push key payload).readRevision key
        (lastId (s.store.revisionsOf key) + 1)).2⟩]⟩ := by
  set revision : Revision π :=
    ⟨lastId (s.store.revisionsOf key) + 1, payload, [], s.store.now⟩ with hrevision
  have hlength : (s.store.revisionsOf key).length ≤ MAX_REVISIONS_PER_RESOURCE := by
    have := hinv.few key
    unfold numbered at this
    rwa [length_map] at this
  obtain ⟨kept, hsub, hfew, hlimit⟩ := enforceLimit_append revision hlength hroom
  have hof : (s.store.push key payload).revisionsOf key = kept ++ [revision] := by
    rw [revisionsOf_push, if_pos rfl]
    exact hlimit
  have hother : ∀ key', key' ≠ key →
      (s.store.push key payload).revisionsOf key' = s.store.revisionsOf key' := by
    intro key' hne
    rw [revisionsOf_push, if_neg hne]
  have hkept : (numbered kept).Sublist (numbered (s.store.revisionsOf key)) := hsub.map _
  have hnumbered : numbered (kept ++ [revision]) = numbered kept ++ [(revision.id, payload)] := by
    unfold numbered
    rw [map_append]
    rfl
  have hincreasing : (numbered (kept ++ [revision])).Pairwise fun a b => a.1 < b.1 := by
    rw [hnumbered, pairwise_append]
    refine ⟨(hinv.increasing key).sublist hkept, pairwise_singleton _ _, ?_⟩
    intro a ha b hb
    rw [mem_singleton.mp hb]
    exact Nat.lt_succ_of_le (le_lastId (hinv.increasing key) a (hkept.subset ha))
  have hread : ((s.store.push key payload).readRevision key revision.id).2 = some payload := by
    rw [readRevision_eq]
    unfold RevisionStore.find
    rw [hof, find_of_mem hincreasing (mem_append_right _ (mem_singleton_self _))]
    rfl
  refine ⟨?_, ?_, ?_, ?_, ?_⟩
  · intro key'
    by_cases hkey : key' = key
    · subst hkey
      exact hof ▸ hincreasing
    · exact (hother key' hkey) ▸ hinv.increasing key'
  · intro key'
    by_cases hkey : key' = key
    · subst hkey
      rw [hof]
      unfold numbered
      rw [length_map, length_append]
      exact hfew
    · exact (hother key' hkey) ▸ hinv.few key'
  · intro key' r hr
    by_cases hkey : key' = key
    · subst hkey
      replace hr : r ∈ numbered ((s.store.push key' payload).revisionsOf key') := hr
      rw [hof, hnumbered] at hr
      rcases mem_append.mp hr with hr | hr
      · obtain ⟨e, he, heof⟩ := hinv.known key' r (hkept.subset hr)
        exact ⟨e, mem_append_left _ he, heof⟩
      · rw [mem_singleton.mp hr]
        exact ⟨_, mem_append_right _ (mem_singleton_self _), rfl, rfl, rfl⟩
    · replace hr : r ∈ numbered ((s.store.push key payload).revisionsOf key') := hr
      rw [hother key' hkey] at hr
      obtain ⟨e, he, heof⟩ := hinv.known key' r hr
      exact ⟨e, mem_append_left _ he, heof⟩
  · -- the new id is above every other one of the resource
    have hfresh : ∀ e ∈ s.returned, e.key = key → e.id ≠ lastId (s.store.revisionsOf key) + 1 := by
      intro e he hkey
      have := hnewest e he hkey
      omega
    exact single_concat hinv.single fun e he hkey hid => absurd hid (hfresh e he hkey)
  · exact readable_concat hinv.readable hread

theorem Inv.createRevision (hinjective : Function.Injective hash) (hinv : Inv s)
    {payload : Option π} (hkeeps : s.KeepsNewest hash (.createRevision key payload)) :
    Inv (s.step hash (.createRevision key payload)) := by
  cases hclosing : s.store.closing with
  | true => simpa [step, RevisionStore.createRevision, hclosing] using hinv
  | false =>
    cases payload with
    | none => simpa [step, RevisionStore.createRevision, hclosing] using hinv
    | some payload =>
      cases hsame : s.store.isUnchanged hash key payload with
      | true =>
        obtain ⟨previous, hlast, heq⟩ :
            ∃ previous, (s.store.revisionsOf key).getLast? = some previous ∧
            hash previous.payload = hash payload := by
          unfold isUnchanged at hsame
          cases hlast : (s.store.revisionsOf key).getLast? with
          | none =>
            rw [hlast] at hsame
            cases hsame
          | some previous =>
            rw [hlast] at hsame
            exact ⟨previous, rfl, of_decide_eq_true hsame⟩
        obtain rfl := hinjective heq
        simpa [step, RevisionStore.createRevision, hclosing, hsame] using hinv.unchanged hlast
      | false =>
        obtain ⟨hnewest, hroom⟩ := hkeeps hclosing hsame
        simpa [step, RevisionStore.createRevision, hclosing, hsame]
          using hinv.push payload hnewest hroom

theorem Inv.step (hinjective : Function.Injective hash) {s : StoreHistory π} (hinv : Inv s)
    {call : StoreCall π}
    (hkeeps : s.KeepsNewest hash call) : Inv (s.step hash call) := by
  cases call with
  | clock now => exact hinv.leaves fun _ => List.Sublist.refl _
  | createRevision key payload => exact hinv.createRevision hash hinjective hkeeps
  | readRevision key id => exact hinv.leaves (leaves_readRevision s.store key id)
  | pin cursorId key id =>
    show Inv (match s.store.pin cursorId key id with
      | .ok store => { s with store }
      | .error _ => s)
    cases hpin : s.store.pin cursorId key id with
    | ok store => exact hinv.leaves (leaves_pin hpin)
    | error _ => exact hinv
  | unpin cursorId => exact hinv.leaves (leaves_unpin s.store cursorId)
  | sweep => exact hinv.leaves (leaves_sweep s.store)
  | close => exact hinv.leaves (leaves_close s.store)

theorem Inv.idsDenote (hinv : Inv s) : s.IdsDenote := by
  refine ⟨hinv.readable, hinv.single, ?_⟩
  intro e he payload hread
  rw [readRevision_eq, Option.map_eq_some_iff] at hread
  obtain ⟨revision, hfind, rfl⟩ := hread
  have hmem : revision ∈ s.store.revisionsOf e.key := mem_of_find?_eq_some hfind
  have hid : revision.id = e.id := by simpa using find?_some hfind
  obtain ⟨e', he', hkey', hid', hpayload'⟩ := hinv.known e.key _ (mem_map_of_mem hmem)
  exact hpayload'.symm.trans (hinv.single e' he' e he hkey' (hid'.trans hid))

/-- No id of a resource denotes two payloads in a run that makes new revisions only while the newest
one is retained and has room beside it. -/
theorem idsDenote_of_keepsNewest (hinjective : Function.Injective hash) (now : Int)
    (calls : List (StoreCall π))
    (h : Guarded (step hash) (KeepsNewest hash) (start now) calls) :
    (calls.foldl (step hash) (start now)).IdsDenote :=
  (Guarded.invariant (I := fun _ s => Inv s)
    (fun _ _ hinv hkeeps => hinv.step hash hinjective hkeeps) (Inv.start now) h).idsDenote

/-- Two revisions of a file, the first of which a sweep drops after it was read. -/
theorem idsDenote_of_two_revisions :
    (([.createRevision "file:a".toList (some 1), .clock 900000,
      .createRevision "file:a".toList (some 2),
        .pin "cursor".toList "file:a".toList 2, .clock 900001, .sweep,
          .createRevision "file:a".toList (some 2),
        .createRevision "file:a".toList (some 3)] : List (StoreCall Nat)).foldl (step id)
          (start 0)).IdsDenote :=
  idsDenote_of_keepsNewest id Function.injective_id 0 _ (by decide +kernel)

/-- After a sweep the ids start again, and a revision beside eight that are pinned is dropped at
once. -/
theorem not_idsDenote :
    (¬ (([.createRevision "file:a".toList (some 1), .clock 900001, .sweep,
          .createRevision "file:a".toList (some 2)] : List (StoreCall Nat)).foldl (step id)
            (start 0)).IdsDenote) ∧
      ¬ ((((List.range 8).flatMap fun k =>
          [StoreCall.createRevision "file:a".toList (some k),
            .pin (Nat.toDigits 10 k) "file:a".toList (k + 1)]) ++
          [StoreCall.createRevision "file:a".toList (some 8)]).foldl (step id)
            (start 0)).IdsDenote := by
  constructor
  · intro h
    exact absurd (h.2.1 ⟨"file:a".toList, 1, 1, some 1⟩ (by decide +kernel)
      ⟨"file:a".toList, 1, 2, some 2⟩ (by decide +kernel) rfl rfl) (by decide)
  · intro h
    exact absurd (h.1 ⟨"file:a".toList, 9, 8, none⟩ (by decide +kernel)) (by decide)

end StoreHistory

end Vibrato.Query
