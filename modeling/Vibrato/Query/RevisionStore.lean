import Vibrato.Lib.OrderedMap
import Vibrato.Text

/-! `RevisionStore`: the snapshots of the resources of a session, numbered for each resource, kept
while a cursor pins them or they are fresh. -/

namespace Vibrato.Query

open Lib OrderedMap

def MAX_REVISIONS_PER_RESOURCE : Nat := 8

def MAX_PINNED_REVISIONS : Nat := 128

def SNAPSHOT_TTL_MS : Int := 15 * 60 * 1000

structure Revision (π : Type) where
  id : Nat
  payload : π
  pins : List Text
  lastAccessed : Int
  deriving DecidableEq

inductive RevisionStoreError where
  | resourceGone (message : Text)
  | snapshotCapacityExceeded (message : Text)

/-- `pinIndex` leads from a cursor to the revision that it pins, by the key of its resource and its
id.  A revision is kept while it is pinned, so that no other takes its place. -/
structure RevisionStore (π : Type) where
  now : Int
  closing : Bool
  resources : OrderedMap Text (List (Revision π))
  pinIndex : OrderedMap Text (Text × Nat)

def resourceKey (resourceKind resourceId : Text) : Text := resourceKind ++ ':' :: resourceId

namespace RevisionStore

variable {π η : Type} [DecidableEq η] (hash : π → η)

def create (now : Int) : RevisionStore π where
  now
  closing := false
  resources := .empty
  pinIndex := .empty

variable (s : RevisionStore π)

variable (key : Text)

def revisionsOf : List (Revision π) := (s.resources.get? key).getD []

def find (key : Text) (id : Nat) : Option (Revision π) :=
  (s.revisionsOf key).find? fun revision => revision.id = id

/-- The id of the revision that comes last, and `0` when there is none. -/
def lastId (revisions : List (Revision π)) : Nat := (revisions.getLast?.map (·.id)).getD 0

/-- The loop that drops the oldest revision without a pin while there are too many.  Each turn of it
drops one, so that it takes no more turns than there are revisions. -/
def enforceLimit : Nat → List (Revision π) → List (Revision π)
  | 0, revisions => revisions
  | fuel + 1, revisions =>
    if revisions.length ≤ MAX_REVISIONS_PER_RESOURCE then revisions
    else if revisions.any (·.pins.isEmpty) then
      enforceLimit fuel (revisions.eraseP (·.pins.isEmpty))
    else revisions

def isUnchanged (payload : π) : Bool :=
  (s.revisionsOf key).getLast?.any fun previous => hash previous.payload = hash payload

def push (s : RevisionStore π) (key : Text) (payload : π) : RevisionStore π :=
  let revisions := s.revisionsOf key
  let revision := ⟨lastId revisions + 1, payload, [], s.now⟩
  let revisions := revisions ++ [revision]
  { s with resources := s.resources.set key (enforceLimit revisions.length revisions) }

/-- A payload of JavaScript's `undefined` is `none`.  The result has the id that the call
returns. -/
def createRevision (payload : Option π) : Except RevisionStoreError (RevisionStore π × Nat) :=
  if s.closing then .error (.resourceGone "snapshot store is closing".toList)
  else
    match payload with
    | none => .error (.resourceGone "snapshot payload is unavailable".toList)
    | some payload =>
      let last := lastId (s.revisionsOf key)
      if s.isUnchanged hash key payload then .ok (s, last)
      else .ok (s.push key payload, last + 1)

def update (f : Revision π → Revision π) : RevisionStore π :=
  { s with resources := s.resources.mapValues fun key' revisions =>
      if key' = key then revisions.map f else revisions }

/-- `f` is applied to one revision. -/
def updateRevision (id : Nat) (f : Revision π → Revision π) : RevisionStore π :=
  s.update key fun revision => if revision.id = id then f revision else revision

def readRevision (id : Nat) : RevisionStore π × Option π :=
  match s.find key id with
  | none => (s, none)
  | some revision =>
    (s.updateRevision key id fun revision => { revision with lastAccessed := s.now },
      some revision.payload)

def pin (cursorId key : Text) (id : Nat) : Except RevisionStoreError (RevisionStore π) :=
  if s.pinIndex.has cursorId then .ok s
  else if MAX_PINNED_REVISIONS ≤ s.pinIndex.size then
    .error (.snapshotCapacityExceeded "snapshot_capacity_exceeded".toList)
  else if (s.find key id).isNone then
    .error (.snapshotCapacityExceeded "snapshot is unavailable".toList)
  else
    .ok
      { s.updateRevision key id (fun revision =>
        { revision with pins := revision.pins ++ [cursorId] }) with
        pinIndex := s.pinIndex.set cursorId (key, id) }

def unpin (cursorId : Text) : RevisionStore π :=
  match s.pinIndex.get? cursorId with
  | none => s
  | some (key, id) =>
    { s.updateRevision key id (fun revision =>
      { revision with pins := revision.pins.filter (· ≠ cursorId) }) with
      pinIndex := s.pinIndex.erase cursorId }

def isKept (revision : Revision π) : Bool :=
  !revision.pins.isEmpty || decide (s.now - SNAPSHOT_TTL_MS ≤ revision.lastAccessed)

def sweep : RevisionStore π :=
  let resources := s.resources.mapValues fun _ revisions => revisions.filter s.isKept
  { s with resources := resources.retain fun _ revisions => !revisions.isEmpty }

def close : RevisionStore π :=
  { s with closing := true, resources := .empty, pinIndex := .empty }

theorem revisionsOf_update (key key' : Text) (f : Revision π → Revision π) :
    (s.update key f).revisionsOf key' = if key' = key then (s.revisionsOf key').map f
      else s.revisionsOf key' := by
  unfold revisionsOf update
  rw [get?_mapValues]
  cases s.resources.get? key' with
  | none => simp
  | some revisions =>
    by_cases hkey : key' = key
    · simp [hkey]
    · simp [hkey]

theorem revisionsOf_sweep (key : Text) :
    s.sweep.revisionsOf key = (s.revisionsOf key).filter s.isKept := by
  unfold revisionsOf sweep
  rw [get?_retain, get?_mapValues]
  cases s.resources.get? key with
  | none => rfl
  | some revisions =>
    -- a resource without a revision left is forgotten
    cases hempty : (revisions.filter s.isKept).isEmpty with
    | true =>
      rw [Option.map_some, Option.filter_some, hempty]
      exact (List.isEmpty_iff.mp hempty).symm
    | false =>
      rw [Option.map_some, Option.filter_some, hempty]
      rfl

theorem revisionsOf_push (key key' : Text) (payload : π) :
    (s.push key payload).revisionsOf key' =
      if key' = key then
        enforceLimit ((s.revisionsOf key).length + 1)
          (s.revisionsOf key ++ [⟨lastId (s.revisionsOf key) + 1, payload, [], s.now⟩])
      else s.revisionsOf key' := by
  by_cases hkey : key' = key
  · subst hkey
    simp [push, revisionsOf]
  · simp [push, revisionsOf, get?_set_ne _ _ hkey, hkey]

theorem createRevision_pinIndex {s : RevisionStore π} {key : Text} {payload : Option π}
    {result : RevisionStore π × Nat} (h : s.createRevision hash key payload = .ok result) :
    result.1.pinIndex = s.pinIndex := by
  unfold createRevision at h
  cases hclosing : s.closing with
  | true => simp [hclosing] at h
  | false =>
    rw [hclosing] at h
    cases payload with
    | none => cases h
    | some payload =>
      simp only at h
      cases hsame : s.isUnchanged hash key payload with
      | true =>
        rw [hsame] at h
        cases h
        rfl
      | false =>
        rw [hsame] at h
        cases h
        rfl

end RevisionStore

end Vibrato.Query
