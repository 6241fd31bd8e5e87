import Vibrato.Lib.RefCount
import Vibrato.Query.RevisionStore

/-! The files of a `RevisionStore`: the JSON of a revision lies in chunks, each in a file that is
named by its hash and shared by all revisions that have it. -/

namespace Vibrato.Query

open Lib

variable {χ η : Type}

def CHUNK_BYTES : Nat := 4 * 1024 * 1024

def MAX_MEMORY_BYTES : Nat := 16 * 1024 * 1024

/-- What `#serialise` returns.  Only the last chunk is short: another one ends before its
four-mebibyte limit only where the next character, of up to four bytes, does not fit. -/
structure Spill (χ η : Type) where
  hash : η
  chunks : List χ
  chunkLengths : List Nat
  measured : chunkLengths.length = chunks.length
  fits : ∀ length ∈ chunkLengths, 0 < length ∧ length ≤ CHUNK_BYTES
  full : ∀ length ∈ chunkLengths.dropLast, CHUNK_BYTES < length + 4
  deriving DecidableEq

def Spill.bytes (spill : Spill χ η) : Nat := spill.chunkLengths.sum

/-- The payload is read back from its chunks, to be kept in memory. -/
def Spill.small (spill : Spill χ η) : Bool := spill.bytes ≤ MAX_MEMORY_BYTES

/-- A call of `createRevision` that has not compared its payload yet. -/
structure Creation (χ η : Type) where
  key : Text
  spill : Spill χ η
  /-- It waits for `mkdtemp`. -/
  making : Bool
  directory : Option Nat
  written : Nat
  read : Nat

structure Spills (χ η : Type) where
  store : RevisionStore (Spill χ η)
  directory : Option Nat
  /-- How many directories `mkdtemp` has made. -/
  made : Nat
  files : List (Nat × χ)
  chunkRefs : OrderedMap χ Nat
  creating : List (Creation χ η)
  /-- The resources of revisions that were made and whose calls have yet to enforce the limit. -/
  evicting : List Text
  /-- Calls of `unlink` that have yet to take place. -/
  unlinking : List (Nat × χ)

inductive SpillStep (χ η : Type) where
  | clock (now : Int)
  | createRevision (key : Text) (spill : Spill χ η)
  | makeDirectory (creation : Nat)
  | openDirectory (creation : Nat)
  | writeChunk (creation : Nat)
  | readBack (creation : Nat)
  /-- A file operation of the call fails. -/
  | failCreation (creation : Nat)
  | finishCreation (creation : Nat)
  | evict (index : Nat)
  | unlink (index : Nat)
  | readRevision (key : Text) (id : Nat)
  | pin (cursorId key : Text) (id : Nat)
  | unpin (cursorId : Text)
  | sweep

def chunksOf (revisions : List (Revision (Spill χ η))) : List χ :=
  revisions.flatMap (·.payload.chunks)

def evictLoop {π : Type} : Nat → List (Revision π) → List (Revision π) × List (Revision π)
  | 0, revisions => (revisions, [])
  | fuel + 1, revisions =>
    if revisions.length ≤ MAX_REVISIONS_PER_RESOURCE then (revisions, [])
    else
      match revisions.find? (·.pins.isEmpty) with
      | none => (revisions, [])
      | some candidate =>
        let (kept, dropped) := evictLoop fuel (revisions.eraseP (·.pins.isEmpty))
        (kept, candidate :: dropped)

def RevisionStore.setRevisions {π : Type} (s : RevisionStore π) (key : Text)
    (revisions : List (Revision π)) :
    RevisionStore π :=
  { s with resources := s.resources.set key revisions }

def RevisionStore.swept {π : Type} (s : RevisionStore π) : List (Revision π) :=
  s.resources.values.flatMap fun revisions => revisions.filter fun revision => !s.isKept revision

namespace Spills

variable [DecidableEq χ] [DecidableEq η]

def start (now : Int) (storageDir : Option Nat) : Spills χ η where
  store := .create now
  directory := storageDir
  made := (storageDir.map (· + 1)).getD 0
  files := []
  chunkRefs := .empty
  creating := []
  evicting := []
  unlinking := []

variable (s : Spills χ η)

def unlinkAll (chunks : List χ) : Spills χ η :=
  match s.directory with
  | none => s
  | some directory =>
      { s with unlinking := s.unlinking ++ chunks.map fun chunk => (directory, chunk) }

/-- `#drop` of each of the revisions. -/
def drop (revisions : List (Revision (Spill χ η))) : Spills χ η :=
  let (chunkRefs, freed) := RefCount.releaseAll s.chunkRefs (chunksOf revisions)
  { s with chunkRefs }.unlinkAll freed

variable (creation : Creation χ η)

def isComplete : Bool :=
  decide (creation.directory.isSome ∧ creation.written = creation.spill.chunks.length) &&
    (!creation.spill.small || decide (creation.read = creation.spill.chunks.length))

def discarded : List χ :=
  creation.spill.chunks.filter fun chunk => !s.chunkRefs.has chunk

/-- `createRevision` from the end of its serialisation on, up to its next `await`. -/
def compare : Spills χ η :=
  let revisions := s.store.revisionsOf creation.key
  if s.store.isUnchanged (·.hash) creation.key creation.spill then
    s.unlinkAll (s.discarded creation)
  else
    let revision := ⟨RevisionStore.lastId revisions + 1, creation.spill, [], s.store.now⟩
    { s with
      store := s.store.setRevisions creation.key (revisions ++ [revision])
      chunkRefs := RefCount.retainAll s.chunkRefs creation.spill.chunks
      evicting := s.evicting ++ [creation.key] }

def enforce (key : Text) : Spills χ η :=
  let revisions := s.store.revisionsOf key
  let (kept, dropped) := evictLoop revisions.length revisions
  { s with store := s.store.setRevisions key kept }.drop dropped

def step (s : Spills χ η) : SpillStep χ η → Spills χ η
  | .clock now => { s with store.now := now }
  | .createRevision key spill =>
    { s with creating := s.creating ++ [⟨key, spill, s.directory.isNone, none, 0, 0⟩] }
  | .makeDirectory index =>
    match s.creating[index]? with
    | none => s
    | some creation =>
      if creation.making then
        { s with
          directory := some s.made
          made := s.made + 1
          creating := s.creating.set index { creation with making := false } }
      else s
  | .openDirectory index =>
    match s.creating[index]? with
    | none => s
    | some creation =>
      if creation.making || creation.directory.isSome then s
      else { s with creating := s.creating.set index { creation with directory := s.directory } }
  | .writeChunk index =>
    match s.creating[index]? with
    | none => s
    | some creation =>
      match creation.directory, creation.spill.chunks[creation.written]? with
      | some directory, some chunk =>
        { s with
          files := (directory, chunk) :: s.files
          creating := s.creating.set index { creation with written := creation.written + 1 } }
      | _, _ => s
  | .readBack index =>
    match s.creating[index]? with
    | none => s
    | some creation =>
      if !creation.spill.small || decide (creation.written < creation.spill.chunks.length) then s
      else
        match s.directory, creation.spill.chunks[creation.read]? with
        | some directory, some chunk =>
          if (directory, chunk) ∈ s.files then
            { s with creating := s.creating.set index { creation with read := creation.read + 1 } }
          else { s with creating := s.creating.eraseIdx index }
        | _, _ => s
  | .failCreation index => { s with creating := s.creating.eraseIdx index }
  | .finishCreation index =>
    match s.creating[index]? with
    | none => s
    | some creation =>
      if isComplete creation then { s with creating := s.creating.eraseIdx index }.compare creation
        else s
  | .evict index =>
    match s.evicting[index]? with
    | none => s
    | some key => { s with evicting := s.evicting.eraseIdx index }.enforce key
  | .unlink index =>
    match s.unlinking[index]? with
    | none => s
    | some file =>
        { s with files := s.files.filter (· ≠ file), unlinking := s.unlinking.eraseIdx index }
  | .readRevision key id => { s with store := (s.store.readRevision key id).1 }
  | .pin cursorId key id =>
    match s.store.pin cursorId key id with
    | .ok store => { s with store }
    | .error _ => s
  | .unpin cursorId => { s with store := s.store.unpin cursorId }
  | .sweep => { s with store := s.store.sweep }.drop s.store.swept

/-- The revisions of the store can be read back: every chunk that one refers to has its file. -/
def Readable : Prop :=
  ∀ revisions ∈ s.store.resources.values, ∀ revision ∈ revisions, ∀ chunk ∈ revision.payload.chunks,
    ∃ directory, s.directory = some directory ∧ (directory, chunk) ∈ s.files

end Spills

end Vibrato.Query
