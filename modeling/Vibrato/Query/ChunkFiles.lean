import Mathlib.Algebra.Order.BigOperators.Group.List
import Mathlib.Algebra.Order.Group.Nat
import Vibrato.Lib.Runs
import Vibrato.Query.Spills

namespace Vibrato.Query

open Lib RevisionStore List OrderedMap

variable {χ η : Type} [DecidableEq χ]

def refs (store : RevisionStore (Spill χ η)) (chunk : χ) : Nat :=
  (store.resources.values.map fun revisions => (chunksOf revisions).count chunk).sum

def Creation.writtenChunks (creation : Creation χ η) : List χ :=
  creation.spill.chunks.take creation.written

namespace Spills

theorem count_chunksOf_append (chunk : χ) (revisions revisions' : List (Revision (Spill χ η))) :
    (chunksOf (revisions ++ revisions')).count chunk =
      (chunksOf revisions).count chunk + (chunksOf revisions').count chunk := by
  unfold chunksOf
  rw [flatMap_append, count_append]

theorem count_chunksOf_perm (chunk : χ) {revisions revisions' : List (Revision (Spill χ η))}
    (h : revisions.Perm revisions') :
    (chunksOf revisions).count chunk = (chunksOf revisions').count chunk :=
  (h.flatMap_right _).count_eq chunk

variable (store : RevisionStore (Spill χ η))

theorem refs_setRevisions (key : Text) (revisions : List (Revision (Spill χ η))) (chunk : χ) :
    refs (store.setRevisions key revisions) chunk +
      (chunksOf (store.revisionsOf key)).count chunk =
        refs store chunk + (chunksOf revisions).count chunk := by
  have h := store.resources.sum_values_set
      (fun revisions => (chunksOf revisions).count chunk) key revisions
  have hold :
      ((store.resources.get? key).map fun revisions => (chunksOf revisions).count chunk).getD 0 =
      (chunksOf (store.revisionsOf key)).count chunk := by
    unfold revisionsOf
    cases store.resources.get? key with
    | none => rfl
    | some revisions => rfl
  rw [hold] at h
  exact h

theorem refs_updateRevision (key : Text) (id : Nat)
    {f : Revision (Spill χ η) → Revision (Spill χ η)}
    (hf : ∀ revision, (f revision).payload = revision.payload) :
    refs (store.updateRevision key id f) = refs store := by
  funext chunk
  unfold refs updateRevision update
  rw [values_mapValues, values, map_map, map_map]
  congr 1
  apply map_congr_left
  intro entry _
  simp only [Function.comp]
  congr 1
  split
  · unfold chunksOf
    rw [flatMap_map]
    apply flatMap_congr
    intro revision _
    split
    · rw [hf]
    · rfl
  · rfl

theorem refs_readRevision (key : Text) (id : Nat) :
    refs (store.readRevision key id).1 = refs store := by
  unfold readRevision
  cases store.find key id with
  | none => rfl
  | some revision => exact refs_updateRevision store key id fun _ => rfl

variable {store : RevisionStore (Spill χ η)} {key : Text}

theorem refs_pin {store' : RevisionStore (Spill χ η)} {cursorId : Text} {id : Nat}
    (h : store.pin cursorId key id = .ok store') : refs store' = refs store := by
  unfold RevisionStore.pin at h
  split at h
  · cases h
    rfl
  · split at h
    · cases h
    · split at h
      · cases h
      · cases h
        exact refs_updateRevision store key id fun _ => rfl

variable (store)

theorem refs_unpin (cursorId : Text) : refs (store.unpin cursorId) = refs store := by
  unfold RevisionStore.unpin
  cases store.pinIndex.get? cursorId with
  | none => rfl
  | some pinned => exact refs_updateRevision store pinned.1 pinned.2 fun _ => rfl

theorem refs_sweep (chunk : χ) :
    refs store.sweep chunk + (chunksOf store.swept).count chunk = refs store chunk := by
  have hkept : refs store.sweep chunk =
      (store.resources.values.map fun revisions =>
        (chunksOf (revisions.filter store.isKept)).count chunk).sum := by
    unfold refs RevisionStore.sweep
    rw [sum_values_retain]
    · rw [values_mapValues, values, map_map, map_map]
      rfl
    · intro key revisions hempty
      have hnil : revisions = [] := by simpa using hempty
      rw [hnil]
      rfl
  have hdropped : (chunksOf store.swept).count chunk = (store.resources.values.map fun revisions =>
      (chunksOf (revisions.filter fun revision => !store.isKept revision)).count chunk).sum := by
    unfold chunksOf swept
    rw [flatMap_assoc, count_flatMap]
    rfl
  rw [hkept, hdropped, ← sum_map_add]
  congr 1
  apply map_congr_left
  intro revisions _
  rw [← count_chunksOf_append]
  exact count_chunksOf_perm chunk (filter_append_perm _ revisions)

variable {store} {s : Spills χ η} {creation : Creation χ η}

theorem evictLoop_fst {π : Type} (fuel : Nat) (revisions : List (Revision π)) :
    (evictLoop fuel revisions).1 = enforceLimit fuel revisions := by
  induction fuel generalizing revisions with
  | zero => rfl
  | succ fuel ih =>
    unfold evictLoop enforceLimit
    split
    · rfl
    · cases hfind : revisions.find? (·.pins.isEmpty) with
      | none =>
        have hnone : ¬ revisions.any (·.pins.isEmpty) = true := by
          rw [any_eq_true]
          rintro ⟨revision, hmem, hunpinned⟩
          exact find?_eq_none.mp hfind revision hmem hunpinned
        rw [if_neg hnone]
      | some candidate =>
        have hany : revisions.any (·.pins.isEmpty) = true :=
          any_eq_true.mpr ⟨candidate, mem_of_find?_eq_some hfind,
            find?_some (p := fun r : Revision π => r.pins.isEmpty) hfind⟩
        rw [if_pos hany]
        exact ih _

theorem evictLoop_perm {π : Type} (fuel : Nat) (revisions : List (Revision π)) :
    ((evictLoop fuel revisions).1 ++ (evictLoop fuel revisions).2).Perm revisions := by
  induction fuel generalizing revisions with
  | zero => simp [evictLoop]
  | succ fuel ih =>
    unfold evictLoop
    split
    · simp
    · cases hfind : revisions.find? (·.pins.isEmpty) with
      | none => simp
      | some candidate =>
        have herase : (candidate :: revisions.eraseP (·.pins.isEmpty)).Perm revisions := by
          obtain ⟨hunpinned, before, after, rfl, hbefore⟩ := find?_eq_some_iff_append.mp hfind
          have hnone : ∀ revision ∈ before, ¬ revision.pins.isEmpty = true := by
            intro revision hmem
            simpa using hbefore revision hmem
          have hfirst : (candidate :: after).eraseP (·.pins.isEmpty) = after :=
            eraseP_cons_of_pos (p := fun r : Revision π => r.pins.isEmpty) hunpinned
          rw [eraseP_append_right _ hnone, hfirst]
          exact perm_middle.symm
        exact perm_middle.trans (((ih _).cons candidate).trans herase)

def SparesWritten (s : Spills χ η) (store : RevisionStore (Spill χ η)) : Prop :=
  ∀ creation ∈ s.creating, ∀ chunk ∈ creation.writtenChunks, refs s.store chunk ≠ 0 →
    refs store chunk ≠ 0

section Window

variable [DecidableEq η]

/-- The step unlinks no chunk that an unfinished call has written, writes none while its unlink is
on the way, and makes no second directory. -/
def ClosesWindow (s : Spills χ η) : SpillStep χ η → Prop
  | .makeDirectory index =>
      ∀ creation ∈ s.creating[index]?, creation.making = true → s.directory = none
  | .writeChunk index => ∀ creation ∈ s.creating[index]?, ∀ directory ∈ creation.directory,
      ∀ chunk ∈ creation.spill.chunks[creation.written]?, (directory, chunk) ∉ s.unlinking
  | .finishCreation index => ∀ creation ∈ s.creating[index]?, isComplete creation = true →
      s.store.isUnchanged (·.hash) creation.key creation.spill = true →
        ∀ other ∈ s.creating.eraseIdx index, ∀ chunk ∈ other.writtenChunks,
          chunk ∉ s.discarded creation
  | .evict index => ∀ key ∈ s.evicting[index]?,
      s.SparesWritten (s.store.setRevisions key
        (enforceLimit (s.store.revisionsOf key).length (s.store.revisionsOf key)))
  | .sweep => s.SparesWritten s.store.sweep
  | _ => True

instance (s : Spills χ η) (store : RevisionStore (Spill χ η)) : Decidable (s.SparesWritten store) :=
  inferInstanceAs (Decidable (∀ creation ∈ s.creating, ∀ chunk ∈ creation.writtenChunks, _ → _))

instance (s : Spills χ η) : (e : SpillStep χ η) → Decidable (s.ClosesWindow e)
  | .makeDirectory index => inferInstanceAs (Decidable (∀ creation ∈ s.creating[index]?, _ → _))
  | .writeChunk index => inferInstanceAs (Decidable (∀ creation ∈ s.creating[index]?,
      ∀ directory ∈ creation.directory,
      ∀ chunk ∈ creation.spill.chunks[creation.written]?, (directory, chunk) ∉ s.unlinking))
  | .finishCreation index => inferInstanceAs (Decidable (∀ creation ∈ s.creating[index]?,
      isComplete creation = true →
      s.store.isUnchanged (·.hash) creation.key creation.spill = true →
        ∀ other ∈ s.creating.eraseIdx index, ∀ chunk ∈ other.writtenChunks,
          chunk ∉ s.discarded creation))
  | .evict index => inferInstanceAs (Decidable (∀ key ∈ s.evicting[index]?, s.SparesWritten _))
  | .sweep => inferInstanceAs (Decidable (s.SparesWritten s.store.sweep))
  | .clock _ | .createRevision _ _ | .openDirectory _ | .readBack _ | .failCreation _ | .unlink _
  | .readRevision _ _ | .pin _ _ _ | .unpin _ => inferInstanceAs (Decidable True)

end Window

def Lasts (s : Spills χ η) (chunk : χ) : Prop :=
  ∃ directory, s.directory = some directory ∧ (directory, chunk) ∈ s.files ∧
    (directory, chunk) ∉ s.unlinking

structure Writes (s : Spills χ η) (creation : Creation χ η) : Prop where
  lasts : ∀ chunk ∈ creation.writtenChunks, s.Lasts chunk
  opened : ∀ directory, creation.directory = some directory → s.directory = some directory

omit [DecidableEq χ] in
theorem Writes.imp {s s' : Spills χ η} (h : s.Writes creation)
    (hlasts : ∀ {chunk}, s.Lasts chunk → s'.Lasts chunk) (hdirectory : s'.directory = s.directory) :
    s'.Writes creation where
  lasts chunk hchunk := hlasts (h.lasts chunk hchunk)
  opened directory hopened := hdirectory.trans (h.opened directory hopened)

structure Inv (s : Spills χ η) : Prop where
  counts : RefCount.Counts s.chunkRefs (refs s.store)
  stored : ∀ chunk, refs s.store chunk ≠ 0 → s.Lasts chunk
  writes : ∀ creation ∈ s.creating, s.Writes creation

theorem Inv.start (now : Int) (storageDir : Option Nat) :
    Inv (start (χ := χ) (η := η) now storageDir) where
  counts _ := rfl
  stored _ h := absurd rfl h
  writes _ h := absurd h not_mem_nil

theorem Inv.readable (hinv : Inv s) : s.Readable := by
  intro revisions hrevisions revision hrevision chunk hchunk
  have hcount : 0 < (chunksOf revisions).count chunk :=
    count_pos_iff.mpr (mem_flatMap.mpr ⟨revision, hrevision, hchunk⟩)
  have hle : (chunksOf revisions).count chunk ≤ refs s.store chunk :=
    single_le_sum (fun _ _ => Nat.zero_le _) _
      (mem_map_of_mem (f := fun revisions => (chunksOf revisions).count chunk) hrevisions)
  obtain ⟨directory, hdirectory, hfile, -⟩ := hinv.stored chunk (by omega)
  exact ⟨directory, hdirectory, hfile⟩

omit [DecidableEq χ] in
theorem unlinkAll_fields (s : Spills χ η) (chunks : List χ) :
    (s.unlinkAll chunks).store = s.store ∧ (s.unlinkAll chunks).chunkRefs = s.chunkRefs ∧
      (s.unlinkAll chunks).creating = s.creating ∧
        (s.unlinkAll chunks).directory = s.directory := by
  unfold unlinkAll
  cases hdirectory : s.directory with
  | none => exact ⟨rfl, rfl, rfl, hdirectory⟩
  | some directory => exact ⟨rfl, rfl, rfl, rfl⟩

omit [DecidableEq χ] in
theorem Lasts.unlinkAll {chunk : χ} (h : s.Lasts chunk) {chunks : List χ} (hnot : chunk ∉ chunks) :
    (s.unlinkAll chunks).Lasts chunk := by
  obtain ⟨directory, hdirectory, hfile, hunlinking⟩ := h
  have heq : s.unlinkAll chunks =
      { s with unlinking := s.unlinking ++ chunks.map fun chunk => (directory, chunk) } := by
    unfold Spills.unlinkAll
    split
    · next hnone =>
      rw [hnone] at hdirectory
      cases hdirectory
    · next directory' hsome => rw [Option.some.inj (hsome.symm.trans hdirectory)]
  rw [heq]
  refine ⟨directory, hdirectory, hfile, ?_⟩
  intro hmem
  rcases mem_append.mp hmem with hold | hnew
  · exact hunlinking hold
  · obtain ⟨chunk', hchunk', heq⟩ := mem_map.mp hnew
    exact hnot ((Prod.mk.inj heq).2 ▸ hchunk')

theorem Inv.unlinkAll (hinv : Inv s) {chunks : List χ}
    (hfree : ∀ chunk ∈ chunks, refs s.store chunk = 0)
    (hspared : ∀ creation ∈ s.creating, ∀ chunk ∈ creation.writtenChunks, chunk ∉ chunks) :
    Inv (s.unlinkAll chunks) := by
  obtain ⟨hstore, hrefs, hcreating, hdirectory⟩ := s.unlinkAll_fields chunks
  constructor
  · rw [hstore, hrefs]
    exact hinv.counts
  · intro chunk hne
    rw [hstore] at hne
    exact (hinv.stored chunk hne).unlinkAll fun hmem => hne (hfree chunk hmem)
  · intro creation hmem
    rw [hcreating] at hmem
    constructor
    · intro chunk hchunk
      exact ((hinv.writes creation hmem).lasts chunk hchunk).unlinkAll
        (hspared creation hmem chunk hchunk)
    · rw [hdirectory]
      exact (hinv.writes creation hmem).opened

variable {s : Spills χ η}

theorem Inv.drop {dropped : List (Revision (Spill χ η))}
    (hinv : Inv s)
    (hparts : ∀ chunk, refs store chunk + (chunksOf dropped).count chunk = refs s.store chunk)
    (hspared : s.SparesWritten store) : Inv ({ s with store }.drop dropped) := by
  have hcounts :
      RefCount.Counts s.chunkRefs fun chunk => refs store chunk + (chunksOf dropped).count chunk :=
    hinv.counts.congr fun chunk => (hparts chunk).symm
  obtain ⟨hreleased, hfreed⟩ := hcounts.releaseAll
  have hstored : Inv
      { s with store, chunkRefs := (RefCount.releaseAll s.chunkRefs (chunksOf dropped)).1 } := by
    refine ⟨hreleased, ?_, fun creation hmem => (hinv.writes creation hmem).imp id rfl⟩
    intro chunk hne
    replace hne : refs store chunk ≠ 0 := hne
    have := hparts chunk
    exact hinv.stored chunk (by omega)
  apply hstored.unlinkAll
  · intro chunk hmem
    exact (hfreed chunk hmem).2
  · intro creation hcreation chunk hchunk hmem
    obtain ⟨hin, hzero⟩ := hfreed chunk hmem
    have hcount := count_pos_iff.mpr hin
    have := hparts chunk
    exact hspared creation hcreation chunk hchunk (by omega) hzero

theorem Inv.of_store (hinv : Inv s) (h : refs store = refs s.store) : Inv { s with store } := by
  refine ⟨?_, ?_, fun creation hmem => (hinv.writes creation hmem).imp id rfl⟩
  · rw [h]
    exact hinv.counts
  · intro chunk hne
    refine hinv.stored chunk ?_
    rw [← h]
    exact hne

theorem Inv.of_creating (hinv : Inv s) {creating : List (Creation χ η)}
    (h : ∀ creation ∈ creating, s.Writes creation) : Inv { s with creating } :=
  ⟨hinv.counts, hinv.stored, fun creation hmem => (h creation hmem).imp id rfl⟩

theorem Inv.eraseCreation (hinv : Inv s) (index : Nat) :
    Inv { s with creating := s.creating.eraseIdx index } :=
  hinv.of_creating fun creation hmem => hinv.writes creation (mem_of_mem_eraseIdx hmem)

variable {creation : Creation χ η}

theorem Inv.setCreation (hinv : Inv s) (index : Nat)
    (h : s.Writes creation) : Inv { s with creating := s.creating.set index creation } := by
  apply hinv.of_creating
  intro other hmem
  rcases mem_or_eq_of_mem_set hmem with hold | rfl
  · exact hinv.writes other hold
  · exact h

theorem Inv.makeDirectory (hinv : Inv s) {index : Nat} (hnone : s.directory = none)
    (hget : s.creating[index]? = some creation) :
    Inv { s with
      directory := some s.made
      made := s.made + 1
      creating := s.creating.set index { creation with making := false } } := by
  -- nothing was stored or written without a directory
  have hno : ∀ chunk, ¬ s.Lasts chunk := by
    rintro chunk ⟨directory, hdirectory, -⟩
    rw [hnone] at hdirectory
    cases hdirectory
  have hold : ∀ other ∈ s.creating, (∀ chunk ∈ other.writtenChunks, False) ∧
      other.directory = none := by
    intro other hmem
    refine ⟨fun chunk hchunk => hno chunk ((hinv.writes other hmem).lasts chunk hchunk), ?_⟩
    cases hdirectory : other.directory with
    | none => rfl
    | some directory =>
      have := (hinv.writes other hmem).opened directory hdirectory
      rw [hnone] at this
      cases this
  refine ⟨hinv.counts, ?_, ?_⟩
  · intro chunk hne
    exact absurd (hinv.stored chunk hne) (hno chunk)
  · intro other hmem
    have hother : (∀ chunk ∈ other.writtenChunks, False) ∧ other.directory = none := by
      rcases mem_or_eq_of_mem_set hmem with hmem | rfl
      · exact hold other hmem
      · exact hold creation (mem_of_getElem? hget)
    refine ⟨fun chunk hchunk => (hother.1 chunk hchunk).elim, ?_⟩
    intro directory hdirectory
    rw [hother.2] at hdirectory
    cases hdirectory

variable {index : Nat}

theorem Inv.writeChunk (hinv : Inv s) {directory : Nat} {chunk : χ}
    (hget : s.creating[index]? = some creation) (hdirectory : creation.directory = some directory)
    (hchunk : creation.spill.chunks[creation.written]? = some chunk)
    (hnot : (directory, chunk) ∉ s.unlinking) :
    Inv { s with
      files := (directory, chunk) :: s.files
      creating := s.creating.set index { creation with written := creation.written + 1 } } := by
  have hwrites := hinv.writes creation (mem_of_getElem? hget)
  have hlasts : ∀ {chunk'}, s.Lasts chunk' → Lasts { s with
      files := (directory, chunk) :: s.files
      creating :=
        s.creating.set index { creation with written := creation.written + 1 } } chunk' := by
    rintro chunk' ⟨directory', hdirectory', hfile, hunlinking⟩
    exact ⟨directory', hdirectory', mem_cons_of_mem _ hfile, hunlinking⟩
  refine ⟨hinv.counts, fun chunk' hne => hlasts (hinv.stored chunk' hne), ?_⟩
  intro other hmem
  rcases mem_or_eq_of_mem_set hmem with hold | rfl
  · exact (hinv.writes other hold).imp hlasts rfl
  · refine ⟨?_, hwrites.opened⟩
    intro chunk' hchunk'
    unfold Creation.writtenChunks at hchunk'
    rw [take_add_one, hchunk] at hchunk'
    rcases mem_append.mp hchunk' with hbefore | hnew
    · exact hlasts (hwrites.lasts chunk' hbefore)
    · obtain rfl : chunk' = chunk := by simpa using hnew
      exact ⟨directory, hwrites.opened directory hdirectory, mem_cons_self, hnot⟩

variable [DecidableEq η]

theorem Inv.compare (hinv : Inv s) (hwrites : s.Writes creation)
    (hcomplete : creation.written = creation.spill.chunks.length)
    (hspared : s.store.isUnchanged (·.hash) creation.key creation.spill = true →
      ∀ other ∈ s.creating, ∀ chunk ∈ other.writtenChunks, chunk ∉ s.discarded creation) :
    Inv (s.compare creation) := by
  unfold Spills.compare
  cases hsame : s.store.isUnchanged (·.hash) creation.key creation.spill with
  | true =>
    apply hinv.unlinkAll
    · intro chunk hmem
      have hunheld := (mem_filter.mp hmem).2
      by_contra hne
      rw [(hinv.counts.has_iff chunk).mpr hne] at hunheld
      cases hunheld
    · exact hspared hsame
  | false =>
    have hrefs :
        ∀ chunk, refs (s.store.setRevisions creation.key (s.store.revisionsOf creation.key ++
        [⟨lastId (s.store.revisionsOf creation.key) + 1, creation.spill, [], s.store.now⟩])) chunk =
        refs s.store chunk + creation.spill.chunks.count chunk := by
      intro chunk
      have hset := refs_setRevisions s.store creation.key (s.store.revisionsOf creation.key ++
        [⟨lastId (s.store.revisionsOf creation.key) + 1, creation.spill, [], s.store.now⟩]) chunk
      rw [count_chunksOf_append] at hset
      have hnew : chunksOf
          [⟨lastId (s.store.revisionsOf creation.key) + 1, creation.spill, [], s.store.now⟩] =
          creation.spill.chunks := by simp [chunksOf]
      rw [hnew] at hset
      omega
    refine ⟨?_, ?_, fun other hmem => (hinv.writes other hmem).imp id rfl⟩
    · apply (hinv.counts.retainAll creation.spill.chunks).congr
      exact fun chunk => (hrefs chunk).symm
    · intro chunk hne
      replace hne : refs (s.store.setRevisions creation.key _) chunk ≠ 0 := hne
      rw [hrefs] at hne
      by_cases hold : refs s.store chunk = 0
      · have hmem : chunk ∈ creation.spill.chunks := count_pos_iff.mp (by omega)
        apply hwrites.lasts chunk
        unfold Creation.writtenChunks
        rw [hcomplete, take_length]
        exact hmem
      · exact hinv.stored chunk hold

omit [DecidableEq η] in
theorem Inv.enforce (hinv : Inv s) (hspared : s.SparesWritten (s.store.setRevisions key
      (enforceLimit (s.store.revisionsOf key).length (s.store.revisionsOf key)))) : Inv
        (s.enforce key) := by
  apply hinv.drop
  · intro chunk
    have hset := refs_setRevisions s.store key
      (evictLoop (s.store.revisionsOf key).length (s.store.revisionsOf key)).1 chunk
    have hperm := count_chunksOf_perm chunk
      (evictLoop_perm (s.store.revisionsOf key).length (s.store.revisionsOf key))
    rw [count_chunksOf_append] at hperm
    omega
  · rw [← evictLoop_fst] at hspared
    exact hspared

omit [DecidableEq η] in
theorem Inv.unlink (hinv : Inv s) {file : Nat × χ} (hget : s.unlinking[index]? = some file) :
    Inv { s with files := s.files.filter (· ≠ file), unlinking := s.unlinking.eraseIdx index } := by
  have hlasts : ∀ {chunk}, s.Lasts chunk → Lasts { s with
      files := s.files.filter (· ≠ file), unlinking := s.unlinking.eraseIdx index } chunk := by
    rintro chunk ⟨directory, hdirectory, hfile, hunlinking⟩
    have hne : (directory, chunk) ≠ file := fun heq => hunlinking (heq ▸ mem_of_getElem? hget)
    exact ⟨directory, hdirectory, mem_filter.mpr ⟨hfile, decide_eq_true hne⟩,
      fun hmem => hunlinking (mem_of_mem_eraseIdx hmem)⟩
  refine ⟨hinv.counts, fun chunk hne => hlasts (hinv.stored chunk hne), ?_⟩
  exact fun creation hmem => (hinv.writes creation hmem).imp hlasts rfl

theorem Inv.step (hinv : Inv s) {e : SpillStep χ η} (hcloses : s.ClosesWindow e) :
    Inv (s.step e) := by
  cases e with
  | clock now => exact hinv.of_store rfl
  | createRevision key spill =>
    apply hinv.of_creating
    intro creation hmem
    rcases mem_append.mp hmem with hold | hnew
    · exact hinv.writes creation hold
    · rw [mem_singleton.mp hnew]
      exact ⟨fun chunk hchunk => absurd hchunk not_mem_nil, fun directory h => by cases h⟩
  | makeDirectory index =>
    simp only [Spills.step]
    cases hget : s.creating[index]? with
    | none => exact hinv
    | some creation =>
      simp only
      cases hmaking : creation.making with
      | false =>
        exact hinv
      | true =>
        exact hinv.makeDirectory (hcloses creation hget hmaking) hget
  | openDirectory index =>
    simp only [Spills.step]
    cases hget : s.creating[index]? with
    | none => exact hinv
    | some creation =>
      simp only
      split
      · exact hinv
      · exact hinv.setCreation index
          ⟨(hinv.writes creation (mem_of_getElem? hget)).lasts, fun directory h => h⟩
  | writeChunk index =>
    simp only [Spills.step]
    cases hget : s.creating[index]? with
    | none => exact hinv
    | some creation =>
      simp only
      cases hdirectory : creation.directory with
      | none => exact hinv
      | some directory =>
        cases hchunk : creation.spill.chunks[creation.written]? with
        | none => exact hinv
        | some chunk =>
          have hwritten := hinv.writeChunk hget hdirectory hchunk
              (hcloses creation hget directory hdirectory chunk hchunk)
          rw [hdirectory] at hwritten
          exact hwritten
  | readBack index =>
    simp only [Spills.step]
    cases hget : s.creating[index]? with
    | none => exact hinv
    | some creation =>
      simp only
      split
      · exact hinv
      · split
        · split
          · have hwrites := hinv.writes creation (mem_of_getElem? hget)
            exact hinv.setCreation index ⟨hwrites.lasts, hwrites.opened⟩
          · exact hinv.eraseCreation index
        · exact hinv
  | failCreation index => exact hinv.eraseCreation index
  | finishCreation index =>
    simp only [Spills.step]
    cases hget : s.creating[index]? with
    | none => exact hinv
    | some creation =>
      simp only
      cases hcomplete : isComplete creation with
      | false =>
        exact hinv
      | true =>
        have hwritten : creation.written = creation.spill.chunks.length := by
          exact (of_decide_eq_true (Bool.and_eq_true_iff.mp hcomplete).1).2
        exact (hinv.eraseCreation index).compare
          ((hinv.writes creation (mem_of_getElem? hget)).imp id rfl)
          hwritten (hcloses creation hget hcomplete)
  | evict index =>
    simp only [Spills.step]
    cases hget : s.evicting[index]? with
    | none => exact hinv
    | some key =>
      have hevicting : Inv { s with evicting := s.evicting.eraseIdx index } :=
        ⟨hinv.counts, hinv.stored, fun creation hmem => (hinv.writes creation hmem).imp id rfl⟩
      exact hevicting.enforce (hcloses key hget)
  | unlink index =>
    simp only [Spills.step]
    cases hget : s.unlinking[index]? with
    | none => exact hinv
    | some file => exact hinv.unlink hget
  | readRevision key id => exact hinv.of_store (refs_readRevision s.store key id)
  | pin cursorId key id =>
    simp only [Spills.step]
    cases hpin : s.store.pin cursorId key id with
    | error error => exact hinv
    | ok store => exact hinv.of_store (refs_pin hpin)
  | unpin cursorId => exact hinv.of_store (refs_unpin s.store cursorId)
  | sweep => exact hinv.drop (refs_sweep s.store) hcloses

/-- The revisions of a store can be read back in every run in which no unlink meets a chunk that an
unfinished call has written. -/
theorem readable_of_closesWindow (now : Int) (storageDir : Option Nat)
    (steps : List (SpillStep χ η))
    (h : Guarded (step (χ := χ) (η := η)) ClosesWindow (start now storageDir) steps) :
    (steps.foldl step (start now storageDir)).Readable :=
  (Guarded.invariant (I := fun _ s => Inv s) (fun _ _ hinv hcloses => hinv.step hcloses)
    (Inv.start now storageDir) h).readable

def shortSpill : Spill Nat Nat := ⟨1, [1, 6], [CHUNK_BYTES, 1], rfl, by decide, by decide⟩

/-- Twenty mebibytes, of which the first four are those of `shortSpill`. -/
def longSpill : Spill Nat Nat :=
  ⟨2, [1, 2, 3, 4, 5], replicate 5 CHUNK_BYTES, rfl, by decide, by decide⟩

/-- A revision of the first resource, and after its time a call that has written the chunk they
share for the second one. -/
def sharesChunk : List (SpillStep Nat Nat) :=
  [.createRevision "f:a".toList shortSpill, .openDirectory 0, .writeChunk 0, .writeChunk 0,
    .readBack 0, .readBack 0,
    .finishCreation 0, .evict 0, .clock 900001, .createRevision "f:b".toList longSpill,
      .openDirectory 0, .writeChunk 0]

def writesRest : List (SpillStep Nat Nat) := replicate 4 (.writeChunk 0) ++ [.finishCreation 0]

/-- The second call finishes before a sweep drops the first revision. -/
theorem readable_of_sweep_after :
    ((sharesChunk ++ writesRest ++ [SpillStep.sweep, .evict 0]).foldl step
      (start 0 (some 0))).Readable :=
  readable_of_closesWindow 0 (some 0) _ (by decide +kernel)

def sweepsBetween : Spills Nat Nat :=
  (sharesChunk ++ [SpillStep.sweep, .unlink 0] ++ writesRest).foldl step (start 0 (some 0))

/-- The sweep comes between the write of the shared chunk and the end of the second call. -/
theorem not_readable_of_sweep_between : ¬ sweepsBetween.Readable := by
  intro h
  obtain ⟨directory, hdirectory, hfile⟩ := h [⟨1, longSpill, [], 900001⟩] (by decide +kernel) _
    (mem_singleton_self _) 1 (by decide)
  have hgiven : sweepsBetween.directory = some 0 := by decide +kernel
  obtain rfl : 0 = directory := Option.some.inj (hgiven.symm.trans hdirectory)
  exact absurd hfile (by decide +kernel)

end Spills

end Vibrato.Query
