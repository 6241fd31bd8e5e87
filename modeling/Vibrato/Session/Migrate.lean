import Mathlib.Data.Rat.Defs
import Mathlib.Data.List.Chain
import Mathlib.Data.List.Nodup
import Vibrato.Text

/-! `migrateV1ToV2` of `session/session-manager.ts`: the entries of an old session file get ids and
parents, and a compaction that named its first kept entry by its place names it by its id. -/

namespace Vibrato.Session

open List

/-- What the calls of `crypto.randomUUID().slice(-8)` and of `Snowflake.next()` return. -/
structure IdSource where
  uuidTail : Nat → Text
  snowflake : Nat → Text

structure IdCalls where
  uuids : Nat
  snowflakes : Nat

/-- A loop that takes the first id that is not in use, and the number of calls after it. -/
def firstFresh (next : Nat → Text) (has : Text → Bool) : Nat → Nat → Option Text × Nat
  | 0, calls => (none, calls)
  | tries + 1, calls =>
    if has (next calls) then firstFresh next has tries (calls + 1)
      else (some (next calls), calls + 1)

def generateId (source : IdSource) (has : Text → Bool) (calls : IdCalls) :
    Option (Text × IdCalls) :=
  match firstFresh source.uuidTail has 100 calls.uuids with
  | (some id, uuids) => some (id, { calls with uuids })
  | (none, uuids) =>
    match firstFresh source.snowflake has 100 calls.snowflakes with
    | (some id, snowflakes) => some (id, ⟨uuids, snowflakes⟩)
    | (none, _) => none

section

variable {ρ : Type}

/-- What an entry of the first version holds, apart from the fields that the migration leaves
alone. -/
inductive V1Data (ρ : Type) where
  | compaction (firstKeptEntryIndex : Option ℚ) (rest : ρ)
  | other (rest : ρ)

inductive V1Entry (ρ : Type) where
  | session (rest : ρ)
  | entry (data : V1Data ρ)

open V1Entry

inductive V2Data (ρ : Type) where
  | compaction (firstKeptEntryId : Option Text) (rest : ρ)
  | other (rest : ρ)
  deriving DecidableEq

inductive V2Entry (ρ : Type) where
  | session (version : Nat) (rest : ρ)
  | entry (id : Text) (parentId : Option Text) (data : V2Data ρ)
  deriving DecidableEq

open V2Entry

def arrayIndex? (number : ℚ) : Option Nat :=
  if number.den = 1 ∧ 0 ≤ number.num then some number.num.toNat else none

variable (done : List (V2Entry ρ))

/-- The id of `entries[index]` while the loop is at one entry.  The entries before it have their
ids, and the ones after it have none. -/
def targetId? (id : Text) (index : Nat) : Option Text :=
  if index = done.length then some id
  else
    match done[index]? with
    | some (.entry id _ _) => some id
    | _ => none

def migrateData (id : Text) : V1Data ρ → V2Data ρ
  | .compaction firstKeptEntryIndex rest =>
    .compaction ((firstKeptEntryIndex.bind arrayIndex?).bind (targetId? done id)) rest
  | .other rest => .other rest

def migrateLoop (source : IdSource) (ids : List Text) :
    IdCalls → Option Text → List (V2Entry ρ) → List (V1Entry ρ) → Option (List (V2Entry ρ))
  | _, _, done, [] => some done
  | calls, prevId, done, .session rest :: entries =>
    migrateLoop source ids calls prevId (done ++ [.session 2 rest]) entries
  | calls, prevId, done, .entry data :: entries =>
    match generateId source (fun id => decide (id ∈ ids)) calls with
    | none => none
    | some (id, calls) =>
      migrateLoop source ids calls (some id) (done ++ [.entry id prevId (migrateData done id data)])
        entries

variable (source : IdSource)

/-- `migrateV1ToV2`.  The set of ids stays empty. -/
def migrateV1ToV2 (entries : List (V1Entry ρ)) : Option (List (V2Entry ρ)) :=
  migrateLoop source [] ⟨0, 0⟩ none [] entries

def V1Entry.isEntry : V1Entry ρ → Bool
  | .session _ => false
  | .entry _ => true

def V2Entry.id? : V2Entry ρ → Option Text
  | .session .. => none
  | .entry id _ _ => some id

def firstKeptIndex? (entries : List (V1Entry ρ)) (c : Nat) : Option Nat :=
  match entries[c]? with
  | some (.entry (.compaction (some number) _)) => (arrayIndex? number).filter (· < entries.length)
  | _ => none

def keptBefore (entries : List (V1Entry ρ)) (c first : Nat) : List Nat :=
  (List.range c).filter fun i => entries[i]?.any isEntry && first ≤ i

/-- The places of the entries that `buildSessionContext` shows from before the compaction. -/
def keptAfter (migrated : List (V2Entry ρ)) (c : Nat) : List Nat :=
  match migrated[c]? with
  | some (.entry _ _ (.compaction firstKeptEntryId _)) =>
    ((List.range c).filter fun i => (migrated[i]?.bind id?).isSome).dropWhile fun i =>
      migrated[i]?.bind id? ≠ firstKeptEntryId
  | _ => []

def V2Entry.link? : V2Entry ρ → Option (Text × Option Text)
  | .session .. => none
  | .entry id parentId _ => some (id, parentId)

def IsOneChain (links : List (Text × Option Text)) : Prop :=
  (links.map Prod.fst).Nodup ∧ (∀ link ∈ links.head?, link.2 = none) ∧
    links.IsChain fun a b => b.2 = some a.1

/-- The migration links the entries and leaves what each compaction keeps. -/
structure MigratesWell (entries : List (V1Entry ρ)) (migrated : List (V2Entry ρ)) : Prop where
  chain : IsOneChain (migrated.filterMap link?)
  kept : ∀ c first, firstKeptIndex? entries c = some first →
    keptAfter migrated c = keptBefore entries c first

def entryCount (entries : List (V1Entry ρ)) : Nat := entries.countP isEntry

theorem generateId_nil (calls : IdCalls) :
    generateId source (fun id => decide (id ∈ ([] : List Text))) calls =
      some (source.uuidTail calls.uuids, { calls with uuids := calls.uuids + 1 }) := by
  simp [generateId, firstFresh]

def linksFrom (source : IdSource) : Nat → Option Text → Nat → List (Text × Option Text)
  | _, _, 0 => []
  | t, prevId, n + 1 =>
    (source.uuidTail t, prevId) :: linksFrom source (t + 1) (some (source.uuidTail t)) n

def idAfter (entries : List (V1Entry ρ)) (i : Nat) : Option Text :=
  if entries[i]?.any isEntry then some (source.uuidTail (entryCount (entries.take i))) else none

def firstKeptAfter (entries : List (V1Entry ρ)) (c : Nat) (number : Option ℚ) : Option Text :=
  (number.bind arrayIndex?).bind fun index => if index ≤ c then idAfter source entries index
    else none

structure Migrated (source : IdSource) (entries : List (V1Entry ρ)) (n : Nat)
    (done : List (V2Entry ρ)) : Prop where
  length : done.length = n
  ids : ∀ i < n, done[i]?.bind id? = idAfter source entries i
  compactions : ∀ c < n, ∀ number rest, entries[c]? = some (.entry (.compaction number rest)) →
    ∃ id parentId, done[c]? =
      some (.entry id parentId (.compaction (firstKeptAfter source entries c number) rest))

variable {source : IdSource} {c first i j n : Nat}

variable {entries : List (V1Entry ρ)} {done migrated : List (V2Entry ρ)}

theorem Migrated.concat (h : Migrated source entries n done) {entry : V2Entry ρ}
    (hid : entry.id? = idAfter source entries n)
    (hcompaction : ∀ number rest, entries[n]? = some (.entry (.compaction number rest)) →
      ∃ id parentId, entry = .entry id parentId
        (.compaction (firstKeptAfter source entries n number) rest)) :
    Migrated source entries (n + 1) (done ++ [entry]) := by
  have hlast : (done ++ [entry])[n]? = some entry := by
    rw [← h.length, getElem?_concat_length]
  have hearlier : ∀ i < n, (done ++ [entry])[i]? = done[i]? := by
    intro i hi
    rw [getElem?_append_left (by rw [h.length]; exact hi)]
  refine ⟨by simp [h.length], fun i hi => ?_, fun c hc number rest hentry => ?_⟩
  · rcases Nat.lt_or_ge i n with hlt | hge
    · rw [hearlier i hlt]
      exact h.ids i hlt
    · obtain rfl : i = n := by omega
      rw [hlast, Option.bind_some]
      exact hid
  · rcases Nat.lt_or_ge c n with hlt | hge
    · rw [hearlier c hlt]
      exact h.compactions c hlt number rest hentry
    · obtain rfl : c = n := by omega
      obtain ⟨id, parentId, rfl⟩ := hcompaction number rest hentry
      exact ⟨id, parentId, hlast⟩

theorem Migrated.targetId?_eq (h : Migrated source entries n done) {id : Text}
    (hid : some id = idAfter source entries n) (index : Nat) :
    targetId? done id index = if index ≤ n then idAfter source entries index else none := by
  unfold targetId?
  rw [h.length]
  rcases Nat.lt_trichotomy index n with hlt | rfl | hlt
  · rw [if_neg (by omega), if_pos (by omega), ← h.ids index hlt]
    cases done[index]? with
    | none => rfl
    | some entry => cases entry <;> rfl
  · rw [if_pos rfl, if_pos (Nat.le_refl _), hid]
  · rw [if_neg (by omega), if_neg (by omega), getElem?_eq_none (by rw [h.length]; omega)]

variable (source)

theorem migrateLoop_spec {entries : List (V1Entry ρ)} {before after : List (V1Entry ρ)}
    (hsplit : entries = before ++ after) {prevId : Option Text} {done : List (V2Entry ρ)}
    (hdone : Migrated source entries before.length done) :
    ∃ migrated, migrateLoop source [] ⟨entryCount before, 0⟩ prevId done after = some migrated ∧
      Migrated source entries entries.length migrated ∧
      migrated.filterMap link? = done.filterMap link? ++
        linksFrom source (entryCount before) prevId (entryCount after) := by
  induction after generalizing before prevId done with
  | nil =>
    refine ⟨done, rfl, ?_, by simp [entryCount, linksFrom]⟩
    rw [hsplit, append_nil]
    rwa [hsplit, append_nil] at hdone
  | cons entry after ih =>
    have hentry : entries[before.length]? = some entry := by
      rw [hsplit]
      simp
    have htake : entries.take before.length = before := by
      rw [hsplit]
      simp
    have hnext : entries = (before ++ [entry]) ++ after := by rw [hsplit, append_cons]
    have hlength : (before ++ [entry]).length = before.length + 1 := by simp
    cases entry with
    | session rest =>
      have hdone' : Migrated source entries (before ++ [session rest]).length
          (done ++ [.session 2 rest]) := by
        rw [hlength]
        refine hdone.concat ?_ fun number rest' hcompaction => ?_
        · simp [idAfter, hentry, isEntry, id?]
        · rw [hentry] at hcompaction
          cases hcompaction
      have hcount : entryCount (before ++ [session rest]) = entryCount before := by
        simp [entryCount, isEntry]
      obtain ⟨migrated, hloop, hmigrated, hlinks⟩ := ih hnext hdone'
      rw [hcount] at hloop hlinks
      refine ⟨migrated, hloop, hmigrated, ?_⟩
      rw [hlinks]
      simp [entryCount, isEntry, link?]
    | entry data =>
      have hid : some (source.uuidTail (entryCount before)) =
          idAfter source entries before.length := by
        simp [idAfter, hentry, isEntry, htake]
      have hdone' : Migrated source entries (before ++ [entry data]).length
          (done ++ [.entry (source.uuidTail (entryCount before)) prevId
            (migrateData done (source.uuidTail (entryCount before)) data)]) := by
        rw [hlength]
        refine hdone.concat hid fun number rest hcompaction => ?_
        rw [hentry] at hcompaction
        cases hcompaction
        refine ⟨source.uuidTail (entryCount before), prevId, ?_⟩
        rw [migrateData, firstKeptAfter]
        congr 3
        funext index
        exact hdone.targetId?_eq hid index
      have hcount : entryCount (before ++ [entry data]) = entryCount before + 1 := by
        simp [entryCount, isEntry]
      obtain ⟨migrated, hloop, hmigrated, hlinks⟩ := @ih _ hnext (some (source.uuidTail _)) _ hdone'
      rw [hcount] at hloop hlinks
      refine ⟨migrated, ?_, hmigrated, ?_⟩
      · rw [migrateLoop, generateId_nil]
        exact hloop
      · have hafter : entryCount (entry data :: after) = entryCount after + 1 :=
          countP_cons_of_pos rfl
        rw [hlinks, hafter, linksFrom]
        simp [link?]

theorem map_fst_linksFrom (t : Nat) (prevId : Option Text) (n : Nat) :
    (linksFrom source t prevId n).map Prod.fst = (List.range' t n).map source.uuidTail := by
  induction n generalizing t prevId with
  | zero => rfl
  | succ n ih =>
    show source.uuidTail t :: (linksFrom source (t + 1) _ n).map Prod.fst = _
    rw [ih, range'_succ, map_cons]

theorem isChain_linksFrom (t : Nat) (prevId : Option Text) (n : Nat) :
    (linksFrom source t prevId n).IsChain fun a b => b.2 = some a.1 := by
  induction n generalizing t prevId with
  | zero => exact List.IsChain.nil
  | succ n ih =>
    have htail := ih (t + 1) (some (source.uuidTail t))
    cases n with
    | zero => exact List.IsChain.singleton _
    | succ n => exact List.IsChain.cons_cons rfl htail

theorem isOneChain_linksFrom_iff (n : Nat) :
    IsOneChain (linksFrom source 0 none n) ↔ ((List.range n).map source.uuidTail).Nodup := by
  have hhead : ∀ link ∈ (linksFrom source 0 none n).head?, link.2 = none := by
    intro link hlink
    cases n with
    | zero => cases hlink
    | succ n =>
      cases hlink
      rfl
  unfold IsOneChain
  rw [map_fst_linksFrom, ← range_eq_range']
  exact and_iff_left ⟨hhead, isChain_linksFrom source 0 none n⟩

variable {source}

theorem dropWhile_congr {α : Type} {p q : α → Bool} {l : List α} (h : ∀ x ∈ l, p x = q x) :
    l.dropWhile p = l.dropWhile q := by
  induction l with
  | nil => rfl
  | cons x l ih =>
    rw [dropWhile_cons, dropWhile_cons, h x mem_cons_self,
      ih fun y hy => h y (mem_cons_of_mem x hy)]

theorem dropWhile_ne_eq_filter {l : List Nat} (hsorted : l.Pairwise (· < ·)) {k : Nat}
    (hk : k ∈ l) :
    l.dropWhile (fun i => decide (i ≠ k)) = l.filter fun i => decide (k ≤ i) := by
  induction l with
  | nil => cases hk
  | cons a l ih =>
    obtain ⟨hlt, hsorted⟩ := pairwise_cons.1 hsorted
    rcases eq_or_ne a k with rfl | hne
    · have hall : ∀ i ∈ l, decide (a ≤ i) = true := by
        intro i hi
        exact decide_eq_true (Nat.le_of_lt (hlt i hi))
      rw [dropWhile_cons_of_neg (by simp), filter_cons_of_pos (by simp), filter_eq_self.2 hall]
    · have hmem : k ∈ l := (mem_cons.1 hk).resolve_left (Ne.symm hne)
      have hak : a < k := hlt k hmem
      rw [dropWhile_cons_of_pos (by simpa using hne),
        filter_cons_of_neg (by simp only [decide_eq_true_eq]; omega)]
      exact ih hsorted hmem

theorem entryCount_take_lt (hij : i < j) (hentry : entries[i]?.any isEntry) :
    entryCount (entries.take i) < entryCount (entries.take j) := by
  obtain ⟨entry, hi, hisEntry⟩ := (Option.any_eq_true _ _).1 hentry
  have hstep : entryCount (entries.take (i + 1)) = entryCount (entries.take i) + 1 := by
    rw [take_add_one, hi]
    simp [entryCount, hisEntry]
  have hsub : (entries.take (i + 1)).Sublist (entries.take j) := take_sublist_take_left hij
  have hle : entryCount (entries.take (i + 1)) ≤ entryCount (entries.take j) := hsub.countP_le
  omega

theorem entryCount_take_lt_total (hentry : entries[i]?.any isEntry) :
    entryCount (entries.take i) < entryCount entries := by
  obtain ⟨entry, hi, -⟩ := (Option.any_eq_true _ _).1 hentry
  have hlt : i < entries.length := (List.getElem?_eq_some_iff.1 hi).1
  have h := entryCount_take_lt hlt hentry
  rwa [take_length] at h

theorem idAfter_injective (hnodup : ((List.range (entryCount entries)).map source.uuidTail).Nodup)
    (hi : entries[i]?.any isEntry) (hj : entries[j]?.any isEntry)
    (h : idAfter source entries i = idAfter source entries j) : i = j := by
  unfold idAfter at h
  rw [if_pos hi, if_pos hj, Option.some.injEq] at h
  have hcount := inj_on_of_nodup_map hnodup (mem_range.2 (entryCount_take_lt_total hi))
    (mem_range.2 (entryCount_take_lt_total hj)) h
  rcases Nat.lt_trichotomy i j with hlt | heq | hlt
  · have := entryCount_take_lt hlt hi
    omega
  · exact heq
  · have := entryCount_take_lt hlt hj
    omega

theorem idAfter_isSome (source : IdSource) (entries : List (V1Entry ρ)) (i : Nat) :
    (idAfter source entries i).isSome = entries[i]?.any isEntry := by
  unfold idAfter
  split <;> simp_all

theorem firstKeptIndex?_eq_some (h : firstKeptIndex? entries c = some first) :
    ∃ number rest, entries[c]? = some (.entry (.compaction (some number) rest)) ∧
      arrayIndex? number = some first ∧ first < entries.length := by
  unfold firstKeptIndex? at h
  split at h
  · rename_i number rest hentry
    obtain ⟨hindex, hlt⟩ := Option.filter_eq_some_iff.1 h
    exact ⟨number, rest, hentry, hindex, by simpa using hlt⟩
  · cases h

theorem Migrated.keptAfter_eq (h : Migrated source entries entries.length migrated)
    (hfirst : firstKeptIndex? entries c = some first) :
    keptAfter migrated c =
      ((List.range c).filter fun i => entries[i]?.any isEntry).dropWhile fun i =>
        decide (idAfter source entries i ≠ if first ≤ c then
          idAfter source entries first else none) := by
  obtain ⟨number, rest, hentry, hindex, -⟩ := firstKeptIndex?_eq_some hfirst
  have hc : c < entries.length := (List.getElem?_eq_some_iff.1 hentry).1
  obtain ⟨id, parentId, hmigrated⟩ := h.compactions c hc (some number) rest hentry
  have hkept : firstKeptAfter source entries c (some number) =
      if first ≤ c then idAfter source entries first else none := by
    rw [firstKeptAfter, Option.bind_some, hindex, Option.bind_some]
  have hids : ∀ i ∈ List.range c, migrated[i]?.bind id? = idAfter source entries i := by
    intro i hi
    exact h.ids i (Nat.lt_trans (mem_range.1 hi) hc)
  have hfilter : ((List.range c).filter fun i => (migrated[i]?.bind id?).isSome) =
      (List.range c).filter fun i => entries[i]?.any isEntry := by
    apply filter_congr
    intro i hi
    rw [hids i hi, idAfter_isSome]
  unfold keptAfter
  rw [hmigrated]
  rw [hfilter, hkept]
  apply dropWhile_congr
  intro i hi
  rw [hids i (mem_of_mem_filter hi)]

theorem keptBefore_eq_filter (entries : List (V1Entry ρ)) (c first : Nat) :
    keptBefore entries c first =
      ((List.range c).filter fun i => entries[i]?.any isEntry).filter
        fun i => decide (first ≤ i) := by
  rw [filter_filter]
  unfold keptBefore
  congr 1
  funext i
  rw [Bool.and_comm]

theorem Migrated.keptAfter_of_nodup (h : Migrated source entries entries.length migrated)
    (hnodup : ((List.range (entryCount entries)).map source.uuidTail).Nodup)
    (hfirst : firstKeptIndex? entries c = some first) :
    keptAfter migrated c =
      if entries[first]?.any isEntry then keptBefore entries c first else [] := by
  rw [h.keptAfter_eq hfirst]
  have hmem : ∀ {i}, i ∈ (List.range c).filter (fun i => entries[i]?.any isEntry) →
      i < c ∧ entries[i]?.any isEntry := by
    intro i hi
    exact ⟨mem_range.1 (mem_filter.1 hi).1, (mem_filter.1 hi).2⟩
  by_cases hentry : entries[first]?.any isEntry = true
  · rw [if_pos hentry, keptBefore_eq_filter]
    rcases Nat.lt_or_ge first c with hlt | hge
    · rw [if_pos (Nat.le_of_lt hlt)]
      have hcongr : ∀ i ∈ (List.range c).filter (fun i => entries[i]?.any isEntry),
          decide (idAfter source entries i ≠ idAfter source entries first) =
            decide (i ≠ first) := by
        intro i hi
        rw [decide_eq_decide]
        refine not_congr ⟨fun heq => ?_, fun heq => by rw [heq]⟩
        exact idAfter_injective hnodup (hmem hi).2 hentry heq
      rw [dropWhile_congr hcongr]
      apply dropWhile_ne_eq_filter
      · exact pairwise_lt_range.filter _
      · exact mem_filter.2 ⟨mem_range.2 hlt, hentry⟩
    · -- The target is not before the compaction, so nothing is kept on either side.
      have hright : ((List.range c).filter fun i => entries[i]?.any isEntry).filter
          (fun i => decide (first ≤ i)) = [] := by
        rw [filter_eq_nil_iff]
        intro i hi
        have := (hmem hi).1
        simp only [decide_eq_true_eq]
        omega
      rw [hright, dropWhile_eq_nil_iff]
      intro i hi
      rw [decide_eq_true_eq]
      obtain ⟨hic, hisEntry⟩ := hmem hi
      split
      · intro heq
        have := idAfter_injective hnodup hisEntry hentry heq
        omega
      · intro hnone
        have hsome := idAfter_isSome source entries i
        rw [hnone, hisEntry] at hsome
        cases hsome
  · rw [if_neg hentry]
    have hnone : (if first ≤ c then idAfter source entries first else none) = none := by
      rw [idAfter, if_neg hentry, ite_self]
    rw [hnone, dropWhile_eq_nil_iff]
    intro i hi
    rw [decide_eq_true_eq]
    intro heq
    have hsome := idAfter_isSome source entries i
    rw [heq, (hmem hi).2] at hsome
    cases hsome

/-- The migration always ends.  It is right exactly if the random ids differ and every compaction
that names a header comes before all other entries after that header. -/
theorem migrateV1ToV2_migratesWell_iff (source : IdSource) (entries : List (V1Entry ρ)) :
    (∃ migrated, migrateV1ToV2 source entries = some migrated ∧ MigratesWell entries migrated) ↔
      ((List.range (entryCount entries)).map source.uuidTail).Nodup ∧
      ∀ c first, firstKeptIndex? entries c = some first →
        entries[first]?.any isEntry = false → keptBefore entries c first = [] := by
  have hstart : Migrated source entries ([] : List (V1Entry ρ)).length [] :=
    ⟨rfl, fun i hi => absurd hi (Nat.not_lt_zero i), fun c hc => absurd hc (Nat.not_lt_zero c)⟩
  obtain ⟨migrated, hloop, hmigrated, hlinks⟩ :=
    @migrateLoop_spec ρ source entries [] entries rfl none [] hstart
  have hrun : migrateV1ToV2 source entries = some migrated := hloop
  have hchain : IsOneChain (migrated.filterMap link?) ↔
      ((List.range (entryCount entries)).map source.uuidTail).Nodup := by
    rw [hlinks]
    exact isOneChain_linksFrom_iff source (entryCount entries)
  constructor
  · rintro ⟨migrated', hrun', hwell⟩
    rw [hrun, Option.some.injEq] at hrun'
    subst hrun'
    have hnodup := hchain.1 hwell.chain
    refine ⟨hnodup, fun c first hfirst hheader => ?_⟩
    rw [← hwell.kept c first hfirst, hmigrated.keptAfter_of_nodup hnodup hfirst, hheader]
    rfl
  · rintro ⟨hnodup, hheaders⟩
    refine ⟨migrated, hrun, hchain.2 hnodup, fun c first hfirst => ?_⟩
    rw [hmigrated.keptAfter_of_nodup hnodup hfirst]
    split
    · rfl
    · rename_i hheader
      exact (hheaders c first hfirst (by simpa using hheader)).symm

end

def countingIds : IdSource :=
  ⟨fun n => Text.ofNat (10000000 + n), fun n => Text.ofNat (1000000000000000 + n)⟩

def repeatedIds : IdSource := { countingIds with uuidTail := fun _ => Text.ofNat 10000000 }

/-- The compaction names the header, so the message was kept and is not shown any more.  And two
equal random ids are given to two entries. -/
theorem migrateV1ToV2_loses :
    (¬ ∃ migrated, migrateV1ToV2 countingIds
        [.session (), .entry (.other ()), .entry (.compaction (some 0) ())] = some migrated ∧
      MigratesWell [.session (), .entry (.other ()), .entry (.compaction (some 0) ())] migrated) ∧
    ¬ ∃ migrated, migrateV1ToV2 repeatedIds [.session (), .entry (.other ()), .entry (.other ())] =
      some migrated ∧
      MigratesWell [.session (), .entry (.other ()), .entry (.other ())] migrated := by
  constructor
  · rintro ⟨migrated, hrun, hwell⟩
    have hmigrated : migrated = [.session 2 (), .entry "10000000".toList none (.other ()),
        .entry "10000001".toList (some "10000000".toList) (.compaction none ())] := by
      have h : migrateV1ToV2 countingIds
          [.session (), .entry (.other ()), .entry (.compaction (some 0) ())] =
          some [.session 2 (), .entry "10000000".toList none (.other ()),
            .entry "10000001".toList (some "10000000".toList)
              (.compaction none ())] := by decide +kernel
      rw [h] at hrun
      exact (Option.some.inj hrun).symm
    subst hmigrated
    exact absurd (hwell.kept 2 0 (by decide +kernel)) (by decide +kernel)
  · rintro ⟨migrated, hrun, hwell⟩
    have hmigrated : migrated = [.session 2 (), .entry "10000000".toList none (.other ()),
        .entry "10000000".toList (some "10000000".toList) (.other ())] := by
      have h : migrateV1ToV2 repeatedIds [.session (), .entry (.other ()), .entry (.other ())] =
          some [.session 2 (), .entry "10000000".toList none (.other ()),
            .entry "10000000".toList (some "10000000".toList) (.other ())] := by decide +kernel
      rw [h] at hrun
      exact (Option.some.inj hrun).symm
    subst hmigrated
    exact absurd hwell.chain.1 (by decide +kernel)

end Vibrato.Session
