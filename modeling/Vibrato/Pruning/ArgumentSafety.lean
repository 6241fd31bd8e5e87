import Mathlib.Algebra.Order.Ring.Rat
import Mathlib.Data.Nat.Cast.Order.Ring
import Vibrato.Pruning.Arguments

namespace Vibrato.Pruning

open Lib Agent List OrderedMap

variable (entries : List Entry)

def blockAt (i b : Nat) : Option Block :=
  entries[i]?.bind fun entry => entry.assistantBlocks[b]?

structure PlacedCall where
  index : Nat
  block : Nat
  call : ToolCall

def placedCalls : List PlacedCall :=
  entries.zipIdx.flatMap fun (entry, i) => entry.assistantBlocks.zipIdx.filterMap fun (block, b) =>
    block.toolCall?.map fun call => ⟨i, b, call⟩

variable (candidates : List ArgumentCandidate)

variable (prunedAt : Nat)

def prunedCall (placed : PlacedCall) : ToolCall :=
  match candidateAt candidates placed.index placed.block with
  | some candidate => withSentinel placed.call candidate prunedAt
  | none => placed.call

theorem toolCall?_prunedBlock (i b : Nat) (block : Block) :
    (prunedBlock candidates prunedAt i (block, b)).toolCall? =
      block.toolCall?.map fun call => prunedCall candidates prunedAt ⟨i, b, call⟩ := by
  cases block with
  | toolCall call =>
    cases hcandidate :
      candidateAt candidates i b <;> simp [prunedBlock, prunedCall, Block.toolCall?, hcandidate]
  | _ => rfl

theorem assistantBlocks_mapBlocks (f : Block × Nat → Block) (entry : Entry) :
    (mapBlocks f entry).assistantBlocks = entry.assistantBlocks.zipIdx.map f := by
  unfold mapBlocks
  split
  · rfl
  · next hentry =>
    have hnil : entry.assistantBlocks = [] := by
      unfold Entry.assistantBlocks
      split
      · next id content => exact absurd rfl (hentry id content)
      · rfl
    rw [hnil]
    rfl

theorem blockAt_applyCandidates (entries : List Entry) (i b : Nat) :
    blockAt (applyCandidates candidates prunedAt entries) i b =
      (blockAt entries i b).map fun block => prunedBlock candidates prunedAt i (block, b) := by
  unfold blockAt applyCandidates
  cases hentry : entries[i]? with
  | none => simp [hentry]
  | some entry =>
    have hblocks : (entries.zipIdx.map fun (entry, i) =>
        mapBlocks (prunedBlock candidates prunedAt i) entry)[i]? =
        some (mapBlocks (prunedBlock candidates prunedAt i) entry) := by
      simp [getElem?_zipIdx, hentry]
    rw [hblocks, Option.bind_some, assistantBlocks_mapBlocks, getElem?_map, getElem?_zipIdx,
      Option.map_map]
    simp [Function.comp_def]

theorem map_call_placedCalls (entries : List Entry) :
    (placedCalls entries).map PlacedCall.call = entries.flatMap Entry.toolCalls := by
  have hentries : entries.flatMap Entry.toolCalls =
      entries.zipIdx.flatMap fun indexed => indexed.1.toolCalls := by
    conv_lhs => rw [← zipIdx_map_fst 0 entries, flatMap_map]
  rw [placedCalls, map_flatMap, hentries]
  refine flatMap_congr fun indexed _ => ?_
  rw [map_filterMap, Entry.toolCalls]
  conv_rhs => rw [← zipIdx_map_fst 0 indexed.1.assistantBlocks, filterMap_map]
  refine filterMap_congr fun placed _ => ?_
  simp [Function.comp_def]

theorem toolCalls_applyCandidates (entries : List Entry) :
    (applyCandidates candidates prunedAt entries).flatMap Entry.toolCalls =
      (placedCalls entries).map (prunedCall candidates prunedAt) := by
  rw [placedCalls, applyCandidates, map_flatMap, flatMap_map]
  refine flatMap_congr fun indexed _ => ?_
  rw [Entry.toolCalls, assistantBlocks_mapBlocks, filterMap_map, map_filterMap]
  refine filterMap_congr fun placed _ => ?_
  rw [Function.comp_apply, toolCall?_prunedBlock, Option.map_map]
  rfl

theorem mem_placedCalls {entries : List Entry} {placed : PlacedCall}
    (h : placed ∈ placedCalls entries) :
    blockAt entries placed.index placed.block = some (.toolCall placed.call) := by
  obtain ⟨⟨entry, i⟩, hentry, hblocks⟩ := mem_flatMap.mp h
  obtain ⟨⟨block, b⟩, hblock, hcall⟩ := mem_filterMap.mp hblocks
  rw [mem_zipIdx_iff_getElem?] at hentry hblock
  cases block with
  | toolCall call =>
    cases hcall
    simp only [blockAt, hentry, Option.bind_some]
    exact hblock
  | _ => cases hcall

theorem callsById_applyCandidates {entries : List Entry} {id : Text} {call : ToolCall}
    (h : (callsById entries).get? id = some call) (candidates : List ArgumentCandidate)
    (prunedAt : Nat) :
    ∃ placed : PlacedCall, placed.call = call ∧
      blockAt entries placed.index placed.block = some (.toolCall call) ∧
      (callsById (applyCandidates candidates prunedAt entries)).get? id =
        some (prunedCall candidates prunedAt placed) := by
  -- both maps are filled from the same places, with one key for each
  have hwrites : ∀ f : PlacedCall → ToolCall, (∀ placed, (f placed).id = placed.call.id) →
      (ofWrites (((placedCalls entries).map f).map fun call => (call.id, call))).get? id =
        ((ofWrites ((placedCalls entries).map fun placed =>
          (placed.call.id, placed))).get? id).map f := by
    intro f hid
    rw [← get?_ofWrites_map, map_map, map_map]
    simp only [Function.comp_def, hid]
  rw [callsById, ← map_call_placedCalls, hwrites PlacedCall.call fun _ => rfl] at h
  obtain ⟨placed, hplaced, hcall⟩ := Option.map_eq_some_iff.mp h
  have hmem : placed ∈ placedCalls entries := by
    obtain ⟨placed', hmem, heq⟩ := mem_map.mp (mem_of_get?_ofWrites hplaced)
    cases heq
    exact hmem
  refine ⟨placed, hcall, hcall ▸ mem_placedCalls hmem, ?_⟩
  rw [callsById, toolCalls_applyCandidates, hwrites, hplaced, Option.map_some]
  intro placed
  unfold prunedCall
  split <;> rfl

def windowTokens (fence : Option Nat) (indexed : List (Entry × Nat)) : Nat :=
  ((indexed.filter fun (entry, j) => entry.isAssistant && !fence.any (· ≤ j)).map
    fun (entry, _) => estimateEntryTokens entry).sum

theorem windowTokens_reverse (fence : Option Nat) (indexed : List (Entry × Nat)) :
    windowTokens fence indexed.reverse = windowTokens fence indexed := by
  rw [windowTokens, windowTokens, filter_reverse, map_reverse, sum_reverse]

variable {index : ArgumentStalenessIndex} {accumulatedTokens i : Nat} {indexed : List (Entry × Nat)}

theorem mem_collectGroups {fence : Option Nat} {protectTokens : ℚ} {group : CandidateGroup}
    (h : group ∈ collectGroups index fence protectTokens accumulatedTokens indexed) :
    (∀ start, fence = some start → group.index < start) ∧
    group.candidates = entryCandidates index group.index group.entry ∧
    ∃ newer older, indexed = newer ++ (group.entry, group.index) :: older ∧
      protectTokens ≤ (accumulatedTokens + windowTokens fence newer : Nat) := by
  induction indexed generalizing accumulatedTokens with
  | nil => cases h
  | cons head older ih =>
    obtain ⟨entry, i⟩ := head
    rw [collectGroups] at h
    split at h
    · next hskip =>
      obtain ⟨hfence, hcandidates, newer, older', rfl, hle⟩ := ih h
      refine ⟨hfence, hcandidates, (entry, i) :: newer, older', rfl, ?_⟩
      have hwindow : windowTokens fence ((entry, i) :: newer) = windowTokens fence newer := by
        rw [windowTokens, windowTokens]
        cases hassistant : entry.isAssistant <;> simp_all
      rw [hwindow]
      exact hle
    · next htake =>
      simp only [Bool.or_eq_true, not_or, Bool.not_eq_true, Bool.not_eq_false'] at htake
      rcases mem_append.mp h with h | h
      · by_cases hwindow : (accumulatedTokens : ℚ) < protectTokens
        · simp [hwindow] at h
        · rw [if_neg hwindow] at h
          split at h
          · cases h
          · cases mem_singleton.mp h
            refine ⟨fun start hstart => ?_, rfl, [], older, rfl, ?_⟩
            · have hlt : ¬start ≤ i := by simpa [hstart] using htake.1
              show i < start
              omega
            · simpa [windowTokens] using not_lt.mp hwindow
      · obtain ⟨hfence, hcandidates, newer, older', rfl, hle⟩ := ih h
        refine ⟨hfence, hcandidates, (entry, i) :: newer, older', rfl, ?_⟩
        have hwindow : windowTokens fence ((entry, i) :: newer) =
            estimateEntryTokens entry + windowTokens fence newer := by
          rw [windowTokens, windowTokens, filter_cons_of_pos, map_cons, sum_cons]
          simp [htake.1, htake.2]
        rw [hwindow, ← Nat.add_assoc]
        exact hle

theorem mem_collectGroups_of_mem {entry : Entry} (hmem : (entry, i) ∈ indexed)
    (hassistant : entry.isAssistant = true) (hne : entryCandidates index i entry ≠ []) :
    ⟨i, entry, entryCandidates index i entry⟩ ∈ collectGroups index none 0 accumulatedTokens
      indexed := by
  have hwindow : ∀ n : Nat, ¬((n : ℚ) < 0) := fun n => not_lt.mpr (Nat.cast_nonneg n)
  induction indexed generalizing accumulatedTokens with
  | nil => cases hmem
  | cons head older ih =>
    obtain ⟨entry', i'⟩ := head
    rw [collectGroups]
    rcases mem_cons.mp hmem with hhead | holder
    · cases hhead
      simp [hassistant, hwindow, hne]
    · split
      · exact ih holder
      · exact mem_append_right _ (ih holder)

/-- A call whose own paths are stale, in a message that sentinels make shorter. -/
structure Prunable (entries : List Entry) (prunedAt i b : Nat) (call : ToolCall) : Prop where
  candidate : ∃ candidate, argumentCandidate? (buildAssistantArgumentStalenessIndex entries) i
    (.toolCall call, b) = some candidate
  saves : ∃ entry, entries[i]? = some entry ∧ entry.assistantBlocks[b]? = some (.toolCall call) ∧
    groupSavings ⟨i, entry, entryCandidates (buildAssistantArgumentStalenessIndex entries) i entry⟩
      prunedAt ≠ 0

theorem argumentCandidate?_spec {b : Nat} {block : Block}
    {candidate : ArgumentCandidate} (h : argumentCandidate? index i (block, b) = some candidate) :
    block = .toolCall candidate.call ∧ candidate.index = i ∧ candidate.block = b ∧
      groupsStale index i candidate.call = true ∧
      isPrunedToolArgumentsSentinel candidate.call.arguments = false := by
  cases block with
  | toolCall call =>
    rw [argumentCandidate?] at h
    split at h
    · cases h
    · obtain ⟨arguments, harguments, hcandidate⟩ := Option.bind_eq_some_iff.mp h
      simp only [Option.ite_none_left_eq_some, Bool.or_eq_true, not_or, Bool.not_eq_true,
        Bool.not_eq_false'] at hcandidate
      obtain ⟨⟨⟨⟨hsentinel, -⟩, -⟩, hstale⟩, hcandidate⟩ := hcandidate
      cases hcandidate
      exact ⟨rfl, rfl, rfl, hstale, by rw [harguments]; exact hsentinel⟩
  | _ => cases h

section

variable {entries : List Entry} {config : PruneConfig} {prunedAt : Nat}

variable {candidate : ArgumentCandidate} {b i : Nat}

theorem mem_prunedCandidates (h : candidate ∈ prunedCandidates entries config prunedAt) :
    Prunable entries prunedAt candidate.index candidate.block candidate.call ∧
    blockAt entries candidate.index candidate.block = some (.toolCall candidate.call) ∧
    (∀ start, fenceStart entries config = some start → candidate.index < start) ∧
    config.protectTokens ≤ (windowTokens (fenceStart entries config)
      (entries.zipIdx.drop (candidate.index + 1)) : Nat) := by
  obtain ⟨group, hgroup, hcandidate⟩ := mem_flatMap.mp h
  have hadmitted : group ∈ admittedGroups entries config prunedAt := by
    unfold prunedGroups at hgroup
    dsimp only at hgroup
    split at hgroup
    · cases hgroup
    · exact hgroup
  obtain ⟨hcollected, hsaves⟩ := mem_filter.mp hadmitted
  obtain ⟨hfence, hcandidates, newer, older, hsplit, hwindow⟩ := mem_collectGroups hcollected
  have hzip : entries.zipIdx = older.reverse ++ (group.entry, group.index) :: newer.reverse := by
    have hreverse := congrArg List.reverse hsplit
    simpa using hreverse
  have hindex : group.index = older.length ∧ entries[group.index]? = some group.entry := by
    have hat : entries.zipIdx[older.length]? = some (group.entry, group.index) := by
      rw [hzip]
      simp
    rw [getElem?_zipIdx] at hat
    obtain ⟨entry, hentry, heq⟩ := Option.map_eq_some_iff.mp hat
    simp only [Nat.zero_add, Prod.mk.injEq] at heq
    obtain ⟨rfl, hlength⟩ := heq
    exact ⟨hlength.symm, hlength ▸ hentry⟩
  rw [hcandidates] at hcandidate
  obtain ⟨⟨block, b⟩, hblock, hcandidate⟩ := mem_filterMap.mp hcandidate
  obtain ⟨rfl, hi, rfl, -⟩ := argumentCandidate?_spec hcandidate
  rw [mem_zipIdx_iff_getElem?] at hblock
  rw [hi]
  refine ⟨⟨⟨candidate, hcandidate⟩, group.entry, hindex.2, hblock, ?_⟩, ?_, hfence, ?_⟩
  · rw [← hcandidates]
    simpa using hsaves
  · simp only [blockAt, hindex.2, Option.bind_some]
    exact hblock
  · have hdrop : entries.zipIdx.drop (group.index + 1) = newer.reverse := by
      rw [hzip, append_cons]
      exact drop_left' (by simp [hindex.1])
    rw [hdrop, windowTokens_reverse]
    simpa using hwindow

theorem mem_of_candidateAt {candidates : List ArgumentCandidate}
    (h : candidateAt candidates i b = some candidate) :
    candidate ∈ candidates ∧ candidate.index = i ∧ candidate.block = b := by
  have hfound := find?_some h
  rw [Bool.and_eq_true, decide_eq_true_iff, decide_eq_true_iff] at hfound
  exact ⟨mem_of_find?_eq_some h, hfound⟩

theorem exists_candidate_of_changed {call : ToolCall}
    (hblock : blockAt entries i b = some (.toolCall call))
    (hchanged : blockAt (pruneAssistantToolArguments entries config prunedAt).2 i b ≠
      some (.toolCall call)) :
    ∃ candidate ∈ prunedCandidates entries config prunedAt,
      candidate.index = i ∧ candidate.block = b ∧ candidate.call = call := by
  have hafter : blockAt (pruneAssistantToolArguments entries config prunedAt).2 i b =
      some (prunedBlock (prunedCandidates entries config prunedAt) prunedAt i
        (.toolCall call, b)) := by
    rw [pruneAssistantToolArguments, blockAt_applyCandidates, hblock]
    rfl
  cases hcandidate : candidateAt (prunedCandidates entries config prunedAt) i b with
  | none =>
    rw [hafter] at hchanged
    simp [prunedBlock, hcandidate] at hchanged
  | some candidate =>
    obtain ⟨hmem, hi, hb⟩ := mem_of_candidateAt hcandidate
    refine ⟨candidate, hmem, hi, hb, ?_⟩
    have hplace := (mem_prunedCandidates hmem).2.1
    rw [hi, hb, hblock] at hplace
    simpa using hplace.symm

end

/-- What holds of every call that is pruned: it is before the fence and outside of the window, and
each path that it mutated was mutated later by a call that keeps its arguments. -/
def ArgumentPruneSafe (entries : List Entry) (config : PruneConfig) (prunedAt : Nat) : Prop :=
  ∀ i b call, blockAt entries i b = some (.toolCall call) →
    blockAt (pruneAssistantToolArguments entries config prunedAt).2 i b ≠ some (.toolCall call) →
    (∀ start, fenceStart entries config = some start → i < start) ∧
    config.protectTokens ≤
      (windowTokens (fenceStart entries config) (entries.zipIdx.drop (i + 1)) : Nat) ∧
    ∀ r path, Mutates entries call r path → ∃ later r', r < r' ∧ Mutates entries later r' path ∧
      (callsById (pruneAssistantToolArguments entries config prunedAt).2).get? later.id = some later

/-- What a prunable AST edit mutated, or a prunable call whose paths a later preview names, was
mutated again later. -/
def AstEditsSuperseded (entries : List Entry) (prunedAt : Nat) : Prop :=
  ∀ i b call, Prunable entries prunedAt i b call → ∀ r group, MutatesGroup entries call r group →
    (call.name = AST_EDIT ∨ ∃ preview r' group', r < r' ∧ Previews entries preview r' group' ∧
      pathGroupKey group' = pathGroupKey group) →
    ∀ path ∈ group, ∃ later r', r < r' ∧ Mutates entries later r' path

section

variable {entries : List Entry} {prunedAt : Nat}

variable {call : ToolCall} {b i r : Nat} {path : Text}

theorem exists_later_of_prunable (hcond : AstEditsSuperseded entries prunedAt)
    (hprunable : Prunable entries prunedAt i b call)
    (hmutates : Mutates entries call r path) :
    ∃ later r', r < r' ∧ Mutates entries later r' path := by
  obtain ⟨group, hgroup, hpath⟩ := hmutates
  by_cases hname : call.name = AST_EDIT
  · exact hcond i b call hprunable r group hgroup (.inl hname) path hpath
  · obtain ⟨candidate, hcandidate⟩ := hprunable.candidate
    obtain ⟨hcall, -, -, hstale, -⟩ := argumentCandidate?_spec hcandidate
    cases hcall
    have hown : group ∈ editToolPathGroups candidate.call := by
      obtain ⟨message, -, -, hmem, -⟩ := hgroup.result
      rwa [mutatedGroups, if_neg hname] at hmem
    obtain ⟨later, r', group', hlt, hrecords, hkey⟩ :=
      exists_later_of_groupsStale hstale hown hgroup.records
    rcases hrecords.mutates_or_previews with hlater | hpreview
    · exact ⟨later, r', hlt, group', hlater, mem_of_pathGroupKey_eq hkey.symm hpath⟩
    · exact hcond i b _ hprunable r group hgroup
        (.inr ⟨later, r', group', hlt, hpreview, hkey⟩) path hpath

theorem Mutates.lt_length (h : Mutates entries call r path) : r < entries.length := by
  obtain ⟨message, hanswered⟩ := h.answered
  by_contra hlength
  have hnone : entries[r]? = none := getElem?_eq_none (by omega)
  simp [answeredAt, hnone] at hanswered

theorem exists_last_mutation (h : Mutates entries call r path) :
    ∃ last r', r ≤ r' ∧ Mutates entries last r' path ∧ ∀ later r'', r' < r'' →
      ¬Mutates entries later r'' path := by
  induction hn : entries.length - r using Nat.strong_induction_on generalizing r call with
  | h n ih =>
    by_cases hlast : ∀ later r'', r < r'' → ¬Mutates entries later r'' path
    · exact ⟨call, r, le_refl r, h, hlast⟩
    · simp only [not_forall, not_not] at hlast
      obtain ⟨later, r'', hlt, hlater⟩ := hlast
      have hlength := hlater.lt_length
      obtain ⟨last, r', hle, hmutates, hno⟩ := ih (entries.length - r'') (by omega) hlater rfl
      exact ⟨last, r', by omega, hmutates, hno⟩

theorem kept_of_last (hcond : AstEditsSuperseded entries prunedAt) (config : PruneConfig)
    {last : ToolCall} (hlast : Mutates entries last r path)
    (hno : ∀ later r', r < r' → ¬Mutates entries later r' path) :
    (callsById (pruneAssistantToolArguments entries config prunedAt).2).get? last.id =
      some last := by
  have hcall : (callsById entries).get? last.id = some last := by
    obtain ⟨message, hanswered⟩ := hlast.answered
    obtain ⟨message', -, hcall⟩ := Option.bind_eq_some_iff.mp hanswered
    obtain ⟨call, hcall, heq⟩ := Option.map_eq_some_iff.mp hcall
    cases heq
    rw [id_of_callsById hcall]
    exact hcall
  obtain ⟨placed, rfl, hplace, hafter⟩ :=
    callsById_applyCandidates hcall (prunedCandidates entries config prunedAt) prunedAt
  show (callsById
      (applyCandidates (prunedCandidates entries config prunedAt) prunedAt entries)).get?
    placed.call.id = some placed.call
  rw [hafter, prunedCall]
  cases hcandidate :
    candidateAt (prunedCandidates entries config prunedAt) placed.index placed.block with
  | none => rfl
  | some candidate =>
    -- it would be prunable, and what it mutated would have a later mutation
    obtain ⟨hmem, hi, hb⟩ := mem_of_candidateAt hcandidate
    obtain ⟨hprunable, hblock, -⟩ := mem_prunedCandidates hmem
    rw [hi, hb, hplace, Option.some.injEq, Block.toolCall.injEq] at hblock
    rw [← hblock] at hprunable
    obtain ⟨later, r', hlt, hlater⟩ := exists_later_of_prunable hcond hprunable hlast
    exact absurd hlater (hno later r' hlt)

theorem argumentPruneSafe_of_superseded (hcond : AstEditsSuperseded entries prunedAt)
    (config : PruneConfig) : ArgumentPruneSafe entries config prunedAt := by
  intro i b call hblock hchanged
  obtain ⟨candidate, hmem, rfl, rfl, rfl⟩ := exists_candidate_of_changed hblock hchanged
  obtain ⟨hprunable, -, hfence, hwindow⟩ := mem_prunedCandidates hmem
  refine ⟨hfence, hwindow, fun r path hmutates => ?_⟩
  obtain ⟨later, r', hlt, hlater⟩ := exists_later_of_prunable hcond hprunable hmutates
  obtain ⟨last, r'', hle, hlast, hno⟩ := exists_last_mutation hlater
  exact ⟨last, r'', by omega, hlast, kept_of_last hcond config hlast hno⟩

def unprotected : PruneConfig := ⟨0, 0, [], some 0, none⟩

theorem prunedGroups_unprotected (entries : List Entry) (prunedAt : Nat) :
    prunedGroups entries unprotected prunedAt = admittedGroups entries unprotected prunedAt := by
  have hmin : ∀ n : Nat, ¬((n : ℚ) < unprotected.minimumSavings) :=
    fun n => not_lt.mpr (Nat.cast_nonneg n)
  rw [prunedGroups, if_neg (hmin _)]

theorem changed_of_prunable (h : Prunable entries prunedAt i b call) :
    blockAt entries i b = some (.toolCall call) ∧
    blockAt (pruneAssistantToolArguments entries unprotected prunedAt).2 i b ≠
      some (.toolCall call) := by
  obtain ⟨candidate, hcandidate⟩ := h.candidate
  obtain ⟨entry, hentry, hblock, hsaves⟩ := h.saves
  obtain ⟨hcall, hi, hb, -, hsentinel⟩ := argumentCandidate?_spec hcandidate
  have hat : blockAt entries i b = some (.toolCall call) := by
    rw [blockAt, hentry]
    exact hblock
  refine ⟨hat, ?_⟩
  have hmem : candidate ∈ entryCandidates (buildAssistantArgumentStalenessIndex entries) i entry :=
    mem_filterMap.mpr ⟨_, mem_zipIdx_iff_getElem?.mpr hblock, hcandidate⟩
  have hassistant : entry.isAssistant = true := by
    unfold Entry.assistantBlocks at hblock
    split at hblock
    · rfl
    · cases hblock
  have hgroup : ⟨i, entry, entryCandidates (buildAssistantArgumentStalenessIndex entries) i entry⟩ ∈
      candidatesByEntry entries unprotected :=
    mem_collectGroups_of_mem (mem_reverse.mpr (mem_zipIdx_iff_getElem?.mpr hentry))
      hassistant (ne_nil_of_mem hmem)
  have hadmitted :
      ⟨i, entry, entryCandidates (buildAssistantArgumentStalenessIndex entries) i entry⟩ ∈
      prunedGroups entries unprotected prunedAt := by
    rw [prunedGroups_unprotected]
    exact mem_filter.mpr ⟨hgroup, by simpa using hsaves⟩
  have hpruned : candidate ∈ prunedCandidates entries unprotected prunedAt :=
    mem_flatMap.mpr ⟨_, hadmitted, hmem⟩
  -- the block at the place of the candidate holds a sentinel, and the call did not
  have hsome : (candidateAt (prunedCandidates entries unprotected prunedAt) i b).isSome = true :=
    find?_isSome.mpr ⟨candidate, hpruned, by simp [hi, hb]⟩
  obtain ⟨found, hfound⟩ := Option.isSome_iff_exists.mp hsome
  rw [pruneAssistantToolArguments, blockAt_applyCandidates, hat]
  intro hsame
  rw [← prunedCandidates, Option.map_some, prunedBlock, hfound, Option.some.injEq,
    Block.toolCall.injEq] at hsame
  cases hcall
  rw [← hsame] at hsentinel
  cases hsentinel

/-- The latest mutation of every file survives under each configuration if and only if what a
prunable AST edit mutated, or a prunable call that a preview follows, was mutated again later. -/
theorem argumentPruneSafe_iff (entries : List Entry) (prunedAt : Nat) :
    (∀ config, ArgumentPruneSafe entries config prunedAt) ↔
      AstEditsSuperseded entries prunedAt := by
  constructor
  · intro hsafe i b call hprunable r group hgroup _ path hpath
    obtain ⟨hblock, hchanged⟩ := changed_of_prunable hprunable
    obtain ⟨-, -, hlater⟩ := hsafe unprotected i b call hblock hchanged
    obtain ⟨later, r', hlt, hmutated, -⟩ := hlater r path ⟨group, hgroup, hpath⟩
    exact ⟨later, r', hlt, hmutated⟩
  · exact argumentPruneSafe_of_superseded

end

def writeCall : ToolCall :=
  ⟨"1".toList, "write".toList, none, some (.obj [("path".toList, .str "a.ts".toList),
    ("content".toList, .str (List.replicate 400 'x'))])⟩

/-- An AST edit with a `path` beside the arguments that it has. -/
def astEditCall : ToolCall :=
  ⟨"2".toList, AST_EDIT, none,
    some (.obj [("ops".toList, .arr [.obj [("pat".toList, .str "old".toList),
    ("out".toList, .str "new".toList)]]), ("paths".toList, .arr [.str "a.ts".toList]),
    ("path".toList, .str "a.ts".toList)])⟩

/-- A file is written, and an AST edit of it is previewed. -/
def writeThenPreview : List Entry :=
  exchange writeCall "ok".toList none ++ exchange astEditCall "ok".toList
    (some (.obj [("applied".toList, .bool false), ("files".toList, .arr [.str "a.ts".toList])]))

theorem writeThenPreview_unsafe : ¬ArgumentPruneSafe writeThenPreview unprotected 0 := by
  intro hsafe
  have hblock : blockAt writeThenPreview 0 0 = some (.toolCall writeCall) := by decide +kernel
  have hchanged : blockAt (pruneAssistantToolArguments writeThenPreview unprotected 0).2 0 0 ≠
      some (.toolCall writeCall) := by decide +kernel
  have hmutates : Mutates writeThenPreview writeCall 1 "a.ts".toList := by
    refine ⟨["a.ts".toList], ⟨by decide +kernel, _, rfl, ?_⟩, mem_singleton_self _⟩
    decide +kernel
  obtain ⟨-, -, hlater⟩ := hsafe 0 0 writeCall hblock hchanged
  obtain ⟨later, r, hlt, hlater, -⟩ := hlater 1 _ hmutates
  have hlength : r < 4 := hlater.lt_length
  obtain ⟨group, hgroup, -⟩ := hlater
  obtain ⟨message, hanswered, -, hmem, -⟩ := hgroup.result
  -- the other result changed no file
  have hr : r = 2 ∨ r = 3 := by omega
  rcases hr with rfl | rfl
  · cases hanswered
  · have hgroups : ((answeredAt writeThenPreview 3).map fun answered =>
        mutatedGroups answered.1 answered.2) = some [] := by decide +kernel
    rw [hanswered, Option.map_some, Option.some.injEq] at hgroups
    rw [hgroups] at hmem
    cases hmem

end Vibrato.Pruning
