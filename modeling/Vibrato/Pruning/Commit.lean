import Vibrato.Lib.Positions
import Vibrato.Pruning.OutputPlan

/-! `commitToolOutputPrune`: a plan is carried out on the live entries.  An output is replaced only
if its digest is still the planned one. -/

namespace Vibrato.Pruning

open Lib Output Agent List OrderedMap Candidate

structure CommitReplacement where
  replacementText : Option Text
  eviction : Option Json

inductive CommitOutcome where
  | committed (entryId : Text)
  | mismatch (entryId diagnostic : Text)
  | unavailable (entryId diagnostic : Text)

/-- `{ ...members, [name]: value }`. -/
def setMember (members : List (Text × Json)) (name : Text) (value : Json) : List (Text × Json) :=
  if members.any fun member => member.1 = name then
    members.map fun member => if member.1 = name then (name, value) else member
  else members ++ [(name, value)]

def objectMembers : Option Json → List (Text × Json)
  | some (.obj members) => members
  | _ => []

def evictionDetails (details : Option Json) (eviction : Json) : Json :=
  let members := objectMembers details
  let metaMembers := objectMembers ((Json.obj members).get? "meta".toList)
  .obj (setMember members "meta".toList (.obj (setMember metaMembers "eviction".toList eviction)))

def replacedMessage (message : ToolResultMessage) (text : Text) (eviction : Option Json)
    (now : Nat) :
    ToolResultMessage :=
  { message with
    content := .parts [.text text]
    prunedAt := some now
    details := match eviction with
      | some eviction => some (evictionDetails message.details eviction)
      | none => message.details }

section

variable (sha256 : Text → Text)

def digestMatches (digest : ToolOutputPruneDigest) (message : ToolResultMessage) : Bool :=
  let captured := extractToolOutputText message
  byteLength captured.text = digest.bytes && sha256 captured.text = digest.sha256

def indexById (entries : List Entry) : OrderedMap Text Nat :=
  ofWrites ((entries.zipIdx.filter fun indexed => indexed.1.isMessage).map
    fun indexed => (indexed.1.id, indexed.2))

def proposalsById (plan : ToolOutputPrunePlan) : OrderedMap Text ToolOutputPruneReplacement :=
  ofWrites (plan.replacements.map fun replacement => (replacement.entryId, replacement))

/-- One digest of a plan.  There is no result if the entry is not a tool result, which the source
takes for granted. -/
def commitDigest (byId : OrderedMap Text Nat)
    (proposals : OrderedMap Text ToolOutputPruneReplacement)
    (overrides : OrderedMap Text CommitReplacement) (now : Nat) (digest : ToolOutputPruneDigest)
    (entries : List Entry) : Option (List Entry × CommitOutcome) :=
  match byId.get? digest.entryId with
  | none => some (entries, .unavailable digest.entryId "entry not found".toList)
  | some index =>
    (entries[index]?.bind Entry.toolResult?).map fun message =>
      if !digestMatches sha256 digest message then
        (entries, .mismatch digest.entryId "tool output changed before commit".toList)
      else
        match proposals.get? digest.entryId with
        | none => (entries, .unavailable digest.entryId "replacement proposal missing".toList)
        | some proposal =>
          let override := overrides.get? digest.entryId
          let text :=
            (override.bind CommitReplacement.replacementText).getD proposal.replacementText
          let message := replacedMessage message text (override.bind CommitReplacement.eviction) now
          (entries.set index (.message digest.entryId (.toolResult message)),
            .committed digest.entryId)

/-- The loop over the digests; `now k` is the time at which digest `k` is committed. -/
def commitDigests (byId : OrderedMap Text Nat)
    (proposals : OrderedMap Text ToolOutputPruneReplacement)
    (overrides : OrderedMap Text CommitReplacement) (now : Nat → Nat) :
    Nat → List ToolOutputPruneDigest → List Entry → Option (List Entry × List CommitOutcome)
  | _, [], entries => some (entries, [])
  | k, digest :: digests, entries => do
    let (entries, outcome) ← commitDigest sha256 byId proposals overrides (now k) digest entries
    let (entries, outcomes) ← commitDigests byId proposals overrides now (k + 1) digests entries
    return (entries, outcome :: outcomes)

def commitToolOutputPrune (entries : List Entry) (plan : ToolOutputPrunePlan)
    (overrides : OrderedMap Text CommitReplacement) (now : Nat → Nat) :
    Option (List Entry × List CommitOutcome) :=
  commitDigests sha256 (indexById entries) (proposalsById plan) overrides now 0 plan.digests entries

end

variable {i : Nat} {entries : List Entry} {planned : List Candidate} {candidate : Candidate}

theorem index_eq_of_id (hids : (entries.map Entry.id).Nodup) {j : Nat}
    {a b : Entry} (hi : entries[i]? = some a) (hj : entries[j]? = some b) (hid : a.id = b.id) :
    i = j := by
  have hi' : (entries.map Entry.id)[i]? = some a.id := by simp [hi]
  have hj' : (entries.map Entry.id)[j]? = some a.id := by simp [hj, hid]
  obtain ⟨hlt, -⟩ := List.getElem?_eq_some_iff.mp hi'
  exact (getElem?_inj hlt hids).mp (hi'.trans hj'.symm)

theorem indexById_get? (hids : (entries.map Entry.id).Nodup)
    {id : Text} {message : Message} (hi : entries[i]? = some (.message id message)) :
    (indexById entries).get? id = some i := by
  have hmem : (id, i) ∈ (entries.zipIdx.filter fun indexed => indexed.1.isMessage).map
      fun indexed => (indexed.1.id, indexed.2) := by
    refine mem_map.mpr ⟨(.message id message, i), mem_filter.mpr ⟨?_, rfl⟩, rfl⟩
    rw [mem_zipIdx_iff_getElem?]
    exact hi
  obtain ⟨last, hlast, -⟩ := get?_ofWrites_of_mem (R := fun _ _ => True)
    (fun _ => trivial) (pairwise_of_forall fun _ _ => trivial) hmem
  obtain ⟨⟨entry, j⟩, hentry, heq⟩ := mem_map.mp (mem_of_get?_ofWrites hlast)
  cases heq
  have hj := mem_zipIdx_iff_getElem?.mp (mem_filter.mp hentry).1
  have hsame : i = j := index_eq_of_id hids hi hj rfl
  rw [hsame]
  exact hlast

structure Planned (entries : List Entry) (planned : List Candidate) : Prop where
  ids : (entries.map Entry.id).Nodup
  entry : ∀ candidate ∈ planned, ∃ message,
    entries[candidate.index]? = some (.message candidate.entryId (.toolResult message))
  sorted : planned.Pairwise fun a b => b.index < a.index

theorem Planned.eq_of_index (h : Planned entries planned) {a b : Candidate} (ha : a ∈ planned)
    (hb : b ∈ planned)
    (hindex : a.index = b.index) : a = b := by
  have hnodup : (planned.map index).Nodup :=
    pairwise_map.mpr (h.sorted.imp fun hlt heq => by omega)
  exact inj_on_of_nodup_map hnodup ha hb hindex

theorem Planned.proposal {sha256 : Text → Text} (h : Planned entries planned)
    (hmem : candidate ∈ planned) :
    (proposalsById (planOf sha256 planned)).get? candidate.entryId =
      some (replacementOf candidate) := by
  have hwrite : (candidate.entryId, replacementOf candidate) ∈
      (planned.map replacementOf).map fun replacement => (replacement.entryId, replacement) :=
    mem_map.mpr ⟨_, mem_map.mpr ⟨candidate, hmem, rfl⟩, rfl⟩
  obtain ⟨last, hlast, -⟩ := get?_ofWrites_of_mem (R := fun _ _ => True)
    (fun _ => trivial) (pairwise_of_forall fun _ _ => trivial) hwrite
  obtain ⟨replacement, hreplacement, heq⟩ := mem_map.mp (mem_of_get?_ofWrites hlast)
  obtain ⟨other, hother, rfl⟩ := mem_map.mp hreplacement
  have hid : other.entryId = candidate.entryId := congrArg Prod.fst heq
  obtain ⟨_, hentry⟩ := h.entry candidate hmem
  obtain ⟨_, hentry'⟩ := h.entry other hother
  have hindex := index_eq_of_id h.ids hentry' hentry hid
  have hreplacement : replacementOf candidate = last := by
    rw [← h.eq_of_index hother hmem hindex]
    exact congrArg Prod.snd heq
  rw [hreplacement]
  exact hlast

variable (sha256 : Text → Text)

def committedMessage (candidate : Candidate) (message : ToolResultMessage) (now : Nat) :
    ToolResultMessage :=
  if digestMatches sha256 (digestOf sha256 candidate) message then
    replacedMessage message candidate.notice none now
  else message

def commitWrites (message : Candidate → ToolResultMessage) (now : Nat → Nat)
    (k : Nat) (planned : List Candidate) : List (Nat × Entry) :=
  (planned.zipIdx k).map fun (candidate, j) => (candidate.index, .message candidate.entryId
    (.toolResult (committedMessage sha256 candidate (message candidate) (now j))))

section

variable {sha256 : Text → Text} {byId : OrderedMap Text Nat}
    {proposals : OrderedMap Text ToolOutputPruneReplacement}
  {entries : List Entry}

theorem commitDigest_eq {candidate : Candidate} {message : ToolResultMessage}
    (now : Nat) (hindex : byId.get? candidate.entryId = some candidate.index)
    (hproposal : proposals.get? candidate.entryId = some (replacementOf candidate))
    (hentry : entries[candidate.index]? = some (.message candidate.entryId (.toolResult message))) :
    ∃ outcome, commitDigest sha256 byId proposals .empty now (digestOf sha256 candidate) entries =
      some (entries.set candidate.index (.message candidate.entryId
        (.toolResult (committedMessage sha256 candidate message now))), outcome) := by
  have hid : (digestOf sha256 candidate).entryId = candidate.entryId := rfl
  simp only [commitDigest, hid, hindex, hentry, Option.bind_some, Entry.toolResult?,
    Option.map_some, hproposal]
  cases hmatches : digestMatches sha256 (digestOf sha256 candidate) message with
  | true =>
    refine ⟨.committed candidate.entryId, ?_⟩
    simp [committedMessage, hmatches, replacementOf]
  | false =>
    refine ⟨.mismatch candidate.entryId "tool output changed before commit".toList, ?_⟩
    simp only [committedMessage, hmatches, Bool.not_false, if_true, Bool.false_eq_true, if_false]
    rw [set_eq_self_of_getElem? hentry]

theorem commitDigests_eq {planned : List Candidate} {message : Candidate → ToolResultMessage}
    (now : Nat → Nat) (k : Nat)
    (hindex : ∀ candidate ∈ planned, byId.get? candidate.entryId = some candidate.index)
    (hproposal : ∀ candidate ∈ planned, proposals.get? candidate.entryId =
      some (replacementOf candidate))
    (hsorted : planned.Pairwise fun a b => b.index < a.index)
    (hentry : ∀ candidate ∈ planned, entries[candidate.index]? =
      some (.message candidate.entryId (.toolResult (message candidate)))) :
    ∃ outcomes,
      commitDigests sha256 byId proposals .empty now k (planned.map (digestOf sha256)) entries =
        some (setEach (commitWrites sha256 message now k planned) entries, outcomes) := by
  induction planned generalizing k entries with
  | nil => exact ⟨[], rfl⟩
  | cons candidate planned ih =>
    obtain ⟨hhead, hrest⟩ := pairwise_cons.mp hsorted
    obtain ⟨outcome, hfirst⟩ := commitDigest_eq (now k) (hindex candidate mem_cons_self)
      (hproposal candidate mem_cons_self) (hentry candidate mem_cons_self)
    have hentry' : ∀ other ∈ planned, (entries.set candidate.index (.message candidate.entryId
        (.toolResult (committedMessage sha256 candidate (message candidate)
          (now k)))))[other.index]? =
        some (.message other.entryId (.toolResult (message other))) := by
      intro other hother
      have hlt := hhead other hother
      rw [getElem?_set_ne (by omega)]
      exact hentry other (mem_cons_of_mem _ hother)
    obtain ⟨outcomes, hlater⟩ := ih (k + 1)
      (fun other hother => hindex other (mem_cons_of_mem _ hother))
      (fun other hother => hproposal other (mem_cons_of_mem _ hother)) hrest hentry'
    refine ⟨outcome :: outcomes, ?_⟩
    rw [map_cons, commitDigests, hfirst]
    simp only [Option.bind_eq_bind, Option.bind_some, hlater]
    simp [commitWrites]

end

section

variable {sha256 : Text → Text} {message : Candidate → ToolResultMessage} {now : Nat → Nat}
    {planned : List Candidate}

variable {k : Nat} {candidate : Candidate}

theorem mem_commitWrites {write : Nat × Entry}
    (h : write ∈ commitWrites sha256 message now k planned) :
    ∃ candidate ∈ planned, ∃ j, write = (candidate.index, .message candidate.entryId
      (.toolResult (committedMessage sha256 candidate (message candidate) (now j)))) := by
  obtain ⟨⟨candidate, j⟩, hmem, rfl⟩ := mem_map.mp h
  exact ⟨candidate, fst_mem_of_mem_zipIdx hmem, j, rfl⟩

theorem exists_mem_commitWrites (h : candidate ∈ planned) :
    ∃ j, (candidate.index, .message candidate.entryId (.toolResult
      (committedMessage sha256 candidate (message candidate) (now j)))) ∈
        commitWrites sha256 message now k planned := by
  have hfst : candidate ∈ (planned.zipIdx k).map Prod.fst := by rwa [zipIdx_map_fst]
  obtain ⟨⟨candidate', j⟩, hmem, rfl⟩ := mem_map.mp hfst
  exact ⟨j, mem_map.mpr ⟨_, hmem, rfl⟩⟩

theorem commitWrites_distinct (hsorted : planned.Pairwise fun a b => b.index < a.index) :
    (commitWrites sha256 message now k planned).Pairwise fun a b => a.1 ≠ b.1 := by
  have hfst : ((planned.zipIdx k).map Prod.fst).Pairwise fun a b => b.index < a.index := by
    rwa [zipIdx_map_fst]
  refine pairwise_map.mpr ((pairwise_map.mp hfst).imp fun {a b} hlt => ?_)
  show a.1.index ≠ b.1.index
  omega

variable {entries : List Entry}

variable (h : Planned entries planned)
include h

theorem Planned.commit
    (hentry : ∀ candidate ∈ planned, entries[candidate.index]? =
      some (.message candidate.entryId (.toolResult (message candidate)))) (now : Nat → Nat) :
    ∃ outcomes, commitToolOutputPrune sha256 entries (planOf sha256 planned) .empty now =
      some (setEach (commitWrites sha256 message now 0 planned) entries, outcomes) :=
  commitDigests_eq now 0 (fun candidate hmem => indexById_get? h.ids (hentry candidate hmem))
    (fun _ hmem => h.proposal hmem) h.sorted hentry

theorem Planned.getElem?_commit (hmem : candidate ∈ planned) :
    ∃ j, (setEach (commitWrites sha256 message now 0 planned) entries)[candidate.index]? =
      some (.message candidate.entryId (.toolResult
        (committedMessage sha256 candidate (message candidate) (now j)))) := by
  obtain ⟨j, hwrite⟩ := exists_mem_commitWrites hmem
  obtain ⟨_, hentry⟩ := h.entry candidate hmem
  obtain ⟨hlt, -⟩ := List.getElem?_eq_some_iff.mp hentry
  exact ⟨j, getElem?_setEach_of_mem (commitWrites_distinct h.sorted) hwrite hlt⟩

theorem Planned.after :
    Planned (setEach (commitWrites sha256 message now 0 planned) entries) planned := by
  refine ⟨?_, fun candidate hmem => ?_, h.sorted⟩
  · rw [map_setEach_of_eq]
    · exact h.ids
    · intro write hwrite
      obtain ⟨candidate, hmem, j, rfl⟩ := mem_commitWrites hwrite
      obtain ⟨_, hentry⟩ := h.entry candidate hmem
      rw [getElem?_map, hentry]
      rfl
  · obtain ⟨j, hentry⟩ := h.getElem?_commit hmem
    exact ⟨_, hentry⟩

end

theorem estimateEntryTokens_replacedMessage (id : Text) (message : ToolResultMessage) (text : Text)
    (eviction : Option Json) (now : Nat) :
    estimateEntryTokens (.message id (.toolResult (replacedMessage message text eviction now))) =
      estimateTextTokensHeuristic [text] := by
  simp [estimateEntryTokens, collectMessageFragments, replacedMessage, partTexts, imageCount]

theorem sum_neg_savings (planned : List Candidate) :
    (planned.map fun candidate => -candidate.savings).sum = -totalSavings planned := by
  induction planned with
  | nil => rfl
  | cons candidate planned ih =>
    rw [map_cons, sum_cons, ih, totalSavings, totalSavings, map_cons, sum_cons]
    omega

theorem Selectable.digestMatches {config : PruneConfig}
    (h : Selectable entries config candidate) (sha256 : Text → Text) :
    digestMatches sha256 (digestOf sha256 candidate) candidate.message = true := by
  simp [Pruning.digestMatches, digestOf, h.originalText]

section

variable {sha256 : Text → Text} {entries : List Entry} {config : PruneConfig}
    {planned : List Candidate}

theorem cast_estimateEntriesTokens (entries : List Entry) :
    (estimateEntriesTokens entries : Int) =
      (entries.map fun entry => (estimateEntryTokens entry : Int)).sum := by
  unfold estimateEntriesTokens
  induction entries with
  | nil => rfl
  | cons entry entries ih => simp only [map_cons, sum_cons, Nat.cast_add, ih]

variable {candidate : Candidate}

theorem Selectable.estimate_write (h : Selectable entries config candidate) (now : Nat) :
    (estimateEntryTokens (.message candidate.entryId (.toolResult
      (committedMessage sha256 candidate candidate.message now))) : Int) -
      estimateEntryTokens (.message candidate.entryId (.toolResult candidate.message)) =
        -candidate.savings := by
  rw [committedMessage, if_pos (h.digestMatches sha256), estimateEntryTokens_replacedMessage,
    ← h.tokens, h.savings, estimatePrunedSavings]
  omega

theorem estimateEntriesTokens_commit (h : Planned entries planned)
    (hselectable : ∀ candidate ∈ planned, Selectable entries config candidate) (now : Nat → Nat) :
    (estimateEntriesTokens (setEach (commitWrites sha256 message now 0 planned) entries) :
      Int) = estimateEntriesTokens entries - totalSavings planned := by
  have hold : ∀ write ∈ commitWrites sha256 message now 0 planned,
      entries[write.1]? = some (entries[write.1]?.getD write.2) := by
    intro write hwrite
    obtain ⟨candidate, hmem, j, rfl⟩ := mem_commitWrites hwrite
    rw [(hselectable candidate hmem).entry]
    rfl
  have hsavings : (commitWrites sha256 message now 0 planned).map (fun write =>
      (estimateEntryTokens write.2 : Int) - estimateEntryTokens (entries[write.1]?.getD write.2)) =
      planned.map fun candidate => -candidate.savings := by
    have hplanned : planned.map (fun candidate => -candidate.savings) =
        (planned.zipIdx 0).map fun indexed => -indexed.1.savings := by
      conv_lhs => rw [← zipIdx_map_fst 0 planned, map_map]
      rfl
    rw [hplanned, commitWrites, map_map]
    refine map_congr_left fun indexed hindexed => ?_
    have hcandidate := hselectable indexed.1 (fst_mem_of_mem_zipIdx hindexed)
    simp only [Function.comp, hcandidate.entry, Option.getD_some]
    exact hcandidate.estimate_write (now indexed.2)
  rw [cast_estimateEntriesTokens, cast_estimateEntriesTokens,
    sum_map_setEach _ (commitWrites_distinct h.sorted) hold, hsavings, sum_neg_savings]
  omega

theorem sha256_notice_of_changed (h : Planned entries planned)
    (hselectable : ∀ candidate ∈ planned, Selectable entries config candidate)
    (now now' : Nat → Nat)
    {again : Candidate → ToolResultMessage} (hmem : candidate ∈ planned)
    (hagain : (setEach (commitWrites sha256 message now 0 planned)
      entries)[candidate.index]? =
        some (.message candidate.entryId (.toolResult (again candidate))))
    (hchanged : (setEach (commitWrites sha256 again now' 0 planned) (setEach
      (commitWrites sha256 message now 0 planned) entries))[candidate.index]? ≠
        (setEach (commitWrites sha256 message now 0 planned) entries)[candidate.index]?) :
    sha256 candidate.notice = sha256 candidate.originalText := by
  obtain ⟨j, hfirst⟩ := h.getElem?_commit hmem
  have hnotice :
      again candidate = replacedMessage candidate.message candidate.notice none (now j) := by
    rw [committedMessage, if_pos ((hselectable candidate hmem).digestMatches sha256),
      hagain] at hfirst
    simpa using hfirst
  obtain ⟨j', hsecond⟩ := h.after.getElem?_commit hmem
  rw [hsecond, hagain] at hchanged
  cases hmatches : digestMatches sha256 (digestOf sha256 candidate) (again candidate) with
  | false => simp [committedMessage, hmatches] at hchanged
  | true =>
    rw [hnotice] at hmatches
    simp only [digestMatches, extractToolOutputText, replacedMessage, Bool.and_eq_true] at hmatches
    simpa [partTexts, Text.joinLines, digestOf] using hmatches.2

end

def NoticeDigestsDiffer (sha256 : Text → Text) (entries : List Entry) (plan : ToolOutputPrunePlan) :
    Prop :=
  ∀ (i : Nat) (message : ToolResultMessage), ∀ replacement ∈ plan.replacements,
    entries[i]? = some (.message replacement.entryId (.toolResult message)) →
    sha256 replacement.replacementText = sha256 (extractToolOutputText message).text →
    replacement.replacementText = (extractToolOutputText message).text

/-- A plan that is committed on the entries it was made for, without overrides: the estimate drops
by `tokensSaved`, the entries outside the plan stay as they are, and another commit of the plan
changes only entries whose notice equals the output that it replaced. -/
theorem commitToolOutputPrune_planned {sha256 stripANSI : Text → Text} {entries : List Entry}
    {config : PruneConfig} {options : PruneToolOutputsOptions} {plan : ToolOutputPrunePlan}
    (hids : (entries.map Entry.id).Nodup)
    (hplan : planToolOutputPrune sha256 stripANSI entries config options = .ok plan)
    (hsha : NoticeDigestsDiffer sha256 entries plan) (now : Nat → Nat) :
    ∃ entries' outcomes, commitToolOutputPrune sha256 entries plan .empty now =
      some (entries', outcomes) ∧
      (estimateEntriesTokens entries' : Int) = estimateEntriesTokens entries - plan.tokensSaved ∧
      entries'.length = entries.length ∧
      (∀ (i : Nat) (entry : Entry), entries[i]? = some entry →
        entry.id ∉ plan.digests.map (·.entryId) →
        entries'[i]? = some entry) ∧
      ∀ now', ∃ entries'' outcomes',
        commitToolOutputPrune sha256 entries' plan .empty now' = some (entries'', outcomes') ∧
        entries''.length = entries'.length ∧
        ∀ i : Nat, entries''[i]? ≠ entries'[i]? → ∃ message, ∃ replacement ∈ plan.replacements,
          entries[i]? = some (.message replacement.entryId (.toolResult message)) ∧
          replacement.replacementText = (extractToolOutputText message).text := by
  obtain ⟨planned, rfl, hselectable, hsorted⟩ := planToolOutputPrune_spec hplan
  have hplanned : Planned entries planned :=
    ⟨hids, fun candidate hmem => ⟨_, (hselectable candidate hmem).entry⟩, hsorted⟩
  obtain ⟨outcomes, hcommit⟩ :=
    hplanned.commit (fun candidate hmem => (hselectable candidate hmem).entry) now
  refine ⟨_, outcomes, hcommit, estimateEntriesTokens_commit hplanned hselectable now,
    length_setEach _ _, ?_, ?_⟩
  · intro i entry hentry hid
    rw [getElem?_setEach_of_ne, hentry]
    intro write hwrite hi
    obtain ⟨candidate, hmem, j, rfl⟩ := mem_commitWrites hwrite
    subst hi
    rw [(hselectable candidate hmem).entry] at hentry
    cases hentry
    exact hid (mem_map.mpr ⟨_, mem_map.mpr ⟨candidate, hmem, rfl⟩, rfl⟩)
  · intro now'
    set entries' := setEach (commitWrites sha256 message now 0 planned) entries
    have hafter : Planned entries' planned := hplanned.after
    let again := fun candidate : Candidate =>
      (entries'[candidate.index]?.bind Entry.toolResult?).getD candidate.message
    have hagain : ∀ candidate ∈ planned, entries'[candidate.index]? =
        some (.message candidate.entryId (.toolResult (again candidate))) := by
      intro candidate hmem
      obtain ⟨_, hentry⟩ := hafter.entry candidate hmem
      simp only [again, hentry]
      rfl
    obtain ⟨outcomes', hcommit'⟩ := hafter.commit hagain now'
    refine ⟨_, outcomes', hcommit', length_setEach _ _, fun i hchanged => ?_⟩
    obtain ⟨candidate, hmem, rfl⟩ : ∃ candidate ∈ planned, candidate.index = i := by
      by_contra hnone
      refine hchanged (getElem?_setEach_of_ne (fun write hwrite hi => hnone ?_) _)
      obtain ⟨candidate, hmem, j, rfl⟩ := mem_commitWrites hwrite
      exact ⟨candidate, hmem, hi⟩
    have hcandidate := hselectable candidate hmem
    have hreplacement : replacementOf candidate ∈ (planOf sha256 planned).replacements :=
      mem_map.mpr ⟨candidate, hmem, rfl⟩
    refine ⟨candidate.message, replacementOf candidate, hreplacement, hcandidate.entry, ?_⟩
    refine hsha candidate.index candidate.message _ hreplacement hcandidate.entry ?_
    rw [← hcandidate.originalText]
    exact sha256_notice_of_changed hplanned hselectable now now' hmem
      (hagain candidate hmem) hchanged

/-- A call of `find` with two hundred characters of output. -/
def findSession : List Entry :=
  exchange ⟨"1".toList, "find".toList, none, some (.obj [])⟩ (List.replicate 200 'a') none

def findSha256 (text : Text) : Text :=
  if text = List.replicate 200 'a' then
    "c2a908d98f5df987ade41b5fce213067efbcc21ef2240212a41e54b5e7c28ae5".toList
  else if text = "[Output truncated - 50 tokens]".toList then
    "a5255aaa172cea553dabd02d4edef6eeec243fa51e54d5e0f0e0b1d70bd6bb36".toList
  else []

def findPlan : ToolOutputPrunePlan :=
  ⟨1, 42, [⟨"r1".toList, 200, findSha256 (List.replicate 200 'a')⟩],
    [⟨"r1".toList, "[Output truncated - 50 tokens]".toList, true, 50⟩]⟩

theorem commitToolOutputPrune_find : ∃ entries' outcomes,
    commitToolOutputPrune findSha256 findSession findPlan .empty (fun _ => 7) =
      some (entries', outcomes) ∧
    (estimateEntriesTokens entries' : Int) = estimateEntriesTokens findSession - 42 := by
  have hplan : planToolOutputPrune findSha256 id findSession ⟨0, 0, [], some 0, none⟩ ⟨none, none⟩ =
      .ok findPlan := by decide +kernel
  have hsha : NoticeDigestsDiffer findSha256 findSession findPlan := by
    intro i message replacement hmem hentry hsame
    obtain rfl := mem_singleton.mp hmem
    have hmessage :
        message = ⟨"1".toList, "find".toList, .text (List.replicate 200 'a'), false, none,
        none⟩ := by
      match i with
      | 0 => simp [findSession, exchange] at hentry
      | 1 =>
        have hresult := congrArg (fun entry : Option Entry => entry.bind Entry.toolResult?) hentry
        exact (Option.some.inj hresult).symm
      | i + 2 => simp [findSession, exchange] at hentry
    subst hmessage
    exact absurd hsame (by decide +kernel)
  obtain ⟨entries', outcomes, hcommit, htokens, -⟩ :=
    commitToolOutputPrune_planned (by decide +kernel) hplan hsha (fun _ => 7)
  exact ⟨entries', outcomes, hcommit, htokens⟩

end Vibrato.Pruning
