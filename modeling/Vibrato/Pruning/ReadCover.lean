import Vibrato.Pruning.OutputPlan

namespace Vibrato.Pruning

/-- A single range of lines of the same base path, strictly larger than that of the earlier read. -/
def containsLines (later earlier : ToolCall) : Bool :=
  match toolCallPath later, toolCallPath earlier with
  | some path, some path' =>
    match singleLineRange? path, singleLineRange? path' with
    | some container, some contained =>
      readBasePath path = readBasePath path' && strictlyContainsReadRange container contained
    | _, _ => false
  | _, _ => false

def covers (later earlier : ToolCall) : Bool :=
  later.name = READ && (decide (toolCallPath later = toolCallPath earlier) ||
    containsLines later earlier)

variable (entries : List Entry) {later earlier : ToolCall}

def NotCovered (i : Nat) (call : ToolCall) : Prop :=
  ∀ j call' message', i < j → SucceededAt entries j call' message' → covers call' call = false

/-- Every read that is stale although its file is not edited later has a later read that covers it
and is not covered itself. -/
def StaleReadsCovered : Prop :=
  ∀ i call message, SucceededAt entries i call message → call.name = READ →
    i ∈ staleResultIndices entries → ¬EditedLater entries i call message →
    ∃ j call' message', i < j ∧ SucceededAt entries j call' message' ∧ covers call' call = true ∧
      NotCovered entries j call'

/-- What a plan selects is before the fence, not pruned yet, and of a protected tool only if it is
stale and the tool may be overridden. -/
def SelectsPrunable (sha256 stripANSI : Text → Text) (entries : List Entry) (config : PruneConfig)
    (options : PruneToolOutputsOptions) : Prop :=
  ∀ plan, planToolOutputPrune sha256 stripANSI entries config options = .ok plan →
    ∀ digest ∈ plan.digests, ∃ i message, entries[i]? =
      some (.message digest.entryId (.toolResult message)) ∧
      message.prunedAt = none ∧
      (∀ start, fenceStart entries config = some start → i < start) ∧
      (message.toolName ∈ config.protectedTools → i ∈ staleResultIndices entries ∧
        message.toolName ∈ config.staleOverridableTools.getD [])

theorem selectsPrunable (sha256 stripANSI : Text → Text) (entries : List Entry)
    (config : PruneConfig)
    (options : PruneToolOutputsOptions) :
    SelectsPrunable sha256 stripANSI entries config options := by
  intro plan hplan digest hdigest
  obtain ⟨planned, rfl, hselectable, -⟩ := planToolOutputPrune_spec hplan
  obtain ⟨candidate, hmem, rfl⟩ := List.mem_map.mp hdigest
  have hcandidate := hselectable candidate hmem
  exact ⟨candidate.index, candidate.message, hcandidate.entry, hcandidate.notPruned,
    hcandidate.beforeFence, hcandidate.unprotected⟩

theorem covers_iff :
    covers later earlier = true ↔ later.name = READ ∧
      (toolCallPath later = toolCallPath earlier ∨ containsLines later earlier = true) := by
  simp [covers]

theorem containsLines_iff :
    containsLines later earlier = true ↔ ∃ path path' container contained,
      toolCallPath later = some path ∧ toolCallPath earlier = some path' ∧
      singleLineRange? path = some container ∧ singleLineRange? path' = some contained ∧
      readBasePath path = readBasePath path' ∧
      strictlyContainsReadRange container contained = true := by
  unfold containsLines
  constructor
  · intro h
    split at h
    · next path path' hpath hpath' =>
      split at h
      · next container contained hcontainer hcontained =>
        rw [Bool.and_eq_true, decide_eq_true_iff] at h
        exact ⟨path, path', container, contained, hpath, hpath', hcontainer, hcontained, h.1, h.2⟩
      · cases h
    · cases h
  · rintro ⟨path, path', container, contained, hpath, hpath', hcontainer, hcontained, hbase, hrange⟩
    simp [hpath, hpath', hcontainer, hcontained, hbase, hrange]

theorem covers_trans {a b c : ToolCall} (hab : covers a b = true) (hbc : covers b c = true) :
    covers a c = true := by
  rw [covers_iff] at hab hbc ⊢
  obtain ⟨hname, hab⟩ := hab
  refine ⟨hname, ?_⟩
  rcases hab with hpath | hlines
  · rcases hbc.2 with hpath' | hlines'
    · exact .inl (hpath.trans hpath')
    · right
      unfold containsLines at hlines' ⊢
      rw [hpath]
      exact hlines'
  · rcases hbc.2 with hpath' | hlines'
    · right
      unfold containsLines at hlines ⊢
      rw [← hpath']
      exact hlines
    · right
      rw [containsLines_iff] at hlines hlines' ⊢
      obtain ⟨pa, pb, ra, rb, hpa, hpb, hra, hrb, hbase, hrange⟩ := hlines
      obtain ⟨pb', pc, rb', rc, hpb', hpc, hrb', hrc, hbase', hrange'⟩ := hlines'
      rw [hpb] at hpb'
      cases hpb'
      rw [hrb] at hrb'
      cases hrb'
      exact ⟨pa, pc, ra, rc, hpa, hpc, hra, hrc, hbase.trans hbase',
        strictlyContainsReadRange_trans hrange hrange'⟩

theorem SucceededAt.lt_length {entries : List Entry} {i : Nat} {call : ToolCall}
    {message : ToolResultMessage} (h : SucceededAt entries i call message) :
    i < entries.length := by
  by_contra hlength
  have hnone : entries[i]? = none := List.getElem?_eq_none (by omega)
  simp [SucceededAt, answeredAt, hnone] at h

section

variable {entries : List Entry} {i : Nat} {call : ToolCall}

theorem exists_last_cover {j : Nat} {call' : ToolCall} {message' : ToolResultMessage} (hlt : i < j)
    (hj : SucceededAt entries j call' message') (hcovers : covers call' call = true) :
    ∃ k call'' message'', i < k ∧ SucceededAt entries k call'' message'' ∧
      covers call'' call = true ∧ NotCovered entries k call'' := by
  induction hn : entries.length - j using Nat.strong_induction_on generalizing j call' message' with
  | h n ih =>
    by_cases hlast : NotCovered entries j call'
    · exact ⟨j, call', message', hlt, hj, hcovers, hlast⟩
    · simp only [NotCovered, not_forall, Bool.not_eq_false] at hlast
      obtain ⟨k, call'', message'', hjk, hk, hcovers'⟩ := hlast
      have hlength := hk.lt_length
      exact ih (entries.length - k) (by omega) (by omega) hk (covers_trans hcovers' hcovers) rfl

theorem covers_of_supersededByKey (hname : call.name = READ) (h : SupersededByKey entries i call) :
    ∃ j call' message', i < j ∧ SucceededAt entries j call' message' ∧
      covers call' call = true := by
  obtain ⟨j, call', message', hlt, hj, key, hkey, hkey'⟩ := h
  obtain ⟨hname', htargets⟩ := (toolTargetKey_eq_iff hkey).mp hkey'
  obtain ⟨target, htarget, -⟩ := Option.map_eq_some_iff.mp hkey
  refine ⟨j, call', message', hlt, hj, covers_iff.mpr ⟨hname'.trans hname, .inl ?_⟩⟩
  rw [toolCallPath_of_toolTarget htarget, toolCallPath_of_toolTarget (htargets.trans htarget)]

end

/-- A later read whose one range with both ends strictly contains that of the earlier read. -/
structure BoundedPartContained (later earlier : ToolCall) (path path' : Text) : Prop where
  isRead : earlier.name = READ
  isRead' : later.name = READ
  hasPath : toolCallPath earlier = some path
  hasPath' : toolCallPath later = some path'
  sameBase : readBasePath path = readBasePath path'
  contained : ∃ range range', readLineRanges path = [range] ∧ readLineRanges path' = [range'] ∧
    strictlyContainsReadRange range' range = true

/-- Where one of the two selectors is a list, the earlier read has a later cover of another kind,
unless its file is edited later. -/
def ListReadsCovered (entries : List Entry) : Prop :=
  ∀ i call message j call' message' path path', SucceededAt entries i call message →
    SucceededAt entries j call' message' → i < j → ¬EditedLater entries i call message →
    BoundedPartContained call' call path path' →
    (isListSelector path = true ∨ isListSelector path' = true) →
    ∃ k call'' message'', i < k ∧ SucceededAt entries k call'' message'' ∧ covers call'' call = true

theorem supersededByRange_iff {entries : List Entry} {i : Nat} {call : ToolCall} :
    SupersededByRange entries i call ↔ ∃ j call' message' path path', i < j ∧
      SucceededAt entries j call' message' ∧ BoundedPartContained call' call path path' := by
  constructor
  · rintro ⟨j, call', message', hlt, hj, ⟨basePath, hbase, hbase'⟩, hsupersedes⟩
    simp only [callBasePath?, Option.ite_none_right_eq_some, Option.map_eq_some_iff] at hbase hbase'
    obtain ⟨hname, path, hpath, rfl⟩ := hbase
    obtain ⟨hname', path', hpath', hsame⟩ := hbase'
    simp only [readSupersedesRead, lineRanges, hpath, hpath', Option.map_some, Option.getD_some]
      at hsupersedes
    split at hsupersedes
    · next range' range hrange' hrange =>
      exact ⟨j, call', message', path, path', hlt, hj, hname, hname', hpath, hpath', hsame.symm,
        range, range', hrange, hrange', hsupersedes⟩
    · cases hsupersedes
  · rintro ⟨j, call', message', path, path', hlt, hj, h⟩
    obtain ⟨range, range', hrange, hrange', hcontains⟩ := h.contained
    refine ⟨j, call', message', hlt, hj, ⟨readBasePath path, ?_, ?_⟩, ?_⟩
    · simp [callBasePath?, h.isRead, h.hasPath]
    · simp [callBasePath?, h.isRead', h.hasPath', h.sameBase]
    · simp [readSupersedesRead, lineRanges, h.hasPath, h.hasPath', hrange, hrange', hcontains]

theorem BoundedPartContained.covers {path path' : Text}
    (h : BoundedPartContained later earlier path path') (hlist : isListSelector path = false)
    (hlist' : isListSelector path' = false) : covers later earlier = true := by
  obtain ⟨range, range', hrange, hrange', hcontains⟩ := h.contained
  refine covers_iff.mpr ⟨h.isRead', .inr (containsLines_iff.mpr ?_)⟩
  exact ⟨path', path, range', range, h.hasPath', h.hasPath,
    (readLineRanges_eq_singleton hlist').mp hrange', (readLineRanges_eq_singleton hlist).mp hrange,
    h.sameBase.symm, hcontains⟩

/-- Pruning selects only what it may, and stale reads have covers, exactly if the reads that are
stale for the bounded part of a list have a cover besides. -/
theorem selectsPrunable_and_staleReadsCovered_iff (sha256 stripANSI : Text → Text)
    (entries : List Entry) (config : PruneConfig) (options : PruneToolOutputsOptions) :
    SelectsPrunable sha256 stripANSI entries config options ∧ StaleReadsCovered entries ↔
      ListReadsCovered entries := by
  constructor
  · rintro ⟨-, hcovered⟩ i call message j call' message' path path' hi hj hlt hedit hbounded -
    have hstale : i ∈ staleResultIndices entries := by
      refine mem_staleResultIndices.mpr ⟨call, message, hi, .inr (.inr ?_)⟩
      exact supersededByRange_iff.mpr ⟨j, call', message', path, path', hlt, hj, hbounded⟩
    obtain ⟨k, call'', message'', hik, hk, hcovers, -⟩ :=
      hcovered i call message hi hbounded.isRead hstale hedit
    exact ⟨k, call'', message'', hik, hk, hcovers⟩
  · intro hlists
    refine ⟨selectsPrunable sha256 stripANSI entries config options, ?_⟩
    intro i call message hi hname hstale hedit
    suffices hcover : ∃ j call' message', i < j ∧ SucceededAt entries j call' message' ∧
        covers call' call = true by
      obtain ⟨j, call', message', hlt, hj, hcovers⟩ := hcover
      exact exists_last_cover hlt hj hcovers
    obtain ⟨call₁, message₁, hi₁, hstale⟩ := mem_staleResultIndices.mp hstale
    obtain ⟨rfl, rfl⟩ : call₁ = call ∧ message₁ = message := by
      simpa using hi₁.1.symm.trans hi.1
    rcases hstale with hkey | hedited | hrange
    · exact covers_of_supersededByKey hname hkey
    · exact absurd hedited.2 hedit
    · obtain ⟨j, call', message', path, path', hlt, hj, hbounded⟩ := supersededByRange_iff.mp hrange
      cases hlist : isListSelector path with
      | true =>
        exact hlists i _ _ j call' message' path path' hi hj hlt hedit hbounded (.inl hlist)
      | false =>
        cases hlist' : isListSelector path' with
        | true =>
          exact hlists i _ _ j call' message' path path' hi hj hlt hedit hbounded (.inr hlist')
        | false => exact ⟨j, call', message', hlt, hj, hbounded.covers hlist hlist'⟩

def readOf (id path : Text) : ToolCall :=
  ⟨id, READ, none, some (.obj [("path".toList, .str path)])⟩

def listThenRangeReads : List Entry :=
  exchange (readOf "1".toList "a.ts:5-10,20".toList) "lines".toList none ++
    exchange (readOf "2".toList "a.ts:1-15".toList) "lines".toList none

/-- The first read is stale, and nothing covers its lines from 20 on. -/
theorem listThenRangeReads_not_covered :
    staleResultIndices listThenRangeReads = [1] ∧ ¬StaleReadsCovered listThenRangeReads := by
  refine ⟨by decide +kernel, fun hcovered => ?_⟩
  have hfirst : SucceededAt listThenRangeReads 1 (readOf "1".toList "a.ts:5-10,20".toList)
      ⟨"1".toList, READ, .text "lines".toList, false, none, none⟩ := ⟨by decide +kernel, rfl⟩
  have hsecond : answeredAt listThenRangeReads 3 = some (readOf "2".toList "a.ts:1-15".toList,
      ⟨"2".toList, READ, .text "lines".toList, false, none, none⟩) := by decide +kernel
  have hedit : ¬EditedLater listThenRangeReads 1 (readOf "1".toList "a.ts:5-10,20".toList)
      ⟨"1".toList, READ, .text "lines".toList, false, none, none⟩ := by
    intro hedit
    exact absurd (staleByEdit_iff.mpr ⟨rfl, hedit⟩) (by decide +kernel)
  obtain ⟨j, call, message, hlt, hj, hcovers, -⟩ :=
    hcovered 1 _ _ hfirst rfl (by decide +kernel) hedit
  have hlength : j < 4 := hj.lt_length
  obtain rfl | rfl : j = 2 ∨ j = 3 := by omega
  · have hnone : answeredAt listThenRangeReads 2 = none := by decide +kernel
    cases hnone.symm.trans hj.1
  · cases hsecond.symm.trans hj.1
    exact absurd hcovers (by decide +kernel)

end Vibrato.Pruning
