import Vibrato.Pruning.EditPaths
import Vibrato.Pruning.ReadTarget

/-! `buildStalenessIndex`: which tool results a later result replaces. -/

namespace Vibrato.Pruning

open Lib List OrderedMap

def answeredResults (entries : List Entry) : List (Nat × ToolCall × ToolResultMessage) :=
  (List.range entries.length).filterMap fun i => (answeredAt entries i).map fun pair => (i, pair)

structure ResultMeta where
  call : ToolCall
  message : ToolResultMessage

structure StalenessMaps where
  lastResultIndexByKey : OrderedMap Text Nat
  resultMeta : List (Nat × ResultMeta)
  lastEditIndexByPath : OrderedMap Text Nat

/-- The files that the details of an AST edit report, also when the result is an error. -/
def detailEditPaths (call : ToolCall) (message : ToolResultMessage) : List Text :=
  if call.name = "resolve".toList ∨ call.name = "ast_edit".toList then resultDetailFiles message
  else []

def callEditPaths (call : ToolCall) (message : ToolResultMessage) : List Text :=
  if call.name ∈ EDIT_TOOL_NAMES then
    ((editToolPathGroups call).filter (groupSucceeded message)).flatten
  else []

variable (maps : StalenessMaps)

def recordResult : Nat × ToolCall × ToolResultMessage → StalenessMaps
  | (i, call, message) =>
    let edits := maps.lastEditIndexByPath.setAll ((detailEditPaths call message).map (·, i))
    if message.isError then { maps with lastEditIndexByPath := edits }
    else
      { lastResultIndexByKey := match toolTargetKey call with
          | some key => maps.lastResultIndexByKey.set key i
          | none => maps.lastResultIndexByKey
        resultMeta := maps.resultMeta ++ [(i, ⟨call, message⟩)]
        lastEditIndexByPath := edits.setAll ((callEditPaths call message).map (·, i)) }

variable (entries : List Entry)

def stalenessMaps : StalenessMaps :=
  (answeredResults entries).foldl recordResult ⟨.empty, [], .empty⟩

def READ : Text := "read".toList

/-- The path of a read as its call gives it, without the selector, and as its result resolved it. -/
def lookupPaths (call : ToolCall) (message : ToolResultMessage) : List Text :=
  ((toolCallPath call).map readBasePath).toList ++ (readResolvedPath message).toList

def staleByKey (index : Nat) (result : ResultMeta) : Bool :=
  ((toolTargetKey result.call).bind maps.lastResultIndexByKey.get?).any (index < ·)

def staleByEdit (index : Nat) (result : ResultMeta) : Bool :=
  result.call.name = READ && (lookupPaths result.call result.message).any fun path =>
      (maps.lastEditIndexByPath.get? path).any (index < ·)

/-- `lineRangesByCall`: the ranges of the call's own path. -/
def lineRanges (call : ToolCall) : List ReadLineRange :=
  ((toolCallPath call).map readLineRanges).getD []

def readSupersedesRead (later earlier : ToolCall) : Bool :=
  match lineRanges later, lineRanges earlier with
  | [container], [contained] => strictlyContainsReadRange container contained
  | _, _ => false

def callBasePath? (call : ToolCall) : Option Text :=
  if call.name = READ then (toolCallPath call).map readBasePath else none

def staleByRange (index : Nat) (result : ResultMeta) : Bool :=
  match callBasePath? result.call with
  | none => false
  | some basePath =>
    (maps.resultMeta.filter fun later => callBasePath? later.2.call =
      some basePath).any fun later =>
      index < later.1 && readSupersedesRead later.2.call result.call

/-- `buildStalenessIndex`. -/
def staleResultIndices : List Nat :=
  let maps := stalenessMaps entries
  (maps.resultMeta.filter fun result => staleByKey maps result.1 result.2 ||
    staleByEdit maps result.1 result.2).map Prod.fst ++
  (maps.resultMeta.filter fun result => staleByRange maps result.1 result.2).map Prod.fst

theorem mem_answeredResults {entries : List Entry} {i : Nat} {call : ToolCall}
    {message : ToolResultMessage} :
    (i, call, message) ∈ answeredResults entries ↔ answeredAt entries i = some (call, message) := by
  unfold answeredResults
  rw [mem_filterMap]
  constructor
  · rintro ⟨j, -, hj⟩
    obtain ⟨pair, hpair, heq⟩ := Option.map_eq_some_iff.mp hj
    cases heq
    exact hpair
  · intro h
    refine ⟨i, ?_, by rw [h]; rfl⟩
    rw [mem_range]
    by_contra hlen
    have hnone : entries[i]? = none := getElem?_eq_none (by omega)
    simp [answeredAt, hnone] at h

theorem answeredResults_sorted : (answeredResults entries).Pairwise fun a b => a.1 < b.1 := by
  refine List.Pairwise.filterMap _ ?_ pairwise_lt_range
  intro i j hlt a ha b hb
  obtain ⟨_, _, rfl⟩ := Option.map_eq_some_iff.mp ha
  obtain ⟨_, _, rfl⟩ := Option.map_eq_some_iff.mp hb
  exact hlt

theorem writes_sorted {α κ ν : Type} {results : List (Nat × α)}
    (hsorted : results.Pairwise fun a b => a.1 < b.1) (keys : Nat × α → List κ)
    (value : Nat × α → ν) {R : ν → ν → Prop} (hR : ∀ a b, a.1 ≤ b.1 → R (value a) (value b)) :
    (results.flatMap fun result => (keys result).map (·, value result)).Pairwise
      fun a b => R a.2 b.2 := by
  rw [pairwise_flatMap]
  refine ⟨fun result _ => ?_, hsorted.imp fun {a b} hlt => ?_⟩
  · rw [pairwise_map]
    exact pairwise_of_forall fun _ _ => hR result result (le_refl _)
  · intro x hx y hy
    obtain ⟨_, _, rfl⟩ := mem_map.mp hx
    obtain ⟨_, _, rfl⟩ := mem_map.mp hy
    exact hR a b hlt.le

def recordedKeys : Nat × ToolCall × ToolResultMessage → List Text
  | (_, call, message) => if message.isError then [] else (toolTargetKey call).toList

def recordedEdits : Nat × ToolCall × ToolResultMessage → List Text
  | (_, call, message) =>
    detailEditPaths call message ++ if message.isError then [] else callEditPaths call message

def recordedMeta : Nat × ToolCall × ToolResultMessage → Option (Nat × ResultMeta)
  | (i, call, message) => if message.isError then none else some (i, ⟨call, message⟩)

theorem foldl_recordResult (results : List (Nat × ToolCall × ToolResultMessage))
    (maps : StalenessMaps) :
    results.foldl recordResult maps =
      { lastResultIndexByKey := maps.lastResultIndexByKey.setAll
          (results.flatMap fun result => (recordedKeys result).map (·, result.1))
        resultMeta := maps.resultMeta ++ results.filterMap recordedMeta
        lastEditIndexByPath := maps.lastEditIndexByPath.setAll
          (results.flatMap fun result => (recordedEdits result).map (·, result.1)) } := by
  induction results generalizing maps with
  | nil => simp
  | cons result results ih =>
    rw [foldl_cons, ih]
    obtain ⟨i, call, message⟩ := result
    cases herror : message.isError <;> cases hkey : toolTargetKey call <;>
      simp [recordResult, recordedKeys, recordedEdits, recordedMeta, herror, hkey, setAll]

def SucceededAt (i : Nat) (call : ToolCall) (message : ToolResultMessage) : Prop :=
  answeredAt entries i = some (call, message) ∧ message.isError = false

def EditedAt (i : Nat) (path : Text) : Prop :=
  ∃ call message, answeredAt entries i = some (call, message) ∧
    (path ∈ detailEditPaths call message ∨ message.isError = false ∧
      path ∈ callEditPaths call message)

section

variable {entries : List Entry}

variable {i : Nat} {call : ToolCall} {message : ToolResultMessage} {key : Text}

theorem mem_resultMeta :
    (i, ResultMeta.mk call message) ∈ (stalenessMaps entries).resultMeta ↔
      SucceededAt entries i call message := by
  rw [stalenessMaps, foldl_recordResult, nil_append, mem_filterMap, SucceededAt,
    ← mem_answeredResults]
  constructor
  · rintro ⟨⟨j, call', message'⟩, hmem, hmeta⟩
    cases herror : message'.isError with
    | true => simp [recordedMeta, herror] at hmeta
    | false =>
      simp only [recordedMeta, herror] at hmeta
      cases hmeta
      exact ⟨hmem, herror⟩
  · rintro ⟨hmem, herror⟩
    exact ⟨_, hmem, by simp [recordedMeta, herror]⟩

theorem mem_recordedKeys :
    key ∈ recordedKeys (i, call, message) ↔ message.isError = false ∧
      toolTargetKey call = some key := by
  unfold recordedKeys
  cases herror : message.isError <;> simp [herror]

theorem mem_recordedEdits {path : Text} :
    path ∈ recordedEdits (i, call, message) ↔ path ∈ detailEditPaths call message ∨
      message.isError = false ∧ path ∈ callEditPaths call message := by
  unfold recordedEdits
  cases herror : message.isError <;> simp [herror]

theorem mem_writes {keys : Nat × ToolCall × ToolResultMessage → List Text} :
    (key, i) ∈ (answeredResults entries).flatMap (fun result => (keys result).map (·, result.1)) ↔
      ∃ call message, answeredAt entries i = some (call, message) ∧
        key ∈ keys (i, call, message) := by
  simp only [mem_flatMap, mem_map, Prod.mk.injEq]
  constructor
  · rintro ⟨⟨j, call, message⟩, hmem, key', hkey, rfl, rfl⟩
    exact ⟨call, message, mem_answeredResults.mp hmem, hkey⟩
  · rintro ⟨call, message, hanswered, hkey⟩
    exact ⟨_, mem_answeredResults.mpr hanswered, key, hkey, rfl, rfl⟩

theorem any_lt_ofWrites (keys : Nat × ToolCall × ToolResultMessage → List Text) (key : Text)
    (i : Nat) :
    (((empty : OrderedMap Text Nat).setAll ((answeredResults entries).flatMap
      fun result => (keys result).map (·, result.1))).get? key).any (i < ·) = true ↔
      ∃ j call message, i < j ∧ answeredAt entries j = some (call, message) ∧
        key ∈ keys (j, call, message) := by
  rw [Option.any_eq_true]
  constructor
  · rintro ⟨j, hj, hlt⟩
    obtain ⟨call, message, hanswered, hkey⟩ := mem_writes.mp (mem_of_get?_ofWrites hj)
    exact ⟨j, call, message, by simpa using hlt, hanswered, hkey⟩
  · rintro ⟨j, call, message, hlt, hanswered, hkey⟩
    obtain ⟨last, hlast, hle⟩ := get?_ofWrites_of_mem (R := (· ≤ ·)) (fun v => le_refl v)
      (writes_sorted (answeredResults_sorted entries) keys Prod.fst fun _ _ hle => hle)
      (mem_writes.mpr ⟨call, message, hanswered, hkey⟩)
    exact ⟨last, hlast, by simpa using lt_of_lt_of_le hlt hle⟩

variable (entries)

def SupersededByKey (i : Nat) (call : ToolCall) : Prop :=
  ∃ j call' message', i < j ∧ SucceededAt entries j call' message' ∧
    ∃ key, toolTargetKey call = some key ∧ toolTargetKey call' = some key

def EditedLater (i : Nat) (call : ToolCall) (message : ToolResultMessage) : Prop :=
  ∃ path ∈ lookupPaths call message, ∃ j, i < j ∧ EditedAt entries j path

def SupersededByRange (i : Nat) (call : ToolCall) : Prop :=
  ∃ j call' message', i < j ∧ SucceededAt entries j call' message' ∧
    (∃ basePath, callBasePath? call = some basePath ∧ callBasePath? call' = some basePath) ∧
    readSupersedesRead call' call = true

variable {entries}

theorem staleByKey_iff :
    staleByKey (stalenessMaps entries) i ⟨call, message⟩ = true ↔
      SupersededByKey entries i call := by
  rw [stalenessMaps, foldl_recordResult, staleByKey]
  cases hkey : toolTargetKey call with
  | none =>
    simp only [Option.bind_none, Option.any_none, SupersededByKey, hkey]
    simp
  | some key =>
    rw [Option.bind_some, any_lt_ofWrites]
    simp only [mem_recordedKeys]
    constructor
    · rintro ⟨j, call', message', hlt, hanswered, herror, hkey'⟩
      exact ⟨j, call', message', hlt, ⟨hanswered, herror⟩, key, hkey, hkey'⟩
    · rintro ⟨j, call', message', hlt, ⟨hanswered, herror⟩, key', hkey₁, hkey₂⟩
      rw [hkey] at hkey₁
      cases hkey₁
      exact ⟨j, call', message', hlt, hanswered, herror, hkey₂⟩

theorem staleByEdit_iff :
    staleByEdit (stalenessMaps entries) i ⟨call, message⟩ = true ↔
      call.name = READ ∧ EditedLater entries i call message := by
  rw [stalenessMaps, foldl_recordResult, staleByEdit, Bool.and_eq_true, decide_eq_true_iff,
    any_eq_true]
  refine and_congr_right fun _ => exists_congr fun path => and_congr_right fun _ => ?_
  rw [any_lt_ofWrites]
  simp only [mem_recordedEdits]
  constructor
  · rintro ⟨j, call', message', hlt, hanswered, hedit⟩
    exact ⟨j, hlt, call', message', hanswered, hedit⟩
  · rintro ⟨j, hlt, call', message', hanswered, hedit⟩
    exact ⟨j, call', message', hlt, hanswered, hedit⟩

theorem staleByRange_iff :
    staleByRange (stalenessMaps entries) i ⟨call, message⟩ = true ↔
      SupersededByRange entries i call := by
  unfold staleByRange SupersededByRange
  cases hbase : callBasePath? call with
  | none => simp
  | some basePath =>
    simp only [any_filter, any_eq_true, Bool.and_eq_true, decide_eq_true_eq]
    constructor
    · rintro ⟨⟨j, call', message'⟩, hmem, hbase', hlt, hsupersedes⟩
      exact ⟨j, call', message', hlt, mem_resultMeta.mp hmem, ⟨basePath, rfl, hbase'⟩, hsupersedes⟩
    · rintro ⟨j, call', message', hlt, hsucceeded, ⟨basePath', hbase₁, hbase₂⟩, hsupersedes⟩
      cases hbase₁
      exact ⟨⟨j, call', message'⟩, mem_resultMeta.mpr hsucceeded, hbase₂, hlt, hsupersedes⟩

/-- A result is stale if it succeeded and a later result has its key, a later edit touches the file
it read, or a later read contains the lines it read. -/
theorem mem_staleResultIndices :
    i ∈ staleResultIndices entries ↔ ∃ call message, SucceededAt entries i call message ∧
      (SupersededByKey entries i call ∨ (call.name = READ ∧ EditedLater entries i call message) ∨
        SupersededByRange entries i call) := by
  simp only [staleResultIndices, mem_append, mem_map, mem_filter, Bool.or_eq_true]
  constructor
  · rintro (⟨⟨j, call, message⟩, ⟨hmem, hstale⟩, rfl⟩ | ⟨⟨j, call, message⟩, ⟨hmem, hstale⟩, rfl⟩)
    · refine ⟨call, message, mem_resultMeta.mp hmem, ?_⟩
      rcases hstale with hkey | hedit
      · exact .inl (staleByKey_iff.mp hkey)
      · exact .inr (.inl (staleByEdit_iff.mp hedit))
    · exact ⟨call, message, mem_resultMeta.mp hmem, .inr (.inr (staleByRange_iff.mp hstale))⟩
  · rintro ⟨call, message, hsucceeded, hkey | hedit | hrange⟩
    · exact .inl ⟨⟨i, call, message⟩,
        ⟨mem_resultMeta.mpr hsucceeded, .inl (staleByKey_iff.mpr hkey)⟩, rfl⟩
    · exact .inl ⟨⟨i, call, message⟩,
        ⟨mem_resultMeta.mpr hsucceeded, .inr (staleByEdit_iff.mpr hedit)⟩, rfl⟩
    · exact .inr ⟨⟨i, call, message⟩,
        ⟨mem_resultMeta.mpr hsucceeded, staleByRange_iff.mpr hrange⟩, rfl⟩

end

end Vibrato.Pruning
