import Vibrato.Lib.IndexedLoop
import Vibrato.Output.Bytes
import Vibrato.Pruning.Entry

/-! `session/file-mention-pruning.ts`: the body of an `@path` mention is replaced by a notice once
the same path is shown later in the branch. -/

namespace Vibrato.Pruning

open Lib Output List Option

structure MentionedFile where
  path : Text
  content : Text
  lineCount : Option Nat
  image : Option (Text × Text)
  duplicate : Bool
  pruned : Bool
  deriving DecidableEq

/-- The session entries that the maintenance passes read, and anything else. -/
inductive BranchEntry (ρ : Type) where
  | fileMention (id : Text) (files : List MentionedFile)
  | toolResult (id : Text) (message : ToolResultMessage)
  | customMessage (id customType : Text) (content : Content)
  | other (entry : ρ)
  deriving DecidableEq

def resolvedPath? (message : ToolResultMessage) : Option Text :=
  ((message.details.bind fun details => details.get? "resolvedPath".toList).bind Json.str?).filter
    (· ≠ [])

def stalefileMentionNotice (path : Text) : Text :=
  "(pruned: a newer view of `".toList ++ path ++
    "` appears later in the conversation; use the read tool to fetch it again)".toList

section

variable {ρ : Type} (resolveAbs : Text → Text)

/-- The paths that an entry sets in `latestShownIndex`. -/
def shownPaths : BranchEntry ρ → List Text
  | .fileMention _ files =>
    (files.filter fun file => !(file.duplicate || file.pruned)).map fun file => resolveAbs file.path
  | .toolResult _ message => (resolvedPath? message).toList.map resolveAbs
  | _ => []

def latestShownIndex (entries : List (BranchEntry ρ)) : OrderedMap Text Nat :=
  latestIndex (shownPaths resolveAbs) entries

variable (latest : OrderedMap Text Nat)

def pruneFile (i : Nat) (file : MentionedFile) : Option (MentionedFile × Nat) :=
  if file.duplicate || file.pruned || file.content.isEmpty then none
  else
    match latest.get? (resolveAbs file.path) with
    | none => none
    | some last =>
      if last > i then
        let notice := stalefileMentionNotice file.path
        some ({ file with content := notice, pruned := true, image := none, lineCount := none },
          byteLength file.content - byteLength notice)
      else none

def pruneFiles (i : Nat) (files : List MentionedFile) : Rewritten MentionedFile :=
  rewriteLoop (fun _ => pruneFile resolveAbs latest i) 0 files

def pruneMention (i : Nat) : BranchEntry ρ → Option (BranchEntry ρ × Nat)
  | .fileMention id files =>
    let result := pruneFiles resolveAbs latest i files
    if result.changed.isEmpty then none else some (.fileMention id result.list, result.saved)
  | _ => none

variable (entries : List (BranchEntry ρ))

/-- `pruneStaleFileMentions`: the entries afterwards, the changed ones, and the bytes saved. -/
def pruneStaleFileMentions : Rewritten (BranchEntry ρ) :=
  rewriteLoop (pruneMention resolveAbs (latestShownIndex resolveAbs entries)) 0 entries

def MentionedFile.IsLive (file : MentionedFile) : Prop :=
  file.duplicate = false ∧ file.pruned = false

def MentionsAt (i j : Nat) (file : MentionedFile) : Prop :=
  ∃ id files, entries[i]? = some (.fileMention id files) ∧ files[j]? = some file

/-- The file of the mention at an index was not pruned before and is pruned afterwards. -/
def ReplacedAt (after : List (BranchEntry ρ)) (i : Nat) (file : MentionedFile) : Prop :=
  ∃ j file', MentionsAt entries i j file ∧ MentionsAt after i j file' ∧ file.pruned = false ∧
    file'.pruned = true

def ReadsAt (i : Nat) (message : ToolResultMessage) (path : Text) : Prop :=
  (∃ id, entries[i]? = some (.toolResult id message)) ∧
    ∃ resolved, resolvedPath? message = some resolved ∧ resolveAbs resolved = path

def ShowsOutput (message : ToolResultMessage) : Prop :=
  message.isError = false ∧ message.prunedAt = none

def ShownAt (i : Nat) (path : Text) : Prop :=
  (∃ j file, MentionsAt entries i j file ∧ file.IsLive ∧ resolveAbs file.path = path) ∨
    ∃ message, ReadsAt resolveAbs entries i message path ∧ ShowsOutput message

variable {path : Text} {i : Nat} {file : MentionedFile}

variable {entries : List (BranchEntry ρ)}

theorem keyAt_shownPaths :
    KeyAt (shownPaths resolveAbs) entries path i ↔
      (∃ j file, MentionsAt entries i j file ∧ file.IsLive ∧ resolveAbs file.path = path) ∨
      ∃ message, ReadsAt resolveAbs entries i message path := by
  constructor
  · rintro ⟨entry, hentry, hpath⟩
    cases entry with
    | fileMention id files =>
      obtain ⟨file, hfile, rfl⟩ := mem_map.1 hpath
      obtain ⟨hmem, hlive⟩ := mem_filter.1 hfile
      obtain ⟨j, hj⟩ := mem_iff_getElem?.1 hmem
      exact .inl ⟨j, file,
        ⟨id, files, hentry, hj⟩, by simpa [MentionedFile.IsLive] using hlive, rfl⟩
    | toolResult id message =>
      obtain ⟨resolved, hresolved, rfl⟩ := mem_map.1 hpath
      exact .inr ⟨message, ⟨id, hentry⟩, resolved, mem_toList.1 hresolved, rfl⟩
    | customMessage => cases hpath
    | other => cases hpath
  · rintro (⟨j, file, ⟨id, files, hentry, hj⟩, hlive, rfl⟩ | ⟨message, ⟨id, hentry⟩, resolved,
      hresolved, rfl⟩)
    · refine ⟨_, hentry, mem_map.2 ⟨file, mem_filter.2 ⟨mem_of_getElem? hj, ?_⟩, rfl⟩⟩
      simpa [MentionedFile.IsLive] using hlive
    · exact ⟨_, hentry, mem_map.2 ⟨resolved, mem_toList.2 hresolved, rfl⟩⟩

def IsStale (entries : List (BranchEntry ρ)) (i : Nat) (file : MentionedFile) : Prop :=
  file.IsLive ∧ file.content ≠ [] ∧
    KeyAfter (shownPaths resolveAbs) entries (resolveAbs file.path) i

def prunedFile (file : MentionedFile) : MentionedFile :=
  { file with
    content := stalefileMentionNotice file.path
    pruned := true
    image := none
    lineCount := none }

theorem pruneFile_of_isStale (h : IsStale resolveAbs entries i file) :
    pruneFile resolveAbs (latestShownIndex resolveAbs entries) i file =
      some (prunedFile file, byteLength file.content - byteLength
        (stalefileMentionNotice file.path)) := by
  obtain ⟨⟨hduplicate, hpruned⟩, hcontent, hafter⟩ := h
  obtain ⟨last, hget, hlt⟩ := exists_latestIndex_gt.2 hafter
  have hskip : (file.duplicate || file.pruned || file.content.isEmpty) = false := by
    simp [hduplicate, hpruned, hcontent]
  unfold pruneFile latestShownIndex
  rw [hskip, hget]
  simp [hlt, prunedFile]

theorem pruneFile_of_not_isStale (h : ¬IsStale resolveAbs entries i file) :
    pruneFile resolveAbs (latestShownIndex resolveAbs entries) i file = none := by
  unfold pruneFile
  split
  · rfl
  · rename_i hskip
    simp only [Bool.or_eq_true, not_or, Bool.not_eq_true, isEmpty_eq_false_iff] at hskip
    split
    · rfl
    · rename_i last hget
      refine if_neg fun hlt => h ⟨hskip.1, hskip.2, ?_⟩
      exact exists_latestIndex_gt.1 ⟨last, hget, hlt⟩

theorem rewrittenAt_pruneMention (i : Nat) (id : Text) (files : List MentionedFile) :
    rewrittenAt (pruneMention resolveAbs latest) i (.fileMention id files : BranchEntry ρ) =
      .fileMention id (pruneFiles resolveAbs latest i files).list := by
  unfold rewrittenAt pruneMention
  dsimp only
  split
  · rename_i hchanged
    rw [pruneFiles, rewriteLoop_list_of_changed_nil (List.isEmpty_iff.1 hchanged)]
    rfl
  · rfl

theorem getElem?_pruneStaleFileMentions (entries : List (BranchEntry ρ)) (i : Nat) :
    (pruneStaleFileMentions resolveAbs entries).list[i]? =
      entries[i]?.map fun
        | .fileMention id files =>
          .fileMention id (pruneFiles resolveAbs (latestShownIndex resolveAbs entries) i files).list
        | entry => entry := by
  rw [pruneStaleFileMentions, getElem?_rewriteLoop, Nat.zero_add]
  congr 1
  funext entry
  cases entry with
  | fileMention id files => exact rewrittenAt_pruneMention resolveAbs _ i id files
  | toolResult => rfl
  | customMessage => rfl
  | other => rfl

theorem mentionsAt_pruneStaleFileMentions {j : Nat} {file' : MentionedFile} :
    MentionsAt (pruneStaleFileMentions resolveAbs entries).list i j file' ↔
      ∃ file, MentionsAt entries i j file ∧
        (IsStale resolveAbs entries i file ∧ file' = prunedFile file ∨
          ¬IsStale resolveAbs entries i file ∧ file' = file) := by
  have hfile : ∀ file, rewrittenAt
      (fun _ => pruneFile resolveAbs (latestShownIndex resolveAbs entries) i) (0 + j) file = file' ↔
      IsStale resolveAbs entries i file ∧ file' = prunedFile file ∨
        ¬IsStale resolveAbs entries i file ∧ file' = file := by
    intro file
    by_cases hstale : IsStale resolveAbs entries i file
    · rw [rewrittenAt, pruneFile_of_isStale resolveAbs hstale]
      simp [hstale, eq_comm]
    · rw [rewrittenAt, pruneFile_of_not_isStale resolveAbs hstale]
      simp [hstale, eq_comm]
  unfold MentionsAt
  rw [getElem?_pruneStaleFileMentions]
  constructor
  · rintro ⟨id, files', hentry, hj⟩
    obtain ⟨entry, hbefore, heq⟩ := map_eq_some_iff.1 hentry
    cases entry with
    | fileMention id files =>
      cases heq
      rw [pruneFiles, getElem?_rewriteLoop] at hj
      obtain ⟨file, hj, hrewritten⟩ := map_eq_some_iff.1 hj
      exact ⟨file, ⟨id, files, hbefore, hj⟩, (hfile file).1 hrewritten⟩
    | toolResult => cases heq
    | customMessage => cases heq
    | other => cases heq
  · rintro ⟨file, ⟨id, files, hentry, hj⟩, hcases⟩
    refine ⟨id, _, by rw [hentry]; rfl, ?_⟩
    rw [pruneFiles, getElem?_rewriteLoop, hj, map_some, (hfile file).2 hcases]

theorem readsAt_pruneStaleFileMentions {message : ToolResultMessage} :
    ReadsAt resolveAbs (pruneStaleFileMentions resolveAbs entries).list i message path ↔
      ReadsAt resolveAbs entries i message path := by
  have hentry : ∀ id, (pruneStaleFileMentions resolveAbs entries).list[i]? =
      some (.toolResult id message) ↔ entries[i]? = some (.toolResult id message) := by
    intro id
    rw [getElem?_pruneStaleFileMentions]
    cases entries[i]? with
    | none => rfl
    | some entry => cases entry <;> simp
  unfold ReadsAt
  simp only [hentry]

theorem replacedAt_iff :
    ReplacedAt entries (pruneStaleFileMentions resolveAbs entries).list i file ↔
      (∃ j, MentionsAt entries i j file) ∧ IsStale resolveAbs entries i file := by
  constructor
  · rintro ⟨j, file', hbefore, hafter, hpruned, hpruned'⟩
    obtain ⟨file'', hbefore', hcases⟩ := (mentionsAt_pruneStaleFileMentions resolveAbs).1 hafter
    obtain rfl : file'' = file := by
      obtain ⟨id, files, hentry, hj⟩ := hbefore
      obtain ⟨id', files', hentry', hj'⟩ := hbefore'
      rw [hentry] at hentry'
      cases hentry'
      rw [hj] at hj'
      exact (some.inj hj').symm
    rcases hcases with ⟨hstale, -⟩ | ⟨-, rfl⟩
    · exact ⟨⟨j, hbefore⟩, hstale⟩
    · rw [hpruned] at hpruned'
      cases hpruned'
  · rintro ⟨⟨j, hbefore⟩, hstale⟩
    refine ⟨j, prunedFile file, hbefore, ?_, hstale.1.2, rfl⟩
    exact (mentionsAt_pruneStaleFileMentions resolveAbs).2 ⟨file, hbefore, .inl ⟨hstale, rfl⟩⟩

theorem shownAt_pruneStaleFileMentions :
    ShownAt resolveAbs (pruneStaleFileMentions resolveAbs entries).list i path ↔
      (∃ j file, MentionsAt entries i j file ∧ file.IsLive ∧ resolveAbs file.path = path ∧
        ¬IsStale resolveAbs entries i file) ∨
      ∃ message, ReadsAt resolveAbs entries i message path ∧ ShowsOutput message := by
  unfold ShownAt
  simp only [readsAt_pruneStaleFileMentions]
  refine or_congr_left ⟨?_, ?_⟩
  · rintro ⟨j, file', hafter, hlive, hpath⟩
    obtain ⟨file, hbefore, ⟨-, rfl⟩ | ⟨hstale, rfl⟩⟩ :=
      (mentionsAt_pruneStaleFileMentions resolveAbs).1 hafter
    · cases hlive.2
    · exact ⟨j, file', hbefore, hlive, hpath, hstale⟩
  · rintro ⟨j, file, hbefore, hlive, hpath, hstale⟩
    exact ⟨j, file, (mentionsAt_pruneStaleFileMentions resolveAbs).2
      ⟨file, hbefore, .inr ⟨hstale, rfl⟩⟩, hlive, hpath⟩

/-- A replaced file is always shown by a later entry exactly if, whenever the last view of a
mentioned file is a tool result that failed or was pruned, there is also a later tool result that
shows it, or a later mention of it with an empty body. -/
theorem pruneStaleFileMentions_shown_iff (entries : List (BranchEntry ρ)) :
    (∀ i file, ReplacedAt entries (pruneStaleFileMentions resolveAbs entries).list i file →
      ∃ k, i < k ∧ ShownAt resolveAbs (pruneStaleFileMentions resolveAbs entries).list k
        (resolveAbs file.path)) ↔
    ∀ i j file, MentionsAt entries i j file → file.IsLive → file.content ≠ [] →
      ∀ last message, i < last → ReadsAt resolveAbs entries last message (resolveAbs file.path) →
        (∀ k, last < k → ¬KeyAt (shownPaths resolveAbs) entries (resolveAbs file.path) k) →
        ¬ShowsOutput message →
        ∃ k, i < k ∧ ((∃ message, ReadsAt resolveAbs entries k message (resolveAbs file.path) ∧
          ShowsOutput message) ∨
          ∃ j file', MentionsAt entries k j file' ∧ file'.IsLive ∧
            resolveAbs file'.path = resolveAbs file.path ∧ file'.content = []) := by
  constructor
  · intro h i j file hmention hlive hcontent last message hlt hreads hlast hbad
    have hlastAt := (keyAt_shownPaths resolveAbs).2 (.inr ⟨message, hreads⟩)
    have hstale : IsStale resolveAbs entries i file := ⟨hlive, hcontent, last, hlt, hlastAt⟩
    obtain ⟨k, hk, hshown⟩ := h i file ((replacedAt_iff resolveAbs).2 ⟨⟨j, hmention⟩, hstale⟩)
    refine ⟨k, hk, ?_⟩
    rcases (shownAt_pruneStaleFileMentions resolveAbs).1 hshown with
      ⟨j', file', hmention', hlive', hpath, hfresh⟩ | hgood
    · -- A mention with a body that was not pruned is the last view, which is a tool result.
      by_cases hcontent' : file'.content = []
      · exact .inr ⟨j', file', hmention', hlive', hpath, hcontent'⟩
      · have hkAt := (keyAt_shownPaths resolveAbs).2 (.inl ⟨j', file', hmention', hlive', hpath⟩)
        have hnotAfter : ¬k < last := fun hlt' =>
          hfresh ⟨hlive', hcontent', last, hlt', by rw [hpath]; exact hlastAt⟩
        have hnotBefore : ¬last < k := fun hlt' => hlast k hlt' hkAt
        obtain rfl : k = last := by omega
        obtain ⟨_, _, hentry, -⟩ := hmention'
        obtain ⟨⟨_, hentry'⟩, -⟩ := hreads
        rw [hentry] at hentry'
        cases hentry'
    · exact .inl hgood
  · intro h i file hreplaced
    obtain ⟨⟨j, hmention⟩, hlive, hcontent, later, hlt, hlater⟩ :=
  (replacedAt_iff resolveAbs).1 hreplaced
    obtain ⟨last, hle, hlastAt, hlast⟩ :=
      exists_last (P := KeyAt (shownPaths resolveAbs) entries (resolveAbs file.path))
        (fun k hk => hk.lt_length) hlater
    simp only [shownAt_pruneStaleFileMentions]
    rcases (keyAt_shownPaths resolveAbs).1 hlastAt with
      ⟨j', file', hmention', hlive', hpath⟩ | ⟨message, hreads⟩
    · refine ⟨last, by omega, .inl ⟨j', file', hmention', hlive', hpath, ?_⟩⟩
      rintro ⟨-, -, k, hk, hkAt⟩
      rw [hpath] at hkAt
      exact hlast k hk hkAt
    · by_cases hgood : ShowsOutput message
      · exact ⟨last, by omega, .inr ⟨message, hreads, hgood⟩⟩
      · obtain ⟨k, hk, hshown | ⟨j', file', hmention', hlive', hpath, hempty⟩⟩ :=
          h i j file hmention hlive hcontent last message (by omega) hreads hlast hgood
        · exact ⟨k, hk, .inr hshown⟩
        · exact ⟨k, hk, .inl ⟨j', file', hmention', hlive', hpath, fun hstale => hstale.2.1 hempty⟩⟩

end

def mentionOf (path content : Text) : MentionedFile := ⟨path, content, none, none, false, false⟩

def readResultOf (path : Text) (isError : Bool) (prunedAt : Option Nat) : ToolResultMessage :=
  ⟨"call".toList, "read".toList, .parts [], isError,
    some (.obj [("resolvedPath".toList, .str path)]), prunedAt⟩

def prunedReadBranch : List (BranchEntry Unit) :=
  [.fileMention ['m'] [mentionOf ['a'] ['x']],
    .toolResult ['r'] (readResultOf ['a'] false (some 1))]

/-- The body of the mention is replaced although the only later view of the file was pruned
itself. -/
theorem pruneStaleFileMentions_hides :
    ¬∀ i file, ReplacedAt prunedReadBranch
      (pruneStaleFileMentions id prunedReadBranch).list i file →
      ∃ k, i < k ∧ ShownAt id (pruneStaleFileMentions id prunedReadBranch).list k
        (id file.path) := by
  have hafter : (pruneStaleFileMentions id prunedReadBranch).list =
      [.fileMention ['m'] [prunedFile (mentionOf ['a'] ['x'])],
        .toolResult ['r'] (readResultOf ['a'] false (some 1))] := by decide +kernel
  intro h
  obtain ⟨k, hk, hshown⟩ := h 0 (mentionOf ['a'] ['x'])
    ⟨0, prunedFile (mentionOf ['a'] ['x']), ⟨['m'], _, rfl, rfl⟩, ⟨['m'], _, rfl, rfl⟩, rfl, rfl⟩
  obtain ⟨k, rfl⟩ : ∃ k', k = k' + 1 := ⟨k - 1, by omega⟩
  rcases hshown with ⟨j, file, ⟨id, files, hentry, -⟩, -⟩ | ⟨message, ⟨⟨id, hentry⟩, -⟩, hgood⟩
  · cases k with
    | zero => cases hentry
    | succ k => cases hentry
  · cases k with
    | zero =>
      cases hentry
      cases hgood.2
    | succ k => cases hentry

end Vibrato.Pruning
