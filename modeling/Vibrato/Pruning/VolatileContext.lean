import Vibrato.Pruning.FileMentions

/-! `session/volatile-context-pruning.ts`: of the custom messages that hold one current state only
the newest keeps its text. -/

namespace Vibrato.Pruning

open Lib Output List Option

def SUPERSEDED_VOLATILE_CONTEXT_NOTICE : Text := "[superseded volatile context pruned]".toList

def VOLATILE_PROJECT_CONTEXT : Text := "volatile-project-context".toList

def SUPERSEDED_SINGLETON_REMINDER_TYPES : List Text :=
  ["todo-write-error-reminder".toList, "resolve-reminder".toList, "eager-todo-prelude".toList]

/-- The text of a custom message: the string, or the texts of the blocks, an image as an empty
line. -/
def contentText : Content → Text
  | .text text => text
  | .parts parts => Text.joinLines (parts.map fun
    | .text text => text
    | .image .. => [])

section

variable {ρ : Type}

variable (types : List Text)

def singletonType : BranchEntry ρ → List Text
  | .customMessage _ customType _ => if customType ∈ types then [customType] else []
  | _ => []

def retire : BranchEntry ρ → Option (BranchEntry ρ × Nat)
  | .customMessage id customType content =>
    let text := contentText content
    if text.isEmpty then none
    else some (.customMessage id customType (.text SUPERSEDED_VOLATILE_CONTEXT_NOTICE),
      byteLength text)
  | _ => none

def retireVolatile (latest i : Nat) : BranchEntry ρ → Option (BranchEntry ρ × Nat)
  | .customMessage id customType content =>
    if i ≥ latest ∨ customType ≠ VOLATILE_PROJECT_CONTEXT then none
    else retire (.customMessage id customType content)
  | _ => none

def pruneSupersededVolatileProjectContext (entries : List (BranchEntry ρ)) :
    Rewritten (BranchEntry ρ) :=
  match (latestIndex (singletonType [VOLATILE_PROJECT_CONTEXT]) entries).get?
    VOLATILE_PROJECT_CONTEXT with
  | none => ⟨entries, [], 0⟩
  | some latest => rewriteLoop (retireVolatile latest) 0 entries

def retireReminder (latest : OrderedMap Text Nat) (i : Nat) :
    BranchEntry ρ → Option (BranchEntry ρ × Nat)
  | .customMessage id customType content =>
    match latest.get? customType with
    | none => none
    | some last => if last = i then none else retire (.customMessage id customType content)
  | _ => none

def pruneSupersededMaintenanceReminders (entries : List (BranchEntry ρ)) :
    Rewritten (BranchEntry ρ) :=
  rewriteLoop
    (retireReminder (latestIndex (singletonType SUPERSEDED_SINGLETON_REMINDER_TYPES) entries))
    0 entries

/-- What a maintenance run of the session reports for its three passes, in their order. -/
structure MaintenanceRun (ρ : Type) where
  fileMentions : Rewritten (BranchEntry ρ)
  volatileContext : Rewritten (BranchEntry ρ)
  reminders : Rewritten (BranchEntry ρ)

def maintenanceRun (resolveAbs : Text → Text) (entries : List (BranchEntry ρ)) : MaintenanceRun ρ :=
  let fileMentions := pruneStaleFileMentions resolveAbs entries
  let volatileContext := pruneSupersededVolatileProjectContext fileMentions.list
  ⟨fileMentions, volatileContext, pruneSupersededMaintenanceReminders volatileContext.list⟩

def HasTypeAt (entries : List (BranchEntry ρ)) (customType : Text) (i : Nat) : Prop :=
  ∃ id content, entries[i]? = some (.customMessage id customType content)

def OnlyNewestHaveText (entries : List (BranchEntry ρ)) : Prop :=
  ∀ i id customType content, entries[i]? = some (.customMessage id customType content) →
    customType ∈ types → (∃ j, i < j ∧ HasTypeAt entries customType j) → contentText content = []

structure RetiresOlder (types : List Text) (entries : List (BranchEntry ρ))
    (rewrite : Nat → BranchEntry ρ → Option (BranchEntry ρ × Nat)) : Prop where
  older : ∀ {i id customType content}, entries[i]? = some (.customMessage id customType content) →
    customType ∈ types → (∃ j, i < j ∧ HasTypeAt entries customType j) →
    rewrite i (.customMessage id customType content) = retire (.customMessage id customType content)
  newest : ∀ {i id customType content}, entries[i]? = some (.customMessage id customType content) →
    ¬(customType ∈ types ∧ ∃ j, i < j ∧ HasTypeAt entries customType j) →
    rewrite i (.customMessage id customType content) = none
  others : ∀ {i entry}, (∀ id customType content, entry ≠ .customMessage id customType content) →
    rewrite i entry = none

theorem keyAt_singletonType {types : List Text} {entries : List (BranchEntry ρ)} {customType : Text}
    {i : Nat} :
    KeyAt (singletonType types) entries customType i ↔ customType ∈ types ∧
      HasTypeAt entries customType i := by
  constructor
  · rintro ⟨entry, hentry, hkey⟩
    cases entry with
    | customMessage id type content =>
      rw [singletonType] at hkey
      split at hkey
      · rename_i htype
        cases mem_singleton.1 hkey
        exact ⟨htype, id, content, hentry⟩
      · cases hkey
    | fileMention => cases hkey
    | toolResult => cases hkey
    | other => cases hkey
  · rintro ⟨htype, id, content, hentry⟩
    refine ⟨_, hentry, ?_⟩
    rw [singletonType, if_pos htype]
    exact mem_singleton_self customType

theorem retiresOlder_reminders (entries : List (BranchEntry ρ)) :
    RetiresOlder types entries (retireReminder (latestIndex (singletonType types) entries)) where
  older := by
    rintro i id customType content hentry htype ⟨j, hlt, hj⟩
    obtain ⟨last, hle, hget⟩ := exists_latestIndex (keyAt_singletonType.2 ⟨htype, hj⟩)
    rw [retireReminder, hget]
    exact if_neg (by omega)
  newest := by
    intro i id customType content hentry hnewest
    rw [retireReminder]
    split
    · rfl
    · rename_i last hget
      obtain ⟨hat, hlast⟩ := get?_latestIndex_eq_some.1 hget
      obtain ⟨htype, hhas⟩ := keyAt_singletonType.1 hat
      have hi := keyAt_singletonType.2 ⟨htype, id, content, hentry⟩
      have hnotBefore : ¬last < i := fun hlt => hlast i hlt hi
      have hnotAfter : ¬i < last := fun hlt => hnewest ⟨htype, last, hlt, hhas⟩
      exact if_pos (by omega)
  others := by
    intro i entry hentry
    cases entry with
    | customMessage id customType content => exact absurd rfl (hentry id customType content)
    | fileMention => rfl
    | toolResult => rfl
    | other => rfl

theorem retiresOlder_volatile {entries : List (BranchEntry ρ)} {latest : Nat}
    (hlatest : (latestIndex (singletonType [VOLATILE_PROJECT_CONTEXT]) entries).get?
      VOLATILE_PROJECT_CONTEXT = some latest) :
    RetiresOlder [VOLATILE_PROJECT_CONTEXT] entries (retireVolatile latest) where
  older := by
    rintro i id customType content hentry htype ⟨j, hlt, hj⟩
    cases mem_singleton.1 htype
    obtain ⟨last, hle, hget⟩ := exists_latestIndex (keyAt_singletonType.2 ⟨htype, hj⟩)
    rw [hlatest, some.injEq] at hget
    subst hget
    refine if_neg ?_
    rintro (hge | hne)
    · omega
    · exact hne rfl
  newest := by
    intro i id customType content hentry hnewest
    refine if_pos ?_
    by_cases htype : customType = VOLATILE_PROJECT_CONTEXT
    · subst htype
      obtain ⟨hat, -⟩ := get?_latestIndex_eq_some.1 hlatest
      obtain ⟨hmem, hhas⟩ := keyAt_singletonType.1 hat
      have hnotAfter : ¬i < latest := fun hlt => hnewest ⟨hmem, latest, hlt, hhas⟩
      exact .inl (by omega)
    · exact .inr htype
  others := by
    intro i entry hentry
    cases entry with
    | customMessage id customType content => exact absurd rfl (hentry id customType content)
    | fileMention => rfl
    | toolResult => rfl
    | other => rfl

def IsSingletonPass (entries : List (BranchEntry ρ)) (result : Rewritten (BranchEntry ρ)) : Prop :=
  ∃ rewrite, RetiresOlder types entries rewrite ∧ result = rewriteLoop rewrite 0 entries

variable (entries : List (BranchEntry ρ)) {result : Rewritten (BranchEntry ρ)}

theorem isSingletonPass_reminders :
    IsSingletonPass SUPERSEDED_SINGLETON_REMINDER_TYPES entries
      (pruneSupersededMaintenanceReminders entries) :=
  ⟨_, retiresOlder_reminders _ entries, rfl⟩

theorem rewriteLoop_none (n : Nat) (entries : List (BranchEntry ρ)) :
    rewriteLoop (fun _ _ => none) n entries = ⟨entries, [], 0⟩ := by
  induction entries generalizing n with
  | nil => rfl
  | cons entry entries ih =>
    rw [rewriteLoop, ih]

theorem isSingletonPass_volatile :
    IsSingletonPass [VOLATILE_PROJECT_CONTEXT] entries
      (pruneSupersededVolatileProjectContext entries) := by
  unfold pruneSupersededVolatileProjectContext
  split
  · rename_i hnone
    refine ⟨fun _ _ => none, ⟨?_, fun _ _ => rfl, fun _ => rfl⟩, (rewriteLoop_none 0 entries).symm⟩
    rintro i id customType content hentry htype -
    cases mem_singleton.1 htype
    obtain ⟨last, -, hget⟩ :=
      exists_latestIndex (keyAt_singletonType.2 ⟨htype, id, content, hentry⟩)
    rw [hnone] at hget
    cases hget
  · rename_i latest hlatest
    exact ⟨_, retiresOlder_volatile hlatest, rfl⟩

theorem retire_eq_none {id customType : Text} {content : Content} :
    retire (.customMessage id customType content : BranchEntry ρ) = none ↔
      contentText content = [] := by
  rw [retire]
  simp

namespace IsSingletonPass

variable {types : List Text} {entries : List (BranchEntry ρ)} {result : Rewritten (BranchEntry ρ)}

variable (h : IsSingletonPass types entries result)
include h

theorem getElem?_cases (i : Nat) :
    result.list[i]? = entries[i]? ∨
    ∃ id customType content, entries[i]? = some (.customMessage id customType content) ∧
      (customType ∈ types ∧ ∃ j, i < j ∧ HasTypeAt entries customType j) ∧
        contentText content ≠ [] ∧
      result.list[i]? =
        some (.customMessage id customType (.text SUPERSEDED_VOLATILE_CONTEXT_NOTICE)) := by
  obtain ⟨rewrite, hrewrite, rfl⟩ := h
  rw [getElem?_rewriteLoop, Nat.zero_add]
  cases hentry : entries[i]? with
  | none => exact .inl rfl
  | some entry =>
    by_cases hcustom : ∃ id customType content, entry = .customMessage id customType content
    · obtain ⟨id, customType, content, rfl⟩ := hcustom
      by_cases holder : customType ∈ types ∧ ∃ j, i < j ∧ HasTypeAt entries customType j
      · by_cases htext : contentText content = []
        · have hnone := hrewrite.older hentry holder.1 holder.2
          rw [retire_eq_none.2 htext] at hnone
          rw [map_some, rewrittenAt_of_none hnone]
          exact .inl rfl
        · refine .inr ⟨id, customType, content, rfl, holder, htext, ?_⟩
          rw [map_some, rewrittenAt, hrewrite.older hentry holder.1 holder.2, retire]
          simp [htext]
      · rw [map_some, rewrittenAt_of_none (hrewrite.newest hentry holder)]
        exact .inl rfl
    · have hother : ∀ id customType content, entry ≠ .customMessage id customType content :=
        fun id customType content heq => hcustom ⟨id, customType, content, heq⟩
      rw [map_some, rewrittenAt_of_none (hrewrite.others hother)]
      exact .inl rfl

theorem changed_eq_nil : result.changed = [] ↔ OnlyNewestHaveText types entries := by
  obtain ⟨rewrite, hrewrite, rfl⟩ := h
  simp only [rewriteLoop_changed_eq_nil, Nat.zero_add]
  constructor
  · intro hnone i id customType content hentry htype hlater
    have hi := hnone i _ hentry
    rwa [hrewrite.older hentry htype hlater, retire_eq_none] at hi
  · intro htext i entry hentry
    by_cases hcustom : ∃ id customType content, entry = .customMessage id customType content
    · obtain ⟨id, customType, content, rfl⟩ := hcustom
      by_cases holder : customType ∈ types ∧ ∃ j, i < j ∧ HasTypeAt entries customType j
      · rw [hrewrite.older hentry holder.1 holder.2, retire_eq_none]
        exact htext i id customType content hentry holder.1 holder.2
      · exact hrewrite.newest hentry holder
    · exact hrewrite.others fun id customType content heq => hcustom ⟨id, customType, content, heq⟩

theorem saved_eq_zero (hchanged : result.changed = []) : result.saved = 0 := by
  obtain ⟨rewrite, -, rfl⟩ := h
  exact rewriteLoop_saved_of_changed_nil hchanged

end IsSingletonPass

def singletonOutline : BranchEntry ρ → Option (Text × Bool)
  | .customMessage _ customType content => some (customType, (contentText content).isEmpty)
  | _ => none

def viewOutline : BranchEntry ρ → Option (BranchEntry ρ)
  | .customMessage .. => none
  | entry => some entry

theorem singletonOutline_eq_some {entries : List (BranchEntry ρ)} {i : Nat} {customType : Text}
    {isEmpty : Bool} :
    (entries.map singletonOutline)[i]? = some (some (customType, isEmpty)) ↔
      ∃ id content, entries[i]? = some (.customMessage id customType content) ∧
        (contentText content).isEmpty = isEmpty := by
  rw [getElem?_map]
  cases entries[i]? with
  | none => simp
  | some entry => cases entry <;> simp [singletonOutline]

theorem onlyNewestHaveText_iff_outline {types : List Text} {entries : List (BranchEntry ρ)} :
    OnlyNewestHaveText types entries ↔
      ∀ (i : Nat) customType isEmpty, (entries.map singletonOutline)[i]? =
        some (some (customType, isEmpty)) →
        customType ∈ types →
        (∃ (j : Nat) (isEmpty' : Bool), i < j ∧
          (entries.map singletonOutline)[j]? = some (some (customType, isEmpty'))) →
        isEmpty = true := by
  simp only [singletonOutline_eq_some]
  constructor
  · rintro h i customType isEmpty ⟨id, content, hentry, rfl⟩ htype ⟨j, _, hlt, id', content', hj, -⟩
    exact List.isEmpty_iff.2 (h i id customType content hentry htype ⟨j, hlt, id', content', hj⟩)
  · rintro h i id customType content hentry htype ⟨j, hlt, id', content', hj⟩
    exact List.isEmpty_iff.1 (h i customType _ ⟨id, content, hentry, rfl⟩ htype
      ⟨j, _, hlt, id', content', hj, rfl⟩)

theorem onlyNewestHaveText_congr {types : List Text} {entries entries' : List (BranchEntry ρ)}
    (h : entries.map singletonOutline = entries'.map singletonOutline) :
    OnlyNewestHaveText types entries ↔ OnlyNewestHaveText types entries' := by
  rw [onlyNewestHaveText_iff_outline, onlyNewestHaveText_iff_outline, h]

theorem IsSingletonPass.map_singletonOutline {types : List Text} {entries : List (BranchEntry ρ)}
    (h : IsSingletonPass types entries result) :
    result.list.map singletonOutline = entries.map singletonOutline := by
  apply ext_getElem?
  intro i
  rw [getElem?_map, getElem?_map]
  rcases h.getElem?_cases i with heq | ⟨id, customType, content, hbefore, -, htext, hafter⟩
  · rw [heq]
  · rw [hbefore, hafter]
    have hempty : (contentText content).isEmpty = false := by simpa using htext
    simp only [map_some, singletonOutline, hempty]
    rfl

theorem IsSingletonPass.map_viewOutline {types : List Text} {entries : List (BranchEntry ρ)}
    (h : IsSingletonPass types entries result) :
    result.list.map viewOutline = entries.map viewOutline := by
  apply ext_getElem?
  intro i
  rw [getElem?_map, getElem?_map]
  rcases h.getElem?_cases i with heq | ⟨id, customType, content, hbefore, -, -, hafter⟩
  · rw [heq]
  · rw [hbefore, hafter]
    rfl

theorem map_singletonOutline_pruneStaleFileMentions (resolveAbs : Text → Text)
    (entries : List (BranchEntry ρ)) :
    (pruneStaleFileMentions resolveAbs entries).list.map singletonOutline =
      entries.map singletonOutline := by
  apply ext_getElem?
  intro i
  rw [getElem?_map, getElem?_map, getElem?_pruneStaleFileMentions]
  cases entries[i]? with
  | none => rfl
  | some entry => cases entry <;> rfl

section

variable (resolveAbs : Text → Text)

def NoStaleMention (entries : List (BranchEntry ρ)) : Prop :=
  ∀ i j file, MentionsAt entries i j file → ¬IsStale resolveAbs entries i file

theorem pruneStaleFileMentions_changed_eq_nil {entries : List (BranchEntry ρ)} :
    (pruneStaleFileMentions resolveAbs entries).changed = [] ↔
      NoStaleMention resolveAbs entries := by
  unfold pruneStaleFileMentions
  simp only [rewriteLoop_changed_eq_nil, Nat.zero_add]
  constructor
  · rintro hnone i j file ⟨id, files, hentry, hj⟩ hstale
    have hi := hnone i _ hentry
    rw [pruneMention] at hi
    split at hi
    · rename_i hchanged
      rw [pruneFiles, List.isEmpty_iff, rewriteLoop_changed_eq_nil] at hchanged
      have hfile := hchanged j file hj
      rw [pruneFile_of_isStale resolveAbs hstale] at hfile
      cases hfile
    · cases hi
  · intro hno i entry hentry
    cases entry with
    | fileMention id files =>
      refine if_pos ?_
      rw [pruneFiles, List.isEmpty_iff, rewriteLoop_changed_eq_nil]
      intro j file hj
      exact pruneFile_of_not_isStale resolveAbs (hno i j file ⟨id, files, hentry, hj⟩)
    | toolResult => rfl
    | customMessage => rfl
    | other => rfl

theorem mentionsAt_iff_outline {entries : List (BranchEntry ρ)} {i j : Nat} {file : MentionedFile} :
    MentionsAt entries i j file ↔
      ∃ id files, (entries.map viewOutline)[i]? = some (some (.fileMention id files)) ∧
        files[j]? = some file := by
  unfold MentionsAt
  rw [getElem?_map]
  cases entries[i]? with
  | none => simp
  | some entry => cases entry <;> simp [viewOutline]

theorem readsAt_iff_outline {entries : List (BranchEntry ρ)} {i : Nat} {message : ToolResultMessage}
    {path : Text} :
    ReadsAt resolveAbs entries i message path ↔
      (∃ id, (entries.map viewOutline)[i]? = some (some (.toolResult id message))) ∧
        ∃ resolved, resolvedPath? message = some resolved ∧ resolveAbs resolved = path := by
  unfold ReadsAt
  rw [getElem?_map]
  cases entries[i]? with
  | none => simp
  | some entry => cases entry <;> simp [viewOutline]

theorem noStaleMention_congr {entries entries' : List (BranchEntry ρ)}
    (h : entries.map viewOutline = entries'.map viewOutline) :
    NoStaleMention resolveAbs entries ↔ NoStaleMention resolveAbs entries' := by
  have hmentions : ∀ i j file, MentionsAt entries i j file ↔ MentionsAt entries' i j file := by
    intro i j file
    rw [mentionsAt_iff_outline, mentionsAt_iff_outline, h]
  have hreads : ∀ i message path, ReadsAt resolveAbs entries i message path ↔
      ReadsAt resolveAbs entries' i message path := by
    intro i message path
    rw [readsAt_iff_outline, readsAt_iff_outline, h]
  have hshown : ∀ path i, KeyAt (shownPaths resolveAbs) entries path i ↔
      KeyAt (shownPaths resolveAbs) entries' path i := by
    intro path i
    rw [keyAt_shownPaths, keyAt_shownPaths]
    simp only [hmentions, hreads]
  unfold NoStaleMention IsStale KeyAfter
  simp only [hmentions, hshown]

/-- After the pass nothing is left for it to replace: a pruned mention is not live, and a path is
shown nowhere that it was not shown before. -/
theorem noStaleMention_pruneStaleFileMentions (entries : List (BranchEntry ρ)) :
    NoStaleMention resolveAbs (pruneStaleFileMentions resolveAbs entries).list := by
  rintro i j file' hmention ⟨hlive, hcontent, k, hk, hat⟩
  obtain ⟨file, hbefore, ⟨-, rfl⟩ | ⟨hfresh, rfl⟩⟩ :=
    (mentionsAt_pruneStaleFileMentions resolveAbs).1 hmention
  · cases hlive.2
  · refine hfresh ⟨hlive, hcontent, k, hk, (keyAt_shownPaths resolveAbs).2 ?_⟩
    rcases (keyAt_shownPaths resolveAbs).1 hat with ⟨j', shown, hshown, hlive',
      hpath⟩ | ⟨message, hreads⟩
    · obtain ⟨shown', hbefore', ⟨-, rfl⟩ | ⟨-, rfl⟩⟩ :=
        (mentionsAt_pruneStaleFileMentions resolveAbs).1 hshown
      · cases hlive'.2
      · exact .inl ⟨j', shown, hbefore', hlive', hpath⟩
    · exact .inr ⟨message, (readsAt_pruneStaleFileMentions resolveAbs).1 hreads⟩

end

theorem hasTypeAt_congr {entries entries' : List (BranchEntry ρ)}
    (h : entries.map singletonOutline = entries'.map singletonOutline) (customType : Text)
    (i : Nat) :
    HasTypeAt entries customType i ↔ HasTypeAt entries' customType i := by
  have houtline : ∀ l : List (BranchEntry ρ), HasTypeAt l customType i ↔
      ∃ isEmpty, (l.map singletonOutline)[i]? = some (some (customType, isEmpty)) := by
    intro l
    simp only [singletonOutline_eq_some]
    constructor
    · rintro ⟨id, content, hentry⟩
      exact ⟨_, id, content, hentry, rfl⟩
    · rintro ⟨_, id, content, hentry, -⟩
      exact ⟨id, content, hentry⟩
  rw [houtline, houtline, h]

def IsQuiet (result : Rewritten (BranchEntry ρ)) : Prop := result.changed = [] ∧ result.saved = 0

theorem IsSingletonPass.isQuiet_iff {types : List Text} {entries : List (BranchEntry ρ)}
    (h : IsSingletonPass types entries result) :
    IsQuiet result ↔ OnlyNewestHaveText types entries :=
  ⟨fun hquiet => h.changed_eq_nil.1 hquiet.1,
    fun htext => ⟨h.changed_eq_nil.2 htext, h.saved_eq_zero (h.changed_eq_nil.2 htext)⟩⟩

theorem isQuiet_pruneStaleFileMentions {resolveAbs : Text → Text} {entries : List (BranchEntry ρ)}
    (h : NoStaleMention resolveAbs entries) :
    IsQuiet (pruneStaleFileMentions resolveAbs entries) := by
  have hchanged := (pruneStaleFileMentions_changed_eq_nil resolveAbs).2 h
  exact ⟨hchanged, rewriteLoop_saved_of_changed_nil hchanged⟩

def KeepsNewestMessages (entries after : List (BranchEntry ρ)) : Prop :=
  ∀ i id customType content, entries[i]? = some (.customMessage id customType content) →
    (∀ j, i < j → ¬HasTypeAt entries customType j) →
    after[i]? = some (.customMessage id customType content)

variable (resolveAbs : Text → Text)

def KeepsNewestMentions (entries after : List (BranchEntry ρ)) : Prop :=
  ∀ i j file, MentionsAt entries i j file →
    ¬KeyAfter (shownPaths resolveAbs) entries (resolveAbs file.path) i → MentionsAt after i j file

theorem IsSingletonPass.keepsNewestMessages {types : List Text} {entries : List (BranchEntry ρ)}
    (h : IsSingletonPass types entries result) :
    KeepsNewestMessages entries result.list := by
  intro i id customType content hentry hnewest
  rcases h.getElem?_cases i with heq | ⟨id', customType', content', hentry', ⟨-, j, hlt, hj⟩, -⟩
  · rw [heq, hentry]
  · rw [hentry] at hentry'
    cases hentry'
    exact absurd hj (hnewest j hlt)

theorem keepsNewestMessages_pruneStaleFileMentions (entries : List (BranchEntry ρ)) :
    KeepsNewestMessages entries (pruneStaleFileMentions resolveAbs entries).list := by
  intro i id customType content hentry _
  rw [getElem?_pruneStaleFileMentions, hentry]
  rfl

theorem KeepsNewestMessages.trans {entries between after : List (BranchEntry ρ)}
    (h : KeepsNewestMessages entries between)
    (houtline : between.map singletonOutline = entries.map singletonOutline)
    (h' : KeepsNewestMessages between after) : KeepsNewestMessages entries after := by
  intro i id customType content hentry hnewest
  refine h' i id customType content (h i id customType content hentry hnewest) fun j hlt hj =>
    hnewest j hlt ?_
  exact (hasTypeAt_congr houtline customType j).1 hj

theorem keepsNewestMentions_pruneStaleFileMentions (entries : List (BranchEntry ρ)) :
    KeepsNewestMentions resolveAbs entries (pruneStaleFileMentions resolveAbs entries).list := by
  intro i j file hmention hlast
  exact (mentionsAt_pruneStaleFileMentions resolveAbs).2
    ⟨file, hmention, .inr ⟨fun hstale => hlast hstale.2.2, rfl⟩⟩

theorem MentionsAt.of_outline {entries entries' : List (BranchEntry ρ)} {i j : Nat}
    {file : MentionedFile} (hmention : MentionsAt entries i j file)
    (h : entries'.map viewOutline = entries.map viewOutline) : MentionsAt entries' i j file := by
  rw [mentionsAt_iff_outline, h]
  exact mentionsAt_iff_outline.1 hmention

/-- A second run of each pass, and of the three one after the other, finds nothing to do, and
nothing of the newest of a kind is altered. -/
structure IsIdempotent (resolveAbs : Text → Text) (entries : List (BranchEntry ρ)) : Prop where
  volatileContext : IsQuiet (pruneSupersededVolatileProjectContext
    (pruneSupersededVolatileProjectContext entries).list)
  reminders : IsQuiet (pruneSupersededMaintenanceReminders
    (pruneSupersededMaintenanceReminders entries).list)
  fileMentions :
    IsQuiet (pruneStaleFileMentions resolveAbs (pruneStaleFileMentions resolveAbs entries).list)
  sequence : IsQuiet
    (maintenanceRun resolveAbs (maintenanceRun resolveAbs entries).reminders.list).fileMentions ∧
    IsQuiet (maintenanceRun resolveAbs
      (maintenanceRun resolveAbs entries).reminders.list).volatileContext ∧
    IsQuiet (maintenanceRun resolveAbs (maintenanceRun resolveAbs entries).reminders.list).reminders
  newest : ∀ after ∈ [(pruneSupersededVolatileProjectContext entries).list,
      (pruneSupersededMaintenanceReminders entries).list,
        (pruneStaleFileMentions resolveAbs entries).list,
      (maintenanceRun resolveAbs entries).reminders.list],
    KeepsNewestMessages entries after ∧ KeepsNewestMentions resolveAbs entries after

theorem keepsNewest (entries : List (BranchEntry ρ)) :
    ∀ after ∈ [(pruneSupersededVolatileProjectContext entries).list,
      (pruneSupersededMaintenanceReminders entries).list,
        (pruneStaleFileMentions resolveAbs entries).list,
      (maintenanceRun resolveAbs entries).reminders.list],
    KeepsNewestMessages entries after ∧ KeepsNewestMentions resolveAbs entries after := by
  have hvolatile := isSingletonPass_volatile (pruneStaleFileMentions resolveAbs entries).list
  have hreminders :=
    isSingletonPass_reminders (maintenanceRun resolveAbs entries).volatileContext.list
  have hmentions := map_singletonOutline_pruneStaleFileMentions resolveAbs entries
  intro after hafter
  simp only [mem_cons, not_mem_nil, or_false] at hafter
  rcases hafter with rfl | rfl | rfl | rfl
  · have hpass := isSingletonPass_volatile entries
    exact ⟨hpass.keepsNewestMessages, fun _ _ _ hmention _ =>
      hmention.of_outline hpass.map_viewOutline⟩
  · have hpass := isSingletonPass_reminders entries
    exact ⟨hpass.keepsNewestMessages, fun _ _ _ hmention _ =>
      hmention.of_outline hpass.map_viewOutline⟩
  · exact ⟨keepsNewestMessages_pruneStaleFileMentions resolveAbs entries,
      keepsNewestMentions_pruneStaleFileMentions resolveAbs entries⟩
  · constructor
    · have hfirst := (keepsNewestMessages_pruneStaleFileMentions resolveAbs entries).trans hmentions
        hvolatile.keepsNewestMessages
      exact hfirst.trans (hvolatile.map_singletonOutline.trans hmentions)
        hreminders.keepsNewestMessages
    · intro i j file hmention hlast
      have hpruned :=
    keepsNewestMentions_pruneStaleFileMentions resolveAbs entries i j file hmention hlast
      exact (hpruned.of_outline hvolatile.map_viewOutline).of_outline hreminders.map_viewOutline

/-- The passes are idempotent exactly if of each singleton kind only the newest message has a text.
The pass over file mentions always is, and the newest of each kind is never altered. -/
theorem maintenance_isIdempotent_iff (resolveAbs : Text → Text) (entries : List (BranchEntry ρ)) :
    IsIdempotent resolveAbs entries ↔
      OnlyNewestHaveText (VOLATILE_PROJECT_CONTEXT :: SUPERSEDED_SINGLETON_REMINDER_TYPES)
        entries := by
  have hsplit : OnlyNewestHaveText (VOLATILE_PROJECT_CONTEXT :: SUPERSEDED_SINGLETON_REMINDER_TYPES)
      entries ↔ OnlyNewestHaveText [VOLATILE_PROJECT_CONTEXT] entries ∧
        OnlyNewestHaveText SUPERSEDED_SINGLETON_REMINDER_TYPES entries := by
    constructor
    · intro h
      refine ⟨fun i id customType content hentry htype => h i id customType content hentry ?_,
        fun i id customType content hentry htype => h i id customType content hentry ?_⟩
      · exact mem_cons.2 (.inl (mem_singleton.1 htype))
      · exact mem_cons_of_mem _ htype
    · rintro ⟨hvolatile, hreminders⟩ i id customType content hentry htype
      rcases mem_cons.1 htype with rfl | htype
      · exact hvolatile i id _ content hentry (mem_singleton_self _)
      · exact hreminders i id customType content hentry htype
  have hvolatile : IsQuiet (pruneSupersededVolatileProjectContext
      (pruneSupersededVolatileProjectContext entries).list) ↔
      OnlyNewestHaveText [VOLATILE_PROJECT_CONTEXT] entries := by
    rw [(isSingletonPass_volatile _).isQuiet_iff]
    exact onlyNewestHaveText_congr (isSingletonPass_volatile entries).map_singletonOutline
  have hreminders : IsQuiet (pruneSupersededMaintenanceReminders
      (pruneSupersededMaintenanceReminders entries).list) ↔
      OnlyNewestHaveText SUPERSEDED_SINGLETON_REMINDER_TYPES entries := by
    rw [(isSingletonPass_reminders _).isQuiet_iff]
    exact onlyNewestHaveText_congr (isSingletonPass_reminders entries).map_singletonOutline
  rw [hsplit]
  constructor
  · intro h
    exact ⟨hvolatile.1 h.volatileContext, hreminders.1 h.reminders⟩
  · rintro ⟨hfirst, hsecond⟩
    -- What the run leaves has the types and the empty texts of the entries, and the views that the
    -- first pass left.
    have houtline : ∀ l : List (BranchEntry ρ),
        (maintenanceRun resolveAbs l).reminders.list.map singletonOutline =
          l.map singletonOutline := by
      intro l
      exact ((isSingletonPass_reminders _).map_singletonOutline.trans
        (isSingletonPass_volatile _).map_singletonOutline).trans
        (map_singletonOutline_pruneStaleFileMentions resolveAbs l)
    have hviews : (maintenanceRun resolveAbs entries).reminders.list.map viewOutline =
        (pruneStaleFileMentions resolveAbs entries).list.map viewOutline :=
      (isSingletonPass_reminders _).map_viewOutline.trans
        (isSingletonPass_volatile _).map_viewOutline
    refine ⟨hvolatile.2 hfirst, hreminders.2 hsecond, ?_, ⟨?_, ?_, ?_⟩,
      keepsNewest resolveAbs entries⟩
    · exact isQuiet_pruneStaleFileMentions
        (noStaleMention_pruneStaleFileMentions resolveAbs entries)
    · apply isQuiet_pruneStaleFileMentions
      rw [noStaleMention_congr resolveAbs hviews]
      exact noStaleMention_pruneStaleFileMentions resolveAbs entries
    · apply (isSingletonPass_volatile _).isQuiet_iff.2
      rw [onlyNewestHaveText_congr (map_singletonOutline_pruneStaleFileMentions resolveAbs _),
        onlyNewestHaveText_congr (houtline entries)]
      exact hfirst
    · apply (isSingletonPass_reminders _).isQuiet_iff.2
      rw [onlyNewestHaveText_congr (isSingletonPass_volatile _).map_singletonOutline,
        onlyNewestHaveText_congr (map_singletonOutline_pruneStaleFileMentions resolveAbs _),
        onlyNewestHaveText_congr (houtline entries)]
      exact hsecond

end

def twoContexts : List (BranchEntry Unit) :=
  [.customMessage ['1'] VOLATILE_PROJECT_CONTEXT (.text "old tree".toList),
    .customMessage ['2'] VOLATILE_PROJECT_CONTEXT (.text "new tree".toList)]

/-- The second run reports the first copy as changed again, with the bytes of the notice. -/
theorem twoContexts_not_isIdempotent : ¬IsIdempotent id twoContexts := by
  intro h
  have hquiet : (pruneSupersededVolatileProjectContext
      (pruneSupersededVolatileProjectContext twoContexts).list).saved = 0 := h.volatileContext.2
  have hsaved : (pruneSupersededVolatileProjectContext
      (pruneSupersededVolatileProjectContext twoContexts).list).saved = 36 := by decide +kernel
  omega

end Vibrato.Pruning
