import Vibrato.Edit.PatchHunks

namespace Vibrato.Edit

open Vibrato.Lib List Text SequenceSearchResult Option

def lastWindow (lines pattern : List Text) : Nat := lines.length - pattern.length

theorem collectIndexedMatches_matchCount_le (start stop : Nat) (predicate : Nat → Bool) :
    (collectIndexedMatches start stop predicate).matchCount ≤ stop - start := by
  have hfold : ∀ (indices : List Nat) (m : IndexedMatches),
      (indices.foldl (fun m index => if predicate index then m.add index else m) m).matchCount ≤
        m.matchCount + indices.length := by
    intro indices
    induction indices with
    | nil => intro m; exact Nat.le_refl _
    | cons index indices ih =>
      intro m
      have hrest := ih (if predicate index then m.add index else m)
      have hstep : (if predicate index then m.add index else m).matchCount ≤ m.matchCount + 1 := by
        split
        · exact Nat.le_refl _
        · exact Nat.le_succ _
      rw [foldl_cons, length_cons]
      omega
  have h := hfold (indicesFrom start stop) .empty
  rw [indicesFrom, length_range'] at h
  have hzero : IndexedMatches.empty.matchCount = 0 := rfl
  rw [collectIndexedMatches, indicesFrom]
  omega

section Named

theorem of_foldl {α β : Type} {f : α → β → α} {P : α → Prop} {Q : β → Prop}
    (hstep : ∀ a b, P (f a b) → P a ∨ Q b) {bs : List β} {a : α} (h : P (bs.foldl f a)) :
    P a ∨ ∃ b ∈ bs, Q b := by
  induction bs generalizing a with
  | nil => exact .inl h
  | cons b bs ih =>
    rcases ih h with hfirst | ⟨b', hb', hlater⟩
    · exact (hstep a b hfirst).imp_right fun hb => ⟨b, mem_cons_self, hb⟩
    · exact .inr ⟨b', mem_cons_of_mem _ hb', hlater⟩

def IndexedMatches.named (m : IndexedMatches) : List Nat := m.firstMatch.toList ++ m.matchIndices

theorem IndexedMatches.named_add {m : IndexedMatches} {index i : Nat}
    (h : i ∈ (m.add index).named) :
    i ∈ m.named ∨ i = index := by
  unfold named add at h
  rcases mem_append.1 h with h | h
  · cases hfirst : m.firstMatch with
    | none =>
      rw [hfirst] at h
      exact .inr (by simpa using h)
    | some first =>
      rw [hfirst] at h
      exact .inl (mem_append_left _ (by rw [hfirst]; exact h))
  · split at h
    · rcases mem_append.1 h with h | h
      · exact .inl (mem_append_right _ h)
      · exact .inr (mem_singleton.1 h)
    · exact .inl (mem_append_right _ h)

theorem named_collectIndexedMatches {start stop i : Nat} {predicate : Nat → Bool}
    (h : i ∈ (collectIndexedMatches start stop predicate).named) : i ∈ indicesFrom start stop := by
  have hstep : ∀ (m : IndexedMatches) (index : Nat),
      i ∈ (if predicate index then m.add index else m).named → i ∈ m.named ∨ i = index := by
    intro m index hi
    split at hi
    · exact IndexedMatches.named_add hi
    · exact .inl hi
  obtain ⟨index, hindex, rfl⟩ :=
    (of_foldl (P := fun m : IndexedMatches => i ∈ m.named) hstep h).resolve_left not_mem_nil
  exact hindex

variable {R : Type}

/-- The windows that a search names. -/
def SequenceSearchResult.named (result : SequenceSearchResult R) : List Nat :=
  result.index.toList ++ result.matchIndices.getD []

def SequenceFuzzyResult.named (scored : SequenceFuzzyResult R) : List Nat :=
  scored.index.toList ++ scored.matchIndices

variable [Score R]

/-- The native scan names windows that it has scored. -/
def MatchRuntime.ScansWindows (runtime : MatchRuntime R) : Prop :=
  ∀ f ∈ runtime.scoreSequenceFuzzyNative, ∀ lines pattern start eof,
    ∀ i ∈ (f lines pattern start eof).named, i ∈ scannedWindows lines pattern start eof

theorem named_scoreSequenceFuzzy {lines pattern : List Text} {start i : Nat} {eof : Bool}
    (h : i ∈ (scoreSequenceFuzzy lines pattern start eof : SequenceFuzzyResult R).named) :
    i ∈ scannedWindows lines pattern start eof := by
  have hstep : ∀ (scan : FuzzyScan R) (index : Nat) (score : R),
      i ∈ (scan.addScore index score).bestIndex.toList ++
        (scan.addScore index score).fuzzyMatches.matchIndices →
        i ∈ scan.bestIndex.toList ++ scan.fuzzyMatches.matchIndices ∨ i = index := by
    intro scan index score hi
    have hmatches : i ∈ (if score ≥ SEQUENCE_FUZZY_THRESHOLD then scan.fuzzyMatches.add index
        else scan.fuzzyMatches).matchIndices → i ∈ scan.fuzzyMatches.matchIndices ∨ i = index := by
      intro hi
      split at hi
      · unfold IndexedMatches.add at hi
        dsimp only at hi
        split at hi
        · exact (mem_append.1 hi).imp_right mem_singleton.1
        · exact .inl hi
      · exact .inl hi
    unfold FuzzyScan.addScore at hi
    dsimp only at hi
    split at hi
    · rcases mem_append.1 hi with hi | hi
      · exact .inr (by simpa using hi)
      · exact (hmatches hi).imp_left (mem_append_right _)
    · have hold : i ∈ scan.bestIndex.toList ++
          (if score ≥ SEQUENCE_FUZZY_THRESHOLD then scan.fuzzyMatches.add index
          else scan.fuzzyMatches).matchIndices := by
        split at hi
        · exact hi
        · exact hi
      rcases mem_append.1 hold with hi | hi
      · exact .inl (mem_append_left _ hi)
      · exact (hmatches hi).imp_left (mem_append_right _)
  obtain ⟨index, hindex, rfl⟩ := (of_foldl (P := fun scan : FuzzyScan R =>
    i ∈ scan.bestIndex.toList ++ scan.fuzzyMatches.matchIndices)
    (fun scan index hi => hstep scan index _ hi) h).resolve_left not_mem_nil
  exact hindex

theorem SequenceFuzzyResult.of_toResult {scored : SequenceFuzzyResult R}
    {result : SequenceSearchResult R} (h : scored.toResult = some result) :
    result.named = scored.named ∧ result.index.isSome = true := by
  unfold toResult at h
  split at h
  · next hgood =>
    split at h
    · cases h
      exact ⟨rfl, hgood.1⟩
    · cases h
      exact ⟨rfl, hgood.1⟩
  · cases h

end Named

section Seek

variable {R : Type} [Score R] {runtime : MatchRuntime R} {lines pattern : List Text} {start k : Nat}
  {eof allowFuzzy : Bool}

def AcceptsLast (runtime : MatchRuntime R) (lines pattern : List Text) (eof allowFuzzy : Bool) :
    Prop :=
  eof = true ∧ (runExactPasses runtime.nfc allowFuzzy lines pattern (lastWindow lines pattern)
    (lastWindow lines pattern + 1) : Option (SequenceSearchResult R)).isSome = true

variable {nfc : Text → Text} {result : SequenceSearchResult R}

theorem runExactPasses_index {stop : Nat}
    (h : runExactPasses nfc allowFuzzy lines pattern start stop = some result) :
    ∃ i ∈ indicesFrom start stop, result.index = some i := by
  rw [runExactPasses, orElse_eq_orElse, orElse_eq_or, or_eq_some_iff] at h
  rcases h with h | ⟨-, h⟩
  · obtain ⟨-, -, i, hindex, hi, -⟩ := runPasses_eq_some toSingleMatchResult_index h
    exact ⟨i, hi, hindex⟩
  · split at h
    · obtain ⟨-, -, i, hindex, hi, -⟩ := runPasses_eq_some toAmbiguousMatchResult_index h
      exact ⟨i, hi, hindex⟩
    · cases h

theorem runExactPasses_named {stop i : Nat}
    (h : runExactPasses nfc allowFuzzy lines pattern start stop = some result)
    (hi : i ∈ result.named) : i ∈ indicesFrom start stop := by
  have hpass :
      ∀ (passes : List (ComparisonPass R)) (toResult : IndexedMatches → R → SequenceMatchStrategy →
      Option (SequenceSearchResult R)),
        (∀ m confidence strategy result, toResult m confidence strategy = some result →
        ∀ i ∈ result.named, i ∈ m.named) →
      Edit.runPasses passes toResult lines pattern start stop = some result →
        i ∈ indicesFrom start stop := by
    intro passes toResult hnamed hrun
    obtain ⟨pass, -, hresult⟩ := exists_of_findSome?_eq_some hrun
    exact named_collectIndexedMatches (hnamed _ _ _ _ hresult i hi)
  rw [runExactPasses, orElse_eq_orElse, orElse_eq_or, or_eq_some_iff] at h
  rcases h with h | ⟨-, h⟩
  · refine hpass _ _ (fun m confidence strategy result hresult i hi => ?_) h
    obtain ⟨first, hfirst, rfl⟩ := map_eq_some_iff.1 hresult
    rw [SequenceSearchResult.named, getD_none, append_nil] at hi
    rw [IndexedMatches.named, hfirst]
    exact mem_append_left _ hi
  · split at h
    · refine hpass _ _ (fun m confidence strategy result hresult i hi => ?_) h
      obtain ⟨first, hfirst, rfl⟩ := map_eq_some_iff.1 hresult
      rw [IndexedMatches.named, hfirst]
      exact hi
    · cases h

theorem runExactPasses_window (h : runExactPasses nfc allowFuzzy lines pattern start (start + 1) =
    some result) :
    result.index = some start ∧ result.isAmbiguous = false := by
  obtain ⟨i, hi, hindex⟩ := runExactPasses_index h
  rw [mem_indicesFrom] at hi
  have hi' : i = start := by omega
  refine ⟨by rw [hindex, hi'], ?_⟩
  rw [runExactPasses, orElse_eq_orElse, orElse_eq_or, or_eq_some_iff] at h
  rcases h with h | ⟨-, h⟩
  · obtain ⟨pass, -, hresult⟩ := exists_of_findSome?_eq_some h
    obtain ⟨first, -, rfl⟩ := map_eq_some_iff.1 hresult
    rfl
  · split at h
    · obtain ⟨pass, -, hresult⟩ := exists_of_findSome?_eq_some h
      obtain ⟨first, -, rfl⟩ := map_eq_some_iff.1 hresult
      have hle := collectIndexedMatches_matchCount_le start (start + 1)
        fun i => matchesAt lines pattern i pass.compare
      exact decide_eq_false (by simp only [getD_some]; omega)
    · cases h

theorem seekSequence_of_exact (hne : pattern ≠ []) (hlen : pattern.length ≤ lines.length)
    (h : seekExact runtime lines pattern start eof allowFuzzy = some result) :
    seekSequence runtime lines pattern start eof allowFuzzy = result := by
  unfold seekSequence
  rw [if_neg fun hzero => hne (length_eq_zero_iff.1 hzero), if_neg (Nat.not_lt.2 hlen), h]

theorem AcceptsLast.seekSequence (h : AcceptsLast runtime lines pattern eof allowFuzzy)
    (hne : pattern ≠ [])
    (hlen : pattern.length ≤ lines.length) (start : Nat) :
    (Edit.seekSequence runtime lines pattern start eof allowFuzzy).index =
      some (lastWindow lines pattern) ∧
      (Edit.seekSequence runtime lines pattern start eof allowFuzzy).isUnique = true := by
  obtain ⟨rfl, hsome⟩ := h
  obtain ⟨result, hresult⟩ := isSome_iff_exists.1 hsome
  have hexact : seekExact runtime lines pattern start true allowFuzzy = some result := by
    show (runExactPasses runtime.nfc allowFuzzy lines pattern (lastWindow lines pattern)
      (lastWindow lines pattern + 1) <|> _) = some result
    rw [hresult]
    rfl
  obtain ⟨hindex, hambiguous⟩ := runExactPasses_window hresult
  rw [seekSequence_of_exact hne hlen hexact]
  exact ⟨hindex, isUnique_iff.2 ⟨by rw [hindex]; rfl, hambiguous⟩⟩

theorem seekSequence_first (hne : pattern ≠ []) (hk : OccursAt pattern lines k)
    (hlast : ¬AcceptsLast runtime lines pattern eof allowFuzzy) (hstart : start ≤ k)
    (hfirst : ∀ j, start ≤ j → j < k → ¬OccursAt pattern lines j) :
    seekSequence runtime lines pattern start eof allowFuzzy = exactResult R k := by
  have hle := hk.add_le hne
  cases eof with
  | false => exact seekSequence_of_occursAt runtime hne hk hstart hfirst allowFuzzy
  | true =>
    have hnone : (runExactPasses runtime.nfc allowFuzzy lines pattern (lastWindow lines pattern)
        (lastWindow lines pattern + 1) : Option (SequenceSearchResult R)) = none := by
      cases hrun : (runExactPasses runtime.nfc allowFuzzy lines pattern (lastWindow lines pattern)
          (lastWindow lines pattern + 1) : Option (SequenceSearchResult R)) with
      | none => rfl
      | some result => exact absurd ⟨rfl, by rw [hrun]; rfl⟩ hlast
    have hne' : k ≠ lastWindow lines pattern := by
      rintro rfl
      have hlastRun := runExactPasses_of_occursAt (R := R) runtime.nfc hne hk (Nat.le_refl _)
        (Nat.lt_succ_self _) (fun j hj hjk => absurd hj (by omega)) allowFuzzy
      rw [hlastRun] at hnone
      cases hnone
    have hk' : k < lastWindow lines pattern := by
      unfold lastWindow at hne' ⊢
      omega
    refine seekSequence_of_exact hne (by omega) ?_
    show (runExactPasses runtime.nfc allowFuzzy lines pattern (lastWindow lines pattern)
      (lastWindow lines pattern + 1) <|> _) = some (exactResult R k)
    rw [hnone, if_pos ⟨rfl, show start <
      lines.length - pattern.length from by unfold lastWindow at hk'; omega⟩,
      runExactPasses_of_occursAt _ hne hk hstart (by unfold lastWindow at hk'; omega) hfirst]
    rfl

theorem seekSequence_last (hne : pattern ≠ [])
    (hk : OccursAt pattern lines (lastWindow lines pattern))
    (start : Nat) : seekSequence runtime lines pattern start true allowFuzzy =
      exactResult R (lastWindow lines pattern) := by
  have hle := hk.add_le hne
  refine seekSequence_of_exact hne (by omega) ?_
  unfold seekExact
  dsimp only [searchStart]
  rw [if_pos rfl, ← lastWindow, runExactPasses_of_occursAt _ hne hk (Nat.le_refl _)
    (Nat.lt_succ_self _) fun j hj hjk => absurd hj (by omega)]
  rfl

/-- There is no answer, or it is that of a pass, of the scores or of the characters. -/
theorem seekSequence_origin (hne : pattern ≠ [])
    (h : seekSequence runtime lines pattern start eof allowFuzzy = result) :
    result.named = [] ∧ result.isAmbiguous = false ∨
    (∃ first stop, runExactPasses runtime.nfc allowFuzzy lines pattern first stop = some result ∧
      (start ≤ first ∨ eof = true ∧ first = lastWindow lines pattern ∧ stop = first + 1)) ∨
    (pattern.length ≤ lines.length ∧ ∃ scored : SequenceFuzzyResult R,
      scored.toResult = some result ∧
      (scored = scoreSequenceFuzzy lines pattern start eof ∨
        ∃ f ∈ runtime.scoreSequenceFuzzyNative, scored = f lines pattern start eof)) ∨
    ∃ bestScore, result =
      characterResult runtime.findBestFuzzyMatchNative lines pattern start bestScore := by
  unfold seekSequence at h
  rw [if_neg fun hzero => hne (length_eq_zero_iff.1 hzero)] at h
  split at h
  · subst h
    exact .inl ⟨rfl, rfl⟩
  next hlen =>
  cases hexact : seekExact runtime lines pattern start eof allowFuzzy with
  | some found =>
    rw [hexact] at h
    obtain rfl : found = result := h
    right; left
    rw [seekExact, orElse_eq_orElse, orElse_eq_or, or_eq_some_iff] at hexact
    rcases hexact with hexact | ⟨-, hexact⟩
    · cases eof with
      | false => exact ⟨_, _, hexact, .inl (Nat.le_refl _)⟩
      | true => exact ⟨_, _, hexact, .inr ⟨rfl, rfl, rfl⟩⟩
    · split at hexact
      · exact ⟨_, _, hexact, .inl (Nat.le_refl _)⟩
      · cases hexact
  | none =>
    rw [hexact] at h
    dsimp only at h
    split at h
    · subst h
      exact .inl ⟨rfl, rfl⟩
    right; right
    cases hscored : ((runtime.scoreSequenceFuzzyNative.bind fun native =>
        (native lines pattern start eof).toResult) <|>
          (scoreSequenceFuzzy lines pattern start eof : SequenceFuzzyResult R).toResult) with
    | none =>
      rw [hscored, getD_none] at h
      exact .inr ⟨_, h.symm⟩
    | some found =>
      rw [hscored, getD_some] at h
      subst h
      refine .inl ⟨Nat.not_lt.1 hlen, ?_⟩
      rw [orElse_eq_orElse, orElse_eq_or, or_eq_some_iff] at hscored
      rcases hscored with hnative | ⟨-, hscored⟩
      · obtain ⟨f, hf, hresult⟩ := bind_eq_some_iff.1 hnative
        exact ⟨_, hresult, .inr ⟨f, hf, rfl⟩⟩
      · exact ⟨_, hscored, .inl rfl⟩

theorem seekSequence_named_bound (hscans : runtime.ScansWindows) (hne : pattern ≠ []) {i : Nat}
    (h : i ∈ (seekSequence runtime lines pattern start eof allowFuzzy).named) :
    start ≤ i ∨ eof = true ∧ i = lastWindow lines pattern := by
  have horigin := seekSequence_origin hne
    (rfl : seekSequence runtime lines pattern start eof allowFuzzy = _)
  rcases horigin with ⟨hnil, -⟩ | ⟨first, stop, hexact, hrange⟩ |
    ⟨hlen, scored, hresult, hscored⟩ | ⟨bestScore, hcharacters⟩
  · rw [hnil] at h
    cases h
  · have hi := mem_indicesFrom.1 (runExactPasses_named hexact h)
    rcases hrange with hstart | ⟨heof, hlast, hstop⟩
    · exact .inl (hstart.trans hi.1)
    · exact .inr ⟨heof, by omega⟩
  · rw [(SequenceFuzzyResult.of_toResult hresult).1] at h
    have hscanned : i ∈ scannedWindows lines pattern start eof := by
      rcases hscored with rfl | ⟨f, hf, rfl⟩
      · exact named_scoreSequenceFuzzy h
      · exact hscans f hf lines pattern start eof i h
    obtain ⟨-, hstart | ⟨heof, hlast⟩⟩ := (mem_scannedWindows hlen).1 hscanned
    · exact .inl hstart
    · refine .inr ⟨heof, ?_⟩
      unfold lastWindow
      omega
  · rw [hcharacters] at h
    unfold characterResult at h
    dsimp only at h
    split at h
    · next m _ =>
      have hi := lineNumberAt_eq (joinLines (lines.drop start)) m.startIndex
      have hnamed : i = start + lineNumberAt (joinLines (lines.drop start)) m.startIndex - 1 := by
        simpa [SequenceSearchResult.named] using h
      exact .inl (by omega)
    · exact absurd h not_mem_nil

theorem joinLines_ne_nil_of_ambiguous
    (hindex : (seekSequence runtime lines pattern start eof allowFuzzy).index = none)
    (hambiguous : (seekSequence runtime lines pattern start eof allowFuzzy).isAmbiguous = true) :
    joinLines pattern ≠ [] := by
  intro hnil
  have hne : pattern ≠ [] := by
    rintro rfl
    cases hindex
  have horigin := seekSequence_origin hne
    (rfl : seekSequence runtime lines pattern start eof allowFuzzy = _)
  rcases horigin with ⟨-, hsure⟩ | ⟨first, stop, hexact, -⟩ |
    ⟨-, scored, hresult, -⟩ | ⟨bestScore, hcharacters⟩
  · rw [hsure] at hambiguous
    cases hambiguous
  · obtain ⟨i, -, hi⟩ := runExactPasses_index hexact
    rw [hindex] at hi
    cases hi
  · have hsome := (SequenceFuzzyResult.of_toResult hresult).2
    rw [hindex] at hsome
    cases hsome
  · rw [hcharacters] at hambiguous
    unfold characterResult characterOutcome at hambiguous
    rw [hnil] at hambiguous
    cases hambiguous

end Seek

section Find

variable {R : Type} [Score R] {runtime : MatchRuntime R} {lines : List Text} {hunk : DiffHunk}
  {lineHint start : Nat} {allowFuzzy : Bool}

variable (runtime)

/-- The search from line `start` on comes to line `target` before it finds the lines anywhere else:
it is the last window and the end of the file is in view; or no other line of the file is taken for
that, and either the lines are not found on the way, or the search starts past the target, finds
nothing, and does not find them before the target from the top either. -/
def SearchReaches (lines : List Text) (allowFuzzy : Bool) (hunk : DiffHunk) (start target : Nat) :
    Prop :=
  hunk.isEndOfFile = true ∧ target = lastWindow lines hunk.oldLines ∨
  ¬AcceptsLast runtime lines hunk.oldLines hunk.isEndOfFile allowFuzzy ∧
    (start ≤ target ∧ (∀ j, start ≤ j → j < target → ¬OccursAt hunk.oldLines lines j) ∨
      target < start ∧ (∀ j < target, ¬OccursAt hunk.oldLines lines j) ∧
        (seekSequence runtime lines hunk.oldLines start hunk.isEndOfFile allowFuzzy).answers =
          false)

def findHunk (lines : List Text) (allowFuzzy : Bool) (hunk : DiffHunk) (start : Nat) :
    SequenceSearchResult R :=
  findSequenceWithHint runtime lines hunk.oldLines start
    (getHunkHintIndex hunk start) hunk.isEndOfFile
    allowFuzzy

/-- A hunk with a line number, whose lines are in the file at that line. -/
structure Hinted (lines : List Text) (hunk : DiffHunk) (lineHint : Nat) : Prop where
  hint : hunk.oldStartLine = some lineHint
  pos : 1 ≤ lineHint
  ne : hunk.oldLines ≠ []
  occurs : OccursAt hunk.oldLines lines (hintIndexOf lineHint)

variable {runtime}

theorem findHunk_of_past (hhint : hunk.oldStartLine = some lineHint)
    (hpast : hintIndexOf lineHint < start) :
    findHunk runtime lines allowFuzzy hunk start =
      if (seekSequence runtime lines hunk.oldLines start hunk.isEndOfFile allowFuzzy).answers then
        seekSequence runtime lines hunk.oldLines start hunk.isEndOfFile allowFuzzy
      else if (seekSequence runtime lines hunk.oldLines 0 hunk.isEndOfFile allowFuzzy).answers then
        seekSequence runtime lines hunk.oldLines 0 hunk.isEndOfFile allowFuzzy
      else seekSequence runtime lines hunk.oldLines start hunk.isEndOfFile allowFuzzy := by
  have hnone : getHunkHintIndex hunk start = none := by
    rw [getHunkHintIndex, hhint]
    exact if_neg (Nat.not_le.2 hpast)
  have hpos : start ≠ 0 := by omega
  unfold findHunk findSequenceWithHint
  rw [hnone]
  dsimp only [Option.filter, Option.bind]
  split
  · rfl
  · split
    · next hanswers =>
      rw [if_pos hanswers.2]
      rfl
    · next hanswers =>
      rw [if_neg fun h => hanswers ⟨hpos, h⟩]
      rfl

theorem SearchReaches.findHunk (hhinted : Hinted lines hunk lineHint)
    (h : SearchReaches runtime lines allowFuzzy hunk start (hintIndexOf lineHint)) :
    Edit.findHunk runtime lines allowFuzzy hunk start = exactResult R (hintIndexOf lineHint) := by
  have hunique :
      ∀ hseek : seekSequence runtime lines hunk.oldLines start hunk.isEndOfFile allowFuzzy =
      exactResult R (hintIndexOf lineHint),
      Edit.findHunk runtime lines allowFuzzy hunk start = exactResult R (hintIndexOf lineHint) := by
    intro hseek
    rw [Edit.findHunk, findSequenceWithHint_of_unique (by rw [hseek]; exact isUnique_exactResult _),
      hseek]
  rcases h with ⟨heof, hlast⟩ | ⟨hlast, ⟨hle, hfirst⟩ | ⟨hpast, hfirst, hanswers⟩⟩
  · apply hunique
    rw [heof, hlast]
    exact seekSequence_last hhinted.ne (hlast ▸ hhinted.occurs) start
  · exact hunique (seekSequence_first hhinted.ne hhinted.occurs hlast hle hfirst)
  · rw [findHunk_of_past hhinted.hint hpast, hanswers,
      seekSequence_first hhinted.ne hhinted.occurs hlast (Nat.zero_le _) fun j _ hj => hfirst j hj]
    rfl

theorem exists_seekSequence_first (hne : hunk.oldLines ≠ []) {target : Nat}
    (hoccurs : OccursAt hunk.oldLines lines target)
    (hlast : ¬AcceptsLast runtime lines hunk.oldLines hunk.isEndOfFile allowFuzzy)
    (hstart : start ≤ target) :
    ∃ k, seekSequence runtime lines hunk.oldLines start hunk.isEndOfFile allowFuzzy =
      exactResult R k ∧
      ∀ j, start ≤ j → j < k → ¬OccursAt hunk.oldLines lines j := by
  classical
  have hex : ∃ k, start ≤ k ∧ OccursAt hunk.oldLines lines k := ⟨_, hstart, hoccurs⟩
  obtain ⟨hle, hfound⟩ := Nat.find_spec hex
  have hmin : ∀ j, start ≤ j → j < Nat.find hex → ¬OccursAt hunk.oldLines lines j :=
    fun j hj hlt hocc => Nat.find_min hex hlt ⟨hj, hocc⟩
  exact ⟨Nat.find hex, seekSequence_first hne hfound hlast hle hmin, hmin⟩

theorem searchReaches_of_findHunk (hscans : runtime.ScansWindows)
    (hhinted : Hinted lines hunk lineHint)
    (h : (findHunk runtime lines allowFuzzy hunk start).index = some (hintIndexOf lineHint)) :
    SearchReaches runtime lines allowFuzzy hunk start (hintIndexOf lineHint) := by
  have hne := hhinted.ne
  have hle := hhinted.occurs.add_le hne
  by_cases hlast : AcceptsLast runtime lines hunk.oldLines hunk.isEndOfFile allowFuzzy
  · obtain ⟨hindex, hunique⟩ := hlast.seekSequence hne (by omega) start
    rw [findHunk, findSequenceWithHint_of_unique hunique, hindex] at h
    exact .inl ⟨hlast.1, (some.inj h).symm⟩
  by_cases hpast : hintIndexOf lineHint < start
  · rw [findHunk_of_past hhinted.hint hpast] at h
    split at h
    · have hnamed : hintIndexOf lineHint ∈
          (seekSequence runtime lines hunk.oldLines start hunk.isEndOfFile allowFuzzy).named := by
        rw [SequenceSearchResult.named, h]
        exact mem_cons_self
      rcases seekSequence_named_bound hscans hne hnamed with hstart | hend
      · omega
      · exact .inl hend
    · next hanswers =>
      obtain ⟨k, hzero, hmin⟩ := exists_seekSequence_first hne hhinted.occurs hlast (Nat.zero_le _)
      have hanswers0 : (seekSequence runtime lines hunk.oldLines 0 hunk.isEndOfFile
          allowFuzzy).answers = true := by
        rw [hzero]
        rfl
      rw [hzero] at h
      have hk' : k = hintIndexOf lineHint := some.inj h
      rw [hk'] at hmin
      exact .inr ⟨hlast, .inr ⟨hpast, fun j hj => hmin j (Nat.zero_le _) hj,
        Bool.eq_false_of_not_eq_true hanswers⟩⟩
  · obtain ⟨k, hfound, hmin⟩ := exists_seekSequence_first hne hhinted.occurs hlast (Nat.not_lt.1 hpast)
    rw [findHunk, findSequenceWithHint_of_unique (by rw [hfound]; exact isUnique_exactResult _),
      hfound] at h
    have hk' : k = hintIndexOf lineHint := some.inj h
    rw [hk'] at hmin
    exact .inr ⟨hlast, .inl ⟨Nat.not_lt.1 hpast, hmin⟩⟩

theorem acceptsLast_of_occursAt (hne : hunk.oldLines ≠ [])
    (hoccurs : OccursAt hunk.oldLines lines (lastWindow lines hunk.oldLines))
    (heof : hunk.isEndOfFile = true) :
    AcceptsLast runtime lines hunk.oldLines hunk.isEndOfFile allowFuzzy := by
  refine ⟨heof, ?_⟩
  rw [runExactPasses_of_occursAt _ hne hoccurs (Nat.le_refl _) (Nat.lt_succ_self _)
    fun j hj hjk => absurd hj (by omega)]
  rfl

theorem findHunk_unique_or_past (runtime : MatchRuntime R) (allowFuzzy : Bool) (start : Nat)
    (hhinted : Hinted lines hunk lineHint) :
    (findHunk runtime lines allowFuzzy hunk start).isUnique = true ∨
    (findHunk runtime lines allowFuzzy hunk start).isAmbiguous = true ∧
      hintIndexOf lineHint < start ∧
      (hunk.isEndOfFile = true → hintIndexOf lineHint ≠ lastWindow lines hunk.oldLines) ∧
      findHunk runtime lines allowFuzzy hunk start =
        seekSequence runtime lines hunk.oldLines start hunk.isEndOfFile allowFuzzy := by
  have hne := hhinted.ne
  have hle := hhinted.occurs.add_le hne
  have hunique : (seekSequence runtime lines hunk.oldLines start hunk.isEndOfFile
      allowFuzzy).isUnique = true →
      (findHunk runtime lines allowFuzzy hunk start).isUnique = true := by
    intro h
    rw [findHunk, findSequenceWithHint_of_unique h]
    exact h
  by_cases hlast : AcceptsLast runtime lines hunk.oldLines hunk.isEndOfFile allowFuzzy
  · exact .inl (hunique (hlast.seekSequence hne (by omega) start).2)
  by_cases hpast : hintIndexOf lineHint < start
  · have hend : hunk.isEndOfFile = true → hintIndexOf lineHint ≠ lastWindow lines hunk.oldLines :=
      fun heof hsame => hlast (acceptsLast_of_occursAt hne (hsame ▸ hhinted.occurs) heof)
    rw [findHunk_of_past hhinted.hint hpast]
    obtain ⟨k, hzero, -⟩ := exists_seekSequence_first hne hhinted.occurs hlast (Nat.zero_le _)
    split
    · next hanswers =>
      cases hambiguous : (seekSequence runtime lines hunk.oldLines start hunk.isEndOfFile
        allowFuzzy).isAmbiguous with
      | true => exact .inr ⟨rfl, hpast, hend, rfl⟩
      | false =>
        rw [answers, hambiguous, Bool.or_false] at hanswers
        exact .inl (isUnique_iff.2 ⟨hanswers, hambiguous⟩)
    · left
      rw [hzero]
      exact isUnique_exactResult k
  · obtain ⟨k, hfound, -⟩ := exists_seekSequence_first hne hhinted.occurs hlast (Nat.not_lt.1 hpast)
    refine .inl (hunique ?_)
    rw [hfound]
    exact isUnique_exactResult k

end Find

section Variants

theorem collapseRuns_sublist (shared : List Text) (previous : Option Text) (lines : List Text) :
    (collapseRuns shared previous lines).Sublist lines := by
  induction lines generalizing previous with
  | nil => exact Sublist.refl _
  | cons line lines ih =>
    rw [collapseRuns]
    split
    · exact (ih _).cons line
    · exact (ih _).cons_cons line

theorem collapseBlocks_sublist (shared : List Text) (steps : Nat) (lines : List Text) :
    (collapseBlocks shared steps lines).Sublist lines := by
  induction steps generalizing lines with
  | zero => exact Sublist.refl _
  | succ steps ih =>
    cases lines with
    | nil => exact Sublist.refl _
    | cons line lines =>
      rw [collapseBlocks]
      split
      · next size _ =>
        have hdrop : ((line :: lines).drop (2 * size)).Sublist ((line :: lines).drop size) := by
          rw [Nat.two_mul, ← drop_drop]
          exact drop_sublist _ _
        have hblock := (Sublist.refl ((line :: lines).take size)).append hdrop
        rw [take_append_drop] at hblock
        exact (ih _).trans hblock
      · exact (ih _).cons_cons line

theorem collapseBoth_sublist {collapse : List Text → List Text → List Text}
    (hcollapse : ∀ shared lines, (collapse shared lines).Sublist lines) {kind : HunkVariantKind}
    {oldLines newLines : List Text} {variant : HunkVariant}
    (h : collapseBoth collapse kind oldLines newLines = some variant) :
    variant.oldLines.Sublist oldLines := by
  unfold collapseBoth at h
  dsimp only at h
  split at h
  · cases h
  · cases h
    exact hcollapse _ _

theorem collapseConsecutiveSharedLines_sublist {oldLines newLines : List Text}
    {variant : HunkVariant}
    (h : collapseConsecutiveSharedLines oldLines newLines = some variant) :
    variant.oldLines.Sublist oldLines :=
  collapseBoth_sublist (fun shared lines => collapseRuns_sublist shared none lines) h

theorem collapseRepeatedBlocks_sublist {oldLines newLines : List Text} {variant : HunkVariant}
    (h : collapseRepeatedBlocks oldLines newLines = some variant) :
    variant.oldLines.Sublist oldLines :=
  collapseBoth_sublist (fun shared lines => collapseBlocks_sublist shared lines.length lines) h

theorem getD_sublist {base : HunkVariant} {chosen : Option HunkVariant} {oldLines : List Text}
    (hbase : base.oldLines.Sublist oldLines)
    (hchosen : ∀ variant, chosen = some variant → variant.oldLines.Sublist base.oldLines) :
    (chosen.getD base).oldLines.Sublist oldLines := by
  cases chosen with
  | none => exact hbase
  | some variant => exact (hchosen variant rfl).trans hbase

theorem trimCommonContext_sublist {oldLines newLines : List Text} {variant : HunkVariant}
    (h : trimCommonContext oldLines newLines = some variant) :
    variant.oldLines.Sublist oldLines := by
  unfold trimCommonContext at h
  dsimp only at h
  split at h
  · cases h
  · split at h
    · cases h
    · cases h
      exact (take_sublist _ _).trans (drop_sublist _ _)

theorem reduceToSingleLineChange_sublist {oldLines newLines : List Text} {variant : HunkVariant}
    (h : reduceToSingleLineChange oldLines newLines = some variant) :
    variant.oldLines.Sublist oldLines := by
  unfold reduceToSingleLineChange at h
  split at h
  · split at h
    · next oldLine newLine hchanged =>
      cases h
      have hmem := mem_cons_self (a := (oldLine, newLine)) (l := [])
      rw [← hchanged] at hmem
      exact singleton_sublist.2 (of_mem_zip (mem_filter.1 hmem).1).1
    · cases h
  · cases h

theorem mem_dedupeVariants {variant : HunkVariant} {seen : List Text} {variants : List HunkVariant}
    (h : variant ∈ dedupeVariants seen variants) : variant ∈ variants := by
  induction variants generalizing seen with
  | nil => exact h
  | cons first variants ih =>
    rw [dedupeVariants] at h
    split at h
    · exact mem_cons_of_mem _ (ih h)
    · rcases mem_cons.1 h with rfl | hlater
      · exact mem_cons_self
      · exact mem_cons_of_mem _ (ih hlater)

theorem sublist_of_mem_fallbackVariants {hunk : DiffHunk} {variant : HunkVariant}
    (h : variant ∈ fallbackVariants hunk) : variant.oldLines.Sublist hunk.oldLines := by
  have hmem : variant ∈ buildFallbackVariants hunk := by
    unfold fallbackVariants filterFallbackVariants at h
    split at h
    · exact h
    · exact (mem_filter.1 h).1
  replace hmem := mem_dedupeVariants hmem
  have htrimmed : ((trimCommonContext hunk.oldLines hunk.newLines).getD
      ⟨hunk.oldLines, hunk.newLines, .trimCommon⟩).oldLines.Sublist hunk.oldLines :=
    getD_sublist (Sublist.refl _) fun variant hvariant => trimCommonContext_sublist hvariant
  rcases mem_append.1 hmem with hmem | hmem
  · rcases mem_append.1 hmem with hmem | hmem
    · rcases mem_append.1 hmem with hmem | hmem
      · exact trimCommonContext_sublist (mem_toList.1 hmem)
      · exact (collapseConsecutiveSharedLines_sublist (mem_toList.1 hmem)).trans htrimmed
    · exact (collapseRepeatedBlocks_sublist (mem_toList.1 hmem)).trans
        (getD_sublist htrimmed fun variant hvariant =>
          collapseConsecutiveSharedLines_sublist hvariant)
  · exact (reduceToSingleLineChange_sublist (mem_toList.1 hmem)).trans htrimmed

theorem fallbackVariants_singleLine {hunk : DiffHunk} {oldLine newLine : Text}
    (hold : hunk.oldLines = [oldLine])
    (hnew : hunk.newLines = [newLine]) (hne : oldLine ≠ newLine)
    (hhint : hunk.oldStartLine.isSome = true) :
    fallbackVariants hunk = [⟨[oldLine], [newLine], .singleLine⟩] := by
  simp [fallbackVariants, fallbackVariants.allowAggressiveFallbacks, filterFallbackVariants, hhint,
    buildFallbackVariants, hold, hnew, trimCommonContext, commonLines, hne,
      collapseConsecutiveSharedLines, collapseBoth,
    collapseRuns, collapseRepeatedBlocks, collapseBlocks, repeatedBlock, reduceToSingleLineChange,
      dedupeVariants]

end Variants

/-- The line next to the context that is taken for a hunk of one line: if the line is found and
several lines read like it; or if its text only is, in several places, and one line replaces it. -/
def contextChoice (lines : List Text) (hunk : DiffHunk) (contextIndex : Option Nat) (found : Bool) :
    Option Nat :=
  match contextIndex, hunk.oldLines with
  | some contextIndex, [oldLine] =>
    if found = true ∧ 1 < lines.countP (fun line => trim line = trim oldLine) ∨
        found = false ∧ hunk.newLines.length = 1 then
      findContextRelativeMatch lines oldLine contextIndex
        (hunk.newLines.any fun line => trim line = trim oldLine)
    else none
  | _, _ => none

section Stages

variable {R : Type} {lines : List Text} {hunk : DiffHunk} {contextIndex : Option Nat}
  {find : List Text → SequenceSearchResult R} {search : HunkSearch R}

theorem preferContext_eq {result : SequenceSearchResult R} (h : result.index.isSome = true) :
    preferContext lines hunk contextIndex ⟨hunk.oldLines, hunk.newLines, result⟩ =
      match contextChoice lines hunk contextIndex true with
      | some index =>
          ⟨hunk.oldLines, hunk.newLines, { index := some index, confidence := result.confidence }⟩
      | none => ⟨hunk.oldLines, hunk.newLines, result⟩ := by
  obtain ⟨found, hfound⟩ := isSome_iff_exists.1 h
  unfold preferContext contextChoice
  rw [hfound]
  cases contextIndex with
  | none => rfl
  | some contextIndex =>
    cases hold : hunk.oldLines with
    | nil => rfl
    | cons oldLine rest =>
      cases rest with
      | nil =>
        simp only [true_and, Bool.true_eq_false, false_and, or_false]
        split
        · cases findContextRelativeMatch lines oldLine contextIndex
            (hunk.newLines.any fun line => trim line = trim oldLine) <;> rfl
        · rfl
      | cons next rest => rfl

theorem searchLines_cases (find : List Text → SequenceSearchResult R) (hunk : DiffHunk) :
    searchLines find hunk = ⟨hunk.oldLines, hunk.newLines, find hunk.oldLines⟩ ∨
      (find hunk.oldLines).index = none ∧ hunk.oldLines.getLast? = some [] ∧
        (searchLines find hunk).pattern = hunk.oldLines.dropLast := by
  unfold searchLines
  dsimp only
  split
  · next hnone => exact .inr ⟨isNone_iff_eq_none.1 hnone.1, hnone.2, rfl⟩
  · exact .inl rfl

theorem findVariant_eq_some {variants : List HunkVariant} {variant : HunkVariant}
    {result : SequenceSearchResult R}
    (h : findVariant find variants = some (variant, result)) :
    variant ∈ variants ∧ variant.oldLines ≠ [] ∧ (find variant.oldLines).isUnique = true ∧
      result = find variant.oldLines := by
  obtain ⟨variant', hmem, hfound⟩ := exists_of_findSome?_eq_some h
  split at hfound
  · cases hfound
  · next hne =>
    split at hfound
    · next hunique =>
      cases hfound
      exact ⟨hmem, hne, hunique, rfl⟩
    · cases hfound

theorem searchVariants_cases (find : List Text → SequenceSearchResult R) (hunk : DiffHunk)
    (search : HunkSearch R) :
    searchVariants find hunk search = search ∨ ∃ variant ∈ fallbackVariants hunk,
      variant.oldLines ≠ [] ∧ (find variant.oldLines).isUnique = true ∧
      searchVariants find hunk search =
        ⟨variant.oldLines, variant.newLines, find variant.oldLines⟩ := by
  unfold searchVariants
  split
  · exact .inl rfl
  · split
    · next variant result hfound =>
      obtain ⟨hmem, hne, hunique, rfl⟩ := findVariant_eq_some hfound
      exact .inr ⟨variant, hmem, hne, hunique, rfl⟩
    · exact .inl rfl

theorem preferContext_keeps (lines : List Text) (hunk : DiffHunk) (contextIndex : Option Nat)
    (search : HunkSearch R) :
    (preferContext lines hunk contextIndex search).pattern = search.pattern ∧
      (preferContext lines hunk contextIndex search).newSlice = search.newSlice := by
  unfold preferContext
  split
  · dsimp only
    split
    · split
      · exact ⟨rfl, rfl⟩
      · exact ⟨rfl, rfl⟩
    · exact ⟨rfl, rfl⟩
  · exact ⟨rfl, rfl⟩

theorem preferHint_keeps (hunk : DiffHunk) (matchHint : Option Nat) (search : HunkSearch R) :
    (preferHint hunk matchHint search).pattern = search.pattern ∧
      (preferHint hunk matchHint search).newSlice = search.newSlice := by
  unfold preferHint
  dsimp only
  split
  · split
    · exact ⟨rfl, rfl⟩
    · exact ⟨rfl, rfl⟩
  · exact ⟨rfl, rfl⟩

theorem preferContext_next {oldLine newLine : Text} {context index : Nat}
    (h : findContextRelativeMatch lines oldLine context
      (hunk.newLines.any fun line => trim line = trim oldLine) = some index) (confidence : R) :
    preferContext lines hunk (some context) ⟨[oldLine], [newLine],
      { index := some index, confidence }⟩ =
      ⟨[oldLine], [newLine], { index := some index, confidence }⟩ := by
  unfold preferContext
  dsimp only
  rw [h]
  split
  · rfl
  · rfl

theorem preferHint_of_not_ambiguous (h : search.result.isAmbiguous = false)
    (matchHint : Option Nat) :
    preferHint hunk matchHint search = search := by
  rw [preferHint, if_neg (by rw [h]; exact Bool.false_ne_true)]

theorem preferHint_index {matchHint : Option Nat} {index : Nat}
    (hambiguous : search.result.isAmbiguous = true)
    (h : (preferHint hunk matchHint search).result.isAmbiguous = false)
    (hindex : (preferHint hunk matchHint search).result.index = some index) :
    index ∈ search.result.named := by
  rw [preferHint, if_pos hambiguous] at h hindex
  dsimp only at h hindex
  split at h
  · next chosen hchosen =>
    rw [hchosen] at hindex
    cases hindex
    refine mem_append_right _ ?_
    unfold chooseHintedMatch at hchosen
    split at hchosen
    · next matchIndices hint hmatches _ =>
      split at hchosen
      · next candidate hcandidates =>
        cases hchosen
        have hmem : index ∈ matchIndices.filter fun index =>
            index ≤ hint + AMBIGUITY_HINT_WINDOW ∧ hint ≤ index + AMBIGUITY_HINT_WINDOW := by
          rw [hcandidates]
          exact mem_cons_self
        rw [hmatches]
        exact (mem_filter.1 hmem).1
      · cases hchosen
    · cases hchosen
  · rw [hambiguous] at h
    cases h

theorem length_ne_of_unique_variant {find : List Text → SequenceSearchResult R}
    (hambiguous : (find hunk.oldLines).isAmbiguous = true) {variant : HunkVariant}
    (hmem : variant ∈ fallbackVariants hunk) (hunique : (find variant.oldLines).isUnique = true) :
    variant.oldLines.length ≠ hunk.oldLines.length := by
  intro hlength
  rw [(sublist_of_mem_fallbackVariants hmem).eq_of_length hlength, isUnique_iff,
    hambiguous] at hunique
  cases hunique.2

theorem searchVariants_searchLines (find : List Text → SequenceSearchResult R)
    (hambiguous : (find hunk.oldLines).isAmbiguous = true) :
    searchVariants find hunk (searchLines find hunk) =
      ⟨hunk.oldLines, hunk.newLines, find hunk.oldLines⟩ ∨
      (searchVariants find hunk (searchLines find hunk)).pattern.length ≠ hunk.oldLines.length ∧
        ((searchVariants find hunk (searchLines find hunk)).result.index = none →
          (find hunk.oldLines).index = none) := by
  rcases searchVariants_cases find hunk (searchLines find hunk) with heq | ⟨variant, hmem, -,
      hunique, heq⟩
  · rw [heq]
    rcases searchLines_cases find hunk with hlines | ⟨hnone, hlast, hpattern⟩
    · exact .inl hlines
    · refine .inr ⟨?_, fun _ => hnone⟩
      have hne : hunk.oldLines ≠ [] := by
        rintro hnil
        rw [hnil] at hlast
        cases hlast
      have hpos := length_pos_iff.2 hne
      rw [hpattern, length_dropLast]
      omega
  · rw [heq]
    refine .inr ⟨length_ne_of_unique_variant hambiguous hmem hunique, fun hnone => ?_⟩
    rw [isUnique, show (find variant.oldLines).index = none from hnone] at hunique
    cases hunique

theorem searchVariants_singleLine (find : List Text → SequenceSearchResult R) {oldLine : Text}
    (hold : hunk.oldLines = [oldLine]) (hambiguous : (find hunk.oldLines).isAmbiguous = true)
    (hline : (find hunk.oldLines).index = none → oldLine ≠ []) :
    searchVariants find hunk (searchLines find hunk) =
      ⟨hunk.oldLines, hunk.newLines, find hunk.oldLines⟩ := by
  rcases searchVariants_cases find hunk (searchLines find hunk) with heq | ⟨variant, hmem, hne,
      hunique, -⟩
  · rw [heq]
    rcases searchLines_cases find hunk with hlines | ⟨hnone, hlast, -⟩
    · exact hlines
    · rw [hold, getLast?_singleton] at hlast
      exact absurd (some.inj hlast) (hline hnone)
  · have hlength := length_ne_of_unique_variant hambiguous hmem hunique
    have hle := (sublist_of_mem_fallbackVariants hmem).length_le
    have hpos := length_pos_iff.2 hne
    rw [hold, length_singleton] at hlength hle
    omega

variable [Score R]

theorem searchAroundContext_cases (lines : List Text) (hunk : DiffHunk) (contextIndex : Option Nat)
    (search : HunkSearch R) :
    searchAroundContext lines hunk contextIndex search = search ∨
      ∃ context variant removedLine newLine index, contextIndex = some context ∧
        search.result.index = none ∧
        variant ∈ fallbackVariants hunk ∧ variant.oldLines = [removedLine] ∧
          variant.newLines = [newLine] ∧
        findContextRelativeMatch lines removedLine context
          (hunk.newLines.any fun line => trim line = trim removedLine) = some index ∧
        searchAroundContext lines hunk contextIndex search =
          ⟨[removedLine], [newLine], { index := some index, confidence := percent 95 }⟩ := by
  unfold searchAroundContext
  split
  · next context hindex =>
    dsimp only
    split
    · next variant index hadjacent =>
      obtain ⟨variant', hmem, hfound⟩ := exists_of_findSome?_eq_some hadjacent
      split at hfound
      · next removedLine newLine hold hnew =>
        obtain ⟨index', hmatch, heq⟩ := map_eq_some_iff.1 hfound
        cases heq
        refine .inr ⟨context, variant, removedLine, newLine, index, rfl, hindex, hmem, hold, hnew,
          hmatch, ?_⟩
        rw [hold, hnew]
      · cases hfound
    · exact .inl rfl
  · exact .inl rfl

end Stages

section Place

variable {R : Type} [Score R] {runtime : MatchRuntime R} {lines : List Text} {hunk : DiffHunk}
  {lineHint start : Nat} {allowFuzzy : Bool} {contextIndex : Option Nat} {st : HunkState}
  {search : HunkSearch R}

variable (runtime)

/-- The line number of the new text is a line number, and the search begins somewhere and comes to
the target; or the line next to the context that is taken for a hunk of one line is the target. -/
def HunkReaches (lines : List Text) (allowFuzzy : Bool) (hunk : DiffHunk) (lineIndex target : Nat) :
    Prop :=
  hunk.newStartLine ≠ some 0 ∧ ∃ start contextIndex,
    locateContext runtime lines allowFuzzy hunk (hintedLineIndex lines hunk lineIndex) =
      .ok (start, contextIndex) ∧
    match contextChoice lines hunk contextIndex
      (findHunk runtime lines allowFuzzy hunk start).index.isSome with
    | some index => index = target
    | none => SearchReaches runtime lines allowFuzzy hunk start target

/-- The hunk replaces its lines at the target, after the hunks before it. -/
def PlacesAt (lines : List Text) (allowFuzzy : Bool) (st : HunkState) (hunk : DiffHunk)
    (target : Nat) : Prop :=
  ∃ st', placeHunk runtime lines allowFuzzy st hunk = .ok st' ∧
    st'.replacements = st.replacements ++ [⟨target, hunk.oldLines.length, hunk.newLines⟩]

variable {runtime}

theorem placeHunk_eq (hhinted : Hinted lines hunk lineHint) (hnew : hunk.newStartLine ≠ some 0) :
    placeHunk runtime lines allowFuzzy st hunk =
      (locateContext runtime lines allowFuzzy hunk (hintedLineIndex lines hunk st.lineIndex)).bind
        fun found => replaceHunk runtime lines allowFuzzy hunk st found.1
          (searchHunk runtime lines allowFuzzy hunk found.1 found.2) := by
  unfold placeHunk
  have hpos := hhinted.pos
  rw [if_neg (by simp only [hhinted.hint, hnew, some.injEq, or_false]; omega)]
  simp only [hhinted.ne, if_false]
  rfl

theorem searchHunk_of_findHunk
    (hunique : (findHunk runtime lines allowFuzzy hunk start).isUnique = true)
    (contextIndex : Option Nat) :
    searchHunk runtime lines allowFuzzy hunk start contextIndex =
      match contextChoice lines hunk contextIndex true with
      | some index => ⟨hunk.oldLines, hunk.newLines,
          { index := some index, confidence := (findHunk runtime lines allowFuzzy hunk
            start).confidence }⟩
      | none => ⟨hunk.oldLines, hunk.newLines, findHunk runtime lines allowFuzzy hunk start⟩ := by
  have hfind : findSequenceWithHint runtime lines hunk.oldLines start (getHunkHintIndex hunk start)
      hunk.isEndOfFile allowFuzzy = findHunk runtime lines allowFuzzy hunk start := rfl
  rw [searchHunk_of_unique hfind hunique, preferContext_eq (isUnique_iff.1 hunique).1]

theorem searchHunk_of_contextChoice (hhint : hunk.oldStartLine = some lineHint)
    (hchange : hunk.oldLines ≠ hunk.newLines)
    (hambiguous : (findHunk runtime lines allowFuzzy hunk start).isAmbiguous = true)
    (hfind : findHunk runtime lines allowFuzzy hunk start =
      seekSequence runtime lines hunk.oldLines start hunk.isEndOfFile allowFuzzy) {index : Nat}
    (hchoice : contextChoice lines hunk contextIndex
      (findHunk runtime lines allowFuzzy hunk start).index.isSome = some index) :
    ∃ confidence, searchHunk runtime lines allowFuzzy hunk start contextIndex =
      ⟨hunk.oldLines, hunk.newLines, { index := some index, confidence }⟩ := by
  have hchoice' := hchoice
  unfold contextChoice at hchoice
  split at hchoice
  · next context oldLine hold =>
    have hline : (findHunk runtime lines allowFuzzy hunk start).index = none → oldLine ≠ [] := by
      intro hnone
      rw [hfind] at hnone hambiguous
      have hjoin := joinLines_ne_nil_of_ambiguous hnone hambiguous
      rw [hold] at hjoin
      exact fun hnil => hjoin (by rw [hnil]; rfl)
    have hsearch :=
      searchVariants_singleLine (fun pattern => findSequenceWithHint runtime lines pattern start
      (getHunkHintIndex hunk start) hunk.isEndOfFile allowFuzzy) hold hambiguous hline
    unfold searchHunk
    dsimp only
    rw [hsearch]
    cases hfound : (findHunk runtime lines allowFuzzy hunk start).index with
    | some found =>
      have hsome : (findHunk runtime lines allowFuzzy hunk start).index.isSome = true := by
        rw [hfound]; rfl
      have hkeeps : searchAroundContext lines hunk (some context)
          ⟨hunk.oldLines, hunk.newLines, findHunk runtime lines allowFuzzy hunk start⟩ =
            ⟨hunk.oldLines, hunk.newLines, findHunk runtime lines allowFuzzy hunk start⟩ := by
        unfold searchAroundContext
        rw [hfound]
      have hprefer := @preferContext_eq R lines hunk (some context) _ hsome
      rw [hsome] at hchoice'
      rw [hchoice'] at hprefer
      refine ⟨(findHunk runtime lines allowFuzzy hunk start).confidence, ?_⟩
      show preferHint hunk _ (preferContext lines hunk (some context)
          (searchAroundContext lines hunk (some context)
        ⟨hunk.oldLines, hunk.newLines, findHunk runtime lines allowFuzzy hunk start⟩)) = _
      rw [hkeeps, hprefer]
      exact preferHint_of_not_ambiguous rfl _
    | none =>
      rw [hfound] at hchoice
      split at hchoice
      · next hcase =>
        obtain ⟨newLine, hnew⟩ :=
          length_eq_one_iff.1 (hcase.resolve_left fun h => Bool.false_ne_true h.1).2
        have hne : oldLine ≠ newLine := fun h => hchange (by rw [hold, hnew, h])
        have haround : searchAroundContext lines hunk (some context)
            ⟨hunk.oldLines, hunk.newLines, findHunk runtime lines allowFuzzy hunk start⟩ =
              ⟨[oldLine], [newLine], { index := some index, confidence := percent 95 }⟩ := by
          unfold searchAroundContext
          rw [hfound, fallbackVariants_singleLine hold hnew hne (by rw [hhint]; rfl)]
          simp only [findSome?_cons, hchoice, Option.map_some]
        refine ⟨percent 95, ?_⟩
        show preferHint hunk _ (preferContext lines hunk (some context)
            (searchAroundContext lines hunk (some context)
          ⟨hunk.oldLines, hunk.newLines, findHunk runtime lines allowFuzzy hunk start⟩)) = _
        rw [haround, preferContext_next hchoice, hold, hnew]
        exact preferHint_of_not_ambiguous rfl _
      · cases hchoice
  · cases hchoice

theorem placesAt_of_search (hhinted : Hinted lines hunk lineHint)
    (hnew : hunk.newStartLine ≠ some 0) (hchange : hunk.oldLines ≠ hunk.newLines)
    (hlocate : locateContext runtime lines allowFuzzy hunk
      (hintedLineIndex lines hunk st.lineIndex) = .ok (start, contextIndex)) {result : SequenceSearchResult R}
    (hindex : result.index = some (hintIndexOf lineHint)) (hambiguous : result.isAmbiguous = false)
    (hstrategy : result.strategy ≠ some .fuzzyDominant)
    (hsearch : searchHunk runtime lines allowFuzzy hunk start contextIndex =
      ⟨hunk.oldLines, hunk.newLines, result⟩) :
    PlacesAt runtime lines allowFuzzy st hunk (hintIndexOf lineHint) := by
  have hcheck : checkSecondMatch runtime lines allowFuzzy hunk hunk.oldLines
      (hintIndexOf lineHint) = .ok () := if_neg (by simp [hhinted.hint])
  refine ⟨⟨st.replacements ++ [⟨hintIndexOf lineHint, hunk.oldLines.length, hunk.newLines⟩],
    st.warnings, hintIndexOf lineHint + hunk.oldLines.length⟩, ?_, rfl⟩
  rw [placeHunk_eq hhinted hnew, hlocate]
  show replaceHunk runtime lines allowFuzzy hunk st start
    (searchHunk runtime lines allowFuzzy hunk start contextIndex) = _
  rw [hsearch, replaceHunk_of_occursAt hhinted.occurs hindex hambiguous hstrategy, hcheck, if_neg hchange]
  rfl

variable {st' : HunkState}

theorem replaceHunk_eq_ok {lineIndex : Nat}
    (h : replaceHunk runtime lines allowFuzzy hunk st lineIndex search = .ok st') :
    search.result.isAmbiguous = false ∧ ∃ found, search.result.index = some found ∧
      (st'.replacements = st.replacements ∨
        st'.replacements = st.replacements ++ [⟨found, search.pattern.length,
          adjustLinesIndentation search.pattern ((lines.drop found).take search.pattern.length)
            search.newSlice⟩]) := by
  unfold replaceHunk foundIndex at h
  split at h
  · cases h
  next hambiguous =>
  refine ⟨Bool.eq_false_of_not_eq_true hambiguous, ?_⟩
  split at h
  · next found hfound =>
    refine ⟨found, hfound, ?_⟩
    simp only [Bind.bind, Except.bind] at h
    split at h
    · cases h
    · split at h
      · cases h
        exact .inl rfl
      · cases h
        exact .inr rfl
  · cases h

theorem HunkReaches.placesAt (hhinted : Hinted lines hunk lineHint)
    (hchange : hunk.oldLines ≠ hunk.newLines)
    (h : HunkReaches runtime lines allowFuzzy hunk st.lineIndex (hintIndexOf lineHint)) :
    PlacesAt runtime lines allowFuzzy st hunk (hintIndexOf lineHint) := by
  obtain ⟨hnew, start, contextIndex, hlocate, hreaches⟩ := h
  have hplace : ∀ result : SequenceSearchResult R, result.index = some (hintIndexOf lineHint) →
      result.isAmbiguous = false → result.strategy ≠ some .fuzzyDominant →
      searchHunk runtime lines allowFuzzy hunk start contextIndex =
        ⟨hunk.oldLines, hunk.newLines, result⟩ →
      PlacesAt runtime lines allowFuzzy st hunk (hintIndexOf lineHint) :=
    fun _ => placesAt_of_search hhinted hnew hchange hlocate
  cases hchoice : contextChoice lines hunk contextIndex
      (findHunk runtime lines allowFuzzy hunk start).index.isSome with
  | some index =>
    rw [hchoice] at hreaches
    obtain rfl : index = hintIndexOf lineHint := hreaches
    rcases findHunk_unique_or_past runtime allowFuzzy start hhinted with
      hunique | ⟨hambiguous, -, -, hfind⟩
    · have hsearch := searchHunk_of_findHunk hunique contextIndex
      rw [(isUnique_iff.1 hunique).1] at hchoice
      rw [hchoice] at hsearch
      exact hplace _ rfl rfl (fun h => by cases h) hsearch
    · obtain ⟨confidence, hsearch⟩ :=
        searchHunk_of_contextChoice hhinted.hint hchange hambiguous hfind hchoice
      exact hplace _ rfl rfl (fun h => by cases h) hsearch
  | none =>
    rw [hchoice] at hreaches
    have hfind := SearchReaches.findHunk hhinted hreaches
    have hsearch :=
      searchHunk_of_findHunk (by rw [hfind]; exact isUnique_exactResult _) contextIndex
    rw [hfind] at hchoice
    rw [show contextChoice lines hunk contextIndex true = none from hchoice, hfind] at hsearch
    exact hplace _ rfl rfl (fun h => by cases h) hsearch

theorem contextChoice_of_not_named (find : List Text → SequenceSearchResult R)
    {matchHint : Option Nat} {target : Nat}
    (hambiguous : (find hunk.oldLines).isAmbiguous = true)
    (hnamed : target ∉ (find hunk.oldLines).named)
    (hoccurs : OccursAt hunk.oldLines lines target)
    (hsearch : search = preferHint hunk matchHint (preferContext lines hunk contextIndex
      (searchAroundContext lines hunk contextIndex
        (searchVariants find hunk (searchLines find hunk)))))
    (hsure : search.result.isAmbiguous = false) (hindex : search.result.index = some target)
    (hlength : search.pattern.length = hunk.oldLines.length)
    (hadjust : adjustLinesIndentation search.pattern
      ((lines.drop target).take search.pattern.length) search.newSlice = hunk.newLines) :
    contextChoice lines hunk contextIndex (find hunk.oldLines).index.isSome = some target := by
  have hpattern := (congrArg HunkSearch.pattern hsearch).trans
    ((preferHint_keeps hunk matchHint _).1.trans (preferContext_keeps lines hunk contextIndex _).1)
  have hslice := (congrArg HunkSearch.newSlice hsearch).trans
    ((preferHint_keeps hunk matchHint _).2.trans (preferContext_keeps lines hunk contextIndex _).2)
  have hlines := searchVariants_searchLines find hambiguous
  rcases searchAroundContext_cases lines hunk contextIndex
      (searchVariants find hunk (searchLines find hunk)) with
    heq | ⟨context, variant, oldLine, newLine, index, rfl, hnone, hmem, hold, hnew, hmatch, heq⟩
  · rw [heq] at hsearch hpattern
    rcases hlines with hlines | ⟨hshort, -⟩
    · rw [hlines] at hsearch
      have hkeeps : ∀ search' : HunkSearch R, search'.result = find hunk.oldLines →
          search = preferHint hunk matchHint search' → False := by
        intro search' hresult hsearch'
        rw [hsearch'] at hsure hindex
        exact hnamed (hresult ▸ preferHint_index (by rw [hresult]; exact hambiguous) hsure hindex)
      cases hfound : (find hunk.oldLines).index with
      | none =>
        have hprefer : preferContext lines hunk contextIndex
            ⟨hunk.oldLines, hunk.newLines, find hunk.oldLines⟩ =
            ⟨hunk.oldLines, hunk.newLines, find hunk.oldLines⟩ := by
          unfold preferContext
          rw [hfound]
          cases contextIndex <;> rfl
        rw [hprefer] at hsearch
        exact absurd hsearch (hkeeps _ rfl)
      | some found =>
        rw [preferContext_eq (by rw [hfound]; rfl)] at hsearch
        rw [isSome_some]
        cases hchoice : contextChoice lines hunk contextIndex true with
        | none =>
          rw [hchoice] at hsearch
          exact absurd hsearch (hkeeps _ rfl)
        | some index =>
          rw [hchoice] at hsearch
          rw [hsearch, preferHint_of_not_ambiguous rfl] at hindex
          exact hindex
    · rw [hpattern] at hlength
      exact absurd hlength hshort
  · rw [heq] at hsearch hpattern hslice
    rw [hpattern] at hlength hadjust
    have hwhole : [oldLine] = hunk.oldLines :=
      (hold ▸ sublist_of_mem_fallbackVariants hmem).eq_of_length hlength
    rw [hwhole, ← prefix_iff_eq_take.1 hoccurs, adjustLinesIndentation_self, hslice] at hadjust
    have hmissing : (find hunk.oldLines).index = none := by
      rcases hlines with hlines | ⟨-, hmissing⟩
      · rw [hlines] at hnone
        exact hnone
      · exact hmissing hnone
    rw [preferContext_next hmatch, preferHint_of_not_ambiguous rfl] at hsearch
    rw [hsearch] at hindex
    rw [hmissing]
    unfold contextChoice
    rw [← hwhole]
    dsimp only
    rw [if_pos (.inr ⟨rfl, by rw [← hadjust]; rfl⟩), hmatch]
    exact hindex

theorem PlacesAt.hunkReaches (hscans : runtime.ScansWindows)
    (hhinted : Hinted lines hunk lineHint)
    (h : PlacesAt runtime lines allowFuzzy st hunk (hintIndexOf lineHint)) :
    HunkReaches runtime lines allowFuzzy hunk st.lineIndex (hintIndexOf lineHint) := by
  obtain ⟨st', hplaced, hr⟩ := h
  have hnew : hunk.newStartLine ≠ some 0 := by
    intro hzero
    rw [placeHunk, if_pos (.inr hzero)] at hplaced
    cases hplaced
  rw [placeHunk_eq hhinted hnew] at hplaced
  cases hlocate :
    locateContext runtime lines allowFuzzy hunk (hintedLineIndex lines hunk st.lineIndex) with
  | error e =>
    rw [hlocate] at hplaced
    cases hplaced
  | ok found =>
    obtain ⟨start, contextIndex⟩ := found
    rw [hlocate] at hplaced
    have hreplace : replaceHunk runtime lines allowFuzzy hunk st start
        (searchHunk runtime lines allowFuzzy hunk start contextIndex) = .ok st' := hplaced
    obtain ⟨hsure, line, hindex, hkept | hadded⟩ := replaceHunk_eq_ok hreplace
    · rw [hkept] at hr
      exact absurd (self_eq_append_right.1 hr) (cons_ne_nil _ _)
    injection append_cancel_left (hadded.symm.trans hr) with hsame
    injection hsame with hline hlength hadjust
    subst hline
    refine ⟨hnew, start, contextIndex, hlocate, ?_⟩
    rcases findHunk_unique_or_past runtime allowFuzzy start hhinted with
      hunique | ⟨hambiguous, hpast, hend, hfind⟩
    · have hsearch := searchHunk_of_findHunk hunique contextIndex
      rw [(isUnique_iff.1 hunique).1]
      rw [hsearch] at hindex
      cases hchoice : contextChoice lines hunk contextIndex true with
      | some index =>
        rw [hchoice] at hindex
        exact some.inj hindex
      | none =>
        rw [hchoice] at hindex
        exact searchReaches_of_findHunk hscans hhinted hindex
    · have hnamed :
          hintIndexOf lineHint ∉ (findHunk runtime lines allowFuzzy hunk start).named := by
        rw [hfind]
        intro hnamed
        rcases seekSequence_named_bound hscans hhinted.ne hnamed with hstart | ⟨heof, hlast⟩
        · omega
        · exact hend heof hlast
      have hchoice := contextChoice_of_not_named (fun pattern =>
        findSequenceWithHint runtime lines pattern start (getHunkHintIndex hunk start)
          hunk.isEndOfFile allowFuzzy) hambiguous hnamed hhinted.occurs rfl hsure hindex hlength
        hadjust
      have hchoice' : contextChoice lines hunk contextIndex (findHunk runtime lines allowFuzzy hunk
        start).index.isSome = some (hintIndexOf lineHint) := hchoice
      rw [hchoice']

theorem placeHunk_replacements
    (h : placeHunk runtime lines allowFuzzy st hunk = .ok st') :
    st.replacements <+: st'.replacements := by
  unfold placeHunk at h
  split at h
  · cases h
  · simp only [Bind.bind, Except.bind] at h
    split at h
    · cases h
    · split at h
      · split at h
        · cases h
        · cases h
          exact prefix_append _ _
      · obtain ⟨-, found, -, hkept | hadded⟩ := replaceHunk_eq_ok h
        · rw [hkept]
        · rw [hadded]
          exact prefix_append _ _

theorem foldlM_placeHunk_replacements {hunks : List DiffHunk}
    (h : hunks.foldlM (placeHunk runtime lines allowFuzzy) st = .ok st') :
    st.replacements <+: st'.replacements := by
  induction hunks generalizing st with
  | nil =>
    cases h
    exact prefix_rfl
  | cons hunk hunks ih =>
    rw [foldlM_cons] at h
    cases hplace : placeHunk runtime lines allowFuzzy st hunk with
    | error e =>
      rw [hplace] at h
      cases h
    | ok next =>
      rw [hplace] at h
      exact (placeHunk_replacements hplace).trans (ih h)

theorem PlacesAt.mem_computeReplacements {before after : List DiffHunk} {target : Nat}
    {replacements : List Replacement} {warnings : List Nat}
    (h : PlacesAt runtime lines allowFuzzy st hunk target)
    (hbefore : before.foldlM (placeHunk runtime lines allowFuzzy) ⟨[], [], 0⟩ = .ok st)
    (hrun : computeReplacements runtime lines (before ++ hunk :: after) allowFuzzy =
      .ok (replacements, warnings)) :
    ⟨target, hunk.oldLines.length, hunk.newLines⟩ ∈ replacements := by
  unfold computeReplacements at hrun
  rw [foldlM_append, hbefore] at hrun
  simp only [Bind.bind, Except.bind, foldlM_cons] at hrun
  obtain ⟨placed, hplaced, hr⟩ := h
  rw [hplaced] at hrun
  split at hrun
  · cases hrun
  · next last hafter =>
    split at hrun
    · cases hrun
    · cases hrun
      rw [(perm_insertionSort _ _).mem_iff]
      refine (foldlM_placeHunk_replacements hafter).subset ?_
      rw [hr]
      exact mem_append_right _ mem_cons_self

end Place

def twoBlocks : List Text :=
  ["if a".toList, "stop".toList, "x".toList, "if a".toList, "stop".toList, "y".toList]

def hintedHunk (lineHint : Nat) : DiffHunk :=
  ⟨none, some lineHint, some lineHint, true, ["if a".toList, "stop".toList],
    ["if a".toList, "go".toList], false⟩

theorem occursAt_twoBlocks : OccursAt ["if a".toList, "stop".toList] twoBlocks 0 ∧
    OccursAt ["if a".toList, "stop".toList] twoBlocks 3 := by
  decide +kernel

end Vibrato.Edit
