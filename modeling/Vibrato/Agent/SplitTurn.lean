import Vibrato.Agent.CutPoint

namespace Vibrato.Agent

open Session

section SplitTurn

variable (entries : List SessionEntry)

variable (entry : SessionEntry)

def carriesMessage : Bool := (getMessageFromEntry entry).isSome

def firstMessage (endIndex i : Nat) : Option Nat :=
  (List.range' i (endIndex - i)).find? fun j => entries[j]?.any carriesMessage

/-- The turn of the entry at `i` starts at `t`. -/
structure IsTurnStart (startIndex t i : Nat) : Prop where
  ge : startIndex ≤ t
  le : t ≤ i
  starts : entries[t]?.any startsTurn = true
  last : ∀ j, t < j → j ≤ i → entries[j]?.any startsTurn = false

/-- A turn is reported as split if the first message that is kept does not start its turn, and then
with the start of this turn. -/
structure ReportsSplit (startIndex endIndex : Nat) (cut : CutPointResult) : Prop where
  isSplitTurn : cut.isSplitTurn = true ↔
    ∃ m t, firstMessage entries endIndex cut.firstKeptEntryIndex = some m ∧
    IsTurnStart entries startIndex t m ∧ t ≠ m
  turnStartIndex : cut.isSplitTurn = true → ∀ m t,
    firstMessage entries endIndex cut.firstKeptEntryIndex = some m →
      IsTurnStart entries startIndex t m → cut.turnStartIndex = some t

/-- The first entry that is kept starts no turn, unless it is a user message; and if settings are
kept in front of a turn start, there is no turn before them. -/
def BeginsCleanly (startIndex endIndex s : Nat) : Prop :=
  s < endIndex → (entries[s]?.any startsTurn = true → entries[s]?.any isUserMessage = true) ∧
    (entries[s]?.any carriesMessage = false →
      ∀ m, firstMessage entries endIndex s = some m → entries[m]?.any startsTurn = true →
        ∀ t, startIndex ≤ t → t < s → entries[t]?.any startsTurn = false)

variable {c endIndex i m s startIndex t : Nat}

theorem findTurnStartIndex_eq_some_iff :
    findTurnStartIndex entries startIndex i = some t ↔ IsTurnStart entries startIndex t i := by
  induction i with
  | zero =>
    rw [findTurnStartIndex]
    constructor
    · intro h
      split at h
      · next hzero =>
        cases h
        exact ⟨Nat.le_of_eq hzero.1, Nat.le_refl _, hzero.2, fun j hlt hle => by omega⟩
      · cases h
    · intro h
      obtain rfl := Nat.le_zero.1 h.le
      rw [if_pos ⟨Nat.le_zero.1 h.ge, h.starts⟩]
  | succ i ih =>
    rw [findTurnStartIndex]
    split
    · next hlt =>
      refine iff_of_false (by simp) fun h => ?_
      have := h.ge
      have := h.le
      omega
    · next hge =>
      split
      · next hstarts =>
        constructor
        · intro h
          cases h
          exact ⟨by omega, Nat.le_refl _, hstarts, fun j hlt hle => by omega⟩
        · intro h
          rcases Nat.lt_or_eq_of_le h.le with hlt | rfl
          · rw [h.last (i + 1) hlt (Nat.le_refl _)] at hstarts
            cases hstarts
          · rfl
      · next hstarts =>
        rw [ih]
        constructor
        · intro h
          refine ⟨h.ge, Nat.le_succ_of_le h.le, h.starts, fun j hlt hle => ?_⟩
          rcases Nat.lt_or_eq_of_le hle with hlt' | rfl
          · exact h.last j hlt (by omega)
          · exact Bool.eq_false_iff.2 hstarts
        · intro h
          have hne : t ≠ i + 1 := by
            rintro rfl
            exact hstarts h.starts
          have := h.le
          exact ⟨h.ge, by omega, h.starts, fun j hlt hle => h.last j hlt (by omega)⟩

theorem findTurnStartIndex_eq_none_iff :
    findTurnStartIndex entries startIndex i = none ↔
      ∀ t, startIndex ≤ t → t ≤ i → entries[t]?.any startsTurn = false := by
  induction i with
  | zero =>
    rw [findTurnStartIndex]
    split
    · next hzero =>
      refine iff_of_false (by simp) fun h => ?_
      rw [h 0 (by omega) (Nat.le_refl 0)] at hzero
      cases hzero.2
    · next hzero =>
      refine iff_of_true rfl fun t hge hle => ?_
      obtain rfl := Nat.le_zero.1 hle
      exact Bool.eq_false_iff.2 fun hstarts => hzero ⟨Nat.le_zero.1 hge, hstarts⟩
  | succ i ih =>
    rw [findTurnStartIndex]
    split
    · exact iff_of_true rfl fun t hge hle => by omega
    · next hge =>
      split
      · next hstarts =>
        refine iff_of_false (by simp) fun h => ?_
        rw [h (i + 1) (by omega) (Nat.le_refl _)] at hstarts
        cases hstarts
      · next hstarts =>
        rw [ih]
        constructor
        · intro h t hge hle
          rcases Nat.lt_or_eq_of_le hle with hlt | rfl
          · exact h t hge (by omega)
          · exact Bool.eq_false_iff.2 hstarts
        · exact fun h t hge hle => h t hge (by omega)

variable {entries}

theorem isTurnStart_self (hge : startIndex ≤ i) (hstarts : entries[i]?.any startsTurn = true) :
    IsTurnStart entries startIndex t i ↔ t = i := by
  constructor
  · intro h
    rcases Nat.lt_or_eq_of_le h.le with hlt | heq
    · rw [h.last i hlt (Nat.le_refl _)] at hstarts
      cases hstarts
    · exact heq
  · rintro rfl
    exact ⟨hge, Nat.le_refl _, hstarts, fun j hlt hle => by omega⟩

theorem IsTurnStart.unique {t' : Nat} (h : IsTurnStart entries startIndex t i)
    (h' : IsTurnStart entries startIndex t' i) : t = t' := by
  have hnot : ∀ {t t'}, IsTurnStart entries startIndex t i → IsTurnStart entries startIndex t' i →
      ¬t < t' := by
    intro t t' h h' hlt
    have hstarts := h'.starts
    rw [h.last t' hlt h'.le] at hstarts
    cases hstarts
  exact Nat.le_antisymm (Nat.le_of_not_lt (hnot h' h)) (Nat.le_of_not_lt (hnot h h'))

theorem isTurnStart_congr (hle : s ≤ m)
    (hnone : ∀ j, s ≤ j → j ≤ m → entries[j]?.any startsTurn = false) :
    IsTurnStart entries startIndex t m ↔ IsTurnStart entries startIndex t s := by
  constructor
  · intro h
    have hlt : t < s := by
      by_contra hge
      have hstarts := h.starts
      rw [hnone t (by omega) h.le] at hstarts
      cases hstarts
    exact ⟨h.ge, by omega, h.starts, fun j hj hle' => h.last j hj (by omega)⟩
  · intro h
    refine ⟨h.ge, by have := h.le; omega, h.starts, fun j hj hle' => ?_⟩
    rcases Nat.lt_or_ge s j with hlt | hge
    · exact hnone j (by omega) hle'
    · exact h.last j hj hge

theorem firstMessage_eq_some (h : firstMessage entries endIndex s = some m) :
    s ≤ m ∧ m < endIndex ∧ entries[m]?.any carriesMessage = true ∧
      ∀ j, s ≤ j → j < m → entries[j]?.any carriesMessage = false := by
  obtain ⟨hcarries, hmem, hfirst⟩ := List.find?_range'_eq_some.1 h
  rw [List.mem_range'_1] at hmem
  refine ⟨hmem.1, by omega, hcarries, fun j hge hlt => ?_⟩
  simpa using hfirst j hge hlt

theorem firstMessage_self (hlt : s < endIndex)
    (hcarries : entries[s]?.any carriesMessage = true) :
    firstMessage entries endIndex s = some s := by
  obtain ⟨n, hn⟩ := Nat.exists_eq_add_of_lt hlt
  rw [firstMessage, show endIndex - s = n + 1 by omega]
  exact List.find?_cons_of_pos hcarries

theorem exists_firstMessage (hle : s ≤ c) (hlt : c < endIndex)
    (hcarries : entries[c]?.any carriesMessage = true) :
    ∃ m, firstMessage entries endIndex s = some m ∧ m ≤ c := by
  cases h : firstMessage entries endIndex s with
  | none =>
    have hnone := List.find?_eq_none.1 h c (List.mem_range'_1.2 ⟨hle, by omega⟩)
    exact absurd hcarries hnone
  | some m =>
    obtain ⟨-, -, -, hfirst⟩ := firstMessage_eq_some h
    refine ⟨m, rfl, Nat.le_of_not_lt fun hlt => ?_⟩
    rw [hfirst c hle hlt] at hcarries
    cases hcarries

theorem any_of_imp {α : Type} {p q : α → Bool} (h : ∀ a, p a = true → q a = true) {o : Option α}
    (ho : o.any p = true) : o.any q = true := by
  cases o with
  | none => cases ho
  | some a => exact h a ho

theorem isValidCutPoint_of_startsTurn (h : startsTurn entry = true) :
    isValidCutPoint entry = true := by
  unfold startsTurn at h
  unfold isValidCutPoint
  split at h <;> simp_all

theorem carriesMessage_of_isValidCutPoint (h : isValidCutPoint entry = true) :
    carriesMessage entry = true := by
  unfold isValidCutPoint at h
  unfold carriesMessage getMessageFromEntry
  split at h <;> simp_all

theorem startsTurn_of_isUserMessage (h : isUserMessage entry = true) : startsTurn entry = true := by
  unfold isUserMessage at h
  unfold startsTurn
  split at h <;> simp_all

theorem startsTurn_eq_false (h : entries[i]?.any carriesMessage = false) :
    entries[i]?.any startsTurn = false := by
  rw [Bool.eq_false_iff] at h ⊢
  exact fun hstarts => h (any_of_imp carriesMessage_of_isValidCutPoint
    (any_of_imp isValidCutPoint_of_startsTurn hstarts))

theorem cutAt_of_isUser (h : entries[s]?.any isUserMessage = true) :
    cutAt entries startIndex s = ⟨s, none, false⟩ := by
  simp [cutAt, h]

theorem cutAt_of_not_isUser (h : entries[s]?.any isUserMessage = false) :
    cutAt entries startIndex s = ⟨s, findTurnStartIndex entries startIndex s,
      (findTurnStartIndex entries startIndex s).isSome⟩ := by
  simp [cutAt, h]

theorem reportsSplit_cutAt
    (hm : firstMessage entries endIndex s = some m) (huser : entries[s]?.any isUserMessage = false)
    (hturn : ∀ t, IsTurnStart entries startIndex t s ↔ IsTurnStart entries startIndex t m ∧ t ≠ m) :
    ReportsSplit entries startIndex endIndex (cutAt entries startIndex s) := by
  rw [cutAt_of_not_isUser huser]
  constructor
  · rw [Option.isSome_iff_exists]
    constructor
    · rintro ⟨t, ht⟩
      rw [findTurnStartIndex_eq_some_iff] at ht
      exact ⟨m, t, hm, (hturn t).1 ht⟩
    · rintro ⟨m', t, hm', ht⟩
      cases hm.symm.trans hm'
      exact ⟨t, findTurnStartIndex_eq_some_iff entries |>.2 ((hturn t).2 ht)⟩
  · intro hsplit m' t hm' ht
    cases hm.symm.trans hm'
    obtain ⟨t', ht'⟩ := Option.isSome_iff_exists.1 hsplit
    have hstart := (hturn t').1 (findTurnStartIndex_eq_some_iff entries |>.1 ht')
    rw [ht', ht.unique hstart.1]

/-- What is reported is right exactly if what is kept begins cleanly. -/
theorem reportsSplit_cutAt_iff (hstart : startIndex ≤ s) (hle : s ≤ c)
    (hc : c < endIndex) (hcarries : entries[c]?.any carriesMessage = true) :
    ReportsSplit entries startIndex endIndex (cutAt entries startIndex s) ↔
      BeginsCleanly entries startIndex endIndex s := by
  obtain ⟨m, hm, hmc⟩ := exists_firstMessage hle hc hcarries
  obtain ⟨hsm, -, -, hfirst⟩ := firstMessage_eq_some hm
  have hs : s < endIndex := Nat.lt_of_le_of_lt hle hc
  cases hhere : entries[s]?.any carriesMessage with
  | true =>
    cases (firstMessage_self hs hhere).symm.trans hm
    cases huser : entries[s]?.any isUserMessage with
    | true =>
      -- a user message starts its turn
      have hstarts := any_of_imp startsTurn_of_isUserMessage huser
      refine iff_of_true ?_ fun _ => ⟨fun _ => huser, fun hnot => ?_⟩
      · rw [cutAt_of_isUser huser]
        refine ⟨⟨fun h => (by cases h), ?_⟩, fun h => (by cases h)⟩
        rintro ⟨m, t, hm', hturn, hne⟩
        cases hm.symm.trans hm'
        exact absurd ((isTurnStart_self hstart hstarts).1 hturn) hne
      · rw [hhere] at hnot
        cases hnot
    | false =>
      cases hstarts : entries[s]?.any startsTurn with
      | true =>
        -- another turn start is found as the start of the turn that it would split
        refine iff_of_false (fun h => ?_) fun h => ?_
        · have hself := (isTurnStart_self hstart hstarts).2 rfl
          have hsplit : (cutAt entries startIndex s).isSplitTurn = true := by
            rw [cutAt_of_not_isUser huser, (findTurnStartIndex_eq_some_iff entries).2 hself]
            rfl
          obtain ⟨m, t, hm', hturn, hne⟩ := h.isSplitTurn.1 hsplit
          have hkept : firstMessage entries endIndex s = some m := hm'
          cases hm.symm.trans hkept
          exact hne ((isTurnStart_self hstart hstarts).1 hturn)
        · rw [(h hs).1 hstarts] at huser
          cases huser
      | false =>
        refine iff_of_true (reportsSplit_cutAt hm huser fun t => ?_) fun _ =>
          ⟨fun h => ?_, fun h => ?_⟩
        · refine ⟨fun h => ⟨h, ?_⟩, fun h => h.1⟩
          rintro rfl
          rw [h.starts] at hstarts
          cases hstarts
        · rw [hstarts] at h
          cases h
        · rw [hhere] at h
          cases h
  | false =>
    have hnot := startsTurn_eq_false hhere
    have huser : entries[s]?.any isUserMessage = false := by
      rw [Bool.eq_false_iff]
      intro huser
      rw [any_of_imp startsTurn_of_isUserMessage huser] at hnot
      cases hnot
    cases hstarts : entries[m]?.any startsTurn with
    | true =>
      -- settings in front of a turn start: the turn that is found is the one before them
      have hself : ∀ t, IsTurnStart entries startIndex t m ↔ t = m :=
        fun t => isTurnStart_self (Nat.le_trans hstart hsm) hstarts
      constructor
      · intro h _
        refine ⟨fun h => ?_, fun _ m' hm' _ t hge hlt => ?_⟩
        · rw [hnot] at h
          cases h
        have hnone : findTurnStartIndex entries startIndex s = none := by
          cases hfind : findTurnStartIndex entries startIndex s with
          | none => rfl
          | some t =>
            have hsplit : (cutAt entries startIndex s).isSplitTurn = true := by
              rw [cutAt_of_not_isUser huser, hfind]
              rfl
            obtain ⟨m', t', hm', hturn, hne⟩ := h.isSplitTurn.1 hsplit
            have hkept : firstMessage entries endIndex s = some m' := hm'
            cases hm.symm.trans hkept
            exact absurd ((hself t').1 hturn) hne
        exact (findTurnStartIndex_eq_none_iff entries).1 hnone t hge (by omega)
      · intro h
        have hclean := (h hs).2 hhere m hm hstarts
        refine reportsSplit_cutAt hm huser fun t => iff_of_false (fun hturn => ?_) fun hturn => ?_
        · have hle := hturn.le
          rcases Nat.lt_or_eq_of_le hle with hlt | rfl
          · have hfalse := hturn.starts
            rw [hclean t hturn.ge hlt] at hfalse
            cases hfalse
          · rw [hturn.starts] at hnot
            cases hnot
        · exact hturn.2 ((hself t).1 hturn.1)
    | false =>
      have hnone : ∀ j, s ≤ j → j ≤ m → entries[j]?.any startsTurn = false := by
        intro j hge hle
        rcases Nat.lt_or_eq_of_le hle with hlt | rfl
        · exact startsTurn_eq_false (hfirst j hge hlt)
        · exact hstarts
      refine iff_of_true (reportsSplit_cutAt hm huser fun t => ?_) fun _ => ⟨fun h => ?_, ?_⟩
      · rw [isTurnStart_congr hsm hnone]
        refine ⟨fun h => ⟨h, ?_⟩, fun h => h.1⟩
        rintro rfl
        have hfalse := h.starts
        rw [hstarts] at hfalse
        cases hfalse
      · rw [hnot] at h
        cases h
      · intro _ m' hm' hstarts'
        cases hm.symm.trans hm'
        rw [hstarts] at hstarts'
        cases hstarts'

variable (entries)

/-- The run of bookkeeping entries that is kept with the cut point starts at `s`. -/
structure IsKeptWith (startIndex s cut : Nat) : Prop where
  ge : startIndex ≤ s
  le : s ≤ cut
  run : ∀ j, s ≤ j → j < cut → entries[j]?.any isBookkeeping = true
  stop : startIndex < s → entries[s - 1]?.any isBookkeeping = false

variable {entries} in
theorem isKeptWith_iff {cut : Nat} (hstart : startIndex ≤ cut) :
    IsKeptWith entries startIndex s cut ↔ s = scanBack entries startIndex cut := by
  have hscan : IsKeptWith entries startIndex (scanBack entries startIndex cut) cut :=
    ⟨le_scanBack entries hstart, scanBack_le entries startIndex cut,
      fun j hle hlt => isBookkeeping_of_scanBack entries hle hlt, scanBack_stop entries⟩
  have hnot : ∀ {s s'}, IsKeptWith entries startIndex s cut → IsKeptWith entries startIndex s' cut →
      ¬s < s' := by
    intro s s' h h' hlt
    have hge := h.ge
    have hle := h'.le
    have hrun := h.run (s' - 1) (by omega) (by omega)
    rw [h'.stop (by omega)] at hrun
    cases hrun
  constructor
  · intro h
    exact Nat.le_antisymm (Nat.le_of_not_lt (hnot hscan h)) (Nat.le_of_not_lt (hnot h hscan))
  · rintro rfl
    exact hscan

/-- For every budget a split turn is reported as it is, if and only if what is kept begins cleanly
for every cut point that a budget can select. -/
theorem findCutPoint_reportsSplit_iff (startIndex endIndex : Nat) :
    (∀ keepRecentTokens, ReportsSplit entries startIndex endIndex
        (findCutPoint entries startIndex endIndex keepRecentTokens)) ↔
      ∀ cut ∈ selectableCuts entries startIndex endIndex, ∀ s, IsKeptWith entries startIndex s cut →
        BeginsCleanly entries startIndex endIndex s := by
  by_cases hne : findValidCutPoints entries startIndex endIndex = []
  · -- without cut points there are no turns in the range
    have hnone : ∀ t, startIndex ≤ t → t < endIndex → entries[t]?.any startsTurn = false := by
      intro t hge hlt
      rw [Bool.eq_false_iff]
      intro hstarts
      have hmem := (mem_findValidCutPoints entries).2
        ⟨hge, hlt, any_of_imp isValidCutPoint_of_startsTurn hstarts⟩
      rw [hne] at hmem
      cases hmem
    refine iff_of_true (fun keep => ?_) fun cut _ s hkept hlt => ⟨fun hstarts => ?_, ?_⟩
    · simp only [findCutPoint, hne]
      refine ⟨⟨fun h => (by cases h), ?_⟩, fun h => (by cases h)⟩
      rintro ⟨m, t, hm, hturn, -⟩
      obtain ⟨-, hlt, -, -⟩ := firstMessage_eq_some hm
      have hstarts := hturn.starts
      rw [hnone t hturn.ge (Nat.lt_of_le_of_lt hturn.le hlt)] at hstarts
      cases hstarts
    · rw [hnone s hkept.ge hlt] at hstarts
      cases hstarts
    · intro _ m _ _ t hge hts
      exact hnone t hge (Nat.lt_trans hts hlt)
  · rw [forall_findCutPoint_iff entries hne]
    refine forall₂_congr fun cut hcut => ?_
    obtain ⟨hstart, hlt, hvalid⟩ := (mem_findValidCutPoints entries).1
      (mem_of_mem_selectableCuts entries hne hcut)
    rw [reportsSplit_cutAt_iff (le_scanBack entries hstart) (scanBack_le entries startIndex cut) hlt
      (any_of_imp carriesMessage_of_isValidCutPoint hvalid)]
    simp only [isKeptWith_iff hstart, forall_eq]

end SplitTurn

def modelChangePath : List SessionEntry :=
  [⟨"a".toList, none, .message (.llm (.user [.text "first".toList] 0))⟩,
    ⟨"b".toList, some "a".toList, .setting .modelChange⟩,
    ⟨"c".toList, some "b".toList, .message (.llm (.user [.text "second".toList] 1))⟩]

/-- The path is cut at the second turn, and the first one is reported as split. -/
theorem findCutPoint_reports_unsplit :
    findCutPoint modelChangePath 0 3 1 = ⟨1, some 0, true⟩ ∧
      ¬ ∀ (entries : List SessionEntry) (startIndex endIndex keepRecentTokens : Nat),
        endIndex ≤ entries.length → ReportsSplit entries startIndex endIndex
          (findCutPoint entries startIndex endIndex keepRecentTokens) := by
  have hcut : findCutPoint modelChangePath 0 3 1 = ⟨1, some 0, true⟩ := by decide
  refine ⟨hcut, fun hall => ?_⟩
  have hreports := hall modelChangePath 0 3 1 (by decide)
  obtain ⟨m, t, hm, hturn, hne⟩ := hreports.isSplitTurn.1 rfl
  have hfirst : firstMessage modelChangePath 3 1 = some 2 := by decide
  cases hfirst.symm.trans hm
  exact hne ((isTurnStart_self (by decide) (by decide)).1 hturn)

end Vibrato.Agent
