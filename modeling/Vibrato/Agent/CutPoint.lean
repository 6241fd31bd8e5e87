import Vibrato.Agent.Tokens

/-! `findCutPoint` of `agent/compaction/compaction.ts`: where a session path is cut so that the
entries after the cut hold about `keepRecentTokens`. -/

namespace Vibrato.Agent

open Session List SessionEntry

variable (entry : SessionEntry)

def isValidCutPoint : Bool :=
  match entry.data with
  | .message (.llm (.user ..)) => true
  | .message (.llm (.assistant _)) => true
  | .message (.bashExecution ..) => true
  | .message (.hookMessage ..) => true
  | .message (.branchSummary ..) => true
  | .message (.compactionSummary ..) => true
  | .branchSummary .. => true
  | .customMessage .. => true
  | _ => false

def isUserMessage : Bool :=
  match entry.data with
  | .message (.llm (.user ..)) => true
  | _ => false

def startsTurn : Bool :=
  match entry.data with
  | .message (.llm (.user ..)) => true
  | .message (.bashExecution ..) => true
  | .branchSummary .. => true
  | .customMessage .. => true
  | _ => false

def isBookkeeping : Bool := !entry.isCompaction && !entry.isMessage

structure CutPointResult where
  firstKeptEntryIndex : Nat
  turnStartIndex : Option Nat
  isSplitTurn : Bool
  deriving DecidableEq

section FindCutPoint

variable (entries : List SessionEntry)

def tokensAt (i : Nat) : Nat := (entries[i]?.map estimateEntryTokens).getD 0

def findValidCutPoints (startIndex endIndex : Nat) : List Nat :=
  (List.range' startIndex (endIndex - startIndex)).filter fun i => entries[i]?.any isValidCutPoint

/-- The walk back from the newest of `n` entries, with `accumulatedTokens` after them: the entry at
which the budget is reached. -/
def walkBack (startIndex keepRecentTokens : Nat) : Nat → Nat → Option Nat
  | 0, _ => none
  | n + 1, accumulatedTokens =>
    let accumulatedTokens := accumulatedTokens + tokensAt entries (startIndex + n)
    if keepRecentTokens ≤ accumulatedTokens then some (startIndex + n)
    else walkBack startIndex keepRecentTokens n accumulatedTokens

/-- The closest cut point at or after `i`, or else the last one. -/
def cutPointFrom (cutPoints : List Nat) (i : Nat) : Nat :=
  (cutPoints.find? (i ≤ ·)).getD (cutPoints.getLastD i)

def scanBack (startIndex : Nat) : Nat → Nat
  | 0 => 0
  | c + 1 =>
    if startIndex < c + 1 ∧ entries[c]?.any isBookkeeping = true then scanBack startIndex c
    else c + 1

/-- The entry at or before `entryIndex` that starts its turn. -/
def findTurnStartIndex (startIndex : Nat) : Nat → Option Nat
  | 0 => if startIndex = 0 ∧ entries[0]?.any startsTurn = true then some 0 else none
  | i + 1 =>
    if i + 1 < startIndex then none
    else if entries[i + 1]?.any startsTurn then some (i + 1)
    else findTurnStartIndex startIndex i

def findCutPoint (startIndex endIndex keepRecentTokens : Nat) : CutPointResult :=
  match findValidCutPoints entries startIndex endIndex with
  | [] => ⟨startIndex, none, false⟩
  | first :: rest =>
    let reached := walkBack entries startIndex keepRecentTokens
      (endIndex - startIndex) 0
    let cutIndex := scanBack entries startIndex
      ((reached.map (cutPointFrom (first :: rest))).getD first)
    let isUser := entries[cutIndex]?.any isUserMessage
    let turnStartIndex := if isUser then none else findTurnStartIndex entries startIndex cutIndex
    ⟨cutIndex, turnStartIndex, !isUser && turnStartIndex.isSome⟩

variable {c endIndex i keepRecentTokens n startIndex : Nat}

theorem mem_findValidCutPoints :
    i ∈ findValidCutPoints entries startIndex endIndex ↔
      startIndex ≤ i ∧ i < endIndex ∧ entries[i]?.any isValidCutPoint = true := by
  rw [findValidCutPoints, mem_filter, mem_range'_1, ← and_assoc]
  refine and_congr_left fun _ => ?_
  omega

theorem cutPointFrom_mem {cutPoints : List Nat} (hne : cutPoints ≠ []) (i : Nat) :
    cutPointFrom cutPoints i ∈ cutPoints := by
  unfold cutPointFrom
  cases hfind : cutPoints.find? (i ≤ ·) with
  | some c => exact mem_of_find?_eq_some hfind
  | none =>
    obtain ⟨c, rest, rfl⟩ := exists_cons_of_ne_nil hne
    rw [getLastD_cons, getLastD_eq_getLast?]
    cases hlast : rest.getLast? with
    | none => simp
    | some last => exact mem_cons_of_mem _ (mem_of_getLast? hlast)

theorem scanBack_le (startIndex c : Nat) : scanBack entries startIndex c ≤ c := by
  induction c with
  | zero => exact Nat.le_refl 0
  | succ c ih =>
    rw [scanBack]
    split
    · omega
    · exact Nat.le_refl _

theorem le_scanBack (hstart : startIndex ≤ c) : startIndex ≤ scanBack entries startIndex c := by
  induction c with
  | zero => exact hstart
  | succ c ih =>
    rw [scanBack]
    split
    · next hstep => exact ih (by omega)
    · exact hstart

theorem isBookkeeping_of_scanBack (hle : scanBack entries startIndex c ≤ i)
    (hlt : i < c) : entries[i]?.any isBookkeeping = true := by
  induction c with
  | zero => omega
  | succ c ih =>
    rw [scanBack] at hle
    split at hle
    · next hstep =>
      rcases Nat.lt_succ_iff_lt_or_eq.1 hlt with hlt | rfl
      · exact ih hle hlt
      · exact hstep.2
    · omega

theorem scanBack_stop (hlt : startIndex < scanBack entries startIndex c) :
    entries[scanBack entries startIndex c - 1]?.any isBookkeeping = false := by
  induction c with
  | zero => exact absurd hlt (Nat.not_lt_zero _)
  | succ c ih =>
    rw [scanBack] at hlt ⊢
    split at hlt
    · next hstep =>
      rw [if_pos hstep]
      exact ih hlt
    · next hstep =>
      rw [if_neg hstep]
      exact Bool.eq_false_iff.2 fun hbook => hstep ⟨hlt, hbook⟩

theorem findTurnStartIndex_bounds {entryIndex turnStart : Nat}
    (h : findTurnStartIndex entries startIndex entryIndex = some turnStart) :
    startIndex ≤ turnStart ∧ turnStart ≤ entryIndex := by
  induction entryIndex with
  | zero =>
    rw [findTurnStartIndex] at h
    split at h
    · next hzero =>
      cases h
      omega
    · cases h
  | succ i ih =>
    rw [findTurnStartIndex] at h
    split at h
    · cases h
    · split at h
      · cases h
        omega
      · have hbounds := ih h
        omega

theorem findCutPoint_bounds (hle : startIndex ≤ endIndex) (keepRecentTokens : Nat) :
    let cut := findCutPoint entries startIndex endIndex keepRecentTokens
    startIndex ≤ cut.firstKeptEntryIndex ∧ cut.firstKeptEntryIndex ≤ endIndex ∧
      ∀ turnStart, cut.turnStartIndex = some turnStart →
        startIndex ≤ turnStart ∧ turnStart ≤ cut.firstKeptEntryIndex := by
  intro cut
  simp only [cut, findCutPoint]
  split
  · exact ⟨Nat.le_refl _, hle, fun turnStart h => by cases h⟩
  · next first rest hcutPoints =>
    have hselected : ∀ c ∈ first :: rest, startIndex ≤ c ∧ c < endIndex := by
      intro c hc
      rw [← hcutPoints, mem_findValidCutPoints] at hc
      exact ⟨hc.1, hc.2.1⟩
    generalize hreached : walkBack entries startIndex keepRecentTokens
      (endIndex - startIndex) 0 = reached
    have hmem : (reached.map (cutPointFrom (first :: rest))).getD first ∈ first :: rest := by
      cases reached with
      | none => exact mem_cons_self
      | some i => exact cutPointFrom_mem (by simp) i
    obtain ⟨hlow, hhigh⟩ := hselected _ hmem
    have hscan := scanBack_le entries startIndex
      ((reached.map (cutPointFrom (first :: rest))).getD first)
    refine ⟨le_scanBack entries hlow, hscan.trans hhigh.le, ?_⟩
    intro turnStart hturn
    split at hturn
    · cases hturn
    · exact findTurnStartIndex_bounds entries hturn

theorem findCutPoint_isSplitTurn
    (h : (findCutPoint entries startIndex endIndex keepRecentTokens).isSplitTurn = true) :
    ∃ turnStart, (findCutPoint entries startIndex endIndex keepRecentTokens).turnStartIndex =
      some turnStart := by
  unfold findCutPoint at h ⊢
  split at h
  · cases h
  · simp only [Bool.and_eq_true] at h
    exact Option.isSome_iff_exists.1 h.2

theorem walkBack_tokens_pos {acc : Nat} (hacc : acc < keepRecentTokens)
    (h : walkBack entries startIndex keepRecentTokens n acc = some i) :
    startIndex ≤ i ∧ i < startIndex + n ∧ 0 < tokensAt entries i := by
  induction n generalizing acc with
  | zero => cases h
  | succ n ih =>
    simp only [walkBack] at h
    split at h
    · next hreached =>
      cases h
      omega
    · next hreached =>
      have hrest := ih (by omega) h
      omega

theorem exists_walkBack_eq_some {m : Nat} (hpos : 0 < tokensAt entries (startIndex + m))
    (hm : m < n) (acc : Nat) :
    ∃ keepRecentTokens, acc < keepRecentTokens ∧
      walkBack entries startIndex keepRecentTokens n acc = some (startIndex + m) := by
  induction n generalizing acc with
  | zero => omega
  | succ n ih =>
    rcases Nat.lt_succ_iff_lt_or_eq.1 hm with hlt | rfl
    · obtain ⟨keep, hkeep, hwalk⟩ :=
        ih hlt (acc + tokensAt entries (startIndex + n))
      refine ⟨keep, by omega, ?_⟩
      simp only [walkBack]
      rw [if_neg (by omega), hwalk]
    · refine ⟨acc + tokensAt entries (startIndex + m), by omega, ?_⟩
      simp only [walkBack]
      rw [if_pos (Nat.le_refl _)]

theorem exists_walkBack_eq_none (startIndex n acc : Nat) :
    ∃ bound, ∀ keepRecentTokens, bound < keepRecentTokens →
      walkBack entries startIndex keepRecentTokens n acc = none := by
  induction n generalizing acc with
  | zero => exact ⟨0, fun _ _ => rfl⟩
  | succ n ih =>
    obtain ⟨bound, hbound⟩ := ih (acc + tokensAt entries (startIndex + n))
    refine ⟨max bound (acc + tokensAt entries (startIndex + n)), fun keep hkeep => ?_⟩
    simp only [walkBack]
    rw [if_neg (by omega)]
    exact hbound keep (by omega)

/-- The entries at which the walk stops for some budget: those with tokens, and the last one. -/
def walkStops (startIndex endIndex : Nat) : List Nat :=
  (List.range' startIndex (endIndex - startIndex)).filter fun i =>
    0 < tokensAt entries i || i + 1 == endIndex

theorem mem_walkStops_iff :
    i ∈ walkStops entries startIndex endIndex ↔
      ∃ keepRecentTokens, walkBack entries startIndex keepRecentTokens
        (endIndex - startIndex) 0 = some i := by
  rw [walkStops, mem_filter, mem_range'_1]
  simp only [Bool.or_eq_true, decide_eq_true_eq, beq_iff_eq]
  constructor
  · rintro ⟨⟨hlow, hhigh⟩, hpos | hlast⟩
    · obtain ⟨m, rfl⟩ := Nat.exists_eq_add_of_le hlow
      obtain ⟨keep, -, hwalk⟩ := exists_walkBack_eq_some entries hpos
        (n := endIndex - startIndex) (by omega) 0
      exact ⟨keep, hwalk⟩
    · refine ⟨0, ?_⟩
      obtain ⟨n, hn⟩ : ∃ n, endIndex - startIndex = n + 1 := ⟨endIndex - startIndex - 1, by omega⟩
      rw [hn, walkBack]
      simp only [Nat.zero_le, if_true, Option.some.injEq]
      omega
  · rintro ⟨keep, hwalk⟩
    cases keep with
    | zero =>
      cases hn : endIndex - startIndex with
      | zero =>
        rw [hn] at hwalk
        cases hwalk
      | succ n =>
        rw [hn, walkBack] at hwalk
        simp only [Nat.zero_le, if_true, Option.some.injEq] at hwalk
        omega
    | succ keep =>
      have hpos := walkBack_tokens_pos entries (Nat.succ_pos keep) hwalk
      exact ⟨⟨hpos.1, hpos.2.1⟩, .inl hpos.2.2⟩

/-- The cut points that a budget can select: the first one, and those at or after an entry at which
the walk stops.  Without cut points the whole range is kept. -/
def selectableCuts (startIndex endIndex : Nat) : List Nat :=
  match findValidCutPoints entries startIndex endIndex with
  | [] => [startIndex]
  | first :: rest =>
    first :: (walkStops entries startIndex endIndex).map (cutPointFrom (first :: rest))

def cutAt (startIndex cutIndex : Nat) : CutPointResult :=
  let isUser := entries[cutIndex]?.any isUserMessage
  let turnStartIndex := if isUser then none else findTurnStartIndex entries startIndex cutIndex
  ⟨cutIndex, turnStartIndex, !isUser && turnStartIndex.isSome⟩

/-- What holds of the result for every budget is what holds of it for every cut point that can be
selected. -/
theorem forall_findCutPoint_iff
    (hne : findValidCutPoints entries startIndex endIndex ≠ []) {P : CutPointResult → Prop} :
    (∀ keepRecentTokens, P (findCutPoint entries startIndex endIndex keepRecentTokens)) ↔
      ∀ cut ∈ selectableCuts entries startIndex endIndex,
        P (cutAt entries startIndex (scanBack entries startIndex cut)) := by
  unfold selectableCuts findCutPoint
  split
  · next hnil => exact absurd hnil hne
  · next first rest hcutPoints =>
    simp only [mem_cons, mem_map, mem_walkStops_iff]
    constructor
    · rintro hall cut (rfl | ⟨i, ⟨keep, hwalk⟩, rfl⟩)
      · obtain ⟨bound, hbound⟩ := exists_walkBack_eq_none entries startIndex
          (endIndex - startIndex) 0
        have hkeep := hall (bound + 1)
        rw [hbound (bound + 1) (Nat.lt_succ_self bound)] at hkeep
        exact hkeep
      · have hkeep := hall keep
        rw [hwalk] at hkeep
        exact hkeep
    · intro hall keep
      cases hwalk : walkBack entries startIndex keep (endIndex - startIndex) 0 with
      | none => exact hall first (.inl rfl)
      | some i => exact hall _ (.inr ⟨i, ⟨keep, hwalk⟩, rfl⟩)

theorem mem_of_mem_selectableCuts {cut : Nat}
    (hne : findValidCutPoints entries startIndex endIndex ≠ [])
    (h : cut ∈ selectableCuts entries startIndex endIndex) :
    cut ∈ findValidCutPoints entries startIndex endIndex := by
  unfold selectableCuts at h
  split at h
  · next hnil => exact absurd hnil hne
  · next first rest hcutPoints =>
    rw [hcutPoints]
    rcases mem_cons.1 h with rfl | h
    · exact mem_cons_self
    · obtain ⟨i, -, rfl⟩ := mem_map.1 h
      exact cutPointFrom_mem (by simp) i

/-- The position of the call that the tool result at `r` answers: the last assistant message before
it that holds a call with its id. -/
def callIndex? (r : Nat) : Option Nat :=
  (entries[r]?.bind answeredCallId?).bind fun id =>
    ((List.range r).filter fun a =>
      entries[a]?.any fun entry => entry.toolCalls.any (·.id == id)).getLast?

/-- No tool result from `cut` on answers a call before `cut`. -/
def KeepsCalls (cut endIndex : Nat) : Prop :=
  ∀ r a, cut ≤ r → r < endIndex → callIndex? entries r = some a → cut ≤ a

theorem not_isBookkeeping_of_callIndex? {r a : Nat} (h : callIndex? entries r = some a) :
    entries[r]?.any isBookkeeping = false ∧ entries[a]?.any isBookkeeping = false := by
  obtain ⟨id, hid, hlast⟩ := Option.bind_eq_some_iff.1 h
  obtain ⟨result, hresult, hanswered⟩ := Option.bind_eq_some_iff.1 hid
  have hcall := (mem_filter.1 (mem_of_getLast? hlast)).2
  refine ⟨?_, ?_⟩
  · rw [hresult]
    unfold answeredCallId? at hanswered
    split at hanswered
    · next hdata => simp [isBookkeeping, isMessage, hdata]
    · cases hanswered
  · cases hentry : entries[a]? with
    | none => rfl
    | some entry =>
      rw [hentry, Option.any_some] at hcall
      unfold toolCalls at hcall
      split at hcall
      · next hdata => simp [isBookkeeping, isMessage, hdata]
      · simp at hcall

theorem keepsCalls_scanBack_iff (startIndex c endIndex : Nat) :
    KeepsCalls entries (scanBack entries startIndex c) endIndex ↔
      KeepsCalls entries c endIndex := by
  have hle := scanBack_le entries startIndex c
  -- The scan steps over no tool result and no call, so that both sides speak of the same pairs.
  have hkept : ∀ i, entries[i]?.any isBookkeeping = false →
      (scanBack entries startIndex c ≤ i ↔ c ≤ i) := by
    intro i hi
    refine ⟨fun hscan => ?_, fun hc => by omega⟩
    by_contra hlt
    rw [isBookkeeping_of_scanBack entries hscan (by omega)] at hi
    cases hi
  constructor
  · intro h r a hr hend hcall
    obtain ⟨hresult, hassistant⟩ := not_isBookkeeping_of_callIndex? entries hcall
    exact (hkept a hassistant).1 (h r a ((hkept r hresult).2 hr) hend hcall)
  · intro h r a hr hend hcall
    obtain ⟨hresult, hassistant⟩ := not_isBookkeeping_of_callIndex? entries hcall
    exact (hkept a hassistant).2 (h r a ((hkept r hresult).1 hr) hend hcall)

/-- For every budget, the kept entries hold the call of each tool result they hold, if and only if
no cut point that a budget can select lies after a call and not after its result. -/
theorem findCutPoint_keepsCalls_iff (startIndex endIndex : Nat) :
    (∀ keepRecentTokens, KeepsCalls entries
        (findCutPoint entries startIndex endIndex keepRecentTokens).firstKeptEntryIndex
        endIndex) ↔
      ∀ r a, r < endIndex → callIndex? entries r = some a →
        ∀ cut, a < cut → cut ≤ r → cut ∉ selectableCuts entries startIndex endIndex := by
  have hcuts :
      (∀ cut ∈ selectableCuts entries startIndex endIndex, KeepsCalls entries cut endIndex) ↔
      ∀ r a, r < endIndex → callIndex? entries r = some a →
        ∀ cut, a < cut → cut ≤ r → cut ∉ selectableCuts entries startIndex endIndex :=
    ⟨fun h r a hend hcall cut ha hr hcut => Nat.not_le.2 ha (h cut hcut r a hr hend hcall),
      fun h cut hcut r a hr hend hcall => Nat.not_lt.1 fun ha => h r a hend hcall cut ha hr hcut⟩
  rw [← hcuts]
  by_cases hne : findValidCutPoints entries startIndex endIndex = []
  · simp [selectableCuts, findCutPoint, hne]
  · rw [forall_findCutPoint_iff entries hne
      (P := fun cut => KeepsCalls entries cut.firstKeptEntryIndex endIndex)]
    simp only [cutAt, keepsCalls_scanBack_iff]

end FindCutPoint

def injectedPath : List SessionEntry :=
  [⟨"a".toList, none, .message (.llm (.assistant
      { content := [.toolCall ⟨"t1".toList, "bash".toList, [], none⟩], api := [], provider := [],
        model := [], usage := ⟨0, 0, 0, 0, 0⟩, stopReason := .toolUse, timestamp := 0 }))⟩,
    ⟨"b".toList, some "a".toList, .customMessage "note".toList [.text "note".toList] true⟩,
    ⟨"c".toList, some "b".toList, .message (.llm (.toolResult
      { toolCallId := "t1".toList, toolName := "bash".toList, content := [.text "done".toList],
        isError := false, timestamp := 1 }))⟩]

/-- The path is cut at the injected message, and the result is kept without its call. -/
theorem findCutPoint_separates :
    ¬ ∀ (entries : List SessionEntry) (startIndex endIndex keepRecentTokens : Nat),
      (∀ r < entries.length, (entries[r]?.bind answeredCallId?).isSome →
        (callIndex? entries r).isSome) →
      KeepsCalls entries
        (findCutPoint entries startIndex endIndex keepRecentTokens).firstKeptEntryIndex
        endIndex := by
  intro hall
  have hcut : (findCutPoint injectedPath 0 3 2).firstKeptEntryIndex = 1 := by decide
  have hkeeps := hall injectedPath 0 3 2 (by decide)
  exact absurd (hkeeps 2 0 (by decide) (by decide) (by decide)) (by decide)

end Vibrato.Agent
