import Mathlib.Data.Nat.Init
import Vibrato.Tui.EscapeSequences

namespace Vibrato.Tui.Stdin

open Lib CodeUnits List

variable (s : CodeUnits)

def escapeRun : Nat := (s.takeWhile (· = ESC)).length

theorem escapeRun_le : escapeRun s ≤ s.length := ( takeWhile_prefix _).length_le

theorem escapeRun_cons_esc : escapeRun (ESC :: s) = escapeRun s + 1 := by
  rfl

variable {u x : UInt16} {remainder s : CodeUnits} {known n run : Nat} {sequences : List CodeUnits}

theorem escapeRun_cons_ne (h : u ≠ ESC) (s : CodeUnits) : escapeRun (u :: s) = 0 := by
  rw [escapeRun, takeWhile_cons_of_neg (by simpa using h)]
  rfl

theorem take_escapeRun (h : n ≤ escapeRun s) : s.take n = List.replicate n ESC := by
  induction s generalizing n with
  | nil =>
    rw [Nat.le_zero.mp h]
    rfl
  | cons u s ih =>
    cases n with
    | zero => rfl
    | succ n =>
      by_cases hu : u = ESC
      · rw [hu] at h
        rw [hu, take_succ_cons, replicate_succ, ih (Nat.le_of_succ_le_succ h)]
      · rw [escapeRun_cons_ne hu] at h
        exact absurd h (Nat.not_succ_le_zero n)

theorem le_escapeRun (hn : n ≤ s.length) (h : (s.take n).all (· = ESC) = true) :
    n ≤ escapeRun s := by
  induction s generalizing n with
  | nil => exact hn
  | cons u s ih =>
    cases n with
    | zero => exact Nat.zero_le _
    | succ n =>
      rw [take_succ_cons, all_cons, Bool.and_eq_true, decide_eq_true_eq] at h
      rw [h.1]
      exact Nat.succ_le_succ (ih (Nat.le_of_succ_le_succ hn) h.2)

theorem escapeRun_drop (h : n ≤ escapeRun s) : n + escapeRun (s.drop n) = escapeRun s := by
  induction s generalizing n with
  | nil =>
    rw [Nat.le_zero.mp h]
    rfl
  | cons u s ih =>
    cases n with
    | zero => exact Nat.zero_add _
    | succ n =>
      by_cases hu : u = ESC
      · rw [hu, escapeRun_cons_esc] at h ⊢
        have hrest := ih (Nat.le_of_succ_le_succ h)
        rw [drop_succ_cons]
        omega
      · rw [escapeRun_cons_ne hu] at h
        exact absurd h (Nat.not_succ_le_zero n)

theorem escapeRun_append (h : escapeRun s < s.length) (t : CodeUnits) :
    escapeRun (s ++ t) = escapeRun s := by
  induction s with
  | nil => exact absurd h (Nat.not_lt_zero _)
  | cons u s ih =>
    by_cases hu : u = ESC
    · rw [hu, cons_append, escapeRun_cons_esc, escapeRun_cons_esc]
      rw [hu] at h
      rw [ih (Nat.lt_of_succ_lt_succ h)]
    · rw [cons_append, escapeRun_cons_ne hu, escapeRun_cons_ne hu]

theorem runLength_eq (hhead : s[0]? = some ESC) (h : known ≤ escapeRun s) :
    runLength known s = escapeRun s := by
  cases s with
  | nil => cases hhead
  | cons u s =>
    have hu : u = ESC := Option.some.inj hhead
    have hpos : 1 ≤ escapeRun (u :: s) := by
      rw [hu, escapeRun_cons_esc]
      omega
    exact escapeRun_drop (Nat.max_le.mpr ⟨h, hpos⟩)

theorem findEnd_eq_some : findEnd s = some n ↔
    1 ≤ n ∧ n ≤ s.length ∧ endsAt s n = true ∧ ∀ m, 1 ≤ m → m < n → endsAt s m = false := by
  unfold findEnd
  rw [find?_range'_eq_some, mem_range'_1]
  constructor
  · rintro ⟨hends, ⟨hpos, hle⟩, hbefore⟩
    exact ⟨hpos, by omega, hends, fun m hm hlt => by simpa using hbefore m hm hlt⟩
  · rintro ⟨hpos, hle, hends, hbefore⟩
    exact ⟨hends, ⟨hpos, by omega⟩, fun m hm hlt => by simpa using hbefore m hm hlt⟩

theorem findEnd_eq_none : findEnd s = none ↔ ∀ m, 1 ≤ m → m ≤ s.length → endsAt s m = false := by
  unfold findEnd
  rw [find?_range'_eq_none]
  constructor
  · intro h m hm hle
    simpa using h m hm (by omega)
  · intro h m hm hlt
    simpa using h m hm (by omega)

theorem isCompleteSequence_string (hopens : opensString (s ++ [ESC]) = true)
    (hlength : 2 ≤ s.length) (hhead : s[0]? = some ESC) :
    isCompleteSequence (s ++ [ESC]) = .incomplete := by
  match s, hlength with
  | c :: d :: rest, _ =>
    have hc : c = ESC := Option.some.inj hhead
    have hstring : ∀ introducer bel, d = introducer →
        isCompleteStringSequence introducer bel (c :: d :: (rest ++ [ESC])) = .incomplete := by
      intro introducer bel hd
      have hst : ¬ [ESC, 0x5C] <:+ c :: d :: (rest ++ [ESC]) := by
        intro h
        obtain ⟨before, hbefore⟩ := h
        have hlast := congrArg List.getLast? hbefore
        simp [getLast?_append, getLast?_cons, ESC] at hlast
      have hbel : ¬ [0x07] <:+ c :: d :: (rest ++ [ESC]) := by
        intro h
        obtain ⟨before, hbefore⟩ := h
        have hlast := congrArg List.getLast? hbefore
        simp [getLast?_append, getLast?_cons, ESC] at hlast
      rw [isCompleteStringSequence, if_neg, if_neg]
      · rintro (h | h)
        · exact hst h
        · exact hbel h.2
      · rw [not_not, hc, hd]
        exact ⟨rest ++ [ESC], rfl⟩
    have hkinds : d = 0x5D ∨ d = 0x50 ∨ d = 0x5F := by
      simpa [opensString, or_assoc] using hopens
    rw [cons_append, cons_append, isCompleteSequence, if_neg (not_not.mpr hc)]
    rcases hkinds with hd | hd | hd
    · rw [hd, if_neg (by decide), if_neg (by decide), if_pos rfl]
      exact hd ▸ hstring 0x5D true hd
    · rw [hd, if_neg (by decide), if_neg (by decide), if_neg (by decide), if_pos rfl]
      exact hd ▸ hstring 0x50 false hd
    · rw [hd, if_neg (by decide), if_neg (by decide), if_neg (by decide), if_neg (by decide),
        if_pos rfl]
      exact hd ▸ hstring 0x5F false hd

theorem endsAt_eq_false : endsAt s n = false ↔
    isCompleteSequence (s.take n) = .incomplete ∧
      (s[n]? = some ESC → 2 ≤ n → continuesAsStringTerminator s n = true) := by
  simp only [endsAt, Bool.or_eq_false_iff, Bool.and_eq_false_iff, decide_eq_false_iff_not, ne_eq,
    not_not, Bool.not_eq_false']
  constructor
  · rintro ⟨hstatus, h⟩
    exact ⟨hstatus, fun hesc htwo => (h.resolve_left fun h' => h'.elim (· hesc) (· htwo))⟩
  · rintro ⟨hstatus, h⟩
    refine ⟨hstatus, ?_⟩
    by_cases hesc : s[n]? = some ESC
    · by_cases htwo : 2 ≤ n
      · exact .inr (h hesc htwo)
      · exact .inl (.inr htwo)
    · exact .inl (.inl hesc)

theorem endsAt_eq_true : endsAt s n = true ↔
    isCompleteSequence (s.take n) ≠ .incomplete ∨
      (s[n]? = some ESC ∧ 2 ≤ n ∧ continuesAsStringTerminator s n = false) := by
  simp [endsAt, and_assoc]

theorem opensString_append (h : 2 ≤ s.length) (c : CodeUnits) :
    opensString (s ++ c) = opensString s := by
  rw [opensString, opensString, getElem?_append_left (by omega)]

theorem endsAt_append_of_false {m : Nat} (hm : m < s.length) (h : endsAt s m = false)
    (hknown : s[m]? = some ESC → m + 1 < s.length) (c : CodeUnits) : endsAt (s ++ c) m = false := by
  rw [endsAt_eq_false] at h ⊢
  refine ⟨?_, fun hesc htwo => ?_⟩
  · rw [take_append_of_le_length (Nat.le_of_lt hm)]
    exact h.1
  · rw [getElem?_append_left hm] at hesc
    have hcontinues := h.2 hesc htwo
    rw [continuesAsStringTerminator] at hcontinues ⊢
    rw [opensString_append (by omega), getElem?_append_left (hknown hesc)]
    exact hcontinues

theorem endsAt_append_of_true (hn : n ≤ s.length) (h : endsAt s n = true)
    (c : CodeUnits) : endsAt (s ++ c) n = true := by
  rw [endsAt_eq_true] at h ⊢
  rcases h with h | ⟨hesc, htwo, h⟩
  · rw [take_append_of_le_length hn]
    exact .inl h
  · obtain ⟨hlt, -⟩ := List.getElem?_eq_some_iff.mp hesc
    refine .inr ⟨by rw [getElem?_append_left hlt]; exact hesc, htwo, ?_⟩
    rw [continuesAsStringTerminator, Bool.and_eq_false_iff] at h ⊢
    rw [opensString_append (by omega)]
    rcases h with h | h
    · exact .inl h
    · refine .inr ?_
      cases hnext : s[n + 1]? with
      | none =>
        rw [hnext] at h
        cases h
      | some u =>
        obtain ⟨hlt', -⟩ := List.getElem?_eq_some_iff.mp hnext
        rw [getElem?_append_left hlt']
        exact h

theorem findEnd_append (hhead : s[0]? = some ESC) (h : findEnd s = some n)
    (c : CodeUnits) : findEnd (s ++ c) = some n := by
  rw [findEnd_eq_some] at h ⊢
  obtain ⟨hpos, hle, hends, hbefore⟩ := h
  refine ⟨hpos, ?_, endsAt_append_of_true hle hends c, fun m hm hlt => ?_⟩
  · rw [length_append]
    omega
  refine endsAt_append_of_false (by omega) (hbefore m hm hlt) (fun hesc => ?_) c
  -- otherwise the whole input is a string that ends with an `ESC`
  by_contra hlast
  have hlength : m + 1 = s.length := by omega
  have hn : n = s.length := by omega
  obtain ⟨hstatus, hcontinues⟩ := endsAt_eq_false.mp (hbefore m hm hlt)
  have hsplit : s.take m ++ [ESC] = s := by
    obtain ⟨hlt', hget⟩ := List.getElem?_eq_some_iff.mp hesc
    rw [← hget, take_append_getElem hlt', hlength, take_length]
  have htwo : 2 ≤ m := by
    by_contra hone
    have hm1 : m = 1 := by omega
    rw [hn, endsAt_eq_true] at hends
    rcases hends with hends | ⟨hnone, -⟩
    · match s, hlength, hhead, hesc with
      | [a, b], _, hhead, hesc =>
        cases hhead
        rw [hm1] at hesc
        cases hesc
        exact hends rfl
      | [], hlength, _, _ => cases hlength
      | [a], hlength, _, _ => rw [hm1] at hlength; cases hlength
      | _ :: _ :: _ :: _, hlength, _, _ => rw [hm1] at hlength; cases hlength
    · rw [getElem?_eq_none (Nat.le_refl _)] at hnone
      cases hnone
  have hopens : opensString s = true := by
    have h := hcontinues hesc htwo
    rw [continuesAsStringTerminator, Bool.and_eq_true] at h
    exact h.1
  have hincomplete : isCompleteSequence s = .incomplete := by
    rw [← hsplit] at hopens ⊢
    refine isCompleteSequence_string hopens (by rw [length_take]; omega) ?_
    rw [getElem?_take_of_lt (by omega)]
    exact hhead
  rw [hn, endsAt_eq_true, take_length] at hends
  rcases hends with hends | ⟨hnone, -⟩
  · exact hends hincomplete
  · rw [getElem?_eq_none (Nat.le_refl _)] at hnone
    cases hnone

theorem ne_of_isHigh (hx : isHigh x = true) (hu : isHigh u = false) : x ≠ u := by
  rintro rfl
  rw [hx] at hu
  cases hu

theorem round_high_esc (hu : isHigh u = true) (s : CodeUnits) :
    round 0 ([u] ++ ESC :: s) = .take [[u]] 1 := by
  have hne : u ≠ ESC := ne_of_isHigh hu rfl
  unfold round
  rw [if_neg (by simpa using hne), if_pos (by simpa using hu)]
  rfl

theorem findEnd_high (hx : isHigh x = true) : findEnd [ESC, x] = none := by
  have hne : ∀ u, isHigh u = false → x ≠ u := fun u => ne_of_isHigh hx
  have hincomplete : isCompleteSequence [ESC, x] = .incomplete := by
    simp [isCompleteSequence, hx, hne ESC rfl, hne 0x5B rfl, hne 0x5D rfl, hne 0x50 rfl,
      hne 0x5F rfl, hne 0x4F rfl]
  rw [findEnd_eq_none]
  intro m hpos hle
  have hm : m = 1 ∨ m = 2 := by
    rw [length_cons, length_singleton] at hle
    omega
  rcases hm with rfl | rfl
  · exact endsAt_eq_false.mpr ⟨rfl, fun _ htwo => absurd htwo (by decide)⟩
  · exact endsAt_eq_false.mpr ⟨hincomplete, nofun⟩

theorem taken_eq (hrun : escapeRun s ≤ 2) (h : findEnd s = some n) :
    taken s n = ([s.take n], n) := by
  obtain ⟨hpos, hle, hends, -⟩ := findEnd_eq_some.mp h
  unfold taken
  dsimp only
  split
  · rfl
  · next hincomplete =>
    rw [if_neg]
    intro hall
    rcases endsAt_eq_true.mp hends with hcomplete | ⟨hesc, htwo, -⟩
    · exact hincomplete hcomplete
    -- three `ESC` would stand at the start
    · obtain ⟨hlt, hget⟩ := List.getElem?_eq_some_iff.mp hesc
      have hmore : (s.take (n + 1)).all (· = ESC) = true := by
        rw [take_succ_eq_append_getElem hlt, all_append, hall, hget]
        simp
      have hlong := le_escapeRun hlt hmore
      omega

theorem round_eq (h : known ≤ escapeRun s) : round known s = round 0 s := by
  unfold round
  split
  · next hhead => rw [runLength_eq hhead h, runLength_eq hhead (Nat.zero_le _)]
  · rfl

theorem round_take (hne : s ≠ [])
    (h : round 0 s = .take sequences n) : sequences.flatten = s.take n ∧ 1 ≤ n ∧ n ≤ s.length := by
  have hpos := length_pos_of_ne_nil hne
  unfold round at h
  split at h
  · next hhead =>
    split at h
    · next hthree =>
      cases h
      exact ⟨by simp, by omega, by omega⟩
    · rw [runLength_eq hhead (Nat.zero_le _)] at h
      dsimp only at h
      split at h
      · cases h
      · split at h
        · next htwo =>
          cases h
          have hle := escapeRun_le s
          refine ⟨?_, by omega, by omega⟩
          rw [take_escapeRun (Nat.sub_le _ _)]
          simp
        · next htwo =>
          split at h
          · cases h
          · next seqEnd hfound =>
            rw [taken_eq (by omega) hfound] at h
            cases h
            obtain ⟨hone, hle, -⟩ := findEnd_eq_some.mp hfound
            exact ⟨by simp, hone, hle⟩
  · split at h
    · split at h
      · cases h
      · split at h
        · cases h
          exact ⟨by simp, by omega, by omega⟩
        · cases h
          exact ⟨by simp, Nat.le_refl _, hpos⟩
    · cases h
      exact ⟨by simp, Nat.le_refl _, hpos⟩

theorem round_append (hne : s ≠ [])
    (h : round 0 s = .take sequences n) (c : CodeUnits) : round 0 (s ++ c) = .take sequences n := by
  have hpos := length_pos_of_ne_nil hne
  have hzero : (s ++ c)[0]? = s[0]? := getElem?_append_left hpos
  unfold round at h ⊢
  rw [hzero]
  split at h
  · next hhead =>
    rw [if_pos hhead]
    split at h
    · next hthree =>
      cases h
      rw [if_pos, take_append_of_le_length (by omega)]
      rw [getElem?_append_left (by omega), getElem?_append_left (by omega), length_append]
      exact ⟨by omega, hthree.2⟩
    · next hnot =>
      rw [runLength_eq hhead (Nat.zero_le _)] at h
      dsimp only at h
      split at h
      · cases h
      · next hrun =>
        have hlt : escapeRun s < s.length := Nat.lt_of_le_of_ne (escapeRun_le s) hrun
        have hrun' : escapeRun (s ++ c) = escapeRun s := escapeRun_append hlt c
        rw [runLength_eq (hzero.trans hhead) (Nat.zero_le _), hrun']
        -- a surrogate alone after the `ESC` would leave the round open
        rw [if_neg, if_neg (by rw [length_append]; omega)]
        · split at h
          · next htwo =>
            cases h
            rw [if_pos htwo]
          · next htwo =>
            rw [if_neg htwo]
            split at h
            · cases h
            · next seqEnd hfound =>
              have hfound' := findEnd_append hhead hfound c
              rw [taken_eq (by omega) hfound] at h
              cases h
              rw [hfound']
              dsimp only
              rw [taken_eq (by omega) hfound',
                take_append_of_le_length (findEnd_eq_some.mp hfound).2.1]
        · rintro ⟨hthree, hhigh, hlow⟩
          by_cases hlength : 3 ≤ s.length
          · rw [getElem?_append_left (by omega)] at hhigh hlow
            exact hnot ⟨hlength, hhigh, hlow⟩
          · have hlengthTwo : s.length = 2 := by
              have hone : 1 ≤ escapeRun s := le_escapeRun hpos (by
                cases s with
                | nil => cases hhead
                | cons => cases hhead; rfl)
              omega
            obtain ⟨_, x, rfl⟩ := length_eq_two.mp hlengthTwo
            cases hhead
            have hx : isHigh x = true := hhigh
            have hone : escapeRun [ESC, x] = 1 := by
              rw [escapeRun_cons_esc, escapeRun_cons_ne (ne_of_isHigh hx rfl)]
            rw [hone, findEnd_high hx] at h
            cases h
  · next hhead =>
    rw [if_neg hhead]
    split at h
    · next hhigh =>
      rw [if_pos hhigh]
      split at h
      · cases h
      · next hone =>
        rw [if_neg (by rw [length_append]; omega), getElem?_append_left (by omega)]
        split at h
        · next hlow =>
          cases h
          rw [if_pos hlow, take_append_of_le_length (by omega)]
        · next hlow =>
          cases h
          rw [if_neg hlow, take_append_of_le_length (by omega)]
    · next hhigh =>
      cases h
      rw [if_neg hhigh, take_append_of_le_length (by omega)]

theorem round_leave (h : round 0 s = .leave sequences remainder run) :
    (sequences = [] ∧ remainder = s) ∨
      ∃ n, s = List.replicate (n + 3) ESC ∧ sequences = List.replicate (n + 1) [ESC] ∧
        remainder = [ESC, ESC] := by
  unfold round at h
  split at h
  · next hhead =>
    split at h
    · cases h
    · rw [runLength_eq hhead (Nat.zero_le _)] at h
      dsimp only at h
      split at h
      · next hrun =>
        have hall : s = List.replicate (escapeRun s) ESC := by
          rw [← take_escapeRun (Nat.le_refl _), hrun, take_length]
        cases h
        by_cases hshort : escapeRun s ≤ 2
        · rw [Nat.sub_eq_zero_of_le hshort]
          exact .inl ⟨rfl, rfl⟩
        · refine .inr ⟨escapeRun s - 3, ?_, ?_, ?_⟩
          · rw [show escapeRun s - 3 + 3 = escapeRun s by omega]
            exact hall
          · rw [show escapeRun s - 3 + 1 = escapeRun s - 2 by omega]
          · conv => lhs; rw [hall]
            rw [drop_replicate, ← hall, show escapeRun s - (escapeRun s - 2) = 2 by omega]
            rfl
      · split at h
        · cases h
        · split at h
          · cases h
            exact .inl ⟨rfl, rfl⟩
          · cases h
  · split at h
    · split at h
      · cases h
        exact .inl ⟨rfl, rfl⟩
      · split at h
        · cases h
        · cases h
    · cases h

def Extracted.after (sequences : List CodeUnits) (x : Extracted) : Extracted :=
  { x with sequences := sequences ++ x.sequences }

theorem Extracted.after_append (a b : List CodeUnits) (x : Extracted) :
    x.after (a ++ b) = (x.after b).after a := by
  rw [after, after, after, append_assoc]

/-- `extractCompleteSequences` with no run known. -/
def extract (buffer : CodeUnits) : Extracted := extractCompleteSequences buffer 0

theorem extractFrom_eq {fuel fuel' : Nat} (hknown : known ≤ escapeRun s)
    (h : s.length < fuel) (h' : s.length < fuel') :
    extractFrom fuel known s = extractFrom fuel' 0 s := by
  induction fuel generalizing fuel' known s with
  | zero => exact absurd h (Nat.not_lt_zero _)
  | succ fuel ih =>
    cases fuel' with
    | zero => exact absurd h' (Nat.not_lt_zero _)
    | succ fuel' =>
      rw [extractFrom, extractFrom, round_eq hknown]
      split
      · rfl
      · next hne =>
        cases hround : round 0 s with
        | leave sequences remainder run => rfl
        | take sequences n =>
          obtain ⟨-, hpos, hle⟩ := round_take hne hround
          have hrest : extractFrom fuel 0 (s.drop n) = extractFrom fuel' 0 (s.drop n) :=
            ih (Nat.zero_le _) (by rw [length_drop]; omega) (by rw [length_drop]; omega)
          dsimp only
          rw [hrest]

theorem extractCompleteSequences_eq (h : known ≤ escapeRun s) :
    extractCompleteSequences s known = extract s :=
  extractFrom_eq h (Nat.lt_succ_self _) (Nat.lt_succ_self _)

theorem extract_of_take (hne : s ≠ [])
    (h : round 0 s = .take sequences n) : extract s = (extract (s.drop n)).after sequences := by
  obtain ⟨-, hpos, hle⟩ := round_take hne h
  have hrest : extractFrom s.length 0 (s.drop n) = extract (s.drop n) :=
    extractFrom_eq (Nat.zero_le _) (by rw [length_drop]; omega) (Nat.lt_succ_self _)
  rw [extract, extractCompleteSequences, extractFrom, if_neg hne, h]
  dsimp only
  rw [hrest]
  rfl

theorem extract_of_leave (hne : s ≠ [])
    (h : round 0 s = .leave sequences remainder run) : extract s = ⟨sequences, remainder, run⟩ := by
  rw [extract, extractCompleteSequences, extractFrom, if_neg hne, h]

variable (s)

theorem extract_flatten : (extract s).sequences.flatten ++ (extract s).remainder = s := by
  induction hlength : s.length using Nat.strong_induction_on generalizing s with
  | _ length ih =>
    by_cases hne : s = []
    · rw [hne]
      rfl
    · cases hround : round 0 s with
      | leave sequences remainder run =>
        rw [extract_of_leave hne hround]
        rcases round_leave hround with ⟨rfl, rfl⟩ | ⟨n, rfl, rfl, rfl⟩
        · rfl
        · rw [flatten_replicate_singleton]
          exact replicate_append_replicate (m := 2)
      | take sequences n =>
        obtain ⟨hflatten, hpos, hle⟩ := round_take hne hround
        rw [extract_of_take hne hround]
        show (sequences ++ (extract (s.drop n)).sequences).flatten ++
            (extract (s.drop n)).remainder = s
        rw [flatten_append, append_assoc, hflatten,
          ih _ (by rw [length_drop]; omega) (s.drop n) rfl, take_append_drop]

theorem extract_three_escapes :
    extract (ESC :: ESC :: ESC :: s) = (extract (ESC :: ESC :: s)).after [[ESC]] := by
  have hrun : ∀ t : CodeUnits, runLength 0 (ESC :: t) = escapeRun t + 1 := by
    intro t
    rw [runLength_eq rfl (Nat.zero_le _), escapeRun_cons_esc]
  have hround : ∀ t : CodeUnits, round 0 (ESC :: ESC :: t) =
      if escapeRun t + 2 = t.length + 2 then
        .leave (List.replicate (escapeRun t) [ESC]) ((ESC :: ESC :: t).drop (escapeRun t))
          (min (escapeRun t + 2) 2)
      else if escapeRun t + 2 > 2 then .take (List.replicate (escapeRun t) [ESC]) (escapeRun t)
      else (findEnd (ESC :: ESC :: t)).elim (.leave [] (ESC :: ESC :: t) 0) fun seqEnd =>
        .take (taken (ESC :: ESC :: t) seqEnd).1 (taken (ESC :: ESC :: t) seqEnd).2 := by
    intro t
    unfold round
    rw [if_pos (by rfl), if_neg (by rintro ⟨-, hhigh, -⟩; cases hhigh), hrun]
    cases findEnd (ESC :: ESC :: t) <;> rfl
  by_cases hall : escapeRun s = s.length
  · have h3 : round 0 (ESC :: ESC :: ESC :: s) = .leave (List.replicate (s.length + 1) [ESC])
        ((ESC :: ESC :: s).drop s.length) 2 := by
      rw [hround, escapeRun_cons_esc, hall, if_pos (by rfl)]
      rfl
    have h2 : round 0 (ESC :: ESC :: s) = .leave (List.replicate s.length [ESC])
        ((ESC :: ESC :: s).drop s.length) 2 := by
      rw [hround, hall, if_pos rfl, Nat.min_eq_right (by omega)]
    rw [extract_of_leave (by simp) h3, extract_of_leave (by simp) h2]
    rfl
  · have h3 : round 0 (ESC :: ESC :: ESC :: s) =
        .take (List.replicate (escapeRun s + 1) [ESC]) (escapeRun s + 1) := by
      rw [hround, escapeRun_cons_esc, if_neg (by rw [length_cons]; omega), if_pos (by omega)]
    rw [extract_of_take (by simp) h3]
    by_cases hzero : escapeRun s = 0
    · rw [hzero]
      rfl
    · have h2 :
          round 0 (ESC :: ESC :: s) = .take (List.replicate (escapeRun s) [ESC]) (escapeRun s) := by
        rw [hround, if_neg (by omega), if_pos (by omega)]
      rw [extract_of_take (s := ESC :: ESC :: s) (by simp) h2]
      exact Extracted.after_append [[ESC]] _ _

theorem extract_append (c : CodeUnits) :
    extract (s ++ c) = (extract ((extract s).remainder ++ c)).after (extract s).sequences := by
  induction hlength : s.length using Nat.strong_induction_on generalizing s with
  | _ length ih =>
    by_cases hne : s = []
    · rw [hne]
      rfl
    · cases hround : round 0 s with
      | leave sequences remainder run =>
        rw [extract_of_leave hne hround]
        rcases round_leave hround with ⟨rfl, rfl⟩ | ⟨n, rfl, rfl, rfl⟩
        · rfl
        · clear ih hlength hne hround
          induction n with
          | zero => exact extract_three_escapes c
          | succ n ihn =>
            rw [replicate_succ, replicate_succ, replicate_succ, cons_append, cons_append,
              cons_append,
              extract_three_escapes, ← cons_append, ← cons_append, ← replicate_succ,
                ← replicate_succ, ihn]
            exact (Extracted.after_append [[ESC]] _ _).symm
      | take sequences n =>
        obtain ⟨-, hpos, hle⟩ := round_take hne hround
        rw [extract_of_take hne hround,
          extract_of_take (append_ne_nil_of_left_ne_nil hne c) (round_append hne hround c),
          drop_append_of_le_length hle, ih _ (by rw [length_drop]; omega) (s.drop n) rfl]
        exact (Extracted.after_append _ _ _).symm

theorem extract_remainder :
    extract (extract s).remainder =
      ⟨[], (extract s).remainder, (extract s).escapeRunRemainder⟩ := by
  have h := extract_append s []
  rw [append_nil, append_nil] at h
  have hsequences : (extract (extract s).remainder).sequences = [] := by
    have h' := congrArg Extracted.sequences h
    exact self_eq_append_right.mp h'
  have hremainder : (extract s).remainder = (extract (extract s).remainder).remainder :=
    (congrArg Extracted.remainder h).trans rfl
  have hrun : (extract s).escapeRunRemainder = (extract (extract s).remainder).escapeRunRemainder :=
    (congrArg Extracted.escapeRunRemainder h).trans rfl
  cases hx : extract (extract s).remainder with
  | mk sequences remainder run =>
    rw [hx] at hsequences hremainder hrun
    cases hsequences
    rw [hremainder, hrun]

end Vibrato.Tui.Stdin
