import Vibrato.Tui.ExtractOnline
import Vibrato.Tui.StdinBuffer

namespace Vibrato.Tui.Stdin

open Lib CodeUnits List

structure Unfinished (r : CodeUnits) : Prop where
  head : r[0]? = some ESC
  surrogate : ¬ (3 ≤ r.length ∧ r[1]?.any isHigh ∧ r[2]?.all (!isLow ·))
  longer : escapeRun r < r.length
  run : escapeRun r ≤ 2
  searched : findEnd r = none

variable {m r : CodeUnits} {k : Nat}

theorem Unfinished.two_le (h : Unfinished r) : 2 ≤ r.length := by
  have hpos : 1 ≤ r.length := by
    have hlonger := h.longer
    omega
  have hone : 1 ≤ escapeRun r := by
    refine le_escapeRun hpos ?_
    match r, h.head with
    | _ :: _, rfl => rfl
  have hlonger := h.longer
  omega

theorem Unfinished.ne_nil (h : Unfinished r) : r ≠ [] := by
  rintro rfl
  exact absurd h.two_le (by decide)

theorem Unfinished.incomplete (h : Unfinished r) : isCompleteSequence r = .incomplete := by
  have hends :=
    findEnd_eq_none.mp h.searched r.length (Nat.le_trans (by decide) h.two_le) (Nat.le_refl _)
  have hstatus := (endsAt_eq_false.mp hends).1
  rwa [take_length] at hstatus

theorem held_cases (h : (extract r).sequences = []) :
    r = [] ∨ r = [ESC] ∨ r = [ESC, ESC] ∨ (∃ u, isHigh u = true ∧ r = [u]) ∨ Unfinished r := by
  by_cases hne : r = []
  · exact .inl hne
  refine .inr ?_
  cases hround : round 0 r with
  | take sequences n =>
    obtain ⟨hflatten, hpos, hle⟩ := round_take hne hround
    rw [extract_of_take hne hround] at h
    rw [(append_eq_nil_iff.mp h).1] at hflatten
    have hlength := congrArg List.length hflatten
    rw [length_take, Nat.min_eq_left hle] at hlength
    exact absurd hlength (Nat.ne_of_lt hpos)
  | leave sequences remainder run =>
    unfold round at hround
    split at hround
    · next hhead =>
      split at hround
      · cases hround
      · next hsurrogate =>
        rw [runLength_eq hhead (Nat.zero_le _)] at hround
        dsimp only at hround
        split at hround
        · next hrun =>
          have hall : r = List.replicate (escapeRun r) ESC := by
            rw [← take_escapeRun (Nat.le_refl _), hrun, take_length]
          rw [extract_of_leave hne (by
            unfold round
            rw [if_pos hhead, if_neg hsurrogate, runLength_eq hhead (Nat.zero_le _)]
            rw [if_pos hrun])] at h
          have hshort : escapeRun r ≤ 2 := by
            have hlength := congrArg List.length h
            rw [length_replicate, length_nil] at hlength
            omega
          have hpos := length_pos_of_ne_nil hne
          have hkinds : escapeRun r = 1 ∨ escapeRun r = 2 := by omega
          rcases hkinds with hkind | hkind
          · rw [hkind] at hall
            exact .inl hall
          · rw [hkind] at hall
            exact .inr (.inl hall)
        · next hrun =>
          split at hround
          · cases hround
          · next htwo =>
            split at hround
            · next hsearched =>
              have hlonger : escapeRun r < r.length := Nat.lt_of_le_of_ne (escapeRun_le r) hrun
              exact .inr (.inr (.inr ⟨hhead, hsurrogate, hlonger, by omega, hsearched⟩))
            · cases hround
    · next hhead =>
      split at hround
      · next hhigh =>
        split at hround
        · next hone =>
          obtain ⟨u, rfl⟩ := length_eq_one_iff.mp hone
          exact .inr (.inr (.inl ⟨u, hhigh, rfl⟩))
        · split at hround
          · cases hround
          · cases hround
      · cases hround

theorem Unfinished.round_append {t : CodeUnits} (h : Unfinished r)
    (hsurrogate : ¬ (3 ≤ (r ++ t).length ∧ (r ++ t)[1]?.any isHigh ∧ (r ++ t)[2]?.all (!isLow ·))) :
    round 0 (r ++ t) = (match findEnd (r ++ t) with
      | none => .leave [] (r ++ t) 0
      | some n => .take [(r ++ t).take n] n) := by
  have htwo := h.two_le
  have hhead : (r ++ t)[0]? = some ESC := by
    rw [getElem?_append_left (by omega)]
    exact h.head
  have hrun : escapeRun (r ++ t) = escapeRun r := escapeRun_append h.longer t
  have hlonger := h.longer
  have hshort := h.run
  unfold round
  rw [if_pos hhead, if_neg hsurrogate, runLength_eq hhead (Nat.zero_le _)]
  rw [if_neg (by rw [length_append]; omega), if_neg (by omega)]
  cases hfound : findEnd (r ++ t) with
  | none => rfl
  | some n =>
    dsimp only
    rw [taken_eq (by omega) hfound]

theorem Unfinished.round_esc (h : Unfinished r) (hlast : r.getLast? ≠ some ESC)
    (hcut : continuesAsStringTerminator (r ++ ESC :: m) r.length = false) :
    round 0 (r ++ ESC :: m) = .take [r] r.length := by
  have htwo := h.two_le
  have hsearched := findEnd_eq_none.mp h.searched
  by_cases hsurrogate : 3 ≤ (r ++ ESC :: m).length ∧ (r ++ ESC :: m)[1]?.any isHigh ∧
      (r ++ ESC :: m)[2]?.all (!isLow ·)
  · -- a surrogate alone after the `ESC`
    have hlength : r.length = 2 := by
      by_contra hmore
      have hthree : 3 ≤ r.length := by omega
      rw [getElem?_append_left (by omega), getElem?_append_left (by omega)] at hsurrogate
      exact h.surrogate ⟨hthree, hsurrogate.2⟩
    have htake : (r ++ ESC :: m).take 2 = r := by rw [← hlength, take_left]
    unfold round
    rw [if_pos (by rw [getElem?_append_left (by omega)]; exact h.head), if_pos hsurrogate, htake,
      hlength]
  · have hfound : findEnd (r ++ ESC :: m) = some r.length := by
      rw [findEnd_eq_some]
      refine ⟨by omega, by rw [length_append]; omega, ?_, fun n hpos hlt => ?_⟩
      · refine endsAt_eq_true.mpr (.inr ⟨?_, htwo, hcut⟩)
        rw [getElem?_append_right (Nat.le_refl _), Nat.sub_self]
        rfl
      · refine endsAt_append_of_false hlt (hsearched n hpos (Nat.le_of_lt hlt)) (fun hesc => ?_) _
        by_contra hend
        have hn : n = r.length - 1 := by omega
        rw [hn, ← getLast?_eq_getElem?] at hesc
        exact hlast hesc
    rw [h.round_append hsurrogate, hfound]
    dsimp only
    rw [take_left]

theorem not_isHigh_of_opensString (hopens : opensString r = true) : r[1]?.any isHigh = false := by
  simp only [opensString, Bool.or_eq_true, decide_eq_true_eq] at hopens
  rcases hopens with (hkind | hkind) | hkind
  · rw [hkind]
    rfl
  · rw [hkind]
    rfl
  · rw [hkind]
    rfl

theorem Unfinished.round_string (h : Unfinished r) (hopens : opensString r = true)
    (hlast : r.getLast? ≠ some ESC) : round 0 (r ++ [ESC]) = .leave [] (r ++ [ESC]) 0 := by
  have htwo := h.two_le
  have hsearched := findEnd_eq_none.mp h.searched
  have hopens' : opensString (r ++ [ESC]) = true := (opensString_append htwo _).trans hopens
  have hnothigh := not_isHigh_of_opensString hopens
  have hfound : findEnd (r ++ [ESC]) = none := by
    rw [findEnd_eq_none]
    intro n hpos hle
    rw [length_append, length_singleton] at hle
    by_cases hlt : n < r.length
    · refine endsAt_append_of_false hlt (hsearched n hpos (Nat.le_of_lt hlt)) (fun hesc => ?_) _
      by_contra hend
      have hn : n = r.length - 1 := by omega
      rw [hn, ← getLast?_eq_getElem?] at hesc
      exact hlast hesc
    by_cases heq : n = r.length
    · rw [heq, endsAt_eq_false, take_left]
      refine ⟨h.incomplete, fun _ _ => ?_⟩
      rw [continuesAsStringTerminator, hopens', getElem?_eq_none (by simp)]
      rfl
    · have hn : n = (r ++ [ESC]).length := by
        rw [length_append, length_singleton]
        omega
      rw [hn, endsAt_eq_false, take_length]
      refine ⟨isCompleteSequence_string hopens' htwo h.head, fun hnone => ?_⟩
      rw [getElem?_eq_none (Nat.le_refl _)] at hnone
      cases hnone
  rw [h.round_append, hfound]
  rw [getElem?_append_left (by omega), hnothigh]
  simp

theorem Unfinished.round_esc_esc {w : CodeUnits} (h : Unfinished (w ++ [ESC])) :
    round 0 (w ++ ESC :: ESC :: m) = .take [w] w.length ∧ opensString w = true ∧ 2 ≤ w.length := by
  have htwo := h.two_le
  rw [length_append, length_singleton] at htwo
  have hsearched := findEnd_eq_none.mp h.searched
  have hends := hsearched w.length (by omega) (by rw [length_append]; omega)
  obtain ⟨hstatus, hcontinues⟩ := endsAt_eq_false.mp hends
  have hesc : (w ++ [ESC])[w.length]? = some ESC := by
    rw [getElem?_append_right (Nat.le_refl _), Nat.sub_self]
    rfl
  have hw : 2 ≤ w.length := by
    by_contra hshort
    have hone : w.length = 1 := by omega
    obtain ⟨u, rfl⟩ := length_eq_one_iff.mp hone
    have hu : u = ESC := Option.some.inj h.head
    have hlonger := h.longer
    rw [hu] at hlonger
    exact absurd hlonger (by decide)
  have hopens : opensString w = true := by
    have hstring := hcontinues hesc hw
    rw [continuesAsStringTerminator, Bool.and_eq_true, opensString_append hw] at hstring
    exact hstring.1
  refine ⟨?_, hopens, hw⟩
  have hsplit : w ++ ESC :: ESC :: m = (w ++ [ESC]) ++ ESC :: m := by
    rw [append_assoc]
    rfl
  have hfound : findEnd (w ++ ESC :: ESC :: m) = some w.length := by
    rw [findEnd_eq_some]
    refine ⟨by omega, by rw [length_append]; omega, ?_, fun n hpos hlt => ?_⟩
    · refine endsAt_eq_true.mpr (.inr ⟨?_, hw, ?_⟩)
      · rw [getElem?_append_right (Nat.le_refl _), Nat.sub_self]
        rfl
      · rw [continuesAsStringTerminator, getElem?_append_right (by omega), Nat.add_sub_cancel_left]
        exact Bool.and_false _
    · rw [hsplit]
      have hlt' : n < (w ++ [ESC]).length := by
        rw [length_append]
        omega
      refine endsAt_append_of_false hlt' (hsearched n hpos (Nat.le_of_lt hlt')) (fun _ => ?_) _
      rw [length_append, length_singleton]
      omega
  have hnothigh := not_isHigh_of_opensString hopens
  rw [hsplit, h.round_append, ← hsplit, hfound]
  · dsimp only
    rw [take_left]
  · rw [← hsplit, getElem?_append_left (by omega), hnothigh]
    simp

def resolved (remainder : CodeUnits) : List CodeUnits :=
  if remainder.length = 0 then [] else splitResolvedEscapeRun remainder

def beforePaste (segment : CodeUnits) : List CodeUnits :=
  (extract segment).sequences ++ resolved (extract segment).remainder

theorem beforePaste_esc : beforePaste [ESC] = [[ESC]] := by decide +kernel

theorem Unfinished.resolved (h : Unfinished r) : resolved r = [r] := by
  have htwo := h.two_le
  rw [Stdin.resolved, if_neg (by omega), splitResolvedEscapeRun, if_neg]
  rintro ⟨-, hall⟩
  have hlonger := h.longer
  have hle := le_escapeRun (Nat.le_refl r.length) (by rw [take_length]; exact hall)
  omega

theorem extract_held (h : (extract r).sequences = []) : (extract r).remainder = r := by
  have hflatten := extract_flatten r
  rwa [h] at hflatten

theorem beforePaste_held (h : (extract r).sequences = []) : beforePaste r = resolved r := by
  rw [beforePaste, h, extract_held h]
  rfl

theorem Unfinished.held (h : Unfinished r) : (extract r).sequences = [] := by
  have hround := h.round_append (t := []) (by rw [append_nil]; exact h.surrogate)
  rw [append_nil, h.searched] at hround
  rw [extract_of_leave h.ne_nil hround]

/-- An unfinished string that ends with an `ESC`, which may be half of its terminator. -/
def endsInTerminator (r : CodeUnits) : Bool :=
  opensString r && 3 ≤ r.length && r.getLast? = some ESC

theorem Unfinished.getLast?_ne (h : Unfinished r) (hends : endsInTerminator r = false) :
    r.getLast? ≠ some ESC := by
  intro hlast
  obtain ⟨w, rfl⟩ : ∃ w, r = w ++ [ESC] := by
    rw [getLast?_eq_some_iff] at hlast
    exact hlast
  obtain ⟨-, hopens, htwo⟩ := h.round_esc_esc (m := [])
  rw [endsInTerminator, opensString_append htwo, hopens] at hends
  simp at hends
  omega

theorem marker_cases (hpos : 1 ≤ k) (hle : k ≤ 5) :
    ∃ m, BRACKETED_PASTE_START.take k = ESC :: m ∧ (m = [] ∨ ∃ m', m = 0x5B :: m') ∧
      extract (ESC :: m) = ⟨[], ESC :: m, (extract (ESC :: m)).escapeRunRemainder⟩ ∧
      extract (ESC :: ESC :: m) =
        ⟨[], ESC :: ESC :: m, (extract (ESC :: ESC :: m)).escapeRunRemainder⟩ := by
  have hkinds : k = 1 ∨ k = 2 ∨ k = 3 ∨ k = 4 ∨ k = 5 := by omega
  rcases hkinds with rfl | rfl | rfl | rfl | rfl
  · exact ⟨[], rfl, .inl rfl, by decide +kernel, by decide +kernel⟩
  · exact ⟨[0x5B], rfl, .inr ⟨_, rfl⟩, by decide +kernel, by decide +kernel⟩
  · exact ⟨[0x5B, 0x32], rfl, .inr ⟨_, rfl⟩, by decide +kernel, by decide +kernel⟩
  · exact ⟨[0x5B, 0x32, 0x30], rfl, .inr ⟨_, rfl⟩, by decide +kernel, by decide +kernel⟩
  · exact ⟨[0x5B, 0x32, 0x30, 0x30], rfl, .inr ⟨_, rfl⟩, by decide +kernel, by decide +kernel⟩

theorem extract_marker (hheld : (extract r).sequences = [])
    (hends : endsInTerminator r = false) (hpos : 1 ≤ k) (hle : k ≤ 5) :
    ∃ q, (extract (r ++ BRACKETED_PASTE_START.take k)).remainder =
      q ++ BRACKETED_PASTE_START.take k ∧
      (extract (r ++ BRACKETED_PASTE_START.take k)).sequences ++ beforePaste q = resolved r := by
  obtain ⟨m, hm, hkind, hone, htwo⟩ := marker_cases hpos hle
  rw [hm]
  have hafter : ∀ {n}, r ≠ [] → n = r.length → round 0 (r ++ ESC :: m) = .take [r] n →
      (extract (r ++ ESC :: m)).remainder = ESC :: m ∧
        (extract (r ++ ESC :: m)).sequences = [r] := by
    rintro n hne rfl hround
    rw [extract_of_take (by simp) hround, drop_left, hone]
    exact ⟨rfl, rfl⟩
  rcases held_cases hheld with rfl | rfl | rfl | ⟨u, hu, rfl⟩ | hunfinished
  · refine ⟨[], ?_, ?_⟩
    · rw [nil_append, hone]
    · rw [nil_append, hone]
      rfl
  · refine ⟨[ESC], ?_, ?_⟩
    · rw [singleton_append, htwo]
    · rw [singleton_append, htwo]
      rfl
  · have hthree : extract ([ESC, ESC] ++ ESC :: m) = (extract (ESC :: ESC :: m)).after [[ESC]] :=
      extract_three_escapes m
    refine ⟨[ESC], ?_, ?_⟩
    · rw [hthree, htwo]
      rfl
    · rw [hthree, htwo]
      rfl
  · obtain ⟨hremainder, hsequences⟩ := hafter (by simp) rfl (round_high_esc hu m)
    refine ⟨[], hremainder, ?_⟩
    rw [hsequences]
    rfl
  · have hlast := hunfinished.getLast?_ne hends
    have hlength := hunfinished.two_le
    rw [hunfinished.resolved]
    by_cases hgoes : opensString r = true ∧ m = []
    · obtain ⟨hopens, rfl⟩ := hgoes
      refine ⟨r, ?_, ?_⟩
      · rw [extract_of_leave (by simp) (hunfinished.round_string hopens hlast)]
      · rw [extract_of_leave (by simp) (hunfinished.round_string hopens hlast),
          beforePaste_held hunfinished.held, hunfinished.resolved]
        rfl
    · have hcut : continuesAsStringTerminator (r ++ ESC :: m) r.length = false := by
        rw [continuesAsStringTerminator, opensString_append hlength,
          getElem?_append_right (by omega), Nat.add_sub_cancel_left, Bool.and_eq_false_iff]
        rcases hkind with rfl | ⟨m', rfl⟩
        · refine .inl ?_
          simpa using hgoes
        · exact .inr rfl
      obtain ⟨hremainder, hsequences⟩ :=
        hafter hunfinished.ne_nil rfl (hunfinished.round_esc hlast hcut)
      refine ⟨[], hremainder, ?_⟩
      rw [hsequences]
      rfl

end Vibrato.Tui.Stdin
