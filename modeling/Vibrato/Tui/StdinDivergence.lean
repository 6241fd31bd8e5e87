import Vibrato.Lib.Utf8Chunks
import Vibrato.Tui.StdinText

namespace Vibrato.Tui.Stdin

open Lib CodeUnits StdinBuffer List Emitted Bool

namespace Emitted

variable (e : Emitted)

def behind (events : List Event) : Emitted := { e with events := events ++ e.events }

theorem data_behind (events : List Event) (sequence : CodeUnits) :
    (e.behind events).data sequence = (e.data sequence).behind events := by
  unfold data behind
  split
  · rfl
  · simp

theorem datas_behind (events : List Event) (sequences : List CodeUnits) :
    (e.behind events).datas sequences = (e.datas sequences).behind events := by
  induction sequences generalizing e with
  | nil => rfl
  | cons sequence sequences ih =>
    show ((e.behind events).data sequence).datas sequences = _
    rw [data_behind, ih]
    rfl

theorem paste_behind (events : List Event) (content : CodeUnits) :
    (e.behind events).paste content = (e.paste content).behind events := by
  simp [paste, behind]

theorem data_of_none {e : Emitted} {sequence : CodeUnits} (h : singleCodePoint sequence = none) :
    (e.data sequence).events = e.events ++ [.data sequence] := by
  rw [data, if_neg]
  exact fun hrepeats => hrepeats.1 h

theorem datas_events (sequences : List CodeUnits) :
    ∃ added : List CodeUnits, (e.datas sequences).events = e.events ++ added.map .data ∧
      (∀ sequence ∈ added, sequence ∈ sequences) ∧
      ∀ sequence ∈ sequences, singleCodePoint sequence = none → sequence ∈ added := by
  induction sequences generalizing e with
  | nil => exact ⟨[], by simp [datas], nofun, nofun⟩
  | cons sequence sequences ih =>
    obtain ⟨added, hevents, hadded, hall⟩ := ih (e.data sequence)
    by_cases hrepeats : singleCodePoint sequence ≠ none ∧ singleCodePoint sequence = e.pending
    · have hdata : (e.data sequence).events = e.events := by
        rw [data, if_pos hrepeats]
      refine ⟨added, ?_, fun s hs => mem_cons_of_mem _ (hadded s hs), fun s hs hnone => ?_⟩
      · rw [← hdata]
        exact hevents
      · rcases mem_cons.mp hs with rfl | hs
        · exact absurd hnone hrepeats.1
        · exact hall s hs hnone
    · have hdata : (e.data sequence).events = e.events ++ [.data sequence] := by
        rw [data, if_neg hrepeats]
      refine ⟨sequence :: added, ?_, fun s hs => ?_, fun s hs hnone => ?_⟩
      · rw [hdata, append_assoc] at hevents
        exact hevents
      · rcases mem_cons.mp hs with rfl | hs
        · exact mem_cons_self
        · exact mem_cons_of_mem _ (hadded s hs)
      · rcases mem_cons.mp hs with rfl | hs
        · exact mem_cons_self
        · exact mem_cons_of_mem _ (hall s hs hnone)

end Emitted

theorem typed_behind (e : Emitted) (events : List Event) (text : CodeUnits) :
    typed (e.behind events) text = ((typed e text).1.behind events, (typed e text).2) := by
  induction text using paste_induction generalizing e with
  | typing text hnone => rw [typed_of_none hnone, typed_of_none hnone, datas_behind]
  | opened text segment content hstart hend =>
    rw [typed_of_some hstart, typed_of_some hstart, pasted_of_none hend, pasted_of_none hend,
      datas_behind]
    rfl
  | closed text segment content paste rest hstart hend ih =>
    rw [typed_of_some hstart, typed_of_some hstart, pasted_of_some hend, pasted_of_some hend, ← ih,
      ← paste_behind, datas_behind]
    rfl

theorem pasted_forget (e : Emitted) (content : CodeUnits) :
    (pasted e.forget content).1.events = e.events ++ (pasted {} content).1.events := by
  have hforget : e.forget = ({} : Emitted).behind e.events := by
    simp [forget, behind]
  cases hend : cut BRACKETED_PASTE_END content with
  | none =>
    rw [pasted_of_none hend, pasted_of_none hend]
    simp [forget]
  | some parts =>
    rw [pasted_of_some hend, pasted_of_some hend, hforget, paste_behind, typed_behind]
    rfl

variable {r segment : CodeUnits}

theorem not_malformed_of_opensString (h : opensString r = true) : isMalformedMouse r = false := by
  rw [isMalformedMouse, and_eq_false_iff]
  refine .inl ?_
  rw [← not_eq_true]
  intro hmouse
  obtain ⟨rest, rfl⟩ := isPrefixOf_iff_prefix.mp hmouse
  cases h

theorem extract_esc (hheld : (extract r).sequences = []) :
    ∃ q, (extract (r ++ [ESC])).remainder = q ++ [ESC] ∧
      ∀ sequence ∈ beforePaste q, isMalformedMouse sequence = false := by
  have hone : extract [ESC] = ⟨[], [ESC], 1⟩ := by decide +kernel
  have htwo : extract [ESC, ESC] = ⟨[], [ESC, ESC], 2⟩ := by decide +kernel
  have hbefore : ∀ sequence ∈ beforePaste [ESC], isMalformedMouse sequence = false := by
    rw [beforePaste_esc]
    decide
  have hafter : round 0 (r ++ [ESC]) = .take [r] r.length →
      (extract (r ++ [ESC])).remainder = [] ++ [ESC] := by
    intro hround
    rw [extract_of_take (by simp) hround, drop_left, hone]
    rfl
  rcases held_cases hheld with rfl | rfl | rfl | ⟨u, hu, rfl⟩ | hunfinished
  · exact ⟨[], congrArg Extracted.remainder hone, nofun⟩
  · exact ⟨[ESC], congrArg Extracted.remainder htwo, hbefore⟩
  · refine ⟨[ESC], ?_, hbefore⟩
    rw [show [ESC, ESC] ++ [ESC] = ESC :: ESC :: ESC :: [] from rfl, extract_three_escapes, htwo]
    rfl
  · exact ⟨[], hafter (round_high_esc hu []), nofun⟩
  · by_cases hlast : r.getLast? = some ESC
    · obtain ⟨w, rfl⟩ := getLast?_eq_some_iff.mp hlast
      refine ⟨[ESC], ?_, hbefore⟩
      rw [append_assoc]
      show (extract (w ++ ESC :: ESC :: [])).remainder = _
      rw [extract_of_take (by simp) (hunfinished.round_esc_esc (m := [])).1, drop_left, htwo]
      rfl
    · by_cases hopens : opensString r = true
      · refine ⟨r, ?_, ?_⟩
        · rw [extract_of_leave (by simp) (hunfinished.round_string hopens hlast)]
        · rw [beforePaste_held hunfinished.held, hunfinished.resolved]
          intro sequence hsequence
          rw [mem_singleton.mp hsequence]
          exact not_malformed_of_opensString hopens
      · refine ⟨[], hafter (hunfinished.round_esc hlast ?_), nofun⟩
        rw [continuesAsStringTerminator, opensString_append hunfinished.two_le, and_eq_false_iff]
        exact .inl (by simpa using hopens)

theorem singleCodePoint_of_malformed {sequence : CodeUnits} (h : isMalformedMouse sequence = true) :
    singleCodePoint sequence = none := by
  rw [isMalformedMouse, and_eq_true] at h
  obtain ⟨rest, rfl⟩ := isPrefixOf_iff_prefix.mp h.1
  rfl

theorem mem_resolved_of_malformed (hheld : (extract r).sequences = [])
    (h : isMalformedMouse r = true) : r ∈ resolved r := by
  rcases held_cases hheld with rfl | rfl | rfl | ⟨u, hu, rfl⟩ | hunfinished
  · cases h
  · cases h
  · cases h
  · rw [isMalformedMouse, and_eq_true] at h
    exact absurd ( isPrefixOf_iff_prefix.mp h.1).length_le (by simp)
  · rw [hunfinished.resolved]
    exact mem_singleton_self _

theorem exists_terminator (hheld : (extract r).sequences = []) (h : endsInTerminator r = true) :
    ∃ w, r = w ++ [ESC] ∧ resolved r = [r] ∧ opensString w = true ∧
      (singleCodePoint r = none ∧ singleCodePoint w = none) ∧
      extract (r ++ [ESC]) = ⟨[w], [ESC, ESC], 2⟩ := by
  rw [endsInTerminator, and_eq_true, and_eq_true, decide_eq_true_eq, decide_eq_true_eq] at h
  obtain ⟨⟨-, hlength⟩, hlast⟩ := h
  obtain ⟨w, rfl⟩ := getLast?_eq_some_iff.mp hlast
  rcases held_cases hheld with hr | hr | hr | ⟨u, -, hr⟩ | hunfinished
  · rw [hr] at hlength
    exact absurd hlength (by decide)
  · rw [hr] at hlength
    exact absurd hlength (by decide)
  · rw [hr] at hlength
    exact absurd hlength (by decide)
  · rw [hr] at hlength
    exact absurd hlength (by simp)
  · obtain ⟨hround, hopens, htwo⟩ := hunfinished.round_esc_esc (m := [])
    have hsingle : singleCodePoint (w ++ [ESC]) = none ∧ singleCodePoint w = none := by
      have hhead := hunfinished.head
      rcases w with _ | ⟨_, _ | ⟨_, _ | _⟩⟩
      · cases htwo
      · simp at htwo
      · cases hhead
        exact ⟨rfl, rfl⟩
      · exact ⟨rfl, rfl⟩
    refine ⟨w, rfl, hunfinished.resolved, hopens, hsingle, ?_⟩
    rw [append_assoc]
    show extract (w ++ ESC :: ESC :: []) = _
    rw [extract_of_take (by simp) hround, drop_left]
    rfl

theorem datas_ne_of_not_settled {q : CodeUnits} (e : Emitted) (h : settled segment = false)
    (hq : (extract (segment ++ [ESC])).remainder = q ++ [ESC])
    (hquiet : ∀ sequence ∈ beforePaste q, isMalformedMouse sequence = false) :
    (e.datas (beforePaste segment)).events ≠
      (e.datas (wellFormed (extract (segment ++ [ESC])).sequences ++ beforePaste q)).events := by
  intro heq
  by_cases hmalformed : ∃ sequence ∈ beforePaste segment, isMalformedMouse sequence = true
  · obtain ⟨sequence, hsequence, hbad⟩ := hmalformed
    obtain ⟨added, hevents, -, hall⟩ := e.datas_events (beforePaste segment)
    obtain ⟨added', hevents', hadded', -⟩ :=
      e.datas_events (wellFormed (extract (segment ++ [ESC])).sequences ++ beforePaste q)
    rw [hevents, hevents', append_cancel_left_eq] at heq
    have hsame : added = added' := (List.map_inj_right fun _ _ h => Event.data.inj h).mp heq
    have hmem := hall sequence hsequence (singleCodePoint_of_malformed hbad)
    rw [hsame] at hmem
    rcases mem_append.mp (hadded' sequence hmem) with hmem | hmem
    · have hgood := (mem_filter.mp hmem).2
      rw [hbad] at hgood
      cases hgood
    · rw [hquiet sequence hmem] at hbad
      cases hbad
  · have hgood : ∀ sequence ∈ beforePaste segment, isMalformedMouse sequence = false := by
      intro sequence hsequence
      rw [← not_eq_true]
      exact fun hbad => hmalformed ⟨sequence, hsequence, hbad⟩
    have hheld : (extract (extract segment).remainder).sequences = [] := by rw [extract_remainder]
    -- what is left is a string that ends with an `ESC`
    have hends : endsInTerminator (extract segment).remainder = true := by
      by_contra hnot
      rw [not_eq_true] at hnot
      have hsettled : settled segment = true := by
        refine settled_iff.mpr
          ⟨fun sequence hsequence => hgood sequence (mem_append_left _ hsequence), ?_, hnot⟩
        rw [← not_eq_true]
        exact fun hbad => hmalformed
          ⟨_, mem_append_right _ (mem_resolved_of_malformed hheld hbad), hbad⟩
      rw [h] at hsettled
      cases hsettled
    obtain ⟨w, hw, hresolved, hopens, hsingle, hcut⟩ := exists_terminator hheld hends
    have hextract :
        extract (segment ++ [ESC]) = ⟨(extract segment).sequences ++ [w], [ESC, ESC], 2⟩ := by
      rw [extract_append, hcut]
      rfl
    have hqesc : q = [ESC] := by
      rw [hextract] at hq
      exact (append_inj_left' hq rfl).symm
    have hfilter :
        wellFormed ((extract segment).sequences ++ [w]) = (extract segment).sequences ++ [w] := by
      refine wellFormed_eq_self fun sequence hsequence => ?_
      rcases mem_append.mp hsequence with hsequence | hsequence
      · exact hgood sequence (mem_append_left _ hsequence)
      · rw [mem_singleton.mp hsequence]
        exact not_malformed_of_opensString hopens
    have hsegment : beforePaste segment = (extract segment).sequences ++ [w ++ [ESC]] := by
      rw [beforePaste, hresolved, hw]
    rw [hw] at hsingle
    rw [hextract, hfilter, hqesc, hsegment, append_assoc, datas_append, datas_append] at heq
    obtain ⟨added, hevents, -, -⟩ :=
      ((e.datas (extract segment).sequences).data w).datas_events [[ESC]]
    have heq' : ((e.datas (extract segment).sequences).data (w ++ [ESC])).events =
        (((e.datas (extract segment).sequences).data w).datas [[ESC]]).events := heq
    rw [hevents, data_of_none hsingle.1, data_of_none hsingle.2, append_assoc,
      append_cancel_left_eq] at heq'
    have hhead := (List.cons.inj heq').1
    exact absurd (Event.data.inj hhead) (by simp)

theorem typed_marker_parts {content : CodeUnits} (e : Emitted)
    (hstart : cut BRACKETED_PASTE_START (segment ++ (BRACKETED_PASTE_START ++ content)) =
      some (segment, content))
    (h : settled segment = false) :
    (typed e (segment ++ (BRACKETED_PASTE_START ++ content))).1.events ≠
      (feed (typed e (segment ++ [ESC])) (BRACKETED_PASTE_START.drop 1 ++ content)).1.events := by
  have hsplit : ∀ before : CodeUnits, before ++ (BRACKETED_PASTE_START ++ content) =
      (before ++ [ESC]) ++ (BRACKETED_PASTE_START.drop 1 ++ content) := by
    intro before
    rw [append_assoc]
    rfl
  have hnone : cut BRACKETED_PASTE_START (segment ++ [ESC]) = none := by
    cases hcut : cut BRACKETED_PASTE_START (segment ++ [ESC]) with
    | none => rfl
    | some parts =>
      have hsame := cut_append start_ne_nil hcut (BRACKETED_PASTE_START.drop 1 ++ content)
      rw [← hsplit, hstart] at hsame
      have hlength := congrArg List.length ((cut_eq_some start_ne_nil).mp hcut).1
      rw [← (Prod.mk.inj (Option.some.inj hsame)).1, length_append, length_append,
        length_append] at hlength
      exact absurd (Nat.add_left_cancel hlength) (by simp [BRACKETED_PASTE_START]; omega)
  have hheld : (extract (extract segment).remainder).sequences = [] := by rw [extract_remainder]
  obtain ⟨q, hq, hquiet⟩ := extract_esc hheld
  have hq' : (extract (segment ++ [ESC])).remainder = q ++ [ESC] := by
    rw [extract_append]
    exact hq
  -- the marker is found after what is left
  have hsegment : segment = (extract (segment ++ [ESC])).sequences.flatten ++ q := by
    have hflatten := extract_flatten (segment ++ [ESC])
    rw [hq', ← append_assoc] at hflatten
    exact (append_inj_left' hflatten rfl).symm
  have hfound : cut BRACKETED_PASTE_START (q ++ (BRACKETED_PASTE_START ++ content)) =
      some (q, content) := by
    refine cut_right start_ne_nil (a := (extract (segment ++ [ESC])).sequences.flatten) ?_
    rw [← append_assoc, ← hsegment]
    exact hstart
  rw [typed_of_none hnone, hq']
  show _ ≠ (typed _ ((q ++ [ESC]) ++ (BRACKETED_PASTE_START.drop 1 ++ content))).1.events
  rw [← hsplit, typed_of_some hstart, typed_of_some hfound, pasted_forget, pasted_forget,
    ← datas_append]
  intro heq
  exact datas_ne_of_not_settled e h hq' hquiet (append_cancel_right heq)

theorem exists_parts_ne (units : CodeUnits) :
    ∀ (e : Emitted) (text : List Char), ofChars text = units →
      (∃ segment ∈ segmentsBeforePastes units, settled segment = false) →
      ∃ parts parts' : List (List Char), ([] ∉ parts ∧ parts.flatten = text) ∧
        ([] ∉ parts' ∧ parts'.flatten = text) ∧
        ((parts.map ofChars).foldl feed (e, .typing [])).1.events ≠
          ((parts'.map ofChars).foldl feed (e, .typing [])).1.events := by
  -- the marker comes with its segment, or its first character does
  have hmarker : ∀ (e : Emitted) (text : List Char) (segment content : CodeUnits),
      cut BRACKETED_PASTE_START (ofChars text) = some (segment, content) → settled segment = false →
      ∃ parts parts' : List (List Char), ([] ∉ parts ∧ parts.flatten = text) ∧
        ([] ∉ parts' ∧ parts'.flatten = text) ∧
        ((parts.map ofChars).foldl feed (e, .typing [])).1.events ≠
          ((parts'.map ofChars).foldl feed (e, .typing [])).1.events := by
    intro e text segment content hstart hnot
    obtain ⟨htext, -⟩ := (cut_eq_some start_ne_nil).mp hstart
    have hne := typed_marker_parts e (htext ▸ hstart) hnot
    have hsplit :
        ofChars text = (segment ++ [ESC]) ++ (BRACKETED_PASTE_START.drop 1 ++ content) := by
      rw [htext, append_assoc]
      rfl
    obtain ⟨first, rest, hparts, hfirst, hrest⟩ := CodeUnits.ofChars_eq_append hsplit (.inl (by
      rw [getLast?_concat]
      rintro u hu
      cases hu
      rfl))
    refine ⟨[text], [first, rest], ⟨?_, by simp⟩, ⟨?_, by simp [hparts]⟩, ?_⟩
    · rw [mem_singleton]
      rintro rfl
      cases hstart
    · intro hmem
      rcases mem_cons.mp hmem with rfl | hmem
      · exact absurd hfirst (by simp [ofChars])
      · rw [← mem_singleton.mp hmem] at hrest
        exact absurd hrest (by simp [ofChars, BRACKETED_PASTE_START])
    · rw [← htext, ← hfirst, ← hrest] at hne
      exact hne
  induction units using paste_induction with
  | typing units hnone =>
    rintro e text - ⟨segment, hsegment, -⟩
    rw [segmentsBeforePastes_of_none hnone] at hsegment
    cases hsegment
  | opened units segment content hstart hend =>
    rintro e text rfl ⟨segment', hsegment, hnot⟩
    rw [segmentsBeforePastes_of_some hstart, segmentsAfter_of_none hend, mem_singleton] at hsegment
    exact hmarker e text segment content hstart (hsegment ▸ hnot)
  | closed units segment content paste after hstart hend ih =>
    rintro e text rfl ⟨segment', hsegment, hnot⟩
    rw [segmentsBeforePastes_of_some hstart, segmentsAfter_of_some hend] at hsegment
    rcases mem_cons.mp hsegment with rfl | hsegment
    · exact hmarker e text _ content hstart hnot
    · -- the first paste comes by itself
      obtain ⟨htext, -⟩ := (cut_eq_some start_ne_nil).mp hstart
      obtain ⟨hcontent, -⟩ := (cut_eq_some end_ne_nil).mp hend
      have hfirstStart : cut BRACKETED_PASTE_START (segment ++ (BRACKETED_PASTE_START ++
          (paste ++ (BRACKETED_PASTE_END ++ [])))) =
            some (segment, paste ++ (BRACKETED_PASTE_END ++ [])) := by
        have hsplit : content = (paste ++ (BRACKETED_PASTE_END ++ [])) ++ after := by
          rw [hcontent, append_nil, append_assoc]
        rw [htext, hsplit] at hstart
        exact cut_left start_ne_nil hstart
      have hfirstEnd :
          cut BRACKETED_PASTE_END (paste ++ (BRACKETED_PASTE_END ++ [])) = some (paste, []) := by
        rw [hcontent] at hend
        exact cut_left end_ne_nil hend
      have hsplit : ofChars text =
          (segment ++ (BRACKETED_PASTE_START ++ (paste ++ (BRACKETED_PASTE_END ++ [])))) ++
            after := by
        rw [htext, hcontent]
        simp only [append_assoc, nil_append]
      obtain ⟨first, rest, rfl, hfirst, hrest⟩ := CodeUnits.ofChars_eq_append hsplit (.inl (by
        intro u hu
        rw [getLast?_append, getLast?_append, getLast?_append] at hu
        cases hu
        rfl))
      have hfirstNe : first ≠ [] := by
        rintro rfl
        simp [ofChars, BRACKETED_PASTE_START] at hfirst
      have hpart : typed e (ofChars first) =
          (((e.datas (beforePaste segment)).forget).paste paste, .typing []) := by
        rw [hfirst, typed_of_some hfirstStart, pasted_of_some hfirstEnd, typed_of_none rfl]
        rfl
      obtain ⟨parts, parts', ⟨hparts, hflatten⟩, ⟨hparts', hflatten'⟩, hne⟩ :=
        ih (((e.datas (beforePaste segment)).forget).paste paste) rest hrest
          ⟨segment', hsegment, hnot⟩
      refine ⟨first :: parts, first :: parts', ⟨?_, ?_⟩, ⟨?_, ?_⟩, ?_⟩
      · exact not_mem_cons_of_ne_of_not_mem hfirstNe.symm hparts
      · rw [flatten_cons, hflatten]
      · exact not_mem_cons_of_ne_of_not_mem hfirstNe.symm hparts'
      · rw [flatten_cons, hflatten']
      · show ((parts.map ofChars).foldl feed (typed e (ofChars first))).1.events ≠
          ((parts'.map ofChars).foldl feed (typed e (ofChars first))).1.events
        rw [hpart]
        exact hne

end Vibrato.Tui.Stdin
