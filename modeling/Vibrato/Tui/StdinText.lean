import Vibrato.Tui.PasteMarkers

/-! What the buffer makes of decoded text: it is typed until a paste starts, and pasted until the
paste ends. -/

namespace Vibrato.Tui.Stdin

open Lib CodeUnits List StdinBuffer

structure Emitted where
  pending : Option Nat := none
  events : List Event := []

namespace Emitted

def data (e : Emitted) (sequence : CodeUnits) : Emitted :=
  if singleCodePoint sequence ≠ none ∧ singleCodePoint sequence = e.pending then
    { e with pending := none }
  else ⟨parseUnmodifiedKittyPrintableCodepoint sequence, e.events ++ [.data sequence]⟩

variable (e : Emitted)

def datas (sequences : List CodeUnits) : Emitted := sequences.foldl data e

def forget : Emitted := { e with pending := none }

def paste (e : Emitted) (content : CodeUnits) : Emitted := ⟨none, e.events ++ [.paste content]⟩

theorem datas_append (a b : List CodeUnits) : e.datas (a ++ b) = (e.datas a).datas b :=
  foldl_append

end Emitted

/-- What is held back: the beginning of a sequence, or of a paste. -/
inductive Mode where
  | typing (buffer : CodeUnits)
  | pasting (content : CodeUnits)

def wellFormed (sequences : List CodeUnits) : List CodeUnits :=
  sequences.filter fun sequence => !isMalformedMouse sequence

theorem start_ne_nil : BRACKETED_PASTE_START ≠ [] := by decide

theorem end_ne_nil : BRACKETED_PASTE_END ≠ [] := by decide

def typed (e : Emitted) (text : CodeUnits) : Emitted × Mode :=
  match _hstart : cut BRACKETED_PASTE_START text with
  | none => (e.datas (wellFormed (extract text).sequences), .typing (extract text).remainder)
  | some (before, content) =>
    let e := (e.datas (beforePaste before)).forget
    match _hend : cut BRACKETED_PASTE_END content with
    | none => (e, .pasting content)
    | some (pasted, rest) => typed (e.paste pasted) rest
termination_by text.length
decreasing_by
  exact Nat.lt_trans (length_lt_of_cut end_ne_nil _hend) (length_lt_of_cut start_ne_nil _hstart)

def pasted (e : Emitted) (content : CodeUnits) : Emitted × Mode :=
  match cut BRACKETED_PASTE_END content with
  | none => (e, .pasting content)
  | some (pasted, rest) => typed (e.paste pasted) rest

def feed : Emitted × Mode → CodeUnits → Emitted × Mode
  | (e, .typing buffer), text => typed e (buffer ++ text)
  | (e, .pasting content), text => pasted e (content ++ text)

variable {e : Emitted} {text part segment content paste rest : CodeUnits}

theorem typed_of_none (h : cut BRACKETED_PASTE_START text = none) :
    typed e text = (e.datas (wellFormed (extract text).sequences),
      .typing (extract text).remainder) := by
  rw [typed]
  split
  · rfl
  · next hsome =>
    rw [h] at hsome
    cases hsome

theorem pasted_of_none (h : cut BRACKETED_PASTE_END content = none) :
    pasted e content = (e, .pasting content) := by
  rw [pasted, h]

theorem pasted_of_some (h : cut BRACKETED_PASTE_END content = some (paste, rest)) :
    pasted e content = typed (e.paste paste) rest := by
  rw [pasted, h]

theorem typed_of_some (h : cut BRACKETED_PASTE_START text = some (segment, content)) :
    typed e text = pasted (e.datas (beforePaste segment)).forget content := by
  rw [typed]
  split
  · next hnone =>
    rw [h] at hnone
    cases hnone
  · next hsome =>
    rw [h] at hsome
    cases hsome
    split
    · next hend => rw [pasted_of_none hend]
    · next hend => rw [pasted_of_some hend]

theorem paste_induction {P : CodeUnits → Prop}
    (typing : ∀ text, cut BRACKETED_PASTE_START text = none → P text)
    (opened : ∀ text segment content, cut BRACKETED_PASTE_START text = some (segment, content) →
      cut BRACKETED_PASTE_END content = none → P text)
    (closed : ∀ text segment content paste rest, cut BRACKETED_PASTE_START text =
      some (segment, content) →
      cut BRACKETED_PASTE_END content = some (paste, rest) → P rest → P text) (text :
        CodeUnits) : P text := by
  induction hlength : text.length using Nat.strong_induction_on generalizing text with
  | _ length ih =>
    cases hstart : cut BRACKETED_PASTE_START text with
    | none => exact typing text hstart
    | some parts =>
      cases hend : cut BRACKETED_PASTE_END parts.2 with
      | none => exact opened text parts.1 parts.2 hstart hend
      | some parts' =>
        refine closed text parts.1 parts.2 parts'.1 parts'.2 hstart hend (ih _ ?_ _ rfl)
        rw [← hlength]
        exact Nat.lt_trans (length_lt_of_cut end_ne_nil hend) (length_lt_of_cut start_ne_nil hstart)

def segmentsBeforePastes (text : CodeUnits) : List CodeUnits :=
  match _hstart : cut BRACKETED_PASTE_START text with
  | none => []
  | some (before, content) =>
    before ::
      match _hend : cut BRACKETED_PASTE_END content with
      | none => []
      | some (_, rest) => segmentsBeforePastes rest
termination_by text.length
decreasing_by
  exact Nat.lt_trans (length_lt_of_cut end_ne_nil _hend) (length_lt_of_cut start_ne_nil _hstart)

/-- No malformed mouse report is in a segment or left at its end, and no string that may be half
terminated. -/
def settled (segment : CodeUnits) : Bool :=
  (extract segment).sequences.all (fun sequence => !isMalformedMouse sequence) &&
    !isMalformedMouse (extract segment).remainder && !endsInTerminator (extract segment).remainder

def segmentsAfter (content : CodeUnits) : List CodeUnits :=
  match cut BRACKETED_PASTE_END content with
  | none => []
  | some (_, rest) => segmentsBeforePastes rest

theorem segmentsBeforePastes_of_none (h : cut BRACKETED_PASTE_START text = none) :
    segmentsBeforePastes text = [] := by
  rw [segmentsBeforePastes]
  split
  · rfl
  · next hsome =>
    rw [h] at hsome
    cases hsome

theorem segmentsAfter_of_none (h : cut BRACKETED_PASTE_END content = none) :
    segmentsAfter content = [] := by
  rw [segmentsAfter, h]

theorem segmentsAfter_of_some (h : cut BRACKETED_PASTE_END content = some (paste, rest)) :
    segmentsAfter content = segmentsBeforePastes rest := by
  rw [segmentsAfter, h]

theorem segmentsBeforePastes_of_some (h : cut BRACKETED_PASTE_START text =
    some (segment, content)) :
    segmentsBeforePastes text = segment :: segmentsAfter content := by
  rw [segmentsBeforePastes]
  split
  · next hnone =>
    rw [h] at hnone
    cases hnone
  · next hsome =>
    rw [h] at hsome
    cases hsome
    congr 1
    split
    · next hend => rw [segmentsAfter_of_none hend]
    · next hend => rw [segmentsAfter_of_some hend]

theorem settled_iff : settled segment = true ↔
    (∀ sequence ∈ (extract segment).sequences, isMalformedMouse sequence = false) ∧
      isMalformedMouse (extract segment).remainder = false ∧
      endsInTerminator (extract segment).remainder = false := by
  simp [settled, and_assoc]

theorem wellFormed_eq_self {sequences : List CodeUnits}
    (h : ∀ sequence ∈ sequences, isMalformedMouse sequence = false) :
    wellFormed sequences = sequences :=
  filter_eq_self.mpr fun sequence hsequence => by simp [h sequence hsequence]

theorem not_malformed_of_mem_resolved {remainder sequence : CodeUnits}
    (h : isMalformedMouse remainder = false) (hmem : sequence ∈ resolved remainder) :
    isMalformedMouse sequence = false := by
  unfold resolved at hmem
  split at hmem
  · cases hmem
  · unfold splitResolvedEscapeRun at hmem
    split at hmem
    · obtain ⟨u, -, rfl⟩ := mem_map.mp hmem
      simp [isMalformedMouse, isSgrMousePrefix]
    · rw [mem_singleton.mp hmem]
      exact h

theorem beforePaste_append (h : settled (text ++ part) = true) :
    wellFormed (extract text).sequences ++ beforePaste ((extract text).remainder ++ part) =
      beforePaste (text ++ part) := by
  obtain ⟨hsequences, -, -⟩ := settled_iff.mp h
  have hsplit := extract_append text part
  have hfirst : ∀ sequence ∈ (extract text).sequences, isMalformedMouse sequence = false := by
    intro sequence hsequence
    refine hsequences sequence ?_
    rw [hsplit]
    exact mem_append_left _ hsequence
  rw [wellFormed_eq_self hfirst, beforePaste, beforePaste, hsplit, ← append_assoc]
  rfl

theorem beforePaste_marker (h : settled segment = true) {k : Nat} (hpos : 1 ≤ k) (hle : k ≤ 5) :
    ∃ q, (extract (segment ++ BRACKETED_PASTE_START.take k)).remainder =
      q ++ BRACKETED_PASTE_START.take k ∧
      wellFormed (extract (segment ++ BRACKETED_PASTE_START.take k)).sequences ++ beforePaste q =
        beforePaste segment := by
  obtain ⟨hsequences, hremainder, hends⟩ := settled_iff.mp h
  have hheld : (extract (extract segment).remainder).sequences = [] := by rw [extract_remainder]
  obtain ⟨q, hq, hresolved⟩ := extract_marker hheld hends hpos hle
  refine ⟨q, ?_, ?_⟩
  · rw [extract_append]
    exact hq
  · have hall : ∀ sequence ∈ (extract (segment ++ BRACKETED_PASTE_START.take k)).sequences,
        isMalformedMouse sequence = false := by
      rw [extract_append]
      intro sequence hsequence
      rcases mem_append.mp hsequence with hsequence | hsequence
      · exact hsequences sequence hsequence
      · refine not_malformed_of_mem_resolved hremainder ?_
        rw [← hresolved]
        exact mem_append_left _ hsequence
    have hsegment : beforePaste segment = (extract segment).sequences ++ resolved
        (extract segment).remainder := rfl
    rw [wellFormed_eq_self hall, extract_append, hsegment, ← hresolved, ← append_assoc]
    rfl

theorem typed_before_paste (hnone : cut BRACKETED_PASTE_START text = none)
    (hstart : cut BRACKETED_PASTE_START (text ++ part) = some (segment, content))
    (hsettled : settled segment = true) :
    typed (e.datas (wellFormed (extract text).sequences)) ((extract text).remainder ++ part) =
      typed e (text ++ part) := by
  have hflatten := extract_flatten text
  obtain ⟨heq, -⟩ := (cut_eq_some start_ne_nil).mp hstart
  -- what is left has the marker, and the same is emitted before it
  obtain ⟨before, hbefore, hemitted⟩ :
      ∃ before, segment = (extract text).sequences.flatten ++ before ∧
      wellFormed (extract text).sequences ++ beforePaste before = beforePaste segment := by
    rcases append_eq_append_iff.mp heq with ⟨more, rfl, -⟩ | ⟨marker, rfl, hmarker⟩
    · refine ⟨(extract text).remainder ++ more, ?_, beforePaste_append hsettled⟩
      rw [← append_assoc, hflatten]
    · have hshort : marker.length ≤ 5 := by
        by_contra hlong
        have hprefix : BRACKETED_PASTE_START <+: marker :=
          prefix_of_prefix_length_le (prefix_append _ content) ⟨part, hmarker.symm⟩
            (Nat.not_le.mp hlong)
        obtain ⟨rest, rfl⟩ := hprefix
        exact indexOf_eq_none (cut_eq_none.mp hnone) _ (occursAt_append segment rest)
      have htake : marker = BRACKETED_PASTE_START.take marker.length := by
        have h := congrArg (List.take marker.length) hmarker
        rw [take_left, take_append_of_le_length (Nat.le_trans hshort (by decide))] at h
        exact h.symm
      by_cases hempty : marker = []
      · rw [hempty, append_nil] at hflatten ⊢
        refine ⟨(extract segment).remainder, hflatten.symm, ?_⟩
        rw [wellFormed_eq_self (settled_iff.mp hsettled).1,
          beforePaste_held (by rw [extract_remainder])]
        rfl
      · obtain ⟨q, hq, hemitted⟩ := beforePaste_marker hsettled (length_pos_of_ne_nil hempty) hshort
        rw [← htake] at hq hemitted
        refine ⟨q, ?_, hemitted⟩
        rw [hq, ← append_assoc] at hflatten
        exact (append_cancel_right hflatten).symm
  have hleft : cut BRACKETED_PASTE_START ((extract text).remainder ++ part) =
      some (before, content) := by
    refine cut_right start_ne_nil (a := (extract text).sequences.flatten) ?_
    rw [← append_assoc, hflatten, hstart, hbefore]
  rw [typed_of_some hleft, typed_of_some hstart, ← Emitted.datas_append, hemitted]

theorem typed_feed (h : ∀ segment ∈ segmentsBeforePastes (text ++ part), settled segment = true) :
    feed (typed e text) part = typed e (text ++ part) := by
  induction text using paste_induction generalizing e with
  | typing text hnone =>
    rw [typed_of_none hnone]
    show typed _ ((extract text).remainder ++ part) = _
    cases hstart : cut BRACKETED_PASTE_START (text ++ part) with
    | none =>
      have hright : cut BRACKETED_PASTE_START ((extract text).remainder ++ part) = none := by
        rw [← extract_flatten text, append_assoc] at hstart
        exact cut_right_eq_none hstart
      rw [typed_of_none hstart, typed_of_none hright, ← Emitted.datas_append,
        extract_append text part]
      unfold wellFormed
      rw [← filter_append]
      rfl
    | some parts =>
      rw [segmentsBeforePastes_of_some hstart] at h
      exact typed_before_paste hnone hstart (h _ mem_cons_self)
  | opened text segment content hstart hend =>
    rw [typed_of_some hstart, pasted_of_none hend,
      typed_of_some (cut_append start_ne_nil hstart part)]
    rfl
  | closed text segment content paste rest hstart hend ih =>
    have hstart' := cut_append start_ne_nil hstart part
    have hend' := cut_append end_ne_nil hend part
    rw [segmentsBeforePastes_of_some hstart', segmentsAfter_of_some hend'] at h
    rw [typed_of_some hstart, pasted_of_some hend, typed_of_some hstart', pasted_of_some hend']
    exact ih fun segment hsegment => h segment (mem_cons_of_mem _ hsegment)

theorem segments_prefix (text part : CodeUnits) :
    segmentsBeforePastes text <+: segmentsBeforePastes (text ++ part) := by
  induction text using paste_induction with
  | typing text hnone =>
    rw [segmentsBeforePastes_of_none hnone]
    exact nil_prefix
  | opened text segment content hstart hend =>
    rw [segmentsBeforePastes_of_some hstart,
      segmentsBeforePastes_of_some (cut_append start_ne_nil hstart part),
      segmentsAfter_of_none hend]
    exact cons_prefix_cons.mpr ⟨rfl, nil_prefix⟩
  | closed text segment content paste rest hstart hend ih =>
    rw [segmentsBeforePastes_of_some hstart,
      segmentsBeforePastes_of_some (cut_append start_ne_nil hstart part),
      segmentsAfter_of_some hend, segmentsAfter_of_some (cut_append end_ne_nil hend part)]
    exact cons_prefix_cons.mpr ⟨rfl, ih⟩

theorem foldl_feed {parts : List CodeUnits}
    (h : ∀ segment ∈ segmentsBeforePastes (text ++ parts.flatten), settled segment = true) :
    parts.foldl feed (typed e text) = typed e (text ++ parts.flatten) := by
  induction parts generalizing text with
  | nil => simp
  | cons part parts ih =>
    rw [flatten_cons, ← append_assoc] at h
    have hpart : ∀ segment ∈ segmentsBeforePastes (text ++ part), settled segment = true :=
      fun segment hsegment => h segment
        (( segments_prefix (text ++ part) parts.flatten).subset hsegment)
    rw [foldl_cons, typed_feed hpart, ih h, flatten_cons, append_assoc]

end Vibrato.Tui.Stdin
