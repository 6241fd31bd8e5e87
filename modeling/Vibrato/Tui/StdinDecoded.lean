import Vibrato.Tui.StdinText

namespace Vibrato.Tui.Stdin

open Lib CodeUnits List

def Held : Mode → Prop
  | .typing buffer => (extract buffer).sequences = [] ∧ cut BRACKETED_PASTE_START buffer = none
  | .pasting content => cut BRACKETED_PASTE_END content = none

def StdinBuffer.ofText (s : StdinBuffer) : Emitted × Mode → StdinBuffer
  | (e, .typing buffer) =>
    { s with
      buffer
      bufferedEscapeRunLength := (extract buffer).escapeRunRemainder
      pasteMode := false
      pasteBuffer := []
      pendingKittyPrintableCodepoint := e.pending
      events := e.events }
  | (e, .pasting content) =>
    { s with
      buffer := []
      bufferedEscapeRunLength := 0
      pasteMode := true
      pasteBuffer := content
      pendingKittyPrintableCodepoint := e.pending
      events := e.events }

theorem held_typed (e : Emitted) (text : CodeUnits) : Held (typed e text).2 := by
  induction text using paste_induction generalizing e with
  | typing text hnone =>
    rw [typed_of_none hnone]
    refine ⟨by rw [extract_remainder], ?_⟩
    rw [← extract_flatten text] at hnone
    exact cut_right_eq_none hnone
  | opened text segment content hstart hend =>
    rw [typed_of_some hstart, pasted_of_none hend]
    exact hend
  | closed text segment content paste rest hstart hend ih =>
    rw [typed_of_some hstart, pasted_of_some hend]
    exact ih _

theorem held_pasted (e : Emitted) (content : CodeUnits) : Held (pasted e content).2 := by
  cases hend : cut BRACKETED_PASTE_END content with
  | none =>
    rw [pasted_of_none hend]
    exact hend
  | some parts =>
    rw [pasted_of_some hend]
    exact held_typed _ _

theorem held_feed (k : Emitted × Mode) (text : CodeUnits) : Held (feed k text).2 := by
  match k with
  | (e, .typing buffer) => exact held_typed e _
  | (e, .pasting content) => exact held_pasted e _

theorem feed_nil {k : Emitted × Mode} (h : Held k.2) : feed k [] = k := by
  match k, h with
  | (e, .typing buffer), ⟨hheld, hstart⟩ =>
    show typed e (buffer ++ []) = _
    rw [append_nil, typed_of_none hstart, hheld, extract_held hheld]
    rfl
  | (e, .pasting content), hend =>
    show pasted e (content ++ []) = _
    rw [append_nil, pasted_of_none hend]

theorem escapeRunRemainder_le {r : CodeUnits} (h : (extract r).sequences = []) :
    (extract r).escapeRunRemainder ≤ 2 ∧ (extract r).escapeRunRemainder ≤ escapeRun r := by
  rcases held_cases h with rfl | rfl | rfl | ⟨u, hu, rfl⟩ | hunfinished
  · exact ⟨by decide +kernel, by decide +kernel⟩
  · exact ⟨by decide +kernel, by decide +kernel⟩
  · exact ⟨by decide +kernel, by decide +kernel⟩
  · have hround : round 0 [u] = .leave [] [u] 0 := by
      have hne : u ≠ ESC := ne_of_isHigh hu rfl
      unfold round
      rw [if_neg (by simpa using hne), if_pos (by simpa using hu)]
      rfl
    rw [extract_of_leave (by simp) hround]
    exact ⟨Nat.zero_le _, Nat.zero_le _⟩
  · have hround :=
      hunfinished.round_append (t := []) (by rw [append_nil]; exact hunfinished.surrogate)
    rw [append_nil, hunfinished.searched] at hround
    rw [extract_of_leave hunfinished.ne_nil hround]
    exact ⟨Nat.zero_le _, Nat.zero_le _⟩

theorem escapeRun_le_append (s t : CodeUnits) : escapeRun s ≤ escapeRun (s ++ t) := by
  refine le_escapeRun ?_ ?_
  · have hle := escapeRun_le s
    rw [length_append]
    omega
  · rw [take_append_of_le_length (escapeRun_le s), take_escapeRun (Nat.le_refl _)]
    simp

namespace StdinBuffer

variable {s : StdinBuffer}

variable (e : Emitted) {k : Emitted × Mode}

theorem emitDataSequence_ofText (m : Mode) (sequence : CodeUnits) :
    (s.ofText (e, m)).emitDataSequence sequence = s.ofText (e.data sequence, m) := by
  cases m with
  | typing buffer =>
    unfold emitDataSequence Emitted.data ofText
    dsimp only
    split
    · rfl
    · rfl
  | pasting content =>
    unfold emitDataSequence Emitted.data ofText
    dsimp only
    split
    · rfl
    · rfl

theorem emitDataSequences_ofText (m : Mode) (sequences : List CodeUnits) :
    (s.ofText (e, m)).emitDataSequences sequences = s.ofText (e.datas sequences, m) := by
  induction sequences generalizing e with
  | nil => rfl
  | cons sequence sequences ih =>
    show ((s.ofText (e, m)).emitDataSequence sequence).emitDataSequences sequences = _
    rw [emitDataSequence_ofText, ih]
    rfl

theorem emitBeforePaste_ofText (m : Mode) (segment : CodeUnits) :
    (s.ofText (e, m)).emitBeforePaste segment =
      s.ofText (e.datas (Stdin.beforePaste segment), m) := by
  unfold emitBeforePaste
  split
  · next hnil =>
    rw [length_eq_zero_iff.mp hnil]
    rfl
  · show (if (extract segment).remainder.length = 0 then _ else _) = _
    rw [emitDataSequences_ofText, Stdin.beforePaste, Emitted.datas_append, resolved]
    split
    · rfl
    · exact emitDataSequences_ofText _ _ _

theorem finishPaste_ofText (process : StdinBuffer → CodeUnits → StdinBuffer) (e : Emitted)
    (content : CodeUnits)
    (h : ∀ (e' : Emitted) (rest : CodeUnits), rest ≠ [] → rest.length < content.length →
      process (s.ofText (e', .typing [])) rest = s.ofText (typed e' rest)) :
    finishPaste process (s.ofText (e, .pasting content)) = s.ofText (pasted e content) := by
  rw [finishPaste, show (s.ofText (e, .pasting content)).pasteBuffer = content from rfl]
  cases hend : indexOf BRACKETED_PASTE_END content with
  | none =>
    rw [pasted_of_none (cut_eq_none.mpr hend)]
  | some endIndex =>
    have hcut := cut_of_indexOf hend
    have hlt := length_lt_of_cut end_ne_nil hcut
    rw [pasted_of_some hcut]
    dsimp only
    split
    · next hmore => exact h (e.paste (content.take endIndex)) _ (ne_nil_of_length_pos hmore) hlt
    · next hmore =>
      have hnil : content.drop (endIndex + BRACKETED_PASTE_END.length) = [] :=
        length_eq_zero_iff.mp (Nat.eq_zero_of_not_pos hmore)
      rw [hnil, typed_of_none rfl]
      rfl

theorem processText_ofText {fuel : Nat} {decodedFromBuffer : Bool} {str : CodeUnits}
    (hlead : s.pendingSingleUtf8LeadByte = none) (hheld : Held k.2)
    (hdecoded : decodedFromBuffer = true ∨ str ≠ [])
    (hfuel : (s.ofText k).buffer.length + (s.ofText k).pasteBuffer.length + str.length < fuel) :
    processText fuel (s.ofText k) decodedFromBuffer str = s.ofText (feed k str) := by
  induction fuel generalizing decodedFromBuffer k str with
  | zero => exact absurd hfuel (Nat.not_lt_zero _)
  | succ fuel ih =>
    have hnext : ∀ (length : Nat), length ≤ fuel → ∀ (e' : Emitted) (rest : CodeUnits), rest ≠ [] →
        rest.length < length →
        processText fuel (s.ofText (e', .typing [])).emitPendingSingleUtf8LeadAsMeta false rest =
          s.ofText (typed e' rest) := by
      intro length hlength e' rest hne hlt
      have hlead' : (s.ofText (e', .typing [])).emitPendingSingleUtf8LeadAsMeta =
          s.ofText (e', .typing []) := by
        rw [emitPendingSingleUtf8LeadAsMeta,
          show (s.ofText (e', .typing [])).pendingSingleUtf8LeadByte = none from hlead]
      rw [hlead']
      refine ih ⟨rfl, rfl⟩ (.inr hne) ?_
      show 0 + 0 + rest.length < fuel
      omega
    rw [processText]
    match k, hheld with
    | (e, .typing buffer), hheld =>
      have hrun := escapeRunRemainder_le hheld.1
      split
      · next hempty =>
        have hstr : str = [] := length_eq_zero_iff.mp hempty.1
        rw [if_pos (hdecoded.resolve_right (not_not.mpr hstr)), hstr, feed_nil hheld]
      · have hscan : (s.ofText
            (e, .typing buffer)).bufferedEscapeRunLength - BRACKETED_PASTE_START.length = 0 := by
          show (extract buffer).escapeRunRemainder - 6 = 0
          omega
        rw [hscan, show (s.ofText (e, .typing buffer)).buffer = buffer from rfl]
        dsimp only
        rw [if_neg (show ¬ (s.ofText (e, .typing buffer)).pasteMode = true from Bool.false_ne_true),
          drop_zero]
        show _ = s.ofText (typed e (buffer ++ str))
        cases hstart : indexOf BRACKETED_PASTE_START (buffer ++ str) with
        | none =>
          rw [typed_of_none (cut_eq_none.mpr hstart)]
          have hextract :
              extractCompleteSequences (buffer ++ str) (extract buffer).escapeRunRemainder =
              extract (buffer ++ str) :=
            extractCompleteSequences_eq (Nat.le_trans hrun.2 (escapeRun_le_append buffer str))
          have hstate : { s.ofText (e, .typing buffer) with
              buffer := (extract (buffer ++ str)).remainder
              bufferedEscapeRunLength := (extract (buffer ++ str)).escapeRunRemainder } =
                s.ofText (e, .typing (extract (buffer ++ str)).remainder) := by
            simp only [ofText, extract_remainder]
          rw [← emitDataSequences_ofText, ← hstate, ← hextract]
          rfl
        | some startIndex =>
          rw [typed_of_some (cut_of_indexOf hstart), ← finishPaste_ofText fun s remaining =>
            processText fuel s.emitPendingSingleUtf8LeadAsMeta false remaining]
          · dsimp only [Option.map]
            rw [emitBeforePaste_ofText]
            rfl
          · refine hnext _ ?_
            have hlength : buffer.length + 0 + str.length < fuel + 1 := hfuel
            rw [length_drop, length_append]
            omega
    | (e, .pasting content), hheld =>
      split
      · next hempty =>
        have hstr : str = [] := length_eq_zero_iff.mp hempty.1
        rw [if_pos (hdecoded.resolve_right (not_not.mpr hstr)), hstr, feed_nil hheld]
      · show _ = s.ofText (pasted e (content ++ str))
        rw [← finishPaste_ofText fun s remaining =>
          processText fuel s.emitPendingSingleUtf8LeadAsMeta false remaining]
        · rfl
        · refine hnext _ ?_
          have hlength : 0 + content.length + str.length < fuel + 1 := hfuel
          rw [length_append]
          omega

theorem processDecoded_ofText (hlead : s.pendingSingleUtf8LeadByte = none) (hheld : Held k.2)
    (str : CodeUnits) :
    (s.ofText k).processDecoded true str = s.ofText (feed k str) :=
  processText_ofText hlead hheld (.inl rfl) (Nat.lt_succ_self _)

end StdinBuffer

end Vibrato.Tui.Stdin
