import Vibrato.Tui.StdinDecoded
import Vibrato.Tui.StdinDivergence

namespace Vibrato.Tui.Stdin

open Lib CodeUnits List

open Utf8 in
theorem encode_lead {n : Nat} (hn : IsScalar n) :
    ∃ lead continuations, encode n = lead :: continuations ∧
    isContinuation lead = false ∧ (∀ b ∈ continuations, isContinuation b = true) ∧
    (continuations = [] ∧ lead < 0x80 ∧ expectedLength lead = 0 ∨
      continuations ≠ [] ∧ 127 < lead ∧ isUtf8LeadByte lead = true ∧
        expectedLength lead = continuations.length + 1) := by
  obtain ⟨lead, continuations, hencode, hlead, hall⟩ := encode_shape n
  refine ⟨lead, continuations, hencode, hlead, hall, ?_⟩
  unfold IsScalar at hn
  unfold encode at hencode
  unfold expectedLength isUtf8LeadByte
  split at hencode
  · cases hencode
    refine .inl ⟨rfl, by omega, ?_⟩
    rw [if_neg (by omega), if_neg (by omega), if_neg (by omega)]
  split at hencode
  · cases hencode
    refine .inr ⟨by simp, by omega, ?_, ?_⟩
    · rw [Bool.and_eq_true, decide_eq_true_eq, decide_eq_true_eq]
      omega
    · rw [if_pos (by omega)]
      rfl
  split at hencode
  · cases hencode
    refine .inr ⟨by simp, by omega, ?_, ?_⟩
    · rw [Bool.and_eq_true, decide_eq_true_eq, decide_eq_true_eq]
      omega
    · rw [if_neg (by omega), if_pos (by omega)]
      rfl
  · cases hencode
    refine .inr ⟨by simp, by omega, ?_, ?_⟩
    · rw [Bool.and_eq_true, decide_eq_true_eq, decide_eq_true_eq]
      omega
    · rw [if_neg (by omega), if_neg (by omega), if_pos (by omega)]
      rfl

theorem endsWithIncompleteUtf8Sequence_lead {before continuations : List Nat} {lead : Nat}
    (hlead : Utf8.isContinuation lead = false)
    (hall : ∀ b ∈ continuations, Utf8.isContinuation b = true) :
    endsWithIncompleteUtf8Sequence (before ++ lead :: continuations) =
      (0 < expectedLength lead && continuations.length + 1 < expectedLength lead) := by
  have hreverse : (before ++ lead :: continuations).reverse =
      continuations.reverse ++ lead :: before.reverse := by
    simp
  have hall' : ∀ b ∈ continuations.reverse, Utf8.isContinuation b = true :=
    fun b hb => hall b (mem_reverse.mp hb)
  unfold endsWithIncompleteUtf8Sequence
  rw [hreverse, takeWhile_append_of_pos hall', dropWhile_append_of_pos hall',
    takeWhile_cons_of_neg (by simp [hlead]), dropWhile_cons_of_neg (by simp [hlead])]
  simp

theorem endsWithIncompleteUtf8Sequence_continuations {data : List Nat} (hne : data ≠ [])
    (hall : ∀ b ∈ data, Utf8.isContinuation b = true) :
    endsWithIncompleteUtf8Sequence data = true := by
  have hall' : ∀ b ∈ data.reverse, Utf8.isContinuation b =
      true := fun b hb => hall b (mem_reverse.mp hb)
  have hpos := length_pos_of_ne_nil hne
  unfold endsWithIncompleteUtf8Sequence
  rw [← append_nil data.reverse, takeWhile_append_of_pos hall', dropWhile_append_of_pos hall']
  simpa using hpos

open Utf8 in
theorem endsWithIncompleteUtf8Sequence_started (before : List Nat) {first : List Nat}
    {text : List Char}
    (h : Started first text) (hne : first ≠ []) :
    endsWithIncompleteUtf8Sequence (before ++ first) = true ∧
      (before ++ first).all isContinuation = false := by
  rcases h with rfl | ⟨c, rest, more, -, hmore, hmoreNe⟩
  · exact absurd rfl hne
  · obtain ⟨lead, continuations, hencode, hlead, hall, hkind⟩ := encode_lead (isScalar_char c)
    cases first with
    | nil => exact absurd rfl hne
    | cons b first =>
      rw [hencode, cons_append] at hmore
      obtain ⟨rfl, rfl⟩ := List.cons.inj hmore
      have hpos := length_pos_of_ne_nil hmoreNe
      rw [endsWithIncompleteUtf8Sequence_lead hlead fun b hb => hall b (mem_append_left _ hb)]
      constructor
      · rcases hkind with ⟨hnil, -⟩ | ⟨-, -, -, hlength⟩
        · exact absurd (append_eq_nil_iff.mp hnil).2 hmoreNe
        · rw [hlength, length_append, Bool.and_eq_true, decide_eq_true_eq, decide_eq_true_eq]
          omega
      · rw [all_append, all_cons, hlead, Bool.false_and, Bool.and_false]

open Utf8 in
theorem endsWithIncompleteUtf8Sequence_whole (before : List Nat) (c : Char) :
    endsWithIncompleteUtf8Sequence (before ++ encode c.toNat) = false := by
  obtain ⟨lead, continuations, hencode, hlead, hall, hkind⟩ := encode_lead (isScalar_char c)
  rw [hencode, endsWithIncompleteUtf8Sequence_lead hlead hall, Bool.and_eq_false_iff,
    decide_eq_false_iff_not, decide_eq_false_iff_not]
  rcases hkind with ⟨-, -, hzero⟩ | ⟨-, -, -, hlength⟩
  · rw [hzero]
    exact .inl (Nat.lt_irrefl _)
  · rw [hlength]
    exact .inr (Nat.lt_irrefl _)

namespace StdinBuffer

variable (s : StdinBuffer)

/-- The first bytes of a character have come: the decoder has them, or a single one waits for the
next. -/
def Waiting (first : List Nat) : Prop :=
  (s.pendingSingleUtf8LeadByte = none ∧ s.decoder = (Utf8.Decoder.idle.run first).1 ∧
    s.decoderHasPendingUtf8 = !first.isEmpty) ∨
  ∃ b, first = [b] ∧ s.pendingSingleUtf8LeadByte = some b ∧ s.decoder = .idle ∧
    s.decoderHasPendingUtf8 = true

@[simp] theorem decoder_ofText (k : Emitted × Mode) : (s.ofText k).decoder = s.decoder := by
  match k with
  | (_, .typing _) => rfl
  | (_, .pasting _) => rfl

@[simp] theorem decoderHasPendingUtf8_ofText (k : Emitted × Mode) :
    (s.ofText k).decoderHasPendingUtf8 = s.decoderHasPendingUtf8 := by
  match k with
  | (_, .typing _) => rfl
  | (_, .pasting _) => rfl

@[simp] theorem pendingSingleUtf8LeadByte_ofText (k : Emitted × Mode) :
    (s.ofText k).pendingSingleUtf8LeadByte = s.pendingSingleUtf8LeadByte := by
  match k with
  | (_, .typing _) => rfl
  | (_, .pasting _) => rfl

section

open Utf8

variable {s : StdinBuffer} {k : Emitted × Mode} {first data first' : List Nat}
    {whole text : List Char}
  {chunks : List (List Nat)}

theorem exists_rest (hstarted : Started first (whole ++ text)) (hne : first ≠ [])
    (heq : first ++ data = encodeAll whole ++ first') (hstarted' : Started first' text) :
    (whole = [] ∧ first' = first ++ data ∧ ∀ b ∈ data, isContinuation b = true) ∨
      ∃ c w more, whole = c :: w ∧ more ≠ [] ∧ data = more ++ (encodeAll w ++ first') ∧
        ∀ b ∈ more, isContinuation b = true := by
  rcases hstarted with rfl | ⟨c, rest, more, htext, hmore, hmoreNe⟩
  · exact absurd rfl hne
  obtain ⟨lead, continuations, hencode, -, hall, -⟩ := encode_lead (isScalar_char c)
  have htail : ∀ {a b : List Nat}, encode c.toNat = a ++ b → a ≠ [] →
      ∀ x ∈ b, isContinuation x = true := by
    intro a b hsplit hane x hx
    cases a with
    | nil => exact absurd rfl hane
    | cons y a =>
      rw [hencode] at hsplit
      refine hall x ?_
      rw [(List.cons.inj hsplit).2]
      exact mem_append_right _ hx
  cases whole with
  | nil =>
    refine .inl ⟨rfl, heq.symm, fun b hb => ?_⟩
    have hfirst : first' = first ++ data := heq.symm
    rcases hstarted' with hnil | ⟨c', rest', more', htext', hmore', -⟩
    · rw [hnil] at hfirst
      exact absurd (append_eq_nil_iff.mp hfirst.symm).1 hne
    · rw [htext'] at htext
      obtain ⟨rfl, -⟩ := List.cons.inj htext
      rw [hfirst, append_assoc] at hmore'
      exact htail hmore' hne b (mem_append_left _ hb)
  | cons c' w =>
    obtain ⟨rfl, -⟩ := List.cons.inj htext
    refine .inr ⟨c', w, more, rfl, hmoreNe, ?_, htail hmore hne⟩
    rw [encodeAll_cons, hmore, append_assoc, append_assoc] at heq
    exact append_cancel_left heq

theorem hasPending_eq {bytes : List Nat} (had : Bool) (hne : bytes ≠ [])
    (hstarted : Started first (whole ++ text)) (heq : first ++ data = encodeAll whole ++ first')
    (hstarted' : Started first' text)
    (hbytes : bytes = first ++ data ∨ bytes = data ∧ first ≠ [] ∧ had = true) :
    (endsWithIncompleteUtf8Sequence bytes &&
      !(had && 0 < (CodeUnits.ofChars whole).length && bytes.all isContinuation)) =
        !first'.isEmpty := by
  -- bytes that end with a whole character, or with a part of one
  have hends : ∀ (before : List Nat) (w : List Char), bytes = before ++ (encodeAll w ++ first') →
      (first' = [] → w ≠ []) → (endsWithIncompleteUtf8Sequence bytes &&
        !(had && 0 < (CodeUnits.ofChars whole).length && bytes.all isContinuation)) =
          !first'.isEmpty := by
    intro before w hsplit hw
    by_cases hfirst : first' = []
    · obtain ⟨w', c, rfl⟩ := (eq_nil_or_concat' w).resolve_left (hw hfirst)
      rw [hfirst, append_nil, encodeAll_append, ← append_assoc] at hsplit
      have hwhole : encodeAll [c] = encode c.toNat := by simp [encodeAll]
      rw [hsplit, hwhole, endsWithIncompleteUtf8Sequence_whole, hfirst]
      rfl
    · rw [← append_assoc] at hsplit
      obtain ⟨htrue, hall⟩ :=
    endsWithIncompleteUtf8Sequence_started (before ++ encodeAll w) hstarted' hfirst
      rw [hsplit, htrue, hall, Bool.and_false]
      cases first' with
      | nil => exact absurd rfl hfirst
      | cons b first' => rfl
  rcases hbytes with hbytes | ⟨hbytes, hfirstNe, hhad⟩
  · refine hends [] whole (hbytes.trans heq) fun hnil hwhole => hne ?_
    rw [hbytes, heq, hnil, hwhole]
    rfl
  · rcases exists_rest hstarted hfirstNe heq hstarted' with
      ⟨hwhole, hfirst', hall⟩ | ⟨c, w, more, hwhole, hmore, hdata, hall⟩
    · -- still the same character
      rw [hbytes] at hne ⊢
      rw [endsWithIncompleteUtf8Sequence_continuations hne hall, hwhole, hfirst']
      cases first with
      | nil => exact absurd rfl hfirstNe
      | cons b first => simp [CodeUnits.ofChars]
    · by_cases hlast : w = [] ∧ first' = []
      · -- the character is complete, and nothing follows
        have hmoreBytes : bytes = more := by
          rw [hbytes, hdata, hlast.1, hlast.2]
          exact append_nil _
        have hpos : 0 < (CodeUnits.ofChars whole).length := by
          rw [hwhole]
          rcases ofScalar_cases c with ⟨u, hu⟩ | ⟨u, v, hu, -⟩
          · simp [CodeUnits.ofChars, hu]
          · simp [CodeUnits.ofChars, hu]
        have hallBytes : bytes.all isContinuation = true := by
          rw [hmoreBytes]
          exact all_eq_true.mpr hall
        rw [hhad, hallBytes, decide_eq_true hpos, hlast.2]
        simp
      · exact hends more w (hbytes.trans hdata) fun hnil hw => hlast ⟨hw, hnil⟩

theorem single_lead {b : Nat} (hlarge : 127 < b) (heq : [] ++ [b] = encodeAll whole ++ first')
    (hstarted' : Started first' text) : whole = [] ∧ first' = [b] ∧ isUtf8LeadByte b = true := by
  cases whole with
  | nil =>
    have hfirst : first' = [b] := heq.symm
    refine ⟨rfl, hfirst, ?_⟩
    rcases hstarted' with hnil | ⟨c, rest, more, -, hmore, hmoreNe⟩
    · rw [hnil] at hfirst
      cases hfirst
    · obtain ⟨lead, continuations, hencode, -, -, hkind⟩ := encode_lead (isScalar_char c)
      rw [hencode, hfirst] at hmore
      obtain ⟨rfl, rfl⟩ := List.cons.inj hmore
      rcases hkind with ⟨hnil, -⟩ | ⟨-, -, hlead, -⟩
      · exact absurd hnil hmoreNe
      · exact hlead
  | cons c w =>
    obtain ⟨lead, continuations, hencode, -, -, hkind⟩ := encode_lead (isScalar_char c)
    rw [encodeAll_cons, hencode, append_assoc] at heq
    obtain ⟨rfl, hnil⟩ := List.cons.inj heq
    rcases hkind with ⟨-, hsmall, -⟩ | ⟨hne, -⟩
    · omega
    · exact absurd (append_eq_nil_iff.mp hnil.symm).1 hne

theorem decode_ofText {bytes : List Nat} {had : Bool} (hne : bytes ≠ []) (hheld : Held k.2)
    (hlead : s.pendingSingleUtf8LeadByte = none)
    (hstarted : Started first (whole ++ text)) (heq : first ++ data = encodeAll whole ++ first')
    (hstarted' : Started first' text)
    (hbytes : bytes = first ++ data ∧ s.decoder = .idle ∨
      bytes = data ∧ first ≠ [] ∧ had = true ∧ s.decoder = (Decoder.idle.run first).1) :
    ∃ s', ((s.ofText k).decode had bytes).1.processDecoded true ((s.ofText k).decode had bytes).2 =
      s'.ofText (feed k (CodeUnits.ofChars whole)) ∧ Waiting s' first' := by
  have hrun :
      s.decoder.run bytes = ((Decoder.idle.run first').1, whole.map fun c => some c.toNat) := by
    rcases hbytes with ⟨hbytes, hidle⟩ | ⟨hbytes, -, -, hdecoder⟩
    · rw [hbytes, hidle, heq, Decoder.run_append, Decoder.run_encodeAll,
        Decoder.run_started hstarted', append_nil]
    · rw [hbytes, hdecoder]
      exact Decoder.run_chunk hstarted heq hstarted'
  have hflag := hasPending_eq had hne hstarted heq hstarted'
    (hbytes.imp (·.1) fun h => ⟨h.1, h.2.1, h.2.2.1⟩)
  have hdecode : (s.ofText k).decode had bytes =
      (({ s with
        decoder :=
      (Decoder.idle.run first').1, decoderHasPendingUtf8 := !first'.isEmpty }).ofText k,
        CodeUnits.ofChars whole) := by
    unfold decode
    rw [decoder_ofText, hrun, ofOutput_map_some]
    dsimp only
    rw [hflag]
    match k with
    | (_, .typing _) => rfl
    | (_, .pasting _) => rfl
  have hlead' : ({ s with
      decoder := (Decoder.idle.run first').1
      decoderHasPendingUtf8 := !first'.isEmpty }).pendingSingleUtf8LeadByte = none := hlead
  rw [hdecode]
  exact ⟨_, processDecoded_ofText hlead' hheld _, .inl ⟨hlead, rfl, rfl⟩⟩

theorem process_ofText (hwaiting : Waiting s first) (hheld : Held k.2) (hdata : data ≠ [])
    (hstarted : Started first (whole ++ text)) (heq : first ++ data = encodeAll whole ++ first')
    (hstarted' : Started first' text) :
    ∃ s', (s.ofText k).process data = s'.ofText (feed k (CodeUnits.ofChars whole)) ∧
      Waiting s' first' := by
  rcases hwaiting with ⟨hlead, hdecoder, hpending⟩ | ⟨b, rfl, hlead, hdecoder, hpending⟩
  · unfold process
    rw [pendingSingleUtf8LeadByte_ofText, hlead]
    dsimp only
    by_cases hfirst : first = []
    · subst hfirst
      split
      · -- a single byte that starts a character
        next hsingle =>
        obtain ⟨hlength, hlarge, -⟩ := hsingle
        obtain ⟨b, rfl⟩ := length_eq_one_iff.mp hlength
        obtain ⟨rfl, rfl, hb⟩ := single_lead hlarge heq hstarted'
        rw [if_pos (show isUtf8LeadByte ([b].headD 0) = true from hb)]
        refine ⟨{ s with pendingSingleUtf8LeadByte := some b, decoderHasPendingUtf8 := true }, ?_,
          .inr ⟨b, rfl, rfl, hdecoder, rfl⟩⟩
        rw [show CodeUnits.ofChars [] = [] from rfl, feed_nil hheld]
        match k with
        | (_, .typing _) => rfl
        | (_, .pasting _) => rfl
      · refine decode_ofText hdata hheld hlead hstarted heq hstarted' (.inl ⟨rfl, hdecoder⟩)
    · have hhas : s.decoderHasPendingUtf8 = true := by
        rw [hpending]
        cases first with
        | nil => exact absurd rfl hfirst
        | cons b first => rfl
      rw [decoderHasPendingUtf8_ofText, hhas, if_neg (by simp)]
      exact decode_ofText hdata hheld hlead hstarted heq hstarted'
        (.inr ⟨rfl, hfirst, rfl, hdecoder⟩)
  · -- the byte that waited and the chunk are decoded together
    have hhead : data.head?.any isContinuation = true := by
      have hfirst : ∀ {a more : List Nat}, a ≠ [] → (∀ x ∈ a, isContinuation x = true) →
          data = a ++ more →
          data.head?.any isContinuation = true := by
        rintro a more hne hall rfl
        cases a with
        | nil => exact absurd rfl hne
        | cons x a => exact hall x mem_cons_self
      rcases exists_rest hstarted (by simp) heq hstarted' with ⟨-, -, hall⟩ | ⟨c, w, more, -, hmore,
          hsplit, hall⟩
      · exact hfirst hdata hall (append_nil _).symm
      · exact hfirst hmore hall hsplit
    have hstate : { s.ofText k with pendingSingleUtf8LeadByte := none } =
        ({ s with pendingSingleUtf8LeadByte := none }).ofText k := by
      match k with
      | (_, .typing _) => rfl
      | (_, .pasting _) => rfl
    unfold process
    rw [pendingSingleUtf8LeadByte_ofText, hlead]
    dsimp only
    rw [if_pos hhead]
    rw [if_neg, hstate]
    · exact decode_ofText (by simp) hheld rfl hstarted heq hstarted' (.inl ⟨rfl, hdecoder⟩)
    · rintro ⟨hlength, -⟩
      exact hdata (length_eq_zero_iff.mp (Nat.succ.inj hlength))

theorem Waiting.ofText_eq (h : Waiting s []) (k : Emitted × Mode) :
    s.ofText k = ({} : StdinBuffer).ofText k := by
  rcases h with ⟨hlead, hdecoder, hpending⟩ | ⟨b, hb, -⟩
  · match k with
    | (e, .typing buffer) => simp [ofText, hlead, hdecoder, hpending, Decoder.run]
    | (e, .pasting content) => simp [ofText, hlead, hdecoder, hpending, Decoder.run]
  · cases hb

theorem foldl_process_ofText (hchunks : [] ∉ chunks) (hwaiting : Waiting s first)
    (hheld : Held k.2) (hstarted : Started first text)
    (heq : first ++ chunks.flatten = encodeAll text) :
    ∃ parts : List (List Char), parts.flatten = text ∧
      chunks.foldl process (s.ofText k) = ({} : StdinBuffer).ofText
        ((parts.map ofChars).foldl feed k) := by
  induction chunks generalizing s k first text with
  | nil =>
    rw [flatten_nil, append_nil] at heq
    obtain ⟨rfl, rfl⟩ := hstarted.nil_of_encodeAll heq
    exact ⟨[], rfl, hwaiting.ofText_eq k⟩
  | cons data chunks ih =>
    obtain ⟨hdata, hchunks⟩ := not_or.mp (mem_cons.not.mp hchunks)
    rw [flatten_cons, ← append_assoc] at heq
    obtain ⟨whole, first', rest, rfl, hfirst, hrest, hstarted'⟩ := encodeAll_eq_append heq.symm
    obtain ⟨s', hprocess, hwaiting'⟩ :=
      process_ofText hwaiting hheld (Ne.symm hdata) hstarted hfirst hstarted'
    obtain ⟨parts, rfl, hrun⟩ := ih hchunks hwaiting' (held_feed k (ofChars whole)) hstarted' hrest
    refine ⟨whole :: parts, rfl, ?_⟩
    rw [foldl_cons, hprocess, hrun]
    rfl

theorem waiting_initial : Waiting {} [] := .inl ⟨rfl, rfl, rfl⟩

theorem held_initial : Held (({}, .typing []) : Emitted × Mode).2 := ⟨rfl, rfl⟩

theorem run_ofText (hchunks : [] ∉ chunks) (heq : chunks.flatten = encodeAll text) :
    ∃ parts : List (List Char), parts.flatten = text ∧
      run chunks = ({} : StdinBuffer).ofText ((parts.map ofChars).foldl feed ({}, .typing [])) :=
  foldl_process_ofText hchunks waiting_initial held_initial (.inl rfl) heq

theorem foldl_process_encodeAll {parts : List (List Char)} (hparts : [] ∉ parts)
    (hwaiting : Waiting s [])
    (hheld : Held k.2) :
    (parts.map encodeAll).foldl process (s.ofText k) =
      ({} : StdinBuffer).ofText ((parts.map ofChars).foldl feed k) := by
  induction parts generalizing s k with
  | nil => exact hwaiting.ofText_eq k
  | cons part parts ih =>
    obtain ⟨hpart, hparts⟩ := not_or.mp (mem_cons.not.mp hparts)
    have hdata : encodeAll part ≠ [] := by
      intro hnil
      exact hpart ((Started.nil_of_encodeAll (.inl rfl) hnil.symm).2).symm
    have hbytes : [] ++ encodeAll part = encodeAll part ++ [] := (append_nil _).symm
    obtain ⟨s', hprocess, hwaiting'⟩ :=
      process_ofText hwaiting hheld hdata (.inl rfl) hbytes (.inl rfl : Started [] [])
    rw [map_cons, foldl_cons, hprocess, ih hparts hwaiting' (held_feed k (ofChars part))]
    rfl

end

def SameOutcome (s t : StdinBuffer) : Prop :=
  s.events = t.events ∧ s.buffer = t.buffer ∧ s.pasteMode = t.pasteMode ∧
    s.pasteBuffer = t.pasteBuffer

theorem events_ofText (s : StdinBuffer) (k : Emitted × Mode) :
    (s.ofText k).events = k.1.events := by
  match k with
  | (_, .typing _) => rfl
  | (_, .pasting _) => rfl

end StdinBuffer

open Utf8 StdinBuffer

variable (parts : List (List Char))

theorem ofChars_flatten :
    CodeUnits.ofChars parts.flatten = (parts.map CodeUnits.ofChars).flatten := by
  induction parts with
  | nil => rfl
  | cons part parts ih => rw [flatten_cons, CodeUnits.ofChars_append, ih, map_cons, flatten_cons]

theorem encodeAll_flatten : (parts.map encodeAll).flatten = encodeAll parts.flatten := by
  induction parts with
  | nil => rfl
  | cons part parts ih => rw [map_cons, flatten_cons, ih, flatten_cons, encodeAll_append]

theorem run_of_settled {text : List Char} {chunks : List (List Nat)} (hchunks : [] ∉ chunks)
    (heq : chunks.flatten = encodeAll text)
    (h : ∀ segment ∈ segmentsBeforePastes (CodeUnits.ofChars text), settled segment = true) :
    run chunks = ({} : StdinBuffer).ofText (typed {} (CodeUnits.ofChars text)) := by
  obtain ⟨parts, rfl, hrun⟩ := run_ofText hchunks heq
  have hinitial : typed {} [] = ({}, .typing []) := typed_of_none rfl
  rw [ofChars_flatten] at h ⊢
  rw [hrun, ← hinitial, foldl_feed h, nil_append]

/-- The text of every stream may be split in any way into chunks, with the same events and the same
remainder, exactly where no segment before a paste has a malformed mouse report or ends with a
string that may be half terminated. -/
theorem process_splits_agree_iff (text : List Char) :
    (∀ chunks chunks' : List (List Nat), [] ∉ chunks → [] ∉ chunks' →
      chunks.flatten = encodeAll text →
      chunks'.flatten = encodeAll text → SameOutcome (run chunks) (run chunks')) ↔
    ∀ segment ∈ segmentsBeforePastes (CodeUnits.ofChars text), settled segment = true := by
  constructor
  · intro hsame
    by_contra hnot
    push Not at hnot
    obtain ⟨segment, hsegment, hsettled⟩ := hnot
    obtain ⟨parts, parts', ⟨hparts, hflatten⟩, ⟨hparts', hflatten'⟩, hne⟩ :=
      exists_parts_ne _ {} text rfl ⟨segment, hsegment, by simpa using hsettled⟩
    have hbytes : ∀ {ps : List (List Char)}, [] ∉ ps → [] ∉ ps.map encodeAll := by
      intro ps hps hmem
      obtain ⟨p, hp, hnil⟩ := mem_map.mp hmem
      rw [(Started.nil_of_encodeAll (.inl rfl) hnil.symm).2] at hp
      exact hps hp
    have hrun : ∀ {ps : List (List Char)}, [] ∉ ps → (run (ps.map encodeAll)).events =
        ((ps.map CodeUnits.ofChars).foldl feed ({}, .typing [])).1.events := by
      intro ps hps
      have h := foldl_process_encodeAll hps waiting_initial held_initial
      rw [← events_ofText {}, ← h]
      rfl
    have hevents := (hsame _ _ (hbytes hparts) (hbytes hparts')
      (by rw [encodeAll_flatten, hflatten]) (by rw [encodeAll_flatten, hflatten'])).1
    rw [hrun hparts, hrun hparts'] at hevents
    exact hne hevents
  · intro h chunks chunks' hchunks hchunks' heq heq'
    rw [run_of_settled hchunks heq h, run_of_settled hchunks' heq' h]
    exact ⟨rfl, rfl, rfl, rfl⟩

/-- A mouse report without a row, and a paste: `"\x1b[<1;2M\x1b[200~hi\x1b[201~"`. -/
def malformedReport : List Char := ['\x1b', '[', '<', '1', ';', '2', 'M']

def hiPaste : List Char :=
  ['\x1b', '[', '2', '0', '0', '~', 'h', 'i', '\x1b', '[', '2', '0', '1', '~']

/-- In one chunk the report is emitted before the paste; in a chunk of its own it is dropped. -/
theorem process_malformedReport_before_paste :
    ((run [encodeAll (malformedReport ++ hiPaste)]).events =
      [.data (CodeUnits.ofChars malformedReport), .paste (CodeUnits.ofChars ['h', 'i'])] ∧
    (run [encodeAll malformedReport, encodeAll hiPaste]).events =
      [.paste (CodeUnits.ofChars ['h', 'i'])]) ∧
    ¬ ∀ (text : List Char) (chunks chunks' : List (List Nat)), [] ∉ chunks → [] ∉ chunks' →
      chunks.flatten = encodeAll text → chunks'.flatten = encodeAll text →
      SameOutcome (run chunks) (run chunks') := by
  have hwhole : (run [encodeAll (malformedReport ++ hiPaste)]).events =
      [.data (CodeUnits.ofChars malformedReport), .paste (CodeUnits.ofChars ['h', 'i'])] := by
        decide +kernel
  have hparts : (run [encodeAll malformedReport, encodeAll hiPaste]).events =
      [.paste (CodeUnits.ofChars ['h', 'i'])] := by decide +kernel
  refine ⟨⟨hwhole, hparts⟩, fun h => ?_⟩
  have hevents := (h (malformedReport ++ hiPaste) [encodeAll (malformedReport ++ hiPaste)]
    [encodeAll malformedReport, encodeAll hiPaste] (by decide +kernel) (by decide +kernel)
    (by decide +kernel)
    (by decide +kernel)).1
  rw [hwhole, hparts] at hevents
  simp at hevents

end Vibrato.Tui.Stdin
