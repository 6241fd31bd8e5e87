import Vibrato.Lib.Utf16

/-! The bytes of a text in chunks: a chunk ends with the first bytes of a character or between two
characters, and the decoder puts out the characters that are complete. -/

namespace Vibrato.Lib

open List

namespace Utf8

def encodeAll (text : List Char) : List Nat := text.flatMap fun c => encode c.toNat

theorem encodeAll_cons (c : Char) (text : List Char) :
    encodeAll (c :: text) = encode c.toNat ++ encodeAll text :=
  flatMap_cons

theorem encodeAll_append (a b : List Char) : encodeAll (a ++ b) = encodeAll a ++ encodeAll b :=
  flatMap_append

theorem isScalar_char (c : Char) : IsScalar c.toNat := by
  rcases c.valid with h | h
  · exact .inl h
  · exact .inr ⟨h.1, h.2⟩

def Started (first : List Nat) (text : List Char) : Prop :=
  first = [] ∨ ∃ c rest more, text = c :: rest ∧ encode c.toNat = first ++ more ∧ more ≠ []

theorem encodeAll_eq_append {text : List Char} {a b : List Nat} (h : encodeAll text = a ++ b) :
    ∃ whole first rest, text = whole ++ rest ∧ a = encodeAll whole ++ first ∧
      first ++ b = encodeAll rest ∧
      Started first rest := by
  induction text generalizing a with
  | nil =>
    obtain ⟨rfl, rfl⟩ := append_eq_nil_iff.mp h.symm
    exact ⟨[], [], [], rfl, rfl, rfl, .inl rfl⟩
  | cons c text ih =>
    rw [encodeAll_cons] at h
    rcases append_eq_append_iff.mp h with ⟨more, rfl, hmore⟩ | ⟨more, hmore, rfl⟩
    · obtain ⟨whole, first, rest, rfl, rfl, hrest, hstarted⟩ := ih hmore
      exact ⟨c :: whole, first, rest, rfl, by rw [encodeAll_cons, append_assoc], hrest, hstarted⟩
    · by_cases hnil : more = []
      · rw [hnil, append_nil] at hmore
        refine ⟨[c], [], text, rfl, ?_, ?_, .inl rfl⟩
        · rw [← hmore]
          simp [encodeAll]
        · rw [hnil]
          rfl
      · refine ⟨[], a, c :: text, rfl, rfl, ?_, .inr ⟨c, text, more, rfl, hmore, hnil⟩⟩
        rw [encodeAll_cons, hmore, append_assoc]

theorem Started.nil_of_encodeAll {first : List Nat} {text : List Char} (h : Started first text)
    (heq : first = encodeAll text) : first = [] ∧ text = [] := by
  rcases h with rfl | ⟨c, rest, more, rfl, hmore, hne⟩
  · cases text with
    | nil => exact ⟨rfl, rfl⟩
    | cons c text =>
      rw [encodeAll_cons] at heq
      have hpos := encode_length_pos c.toNat
      rw [(append_eq_nil_iff.mp heq.symm).1] at hpos
      exact absurd hpos (Nat.lt_irrefl _)
  · rw [encodeAll_cons, hmore] at heq
    have hlength := congrArg List.length heq
    have hpos := length_pos_of_ne_nil hne
    rw [length_append, length_append] at hlength
    omega

namespace Decoder

theorem run_first {n : Nat} (hn : IsScalar n) {first more : List Nat} (h : encode n = first ++ more)
    (hne : more ≠ []) : (idle.run first).2 = [] := by
  unfold IsScalar at hn
  have hpos := length_pos_of_ne_nil hne
  unfold encode at h
  split at h
  · -- one byte
    have hlength := congrArg List.length h
    rw [length_append, length_singleton] at hlength
    rw [length_eq_zero_iff.mp (show first.length = 0 by omega)]
    rfl
  split at h
  · rcases first with _ | ⟨b, _ | ⟨_, _ | _⟩⟩
    · rfl
    · cases h
      rw [run, feed_idle, first_two (by omega) (by omega)]
      rfl
    · cases h
      exact absurd rfl hne
    · cases h
  split at h
  · rcases first with _ | ⟨b, _ | ⟨b', _ | ⟨_, _ | _⟩⟩⟩
    · rfl
    · cases h
      rw [run, feed_idle, first_three (by omega) (by omega)]
      rfl
    · cases h
      rw [run, feed_idle, first_three (by omega) (by omega)]
      rw [run, feed_more (by split <;> omega) (by split <;> omega)]
      rfl
    · cases h
      exact absurd rfl hne
    · cases h
  · rcases first with _ | ⟨b, _ | ⟨b', _ | ⟨b'', _ | ⟨_, _ | _⟩⟩⟩⟩
    · rfl
    · cases h
      rw [run, feed_idle, first_four (by omega) (by omega)]
      rfl
    · cases h
      rw [run, feed_idle, first_four (by omega) (by omega)]
      rw [run, feed_more (by split <;> omega) (by split <;> omega)]
      rfl
    · cases h
      rw [run, feed_idle, first_four (by omega) (by omega)]
      rw [run, feed_more (by split <;> omega) (by split <;> omega)]
      rw [run, feed_more (by omega) (by omega)]
      rfl
    · cases h
      exact absurd rfl hne
    · cases h

theorem run_started {first : List Nat} {text : List Char} (h : Started first text) :
    (idle.run first).2 = [] := by
  rcases h with rfl | ⟨c, rest, more, -, hmore, hne⟩
  · rfl
  · exact run_first (isScalar_char c) hmore hne

theorem run_encodeAll (text : List Char) :
    idle.run (encodeAll text) = (idle, text.map fun c => some c.toNat) := by
  have hscalars : ∀ n ∈ text.map Char.toNat, IsScalar n := by
    intro n hn
    obtain ⟨c, -, rfl⟩ := mem_map.mp hn
    exact isScalar_char c
  have h := run_flatMap_encode hscalars
  rw [flatMap_map, map_map] at h
  exact h

theorem run_chunk {first data first' : List Nat} {whole text text' : List Char}
    (h : Started first text)
    (heq : first ++ data = encodeAll whole ++ first') (h' : Started first' text') :
    (idle.run first).1.run data = ((idle.run first').1, whole.map fun c => some c.toNat) := by
  have hrun :
      idle.run (first ++ data) = ((idle.run first').1, whole.map fun c => some c.toNat) := by
    rw [heq, run_append, run_encodeAll, run_started h', append_nil]
  rw [run_append, run_started h] at hrun
  exact hrun

end Decoder

end Utf8

namespace CodeUnits

def ofChars (text : List Char) : CodeUnits := text.flatMap fun c => ofScalar c.toNat

theorem ofChars_append (a b : List Char) : ofChars (a ++ b) = ofChars a ++ ofChars b :=
  flatMap_append

theorem ofOutput_map_some (text : List Char) :
    ofOutput (text.map fun c => some c.toNat) = ofChars text := by
  rw [ofOutput, flatMap_map]
  rfl

theorem ofScalar_cases (c : Char) : (∃ u, ofScalar c.toNat = [u]) ∨
    ∃ u v, ofScalar c.toNat = [u, v] ∧ isHigh u = true ∧ isLow v = true := by
  unfold ofScalar
  split
  · exact .inl ⟨_, rfl⟩
  · next hlarge =>
    have hvalid := Utf8.isScalar_char c
    unfold Utf8.IsScalar at hvalid
    have hsize : UInt16.size = 0x10000 := rfl
    refine .inr ⟨_, _, rfl, isHigh_iff.mpr ?_, isLow_iff.mpr ?_⟩
    · rw [UInt16.toNat_ofNat_of_lt' (by omega)]
      omega
    · rw [UInt16.toNat_ofNat_of_lt' (by omega)]
      omega

theorem apart_of_cons {u : UInt16} {a b : CodeUnits}
    (h : (∀ v ∈ (u :: a).getLast?, isHigh v = false) ∨ ∀ v ∈ b.head?, isLow v = false) :
    (∀ v ∈ a.getLast?, isHigh v = false) ∨ ∀ v ∈ b.head?, isLow v = false := by
  refine h.imp_left fun hlast v hv => hlast v ?_
  cases a with
  | nil => cases hv
  | cons x a => exact hv

theorem ofChars_eq_append {text : List Char} {a b : CodeUnits} (h : ofChars text = a ++ b)
    (hapart : (∀ u ∈ a.getLast?, isHigh u = false) ∨ ∀ u ∈ b.head?, isLow u = false) :
    ∃ first rest, text = first ++ rest ∧ ofChars first = a ∧ ofChars rest = b := by
  induction text generalizing a with
  | nil =>
    obtain ⟨rfl, rfl⟩ := append_eq_nil_iff.mp h.symm
    exact ⟨[], [], rfl, rfl, rfl⟩
  | cons c text ih =>
    have hcons : ofChars (c :: text) = ofScalar c.toNat ++ ofChars text := flatMap_cons
    cases a with
    | nil => exact ⟨[], c :: text, rfl, rfl, h⟩
    | cons u a =>
      rcases ofScalar_cases c with ⟨v, hc⟩ | ⟨v, w, hc, hv, hw⟩
      · rw [hcons, hc] at h
        obtain ⟨rfl, htext⟩ := List.cons.inj h
        obtain ⟨first, rest, rfl, rfl, rfl⟩ := ih htext (apart_of_cons hapart)
        exact ⟨c :: first, rest, rfl, by rw [ofChars, flatMap_cons, hc]; rfl, rfl⟩
      · rw [hcons, hc] at h
        obtain ⟨rfl, htext⟩ := List.cons.inj h
        cases a with
        | nil =>
          -- the surrogates would be parted
          rcases hapart with hlast | hhead
          · have hnot := hlast v rfl
            rw [hv] at hnot
            cases hnot
          · have hnot := hhead w (by rw [← show _ = b from htext]; rfl)
            rw [hw] at hnot
            cases hnot
        | cons x a =>
          obtain ⟨rfl, hrest⟩ := List.cons.inj (show w :: ofChars text = x :: (a ++ b) from htext)
          obtain ⟨first, rest, rfl, rfl, rfl⟩ := ih hrest (apart_of_cons (apart_of_cons hapart))
          exact ⟨c :: first, rest, rfl, by rw [ofChars, flatMap_cons, hc]; rfl, rfl⟩

end CodeUnits

end Vibrato.Lib
