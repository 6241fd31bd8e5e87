import Vibrato.Lib.JsonText

/-! `utils/json-parse.ts`: `repairJson` doubles the backslash of an escape that is not valid, and
escapes control characters, in the string literals of any text. -/

namespace Vibrato.Ai

open Lib JsonText List

/-- `(cp | 0x20)` is a lower case letter for both cases. -/
def isHexDigit (cp : UInt16) : Bool :=
  (0x30 ≤ cp && cp ≤ 0x39) || (0x61 ≤ cp ||| 0x20 && cp ||| 0x20 ≤ 0x66)

def hexUnit (n : Nat) : UInt16 :=
  "0123456789abcdef".toList.map (fun c => UInt16.ofNat c.toNat) |>.getD n 0

/-- `CONTROL_ESCAPES` -/
def controlEscape (cp : UInt16) : CodeUnits :=
  match cp.toNat with
  | 0x08 => [BACKSLASH, 0x62]
  | 0x09 => [BACKSLASH, 0x74]
  | 0x0A => [BACKSLASH, 0x6E]
  | 0x0C => [BACKSLASH, 0x66]
  | 0x0D => [BACKSLASH, 0x72]
  | n => [BACKSLASH, U, 0x30, 0x30, hexUnit (n / 16), hexUnit (n % 16)]

/-- The units after a backslash that are a valid escape with it. -/
def escapeAfter : CodeUnits → Option CodeUnits
  | [] => none
  | next :: after =>
    if next = U then
      match after with
      | a :: b :: c :: d :: _ => if [a, b, c, d].all isHexDigit then some [U, a, b, c, d] else none
      | _ => none
    else if next ∈ ESCAPES then some [next]
    else none

/-- The loop of `repairJson`.  It emits unit by unit what the source collects in parts. -/
def repairFrom : Bool → CodeUnits → CodeUnits
  | _, [] => []
  | false, cp :: rest => cp :: repairFrom (cp == QUOTE) rest
  | true, cp :: rest =>
    if cp = QUOTE then cp :: repairFrom false rest
    else if cp = BACKSLASH then
      match escapeAfter rest with
      | some escape => cp :: escape ++ repairFrom true (rest.drop escape.length)
      | none => BACKSLASH :: BACKSLASH :: repairFrom true rest
    else if cp < 0x20 then controlEscape cp ++ repairFrom true rest
    else cp :: repairFrom true rest
termination_by _ json => json.length

def repairJson (json : CodeUnits) : CodeUnits := repairFrom false json

/-- In string literals are only characters and valid escapes; the text starts outside or inside of
one. -/
inductive Clean : Bool → CodeUnits → Prop
  | nil {inString : Bool} : Clean inString []
  | outside {cp : UInt16} {rest : CodeUnits} :
      cp ≠ QUOTE → Clean false rest → Clean false (cp :: rest)
  | opens {rest : CodeUnits} : Clean true rest → Clean false (QUOTE :: rest)
  | closes {rest : CodeUnits} : Clean false rest → Clean true (QUOTE :: rest)
  | item {item rest : CodeUnits} : StringItem item → Clean true rest → Clean true (item ++ rest)

/-- The text outside of string literals, whose quotes stay: a backslash hides the unit after it. -/
def outline : Bool → CodeUnits → CodeUnits
  | _, [] => []
  | false, cp :: rest => cp :: outline (cp == QUOTE) rest
  | true, cp :: rest =>
    if cp = QUOTE then cp :: outline false rest
    else if cp = BACKSLASH then
      match rest with
      | [] => []
      | _ :: after => outline true after
    else outline true rest

theorem isHexDigit_eq_isHex : isHexDigit = isHex := by
  funext cp
  have hsmall : ∀ n < 0x67, (0x61 ≤ n ||| 0x20 ∧ n ||| 0x20 ≤ 0x66) ↔
      (0x41 ≤ n ∧ n ≤ 0x46) ∨ (0x61 ≤ n ∧ n ≤ 0x66) := by decide
  have hor : (0x61 ≤ cp.toNat ||| 0x20 ∧ cp.toNat ||| 0x20 ≤ 0x66) ↔
      (0x41 ≤ cp.toNat ∧ cp.toNat ≤ 0x46) ∨ (0x61 ≤ cp.toNat ∧ cp.toNat ≤ 0x66) := by
    by_cases hlt : cp.toNat < 0x67
    · exact hsmall _ hlt
    · have hle : cp.toNat ≤ cp.toNat ||| 0x20 := Nat.left_le_or
      omega
  rw [Bool.eq_iff_iff]
  simp only [isHexDigit, isHex, isDigit, Bool.or_eq_true, Bool.and_eq_true, decide_eq_true_eq,
    UInt16.le_iff_toNat_le, UInt16.toNat_or, or_assoc]
  exact or_congr_right hor

theorem stringItem_controlEscape {cp : UInt16} (h : cp < 0x20) : StringItem (controlEscape cp) := by
  have hlt : cp.toNat < 32 := h
  unfold controlEscape
  split
  all_goals first | exact .escape (by decide) (by decide) | skip
  have hhex : ∀ n < 16, isHex (hexUnit n) = true := by decide
  refine .unicode ?_
  rw [all_cons, all_cons, all_cons, all_cons, hhex _ (by omega), hhex _ (Nat.mod_lt _ (by decide))]
  rfl

variable {rest escape : CodeUnits} {s : CodeUnits}

theorem escapeAfter_some (h : escapeAfter rest = some escape) :
    StringItem (BACKSLASH :: escape) ∧ rest = escape ++ rest.drop escape.length := by
  unfold escapeAfter at h
  split at h
  · cases h
  · split at h
    · next hU =>
      split at h
      · split at h
        · next hhex =>
          cases h
          rw [hU]
          refine ⟨.unicode ?_, rfl⟩
          rwa [isHexDigit_eq_isHex] at hhex
        · cases h
      · cases h
    · next hU =>
      split at h
      · next hmem =>
        cases h
        exact ⟨.escape hmem hU, rfl⟩
      · cases h

theorem escapeAfter_none {next : UInt16} {after : CodeUnits}
    (h : escapeAfter (next :: after) = none) :
    next ≠ QUOTE ∧ next ≠ BACKSLASH := by
  constructor
  · rintro rfl
    cases h
  · rintro rfl
    cases h

theorem escapeAfter_of_item (h : StringItem (BACKSLASH :: escape)) (rest : CodeUnits) :
    escapeAfter (escape ++ rest) = some escape := by
  cases h with
  | plain _ _ hne => exact absurd rfl hne
  | escape hmem hU => simp [escapeAfter, hmem, hU]
  | unicode hhex =>
    rw [← isHexDigit_eq_isHex] at hhex
    exact if_pos hhex

/-- The output has only valid escapes. -/
theorem clean_repairFrom (inString : Bool) (json : CodeUnits) :
    Clean inString (repairFrom inString json) := by
  fun_induction repairFrom inString json with
  | case1 => exact .nil
  | case2 cp rest ih =>
    by_cases hquote : cp = QUOTE
    · subst hquote
      exact .opens ih
    · rw [beq_eq_false_iff_ne.mpr hquote] at ih ⊢
      exact .outside hquote ih
  | case3 rest ih => exact .closes ih
  | case4 rest escape hescape _ ih => exact .item (escapeAfter_some hescape).1 ih
  | case5 rest _ _ ih => exact .item (.escape (u := BACKSLASH) (by decide) (by decide)) ih
  | case6 cp rest _ _ hcontrol ih => exact .item (stringItem_controlEscape hcontrol) ih
  | case7 cp rest hquote hbackslash hcontrol ih =>
    exact .item (.plain (UInt16.not_lt.mp hcontrol) hquote hbackslash) ih

theorem repairFrom_item {item : CodeUnits} (h : StringItem item) (rest : CodeUnits) :
    repairFrom true (item ++ rest) = item ++ repairFrom true rest := by
  have hescape : ∀ escape, StringItem (BACKSLASH :: escape) →
      repairFrom true (BACKSLASH :: escape ++ rest) =
        BACKSLASH :: escape ++ repairFrom true rest := by
    intro escape hitem
    rw [cons_append, repairFrom, if_neg (by decide), if_pos rfl, escapeAfter_of_item hitem]
    dsimp only
    rw [drop_left]
  cases h with
  | plain hcontrol hquote hbackslash =>
    rw [singleton_append, repairFrom, if_neg hquote, if_neg hbackslash,
      if_neg (UInt16.not_lt.mpr hcontrol)]
    rfl
  | escape hmem hU => exact hescape _ (.escape hmem hU)
  | unicode hhex => exact hescape _ (.unicode hhex)

theorem repairFrom_of_clean {inString : Bool} {json : CodeUnits} (h : Clean inString json) :
    repairFrom inString json = json := by
  induction h with
  | nil => rw [repairFrom]
  | outside hquote _ ih => rw [repairFrom, beq_eq_false_iff_ne.mpr hquote, ih]
  | opens _ ih => rw [repairFrom, beq_self_eq_true, ih]
  | closes _ ih => rw [repairFrom, if_pos rfl, ih]
  | item hitem _ ih => rw [repairFrom_item hitem, ih]

theorem outline_quote (rest : CodeUnits) :
    outline true (QUOTE :: rest) = QUOTE :: outline false rest := by
  rw [outline.eq_def]
  exact if_pos rfl

theorem outline_cons {cp : UInt16} (hquote : cp ≠ QUOTE) (hbackslash : cp ≠ BACKSLASH)
    (rest : CodeUnits) :
    outline true (cp :: rest) = outline true rest := by
  rw [outline.eq_def]
  exact (if_neg hquote).trans (if_neg hbackslash)

theorem outline_item {item : CodeUnits} (h : StringItem item) (rest : CodeUnits) :
    outline true (item ++ rest) = outline true rest := by
  cases h with
  | plain _ hquote hbackslash => exact outline_cons hquote hbackslash rest
  | escape _ _ => rfl
  | unicode hhex =>
    have hplain : ∀ {cp : UInt16}, isHex cp = true → cp ≠ QUOTE ∧ cp ≠ BACKSLASH := by
      rintro cp hcp
      constructor
      · rintro rfl
        cases hcp
      · rintro rfl
        cases hcp
    simp only [all_cons, all_nil, Bool.and_true, Bool.and_eq_true] at hhex
    obtain ⟨ha, hb, hc, hd⟩ := hhex
    show outline true (_ :: _ :: _ :: _ :: rest) = _
    rw [outline_cons (hplain ha).1 (hplain ha).2, outline_cons (hplain hb).1 (hplain hb).2,
      outline_cons (hplain hc).1 (hplain hc).2, outline_cons (hplain hd).1 (hplain hd).2]

theorem outline_repairFrom (inString : Bool) (json : CodeUnits) :
    outline inString (repairFrom inString json) = outline inString json := by
  fun_induction repairFrom inString json with
  | case1 => rfl
  | case2 cp rest ih => rw [outline, outline, ih]
  | case3 rest ih => rw [outline_quote, outline_quote, ih]
  | case4 rest escape hescape _ ih =>
    obtain ⟨hitem, hrest⟩ := escapeAfter_some hescape
    rw [outline_item hitem, ih]
    conv_rhs => rw [hrest, ← cons_append, outline_item hitem]
  | case5 rest hnone _ ih =>
    have hdoubled : ∀ s, outline true (BACKSLASH :: BACKSLASH :: s) = outline true s := fun _ => rfl
    rw [hdoubled, ih]
    cases rest with
    | nil => rfl
    | cons next after =>
      obtain ⟨hquote, hbackslash⟩ := escapeAfter_none hnone
      exact outline_cons hquote hbackslash after
  | case6 cp rest hquote hbackslash hcontrol ih =>
    rw [outline_item (stringItem_controlEscape hcontrol), ih, outline_cons hquote hbackslash]
  | case7 cp rest hquote hbackslash _ ih =>
    rw [outline_cons hquote hbackslash, ih, outline_cons hquote hbackslash]

/-- Literals in a text are whole, and have only valid escapes. -/
def Closed (s : CodeUnits) : Prop := ∀ rest, Clean false rest → Clean false (s ++ rest)

theorem Closed.append {s t : CodeUnits} (hs : Closed s) (ht : Closed t) : Closed (s ++ t) := by
  intro rest hrest
  rw [append_assoc]
  exact hs _ (ht rest hrest)

theorem closed_of_not_mem (h : QUOTE ∉ s) : Closed s := by
  intro rest hrest
  induction s with
  | nil => exact hrest
  | cons cp s ih =>
    rw [mem_cons, not_or] at h
    exact .outside (Ne.symm h.1) (ih h.2)

theorem closed_of_all {p : UInt16 → Bool} (hp : p QUOTE = false) (h : s.all p) : Closed s := by
  refine closed_of_not_mem fun hquote => ?_
  rw [all_eq_true.mp h QUOTE hquote] at hp
  cases hp

theorem closed_string (h : IsString s) : Closed s := by
  obtain ⟨items, hitems, rfl⟩ := h
  intro rest hrest
  have hinside : Clean true (items.flatten ++ (QUOTE :: rest)) := by
    induction items with
    | nil => exact .closes hrest
    | cons item items ih =>
      rw [flatten_cons, append_assoc]
      exact .item (hitems item mem_cons_self)
        (ih fun item hitem => hitems item (mem_cons_of_mem _ hitem))
  rw [cons_append, cons_append, append_assoc]
  exact .opens hinside

theorem closed_number (h : IsNumber s) : Closed s := by
  obtain ⟨minus, integer, fraction, exponent, rfl, hminus, hinteger, -, hfraction, hexponent⟩ :=
    h.parts
  have hdigits : ∀ {digits}, IsDigits digits →
      Closed digits := fun h => closed_of_all (by decide) h.2
  refine (Closed.append (Closed.append (.append ?_ (hdigits hinteger)) ?_) ?_)
  · rcases hminus with rfl | rfl
    · exact closed_of_not_mem not_mem_nil
    · exact closed_of_not_mem (by decide)
  · rcases hfraction with rfl | ⟨digits, hsome, rfl⟩
    · exact closed_of_not_mem not_mem_nil
    · exact Closed.append (s := [0x2E]) (closed_of_not_mem (by decide)) (hdigits hsome)
  · have hsigns : ∀ sign ∈ ([[], [0x2B], [0x2D]] : List CodeUnits), QUOTE ∉ sign := by decide
    rcases hexponent with rfl | ⟨e, he, sign, hsign, digits, hsome, rfl⟩
    · exact closed_of_not_mem not_mem_nil
    · have hne : QUOTE ≠ e := by
        rintro rfl
        exact absurd he (by decide)
      exact Closed.append (s := e :: sign)
        (closed_of_not_mem (not_mem_cons_of_ne_of_not_mem hne (hsigns sign hsign))) (hdigits hsome)

theorem closed_padded {p : Padded} (hblank : p.IsBlank) (hvalue : Closed p.value) : Closed p.text :=
  ((closed_of_all (by decide) hblank.1).append hvalue).append (closed_of_all (by decide) hblank.2)

theorem closed_intercalate {items : List CodeUnits} (h : ∀ item ∈ items, Closed item) :
    Closed ([0x2C].intercalate items) := by
  induction items with
  | nil => exact closed_of_not_mem not_mem_nil
  | cons item items ih =>
    have hitem := h item mem_cons_self
    cases items with
    | nil =>
      rw [intercalate_singleton]
      exact hitem
    | cons next items =>
      rw [intercalate_cons_cons]
      exact (hitem.append (closed_of_not_mem (by decide))).append
        (ih fun item hmem => h item (mem_cons_of_mem _ hmem))

theorem closed_between {left right : UInt16} (hleft : left ≠ QUOTE) (hright : right ≠ QUOTE)
    (h : Closed s) : Closed (left :: s ++ [right]) :=
  Closed.append (s := left :: s)
    (Closed.append (s := [left]) (closed_of_not_mem (by simpa using hleft.symm)) h)
    (closed_of_not_mem (by simpa using hright.symm))

theorem closed_value (h : IsValue s) : Closed s := by
  induction h with
  | literal hmem =>
    have hne : ∀ s ∈ LITERALS, QUOTE ∉ s := by decide
    exact closed_of_not_mem (hne _ hmem)
  | number hnumber => exact closed_number hnumber
  | string hstring => exact closed_string hstring
  | emptyArray hspace =>
      exact closed_between (by decide) (by decide) (closed_of_all (by decide) hspace)
  | array _ hblank _ ih =>
    refine closed_between (by decide) (by decide) (closed_intercalate ?_)
    rw [forall_mem_map]
    exact fun item hitem => closed_padded (hblank item hitem) (ih item hitem)
  | emptyObject hspace =>
      exact closed_between (by decide) (by decide) (closed_of_all (by decide) hspace)
  | object _ hblank hkeys _ ih =>
    refine closed_between (by decide) (by decide) (closed_intercalate ?_)
    rw [forall_mem_map]
    intro member hmember
    have hkey := closed_padded (hblank member hmember).1 (closed_string (hkeys member hmember))
    have hvalue := closed_padded (hblank member hmember).2 (ih member hmember)
    exact hkey.append (Closed.append (s := [0x3A]) (closed_of_not_mem (by decide)) hvalue)

theorem clean_of_isText {json : CodeUnits} (h : IsText json) : Clean false json := by
  obtain ⟨p, hblank, hvalue, rfl⟩ := h
  have hclosed := closed_padded hblank (closed_value hvalue) [] .nil
  rwa [append_nil] at hclosed

/-- A text is repaired once, JSON not at all; nothing is changed outside of string literals, and in
them are only characters and valid escapes. -/
theorem repairJson_repairs (json : CodeUnits) :
    repairJson (repairJson json) = repairJson json ∧ (IsText json → repairJson json = json) ∧
      outline false (repairJson json) = outline false json ∧ Clean false (repairJson json) :=
  ⟨repairFrom_of_clean (clean_repairFrom false json),
    fun h => repairFrom_of_clean (clean_of_isText h),
    outline_repairFrom false json, clean_repairFrom false json⟩

end Vibrato.Ai
