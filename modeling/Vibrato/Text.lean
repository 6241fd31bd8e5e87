import Mathlib.Data.List.DropRight
import Mathlib.Data.List.Flatten
import Mathlib.Data.List.Lex
import Mathlib.Data.List.SplitLengths
import Vibrato.Lib.Lines

/-! The string operations of the source language that the edit, session, and provider modules call,
on texts as lists of characters: `trim`, `startsWith`, `split`, and `join`. -/

namespace Vibrato

open List

/-- A text, as its characters in order. -/
abbrev Text := List Char

namespace Text

instance lawfulBEq : LawfulBEq Text := inferInstance

variable (c : Char)

/-- A character that `trim` removes: white space, a line terminator, or the byte-order mark. -/
def isSpace : Bool :=
  let n := c.toNat
  (9 ≤ n && n ≤ 13) || n == 0x20 || n == 0xA0 || n == 0x1680 || (0x2000 ≤ n && n ≤ 0x200A) ||
    n == 0x2028 || n == 0x2029 || n == 0x202F || n == 0x205F || n == 0x3000 || n == 0xFEFF

/-- A character that `.` does not match: the line terminators. -/
def isLineTerminator : Bool :=
  let n := c.toNat
  n == 0x0A || n == 0x0D || n == 0x2028 || n == 0x2029

def trimStart (s : Text) : Text := s.dropWhile isSpace

def trimEnd (s : Text) : Text := s.rdropWhile isSpace

def trim (s : Text) : Text := trimEnd (trimStart s)

/-- `s.trim().length === 0`. -/
def isBlank (s : Text) : Bool := s.all isSpace

def startsWith (s head : Text) : Bool := head.isPrefixOf s

/-- `s.split("\n")`. -/
def splitLines (s : Text) : List Text := s.splitOn '\n'

/-- `lines.join("\n")`. -/
def joinLines (lines : List Text) : Text := ['\n'].intercalate lines

def dropCarriageReturn (line : Text) : Text :=
  if line.getLast? = some '\r' then line.dropLast else line

/-- `s.split(/\r?\n/)`: the carriage return before a newline belongs to the separator. -/
def splitLinesCrlf (s : Text) : List Text :=
  let lines := splitLines s
  lines.dropLast.map dropCarriageReturn ++ lines.getLast?.toList

def ofNat (n : Nat) : Text := Nat.toDigits 10 n

def isDigit : Bool := '0' ≤ c && c ≤ '9'

/-- `Number.parseInt(digits, 10)` on digits. -/
def parseDigits (digits : Text) : Nat :=
  digits.foldl (fun n c => 10 * n + (c.toNat - '0'.toNat)) 0

variable (s : Text)

def utf16 : List Nat :=
  s.flatMap fun c =>
    if c.toNat < 0x10000 then [c.toNat]
    else [0xD800 + (c.toNat - 0x10000) / 0x400, 0xDC00 + (c.toNat - 0x10000) % 0x400]

def hexDigit (n : Nat) : Char := "0123456789abcdef".toList.getD n '0'

def jsonEscape (c : Char) : Text :=
  if c = '"' then ['\\', '"']
  else if c = '\\' then ['\\', '\\']
  else if c.toNat = 8 then ['\\', 'b']
  else if c.toNat = 9 then ['\\', 't']
  else if c.toNat = 10 then ['\\', 'n']
  else if c.toNat = 12 then ['\\', 'f']
  else if c.toNat = 13 then ['\\', 'r']
  else if c.toNat < 32 then ['\\', 'u', '0', '0', hexDigit (c.toNat / 16), hexDigit (c.toNat % 16)]
  else [c]

/-- `JSON.stringify` on a string. -/
def jsonQuote : Text := '"' :: s.flatMap jsonEscape ++ ['"']

@[simp] theorem startsWith_nil : startsWith s [] = true := by
  simp [startsWith]

@[simp] theorem startsWith_cons (c d : Char) (s head : Text) :
    startsWith (c :: s) (d :: head) = (d == c && startsWith s head) := rfl

@[simp] theorem nil_startsWith (d : Char) (head : Text) : startsWith [] (d :: head) = false := rfl

variable {lines : List Text} {s : Text} {n : Nat} {c : Char}

theorem splitLines_joinLines (hne : lines ≠ [])
    (hlines : ∀ line ∈ lines, '\n' ∉ line) : splitLines (joinLines lines) = lines :=
  splitOn_intercalate '\n' hlines hne

theorem joinLines_splitLines (s : Text) : joinLines (splitLines s) = s :=
  intercalate_splitOn '\n'

theorem newline_not_mem_of_mem_splitLines {line : Text} (hline : line ∈ splitLines s) :
    '\n' ∉ line :=
  Lib.not_mem_of_mem_splitOn hline

theorem splitLines_append_newline (s : Text) : splitLines (s ++ ['\n']) = splitLines s ++ [[]] := by
  rw [splitLines, splitOn_append_cons_self]
  rfl

theorem length_splitLines_eq (s : Text) : (splitLines s).length = s.count '\n' + 1 :=
  Lib.length_splitOn s

theorem joinLines_concat (hne : lines ≠ []) (last : Text) :
    joinLines (lines ++ [last]) = joinLines lines ++ '\n' :: last :=
  Lib.intercalate_concat hne last

theorem joinLines_append_left (above : List Text) (hne : lines ≠ []) :
    joinLines (above ++ lines) = above.flatMap (· ++ ['\n']) ++ joinLines lines :=
  Lib.intercalate_append_left above hne

theorem joinLines_append_right (hne : lines ≠ []) (below : List Text) :
    joinLines (lines ++ below) = joinLines lines ++ below.flatMap ('\n' :: ·) :=
  Lib.intercalate_append_right hne below

theorem splitLines_joinLines_eq_flatMap (hne : lines ≠ []) :
    splitLines (joinLines lines) = lines.flatMap splitLines := by
  induction lines with
  | nil => exact absurd rfl hne
  | cons line lines ih =>
    cases lines with
    | nil => simp [joinLines]
    | cons next lines =>
      have hrest := ih (cons_ne_nil _ _)
      have hjoin :
          joinLines (line :: next :: lines) = line ++ '\n' :: joinLines (next :: lines) := by
        simp [joinLines, intercalate_cons_cons]
      rw [flatMap_cons, ← hrest]
      exact splitOn_append_cons_self _ _

theorem exists_splitLines_concat (text : Text) :
    ∃ above line, splitLines text = above ++ [line] := by
  have hne : splitLines text ≠ [] := splitOn_ne_nil '\n' text
  exact ⟨(splitLines text).dropLast, (splitLines text).getLast hne,
    (dropLast_concat_getLast hne).symm⟩

theorem exists_splitLines_cons (text : Text) : ∃ first below, splitLines text = first :: below :=
  exists_cons_of_ne_nil (splitOn_ne_nil '\n' text)

theorem joinLines_append_joinLines (above : List Text) (line first : Text) (below : List Text) :
    joinLines (above ++ [line]) ++ joinLines (first :: below) =
      joinLines (above ++ (line ++ first) :: below) := by
  have hbelow : ∀ l : Text, joinLines (l :: below) = l ++ below.flatMap ('\n' :: ·) := by
    intro l
    have h := joinLines_append_right (cons_ne_nil l []) below
    simpa [joinLines] using h
  rw [joinLines_append_left above (cons_ne_nil line []),
    joinLines_append_left above (cons_ne_nil (line ++ first) below), hbelow, hbelow]
  simp [joinLines]

theorem splitLines_append {a b line first : Text} {above below : List Text}
    (ha : splitLines a = above ++ [line]) (hb : splitLines b = first :: below) :
    splitLines (a ++ b) = above ++ (line ++ first) :: below := by
  have hjoin : a ++ b = joinLines (above ++ (line ++ first) :: below) := by
    rw [← joinLines_append_joinLines, ← ha, ← hb, joinLines_splitLines, joinLines_splitLines]
  have hleft : ∀ l ∈ above ++ [line], '\n' ∉ l := fun l hl =>
    newline_not_mem_of_mem_splitLines (ha ▸ hl)
  have hright : ∀ l ∈ first :: below, '\n' ∉ l := fun l hl =>
    newline_not_mem_of_mem_splitLines (hb ▸ hl)
  rw [hjoin]
  apply splitLines_joinLines
  · simp
  · intro l hl
    rcases mem_append.1 hl with hmem | hmem
    · exact hleft l (mem_append_left _ hmem)
    · rcases mem_cons.1 hmem with rfl | hmem
      · rw [mem_append, not_or]
        exact ⟨hleft line (by simp), hright first mem_cons_self⟩
      · exact hright l (mem_cons_of_mem _ hmem)

theorem sublist_splitLines_joinLines {all : List Text} (hsub : lines.Sublist all)
    (hlines : ∀ line ∈ lines, '\n' ∉ line) : lines.Sublist (splitLines (joinLines all)) := by
  by_cases hne : all = []
  · rw [hne, sublist_nil] at hsub
    rw [hsub]
    exact nil_sublist _
  · have hself : lines.flatMap splitLines = lines := by
      have hline : ∀ line ∈ lines, splitLines line = [line] :=
        fun line hline => splitOn_eq_singleton (hlines line hline)
      rw [flatMap_congr hline, ← map_eq_flatMap, map_id']
    rw [splitLines_joinLines_eq_flatMap hne]
    exact hself ▸ hsub.flatMap splitLines

theorem isDigit_of_mem_ofNat (h : c ∈ ofNat n) : isDigit c = true := by
  have hdigit := Nat.isDigit_of_mem_toDigits (by decide) (by decide) h
  unfold Char.isDigit at hdigit
  simp only [Bool.and_eq_true, decide_eq_true_eq] at hdigit
  unfold isDigit
  simp only [Bool.and_eq_true, decide_eq_true_eq]
  exact hdigit

theorem parseDigits_ofNat (n : Nat) : parseDigits (ofNat n) = n := by
  exact Nat.ofDigitChars_ten_toDigits

theorem head?_ofNat (hn : 0 < n) : (ofNat n).head? ≠ some '0' := by
  induction n using Nat.strong_induction_on with
  | _ n ih =>
  unfold ofNat
  by_cases hlt : n < 10
  · rw [Nat.toDigits_of_lt_base hlt]
    have hdigit : ∀ n < 10, 0 < n → [n.digitChar].head? ≠ some '0' := by decide
    exact hdigit n hlt hn
  · have hne : Nat.toDigits 10 (n / 10) ≠ [] := Nat.toDigits_ne_nil
    rw [Nat.toDigits_of_base_le (by decide) (Nat.le_of_not_lt hlt), head?_append_of_ne_nil _ hne]
    exact ih (n / 10) (by omega) (by omega)

theorem trimEnd_cons_of_not_isSpace (hc : isSpace c = false) (s : Text) :
    trimEnd (c :: s) = c :: trimEnd s := by
  unfold trimEnd List.rdropWhile
  rw [reverse_cons, dropWhile_append]
  split
  · next hnil =>
    rw [List.isEmpty_iff] at hnil
    simp [hnil, hc]
  · simp

theorem trimEnd_cons_of_not_isBlank (c : Char) (hs : isBlank s = false) :
    trimEnd (c :: s) = c :: trimEnd s := by
  have hne : (List.dropWhile isSpace s.reverse).isEmpty = false := by
    rw [Bool.eq_false_iff, ne_eq, List.isEmpty_iff, dropWhile_eq_nil_iff]
    intro hall
    rw [isBlank, Bool.eq_false_iff, ne_eq, all_eq_true] at hs
    exact hs fun x hx => hall x (mem_reverse.2 hx)
  unfold trimEnd List.rdropWhile
  rw [reverse_cons, dropWhile_append, hne]
  simp

theorem trimEnd_append_of_not_isBlank (a : Text) (hs : isBlank s = false) :
    trimEnd (a ++ s) = a ++ trimEnd s := by
  induction a with
  | nil => rfl
  | cons c a ih =>
    have hblank : isBlank (a ++ s) = false := by
      simp only [isBlank, all_append] at hs ⊢
      rw [hs, Bool.and_false]
    rw [cons_append, trimEnd_cons_of_not_isBlank c hblank, ih, cons_append]

theorem trimEnd_of_isBlank (hs : isBlank s = true) : trimEnd s = [] := by
  rw [trimEnd, rdropWhile_eq_nil_iff]
  rw [isBlank, all_eq_true] at hs
  exact hs

theorem trim_cons_of_isSpace (hc : isSpace c = true) (s : Text) : trim (c :: s) = trim s := by
  simp [trim, trimStart, hc]

theorem trim_cons_of_not_isSpace (hc : isSpace c = false) (s : Text) :
    trim (c :: s) = c :: trimEnd s := by
  rw [trim, trimStart, dropWhile_cons, if_neg (by simp [hc]), trimEnd_cons_of_not_isSpace hc]

theorem trim_eq_self (hhead : s.head?.any isSpace = false)
    (hlast : s.getLast?.any isSpace = false) : trim s = s := by
  have hstart : trimStart s = s := by
    cases s with
    | nil => rfl
    | cons c s =>
      rw [trimStart, dropWhile_cons, if_neg (by simpa using hhead)]
  rw [trim, hstart, trimEnd, rdropWhile_eq_self_iff]
  intro hne
  rw [getLast?_eq_some_getLast hne] at hlast
  simpa using hlast

end Text
theorem bind_eq_ok {ε α β : Type} {x : Except ε α} {f : α → Except ε β} {b : β} :
    (x >>= f) = .ok b ↔ ∃ a, x = .ok a ∧ f a = .ok b := by
  cases x with
  | error e => exact ⟨fun h => (by cases h), fun ⟨a, h, _⟩ => (by cases h)⟩
  | ok a => exact ⟨fun h => ⟨a, rfl, h⟩, fun ⟨_, h, hf⟩ => (by cases h; exact hf)⟩

end Vibrato
