import Vibrato.Text

/-! JSON values as the source language holds them, and `JSON.stringify` on them.  A number is the
text it is written as; the members of an object stand in their own order. -/

namespace Vibrato

open List

def isNumeral (c : Char) : Bool :=
  Text.isDigit c || c = '-' || c = '+' || c = '.' || c = 'e' || c = 'E'

/-- A finite number, by the text `JSON.stringify` gives for it. -/
structure JsonNumber where
  text : Text
  text_ne : text ≠ []
  numeral : text.all isNumeral = true
  deriving DecidableEq

def JsonNumber.ofNat (n : Nat) : JsonNumber where
  text := Text.ofNat n
  text_ne := Nat.toDigits_ne_nil
  numeral := by
    rw [all_eq_true]
    intro c hc
    simp [isNumeral, Text.isDigit_of_mem_ofNat hc]

inductive Json where
  | null
  | bool (value : Bool)
  | num (value : JsonNumber)
  | str (value : Text)
  | arr (items : List Json)
  | obj (members : List (Text × Json))

namespace Json

/-- The property of a value under a name.  A value that is no object has none of the properties
that are read from persisted data. -/
def get? : Json → Text → Option Json
  | obj members, name => (members.find? fun member => member.1 = name).map Prod.snd
  | _, _ => none

def str? : Json → Option Text
  | str value => some value
  | _ => none

def num? : Json → Option JsonNumber
  | num value => some value
  | _ => none

def arr? : Json → Option (List Json)
  | arr items => some items
  | _ => none

/-- `typeof value === "object" && value !== null`. -/
def isObject : Json → Bool
  | arr _ | obj _ => true
  | _ => false

mutual

def stringify : Json → Text
  | null => "null".toList
  | bool true => "true".toList
  | bool false => "false".toList
  | num value => value.text
  | str value => Text.jsonQuote value
  | arr [] => ['[', ']']
  | arr (item :: items) => '[' :: (stringify item ++ restItems items)
  | obj [] => ['\x7b', '\x7d']
  | obj ((name, value) :: members) =>
    '\x7b' :: (Text.jsonQuote name ++ ':' :: (stringify value ++ restMembers members))

def restItems : List Json → Text
  | [] => [']']
  | item :: items => ',' :: (stringify item ++ restItems items)

def restMembers : List (Text × Json) → Text
  | [] => ['\x7d']
  | (name, value) :: members =>
    ',' :: (Text.jsonQuote name ++ ':' :: (stringify value ++ restMembers members))

end

end Json

namespace Text

def hexValue (c : Char) : Nat := "0123456789abcdef".toList.idxOf c

def unescape : Text → Option (Char × Text)
  | '\\' :: '"' :: rest => some ('"', rest)
  | '\\' :: '\\' :: rest => some ('\\', rest)
  | '\\' :: 'b' :: rest => some (Char.ofNat 8, rest)
  | '\\' :: 't' :: rest => some (Char.ofNat 9, rest)
  | '\\' :: 'n' :: rest => some (Char.ofNat 10, rest)
  | '\\' :: 'f' :: rest => some (Char.ofNat 12, rest)
  | '\\' :: 'r' :: rest => some (Char.ofNat 13, rest)
  | '\\' :: 'u' :: '0' :: '0' :: a :: b :: rest =>
    some (Char.ofNat (16 * hexValue a + hexValue b), rest)
  | '"' :: _ => none
  | c :: rest => some (c, rest)
  | [] => none

theorem hexValue_hexDigit : ∀ n, n < 16 → hexValue (hexDigit n) = n := by decide

theorem unescape_jsonEscape (c : Char) (rest : Text) :
    unescape (jsonEscape c ++ rest) = some (c, rest) := by
  have hofNat : ∀ n, c.toNat = n → Char.ofNat n = c := by
    rintro n rfl
    exact Char.ofNat_toNat c
  unfold jsonEscape
  split
  · next h => subst h; rfl
  split
  · next h => subst h; rfl
  split
  · next h => show some (Char.ofNat 8, rest) = _; rw [hofNat 8 h]
  split
  · next h => show some (Char.ofNat 9, rest) = _; rw [hofNat 9 h]
  split
  · next h => show some (Char.ofNat 10, rest) = _; rw [hofNat 10 h]
  split
  · next h => show some (Char.ofNat 12, rest) = _; rw [hofNat 12 h]
  split
  · next h => show some (Char.ofNat 13, rest) = _; rw [hofNat 13 h]
  split
  · next h =>
    show some (Char.ofNat (16 * hexValue (hexDigit (c.toNat / 16)) +
        hexValue (hexDigit (c.toNat % 16))), rest) = _
    rw [hexValue_hexDigit _ (by omega), hexValue_hexDigit _ (by omega), hofNat _ (by omega)]
  · next hquote hback _ _ _ _ _ _ =>
    show unescape (c :: rest) = _
    unfold unescape
    split <;> simp_all

theorem jsonEscape_append_inj {c c' : Char} {rest rest' : Text}
    (h : jsonEscape c ++ rest = jsonEscape c' ++ rest') : c = c' ∧ rest = rest' := by
  have hread := congrArg unescape h
  rw [unescape_jsonEscape, unescape_jsonEscape] at hread
  simpa using hread

theorem jsonEscape_append_ne_quote (c : Char) (rest rest' : Text) :
    jsonEscape c ++ rest ≠ '"' :: rest' := by
  intro h
  have hread := congrArg unescape h
  rw [unescape_jsonEscape] at hread
  cases hread

theorem jsonQuote_append_inj {s s' rest rest' : Text}
    (h : jsonQuote s ++ rest = jsonQuote s' ++ rest') : s = s' ∧ rest = rest' := by
  have hbody : s.flatMap jsonEscape ++ '"' :: rest = s'.flatMap jsonEscape ++ '"' :: rest' := by
    simpa [jsonQuote] using h
  clear h
  induction s generalizing s' with
  | nil =>
    cases s' with
    | nil => simpa using hbody
    | cons c' s' =>
      rw [flatMap_cons, append_assoc] at hbody
      exact absurd hbody.symm (jsonEscape_append_ne_quote c' _ rest)
  | cons c s ih =>
    cases s' with
    | nil =>
      rw [flatMap_cons, append_assoc] at hbody
      exact absurd hbody (jsonEscape_append_ne_quote c _ rest')
    | cons c' s' =>
      rw [flatMap_cons, flatMap_cons, append_assoc, append_assoc] at hbody
      obtain ⟨rfl, hrest⟩ := jsonEscape_append_inj hbody
      obtain ⟨rfl, rfl⟩ := ih hrest
      exact ⟨rfl, rfl⟩

end Text

namespace Json

def Ends (rest : Text) : Prop := rest.head?.all (fun c => !isNumeral c) = true

variable {rest rest' : Text}

theorem JsonNumber.append_inj {m n : JsonNumber} (hrest : Ends rest)
    (hrest' : Ends rest') (h : m.text ++ rest = n.text ++ rest') : m = n ∧ rest = rest' := by
  have htake : ∀ (n : JsonNumber) (rest : Text), Ends rest →
      (n.text ++ rest).takeWhile isNumeral = n.text := by
    intro n rest hrest
    rw [takeWhile_append_of_pos fun c hc => all_eq_true.mp n.numeral c hc]
    cases rest with
    | nil => simp
    | cons c rest => simp_all [Ends]
  have htext : m.text = n.text := by
    rw [← htake m rest hrest, h, htake n rest' hrest']
  refine ⟨?_, ?_⟩
  · cases m
    cases n
    simpa using htext
  · rw [htext] at h
    exact append_cancel_left h

def kindOf : Char → Nat
  | 'n' => 0
  | 't' => 1
  | 'f' => 2
  | '"' => 3
  | '[' => 4
  | '\x7b' => 5
  | ']' => 7
  | _ => 6

def kind : Json → Nat
  | null => 0
  | bool true => 1
  | bool false => 2
  | str _ => 3
  | arr _ => 4
  | obj _ => 5
  | num _ => 6

theorem kindOf_of_isNumeral {c : Char} (h : isNumeral c = true) : kindOf c = 6 := by
  unfold kindOf
  split <;> first | rfl | exact absurd h (by decide)

variable (v : Json)

theorem kindOf_stringify (rest : Text) :
    (stringify v ++ rest).head?.map kindOf = some (kind v) := by
  cases v with
  | null => rfl
  | bool value => cases value <;> rfl
  | num value =>
    obtain ⟨c, tail, htext⟩ := exists_cons_of_ne_nil value.text_ne
    have hc := all_eq_true.mp value.numeral c (by simp [htext])
    simp [stringify, htext, kind, kindOf_of_isNumeral hc]
  | str value => rfl
  | arr items => cases items <;> rfl
  | obj members => cases members <;> rfl

theorem stringify_append_ne_bracket (rest rest' : Text) : stringify v ++ rest ≠ ']' :: rest' := by
  intro h
  have hkind := kindOf_stringify v rest
  rw [h] at hkind
  cases v with
  | bool value => cases value <;> cases hkind
  | _ => cases hkind

theorem ends_restItems (items : List Json) (rest : Text) : Ends (restItems items ++ rest) := by
  cases items <;> rfl

theorem ends_restMembers (members : List (Text × Json)) (rest : Text) :
    Ends (restMembers members ++ rest) := by
  obtain _ | ⟨⟨_, _⟩, _⟩ := members <;> rfl

def ReadBack : Prop :=
  ∀ (v' : Json) (rest rest' : Text), Ends rest → Ends rest' →
    stringify v ++ rest = stringify v' ++ rest' → v = v' ∧ rest = rest'

def ReadBackItems (items : List Json) : Prop :=
  ∀ (items' : List Json) (rest rest' : Text),
    restItems items ++ rest = restItems items' ++ rest' → items = items' ∧ rest = rest'

def ReadBackMembers (members : List (Text × Json)) : Prop :=
  ∀ (members' : List (Text × Json)) (rest rest' : Text),
    restMembers members ++ rest = restMembers members' ++ rest' → members = members' ∧ rest = rest'

theorem items_append_inj {item item' : Json} {items items' : List Json}
    (hitem : ReadBack item) (hitems : ReadBackItems items)
    (h : stringify item ++ (restItems items ++ rest) =
      stringify item' ++ (restItems items' ++ rest')) :
    item :: items = item' :: items' ∧ rest = rest' := by
  obtain ⟨rfl, hrests⟩ := hitem item' _ _ (ends_restItems items rest)
    (ends_restItems items' rest') h
  obtain ⟨rfl, rfl⟩ := hitems items' rest rest' hrests
  exact ⟨rfl, rfl⟩

theorem members_append_inj {name name' : Text} {value value' : Json}
    {members members' : List (Text × Json)} (hvalue : ReadBack value)
    (hmembers : ReadBackMembers members)
    (h : Text.jsonQuote name ++ ':' :: (stringify value ++ (restMembers members ++ rest)) =
      Text.jsonQuote name' ++ ':' :: (stringify value' ++ (restMembers members' ++ rest'))) :
    (name, value) :: members = (name', value') :: members' ∧ rest = rest' := by
  obtain ⟨rfl, hvalues⟩ := Text.jsonQuote_append_inj h
  obtain ⟨rfl, hrests⟩ := hvalue value' _ _ (ends_restMembers members rest)
    (ends_restMembers members' rest') (List.cons.inj hvalues).2
  obtain ⟨rfl, rfl⟩ := hmembers members' rest rest' hrests
  exact ⟨rfl, rfl⟩

mutual

theorem readBack (v : Json) : ReadBack v := by
  intro v' rest rest' hrest hrest' h
  have hkind : kind v = kind v' := by
    have hheads := congrArg (fun text : Text => text.head?.map kindOf) h
    simp only [kindOf_stringify] at hheads
    exact Option.some.inj hheads
  match v, v', hkind with
  | null, null, _ => exact ⟨rfl, append_cancel_left h⟩
  | bool true, bool true, _ => exact ⟨rfl, append_cancel_left h⟩
  | bool false, bool false, _ => exact ⟨rfl, append_cancel_left h⟩
  | num m, num n, _ =>
    obtain ⟨rfl, rfl⟩ := JsonNumber.append_inj hrest hrest' h
    exact ⟨rfl, rfl⟩
  | str s, str s', _ =>
    obtain ⟨rfl, rfl⟩ := Text.jsonQuote_append_inj h
    exact ⟨rfl, rfl⟩
  | arr [], arr [], _ => exact ⟨rfl, append_cancel_left h⟩
  | arr [], arr (item' :: items'), _ =>
    have hclose : ']' :: rest = stringify item' ++ (restItems items' ++ rest') := by
      simpa [stringify] using h
    exact absurd hclose.symm (stringify_append_ne_bracket _ _ _)
  | arr (item :: items), arr [], _ =>
    have hclose : stringify item ++ (restItems items ++ rest) = ']' :: rest' := by
      simpa [stringify] using h
    exact absurd hclose (stringify_append_ne_bracket _ _ _)
  | arr (item :: items), arr (item' :: items'), _ =>
    obtain ⟨heq, hrests⟩ := items_append_inj (readBack item) (readBackItems items)
      (by simpa [stringify] using h)
    exact ⟨congrArg arr heq, hrests⟩
  | obj [], obj [], _ => exact ⟨rfl, append_cancel_left h⟩
  | obj [], obj ((name', value') :: members'), _ => simp [stringify, Text.jsonQuote] at h
  | obj ((name, value) :: members), obj [], _ => simp [stringify, Text.jsonQuote] at h
  | obj ((name, value) :: members), obj ((name', value') :: members'), _ =>
    obtain ⟨heq, hrests⟩ := members_append_inj (readBack value) (readBackMembers members)
      (by simpa [stringify] using h)
    exact ⟨congrArg obj heq, hrests⟩

theorem readBackItems (items : List Json) : ReadBackItems items := by
  intro items' rest rest' h
  match items, items' with
  | [], [] => exact ⟨rfl, append_cancel_left h⟩
  | [], _ :: _ => exact absurd (List.cons.inj h).1 (by decide)
  | _ :: _, [] => exact absurd (List.cons.inj h).1 (by decide)
  | item :: items, item' :: items' =>
    exact items_append_inj (readBack item) (readBackItems items) (by simpa [restItems] using h)

theorem readBackMembers (members : List (Text × Json)) : ReadBackMembers members := by
  intro members' rest rest' h
  match members, members' with
  | [], [] => exact ⟨rfl, append_cancel_left h⟩
  | [], _ :: _ => exact absurd (List.cons.inj h).1 (by decide)
  | _ :: _, [] => exact absurd (List.cons.inj h).1 (by decide)
  | (name, value) :: members, (name', value') :: members' =>
    exact members_append_inj (readBack value) (readBackMembers members)
      (by simpa [restMembers] using h)

end

theorem stringify_inj {v v' : Json} : stringify v = stringify v' ↔ v = v' := by
  refine ⟨fun h => ?_, congrArg stringify⟩
  have happend : stringify v ++ [] = stringify v' ++ [] := by rw [h]
  have hends : Ends [] := rfl
  exact (readBack v v' [] [] hends hends happend).1

instance : DecidableEq Json := fun _ _ => decidable_of_iff _ stringify_inj

end Json

end Vibrato
