import Vibrato.Lib.Utf16

/-! The grammar of JSON texts, on code units. -/

namespace Vibrato.Lib.JsonText

open List

def QUOTE : UInt16 := 0x22
def BACKSLASH : UInt16 := 0x5C
def U : UInt16 := 0x75

/-- `"\/bfnrtu` -/
def ESCAPES : CodeUnits := [QUOTE, BACKSLASH, 0x2F, 0x62, 0x66, 0x6E, 0x72, 0x74, U]

variable (u : UInt16)

def isDigit : Bool := 0x30 ≤ u && u ≤ 0x39

def isHex : Bool := isDigit u || (0x41 ≤ u && u ≤ 0x46) || (0x61 ≤ u && u ≤ 0x66)

def isWhitespace : Bool := u == 0x20 || u == 0x09 || u == 0x0A || u == 0x0D

/-- A character or an escape in a string. -/
inductive StringItem : CodeUnits → Prop
  | plain {u : UInt16} : 0x20 ≤ u → u ≠ QUOTE → u ≠ BACKSLASH → StringItem [u]
  | escape {u : UInt16} : u ∈ ESCAPES → u ≠ U → StringItem [BACKSLASH, u]
  | unicode {a b c d : UInt16} : [a, b, c, d].all isHex → StringItem [BACKSLASH, U, a, b, c, d]

def IsString (s : CodeUnits) : Prop :=
  ∃ items : List CodeUnits, (∀ item ∈ items, StringItem item) ∧
    s = QUOTE :: items.flatten ++ [QUOTE]

def IsDigits (s : CodeUnits) : Prop := s ≠ [] ∧ s.all isDigit

/-- An integer without leading zeros, a fraction, and an exponent. -/
structure IsNumber (s : CodeUnits) : Prop where
  parts : ∃ minus integer fraction exponent, s = minus ++ integer ++ fraction ++ exponent ∧
    (minus = [] ∨ minus = [0x2D]) ∧ IsDigits integer ∧
      (integer.head? = some 0x30 → integer.length = 1) ∧
    (fraction = [] ∨ ∃ digits, IsDigits digits ∧ fraction = 0x2E :: digits) ∧
    (exponent = [] ∨ ∃ e ∈ [0x45, 0x65], ∃ sign ∈ [[], [0x2B], [0x2D]], ∃ digits, IsDigits digits ∧
      exponent = e :: sign ++ digits)

/-- A text with white space around it. -/
structure Padded where
  before : CodeUnits
  value : CodeUnits
  after : CodeUnits

namespace Padded

def text (p : Padded) : CodeUnits := p.before ++ p.value ++ p.after

def IsBlank (p : Padded) : Prop := p.before.all isWhitespace ∧ p.after.all isWhitespace

end Padded

/-- `true`, `false`, and `null` -/
def LITERALS : List CodeUnits :=
  [[0x74, 0x72, 0x75, 0x65], [0x66, 0x61, 0x6C, 0x73, 0x65], [0x6E, 0x75, 0x6C, 0x6C]]

inductive IsValue : CodeUnits → Prop
  | literal {s : CodeUnits} : s ∈ LITERALS → IsValue s
  | number {s : CodeUnits} : IsNumber s → IsValue s
  | string {s : CodeUnits} : IsString s → IsValue s
  | emptyArray {space : CodeUnits} : space.all isWhitespace → IsValue (0x5B :: space ++ [0x5D])
  | array {items : List Padded} : items ≠ [] → (∀ item ∈ items, item.IsBlank) →
      (∀ item ∈ items, IsValue item.value) →
      IsValue (0x5B :: [0x2C].intercalate (items.map Padded.text) ++ [0x5D])
  | emptyObject {space : CodeUnits} : space.all isWhitespace → IsValue (0x7B :: space ++ [0x7D])
  | object {members : List (Padded × Padded)} : members ≠ [] →
      (∀ member ∈ members, member.1.IsBlank ∧ member.2.IsBlank) →
        (∀ member ∈ members, IsString member.1.value) →
      (∀ member ∈ members, IsValue member.2.value) →
      IsValue (0x7B :: [0x2C].intercalate
        (members.map fun member => member.1.text ++ 0x3A :: member.2.text) ++ [0x7D])

/-- A JSON text. -/
def IsText (s : CodeUnits) : Prop := ∃ p : Padded, p.IsBlank ∧ IsValue p.value ∧ s = p.text

end Vibrato.Lib.JsonText
