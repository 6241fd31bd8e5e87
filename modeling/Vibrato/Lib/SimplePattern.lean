import Vibrato.Lib.Utf16

/-! Regular expressions without a flag, of the part of ECMAScript that looks only ahead and repeats
nothing: characters, classes, groups, alternatives, and `?`. -/

namespace Vibrato.Lib

namespace SimplePattern

inductive Node where
  | empty
  | one (set : UInt16 → Bool)
  | seq (first second : Node)
  | alt (first second : Node)
  | opt (body : Node) (isLazy : Bool)

/-- The texts that are left after a match at the start of a text, in the order in which they are
tried. An optional part that matches nothing counts as left out. -/
def Node.ends : Node → CodeUnits → List CodeUnits
  | .empty, s => [s]
  | .one _, [] => []
  | .one set, u :: rest => if set u then [rest] else []
  | .seq first second, s => (first.ends s).flatMap second.ends
  | .alt first second, s => first.ends s ++ second.ends s
  | .opt body isLazy, s =>
    let taken := (body.ends s).filter fun rest => rest.length ≠ s.length
    if isLazy then s :: taken else taken ++ [s]

def Node.matchesAt (n : Node) (s : CodeUnits) (start : Nat) : Bool :=
  !(n.ends (s.drop start)).isEmpty

def Node.test (n : Node) (s : CodeUnits) : Bool := (List.range (s.length + 1)).any (n.matchesAt s)

def unit (c : Char) : UInt16 := UInt16.ofNat c.toNat

def inRange (lo hi : Char) (u : UInt16) : Bool := unit lo ≤ u && u ≤ unit hi

variable (u : UInt16)

def isDigit : Bool := inRange '0' '9' u

def isLetter : Bool := inRange 'a' 'z' u || inRange 'A' 'Z' u

def isWord : Bool := isLetter u || isDigit u || u = unit '_'

def isLineTerminator : Bool := u = 0x0A || u = 0x0D || u = 0x2028 || u = 0x2029

/-- What `\s` matches. -/
def isSpace : Bool :=
  (9 ≤ u && u ≤ 13) || u = 0x20 || u = 0xA0 || u = 0x1680 || (0x2000 ≤ u && u ≤ 0x200A) ||
    u = 0x2028 || u = 0x2029 || u = 0x202F || u = 0x205F || u = 0x3000 || u = 0xFEFF

def hexDigit : Option Nat :=
  if isDigit u then some (u.toNat - 0x30)
  else if inRange 'a' 'f' u then some (u.toNat - 0x57)
  else if inRange 'A' 'F' u then some (u.toNat - 0x37)
  else none

def hexDigits : Nat → Nat → CodeUnits → Option (Nat × CodeUnits)
  | 0, value, s => some (value, s)
  | _ + 1, _, [] => none
  | n + 1, value, u :: rest => do
    let digit ← hexDigit u
    hexDigits n (16 * value + digit) rest

def octalDigits : Nat → Nat → CodeUnits → Nat × CodeUnits
  | 0, value, s => (value, s)
  | _ + 1, value, [] => (value, [])
  | n + 1, value, u :: rest =>
    if inRange '0' '7' u then octalDigits n (8 * value + (u.toNat - 0x30)) rest
      else (value, u :: rest)

/-- A single code unit, or a class such as `\d`. -/
inductive Atom where
  | char (u : UInt16)
  | set (p : UInt16 → Bool)

def Atom.has : Atom → UInt16 → Bool
  | .char c, u => u = c
  | .set p, u => p u

def classEscapes : List (Char × (UInt16 → Bool)) :=
  [('d', isDigit), ('D', fun u => !isDigit u), ('s', isSpace), ('S', fun u => !isSpace u),
    ('w', isWord), ('W', fun u => !isWord u)]

def controlEscapes : List (Char × UInt16) := [('t', 9), ('n', 10), ('v', 11), ('f', 12), ('r', 13)]

def readHex (n : Nat) (c : UInt16) (rest : CodeUnits) : Atom × CodeUnits :=
  match hexDigits n 0 rest with
  | none => (.char c, rest)
  | some (value, rest) => (.char (UInt16.ofNat value), rest)

/-- A control letter after `\c`, or else the backslash itself. -/
def readControl (inClass : Bool) (c : UInt16) : CodeUnits → Atom × CodeUnits
  | [] => (.char (unit '\\'), [c])
  | letter :: rest =>
    if isLetter letter || (inClass && (isDigit letter || letter = unit '_')) then
      (.char (letter % 32), rest)
    else (.char (unit '\\'), c :: letter :: rest)

/-- What follows a backslash, in a class or not. A digit other than `0` may be a reference, and `\b`
and `\B` are about the text before: these are of another kind of pattern. -/
def readEscape (inClass : Bool) : CodeUnits → Option (Atom × CodeUnits)
  | [] => none
  | c :: rest =>
    match classEscapes.find? fun e => unit e.1 = c, controlEscapes.find? fun e => unit e.1 = c with
    | some (_, set), _ => some (.set set, rest)
    | none, some (_, u) => some (.char u, rest)
    | none, none =>
      if c = unit 'c' then some (readControl inClass c rest)
      else if c = unit '0' then
        some (.char (UInt16.ofNat (octalDigits 2 0 rest).1), (octalDigits 2 0 rest).2)
      else if c = unit 'x' then some (readHex 2 c rest)
      else if c = unit 'u' then some (readHex 4 c rest)
      else if inRange '1' '9' c || c = unit 'b' || c = unit 'B' then none
      else some (.char c, rest)

def readClassAtom : CodeUnits → Option (Atom × CodeUnits)
  | [] => none
  | c :: rest => if c = unit '\\' then readEscape true rest else some (.char c, rest)

/-- The code units of a range, which must not be empty; a dash next to a class stands for itself. -/
def range : Atom → Atom → Option (UInt16 → Bool)
  | .char lo, .char hi => if lo ≤ hi then some fun u => lo ≤ u && u ≤ hi else none
  | first, last => some fun u => first.has u || u = unit '-' || last.has u

def readClass : Nat → (UInt16 → Bool) → CodeUnits → Option ((UInt16 → Bool) × CodeUnits)
  | 0, _, _ => none
  | fuel + 1, set, s =>
    match s with
    | [] => none
    | c :: closed =>
      if c = unit ']' then some (set, closed)
      else do
        let (first, rest) ← readClassAtom s
        match rest with
        | dash :: next :: more =>
          if dash = unit '-' ∧ next ≠ unit ']' then do
            let (last, rest) ← readClassAtom (next :: more)
            let between ← range first last
            readClass fuel (fun u => set u || between u) rest
          else readClass fuel (fun u => set u || first.has u) rest
        | _ => readClass fuel (fun u => set u || first.has u) rest

def isReserved (c : UInt16) : Bool :=
  [unit '?', unit '*', unit '+', unit '^', unit '$', unit '\x7b'].contains c

def readAtom : CodeUnits → Option (Node × CodeUnits)
  | [] => none
  | c :: rest =>
    if c = unit '.' then some (.one fun u => !isLineTerminator u, rest)
    else if c = unit '[' then
      (readClass (rest.length + 1) (fun _ => false) rest).map fun read => (.one read.1, read.2)
    else if c = unit '\\' then (readEscape false rest).map fun read => (.one read.1.has, read.2)
    else if isReserved c then none
    else some (.one fun u => u = c, rest)

def readQuantifier (n : Node) : CodeUnits → Node × CodeUnits
  | [] => (n, [])
  | c :: rest =>
    if c ≠ unit '?' then (n, c :: rest)
    else
      match rest with
      | [] => (.opt n false, [])
      | c' :: rest' => if c' = unit '?' then (.opt n true, rest') else (.opt n false, c' :: rest')

def disjunction : List Node → Node
  | [] => .empty
  | [n] => n
  | n :: more => .alt n (disjunction more)

def closeGroup : Option (List Node × CodeUnits) → Option (Node × CodeUnits)
  | some (group, close :: rest) => if close = unit ')' then some (disjunction group, rest) else none
  | _ => none

def prepend (term : Node) : List Node → List Node
  | [] => [term]
  | first :: more => .seq term first :: more

def readAlternatives : Nat → CodeUnits → Option (List Node × CodeUnits)
  | 0, _ => none
  | fuel + 1, s =>
    match s with
    | [] => some ([.empty], [])
    | c :: rest =>
      if c = unit ')' then some ([.empty], s)
      else if c = unit '|' then
        (readAlternatives fuel rest).map fun read :
          List Node × CodeUnits => (.empty :: read.1, read.2)
      else
        match if c = unit '(' then closeGroup (readAlternatives fuel rest) else readAtom s with
        | none => none
        | some (atom, rest) =>
          let quantified := readQuantifier atom rest
          (readAlternatives fuel quantified.2).map fun read : List Node × CodeUnits =>
            (prepend quantified.1 read.1, read.2)

def read (source : CodeUnits) : Option Node :=
  match readAlternatives (source.length + 1) source with
  | some (alternatives, []) => some (disjunction alternatives)
  | _ => none

theorem Node.test_iff {n : Node} {s : CodeUnits} :
    n.test s = true ↔ ∃ start ≤ s.length, n.matchesAt s start = true := by
  simp only [Node.test, List.any_eq_true, List.mem_range, Nat.lt_succ_iff]

theorem Node.matchesAt_drop (n : Node) (s : CodeUnits) (dropped start : Nat) :
    n.matchesAt (s.drop dropped) start = n.matchesAt s (dropped + start) := by
  rw [matchesAt, matchesAt, List.drop_drop]

theorem Node.test_drop_iff {n : Node} {s : CodeUnits} {dropped : Nat}
    (hdropped : dropped ≤ s.length) :
    n.test (s.drop dropped) = true ↔ ∃ start ≤ s.length, dropped ≤ start ∧
      n.matchesAt s start = true := by
  rw [Node.test_iff, List.length_drop]
  constructor
  · rintro ⟨start, hstart, hmatch⟩
    rw [matchesAt_drop] at hmatch
    exact ⟨dropped + start, by omega, Nat.le_add_right _ _, hmatch⟩
  · rintro ⟨start, hstart, hle, hmatch⟩
    refine ⟨start - dropped, by omega, ?_⟩
    rw [matchesAt_drop, Nat.add_sub_cancel' hle]
    exact hmatch

end SimplePattern

end Vibrato.Lib
