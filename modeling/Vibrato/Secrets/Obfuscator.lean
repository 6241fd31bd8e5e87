import Mathlib.Data.List.Sort
import Vibrato.Text
import Vibrato.Lib.Rewrite

/-! `SecretObfuscator` of `secrets/obfuscator.ts`: plain secrets are replaced in one pass or one
after the other, then the matches of each regex entry, and placeholders are restored in one pass. -/

namespace Vibrato.Secrets

open Lib

/-- A global regular expression: `exec` finds the start and the length of the first match at or
after `lastIndex`. -/
structure Pattern where
  exec : Text → Nat → Option (Nat × Nat)
  start_ge : ∀ {text lastIndex start length}, exec text lastIndex = some (start, length) →
    lastIndex ≤ start
  end_le : ∀ {text lastIndex start length}, exec text lastIndex = some (start, length) →
    start + length ≤ text.length

inductive SecretMode where
  | obfuscate
  | replace
  deriving DecidableEq

structure RegexEntry where
  regex : Pattern
  mode : SecretMode
  replacement : Option Text

/-- Loading rejects an empty content.  A pattern that does not compile is `none`. -/
inductive SecretEntry where
  | plain (content : Text) (content_ne : content ≠ []) (mode : SecretMode)
      (replacement : Option Text)
  | regex (pattern : Option Pattern) (mode : SecretMode) (replacement : Option Text)

def isTagChar (c : Char) : Bool := c.isAlphanum || c = '_' || c = '-'

/-- What the key determines: the tag of a secret's placeholder, which is the `base64url` form of 16
bytes, and the secret's replacement of the same length. -/
structure Key where
  tag : Text → Text
  tag_length : ∀ secret, (tag secret).length = 22
  tag_chars : ∀ secret, ∀ c ∈ tag secret, isTagChar c = true
  generateDeterministicReplacement : Text → Text

def Key.buildPlaceholder (key : Key) (secret : Text) : Text :=
  "#VIB1_".toList ++ key.tag secret ++ ['#']

structure Mapping where
  secret : Text
  replacement : Text
  deriving DecidableEq

/-- `secret.length`. -/
def Mapping.size (mapping : Mapping) : Nat := (Text.utf16 mapping.secret).length

/-- Replace-mode and obfuscate-mode mappings, each sorted longest-first, and the secrets of
placeholders, the last one set first. -/
structure SecretObfuscator where
  regexEntries : List RegexEntry
  sortedReplaceMappings : List Mapping
  sortedObfuscateMappings : List Mapping
  deobfuscateMap : List (Text × Text)
  hasAny : Bool

/-- `map.set(secret, replacement)`. -/
def setMapping (mappings : List Mapping) (mapping : Mapping) : List Mapping :=
  if mappings.any (·.secret = mapping.secret) then
    mappings.map fun m => if m.secret = mapping.secret then mapping else m
  else mappings ++ [mapping]

/-- `[...mappings].sort((a, b) => b.secret.length - a.secret.length)`. -/
def sortMappings (mappings : List Mapping) : List Mapping :=
  mappings.insertionSort fun a b => b.size ≤ a.size

namespace SecretObfuscator

variable (key : Key)

def addEntry (o : SecretObfuscator) : SecretEntry → SecretObfuscator
  | .plain content _ .obfuscate _ =>
    let placeholder := key.buildPlaceholder content
    { o with
      sortedObfuscateMappings := setMapping o.sortedObfuscateMappings ⟨content, placeholder⟩
      deobfuscateMap := (placeholder, content) :: o.deobfuscateMap }
  | .plain content _ .replace replacement =>
    { o with
      sortedReplaceMappings := setMapping o.sortedReplaceMappings
        ⟨content, replacement.getD (key.generateDeterministicReplacement content)⟩ }
  | .regex (some regex) mode replacement =>
    { o with regexEntries := o.regexEntries ++ [⟨regex, mode, replacement⟩] }
  | .regex none _ _ => o

def ofEntries (entries : List SecretEntry) : SecretObfuscator :=
  let o := entries.foldl (addEntry key) ⟨[], [], [], [], !entries.isEmpty⟩
  { o with
    sortedReplaceMappings := sortMappings o.sortedReplaceMappings
    sortedObfuscateMappings := sortMappings o.sortedObfuscateMappings }

end SecretObfuscator

/-- An alternation of escaped secrets, each with its replacement: the first one that matches
wins. -/
def literalRule (mappings : List Mapping) : Rule Char := fun rest =>
  (mappings.find? (·.secret.isPrefixOf rest)).map fun m => (m.secret.length, m.replacement)

/-- `text.split(search).join(replacement)`, with its fast path. -/
def replaceAll (text search replacement : Text) : Text :=
  if search = [] ∨ ¬search <:+: text then text
  else rewrite (literalRule [⟨search, replacement⟩]) text

namespace SecretObfuscator

variable (o : SecretObfuscator)

def mappings : List Mapping :=
  o.sortedReplaceMappings ++ o.sortedObfuscateMappings

def useSequentialPlainReplacement : Bool :=
  o.mappings.zipIdx.any fun (mapping, index) => o.mappings.zipIdx.any fun (other, otherIndex) =>
    other.secret ≠ [] &&
      (other.secret <:+: mapping.replacement ||
        (index ≠ otherIndex &&
          (other.secret <:+: mapping.secret || mapping.secret <:+: other.secret)))

def obfuscatePlainMappingsSequential (text : Text) : Text :=
  o.mappings.foldl (fun result m => replaceAll result m.secret m.replacement) text

def obfuscatePlainMappings (text : Text) : Text :=
  if o.useSequentialPlainReplacement then o.obfuscatePlainMappingsSequential text
  else if o.mappings = [] then text
  else rewrite (literalRule o.mappings) text

end SecretObfuscator

/-- The loop over `exec`; an empty match only moves on. -/
def successiveMatches (regex : Pattern) (text : Text) : Nat → Nat → List (Nat × Nat)
  | 0, _ => []
  | fuel + 1, lastIndex =>
    match regex.exec text lastIndex with
    | none => []
    | some (start, 0) => successiveMatches regex text fuel (start + 1)
    | some (start, n + 1) =>
      (start, n + 1) :: successiveMatches regex text fuel (start + (n + 1))

def Pattern.matches (regex : Pattern) (text : Text) : List (Nat × Nat) :=
  successiveMatches regex text (text.length + 1) 0

def Pattern.matchValues (regex : Pattern) (text : Text) : List Text :=
  ((regex.matches text).map fun m => (text.drop m.1).take m.2).eraseDups

/-- The binary search of `#insertSortedObfuscateMapping`. -/
def insertIndex (mappings : List Mapping) (size : Nat) : Nat → Nat → Nat → Nat
  | 0, lo, _ => lo
  | fuel + 1, lo, hi =>
    if lo < hi then
      let mid := (lo + hi) / 2
      if (mappings[mid]?.elim 0 Mapping.size) < size then insertIndex mappings size fuel lo mid
      else insertIndex mappings size fuel (mid + 1) hi
    else lo

def insertSortedObfuscateMapping (mappings : List Mapping) (mapping : Mapping) : List Mapping :=
  let lo := insertIndex mappings mapping.size mappings.length 0 mappings.length
  mappings.take lo ++ mapping :: mappings.drop lo

namespace SecretObfuscator

variable (key : Key)

variable (o : SecretObfuscator)

def discover (value : Text) : SecretObfuscator :=
  if o.sortedObfuscateMappings.any (·.secret = value) then o
  else
    let placeholder := key.buildPlaceholder value
    { o with
      sortedObfuscateMappings :=
        insertSortedObfuscateMapping o.sortedObfuscateMappings ⟨value, placeholder⟩
      deobfuscateMap := (placeholder, value) :: o.deobfuscateMap }

def entryReplacement (entry : RegexEntry) (value : Text) : Text :=
  match entry.mode with
  | .replace => entry.replacement.getD (key.generateDeterministicReplacement value)
  | .obfuscate => key.buildPlaceholder value

def replaceMatch (entry : RegexEntry) (st : SecretObfuscator × Text) (value : Text) :
    SecretObfuscator × Text :=
  (if entry.mode = .obfuscate then st.1.discover key value else st.1,
    replaceAll st.2 value (entryReplacement key entry value))

def processEntry (st : SecretObfuscator × Text) (entry : RegexEntry) : SecretObfuscator × Text :=
  (entry.regex.matchValues st.2).foldl (replaceMatch key entry) st

def obfuscate (text : Text) : SecretObfuscator × Text :=
  if o.hasAny then o.regexEntries.foldl (processEntry key) (o, o.obfuscatePlainMappings text)
  else (o, text)

def obfuscateAll (texts : List Text) : SecretObfuscator :=
  texts.foldl (fun o text => (o.obfuscate key text).1) o

end SecretObfuscator

/-- `PLACEHOLDER_RE` at the start of a text. -/
def matchPlaceholder (rest : Text) : Option Text :=
  let tag := (rest.drop 6).take 22
  if rest.take 6 = "#VIB1_".toList ∧ tag.length = 22 ∧ tag.all isTagChar ∧ rest[28]? = some '#' then
    some (rest.take 29)
  else none

def placeholderRule (deobfuscateMap : List (Text × Text)) : Rule Char := fun rest =>
  (matchPlaceholder rest).map fun found => (found.length, (deobfuscateMap.lookup found).getD found)

def SecretObfuscator.deobfuscate (o : SecretObfuscator) (text : Text) : Text :=
  if o.hasAny ∧ '#' ∈ text then rewrite (placeholderRule o.deobfuscateMap) text else text

end Vibrato.Secrets
