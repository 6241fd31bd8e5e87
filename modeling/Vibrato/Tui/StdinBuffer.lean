import Mathlib
import Vibrato.Lib.Occurrences
import Vibrato.Tui.EscapeSequences

/-! The input of the terminal (`tui/src/stdin-buffer.ts`): bytes come in chunks, are decoded, and
leave as the sequences of the keyboard and the mouse and as pastes. -/

namespace Vibrato.Tui.Stdin

open Lib CodeUnits

/-- `"\x1b[200~"` -/
def BRACKETED_PASTE_START : CodeUnits := [ESC, 0x5B, 0x32, 0x30, 0x30, 0x7E]

/-- `"\x1b[201~"` -/
def BRACKETED_PASTE_END : CodeUnits := [ESC, 0x5B, 0x32, 0x30, 0x31, 0x7E]

def isDigit (u : UInt16) : Bool := 0x30 ≤ u && u ≤ 0x39

/-- What is left after `\d+`. -/
def afterDigits (s : CodeUnits) : Option CodeUnits :=
  if (s.takeWhile isDigit).length = 0 then none else some (s.dropWhile isDigit)

variable (sequence : CodeUnits)

def isSgrMouseSequence : Bool :=
  [ESC, 0x5B, 0x3C].isPrefixOf sequence &&
  match afterDigits (sequence.drop 3) with
  | some (0x3B :: second) =>
    match afterDigits second with
    | some (0x3B :: third) => afterDigits third = some [0x4D] || afterDigits third = some [0x6D]
    | _ => false
  | _ => false

def isSgrMousePrefix : Bool := [ESC, 0x5B, 0x3C].isPrefixOf sequence

def parseDigits (digits : CodeUnits) : Nat := digits.foldl (fun n u => 10 * n + (u.toNat - 0x30)) 0

/-- `parseUnmodifiedKittyPrintableCodepoint`: the number of `\x1b[(\d+)(?::\d*)?(?::\d+)?u` from 32
on. -/
def parseUnmodifiedKittyPrintableCodepoint : Option Nat :=
  let digits := (sequence.drop 2).takeWhile isDigit
  let rest := (sequence.drop 2).dropWhile isDigit
  let ends :=
    match rest with
    | [0x75] => true
    | 0x3A :: rest =>
      match rest.dropWhile isDigit with
      | [0x75] => true
      | 0x3A :: rest => afterDigits rest = some [0x75]
      | _ => false
    | _ => false
  if [ESC, 0x5B] <+: sequence ∧ digits ≠ [] ∧ ends = true ∧ 32 ≤ parseDigits digits then
    some (parseDigits digits)
  else none

def singleCodePoint : CodeUnits → Option Nat
  | [u] => some u.toNat
  | [u, v] => if isHigh u && isLow v then some (scalar [u, v]) else none
  | _ => none

def isUtf8LeadByte (byte : Nat) : Bool := 0xC2 ≤ byte && byte ≤ 0xF4

def expectedLength (lead : Nat) : Nat :=
  if 0xC2 ≤ lead ∧ lead ≤ 0xDF then 2
  else if 0xE0 ≤ lead ∧ lead ≤ 0xEF then 3
  else if 0xF0 ≤ lead ∧ lead ≤ 0xF4 then 4
  else 0

/-- `endsWithIncompleteUtf8Sequence` -/
def endsWithIncompleteUtf8Sequence (data : List Nat) : Bool :=
  let continuationCount := (data.reverse.takeWhile Utf8.isContinuation).length
  match (data.reverse.dropWhile Utf8.isContinuation).head? with
  | none => 0 < continuationCount
  | some lead => 0 < expectedLength lead && continuationCount + 1 < expectedLength lead

def legacyMetaSequence (byte : Nat) : CodeUnits := [ESC, UInt16.ofNat (byte - 128)]

inductive Event where
  | data (sequence : CodeUnits)
  | paste (content : CodeUnits)
deriving DecidableEq

/-- `StdinBuffer`, with the events that it has emitted. The state of a mouse report that is thrown
away is left out: only a timer starts it. -/
structure StdinBuffer where
  buffer : CodeUnits := []
  bufferedEscapeRunLength : Nat := 0
  pasteMode : Bool := false
  pasteBuffer : CodeUnits := []
  pendingKittyPrintableCodepoint : Option Nat := none
  decoder : Utf8.Decoder := .idle
  decoderHasPendingUtf8 : Bool := false
  pendingSingleUtf8LeadByte : Option Nat := none
  events : List Event := []

namespace StdinBuffer

variable (s : StdinBuffer)

def emitDataSequence (sequence : CodeUnits) : StdinBuffer :=
  if singleCodePoint sequence ≠ none ∧
    singleCodePoint sequence = s.pendingKittyPrintableCodepoint then
    { s with pendingKittyPrintableCodepoint := none }
  else
    { s with
      pendingKittyPrintableCodepoint := parseUnmodifiedKittyPrintableCodepoint sequence
      events := s.events ++ [.data sequence] }

def emitDataSequences (sequences : List CodeUnits) : StdinBuffer :=
  sequences.foldl emitDataSequence s

/-- `#consumePendingSingleUtf8LeadAsMeta`, whose sequence is emitted. -/
def emitPendingSingleUtf8LeadAsMeta : StdinBuffer :=
  match s.pendingSingleUtf8LeadByte with
  | none => s
  | some byte =>
    { s with pendingSingleUtf8LeadByte := none, decoderHasPendingUtf8 := false }.emitDataSequence
      (legacyMetaSequence byte)

def emitBeforePaste (beforePaste : CodeUnits) : StdinBuffer :=
  if beforePaste.length = 0 then s
  else
    let result := extractCompleteSequences beforePaste 0
    let s := s.emitDataSequences result.sequences
    if result.remainder.length = 0 then s
      else s.emitDataSequences (splitResolvedEscapeRun result.remainder)

def finishPaste (process : StdinBuffer → CodeUnits → StdinBuffer) (s : StdinBuffer) : StdinBuffer :=
  match indexOf BRACKETED_PASTE_END s.pasteBuffer with
  | none => s
  | some endIndex =>
    let remaining := s.pasteBuffer.drop (endIndex + BRACKETED_PASTE_END.length)
    let s' :=
      { s with
        pasteMode := false
        pasteBuffer := []
        pendingKittyPrintableCodepoint := none
        events := s.events ++ [.paste (s.pasteBuffer.take endIndex)] }
    if remaining.length > 0 then process s' remaining else s'

def isMalformedMouse (sequence : CodeUnits) : Bool :=
  isSgrMousePrefix sequence && !isSgrMouseSequence sequence

/-- `process`, once the input is decoded. The fuel bounds the number of pastes in it. -/
def processText : Nat → StdinBuffer → Bool → CodeUnits → StdinBuffer
  | 0, s, _, _ => s
  | fuel + 1, s, decodedFromBuffer, str =>
    let process (s : StdinBuffer) (remaining : CodeUnits) : StdinBuffer :=
      processText fuel s.emitPendingSingleUtf8LeadAsMeta false remaining
    if str.length = 0 ∧ s.buffer.length = 0 then (if decodedFromBuffer then s
      else s.emitDataSequence [])
    else
      let buffer := s.buffer ++ str
      if s.pasteMode then
        finishPaste process
          { s with
            buffer := [], bufferedEscapeRunLength := 0, pasteBuffer := s.pasteBuffer ++ buffer }
      else
        let pasteScanFrom := s.bufferedEscapeRunLength - BRACKETED_PASTE_START.length
        match (indexOf BRACKETED_PASTE_START (buffer.drop pasteScanFrom)).map
          (· + pasteScanFrom) with
        | some startIndex =>
          finishPaste process
            { s.emitBeforePaste (buffer.take startIndex) with
              pendingKittyPrintableCodepoint := none
              buffer := []
              bufferedEscapeRunLength := 0
              pasteMode := true
              pasteBuffer := buffer.drop (startIndex + BRACKETED_PASTE_START.length) }
        | none =>
          let result := extractCompleteSequences buffer s.bufferedEscapeRunLength
          { s with
            buffer := result.remainder
            bufferedEscapeRunLength := result.escapeRunRemainder }.emitDataSequences
              (result.sequences.filter fun sequence => !isMalformedMouse sequence)

def processDecoded (decodedFromBuffer : Bool) (str : CodeUnits) : StdinBuffer :=
  processText (s.buffer.length + s.pasteBuffer.length + str.length + 1) s decodedFromBuffer str

def decode (hadPendingUtf8 : Bool) (bytes : List Nat) : StdinBuffer × CodeUnits :=
  let str := ofOutput (s.decoder.run bytes).2
  ({ s with
      decoder := (s.decoder.run bytes).1
      decoderHasPendingUtf8 := endsWithIncompleteUtf8Sequence bytes &&
        !(hadPendingUtf8 && 0 < str.length && bytes.all Utf8.isContinuation) }, str)

/-- `process` of a buffer of bytes. -/
def process (data : List Nat) : StdinBuffer :=
  let hadPendingUtf8 := s.decoderHasPendingUtf8 || s.pendingSingleUtf8LeadByte.isSome
  let (s, bytes) :=
    match s.pendingSingleUtf8LeadByte with
    | none => (s, data)
    | some lead =>
      if data.head?.any Utf8.isContinuation then ({ s with pendingSingleUtf8LeadByte := none },
        lead :: data)
      else (s.emitPendingSingleUtf8LeadAsMeta, data)
  if bytes.length = 1 ∧ 127 < bytes.headD 0 ∧ s.decoderHasPendingUtf8 = false then
    let byte := bytes.headD 0
    if isUtf8LeadByte byte then
      { s with pendingSingleUtf8LeadByte := some byte, decoderHasPendingUtf8 := true }
    else s.processDecoded false (legacyMetaSequence byte)
  else
    let (s, str) := s.decode hadPendingUtf8 bytes
    s.processDecoded true str

def run (chunks : List (List Nat)) : StdinBuffer := chunks.foldl process {}

end StdinBuffer

end Vibrato.Tui.Stdin
