import Vibrato.Edit.PatchHunks
import Vibrato.Edit.ReplaceText

namespace Vibrato.Edit

open List

inductive Terminator where
  | lf
  | crlf
  | cr
  deriving DecidableEq

def Terminator.text : Terminator → Text
  | lf => ['\n']
  | crlf => ['\r', '\n']
  | cr => ['\r']

def LineEnding.terminator : LineEnding → Terminator
  | lf => .lf
  | crlf => .crlf

/-- A line of a file with its own line end; the last line may have none. -/
structure RawLine where
  text : Text
  terminator : Option Terminator
  deriving DecidableEq

namespace RawLine

def withEnd (ending : Text) (line : RawLine) : Text :=
  line.text ++ if line.terminator.isSome then ending else []

def bytes (line : RawLine) : Text := line.text ++ (line.terminator.map Terminator.text).getD []

def push (c : Char) : List RawLine → List RawLine
  | [] => [⟨[c], none⟩]
  | line :: lines => { line with text := c :: line.text } :: lines

end RawLine

def rawLines : Text → List RawLine
  | [] => []
  | '\r' :: '\n' :: rest => ⟨[], some .crlf⟩ :: rawLines rest
  | '\r' :: rest => ⟨[], some .cr⟩ :: rawLines rest
  | '\n' :: rest => ⟨[], some .lf⟩ :: rawLines rest
  | c :: rest => RawLine.push c (rawLines rest)

def pushChar (c : Char) : List Text → List Text
  | [] => [[c]]
  | line :: lines => (c :: line) :: lines

def linesWithEnds : Text → List Text
  | [] => []
  | c :: rest => if c = '\n' then [c] :: linesWithEnds rest else pushChar c (linesWithEnds rest)

section Replace

variable {R : Type}

inductive ReplaceFileError (R : Type) where
  | emptyOldText
  | replace (error : ReplaceError)
  | occurrences (path : Text) (count : Nat) (previews : List Text)
  | noMatch (path searchText : Text) (closest : Option (FuzzyMatch R)) (allowFuzzy : Bool)
      (threshold : R)
      (fuzzyMatches : Option Nat)
  | noChanges (path : Text)
  deriving DecidableEq

structure ReplaceFileParams (R : Type) where
  oldText : Text
  newText : Text
  all : Option Bool
  allowFuzzy : Bool
  fuzzyThreshold : R

variable [Score R] (native : NativeBestFuzzyMatch R)

/-- The text that replace mode makes of the normalized content, within a number of rounds of the
loop. -/
def replaceEdit (rounds : Nat) (path normalizedContent : Text) (params : ReplaceFileParams R) :
    Option (Except (ReplaceFileError R) Text) :=
  if params.oldText = [] then some (.error .emptyOldText)
  else
    let normalizedOldText := normalizeToLF params.oldText
    let normalizedNewText := normalizeToLF params.newText
    (replaceText native rounds normalizedContent normalizedOldText normalizedNewText
        ⟨params.allowFuzzy, params.all.getD false, some params.fuzzyThreshold⟩).map fun
      | .error error => .error (.replace error)
      | .ok result =>
        if result.count = 0 then
          let outcome := findMatch native normalizedContent normalizedOldText params.allowFuzzy
            params.fuzzyThreshold
          match outcome.occurrences.filter (1 < ·) with
          | some count => .error (.occurrences path count outcome.occurrencePreviews)
          | none => .error (.noMatch path normalizedOldText outcome.closest params.allowFuzzy
              params.fuzzyThreshold outcome.fuzzyMatches)
        else if normalizedContent = result.content then .error (.noChanges path)
        else .ok result.content

/-- What `executeReplaceSingleUnderLock` writes to a file that is not a notebook. -/
def replaceFileContent (rounds : Nat) (path rawContent : Text) (params : ReplaceFileParams R) :
    Option (Except (ReplaceFileError R) Text) :=
  let (bom, content) := stripBom rawContent
  (replaceEdit native rounds path (normalizeToLF content) params).map fun
    | .error error => .error error
    | .ok edited => .ok (bom ++ restoreLineEndings edited (detectLineEnding content))

end Replace

section Patch

variable {E : Type}

inductive PatchFileError (E : Type) where
  | requiresDiff
  | diff (error : DiffError)
  | noHunks
  | apply (error : E)
  deriving DecidableEq

variable (applyHunksToContent : Text → List DiffHunk → Except E (Text × List Text))

def patchEdit (normalizedContent diff : Text) : Except (PatchFileError E) Text :=
  if diff = [] then .error .requiresDiff
  else
    match parseDiffHunks diff with
    | .error error => .error (.diff error)
    | .ok hunks =>
      if hunks = [] then .error .noHunks
      else
        match applyHunksToContent normalizedContent hunks with
        | .error error => .error (.apply error)
        | .ok (newContent, _) => .ok newContent

/-- What an update of `applyNormalizedPatch` writes.  `bomBytes` says that the file starts with the
bytes of a byte order mark. -/
def patchFileContent (originalContent : Text) (bomBytes : Bool) (diff : Text) :
    Except (PatchFileError E) Text :=
  let (bomFromText, strippedContent) := stripBom originalContent
  let bom := if bomFromText = [] ∧ bomBytes = true then ['\uFEFF'] else bomFromText
  match patchEdit applyHunksToContent (normalizeToLF strippedContent) diff with
  | .error error => .error error
  | .ok newContent => .ok (bom ++ restoreLineEndings newContent (detectLineEnding strippedContent))

end Patch

theorem flatten_linesWithEnds (text : Text) : (linesWithEnds text).flatten = text := by
  induction text with
  | nil => rfl
  | cons c rest ih =>
    rw [linesWithEnds]
    split
    · rw [flatten_cons, ih, singleton_append]
    · cases hlines : linesWithEnds rest with
      | nil =>
        rw [hlines] at ih
        rw [← ih]
        rfl
      | cons line lines =>
        rw [hlines] at ih
        rw [← ih]
        rfl

theorem newline_not_mem_rawLines {content : Text} {line : RawLine} (h : line ∈ rawLines content) :
    '\n' ∉ line.text := by
  induction content using rawLines.induct generalizing line with
  | case1 => cases h
  | case2 rest ih =>
    rcases mem_cons.1 h with rfl | h
    · exact not_mem_nil
    · exact ih h
  | case3 rest hrest ih =>
    rw [rawLines.eq_3 rest hrest] at h
    rcases mem_cons.1 h with rfl | h
    · exact not_mem_nil
    · exact ih h
  | case4 rest ih =>
    rcases mem_cons.1 h with rfl | h
    · exact not_mem_nil
    · exact ih h
  | case5 c rest hcrlf hcr hlf ih =>
    rw [rawLines.eq_5 c rest hcrlf hcr hlf] at h
    have hc : '\n' ≠ c := fun heq => hlf heq.symm
    cases hlines : rawLines rest with
    | nil =>
      rw [hlines] at h
      rw [mem_singleton.1 h]
      simp [hc]
    | cons first lines =>
      rw [hlines] at h ih
      rcases mem_cons.1 h with rfl | h
      · have hfirst := ih mem_cons_self
        simp [hc, hfirst]
      · exact ih (mem_cons_of_mem _ h)

theorem restoreLineEndings_append (a b : Text) (ending : LineEnding) :
    restoreLineEndings (a ++ b) ending =
      restoreLineEndings a ending ++ restoreLineEndings b ending := by
  cases ending with
  | lf => rfl
  | crlf => exact flatMap_append

theorem restoreLineEndings_flatten (lines : List Text) (ending : LineEnding) :
    restoreLineEndings lines.flatten ending =
      (lines.map (restoreLineEndings · ending)).flatten := by
  induction lines with
  | nil => cases ending <;> rfl
  | cons line lines ih => rw [flatten_cons, restoreLineEndings_append, ih, map_cons, flatten_cons]

theorem restoreLineEndings_of_not_mem {text : Text} (h : '\n' ∉ text) (ending : LineEnding) :
    restoreLineEndings text ending = text := by
  cases ending with
  | lf => rfl
  | crlf =>
    induction text with
    | nil => rfl
    | cons c text ih =>
      rw [mem_cons, not_or] at h
      have htext := ih h.2
      dsimp only [restoreLineEndings] at htext ⊢
      rw [flatMap_cons, if_neg (Ne.symm h.1), htext, singleton_append]

theorem restoreLineEndings_withEnd {line : RawLine} (h : '\n' ∉ line.text) (ending : LineEnding) :
    restoreLineEndings (line.withEnd ['\n']) ending = line.withEnd ending.terminator.text := by
  unfold RawLine.withEnd
  rw [restoreLineEndings_append, restoreLineEndings_of_not_mem h]
  split
  · cases ending <;> rfl
  · cases ending <;> rfl

theorem Terminator.text_injective {a b : Terminator} (h : a.text = b.text) : a = b := by
  cases a <;> cases b <;> first | rfl | cases h

theorem RawLine.withEnd_eq_bytes_iff (line : RawLine) (terminator : Terminator) :
    line.withEnd terminator.text = line.bytes ↔ line.terminator = none ∨
      line.terminator = some terminator := by
  unfold withEnd bytes
  rw [append_cancel_left_eq]
  cases line.terminator with
  | none => simp
  | some own =>
    show terminator.text = own.text ↔ _
    simp only [reduceCtorEq, Option.some.injEq, false_or]
    exact ⟨fun h => (Terminator.text_injective h).symm, fun h => by rw [h]⟩

/-- What is written for a content has one line for each line of the edited text.  If such a line
stands in the normalized content as well, then `P` holds of the line of the file and of what is
written. -/
def FollowsLines (content edited written : Text) (P : RawLine → Text → Prop) : Prop :=
  ∃ lines : List Text, written = lines.flatten ∧ lines.length = (linesWithEnds edited).length ∧
    ∀ (i j : Nat) (line : RawLine), (rawLines content)[i]? = some line →
      (linesWithEnds edited)[j]? = some (line.withEnd ['\n']) →
        ∃ text, lines[j]? = some text ∧ P line text

def KeepsBytes (line : RawLine) (text : Text) : Prop := text = line.bytes

/-- The line is written with its text and the given line end, and so with its bytes if and only if
it has this line end or none. -/
structure KeepsText (ending : LineEnding) (line : RawLine) (text : Text) : Prop where
  eq : text = line.withEnd ending.terminator.text
  bytes : KeepsBytes line text ↔ line.terminator = none ∨ line.terminator = some ending.terminator

theorem followsLines_restoreLineEndings (content edited : Text) (ending : LineEnding) :
    FollowsLines content edited (restoreLineEndings edited ending) (KeepsText ending) := by
  refine ⟨(linesWithEnds edited).map (restoreLineEndings · ending), ?_, length_map _,
    fun i j line hline hedited => ?_⟩
  · rw [← restoreLineEndings_flatten, flatten_linesWithEnds]
  · have hnewline := newline_not_mem_rawLines (mem_of_getElem? hline)
    refine ⟨line.withEnd ending.terminator.text, ?_, rfl, line.withEnd_eq_bytes_iff _⟩
    rw [getElem?_map, hedited, Option.map_some, restoreLineEndings_withEnd hnewline]

section Main

variable {R E : Type} [Score R]

/-- The byte order mark and the text of a file with the text that an edit made of it, where `P`
holds of the lines that it did not touch. -/
def IsWritten (rawContent edited written : Text) (P : LineEnding → RawLine → Text → Prop) : Prop :=
  let content := (stripBom rawContent).2
  ∃ bom body, (bom = (stripBom rawContent).1 ∨ bom = ['\uFEFF']) ∧ written = bom ++ body ∧
    FollowsLines content edited body (P (detectLineEnding content))

/-- In replace and in patch mode every line that the edit does not touch keeps its text, and is
written with the ending of the first line. -/
theorem edit_keeps_text (native : NativeBestFuzzyMatch R)
    (applyHunksToContent : Text → List DiffHunk → Except E (Text × List Text)) (rawContent : Text) :
    (∀ rounds path params written,
      replaceFileContent native rounds path rawContent params = some (.ok written) →
        ∃ edited, replaceEdit native rounds path (normalizeToLF (stripBom rawContent).2) params =
          some (.ok edited) ∧
          IsWritten rawContent edited written KeepsText) ∧
    ∀ bomBytes diff written, patchFileContent applyHunksToContent rawContent bomBytes diff =
      .ok written →
      ∃ edited, patchEdit applyHunksToContent (normalizeToLF (stripBom rawContent).2) diff =
        .ok edited ∧
        IsWritten rawContent edited written KeepsText := by
  constructor
  · intro rounds path params written hwritten
    obtain ⟨outcome, hedit, heq⟩ := Option.map_eq_some_iff.1 hwritten
    cases outcome with
    | error error => cases heq
    | ok edited =>
      cases heq
      exact ⟨edited, hedit, _, _, .inl rfl, rfl, followsLines_restoreLineEndings _ edited _⟩
  · intro bomBytes diff written hwritten
    unfold patchFileContent at hwritten
    dsimp only at hwritten
    split at hwritten
    · cases hwritten
    · next edited hedit =>
      cases hwritten
      refine ⟨edited, hedit, _, _, ?_, rfl, followsLines_restoreLineEndings _ edited _⟩
      split
      · exact .inr rfl
      · exact .inl rfl

end Main

/-- The hunks are applied as `applyNormalizedPatch` does; of an error only that there is one is
kept. -/
def applyHunks (content : Text) (hunks : List DiffHunk) : Except Unit (Text × List Text) :=
  match applyHunksToContent nativeRuntime content hunks (percent 95) true with
  | .ok (edited, warnings) => .ok (edited, warnings.map Text.ofNat)
  | .error _ => .error ()

def oneChange : ReplaceFileParams ℚ := ⟨"c".toList, "d".toList, none, false, percent 95⟩

theorem edit_keeps_text_crlf :
    (∃ edited, replaceEdit (R := ℚ) none 0 []
      (normalizeToLF (stripBom "b\r\nc".toList).2) oneChange = some (.ok edited) ∧
      IsWritten "b\r\nc".toList edited "b\r\nd".toList KeepsText) ∧
    ∃ edited,
      patchEdit applyHunks (normalizeToLF (stripBom "b\r\nc\r\n".toList).2) "@@\n-c\n+d".toList =
        .ok edited ∧
      IsWritten "b\r\nc\r\n".toList edited "b\r\nd\r\n".toList KeepsText := by
  have hreplace := edit_keeps_text (R := ℚ) none applyHunks "b\r\nc".toList
  have hpatch := edit_keeps_text (R := ℚ) none applyHunks "b\r\nc\r\n".toList
  exact ⟨hreplace.1 0 [] oneChange _ (by decide +kernel), hpatch.2 false _ _ (by decide +kernel)⟩

/-- The line `b` ends in a line feed, and is written with the carriage return of the first line. -/
theorem replaceFileContent_changes_line_end :
    replaceFileContent (R := ℚ) none 0 [] "a\r\nb\nc".toList oneChange =
        some (.ok "a\r\nb\r\nd".toList) ∧
      replaceEdit (R := ℚ) none 0 [] "a\nb\nc".toList oneChange = some (.ok "a\nb\nd".toList) ∧
      ¬IsWritten "a\r\nb\nc".toList "a\nb\nd".toList "a\r\nb\r\nd".toList fun _ => KeepsBytes := by
  refine ⟨by decide +kernel, by decide +kernel, ?_⟩
  rintro ⟨bom, body, hbom, hwritten, lines, rfl, -, hlines⟩
  obtain ⟨first, hfirst, rfl⟩ :=
    hlines 0 0 ⟨"a".toList, some .crlf⟩ (by decide +kernel) (by decide +kernel)
  obtain ⟨second, hsecond, rfl⟩ :=
    hlines 1 1 ⟨"b".toList, some .lf⟩ (by decide +kernel) (by decide +kernel)
  match lines, hfirst, hsecond with
  | _ :: _ :: rest, rfl, rfl =>
    have hbytes : RawLine.bytes ⟨"a".toList, some .crlf⟩ = "a\r\n".toList ∧
        RawLine.bytes ⟨"b".toList, some .lf⟩ = "b\n".toList := by decide +kernel
    have hnone : (stripBom "a\r\nb\nc".toList).1 = [] := by decide +kernel
    rcases hbom with rfl | rfl
    · cases hwritten
    · cases hwritten

end Vibrato.Edit
