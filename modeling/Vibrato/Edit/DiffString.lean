import Vibrato.Text

/-! `generateDiffString` of `edit/diff.ts`: a line diff printed with line numbers, where most of the
lines that did not change are left out.  The line differ is a parameter. -/

namespace Vibrato.Edit

open List Text

/-- Whether a part of a diff stands in both texts, in the new one or in the old one. -/
inductive PartKind where
  | common
  | added
  | removed
  deriving DecidableEq

structure DiffLinePart where
  kind : PartKind
  value : Text

namespace PartKind

def isChange : PartKind → Bool
  | common => false
  | added | removed => true

def sign : PartKind → Char
  | common => ' '
  | added => '+'
  | removed => '-'

def oldStep : PartKind → Nat
  | added => 0
  | common | removed => 1

def newStep : PartKind → Nat
  | removed => 0
  | common | added => 1

def lineNum (oldLineNum newLineNum : Nat) : PartKind → Nat
  | added => newLineNum
  | common | removed => oldLineNum

end PartKind

/-- A printed line, or the line that stands for lines left out. -/
inductive DiffLine where
  | line (kind : PartKind) (lineNum : Nat) (content : Text)
  | elided (lineNum : Nat)

def formatNumberedDiffLine (sign : Char) (lineNum : Nat) (content : Text) : Text :=
  sign :: (ofNat lineNum ++ '|' :: content)

def DiffLine.format : DiffLine → Text
  | line kind lineNum content => formatNumberedDiffLine kind.sign lineNum content
  | elided lineNum => formatNumberedDiffLine ' ' lineNum "...".toList

structure DiffState where
  oldLineNum : Nat
  newLineNum : Nat
  lastWasChange : Bool
  firstChangedLine : Option Nat
  output : List DiffLine

structure DiffResult where
  diff : Text
  firstChangedLine : Option Nat

def partLines (value : Text) : List Text :=
  let raw := splitLines value
  if raw.getLast? = some [] then raw.dropLast else raw

/-- The lines of a part that did not change which are printed, and how many are left out before,
between and after them. -/
structure ContextBlock where
  leadingSkip : Nat
  middleSkip : Nat
  trailingSkip : Nat
  linesToShow : List Text

def contextBlock (contextLimit : Nat) (lastWasChange nextPartIsChange : Bool) (raw : List Text) :
    ContextBlock :=
  if lastWasChange && nextPartIsChange then
    if contextLimit * 2 < raw.length then
      let leadingContext := raw.take contextLimit
      let trailingContext := raw.drop (raw.length - contextLimit)
      ⟨0, raw.length - leadingContext.length - trailingContext.length, 0,
        leadingContext ++ trailingContext⟩
    else ⟨0, 0, 0, raw⟩
  else if nextPartIsChange then
    let leadingSkip := raw.length - contextLimit
    ⟨leadingSkip, 0, 0, raw.drop leadingSkip⟩
  else ⟨0, 0, raw.length - contextLimit, raw.take contextLimit⟩

def ContextBlock.firstChunkLength (contextLimit : Nat) (block : ContextBlock) : Nat :=
  if 0 < block.middleSkip then contextLimit else block.linesToShow.length

namespace DiffState

def start : DiffState := ⟨1, 1, false, none, []⟩

def push (kind : PartKind) (s : DiffState) (line : Text) : DiffState :=
  { s with output := s.output ++ [.line kind (kind.lineNum s.oldLineNum s.newLineNum) line],
           oldLineNum := s.oldLineNum + kind.oldStep,
           newLineNum := s.newLineNum + kind.newStep }

def pass (count : Nat) (s : DiffState) : DiffState :=
  { s with oldLineNum := s.oldLineNum + count, newLineNum := s.newLineNum + count }

def skip (count : Nat) (s : DiffState) : DiffState :=
  if 0 < count then pass count { s with output := s.output ++ [.elided s.oldLineNum] } else s

def showContext (contextLimit : Nat) (nextPartIsChange : Bool) (raw : List Text) (s : DiffState) :
    DiffState :=
  if s.lastWasChange || nextPartIsChange then
    let block := contextBlock contextLimit s.lastWasChange nextPartIsChange raw
    let firstChunkLength := block.firstChunkLength contextLimit
    let s :=
      (block.linesToShow.take firstChunkLength).foldl (push .common) (s.skip block.leadingSkip)
    let s :=
      if 0 < block.middleSkip then
        (block.linesToShow.drop firstChunkLength).foldl (push .common) (s.skip block.middleSkip)
      else s
    s.skip block.trailingSkip
  else s.pass raw.length

/-- One round of the loop over the parts; `next` is the part after this one. -/
def printPart (contextLimit : Nat) (next : Option DiffLinePart) (s : DiffState)
    (part : DiffLinePart) : DiffState :=
  let raw := partLines part.value
  if part.kind.isChange then
    { raw.foldl (push part.kind) s with
        lastWasChange := true,
        firstChangedLine := some (s.firstChangedLine.getD s.newLineNum) }
  else
    { showContext contextLimit (next.any (·.kind.isChange)) raw s with lastWasChange := false }

def printParts (contextLimit : Nat) : DiffState → List DiffLinePart → DiffState
  | s, [] => s
  | s, part :: parts => printParts contextLimit (printPart contextLimit parts.head? s part) parts

end DiffState

section GenerateDiffString

variable (diffLines : Text → Text → List DiffLinePart)

/-- The lines that `generateDiffString` prints. -/
def printedLines (oldContent newContent : Text) (contextLines : Int) : List DiffLine :=
  (DiffState.start.printParts contextLines.toNat (diffLines oldContent newContent)).output

def generateDiffString (oldContent newContent : Text) (contextLines : Int) : DiffResult where
  diff :=
    joinLines ((printedLines diffLines oldContent newContent contextLines).map DiffLine.format)
  firstChangedLine :=
    (DiffState.start.printParts contextLines.toNat
      (diffLines oldContent newContent)).firstChangedLine

end GenerateDiffString

/-- Line `n` of a text, from 1 on. -/
def lineAt (text : Text) : Nat → Option Text
  | 0 => none
  | n + 1 => (splitLines text)[n]?

variable (parts : List DiffLinePart)

def oldValues : List Text :=
  (parts.filter (·.kind ≠ .added)).map DiffLinePart.value

def newValues : List Text :=
  (parts.filter (·.kind ≠ .removed)).map DiffLinePart.value

def EndsLines (values : List Text) : Prop :=
  ∀ before value after, values = before ++ value :: after → after.flatten ≠ [] →
    value = [] ∨ value.getLast? = some '\n'

structure IsLineDiff (oldContent newContent : Text) (parts : List DiffLinePart) : Prop where
  old_eq : (oldValues parts).flatten = oldContent
  new_eq : (newValues parts).flatten = newContent
  old_ends : EndsLines (oldValues parts)
  new_ends : EndsLines (newValues parts)

theorem partLines_nil : partLines [] = [] := rfl

theorem partLines_append_newline (value : Text) :
    partLines (value ++ ['\n']) = splitLines value := by
  rw [partLines, splitLines_append_newline]
  simp

variable {value : Text}

theorem partLines_append (hends : value = [] ∨ value.getLast? = some '\n')
    (rest : Text) : partLines (value ++ rest) = partLines value ++ partLines rest := by
  rcases hends with rfl | hlast
  · rfl
  · obtain ⟨front, rfl⟩ := getLast?_eq_some_iff.1 hlast
    have hsplit : splitLines (front ++ ['\n'] ++ rest) = splitLines front ++ splitLines rest := by
      rw [append_assoc]
      exact splitOn_append_cons_self _ _
    have hne : splitLines rest ≠ [] := splitOn_ne_nil _ _
    rw [partLines_append_newline]
    unfold partLines
    rw [hsplit]
    dsimp only
    rw [getLast?_append_of_ne_nil _ hne, dropLast_append_of_ne_nil hne]
    split <;> rfl

theorem partLines_flatten {values : List Text} (hends : EndsLines values) :
    partLines values.flatten = values.flatMap partLines := by
  induction values with
  | nil => rfl
  | cons value values ih =>
    have hrest : EndsLines values := fun before v after heq hne =>
      hends (value :: before) v after (by rw [heq, cons_append]) hne
    rw [flatten_cons, flatMap_cons, ← ih hrest]
    by_cases hnil : values.flatten = []
    · rw [hnil, append_nil, partLines_nil, append_nil]
    · exact partLines_append (hends [] value values rfl hnil) _

theorem partLines_isPrefix (text : Text) : partLines text <+: splitLines text := by
  unfold partLines
  dsimp only
  split
  · exact dropLast_prefix _
  · exact prefix_rfl

theorem newline_not_mem_of_mem_partLines {text line : Text} (h : line ∈ partLines text) :
    '\n' ∉ line :=
  newline_not_mem_of_mem_splitLines ((partLines_isPrefix text).subset h)

def oldLines (parts : List DiffLinePart) : List Text := (oldValues parts).flatMap partLines

def newLines (parts : List DiffLinePart) : List Text := (newValues parts).flatMap partLines

/-- A line of a part of the given kind: it is reached with these line numbers. -/
structure IsPartLine (parts : List DiffLinePart) (kind : PartKind) (oldLineNum newLineNum : Nat)
    (content : Text) : Prop where
  exists_part : ∃ before value after j, parts = before ++ ⟨kind, value⟩ :: after ∧
    (partLines value)[j]? = some content ∧
    oldLineNum = (oldLines before).length + 1 + j * kind.oldStep ∧
    newLineNum = (newLines before).length + 1 + j * kind.newStep

theorem oldLines_append (parts parts' : List DiffLinePart) :
    oldLines (parts ++ parts') = oldLines parts ++ oldLines parts' := by
  simp [oldLines, oldValues]

theorem newLines_append (parts parts' : List DiffLinePart) :
    newLines (parts ++ parts') = newLines parts ++ newLines parts' := by
  simp [newLines, newValues]

variable (part : DiffLinePart)

theorem length_oldLines_singleton :
    (oldLines [part]).length = (partLines part.value).length * part.kind.oldStep := by
  obtain ⟨kind, value⟩ := part
  cases kind <;> simp [oldLines, oldValues, PartKind.oldStep]

theorem length_newLines_singleton :
    (newLines [part]).length = (partLines part.value).length * part.kind.newStep := by
  obtain ⟨kind, value⟩ := part
  cases kind <;> simp [newLines, newValues, PartKind.newStep]

theorem lineAt_flatten {before after : List Text} {content : Text} {j : Nat}
    (hends : EndsLines (before ++ value :: after)) (hline : (partLines value)[j]? = some content) :
    lineAt (before ++ value :: after).flatten ((before.flatMap partLines).length + j + 1) =
      some content := by
  have hlt := (List.getElem?_eq_some_iff.1 hline).1
  have hget :
      (partLines (before ++ value :: after).flatten)[(before.flatMap partLines).length + j]? =
      some content := by
    rw [partLines_flatten hends, flatMap_append, getElem?_append_right (by omega),
      Nat.add_sub_cancel_left, flatMap_cons, getElem?_append_left hlt, hline]
  obtain ⟨rest, heq⟩ := partLines_isPrefix (before ++ value :: after).flatten
  rw [lineAt, ← heq, getElem?_append_left (List.getElem?_eq_some_iff.1 hget).1, hget]

namespace IsPartLine

variable {parts : List DiffLinePart} {kind : PartKind} {oldLineNum newLineNum : Nat}
    {content : Text}
  {oldContent newContent : Text}

variable (h : IsPartLine parts kind oldLineNum newLineNum content)
include h

theorem lineAt_old (hdiff : IsLineDiff oldContent newContent parts) (hkind : kind ≠ .added) :
    lineAt oldContent oldLineNum = some content := by
  obtain ⟨before, value, after, j, rfl, hline, rfl, -⟩ := h.exists_part
  have hvalues : oldValues (before ++ ⟨kind, value⟩ :: after) =
      oldValues before ++ value :: oldValues after := by
    simp [oldValues, hkind]
  have hstep : kind.oldStep = 1 := by
    cases kind with
    | added => exact absurd rfl hkind
    | common | removed => rfl
  have hends := hdiff.old_ends
  rw [hvalues] at hends
  rw [← hdiff.old_eq, hvalues, ← lineAt_flatten hends hline, hstep, oldLines]
  congr 1
  omega

theorem lineAt_new (hdiff : IsLineDiff oldContent newContent parts) (hkind : kind ≠ .removed) :
    lineAt newContent newLineNum = some content := by
  obtain ⟨before, value, after, j, rfl, hline, -, rfl⟩ := h.exists_part
  have hvalues : newValues (before ++ ⟨kind, value⟩ :: after) =
      newValues before ++ value :: newValues after := by
    simp [newValues, hkind]
  have hstep : kind.newStep = 1 := by
    cases kind with
    | removed => exact absurd rfl hkind
    | common | added => rfl
  have hends := hdiff.new_ends
  rw [hvalues] at hends
  rw [← hdiff.new_eq, hvalues, ← lineAt_flatten hends hline, hstep, newLines]
  congr 1
  omega

theorem newline_not_mem : '\n' ∉ content := by
  obtain ⟨before, value, after, j, -, hline, -⟩ := h.exists_part
  exact newline_not_mem_of_mem_partLines (mem_of_getElem? hline)

end IsPartLine

def DiffLine.isKind (kind : PartKind) : DiffLine → Bool
  | line kind' _ _ => kind' == kind
  | elided _ => false

variable (lines : List DiffLine)

def addedCount : Nat := lines.countP (·.isKind .added)

def removedCount : Nat := lines.countP (·.isKind .removed)

@[simp] theorem addedCount_concat (line : DiffLine) :
    addedCount (lines ++ [line]) = addedCount lines + if line.isKind .added then 1 else 0 := by
  rw [addedCount, countP_append, countP_singleton, addedCount]

@[simp] theorem removedCount_concat (line : DiffLine) :
    removedCount (lines ++ [line]) = removedCount lines + if line.isKind .removed then 1
      else 0 := by
  rw [removedCount, countP_append, countP_singleton, removedCount]

def DiffLine.IsPrinted (parts : List DiffLinePart) (before : List DiffLine) : DiffLine → Prop
  | line kind lineNum
      content => ∃ oldLineNum newLineNum, IsPartLine parts kind oldLineNum newLineNum content ∧
      lineNum = kind.lineNum oldLineNum newLineNum ∧
      newLineNum + removedCount before = oldLineNum + addedCount before
  | elided _ => True

namespace DiffState

variable {parts : List DiffLinePart} {kind : PartKind} {oldEnd newEnd : Nat} {s : DiffState}

structure IsReady (parts : List DiffLinePart) (kind : PartKind) (oldEnd newEnd : Nat)
    (raw : List Text)
    (s : DiffState) : Prop where
  offset : s.newLineNum + removedCount s.output = s.oldLineNum + addedCount s.output
  printed : ∀ before line after, s.output = before ++ line :: after → line.IsPrinted parts before
  next : ∀ j content, raw[j]? = some content → IsPartLine parts kind
    (s.oldLineNum + j * kind.oldStep) (s.newLineNum + j * kind.newStep) content
  oldEnd_eq : s.oldLineNum + raw.length * kind.oldStep = oldEnd
  newEnd_eq : s.newLineNum + raw.length * kind.newStep = newEnd

theorem printed_concat {output : List DiffLine} {line : DiffLine}
    (hprinted : ∀ before line after, output = before ++ line :: after → line.IsPrinted parts before)
    (hline : line.IsPrinted parts output) {before after : List DiffLine} {line' : DiffLine}
    (heq : output ++ [line] = before ++ line' :: after) : line'.IsPrinted parts before := by
  rcases eq_nil_or_concat' after with rfl | ⟨after, last, rfl⟩
  · obtain ⟨rfl, hlast⟩ := append_inj' heq rfl
    cases hlast
    exact hline
  · rw [← cons_append, ← append_assoc] at heq
    exact hprinted before line' after (append_inj' heq rfl).1

theorem IsReady.push {line : Text} {raw : List Text}
    (h : IsReady parts kind oldEnd newEnd (line :: raw) s) :
    IsReady parts kind oldEnd newEnd raw (s.push kind line) := by
  have hoffset := h.offset
  have hold := h.oldEnd_eq
  have hnew := h.newEnd_eq
  rw [length_cons, Nat.succ_mul] at hold hnew
  constructor
  · show s.newLineNum + kind.newStep + removedCount (s.output ++ [_]) =
      s.oldLineNum + kind.oldStep + addedCount (s.output ++ [_])
    rw [removedCount_concat, addedCount_concat]
    cases kind <;> simp only [PartKind.newStep, PartKind.oldStep, DiffLine.isKind] <;>
      simp <;> omega
  · intro before line' after heq
    have hnext := h.next 0 line rfl
    rw [Nat.zero_mul, Nat.zero_mul] at hnext
    have hline : DiffLine.IsPrinted parts s.output
        (.line kind (kind.lineNum s.oldLineNum s.newLineNum) line) := ⟨_, _, hnext, rfl, hoffset⟩
    exact printed_concat h.printed hline heq
  · intro j content hj
    have hnext := h.next (j + 1) content hj
    rw [Nat.succ_mul, Nat.succ_mul] at hnext
    show IsPartLine parts kind (s.oldLineNum + kind.oldStep + j * kind.oldStep)
      (s.newLineNum + kind.newStep + j * kind.newStep) content
    rw [Nat.add_assoc, Nat.add_comm kind.oldStep, Nat.add_assoc, Nat.add_comm kind.newStep]
    exact hnext
  · show s.oldLineNum + kind.oldStep + raw.length * kind.oldStep = oldEnd
    omega
  · show s.newLineNum + kind.newStep + raw.length * kind.newStep = newEnd
    omega

variable {lines raw : List Text}

theorem IsReady.foldl_push (h : IsReady parts kind oldEnd newEnd (lines ++ raw) s) :
    IsReady parts kind oldEnd newEnd raw (lines.foldl (DiffState.push kind) s) := by
  induction lines generalizing s with
  | nil => exact h
  | cons line lines ih => exact ih h.push

theorem IsReady.pass (h : IsReady parts .common oldEnd newEnd (lines ++ raw) s) :
    IsReady parts .common oldEnd newEnd raw (s.pass lines.length) := by
  have hoffset := h.offset
  have hold := h.oldEnd_eq
  have hnew := h.newEnd_eq
  have holdStep : PartKind.common.oldStep = 1 := rfl
  have hnewStep : PartKind.common.newStep = 1 := rfl
  rw [length_append, holdStep] at hold
  rw [length_append, hnewStep] at hnew
  refine ⟨?_, h.printed, fun j content hj => ?_, ?_, ?_⟩
  · show s.newLineNum + lines.length + removedCount s.output =
        s.oldLineNum + lines.length + addedCount s.output
    omega
  · have hget : (lines ++ raw)[lines.length + j]? = some content := by
      rw [getElem?_append_right (by omega), Nat.add_sub_cancel_left, hj]
    have hnext := h.next (lines.length + j) content hget
    show IsPartLine parts .common (s.oldLineNum + lines.length + j * 1)
      (s.newLineNum + lines.length + j * 1) content
    rw [holdStep, hnewStep, Nat.mul_one, ← Nat.add_assoc, ← Nat.add_assoc] at hnext
    rw [Nat.mul_one]
    exact hnext
  · show s.oldLineNum + lines.length + raw.length * 1 = oldEnd
    omega
  · show s.newLineNum + lines.length + raw.length * 1 = newEnd
    omega

theorem IsReady.skip (h : IsReady parts .common oldEnd newEnd (lines ++ raw) s) :
    IsReady parts .common oldEnd newEnd raw (s.skip lines.length) := by
  unfold DiffState.skip
  split
  · refine IsReady.pass ⟨?_, ?_, h.next, h.oldEnd_eq, h.newEnd_eq⟩
    · have hoffset := h.offset
      simpa [DiffLine.isKind] using hoffset
    · intro before line after heq
      have hline : DiffLine.IsPrinted parts s.output (.elided s.oldLineNum) := trivial
      exact printed_concat h.printed hline heq
  · next hzero =>
    obtain rfl := eq_nil_of_length_eq_zero (Nat.eq_zero_of_not_pos hzero)
    exact h

end DiffState

theorem contextBlock_spec (contextLimit : Nat) (lastWasChange nextPartIsChange : Bool)
    (raw : List Text) :
    let block := contextBlock contextLimit lastWasChange nextPartIsChange raw
    let firstChunkLength := block.firstChunkLength contextLimit
    ∃ leading middle trailing,
      raw = leading ++ (block.linesToShow.take firstChunkLength ++
        (middle ++ (block.linesToShow.drop firstChunkLength ++ trailing))) ∧
      leading.length = block.leadingSkip ∧ middle.length = block.middleSkip ∧
      trailing.length = block.trailingSkip := by
  unfold contextBlock
  split
  · split
    · next hlt =>
      have hfront : (raw.take contextLimit).length = contextLimit := by
        rw [length_take]
        omega
      have hback : (raw.drop (raw.length - contextLimit)).length = contextLimit := by
        rw [length_drop]
        omega
      have hmiddle : 0 < raw.length - contextLimit - contextLimit := by omega
      dsimp only [ContextBlock.firstChunkLength]
      rw [hfront, hback, if_pos hmiddle, take_left' hfront, drop_left' hfront]
      refine ⟨[], (raw.drop contextLimit).take (raw.length - contextLimit - contextLimit), [], ?_,
        rfl, ?_, rfl⟩
      · have hdrop : raw.drop (raw.length - contextLimit) =
            (raw.drop contextLimit).drop (raw.length - contextLimit - contextLimit) := by
          rw [drop_drop]
          congr 1
          omega
        rw [append_nil, hdrop, take_append_drop, nil_append, take_append_drop]
      · rw [length_take, length_drop]
        omega
    · exact ⟨[], [], [], by simp [ContextBlock.firstChunkLength], rfl, rfl, rfl⟩
  · split
    · dsimp only [ContextBlock.firstChunkLength]
      rw [if_neg (Nat.lt_irrefl 0), take_length, drop_length]
      refine ⟨raw.take (raw.length - contextLimit), [], [], ?_, ?_, rfl, rfl⟩
      · rw [append_nil, append_nil, append_nil, take_append_drop]
      · rw [length_take]
        omega
    · dsimp only [ContextBlock.firstChunkLength]
      rw [if_neg (Nat.lt_irrefl 0), take_length, drop_length]
      refine ⟨[], [], raw.drop contextLimit, ?_, rfl, rfl, length_drop⟩
      rw [nil_append, nil_append, nil_append, take_append_drop]

namespace DiffState

variable {parts : List DiffLinePart} {kind : PartKind} {oldEnd newEnd : Nat} {s : DiffState}

theorem IsReady.showContext {raw : List Text} (h : IsReady parts .common oldEnd newEnd raw s)
    (contextLimit : Nat) (nextPartIsChange : Bool) :
    IsReady parts .common oldEnd newEnd [] (s.showContext contextLimit nextPartIsChange raw) := by
  unfold DiffState.showContext
  split
  · obtain ⟨leading, middle, trailing, hraw, hleading, hmiddle, htrailing⟩ :=
      contextBlock_spec contextLimit s.lastWasChange nextPartIsChange raw
    dsimp only at hraw ⊢
    generalize contextBlock contextLimit s.lastWasChange nextPartIsChange raw = block at *
    rw [hraw] at h
    rw [← hleading, ← htrailing]
    have hfirst := h.skip.foldl_push
    rw [← append_nil trailing] at hfirst
    split
    · rw [← hmiddle]
      exact hfirst.skip.foldl_push.skip
    · next hzero =>
      have hnil : middle = [] := eq_nil_of_length_eq_zero (by omega)
      have hdrop : block.linesToShow.drop (block.firstChunkLength contextLimit) = [] := by
        rw [ContextBlock.firstChunkLength, if_neg hzero, drop_length]
      rw [hnil, hdrop, nil_append, nil_append] at hfirst
      exact hfirst.skip
  · rw [← append_nil raw] at h
    exact h.pass

def IsBetween (parts done : List DiffLinePart) (s : DiffState) : Prop :=
  IsReady parts .common ((oldLines done).length + 1) ((newLines done).length + 1) [] s

theorem IsReady.kind_irrel {kind' : PartKind} (h : IsReady parts kind oldEnd newEnd [] s) :
    IsReady parts kind' oldEnd newEnd [] s where
  offset := h.offset
  printed := h.printed
  next j content hj := by cases hj
  oldEnd_eq := by simpa using h.oldEnd_eq
  newEnd_eq := by simpa using h.newEnd_eq

variable {done rest : List DiffLinePart} {part : DiffLinePart}

theorem IsBetween.isReady (h : IsBetween (done ++ part :: rest) done s) :
    IsReady (done ++ part :: rest) part.kind ((oldLines (done ++ [part])).length + 1)
      ((newLines (done ++ [part])).length + 1) (partLines part.value) s := by
  have hold : s.oldLineNum = (oldLines done).length + 1 := by simpa using h.oldEnd_eq
  have hnew : s.newLineNum = (newLines done).length + 1 := by simpa using h.newEnd_eq
  refine ⟨h.offset, h.printed, fun j content hj => ?_, ?_, ?_⟩
  · rw [hold, hnew]
    exact ⟨done, part.value, rest, j, rfl, hj, rfl, rfl⟩
  · rw [oldLines_append, length_append, length_oldLines_singleton]
    omega
  · rw [newLines_append, length_append, length_newLines_singleton]
    omega

theorem IsBetween.printPart
    (h : IsBetween (done ++ part :: rest) done s) (contextLimit : Nat)
    (next : Option DiffLinePart) :
    IsBetween (done ++ part :: rest) (done ++ [part]) (s.printPart contextLimit next part) := by
  have hready := h.isReady
  unfold DiffState.printPart
  split
  · rw [← append_nil (partLines part.value)] at hready
    have hdone : IsReady (done ++ part :: rest) .common _ _ [] _ := hready.foldl_push.kind_irrel
    exact ⟨hdone.offset, hdone.printed, hdone.next, hdone.oldEnd_eq, hdone.newEnd_eq⟩
  · next hchange =>
    have hkind : part.kind = .common := by
      cases hkind : part.kind with
      | common => rfl
      | added | removed =>
        rw [hkind] at hchange
        exact absurd rfl hchange
    rw [hkind] at hready
    have hdone := hready.showContext contextLimit (next.any (·.kind.isChange))
    exact ⟨hdone.offset, hdone.printed, hdone.next, hdone.oldEnd_eq, hdone.newEnd_eq⟩

theorem IsBetween.printParts (h : IsBetween (done ++ rest) done s)
    (contextLimit : Nat) : IsBetween (done ++ rest) (done ++ rest)
    (s.printParts contextLimit rest) := by
  induction rest generalizing done s with
  | nil =>
    rw [append_nil] at h ⊢
    exact h
  | cons part rest ih =>
    have hnext := h.printPart contextLimit rest.head?
    rw [append_cons] at hnext ⊢
    exact ih hnext

theorem isBetween_start (parts : List DiffLinePart) : IsBetween parts [] start where
  offset := rfl
  printed before line after heq := by simp [start] at heq
  next j content hj := by cases hj
  oldEnd_eq := rfl
  newEnd_eq := rfl

end DiffState

theorem isPrinted_printedLines (diffLines : Text → Text → List DiffLinePart)
    {oldContent newContent : Text}
    {contextLines : Int} {before after : List DiffLine} {line : DiffLine}
    (heq : printedLines diffLines oldContent newContent contextLines = before ++ line :: after) :
    line.IsPrinted (diffLines oldContent newContent) before := by
  have hstart : DiffState.IsBetween ([] ++ diffLines oldContent newContent) [] .start :=
    DiffState.isBetween_start _
  exact (hstart.printParts contextLines.toNat).printed before line after heq

end Vibrato.Edit
