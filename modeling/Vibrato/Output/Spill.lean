import Vibrato.Ai.Message
import Vibrato.Output.TruncateBounds

/-! `spillLargeResultToArtifact` of `tools/output-meta.ts`: the inline view of a large tool result
and the truncation metadata that goes with it. -/

namespace Vibrato.Output

open Lib Text List Option

/-- `getSpillConfig`, in bytes and lines. -/
structure SpillConfig where
  threshold : Nat
  readThreshold : Nat
  tailBytes : Nat
  tailLines : Nat
  headBytes : Nat

/-- A tool result as the spill reads it: `artifactId` is that of a truncation the tool itself
made. -/
structure ToolResult where
  content : List Ai.Part
  spillEligible : Bool
  artifactId : Option Text

inductive SpillDirection where
  | middle
  | tail

structure LineRange where
  start : Nat
  stop : Nat
  deriving DecidableEq

structure TruncationMeta where
  direction : SpillDirection
  truncatedBy : TruncatedBy
  totalLines : Nat
  totalBytes : Nat
  outputLines : Nat
  outputBytes : Nat
  maxBytes : Nat
  headRange : Option LineRange := none
  tailRange : Option LineRange := none
  shownRange : Option LineRange := none
  elidedLines : Option Nat := none
  elidedBytes : Option Nat := none
  artifactId : Text

namespace SpillConfig

def middleOptions (c : SpillConfig) : TruncationOptions :=
  { maxBytes := some (c.headBytes + c.tailBytes)
    maxLines := some (c.tailLines * 2)
    maxHeadBytes := some c.headBytes
    maxHeadLines := some c.tailLines }

def tailOptions (c : SpillConfig) : TruncationOptions :=
  { maxBytes := some c.tailBytes
    maxLines := some c.tailLines }

end SpillConfig

section Spill

variable (formatMiddleElisionMarker : Nat → Nat → Text)

variable (c : SpillConfig)

def truncateForSpill (fullText : Text) : TruncationResult :=
  if 0 < c.headBytes then truncateMiddle formatMiddleElisionMarker fullText c.middleOptions
  else truncateTail fullText c.tailOptions

def truncationMeta (truncated : TruncationResult) (artifactId : Text) : TruncationMeta :=
  let outputLines := truncated.outputLines.getD truncated.totalLines
  let outputBytes := truncated.outputBytes.getD truncated.totalBytes
  if truncated.truncatedBy = some .middle then
    let keptLines := outputLines - 1
    let headLines := (keptLines + 1) / 2
    let tailLineCount := keptLines - headLines
    { direction := .middle
      truncatedBy := .middle
      totalLines := truncated.totalLines
      totalBytes := truncated.totalBytes
      outputLines
      outputBytes
      maxBytes := c.headBytes + c.tailBytes
      headRange := if 0 < headLines then some ⟨1, headLines⟩ else none
      tailRange :=
        if 0 < tailLineCount then some ⟨truncated.totalLines - tailLineCount + 1,
          truncated.totalLines⟩
        else none
      elidedLines := some (truncated.elidedLines.getD (truncated.totalLines - outputLines))
      elidedBytes := some (truncated.elidedBytes.getD (truncated.totalBytes - outputBytes))
      artifactId }
  else
    { direction := .tail
      truncatedBy := truncated.truncatedBy.getD .bytes
      totalLines := truncated.totalLines
      totalBytes := truncated.totalBytes
      outputLines
      outputBytes
      maxBytes := c.tailBytes
      shownRange := some ⟨truncated.totalLines - outputLines + 1, truncated.totalLines⟩
      artifactId }

def fullTextOf (content : List Ai.Part) : Text :=
  joinLines (content.filterMap fun
    | .text text => if text = [] then none else some text
    | .image .. => none)

def imagesOf (content : List Ai.Part) : List Ai.Part :=
  content.filter fun
    | .text _ => false
    | .image .. => true

/-- The content and the truncation metadata of a result that is spilled, or nothing if the result
stays as it is.  `saveArtifact` is the artifact capability of the session, if it has one. -/
def spillLargeResultToArtifact (saveArtifact : Option (Text → Text → Option Text))
    (toolName : Text) (result : ToolResult) : Option (List Ai.Part × TruncationMeta) :=
  if toolName = "read".toList ∧ result.spillEligible = false then none
  else
    saveArtifact.bind fun saveArtifact =>
      let effectiveThreshold := if toolName = "read".toList then c.readThreshold else c.threshold
      if effectiveThreshold = 0 ∨ result.artifactId.any (· ≠ []) then none
      else
        let fullText := fullTextOf result.content
        if byteLength fullText ≤ effectiveThreshold then none
        else
          (saveArtifact fullText toolName).bind fun artifactId =>
            if artifactId = [] then none
            else
              let truncated := truncateForSpill formatMiddleElisionMarker c fullText
              some (imagesOf result.content ++ [.text truncated.content],
                truncationMeta c truncated artifactId)

end Spill

/-- How an inline text is made from its source: of complete lines, and of an end of the last
line. -/
inductive View where
  | whole
  | first (lines : Nat)
  | last (lines : Nat)
  | part (cut : Text)
  | both (head tail : Nat) (marker : Text)
  | bothPart (head : Nat) (marker cut : Text)
  deriving DecidableEq

open View

namespace View

variable (source : Text)

def headText (lines : Nat) : Text := joinLines ((splitLines source).take lines)

def tailText (lines : Nat) : Text :=
  joinLines ((splitLines source).reverse.take lines).reverse

def text : View → Text
  | whole => source
  | first lines => headText source lines
  | last lines => tailText source lines
  | part cut => cut
  | both head tail marker =>
      headText source head ++ '\n' :: (marker ++ '\n' :: tailText source tail)
  | bothPart head marker cut => headText source head ++ '\n' :: (marker ++ '\n' :: cut)

def Shows (total : Nat) : View → Nat → Prop
  | whole, n => 1 ≤ n ∧ n ≤ total
  | first lines, n => 1 ≤ n ∧ n ≤ lines
  | last lines, n => total < n + lines ∧ n ≤ total
  | part _, _ => False
  | both head tail _, n => 1 ≤ n ∧ n ≤ head ∨ total < n + tail ∧ n ≤ total
  | bothPart head _ _, n => 1 ≤ n ∧ n ≤ head

def Appears (total : Nat) (view : View) (n : Nat) : Prop :=
  view.Shows total n ∨ n = total ∧
    match view with
    | part cut | bothPart _ _ cut => cut ≠ []
    | _ => False

end View

def LineRange.Covers (range : Option LineRange) (n : Nat) : Prop :=
  ∃ r ∈ range, r.start ≤ n ∧ n ≤ r.stop

/-- The metadata describe a view of the source: the lines in the ranges appear, the complete lines
that appear are in the ranges, and a tail is an end of the source. -/
structure Describes (source inline : Text) (view : View) (truncation : TruncationMeta) : Prop where
  shown : ∀ n, LineRange.Covers truncation.headRange n ∨ LineRange.Covers truncation.tailRange n ∨
    LineRange.Covers truncation.shownRange n → view.Appears (lineCount source) n
  covered : ∀ n, view.Shows (lineCount source) n → LineRange.Covers truncation.headRange n ∨
    LineRange.Covers truncation.tailRange n ∨ LineRange.Covers truncation.shownRange n
  direction : truncation.direction = .tail → inline <:+ source

/-- The number of lines from the start of a list that fit, with the newlines between them. -/
def fitLines (maxLines maxBytes : Nat) (lines : List Text) : Nat :=
  min maxLines (takeBudget (fun line => byteLength line + 1) (maxBytes + 1) lines).length

namespace SpillConfig

variable (c : SpillConfig) (source : Text)

def headFit : Nat := fitLines c.tailLines c.headBytes (splitLines source)

def tailFit : Nat := fitLines c.tailLines c.tailBytes (splitLines source).reverse

def lastPart : Text := (partialLine ((splitLines source).getLast?.getD []) c.tailBytes).text

/-- A view of the tail: whole, of complete lines, or of an end of the last line if that is too
long. -/
def tailView : View :=
  if lineCount source ≤ c.tailLines ∧ byteLength source ≤ c.tailBytes then .whole
  else if c.tailLines ≠ 0 ∧ c.tailFit source = 0 then .part (c.lastPart source)
  else .last (c.tailFit source)

def view (formatMiddleElisionMarker : Nat → Nat → Text) : View :=
  if c.headBytes = 0 then c.tailView source
  else if byteLength source ≤ c.headBytes + c.tailBytes ∧ lineCount source ≤ c.tailLines * 2 then
    .whole
  else if c.tailLines = 0 then .last 0
  else if c.tailBytes = 0 then .first (c.headFit source)
  else if c.headFit source = 0 then c.tailView source
  else if c.tailFit source = 0 then
    if lineCount source ≤ c.headFit source + 1 then .whole
    else
      .bothPart (c.headFit source)
        (formatMiddleElisionMarker (lineCount source - c.headFit source - 1)
          (byteLength source - byteLength (headText source (c.headFit source)) -
            byteLength (c.lastPart source)))
        (c.lastPart source)
  else if lineCount source ≤ c.headFit source + c.tailFit source then .whole
  else
    .both (c.headFit source) (c.tailFit source)
      (formatMiddleElisionMarker (lineCount source - c.headFit source - c.tailFit source)
        (byteLength source - byteLength (headText source (c.headFit source)) -
          byteLength (tailText source (c.tailFit source))))

end SpillConfig

/-- The ranges of the metadata fit a view: it has no head alone, of two windows the head has as many
lines as the tail or one more, and where the last line is cut something of it is left, behind at
most two lines. -/
def View.RangesFit : View → Prop
  | .whole | .last _ => True
  | .first lines => lines = 0
  | .part cut => cut ≠ []
  | .both head tail _ => head = tail ∨ head = tail + 1
  | .bothPart head _ cut => head ≤ 2 ∧ cut ≠ []

theorem utf16Length_le_byteLength (text : Text) : utf16Length text ≤ byteLength text := by
  induction text with
  | nil => exact Nat.le_refl 0
  | cons c text ih =>
    have hc := utf16Size_le_utf8Size c
    show totalWeight _ _ ≤ _
    rw [totalWeight_cons, byteLength_cons]
    have : totalWeight utf16Size text ≤ byteLength text := ih
    omega

variable {maxBytes maxLines : Nat} {st : Scan} {lines : List Text} {content kept : Text}
    {result : TruncationResult}

theorem scanLines_includedLines (lines : List Text) (hlines : st.includedLines ≤ maxLines) :
    (scanLines maxLines maxBytes lines st).includedLines = st.includedLines +
      min (maxLines - st.includedLines) (takeBudget (fun line => byteLength line + 1)
        (maxBytes + 1 - (st.bytesUsed + if 0 < st.includedLines then 1 else 0)) lines).length := by
  induction lines generalizing st with
  | nil => simp [scanLines, takeBudget]
  | cons line lines ih =>
    rw [scanLines]
    split
    · next hmore =>
      simp only
      generalize hsep : (if 0 < st.includedLines then 1 else 0) = sepBytes
      have hutf16 := utf16Length_le_byteLength line
      split
      · next hfull =>
        rw [takeBudget, if_neg (by omega)]
        simp
      split
      · next hroom hlong =>
        rw [takeBudget, if_neg (by omega)]
        simp
      · next hroom hfits =>
        have hrest := @ih
          { st with
            bytesUsed := st.bytesUsed + (sepBytes + byteLength line)
            includedLines := st.includedLines + 1 } hmore
        simp only [Nat.zero_lt_succ, if_true] at hrest
        rw [hrest, takeBudget, if_pos (by omega), length_cons,
          show maxBytes + 1 - (st.bytesUsed + (sepBytes + byteLength line) + 1) =
            maxBytes + 1 - (st.bytesUsed + sepBytes) - (byteLength line + 1) by omega]
        omega
    · next hfull =>
      rw [show maxLines - st.includedLines = 0 by omega]
      simp

theorem scan_includedLines (maxLines maxBytes : Nat) (lines : List Text) :
    (scan maxLines maxBytes lines).includedLines = fitLines maxLines maxBytes lines := by
  rw [scan, scanLines_includedLines lines (Nat.zero_le maxLines)]
  simp [fitLines]

theorem scan_rejected {line : Text} (hlines : maxLines ≠ 0)
    (hfit : fitLines maxLines maxBytes (line :: lines) = 0) :
    (scan maxLines maxBytes (line :: lines)).rejected = some line := by
  have hlong : ¬byteLength line + 1 ≤ maxBytes + 1 := by
    intro hle
    rw [fitLines, takeBudget, if_pos hle, length_cons] at hfit
    omega
  have hutf16 := utf16Length_le_byteLength line
  rw [scan, scanLines, if_pos (by show 0 < maxLines; omega)]
  simp only [Nat.lt_irrefl, if_false]
  rw [if_neg (by omega), if_pos (by omega)]

theorem scan_zero (maxBytes : Nat) (lines : List Text) :
    scan 0 maxBytes lines = ⟨0, 0, .lines, none⟩ := by
  cases lines with
  | nil => rfl
  | cons line lines => rfl

theorem fitLines_le_length (maxLines maxBytes : Nat) (lines : List Text) :
    fitLines maxLines maxBytes lines ≤ lines.length := by
  have hle := (takeBudget_isPrefix (fun line => byteLength line + 1) (maxBytes + 1) lines).length_le
  rw [fitLines]
  omega

theorem fits_of_fitLines_eq (hne : lines ≠ [])
    (h : fitLines maxLines maxBytes lines = lines.length) :
    lines.length ≤ maxLines ∧ byteLength (joinLines lines) ≤ maxBytes := by
  have hprefix := takeBudget_isPrefix (fun line => byteLength line + 1) (maxBytes + 1) lines
  have hle := hprefix.length_le
  rw [fitLines] at h
  have hall : takeBudget (fun line => byteLength line + 1) (maxBytes + 1) lines = lines :=
    hprefix.eq_of_length (by omega)
  have hweight := totalWeight_takeBudget_le (fun line => byteLength line + 1) (maxBytes + 1) lines
  rw [hall] at hweight
  have hsum : ∀ l : List Text, totalWeight (fun line => byteLength line + 1) l =
      totalWeight byteLength l + l.length := by
    intro l
    induction l with
    | nil => rfl
    | cons line l ih =>
      rw [totalWeight_cons, totalWeight_cons, length_cons]
      omega
  have hpos := length_pos_of_ne_nil hne
  rw [hsum] at hweight
  rw [byteLength_joinLines]
  omega

theorem scanLines_truncatedBy (lines : List Text)
    (h : st.truncatedBy ≠ .middle) :
    (scanLines maxLines maxBytes lines st).truncatedBy ≠ .middle := by
  induction lines generalizing st with
  | nil => exact h
  | cons line lines ih =>
    rw [scanLines]
    split
    · simp only
      generalize (if 0 < st.includedLines then 1 else 0) = sepBytes
      split
      · simp
      split
      · simp
      · exact ih h
    · exact h

theorem linesResult_truncatedBy (content kept : Text) (maxLines maxBytes : Nat)
    (lines : List Text) :
    (linesResult content kept maxLines maxBytes (scan maxLines maxBytes lines)).truncatedBy ≠
      some .middle := by
  have hscan : (scan maxLines maxBytes lines).truncatedBy ≠ .middle :=
    scanLines_truncatedBy lines (by decide)
  unfold linesResult
  split
  · simp
  · intro heq
    exact hscan (some.inj heq)

structure KeepsLines (source : Text) (result : TruncationResult) (kept : Text) (lines : Nat) :
    Prop where
  content : result.content = kept
  outputLines : result.outputLines = some lines
  truncatedBy : result.truncatedBy ≠ some .middle
  totalLines : result.totalLines = lineCount source
  lastLinePartial : result.lastLinePartial = false
  firstLineExceedsLimit : result.firstLineExceedsLimit = true → lines = 0
  outputBytes : result.outputBytes = some (byteLength kept)

theorem keepsLines_linesResult (content : Text) (maxLines maxBytes : Nat) (lines : List Text)
    (hkept : byteLength kept = (scan maxLines maxBytes lines).bytesUsed) :
    KeepsLines content (linesResult content kept maxLines maxBytes
      (scan maxLines maxBytes lines)) kept
      (fitLines maxLines maxBytes lines) :=
  ⟨rfl, congrArg some (scan_includedLines maxLines maxBytes lines),
    linesResult_truncatedBy content kept maxLines maxBytes lines, rfl, rfl, (by simp [linesResult]),
    congrArg some hkept.symm⟩

variable (h : ¬(lineCount content ≤ maxLines ∧ byteLength content ≤ maxBytes)) {source : Text}
include h

theorem truncateHeadTo_fit :
    KeepsLines content (truncateHeadTo content maxLines maxBytes)
      (headText content (fitLines maxLines maxBytes (splitLines content)))
      (fitLines maxLines maxBytes (splitLines content)) := by
  obtain ⟨-, -, -, hbytes⟩ := scan_spec maxLines maxBytes (splitLines content)
  unfold truncateHeadTo
  rw [if_neg h]
  dsimp only
  split
  · next hrejected =>
    have hfit : fitLines maxLines maxBytes (splitLines content) = 0 := by
      rw [← scan_includedLines]
      exact hrejected.1
    rw [hfit]
    exact ⟨rfl, rfl, by simp, rfl, rfl, fun _ => rfl, rfl⟩
  · rw [scan_includedLines] at hbytes ⊢
    exact keepsLines_linesResult content maxLines maxBytes (splitLines content) hbytes

theorem truncateTailTo_fit
    (hfit : ¬(maxLines ≠ 0 ∧ fitLines maxLines maxBytes (splitLines content).reverse = 0)) :
    KeepsLines content (truncateTailTo content maxLines maxBytes)
      (tailText content (fitLines maxLines maxBytes (splitLines content).reverse))
      (fitLines maxLines maxBytes (splitLines content).reverse) := by
  obtain ⟨-, -, -, hbytes⟩ := scan_spec maxLines maxBytes (splitLines content).reverse
  have hreverse :
      byteLength (tailText content (fitLines maxLines maxBytes (splitLines content).reverse)) =
      (scan maxLines maxBytes (splitLines content).reverse).bytesUsed := by
    rw [← hbytes, scan_includedLines, tailText, byteLength_joinLines, byteLength_joinLines,
      totalWeight_reverse, length_reverse]
  unfold truncateTailTo
  rw [if_neg h]
  dsimp only
  split
  · next line hzero hrejected =>
    rw [scan_includedLines] at hzero
    have hlines : maxLines = 0 := by
      by_contra hne
      exact hfit ⟨hne, hzero⟩
    rw [hlines, scan_zero] at hrejected
    cases hrejected
  · rw [scan_includedLines]
    exact keepsLines_linesResult content maxLines maxBytes (splitLines content).reverse hreverse

omit h

theorem truncateTailTo_part {content : Text} {maxLines maxBytes : Nat}
    (h : ¬(lineCount content ≤ maxLines ∧ byteLength content ≤ maxBytes)) (hlines : maxLines ≠ 0)
    (hfit : fitLines maxLines maxBytes (splitLines content).reverse = 0) :
    truncateTailTo content maxLines maxBytes =
      { content := (partialLine ((splitLines content).getLast?.getD []) maxBytes).text
        truncated := true
        truncatedBy := some .bytes
        totalLines := lineCount content
        totalBytes := byteLength content
        outputLines := some 1
        outputBytes := some (partialLine ((splitLines content).getLast?.getD []) maxBytes).bytes
        lastLinePartial := true
        lastLineExceedsLimit := true } := by
  obtain ⟨line, lines, hreverse⟩ : ∃ line lines, (splitLines content).reverse = line :: lines :=
    exists_cons_of_ne_nil fun hnil =>
      splitOn_ne_nil '\n' content (reverse_eq_nil_iff.1 hnil)
  have hlast : (splitLines content).getLast?.getD [] = line := by
    rw [← head?_reverse, hreverse]
    rfl
  have hincluded : (scan maxLines maxBytes (splitLines content).reverse).includedLines = 0 := by
    rw [scan_includedLines, hfit]
  have hrejected : (scan maxLines maxBytes (splitLines content).reverse).rejected = some line := by
    rw [hreverse] at hfit ⊢
    exact scan_rejected hlines hfit
  unfold truncateTailTo
  rw [if_neg h]
  simp only [hincluded, hrejected, hlast]

def View.outputLines (total : Nat) : View → Nat
  | .whole => total
  | .first lines | .last lines => lines
  | .part _ => 1
  | .both head tail _ => head + tail + 1
  | .bothPart head _ _ => head + 2

def View.isMiddle : View → Bool
  | .both .. | .bothPart .. => true
  | _ => false

/-- A result is the text of a view, with its number of lines. -/
structure Realizes (source : Text) (result : TruncationResult) (view : View) : Prop where
  content : result.content = view.text source
  totalLines : result.totalLines = lineCount source
  outputLines : result.outputLines.getD result.totalLines = view.outputLines (lineCount source)
  middle : result.truncatedBy = some .middle ↔ view.isMiddle = true

theorem realizes_noTruncResult (source : Text) : Realizes source (noTruncResult source) .whole :=
  ⟨rfl, rfl, rfl, by simp [noTruncResult, isMiddle]⟩

theorem KeepsLines.realizes {lines : Nat}
    (h : KeepsLines source result kept lines) {view : View} (htext : view.text source = kept)
    (hlines : view.outputLines (lineCount source) = lines) (hmiddle : view.isMiddle = false) :
    Realizes source result view := by
  refine ⟨h.content.trans htext.symm, h.totalLines, ?_, ?_⟩
  · rw [h.outputLines, hlines]
    rfl
  · rw [hmiddle]
    exact iff_of_false h.truncatedBy (by simp)

theorem bytes_partialLine (line : Text) (maxBytes : Nat) :
    (partialLine line maxBytes).bytes = byteLength (partialLine line maxBytes).text := by
  unfold partialLine
  split <;> rw [truncateTailBytes_eq]

theorem KeepsLines.makeReadSegment {lines : Nat}
    (h : KeepsLines source result kept lines) (hlines : lines ≠ 0) (startLine : Nat) :
    ∃ origin, makeReadSegment result startLine (lineCount source) source =
      some ⟨kept, lines, byteLength kept, origin, none⟩ := by
  unfold Output.makeReadSegment
  simp [outputLineCount, outputByteCount, h.outputLines, h.outputBytes, h.lastLinePartial,
    h.content, hlines]

theorem bothSided_eq_middle {head tail : TruncationResult} {headWindow tailWindow : ReadSegment}
    (hgap : ¬(lineCount source ≤ outputLineCount head + outputLineCount tail ∧
      tail.lastLinePartial = false))
    (hhead : makeReadSegment head 1 (lineCount source) source = some headWindow)
    (htail : makeReadSegment tail (lineCount source - outputLineCount tail + 1) (lineCount source)
      source = some tailWindow) :
    (bothSided source head tail).kind = .middle ∧
      (bothSided source head tail).head = some headWindow ∧
      (bothSided source head tail).tail = some tailWindow ∧
      (bothSided source head tail).totalLines = lineCount source ∧
      (bothSided source head tail).totalBytes = byteLength source ∧
      (tail.lastLinePartial = false → (bothSided source head tail).elidedBytes =
        byteLength source - outputByteCount head - outputByteCount tail) := by
  unfold bothSided
  rw [if_neg hgap, hhead, htail]
  refine ⟨rfl, rfl, rfl, rfl, rfl, fun hwhole => ?_⟩
  rw [hwhole]
  rfl

namespace SpillConfig

variable (c : SpillConfig) (source : Text)

theorem realizes_tailView : Realizes source (truncateTailTo source c.tailLines c.tailBytes)
    (c.tailView source) := by
  unfold tailView
  by_cases hfits : lineCount source ≤ c.tailLines ∧ byteLength source ≤ c.tailBytes
  · rw [if_pos hfits, truncateTailTo, if_pos hfits]
    exact realizes_noTruncResult source
  · rw [if_neg hfits]
    by_cases hpart : c.tailLines ≠ 0 ∧ c.tailFit source = 0
    · rw [if_pos hpart, truncateTailTo_part hfits hpart.1 hpart.2]
      exact ⟨rfl, rfl, rfl, by simp [isMiddle]⟩
    · rw [if_neg hpart]
      exact (truncateTailTo_fit hfits hpart).realizes rfl rfl rfl

def budgets : Budgets := ⟨c.headBytes + c.tailBytes, c.tailLines * 2, c.headBytes, c.tailLines⟩

theorem budgets_tailBytes : c.budgets.tailBytes = c.tailBytes :=
  Nat.add_sub_cancel_left c.headBytes c.tailBytes

theorem budgets_tailLines : c.budgets.tailLines = c.tailLines := by
  show c.tailLines * 2 - c.tailLines = c.tailLines
  omega

theorem ofOptions_middleOptions : Budgets.ofOptions c.middleOptions = c.budgets := rfl

section Kinds

variable {c source} {formatMiddleElisionMarker : Nat → Nat → Text}

theorem truncateMiddle_of_full (h : (middleWindows source c.budgets).kind = .full) :
    truncateMiddle formatMiddleElisionMarker source c.middleOptions = noTruncResult source := by
  simp only [truncateMiddle, truncateMiddleWindows, ofOptions_middleOptions, h]

theorem truncateMiddle_of_tailOnly (h : (middleWindows source c.budgets).kind = .tailOnly) :
    truncateMiddle formatMiddleElisionMarker source c.middleOptions =
      truncateTailTo source c.budgets.onlyTailLines c.budgets.onlyTailBytes := by
  simp only [truncateMiddle, truncateMiddleWindows, ofOptions_middleOptions, h]

theorem truncateMiddle_of_headOnly (h : (middleWindows source c.budgets).kind = .headOnly) :
    truncateMiddle formatMiddleElisionMarker source c.middleOptions =
      truncateHeadTo source c.tailLines c.headBytes := by
  simp only [truncateMiddle, truncateMiddleWindows, ofOptions_middleOptions, h]
  rfl

theorem truncateMiddle_of_middle {head tail : ReadSegment}
    (h : (middleWindows source c.budgets).kind = .middle)
    (hhead : (middleWindows source c.budgets).head = some head)
    (htail : (middleWindows source c.budgets).tail = some tail) :
    truncateMiddle formatMiddleElisionMarker source c.middleOptions =
      composeMiddle formatMiddleElisionMarker source
        (middleWindows source c.budgets) head tail := by
  simp only [truncateMiddle, truncateMiddleWindows, ofOptions_middleOptions, h, hhead, htail]

end Kinds

variable {c source} {formatMiddleElisionMarker : Nat → Nat → Text} {head tail : TruncationResult}

theorem realizes_both {windows : ReadWindow} {headKept tailKept : Text} {a b : Nat}
    (hhead : KeepsLines source head headKept a) (htail : KeepsLines source tail tailKept b)
    (ha : a ≠ 0) (hb : b ≠ 0) (hgap : a + b < lineCount source)
    (hwindows : windows = bothSided source head tail) {view : View}
    (htext : view.text source = headKept ++ '\n' :: (formatMiddleElisionMarker
      (lineCount source - a - b) (byteLength source - byteLength headKept - byteLength tailKept) ++
      '\n' :: tailKept))
    (hlines : view.outputLines (lineCount source) = a + b + 1) (hmiddle : view.isMiddle = true) :
    windows.kind = .middle ∧ ∃ headWindow tailWindow, windows.head = some headWindow ∧
      windows.tail = some tailWindow ∧ Realizes source
        (composeMiddle formatMiddleElisionMarker source windows headWindow tailWindow) view := by
  have hheadLines : outputLineCount head = a := by simp [outputLineCount, hhead.outputLines]
  have htailLines : outputLineCount tail = b := by simp [outputLineCount, htail.outputLines]
  have hheadBytes : outputByteCount head = byteLength headKept := by
    simp [outputByteCount, hhead.outputBytes]
  have htailBytes : outputByteCount tail = byteLength tailKept := by
    simp [outputByteCount, htail.outputBytes]
  obtain ⟨headOrigin, hheadWindow⟩ := hhead.makeReadSegment ha 1
  obtain ⟨tailOrigin, htailWindow⟩ :=
    htail.makeReadSegment hb (lineCount source - outputLineCount tail + 1)
  obtain ⟨hkind, hwindowHead, hwindowTail, htotalLines, -, helided⟩ :=
    bothSided_eq_middle (by omega) hheadWindow htailWindow
  rw [← hwindows] at hkind hwindowHead hwindowTail htotalLines helided
  refine ⟨hkind, _, _, hwindowHead, hwindowTail, ?_⟩
  unfold composeMiddle
  rw [if_neg (by dsimp only; omega)]
  refine ⟨?_, htotalLines, ?_, ?_⟩
  · rw [htext, htotalLines, helided htail.lastLinePartial, hheadBytes, htailBytes]
    rfl
  · exact hlines.symm
  · rw [hmiddle]
    exact iff_of_true rfl rfl

theorem realizes_bothPart {windows : ReadWindow} {headKept cut : Text} {a : Nat}
    (hhead : KeepsLines source head headKept a) (ha : a ≠ 0) (htailContent : tail.content = cut)
    (htailLines : tail.outputLines = some 1) (htailBytes : tail.outputBytes = some (byteLength cut))
    (hpart : tail.lastLinePartial = true) (hwindows : windows = bothSided source head tail)
    {view : View} (htext : view.text source = headKept ++ '\n' :: (formatMiddleElisionMarker
      (lineCount source - a - 1) (byteLength source - byteLength headKept - byteLength cut) ++
      '\n' :: cut))
    (hlines : view.outputLines (lineCount source) = a + 2) (hmiddle : view.isMiddle = true) :
    windows.kind = .middle ∧ ∃ headWindow tailWindow, windows.head = some headWindow ∧
      windows.tail = some tailWindow ∧ Realizes source
        (composeMiddle formatMiddleElisionMarker source windows headWindow tailWindow)
        (if lineCount source ≤ a + 1 then .whole else view) := by
  obtain ⟨headOrigin, hheadWindow⟩ := hhead.makeReadSegment ha 1
  obtain ⟨tailOrigin, htailWindow⟩ : ∃ origin, makeReadSegment tail
      (lineCount source - outputLineCount tail + 1) (lineCount source) source =
      some ⟨cut, 1, byteLength cut, origin, some (lastSourceLineBytes source)⟩ := by
    unfold makeReadSegment
    simp [outputLineCount, outputByteCount, htailLines, htailBytes, hpart, htailContent]
  obtain ⟨hkind, hwindowHead, hwindowTail, htotalLines, htotalBytes, -⟩ :=
    bothSided_eq_middle (by simp [hpart]) hheadWindow htailWindow
  rw [← hwindows] at hkind hwindowHead hwindowTail htotalLines htotalBytes
  refine ⟨hkind, _, _, hwindowHead, hwindowTail, ?_⟩
  unfold composeMiddle
  rw [htotalLines, htotalBytes]
  by_cases hmeets : lineCount source ≤ a + 1
  · rw [if_pos hmeets, if_pos hmeets]
    exact realizes_noTruncResult source
  · rw [if_neg hmeets, if_neg hmeets]
    refine ⟨?_, rfl, hlines.symm, ?_⟩
    · rw [htext]
      rfl
    · rw [hmiddle]
      exact iff_of_true rfl rfl

section Middle

variable (hwhole : ¬(byteLength source ≤ c.headBytes + c.tailBytes ∧
    lineCount source ≤ c.tailLines * 2))
include hwhole

theorem realizes_noLines (hnoLines : c.tailLines = 0)
    (formatMiddleElisionMarker : Nat → Nat → Text) :
    Realizes source (truncateMiddle formatMiddleElisionMarker source c.middleOptions)
      (.last 0) := by
  have hkind : (middleWindows source c.budgets).kind = .tailOnly := by
    unfold middleWindows
    rw [if_neg (show ¬(byteLength source ≤ c.budgets.maxBytes ∧
      lineCount source ≤ c.budgets.maxLines) from hwhole), if_pos (.inr hnoLines)]
    rfl
  have hlines : c.budgets.onlyTailLines = 0 := by
    rw [Budgets.onlyTailLines, budgets_tailLines, if_pos hnoLines]
    show c.tailLines * 2 = 0
    omega
  have hpositive : ¬(lineCount source ≤ 0 ∧ byteLength source ≤ c.budgets.onlyTailBytes) := by
    rw [lineCount]
    omega
  have hkeeps := truncateTailTo_fit hpositive (by simp)
  have hzero : fitLines 0 c.budgets.onlyTailBytes (splitLines source).reverse = 0 := by
    simp [fitLines]
  rw [truncateMiddle_of_tailOnly hkind, hlines]
  exact hkeeps.realizes rfl rfl rfl

theorem keepsLines_head : KeepsLines source (truncateHeadTo source c.tailLines c.headBytes)
    (headText source (c.headFit source)) (c.headFit source) :=
  truncateHeadTo_fit (by omega)

theorem outputLineCount_head :
    outputLineCount (truncateHeadTo source c.tailLines c.headBytes) = c.headFit source := by
  simp [outputLineCount, (keepsLines_head hwhole).outputLines]

variable (hheadBytes : c.headBytes ≠ 0)
include hheadBytes

theorem realizes_headOnly (hnoLines : c.tailLines ≠ 0)
    (hnoTail : c.tailBytes = 0) (formatMiddleElisionMarker : Nat → Nat → Text) :
    Realizes source (truncateMiddle formatMiddleElisionMarker source c.middleOptions)
      (.first (c.headFit source)) := by
  have hkind : (middleWindows source c.budgets).kind = .headOnly := by
    unfold middleWindows
    rw [if_neg (show ¬(byteLength source ≤ c.budgets.maxBytes ∧
      lineCount source ≤ c.budgets.maxLines) from
      hwhole), if_neg (show ¬(c.budgets.headBytes = 0 ∨ c.budgets.headLines = 0) from
      not_or.2 ⟨hheadBytes, hnoLines⟩), if_pos (.inl (c.budgets_tailBytes.trans hnoTail))]
    rfl
  rw [truncateMiddle_of_headOnly hkind]
  exact (keepsLines_head hwhole).realizes rfl rfl rfl

theorem middleWindows_eq (hnoLines : c.tailLines ≠ 0) (hnoTail : c.tailBytes ≠ 0) :
    middleWindows source c.budgets =
      if outputLineCount (truncateHeadTo source c.tailLines c.headBytes) = 0 ∨
          (truncateHeadTo source c.tailLines c.headBytes).firstLineExceedsLimit then
        oneSided source .tailOnly (truncateTailTo source c.tailLines c.tailBytes)
          (lineCount source - outputLineCount (truncateTailTo source c.tailLines c.tailBytes) + 1)
      else if outputLineCount (truncateTailTo source c.tailLines c.tailBytes) = 0 then
        oneSided source .headOnly (truncateHeadTo source c.tailLines c.headBytes) 1
      else bothSided source (truncateHeadTo source c.tailLines c.headBytes)
        (truncateTailTo source c.tailLines c.tailBytes) := by
  have htailBudget : ¬(c.budgets.tailBytes = 0 ∨ c.budgets.tailLines = 0) := by
    rw [budgets_tailBytes, budgets_tailLines]
    omega
  unfold middleWindows
  rw [if_neg (show ¬(byteLength source ≤ c.budgets.maxBytes ∧
    lineCount source ≤ c.budgets.maxLines) from
    hwhole), if_neg (show ¬(c.budgets.headBytes = 0 ∨ c.budgets.headLines = 0) from
    not_or.2 ⟨hheadBytes, hnoLines⟩), if_neg htailBudget, budgets_tailBytes, budgets_tailLines]
  rfl

theorem realizes_noHead (hnoLines : c.tailLines ≠ 0) (hnoTail : c.tailBytes ≠ 0)
    (hnoHead : c.headFit source = 0)
    (formatMiddleElisionMarker : Nat → Nat → Text) :
    Realizes source (truncateMiddle formatMiddleElisionMarker source c.middleOptions)
      (c.tailView source) := by
  have hwindows := middleWindows_eq hwhole hheadBytes hnoLines hnoTail
  rw [if_pos (.inl ((outputLineCount_head hwhole).trans hnoHead))] at hwindows
  have hlines : c.budgets.onlyTailLines = c.tailLines := by
    rw [Budgets.onlyTailLines, budgets_tailLines, if_neg hnoLines]
  have hbytes : c.budgets.onlyTailBytes = c.tailBytes := by
    rw [Budgets.onlyTailBytes, budgets_tailBytes, if_neg hnoTail]
  rw [truncateMiddle_of_tailOnly (by rw [hwindows]; rfl), hlines, hbytes]
  exact realizes_tailView c source

omit hheadBytes

section TwoEnds

variable (hheadBytes : c.headBytes ≠ 0) (hnoLines : c.tailLines ≠ 0) (hnoTail : c.tailBytes ≠ 0)
  (hnoHead : c.headFit source ≠ 0)
include hheadBytes hnoLines hnoTail hnoHead

theorem middleWindows_of_head :
    middleWindows source c.budgets =
      if outputLineCount (truncateTailTo source c.tailLines c.tailBytes) = 0 then
        oneSided source .headOnly (truncateHeadTo source c.tailLines c.headBytes) 1
      else bothSided source (truncateHeadTo source c.tailLines c.headBytes)
        (truncateTailTo source c.tailLines c.tailBytes) := by
  have husable : ¬(outputLineCount (truncateHeadTo source c.tailLines c.headBytes) = 0 ∨
      (truncateHeadTo source c.tailLines c.headBytes).firstLineExceedsLimit = true) := by
    rintro (hzero | hexceeds)
    · exact hnoHead ((outputLineCount_head hwhole).symm.trans hzero)
    · exact hnoHead ((keepsLines_head hwhole).firstLineExceedsLimit hexceeds)
  rw [middleWindows_eq hwhole hheadBytes hnoLines hnoTail, if_neg husable]

theorem realizes_cutTail (hpart : c.tailFit source = 0)
    (formatMiddleElisionMarker : Nat → Nat → Text) :
    Realizes source (truncateMiddle formatMiddleElisionMarker source c.middleOptions)
      (if lineCount source ≤ c.headFit source + 1 then .whole
      else .bothPart (c.headFit source)
        (formatMiddleElisionMarker (lineCount source - c.headFit source - 1)
          (byteLength source - byteLength (headText source (c.headFit source)) -
            byteLength (c.lastPart source)))
        (c.lastPart source)) := by
  have htailResult := @truncateTailTo_part source c.tailLines c.tailBytes (by omega) hnoLines hpart
  have hwindows := middleWindows_of_head hwhole hheadBytes hnoLines hnoTail hnoHead
  rw [if_neg (by rw [htailResult]; simp [outputLineCount])] at hwindows
  obtain ⟨hkind, headWindow, tailWindow, hwindowHead, hwindowTail, hrealizes⟩ :=
    @realizes_bothPart source formatMiddleElisionMarker _ _ _ _ (c.lastPart source) _
      (keepsLines_head hwhole) hnoHead (by rw [htailResult]; rfl) (by rw [htailResult])
      (by rw [htailResult, lastPart, ← bytes_partialLine]) (by rw [htailResult]) hwindows
      (.bothPart (c.headFit source) _ (c.lastPart source)) rfl rfl rfl
  rw [truncateMiddle_of_middle hkind hwindowHead hwindowTail]
  exact hrealizes

theorem realizes_completeTail (hpart : c.tailFit source ≠ 0)
    (formatMiddleElisionMarker : Nat → Nat → Text) :
    Realizes source (truncateMiddle formatMiddleElisionMarker source c.middleOptions)
      (if lineCount source ≤ c.headFit source + c.tailFit source then .whole
      else .both (c.headFit source) (c.tailFit source)
        (formatMiddleElisionMarker (lineCount source - c.headFit source - c.tailFit source)
          (byteLength source - byteLength (headText source (c.headFit source)) -
            byteLength (tailText source (c.tailFit source))))) := by
  have htailKeeps : KeepsLines source (truncateTailTo source c.tailLines c.tailBytes)
      (tailText source (c.tailFit source)) (c.tailFit source) :=
    truncateTailTo_fit (by omega) fun h => hpart h.2
  have htailLines : outputLineCount (truncateTailTo source c.tailLines c.tailBytes) =
      c.tailFit source := by simp [outputLineCount, htailKeeps.outputLines]
  have hwindows := middleWindows_of_head hwhole hheadBytes hnoLines hnoTail hnoHead
  rw [if_neg (by rw [htailLines]; exact hpart)] at hwindows
  by_cases hmeets : lineCount source ≤ c.headFit source + c.tailFit source
  · have hkind : (middleWindows source c.budgets).kind = .full := by
      rw [hwindows]
      unfold bothSided
      rw [if_pos ⟨by rw [outputLineCount_head hwhole, htailLines]; exact hmeets,
        htailKeeps.lastLinePartial⟩]
      rfl
    rw [if_pos hmeets, truncateMiddle_of_full hkind]
    exact realizes_noTruncResult source
  · obtain ⟨hkind, headWindow, tailWindow, hwindowHead, hwindowTail, hrealizes⟩ :=
      @realizes_both source formatMiddleElisionMarker _ _ _ _ _ _ _ (keepsLines_head hwhole)
        htailKeeps
        hnoHead hpart (by omega) hwindows
          (.both (c.headFit source) (c.tailFit source) _) rfl rfl rfl
    rw [if_neg hmeets, truncateMiddle_of_middle hkind hwindowHead hwindowTail]
    exact hrealizes

end TwoEnds

end Middle

theorem realizes_middle (hheadBytes : c.headBytes ≠ 0)
    (formatMiddleElisionMarker : Nat → Nat → Text) :
    Realizes source (truncateMiddle formatMiddleElisionMarker source c.middleOptions)
      (c.view source formatMiddleElisionMarker) := by
  unfold view
  rw [if_neg hheadBytes]
  by_cases hwhole : byteLength source ≤ c.headBytes + c.tailBytes ∧
    lineCount source ≤ c.tailLines * 2
  · have hwindows : middleWindows source c.budgets = fullReadWindow source .disjoint :=
      if_pos hwhole
    rw [if_pos hwhole, truncateMiddle_of_full (by rw [hwindows]; rfl)]
    exact realizes_noTruncResult source
  rw [if_neg hwhole]
  by_cases hnoLines : c.tailLines = 0
  · rw [if_pos hnoLines]
    exact realizes_noLines hwhole hnoLines formatMiddleElisionMarker
  rw [if_neg hnoLines]
  by_cases hnoTail : c.tailBytes = 0
  · rw [if_pos hnoTail]
    exact realizes_headOnly hwhole hheadBytes hnoLines hnoTail formatMiddleElisionMarker
  rw [if_neg hnoTail]
  by_cases hnoHead : c.headFit source = 0
  · rw [if_pos hnoHead]
    exact realizes_noHead hwhole hheadBytes hnoLines hnoTail hnoHead formatMiddleElisionMarker
  rw [if_neg hnoHead]
  by_cases hpart : c.tailFit source = 0
  · rw [if_pos hpart]
    exact realizes_cutTail hwhole hheadBytes hnoLines hnoTail hnoHead hpart
      formatMiddleElisionMarker
  · rw [if_neg hpart]
    exact realizes_completeTail hwhole hheadBytes hnoLines hnoTail hnoHead hpart
      formatMiddleElisionMarker

theorem realizes_view (formatMiddleElisionMarker : Nat → Nat → Text) :
    Realizes source (truncateForSpill formatMiddleElisionMarker c source)
      (c.view source formatMiddleElisionMarker) := by
  unfold truncateForSpill
  by_cases hhead : c.headBytes = 0
  · rw [if_neg (by omega), view, if_pos hhead]
    exact realizes_tailView c source
  · rw [if_pos (by omega)]
    exact realizes_middle hhead formatMiddleElisionMarker

end SpillConfig

def TruncationMeta.Covers (truncation : TruncationMeta) (n : Nat) : Prop :=
  LineRange.Covers truncation.headRange n ∨ LineRange.Covers truncation.tailRange n ∨
    LineRange.Covers truncation.shownRange n

variable {n start stop : Nat} {c : SpillConfig} {truncated : TruncationResult}

theorem LineRange.covers_some : LineRange.Covers (some ⟨start, stop⟩) n ↔ start ≤ n ∧ n ≤ stop := by
  simp [LineRange.Covers]

theorem LineRange.not_covers_none : ¬LineRange.Covers none n := by
  simp [LineRange.Covers]

theorem LineRange.covers_ite {p : Prop} [Decidable p] :
    LineRange.Covers (if p then some ⟨start, stop⟩ else none) n ↔ p ∧ start ≤ n ∧ n ≤ stop := by
  split
  · next hp => simp [LineRange.Covers, hp]
  · next hp => simp [LineRange.Covers, hp]

theorem covers_tail {artifactId : Text} (h : truncated.truncatedBy ≠ some .middle) (n : Nat) :
    (truncationMeta c truncated artifactId).Covers n ↔
      truncated.totalLines - truncated.outputLines.getD truncated.totalLines + 1 ≤ n ∧
        n ≤ truncated.totalLines := by
  unfold TruncationMeta.Covers truncationMeta
  rw [if_neg h]
  simp only [LineRange.not_covers_none, false_or, LineRange.covers_some]

theorem covers_middle {artifactId : Text} {kept : Nat} (h : truncated.truncatedBy = some .middle)
    (hkept : truncated.outputLines.getD truncated.totalLines = kept + 1) (n : Nat) :
    (truncationMeta c truncated artifactId).Covers n ↔ 1 ≤ n ∧ n ≤ (kept + 1) / 2 ∨
      truncated.totalLines - (kept - (kept + 1) / 2) + 1 ≤ n ∧ n ≤ truncated.totalLines ∧
        0 < kept - (kept + 1) / 2 := by
  unfold TruncationMeta.Covers truncationMeta
  rw [if_pos h, hkept]
  simp only [LineRange.not_covers_none, or_false, LineRange.covers_ite]
  constructor
  · rintro (hhead | htail)
    · exact .inl hhead.2
    · exact .inr ⟨htail.2.1, htail.2.2, htail.1⟩
  · rintro (hhead | htail)
    · exact .inl ⟨by omega, hhead⟩
    · exact .inr ⟨htail.2.2, htail.1, htail.2.1⟩

theorem direction_truncationMeta (c : SpillConfig) (truncated : TruncationResult)
    (artifactId : Text) :
    (truncationMeta c truncated artifactId).direction = .tail ↔
      truncated.truncatedBy ≠ some .middle := by
  unfold truncationMeta
  split
  · next h => simp [h]
  · next h => simp [h]

theorem tailText_isSuffix (source : Text) (lines : Nat) : tailText source lines <:+ source := by
  have hsuffix : ((splitLines source).reverse.take lines).reverse <:+ splitLines source := by
    rw [← reverse_prefix, reverse_reverse]
    exact take_prefix lines _
  obtain ⟨above, habove⟩ := hsuffix
  unfold tailText
  by_cases hnil : ((splitLines source).reverse.take lines).reverse = []
  · rw [hnil]
    exact nil_suffix
  · refine ⟨above.flatMap (· ++ ['\n']), ?_⟩
    rw [← joinLines_append_left above hnil, habove, joinLines_splitLines]

def View.WellFormed (source : Text) : View → Prop
  | .whole => True
  | .first lines => lines < lineCount source
  | .last lines => lines ≤ lineCount source
  | .part cut => cut <:+ source
  | .both head tail _ => 0 < head ∧ 0 < tail ∧ head + tail < lineCount source
  | .bothPart head _ _ => 0 < head ∧ head + 1 < lineCount source

section Ranges

variable {source : Text} {truncated : TruncationResult} {c : SpillConfig} {artifactId : Text}
    {view : View}

theorem Realizes.describes_iff_covers (h : Realizes source truncated view) :
    Describes source truncated.content view (truncationMeta c truncated artifactId) ↔
      (∀ n, (truncationMeta c truncated artifactId).Covers n → view.Appears (lineCount source) n) ∧
        (∀ n, view.Shows (lineCount source) n → (truncationMeta c truncated artifactId).Covers n) ∧
        (truncated.truncatedBy ≠ some .middle → view.text source <:+ source) := by
  rw [h.content]
  constructor
  · intro hdescribes
    refine ⟨hdescribes.shown, hdescribes.covered, fun hmiddle => hdescribes.direction ?_⟩
    exact (direction_truncationMeta c truncated artifactId).2 hmiddle
  · rintro ⟨hshown, hcovered, hsuffix⟩
    refine ⟨hshown, hcovered, fun hdirection => hsuffix ?_⟩
    exact (direction_truncationMeta c truncated artifactId).1 hdirection

theorem Realizes.covers_one (h : Realizes source truncated view) (hone : view.isMiddle = false)
    (n : Nat) :
    (truncationMeta c truncated artifactId).Covers n ↔
      lineCount source - view.outputLines (lineCount source) + 1 ≤ n ∧ n ≤ lineCount source := by
  have hmiddle : truncated.truncatedBy ≠ some .middle := by
    intro hmiddle
    rw [h.middle.1 hmiddle] at hone
    cases hone
  rw [covers_tail hmiddle, h.outputLines, h.totalLines]

theorem Realizes.covers_two (h : Realizes source truncated view)
    (htwo : view.isMiddle = true) {kept : Nat}
    (hkept : view.outputLines (lineCount source) = kept + 1)
    (n : Nat) :
    (truncationMeta c truncated artifactId).Covers n ↔ 1 ≤ n ∧ n ≤ (kept + 1) / 2 ∨
      lineCount source - (kept - (kept + 1) / 2) + 1 ≤ n ∧ n ≤ lineCount source ∧
        0 < kept - (kept + 1) / 2 := by
  rw [covers_middle (h.middle.2 htwo) (h.outputLines.trans hkept), h.totalLines]

theorem Realizes.describes_of_covers (h : Realizes source truncated view)
    (hranges : ∀ n, (truncationMeta c truncated artifactId).Covers n ↔
      view.Shows (lineCount source) n)
    (hsuffix : truncated.truncatedBy ≠ some .middle → view.text source <:+ source) :
    Describes source truncated.content view (truncationMeta c truncated artifactId) :=
  h.describes_iff_covers.2
    ⟨fun n hn => .inl ((hranges n).1 hn), fun n hn => (hranges n).2 hn, hsuffix⟩

theorem describes_whole (h : Realizes source truncated .whole) :
    Describes source truncated.content .whole (truncationMeta c truncated artifactId) := by
  refine h.describes_of_covers (fun n => ?_) fun _ => suffix_refl source
  rw [h.covers_one rfl]
  show lineCount source - lineCount source + 1 ≤ n ∧ n ≤ lineCount source ↔
      1 ≤ n ∧ n ≤ lineCount source
  omega

variable {head lines : Nat} {cut marker : Text}

theorem describes_first_iff (h : Realizes source truncated (.first lines))
    (hlt : lines < lineCount source) :
    Describes source truncated.content (.first lines) (truncationMeta c truncated artifactId) ↔
      lines = 0 := by
  constructor
  · intro hdescribes
    by_contra hne
    have hcover := hdescribes.covered 1 ⟨Nat.le_refl 1, Nat.pos_of_ne_zero hne⟩
    have hstart : lineCount source - lines + 1 ≤ 1 := ((h.covers_one rfl 1).1 hcover).1
    omega
  · rintro rfl
    refine h.describes_of_covers (fun n => ?_) fun _ => nil_suffix
    rw [h.covers_one rfl]
    show lineCount source - 0 + 1 ≤ n ∧ n ≤ lineCount source ↔ 1 ≤ n ∧ n ≤ 0
    omega

theorem describes_last (h : Realizes source truncated (.last lines))
    (hle : lines ≤ lineCount source) :
    Describes source truncated.content (.last lines) (truncationMeta c truncated artifactId) := by
  have hpositive : 0 < lineCount source := Nat.succ_pos _
  refine h.describes_of_covers (fun n => ?_) fun _ => tailText_isSuffix source lines
  rw [h.covers_one rfl]
  show lineCount source - lines + 1 ≤ n ∧ n ≤ lineCount source ↔
      lineCount source < n + lines ∧ n ≤ lineCount source
  omega

theorem describes_part_iff (h : Realizes source truncated (.part cut)) (hsuffix : cut <:+ source) :
    Describes source truncated.content (.part cut) (truncationMeta c truncated artifactId) ↔
      cut ≠ [] := by
  have hpositive : 0 < lineCount source := Nat.succ_pos _
  have hcovers : ∀ n, (truncationMeta c truncated artifactId).Covers n ↔ n = lineCount source := by
    intro n
    rw [h.covers_one rfl]
    show lineCount source - 1 + 1 ≤ n ∧ n ≤ lineCount source ↔ _
    omega
  rw [h.describes_iff_covers]
  constructor
  · rintro ⟨hshown, -, -⟩
    rcases hshown _ ((hcovers _).2 rfl) with hwhole | ⟨-, hcut⟩
    · exact absurd hwhole fun h => h
    · exact hcut
  · intro hcut
    exact ⟨fun n hn => .inr ⟨(hcovers n).1 hn, hcut⟩, fun n hn => absurd hn fun h => h,
      fun _ => hsuffix⟩

theorem describes_both_iff {tail : Nat}
    (h : Realizes source truncated (.both head tail marker)) (hhead : 0 < head) (htail : 0 < tail)
    (hgap : head + tail < lineCount source) :
    Describes source truncated.content (.both head tail marker)
      (truncationMeta c truncated artifactId) ↔ head = tail ∨ head = tail + 1 := by
  have hcovers := @Realizes.covers_two source truncated c artifactId _ h rfl (head + tail) rfl
  constructor
  · intro hdescribes
    -- The last line of the head is in a range, and the first line that is not shown is in none.
    have hlast := (hcovers head).1 (hdescribes.covered head (.inl ⟨hhead, Nat.le_refl head⟩))
    have hnext : ¬(truncationMeta c truncated artifactId).Covers (head + 1) := by
      intro hcover
      rcases hdescribes.shown _ hcover with hwhole | ⟨-, hcut⟩
      · have hwhole' : 1 ≤ head + 1 ∧ head + 1 ≤ head ∨
          lineCount source < head + 1 + tail ∧ head + 1 ≤ lineCount source := hwhole
        omega
      · exact hcut
    rw [hcovers] at hnext
    omega
  · intro hfit
    refine h.describes_of_covers (fun n => ?_) fun hne => absurd (h.middle.2 rfl) hne
    rw [hcovers]
    show _ ↔ 1 ≤ n ∧ n ≤ head ∨ lineCount source < n + tail ∧ n ≤ lineCount source
    omega

theorem describes_bothPart_iff (h : Realizes source truncated (.bothPart head marker cut))
    (hhead : 0 < head)
    (hgap : head + 1 < lineCount source) :
    Describes source truncated.content (.bothPart head marker cut)
      (truncationMeta c truncated artifactId) ↔ head ≤ 2 ∧ cut ≠ [] := by
  have hcovers := @Realizes.covers_two source truncated c artifactId _ h rfl (head + 1) rfl
  have happears : ∀ n, View.Appears (lineCount source) (.bothPart head marker cut) n ↔
      1 ≤ n ∧ n ≤ head ∨ n = lineCount source ∧ cut ≠ [] := fun n => Iff.rfl
  rw [h.describes_iff_covers]
  constructor
  · rintro ⟨hshown, hcovered, -⟩
    have hlast := (hcovers head).1 (hcovered head ⟨hhead, Nat.le_refl head⟩)
    have hend := (happears _).1 (hshown (lineCount source) ((hcovers _).2 (by omega)))
    have htwoLines : head ≤ 2 := by
      by_contra hmore
      -- Behind three lines the second range starts above the last line.
      have hbefore := (happears _).1 (hshown (lineCount source - 1) ((hcovers _).2 (by omega)))
      omega
    refine ⟨htwoLines, ?_⟩
    rcases hend with hwhole | hcut
    · omega
    · exact hcut.2
  · rintro ⟨htwoLines, hcut⟩
    refine ⟨fun n hn => (happears n).2 ?_, fun n hn => (hcovers n).2 ?_,
      fun hne => absurd (h.middle.2 rfl) hne⟩
    · have hn' := (hcovers n).1 hn
      by_cases hlast : n = lineCount source
      · exact .inr ⟨hlast, hcut⟩
      · left
        omega
    · have hn' : 1 ≤ n ∧ n ≤ head := hn
      omega

theorem describes_iff (h : Realizes source truncated view)
    (hview : view.WellFormed source) (c : SpillConfig) (artifactId : Text) :
    Describes source truncated.content view (truncationMeta c truncated artifactId) ↔
      view.RangesFit := by
  cases view with
  | whole => exact iff_of_true (describes_whole h) trivial
  | first lines => exact describes_first_iff h hview
  | last lines => exact iff_of_true (describes_last h hview) trivial
  | part cut => exact describes_part_iff h hview
  | both head tail marker => exact describes_both_iff h hview.1 hview.2.1 hview.2.2
  | bothPart head marker cut => exact describes_bothPart_iff h hview.1 hview.2

end Ranges

namespace SpillConfig

theorem headFit_lt {c : SpillConfig} {source : Text}
    (h : ¬(lineCount source ≤ c.tailLines ∧ byteLength source ≤ c.headBytes)) :
    c.headFit source < lineCount source := by
  have hne : splitLines source ≠ [] := splitOn_ne_nil '\n' source
  have hle := fitLines_le_length c.tailLines c.headBytes (splitLines source)
  rw [length_splitLines] at hle
  refine Nat.lt_of_le_of_ne hle fun heq => h ?_
  have hfits := fits_of_fitLines_eq hne (heq.trans (length_splitLines source).symm)
  rwa [length_splitLines, joinLines_splitLines] at hfits

variable (c : SpillConfig)

theorem tailFit_le (source : Text) : c.tailFit source ≤ lineCount source := by
  have hle := fitLines_le_length c.tailLines c.tailBytes (splitLines source).reverse
  rwa [length_reverse, length_splitLines] at hle

theorem lastPart_isSuffix (source : Text) : c.lastPart source <:+ source := by
  obtain ⟨above, line, hlines⟩ : ∃ above line, splitLines source = above ++ [line] :=
    ⟨_, _, (dropLast_concat_getLast (splitOn_ne_nil '\n' source)).symm⟩
  have hline : line <:+ source := by
    refine ⟨above.flatMap (· ++ ['\n']), ?_⟩
    have hjoin := joinLines_append_left above (cons_ne_nil line [])
    rw [← hlines, joinLines_splitLines] at hjoin
    rw [hjoin]
    simp [joinLines]
  have hcut : c.lastPart source <:+ line := by
    unfold lastPart partialLine
    rw [hlines, getLast?_concat, getD_some]
    split <;> rw [truncateTailBytes_eq]
    · have hwindow : lastBudget Char.utf8Size c.tailBytes (windowTail c.tailBytes line) =
          lastBudget Char.utf8Size c.tailBytes line := by
        rw [lastBudget, windowTail, reverse_reverse, takeBudget_windowHead (Nat.le_refl _)]
        rfl
      rw [hwindow]
      exact lastBudget_isSuffix _ _ _
    · exact lastBudget_isSuffix _ _ _
  exact hcut.trans hline

theorem tailView_wellFormed (source : Text) : (c.tailView source).WellFormed source := by
  unfold tailView
  split
  · trivial
  split
  · exact lastPart_isSuffix c source
  · exact tailFit_le c source

theorem view_wellFormed (source : Text) (formatMiddleElisionMarker : Nat → Nat → Text) :
    (c.view source formatMiddleElisionMarker).WellFormed source := by
  unfold view
  split
  · exact tailView_wellFormed c source
  split
  · trivial
  next hwhole =>
  split
  · exact Nat.zero_le _
  split
  · exact headFit_lt (by omega)
  split
  · exact tailView_wellFormed c source
  next hhead =>
  split
  · split
    · trivial
    · next hgap => exact ⟨by omega, by omega⟩
  next htail =>
  split
  · trivial
  · next hgap => exact ⟨by omega, by omega, by omega⟩

end SpillConfig

theorem spillLargeResultToArtifact_eq_some {formatMiddleElisionMarker : Nat → Nat → Text}
    {saveArtifact : Option (Text → Text → Option Text)} {toolName : Text}
    {result : ToolResult} {content : List Ai.Part} {truncation : TruncationMeta}
    (h : spillLargeResultToArtifact formatMiddleElisionMarker c saveArtifact toolName result =
      some (content, truncation)) :
    ∃ artifactId, content = imagesOf result.content ++
        [.text (truncateForSpill formatMiddleElisionMarker c (fullTextOf result.content)).content] ∧
      truncation = truncationMeta c
        (truncateForSpill formatMiddleElisionMarker c (fullTextOf result.content)) artifactId := by
  unfold spillLargeResultToArtifact at h
  split at h
  · cases h
  obtain ⟨saveArtifact, -, h⟩ := bind_eq_some_iff.1 h
  dsimp only at h
  generalize (if toolName = "read".toList then c.readThreshold else c.threshold) = threshold at h
  split at h
  · cases h
  split at h
  · cases h
  obtain ⟨artifactId, -, h⟩ := bind_eq_some_iff.1 h
  split at h
  · cases h
  cases h
  exact ⟨artifactId, rfl, rfl⟩

/-- The inline text of a spilled result is that of the view, and the metadata describe it exactly if
the ranges fit the view. -/
theorem spillLargeResultToArtifact_describes_iff {formatMiddleElisionMarker : Nat → Nat → Text}
    {c : SpillConfig} {saveArtifact : Option (Text → Text → Option Text)} {toolName : Text}
    {result : ToolResult} {content : List Ai.Part} {truncation : TruncationMeta}
    (h : spillLargeResultToArtifact formatMiddleElisionMarker c saveArtifact toolName result =
      some (content, truncation)) :
    ∃ inline, content = imagesOf result.content ++ [.text inline] ∧
      inline = (c.view (fullTextOf result.content) formatMiddleElisionMarker).text
        (fullTextOf result.content) ∧
      (Describes (fullTextOf result.content) inline
          (c.view (fullTextOf result.content) formatMiddleElisionMarker) truncation ↔
        (c.view (fullTextOf result.content) formatMiddleElisionMarker).RangesFit) := by
  have hrealizes :=
    @SpillConfig.realizes_view c (fullTextOf result.content) formatMiddleElisionMarker
  have hview := c.view_wellFormed (fullTextOf result.content) formatMiddleElisionMarker
  obtain ⟨artifactId, rfl, rfl⟩ := spillLargeResultToArtifact_eq_some h
  exact ⟨_, rfl, hrealizes.content, describes_iff hrealizes hview c artifactId⟩

def smallSpill (toolName : Text) (result : ToolResult) : Option (List Ai.Part × TruncationMeta) :=
  spillLargeResultToArtifact (fun _ _ => "[… elided …]".toList) ⟨1024, 1024, 1024, 3, 1024⟩
    (some fun _ _ => some "1".toList) toolName result

def unevenResult : ToolResult :=
  ⟨[.text (joinLines ["a".toList, "b".toList, "c".toList, List.replicate 2000 'x',
    List.replicate 1000 'y'])], false, none⟩

def unevenView : View :=
  SpillConfig.view ⟨1024, 1024, 1024, 3, 1024⟩ (fullTextOf unevenResult.content)
    (fun _ _ => "[… elided …]".toList)

theorem smallSpill_uneven :
    ∃ content truncation, smallSpill "bash".toList unevenResult = some (content, truncation) ∧
    ∃ inline, content = imagesOf unevenResult.content ++ [.text inline] ∧
      inline = unevenView.text (fullTextOf unevenResult.content) ∧
      (Describes (fullTextOf unevenResult.content) inline unevenView truncation ↔
        unevenView.RangesFit) := by
  have hsome : (smallSpill "bash".toList unevenResult).isSome = true := by decide +kernel
  obtain ⟨⟨content, truncation⟩, h⟩ := isSome_iff_exists.1 hsome
  exact ⟨content, truncation, h, spillLargeResultToArtifact_describes_iff h⟩

/-- The lines 1 to 3 and 5 are shown, and the ranges are said to be 1 to 2 and 4 to 5. -/
theorem smallSpill_uneven_not_describes :
    ¬∀ content truncation inline, smallSpill "bash".toList unevenResult =
      some (content, truncation) →
      content = imagesOf unevenResult.content ++ [.text inline] →
      Describes (fullTextOf unevenResult.content) inline unevenView truncation := by
  have hview : unevenView = .both 3 1 "[… elided …]".toList := by decide +kernel
  have hspill : (smallSpill "bash".toList unevenResult).map (fun spilled => spilled.2.tailRange) =
      some (some ⟨4, 5⟩) := by decide +kernel
  obtain ⟨⟨content, truncation⟩, h, hrange⟩ := map_eq_some_iff.1 hspill
  obtain ⟨artifactId, hcontent, -⟩ := spillLargeResultToArtifact_eq_some h
  have hlines : lineCount (fullTextOf unevenResult.content) = 5 := by decide +kernel
  rw [hview]
  intro hall
  have hdescribes := hall content truncation _ h hcontent
  have hcovers : LineRange.Covers truncation.tailRange 4 := ⟨⟨4, 5⟩, hrange, by decide, by decide⟩
  have hshown := hdescribes.shown 4 (.inr (.inl hcovers))
  rw [hlines] at hshown
  revert hshown
  show ¬((1 ≤ 4 ∧ 4 ≤ 3 ∨ 5 < 4 + 1 ∧ 4 ≤ 5) ∨ 4 = 5 ∧ False)
  decide

end Vibrato.Output
