import Vibrato.Output.Spill

/-! `enforceInlineResultBackstop` of `tools/output-meta.ts`: the absolute cap on the inline text of
a tool result. -/

namespace Vibrato.Output

open Lib Text

structure BackstopConfig extends SpillConfig where
  maxInlineBytes : Nat

/-- `bodyTruncationFooter` is the string that `read` remembers in the details. -/
structure BackstopResult extends ToolResult where
  bodyTruncationFooter : Option Text

structure InlineTruncationMeta where
  direction : SpillDirection
  truncatedBy : TruncatedBy
  totalLines : Nat
  totalBytes : Nat
  outputLines : Nat
  outputBytes : Nat
  maxBytes : Nat
  shownRange : Option LineRange := none
  elidedLines : Option Nat := none
  elidedBytes : Option Nat := none
  artifactId : Option Text

def MARKER_RESERVE : Nat := 256

/-- `text.slice(0, -count)`: nothing is left for a count of zero. -/
def sliceToEnd (text : Text) (count : Nat) : Text :=
  if count = 0 then [] else text.take (text.length - count)

def stripBodyOwnedTruncationFooter (text : Text) (footer : Option Text) : Text :=
  match footer with
  | none => text
  | some footer =>
    if footer = [] then text
    else
      let trimmedText := trimEnd text
      let trimmedFooter := trim footer
      if !trimmedFooter.isSuffixOf trimmedText then text
      else trimEnd (sliceToEnd trimmedText trimmedFooter.length)

section Backstop

variable (formatMiddleElisionMarker : Nat → Nat → Text)

namespace BackstopConfig

def inlineTailOptions (c : BackstopConfig) : TruncationOptions :=
  { maxBytes := some c.maxInlineBytes
    maxLines := some c.tailLines }

def inlineMiddleOptions (c : BackstopConfig) : TruncationOptions :=
  let budget := c.maxInlineBytes - MARKER_RESERVE
  { maxBytes := some budget
    maxLines := some (c.tailLines * 2)
    maxHeadBytes := some (min c.headBytes (budget / 2))
    maxHeadLines := some c.tailLines }

end BackstopConfig

variable (c : BackstopConfig)

def truncateInline (fullText : Text) : TruncationResult :=
  let useMiddle := 0 < c.headBytes ∧ MARKER_RESERVE < c.maxInlineBytes
  let truncated :=
    if useMiddle then truncateMiddle formatMiddleElisionMarker fullText c.inlineMiddleOptions
    else truncateTail fullText c.inlineTailOptions
  if byteLength truncated.content > c.maxInlineBytes then truncateTail fullText c.inlineTailOptions
  else truncated

def inlineTruncationMeta (truncated : TruncationResult) (artifactId : Option Text) :
    InlineTruncationMeta :=
  let outputLines := truncated.outputLines.getD truncated.totalLines
  let outputBytes := truncated.outputBytes.getD truncated.totalBytes
  if truncated.truncatedBy = some .middle then
    { direction := .middle
      truncatedBy := .middle
      totalLines := truncated.totalLines
      totalBytes := truncated.totalBytes
      outputLines
      outputBytes
      maxBytes := c.maxInlineBytes
      elidedLines := some (truncated.elidedLines.getD (truncated.totalLines - outputLines))
      elidedBytes := some (truncated.elidedBytes.getD (truncated.totalBytes - outputBytes))
      artifactId }
  else
    { direction := .tail
      truncatedBy := truncated.truncatedBy.getD .bytes
      totalLines := truncated.totalLines
      totalBytes := truncated.totalBytes
      outputLines
      outputBytes
      maxBytes := c.maxInlineBytes
      shownRange := some ⟨truncated.totalLines - outputLines + 1, truncated.totalLines⟩
      artifactId }

/-- The content and the new truncation metadata, if the result is not returned as it is.
`saveArtifact` is the artifact capability of the session, if it has one. -/
def enforceInlineResultBackstop
    (saveArtifact : Option (Text → Text → Option Text)) (toolName : Text)
    (result : BackstopResult) :
    List Ai.Part × Option InlineTruncationMeta :=
  if c.maxInlineBytes = 0 then (result.content, none)
  else
    -- Without a text block the text is empty, and within the cap.
    let renderedText := fullTextOf result.content
    let fullText := stripBodyOwnedTruncationFooter renderedText result.bodyTruncationFooter
    if byteLength fullText ≤ c.maxInlineBytes then (result.content, none)
    else
      let artifactId :=
        if result.artifactId.any (· ≠ []) then result.artifactId
        else
          match saveArtifact with
          | none => result.artifactId
          | some saveArtifact => saveArtifact fullText toolName
      let truncated := truncateInline formatMiddleElisionMarker c fullText
      (imagesOf result.content ++ [.text truncated.content],
        some (inlineTruncationMeta c truncated artifactId))

def inlineText (content : List Ai.Part) : Text :=
  joinLines (content.filterMap fun
    | .text text => some text
    | .image .. => none)

theorem inlineText_imagesOf_append (content : List Ai.Part) (text : Text) :
    inlineText (imagesOf content ++ [.text text]) = text := by
  have himages : ((imagesOf content).filterMap fun
      | .text text => some text
      | .image .. => none) = ([] : List Text) := by
    rw [List.filterMap_eq_nil_iff]
    intro part hpart
    cases part with
    | text text => simp [imagesOf] at hpart
    | image => rfl
  rw [inlineText, List.filterMap_append, himages]
  simp [joinLines]

theorem truncateTail_inline_le (fullText : Text) :
    byteLength (truncateTail fullText c.inlineTailOptions).content ≤ c.maxInlineBytes :=
  truncateTailTo_bytes fullText c.tailLines c.maxInlineBytes

theorem truncateInline_le (fullText : Text) :
    byteLength (truncateInline formatMiddleElisionMarker c fullText).content ≤
      c.maxInlineBytes := by
  simp only [truncateInline]
  generalize (if 0 < c.headBytes ∧ MARKER_RESERVE < c.maxInlineBytes then
    truncateMiddle formatMiddleElisionMarker fullText c.inlineMiddleOptions
    else truncateTail fullText c.inlineTailOptions) = truncated
  split
  · exact truncateTail_inline_le c fullText
  · next hfits => exact Nat.le_of_not_lt hfits

variable (c : BackstopConfig) (saveArtifact : Option (Text → Text → Option Text)) (toolName : Text)

theorem enforceInlineResultBackstop_of_le (result : BackstopResult)
    (h : byteLength (stripBodyOwnedTruncationFooter (fullTextOf result.content)
      result.bodyTruncationFooter) ≤ c.maxInlineBytes) :
    enforceInlineResultBackstop formatMiddleElisionMarker c saveArtifact toolName result =
      (result.content, none) := by
  simp only [enforceInlineResultBackstop, if_pos h, ite_self]

theorem enforceInlineResultBackstop_le (hcap : 0 < c.maxInlineBytes) (result : BackstopResult)
    (h : c.maxInlineBytes < byteLength (stripBodyOwnedTruncationFooter (fullTextOf result.content)
      result.bodyTruncationFooter)) :
    byteLength (inlineText (enforceInlineResultBackstop formatMiddleElisionMarker c saveArtifact
      toolName result).1) ≤ c.maxInlineBytes := by
  rw [enforceInlineResultBackstop, if_neg (Nat.ne_of_gt hcap)]
  simp only [if_neg (Nat.not_le_of_lt h)]
  rw [inlineText_imagesOf_append]
  exact truncateInline_le formatMiddleElisionMarker c _

/-- A text over the cap is brought within it exactly if it is over the cap without its footer
too. -/
theorem enforceInlineResultBackstop_caps_iff (hcap : 0 < c.maxInlineBytes)
    (result : BackstopResult) :
    (c.maxInlineBytes < byteLength (inlineText result.content) →
      byteLength (inlineText (enforceInlineResultBackstop formatMiddleElisionMarker c saveArtifact
        toolName result).1) ≤ c.maxInlineBytes) ↔
    byteLength (inlineText result.content) ≤ c.maxInlineBytes ∨
      c.maxInlineBytes < byteLength (stripBodyOwnedTruncationFooter (fullTextOf result.content)
        result.bodyTruncationFooter) := by
  obtain hover | hwithin := Nat.lt_or_ge c.maxInlineBytes (byteLength
    (stripBodyOwnedTruncationFooter (fullTextOf result.content) result.bodyTruncationFooter))
  · have hle :=
      enforceInlineResultBackstop_le formatMiddleElisionMarker c saveArtifact toolName hcap
      result hover
    exact ⟨fun _ => .inr hover, fun _ _ => hle⟩
  · rw [enforceInlineResultBackstop_of_le formatMiddleElisionMarker c saveArtifact toolName result
      hwithin]
    constructor
    · intro h
      obtain hlong | hshort :=
    Nat.lt_or_ge c.maxInlineBytes (byteLength (inlineText result.content))
      · exact .inl (h hlong)
      · exact .inl hshort
    · rintro (hshort | hover)
      · exact fun _ => hshort
      · exact absurd hover (Nat.not_lt_of_le hwithin)

end Backstop

def oneKilobyte : BackstopConfig :=
  { threshold := 0
    readThreshold := 0
    tailBytes := 1024
    tailLines := 3
    headBytes := 0
    maxInlineBytes := 1024 }

def readFooter : Text := "[Showing last 20 of 400 lines.]".toList

def footedRead : BackstopResult :=
  { content := [.text (List.replicate 1000 'x' ++ "\n\n".toList ++ readFooter)]
    spillEligible := false
    artifactId := none
    bodyTruncationFooter := some readFooter }

theorem footedRead_exceeds_cap :
    oneKilobyte.maxInlineBytes < byteLength (inlineText footedRead.content) ∧
      ¬byteLength (inlineText (enforceInlineResultBackstop (fun _ _ => []) oneKilobyte none
        "read".toList footedRead).1) ≤ oneKilobyte.maxInlineBytes := by
  decide +kernel

def longRead : BackstopResult :=
  { footedRead with content := [.text (List.replicate 2000 'x' ++ "\n\n".toList ++ readFooter)] }

theorem longRead_caps :
    oneKilobyte.maxInlineBytes < byteLength (inlineText longRead.content) ∧
      byteLength (inlineText (enforceInlineResultBackstop (fun _ _ => []) oneKilobyte none
        "read".toList longRead).1) ≤ oneKilobyte.maxInlineBytes := by
  have hlong : oneKilobyte.maxInlineBytes < byteLength (inlineText longRead.content) := by
    decide +kernel
  exact ⟨hlong, (enforceInlineResultBackstop_caps_iff (fun _ _ => []) oneKilobyte none "read".toList
    (by decide) longRead).2 (.inr (by decide +kernel)) hlong⟩

end Vibrato.Output
