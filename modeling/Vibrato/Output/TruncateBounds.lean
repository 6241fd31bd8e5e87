import Vibrato.Output.Truncate

namespace Vibrato.Output

open Lib Text List Budgets

variable (content : Text) {maxLines maxBytes : Nat}

def Exceeds (b : Budgets) : Prop :=
  b.maxBytes < byteLength content ∨ b.maxLines < lineCount content

def ReadWindow.retainedBytes (windows : ReadWindow) : Nat :=
  windows.head.elim 0 (byteLength ·.content) + windows.tail.elim 0 (byteLength ·.content)

def markerLineBytes (formatMiddleElisionMarker : Nat → Nat → Text) (result : TruncationResult) :
    Nat :=
  match result.elidedLines, result.elidedBytes with
  | some lines, some bytes => byteLength (formatMiddleElisionMarker lines bytes) + 2
  | _, _ => 0

def ReadWindow.CutsOnlyLastLine (windows : ReadWindow) : Prop :=
  ∃ head ∈ windows.head, ∃ tail ∈ windows.tail, tail.partialOf.isSome ∧
    windows.totalLines ≤ head.lines + 1

theorem length_splitLines : (splitLines content).length = lineCount content :=
  length_splitLines_eq content

theorem byteLength_joinLines (lines : List Text) :
    byteLength (joinLines lines) = totalWeight byteLength lines + (lines.length - 1) := by
  induction lines with
  | nil => rfl
  | cons line lines ih =>
    cases lines with
    | nil => simp [joinLines]
    | cons next lines =>
      have hjoin :
          joinLines (line :: next :: lines) = line ++ '\n' :: joinLines (next :: lines) := by
        simp [joinLines, intercalate_cons_cons]
      have hnewline : '\n'.utf8Size = 1 := by decide
      rw [hjoin, byteLength_append, byteLength_cons, ih, totalWeight_cons byteLength line]
      simp only [length_cons]
      omega

theorem byteLength_eq_lines :
    byteLength content = totalWeight byteLength (splitLines content) + (lineCount content - 1) := by
  rw [← length_splitLines, ← byteLength_joinLines, joinLines_splitLines]

theorem byteLength_le_of_covers {content : Text} {front back : List Text}
    (hfront : front <+: splitLines content) (hback : back <:+ splitLines content)
    (hcovers : lineCount content ≤ front.length + back.length)
    (hfrontPos : 0 < front.length) (hbackPos : 0 < back.length) :
    byteLength content + (front.length + back.length - lineCount content) ≤
      byteLength (joinLines front) + byteLength (joinLines back) + 1 := by
  obtain ⟨rest, hrest⟩ := hfront
  have hlength : front.length + rest.length = lineCount content := by
    rw [← length_splitLines, ← hrest, length_append]
  have hsuffix : rest <:+ back :=
    suffix_of_suffix_length_le ⟨front, hrest⟩ hback (by omega)
  obtain ⟨before, hbefore⟩ := hsuffix
  have htotal : totalWeight byteLength (splitLines content) =
      totalWeight byteLength front + totalWeight byteLength rest := by
    rw [← hrest, totalWeight_append]
  have hrestWeight : totalWeight byteLength rest ≤ totalWeight byteLength back := by
    rw [← hbefore, totalWeight_append]
    omega
  rw [byteLength_eq_lines, byteLength_joinLines, byteLength_joinLines]
  omega

structure Includes (maxLines maxBytes : Nat) (lines : List Text) (st st' : Scan) (count : Nat) :
    Prop where
  count_le : count ≤ lines.length
  includedLines : st'.includedLines = st.includedLines + count
  bytesUsed : st'.bytesUsed = st.bytesUsed + totalWeight byteLength (lines.take count) +
    (if st.includedLines = 0 then count - 1 else count)
  maxLines : st'.includedLines ≤ maxLines
  maxBytes : st'.bytesUsed ≤ maxBytes

theorem Includes.stop {lines : List Text} {st st' : Scan}
    (hlines : st.includedLines ≤ maxLines) (hbytes : st.bytesUsed ≤ maxBytes)
    (hsameLines : st'.includedLines = st.includedLines)
    (hsameBytes : st'.bytesUsed = st.bytesUsed) : Includes maxLines maxBytes lines st st' 0 := by
  refine ⟨Nat.zero_le _, hsameLines, ?_, by omega, by omega⟩
  rw [hsameBytes]
  simp

theorem scanLines_spec (lines : List Text) {st : Scan}
    (hlines : st.includedLines ≤ maxLines) (hbytes : st.bytesUsed ≤ maxBytes) :
    ∃ count, Includes maxLines maxBytes lines st (scanLines maxLines maxBytes lines st) count := by
  induction lines generalizing st with
  | nil => exact ⟨0, .stop hlines hbytes rfl rfl⟩
  | cons line lines ih =>
    rw [scanLines]
    split
    · next hmore =>
      simp only
      generalize hsep : (if 0 < st.includedLines then 1 else 0) = sepBytes
      split
      · exact ⟨0, .stop hlines hbytes rfl rfl⟩
      split
      · exact ⟨0, .stop hlines hbytes rfl rfl⟩
      · next hroom hfits =>
        obtain ⟨count, hcount⟩ := @ih
          { st with
            bytesUsed := st.bytesUsed + (sepBytes + byteLength line)
            includedLines := st.includedLines + 1 } hmore (by simp only; omega)
        have hincluded := hcount.includedLines
        have hused := hcount.bytesUsed
        simp only at hincluded hused
        rw [if_neg (Nat.succ_ne_zero _)] at hused
        refine ⟨count + 1, ?_, ?_, ?_, hcount.maxLines, hcount.maxBytes⟩
        · exact Nat.succ_le_succ hcount.count_le
        · omega
        · rw [take_succ_cons, totalWeight_cons]
          split
          · next hfirst =>
            rw [if_neg (by omega)] at hsep
            omega
          · next hlater =>
            rw [if_pos (by omega)] at hsep
            omega
    · exact ⟨0, .stop hlines hbytes rfl rfl⟩

theorem scan_spec (maxLines maxBytes : Nat) (lines : List Text) :
    (scan maxLines maxBytes lines).includedLines ≤ lines.length ∧
      (scan maxLines maxBytes lines).includedLines ≤ maxLines ∧
      (scan maxLines maxBytes lines).bytesUsed ≤ maxBytes ∧
      byteLength (joinLines (lines.take (scan maxLines maxBytes lines).includedLines)) =
        (scan maxLines maxBytes lines).bytesUsed := by
  obtain ⟨count, hcount⟩ := @scanLines_spec maxLines maxBytes lines ⟨0, 0, .lines, none⟩
    (Nat.zero_le _) (Nat.zero_le _)
  have hincluded : (scan maxLines maxBytes lines).includedLines = count :=
    hcount.includedLines.trans (Nat.zero_add _)
  have hused := hcount.bytesUsed
  rw [Nat.zero_add] at hused
  refine ⟨hincluded ▸ hcount.count_le, hcount.maxLines, hcount.maxBytes, ?_⟩
  rw [hincluded, byteLength_joinLines, length_take, Nat.min_eq_left hcount.count_le]
  exact hused.symm

structure Keeps (result : TruncationResult) (kept : List Text) (maxLines maxBytes : Nat) :
    Prop where
  content : result.content = joinLines kept
  outputLines : outputLineCount result ≤ kept.length
  maxLines : kept.length ≤ maxLines
  maxBytes : byteLength (joinLines kept) ≤ maxBytes

theorem Keeps.noTruncResult {content : Text}
    (h : lineCount content ≤ maxLines ∧ byteLength content ≤ maxBytes) :
    Keeps (noTruncResult content) (splitLines content) maxLines maxBytes := by
  refine ⟨(joinLines_splitLines content).symm, ?_, ?_, ?_⟩
  · rw [length_splitLines]
    show (if content = [] then 0 else countNewlines content + 1) ≤ lineCount content
    split
    · exact Nat.zero_le _
    · exact Nat.le_refl _
  · rw [length_splitLines]
    exact h.1
  · rw [joinLines_splitLines]
    exact h.2

theorem truncateHeadTo_spec (maxLines maxBytes : Nat) :
    ∃ kept, kept <+: splitLines content ∧
      Keeps (truncateHeadTo content maxLines maxBytes) kept maxLines maxBytes := by
  unfold truncateHeadTo
  split
  · next hfits => exact ⟨_, prefix_refl _, .noTruncResult hfits⟩
  · obtain ⟨hle, hlines, hbytes, hused⟩ := scan_spec maxLines maxBytes (splitLines content)
    simp only
    split
    · exact ⟨[], nil_prefix, rfl, Nat.zero_le _, Nat.zero_le _, Nat.zero_le _⟩
    · refine ⟨_, take_prefix _ _, rfl, ?_, ?_, hused.trans_le hbytes⟩
      · rw [length_take, Nat.min_eq_left hle]
        exact Nat.le_refl _
      · rw [length_take]
        omega

theorem truncateHeadTo_bytes (maxLines maxBytes : Nat) :
    byteLength (truncateHeadTo content maxLines maxBytes).content ≤ maxBytes := by
  obtain ⟨kept, -, hkept⟩ := truncateHeadTo_spec content maxLines maxBytes
  rw [hkept.content]
  exact hkept.maxBytes

theorem byteLength_partialLine (line : Text) (maxBytes : Nat) :
    byteLength (partialLine line maxBytes).text ≤ maxBytes := by
  unfold partialLine
  split
  · rw [truncateTailBytes_eq]
    exact totalWeight_lastBudget_le _ _ _
  · rw [truncateTailBytes_eq]
    exact totalWeight_lastBudget_le _ _ _

theorem truncateTailTo_spec (maxLines maxBytes : Nat) :
    (truncateTailTo content maxLines maxBytes).lastLinePartial = true ∧
        byteLength (truncateTailTo content maxLines maxBytes).content ≤ maxBytes ∨
      ∃ kept, kept <:+ splitLines content ∧
        Keeps (truncateTailTo content maxLines maxBytes) kept maxLines maxBytes := by
  unfold truncateTailTo
  split
  · next hfits => exact .inr ⟨_, suffix_refl _, .noTruncResult hfits⟩
  · obtain ⟨hle, hlines, hbytes, hused⟩ := scan_spec maxLines maxBytes (splitLines content).reverse
    simp only
    split
    · exact .inl ⟨rfl, byteLength_partialLine _ _⟩
    · have hreverse : byteLength (joinLines ((splitLines content).reverse.take
          (scan maxLines maxBytes (splitLines content).reverse).includedLines).reverse) =
          (scan maxLines maxBytes (splitLines content).reverse).bytesUsed := by
        rw [← hused, byteLength_joinLines, byteLength_joinLines, totalWeight_reverse,
          length_reverse]
      refine .inr ⟨_, ?_, rfl, ?_, ?_, hreverse.trans_le hbytes⟩
      · rw [← reverse_prefix, reverse_reverse]
        exact take_prefix _ _
      · rw [length_reverse, length_take, Nat.min_eq_left hle]
        exact Nat.le_refl _
      · rw [length_reverse, length_take]
        omega

theorem truncateTailTo_bytes (maxLines maxBytes : Nat) :
    byteLength (truncateTailTo content maxLines maxBytes).content ≤ maxBytes := by
  rcases truncateTailTo_spec content maxLines maxBytes with ⟨-, hbytes⟩ | ⟨kept, -, hkept⟩
  · exact hbytes
  · rw [hkept.content]
    exact hkept.maxBytes

theorem makeReadSegment_content {result : TruncationResult} {startLine totalLines : Nat}
    {source : Text} {segment : ReadSegment}
    (h : makeReadSegment result startLine totalLines source = some segment) :
    segment.content = result.content ∧ segment.partialOf.isSome = result.lastLinePartial ∧
      segment.lines = if result.lastLinePartial then 1 else outputLineCount result := by
  unfold makeReadSegment at h
  simp only at h
  split at h
  · cases h
  split at h
  · next hcutLine =>
    obtain rfl := Option.some.inj h
    rw [if_pos hcutLine]
    exact ⟨rfl, hcutLine.symm, rfl⟩
  · next hwhole =>
    obtain rfl := Option.some.inj h
    rw [if_neg hwhole]
    exact ⟨rfl, (Bool.eq_false_iff.2 hwhole).symm, rfl⟩

theorem oneSided_retainedBytes (kind : WindowKind) (result : TruncationResult) (startLine : Nat) :
    (oneSided content kind result startLine).retainedBytes ≤ byteLength result.content := by
  have hsegment : ∀ segment,
      makeReadSegment result startLine (lineCount content) content = segment →
        segment.elim 0 (byteLength ·.content) ≤ byteLength result.content := by
    rintro (_ | segment) hsegment
    · exact Nat.zero_le _
    · rw [← (makeReadSegment_content hsegment).1]
      exact Nat.le_refl _
  have hbytes := hsegment _ rfl
  unfold ReadWindow.retainedBytes oneSided
  split
  · exact hbytes
  · rw [Option.elim_none, Nat.zero_add]
    exact hbytes

structure BothKept (content : Text) (b : Budgets) (head tail : TruncationResult) : Prop where
  limits : b.headBytes < b.maxBytes ∧ b.headLines < b.maxLines
  headLines : 0 < outputLineCount head
  tailLines : 0 < outputLineCount tail
  headWhole : head.lastLinePartial = false
  headKept : ∃ kept, kept <+: splitLines content ∧ Keeps head kept b.headLines b.headBytes
  tailKept : tail.lastLinePartial = true ∧ byteLength tail.content ≤ b.tailBytes ∨
    ∃ kept, kept <:+ splitLines content ∧ Keeps tail kept b.tailLines b.tailBytes

section BothKept

variable {content : Text} {b : Budgets} {head tail : TruncationResult}

theorem BothKept.bytes (h : BothKept content b head tail) :
    byteLength head.content + byteLength tail.content ≤ b.maxBytes := by
  obtain ⟨kept, -, hkept⟩ := h.headKept
  have hhead := hkept.maxBytes
  rw [← hkept.content] at hhead
  have htail : byteLength tail.content ≤ b.tailBytes := by
    rcases h.tailKept with ⟨-, hbytes⟩ | ⟨kept, -, hkept⟩
    · exact hbytes
    · rw [hkept.content]
      exact hkept.maxBytes
  have hlimit := h.limits.1
  rw [tailBytes] at htail
  omega

theorem BothKept.covers (h : BothKept content b head tail) (hexceeds : Exceeds content b)
    (hcovers : lineCount content ≤ outputLineCount head + outputLineCount tail)
    (hwhole : tail.lastLinePartial = false) :
    outputLineCount head + outputLineCount tail = lineCount content ∧
      byteLength content = b.maxBytes + 1 := by
  obtain ⟨front, hfront, hhead⟩ := h.headKept
  rcases h.tailKept with ⟨hcutLine, -⟩ | ⟨back, hback, htail⟩
  · rw [hcutLine] at hwhole
    cases hwhole
  · have hbytes := byteLength_le_of_covers hfront hback
      (by have := hhead.outputLines; have := htail.outputLines; omega)
      (h.headLines.trans_le hhead.outputLines) (h.tailLines.trans_le htail.outputLines)
    have hfrontLines := hhead.outputLines
    have hbackLines := htail.outputLines
    have hfrontMax := hhead.maxLines
    have hbackMax := htail.maxLines
    have hfrontBytes := hhead.maxBytes
    have hbackBytes := htail.maxBytes
    obtain ⟨hbytesLimit, hlinesLimit⟩ := h.limits
    rw [Budgets.tailLines] at hbackMax
    rw [Budgets.tailBytes] at hbackBytes
    have hlong : b.maxBytes < byteLength content := by
      rcases hexceeds with hlong | hlines
      · exact hlong
      · omega
    omega

structure IsMiddle (windows : ReadWindow) (content : Text) (head tail : TruncationResult)
    (headWindow tailWindow : ReadSegment) : Prop where
  kind : windows.kind = .middle
  headWindow_eq : windows.head = some headWindow
  tailWindow_eq : windows.tail = some tailWindow
  totalLines : windows.totalLines = lineCount content
  headContent : headWindow.content = head.content
  tailContent : tailWindow.content = tail.content
  gap : (tailWindow.partialOf.isSome ∧ tailWindow.lines = 1) ∨
    headWindow.lines + tailWindow.lines < lineCount content

theorem makeReadSegment_isSome {result : TruncationResult} (hlines : 0 < outputLineCount result)
    (startLine totalLines : Nat) (source : Text) :
    ∃ segment, makeReadSegment result startLine totalLines source = some segment := by
  unfold makeReadSegment
  rw [if_neg (by omega)]
  split
  · exact ⟨_, rfl⟩
  · exact ⟨_, rfl⟩

theorem bothSided_spec (h : BothKept content b head tail) (hexceeds : Exceeds content b) :
    bothSided content head tail = fullReadWindow content .adjacent ∧
        byteLength content = b.maxBytes + 1 ∨
      ∃ headWindow tailWindow,
        IsMiddle (bothSided content head tail) content head tail headWindow tailWindow := by
  have htailPos := h.tailLines
  have hheadPos := h.headLines
  unfold bothSided
  simp only
  split
  · next hcovers =>
    obtain ⟨hmeet, hbytes⟩ := h.covers hexceeds hcovers.1 hcovers.2
    rw [if_neg (by omega), if_pos (by omega)]
    exact .inl ⟨rfl, hbytes⟩
  · next hgap =>
    obtain ⟨headWindow, hheadWindow⟩ :=
      makeReadSegment_isSome hheadPos 1 (lineCount content) content
    obtain ⟨tailWindow, htailWindow⟩ := makeReadSegment_isSome htailPos
      (lineCount content - outputLineCount tail + 1) (lineCount content) content
    obtain ⟨hheadContent, -, hheadLines⟩ := makeReadSegment_content hheadWindow
    obtain ⟨htailContent, hcutLineOf, htailLines⟩ := makeReadSegment_content htailWindow
    rw [hheadWindow, htailWindow]
    refine .inr ⟨headWindow, tailWindow, rfl, rfl, rfl, rfl, hheadContent, htailContent, ?_⟩
    rw [h.headWhole, if_neg Bool.false_ne_true] at hheadLines
    by_cases hcutLine : tail.lastLinePartial = true
    · rw [if_pos hcutLine] at htailLines
      exact .inl ⟨hcutLineOf.trans hcutLine, htailLines⟩
    · rw [if_neg hcutLine] at htailLines
      have hwhole := Bool.eq_false_iff.2 hcutLine
      refine .inr ?_
      by_contra hcovers
      exact hgap ⟨by omega, hwhole⟩

end BothKept

theorem truncateHeadTo_lastLinePartial (content : Text) (maxLines maxBytes : Nat) :
    (truncateHeadTo content maxLines maxBytes).lastLinePartial = false := by
  unfold truncateHeadTo
  split
  · rfl
  · simp only
    split
    · rfl
    · rfl

theorem onlyTailBytes_le (b : Budgets) : b.onlyTailBytes ≤ b.maxBytes := by
  unfold onlyTailBytes tailBytes
  split
  · exact Nat.le_refl _
  · omega

/-- Which windows a content that exceeds the limits can have. -/
inductive Outcome (content : Text) (b : Budgets) (windows : ReadWindow) : Prop where
  | tailOnly (hkind : windows.kind = .tailOnly) (hbytes : windows.retainedBytes ≤ b.maxBytes)
  | headOnly (hkind : windows.kind = .headOnly) (hbytes : windows.retainedBytes ≤ b.headBytes)
  | full (hfull : windows = fullReadWindow content .adjacent)
      (hbytes : byteLength content = b.maxBytes + 1)
  | middle (head tail : TruncationResult) (headWindow tailWindow : ReadSegment)
      (hkept : BothKept content b head tail)
      (hmiddle : IsMiddle windows content head tail headWindow tailWindow)

theorem middleWindows_outcome {content : Text} {b : Budgets} (hexceeds : Exceeds content b) :
    Outcome content b (middleWindows content b) := by
  have hnotFull : ¬(byteLength content ≤ b.maxBytes ∧ lineCount content ≤ b.maxLines) := by
    rcases hexceeds with hbytes | hlines
    · omega
    · omega
  unfold middleWindows
  simp only
  rw [if_neg hnotFull]
  split
  · refine .tailOnly rfl ((oneSided_retainedBytes _ _ _ _).trans ?_)
    exact (truncateTailTo_bytes _ _ _).trans (onlyTailBytes_le b)
  split
  · exact .headOnly rfl ((oneSided_retainedBytes _ _ _ _).trans (truncateHeadTo_bytes _ _ _))
  split
  · refine .tailOnly rfl ((oneSided_retainedBytes _ _ _ _).trans ?_)
    exact (truncateTailTo_bytes _ _ _).trans (Nat.sub_le _ _)
  split
  · exact .headOnly rfl ((oneSided_retainedBytes _ _ _ _).trans (truncateHeadTo_bytes _ _ _))
  · next htailBudget hhead htail =>
    rw [tailBytes, tailLines] at htailBudget
    rw [not_or] at hhead
    have hkept : BothKept content b (truncateHeadTo content b.headLines b.headBytes)
        (truncateTailTo content b.tailLines b.tailBytes) :=
      { limits := ⟨by omega, by omega⟩
        headLines := Nat.pos_of_ne_zero hhead.1
        tailLines := Nat.pos_of_ne_zero htail
        headWhole := truncateHeadTo_lastLinePartial _ _ _
        headKept := truncateHeadTo_spec _ _ _
        tailKept := truncateTailTo_spec _ _ _ }
    rcases bothSided_spec hkept hexceeds with ⟨hfull, hbytes⟩ | ⟨headWindow, tailWindow, hmiddle⟩
    · exact .full hfull hbytes
    · exact .middle _ _ headWindow tailWindow hkept hmiddle

theorem IsMiddle.retainedBytes {content : Text} {windows : ReadWindow}
    {head tail : TruncationResult}
    {headWindow tailWindow : ReadSegment}
    (h : IsMiddle windows content head tail headWindow tailWindow) :
    windows.retainedBytes = byteLength head.content + byteLength tail.content := by
  rw [ReadWindow.retainedBytes, h.headWindow_eq, h.tailWindow_eq]
  simp only [Option.elim_some, h.headContent, h.tailContent]

section Marker

variable (formatMiddleElisionMarker : Nat → Nat → Text)

theorem composeMiddle_bytes {content : Text} {windows : ReadWindow}
    {headWindow tailWindow : ReadSegment}
    (hgap : headWindow.lines + tailWindow.lines < windows.totalLines) :
    byteLength
      (composeMiddle formatMiddleElisionMarker content windows headWindow tailWindow).content =
      byteLength headWindow.content + byteLength tailWindow.content +
        markerLineBytes formatMiddleElisionMarker
          (composeMiddle formatMiddleElisionMarker content windows headWindow tailWindow) := by
  have hnewline : '\n'.utf8Size = 1 := by decide
  unfold composeMiddle
  rw [if_neg (by omega)]
  simp only [markerLineBytes, byteLength_append, byteLength_cons, hnewline]
  omega

theorem truncateMiddle_bytes {content : Text} {options : TruncationOptions}
    (hexceeds : Exceeds content (.ofOptions options))
    (hcut : ¬(truncateMiddleWindows content options).CutsOnlyLastLine) :
    byteLength (truncateMiddle formatMiddleElisionMarker content options).content ≤
        max (ofOptions options).maxBytes (ofOptions options).headBytes +
          markerLineBytes formatMiddleElisionMarker
            (truncateMiddle formatMiddleElisionMarker content options) ∨
      (truncateMiddle formatMiddleElisionMarker content options).content = content ∧
        byteLength content = (ofOptions options).maxBytes + 1 := by
  have houtcome := middleWindows_outcome hexceeds
  unfold truncateMiddle
  rw [truncateMiddleWindows] at hcut ⊢
  simp only
  generalize ofOptions options = b at *
  generalize middleWindows content b = windows at *
  cases houtcome with
  | tailOnly hkind _ =>
    rw [hkind]
    have hbytes := truncateTailTo_bytes content b.onlyTailLines b.onlyTailBytes
    have hlimit := onlyTailBytes_le b
    exact .inl (by simp only; omega)
  | headOnly hkind _ =>
    rw [hkind]
    have hbytes := truncateHeadTo_bytes content b.headLines b.headBytes
    exact .inl (by simp only; omega)
  | full hfull hbytes =>
    rw [hfull]
    exact .inr ⟨rfl, hbytes⟩
  | middle head tail headWindow tailWindow hkept hmiddle =>
    rw [hmiddle.kind]
    simp only [hmiddle.headWindow_eq, hmiddle.tailWindow_eq]
    have hgap : headWindow.lines + tailWindow.lines < windows.totalLines := by
      rw [hmiddle.totalLines]
      rcases hmiddle.gap with ⟨hcutLine, hline⟩ | hgap
      · by_contra hcovers
        refine hcut ⟨headWindow, hmiddle.headWindow_eq, tailWindow, hmiddle.tailWindow_eq,
          hcutLine, ?_⟩
        rw [hmiddle.totalLines]
        omega
      · exact hgap
    have hbytes := hkept.bytes
    rw [← hmiddle.headContent, ← hmiddle.tailContent] at hbytes
    rw [composeMiddle_bytes _ hgap]
    exact .inl (by omega)

/-- Of a content that exceeds the limits, a head or a tail keeps at most `maxBytes` bytes.  Windows
keep at most `maxBytes` bytes, or the head budget if this is larger, but two complete windows that
meet keep the newline between them. -/
theorem truncateContent_bounded (content : Text) (options : TruncationOptions)
    (hexceeds : Exceeds content (.ofOptions options)) :
    let b := ofOptions options
    let windows := truncateMiddleWindows content options
    let middle := truncateMiddle formatMiddleElisionMarker content options
    let result := truncateContent formatMiddleElisionMarker content options
    (windows.retainedBytes ≤ max b.maxBytes b.headBytes ∨
      windows = fullReadWindow content .adjacent ∧ byteLength content = b.maxBytes + 1) ∧
    (¬windows.CutsOnlyLastLine →
      byteLength middle.content ≤ max b.maxBytes b.headBytes +
        markerLineBytes formatMiddleElisionMarker middle ∨
        middle.content = content ∧ byteLength content = b.maxBytes + 1) ∧
    (options.direction = some .both → result = middle) ∧
    (options.direction ≠ some .both → byteLength result.content ≤ b.maxBytes) := by
  refine ⟨?_, truncateMiddle_bytes formatMiddleElisionMarker hexceeds, ?_, ?_⟩
  · rw [truncateMiddleWindows]
    cases middleWindows_outcome hexceeds with
    | tailOnly _ hbytes => exact .inl (by omega)
    | headOnly _ hbytes => exact .inl (by omega)
    | full hfull hbytes => exact .inr ⟨hfull, hbytes⟩
    | middle head tail headWindow tailWindow hkept hmiddle =>
      have hbytes := hkept.bytes
      rw [hmiddle.retainedBytes]
      exact .inl (by omega)
  · intro hboth
    simp only [truncateContent, hboth]
  · intro hone
    unfold truncateContent
    split
    · exact truncateTailTo_bytes _ _ _
    · next hboth => exact absurd hboth hone
    · exact truncateHeadTo_bytes _ _ _

end Marker

theorem truncateContent_bounded_four :
    byteLength (truncateMiddle (fun _ _ => "[…]".toList) "aa\nbb\ncc\ndd".toList
        { maxLines := some 4, maxBytes := some 7, maxHeadLines := some 2,
          maxHeadBytes := some 3 }).content ≤ 7 + 7 := by
  have hbounded := (truncateContent_bounded (fun _ _ => "[…]".toList) "aa\nbb\ncc\ndd".toList
    { maxLines := some 4, maxBytes := some 7, maxHeadLines := some 2, maxHeadBytes := some 3 }
    (.inl (by decide +kernel))).2.1 ?_
  · rcases hbounded with hbytes | ⟨-, hwhole⟩
    · exact hbytes.trans (by decide +kernel)
    · exact absurd hwhole (by decide +kernel)
  · rintro ⟨head, -, tail, htail, hcutLine, -⟩
    have hnone : tail.partialOf.isSome = false := by
      revert tail
      decide +kernel
    rw [hnone] at hcutLine
    cases hcutLine

/-- Four lines of seven bytes are kept whole for a limit of six, and a head budget of nine bytes is
used for a limit of four. -/
theorem truncateMiddle_exceeds_maxBytes :
    (Exceeds "a\nb\nc\nd".toList (.ofOptions { maxLines := some 4, maxBytes := some 6 }) ∧
      6 < (truncateMiddleWindows "a\nb\nc\nd".toList
        { maxLines := some 4, maxBytes := some 6 }).retainedBytes ∧
      truncateContent (fun _ _ => []) "a\nb\nc\nd".toList
          { maxLines := some 4, maxBytes := some 6, direction := some .both } =
        noTruncResult "a\nb\nc\nd".toList) ∧
    (Exceeds "aaaaaaa\nbbb".toList
        (.ofOptions { maxBytes := some 4, maxHeadBytes := some 9 }) ∧
      4 < (truncateMiddleWindows "aaaaaaa\nbbb".toList
        { maxBytes := some 4, maxHeadBytes := some 9 }).retainedBytes) := by
  refine ⟨⟨.inl ?_, ?_, ?_⟩, .inl ?_, ?_⟩
  · decide +kernel
  · decide +kernel
  · decide +kernel
  · decide +kernel
  · decide +kernel

end Vibrato.Output
