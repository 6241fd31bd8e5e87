import Vibrato.Output.SinkOrder

namespace Vibrato.Output

open Lib Text List Char

section Statement

variable (o : SinkOptions)

def cappedStream (chunks : List Text) : Text := (visibleTexts o chunks).flatten

/-- However the text is cut into chunks, no line is longer than the cap, and the stream is the
same. -/
structure CapsColumns (text : Text) : Prop where
  bounded : ∀ chunks : List Text, chunks.flatten = text →
    ∀ line ∈ splitLines (cappedStream o chunks), byteLength line ≤ o.maxColumns
  independent : ∀ chunks chunks' : List Text, chunks.flatten = text → chunks'.flatten = text →
    cappedStream o chunks = cappedStream o chunks'

/-- A place in a line that is too long, at which what is before it fits but leaves no room for the
ellipsis. -/
def CutsLongLine (max : Nat) (before after : Text) : Prop :=
  ∃ above line first below, splitLines before = above ++ [line] ∧
    splitLines after = first :: below ∧
    byteLength line ≤ max ∧ max < byteLength line + ELLIPSIS.utf8Size ∧
    max < byteLength line + byteLength first

/-- The sink can cut the text after this start: without coalescing anywhere, and else where enough
text has come to be flushed. -/
def CanCutAfter (before : Text) : Prop :=
  o.coalesceSanitize = true → COALESCE_FLUSH_CHARS ≤ utf16Length before

end Statement

variable {line : Text} {max : Nat} {st : ColumnState}

def capLine (max : Nat) (line : Text) : Text :=
  if byteLength line ≤ max then line
  else takeBudget utf8Size (max - ELLIPSIS.utf8Size) line ++ [ELLIPSIS]

theorem byteLength_ellipsis : byteLength [ELLIPSIS] = ELLIPSIS.utf8Size := rfl

theorem byteLength_capLine_le (hmax : ELLIPSIS.utf8Size ≤ max) (line : Text) :
    byteLength (capLine max line) ≤ max := by
  unfold capLine
  split
  · assumption
  · have hle := totalWeight_takeBudget_le utf8Size (max - ELLIPSIS.utf8Size) line
    rw [byteLength_append, byteLength_ellipsis]
    show totalWeight _ _ + _ ≤ _
    omega

theorem newline_not_mem_capLine (max : Nat) (h : '\n' ∉ line) : '\n' ∉ capLine max line := by
  unfold capLine
  split
  · exact h
  · rw [mem_append, not_or]
    refine ⟨fun hmem => h ?_, by decide⟩
    exact (takeBudget_isPrefix utf8Size _ line).mem hmem

structure AtLine (max : Nat) (line : Text) (st : ColumnState) : Prop where
  ellipsis : st.columnEllipsisAdded = decide (max < byteLength line)
  bytes : byteLength line ≤ max → st.currentLineBytes = byteLength line

theorem AtLine.start (max : Nat) (hbytes : st.currentLineBytes = 0)
    (hellipsis : st.columnEllipsisAdded = false) : AtLine max [] st :=
  ⟨by rw [hellipsis]; simp, fun _ => hbytes⟩

theorem AtLine.capped (h : AtLine max line st)
    (segment : Text) : AtLine max (line ++ segment) (capSegment max segment st).2 := by
  unfold capSegment
  by_cases hempty : segment = []
  · rw [hempty, append_nil]
    exact h
  · rw [if_neg hempty]
    by_cases hlong : max < byteLength line
    · rw [if_pos (by rw [h.ellipsis]; exact decide_eq_true hlong)]
      have hmore : max < byteLength (line ++ segment) := by
        rw [byteLength_append]
        omega
      refine ⟨?_, fun hle => absurd hle (by omega)⟩
      rw [decide_eq_true hmore]
      exact h.ellipsis.trans (decide_eq_true hlong)
    · rw [if_neg (by rw [h.ellipsis]; simpa using hlong)]
      have hbytes := h.bytes (by omega)
      dsimp only
      rw [hbytes]
      split
      · have hfits : byteLength (line ++ segment) ≤ max := by
          rw [byteLength_append]
          omega
        refine ⟨?_, fun _ => (byteLength_append line segment).symm⟩
        rw [decide_eq_false (by omega)]
        exact h.ellipsis.trans (decide_eq_false hlong)
      · have hmore : max < byteLength (line ++ segment) := by
          rw [byteLength_append]
          omega
        exact ⟨(decide_eq_true hmore).symm, fun hle => absurd hle (by omega)⟩

theorem AtLine.capped_text (hmax : ELLIPSIS.utf8Size ≤ max) (h : AtLine max line st)
    (segment : Text)
    (hroom : ¬(byteLength line ≤ max ∧ max < byteLength line + ELLIPSIS.utf8Size ∧
      max < byteLength line + byteLength segment)) :
    capLine max line ++ (capSegment max segment st).1 = capLine max (line ++ segment) := by
  unfold capSegment
  by_cases hempty : segment = []
  · rw [if_pos hempty, hempty, append_nil, append_nil]
  · rw [if_neg hempty]
    by_cases hlong : max < byteLength line
    · rw [if_pos (by rw [h.ellipsis]; exact decide_eq_true hlong), append_nil]
      unfold capLine
      rw [if_neg (by omega), if_neg (by rw [byteLength_append]; omega),
        takeBudget_append_of_lt _ _ (by show _ < byteLength line; omega)]
    · rw [if_neg (by rw [h.ellipsis]; simpa using hlong)]
      have hbytes := h.bytes (by omega)
      dsimp only
      rw [hbytes]
      have hline : capLine max line = line := if_pos (by omega)
      rw [hline]
      split
      · exact (if_pos (by rw [byteLength_append]; omega)).symm
      · have hcapped : capLine max (line ++ segment) =
            takeBudget utf8Size (max - ELLIPSIS.utf8Size) (line ++ segment) ++ [ELLIPSIS] :=
          if_neg (by rw [byteLength_append]; omega)
        have hsliced : (if 0 < max - byteLength line - ELLIPSIS.utf8Size then
            truncateHeadBytes segment (max - byteLength line - ELLIPSIS.utf8Size)
              else ⟨[], 0⟩).text =
            takeBudget utf8Size (max - byteLength line - ELLIPSIS.utf8Size) segment := by
          split
          · rw [truncateHeadBytes_eq]
          · rw [show max - byteLength line - ELLIPSIS.utf8Size = 0 by omega, takeBudget_zero]
        have htake := takeBudget_append_of_le utf8Size segment
          (show totalWeight utf8Size line ≤ max - ELLIPSIS.utf8Size by
            show byteLength line ≤ _
            omega)
        rw [hcapped, htake, hsliced, append_assoc, Nat.sub_right_comm]
        rfl

theorem AtLine.capped_cut (h : AtLine max line st) {segment : Text} (hfits : byteLength line ≤ max)
    (hroom : max < byteLength line + ELLIPSIS.utf8Size)
    (hlong : max < byteLength line + byteLength segment) :
    (capSegment max segment st).1 = [ELLIPSIS] := by
  have hne : segment ≠ [] := by
    rintro rfl
    rw [byteLength_nil] at hlong
    omega
  unfold capSegment
  rw [if_neg hne, if_neg (by rw [h.ellipsis]; simpa using hfits), h.bytes hfits]
  dsimp only
  rw [if_neg (by omega), if_neg (by omega)]
  rfl

def ColumnState.newLine (st : ColumnState) : ColumnState :=
  { st with currentLineBytes := 0, columnEllipsisAdded := false }

theorem capSegments_newLine (max : Nat) (part next : Text) (rest : List Text) (st : ColumnState) :
    (capSegments max (part :: next :: rest) st).1 = (capSegment max part st).1 ++
      '\n' :: (capSegments max (next :: rest) (capSegment max part st).2.newLine).1 := rfl

theorem capSegments_cons (hmax : ELLIPSIS.utf8Size ≤ max)
    (h : AtLine max line st) (first : Text) (below : List Text) :
    (capSegments max (first :: below) st).1 =
      joinLines ((capSegment max first st).1 :: below.map (capLine max)) ∧
      ∀ above last, (line ++ first) :: below = above ++ [last] →
        AtLine max last (capSegments max (first :: below) st).2 := by
  induction below generalizing line first st with
  | nil =>
    refine ⟨by simp [capSegments, joinLines], fun above last hlast => ?_⟩
    have hlast' : line ++ first = last := by
      have h := congrArg List.getLast? hlast
      simpa using h
    rw [← hlast']
    exact h.capped first
  | cons next rest ih =>
    have hstart : AtLine max [] (capSegment max first st).2.newLine := AtLine.start max rfl rfl
    obtain ⟨htext, hstate⟩ := ih hstart next
    have hnext := hstart.capped_text hmax next (by
      rintro ⟨-, hroom, -⟩
      rw [byteLength_nil] at hroom
      omega)
    have hempty : capLine max [] = [] := if_pos (Nat.zero_le max)
    rw [hempty, nil_append] at hnext
    constructor
    · rw [capSegments_newLine, htext, hnext]
      have hjoin := joinLines_append_left [(capSegment max first st).1]
        (cons_ne_nil (capLine max next) (rest.map (capLine max)))
      rw [singleton_append] at hjoin
      rw [map_cons, hjoin]
      simp
    · intro above last hlast
      cases above with
      | nil => cases hlast
      | cons a above => exact hstate above last (List.cons.inj hlast).2

def capText (max : Nat) (text : Text) : Text := joinLines ((splitLines text).map (capLine max))

theorem splitLines_capText (max : Nat) (text : Text) :
    splitLines (capText max text) = (splitLines text).map (capLine max) := by
  apply splitLines_joinLines
  · rw [ne_eq, map_eq_nil_iff]
    exact splitOn_ne_nil '\n' text
  · intro l hl
    obtain ⟨line, hline, rfl⟩ := mem_map.1 hl
    exact newline_not_mem_capLine max (newline_not_mem_of_mem_splitLines hline)

section Run

variable {o : SinkOptions}

def After (o : SinkOptions) (done : Text) (st : ColumnState) : Prop :=
  ∀ above line, splitLines done = above ++ [line] → AtLine o.maxColumns line st

variable {after before chunk done : Text} {st : ColumnState} {chunks : List Text} {max : Nat}

variable (hmax : ELLIPSIS.utf8Size ≤ o.maxColumns)
include hmax

theorem After.visibleChunk (h : After o done st) (hsanitize : o.sanitize chunk = chunk) :
    After o (done ++ chunk) (OutputSink.visibleChunk o st chunk).2 := by
  have hpos : 0 < o.maxColumns := Nat.lt_of_lt_of_le ELLIPSIS.utf8Size_pos hmax
  unfold OutputSink.visibleChunk
  rw [hsanitize]
  by_cases hempty : chunk = []
  · rw [hempty, append_nil]
    exact h
  · rw [if_neg fun hzero => hempty (byteLength_eq_zero.1 hzero), if_pos hpos, applyColumnCap,
      if_neg hempty]
    obtain ⟨above, line, hdone⟩ := exists_splitLines_concat done
    obtain ⟨first, below, hchunk⟩ := exists_splitLines_cons chunk
    obtain ⟨-, hstate⟩ := capSegments_cons hmax (h above line hdone) first below
    intro above' last hlast
    rw [splitLines_append hdone hchunk] at hlast
    rw [hchunk]
    rcases eq_nil_or_concat' below with rfl | ⟨below', last', rfl⟩
    · have hlast' : line ++ first = last := by
        have h := congrArg List.getLast? hlast
        simpa using h
      exact hstate [] last (by rw [hlast']; rfl)
    · have hlast' : (above ++ (line ++ first) :: below') ++ [last'] = above' ++ [last] := by
        rw [← hlast, append_assoc]
        rfl
      rw [← (List.cons.inj (append_inj_right' hlast' rfl)).1]
      exact hstate ((line ++ first) :: below') last' rfl

theorem After.visibleChunk_text (h : After o done st) (hsanitize : o.sanitize chunk = chunk)
    (hcut : ¬CutsLongLine o.maxColumns done chunk) :
    capText o.maxColumns done ++ (OutputSink.visibleChunk o st chunk).1 =
      capText o.maxColumns (done ++ chunk) := by
  have hpos : 0 < o.maxColumns := Nat.lt_of_lt_of_le ELLIPSIS.utf8Size_pos hmax
  unfold OutputSink.visibleChunk
  rw [hsanitize]
  by_cases hempty : chunk = []
  · rw [if_pos (byteLength_eq_zero.2 hempty), hempty, append_nil, append_nil]
  · rw [if_neg fun hzero => hempty (byteLength_eq_zero.1 hzero), if_pos hpos, applyColumnCap,
      if_neg hempty]
    obtain ⟨above, line, hdone⟩ := exists_splitLines_concat done
    obtain ⟨first, below, hchunk⟩ := exists_splitLines_cons chunk
    have hline := h above line hdone
    have htext := hline.capped_text hmax first fun hbad =>
      hcut ⟨above, line, first, below, hdone, hchunk, hbad⟩
    unfold capText
    rw [splitLines_append hdone hchunk, hdone, hchunk, (capSegments_cons hmax hline first below).1,
      map_append, map_append, map_singleton, joinLines_append_joinLines, map_cons,
      htext]

theorem After.visibleChunk_long
    (h : After o done st) (hsanitize : o.sanitize chunk = chunk)
    (hcut : CutsLongLine o.maxColumns done chunk) :
    ∃ line ∈ splitLines (capText o.maxColumns done ++ (OutputSink.visibleChunk o st chunk).1),
      o.maxColumns < byteLength line := by
  have hpos : 0 < o.maxColumns := Nat.lt_of_lt_of_le ELLIPSIS.utf8Size_pos hmax
  obtain ⟨above, line, first, below, hdone, hchunk, hfits, hroom, hlong⟩ := hcut
  have hempty : chunk ≠ [] := by
    rintro rfl
    rw [splitLines, splitOn_nil] at hchunk
    cases hchunk
    rw [byteLength_nil] at hlong
    omega
  have hline := h above line hdone
  have hkept : capLine o.maxColumns line = line := if_pos hfits
  unfold OutputSink.visibleChunk
  rw [hsanitize, if_neg fun hzero => hempty (byteLength_eq_zero.1 hzero), if_pos hpos,
    applyColumnCap, if_neg hempty, hchunk, (capSegments_cons hmax hline first below).1,
    hline.capped_cut hfits hroom hlong]
  have hsplit : splitLines (joinLines ([ELLIPSIS] :: below.map (capLine o.maxColumns))) =
      [ELLIPSIS] :: below.map (capLine o.maxColumns) := by
    apply splitLines_joinLines
    · simp
    · intro l hl
      rcases mem_cons.1 hl with rfl | hl
      · decide
      · obtain ⟨l', hl', rfl⟩ := mem_map.1 hl
        refine newline_not_mem_capLine _ (newline_not_mem_of_mem_splitLines (s := chunk) ?_)
        rw [hchunk]
        exact mem_cons_of_mem _ hl'
  have hcapped :
      splitLines (capText o.maxColumns done) = above.map (capLine o.maxColumns) ++ [line] := by
    rw [splitLines_capText, hdone, map_append, map_singleton, hkept]
  refine ⟨line ++ [ELLIPSIS], ?_, ?_⟩
  · rw [splitLines_append hcapped hsplit]
    simp
  · rw [byteLength_append, byteLength_ellipsis]
    omega

omit hmax

theorem canCutAfter_of_batches {pending : Text} {earlier later : List Text}
    (h : batches o pending chunks = earlier ++ later) (hearlier : earlier ≠ [])
    (hlater : later ≠ []) :
    CanCutAfter o earlier.flatten := by
  intro hcoalesce
  induction chunks generalizing pending earlier with
  | nil =>
    rw [batches] at h
    have hlength := congrArg List.length h
    have hone := length_pos_of_ne_nil hearlier
    have htwo := length_pos_of_ne_nil hlater
    split at hlength <;> simp at hlength <;> omega
  | cons chunk chunks ih =>
    rw [batches, if_pos hcoalesce] at h
    split at h
    · next hflush =>
      obtain ⟨batch, earlier, rfl⟩ := exists_cons_of_ne_nil hearlier
      have hbatch := (List.cons.inj h).1
      rw [flatten_cons, ← hbatch]
      show _ ≤ totalWeight _ _
      rw [totalWeight_append]
      have : COALESCE_FLUSH_CHARS ≤ totalWeight utf16Size (pending ++ chunk) := hflush
      omega
    · exact ih h hearlier

theorem CutsLongLine.append (h : CutsLongLine max before after)
    (more : Text) : CutsLongLine max before (after ++ more) := by
  obtain ⟨above, line, first, below, hbefore, hafter, hfits, hroom, hlong⟩ := h
  obtain ⟨above', line', hafter'⟩ := exists_splitLines_concat after
  obtain ⟨next, rest, hmore⟩ := exists_splitLines_cons more
  have hsplit := splitLines_append hafter' hmore
  rw [hafter] at hafter'
  cases above' with
  | nil =>
    cases hafter'
    refine ⟨above, line, first ++ next, rest, hbefore, hsplit, hfits, hroom, ?_⟩
    rw [byteLength_append]
    omega
  | cons first' above' =>
    cases hafter'
    exact ⟨above, line, first, _, hbefore, hsplit, hfits, hroom, hlong⟩

theorem After.visibleChunks_text (hmax : ELLIPSIS.utf8Size ≤ o.maxColumns) {batches : List Text}
    {done : Text} {st : ColumnState} (h : After o done st)
    (hsanitize : ∀ batch ∈ batches, o.sanitize batch = batch)
    (hcut : ∀ earlier later, batches = earlier ++ later → later ≠ [] →
      ¬CutsLongLine o.maxColumns (done ++ earlier.flatten) later.flatten) :
    capText o.maxColumns done ++ (visibleChunks o st batches).flatten =
      capText o.maxColumns (done ++ batches.flatten) := by
  induction batches generalizing done st with
  | nil => rw [visibleChunks, flatten_nil, append_nil, append_nil]
  | cons batch batches ih =>
    have hbatch := hsanitize batch mem_cons_self
    have hfirst : ¬CutsLongLine o.maxColumns done batch := by
      intro hbad
      refine hcut [] (batch :: batches) rfl (cons_ne_nil _ _) ?_
      rw [flatten_nil, append_nil]
      exact hbad.append batches.flatten
    rw [visibleChunks, flatten_cons, flatten_cons, ← append_assoc, ← append_assoc,
      h.visibleChunk_text hmax hbatch hfirst]
    apply ih (h.visibleChunk hmax hbatch)
    · exact fun b hb => hsanitize b (mem_cons_of_mem _ hb)
    · intro earlier later hsplit hlater
      rw [append_assoc]
      exact hcut (batch :: earlier) later (by rw [hsplit]; rfl) hlater

theorem After.empty : After o [] OutputSink.empty.columns := by
  intro above line hline
  rw [splitLines] at hline
  have hempty : line = [] := by
    have h := congrArg List.getLast? hline
    simpa using h.symm
  rw [hempty]
  exact AtLine.start o.maxColumns rfl rfl

theorem not_cutsLongLine_nil (hmax : ELLIPSIS.utf8Size ≤ max) (after : Text) :
    ¬CutsLongLine max [] after := by
  rintro ⟨above, line, first, below, hline, -, -, hroom, -⟩
  rw [splitLines] at hline
  have hempty : line = [] := by
    have h := congrArg List.getLast? hline
    simpa using h.symm
  rw [hempty, byteLength_nil] at hroom
  omega

/-- Without a place at which the sink could cut a long line, every cutting gives the same stream. -/
theorem cappedStream_eq (hmax : ELLIPSIS.utf8Size ≤ o.maxColumns)
    (hsanitize : ∀ piece, piece <:+: chunks.flatten → o.sanitize piece = piece)
    (hcut : ∀ before after, chunks.flatten = before ++ after →
      CutsLongLine o.maxColumns before after →
      ¬CanCutAfter o before) :
    cappedStream o chunks = capText o.maxColumns chunks.flatten := by
  have hflatten : (batches o [] chunks).flatten = chunks.flatten :=
    flatten_batches (.inr rfl) chunks
  have hrun := @After.visibleChunks_text o hmax (batches o [] chunks) [] OutputSink.empty.columns
    After.empty (fun batch hbatch => hsanitize batch ?_)
      (fun earlier later hsplit hlater hbad => ?_)
  · have hempty : capText o.maxColumns [] = [] := rfl
    rw [hflatten] at hrun
    exact hrun
  · rw [← hflatten]
    exact infix_of_mem_flatten hbatch
  · by_cases hearlier : earlier = []
    · rw [hearlier] at hbad
      exact not_cutsLongLine_nil hmax _ hbad
    · refine hcut earlier.flatten later.flatten ?_ hbad
        (canCutAfter_of_batches hsplit hearlier hlater)
      rw [← hflatten, hsplit, flatten_append]

theorem batches_pair (hafter : after ≠ [])
    (hcan : CanCutAfter o before) : batches o [] [before, after] = [before, after] := by
  simp only [batches, nil_append]
  by_cases hcoalesce : o.coalesceSanitize = true
  · rw [if_pos hcoalesce, if_pos (hcan hcoalesce), if_pos hcoalesce]
    split <;> rfl
  · rw [if_neg hcoalesce, if_neg hcoalesce]
    simp

/-- The column cap does what it should exactly for the texts in which the sink can cut no long line
where less than the room for the ellipsis is left. -/
theorem capsColumns_iff {text : Text} (hmax : ELLIPSIS.utf8Size ≤ o.maxColumns)
    (hsanitize : ∀ piece, piece <:+: text → o.sanitize piece = piece) :
    CapsColumns o text ↔
      ∀ before after, text = before ++ after → CutsLongLine o.maxColumns before after →
        ¬CanCutAfter o before := by
  constructor
  · rintro ⟨hbounded, -⟩ before after rfl hcut hcan
    have hafter : after ≠ [] := by
      rintro rfl
      obtain ⟨above, line, first, below, -, hfirst, hfits, -, hlong⟩ := hcut
      rw [splitLines, splitOn_nil] at hfirst
      cases hfirst
      rw [byteLength_nil] at hlong
      omega
    have hsanitizeBefore := hsanitize before (prefix_append before after).isInfix
    have hsanitizeAfter := hsanitize after (suffix_append before after).isInfix
    -- The first chunk is capped as a text of its own, and the second cuts its last line.
    have hfirst := After.empty.visibleChunk_text hmax hsanitizeBefore
      (not_cutsLongLine_nil hmax before)
    have hstate := After.empty.visibleChunk hmax hsanitizeBefore
    rw [nil_append] at hfirst hstate
    have hempty : capText o.maxColumns [] = [] := rfl
    rw [hempty] at hfirst
    obtain ⟨line, hline, hlong⟩ := hstate.visibleChunk_long hmax hsanitizeAfter hcut
    have hstream : cappedStream o [before, after] = capText o.maxColumns before ++
        (OutputSink.visibleChunk o (OutputSink.visibleChunk o OutputSink.empty.columns before).2
          after).1 := by
      rw [cappedStream, visibleTexts, batches_pair hafter hcan, ← hfirst]
      simp [visibleChunks]
    have hle := hbounded [before, after] (by simp) line (by rw [hstream]; exact hline)
    omega
  · intro hcut
    have hstream : ∀ chunks : List Text, chunks.flatten = text →
        cappedStream o chunks = capText o.maxColumns text := by
      rintro chunks rfl
      exact cappedStream_eq hmax hsanitize hcut
    refine ⟨fun chunks hchunks line hline => ?_, fun chunks chunks' hchunks hchunks' => ?_⟩
    · rw [hstream chunks hchunks, splitLines_capText] at hline
      obtain ⟨line, -, rfl⟩ := mem_map.1 hline
      exact byteLength_capLine_le hmax line
    · rw [hstream chunks hchunks, hstream chunks' hchunks']

end Run

def threeColumns : SinkOptions :=
  { spillThreshold := 1024
    headLimit := 0
    maxColumns := 3
    coalesceSanitize := false
    sanitize := id
    formatMiddleElisionMarker := fun _ _ => [] }

theorem capsColumns_iff_abcd :
    CapsColumns threeColumns "abcd".toList ↔
      ∀ before after, "abcd".toList = before ++ after → CutsLongLine 3 before after →
        ¬CanCutAfter threeColumns before :=
  capsColumns_iff (o := threeColumns) (by decide) fun _ _ => rfl

/-- The four letters in two chunks become three letters and an ellipsis, six bytes. -/
theorem threeColumns_not_capsColumns : ¬CapsColumns threeColumns "abcd".toList := by
  intro h
  have hstream : splitLines (cappedStream threeColumns ["abc".toList, "d".toList]) =
      ["abc…".toList] := by decide +kernel
  have hle := h.bounded ["abc".toList, "d".toList] rfl "abc…".toList (by rw [hstream]; simp)
  revert hle
  decide +kernel

end Vibrato.Output
