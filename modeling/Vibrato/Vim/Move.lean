import Vibrato.Vim.Engine

/-! `:move` takes the lines of the range out and puts them back behind the destination line. -/

namespace Vibrato.Vim

open Lib List

structure VimLineRange where
  start : Nat
  stop : Nat

/-- `VimLineRange | "all"` -/
inductive ExRange where
  | all
  | lines (range : VimLineRange)

namespace VimBuffer

variable (b : VimBuffer)

variable (range : Option ExRange)

def resolveExRange (defaultStart defaultEnd : Nat) : VimLineRange :=
  let totalLines := max 1 b.lines.length
  let clamp (next : VimLineRange) : VimLineRange :=
    let start := max 1 (min next.start totalLines)
    ⟨start, max start (min next.stop totalLines)⟩
  match range with
  | some .all => ⟨1, totalLines⟩
  | some (.lines next) => clamp next
  | none => clamp ⟨defaultStart, defaultEnd⟩

def exRange : VimLineRange :=
  b.resolveExRange range (b.cursor.line + 1) (b.cursor.line + 1)

def exDestination (destination : Int) : Nat := (max 0 (min destination b.lines.length)).toNat

theorem exRange_bounds : 1 ≤ (b.exRange range).start ∧
    (b.exRange range).start ≤ (b.exRange range).stop ∧ (b.exRange range).stop ≤ b.lines.length := by
  have hpos := length_pos_of_ne_nil b.lines_ne_nil
  unfold exRange resolveExRange
  split
  all_goals
    dsimp only
    omega

end VimBuffer

variable (lines : List CodeUnits)

def splice (start count index : Nat) : List CodeUnits :=
  let rest := lines.take start ++ lines.drop (start + count)
  rest.take index ++ (lines.drop start).take count ++ rest.drop index

theorem splice_perm (start count index : Nat) : splice lines start count index ~ lines := by
  have hlines : lines =
      lines.take start ++ ((lines.drop start).take count ++ lines.drop (start + count)) := by
    rw [← drop_drop, take_append_drop, take_append_drop]
  conv_rhs => rw [hlines]
  refine (perm_append_comm.append_right _).trans ?_
  rw [append_assoc, take_append_drop]
  exact perm_append_comm_assoc _ _ _

def moveLines (range : Option ExRange) (destination : Int) : Mutator := fun (b, register) =>
  let dest := b.exDestination destination
  let range := b.exRange range
  let count := range.stop - range.start + 1
  let removed := (b.lines.drop (range.start - 1)).take count
  let adjustedDest := if dest > range.stop - 1 then dest - removed.length else dest
  let lines := VimBuffer.orEmptyLine (splice b.lines (range.start - 1) count adjustedDest)
  (b.place lines (VimBuffer.orEmptyLine_ne_nil _) ⟨adjustedDest, 0⟩, register)

def VimEngine.move (e : VimEngine) (range : Option ExRange) (destination : Int) : VimEngine :=
  e.applyAtomicChange (moveLines range destination)

/-- The block behind the destination line; a destination inside the block leaves the lines as they
are. -/
def moved (above block below : List CodeUnits) (dest : Nat) : List CodeUnits :=
  if dest ≤ above.length then above.take dest ++ block ++ above.drop dest ++ below
  else if dest ≤ above.length + block.length then above ++ block ++ below
  else
    let passed := dest - (above.length + block.length)
    above ++ below.take passed ++ block ++ below.drop passed

variable {above block below : List CodeUnits} {dest : Nat}

theorem splice_split (index : Nat) :
    splice (above ++ block ++ below) above.length block.length index =
    (above ++ below).take index ++ block ++ (above ++ below).drop index := by
  have hbelow : (above ++ block ++ below).drop (above.length + block.length) = below := by
    rw [← length_append, drop_left]
  rw [splice, hbelow, append_assoc above, take_left, drop_left, take_left]

theorem splice_behind (passed : Nat) :
    splice (above ++ block ++ below) above.length block.length (above.length + passed) =
      above ++ below.take passed ++ block ++ below.drop passed := by
  rw [splice_split, take_length_add_append, drop_length_add_append]

theorem splice_before (hle : dest ≤ above.length) :
    splice (above ++ block ++ below) above.length block.length dest =
      above.take dest ++ block ++ above.drop dest ++ below := by
  rw [splice_split, take_append_of_le_length hle, drop_append_of_le_length hle, ← append_assoc]

/-- Lines below pass the block for a destination inside it, and its last line is not counted to the
inside. -/
theorem splice_eq_moved_iff (hblock : block ≠ []) (above below : List CodeUnits) (dest : Nat) :
    splice (above ++ block ++ below) above.length block.length
        (if dest > above.length + block.length - 1 then dest - block.length else dest) =
      moved above block below dest ↔
    dest ≤ above.length ∨ above.length + block.length ≤ dest ∨
      below.take (dest - above.length) ++ block = block ++ below.take (dest - above.length) := by
  have hpos := length_pos_of_ne_nil hblock
  unfold moved
  by_cases hbefore : dest ≤ above.length
  · rw [if_neg (by omega), if_pos hbefore, splice_before hbefore]
    exact iff_of_true rfl (.inl hbefore)
  · by_cases hbehind : above.length + block.length ≤ dest
    · obtain ⟨passed, rfl⟩ := Nat.exists_eq_add_of_le hbehind
      have hindex :
        above.length + block.length + passed - block.length = above.length + passed := by omega
      rw [if_pos (by omega), if_neg hbefore, hindex, splice_behind, Nat.add_sub_cancel_left]
      refine iff_of_true ?_ (.inr (.inl hbehind))
      split
      · obtain rfl : passed = 0 := by omega
        simp
      · rfl
    · obtain ⟨passed, rfl⟩ := Nat.exists_eq_add_of_le (Nat.le_of_not_le hbefore)
      rw [if_neg (by omega), if_neg hbefore, if_pos (by omega), splice_behind,
        Nat.add_sub_cancel_left]
      constructor
      · intro heq
        rw [append_assoc, append_assoc, append_assoc] at heq
        have hsuffix := append_cancel_left heq
        rw [← append_assoc] at hsuffix
        conv_rhs at hsuffix => rw [← take_append_drop passed below, ← append_assoc]
        exact .inr (.inr (append_cancel_right hsuffix))
      · rintro (hle | hle | heq)
        · exact absurd hle hbefore
        · exact absurd hle hbehind
        · rw [append_assoc above, heq]
          simp

/-- `:move` puts the lines of the range behind the destination line, and loses and repeats no
line. -/
structure Moves (e : VimEngine) (range : Option ExRange) (destination : Int) : Prop where
  lines : (e.move range destination).buffer.lines =
    moved (e.buffer.lines.take ((e.buffer.exRange range).start - 1))
      ((e.buffer.lines.take (e.buffer.exRange range).stop).drop
        ((e.buffer.exRange range).start - 1))
      (e.buffer.lines.drop (e.buffer.exRange range).stop) (e.buffer.exDestination destination)
  perm : (e.move range destination).buffer.lines ~ e.buffer.lines

/-- The destination is not inside the range, or is its last line, or the block and the lines that
pass it read the same in both orders, as when the range ends with the buffer. -/
def Passes (b : VimBuffer) (range : VimLineRange) (dest : Nat) : Prop :=
  dest < range.start ∨ range.stop ≤ dest ∨
    (b.lines.drop range.stop).take (dest - (range.start - 1)) ++
      (b.lines.take range.stop).drop (range.start - 1) =
      (b.lines.take range.stop).drop (range.start - 1) ++
        (b.lines.drop range.stop).take (dest - (range.start - 1))

theorem move_lines (e : VimEngine) (range : Option ExRange) (destination : Int) :
    (e.move range destination).buffer.lines =
      splice e.buffer.lines ((e.buffer.exRange range).start - 1)
        ((e.buffer.exRange range).stop - (e.buffer.exRange range).start + 1)
        (if e.buffer.exDestination destination > (e.buffer.exRange range).stop - 1 then
          e.buffer.exDestination
            destination - ((e.buffer.lines.drop ((e.buffer.exRange range).start - 1)).take
            ((e.buffer.exRange range).stop - (e.buffer.exRange range).start + 1)).length
        else e.buffer.exDestination destination) := by
  rw [VimEngine.move, VimEngine.applyAtomicChange_buffer]
  exact if_neg fun hnil => e.buffer.lines_ne_nil (hnil ▸ splice_perm _ _ _ _).nil_eq.symm

/-- `:move` is the permutation exactly if the block is not sent into itself, or nothing shows. -/
theorem move_iff (e : VimEngine) (range : Option ExRange) (destination : Int) :
    Moves e range destination ↔
      Passes e.buffer (e.buffer.exRange range) (e.buffer.exDestination destination) := by
  obtain ⟨hstart, hle, hstop⟩ := e.buffer.exRange_bounds range
  have hlines := move_lines e range destination
  have hperm : (e.move range destination).buffer.lines ~ e.buffer.lines :=
    hlines ▸ splice_perm _ _ _ _
  have hmoves : Moves e range destination ↔ (e.move range destination).buffer.lines = _ :=
    ⟨Moves.lines, fun h => ⟨h, hperm⟩⟩
  rw [hmoves, hlines, Passes]
  generalize e.buffer.exDestination destination = dest
  generalize e.buffer.exRange range = r at hstart hle hstop
  -- the lines above the range, in it, and below it
  have habove : (e.buffer.lines.take (r.start - 1)).length = r.start - 1 := by
    rw [length_take]
    omega
  have hblock : ((e.buffer.lines.take r.stop).drop (r.start - 1)).length =
      r.stop - r.start + 1 := by
    rw [length_drop, length_take]
    omega
  have hremoved : ((e.buffer.lines.drop (r.start - 1)).take (r.stop - r.start + 1)).length =
      r.stop - r.start + 1 := by
    rw [length_take, length_drop]
    omega
  have hsplit : e.buffer.lines = e.buffer.lines.take (r.start - 1) ++
      (e.buffer.lines.take r.stop).drop (r.start - 1) ++ e.buffer.lines.drop r.stop := by
    have htake : (e.buffer.lines.take r.stop).take (r.start - 1) =
        e.buffer.lines.take (r.start - 1) := by
      rw [take_take, Nat.min_eq_left (by omega)]
    rw [← htake, take_append_drop, take_append_drop]
  have hend : r.start - 1 + (r.stop - r.start + 1) = r.stop := by omega
  have hiff :=
    splice_eq_moved_iff (ne_nil_of_length_pos (Nat.lt_of_lt_of_eq (Nat.succ_pos _) hblock.symm))
    (e.buffer.lines.take (r.start - 1)) (e.buffer.lines.drop r.stop) dest
  rw [← hsplit, habove, hblock, hend] at hiff
  rw [hremoved, hiff, Nat.le_sub_one_iff_lt hstart]

/-- `:1,2m1` on the lines `a`, `b`, and `c` makes them `c`, `a`, and `b`. -/
theorem not_moves_into_block : ¬Moves (.ofLines [[97], [98], [99]]) (some (.lines ⟨1, 2⟩)) 1 :=
  fun h => absurd h.lines (by decide)

end Vibrato.Vim
