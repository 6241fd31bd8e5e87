import Mathlib.Data.List.Infix

/-! Occurrences of a list in another: the first one (`indexOf`), and the pieces between those that
are found from left to right without overlap (`splitBy`). -/

namespace Vibrato.Lib

open List Option

variable {α : Type*}

def OccursAt (target content : List α) (i : Nat) : Prop := target <+: content.drop i

section Occurs

variable {target content : List α}

theorem occursAt_drop (n i : Nat) : OccursAt target (content.drop n) i ↔
    OccursAt target content (n + i) := by
  rw [OccursAt, OccursAt, drop_drop]

variable {i : Nat}

theorem OccursAt.add_le (h : OccursAt target content i) (hne : target ≠ []) :
    i + target.length ≤ content.length := by
  have hle := h.length_le
  rw [length_drop] at hle
  have hpos := length_pos_of_ne_nil hne
  omega

theorem OccursAt.eq_append (h : OccursAt target content i) :
    content = content.take i ++ (target ++ content.drop (i + target.length)) := by
  obtain ⟨rest, hrest⟩ := h
  have hdrop : content.drop (i + target.length) = rest := by
    rw [← drop_drop, ← hrest, drop_left]
  rw [hdrop, hrest, take_append_drop]

theorem occursAt_append (before after : List α) :
    OccursAt target (before ++ (target ++ after)) before.length := by
  rw [OccursAt, drop_left]
  exact prefix_append target after

end Occurs

variable [DecidableEq α] (target : List α)

instance (content : List α) (i : Nat) : Decidable (OccursAt target content i) :=
  inferInstanceAs (Decidable (target <+: content.drop i))

def indexOf : List α → Option Nat
  | [] => if target = [] then some 0 else none
  | c :: rest => if target <+: c :: rest then some 0 else (indexOf rest).map (· + 1)

/-- The pieces of a list between the occurrences of another: `skip` counts the rest of the
occurrence that is passed, and `piece` has what is read of the current piece, in reverse. -/
def splitFrom : Nat → List α → List α → List (List α)
  | _, piece, [] => [piece.reverse]
  | skip + 1, piece, _ :: rest => splitFrom skip piece rest
  | 0, piece, c :: rest =>
    if target <+: c :: rest then piece.reverse :: splitFrom (target.length - 1) [] rest
    else splitFrom 0 (c :: piece) rest

def splitBy (content : List α) : List (List α) := splitFrom target 0 [] content

variable {target}

variable {i : Nat} {content : List α}

theorem indexOf_eq_some (h : indexOf target content = some i) :
    OccursAt target content i ∧ ∀ j < i, ¬OccursAt target content j := by
  induction content generalizing i with
  | nil =>
    unfold indexOf at h
    split at h
    · next hnil =>
      cases h
      rw [hnil]
      exact ⟨ nil_prefix, fun j hj => absurd hj (Nat.not_lt_zero j)⟩
    · cases h
  | cons c rest ih =>
    unfold indexOf at h
    split at h
    · next hhere =>
      cases h
      exact ⟨hhere, fun j hj => absurd hj (Nat.not_lt_zero j)⟩
    · next hnot =>
      obtain ⟨k, hk, rfl⟩ := map_eq_some_iff.1 h
      obtain ⟨hoccurs, hfirst⟩ := ih hk
      refine ⟨hoccurs, fun j hj => ?_⟩
      cases j with
      | zero => exact hnot
      | succ j => exact hfirst j (by omega)

theorem indexOf_eq_none (h : indexOf target content = none) (i : Nat) :
    ¬OccursAt target content i := by
  induction content generalizing i with
  | nil =>
    unfold indexOf at h
    split at h
    · cases h
    · next hne =>
      intro hoccurs
      rw [OccursAt, drop_nil, prefix_nil] at hoccurs
      exact hne hoccurs
  | cons c rest ih =>
    unfold indexOf at h
    split at h
    · cases h
    · next hnot =>
      cases i with
      | zero => exact hnot
      | succ i => exact ih (map_eq_none_iff.1 h) i

theorem indexOf_eq_some_iff :
    indexOf target content = some i ↔ OccursAt target content i ∧
      ∀ j < i, ¬OccursAt target content j := by
  constructor
  · exact indexOf_eq_some
  · rintro ⟨hoccurs, hfirst⟩
    cases hindex : indexOf target content with
    | none => exact absurd hoccurs (indexOf_eq_none hindex i)
    | some k =>
      obtain ⟨hk, hkfirst⟩ := indexOf_eq_some hindex
      rcases Nat.lt_trichotomy k i with hlt | heq | hlt
      · exact absurd hk (hfirst k hlt)
      · rw [heq]
      · exact absurd hoccurs (hkfirst i hlt)

theorem indexOf_eq_none_iff : indexOf target content = none ↔ ∀ i, ¬OccursAt target content i := by
  refine ⟨indexOf_eq_none, fun h => ?_⟩
  cases hindex : indexOf target content with
  | none => rfl
  | some i => exact absurd (indexOf_eq_some hindex).1 (h i)

variable {a b more : List α}

omit [DecidableEq α] in
theorem occursAt_append_left (h : i + target.length ≤ a.length) (b : List α) :
    OccursAt target (a ++ b) i ↔ OccursAt target a i := by
  have hlength : target.length ≤ (a.drop i).length := by
    rw [length_drop]
    omega
  rw [OccursAt, drop_append_of_le_length (by omega)]
  exact isPrefix_append_of_length hlength

def cut (target content : List α) : Option (List α × List α) :=
  (indexOf target content).map fun i => (content.take i, content.drop (i + target.length))

variable {content before after : List α}

theorem cut_eq_none : cut target content = none ↔ indexOf target content = none := map_eq_none_iff

theorem cut_of_indexOf {i : Nat} (h : indexOf target content = some i) :
    cut target content = some (content.take i, content.drop (i + target.length)) := by
  rw [cut, h]
  rfl

variable (hne : target ≠ [])
include hne

theorem cut_eq_some : cut target content = some (before, after) ↔
    content = before ++ (target ++ after) ∧ ∀ j < before.length, ¬OccursAt target content j := by
  constructor
  · intro h
    obtain ⟨i, hi, heq⟩ := map_eq_some_iff.mp h
    cases heq
    obtain ⟨hoccurs, hfirst⟩ := indexOf_eq_some hi
    have hle := hoccurs.add_le hne
    refine ⟨hoccurs.eq_append, fun j hj => hfirst j ?_⟩
    rw [length_take] at hj
    omega
  · rintro ⟨rfl, hfirst⟩
    have hindex : indexOf target (before ++ (target ++ after)) = some before.length :=
      indexOf_eq_some_iff.mpr ⟨occursAt_append before after, hfirst⟩
    rw [cut, hindex, map_some, take_left, ← drop_drop, drop_left, drop_left]

theorem length_lt_of_cut (h : cut target content = some (before, after)) :
    after.length < content.length := by
  have hpos := length_pos_of_ne_nil hne
  rw [((cut_eq_some hne).mp h).1, length_append, length_append]
  omega

theorem cut_append (h : cut target content = some (before, after)) (more : List α) :
    cut target (content ++ more) = some (before, after ++ more) := by
  rw [cut_eq_some hne] at h ⊢
  obtain ⟨rfl, hfirst⟩ := h
  refine ⟨by rw [append_assoc, append_assoc], fun j hj hoccurs => hfirst j hj ?_⟩
  refine (occursAt_append_left ?_ more).mp hoccurs
  rw [length_append, length_append]
  omega

theorem cut_left (h : cut target (before ++ (target ++ (after ++ more))) =
    some (before, after ++ more)) :
    cut target (before ++ (target ++ after)) = some (before, after) := by
  rw [cut_eq_some hne] at h ⊢
  refine ⟨rfl, fun j hj hoccurs => h.2 j hj ?_⟩
  rw [← append_assoc target, ← append_assoc before]
  refine (occursAt_append_left ?_ more).mpr hoccurs
  rw [length_append, length_append]
  omega

omit hne

omit [DecidableEq α] in
theorem occursAt_right (j : Nat) : OccursAt target b j ↔
    OccursAt target (a ++ b) (a.length + j) := by
  rw [← occursAt_drop, drop_left]

theorem cut_right_eq_none (h : cut target (a ++ b) = none) : cut target b = none := by
  rw [cut_eq_none, indexOf_eq_none_iff] at h ⊢
  exact fun i hoccurs => h (a.length + i) ((occursAt_right i).mp hoccurs)

theorem cut_right (hne : target ≠ []) (h : cut target (a ++ b) = some (a ++ before, after)) :
    cut target b = some (before, after) := by
  rw [cut_eq_some hne] at h ⊢
  obtain ⟨heq, hfirst⟩ := h
  rw [append_assoc] at heq
  refine ⟨append_cancel_left heq, fun j hj hoccurs => hfirst (a.length + j) ?_
    ((occursAt_right j).mp hoccurs)⟩
  rw [length_append]
  omega

theorem splitFrom_skip (skip : Nat) (piece content : List α) :
    splitFrom target skip piece content = splitFrom target 0 piece (content.drop skip) := by
  induction skip generalizing content with
  | zero => rfl
  | succ skip ih =>
    cases content with
    | nil => rfl
    | cons c rest => exact ih rest

theorem splitFrom_none (h : indexOf target content = none)
    (piece : List α) : splitFrom target 0 piece content = [piece.reverse ++ content] := by
  induction content generalizing piece with
  | nil => simp [splitFrom]
  | cons c rest ih =>
    unfold indexOf at h
    split at h
    · cases h
    · next hnot =>
      rw [splitFrom, if_neg hnot, ih (map_eq_none_iff.1 h), reverse_cons, append_assoc,
        singleton_append]

theorem splitFrom_some (hne : target ≠ []) (h : indexOf target content = some i) (piece : List α) :
    splitFrom target 0 piece content =
      (piece.reverse ++ content.take i) :: splitBy target (content.drop (i + target.length)) := by
  induction content generalizing i piece with
  | nil =>
    rw [indexOf, if_neg hne] at h
    cases h
  | cons c rest ih =>
    unfold indexOf at h
    split at h
    · next hhere =>
      cases h
      obtain ⟨d, tail, htarget⟩ := exists_cons_of_ne_nil hne
      rw [splitFrom, if_pos hhere, splitFrom_skip, splitBy, htarget]
      simp
    · next hnot =>
      obtain ⟨k, hk, rfl⟩ := map_eq_some_iff.1 h
      rw [splitFrom, if_neg hnot, ih hk, reverse_cons, append_assoc, take_succ_cons,
        Nat.add_right_comm, drop_succ_cons]
      rfl

theorem splitBy_of_none (h : indexOf target content = none) :
    splitBy target content = [content] := splitFrom_none h []

theorem splitBy_of_some (hne : target ≠ []) (h : indexOf target content = some i) :
    splitBy target content =
      content.take i :: splitBy target (content.drop (i + target.length)) := splitFrom_some hne h []

include hne

theorem splitBy_ne_nil (content : List α) : splitBy target content ≠ [] := by
  cases h : indexOf target content with
  | none => simp [splitBy_of_none h]
  | some i => simp [splitBy_of_some hne h]

theorem one_lt_length_splitBy (content : List α) :
    1 < (splitBy target content).length ↔ ∃ i, OccursAt target content i := by
  cases h : indexOf target content with
  | none =>
    rw [splitBy_of_none h]
    simpa using indexOf_eq_none h
  | some i =>
    rw [splitBy_of_some hne h, length_cons]
    have hpos := length_pos_of_ne_nil (splitBy_ne_nil hne (content.drop (i + target.length)))
    exact iff_of_true (by omega) ⟨i, (indexOf_eq_some h).1⟩

theorem two_lt_length_splitBy (content : List α) :
    2 < (splitBy target content).length ↔
      ∃ i j, OccursAt target content i ∧ OccursAt target content j ∧ i + target.length ≤ j := by
  cases h : indexOf target content with
  | none =>
    rw [splitBy_of_none h]
    refine iff_of_false (by simp) ?_
    rintro ⟨i, -, hi, -⟩
    exact indexOf_eq_none h i hi
  | some first =>
    obtain ⟨hfirst, hbefore⟩ := indexOf_eq_some h
    have hsucc : ∀ n, 2 < n + 1 ↔ 1 < n := fun n => by omega
    rw [splitBy_of_some hne h, length_cons, hsucc, one_lt_length_splitBy hne]
    constructor
    · rintro ⟨j, hj⟩
      exact ⟨first, _, hfirst, (occursAt_drop _ _).1 hj, Nat.le_add_right _ _⟩
    · rintro ⟨i, j, hi, hj, hle⟩
      have hfi : first ≤ i := Nat.le_of_not_lt fun hlt => hbefore i hlt hi
      refine ⟨j - (first + target.length), ?_⟩
      rw [occursAt_drop, Nat.add_sub_cancel' (by omega)]
      exact hj

end Vibrato.Lib
