import Mathlib.Data.List.GetD
import Mathlib.Data.Prod.Lex
import Mathlib.Data.Finset.Max
import Mathlib.Data.Fintype.Fin

/-! Patches on a list of lines. -/

namespace Vibrato.Lib

open List

/-- Lines count from one.  A patch with `stop < line` names no line. -/
structure Patch (α : Type*) where
  line : Nat
  stop : Nat
  payload : List α
  above : Nat
  below : Nat

namespace Patch

variable {α : Type*}

variable (p : Patch α)

def Names (l : Nat) : Prop := p.line ≤ l ∧ l ≤ p.stop

def AbsorbsAbove (l : Nat) : Prop := p.line ≤ l + p.above ∧ l < p.line

def AbsorbsBelow (l : Nat) : Prop := p.stop < l ∧ l ≤ p.stop + p.below

def Deletes (l : Nat) : Prop := p.line ≤ l + p.above ∧ l ≤ p.stop + p.below

instance (p : Patch α) : DecidablePred p.Names := fun _ => inferInstanceAs (Decidable (_ ∧ _))

instance (p : Patch α) : DecidablePred p.Deletes := fun _ => inferInstanceAs (Decidable (_ ∧ _))

end Patch

section Render

variable {α : Type*} (lines : List α) (patches : List (Patch α))

def named (l : Nat) : Bool := patches.any fun p => p.Names l

def deleted (l : Nat) : Bool := patches.any fun p => p.Deletes l

def textsBefore (l : Nat) : List α := (patches.filter (·.line = l)).flatMap Patch.payload

def render : List α :=
  (List.range' 1 lines.length).flatMap fun l =>
    textsBefore patches l ++ if deleted patches l then [] else lines[l - 1]?.toList

def kept : List α :=
  ((List.range' 1 lines.length).filter (!named patches ·)).filterMap fun l => lines[l - 1]?

end Render

/-- A place in the rendered lines: before `line`, in the payload of patch number `patch`, at
`index`.  The line itself follows the payloads, as if it were a last patch. -/
structure Slot where
  line : Nat
  patch : Nat
  index : Nat

open Slot

namespace Slot

def Before (a b : Slot) : Prop :=
  a.line < b.line ∨ a.line = b.line ∧ (a.patch < b.patch ∨ a.patch = b.patch ∧ a.index < b.index)

instance : Std.Antisymm Before where
  antisymm a b hab hba := by
    unfold Before at hab hba
    omega

theorem Before.ne {a b : Slot} (hab : Before a b) : a ≠ b := by
  rintro rfl
  unfold Before at hab
  omega

end Slot

theorem sublist_of_subset_of_before {l₁ l₂ : List Slot} (h₁ : l₁.Pairwise Slot.Before)
    (h₂ : l₂.Pairwise Slot.Before) (hsub : l₁ ⊆ l₂) : l₁.Sublist l₂ :=
  sublist_of_subperm_of_pairwise (subperm_of_subset (h₁.imp Slot.Before.ne) hsub) h₁ h₂

section Slots

variable {α : Type*} (lines : List α) (patches : List (Patch α)) {l : Nat}

def payloadSlots (l : Nat) (p : Patch α × Nat) : List Slot :=
  if p.1.line = l then (List.range p.1.payload.length).map (mk l p.2) else []

def slots : List Slot :=
  (List.range' 1 lines.length).flatMap fun l =>
    patches.zipIdx.flatMap (payloadSlots l) ++
      if deleted patches l then [] else [⟨l, patches.length, 0⟩]

def Slot.value (s : Slot) : Option α :=
  match patches[s.patch]? with
  | some p => p.payload[s.index]?
  | none => lines[s.line - 1]?

theorem filterMap_range_getElem? (payload : List α) :
    (List.range payload.length).filterMap (payload[·]?) = payload := by
  induction payload with
  | nil => rfl
  | cons x xs ih => simp [range_succ_eq_map, filterMap_map, ih]

theorem filterMap_payloadSlots {l i : Nat} {p : Patch α} (hp : patches[i]? = some p) :
    (payloadSlots l (p, i)).filterMap (value lines patches) =
      if p.line = l then p.payload else [] := by
  unfold payloadSlots
  split
  · rw [filterMap_map]
    have hvalue : value lines patches ∘ mk l i = fun k => p.payload[k]? := by
      funext k
      simp [value, hp]
    rw [hvalue, filterMap_range_getElem?]
  · rfl

theorem filterMap_slots :
    (slots lines patches).filterMap (value lines patches) = render lines patches := by
  unfold slots render
  rw [filterMap_flatMap]
  congr 1
  funext l
  rw [filterMap_append]
  congr 1
  · rw [filterMap_flatMap]
    have hzip : ∀ p ∈ patches.zipIdx,
        (payloadSlots l p).filterMap (value lines patches) =
          if p.1.line = l then p.1.payload else [] := by
      rintro ⟨p, i⟩ hp
      exact filterMap_payloadSlots lines patches (mk_mem_zipIdx_iff_getElem?.1 hp)
    rw [flatMap_congr hzip, textsBefore]
    conv_rhs => rw [← zipIdx_map_fst 0 patches]
    induction patches.zipIdx with
    | nil => rfl
    | cons p ps ih => by_cases hp : p.1.line = l <;> simp [hp, ih]
  · split
    · rfl
    · cases hline : lines[l - 1]? <;> simp [value, hline]

theorem mem_payloadSlots {p : Patch α × Nat} {s : Slot} :
    s ∈ payloadSlots l p ↔ p.1.line = l ∧ s.line = l ∧ s.patch = p.2 ∧
      s.index < p.1.payload.length := by
  unfold payloadSlots
  split
  · next hline =>
    simp only [mem_map, mem_range, hline, true_and]
    constructor
    · rintro ⟨k, hk, rfl⟩
      exact ⟨rfl, rfl, hk⟩
    · rintro ⟨rfl, hpatch, hindex⟩
      exact ⟨s.index, hindex, by rw [← hpatch]⟩
  · next hline => simp [hline]

theorem pairwise_payloadSlots (l : Nat) (p : Patch α × Nat) :
    (payloadSlots l p).Pairwise Slot.Before := by
  unfold payloadSlots
  split
  · rw [pairwise_map]
    refine pairwise_lt_range.imp fun {a b} hab => ?_
    exact .inr ⟨rfl, .inr ⟨rfl, hab⟩⟩
  · exact List.Pairwise.nil

theorem pairwise_flatMap_payloadSlots (l : Nat) :
    (patches.zipIdx.flatMap (payloadSlots l)).Pairwise Slot.Before := by
  rw [pairwise_flatMap]
  refine ⟨fun p _ => pairwise_payloadSlots l p, ?_⟩
  have hindices : patches.zipIdx.Pairwise fun p q => p.2 < q.2 := by
    rw [← pairwise_map, zipIdx_map_snd]
    exact pairwise_lt_range'
  refine hindices.imp fun {p q} hpq a ha b hb => ?_
  obtain ⟨-, haline, hapatch, -⟩ := mem_payloadSlots.1 ha
  obtain ⟨-, hbline, hbpatch, -⟩ := mem_payloadSlots.1 hb
  exact .inr ⟨by omega, .inl (by omega)⟩

theorem mem_flatMap_payloadSlots {s : Slot} :
    s ∈ patches.zipIdx.flatMap (payloadSlots l) ↔ s.line = l ∧ ∃ p, patches[s.patch]? = some p ∧
      p.line = l ∧ s.index < p.payload.length := by
  rw [mem_flatMap]
  constructor
  · rintro ⟨⟨p, i⟩, hp, hs⟩
    obtain ⟨hline, hsline, rfl, hindex⟩ := mem_payloadSlots.1 hs
    exact ⟨hsline, p, mk_mem_zipIdx_iff_getElem?.1 hp, hline, hindex⟩
  · rintro ⟨hsline, p, hp, hline, hindex⟩
    exact ⟨(p, s.patch), mk_mem_zipIdx_iff_getElem?.2 hp,
      mem_payloadSlots.2 ⟨hline, hsline, rfl, hindex⟩⟩

theorem pairwise_slots : (slots lines patches).Pairwise Slot.Before := by
  have hself : ∀ l : Nat, ∀ s ∈ (if deleted patches l then [] else
      [(⟨l, patches.length, 0⟩ : Slot)]), s = ⟨l, patches.length, 0⟩ := by
    intro l s hs
    split at hs
    · cases hs
    · exact mem_singleton.1 hs
  have hline : ∀ l : Nat, ∀ s ∈ patches.zipIdx.flatMap (payloadSlots l) ++
      (if deleted patches l then [] else [⟨l, patches.length, 0⟩]), s.line = l := by
    intro l s hs
    rcases mem_append.1 hs with hs | hs
    · exact ((mem_flatMap_payloadSlots patches).1 hs).1
    · rw [hself l s hs]
  unfold slots
  rw [pairwise_flatMap]
  refine ⟨fun l _ => ?_, ?_⟩
  · rw [pairwise_append]
    refine ⟨pairwise_flatMap_payloadSlots patches l, ?_, ?_⟩
    · split
      · exact List.Pairwise.nil
      · exact pairwise_singleton _ _
    · intro a ha b hb
      obtain ⟨haline, p, hp, -, -⟩ := (mem_flatMap_payloadSlots patches).1 ha
      have hlt : a.patch < patches.length := (List.getElem?_eq_some_iff.1 hp).1
      rw [hself l b hb]
      exact .inr ⟨haline, .inl hlt⟩
  · have hlines : (List.range' 1 lines.length).Pairwise (· < ·) := pairwise_lt_range'
    refine hlines.imp fun {l m} hlm a ha b hb => ?_
    rw [← hline l a ha, ← hline m b hb] at hlm
    exact .inl hlm

theorem mem_slots_of_payload {i k : Nat} {p : Patch α} (hp : patches[i]? = some p)
    (hfirst : 1 ≤ p.line) (hline : p.line ≤ lines.length) (hk : k < p.payload.length) :
    (⟨p.line, i, k⟩ : Slot) ∈ slots lines patches := by
  refine mem_flatMap.2 ⟨p.line, mem_range'_1.2 ⟨hfirst, by omega⟩, ?_⟩
  exact mem_append_left _ ((mem_flatMap_payloadSlots patches).2 ⟨rfl, p, hp, rfl, hk⟩)

theorem mem_slots_of_line (hfirst : 1 ≤ l) (hline : l ≤ lines.length)
    (hl : deleted patches l = false) : (⟨l, patches.length, 0⟩ : Slot) ∈ slots lines patches := by
  refine mem_flatMap.2 ⟨l, mem_range'_1.2 ⟨hfirst, by omega⟩, ?_⟩
  rw [hl]
  exact mem_append_right _ (mem_singleton.2 rfl)

end Slots

/-- What the absorption of lines may rely on: a payload starts with the lines absorbed above and
ends with the lines absorbed below, and no absorbed line is named. -/
structure Fits {α : Type*} (lines : List α) (patches : List (Patch α)) : Prop where
  line_mem : ∀ p ∈ patches, 1 ≤ p.line ∧ p.line ≤ lines.length
  above_lt : ∀ p ∈ patches, p.above < p.line
  above_eq : ∀ p ∈ patches, ∀ k < p.above, p.payload[k]? = lines[p.line - p.above - 1 + k]?
  below_eq : ∀ p ∈ patches, ∀ k < p.below, p.payload[p.payload.length - p.below + k]? =
    lines[p.stop + k]?
  line_le_stop : ∀ p ∈ patches, 0 < p.above + p.below → p.line ≤ p.stop
  not_above : ∀ p ∈ patches, ∀ q ∈ patches, ∀ l, q.Names l → ¬p.AbsorbsAbove l
  not_below : ∀ p ∈ patches, ∀ q ∈ patches, ∀ l, q.Names l → ¬p.AbsorbsBelow l

def DisjointEnds {α : Type*} (patches : List (Patch α)) : Prop :=
  ∀ p ∈ patches, p.above + p.below ≤ p.payload.length

def Uncrossed {α : Type*} (patches : List (Patch α)) : Prop :=
  patches.Pairwise fun p q => p.line = q.line → q.above ≤ p.above ∨ p.below ≤ q.below

section Emits

variable {α : Type*} (patches : List (Patch α)) {l : Nat} {p : Patch α}

def FirstAbove (i : Nat) (p : Patch α) : Prop :=
  patches[i]? = some p ∧ ∀ j q, patches[j]? = some q → q.line = p.line →
    q.above < p.above ∨ q.above = p.above ∧ i ≤ j

def LastBelow (i : Nat) (p : Patch α) : Prop :=
  patches[i]? = some p ∧ ∀ j q, patches[j]? = some q → q.stop = p.stop →
    q.below < p.below ∨ q.below = p.below ∧ (q.line < p.line ∨ q.line = p.line ∧ j ≤ i)

/-- The slot that stands for line `l`: its own if it is not deleted, and else the one in the payload
that repeats it, where lines absorbed below a patch go first. -/
inductive Emits (l : Nat) : Slot → Prop where
  | own (hl : deleted patches l = false) : Emits l ⟨l, patches.length, 0⟩
  | below {i : Nat} {p : Patch α} (hp : LastBelow patches i p) (hl : p.AbsorbsBelow l) :
    Emits l ⟨p.line, i, p.payload.length - p.below + (l - p.stop - 1)⟩
  | above {i : Nat} {p : Patch α} (hp : FirstAbove patches i p) (hl : p.AbsorbsAbove l)
    (hbelow : ∀ q ∈ patches, ¬q.AbsorbsBelow l) : Emits l ⟨p.line, i, l + p.above - p.line⟩

theorem exists_greatest {β : Type*} [LinearOrder β] (P : Patch α → Prop)
    (key : Fin patches.length → β) (hp : p ∈ patches) (hP : P p) :
    ∃ i : Fin patches.length, P (patches.get i) ∧ ∀ j : Fin patches.length, P (patches.get j) →
      key j ≤ key i := by
  classical
  obtain ⟨i, hi⟩ := get_of_mem hp
  have hne : (Finset.univ.filter fun i => P (patches.get i)).Nonempty :=
    ⟨i, Finset.mem_filter.2 ⟨Finset.mem_univ i, by rw [hi]; exact hP⟩⟩
  obtain ⟨m, hm, hmax⟩ := Finset.exists_max_image _ key hne
  exact ⟨m, (Finset.mem_filter.1 hm).2,
    fun j hj => hmax j (Finset.mem_filter.2 ⟨Finset.mem_univ j, hj⟩)⟩

theorem exists_firstAbove (hp : p ∈ patches) :
    ∃ i q, FirstAbove patches i q ∧ q.line = p.line ∧ p.above ≤ q.above := by
  obtain ⟨i, hi, hmax⟩ := exists_greatest patches (·.line = p.line)
    (fun i => toLex ((patches.get i).above, patches.length - i.val)) hp rfl
  have hle : ∀ j q, patches[j]? = some q → q.line = p.line →
      q.above < (patches.get i).above ∨ q.above = (patches.get i).above ∧ i.val ≤ j := by
    intro j q hq hline
    obtain ⟨hj, rfl⟩ := List.getElem?_eq_some_iff.1 hq
    have hle := hmax ⟨j, hj⟩ hline
    rw [Prod.Lex.toLex_le_toLex] at hle
    have hi := i.isLt
    simp only [get_eq_getElem] at hle ⊢
    omega
  obtain ⟨j, hj⟩ := getElem?_of_mem hp
  have habove := hle j p hj rfl
  refine ⟨i, patches.get i, ⟨getElem?_eq_getElem i.isLt, ?_⟩, hi, by omega⟩
  rw [hi]
  exact hle

theorem exists_lastBelow (hp : p ∈ patches) :
    ∃ i q, LastBelow patches i q ∧ q.stop = p.stop ∧ p.below ≤ q.below := by
  obtain ⟨i, hi, hmax⟩ := exists_greatest patches (·.stop = p.stop)
    (fun i => toLex ((patches.get i).below, toLex ((patches.get i).line, i.val))) hp rfl
  have hle : ∀ j q, patches[j]? = some q → q.stop = p.stop →
      q.below < (patches.get i).below ∨ q.below = (patches.get i).below ∧
        (q.line < (patches.get i).line ∨ q.line = (patches.get i).line ∧ j ≤ i.val) := by
    intro j q hq hstop
    obtain ⟨hj, rfl⟩ := List.getElem?_eq_some_iff.1 hq
    have hle := hmax ⟨j, hj⟩ hstop
    rw [Prod.Lex.toLex_le_toLex, Prod.Lex.toLex_le_toLex] at hle
    exact hle
  obtain ⟨j, hj⟩ := getElem?_of_mem hp
  have hbelow := hle j p hj rfl
  refine ⟨i, patches.get i, ⟨getElem?_eq_getElem i.isLt, ?_⟩, hi, by omega⟩
  rw [hi]
  exact hle

theorem deleted_eq_false : deleted patches l = false ↔ ∀ p ∈ patches, ¬p.Deletes l := by
  simp [deleted]

theorem named_eq_false : named patches l = false ↔ ∀ p ∈ patches, ¬p.Names l := by
  simp [named]

theorem exists_emits (hl : named patches l = false) : ∃ s, Emits patches l s := by
  rw [named_eq_false] at hl
  by_cases hdel : deleted patches l = false
  · exact ⟨_, .own hdel⟩
  by_cases hbelow : ∃ p ∈ patches, p.AbsorbsBelow l
  · obtain ⟨p, hp, hpl⟩ := hbelow
    obtain ⟨i, q, hq, hstop, hle⟩ := exists_lastBelow patches hp
    unfold Patch.AbsorbsBelow at hpl
    exact ⟨_, .below hq ⟨by omega, by omega⟩⟩
  · push Not at hbelow
    rw [deleted_eq_false] at hdel
    push Not at hdel
    obtain ⟨p, hp, hpl⟩ := hdel
    have hnames := hl p hp
    have hnot := hbelow p hp
    obtain ⟨i, q, hq, hline, hle⟩ := exists_firstAbove patches hp
    unfold Patch.Deletes at hpl
    unfold Patch.Names at hnames
    unfold Patch.AbsorbsBelow at hnot
    exact ⟨_, .above hq ⟨by omega, by omega⟩ hbelow⟩

end Emits

section Kept

variable {α : Type*} {lines : List α} {patches : List (Patch α)}

theorem emits_mem_slots (hfits : Fits lines patches) (hdisjoint : DisjointEnds patches) {l : Nat}
    (hl : 1 ≤ l) (hlen : l ≤ lines.length) {s : Slot} (hs : Emits patches l s) :
    s ∈ slots lines patches := by
  cases hs with
  | own hdel => exact mem_slots_of_line lines patches hl hlen hdel
  | below hp hpl =>
    have hmem := mem_of_getElem? hp.1
    have hle := hdisjoint _ hmem
    obtain ⟨hfirst, hline⟩ := hfits.line_mem _ hmem
    unfold Patch.AbsorbsBelow at hpl
    exact mem_slots_of_payload lines patches hp.1 hfirst hline (by omega)
  | above hp hpl _ =>
    have hmem := mem_of_getElem? hp.1
    have hle := hdisjoint _ hmem
    obtain ⟨hfirst, hline⟩ := hfits.line_mem _ hmem
    unfold Patch.AbsorbsAbove at hpl
    exact mem_slots_of_payload lines patches hp.1 hfirst hline (by omega)

theorem emits_value (hfits : Fits lines patches) {l : Nat} (hl : 1 ≤ l) {s : Slot}
    (hs : Emits patches l s) : s.value lines patches = lines[l - 1]? := by
  cases hs with
  | own _ => simp [value]
  | below hp hpl =>
    have hmem := mem_of_getElem? hp.1
    unfold Patch.AbsorbsBelow at hpl
    simp only [value, hp.1]
    rw [hfits.below_eq _ hmem _ (by omega)]
    congr 1
    omega
  | above hp hpl _ =>
    have hmem := mem_of_getElem? hp.1
    have hlt := hfits.above_lt _ hmem
    unfold Patch.AbsorbsAbove at hpl
    simp only [value, hp.1]
    rw [hfits.above_eq _ hmem _ (by omega)]
    congr 1
    omega

variable {i j l m : Nat} {p q : Patch α}

variable (hfits : Fits lines patches)
include hfits

theorem before_of_below_below (hlm : l < m)
    (hp : LastBelow patches i p) (hl : p.AbsorbsBelow l) (hq : LastBelow patches j q)
    (hm : q.AbsorbsBelow m) :
    Slot.Before ⟨p.line, i, p.payload.length - p.below + (l - p.stop - 1)⟩
      ⟨q.line, j, q.payload.length - q.below + (m - q.stop - 1)⟩ := by
  have hpmem := mem_of_getElem? hp.1
  have hqmem := mem_of_getElem? hq.1
  have hpq := hp.2 j q hq.1
  have hqp := hq.2 i p hp.1
  have hprange := hfits.line_le_stop p hpmem
  have hqrange := hfits.line_le_stop q hqmem
  -- The end of one range does not stand among the lines that the other patch absorbs below.
  have hnext := hfits.not_below p hpmem q hqmem (p.stop + 1)
  have hend := hfits.not_below q hqmem p hpmem p.stop
  unfold Patch.AbsorbsBelow Patch.Names at *
  by_cases hstop : p.stop = q.stop
  · have hline : p.line = q.line ∧ i = j ∧ p.below = q.below := by omega
    obtain ⟨hline, rfl, -⟩ := hline
    obtain rfl : p = q := Option.some.inj (hp.1.symm.trans hq.1)
    exact .inr ⟨rfl, .inr ⟨rfl, by simp only; omega⟩⟩
  · exact .inl (by simp only; omega)

theorem before_of_above_above (hlm : l < m)
    (hp : FirstAbove patches i p) (hl : p.AbsorbsAbove l) (hq : FirstAbove patches j q)
    (hm : q.AbsorbsAbove m) :
    Slot.Before ⟨p.line, i, l + p.above - p.line⟩ ⟨q.line, j, m + q.above - q.line⟩ := by
  have hpmem := mem_of_getElem? hp.1
  have hqmem := mem_of_getElem? hq.1
  have hpq := hp.2 j q hq.1
  have hqp := hq.2 i p hp.1
  have hqrange := hfits.line_le_stop q hqmem
  have hstart := hfits.not_above p hpmem q hqmem q.line
  unfold Patch.AbsorbsAbove Patch.Names at *
  by_cases hline : p.line = q.line
  · obtain rfl : i = j := by omega
    obtain rfl : p = q := Option.some.inj (hp.1.symm.trans hq.1)
    exact .inr ⟨rfl, .inr ⟨rfl, by simp only; omega⟩⟩
  · exact .inl (by simp only; omega)

theorem before_of_above_below (hdisjoint : DisjointEnds patches)
    (huncrossed : Uncrossed patches) (hlm : l < m) (hlnamed : ∀ r ∈ patches, ¬r.Names l)
    (hp : FirstAbove patches i p) (hl : p.AbsorbsAbove l)
    (hlbelow : ∀ r ∈ patches, ¬r.AbsorbsBelow l) (hq : LastBelow patches j q)
    (hm : q.AbsorbsBelow m) :
    Slot.Before ⟨p.line, i, l + p.above - p.line⟩
      ⟨q.line, j, q.payload.length - q.below + (m - q.stop - 1)⟩ := by
  have hpmem := mem_of_getElem? hp.1
  have hqmem := mem_of_getElem? hq.1
  have hprange := hfits.line_le_stop p hpmem
  have hqrange := hfits.line_le_stop q hqmem
  have hqnames := hlnamed q hqmem
  have hqbelow := hlbelow q hqmem
  have hline : p.line ≤ q.line := by
    have hstart := hfits.not_above p hpmem q hqmem q.line
    unfold Patch.AbsorbsAbove Patch.AbsorbsBelow Patch.Names at *
    omega
  rcases Nat.lt_or_eq_of_le hline with hlt | heq
  · exact .inl hlt
  refine .inr ⟨heq, ?_⟩
  rcases Nat.lt_trichotomy i j with hij | rfl | hji
  · exact .inl hij
  · obtain rfl : p = q := Option.some.inj (hp.1.symm.trans hq.1)
    have hle := hdisjoint p hpmem
    unfold Patch.AbsorbsAbove Patch.AbsorbsBelow at *
    exact .inr ⟨rfl, by simp only; omega⟩
  · -- The later patch absorbs above and the earlier below, so one of them does on both sides
    -- and would have been chosen for both lines.
    obtain ⟨hi, hieq⟩ := List.getElem?_eq_some_iff.1 hp.1
    obtain ⟨hj, hjeq⟩ := List.getElem?_eq_some_iff.1 hq.1
    have hcross := pairwise_iff_getElem.1 huncrossed j i hj hi hji
    rw [hieq, hjeq] at hcross
    have hfirst := hp.2 j q hq.1
    have hlast := hq.2 i p hp.1
    have hpnext := hfits.not_below p hpmem q hqmem (p.stop + 1)
    have hqnext := hfits.not_below q hqmem p hpmem (q.stop + 1)
    unfold Patch.AbsorbsAbove Patch.AbsorbsBelow Patch.Names at *
    omega

theorem emits_before (hdisjoint : DisjointEnds patches)
    (huncrossed : Uncrossed patches) (hlm : l < m) (hlnamed : named patches l = false)
    {a b : Slot} (ha : Emits patches l a) (hb : Emits patches m b) : Slot.Before a b := by
  rw [named_eq_false] at hlnamed
  cases ha with
  | own hldel =>
    rw [deleted_eq_false] at hldel
    cases hb with
    | own _ => exact .inl hlm
    | below hq hm =>
      have hnot := hldel _ (mem_of_getElem? hq.1)
      have hnames := hlnamed _ (mem_of_getElem? hq.1)
      unfold Patch.Deletes Patch.Names Patch.AbsorbsBelow at *
      exact .inl (by simp only; omega)
    | above hq hm _ => exact .inl (Nat.lt_trans hlm hm.2)
  | below hp hl =>
    have hrange := hfits.line_le_stop _ (mem_of_getElem? hp.1)
    unfold Patch.AbsorbsBelow at hl
    cases hb with
    | own _ => exact .inl (by simp only; omega)
    | below hq hm => exact before_of_below_below hfits hlm hp hl hq hm
    | above hq hm _ =>
      unfold Patch.AbsorbsAbove at hm
      exact .inl (by simp only; omega)
  | above hp hl hlbelow =>
    cases hb with
    | own hmdel =>
      have hnot := (deleted_eq_false patches).1 hmdel _ (mem_of_getElem? hp.1)
      have hrange := hfits.line_le_stop _ (mem_of_getElem? hp.1)
      have hpatch := (List.getElem?_eq_some_iff.1 hp.1).1
      unfold Patch.Deletes Patch.AbsorbsAbove at *
      unfold Slot.Before
      simp only
      omega
    | below hq hm =>
      exact before_of_above_below hfits hdisjoint huncrossed hlm hlnamed hp hl hlbelow hq hm
    | above hq hm _ => exact before_of_above_above hfits hlm hp hl hq hm

theorem kept_sublist_render (hdisjoint : DisjointEnds patches)
    (huncrossed : Uncrossed patches) : (kept lines patches).Sublist (render lines patches) := by
  have hemits : ∀ l : Nat, ∃ s, named patches l = false → Emits patches l s := by
    intro l
    by_cases hl : named patches l = false
    · obtain ⟨s, hs⟩ := exists_emits patches hl
      exact ⟨s, fun _ => hs⟩
    · exact ⟨⟨0, 0, 0⟩, fun h => absurd h hl⟩
  choose slot hslot using hemits
  have hkept : ∀ l ∈ (List.range' 1 lines.length).filter (!named patches ·),
      1 ≤ l ∧ l ≤ lines.length ∧ named patches l = false := by
    intro l hl
    obtain ⟨hrange, hnamed⟩ := mem_filter.1 hl
    rw [mem_range'_1] at hrange
    exact ⟨hrange.1, by omega, by simpa using hnamed⟩
  have hsub : (((List.range' 1 lines.length).filter (!named patches ·)).map slot).Sublist
      (slots lines patches) := by
    refine sublist_of_subset_of_before ?_ (pairwise_slots lines patches) ?_
    · rw [pairwise_map]
      have hlt : ((List.range' 1 lines.length).filter (!named patches ·)).Pairwise (· < ·) :=
        List.Pairwise.filter _ pairwise_lt_range'
      refine hlt.imp_of_mem fun {l m} hl hm hlm => ?_
      obtain ⟨-, -, hlnamed⟩ := hkept l hl
      obtain ⟨-, -, hmnamed⟩ := hkept m hm
      exact emits_before hfits hdisjoint huncrossed hlm hlnamed (hslot l hlnamed) (hslot m hmnamed)
    · intro s hs
      obtain ⟨l, hl, rfl⟩ := mem_map.1 hs
      obtain ⟨hfirst, hlen, hnamed⟩ := hkept l hl
      exact emits_mem_slots hfits hdisjoint hfirst hlen (hslot l hnamed)
  rw [← filterMap_slots]
  have hmap := hsub.filterMap (value lines patches)
  rw [filterMap_map] at hmap
  have hvalues : kept lines patches = ((List.range' 1 lines.length).filter
      (!named patches ·)).filterMap (value lines patches ∘ slot) := by
    refine filterMap_congr fun l hl => ?_
    obtain ⟨hfirst, -, hnamed⟩ := hkept l hl
    exact (emits_value hfits hfirst (hslot l hnamed)).symm
  rw [hvalues]
  exact hmap

omit hfits

theorem value_isSome_of_payload (lines : List α) {k : Nat} (hp : patches[i]? = some p)
    (hk : k < p.payload.length) :
    ((⟨p.line, i, k⟩ : Slot).value lines patches).isSome = true := by
  simp [value, hp, hk]

theorem two_le_length_render {a b : Slot} (ha : a ∈ slots lines patches)
    (hb : b ∈ slots lines patches) (hab : a.Before b)
    (havalue : (a.value lines patches).isSome = true)
    (hbvalue : (b.value lines patches).isSome = true) : 2 ≤ (render lines patches).length := by
  obtain ⟨x, hx⟩ := Option.isSome_iff_exists.1 havalue
  obtain ⟨y, hy⟩ := Option.isSome_iff_exists.1 hbvalue
  have hsub : [a, b].Sublist (slots lines patches) := by
    refine sublist_of_subset_of_before (by simpa using hab) (pairwise_slots lines patches) ?_
    intro s hs
    simp only [mem_cons, not_mem_nil, or_false] at hs
    rcases hs with rfl | rfl
    · exact ha
    · exact hb
  have hlen := (hsub.filterMap (value lines patches)).length_le
  rw [filterMap_slots] at hlen
  simpa [hx, hy] using hlen

theorem payload_length_le_render (hfits : Fits lines patches) (hp : p ∈ patches)
    (hlen : (render lines patches).length ≤ 1) : p.payload.length ≤ 1 := by
  by_contra hlt
  obtain ⟨i, hi⟩ := getElem?_of_mem hp
  obtain ⟨hfirst, hline⟩ := hfits.line_mem p hp
  have htwo := two_le_length_render
    (mem_slots_of_payload lines patches (k := 0) hi hfirst hline (by omega))
    (mem_slots_of_payload lines patches (k := 1) hi hfirst hline (by omega))
    (.inr ⟨rfl, .inr ⟨rfl, Nat.zero_lt_one⟩⟩)
    (value_isSome_of_payload lines hi (by omega)) (value_isSome_of_payload lines hi (by omega))
  omega

theorem payload_eq_nil_of_render (hfits : Fits lines patches) (hp : p ∈ patches)
    (hlen : (render lines patches).length ≤ 1) (hl : 1 ≤ l) (hle : l ≤ lines.length)
    (hdel : deleted patches l = false) : p.payload = [] := by
  by_contra hne
  have hpos : 0 < p.payload.length := length_pos_of_ne_nil hne
  obtain ⟨i, hi⟩ := getElem?_of_mem hp
  obtain ⟨hfirst, hline⟩ := hfits.line_mem p hp
  have hpatch := mem_slots_of_payload lines patches hi hfirst hline hpos
  have hown := mem_slots_of_line lines patches hl hle hdel
  have hownValue : ((⟨l, patches.length, 0⟩ : Slot).value lines patches).isSome = true := by
    simp [value]
    omega
  have hilt := (List.getElem?_eq_some_iff.1 hi).1
  have hvalue := value_isSome_of_payload lines hi hpos
  rcases Nat.lt_or_ge l p.line with hlt | hge
  · have htwo := two_le_length_render hown hpatch (.inl hlt) hownValue hvalue
    omega
  · have hbefore : Slot.Before ⟨p.line, i, 0⟩ ⟨l, patches.length, 0⟩ := by
      unfold Slot.Before
      simp only
      omega
    have htwo := two_le_length_render hpatch hown hbefore hvalue hownValue
    omega

end Kept

section Splice

variable {α : Type*} (fallback : α) (replacement : Nat → α → List α)

/-- Puts the replacement of line `l` in its place. -/
def splice (lines : List α) (l : Nat) : List α :=
  lines.take (l - 1) ++ replacement l (lines.getD (l - 1) fallback) ++ lines.drop l

theorem flatMap_zipIdx_eq_self {lines : List α} {k : Nat} {f : α × Nat → List α}
    (hf : ∀ line ∈ lines.zipIdx k, f line = [line.1]) : (lines.zipIdx k).flatMap f = lines := by
  rw [flatMap_congr hf, ← map_eq_flatMap, zipIdx_map_fst]

theorem foldl_splice {order : List Nat} (hdesc : order.Pairwise (· > ·)) {lines : List α}
    (rest : List α) (hmem : ∀ l ∈ order, 1 ≤ l ∧ l ≤ lines.length)
    (hself : ∀ l, l ≤ lines.length → l ∉ order → ∀ x, replacement l x = [x]) :
    order.foldl (splice fallback replacement) (lines ++ rest) =
      (lines.zipIdx 1).flatMap (fun line => replacement line.2 line.1) ++ rest := by
  induction order generalizing lines rest with
  | nil =>
    rw [flatMap_zipIdx_eq_self]
    · rfl
    · rintro ⟨x, l⟩ hl
      obtain ⟨-, hlt, -⟩ := mem_zipIdx hl
      exact hself l (by omega) not_mem_nil x
  | cons b order ih =>
    obtain ⟨hlt, hdesc⟩ := pairwise_cons.1 hdesc
    obtain ⟨hfirst, hlen⟩ := hmem b mem_cons_self
    have hb : b - 1 < lines.length := by omega
    have hsplit : lines = lines.take (b - 1) ++ lines[b - 1] :: lines.drop b := by
      conv_lhs => rw [← take_append_drop (b - 1) lines, drop_eq_getElem_cons hb]
      rw [Nat.sub_add_cancel hfirst]
    have htake : (lines.take (b - 1)).length = b - 1 := by
      rw [length_take]
      omega
    have hstep : splice fallback replacement (lines ++ rest) b =
        lines.take (b - 1) ++ (replacement b lines[b - 1] ++ (lines.drop b ++ rest)) := by
      rw [splice, take_append_of_le_length (by omega), drop_append_of_le_length hlen,
        getD_append _ _ _ _ hb, getD_eq_getElem _ _ hb]
      simp
    have hbelow : ((lines.drop b).zipIdx (b + 1)).flatMap
        (fun line => replacement line.2 line.1) = lines.drop b := by
      refine flatMap_zipIdx_eq_self ?_
      rintro ⟨x, l⟩ hl
      obtain ⟨hge, hlt', -⟩ := mem_zipIdx hl
      rw [length_drop] at hlt'
      refine hself l (by omega) ?_ x
      intro hmem'
      rcases mem_cons.1 hmem' with rfl | hmem'
      · omega
      · have := hlt l hmem'
        omega
    rw [foldl_cons, hstep, ih hdesc]
    · conv_rhs => rw [hsplit]
      rw [zipIdx_append, zipIdx_cons, flatMap_append, flatMap_cons, htake,
        Nat.add_sub_cancel' hfirst, hbelow]
      simp
    · intro l hl
      exact ⟨(hmem l (mem_cons_of_mem _ hl)).1, by have := hlt l hl; omega⟩
    · intro l hl hnot x
      refine hself l (by omega) ?_ x
      intro hmem'
      rcases mem_cons.1 hmem' with rfl | hmem'
      · omega
      · exact hnot hmem'

theorem flatMap_zipIdx_eq_render (lines : List α) (patches : List (Patch α)) :
    (lines.zipIdx 1).flatMap (fun line =>
      textsBefore patches line.2 ++ if deleted patches line.2 then [] else [line.1]) =
      render lines patches := by
  unfold render
  rw [← zipIdx_map_snd 1 lines, flatMap_map]
  refine flatMap_congr fun line hline => ?_
  obtain ⟨-, hget⟩ := mk_mem_zipIdx_iff_le_and_getElem?_sub.1 hline
  rw [hget]
  rfl

end Splice

end Vibrato.Lib
