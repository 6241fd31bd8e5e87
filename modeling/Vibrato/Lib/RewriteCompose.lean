import Vibrato.Lib.Rewrite

/-! Passes that compose: as long as no rule replaces what an earlier one has inserted, a run of
passes is one split of the list. -/

namespace Vibrato.Lib

open List Seg

variable {α : Type*}

structure Ignores (rule : Rule α) (inserted : List α) : Prop where
  inside : ∀ part rest, part ≠ [] → part <:+ inserted → rule (part ++ rest) = none
  before : ∀ run rest n i, run ≠ [] → rule (run ++ (inserted ++ rest)) = some (n, i) →
    n ≤ run.length

def Bounded (rule : Rule α) : Prop := ∀ l n inserted, rule l = some (n, inserted) → n ≤ l.length

def keepRun : List (Seg α) → List α
  | .keep a :: segs => a :: keepRun segs
  | _ => []

def refine (rule : Rule α) : Nat → List (Seg α) → List (Seg α)
  | _, [] => []
  | _, .cut region inserted :: segs => .cut region inserted :: refine rule 0 segs
  | skip + 1, .keep _ :: segs => refine rule skip segs
  | 0, .keep a :: segs =>
    match rule (a :: outputs segs) with
    | some (n + 1, inserted) =>
        .cut ((a :: keepRun segs).take (n + 1)) inserted :: refine rule n segs
    | _ => .keep a :: refine rule 0 segs

variable (segs : List (Seg α)) {rule : Rule α}

theorem keepRun_cases :
    (keepRun segs = sources segs ∧ keepRun segs = outputs segs) ∨
      ∃ region inserted after, Seg.cut region inserted ∈ segs ∧
        sources segs = keepRun segs ++ (region ++ sources after) ∧
        outputs segs = keepRun segs ++ (inserted ++ outputs after) := by
  induction segs with
  | nil => exact .inl ⟨rfl, rfl⟩
  | cons seg segs ih =>
    cases seg with
    | cut region inserted => exact .inr ⟨region, inserted, segs, mem_cons_self, rfl, rfl⟩
    | keep a =>
      rcases ih with ⟨hsources, houtputs⟩ | ⟨region, inserted, after, hmem, hsources, houtputs⟩
      · refine .inl ⟨?_, ?_⟩
        · rw [keepRun, hsources]
          rfl
        · rw [keepRun, houtputs]
          rfl
      · refine .inr ⟨region, inserted, after, mem_cons_of_mem _ hmem, ?_, ?_⟩
        · rw [sources_cons, hsources]
          rfl
        · rw [outputs_cons, houtputs]
          rfl

theorem keepRun_isPrefix : keepRun segs <+: sources segs := by
  induction segs with
  | nil => exact prefix_refl _
  | cons seg segs ih =>
    cases seg with
    | keep a => exact (prefix_cons_inj a).2 ih
    | cut region inserted => exact nil_prefix

theorem segment_append {inserted : List α} (h : Ignores rule inserted)
    {part : List α} (hpart : part <:+ inserted) (l : List α) :
    segment rule 0 (part ++ l) = part.map keep ++ segment rule 0 l := by
  induction part with
  | nil => rfl
  | cons a part ih =>
    have hrule : rule (a :: part ++ l) = none := h.inside _ l (cons_ne_nil _ _) hpart
    rw [cons_append] at hrule ⊢
    rw [segment, hrule, ih ((suffix_cons _ _).trans hpart)]
    rfl

theorem le_length_keepRun (hbounded : Bounded rule) {segs : List (Seg α)}
    (hignores : ∀ region inserted, Seg.cut region inserted ∈ segs → Ignores rule inserted) {a : α}
    {n : Nat} {inserted : List α} (h : rule (a :: outputs segs) = some (n + 1, inserted)) :
    n ≤ (keepRun segs).length := by
  rcases keepRun_cases segs with ⟨-, houtputs⟩ | ⟨region, inserted', after, hmem, -, houtputs⟩
  · have hlength := hbounded _ _ _ h
    rw [← houtputs, length_cons] at hlength
    omega
  · rw [houtputs] at h
    have hlength := (hignores region inserted' hmem).before _ _ _ _ (cons_ne_nil _ _) h
    rw [length_cons] at hlength
    omega

theorem refine_spec (hbounded : Bounded rule) {segs : List (Seg α)}
    (hignores : ∀ region inserted, Seg.cut region inserted ∈ segs → Ignores rule inserted)
    {skip : Nat}
    (hskip : skip ≤ (keepRun segs).length) :
    sources (refine rule skip segs) = (sources segs).drop skip ∧
      outputs (refine rule skip segs) = outputs (segment rule skip (outputs segs)) := by
  induction segs generalizing skip with
  | nil =>
    rw [refine]
    refine ⟨by simp, ?_⟩
    cases skip <;> rfl
  | cons seg segs ih =>
    have hrest := fun skip => @ih
      (fun region inserted hmem => hignores region inserted (mem_cons_of_mem _ hmem)) skip
    cases seg with
    | cut region inserted =>
      obtain rfl : skip = 0 := Nat.le_zero.1 hskip
      obtain ⟨hsources, houtputs⟩ := hrest 0 (Nat.zero_le _)
      have hignored := hignores region inserted mem_cons_self
      refine ⟨?_, ?_⟩
      · rw [refine, sources_cons, hsources, drop_zero, drop_zero, sources_cons]
      · rw [refine, outputs_cons, houtputs, outputs_cons, output,
          segment_append hignored (suffix_refl _), outputs_append, outputs_map_keep]
    | keep a =>
      cases skip with
      | succ skip =>
        rw [keepRun, length_cons] at hskip
        exact hrest skip (by omega)
      | zero =>
        rw [refine, outputs_cons, output, singleton_append, segment]
        cases hrule : rule (a :: outputs segs) with
        | none =>
          obtain ⟨hsources, houtputs⟩ := hrest 0 (Nat.zero_le _)
          exact ⟨congrArg (a :: ·) hsources, congrArg (a :: ·) houtputs⟩
        | some found =>
          obtain ⟨_ | n, inserted⟩ := found
          · obtain ⟨hsources, houtputs⟩ := hrest 0 (Nat.zero_le _)
            exact ⟨congrArg (a :: ·) hsources, congrArg (a :: ·) houtputs⟩
          · have hlength := le_length_keepRun hbounded
              (fun region inserted hmem => hignores region inserted (mem_cons_of_mem _ hmem)) hrule
            obtain ⟨hsources, houtputs⟩ := hrest n hlength
            obtain ⟨later, hlater⟩ := keepRun_isPrefix segs
            refine ⟨?_, ?_⟩
            · have htake : (keepRun segs).take n = (sources segs).take n := by
                rw [← hlater, take_append_of_le_length hlength]
              rw [sources_cons, hsources, source, take_succ_cons, htake, cons_append,
                take_append_drop]
              rfl
            · rw [outputs_cons, houtputs]
              rfl

theorem cut_of_mem_refine (hbounded : Bounded rule) {segs : List (Seg α)}
    (hignores : ∀ region inserted, Seg.cut region inserted ∈ segs → Ignores rule inserted)
    {skip : Nat}
    {region inserted : List α} (h : Seg.cut region inserted ∈ refine rule skip segs) :
    Seg.cut region inserted ∈ segs ∨ ∃ rest, region ++ rest <:+ outputs segs ∧
      rule (region ++ rest) = some (region.length, inserted) ∧ region ≠ [] := by
  induction segs generalizing skip with
  | nil =>
    cases h
  | cons seg segs ih =>
    have hrest : ∀ skip, Seg.cut region inserted ∈ refine rule skip segs →
        Seg.cut region inserted ∈ seg :: segs ∨ ∃ rest, region ++ rest <:+ outputs (seg :: segs) ∧
          rule (region ++ rest) = some (region.length, inserted) ∧ region ≠ [] := by
      intro skip hmem
      rcases ih (fun region inserted hmem => hignores region inserted (mem_cons_of_mem _ hmem)) hmem
        with hold | ⟨rest, hsuffix, hspec⟩
      · exact .inl (mem_cons_of_mem _ hold)
      · exact .inr ⟨rest, hsuffix.trans (suffix_append _ _), hspec⟩
    cases seg with
    | cut region' inserted' =>
      rcases mem_cons.1 h with heq | hmem
      · rw [heq]
        exact .inl mem_cons_self
      · exact hrest 0 hmem
    | keep a =>
      cases skip with
      | succ skip => exact hrest skip h
      | zero =>
        rw [refine] at h
        split at h
        · next n inserted' hrule =>
          rcases mem_cons.1 h with heq | hmem
          · obtain ⟨rfl, rfl⟩ := cut.inj heq
            have hlength := le_length_keepRun hbounded
              (fun region inserted hmem => hignores region inserted (mem_cons_of_mem _ hmem)) hrule
            have hcount : ((a :: keepRun segs).take (n + 1)).length = n + 1 := by
              rw [length_take, length_cons]
              omega
            have houtput : keepRun segs <+: outputs segs := by
              rcases keepRun_cases segs with ⟨-, heq⟩ | ⟨_, _, after, -, -, heq⟩
              · exact heq ▸ prefix_refl _
              · exact heq ▸ prefix_append _ _
            obtain ⟨later, hlater⟩ := houtput
            have hplace : (a :: keepRun segs).take (n + 1) ++ ((keepRun segs).drop n ++ later) =
                a :: outputs segs := by
              rw [← hlater, take_succ_cons, cons_append, ← append_assoc, take_append_drop]
            refine .inr ⟨(keepRun segs).drop n ++ later, ?_, ?_, ?_⟩
            · rw [hplace]
              exact suffix_refl _
            · rw [hcount, ← hrule, hplace]
            · exact cons_ne_nil _ _
          · exact hrest _ hmem
        · rcases mem_cons.1 h with heq | hmem
          · cases heq
          · exact hrest _ hmem

theorem region_of_segment_outputs (hbounded : Bounded rule) {segs : List (Seg α)}
    (hignores : ∀ region inserted, Seg.cut region inserted ∈ segs → Ignores rule inserted)
    {skip : Nat}
    (hskip : skip ≤ (keepRun segs).length) {seg : Seg α}
    (hseg : seg ∈ segment rule skip (outputs segs)) :
    seg.region <:+: sources segs ∧ ∀ x ∈ seg.region, keep x ∈ segs := by
  have hrun : ∀ {segs : List (Seg α)} {y : α}, y ∈ keepRun segs → keep y ∈ segs := by
    intro segs y hy
    induction segs with
    | nil => cases hy
    | cons seg segs ih =>
      cases seg with
      | cut region inserted => cases hy
      | keep a =>
        rcases mem_cons.1 hy with rfl | hy
        · exact mem_cons_self
        · exact mem_cons_of_mem _ (ih hy)
  induction segs generalizing skip with
  | nil =>
    cases skip <;> cases hseg
  | cons first segs ih =>
    have hlater : ∀ skip ≤ (keepRun segs).length, seg ∈ segment rule skip (outputs segs) →
        seg.region <:+: sources (first :: segs) ∧ ∀ x ∈ seg.region, keep x ∈ first :: segs := by
      intro skip hskip hmem
      obtain ⟨hpart, hkeeps⟩ := @ih (fun region inserted hmem =>
        hignores region inserted (mem_cons_of_mem _ hmem)) skip hskip hmem
      exact ⟨hpart.trans (suffix_append _ _).isInfix,
        fun x hx => mem_cons_of_mem _ (hkeeps x hx)⟩
    have hempty : seg.region = [] →
        seg.region <:+: sources (first :: segs) ∧ ∀ x ∈ seg.region, keep x ∈ first :: segs := by
      intro hnil
      rw [hnil]
      exact ⟨ nil_infix, fun x hx => (not_mem_nil hx).elim⟩
    cases first with
    | cut region inserted =>
      obtain rfl : skip = 0 := Nat.le_zero.1 hskip
      rw [outputs_cons, output, segment_append (hignores region inserted mem_cons_self)
        (suffix_refl _)] at hseg
      rcases mem_append.1 hseg with hkeep | hrest
      · obtain ⟨a, -, rfl⟩ := mem_map.1 hkeep
        exact hempty rfl
      · exact hlater 0 (Nat.zero_le _) hrest
    | keep a =>
      cases skip with
      | succ skip =>
        rw [keepRun, length_cons] at hskip
        exact hlater skip (by omega) hseg
      | zero =>
        rw [outputs_cons, output, singleton_append, segment] at hseg
        split at hseg
        · next n inserted hrule =>
          have hlength := le_length_keepRun hbounded
            (fun region inserted hmem => hignores region inserted (mem_cons_of_mem _ hmem)) hrule
          rcases mem_cons.1 hseg with rfl | hrest
          · have htake :
                (a :: outputs segs).take (n + 1) = (keepRun (.keep a :: segs)).take (n + 1) := by
              rw [take_succ_cons]
              congr 1
              rcases keepRun_cases segs with ⟨-, heq⟩ | ⟨_, _, after, -, -, heq⟩
              · rw [heq]
              · rw [heq, take_append_of_le_length hlength]
            rw [htake]
            refine ⟨?_, fun x hx => hrun (mem_of_mem_take hx)⟩
            exact (( take_prefix _ _).trans (keepRun_isPrefix _)).isInfix
          · exact hlater n hlength hrest
        · rcases mem_cons.1 hseg with rfl | hrest
          · exact hempty rfl
          · exact hlater 0 (Nat.zero_le _) hrest

def refineAll (rules : List (Rule α)) (segs : List (Seg α)) : List (Seg α) :=
  rules.foldl (fun segs rule => refine rule 0 segs) segs

def Unseen : List (Rule α) → List (Seg α) → Prop
  | [], _ => True
  | rule :: rules, segs =>
    (∀ region inserted, Seg.cut region inserted ∈ segs → Ignores rule inserted) ∧
      Unseen rules (refine rule 0 segs)

theorem refineAll_spec {rules : List (Rule α)} (hbounded : ∀ rule ∈ rules, Bounded rule)
    {segs : List (Seg α)} (h : Unseen rules segs) :
    sources (refineAll rules segs) = sources segs ∧
      outputs (refineAll rules segs) = rewriteAll rules (outputs segs) := by
  induction rules generalizing segs with
  | nil => exact ⟨rfl, rfl⟩
  | cons rule rules ih =>
    obtain ⟨hsources, houtputs⟩ :=
      refine_spec (hbounded rule mem_cons_self) h.1 (Nat.zero_le _)
    obtain ⟨hrestSources, hrestOutputs⟩ :=
      ih (fun r hr => hbounded r (mem_cons_of_mem _ hr)) h.2
    refine ⟨hrestSources.trans (hsources.trans (drop_zero)), ?_⟩
    rw [houtputs] at hrestOutputs
    exact hrestOutputs

theorem Unseen.of_append {rules : List (Rule α)} {later : List (Rule α)}
    {segs : List (Seg α)} (h : Unseen (rules ++ rule :: later) segs) :
    Unseen rules segs ∧ ∀ region inserted, Seg.cut region inserted ∈ refineAll rules segs →
      Ignores rule inserted := by
  induction rules generalizing segs with
  | nil => exact ⟨trivial, h.1⟩
  | cons first rules ih =>
    obtain ⟨hunseen, hignores⟩ := ih h.2
    exact ⟨⟨h.1, hunseen⟩, hignores⟩

section Lifts

variable {β : Type*} {f : β → α} {rule' : Rule β} {rule : Rule α}

theorem Lifts.bounded (h : Lifts f rule' rule) (hbounded : Bounded rule) : Bounded rule' := by
  intro l n inserted hrule
  have hlength := hbounded _ _ _ (h.eq_some hrule)
  rwa [length_map] at hlength

theorem Lifts.ignores (h : Lifts f rule' rule) {inserted : List β}
    (hignores : Ignores rule (inserted.map f)) : Ignores rule' inserted := by
  refine ⟨fun part rest hne hpart => ?_, fun run rest n i hne hrule => ?_⟩
  · have hnone := hignores.inside (part.map f) (rest.map f) (by simpa using hne)
      (hpart.map f)
    rwa [← map_append, ← h, Option.map_eq_none_iff] at hnone
  · have hlength := hignores.before (run.map f) (rest.map f) n (i.map f) (by simpa using hne) (by
      rw [← map_append, ← map_append]
      exact h.eq_some hrule)
    rwa [length_map] at hlength

end Lifts

namespace Seg

variable {β : Type*}

def map (f : α → β) : Seg α → Seg β
  | keep a => keep (f a)
  | cut region inserted => Seg.cut (region.map f) (inserted.map f)

end Seg

theorem sources_map {β : Type*} (f : α → β) (segs : List (Seg α)) :
    sources (segs.map (map f)) = (sources segs).map f := by
  induction segs with
  | nil => rfl
  | cons seg segs ih =>
    rw [map_cons, sources_cons, ih, sources_cons, map_append]
    cases seg <;> rfl

theorem outputs_map {β : Type*} (f : α → β) (segs : List (Seg α)) :
    outputs (segs.map (map f)) = (outputs segs).map f := by
  induction segs with
  | nil => rfl
  | cons seg segs ih =>
    rw [map_cons, outputs_cons, ih, outputs_cons, map_append]
    cases seg <;> rfl

end Vibrato.Lib
