import Mathlib.Data.List.Infix
import Mathlib.Data.List.Nodup

/-! Rewriting a list from left to right: a rule looks at what is left of the list and says how many
elements it replaces there, and by which. -/

namespace Vibrato.Lib

open List

variable {α : Type*}

inductive Seg (α : Type*) where
  | keep (a : α)
  | cut (region inserted : List α)

open Seg

namespace Seg

def source : Seg α → List α
  | keep a => [a]
  | cut region _ => region

def output : Seg α → List α
  | keep a => [a]
  | cut _ inserted => inserted

def region : Seg α → List α
  | keep _ => []
  | cut region _ => region

end Seg

variable (segs : List (Seg α))

def sources : List α := segs.flatMap source

def outputs : List α := segs.flatMap output

abbrev Rule (α : Type*) := List α → Option (Nat × List α)

def segment (rule : Rule α) : Nat → List α → List (Seg α)
  | _, [] => []
  | skip + 1, _ :: rest => segment rule skip rest
  | 0, a :: rest =>
    match rule (a :: rest) with
    | some (n + 1, inserted) => .cut ((a :: rest).take (n + 1)) inserted :: segment rule n rest
    | _ => .keep a :: segment rule 0 rest

def rewrite (rule : Rule α) (l : List α) : List α := outputs (segment rule 0 l)

def rewriteAll (rules : List (Rule α)) (l : List α) : List α :=
  rules.foldl (fun l rule => rewrite rule l) l

@[simp] theorem sources_nil : sources ([] : List (Seg α)) = [] := rfl

@[simp] theorem sources_cons (seg : Seg α) (segs : List (Seg α)) :
    sources (seg :: segs) = seg.source ++ sources segs := rfl

@[simp] theorem sources_append (a b : List (Seg α)) : sources (a ++ b) = sources a ++ sources b :=
  flatMap_append

@[simp] theorem outputs_cons (seg : Seg α) (segs : List (Seg α)) :
    outputs (seg :: segs) = seg.output ++ outputs segs := rfl

@[simp] theorem outputs_append (a b : List (Seg α)) : outputs (a ++ b) = outputs a ++ outputs b :=
  flatMap_append

@[simp] theorem sources_map_keep (l : List α) : sources (l.map keep) = l := by
  induction l with
  | nil => rfl
  | cons a l ih => simp [source, ih]

@[simp] theorem outputs_map_keep (l : List α) : outputs (l.map keep) = l := by
  induction l with
  | nil => rfl
  | cons a l ih => simp [output, ih]

theorem sources_segment (rule : Rule α) (skip : Nat) (l : List α) :
    sources (segment rule skip l) = l.drop skip := by
  induction l generalizing skip with
  | nil => cases skip <;> rfl
  | cons a rest ih =>
    cases skip with
    | succ skip => exact ih skip
    | zero =>
      rw [segment]
      split
      · rw [sources_cons, ih, source, drop_zero, take_succ_cons, cons_append, take_append_drop]
      · rw [sources_cons, ih]
        rfl

variable {skip : Nat} {inserted l occ post pre : List α} {rule : Rule α}

theorem cut_of_mem_segment {region : List α} (h : Seg.cut region inserted ∈ segment rule skip l) :
    ∃ rest n, rest <:+ l ∧ rest ≠ [] ∧ rule rest = some (n + 1, inserted) ∧
      region = rest.take (n + 1) := by
  induction l generalizing skip with
  | nil => cases skip <;> cases h
  | cons a rest ih =>
    have hlater : ∀ skip, Seg.cut region inserted ∈ segment rule skip rest →
        ∃ rest' n, rest' <:+ a :: rest ∧ rest' ≠ [] ∧ rule rest' = some (n + 1, inserted) ∧
          region = rest'.take (n + 1) := by
      intro skip hmem
      obtain ⟨rest', n, hsuffix, hspec⟩ := ih hmem
      exact ⟨rest', n, hsuffix.trans (suffix_cons _ _), hspec⟩
    cases skip with
    | succ skip => exact hlater skip h
    | zero =>
      rw [segment] at h
      split at h
      · next n inserted' hrule =>
        rcases mem_cons.1 h with heq | hmem
        · obtain ⟨rfl, rfl⟩ := cut.inj heq
          exact ⟨_, n, suffix_refl _, cons_ne_nil _ _, hrule, rfl⟩
        · exact hlater _ hmem
      · rcases mem_cons.1 h with heq | hmem
        · cases heq
        · exact hlater _ hmem

variable {after before segs : List (Seg α)}

theorem rule_of_segment_keep {a : α} (h : segment rule skip l = before ++ keep a :: after) (n : Nat)
    (inserted : List α) : rule (a :: sources after) ≠ some (n + 1, inserted) := by
  induction l generalizing skip before with
  | nil => cases skip <;> cases before <;> cases h
  | cons b rest ih =>
    cases skip with
    | succ skip => exact ih h
    | zero =>
      rw [segment] at h
      split at h
      · cases before with
        | nil => cases h
        | cons seg before => exact ih (List.cons.inj h).2
      · next hnot =>
        cases before with
        | nil =>
          obtain ⟨hhead, hafter⟩ := List.cons.inj h
          obtain rfl := keep.inj hhead
          rw [← hafter, sources_segment]
          exact hnot n inserted
        | cons seg before => exact ih (List.cons.inj h).2

theorem rewrite_eq_self (h : ∀ rest, rest <:+ l → rest ≠ [] → rule rest = none) :
    rewrite rule l = l := by
  induction l with
  | nil => rfl
  | cons a l ih =>
    have hrest := ih fun rest hrest hne => h rest (hrest.trans (suffix_cons _ _)) hne
    rw [rewrite, segment, h (a :: l) (suffix_refl _) (cons_ne_nil _ _)]
    exact congrArg (a :: ·) hrest

variable (segs)

def Meets (start length : Nat) : Prop :=
  ∃ before region inserted after, segs = before ++ Seg.cut region inserted :: after ∧
    (sources before).length < start + length ∧ start < (sources before).length + region.length

def Intact (pre occ : List α) : Prop :=
  ∃ before after, segs = before ++ (occ.map keep ++ after) ∧ sources before = pre

variable {segs}

theorem Meets.cons {start length : Nat} (h : Meets segs start length)
    (seg : Seg α) : Meets (seg :: segs) (seg.source.length + start) length := by
  obtain ⟨before, region, inserted, after, rfl, hstart, hend⟩ := h
  refine ⟨seg :: before, region, inserted, after, rfl, ?_, ?_⟩
  · rw [sources_cons, length_append]
    omega
  · rw [sources_cons, length_append]
    omega

theorem Intact.cons {pre occ : List α} (h : Intact segs pre occ)
    (seg : Seg α) : Intact (seg :: segs) (seg.source ++ pre) occ := by
  obtain ⟨before, after, rfl, rfl⟩ := h
  exact ⟨seg :: before, after, rfl, rfl⟩

theorem intact_or_meets_start (hocc : occ ≠ [])
    (h : sources segs = occ ++ post) : Intact segs [] occ ∨ Meets segs 0 occ.length := by
  induction segs generalizing occ with
  | nil =>
    exact absurd (append_eq_nil_iff.1 h.symm).1 hocc
  | cons seg segs ih =>
    cases seg with
    | cut region inserted =>
      cases region with
      | nil =>
        rcases ih hocc h with hintact | hmeets
        · exact .inl (hintact.cons (.cut [] inserted))
        · have hcons := hmeets.cons (.cut [] inserted)
          exact .inr hcons
      | cons b region =>
        have hpos := length_pos_of_ne_nil hocc
        refine .inr ⟨[], b :: region, inserted, segs, rfl, ?_, ?_⟩
        · simp only [sources_nil, length_nil]
          omega
        · simp only [length_cons]
          omega
    | keep a =>
      cases occ with
      | nil => exact absurd rfl hocc
      | cons b occ =>
        obtain ⟨rfl, hrest⟩ := List.cons.inj h
        by_cases hlast : occ = []
        · subst hlast
          exact .inl ⟨[], segs, rfl, rfl⟩
        rcases ih hlast hrest with ⟨before, after, rfl, hbefore⟩ | hmeets
        · cases before with
          | nil => exact .inl ⟨[], after, rfl, rfl⟩
          | cons seg before =>
            -- A region without elements lies between the first two elements.
            cases seg with
            | keep c =>
              cases hbefore
            | cut region inserted =>
              refine .inr ⟨[.keep a], region, inserted, _, rfl, ?_, ?_⟩
              · have hpos := length_pos_of_ne_nil hlast
                simp only [sources_cons, sources_nil, source, append_nil, length_cons, length_nil]
                omega
              · simp only [sources_cons, sources_nil, source, append_nil, length_cons, length_nil]
                omega
        · obtain ⟨before, region, inserted, after, heq, hstart, hend⟩ := hmeets
          refine .inr ⟨.keep a :: before, region, inserted, after, by rw [heq]; rfl, ?_, ?_⟩
          · rw [sources_cons, source, length_append, length_cons, length_cons]
            simp only [length_nil]
            omega
          · rw [sources_cons, length_append]
            omega

theorem intact_or_meets (hocc : occ ≠ []) (h : sources segs = pre ++ (occ ++ post)) :
    Intact segs pre occ ∨ Meets segs pre.length occ.length := by
  induction segs generalizing pre with
  | nil =>
    cases pre with
    | nil => exact intact_or_meets_start hocc h
    | cons b pre => cases h
  | cons seg segs ih =>
    cases pre with
    | nil => exact intact_or_meets_start hocc h
    | cons b pre =>
      rw [sources_cons] at h
      by_cases hlong : seg.source.length ≤ (b :: pre).length
      · obtain ⟨rest, hrest⟩ : seg.source <+: b :: pre :=
          prefix_of_prefix_length_le ⟨_, h⟩ (prefix_append _ _) hlong
        rw [← hrest, append_assoc, append_cancel_left_eq] at h
        rw [← hrest]
        rcases ih h with hintact | hmeets
        · exact .inl (hintact.cons seg)
        · rw [length_append]
          exact .inr (hmeets.cons seg)
      · cases seg with
        | keep a =>
          simp only [source, length_cons, length_nil] at hlong
          omega
        | cut region inserted =>
          have hpos := length_pos_of_ne_nil hocc
          refine .inr ⟨[], region, inserted, segs, rfl, ?_, ?_⟩
          · simp only [sources_nil, length_nil]
            omega
          · rw [source] at hlong
            omega

def Catches (rule : Rule α) (occ : List α) : Prop :=
  ∀ rest, ∃ n inserted, rule (occ ++ rest) = some (n + 1, inserted)

theorem segment_meets {pre occ post : List α} (hocc : occ ≠ []) (hcatches : Catches rule occ) :
    Meets (segment rule 0 (pre ++ (occ ++ post))) pre.length occ.length := by
  have hsources := sources_segment rule 0 (pre ++ (occ ++ post))
  rcases intact_or_meets hocc hsources with ⟨before, after, hsegs, hbefore⟩ | hmeets
  · obtain ⟨a, occ, rfl⟩ := exists_cons_of_ne_nil hocc
    obtain ⟨n, inserted, hrule⟩ := hcatches (sources after)
    have hkeep : segment rule 0 (pre ++ (a :: occ ++ post)) =
        before ++ keep a :: (occ.map keep ++ after) := hsegs
    have hnot := rule_of_segment_keep hkeep n inserted
    rw [sources_append, sources_map_keep] at hnot
    exact absurd hrule hnot
  · exact hmeets

theorem exists_mem_of_meets {region : List α} (hregion : region ≠ []) (hocc : occ ≠ [])
    (h : sources (before ++ Seg.cut region inserted :: after) = pre ++ (occ ++ post))
    (hstart : (sources before).length < pre.length + occ.length)
    (hend : pre.length < (sources before).length + region.length) : ∃ x ∈ occ, x ∈ region := by
  have hregionPos := length_pos_of_ne_nil hregion
  have hoccPos := length_pos_of_ne_nil hocc
  rw [sources_append, sources_cons, source] at h
  obtain ⟨i, hi⟩ : ∃ i, i = max (sources before).length pre.length := ⟨_, rfl⟩
  have hleft : (pre ++ (occ ++ post))[i]? = occ[i - pre.length]? := by
    rw [getElem?_append_right (by omega), getElem?_append_left (by omega)]
  have hright : (pre ++ (occ ++ post))[i]? = region[i - (sources before).length]? := by
    rw [← h, getElem?_append_right (by omega), getElem?_append_left (by omega)]
  have hbound : i - pre.length < occ.length := by omega
  refine ⟨occ[i - pre.length], getElem_mem hbound, ?_⟩
  rw [hleft, getElem?_eq_getElem hbound] at hright
  exact mem_of_getElem? hright.symm

section Original

variable (original : α → Bool)

def InsertsNew (rule : Rule α) : Prop :=
  ∀ l n inserted, rule l = some (n, inserted) → ∀ a ∈ inserted, original a = false

variable {original} {rule : Rule α}

variable {l occ : List α} {segs : List (Seg α)} {region inserted : List α}

theorem InsertsNew.segment (h : InsertsNew original rule) {skip : Nat}
    (hmem : Seg.cut region inserted ∈ segment rule skip l) :
    ∀ a ∈ inserted, original a = false := by
  obtain ⟨rest, n, -, -, hrule, -⟩ := cut_of_mem_segment hmem
  exact h rest (n + 1) inserted hrule

theorem filter_outputs_sublist
    (h : ∀ region inserted, Seg.cut region inserted ∈ segs → ∀ a ∈ inserted, original a = false) :
    ((outputs segs).filter original).Sublist ((sources segs).filter original) := by
  induction segs with
  | nil => exact List.Sublist.refl _
  | cons seg segs ih =>
    have hrest := ih fun region inserted hmem => h region inserted (mem_cons_of_mem _ hmem)
    rw [outputs_cons, sources_cons, filter_append, filter_append]
    refine List.Sublist.append ?_ hrest
    cases seg with
    | keep a => exact List.Sublist.refl _
    | cut region inserted =>
      have hnone : inserted.filter original = [] := by
        rw [filter_eq_nil_iff]
        intro a ha
        rw [h region inserted mem_cons_self a ha]
        exact Bool.false_ne_true
      rw [output, hnone]
      exact nil_sublist _

theorem not_mem_outputs_of_cut {before after : List (Seg α)}
    (hnew : ∀ r i, Seg.cut r i ∈ before ++ Seg.cut region inserted :: after →
      ∀ a ∈ i, original a = false)
    (hnodup : ((sources (before ++ Seg.cut region inserted :: after)).filter original).Nodup)
    {x : α}
    (hx : x ∈ region) (horiginal : original x = true) :
    x ∉ outputs (before ++ Seg.cut region inserted :: after) := by
  have hside :
      ∀ segs : List (Seg α), (∀ seg ∈ segs, seg ∈ before ++ Seg.cut region inserted :: after) →
      x ∈ outputs segs → x ∈ (sources segs).filter original := by
    intro segs hsegs hmem
    have hsublist := @filter_outputs_sublist _ original segs fun r i hcut => hnew r i (hsegs _ hcut)
    exact hsublist.subset (mem_filter.2 ⟨hmem, horiginal⟩)
  have hregion : x ∈ region.filter original := mem_filter.2 ⟨hx, horiginal⟩
  rw [sources_append, sources_cons, filter_append, filter_append, nodup_append,
    nodup_append] at hnodup
  obtain ⟨-, ⟨-, -, hafter⟩, hbefore⟩ := hnodup
  intro hmem
  rw [outputs_append, outputs_cons, mem_append, mem_append] at hmem
  rcases hmem with hmem | hmem | hmem
  · have hsource := hside before (fun seg hseg => mem_append_left _ hseg) hmem
    exact hbefore x hsource x (mem_append_left _ hregion) rfl
  · have hfalse := hnew region inserted (mem_append_right _ mem_cons_self) x hmem
    rw [hfalse] at horiginal
    cases horiginal
  · have hsource := hside after
      (fun seg hseg => mem_append_right _ (mem_cons_of_mem _ hseg)) hmem
    exact hafter x hregion x hsource rfl

theorem filter_rewrite_sublist (h : InsertsNew original rule) (l : List α) :
    ((rewrite rule l).filter original).Sublist (l.filter original) := by
  have hsublist :=
    @filter_outputs_sublist _ original (segment rule 0 l) fun _ _ hmem => h.segment hmem
  rwa [sources_segment, drop_zero] at hsublist

variable {rules : List (Rule α)}

theorem filter_rewriteAll_sublist (h : ∀ rule ∈ rules, InsertsNew original rule) (l : List α) :
    ((rewriteAll rules l).filter original).Sublist (l.filter original) := by
  induction rules generalizing l with
  | nil => exact List.Sublist.refl _
  | cons rule rules ih =>
    have hrest := ih (fun r hr => h r (mem_cons_of_mem _ hr)) (rewrite rule l)
    exact hrest.trans (filter_rewrite_sublist (h rule mem_cons_self) l)

theorem rewrite_intact_or_removes (h : InsertsNew original rule) (hocc : occ ≠ [])
    (hnodup : (l.filter original).Nodup) (horiginal : ∀ x ∈ occ, original x = true)
    (hl : occ <:+: l) :
    (occ <:+: rewrite rule l ∧ ¬Catches rule occ) ∨ ∃ x ∈ occ, x ∉ rewrite rule l := by
  obtain ⟨pre, post, rfl⟩ := hl
  rw [append_assoc] at hnodup ⊢
  have hsources := sources_segment rule 0 (pre ++ (occ ++ post))
  have hmeets : Meets (segment rule 0 (pre ++ (occ ++ post))) pre.length occ.length →
      ∃ x ∈ occ, x ∉ rewrite rule (pre ++ (occ ++ post)) := by
    rintro ⟨before, region, inserted, after, hsegs, hstart, hend⟩
    have hcut : Seg.cut region inserted ∈ segment rule 0 (pre ++ (occ ++ post)) := by
      rw [hsegs]
      exact mem_append_right _ mem_cons_self
    obtain ⟨rest, n, -, hrest, -, hregion⟩ := cut_of_mem_segment hcut
    have hne : region ≠ [] := by
      obtain ⟨a, rest, rfl⟩ := exists_cons_of_ne_nil hrest
      rw [hregion]
      exact cons_ne_nil _ _
    rw [hsegs] at hsources
    obtain ⟨x, hx, hxregion⟩ := exists_mem_of_meets hne hocc hsources hstart hend
    refine ⟨x, hx, ?_⟩
    rw [rewrite, hsegs]
    refine @not_mem_outputs_of_cut _ original _ _ _ _ ?_ ?_ x hxregion (horiginal x hx)
    · rw [← hsegs]
      exact fun _ _ hmem => h.segment hmem
    · rwa [hsources]
  rcases intact_or_meets hocc hsources with ⟨before, after, hsegs, -⟩ | hmeet
  · by_cases hcatches : Catches rule occ
    · exact .inr (hmeets (segment_meets hocc hcatches))
    · refine .inl ⟨?_, hcatches⟩
      rw [rewrite, hsegs, outputs_append, outputs_append, outputs_map_keep]
      exact ⟨outputs before, outputs after, by rw [append_assoc]⟩
  · exact .inr (hmeets hmeet)

theorem rewriteAll_removes (h : ∀ rule ∈ rules, InsertsNew original rule)
    (hocc : occ ≠ []) (hnodup : (l.filter original).Nodup)
    (horiginal : ∀ x ∈ occ, original x = true) (hl : occ <:+: l)
    (hcatches : ∃ rule ∈ rules, Catches rule occ) : ∃ x ∈ occ, x ∉ rewriteAll rules l := by
  induction rules generalizing l with
  | nil =>
    obtain ⟨rule, hrule, -⟩ := hcatches
    cases hrule
  | cons rule rules ih =>
    have hrules : ∀ r ∈ rules, InsertsNew original r := fun r hr => h r (mem_cons_of_mem _ hr)
    have hsublist := filter_rewrite_sublist (h rule mem_cons_self) l
    rcases rewrite_intact_or_removes (h rule mem_cons_self) hocc hnodup horiginal hl with
      ⟨hintact, hnot⟩ | ⟨x, hx, hgone⟩
    · obtain ⟨caught, hmem, hcaught⟩ := hcatches
      have hlater : caught ∈ rules := by
        rcases mem_cons.1 hmem with rfl | hmem
        · exact absurd hcaught hnot
        · exact hmem
      exact ih hrules (hnodup.sublist hsublist) hintact ⟨caught, hlater, hcaught⟩
    · refine ⟨x, hx, fun hmem => hgone ?_⟩
      have hfinal := (filter_rewriteAll_sublist hrules (rewrite rule l)).subset
        (mem_filter.2 ⟨hmem, horiginal x hx⟩)
      exact (mem_filter.1 hfinal).1

end Original

section Lifts

variable {β : Type*} {f : β → α} {rule' : Rule β} {rule : Rule α}

def Lifts (f : β → α) (rule' : Rule β) (rule : Rule α) : Prop :=
  ∀ l, (rule' l).map (fun found => (found.1, found.2.map f)) = rule (l.map f)

variable (h : Lifts f rule' rule)
include h

theorem Lifts.eq_some {l : List β} {n : Nat} {inserted : List β}
    (hrule : rule' l = some (n, inserted)) : rule (l.map f) = some (n, inserted.map f) := by
  rw [← h l, hrule]
  rfl

theorem Lifts.map_segment (skip : Nat) (l : List β) :
    (outputs (segment rule' skip l)).map f = outputs (segment rule skip (l.map f)) := by
  induction l generalizing skip with
  | nil => cases skip <;> rfl
  | cons b l ih =>
    cases skip with
    | succ skip => exact ih skip
    | zero =>
      have hhead := h (b :: l)
      rw [map_cons] at hhead ⊢
      rw [segment, segment, ← hhead]
      rcases rule' (b :: l) with _ | ⟨_ | n, inserted⟩
      · exact congrArg (f b :: ·) (ih 0)
      · exact congrArg (f b :: ·) (ih 0)
      · simp only [Option.map_some, outputs_cons, output, map_append]
        rw [ih n]

theorem Lifts.catches {occ : List β} (hcatches : Catches rule (occ.map f)) : Catches rule' occ := by
  intro rest
  obtain ⟨n, inserted, hrule⟩ := hcatches (rest.map f)
  rw [← map_append, ← h (occ ++ rest), Option.map_eq_some_iff] at hrule
  obtain ⟨⟨m, inserted'⟩, hrule', heq⟩ := hrule
  obtain ⟨rfl, -⟩ := Prod.mk.inj heq
  exact ⟨n, inserted', hrule'⟩

omit h

theorem map_rewriteAll {ι : Type*} {r' : ι → Rule β} {r : ι → Rule α}
    (h : ∀ i, Lifts f (r' i) (r i))
    (passes : List ι) (l : List β) :
    (rewriteAll (passes.map r') l).map f = rewriteAll (passes.map r) (l.map f) := by
  induction passes generalizing l with
  | nil => rfl
  | cons pass passes ih =>
    have hrest := ih (rewrite (r' pass) l)
    rw [rewrite, (h pass).map_segment] at hrest
    exact hrest

end Lifts

variable (rule : Rule α)

def markRule : Rule (α × Option Nat) := fun l =>
  (rule (l.map Prod.fst)).map fun found => (found.1, found.2.map (·, none))

def mark (l : List α) : List (α × Option Nat) := l.zipIdx.map fun x => (x.1, some x.2)

theorem markRule_lifts : Lifts Prod.fst (markRule rule) rule := by
  intro l
  rw [markRule]
  rcases rule (l.map Prod.fst) with _ | ⟨n, inserted⟩
  · rfl
  · simp [Function.comp_def]

theorem markRule_insertsNew : InsertsNew (fun x => x.2.isSome) (markRule rule) := by
  intro l n inserted hrule a ha
  rw [markRule, Option.map_eq_some_iff] at hrule
  obtain ⟨found, -, heq⟩ := hrule
  obtain ⟨-, rfl⟩ := Prod.mk.inj heq
  obtain ⟨b, -, rfl⟩ := mem_map.1 ha
  rfl

theorem markRule_lifts_marks {g : α × Option Nat → α × Option Nat}
    (hfst : ∀ x, (g x).1 = x.1) (hnone : ∀ a, g (a, none) = (a, none)) :
    Lifts g (markRule rule) (markRule rule) := by
  intro l
  have hmap : (l.map g).map Prod.fst = l.map Prod.fst := by
    rw [map_map]
    exact map_congr_left fun x _ => hfst x
  rw [markRule, markRule, hmap]
  rcases rule (l.map Prod.fst) with _ | ⟨n, inserted⟩
  · rfl
  · simp [hnone]

variable (l)

@[simp] theorem map_fst_mark : (mark l).map Prod.fst = l := by
  rw [mark, map_map]
  exact zipIdx_map_fst 0 l

@[simp] theorem length_mark : (mark l).length = l.length := by simp [mark]

theorem getElem?_mark (i : Nat) : (mark l)[i]? = l[i]?.map (·, some i) := by
  rw [mark, getElem?_map, getElem?_zipIdx, Option.map_map, Nat.zero_add]
  rfl

theorem map_snd_mark : (mark l).map Prod.snd = (List.range l.length).map some := by
  rw [mark, map_map, range_eq_range', ← zipIdx_map_snd 0 l, map_map]
  rfl

theorem nodup_mark : (mark l).Nodup := by
  refine List.Nodup.of_map Prod.snd ?_
  rw [map_snd_mark]
  exact nodup_range.map fun _ _ h => Option.some.inj h

end Vibrato.Lib
