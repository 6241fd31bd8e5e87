import Vibrato.Jobs.Table

namespace Vibrato.Jobs

open Lib List OrderedMap

namespace TerminalWaits

variable {t : JobTable} {w w' : TerminalWaits}

variable (w)

def EventLive (t : JobTable) (g : Generation) : Prop :=
  ∃ event, w.terminalEvents.get? g = some event ∧ isExpired t event = false

def Sees (t : JobTable) (target : AsyncJobWaitTarget) : Prop :=
  ((w.pruneTerminalEvents t).eventForTarget t target).isSome = true

def SeenMet (t : JobTable) (wait : TerminalWait) : Prop :=
  match wait.condition with
  | .allTerminal => ∀ target ∈ wait.targets, w.Sees t target
  | .anyTerminal => ∃ target ∈ wait.targets, w.Sees t target

variable {w}

structure Looks (t : JobTable) (w w' : TerminalWaits) : Prop where
  events : ∀ g event, isExpired t event = false →
    (w'.terminalEvents.get? g = some event ↔ w.terminalEvents.get? g = some event)
  aliases : w'.waitGenerationAliases = w.waitGenerationAliases
  published : ∀ g ∈ w'.publishedTerminalGenerations, g ∈ w.publishedTerminalGenerations
  waitSeq : w'.waitSeq = w.waitSeq
  handles : ∀ token wait', w'.handles.get? token = some wait' → ∃ wait,
    w.handles.get? token = some wait ∧ wait'.targets = wait.targets ∧
      wait'.condition = wait.condition ∧ (wait.result.isSome = true → wait' = wait) ∧
      (wait.result = none → ∀ result, wait'.result = some result → result.outcome = .completed)
  kept : ∀ token wait, w.handles.get? token = some wait →
    ∃ wait', w'.handles.get? token = some wait'

theorem Looks.refl (t : JobTable) (w : TerminalWaits) : Looks t w w where
  events _ _ _ := Iff.rfl
  aliases := rfl
  published _ h := h
  waitSeq := rfl
  handles _ wait h := ⟨wait, h, rfl, rfl, fun _ => rfl, fun hopen result hresult => by simp_all⟩
  kept _ wait h := ⟨wait, h⟩

theorem Looks.trans {w'' : TerminalWaits} (h1 : Looks t w w') (h2 : Looks t w' w'') :
    Looks t w w'' where
  events g event hlive := (h2.events g event hlive).trans (h1.events g event hlive)
  aliases := h2.aliases.trans h1.aliases
  published g hg := h1.published g (h2.published g hg)
  waitSeq := h2.waitSeq.trans h1.waitSeq
  handles token wait'' h := by
    obtain ⟨wait', hwait', htargets', hcond', hsettled', hcompleted'⟩ := h2.handles token wait'' h
    obtain ⟨wait, hwait, htargets, hcond, hsettled, hcompleted⟩ := h1.handles token wait' hwait'
    refine ⟨wait, hwait, htargets'.trans htargets, hcond'.trans hcond, ?_, ?_⟩
    · intro hresult
      have heq := hsettled hresult
      rw [hsettled' (heq ▸ hresult), heq]
    · intro hopen result hresult
      cases hbetween : wait'.result with
      | none => exact hcompleted' hbetween result hresult
      | some between =>
        rw [hsettled' (by rw [hbetween]; rfl)] at hresult
        exact hcompleted hopen result hresult
  kept token wait h := by
    obtain ⟨wait', hwait'⟩ := h1.kept token wait h
    exact h2.kept token wait' hwait'

variable (w)

theorem pruneTerminalEvents_looks (t : JobTable) : Looks t w (w.pruneTerminalEvents t) where
  events g event hlive := by
    show (w.terminalEvents.retain _).get? g = some event ↔ _
    rw [get?_retain_eq_some]
    simp [hlive]
  aliases := rfl
  published g hg := mem_of_mem_filter hg
  waitSeq := rfl
  handles _ wait h := ⟨wait, h, rfl, rfl, fun _ => rfl, fun hopen result hresult => by simp_all⟩
  kept _ wait h := ⟨wait, h⟩

theorem pruneFor_looks (t : JobTable) (targets : List AsyncJobWaitTarget) :
    Looks t w (w.pruneFor t targets) := by
  unfold pruneFor
  split
  · exact Looks.refl t w
  · exact pruneTerminalEvents_looks w t

theorem pruneFor_handles (t : JobTable) (targets : List AsyncJobWaitTarget) :
    (w.pruneFor t targets).handles = w.handles := by
  unfold pruneFor
  split <;> rfl

variable {w}

variable {token : Nat} {wait : TerminalWait}

theorem setResult_looks (hwait : w.handles.get? token = some wait)
    (hopen : wait.result = none) {result : AsyncJobWaitResult}
    (hresult : result.outcome = .completed) :
    Looks t w { w with handles := w.handles.set token { wait with result := some result } } where
  events _ _ _ := Iff.rfl
  aliases := rfl
  published _ h := h
  waitSeq := rfl
  handles token' wait' h := by
    rw [get?_set] at h
    split at h
    · next heq =>
      cases h
      subst heq
      refine ⟨wait, hwait, rfl, rfl, ?_, ?_⟩
      · rw [hopen]
        exact fun h => by cases h
      · rintro - r hr
        cases hr
        exact hresult
    · exact ⟨wait', h, rfl, rfl, fun _ => rfl, fun hopen r hr => by simp_all⟩
  kept token' wait' h := by
    rw [get?_set]
    split
    · exact ⟨_, rfl⟩
    · exact ⟨wait', h⟩

theorem maybeResolveWait_looks (t : JobTable) (w : TerminalWaits) (token : Nat) :
    Looks t w (maybeResolveWait t w token) := by
  unfold maybeResolveWait
  split
  · exact Looks.refl t w
  next wait hwait =>
  split
  · exact Looks.refl t w
  next hopen =>
  have hprune := pruneFor_looks w t wait.targets
  dsimp only
  split
  · have hwait' : (w.pruneFor t wait.targets).handles.get? token = some wait := by
      rw [pruneFor_handles]
      exact hwait
    exact hprune.trans (setResult_looks hwait' (by simpa using hopen) rfl)
  · exact hprune

variable (w)

theorem resolveWaits_looks (t : JobTable)
    (concerns : AsyncJobWaitTarget → Bool) : Looks t w (w.resolveWaits t concerns) := by
  unfold resolveWaits
  generalize w.handles.entries.filter _ = entries
  induction entries generalizing w with
  | nil => exact Looks.refl t w
  | cons entry rest ih =>
    exact (maybeResolveWait_looks t w entry.1).trans (ih _)

theorem pruned_get? (t : JobTable) (g : Generation) (event : TerminalEvent) :
    (w.pruneTerminalEvents t).terminalEvents.get? g = some event ↔
      w.terminalEvents.get? g = some event ∧ isExpired t event = false := by
  show (w.terminalEvents.retain _).get? g = some event ↔ _
  rw [get?_retain_eq_some]
  simp

variable {w}

theorem Looks.pruned (h : Looks t w w') (g : Generation) :
    (w'.pruneTerminalEvents t).terminalEvents.get? g =
      (w.pruneTerminalEvents t).terminalEvents.get? g := by
  ext event
  rw [pruned_get?, pruned_get?]
  constructor
  · rintro ⟨hget, hlive⟩
    exact ⟨(h.events g event hlive).mp hget, hlive⟩
  · rintro ⟨hget, hlive⟩
    exact ⟨(h.events g event hlive).mpr hget, hlive⟩

theorem Looks.eventForTarget (h : Looks t w w') (target : AsyncJobWaitTarget) :
    (w'.pruneTerminalEvents t).eventForTarget t target =
      (w.pruneTerminalEvents t).eventForTarget t target := by
  have haliases : (w'.pruneTerminalEvents t).waitGenerationAliases =
      (w.pruneTerminalEvents t).waitGenerationAliases := h.aliases
  unfold TerminalWaits.eventForTarget
  rw [haliases]
  split
  · exact h.pruned _
  · split
    · rfl
    · exact h.pruned _

theorem Looks.sees (h : Looks t w w') (target : AsyncJobWaitTarget) :
    w'.Sees t target ↔ w.Sees t target := by
  unfold Sees
  rw [h.eventForTarget]

theorem Looks.seenMet (h : Looks t w w') (wait : TerminalWait) :
    w'.SeenMet t wait ↔ w.SeenMet t wait := by
  unfold SeenMet
  split
  · exact forall₂_congr fun target _ => h.sees target
  · exact exists_congr fun target => and_congr_right fun _ => h.sees target

theorem conditionMet_of_seenMet (h : w.SeenMet t wait) :
    (w.pruneFor t wait.targets).conditionMet t wait = true := by
  by_cases hnil : wait.targets = []
  · unfold SeenMet at h
    unfold conditionMet
    rw [hnil]
    split
    · rfl
    · next hany =>
      rw [hany, hnil] at h
      obtain ⟨target, hmem, -⟩ := h
      cases hmem
  · have hprune : w.pruneFor t wait.targets = w.pruneTerminalEvents t := if_neg hnil
    rw [hprune]
    unfold SeenMet at h
    unfold conditionMet
    split
    · next hall =>
      rw [hall] at h
      have hfilter : (wait.targets.filter fun target =>
          ((w.pruneTerminalEvents t).eventForTarget t target).isSome) = wait.targets :=
        filter_eq_self.mpr h
      simp [hfilter]
    · next hany =>
      rw [hany] at h
      obtain ⟨target, hmem, hsees⟩ := h
      have hne : (wait.targets.filter fun target =>
          ((w.pruneTerminalEvents t).eventForTarget t target).isSome) ≠ [] :=
        ne_nil_of_mem (mem_filter.mpr ⟨hmem, hsees⟩)
      simpa using hne

theorem maybeResolveWait_resolves (hwait : w.handles.get? token = some wait)
    (hmet : w.SeenMet t wait) :
    ∃ wait', (maybeResolveWait t w token).handles.get? token = some wait' ∧
      wait'.result.isSome = true := by
  unfold maybeResolveWait
  rw [hwait]
  dsimp only
  split
  · next hsettled => exact ⟨wait, hwait, hsettled⟩
  · rw [if_pos (conditionMet_of_seenMet hmet)]
    exact ⟨_, get?_set_self _ _ _, rfl⟩

theorem maybeResolveWait_other {token' : Nat} (h : token' ≠ token) :
    (maybeResolveWait t w token).handles.get? token' = w.handles.get? token' := by
  unfold maybeResolveWait
  split
  · rfl
  split
  · rfl
  dsimp only
  split
  · rw [get?_set_ne _ _ h, pruneFor_handles]
  · rw [pruneFor_handles]

theorem resolveWaits_resolves {concerns : AsyncJobWaitTarget → Bool}
    (hwait : w.handles.get? token = some wait) (hmet : w.SeenMet t wait)
    (hconcerns : ∃ target ∈ wait.targets, concerns target = true) :
    ∃ wait', (w.resolveWaits t concerns).handles.get? token = some wait' ∧
      wait'.result.isSome = true := by
  have hmem :
      (token, wait) ∈ w.handles.entries.filter fun entry => entry.2.targets.any concerns := by
    refine mem_filter.mpr ⟨get?_eq_some.mp hwait, ?_⟩
    obtain ⟨target, htarget, hc⟩ := hconcerns
    exact any_eq_true.mpr ⟨target, htarget, hc⟩
  unfold resolveWaits
  generalize w.handles.entries.filter _ = entries at hmem
  -- once the fold has come to the wait, the rest of it leaves the result alone
  have hrest :
      ∀ (entries : List (Nat × TerminalWait)) (w₁ : TerminalWaits) (settled : TerminalWait),
      w₁.handles.get? token = some settled → settled.result.isSome = true →
      (entries.foldl (fun w entry => maybeResolveWait t w entry.1) w₁).handles.get? token =
        some settled := by
    intro entries
    induction entries with
    | nil => exact fun _ _ h _ => h
    | cons entry rest ih =>
      intro w₁ settled hget hsettled
      apply ih _ _ _ hsettled
      obtain ⟨wait', hwait'⟩ := (maybeResolveWait_looks t w₁ entry.1).kept token settled hget
      obtain ⟨old, hold, -, -, hsame, -⟩ :=
        (maybeResolveWait_looks t w₁ entry.1).handles token wait' hwait'
      rw [hget] at hold
      cases hold
      rw [hwait', hsame hsettled]
  induction entries generalizing w with
  | nil => cases hmem
  | cons entry rest ih =>
    rw [foldl_cons]
    by_cases hentry : entry.1 = token
    · rw [hentry]
      obtain ⟨settled, hget, hsettled⟩ := maybeResolveWait_resolves hwait hmet
      exact ⟨settled, hrest rest _ settled hget hsettled, hsettled⟩
    · have hlooks := maybeResolveWait_looks t w entry.1
      apply ih
      · rw [maybeResolveWait_other (Ne.symm hentry)]
        exact hwait
      · exact (hlooks.seenMet wait).mpr hmet
      · rcases mem_cons.mp hmem with heq | hrest
        · exact absurd (by rw [← heq]) hentry
        · exact hrest

end TerminalWaits

end Vibrato.Jobs
