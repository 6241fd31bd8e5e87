import Vibrato.Agent.RunResourceLedger

namespace Vibrato.Agent

open Lib List OrderedMap

namespace RunState

structure Inv (now : Int) (nextWait : Nat) (s : RunState) : Prop where
  accounted : ∀ id ∈ s.registered, id ∉ s.settledIds →
    s.lifecycle = .quarantined ∨ ∃ entry ∈ s.resources, entry.id = id
  told : ∀ r ∈ s.resolutions, r.proof = .settled → r.lifecycle = .sealed ∧ r.unsettled = []
  waits_lt : ∀ w ∈ s.waits, w.id < nextWait
  distinct : (s.waits.map (·.id)).Nodup
  waiting : ∀ w ∈ s.waiters, w ∈ s.waits ∧ now ≤ w.deadline
  once : ∀ w ∈ s.waits, s.resolutions.countP (·.waiter = w.id) + s.waiters.countP (·.id = w.id) = 1
  timely : ∀ r ∈ s.resolutions, ∀ w ∈ s.waits, w.id = r.waiter → r.time ≤ w.deadline
  known : ∀ r ∈ s.resolutions, r.waiter < nextWait
  releases : s.releases.length = s.released.toNat

structure Grows (s s' : RunState) : Prop where
  quarantined : s.lifecycle = .quarantined → s'.lifecycle = .quarantined
  waits : ∀ w ∈ s.waits, w ∈ s'.waits
  resolutions : ∃ new, s'.resolutions = s.resolutions ++ new ∧
    (s.lifecycle = .quarantined → ∀ r ∈ new, r.lifecycle = .quarantined)

theorem Grows.refl (s : RunState) : s.Grows s := ⟨id, fun _ => id, [], by simp⟩

theorem Grows.trans {s s' s'' : RunState} (h : s.Grows s') (h' : s'.Grows s'') : s.Grows s'' := by
  obtain ⟨new, hnew, hall⟩ := h.resolutions
  obtain ⟨new', hnew', hall'⟩ := h'.resolutions
  refine ⟨fun hq => h'.quarantined (h.quarantined hq), fun w hw => h'.waits w (h.waits w hw),
    new ++ new', ?_, ?_⟩
  · rw [hnew', hnew, append_assoc]
  · intro hq r hr
    rcases mem_append.mp hr with hr | hr
    · exact hall hq r hr
    · exact hall' (h.quarantined hq) r hr

variable {s : RunState} {now : Int} {nextWait : Nat}

variable (h : s.Inv now nextWait)
include h

theorem unsettled_eq_nil (hsealed : s.lifecycle = .sealed) (hnone : s.resources = []) :
    s.unsettled = [] := by
  rw [unsettled, filter_eq_nil_iff]
  intro id hid hunsettled
  rcases h.accounted id hid (of_decide_eq_true hunsettled) with hq | ⟨entry, hentry, -⟩
  · rw [hsealed] at hq
    cases hq
  · rw [hnone] at hentry
    cases hentry

theorem settlementProof_settled (hproof : s.settlementProof = some .settled) :
    s.lifecycle = .sealed ∧ s.unsettled = [] := by
  unfold settlementProof at hproof
  split at hproof
  · cases hproof
  · split at hproof
    · next hsealed =>
      exact ⟨hsealed.1, unsettled_eq_nil h hsealed.1 (length_eq_zero_iff.mp hsealed.2)⟩
    · cases hproof

theorem timeoutProof_settled (hproof : s.timeoutProof = .settled) :
    s.lifecycle = .sealed ∧ s.unsettled = [] := by
  unfold timeoutProof at hproof
  cases hsome : s.settlementProof with
  | none =>
    rw [hsome] at hproof
    cases hproof
  | some proof =>
    rw [hsome] at hproof
    cases hproof
    exact settlementProof_settled h hsome

omit h

def tell (s : RunState) (p : SettlementWaiter → Bool) (time : SettlementWaiter → Int)
    (proof : RunSettlementProof) : RunState :=
  { s with
    waiters := s.waiters.filter fun w => !p w
    resolutions :=
      s.resolutions ++ (s.waiters.filter p).map fun w => s.resolution (time w) w.id proof }

theorem Inv.tell (h : s.Inv now nextWait) {p : SettlementWaiter → Bool}
    {time : SettlementWaiter → Int}
    {proof : RunSettlementProof} {later : Int}
    (hproof : proof = .settled → s.lifecycle = .sealed ∧ s.unsettled = [])
    (htime : ∀ w ∈ s.waiters, p w = true → time w ≤ w.deadline)
    (hlater : ∀ w ∈ s.waiters, p w = false → later ≤ w.deadline) :
    (s.tell p time proof).Inv later nextWait := by
  have hnew : ∀ r ∈ (s.waiters.filter p).map fun w => s.resolution (time w) w.id proof,
      ∃ w ∈ s.waiters, p w = true ∧ r = s.resolution (time w) w.id proof := by
    intro r hr
    obtain ⟨w, hw, rfl⟩ := mem_map.mp hr
    obtain ⟨hw, hp⟩ := mem_filter.mp hw
    exact ⟨w, hw, hp, rfl⟩
  refine
    { accounted := h.accounted
      told := ?_
      waits_lt := h.waits_lt
      distinct := h.distinct
      waiting := ?_
      once := ?_
      timely := ?_
      known := ?_
      releases := h.releases }
  · intro r hr hsettled
    rcases mem_append.mp hr with hr | hr
    · exact h.told r hr hsettled
    · obtain ⟨w, -, -, rfl⟩ := hnew r hr
      exact hproof hsettled
  · intro w hw
    obtain ⟨hw, hp⟩ := mem_filter.mp hw
    exact ⟨(h.waiting w hw).1, hlater w hw (by simpa using hp)⟩
  · intro w hw
    have hone := h.once w hw
    -- a waiter that is told moves from the one list to the other
    have hmoved : ((s.waiters.filter p).map fun v => s.resolution (time v) v.id proof).countP
          (·.waiter = w.id) + (s.waiters.filter fun v => !p v).countP (·.id = w.id) =
        s.waiters.countP (·.id = w.id) := by
      rw [countP_map]
      exact (countP_eq_countP_filter_add s.waiters _ p).symm
    show (s.resolutions ++ _).countP _ + _ = 1
    rw [countP_append, Nat.add_assoc]
    exact (congrArg _ hmoved).trans hone
  · intro r hr w hw hid
    rcases mem_append.mp hr with hr | hr
    · exact h.timely r hr w hw hid
    · obtain ⟨v, hv, hp, rfl⟩ := hnew r hr
      have hsame : w = v := inj_on_of_nodup_map h.distinct hw (h.waiting v hv).1 hid
      rw [hsame]
      exact htime v hv hp
  · intro r hr
    rcases mem_append.mp hr with hr | hr
    · exact h.known r hr
    · obtain ⟨w, hw, -, rfl⟩ := hnew r hr
      exact h.waits_lt w (h.waiting w hw).1

theorem tell_grows (s : RunState) (p : SettlementWaiter → Bool) (time : SettlementWaiter → Int)
    (proof : RunSettlementProof) : s.Grows (s.tell p time proof) := by
  refine ⟨id, fun _ => id, _, rfl, ?_⟩
  intro hq r hr
  obtain ⟨w, -, rfl⟩ := mem_map.mp hr
  exact hq

theorem Inv.releaseIfSettled (h : s.Inv now nextWait) : s.releaseIfSettled.Inv now nextWait := by
  unfold RunState.releaseIfSettled
  split
  · exact h
  · next hnot =>
    have hreleased : s.released = false := by
      cases hr : s.released with
      | false => rfl
      | true => exact absurd (.inl hr) hnot
    refine { h with releases := ?_ }
    have hcount := h.releases
    rw [hreleased] at hcount
    simp [length_eq_zero_iff.mp hcount]

theorem releaseIfSettled_grows (s : RunState) : s.Grows s.releaseIfSettled := by
  unfold releaseIfSettled
  split
  · exact .refl s
  · exact ⟨id, fun _ => id, [], by simp⟩

theorem notify_eq (s : RunState) (now : Int) : s.notify now =
    (s.settlementProof.elim s fun proof => s.tell (fun _ => true)
      (fun _ => now) proof).releaseIfSettled := by
  unfold notify
  cases s.settlementProof with
  | none => rfl
  | some proof => simp [tell]

theorem Inv.notify (h : s.Inv now nextWait) : (s.notify now).Inv now nextWait := by
  rw [notify_eq]
  apply Inv.releaseIfSettled
  cases hproof : s.settlementProof with
  | none => exact h
  | some proof =>
    refine h.tell ?_ (fun w hw _ => (h.waiting w hw).2) nofun
    rintro rfl
    exact settlementProof_settled h hproof

theorem notify_grows (s : RunState) (now : Int) : s.Grows (s.notify now) := by
  rw [notify_eq]
  refine Grows.trans ?_ (releaseIfSettled_grows _)
  cases s.settlementProof with
  | none => exact .refl s
  | some proof => exact s.tell_grows _ _ proof

theorem Inv.detach (h : s.Inv now nextWait) : s.detach.Inv now nextWait := by
  have hcount := h.releases
  unfold RunState.detach
  dsimp only
  split
  · exact { h with accounted := fun _ _ _ => .inl rfl }
  · split
    · exact { h with accounted := fun _ _ _ => .inl rfl }
    · next hreleased =>
      rw [Bool.not_eq_true] at hreleased
      rw [hreleased] at hcount
      refine { h with accounted := fun _ _ _ => .inl rfl, releases := ?_ }
      simp [length_eq_zero_iff.mp hcount]

theorem detach_grows (s : RunState) : s.Grows s.detach := by
  unfold detach
  dsimp only
  split
  · exact ⟨fun _ => rfl, fun _ => id, [], by simp⟩
  · split
    · exact ⟨fun _ => rfl, fun _ => id, [], by simp⟩
    · exact ⟨fun _ => rfl, fun _ => id, [], by simp⟩

theorem Inv.quarantineState (h : s.Inv now nextWait) :
    (s.quarantineState now).Inv now nextWait := by
  unfold RunState.quarantineState
  split
  · exact h.detach.notify
  · exact h.notify

theorem quarantineState_grows (s : RunState) (now : Int) : s.Grows (s.quarantineState now) := by
  unfold quarantineState
  split
  · exact s.detach_grows.trans (notify_grows _ now)
  · exact s.notify_grows now

theorem quarantineState_tells (s : RunState) (now : Int) :
    (s.quarantineState now).lifecycle = .quarantined ∧
    ∃ new, (s.quarantineState now).resolutions = s.resolutions ++ new ∧
      ∀ r ∈ new, r.lifecycle = .quarantined := by
  have hnotify : ∀ s' : RunState, s'.lifecycle = .quarantined → s'.resolutions = s.resolutions →
      (s'.notify now).lifecycle = .quarantined ∧
        ∃ new, (s'.notify now).resolutions = s.resolutions ++ new ∧
          ∀ r ∈ new, r.lifecycle = .quarantined := by
    intro s' hq hsame
    obtain ⟨new, hnew, hall⟩ := (s'.notify_grows now).resolutions
    exact ⟨(s'.notify_grows now).quarantined hq, new, hsame ▸ hnew, hall hq⟩
  unfold quarantineState
  split
  · refine hnotify _ ?_ ?_
    · unfold detach
      dsimp only
      split
      · rfl
      · split <;> rfl
    · unfold detach
      dsimp only
      split
      · rfl
      · split <;> rfl
  · next hq => exact hnotify s (Decidable.not_not.1 hq) rfl

theorem Inv.register (h : s.Inv now nextWait) (entry : RunResourceEntry) :
    (s.register entry).1.Inv now nextWait := by
  unfold RunState.register
  split
  · next hq => exact { h with accounted := fun _ _ _ => .inl hq }
  · refine { h with accounted := fun id hid hunsettled => ?_ }
    rcases mem_append.mp hid with hid | hid
    · rcases h.accounted id hid hunsettled with hq | ⟨held, hmem, heq⟩
      · exact .inl hq
      · exact .inr ⟨held, mem_append_left _ hmem, heq⟩
    · exact .inr ⟨entry, mem_append_right _ (mem_singleton_self _), (mem_singleton.mp hid).symm⟩

theorem register_grows (s : RunState) (entry : RunResourceEntry) :
    s.Grows (s.register entry).1 := by
  unfold register
  split
  · exact ⟨id, fun _ => id, [], by simp⟩
  · exact ⟨id, fun _ => id, [], by simp⟩

theorem Inv.settle (h : s.Inv now nextWait) (id : Nat) : (s.settle now id).Inv now nextWait := by
  unfold RunState.settle
  split
  · exact h
  · dsimp only
    split
    · refine Inv.notify { h with accounted := fun id' hid' hunsettled => ?_ }
      rw [mem_append, not_or] at hunsettled
      rcases h.accounted id' hid' hunsettled.1 with hq | ⟨entry, hmem, rfl⟩
      · exact .inl hq
      · refine .inr ⟨entry, mem_filter.mpr ⟨hmem, ?_⟩, rfl⟩
        simpa using hunsettled.2
    · refine { h with accounted := fun id' hid' hunsettled => ?_ }
      rw [mem_append, not_or] at hunsettled
      exact h.accounted id' hid' hunsettled.1

theorem settle_grows (s : RunState) (now : Int) (id : Nat) : s.Grows (s.settle now id) := by
  unfold settle
  split
  · exact .refl s
  · dsimp only
    split
    · refine Grows.trans ?_ (notify_grows _ now)
      exact ⟨fun h => h, fun _ h => h, [], by simp⟩
    · exact ⟨fun h => h, fun _ h => h, [], by simp⟩

theorem Inv.sealRun (h : s.Inv now nextWait) : (s.sealRun now).Inv now nextWait := by
  unfold RunState.sealRun
  split
  · exact h
  · next hopen =>
    rw [not_not] at hopen
    refine Inv.notify { h with accounted := fun id hid hunsettled => .inr ?_ }
    exact (h.accounted id hid hunsettled).resolve_left (by rw [hopen]; nofun)

theorem sealRun_grows (s : RunState) (now : Int) : s.Grows (s.sealRun now) := by
  unfold sealRun
  split
  · exact .refl s
  · next hopen =>
    rw [not_not] at hopen
    have hsealed : s.Grows { s with lifecycle := .sealed } := by
      refine ⟨fun hq => ?_, fun _ => id, [], by simp⟩
      rw [hopen] at hq
      cases hq
    exact hsealed.trans (notify_grows _ now)

theorem Inv.fireTimers (h : s.Inv now nextWait) (later : Int) :
    (s.fireTimers later).Inv later nextWait := by
  have htell : s.fireTimers later = s.tell (·.deadline ≤ later) (·.deadline) s.timeoutProof := by
    unfold RunState.fireTimers RunState.tell
    congr 1
    refine filter_congr fun w _ => ?_
    rw [← decide_not]
    exact decide_eq_decide.mpr Int.not_le.symm
  rw [htell]
  refine h.tell (timeoutProof_settled h) (fun w _ _ => Int.le_refl _) ?_
  intro w _ hlate
  have hlt := of_decide_eq_false hlate
  omega

theorem fireTimers_grows (s : RunState) (later : Int) : s.Grows (s.fireTimers later) := by
  refine ⟨id, fun _ => id, _, rfl, ?_⟩
  intro hq r hr
  obtain ⟨w, -, rfl⟩ := mem_map.mp hr
  exact hq

theorem Inv.draw (h : s.Inv now nextWait) {next : Nat} (hnext : nextWait ≤ next) : s.Inv now next :=
  { h with
    waits_lt := fun w hw => Nat.lt_of_lt_of_le (h.waits_lt w hw) hnext
    known := fun r hr => Nat.lt_of_lt_of_le (h.known r hr) hnext }

theorem Inv.waitForSettlement (h : s.Inv now nextWait) (graceMs : Int) :
    (s.waitForSettlement now nextWait graceMs).Inv now (nextWait + 1) := by
  have hfresh : ∀ w ∈ s.waits, w.id ≠ nextWait := fun w hw => Nat.ne_of_lt (h.waits_lt w hw)
  -- the number is new, so neither list has it yet
  have hresolutions : s.resolutions.countP (·.waiter = nextWait) = 0 := by
    rw [countP_eq_zero]
    intro r hr hid
    exact Nat.ne_of_lt (h.known r hr) (of_decide_eq_true hid)
  have hwaiters : s.waiters.countP (·.id = nextWait) = 0 := by
    rw [countP_eq_zero]
    intro w hw hid
    exact hfresh w (h.waiting w hw).1 (of_decide_eq_true hid)
  have hlt : ∀ w ∈ s.waits ++ [SettlementWaiter.mk nextWait (now + max 0 graceMs)],
      w.id < nextWait + 1 := by
    intro w hw
    rcases mem_append.mp hw with hw | hw
    · exact Nat.lt_succ_of_lt (h.waits_lt w hw)
    · rw [mem_singleton.mp hw]
      exact Nat.lt_succ_self _
  have hdistinct :
      ((s.waits ++ [SettlementWaiter.mk nextWait (now + max 0 graceMs)]).map (·.id)).Nodup := by
    rw [map_append]
    refine h.distinct.append (nodup_singleton _) ?_
    intro id hid hnew
    obtain ⟨w, hw, rfl⟩ := mem_map.mp hid
    exact hfresh w hw (mem_singleton.mp hnew)
  have htimely :
      ∀ r ∈ s.resolutions, ∀ w ∈ s.waits ++ [SettlementWaiter.mk nextWait (now + max 0 graceMs)],
      w.id = r.waiter → r.time ≤ w.deadline := by
    intro r hr w hw hid
    rcases mem_append.mp hw with hw | hw
    · exact h.timely r hr w hw hid
    · rw [mem_singleton.mp hw] at hid
      exact absurd hid.symm (Nat.ne_of_lt (h.known r hr))
  unfold RunState.waitForSettlement
  dsimp only
  split
  · next proof hproof =>
    have hproof' : s.settlementProof = some proof := hproof
    refine
      { accounted := h.accounted
        told := ?_
        waits_lt := hlt
        distinct := hdistinct
        waiting := fun w hw => ⟨mem_append_left _ (h.waiting w hw).1, (h.waiting w hw).2⟩
        once := ?_
        timely := ?_
        known := ?_
        releases := h.releases }
    · intro r hr hsettled
      rcases mem_append.mp hr with hr | hr
      · exact h.told r hr hsettled
      · rw [mem_singleton.mp hr] at hsettled ⊢
        exact settlementProof_settled h (hproof'.trans (congrArg some hsettled))
    · intro w hw
      rcases mem_append.mp hw with hw | hw
      · have hne : nextWait ≠ w.id := (hfresh w hw).symm
        simpa [countP_append, countP_singleton, resolution, hne] using h.once w hw
      · rw [mem_singleton.mp hw]
        simp [countP_append, resolution, hresolutions, hwaiters]
    · intro r hr w hw hid
      rcases mem_append.mp hr with hr | hr
      · exact htimely r hr w hw hid
      · rw [mem_singleton.mp hr] at hid ⊢
        have hself : w = .mk nextWait (now + max 0 graceMs) :=
          inj_on_of_nodup_map hdistinct hw (mem_append_right _ (mem_singleton_self _)) hid
        rw [hself]
        show now ≤ now + max 0 graceMs
        omega
    · intro r hr
      rcases mem_append.mp hr with hr | hr
      · exact Nat.lt_succ_of_lt (h.known r hr)
      · rw [mem_singleton.mp hr]
        exact Nat.lt_succ_self _
  · refine
      { accounted := h.accounted
        told := h.told
        waits_lt := hlt
        distinct := hdistinct
        waiting := ?_
        once := ?_
        timely := htimely
        known := fun r hr => Nat.lt_succ_of_lt (h.known r hr)
        releases := h.releases }
    · intro w hw
      rcases mem_append.mp hw with hw | hw
      · exact ⟨mem_append_left _ (h.waiting w hw).1, (h.waiting w hw).2⟩
      · refine ⟨mem_append_right _ hw, ?_⟩
        rw [mem_singleton.mp hw]
        show now ≤ now + max 0 graceMs
        omega
    · intro w hw
      rcases mem_append.mp hw with hw | hw
      · have hne : nextWait ≠ w.id := (hfresh w hw).symm
        simpa [countP_append, countP_singleton, hne] using h.once w hw
      · rw [mem_singleton.mp hw]
        simp [countP_append, hresolutions, hwaiters]

theorem waitForSettlement_grows (s : RunState) (now : Int) (id : Nat) (graceMs : Int) :
    s.Grows (s.waitForSettlement now id graceMs) := by
  unfold waitForSettlement
  dsimp only
  split
  · refine ⟨fun h => h, fun _ => mem_append_left _, _, rfl, ?_⟩
    intro hq r hr
    rw [mem_singleton.mp hr]
    exact hq
  · exact ⟨fun h => h, fun _ => mem_append_left _, [], by simp⟩

theorem waits_waitForSettlement (s : RunState) (now : Int) (id : Nat) (graceMs : Int) :
    SettlementWaiter.mk id (now + max 0 graceMs) ∈ (s.waitForSettlement now id graceMs).waits := by
  unfold waitForSettlement
  dsimp only
  split
  · exact mem_append_right _ (mem_singleton_self _)
  · exact mem_append_right _ (mem_singleton_self _)

theorem Inv.opened (now : Int) (nextWait : Nat) (domain : Option Nat) :
    Inv now nextWait { domain } where
  accounted := nofun
  told := nofun
  waits_lt := nofun
  distinct := nodup_nil
  waiting := nofun
  once := nofun
  timely := nofun
  known := nofun
  releases := rfl

end RunState

namespace RunResourceLedger

variable {l l' l'' : RunResourceLedger}

structure Advances (l l' : RunResourceLedger) : Prop where
  known : ∀ run s, l.runs.get? run = some s → ∃ s', l'.runs.get? run = some s' ∧ s.Grows s' ∧
    (s.Inv l.now l.nextWait → s'.Inv l'.now l'.nextWait)
  fresh : ∀ run s', l.runs.get? run = none → l'.runs.get? run = some s' → s'.Inv l'.now l'.nextWait

theorem Advances.refl (l : RunResourceLedger) : l.Advances l where
  known := fun _ s hs => ⟨s, hs, .refl s, id⟩
  fresh := fun run s' hnone hsome => by
    rw [hnone] at hsome
    cases hsome

theorem Advances.trans (h : l.Advances l') (h' : l'.Advances l'') : l.Advances l'' where
  known := fun run s hs => by
    obtain ⟨s', hs', hgrows, hinv⟩ := h.known run s hs
    obtain ⟨s'', hs'', hgrows', hinv'⟩ := h'.known run s' hs'
    exact ⟨s'', hs'', hgrows.trans hgrows', fun hi => hinv' (hinv hi)⟩
  fresh := fun run s'' hnone hsome => by
    cases hs' : l'.runs.get? run with
    | none => exact h'.fresh run s'' hs' hsome
    | some s' =>
      obtain ⟨s₂, hs₂, -, hinv⟩ := h'.known run s' hs'
      rw [hsome] at hs₂
      cases hs₂
      exact hinv (h.fresh run s' hnone hs')

theorem Advances.congr (h : l.Advances l') (hruns : l''.runs = l'.runs) (hnow : l''.now = l'.now)
    (hwait : l''.nextWait = l'.nextWait) : l.Advances l'' := by
  refine ⟨?_, ?_⟩
  · rw [hruns, hnow, hwait]
    exact h.known
  · rw [hruns, hnow, hwait]
    exact h.fresh

variable (l)

theorem get?_update (run run' : String) (f : RunState → RunState) :
    (l.update run f).runs.get? run' = if run' = run then (l.runs.get? run').map f
      else l.runs.get? run' := by
  unfold update
  split
  · next hnone =>
    split
    · next heq =>
      rw [heq, hnone]
      rfl
    · rfl
  · next s hsome =>
    rw [get?_set]
    split
    · next heq =>
      rw [heq, hsome]
      rfl
    · rfl

@[simp] theorem now_update (run : String) (f : RunState → RunState) :
    (l.update run f).now = l.now := by
  unfold update
  split
  · rfl
  · rfl

@[simp] theorem nextWait_update (run : String) (f : RunState → RunState) :
    (l.update run f).nextWait = l.nextWait := by
  unfold update
  split
  · rfl
  · rfl

variable {l}

variable {run : String} {f : RunState → RunState}

theorem Advances.of_update
    (hruns : l'.runs = (l.update run f).runs) (hnow : l'.now = l.now)
    (hwait : l.nextWait ≤ l'.nextWait)
    (hgrows : ∀ s : RunState, s.Grows (f s))
    (hinv : ∀ s : RunState, s.Inv l.now l.nextWait → (f s).Inv l.now l'.nextWait) :
    l.Advances l' := by
  refine ⟨?_, ?_⟩
  · intro run' s hs
    rw [hnow, hruns, get?_update, hs]
    split
    · exact ⟨f s, rfl, hgrows s, hinv s⟩
    · exact ⟨s, rfl, .refl s, fun hi => hi.draw hwait⟩
  · intro run' s' hnone hsome
    rw [hruns, get?_update, hnone] at hsome
    split at hsome
    · cases hsome
    · cases hsome

variable (l) {s : RunState}

theorem update_advances (run : String) (hgrows : ∀ s : RunState, s.Grows (f s))
    (hinv : ∀ s : RunState, s.Inv l.now l.nextWait → (f s).Inv l.now l.nextWait) :
    l.Advances (l.update run f) := by
  refine .of_update rfl (now_update ..) (Nat.le_of_eq (nextWait_update ..).symm) hgrows ?_
  rw [nextWait_update]
  exact hinv

theorem quarantineRun_advances (run : String) : l.Advances (l.quarantineRun run) :=
  l.update_advances run (fun s => s.quarantineState_grows l.now) fun _ hi => hi.quarantineState

theorem register_advances (run : String) (kind : RunResourceKind) (label : String) :
    l.Advances (l.register run kind label) := by
  have h := l.update_advances run (fun s => s.register_grows (l.nextEntry kind label))
    fun _ hi => hi.register (l.nextEntry kind label)
  exact h.congr rfl rfl rfl

theorem leaseFor_advances (run : String) (s : RunState) (kind : RunResourceKind)
    (label : String) : l.Advances (l.leaseFor run s kind label).1 := by
  unfold leaseFor
  split
  · exact .refl l
  · split
    · exact (l.register_advances run kind label).congr rfl rfl rfl
    · exact l.register_advances run kind label

theorem openRun_advances (run : String) (domain : Option Nat) :
    l.Advances (l.openRun run domain).1 := by
  unfold openRun
  split
  · exact .refl l
  · next hnone =>
    split
    · exact .refl l
    · refine ⟨?_, ?_⟩
      · intro run' s hs
        have hne : run' ≠ run := by
          rintro rfl
          rw [hnone] at hs
          cases hs
        exact ⟨s, (get?_set_ne _ _ hne).trans hs, .refl s, id⟩
      · intro run' s' hnone' hsome
        rw [get?_set] at hsome
        split at hsome
        · cases hsome
          exact .opened ..
        · rw [hnone'] at hsome
          cases hsome

theorem reserveProducer_advances (run : String) (expectedDomain : Option Nat)
    (kind : RunResourceKind) (label : String) :
    l.Advances (l.reserveProducer run expectedDomain kind label).1 := by
  unfold reserveProducer
  split
  · exact .refl l
  · split
    · exact .refl l
    · split
      · exact l.quarantineRun_advances run
      · split
        · exact l.quarantineRun_advances run
        · exact l.leaseFor_advances run _ kind label

theorem claim_advances (ownerKey : Nat) (hs : l.runs.get? run = some s) : l.Advances { l with
      runs := l.runs.set run { s with claimedOwners := s.claimedOwners ++ [ownerKey] } } := by
  have h := l.update_advances run
      (f := fun s => { s with claimedOwners := s.claimedOwners ++ [ownerKey] })
    (fun s => ⟨id, fun _ => id, [], by simp⟩) fun s hi => { hi with }
  rw [update, hs] at h
  exact h

theorem claimProducer_advances (run : String) (expectedDomain : Option Nat)
    (ownerKey : Nat) : l.Advances (l.claimProducer run expectedDomain ownerKey).1 := by
  unfold claimProducer
  split
  · exact .refl l
  · split
    · exact .refl l
    · next s hs =>
      split
      · exact .refl l
      · split
        · exact l.quarantineRun_advances run
        · split
          · exact l.quarantineRun_advances run
          · split
            · exact l.quarantineRun_advances run
            · exact (l.claim_advances ownerKey hs).trans (leaseFor_advances ..)

theorem leaseTrack_advances (lease : Nat) (kind : RunResourceKind) (label : String) :
    l.Advances (l.leaseTrack lease kind label).1 := by
  unfold leaseTrack
  split
  · exact .refl l
  · split
    · exact .refl l
    · split
      · exact l.quarantineRun_advances _
      · exact l.register_advances _ kind label

theorem leaseFork_advances (lease expectedDomain : Nat) (kind : RunResourceKind)
    (label : String) : l.Advances (l.leaseFork lease expectedDomain kind label).1 := by
  unfold leaseFork
  split
  · exact .refl l
  · split
    · exact .refl l
    · split
      · exact l.quarantineRun_advances _
      · split
        · exact l.quarantineRun_advances _
        · exact l.leaseFor_advances _ _ kind label

theorem settle_advances (run : String) (id : Nat) : l.Advances (l.settle run id) := by
  unfold settle
  split
  · exact .refl l
  · exact l.update_advances run (fun s => s.settle_grows l.now id) fun _ hi => hi.settle id

theorem waitForSettlement_advances (run : String) (graceMs : Int) :
    l.Advances (l.waitForSettlement run graceMs).1 := by
  unfold waitForSettlement
  split
  · exact .refl l
  · exact .of_update rfl (now_update ..) (Nat.le_succ _)
      (fun s => s.waitForSettlement_grows l.now l.nextWait graceMs) fun _ hi =>
        hi.waitForSettlement graceMs

theorem elapse_advances (ms : Nat) : l.Advances (l.elapse ms) := by
  refine ⟨?_, ?_⟩
  · intro run s hs
    refine ⟨s.fireTimers (l.now + ms), ?_, s.fireTimers_grows _, fun hi => hi.fireTimers _⟩
    exact (get?_mapValues ..).trans (congrArg _ hs)
  · intro run s' hnone hsome
    have hmap := (get?_mapValues l.runs (fun _ s => s.fireTimers (l.now + ms)) run).symm.trans hsome
    rw [hnone] at hmap
    cases hmap

theorem step_advances (call : Call) : l.Advances (l.step call) := by
  cases call with
  | bindAgentSessionClaimKey key =>
    unfold step
    dsimp only
    split
    · exact .refl l
    · exact (Advances.refl l).congr rfl rfl rfl
  | openRun run domain => exact l.openRun_advances run domain
  | reserveProducer run expectedDomain kind label =>
      exact l.reserveProducer_advances run expectedDomain kind label
  | claimProducer run expectedDomain ownerKey =>
      exact l.claimProducer_advances run expectedDomain ownerKey
  | track run kind label =>
    show l.Advances (l.track run kind label)
    unfold track
    split
    · exact l.register_advances run kind label
    · exact .refl l
  | leaseTrack lease kind label => exact l.leaseTrack_advances lease kind label
  | leaseFork lease expectedDomain kind label =>
      exact l.leaseFork_advances lease expectedDomain kind label
  | closeDiscovery lease => exact (Advances.refl l).congr rfl rfl rfl
  | sealRun run =>
      exact l.update_advances run (fun s => s.sealRun_grows l.now) fun _ hi => hi.sealRun
  | quarantine run => exact l.quarantineRun_advances run
  | settle run id => exact l.settle_advances run id
  | waitForSettlement run graceMs => exact l.waitForSettlement_advances run graceMs
  | elapse ms => exact l.elapse_advances ms

theorem run_advances (calls : List Call) : l.Advances (calls.foldl step l) := by
  induction calls generalizing l with
  | nil => exact .refl l
  | cons call calls ih => exact (l.step_advances call).trans (ih _)

variable {l}

def after (calls : List Call) : RunResourceLedger := calls.foldl step {}

theorem after_append (before rest : List Call) :
    after (before ++ rest) = rest.foldl step (after before) := by
  exact foldl_append

theorem after_inv {calls : List Call} (hs : (after calls).runs.get? run = some s) :
    s.Inv (after calls).now (after calls).nextWait :=
  (run_advances {} calls).fresh run s rfl hs

theorem waits_after {before rest : List Call} {graceMs : Int}
    (hknown : (after before).runs.has run = true)
    (hs : (after (before ++ .waitForSettlement run graceMs :: rest)).runs.get? run = some s) :
    SettlementWaiter.mk (after before).nextWait ((after before).now + max 0 graceMs) ∈ s.waits := by
  obtain ⟨s₀, hs₀⟩ := has_iff.mp hknown
  rw [after_append, foldl_cons] at hs
  have hstep : ((after before).step (.waitForSettlement run graceMs)).runs.get? run =
      some (s₀.waitForSettlement (after before).now (after before).nextWait graceMs) := by
    show ((after before).waitForSettlement run graceMs).1.runs.get? run = _
    unfold waitForSettlement
    rw [hs₀]
    rw [get?_update, if_pos rfl, hs₀]
    rfl
  obtain ⟨s', hs', hgrows, -⟩ := (run_advances _ rest).known run _ hstep
  rw [hs] at hs'
  cases hs'
  exact hgrows.waits _ (s₀.waits_waitForSettlement ..)

/-- In every sequence of calls, a wait for a run is told that it is settled only while the run is
sealed and all that was registered for it has settled, and never once the run is quarantined, nor
from a call on that quarantines it. A wait is told at most once, by the end of its grace period, and
it has been told once that is over. The domain of a run is released at most once. -/
theorem waits_told_settled_once_in_time (calls : List Call) (run : String) (s : RunState)
    (hs : (after calls).runs.get? run = some s) :
    (∀ r ∈ s.resolutions, r.proof = .settled → r.lifecycle = .sealed ∧ r.unsettled = []) ∧
    (∀ before rest s₀, calls = before ++ rest → (after before).runs.get? run = some s₀ →
      s₀.lifecycle = .quarantined →
      ∃ new, s.resolutions = s₀.resolutions ++ new ∧ ∀ r ∈ new, r.proof ≠ .settled) ∧
    (∀ before rest s₀, calls = before ++ .quarantine run :: rest →
      (after before).runs.get? run = some s₀ →
      ∃ new, s.resolutions = s₀.resolutions ++ new ∧ ∀ r ∈ new, r.proof ≠ .settled) ∧
    (∀ before graceMs rest, calls = before ++ .waitForSettlement run graceMs :: rest →
      (after before).runs.has run = true →
      s.resolutions.countP (·.waiter = (after before).nextWait) ≤ 1 ∧
      (∀ r ∈ s.resolutions, r.waiter = (after before).nextWait →
        r.time ≤ (after before).now + max 0 graceMs) ∧
      ((after before).now + max 0 graceMs < (after calls).now →
        s.resolutions.countP (·.waiter = (after before).nextWait) = 1)) ∧
    s.releases.length ≤ 1 := by
  have hinv := after_inv hs
  -- a settled report says that the run was sealed
  have hunsettled : ∀ r ∈ s.resolutions, r.lifecycle = .quarantined → r.proof ≠ .settled := by
    intro r hr hq hsettled
    have hsealed := (hinv.told r hr hsettled).1
    rw [hq] at hsealed
    cases hsealed
  refine ⟨hinv.told, ?_, ?_, ?_, ?_⟩
  · rintro before rest s₀ rfl hs₀ hq
    rw [after_append] at hs
    obtain ⟨s', hs', hgrows, -⟩ := (run_advances (after before) rest).known run s₀ hs₀
    rw [hs] at hs'
    cases hs'
    obtain ⟨new, hnew, hall⟩ := hgrows.resolutions
    exact ⟨new, hnew, fun r hr => hunsettled r (hnew ▸ mem_append_right _ hr) (hall hq r hr)⟩
  · rintro before rest s₀ rfl hs₀
    rw [after_append, foldl_cons] at hs
    have hstep : ((after before).step (.quarantine run)).runs.get? run =
        some (s₀.quarantineState (after before).now) := by
      show ((after before).quarantineRun run).runs.get? run = _
      rw [quarantineRun, get?_update, if_pos rfl, hs₀]
      rfl
    obtain ⟨s', hs', hgrows, -⟩ := (run_advances _ rest).known run _ hstep
    rw [hs] at hs'
    cases hs'
    obtain ⟨hq, told, htold, hall⟩ := s₀.quarantineState_tells (after before).now
    obtain ⟨new, hnew, hall'⟩ := hgrows.resolutions
    have heq : s.resolutions = s₀.resolutions ++ (told ++ new) := by rw [hnew, htold, append_assoc]
    refine ⟨told ++ new, heq, fun r hr => hunsettled r (heq ▸ mem_append_right _ hr) ?_⟩
    rcases mem_append.1 hr with hr | hr
    · exact hall r hr
    · exact hall' hq r hr
  · rintro before graceMs rest rfl hknown
    have hwait := waits_after hknown hs
    have honce := hinv.once _ hwait
    refine ⟨Nat.le_of_add_right_le (Nat.le_of_eq honce), ?_, ?_⟩
    · intro r hr hid
      exact hinv.timely r hr _ hwait hid.symm
    · intro hover
      have hnone : s.waiters.countP (·.id = (after before).nextWait) = 0 := by
        rw [countP_eq_zero]
        intro w hw hid
        have hself : w = .mk (after before).nextWait ((after before).now + max 0 graceMs) :=
          inj_on_of_nodup_map hinv.distinct (hinv.waiting w hw).1 hwait (of_decide_eq_true hid)
        have hdeadline := (hinv.waiting w hw).2
        rw [hself] at hdeadline
        exact Int.not_le.mpr hover hdeadline
      rw [hnone] at honce
      exact honce
  · rw [hinv.releases]
    exact Bool.toNat_le _

/-- A tool settles after the run is sealed; the wait is told so before its ten milliseconds are
over. -/
def sealedRun : List Call :=
  [.openRun "run" (some 0), .track "run" .tool "bash", .waitForSettlement "run" 10, .elapse 3,
    .sealRun "run", .settle "run" 1, .elapse 20]

theorem waits_told_settled_once_in_time_sealed :
    ∃ s : RunState, (after sealedRun).runs.get? "run" = some s ∧
    s.resolutions = [⟨0, .settled, 3, .sealed, []⟩] ∧ s.releases = [.settled] ∧
    s.resolutions.countP (·.waiter = 0) ≤ 1 := by
  refine ⟨_, rfl, by decide +kernel, by decide +kernel, ?_⟩
  exact ((waits_told_settled_once_in_time sealedRun "run" _ rfl).2.2.2.1 (sealedRun.take 2) 10
    (sealedRun.drop 3) rfl rfl).1

end RunResourceLedger

end Vibrato.Agent
