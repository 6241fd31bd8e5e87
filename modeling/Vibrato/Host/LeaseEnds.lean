import Vibrato.Host.LeaseRequests
import Vibrato.Lib.Runs

namespace Vibrato.Host.ReverseLeaseRuntime

open Lib List OrderedMap

variable (s : ReverseLeaseRuntime)

/-- The leases that a step ends: the one that is replaced by a lease with another id, the one that
is released, those of a connection that is lost, those that a sweep finds expired, and all of
them. -/
def ended : Event → List Nat
  | .register r =>
    match s.leases.get? r.capability with
    | none => []
    | some existing =>
      if ((s.registerProvider r).1.leases.get? r.capability).any (·.leaseId = existing.leaseId) then
        []
      else [existing.leaseId]
  | .release connectionId leaseId _ =>
      if (s.owner connectionId leaseId).isSome then [leaseId] else []
  | .disconnect connectionId =>
      (s.leases.values.filter (·.connectionId = connectionId)).map (·.leaseId)
  | .sweep => (s.leases.values.filter (·.expiresAt ≤ s.now)).map (·.leaseId)
  | .dispose => s.leases.values.map (·.leaseId)
  | _ => []

/-- No request is outstanding under an expired lease that a registration replaces or a sweep
finds. -/
def Sound : Event → Prop
  | .register r => ∀ existing ∈ s.leases.get? r.capability, s.replaces r existing = true →
      ∀ o ∈ s.outstanding.values, o.leaseId ≠ existing.leaseId
  | .sweep => ∀ lease ∈ s.leases.values, lease.expiresAt ≤ s.now →
      ∀ o ∈ s.outstanding.values, o.leaseId ≠ lease.leaseId
  | _ => True

instance (s : ReverseLeaseRuntime) : (e : Event) → Decidable (s.Sound e)
  | .register r => inferInstanceAs (Decidable (∀ existing ∈ s.leases.get? r.capability,
      s.replaces r existing = true → ∀ o ∈ s.outstanding.values, o.leaseId ≠ existing.leaseId))
  | .sweep => inferInstanceAs (Decidable (∀ lease ∈ s.leases.values, lease.expiresAt ≤ s.now →
      ∀ o ∈ s.outstanding.values, o.leaseId ≠ lease.leaseId))
  | .heartbeat .. | .release .. | .disconnect _ | .request _ | .respond .. | .abort
      _ | .deliveryFailed _
  | .getLease _ | .elapse _ | .dispose => inferInstanceAs (Decidable True)

structure Continues (s s' : ReverseLeaseRuntime) : Prop where
  made : s.made <+: s'.made
  table : ∀ {id r}, s'.outstanding.get? id = some r → s.outstanding.get? id = some r ∨ s.nextId ≤ id

theorem Continues.refl (s : ReverseLeaseRuntime) : Continues s s := ⟨prefix_refl _, .inl⟩

variable {s : ReverseLeaseRuntime} {id leaseId : Nat}

theorem SameRequests.continues {s' : ReverseLeaseRuntime} (h : SameRequests s s') :
    Continues s s' := by
  refine ⟨?_, fun hr => ?_⟩
  · simp [h.made]
  · rw [h.outstanding] at hr
    exact .inl hr

variable (s)

theorem settleWhere_continues (p : Nat → Outstanding → Bool) : Continues s (s.settleWhere p) :=
  ⟨prefix_refl _, fun hr => .inl (get?_settleWhere.mp hr).1⟩

theorem request_continues (r : RequestArgs) : Continues s (s.request r).1 := by
  rcases s.request_cases r with heq | heq | ⟨lease, made, -, -, -, rfl, heq⟩
  · rw [heq]
    exact .refl s
  · rw [heq]
    exact ⟨prefix_refl _, .inl⟩
  · have hadd : ∀ {id o}, (s.outstanding.set s.nextId
          ⟨lease.connectionId, r.capability, lease.leaseId, r.signal⟩).get? id = some o →
        s.outstanding.get? id = some o ∨ s.nextId ≤ id := by
      intro id o ho
      by_cases hid : id = s.nextId
      · exact .inr (Nat.le_of_eq hid.symm)
      · rw [get?_set_ne _ _ hid] at ho
        exact .inl ho
    rcases heq with heq | heq
    · rw [heq]
      exact ⟨prefix_append _ _, hadd⟩
    · rw [heq]
      exact ⟨prefix_append _ _, fun ho => hadd (get?_settleWhere.mp ho).1⟩

variable {s}

theorem step_continues (h : s.Valid) (e : Event) : Continues s (s.step e) := by
  cases e with
  | register r =>
    rcases registerProvider_registers h r with ⟨same, -⟩ | ⟨same, -⟩ | ⟨same, -⟩ <;>
        exact same.continues
  | heartbeat connectionId leaseId =>
    show Continues s (s.heartbeat connectionId leaseId).1
    unfold heartbeat
    split
    · exact .refl s
    · split <;> exact ⟨prefix_refl _, .inl⟩
  | release connectionId leaseId handoffTo =>
    show Continues s (s.release connectionId leaseId handoffTo).1
    have hcancelled := s.settleWhere_continues fun _ r => r.connectionId = connectionId
    unfold release
    split
    · exact .refl s
    · split <;> exact ⟨prefix_refl _, hcancelled.table⟩
  | disconnect connectionId =>
    exact ⟨prefix_refl _, (s.settleWhere_continues fun _ r => r.connectionId = connectionId).table⟩
  | request r => exact s.request_continues r
  | respond connectionId id leaseId frameBytes =>
    show Continues s (s.respond connectionId id leaseId frameBytes).1
    unfold respond
    split
    · exact .refl s
    · split
      · exact .refl s
      · split
        · exact .refl s
        · exact s.settleWhere_continues _
  | abort id => exact s.settleWhere_continues _
  | deliveryFailed id => exact s.settleWhere_continues _
  | getLease capability =>
    rcases (s.liveLease_eq capability).1 with heq | heq
    · show Continues s (s.liveLease capability).1
      rw [heq]
      exact .refl s
    · show Continues s (s.liveLease capability).1
      rw [heq]
      exact ⟨prefix_refl _, .inl⟩
  | sweep => exact ⟨prefix_refl _, .inl⟩
  | elapse ms => exact ⟨prefix_refl _, .inl⟩
  | dispose => exact ⟨prefix_refl _, (s.settleWhere_continues fun _ _ => true).table⟩

theorem Inv.leaseId_unique {now : Int} {leases : OrderedMap String ProviderLease}
    {outstanding : OrderedMap Nat Outstanding} {nextId : Nat} {made : List (Nat × Nat)}
    {settled : List Nat}
    (h : Inv now leases outstanding nextId made settled) {leaseId' : Nat}
    (hmade : (id, leaseId) ∈ made) (hmade' : (id, leaseId') ∈ made) : leaseId = leaseId' := by
  have hpair := inj_on_of_nodup_map h.made_nodup hmade hmade' rfl
  exact (Prod.mk.inj hpair).2

theorem step_settles (h : s.Valid) {e : Event} (hsound : s.Sound e)
    (hmade : (id, leaseId) ∈ s.made) (hended : leaseId ∈ s.ended e) :
    (s.step e).outstanding.get? id = none := by
  -- what is still in the table was there before, under the lease
  rw [Option.eq_none_iff_forall_ne_some]
  intro r hafter
  have hid : id < s.nextId := (h.made_lt hmade).1
  have hr : s.outstanding.get? id = some r :=
    ((step_continues h e).table hafter).resolve_right (Nat.not_le.mpr hid)
  have hlease : r.leaseId = leaseId := h.leaseId_unique (h.table hr) hmade
  have hvalue : r ∈ s.outstanding.values := mem_values.mpr ⟨id, hr⟩
  cases e with
  | register reg =>
    simp only [ended] at hended
    cases hfound : s.leases.get? reg.capability with
    | none =>
      rw [hfound] at hended
      cases hended
    | some existing =>
      rw [hfound] at hended
      dsimp only at hended
      split at hended
      · cases hended
      · next hother =>
        rw [mem_singleton.mp hended] at hlease
        rcases registerProvider_registers h reg with ⟨-, hleases⟩ |
          ⟨-, existing', lease, hfound', hleases, -, hsame, -⟩ | ⟨-, lease, -, -, -, -, -,
            hreplaced⟩
        · rw [hleases, hfound] at hother
          simp at hother
        · rw [hfound] at hfound'
          cases hfound'
          rw [hleases] at hother
          simp [hsame] at hother
        · exact hsound existing hfound (hreplaced existing hfound) r hvalue hlease
  | release connectionId leaseId' handoffTo =>
    simp only [ended] at hended
    split at hended
    · next hsome =>
      obtain ⟨lease, howner⟩ := Option.isSome_iff_exists.mp hsome
      obtain ⟨hfound, hid', -, hconnection⟩ := owner_eq_some h howner
      obtain ⟨hreleased, -⟩ := release_eq howner handoffTo
      have hafter' : (s.cancelForConnection connectionId).outstanding.get? id = some r := by
        rw [← hreleased]
        exact hafter
      have hunder : lease.leaseId = r.leaseId := by
        rw [hid', hlease]
        exact (mem_singleton.mp hended).symm
      have hsame := (h.owned hr hfound hunder).1
      have hother := of_decide_eq_false (get?_settleWhere.mp hafter').2
      exact hother (hsame.symm.trans hconnection)
    · cases hended
  | disconnect connectionId =>
    obtain ⟨lease, hmem, rfl⟩ := mem_map.mp hended
    obtain ⟨hmem, hconnection⟩ := mem_filter.mp hmem
    obtain ⟨c, hfound⟩ := mem_values.mp hmem
    have hsame := (h.owned hr hfound hlease.symm).1
    have hother := of_decide_eq_false (get?_settleWhere.mp hafter).2
    exact hother (hsame.symm.trans (of_decide_eq_true hconnection))
  | sweep =>
    obtain ⟨lease, hmem, rfl⟩ := mem_map.mp hended
    obtain ⟨hmem, hexpired⟩ := mem_filter.mp hmem
    exact hsound lease hmem (of_decide_eq_true hexpired) r hvalue hlease
  | dispose =>
    have hgone := (get?_settleWhere.mp hafter).2
    cases hgone
  | _ => cases hended

theorem run_settled (h : s.Valid) (hmade : (id, leaseId) ∈ s.made)
    (hnone : s.outstanding.get? id = none) (events : List Event) :
    (s.run events).outstanding.get? id = none := by
  induction events generalizing s with
  | nil => exact hnone
  | cons e rest ih =>
    have hcontinues := step_continues h e
    refine ih (h.step e) (hcontinues.made.subset hmade) ?_
    rw [Option.eq_none_iff_forall_ne_some]
    intro r hr
    rcases hcontinues.table hr with hr | hnew
    · rw [hnone] at hr
      cases hr
    · exact Nat.not_lt.mpr hnew (h.made_lt hmade).1

/-- A request outlives its lease in a run: it was made under a lease that a step ended, and still
waits. -/
def Outlives (start : ReverseLeaseRuntime) (events : List Event) : Prop :=
  ∃ before e after id leaseId, events = before ++ e :: after ∧
    (id, leaseId) ∈ (start.run before).made ∧
    leaseId ∈ (start.run before).ended e ∧ (start.run events).outstanding.has id = true

/-- In a run in which no request is outstanding under a lease when a sweep finds it expired or a
registration replaces it, no request outlives its lease. Every request that is made in a run is
settled exactly once, or waits in the table and is not settled. -/
theorem not_outlives {now leaseTtlMs : Int} {events : List Event}
    (h : Guarded step Sound (create now leaseTtlMs) events) :
    ¬Outlives (create now leaseTtlMs) events ∧
      ∀ id leaseId, (id, leaseId) ∈ ((create now leaseTtlMs).run events).made →
        ((create now leaseTtlMs).run events).settled.count id =
          if ((create now leaseTtlMs).run events).outstanding.has id then 0 else 1 := by
  refine ⟨?_, fun id leaseId hmade => ?_⟩
  · rintro ⟨before, e, after, id, leaseId, rfl, hmade, hended, hhas⟩
    obtain ⟨-, hsound, -⟩ := Guarded.append.mp h
    have hvalid := valid_run now leaseTtlMs before
    have hsettled := step_settles hvalid hsound hmade hended
    have hnone :=
      run_settled (hvalid.step e) ((step_continues hvalid e).made.subset hmade) hsettled after
    have hrun : (create now leaseTtlMs).run (before ++ e :: after) =
        (((create now leaseTtlMs).run before).step e).run after := by
      rw [run, foldl_append]
      rfl
    rw [hrun, has, hnone] at hhas
    cases hhas
  · exact (valid_run now leaseTtlMs events).settled_once (mem_map_of_mem hmade)

/-- A request that is answered before its lease expires; then another connection takes the
capability. -/
def answeredRun : List Event :=
  [.register ⟨"c", "fs", "[]", none, none, true⟩, .request ⟨"fs", 0, false, false, true⟩,
    .respond "c" 2 0 10, .elapse 15000, .sweep, .register ⟨"d", "fs", "[]", none, none, true⟩]

theorem not_outlives_answeredRun :
    ¬Outlives (create 0 15000) answeredRun ∧
      ∀ id leaseId, (id, leaseId) ∈ ((create 0 15000).run answeredRun).made →
        ((create 0 15000).run answeredRun).settled.count id =
          if ((create 0 15000).run answeredRun).outstanding.has id then 0 else 1 :=
  not_outlives (by decide +kernel)

/-- A lease expires and is swept while a request made under it waits. -/
theorem outlives_expired :
    Outlives (create 0 15000) [.register ⟨"c", "fs", "[]", none, none, true⟩,
      .request ⟨"fs", 0, false, false, true⟩, .elapse 15000, .sweep] :=
  ⟨[.register ⟨"c", "fs", "[]", none, none, true⟩, .request ⟨"fs", 0, false, false, true⟩,
    .elapse 15000], .sweep, [], 2, 0, rfl, by decide +kernel, by decide +kernel, by decide +kernel⟩

end Vibrato.Host.ReverseLeaseRuntime
