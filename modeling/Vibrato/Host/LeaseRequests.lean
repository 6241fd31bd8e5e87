import Vibrato.Host.ReverseLeases

namespace Vibrato.Host.ReverseLeaseRuntime

open Lib List OrderedMap

/-- What every run keeps. Identifiers are not used twice; a request in the table was made and not
settled yet, any other that was made was settled once; and a lease under which a request is
outstanding is held by the connection that the request was sent to. -/
structure Inv (now : Int) (leases : OrderedMap String ProviderLease)
    (outstanding : OrderedMap Nat Outstanding)
    (nextId : Nat) (made : List (Nat × Nat)) (settled : List Nat) : Prop where
  capability : ∀ {c lease}, leases.get? c = some lease → lease.capability = c
  leaseId_lt : ∀ {c lease}, leases.get? c = some lease → lease.leaseId < nextId
  distinct : ∀ {c c' lease lease'}, leases.get? c = some lease → leases.get? c' = some lease' →
    lease.leaseId = lease'.leaseId → c = c'
  grace : ∀ {c lease}, leases.get? c = some lease → lease.graceUntil ≠ none → lease.expiresAt ≤ now
  made_lt : ∀ {id leaseId}, (id, leaseId) ∈ made → id < nextId ∧ leaseId < nextId
  made_nodup : (made.map Prod.fst).Nodup
  table : ∀ {id r}, outstanding.get? id = some r → (id, r.leaseId) ∈ made
  settled_made : ∀ {id}, id ∈ settled → id ∈ made.map Prod.fst
  settled_once : ∀ {id}, id ∈ made.map Prod.fst →
    settled.count id = if outstanding.has id then 0 else 1
  owned : ∀ {id r c lease}, outstanding.get? id = some r → leases.get? c = some lease →
    lease.leaseId = r.leaseId → lease.connectionId = r.connectionId ∧ lease.active = true ∧
      lease.graceUntil = none

def Valid (s : ReverseLeaseRuntime) : Prop :=
  Inv s.now s.leases s.outstanding s.nextId s.made s.settled

section Inv

variable {now : Int} {leases : OrderedMap String ProviderLease}
    {outstanding : OrderedMap Nat Outstanding}
  {nextId : Nat} {made : List (Nat × Nat)} {settled : List Nat}

theorem inv_empty (now : Int) : Inv now .empty .empty 0 [] [] := by
  refine ⟨nofun, nofun, nofun, nofun, nofun, nodup_nil, nofun, nofun, nofun, nofun⟩

variable (h : Inv now leases outstanding nextId made settled)
include h

theorem Inv.elapse (ms : Nat) : Inv (now + ms) leases outstanding nextId made settled := by
  refine { h with grace := fun hlease hgrace => ?_ }
  have := h.grace hlease hgrace
  omega

theorem Inv.draw {next : Nat} (hnext : nextId ≤ next) :
    Inv now leases outstanding next made settled := by
  refine { h with leaseId_lt := fun hlease => ?_, made_lt := fun hmade => ?_ }
  · exact Nat.lt_of_lt_of_le (h.leaseId_lt hlease) hnext
  · obtain ⟨hid, hlease⟩ := h.made_lt hmade
    exact ⟨Nat.lt_of_lt_of_le hid hnext, Nat.lt_of_lt_of_le hlease hnext⟩

theorem Inv.settleWhere (p : Nat → Outstanding → Bool) :
    Inv now leases (outstanding.retain fun id r => !p id r) nextId made
      (settled ++ (outstanding.entries.filter fun e => p e.1 e.2).map Prod.fst) := by
  have hkept : ∀ {id r}, (outstanding.retain fun id r => !p id r).get? id = some r →
      outstanding.get? id = some r := fun hr => (get?_retain_eq_some.mp hr).1
  have hmem : ∀ id, id ∈ (outstanding.entries.filter fun e => p e.1 e.2).map Prod.fst ↔
      ∃ r, outstanding.get? id = some r ∧ p id r = true := by
    intro id
    simp only [mem_map, mem_filter, Prod.exists, exists_and_right, exists_eq_right, get?_eq_some]
  refine { h with
    table := fun hr => h.table (hkept hr)
    settled_made := fun hid => ?_
    settled_once := fun hid => ?_
    owned := fun hr => h.owned (hkept hr) }
  · rcases mem_append.mp hid with hid | hid
    · exact h.settled_made hid
    · obtain ⟨r, hr, -⟩ := (hmem _).mp hid
      exact mem_map_of_mem (h.table hr)
  · rename_i id
    have hnodup : ((outstanding.entries.filter fun e => p e.1 e.2).map Prod.fst).Nodup :=
      outstanding.distinct.sublist (filter_sublist.map _)
    rw [count_append, h.settled_once hid, hnodup.count]
    cases hr : outstanding.get? id with
    | none =>
      have hnot : id ∉ (outstanding.entries.filter fun e => p e.1 e.2).map Prod.fst := by
        rw [hmem]
        rintro ⟨r, hr', -⟩
        rw [hr] at hr'
        cases hr'
      simp [has, hr, hnot, get?_retain]
    | some r =>
      cases hp : p id r with
      | true =>
        have hin : id ∈ (outstanding.entries.filter fun e => p e.1 e.2).map Prod.fst :=
          (hmem id).mpr ⟨r, hr, hp⟩
        simp [has, hr, hin, get?_retain, hp]
      | false =>
        have hnot : id ∉ (outstanding.entries.filter fun e => p e.1 e.2).map Prod.fst := by
          rw [hmem]
          rintro ⟨r', hr', hp'⟩
          rw [hr] at hr'
          cases hr'
          rw [hp] at hp'
          cases hp'
        simp [has, hr, hnot, get?_retain, hp]

theorem Inv.setLease (lease : ProviderLease) (hlt : lease.leaseId < nextId)
    (hdistinct : ∀ {c other}, leases.get? c = some other → other.leaseId = lease.leaseId →
      c = lease.capability)
    (hgrace : lease.graceUntil = none)
    (howned : ∀ {id r}, outstanding.get? id = some r → r.leaseId = lease.leaseId →
      lease.connectionId = r.connectionId ∧ lease.active = true) :
    Inv now (leases.set lease.capability lease) outstanding nextId made settled := by
  -- a lookup gives the new lease or an old one under another capability
  have hget : ∀ {c other}, (leases.set lease.capability lease).get? c = some other →
      (c = lease.capability ∧ other = lease) ∨
        (c ≠ lease.capability ∧ leases.get? c = some other) := by
    intro c other hother
    by_cases hc : c = lease.capability
    · rw [hc, get?_set_self] at hother
      exact .inl ⟨hc, (Option.some.inj hother).symm⟩
    · rw [get?_set_ne _ _ hc] at hother
      exact .inr ⟨hc, hother⟩
  refine { h with
    capability := fun hother => ?_
    leaseId_lt := fun hother => ?_
    distinct := fun hother hother' heq => ?_
    grace := fun hother hsome => ?_
    owned := fun hr hother heq => ?_ }
  · rcases hget hother with ⟨rfl, rfl⟩ | ⟨-, hother⟩
    · rfl
    · exact h.capability hother
  · rcases hget hother with ⟨-, rfl⟩ | ⟨-, hother⟩
    · exact hlt
    · exact h.leaseId_lt hother
  · rcases hget hother with ⟨hc, hnew⟩ | ⟨-, hold⟩
    · rcases hget hother' with ⟨hc', -⟩ | ⟨-, hold'⟩
      · exact hc.trans hc'.symm
      · rw [hnew] at heq
        exact hc.trans (hdistinct hold' heq.symm).symm
    · rcases hget hother' with ⟨hc', hnew'⟩ | ⟨-, hold'⟩
      · rw [hnew'] at heq
        exact (hdistinct hold heq).trans hc'.symm
      · exact h.distinct hold hold' heq
  · rcases hget hother with ⟨-, rfl⟩ | ⟨-, hother⟩
    · exact absurd hgrace hsome
    · exact h.grace hother hsome
  · rcases hget hother with ⟨-, rfl⟩ | ⟨-, hother⟩
    · obtain ⟨hconnection, hactive⟩ := howned hr heq.symm
      exact ⟨hconnection, hactive, hgrace⟩
    · exact h.owned hr hother heq

theorem Inv.eraseLease (c : String) : Inv now (leases.erase c) outstanding nextId made settled := by
  have hget : ∀ {c' lease}, (leases.erase c).get? c' = some lease → leases.get? c' = some lease :=
    fun hlease => (get?_retain_eq_some.mp hlease).1
  exact { h with
    capability := fun hlease => h.capability (hget hlease)
    leaseId_lt := fun hlease => h.leaseId_lt (hget hlease)
    distinct := fun hlease hlease' => h.distinct (hget hlease) (hget hlease')
    grace := fun hlease => h.grace (hget hlease)
    owned := fun hr hlease => h.owned hr (hget hlease) }

theorem Inv.loseLeases {connectionId : String}
    (graceUntil : Int) (hnone : ∀ {id r}, outstanding.get? id = some r →
      r.connectionId ≠ connectionId) :
    Inv now
      (leases.mapValues fun _ lease =>
        if lease.connectionId = connectionId then
          { lease with expiresAt := now, graceUntil := some graceUntil }
        else lease)
      outstanding nextId made settled := by
  -- a lookup gives an old lease, changed if it is lost
  have hget : ∀ {c lease}, (leases.mapValues fun _ lease =>
        if lease.connectionId = connectionId then
          { lease with expiresAt := now, graceUntil := some graceUntil }
        else lease).get? c = some lease →
      ∃ old, leases.get? c = some old ∧ lease.leaseId = old.leaseId ∧
        lease.capability = old.capability ∧
        ((old.connectionId = connectionId ∧ lease.expiresAt = now) ∨ lease = old) := by
    intro c lease hlease
    rw [get?_mapValues] at hlease
    obtain ⟨old, hold, rfl⟩ := Option.map_eq_some_iff.mp hlease
    by_cases hc : old.connectionId = connectionId
    · refine ⟨old, hold, ?_⟩
      simp [hc]
    · refine ⟨old, hold, ?_⟩
      simp [hc]
  refine { h with
    capability := fun hlease => ?_
    leaseId_lt := fun hlease => ?_
    distinct := fun hlease hlease' heq => ?_
    grace := fun hlease hsome => ?_
    owned := fun hr hlease heq => ?_ }
  · obtain ⟨old, hold, -, hcapability, -⟩ := hget hlease
    exact hcapability.trans (h.capability hold)
  · obtain ⟨old, hold, hid, -, -⟩ := hget hlease
    rw [hid]
    exact h.leaseId_lt hold
  · obtain ⟨old, hold, hid, -, -⟩ := hget hlease
    obtain ⟨old', hold', hid', -, -⟩ := hget hlease'
    rw [hid, hid'] at heq
    exact h.distinct hold hold' heq
  · obtain ⟨old, hold, -, -, ⟨-, hexpires⟩ | rfl⟩ := hget hlease
    · exact Int.le_of_eq hexpires
    · exact h.grace hold hsome
  · obtain ⟨old, hold, hid, -, ⟨hlost, -⟩ | rfl⟩ := hget hlease
    · have hsame := (h.owned hr hold (hid.symm.trans heq)).1
      exact absurd (hsame.symm.trans hlost) (hnone hr)
    · exact h.owned hr hold heq

theorem Inv.addRequest {c : String}
    {lease : ProviderLease} (hlease : leases.get? c = some lease) (hactive : lease.active = true)
    (hlive : now < lease.expiresAt) {r : Outstanding}
    (hconnection : r.connectionId = lease.connectionId)
    (hid : r.leaseId = lease.leaseId) :
    Inv now leases (outstanding.set nextId r) (nextId + 1)
      (made ++ [(nextId, r.leaseId)]) settled := by
  have hfresh : nextId ∉ made.map Prod.fst := by
    intro hmem
    obtain ⟨⟨id, leaseId⟩, hmade, heq⟩ := mem_map.mp hmem
    have hlt := (h.made_lt hmade).1
    omega
  have hget : ∀ {id r'}, (outstanding.set nextId r).get? id = some r' →
      (id = nextId ∧ r' = r) ∨ (id ≠ nextId ∧ outstanding.get? id = some r') := by
    intro id r' hr'
    by_cases hid : id = nextId
    · rw [hid, get?_set_self] at hr'
      exact .inl ⟨hid, (Option.some.inj hr').symm⟩
    · rw [get?_set_ne _ _ hid] at hr'
      exact .inr ⟨hid, hr'⟩
  have hgrace : lease.graceUntil = none := by
    by_contra hsome
    have := h.grace hlease hsome
    omega
  refine {
    capability := h.capability
    leaseId_lt := fun hl => Nat.lt_succ_of_lt (h.leaseId_lt hl)
    distinct := h.distinct
    grace := h.grace
    made_lt := fun hmade => ?_
    made_nodup := ?_
    table := fun hr => ?_
    settled_made := fun hid => ?_
    settled_once := fun hid => ?_
    owned := fun hr hl heq => ?_ }
  · rcases mem_append.mp hmade with hmade | hmade
    · obtain ⟨hlt, hlt'⟩ := h.made_lt hmade
      exact ⟨Nat.lt_succ_of_lt hlt, Nat.lt_succ_of_lt hlt'⟩
    · obtain ⟨rfl, rfl⟩ := Prod.mk.inj (mem_singleton.mp hmade)
      refine ⟨Nat.lt_succ_self _, ?_⟩
      rw [hid]
      exact Nat.lt_succ_of_lt (h.leaseId_lt hlease)
  · rw [map_append, nodup_append]
    refine ⟨h.made_nodup, nodup_singleton _, ?_⟩
    intro a ha b hb heq
    rw [heq, mem_singleton.mp hb] at ha
    exact hfresh ha
  · rcases hget hr with ⟨rfl, rfl⟩ | ⟨-, hr⟩
    · exact mem_append_right _ (mem_singleton_self _)
    · exact mem_append_left _ (h.table hr)
  · rw [map_append]
    exact mem_append_left _ (h.settled_made hid)
  · rename_i id
    rw [map_append, mem_append] at hid
    by_cases hnew : id = nextId
    · have hnot : id ∉ settled := by
        rw [hnew]
        exact fun hmem => hfresh (h.settled_made hmem)
      simp [hnew, has, count_eq_zero_of_not_mem (hnew ▸ hnot)]
    · have hmade : id ∈ made.map Prod.fst := by
        rcases hid with hid | hid
        · exact hid
        · exact absurd (mem_singleton.mp hid) hnew
      have hhas : (outstanding.set nextId r).has id = outstanding.has id := by
        rw [has, get?_set_ne _ _ hnew, has]
      rw [h.settled_once hmade, hhas]
  · rcases hget hr with ⟨-, rfl⟩ | ⟨-, hr⟩
    · have hsame := h.distinct hl hlease (heq.trans hid)
      rw [hsame, hlease] at hl
      cases hl
      exact ⟨hconnection.symm, hactive, hgrace⟩
    · exact h.owned hr hl heq

end Inv

variable (s : ReverseLeaseRuntime)

def replaces (r : Registration) (existing : ProviderLease) : Bool :=
  existing.expiresAt ≤ s.now && !s.reclaiming r existing && r.installs &&
    (r.key?.bind s.idempotency.get?).all (·.1 = r.fingerprint)

structure SameRequests (s s' : ReverseLeaseRuntime) : Prop where
  now : s'.now = s.now
  outstanding : s'.outstanding = s.outstanding
  made : s'.made = s.made
  settled : s'.settled = s.settled
  nextId : s.nextId ≤ s'.nextId

inductive Registers (s : ReverseLeaseRuntime) (r : Registration) (s' : ReverseLeaseRuntime) :
    Prop where
  | unchanged (same : SameRequests s s') (leases : s'.leases = s.leases)
  | renewed (same : SameRequests s s') (existing lease : ProviderLease)
      (found : s.leases.get? r.capability = some existing)
      (leases : s'.leases = s.leases.set r.capability lease)
        (capability : lease.capability = existing.capability)
      (leaseId : lease.leaseId = existing.leaseId)
        (connection : lease.connectionId = r.connectionId)
      (grace : lease.graceUntil = none) (active : lease.active = true)
      (held : existing.active = false ∨ existing.graceUntil ≠ none ∨
        existing.connectionId = r.connectionId)
  | granted (same : SameRequests s s') (lease : ProviderLease)
      (leases : s'.leases = s.leases.set r.capability lease)
        (capability : lease.capability = r.capability)
      (leaseId : lease.leaseId = s.nextId) (next : s.nextId < s'.nextId)
        (grace : lease.graceUntil = none)
      (replaced : ∀ existing, s.leases.get? r.capability = some existing →
        s.replaces r existing = true)

theorem SameRequests.refl : SameRequests s s := ⟨rfl, rfl, rfl, rfl, Nat.le_refl _⟩

variable {s : ReverseLeaseRuntime} {r : Registration} {existing lease : ProviderLease}
  {connectionId : String} {id leaseId : Nat}

theorem grant_renewed
    (hfound : s.leases.get? r.capability = some existing)
    (hcapability : existing.capability = r.capability)
    (hheld : existing.active = false ∨ existing.graceUntil ≠ none ∨
      existing.connectionId = r.connectionId) :
    Registers s r (s.grant r existing.leaseId).1 := by
  unfold grant
  split
  · exact .renewed ⟨rfl, rfl, rfl, rfl, Nat.le_succ _⟩ existing _ hfound rfl hcapability.symm rfl
      rfl rfl rfl hheld
  · exact .unchanged (.refl s) rfl

theorem grant_granted (hreplaced : r.installs = true →
      ∀ existing, s.leases.get? r.capability = some existing → s.replaces r existing = true) :
    Registers s r ({ s with nextId := s.nextId + 1 }.grant r s.nextId).1 := by
  unfold grant
  split
  · next hinstalls =>
    refine .granted ⟨rfl, rfl, rfl, rfl, ?_⟩ _ rfl rfl rfl ?_ rfl (hreplaced hinstalls)
    · exact Nat.le_add_right s.nextId 2
    · exact Nat.lt_add_of_pos_right Nat.two_pos
  · exact .unchanged ⟨rfl, rfl, rfl, rfl, Nat.le_succ _⟩ rfl

theorem renew_registers
    (hfound : s.leases.get? r.capability = some existing)
    (hcapability : existing.capability = r.capability)
    (hkey : (r.key?.bind s.idempotency.get?).all (·.1 = r.fingerprint) = true) :
    Registers s r (s.renew r existing).1 := by
  unfold renew
  split
  · next hpending =>
    split
    · exact .unchanged (.refl s) rfl
    · exact grant_renewed hfound hcapability (.inl hpending.1)
  · next hpending =>
    split
    · exact .unchanged (.refl s) rfl
    · next hconflict =>
      split
      · next hrefresh =>
        rw [refreshing, Bool.and_eq_true, Bool.and_eq_true, Bool.and_eq_true,
          decide_eq_true_eq] at hrefresh
        have hconnection := hrefresh.1.1.2
        exact .renewed ⟨rfl, rfl, rfl, rfl, Nat.le_refl _⟩ existing _ hfound rfl rfl rfl
          hconnection rfl rfl
          (.inr (.inr hconnection))
      · split
        · next hsame =>
          rcases Bool.or_eq_true_iff.mp hsame with hreclaim | hrefresh
          · refine grant_renewed hfound hcapability (.inr (.inl fun hnone => ?_))
            simp [reclaiming, hnone] at hreclaim
          · rw [refreshing, Bool.and_eq_true, Bool.and_eq_true, decide_eq_true_eq] at hrefresh
            exact grant_renewed hfound hcapability (.inr (.inr hrefresh.1.2))
        · next hnew =>
          simp only [Bool.or_eq_true, not_or, Bool.not_eq_true] at hnew
          refine grant_granted fun hinstalls other hother => ?_
          rw [hfound] at hother
          cases hother
          -- a lease that has not expired would be refreshed, handed over, or in conflict
          have hexpired : existing.expiresAt ≤ s.now := by
            by_contra hlive
            rw [Int.not_le] at hlive
            cases hactive : existing.active with
            | false => exact hpending ⟨hactive, hlive⟩
            | true =>
              have hother : existing.connectionId ≠ r.connectionId := by
                intro hsame
                have hrefresh := hnew.2
                simp [refreshing, hactive, hsame, hlive] at hrefresh
              apply hconflict
              simp [hnew.1, hnew.2, hother, hlive]
          simp [replaces, hexpired, hnew.1, hinstalls, hkey]

theorem registerLease_registers (h : s.Valid)
    (hkey : (r.key?.bind s.idempotency.get?).all (·.1 = r.fingerprint) = true) :
    Registers s r (s.registerLease r).1 := by
  unfold registerLease
  cases hfound : s.leases.get? r.capability with
  | none =>
    refine grant_granted fun _ existing hexisting => ?_
    rw [hfound] at hexisting
    cases hexisting
  | some existing =>
    have hcapability := h.capability hfound
    dsimp only
    split
    · -- the removed definitions play no part
      rcases renew_registers (s := s.removeDefinitions existing.capability) hfound hcapability
        hkey with
        ⟨same, hleases⟩ | ⟨same, existing', lease, hf, hleases, hc, hid, hconn, hg, ha, hheld⟩ |
        ⟨same, lease, hleases, hc, hid, hnext, hg, hreplaced⟩
      · exact .unchanged ⟨same.now, same.outstanding, same.made, same.settled, same.nextId⟩ hleases
      · exact .renewed ⟨same.now, same.outstanding, same.made, same.settled,
          same.nextId⟩ existing' lease hf
          hleases hc hid hconn hg ha hheld
      · exact .granted ⟨same.now, same.outstanding, same.made, same.settled,
          same.nextId⟩ lease hleases hc hid
          hnext hg hreplaced
    · exact renew_registers hfound hcapability hkey

theorem registerProvider_registers (h : s.Valid) (r : Registration) :
    Registers s r (s.registerProvider r).1 := by
  unfold registerProvider
  cases hreplay : r.key?.bind s.idempotency.get? with
  | none => exact registerLease_registers h (by rw [hreplay]; rfl)
  | some replay =>
    dsimp only
    split
    · exact .unchanged (.refl s) rfl
    · next hsame =>
      have hkey : (r.key?.bind s.idempotency.get?).all (·.1 = r.fingerprint) = true := by
        rw [hreplay]
        simpa using hsame
      cases hfound : s.leases.get? r.capability with
      | none => exact registerLease_registers h hkey
      | some current =>
        dsimp only
        split
        · exact .unchanged (.refl s) rfl
        · exact registerLease_registers h hkey

theorem Registers.valid {s' : ReverseLeaseRuntime} (h : Registers s r s') (hs : s.Valid) :
    s'.Valid := by
  unfold Valid
  have hvalid : Inv s.now s.leases s.outstanding s.nextId s.made s.settled := hs
  rcases h with ⟨same, hleases⟩ | ⟨same, existing, lease, hfound, hleases, hcapability, hid,
      hconnection,
    hgrace, hactive, hheld⟩ | ⟨same, lease, hleases, hcapability, hid, hnext, hgrace, -⟩
  · rw [same.now, same.outstanding, same.made, same.settled, hleases]
    exact hvalid.draw same.nextId
  · rw [same.now, same.outstanding, same.made, same.settled, hleases]
    have hplace : lease.capability = r.capability := hcapability.trans (hvalid.capability hfound)
    rw [← hplace]
    refine (hvalid.draw same.nextId).setLease lease ?_ ?_ hgrace ?_
    · rw [hid]
      exact Nat.lt_of_lt_of_le (hvalid.leaseId_lt hfound) same.nextId
    · intro c other hother heq
      rw [hplace]
      exact hvalid.distinct hother hfound (heq.trans hid)
    · intro id o ho heq
      obtain ⟨hsame, hold, hnograce⟩ := hvalid.owned ho hfound (hid.symm.trans heq.symm)
      rcases hheld with hinactive | hlost | hown
      · rw [hold] at hinactive
        cases hinactive
      · exact absurd hnograce hlost
      · exact ⟨hconnection.trans (hown.symm.trans hsame), hactive⟩
  · rw [same.now, same.outstanding, same.made, same.settled, hleases, ← hcapability]
    refine (hvalid.draw same.nextId).setLease lease ?_ ?_ hgrace ?_
    · rw [hid]
      exact hnext
    · intro c other hother heq
      have hlt := hvalid.leaseId_lt hother
      omega
    · intro id o ho heq
      have hlt := (hvalid.made_lt (hvalid.table ho)).2
      omega

theorem owner_eq_some (h : s.Valid) (howner : s.owner connectionId leaseId = some lease) :
    s.leases.get? lease.capability = some lease ∧ lease.leaseId = leaseId ∧ lease.active = true ∧
      lease.connectionId = connectionId := by
  rw [owner, Option.filter_eq_some_iff] at howner
  obtain ⟨hfound, hholds⟩ := howner
  simp only [Bool.and_eq_true, decide_eq_true_eq] at hholds
  obtain ⟨c, hc⟩ := mem_values.mp (mem_of_find?_eq_some hfound)
  have hid := find?_some hfound
  rw [h.capability hc]
  exact ⟨hc, of_decide_eq_true hid, hholds.1, hholds.2⟩

theorem Valid.settleWhere (h : s.Valid) (p : Nat → Outstanding → Bool) :
    (s.settleWhere p).Valid := Inv.settleWhere h p

theorem Valid.heartbeat (h : s.Valid) (connectionId : String) (leaseId : Nat) :
    (s.heartbeat connectionId leaseId).1.Valid := by
  unfold ReverseLeaseRuntime.heartbeat
  cases howner : s.owner connectionId leaseId with
  | none => exact h
  | some lease =>
    obtain ⟨hfound, -, hactive, -⟩ := owner_eq_some h howner
    dsimp only
    split
    · exact h
    · have hlt : lease.leaseId < s.nextId := h.leaseId_lt hfound
      refine Inv.setLease h { lease with expiresAt := s.now + s.leaseTtlMs, graceUntil := none } hlt
        (fun hother heq => h.distinct hother hfound heq) rfl ?_
      intro id r hr heq
      obtain ⟨hconnection, -, -⟩ := h.owned hr hfound heq.symm
      exact ⟨hconnection, hactive⟩

theorem get?_settleWhere {p : Nat → Outstanding → Bool}
    {r : Outstanding} : (s.settleWhere p).outstanding.get? id = some r ↔
      s.outstanding.get? id = some r ∧ p id r = false := by
  rw [settleWhere, get?_retain_eq_some, Bool.not_eq_true']

theorem Valid.release (h : s.Valid) (connectionId : String) (leaseId : Nat)
    (handoffTo : Option String) : (s.release connectionId leaseId handoffTo).1.Valid := by
  unfold ReverseLeaseRuntime.release
  cases howner : s.owner connectionId leaseId with
  | none => exact h
  | some lease =>
    obtain ⟨hfound, -, -, hconnection⟩ := owner_eq_some h howner
    have hcancelled := h.settleWhere fun _ r => r.connectionId = connectionId
    dsimp only
    split
    · next target _ =>
      have hlt : lease.leaseId < s.nextId := h.leaseId_lt hfound
      refine Inv.setLease hcancelled
        { lease with
          connectionId := target
          expiresAt := s.now + REVERSE_RECLAIM_GRACE_MS
          graceUntil := none
          active := false }
        hlt (fun hother heq => h.distinct hother hfound heq) rfl ?_
      -- the requests under the lease were of the connection, so none is left
      intro id r hr heq
      obtain ⟨hr, hother⟩ := get?_settleWhere.mp hr
      have hsame := (h.owned hr hfound heq.symm).1
      simp [← hsame, hconnection] at hother
    · exact Inv.eraseLease hcancelled lease.capability

theorem Valid.disconnect (h : s.Valid) (connectionId : String) :
    (s.disconnect connectionId).Valid := by
  have hcancelled := h.settleWhere fun _ r => r.connectionId = connectionId
  refine Inv.loseLeases hcancelled (s.now + REVERSE_RECLAIM_GRACE_MS) ?_
  intro id r hr
  exact of_decide_eq_false (get?_settleWhere.mp hr).2

theorem liveLease_eq (s : ReverseLeaseRuntime) (capability : String) :
    ((s.liveLease capability).1 = s ∨ (s.liveLease capability).1 = s.removeDefinitions capability) ∧
      ∀ {lease}, (s.liveLease capability).2 = some lease →
        s.leases.get? capability = some lease ∧ lease.active = true ∧ s.now < lease.expiresAt := by
  unfold liveLease
  cases hfound : s.leases.get? capability with
  | none => exact ⟨.inl rfl, nofun⟩
  | some lease =>
    dsimp only
    split
    · next hlive =>
      simp only [Bool.and_eq_true, decide_eq_true_eq] at hlive
      refine ⟨.inl rfl, fun heq => ?_⟩
      cases heq
      exact ⟨rfl, hlive⟩
    · refine ⟨?_, nofun⟩
      split
      · exact .inr rfl
      · exact .inl rfl

theorem Valid.liveLease (h : s.Valid) (capability : String) : (s.liveLease capability).1.Valid := by
  rcases (s.liveLease_eq capability).1 with heq | heq
  · rw [heq]
    exact h
  · rw [heq]
    exact h

theorem request_cases (s : ReverseLeaseRuntime) (r : RequestArgs) :
    (s.request r).1 = s ∨ (s.request r).1 = s.removeDefinitions r.capability ∨
      ∃ lease made, s.leases.get? r.capability = some lease ∧ lease.active = true ∧
        s.now < lease.expiresAt ∧
        made = { s with
          nextId := s.nextId + 1
          outstanding := s.outstanding.set s.nextId
            ⟨lease.connectionId, r.capability, lease.leaseId, r.signal⟩
          made := s.made ++ [(s.nextId, lease.leaseId)] } ∧
        ((s.request r).1 = made ∨ (s.request r).1 = made.settle s.nextId) := by
  unfold request
  split
  · exact .inl rfl
  · obtain ⟨hstate, hlive⟩ := s.liveLease_eq r.capability
    cases hlookup : s.liveLease r.capability with
    | mk s' found =>
      rw [hlookup] at hstate hlive
      cases found with
      | none =>
        dsimp only
        cases s'.leases.get? r.capability with
        | none => exact hstate.imp_right .inl
        | some reservation =>
          dsimp only
          split <;> exact hstate.imp_right .inl
      | some lease =>
        have hfound := hlive rfl
        have hsame : s' = s := by
          unfold liveLease at hlookup
          rw [hfound.1] at hlookup
          simp only [hfound.2.1, hfound.2.2, decide_true, Bool.and_self, if_true] at hlookup
          exact (Prod.mk.inj hlookup).1.symm
        subst hsame
        dsimp only
        split
        · exact .inl rfl
        · split
          · exact .inl rfl
          · refine .inr (.inr ⟨lease, _, hfound.1, hfound.2.1, hfound.2.2, rfl, ?_⟩)
            split
            · exact .inl rfl
            · exact .inr rfl

theorem Valid.request (h : s.Valid) (r : RequestArgs) : (s.request r).1.Valid := by
  rcases s.request_cases r with heq | heq | ⟨lease, made, hfound, hactive, hlive, rfl, heq⟩
  · rw [heq]
    exact h
  · rw [heq]
    exact h
  · have hmade := Inv.addRequest h hfound hactive hlive
      (r := ⟨lease.connectionId, r.capability, lease.leaseId, r.signal⟩) rfl rfl
    rcases heq with heq | heq
    · rw [heq]
      exact hmade
    · rw [heq]
      exact Inv.settleWhere hmade fun i _ => i = s.nextId

theorem Valid.respond (h : s.Valid) (connectionId : String)
    (id leaseId frameBytes : Nat) : (s.respond connectionId id leaseId frameBytes).1.Valid := by
  unfold ReverseLeaseRuntime.respond
  split
  · exact h
  · split
    · exact h
    · split
      · exact h
      · exact h.settleWhere _

theorem Valid.dispose (h : s.Valid) : s.dispose.Valid := by
  have hsettled : Inv s.now s.leases (s.settleWhere fun _ _ => true).outstanding s.nextId s.made
      (s.settleWhere fun _ _ => true).settled := h.settleWhere _
  exact { hsettled with
    capability := nofun
    leaseId_lt := nofun
    distinct := nofun
    grace := nofun
    owned := fun _ hlease => nomatch hlease }

theorem Valid.step {s : ReverseLeaseRuntime} (h : s.Valid) (e : Event) : (s.step e).Valid := by
  cases e with
  | register r => exact (registerProvider_registers h r).valid h
  | heartbeat connectionId leaseId => exact h.heartbeat connectionId leaseId
  | release connectionId leaseId handoffTo => exact h.release connectionId leaseId handoffTo
  | disconnect connectionId => exact h.disconnect connectionId
  | request r => exact h.request r
  | respond connectionId id leaseId frameBytes => exact h.respond connectionId id leaseId frameBytes
  | abort id => exact h.settleWhere _
  | deliveryFailed id => exact h.settleWhere _
  | getLease capability => exact h.liveLease capability
  | sweep => exact h
  | elapse ms => exact Inv.elapse h ms
  | dispose => exact h.dispose

def create (now leaseTtlMs : Int) : ReverseLeaseRuntime := { now, leaseTtlMs }

def run (s : ReverseLeaseRuntime) (events : List Event) : ReverseLeaseRuntime := events.foldl step s

theorem valid_run (now leaseTtlMs : Int) (events : List Event) :
    ((create now leaseTtlMs).run events).Valid :=
  List.foldlRecOn events step (inv_empty now) fun _ hs e _ => Valid.step hs e

/-- A release cancels the requests under its lease and no other, and leaves the other leases, their
expiry and their definitions as they are. -/
structure ReleasesOnly (s : ReverseLeaseRuntime) (connectionId : String) (lease : ProviderLease)
    (handoffTo : Option String) : Prop where
  requests : ∀ id, (s.release connectionId lease.leaseId handoffTo).1.outstanding.get? id =
    (s.outstanding.get? id).filter (·.leaseId ≠ lease.leaseId)
  settled : ∀ id, id ∈ (s.release connectionId lease.leaseId handoffTo).1.settled ↔
    id ∈ s.settled ∨ ∃ r, s.outstanding.get? id = some r ∧ r.leaseId = lease.leaseId
  leases : ∀ c, c ≠ lease.capability →
    (s.release connectionId lease.leaseId handoffTo).1.leases.get? c = s.leases.get? c
  definitions : ∀ c, c ≠ lease.capability →
    (c ∈ (s.release connectionId lease.leaseId handoffTo).1.installedCapabilities ↔
      c ∈ s.installedCapabilities)

theorem release_eq (howner : s.owner connectionId leaseId = some lease)
    (handoffTo : Option String) :
    let released := (s.release connectionId leaseId handoffTo).1
    released.outstanding = (s.cancelForConnection connectionId).outstanding ∧
      released.settled = (s.cancelForConnection connectionId).settled ∧
      released.installedCapabilities = s.installedCapabilities.filter (· ≠ lease.capability) ∧
      ∀ c, c ≠ lease.capability → released.leases.get? c = s.leases.get? c := by
  unfold release
  rw [howner]
  dsimp only
  split
  · exact ⟨rfl, rfl, rfl, fun c hc => get?_set_ne _ _ hc⟩
  · exact ⟨rfl, rfl, rfl, fun c hc => get?_erase_ne _ hc⟩

theorem mem_settled_cancelForConnection :
    id ∈ (s.cancelForConnection connectionId).settled ↔
      id ∈ s.settled ∨ ∃ r, s.outstanding.get? id = some r ∧ r.connectionId = connectionId := by
  simp [cancelForConnection, settleWhere, get?_eq_some]

/-- In any state that is reached, a release that succeeds does so exactly if all requests that are
outstanding on its connection are under its lease. -/
theorem releasesOnly_iff (now leaseTtlMs : Int) (events : List Event) {connectionId : String}
    {leaseId : Nat}
    {lease : ProviderLease}
    (howner : ((create now leaseTtlMs).run events).owner connectionId leaseId = some lease)
    (handoffTo : Option String) :
    ((create now leaseTtlMs).run events).ReleasesOnly connectionId lease handoffTo ↔
      ∀ r ∈ ((create now leaseTtlMs).run events).outstanding.values,
        r.connectionId = connectionId → r.leaseId = leaseId := by
  have hvalid := valid_run now leaseTtlMs events
  revert howner hvalid
  generalize (create now leaseTtlMs).run events = s
  intro howner hvalid
  obtain ⟨hfound, hid, -, hconnection⟩ := owner_eq_some hvalid howner
  subst hid
  obtain ⟨houtstanding, hsettled, hdefinitions, hleases⟩ := release_eq howner handoffTo
  have hget : ∀ id, (s.cancelForConnection connectionId).outstanding.get? id =
      (s.outstanding.get? id).filter fun r => !decide (r.connectionId = connectionId) :=
    fun id => get?_retain _ _ id
  -- a request under the lease is of its connection
  have hunder : ∀ {id r}, s.outstanding.get? id = some r → r.leaseId = lease.leaseId →
      r.connectionId = connectionId :=
    fun hr heq => (hvalid.owned hr hfound heq.symm).1.symm.trans hconnection
  constructor
  · intro h r hr hsame
    obtain ⟨id, hr⟩ := mem_values.mp hr
    have hcancelled := h.requests id
    rw [houtstanding, hget, hr, Option.filter_some, Option.filter_some] at hcancelled
    by_contra hne
    simp [hsame, hne] at hcancelled
  · intro hall
    have hiff : ∀ {id r}, s.outstanding.get? id = some r →
        (r.connectionId = connectionId ↔ r.leaseId = lease.leaseId) :=
      fun hr => ⟨hall _ (mem_values.mpr ⟨_, hr⟩), hunder hr⟩
    refine ⟨fun id => ?_, fun id => ?_, hleases, fun c hc => ?_⟩
    · rw [houtstanding, hget]
      cases hr : s.outstanding.get? id with
      | none => rfl
      | some r => simp [Option.filter_some, hiff hr]
    · rw [hsettled, mem_settled_cancelForConnection]
      refine or_congr_right (exists_congr fun r => and_congr_right fun hr => hiff hr)
    · rw [hdefinitions]
      simp [hc]

/-- A connection with two leases and a request under the one that it releases. -/
theorem releasesOnly_own_request :
    ((create 0 15000).run [.register ⟨"c", "fs", "[]", none, none, true⟩,
        .register ⟨"c", "ui", "[]", none, none, true⟩,
          .request ⟨"fs", 0, false, false, true⟩]).ReleasesOnly
      "c" ⟨1, 0, "c", "fs", "[]", 15000, none, true⟩ none := by
  have howner : ((create 0 15000).run [.register ⟨"c", "fs", "[]", none, none, true⟩,
      .register ⟨"c", "ui", "[]", none, none, true⟩,
      .request ⟨"fs", 0, false, false, true⟩]).owner "c" 0 =
        some ⟨1, 0, "c", "fs", "[]", 15000, none, true⟩ := by decide +kernel
  exact (releasesOnly_iff 0 15000 _ howner none).mpr (by decide +kernel)

/-- The release of one lease cancels the request that was made under another one. -/
theorem not_releasesOnly_other_request :
    ((create 0 15000).run [.register ⟨"c", "fs", "[]", none, none, true⟩,
        .register ⟨"c", "ui", "[]", none, none, true⟩,
        .request ⟨"ui", 0, false, false, true⟩]).owner "c" 0 =
      some ⟨1, 0, "c", "fs", "[]", 15000, none, true⟩ ∧
    ¬((create 0 15000).run [.register ⟨"c", "fs", "[]", none, none, true⟩,
        .register ⟨"c", "ui", "[]", none, none, true⟩,
        .request ⟨"ui", 0, false, false, true⟩]).ReleasesOnly
      "c" ⟨1, 0, "c", "fs", "[]", 15000, none, true⟩ none := by
  refine ⟨by decide +kernel, fun h => ?_⟩
  have hrequests := h.requests 4
  revert hrequests
  decide +kernel

end Vibrato.Host.ReverseLeaseRuntime
