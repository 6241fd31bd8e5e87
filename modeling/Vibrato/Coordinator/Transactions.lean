import Vibrato.Coordinator.PublicDelivery

namespace Vibrato.Coordinator

open List

section Batch

variable {ρ : Type} (env : Env ρ)

variable (options : ClaimOptions)

def ClaimOptions.claimable (now : Int) (sessionId : Text) (event : OutboxEvent) : Bool :=
  decide (event.publicDelivery.state ≠ .acknowledged) && !options.behind sessionId event &&
    !(decide (event.publicDelivery.state = .claimed) && !claimExpired event.publicDelivery now)

def claimBatch (now : Int) (tx : SessionTransaction ρ) : List OutboxEvent :=
  ((tx.outbox.events.insertionSort (sortsBefore env)).filter
    (options.claimable now tx.sessionId)).take options.boundedLimit

def claimAt (now : Int) (revision : Nat) (entry : OutboxEvent × Nat) : PublicDeliveryClaim :=
  ⟨entry.1.claim (revision + entry.2 + 1) (now + options.boundedLeaseMs), revision + entry.2 + 1⟩

theorem ClaimOptions.boundedLimit_pos : 0 < options.boundedLimit := by
  unfold boundedLimit
  omega

theorem claimLoop_eq (now : Int) (sessionId : Text) (revision : Nat)
    (events : List OutboxEvent) (claimed : List PublicDeliveryClaim)
    (hroom : claimed.length < options.boundedLimit) :
    claimLoop options now sessionId revision events claimed = claimed ++
      (((events.filter (options.claimable now sessionId)).take
        (options.boundedLimit - claimed.length)).zipIdx claimed.length).map
          (claimAt options now revision) := by
  induction events generalizing claimed with
  | nil => simp [claimLoop]
  | cons event rest ih =>
    rw [claimLoop]
    split
    · next hack =>
      rw [ih claimed hroom, filter_cons_of_neg (by simp [ClaimOptions.claimable, hack])]
    split
    · next hbehind =>
      rw [ih claimed hroom, filter_cons_of_neg (by simp [ClaimOptions.claimable, hbehind])]
    split
    · next hheld =>
      rw [ih claimed hroom, filter_cons_of_neg (by simp [ClaimOptions.claimable, hheld.1, hheld.2])]
    next hack hbehind hheld =>
    have hfree : (decide (event.publicDelivery.state = .claimed) &&
        !claimExpired event.publicDelivery now) = false := by
      by_cases hstate : event.publicDelivery.state = .claimed
      · have hexpired : claimExpired event.publicDelivery now = true := by
          simpa using fun h => hheld ⟨hstate, h⟩
        simp [hexpired]
      · simp [hstate]
    have hclaimable : options.claimable now sessionId event = true := by
      simp [ClaimOptions.claimable, hack, hbehind, hfree]
    rw [filter_cons_of_pos hclaimable]
    obtain ⟨room, hr⟩ : ∃ room, options.boundedLimit - claimed.length = room + 1 :=
      ⟨options.boundedLimit - claimed.length - 1, by omega⟩
    rw [hr]
    dsimp only
    split
    · next hfull =>
      rw [length_append, length_singleton] at hfull
      have hzero : room = 0 := by omega
      rw [hzero]
      rfl
    · next hfree =>
      rw [length_append, length_singleton] at hfree
      rw [ih _ (by rw [length_append, length_singleton]; omega), length_append, length_singleton,
        append_assoc]
      have hroom' : options.boundedLimit - (claimed.length + 1) = room := by omega
      rw [hroom']
      rfl

end Batch

section Commit

variable {ρ : Type} {env : Env ρ}

variable {event : OutboxEvent} {now : Int}

variable {tx tx' : SessionTransaction ρ}

theorem publicEventId_ne (hvalid : assertTransaction env tx = true)
    (hmem : event ∈ tx.outbox.events) : event.publicEventId ≠ [] := by
  intro hempty
  simp only [assertTransaction, Bool.and_eq_true, Bool.not_eq_true'] at hvalid
  have hinvalid := any_eq_false.mp hvalid.1.2 event hmem
  simp [invalidOutbox, hempty, safePublicEventId] at hinvalid

theorem publicEventIds_distinct (hvalid : assertTransaction env tx = true) :
    (tx.outbox.events.map (·.publicEventId)).Nodup := by
  simp only [assertTransaction, Bool.and_eq_true, decide_eq_true_eq] at hvalid
  exact hvalid.2

theorem normalizeEvent_of_ne (h : event.publicEventId ≠ []) : normalizeEvent event = event :=
  if_neg h

@[simp] theorem normalizeEvent_publicDelivery (event : OutboxEvent) :
    (normalizeEvent event).publicDelivery = event.publicDelivery := by
  unfold normalizeEvent
  split <;> rfl

theorem normalizeOutbox_eq (hvalid : assertTransaction env tx = true) :
    normalizeOutbox tx = tx := by
  have hevents : tx.outbox.events.map normalizeEvent = tx.outbox.events :=
    (map_congr_left fun e he => normalizeEvent_of_ne (publicEventId_ne hvalid he)).trans (map_id _)
  obtain ⟨sessionId, revision, ⟨events, keys⟩, rest⟩ := tx
  simp only [normalizeOutbox, Outbox.update]
  congr

def ComesFrom (before after : SessionTransaction ρ) : Prop :=
  ∀ e' ∈ after.outbox.events, ∃ e ∈ before.outbox.events,
    e.publicDelivery = e'.publicDelivery ∧
      (e.publicEventId ≠ [] → e.publicEventId = e'.publicEventId)

theorem ComesFrom.trans {a b c : SessionTransaction ρ} (h1 : ComesFrom a b) (h2 : ComesFrom b c) :
    ComesFrom a c := by
  intro e'' he''
  obtain ⟨e', he', hd', hid'⟩ := h2 e'' he''
  obtain ⟨e, he, hd, hid⟩ := h1 e' he'
  refine ⟨e, he, hd.trans hd', fun hne => ?_⟩
  have heq := hid hne
  exact heq.trans (hid' (heq ▸ hne))

theorem normalizeOutbox_comesFrom (tx : SessionTransaction ρ) :
    ComesFrom tx (normalizeOutbox tx) := by
  intro e' he'
  obtain ⟨e, he, rfl⟩ := mem_map.mp he'
  exact ⟨e, he, (normalizeEvent_publicDelivery e).symm, fun hne => by rw [normalizeEvent_of_ne hne]⟩

theorem compactTransaction_comesFrom (h : compactTransaction env now tx = .ok tx') :
    ComesFrom tx tx' := by
  obtain ⟨rest, -, h⟩ := bind_eq_ok.1 h
  cases h
  intro e' he'
  exact normalizeOutbox_comesFrom tx e' (mem_of_mem_filter he')

theorem withSessionTransaction_ok [DecidableEq ρ] {α : Type}
    {operation : SessionTransaction ρ → Except Text (α × SessionTransaction ρ)}
    {stored : SessionTransaction ρ} {result : α}
    (h : withSessionTransaction env now operation stored = .ok (result, tx')) :
    assertTransaction env stored = true ∧ ∃ tx, operation stored = .ok (result, tx) ∧
      ComesFrom tx tx' := by
  unfold withSessionTransaction at h
  split at h
  · cases h
  next hvalid =>
  have hvalid : assertTransaction env stored = true := by simpa using hvalid
  refine ⟨hvalid, ?_⟩
  rw [normalizeOutbox_eq hvalid] at h
  obtain ⟨⟨r, tx⟩, hop, h⟩ := bind_eq_ok.1 h
  obtain ⟨compacted, hcompact, h⟩ := bind_eq_ok.1 h
  have hfrom : ComesFrom tx compacted :=
    (normalizeOutbox_comesFrom tx).trans (compactTransaction_comesFrom hcompact)
  split at h
  · next hsame =>
    cases h
    exact ⟨tx, hop, hsame ▸ hfrom⟩
  dsimp only at h
  split at h
  · cases h
  · cases h
    exact ⟨tx, hop, hfrom⟩

end Commit

section Operations

variable {ρ : Type} {env : Env ρ}

def KeepsClaims (before after : SessionTransaction ρ) : Prop :=
  ∀ e' ∈ after.outbox.events, e'.publicDelivery.state = .claimed → ∃ e ∈ before.outbox.events,
    e.publicEventId = e'.publicEventId ∧ e.publicDelivery = e'.publicDelivery

theorem KeepsClaims.comesFrom {before mid after : SessionTransaction ρ}
    (hne : ∀ e ∈ mid.outbox.events, e.publicDelivery.state = .claimed → e.publicEventId ≠ [])
    (hkeeps : KeepsClaims before mid) (hfrom : ComesFrom mid after) : KeepsClaims before after := by
  intro e'' he'' hclaimed
  obtain ⟨e', he', hd', hid'⟩ := hfrom e'' he''
  have hclaimed' : e'.publicDelivery.state = .claimed := by rw [hd']; exact hclaimed
  obtain ⟨e, he, hid, hd⟩ := hkeeps e' he' hclaimed'
  exact ⟨e, he, hid.trans (hid' (hne e' he' hclaimed')), hd.trans hd'⟩

theorem recoverOperation_keeps (now : Int) (tx : SessionTransaction ρ) :
    ∃ n tx', recoverOperation now tx = .ok (n, tx') ∧ KeepsClaims tx tx' := by
  refine ⟨_, _, rfl, ?_⟩
  intro e' he' hclaimed
  obtain ⟨e, he, rfl⟩ := mem_map.mp he'
  unfold recoverEvent at hclaimed ⊢
  split at hclaimed
  · cases hclaimed
  · next hlive =>
    rw [if_neg hlive]
    exact ⟨e, he, rfl, rfl⟩

variable (tx : SessionTransaction ρ)

theorem setDelivery_keeps (event : OutboxEvent) {delivery : PublicDelivery}
    (hstate : delivery.state ≠ .claimed) : KeepsClaims tx (tx.setDelivery event delivery) := by
  intro e' he' hclaimed
  obtain ⟨e, he, rfl⟩ := mem_map.mp he'
  unfold setDelivery at hclaimed ⊢
  split at hclaimed
  · exact absurd hclaimed hstate
  · next hother =>
    rw [if_neg hother]
    exact ⟨e, he, rfl, rfl⟩

theorem KeepsClaims.refl : KeepsClaims tx tx :=
  fun e he _ => ⟨e, he, rfl, rfl⟩

variable {e event : OutboxEvent} {o : Outbox}

variable {tx tx' : SessionTransaction ρ}

theorem acknowledgeOperation_keeps {input : AcknowledgeInput} {now : Int}
    (h : acknowledgeOperation input now tx = .ok (event, tx')) :
    KeepsClaims tx tx' := by
  unfold acknowledgeOperation at h
  split at h
  · cases h
  · dsimp only at h
    split at h
    · split at h
      · cases h
      · cases h
        exact KeepsClaims.refl tx
    · split at h
      · cases h
      · cases h
        exact setDelivery_keeps tx _ (by simp)

theorem releaseOperation_keeps {publicEventId : Text} {claimFence : Nat}
    (h : releaseOperation publicEventId claimFence tx = .ok ((), tx')) : KeepsClaims tx tx' := by
  unfold releaseOperation at h
  split at h
  · cases h
    exact KeepsClaims.refl tx
  · dsimp only at h
    split at h
    · cases h
      exact KeepsClaims.refl tx
    · cases h
      exact setDelivery_keeps tx _ (by simp)

theorem mem_add (h : e ∈ (o.add event).events) : e ∈ o.events ∨ e = event := by
  unfold Outbox.add at h
  split at h
  · exact .inl h
  · rcases mem_append.mp h with h | h
    · exact .inl h
    · exact .inr (mem_singleton.mp h)

theorem mem_appendEvents {revision : Nat} {events : List NewEvent}
    (h : e ∈ (appendEvents o revision events).events) :
    e ∈ o.events ∨ e.publicDelivery = .fresh := by
  induction events generalizing o with
  | nil => exact .inl h
  | cons new events ih =>
    rcases ih h with h | h
    · rcases mem_add h with h | rfl
      · exact .inl h
      · exact .inr rfl
    · exact .inr h

theorem otherOperation_keeps {change : OtherChange ρ}
    (h : otherOperation change tx = .ok ((), tx')) : KeepsClaims tx tx' := by
  obtain ⟨rest, -, h⟩ := bind_eq_ok.1 h
  cases h
  have happend : ∀ e ∈ (appendEvents tx.outbox (tx.revision + 1) change.events).events,
      e.publicDelivery.state = .claimed → e ∈ tx.outbox.events := by
    intro e he hclaimed
    rcases mem_appendEvents he with he | hfresh
    · exact he
    · rw [hfresh] at hclaimed
      cases hclaimed
  intro e' he' hclaimed
  split at he'
  · obtain ⟨e, he, rfl⟩ := mem_map.mp he'
    exact ⟨e, happend e he hclaimed, rfl, rfl⟩
  · exact ⟨e', happend e' he' hclaimed, rfl, rfl⟩

end Operations

section Claims

variable {ρ : Type} {env : Env ρ} [DecidableEq ρ] {tx : SessionTransaction ρ}

@[simp] theorem claim_publicEventId (event : OutboxEvent) (fence : Nat) (expiresAt : Int) :
    (event.claim fence expiresAt).publicEventId = event.publicEventId := rfl

def PublicDeliveryClaim.key (claim : PublicDeliveryClaim) : Text × Nat :=
  (claim.event.publicEventId, claim.claimFence)

omit [DecidableEq ρ] in
theorem claimBatch_subset {options : ClaimOptions} {now : Int}
    {event : OutboxEvent} (h : event ∈ claimBatch env options now tx) : event ∈ tx.outbox.events :=
  (mem_insertionSort _).mp (mem_of_mem_filter (mem_of_mem_take h))

omit [DecidableEq ρ] in
theorem claimBatch_distinct (options : ClaimOptions) (now : Int)
    (hvalid : assertTransaction env tx = true) :
    ((claimBatch env options now tx).map (·.publicEventId)).Nodup := by
  have hsorted : ((tx.outbox.events.insertionSort (sortsBefore env)).map (·.publicEventId)).Nodup :=
    ((perm_insertionSort _ _).map _).nodup_iff.mpr (publicEventIds_distinct hvalid)
  exact hsorted.sublist (((take_sublist _ _).trans filter_sublist).map _)

variable {options : ClaimOptions} {commitAt now : Int} {claims : List PublicDeliveryClaim}

variable {tx tx' : SessionTransaction ρ}

variable (h : claimPublicDelivery env options now commitAt tx = .ok (claims, tx'))
include h

theorem claimPublicDelivery_ok :
    assertTransaction env tx = true ∧
      claims = (claimBatch env options now tx).zipIdx.map (claimAt options now tx.revision) ∧
      ComesFrom { tx with
        outbox := tx.outbox.update (storeClaims claims) (storeClaims_id claims) } tx' := by
  obtain ⟨hvalid, mid, hop, hfrom⟩ := withSessionTransaction_ok h
  have hloop : claimLoop options now tx.sessionId tx.revision
      (tx.outbox.events.insertionSort (sortsBefore env)) [] =
        (claimBatch env options now tx).zipIdx.map (claimAt options now tx.revision) := by
    rw [claimLoop_eq options now _ _ _ [] options.boundedLimit_pos]
    rfl
  simp only [claimOperation, normalizeOutbox_eq hvalid, hloop] at hop
  cases hop
  exact ⟨hvalid, rfl, hfrom⟩

theorem claimPublicDelivery_claimed {e' : OutboxEvent} (he' : e' ∈ tx'.outbox.events) :
    (∃ c ∈ claims, c.event.publicEventId = e'.publicEventId ∧
      e'.publicDelivery.claimFence = some c.claimFence) ∨
    (∃ e ∈ tx.outbox.events, e.publicEventId = e'.publicEventId ∧
      e.publicDelivery = e'.publicDelivery ∧
      ∀ c ∈ claims, c.event.publicEventId ≠ e'.publicEventId) := by
  obtain ⟨hvalid, hclaims, hfrom⟩ := claimPublicDelivery_ok h
  obtain ⟨m, hm, hdelivery, hid⟩ := hfrom e' he'
  obtain ⟨e, he, hstored⟩ := mem_map.mp hm
  have horigin : ∀ c ∈ claims, ∃ o ∈ tx.outbox.events, c.event.id = o.id ∧
      c.event.publicEventId = o.publicEventId ∧
      c.event.publicDelivery.claimFence = some c.claimFence := by
    intro c hc
    rw [hclaims] at hc
    obtain ⟨entry, hentry, rfl⟩ := mem_map.mp hc
    have hmem : entry.1 ∈ claimBatch env options now tx := by
      have := mem_map_of_mem (f := Prod.fst) hentry
      rwa [zipIdx_map_fst] at this
    exact ⟨entry.1, claimBatch_subset hmem, rfl, rfl, rfl⟩
  cases hfind : (claims.map (·.event)).find? fun x => x.id = e.id with
  | some x =>
    left
    obtain ⟨c, hc, rfl⟩ := mem_map.mp (mem_of_find?_eq_some hfind)
    have hme : m = c.event := by
      rw [← hstored, storeClaims, hfind]
      rfl
    obtain ⟨o, ho, -, hpid, hfence⟩ := horigin c hc
    have hne : m.publicEventId ≠ [] := by
      rw [hme, hpid]
      exact publicEventId_ne hvalid ho
    refine ⟨c, hc, ?_, ?_⟩
    · rw [← hme]
      exact hid hne
    · rw [← hdelivery, hme]
      exact hfence
  | none =>
    right
    have hme : m = e := by
      rw [← hstored, storeClaims, hfind]
      rfl
    subst hme
    have hpid := hid (publicEventId_ne hvalid he)
    refine ⟨m, he, hpid, hdelivery, ?_⟩
    intro c hc hsame
    obtain ⟨o, ho, hkey, hopid, -⟩ := horigin c hc
    have hom : o = m := inj_on_of_nodup_map (publicEventIds_distinct hvalid) ho he
      (hopid.symm.trans (hsame.trans hpid.symm))
    have := find?_eq_none.mp hfind c.event (mem_map_of_mem hc)
    exact this (by simp [hkey, hom])

end Claims

end Vibrato.Coordinator
