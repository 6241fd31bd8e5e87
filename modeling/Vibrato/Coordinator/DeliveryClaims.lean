import Mathlib
import Vibrato.Coordinator.Enumeration

namespace Vibrato.Coordinator

open List Text Bool

theorem stringLe_refl (a : Text) : stringLe a a := le_refl _

theorem stringLe_total (a b : Text) : stringLe a b ∨ stringLe b a := le_total _ _

variable {a b id : Text} {c : Char} {now : Int}

theorem stringLe_trans {c : Text} (h1 : stringLe a b) (h2 : stringLe b c) : stringLe a c :=
  le_trans h1 h2

instance : Std.Total stringLe := ⟨stringLe_total⟩

instance : IsTrans Text stringLe := ⟨fun _ _ _ => stringLe_trans⟩

theorem utf16_append (a b : Text) : utf16 (a ++ b) = utf16 a ++ utf16 b :=
  flatMap_append

theorem utf16_cons_zero (a : Text) : utf16 (Char.ofNat 0 :: a) = 0 :: utf16 a := rfl

theorem isSessionIdChar_range (h : isSessionIdChar c = true) : 0 < c.toNat ∧ c.toNat < 128 := by
  simp only [isSessionIdChar, Char.isAlphanum, Char.isAlpha, Char.isUpper, Char.isLower,
    Char.isDigit, or_eq_true, and_eq_true, decide_eq_true_eq, ge_iff_le, UInt32.le_iff_toNat_le,
    Char.toNat_val] at h
  rcases h with ((((h | h) | h) | rfl) | rfl) | rfl
  · exact ⟨Nat.lt_of_lt_of_le (by decide) h.1, Nat.lt_of_le_of_lt h.2 (by decide)⟩
  · exact ⟨Nat.lt_of_lt_of_le (by decide) h.1, Nat.lt_of_le_of_lt h.2 (by decide)⟩
  · exact ⟨Nat.lt_of_lt_of_le (by decide) h.1, Nat.lt_of_le_of_lt h.2 (by decide)⟩
  all_goals decide

variable (h : sessionIdPattern id = true)
include h

theorem sessionIdPattern_chars (hc : c ∈ id) : isSessionIdChar c = true := by
  cases id with
  | nil => cases h
  | cons d rest =>
    simp only [sessionIdPattern, and_eq_true, all_eq_true] at h
    rcases mem_cons.mp hc with rfl | hc
    · simp [isSessionIdChar, h.1.1]
    · exact h.1.2 c hc

theorem sessionIdPattern_ne_nil : id ≠ [] := by
  rintro rfl
  cases h

theorem utf16_sessionId : utf16 id = id.map Char.toNat := by
  have hchars : ∀ c ∈ id, c.toNat < 0x10000 := fun c hc => by
    have := (isSessionIdChar_range (sessionIdPattern_chars h hc)).2
    omega
  clear h
  induction id with
  | nil => rfl
  | cons c rest ih =>
    have hrest := ih fun d hd => hchars d (mem_cons_of_mem _ hd)
    have hc : utf16 (c :: rest) = (if c.toNat < 0x10000 then [c.toNat]
        else [0xD800 + (c.toNat - 0x10000) / 0x400, 0xDC00 + (c.toNat - 0x10000) % 0x400]) ++
          utf16 rest := rfl
    rw [hc, if_pos (hchars c mem_cons_self), hrest]
    rfl

omit h

theorem stringLe_antisymm (ha : sessionIdPattern a = true) (hb : sessionIdPattern b = true)
    (h1 : stringLe a b) (h2 : stringLe b a) : a = b := by
  have hunits : utf16 a = utf16 b := le_antisymm h1 h2
  rw [utf16_sessionId ha, utf16_sessionId hb] at hunits
  exact map_injective_iff.mpr (fun c d hcd => Char.toNat_inj.mp hcd) hunits

theorem append_zero_lt {l m : List Nat} (hm : ∀ n ∈ m, 0 < n) (h : l < m) (l' m' : List Nat) :
    l ++ 0 :: l' < m ++ 0 :: m' := by
  induction l generalizing m with
  | nil =>
    cases m with
    | nil => exact absurd h (List.lt_irrefl _)
    | cons n m => exact cons_lt_cons_iff.mpr (.inl (hm n mem_cons_self))
  | cons k l ih =>
    cases m with
    | nil => exact absurd h (not_lt_nil _)
    | cons n m =>
      rcases cons_lt_cons_iff.mp h with hhead | ⟨rfl, htail⟩
      · exact cons_lt_cons_iff.mpr (.inl hhead)
      · exact cons_lt_cons_iff.mpr
          (.inr ⟨rfl, ih (fun x hx => hm x (mem_cons_of_mem _ hx)) htail⟩)

theorem deliveryOrderKey_lt (hb : sessionIdPattern b = true) (h : ¬ stringLe b a)
    (e e' : OutboxEvent) : ¬ stringLe (deliveryOrderKey b e') (deliveryOrderKey a e) := by
  have hunits : utf16 a < utf16 b := not_le.mp h
  have hpos : ∀ n ∈ utf16 b, 0 < n := by
    intro n hn
    rw [utf16_sessionId hb] at hn
    obtain ⟨c, hc, rfl⟩ := mem_map.mp hn
    exact (isSessionIdChar_range (sessionIdPattern_chars hb hc)).1
  intro hle
  simp only [stringLe, deliveryOrderKey, append_assoc, cons_append, utf16_append,
    utf16_cons_zero] at hle
  exact absurd (append_zero_lt hpos hunits _ _) (not_lt.mpr hle)

include h

theorem cursorSession_orderKey (e : OutboxEvent) : cursorSession (deliveryOrderKey id e) = id := by
  have hchars : ∀ c ∈ id, decide (c ≠ Char.ofNat 0) = true := by
    intro c hc
    have hpos := (isSessionIdChar_range (sessionIdPattern_chars h hc)).1
    rw [decide_eq_true_eq]
    rintro rfl
    exact absurd hpos (by decide)
  rw [cursorSession, deliveryOrderKey, append_assoc, takeWhile_append_of_pos hchars,
    cons_append, takeWhile_cons_of_neg (by simp), append_nil]

theorem roundRobin_orderKey (e : OutboxEvent) : roundRobin (deliveryOrderKey id e) = false := by
  cases id with
  | nil => cases h
  | cons c rest =>
    have hc := sessionIdPattern_chars h (mem_cons_self (a := c))
    have hne : ('@' == c) = false := by
      rw [beq_eq_false_iff_ne]
      rintro rfl
      exact absurd hc (by decide)
    have hmark : "@session:".toList = '@' :: "session:".toList := by decide
    rw [roundRobin, deliveryOrderKey, hmark, append_assoc, cons_append, startsWith_cons, hne,
      Bool.false_and]

omit h

def OutboxEvent.awaits (now : Int) (e : OutboxEvent) : Bool :=
  decide (e.publicDelivery.state ≠ .acknowledged) &&
    !(decide (e.publicDelivery.state = .claimed) && !claimExpired e.publicDelivery now)

theorem claimable_eq (options : ClaimOptions) (now : Int) (sessionId : Text) (e : OutboxEvent) :
    options.claimable now sessionId e = (e.awaits now && !options.behind sessionId e) := by
  simp only [ClaimOptions.claimable, OutboxEvent.awaits]
  cases decide (e.publicDelivery.state ≠ .acknowledged) <;>
    cases options.behind sessionId e <;> simp

theorem OutboxEvent.state_ne_of_awaits {e : OutboxEvent} (h : e.awaits now = true) :
    e.publicDelivery.state ≠ .acknowledged := by
  simp only [awaits, and_eq_true, decide_eq_true_eq] at h
  exact h.1

theorem OutboxEvent.claim_awaits (e : OutboxEvent) (fence : Nat) {expiresAt : Int}
    (h : now < expiresAt) : (e.claim fence expiresAt).awaits now = false := by
  have hlive : decide (expiresAt ≤ now) = false := by
    rw [decide_eq_false_iff_not]
    omega
  simp [awaits, claim, claimExpired, hlive]

section Session

variable {ρ : Type} {env : Env ρ} [DecidableEq ρ] {tx : SessionTransaction ρ} {now : Int}

omit [DecidableEq ρ] in
theorem normalizeOutbox_of_ids (h : ∀ e ∈ tx.outbox.events, e.publicEventId ≠ []) :
    normalizeOutbox tx = tx := by
  have hevents : tx.outbox.events.map normalizeEvent = tx.outbox.events :=
    (map_congr_left fun e he => normalizeEvent_of_ne (h e he)).trans (map_id _)
  obtain ⟨sessionId, revision, ⟨events, keys⟩, rest⟩ := tx
  simp only [normalizeOutbox, Outbox.update]
  congr

omit [DecidableEq ρ] in
theorem compactTransaction_events {tx tx' : SessionTransaction ρ}
    (hids : ∀ e ∈ tx.outbox.events, e.publicEventId ≠ [])
    (h : compactTransaction env now tx = .ok tx') :
    tx'.sessionId = tx.sessionId ∧
      tx'.outbox.events = tx.outbox.events.filter (retained tx.revision now) := by
  rw [compactTransaction, normalizeOutbox_of_ids hids] at h
  obtain ⟨rest, -, h⟩ := bind_eq_ok.1 h
  cases h
  exact ⟨rfl, rfl⟩

variable {commitAt now t : Int} {options : ClaimOptions} {times : Set Int}

variable {tx tx' : SessionTransaction ρ} {e : OutboxEvent} {options : ClaimOptions}

theorem withSessionTransaction_committed {α : Type}
    {operation : SessionTransaction ρ → Except Text (α × SessionTransaction ρ)}
    {stored mid : SessionTransaction ρ} {result : α} (hop : operation stored = .ok (result, mid))
    (hids : ∀ e ∈ mid.outbox.events, e.publicEventId ≠ [])
    (h : withSessionTransaction env now operation stored = .ok (result, tx')) :
    assertTransaction env tx' = true ∧ tx'.sessionId = mid.sessionId ∧
      tx'.outbox.events = mid.outbox.events.filter (retained mid.revision now) := by
  have hvalid := (withSessionTransaction_ok h).1
  unfold withSessionTransaction at h
  rw [normalizeOutbox_eq hvalid] at h
  simp only [hvalid, Bool.not_true, Bool.false_eq_true, ↓reduceIte, bind, Except.bind, pure,
    Except.pure, hop, normalizeOutbox_of_ids hids] at h
  cases hcompact : compactTransaction env now mid with
  | error message =>
    rw [hcompact] at h
    cases h
  | ok compacted =>
    rw [hcompact] at h
    dsimp only at h
    obtain ⟨hsession, hevents⟩ := compactTransaction_events hids hcompact
    split at h
    · next hsame =>
      cases h
      exact ⟨hvalid, hsame ▸ hsession, hsame ▸ hevents⟩
    · split at h
      · cases h
      · next hpost =>
        cases h
        exact ⟨by simpa using hpost, hsession, hevents⟩

omit [DecidableEq ρ] in
theorem storeClaims_cases {claims : List PublicDeliveryClaim}
    (hclaims : claims = (claimBatch env options now tx).zipIdx.map
      (claimAt options now tx.revision))
    (he : e ∈ tx.outbox.events) :
    (e ∉ claimBatch env options now tx ∧ storeClaims claims e = e) ∨
    (e ∈ claimBatch env options now tx ∧ ∃ fence, fence ≠ 0 ∧
      storeClaims claims e = e.claim fence (now + options.boundedLeaseMs)) := by
  have hfst := zipIdx_map_fst 0 (claimBatch env options now tx)
  rw [storeClaims, hclaims, map_map]
  cases hfind : ((claimBatch env options now tx).zipIdx.map
      ((·.event) ∘ claimAt options now tx.revision)).find? fun x => x.id = e.id with
  | none =>
    refine .inl ⟨?_, rfl⟩
    intro hbatch
    rw [← hfst] at hbatch
    obtain ⟨entry, hentry, rfl⟩ := mem_map.mp hbatch
    have hnone := find?_eq_none.mp hfind _ (mem_map_of_mem hentry)
    exact hnone (decide_eq_true_iff.mpr rfl)
  | some x =>
    obtain ⟨⟨y, i⟩, hy, rfl⟩ := mem_map.mp (mem_of_find?_eq_some hfind)
    have hfound := find?_some hfind
    have hid : y.id = e.id := of_decide_eq_true hfound
    have hbatch : y ∈ claimBatch env options now tx := by
      rw [← hfst]
      exact mem_map_of_mem hy
    have heq : y = e :=
      inj_on_of_nodup_map tx.outbox.keys_distinct (claimBatch_subset hbatch) he hid
    subst heq
    exact .inr ⟨hbatch, _, Nat.succ_ne_zero _, rfl⟩

theorem claimPublicDelivery_events {claims : List PublicDeliveryClaim}
    (h : claimPublicDelivery env options now commitAt tx = .ok (claims, tx')) :
    assertTransaction env tx' = true ∧ tx'.sessionId = tx.sessionId ∧
      (∀ e' ∈ tx'.outbox.events, (e' ∈ tx.outbox.events ∧ e' ∉ claimBatch env options now tx) ∨
        ∃ e ∈ claimBatch env options now tx, ∃ fence,
          e' = e.claim fence (now + options.boundedLeaseMs)) ∧
      ∀ e ∈ tx.outbox.events, e ∉ claimBatch env options now tx →
        e.publicDelivery.state ≠ .acknowledged → e ∈ tx'.outbox.events := by
  obtain ⟨hvalid, hclaims, -⟩ := claimPublicDelivery_ok h
  have hloop : claimLoop options now tx.sessionId tx.revision
      (tx.outbox.events.insertionSort (sortsBefore env)) [] = claims := by
    rw [claimLoop_eq options now _ _ _ [] options.boundedLimit_pos, hclaims]
    rfl
  have hop : claimOperation env options now tx = .ok (claims, { tx with
      outbox := tx.outbox.update (storeClaims claims) (storeClaims_id claims) }) := by
    simp only [claimOperation, normalizeOutbox_eq hvalid, hloop]
  have hids : ∀ e ∈ tx.outbox.events.map (storeClaims claims), e.publicEventId ≠ [] := by
    intro e' he'
    obtain ⟨e, he, rfl⟩ := mem_map.mp he'
    rcases storeClaims_cases hclaims he with ⟨-, hsame⟩ | ⟨-, fence, -, hclaim⟩
    · rw [hsame]
      exact publicEventId_ne hvalid he
    · rw [hclaim, claim_publicEventId]
      exact publicEventId_ne hvalid he
  obtain ⟨hvalid', hsession, hevents⟩ := withSessionTransaction_committed hop hids h
  refine ⟨hvalid', hsession, ?_, ?_⟩
  · intro e' he'
    rw [hevents] at he'
    obtain ⟨e, he, rfl⟩ := mem_map.mp (mem_of_mem_filter he')
    rcases storeClaims_cases hclaims he with ⟨hbatch, hsame⟩ | ⟨hbatch, fence, -, hclaim⟩
    · rw [hsame]
      exact .inl ⟨he, hbatch⟩
    · exact .inr ⟨e, hbatch, fence, hclaim⟩
  · intro e he hbatch hstate
    rw [hevents]
    refine mem_filter.mpr ⟨mem_map.mpr ⟨e, he, ?_⟩, ?_⟩
    · rcases storeClaims_cases hclaims he with ⟨-, hsame⟩ | ⟨hin, -⟩
      · exact hsame
      · exact absurd hin hbatch
    · simp [retained, hstate]

def awaiting (now : Int) (tx : SessionTransaction ρ) : List OutboxEvent :=
  tx.outbox.events.filter (·.awaits now)

def Steady (times : Set Int) (tx : SessionTransaction ρ) : Prop :=
  ∀ t ∈ times, ∀ t' ∈ times, ∀ e ∈ tx.outbox.events, e.awaits t = e.awaits t'

omit [DecidableEq ρ] in
theorem claimBatch_awaits (h : e ∈ claimBatch env options now tx) :
    e.awaits now = true ∧ options.behind tx.sessionId e = false := by
  have hclaimable := of_mem_filter (mem_of_mem_take h)
  rw [claimable_eq, and_eq_true, not_eq_true'] at hclaimable
  exact hclaimable

omit [DecidableEq ρ] in
theorem mem_claimBatch_of_room (hroom : (claimBatch env options now tx).length <
    options.boundedLimit)
    (he : e ∈ tx.outbox.events) (hawaits : e.awaits now = true)
    (hahead : options.behind tx.sessionId e = false) : e ∈ claimBatch env options now tx := by
  unfold claimBatch at hroom ⊢
  rw [length_take] at hroom
  rw [take_of_length_le (by omega), mem_filter, mem_insertionSort, claimable_eq, hawaits, hahead]
  exact ⟨he, rfl⟩

theorem Steady.claim {claims : List PublicDeliveryClaim} (hsteady : Steady times tx)
    (h : claimPublicDelivery env options now commitAt tx = .ok (claims, tx'))
    (hlease : ∀ t ∈ times, t < now + options.boundedLeaseMs) : Steady times tx' := by
  intro t ht t' ht' e' he'
  rcases (claimPublicDelivery_events h).2.2.1 e' he' with ⟨he, -⟩ | ⟨e, -, fence, rfl⟩
  · exact hsteady t ht t' ht' e' he
  · rw [e.claim_awaits fence (hlease t ht), e.claim_awaits fence (hlease t' ht')]

theorem mem_awaiting_claim {claims : List PublicDeliveryClaim}
    (h : claimPublicDelivery env options now commitAt tx = .ok (claims, tx'))
    (hlease : ∀ t ∈ times, t < now + options.boundedLeaseMs) (ht : t ∈ times) :
    e ∈ awaiting t tx' ↔ e ∈ awaiting t tx ∧ e ∉ claimBatch env options now tx := by
  obtain ⟨-, -, hfrom, hkept⟩ := claimPublicDelivery_events h
  simp only [awaiting, mem_filter]
  constructor
  · rintro ⟨he, hawaits⟩
    rcases hfrom e he with ⟨he, hbatch⟩ | ⟨e, -, fence, rfl⟩
    · exact ⟨⟨he, hawaits⟩, hbatch⟩
    · rw [e.claim_awaits fence (hlease t ht)] at hawaits
      cases hawaits
  · rintro ⟨⟨he, hawaits⟩, hbatch⟩
    exact ⟨hkept e he hbatch (OutboxEvent.state_ne_of_awaits hawaits), hawaits⟩

omit [DecidableEq ρ] in
theorem awaiting_ids_distinct (hvalid : assertTransaction env tx = true)
    (t : Int) : ((awaiting t tx).map (·.publicEventId)).Nodup :=
  (publicEventIds_distinct hvalid).sublist (filter_sublist.map _)

theorem claim_split {claims : List PublicDeliveryClaim} (hsteady : Steady times tx)
    (h : claimPublicDelivery env options now commitAt tx = .ok (claims, tx')) (hnow : now ∈ times)
    (hlease : ∀ t ∈ times, t < now + options.boundedLeaseMs) (ht : t ∈ times) :
    (claims.map (·.event.publicEventId) ++ (awaiting t tx').map (·.publicEventId)).Perm
      ((awaiting t tx).map (·.publicEventId)) := by
  obtain ⟨hvalid, hclaims, -⟩ := claimPublicDelivery_ok h
  have hvalid' := (claimPublicDelivery_events h).1
  have hids : claims.map (·.event.publicEventId) =
      (claimBatch env options now tx).map (·.publicEventId) := by
    have hfst := congrArg (List.map (·.publicEventId))
      (zipIdx_map_fst 0 (claimBatch env options now tx))
    rw [map_map] at hfst
    rw [hclaims, map_map]
    exact hfst
  have hbatch : ∀ e ∈ claimBatch env options now tx, e ∈ awaiting t tx := by
    intro e he
    have hmem := claimBatch_subset he
    refine mem_filter.mpr ⟨hmem, ?_⟩
    rw [hsteady t ht now hnow e hmem]
    exact (claimBatch_awaits he).1
  rw [hids]
  refine (perm_ext_iff_of_nodup ?_ (awaiting_ids_distinct hvalid t)).mpr ?_
  · refine nodup_append.mpr ⟨claimBatch_distinct options now hvalid,
      awaiting_ids_distinct hvalid' t, ?_⟩
    rintro id hid id' hid' rfl
    obtain ⟨e, he, rfl⟩ := mem_map.mp hid
    obtain ⟨e', he', hsame⟩ := mem_map.mp hid'
    obtain ⟨hwaited, hleft⟩ := (mem_awaiting_claim h hlease ht).mp he'
    have heq : e' = e := inj_on_of_nodup_map (publicEventIds_distinct hvalid)
      (mem_of_mem_filter hwaited) (claimBatch_subset he) hsame
    exact hleft (heq ▸ he)
  · intro id
    rw [mem_append]
    constructor
    · rintro (hid | hid)
      · obtain ⟨e, he, rfl⟩ := mem_map.mp hid
        exact mem_map_of_mem (hbatch e he)
      · obtain ⟨e, he, rfl⟩ := mem_map.mp hid
        exact mem_map_of_mem ((mem_awaiting_claim h hlease ht).mp he).1
    · intro hid
      obtain ⟨e, he, rfl⟩ := mem_map.mp hid
      by_cases hin : e ∈ claimBatch env options now tx
      · exact .inl (mem_map_of_mem hin)
      · exact .inr (mem_map_of_mem ((mem_awaiting_claim h hlease ht).mpr ⟨he, hin⟩))

/-- The times that the calls of an enumeration read at a session, and those of their commits. -/
structure ClaimTimes where
  nows : Set Int
  commits : Set Int

instance ClaimTimes.instMembership : Membership Int ClaimTimes := ⟨fun times t => t ∈ times.nows⟩

/-- Claims of an enumeration, which gives a limit and a cursor and leaves the lease to its
default. -/
inductive ClaimsTo (env : Env ρ) (times : ClaimTimes) (tx : SessionTransaction ρ) :
    SessionTransaction ρ → Prop where
  | refl : ClaimsTo env times tx tx
  | claim {mid tx' : SessionTransaction ρ} {options : ClaimOptions} {now commitAt : Int}
      {claims : List PublicDeliveryClaim} :
        ClaimsTo env times tx mid → options.leaseMs = none → now ∈ times →
      commitAt ∈ times.commits →
        claimPublicDelivery env options now commitAt mid = .ok (claims, tx') →
      ClaimsTo env times tx tx'

def Accepts (env : Env ρ) (times : ClaimTimes) (tx : SessionTransaction ρ) : Prop :=
  ∀ tx', ClaimsTo env times tx tx' → ∀ options now commitAt, options.leaseMs = none → now ∈ times →
    commitAt ∈ times.commits → ∃ claims tx'',
      claimPublicDelivery env options now commitAt tx' = .ok (claims, tx'')

variable {claimTimes : ClaimTimes}

theorem ClaimsTo.head {now commitAt : Int} {tx mid tx' : SessionTransaction ρ}
    {claims : List PublicDeliveryClaim}
    (h : claimPublicDelivery env options now commitAt tx = .ok (claims, mid))
    (hoptions : options.leaseMs = none)
    (hnow : now ∈ claimTimes) (hcommit : commitAt ∈ claimTimes.commits)
    (hrest : ClaimsTo env claimTimes mid tx') :
    ClaimsTo env claimTimes tx tx' := by
  induction hrest with
  | refl => exact .claim .refl hoptions hnow hcommit h
  | claim _ hoptions' hnow' hcommit' hclaim ih => exact .claim ih hoptions' hnow' hcommit' hclaim

structure Env.Lenient (env : Env ρ) : Prop where
  asserts : ∀ tx, env.assertRest tx = true
  compacts : ∀ now tx, ∃ rest, env.compactRest now tx = .ok rest

theorem Accepts.claim {claims : List PublicDeliveryClaim} (haccepts : Accepts env claimTimes tx)
    (h : claimPublicDelivery env options now commitAt tx = .ok (claims, tx'))
    (hoptions : options.leaseMs = none)
    (hnow : now ∈ claimTimes) (hcommit : commitAt ∈ claimTimes.commits) :
    Accepts env claimTimes tx' :=
  fun _ hrest => haccepts _ (.head h hoptions hnow hcommit hrest)

omit [DecidableEq ρ] in
theorem invalidOutbox_succ {revision : Nat} (h : invalidOutbox revision e = false) :
    invalidOutbox (revision + 1) e = false := by
  simp only [invalidOutbox, or_eq_false_iff, decide_eq_false_iff_not] at h ⊢
  obtain ⟨⟨⟨⟨hid, hfirst⟩, hrevision⟩, hpublic⟩, hdelivery⟩ := h
  exact ⟨⟨⟨⟨hid, hfirst⟩, by omega⟩, hpublic⟩, hdelivery⟩

omit [DecidableEq ρ] in
theorem invalidOutbox_claim {revision : Nat} (h : invalidOutbox revision e = false)
    (hawaits : e.awaits now = true) {fence : Nat} (hfence : fence ≠ 0) (expiresAt : Int) :
    invalidOutbox revision (e.claim fence expiresAt) = false := by
  have hstate := OutboxEvent.state_ne_of_awaits hawaits
  simp only [invalidOutbox, or_eq_false_iff, decide_eq_false_iff_not] at h ⊢
  obtain ⟨hrest, hdelivery⟩ := h
  refine ⟨hrest, ?_⟩
  have hunset : e.publicDelivery.journalSeq.isSome = false ∧
      e.publicDelivery.acknowledgedAt.isSome = false := by
    unfold invalidDelivery at hdelivery
    cases hs : e.publicDelivery.state with
    | acknowledged => exact absurd hs hstate
    | pending =>
      rw [hs] at hdelivery
      simp only [or_eq_false_iff] at hdelivery
      exact ⟨hdelivery.2.1.2, hdelivery.2.2⟩
    | claimed =>
      rw [hs] at hdelivery
      simp only [or_eq_false_iff] at hdelivery
      exact ⟨hdelivery.2.1.2, hdelivery.2.2⟩
  rw [Option.isSome_eq_false_iff, Option.isSome_eq_false_iff, Option.isNone_iff_eq_none] at hunset
  simp [invalidDelivery, OutboxEvent.claim, hfence, hunset]

theorem Env.Lenient.claims (hlenient : env.Lenient)
    (hvalid : assertTransaction env tx = true) (options : ClaimOptions) (now commitAt : Int) :
    ∃ claims tx', claimPublicDelivery env options now commitAt tx = .ok (claims, tx') := by
  generalize hclaims :
    (claimBatch env options now tx).zipIdx.map (claimAt options now tx.revision) = claims
  have hop : claimOperation env options now tx = .ok (claims, { tx with
      outbox := tx.outbox.update (storeClaims claims) (storeClaims_id claims) }) := by
    have hloop : claimLoop options now tx.sessionId tx.revision
        (tx.outbox.events.insertionSort (sortsBefore env)) [] = claims := by
      rw [claimLoop_eq options now _ _ _ [] options.boundedLimit_pos, ← hclaims]
      rfl
    simp only [claimOperation, normalizeOutbox_eq hvalid, hloop]
  have hpublic : ∀ e ∈ tx.outbox.events, (storeClaims claims e).publicEventId =
      e.publicEventId := by
    intro e he
    rcases storeClaims_cases hclaims.symm he with ⟨-, hsame⟩ | ⟨-, fence, -, hclaim⟩
    · rw [hsame]
    · rw [hclaim, claim_publicEventId]
  have hwell : ∀ e ∈ tx.outbox.events, invalidOutbox (tx.revision + 1) (storeClaims claims e) =
      false := by
    intro e he
    simp only [assertTransaction, Bool.and_eq_true, Bool.not_eq_true'] at hvalid
    have hevent := Bool.eq_false_iff.mpr (any_eq_false.mp hvalid.1.2 e he)
    refine invalidOutbox_succ ?_
    rcases storeClaims_cases hclaims.symm he with ⟨-, hsame⟩ | ⟨hbatch, fence, hfence, hclaim⟩
    · rw [hsame]
      exact hevent
    · rw [hclaim]
      exact invalidOutbox_claim hevent (claimBatch_awaits hbatch).1 hfence _
  have hids : ∀ e ∈ tx.outbox.events.map (storeClaims claims), e.publicEventId ≠ [] := by
    intro e' he'
    obtain ⟨e, he, rfl⟩ := mem_map.mp he'
    rw [hpublic e he]
    exact publicEventId_ne hvalid he
  generalize hmid : ({ tx with
    outbox := tx.outbox.update (storeClaims claims) (storeClaims_id claims) } : SessionTransaction
      ρ) = mid at hop
  have hevents : mid.outbox.events = tx.outbox.events.map (storeClaims claims) := by
    rw [← hmid]
    rfl
  rw [← hevents] at hids
  obtain ⟨rest, hrest⟩ := hlenient.compacts commitAt
    { mid with outbox := mid.outbox.keep (retained mid.revision commitAt) }
  have hcompact : compactTransaction env commitAt mid = .ok { mid with
      outbox := mid.outbox.keep (retained mid.revision commitAt)
      rest } := by
    unfold compactTransaction
    rw [normalizeOutbox_of_ids hids]
    simp only [hrest, bind, Except.bind, pure, Except.pure]
  have hpost : ∀ rest, assertTransaction env { mid with
      outbox := mid.outbox.keep (retained mid.revision commitAt)
      rest
      revision := mid.revision + 1 } = true := by
    intro rest
    have hrevision : mid.revision = tx.revision := by rw [← hmid]
    simp only [assertTransaction, hlenient.asserts, Bool.true_and, Bool.and_eq_true,
      Bool.not_eq_true', decide_eq_true_eq]
    constructor
    · refine any_eq_false.mpr fun e' he' => ?_
      have hmem := mem_of_mem_filter he'
      rw [hevents] at hmem
      obtain ⟨e, he, rfl⟩ := mem_map.mp hmem
      rw [hrevision, hwell e he]
      exact Bool.false_ne_true
    · have hmap :
          mid.outbox.events.map (·.publicEventId) = tx.outbox.events.map (·.publicEventId) := by
        rw [hevents, map_map]
        exact map_congr_left hpublic
      exact (hmap ▸ publicEventIds_distinct hvalid).sublist (filter_sublist.map _)
  unfold claimPublicDelivery withSessionTransaction
  rw [normalizeOutbox_eq hvalid]
  simp only [hvalid, Bool.not_true, Bool.false_eq_true, ↓reduceIte, bind, Except.bind, pure,
    Except.pure, hop, normalizeOutbox_of_ids hids, hcompact]
  split
  · exact ⟨claims, tx, rfl⟩
  · rw [hpost]
    exact ⟨claims, _, rfl⟩

theorem Env.Lenient.accepts (hlenient : env.Lenient) (hvalid : assertTransaction env tx = true) :
    Accepts env claimTimes tx := by
  intro tx' hclaims options now commitAt _ _ _
  have hvalid' : assertTransaction env tx' = true := by
    cases hclaims with
    | refl => exact hvalid
    | claim _ _ _ _ h => exact (claimPublicDelivery_events h).1
  exact hlenient.claims hvalid' options now commitAt

end Session

end Vibrato.Coordinator
