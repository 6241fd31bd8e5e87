import Vibrato.Coordinator.DeliveryClaims

namespace Vibrato.Coordinator

open List

def behindCursor (cursor sessionId : Text) (e : OutboxEvent) : Bool :=
  ClaimOptions.behind { afterOrderKey := afterOrderKey cursor sessionId } sessionId e

namespace NamespaceState

variable {ρ : Type} [DecidableEq ρ] (env : Env ρ)

def awaiting (ns : NamespaceState ρ) (now : Int) (sessionId : Text) : List OutboxEvent :=
  (ns.transactions sessionId).elim [] (Coordinator.awaiting now)

def Workable (times : ClaimTimes) (ns : NamespaceState ρ) (sessionId : Text) : Prop :=
  ∀ tx, ns.transactions sessionId = some tx → tx.sessionId = sessionId ∧ Accepts env times tx ∧
    Steady times.nows tx

/-- A claimed delivery of `after` is one of the claims, or was claimed before. -/
def LeavesNone (before : NamespaceState ρ) (claims : List SessionClaim) (after : NamespaceState ρ) :
    Prop :=
  ∀ sessionId tx', after.transactions sessionId = some tx' → ∀ e' ∈ tx'.outbox.events,
    e'.publicDelivery.state = .claimed →
      (∃ c ∈ claims, c.sessionId = sessionId ∧ c.claim.event.publicEventId = e'.publicEventId ∧
        e'.publicDelivery.claimFence = some c.claim.claimFence) ∨
      ∃ tx, before.transactions sessionId = some tx ∧ ∃ e ∈ tx.outbox.events,
        e.publicEventId = e'.publicEventId ∧ e.publicDelivery = e'.publicDelivery

structure Takes (times : Text → ClaimTimes) (cursor : Text) (before : NamespaceState ρ)
    (claims : List SessionClaim) (after : NamespaceState ρ) : Prop where
  ahead : ∀ c ∈ claims, behindCursor cursor c.sessionId c.claim.event = false
  source : ∀ c ∈ claims, ∀ t ∈ times c.sessionId, ∃ e ∈ before.awaiting t c.sessionId,
    c.orderKey = deliveryOrderKey c.sessionId e ∧ c.claim.event.publicEventId = e.publicEventId
  split : ∀ s, ∀ t ∈ times s,
    ((claims.filter (·.sessionId = s)).map (·.claim.event.publicEventId) ++
      (after.awaiting t s).map (·.publicEventId)).Perm ((before.awaiting t s).map (·.publicEventId))
  subset : ∀ s, ∀ t ∈ times s, after.awaiting t s ⊆ before.awaiting t s
  workable : ∀ s, Workable env (times s) before s → Workable env (times s) after s
  roster : after.roster = before.roster
  listed : after.retainedSessions ⊆ before.retainedSessions
  unlisted : ∀ s ∈ before.retainedSessions, s ∉ after.retainedSessions →
    ∀ t ∈ times s, after.awaiting t s = []
  leavesNone : LeavesNone before claims after

variable {env} {times : Text → ClaimTimes} {cursor : Text}

theorem Takes.refl (ns : NamespaceState ρ) : Takes env times cursor ns [] ns where
  ahead := fun _ h => absurd h not_mem_nil
  source := fun _ h => absurd h not_mem_nil
  split := fun _ _ _ => List.Perm.refl _
  subset := fun _ _ _ _ h => h
  workable := fun _ h => h
  roster := rfl
  listed := fun _ h => h
  unlisted := fun _ h hnot => absurd h hnot
  leavesNone := fun _ tx' htx' e' he' _ => .inr ⟨tx', htx', e', he', rfl, rfl⟩

theorem Takes.trans {a b c : NamespaceState ρ} {first second : List SessionClaim}
    (h1 : Takes env times cursor a first b) (h2 : Takes env times cursor b second c) :
    Takes env times cursor a (first ++ second) c where
  ahead := fun x hx => (mem_append.mp hx).elim (h1.ahead x) (h2.ahead x)
  source := by
    intro x hx t ht
    rcases mem_append.mp hx with hx | hx
    · exact h1.source x hx t ht
    · obtain ⟨e, he, hkey⟩ := h2.source x hx t ht
      exact ⟨e, h1.subset _ t ht he, hkey⟩
  split := by
    intro s t ht
    rw [filter_append, map_append, append_assoc]
    exact ((h2.split s t ht).append_left _).trans (h1.split s t ht)
  subset := fun s t ht _ h => h1.subset s t ht (h2.subset s t ht h)
  workable := fun s h => h2.workable s (h1.workable s h)
  roster := h2.roster.trans h1.roster
  listed := fun _ h => h1.listed (h2.listed h)
  unlisted := by
    intro s hs hnot t ht
    by_cases hmid : s ∈ b.retainedSessions
    · exact h2.unlisted s hmid hnot t ht
    · exact eq_nil_of_subset_nil (h1.unlisted s hs hmid t ht ▸ h2.subset s t ht)
  leavesNone := by
    intro s tx'' htx'' e'' he'' hclaimed
    rcases h2.leavesNone s tx'' htx'' e'' he'' hclaimed with
      ⟨x, hx, hfound⟩ | ⟨tx', htx', e', he', hid, hdelivery⟩
    · exact .inl ⟨x, mem_append_right _ hx, hfound⟩
    · rcases h1.leavesNone s tx' htx' e' he' (hdelivery ▸ hclaimed) with
        ⟨x, hx, hsession, hid', hfence⟩ | ⟨tx, htx, e, he, hid', hdelivery'⟩
      · exact .inl ⟨x, mem_append_left _ hx, hsession, hid'.trans hid, hdelivery ▸ hfence⟩
      · exact .inr ⟨tx, htx, e, he, hid'.trans hid, hdelivery'.trans hdelivery⟩

omit [DecidableEq ρ] in
@[simp] theorem store_self (ns : NamespaceState ρ) (sessionId : Text) (tx : SessionTransaction ρ) :
    (ns.store sessionId tx).transactions sessionId = some tx := if_pos rfl

omit [DecidableEq ρ] in
theorem store_other (ns : NamespaceState ρ) {sessionId other : Text} (tx : SessionTransaction ρ)
    (h : other ≠ sessionId) : (ns.store sessionId tx).transactions other = ns.transactions other :=
  if_neg h

omit [DecidableEq ρ] in
@[simp] theorem prune_transactions (ns : NamespaceState ρ) (sessionId : Text) :
    (ns.pruneRetainedSessionIfEmpty sessionId).transactions = ns.transactions := by
  unfold pruneRetainedSessionIfEmpty
  split <;> rfl

omit [DecidableEq ρ] in
@[simp] theorem prune_roster (ns : NamespaceState ρ) (sessionId : Text) :
    (ns.pruneRetainedSessionIfEmpty sessionId).roster = ns.roster := by
  unfold pruneRetainedSessionIfEmpty
  split <;> rfl

omit [DecidableEq ρ] in
theorem prune_subset (ns : NamespaceState ρ) (sessionId : Text) :
    (ns.pruneRetainedSessionIfEmpty sessionId).retainedSessions ⊆ ns.retainedSessions := by
  unfold pruneRetainedSessionIfEmpty
  split
  · exact fun _ h => h
  · exact filter_sublist.subset

omit [DecidableEq ρ] in
theorem awaiting_eq_nil_of_hasRetained {ns : NamespaceState ρ} {sessionId : Text}
    (h : ns.hasRetained sessionId = false) (now : Int) : ns.awaiting now sessionId = [] := by
  unfold hasRetained at h
  unfold awaiting
  cases htx : ns.transactions sessionId with
  | none => rfl
  | some tx =>
    rw [htx, Option.any_some, any_eq_false] at h
    refine filter_eq_nil_iff.mpr fun e he hawaits => ?_
    have hack := h (normalizeEvent e) (mem_map_of_mem he)
    rw [normalizeEvent_publicDelivery] at hack
    exact hack (decide_eq_true (OutboxEvent.state_ne_of_awaits hawaits))

omit [DecidableEq ρ] in
theorem prune_unlisted (ns : NamespaceState ρ) {sessionId s : Text} (hs : s ∈ ns.retainedSessions)
    (hnot : s ∉ (ns.pruneRetainedSessionIfEmpty sessionId).retainedSessions) (now : Int) :
    ns.awaiting now s = [] := by
  unfold pruneRetainedSessionIfEmpty at hnot
  split at hnot
  · exact absurd hs hnot
  · next hnone =>
    have hsame : s = sessionId := by
      by_contra hother
      exact hnot (mem_filter.mpr ⟨hs, decide_eq_true hother⟩)
    subst hsame
    exact awaiting_eq_nil_of_hasRetained (Bool.eq_false_iff.mpr hnone) now

omit [DecidableEq ρ] in
theorem awaiting_congr {ns ns' : NamespaceState ρ} {s : Text}
    (h : ns'.transactions s = ns.transactions s) (now : Int) :
    ns'.awaiting now s = ns.awaiting now s := by
  unfold awaiting
  rw [h]

end NamespaceState

/-- A visit to one session: what it claims, with the room for more that it had. -/
structure Visit {ρ : Type} [DecidableEq ρ] (env : Env ρ) (times : Text → ClaimTimes)
    (cursor s : Text)
    (room : Nat) (before : NamespaceState ρ) (claims : List SessionClaim)
    (after : NamespaceState ρ) :
    Prop where
  takes : before.Takes env times cursor claims after
  session : ∀ c ∈ claims, c.sessionId = s
  fits : claims.length ≤ room
  others : ∀ s' ≠ s, after.transactions s' = before.transactions s'
  spent : claims.length < room → ∀ t ∈ times s, ∀ e ∈ after.awaiting t s,
    behindCursor cursor s e = true

section Visits

variable {ρ : Type} [DecidableEq ρ] {env : Env ρ} (endpointIncarnation : ρ → Option Text)
    {times : Text → ClaimTimes}

theorem boundedPage_le (limit : Int) : boundedPage limit ≤ 128 := by
  unfold boundedPage
  omega

theorem boundedPage_pos (limit : Int) : 0 < boundedPage limit := by
  unfold boundedPage
  omega

variable {s : Text} {call : EnumerateCall} {ws : List Text}

theorem Visit.gone (ns : NamespaceState ρ) {cursor : Text} {room : Nat}
    (hgone : ns.transactions s = none) : Visit env times cursor s room ns [] ns where
  takes := .refl ns
  session := fun _ h => absurd h not_mem_nil
  fits := Nat.zero_le _
  others := fun _ _ => rfl
  spent := by
    intro _ t _ e he
    rw [NamespaceState.awaiting, hgone] at he
    cases he

theorem Visit.claim {ns : NamespaceState ρ} {cursor : Text} {options : ClaimOptions}
    {now commitAt : Int} {tx tx' : SessionTransaction ρ} {batch : List PublicDeliveryClaim}
    (htx : ns.transactions s = some tx) (hwork : ns.Workable env (times s) s)
    (hclaim : claimPublicDelivery env options now commitAt tx = .ok (batch, tx'))
    (hafter : options.afterOrderKey = afterOrderKey cursor s) (hoptions : options.leaseMs = none)
    (hnow : now ∈ times s) (hcommit : commitAt ∈ (times s).commits)
    (hlease : ∀ t ∈ times s, t < now + options.boundedLeaseMs) (incarnation : Option Text) :
    Visit env times cursor s options.boundedLimit ns (batch.map (⟨s, ·, incarnation⟩))
      ((ns.store s tx').pruneRetainedSessionIfEmpty s) := by
  obtain ⟨hname, haccepts, hsteady⟩ := hwork tx htx
  obtain ⟨hvalid, hbatch, -⟩ := claimPublicDelivery_ok hclaim
  have hbehind : ∀ e, options.behind s e = behindCursor cursor s e := by
    intro e
    unfold behindCursor ClaimOptions.behind
    rw [hafter]
  have hentry : ∀ x ∈ batch, ∃ e ∈ claimBatch env options now tx, ∃ fence,
      x.event = e.claim fence (now + options.boundedLeaseMs) := by
    intro x hx
    rw [hbatch] at hx
    obtain ⟨⟨e, i⟩, hentry, rfl⟩ := mem_map.mp hx
    have hmem := mem_map_of_mem (f := Prod.fst) hentry
    rw [zipIdx_map_fst] at hmem
    exact ⟨e, hmem, _, rfl⟩
  have hlength : batch.length = (claimBatch env options now tx).length := by
    rw [hbatch, length_map, length_zipIdx]
  have hbefore : ∀ t, ns.awaiting t s = awaiting t tx := by
    intro t
    rw [NamespaceState.awaiting, htx]
    rfl
  have hafter : ∀ t, ((ns.store s tx').pruneRetainedSessionIfEmpty s).awaiting t s =
      awaiting t tx' := by
    intro t
    rw [NamespaceState.awaiting, NamespaceState.prune_transactions, NamespaceState.store_self]
    rfl
  have hothers : ∀ s' ≠ s, ((ns.store s tx').pruneRetainedSessionIfEmpty s).transactions s' =
      ns.transactions s' := by
    intro s' hs'
    rw [NamespaceState.prune_transactions, ns.store_other tx' hs']
  refine { takes := ?_, session := ?_, fits := ?_, others := hothers, spent := ?_ }
  · refine { ahead := ?_, source := ?_, split := ?_, subset := ?_, workable := ?_, roster := ?_,
             listed := ?_, unlisted := ?_, leavesNone := ?_ }
    · intro c hc
      obtain ⟨x, hx, rfl⟩ := mem_map.mp hc
      obtain ⟨e, he, fence, hevent⟩ := hentry x hx
      have hahead := (claimBatch_awaits he).2
      rw [hname, hbehind] at hahead
      rw [hevent]
      exact hahead
    · intro c hc t ht
      obtain ⟨x, hx, rfl⟩ := mem_map.mp hc
      obtain ⟨e, he, fence, hevent⟩ := hentry x hx
      have hmem := claimBatch_subset he
      refine ⟨e, ?_, ?_, ?_⟩
      · rw [hbefore]
        refine mem_filter.mpr ⟨hmem, ?_⟩
        rw [hsteady t ht now hnow e hmem]
        exact (claimBatch_awaits he).1
      · rw [SessionClaim.orderKey, hevent]
        rfl
      · rw [hevent]
        rfl
    · intro s' t ht
      by_cases hs' : s' = s
      · subst hs'
        rw [hbefore, hafter, filter_eq_self.mpr (by simp), map_map]
        exact claim_split hsteady hclaim hnow hlease ht
      · have hnone : (batch.map (⟨s, ·, incarnation⟩ : PublicDeliveryClaim → SessionClaim)).filter
            (·.sessionId = s') = [] := by
          refine filter_eq_nil_iff.mpr fun c hc => ?_
          obtain ⟨x, -, rfl⟩ := mem_map.mp hc
          simpa using Ne.symm hs'
        rw [hnone, NamespaceState.awaiting_congr (hothers s' hs')]
        exact List.Perm.refl _
    · intro s' t ht e he
      by_cases hs' : s' = s
      · subst hs'
        rw [hafter] at he
        rw [hbefore]
        exact ((mem_awaiting_claim hclaim hlease ht).mp he).1
      · rwa [NamespaceState.awaiting_congr (hothers s' hs')] at he
    · intro s' hs tx'' htx''
      by_cases hs' : s' = s
      · subst hs'
        rw [NamespaceState.prune_transactions, NamespaceState.store_self] at htx''
        cases htx''
        exact ⟨(claimPublicDelivery_events hclaim).2.1.trans hname,
          haccepts.claim hclaim hoptions hnow hcommit, hsteady.claim hclaim hlease⟩
      · rw [hothers s' hs'] at htx''
        exact hs tx'' htx''
    · rw [NamespaceState.prune_roster]
      rfl
    · exact NamespaceState.prune_subset _ _
    · intro s' hs' hnot t ht
      rw [NamespaceState.awaiting, NamespaceState.prune_transactions]
      exact (ns.store s tx').prune_unlisted hs' hnot t
    · intro s' tx'' htx'' e' he' hclaimed
      by_cases hs' : s' = s
      · subst hs'
        rw [NamespaceState.prune_transactions, NamespaceState.store_self] at htx''
        cases htx''
        rcases claimPublicDelivery_claimed hclaim he' with
          ⟨c, hc, hid, hfence⟩ | ⟨e, he, hid, hdelivery, -⟩
        · exact .inl ⟨_, mem_map_of_mem hc, rfl, hid, hfence⟩
        · exact .inr ⟨tx, htx, e, he, hid, hdelivery⟩
      · rw [hothers s' hs'] at htx''
        exact .inr ⟨tx'', htx'', e', he', rfl, rfl⟩
  · intro c hc
    obtain ⟨x, -, rfl⟩ := mem_map.mp hc
    rfl
  · rw [length_map, hlength]
    exact length_take_le _ _
  · intro hroom t ht e he
    rw [length_map, hlength] at hroom
    rw [hafter] at he
    obtain ⟨hwaits, hleft⟩ := (mem_awaiting_claim hclaim hlease ht).mp he
    obtain ⟨hmem, hawaits⟩ := mem_filter.mp hwaits
    by_contra hahead
    rw [← hbehind, Bool.not_eq_true, ← hname] at hahead
    rw [hsteady t ht now hnow e hmem] at hawaits
    exact hleft (mem_claimBatch_of_room hroom hmem hawaits hahead)

def CallClock.Reads (clock : CallClock) (times : Text → ClaimTimes) : Prop :=
  ∀ s, clock.now s ∈ times s ∧ clock.commitAt s ∈ (times s).commits ∧
    ∀ t ∈ times s, t < clock.now s + PUBLIC_CLAIM_LEASE_MS

theorem claimSession_visit {d : Discovery ρ} (hclock : call.clock.Reads times)
    (hwork : d.ns.Workable env (times s) s)
    (hroom : d.claims.length < boundedPage call.limit) :
    ∃ claims d', claimSession env endpointIncarnation call s d = (.ok (), d') ∧
      d'.claims = d.claims ++ claims ∧
      Visit env times call.cursor s (boundedPage call.limit - d.claims.length) d.ns claims
        d'.ns := by
  unfold claimSession NamespaceState.claimPublicDelivery NamespaceState.withSession
  cases htx : d.ns.transactions s with
  | none =>
    refine ⟨[], d, ?_, (append_nil _).symm, .gone d.ns htx⟩
    simp only [Except.map, ne_eq, not_true_eq_false, ↓reduceIte, addBatch,
      NamespaceState.readSessionTransaction, htx, map_nil, append_nil]
  | some tx =>
    obtain ⟨hname, haccepts, -⟩ := hwork tx htx
    generalize hoptions : ({
      limit := some ((boundedPage call.limit : Int) - d.claims.length)
      afterOrderKey := afterOrderKey call.cursor s } : ClaimOptions) = options
    have hlimit : options.boundedLimit = boundedPage call.limit - d.claims.length := by
      have hle := boundedPage_le call.limit
      rw [← hoptions, ClaimOptions.boundedLimit, Option.getD_some]
      omega
    have hlease : options.boundedLeaseMs = PUBLIC_CLAIM_LEASE_MS := by
      rw [← hoptions]
      rfl
    have hafter : options.afterOrderKey = afterOrderKey call.cursor s := by rw [← hoptions]
    have hdefault : options.leaseMs = none := by rw [← hoptions]
    obtain ⟨batch, tx', hclaim⟩ :=
      haccepts tx .refl options (call.clock.now s) (call.clock.commitAt s) hdefault
      (hclock s).1 (hclock s).2.1
    obtain ⟨hvalid', hname', -, -⟩ := claimPublicDelivery_events hclaim
    have hread : ((d.ns.store s tx').pruneRetainedSessionIfEmpty s).readSessionTransaction env s =
        .ok (some tx') := by
      rw [NamespaceState.readSessionTransaction]
      simp [hname', hname, hvalid', normalizeOutbox_eq hvalid']
    have hvisit := Visit.claim htx hwork hclaim hafter hdefault (hclock s).1 (hclock s).2.1
      (fun t ht => hlease ▸ (hclock s).2.2 t ht)
      ((endpointIncarnation tx'.rest).filter (· ≠ []))
    rw [hlimit] at hvisit
    refine ⟨_, { d with
      claims := d.claims ++ _
      ns := (d.ns.store s tx').pruneRetainedSessionIfEmpty s }, ?_, rfl, hvisit⟩
    simp only [hname, ne_eq, not_true_eq_false, ↓reduceIte, hclaim, Except.map, addBatch, hread,
      Option.bind_some]

structure Sweep (env : Env ρ) (times : Text → ClaimTimes) (call : EnumerateCall) (ws : List Text)
    (d : Discovery ρ) (claims : List SessionClaim) (d' : Discovery ρ) : Prop where
  claims_eq : d'.claims = d.claims ++ claims
  takes : d.ns.Takes env times call.cursor claims d'.ns
  fits : d'.claims.length ≤ boundedPage call.limit
  session : ∀ c ∈ claims, c.sessionId ∈ ws ∧ passesSession call.cursor c.sessionId = false
  others : ∀ s ∉ ws, d'.ns.transactions s = d.ns.transactions s
  spent : ∀ s ∈ ws, passesSession call.cursor s = false →
    (d'.claims.length < boundedPage call.limit ∨ ∃ c ∈ claims, ¬ stringLe c.sessionId s) →
      ∀ t ∈ times s, ∀ e ∈ d'.ns.awaiting t s, behindCursor call.cursor s e = true

theorem Sweep.nothing {d d' : Discovery ρ} (hclaims : d'.claims = d.claims) (hns : d'.ns = d.ns)
    (hfull : d.claims.length = boundedPage call.limit ∨ d.claims.length ≤ boundedPage call.limit ∧
      ws = []) :
    Sweep env times call ws d [] d' where
  claims_eq := hclaims.trans (append_nil _).symm
  takes := by
    rw [hns]
    exact .refl d.ns
  fits := by
    rw [hclaims]
    omega
  session := fun _ h => absurd h not_mem_nil
  others := fun _ _ => by rw [hns]
  spent := by
    rintro s hs - (hroom | ⟨c, hc, -⟩)
    · rw [hclaims] at hroom
      rcases hfull with hfull | ⟨-, rfl⟩
      · omega
      · cases hs
    · cases hc

theorem enumerateLoop_sweep (hsignal : ∀ s, call.signal s = none) (hclock : call.clock.Reads times)
    (hsorted : ws.Pairwise fun a b => ¬ stringLe b a) {d : Discovery ρ}
    (hwork : ∀ s ∈ ws, d.ns.Workable env (times s) s)
    (hroom : d.claims.length ≤ boundedPage call.limit) :
    ∃ claims d', enumerateLoop env endpointIncarnation call ws d = (.ok (), d') ∧
      Sweep env times call ws d claims d' := by
  induction ws generalizing d with
  | nil => exact ⟨[], d, rfl, .nothing rfl rfl (.inr ⟨hroom, rfl⟩)⟩
  | cons s rest ih =>
    obtain ⟨hfirst, hrest⟩ := pairwise_cons.mp hsorted
    rw [enumerateLoop]
    simp only [hsignal]
    split
    · next hpasses =>
      -- The session is before that of the cursor.
      obtain ⟨claims, d', heq, hsweep⟩ := ih hrest
        (d := { d with lastVisitedSession := some s })
        (fun s' hs' => hwork s' (mem_cons_of_mem _ hs')) hroom
      refine ⟨claims, d', heq, hsweep.claims_eq, hsweep.takes, hsweep.fits, ?_, ?_, ?_⟩
      · exact fun c hc => ⟨mem_cons_of_mem _ (hsweep.session c hc).1, (hsweep.session c hc).2⟩
      · exact fun s' hs' => hsweep.others s' fun h => hs' (mem_cons_of_mem _ h)
      · intro s' hs' hstays
        rcases mem_cons.mp hs' with rfl | hs'
        · rw [hpasses] at hstays
          cases hstays
        · exact hsweep.spent s' hs' hstays
    · next hstays =>
      split
      · next hfull => exact ⟨[], _, rfl, .nothing rfl rfl (.inl (by omega))⟩
      · next hfree =>
        rw [Bool.not_eq_true] at hstays
        obtain ⟨first, d1, hvisited, hclaims, hvisit⟩ := claimSession_visit endpointIncarnation
          (d := { d with lastVisitedSession := some s }) hclock (hwork s mem_cons_self)
          (Nat.lt_of_not_le hfree)
        have hfits := hvisit.fits
        have hlength : d1.claims.length = d.claims.length + first.length := by
          rw [hclaims, length_append]
        rw [hvisited]
        dsimp only at hfits ⊢
        split
        · next hfull =>
          -- The page is full: nothing of the other sessions is read.
          refine ⟨first, d1, rfl, hclaims, hvisit.takes, by omega, ?_, ?_, ?_⟩
          · exact fun c hc => hvisit.session c hc ▸ ⟨mem_cons_self, hvisit.session c hc ▸ hstays⟩
          · exact fun s' hs' => hvisit.others s' fun h => hs' (h ▸ mem_cons_self)
          · rintro s' hs' - (hmore | ⟨c, hc, hlater⟩)
            · omega
            · rw [hvisit.session c hc] at hlater
              rcases mem_cons.mp hs' with rfl | hs'
              · exact absurd (stringLe_refl _) hlater
              · exact absurd ((stringLe_total s s').resolve_right (hfirst s' hs')) hlater
        · next hmore =>
          have hnot : s ∉ rest := fun h => hfirst s h (stringLe_refl s)
          have hwork1 : ∀ s' ∈ rest, d1.ns.Workable env (times s') s' := fun s' hs' =>
            hvisit.takes.workable s' (hwork s' (mem_cons_of_mem _ hs'))
          obtain ⟨second, d', heq, hsweep⟩ := ih hrest hwork1 (by omega)
          refine ⟨first ++ second, d', heq, ?_, hvisit.takes.trans hsweep.takes, hsweep.fits,
            ?_, ?_, ?_⟩
          · rw [hsweep.claims_eq, hclaims, append_assoc]
          · intro c hc
            rcases mem_append.mp hc with hc | hc
            · exact hvisit.session c hc ▸ ⟨mem_cons_self, hvisit.session c hc ▸ hstays⟩
            · exact ⟨mem_cons_of_mem _ (hsweep.session c hc).1, (hsweep.session c hc).2⟩
          · intro s' hs'
            rw [hsweep.others s' fun h => hs' (mem_cons_of_mem _ h)]
            exact hvisit.others s' fun h => hs' (h ▸ mem_cons_self)
          · intro s' hs' hstays' hdone t ht e he
            rcases mem_cons.mp hs' with rfl | hs'
            · rw [NamespaceState.awaiting_congr (hsweep.others s' hnot)] at he
              exact hvisit.spent (by dsimp only; omega) t ht e he
            · refine hsweep.spent s' hs' hstays' (hdone.imp_right ?_) t ht e he
              rintro ⟨c, hc, hlater⟩
              rcases mem_append.mp hc with hc | hc
              · rw [hvisit.session c hc] at hlater
                exact absurd ((stringLe_total s s').resolve_right (hfirst s' hs')) hlater
              · exact ⟨c, hc, hlater⟩

end Visits

end Vibrato.Coordinator
