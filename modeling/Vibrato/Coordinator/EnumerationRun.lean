import Vibrato.Coordinator.EnumerationVisits

namespace Vibrato.Coordinator

open List Option

structure CallState (ρ : Type) where
  cursor : Text
  ns : NamespaceState ρ

section Run

variable {ρ : Type} [DecidableEq ρ] (env : Env ρ) (endpointIncarnation : ρ → Option Text)
  (limit : Int) (clocks : Nat → CallClock) (ns : NamespaceState ρ)

def CallState.call (clock : CallClock) (s : CallState ρ) : Except Text Page × NamespaceState ρ :=
  enumeratePublicDeliveries env endpointIncarnation { cursor := s.cursor, limit, clock } s.ns

/-- The state of call `n`, if the calls before it returned a cursor. -/
def callAt : Nat → Option (CallState ρ)
  | 0 => some ⟨[], ns⟩
  | n + 1 => (callAt n).bind fun s =>
    match s.call env endpointIncarnation limit (clocks n) with
    | (.ok page, ns) => page.nextCursor.map (⟨·, ns⟩)
    | (.error _, _) => none

def pageAt (n : Nat) : Option Page :=
  (callAt env endpointIncarnation limit clocks ns n).bind fun s =>
    (s.call env endpointIncarnation limit (clocks n)).1.toOption

/-- The claims of the first `n` calls. -/
def returned (n : Nat) : List SessionClaim :=
  (List.range n).flatMap fun i =>
    (pageAt env endpointIncarnation limit clocks ns i).elim [] Page.claims

/-- The calls end, they return each delivery of a listed session that waits once and nothing else,
and no call leaves a delivery claimed that it does not return. -/
def EnumeratesAll : Prop :=
  (∃ last page, pageAt env endpointIncarnation limit clocks ns last = some page ∧
    page.nextCursor = none ∧
    (∀ c ∈ returned env endpointIncarnation limit clocks ns (last + 1), c.sessionId ∈ ns.sessions) ∧
    ∀ s ∈ ns.sessions,
      (((returned env endpointIncarnation limit clocks ns (last + 1)).filter (·.sessionId = s)).map
        (·.claim.event.publicEventId)).Perm
          ((ns.awaiting ((clocks 0).now s) s).map (·.publicEventId))) ∧
  ∀ n s, callAt env endpointIncarnation limit clocks ns n = some s →
    ∃ page ns', s.call env endpointIncarnation limit (clocks n) = (.ok page, ns') ∧
      s.ns.LeavesNone page.claims ns'

def callTimes (s : Text) : ClaimTimes :=
  ⟨Set.range fun n => (clocks n).now s, Set.range fun n => (clocks n).commitAt s⟩

/-- The deliveries that wait do not change while the calls are made: no claim expires meanwhile. -/
structure Unchanging : Prop where
  steady : ∀ s ∈ ns.sessions, ∀ tx, ns.transactions s = some tx →
    Steady (callTimes clocks s).nows tx
  lease : ∀ m n s, (clocks m).now s < (clocks n).now s + PUBLIC_CLAIM_LEASE_MS

def TakesClaims : Prop :=
  ∀ s ∈ ns.sessions, ∀ tx, ns.transactions s = some tx → tx.sessionId = s ∧
    Accepts env (callTimes clocks s) tx

/-- What waits is within reach of a call: something waits in the first of the listed sessions, if
anything does, and what waits in the session of the cursor is after the cursor. -/
structure InReach (clock : CallClock) (s : CallState ρ) : Prop where
  window : (∀ id ∈ s.ns.sessions, s.ns.awaiting (clock.now id) id = []) ∨
    ∃ id ∈ boundedSessions s.cursor limit s.ns.sessions, s.ns.awaiting (clock.now id) id ≠ []
  ahead : ∀ e ∈ s.ns.awaiting (clock.now (cursorSession s.cursor)) (cursorSession s.cursor),
    ¬ stringLe (deliveryOrderKey (cursorSession s.cursor) e) s.cursor

instance (clock : CallClock) (s : CallState ρ) : Decidable (InReach limit clock s) :=
  decidable_of_iff (_ ∧ _) ⟨fun h => ⟨h.1, h.2⟩, fun h => ⟨h.window, h.ahead⟩⟩

end Run

section Cursors

variable {ρ : Type} {s : Text}

theorem mem_sessions {ns : NamespaceState ρ} :
    s ∈ ns.sessions ↔ (s ∈ ns.roster ∨ s ∈ ns.retainedSessions) ∧ sessionIdPattern s = true := by
  rw [NamespaceState.sessions, mem_insertionSort, mem_filter, mem_dedup, mem_append]

theorem sessions_sorted (ns : NamespaceState ρ) :
    ns.sessions.Pairwise fun a b => ¬ stringLe b a := by
  have hsorted : ns.sessions.Pairwise stringLe := pairwise_insertionSort _ _
  have hdistinct : ns.sessions.Nodup :=
    (perm_insertionSort _ _).nodup_iff.mpr ((nodup_dedup _).filter _)
  refine (hsorted.and hdistinct).imp_of_mem ?_
  rintro a b ha hb ⟨hle, hne⟩ hge
  exact hne (stringLe_antisymm (mem_sessions.mp ha).2 (mem_sessions.mp hb).2 hle hge)

theorem mem_take_of_before {l : List Text} (hsorted : l.Pairwise fun a b => ¬ stringLe b a)
    {k : Nat}
    {a b : Text} (hb : b ∈ l.take k) (ha : a ∈ l) (h : ¬ stringLe b a) : a ∈ l.take k := by
  rw [← take_append_drop k l, pairwise_append] at hsorted
  rw [← take_append_drop k l, mem_append] at ha
  rcases ha with ha | ha
  · exact ha
  · have hlater := hsorted.2.2 b hb a ha
    exact absurd ((stringLe_total b a).resolve_right hlater) h

def OrderCursor (listed : List Text) (cursor : Text) : Prop :=
  cursor = [] ∨ ∃ id ∈ listed, sessionIdPattern id = true ∧ ∃ e, cursor = deliveryOrderKey id e

variable {listed : List Text} {cursor : Text}

theorem OrderCursor.nil (listed : List Text) : OrderCursor listed [] := .inl rfl

theorem OrderCursor.roundRobin (h : OrderCursor listed cursor) : roundRobin cursor = false := by
  rcases h with rfl | ⟨id, -, hid, e, rfl⟩
  · decide
  · exact roundRobin_orderKey hid e

theorem OrderCursor.boundedSessions (h : OrderCursor listed cursor) (limit : Int)
    (sessions : List Text) :
    boundedSessions cursor limit sessions = sessions.take (max 1 (boundedPage limit * 2)) := by
  rw [Coordinator.boundedSessions, orderedSessions, h.roundRobin]
  rfl

theorem deliveryOrderKey_ne_nil (s : Text) (e : OutboxEvent) :
    ¬ stringLe (deliveryOrderKey s e) [] := by
  have hlength : 0 < (Text.utf16 (deliveryOrderKey s e)).length := by
    simp only [deliveryOrderKey, append_assoc, cons_append, utf16_append, utf16_cons_zero,
      length_append, length_cons]
    omega
  obtain ⟨u, units, hunits⟩ := exists_cons_of_length_pos hlength
  refine not_le.mpr ?_
  rw [hunits]
  exact nil_lt_cons u units

variable {e : OutboxEvent}

variable (h : OrderCursor listed cursor)
include h

theorem behindCursor_iff :
    behindCursor cursor s e = true ↔ s = cursorSession cursor ∧
      stringLe (deliveryOrderKey s e) cursor := by
  unfold behindCursor afterOrderKey ClaimOptions.behind
  rw [h.roundRobin]
  by_cases hs : s = cursorSession cursor
  · simp only [hs, and_self, ↓reduceIte, true_and]
    rw [Bool.and_eq_true, decide_eq_true_eq, decide_eq_true_eq]
    refine ⟨And.right, fun hle => ⟨?_, hle⟩⟩
    rintro rfl
    exact deliveryOrderKey_ne_nil _ _ hle
  · simp [hs]

theorem passesSession_iff :
    passesSession cursor s = true ↔ cursorSession cursor ≠ [] ∧
      ¬ stringLe (cursorSession cursor) s := by
  simp only [passesSession, h.roundRobin, Bool.not_false, Bool.true_and, Bool.and_eq_true,
    decide_eq_true_eq, Bool.not_eq_true', decide_eq_false_iff_not]

theorem after_cursor (hs : sessionIdPattern s = true)
    (hstays : passesSession cursor s = false) (hahead : behindCursor cursor s e = false) :
    ¬ stringLe (deliveryOrderKey s e) cursor := by
  intro hle
  have hother : s ≠ cursorSession cursor := by
    intro hsame
    rw [(behindCursor_iff h).mpr ⟨hsame, hle⟩] at hahead
    cases hahead
  rcases h with rfl | ⟨id, hmem, hid, e', rfl⟩
  · exact deliveryOrderKey_ne_nil _ _ hle
  · have hcursor : OrderCursor listed (deliveryOrderKey id e') := .inr ⟨id, hmem, hid, e', rfl⟩
    rw [cursorSession_orderKey hid] at hother
    have hge : stringLe id s := by
      by_contra hbefore
      have hpasses := (passesSession_iff (s := s) hcursor).mpr
        (by rw [cursorSession_orderKey hid]; exact ⟨sessionIdPattern_ne_nil hid, hbefore⟩)
      rw [hpasses] at hstays
      cases hstays
    have hlater : ¬ stringLe s id := fun hback => hother (stringLe_antisymm hs hid hback hge)
    exact deliveryOrderKey_lt hs hlater e' e hle

end Cursors

section Calls

variable {ρ : Type} [DecidableEq ρ] {env : Env ρ} {endpointIncarnation : ρ → Option Text}
    {limit : Int}
  {times : Text → ClaimTimes} {listed : List Text}

/-- What a call does that is made with a cursor of the calls. -/
structure CallSpec (env : Env ρ) (limit : Int) (times : Text → ClaimTimes) (s : CallState ρ)
    (page : Page)
    (ns' : NamespaceState ρ) : Prop where
  takes : s.ns.Takes env times s.cursor page.claims ns'
  next : page.nextCursor = page.claims.getLast?.map SessionClaim.orderKey
  session : ∀ c ∈ page.claims, c.sessionId ∈ boundedSessions s.cursor limit s.ns.sessions
  after : ∀ c ∈ page.claims, ¬ stringLe c.orderKey s.cursor
  spent : ∀ id ∈ boundedSessions s.cursor limit s.ns.sessions, passesSession s.cursor id = false →
    (page.claims = [] ∨ ∃ c ∈ page.claims, ¬ stringLe c.sessionId id) →
      ∀ t ∈ times id, ∀ e ∈ ns'.awaiting t id, behindCursor s.cursor id e = true

theorem mem_of_mem_boundedSessions {cursor : Text}
    (hcursor : OrderCursor listed cursor) {sessions : List Text} {id : Text}
    (h : id ∈ boundedSessions cursor limit sessions) : id ∈ sessions :=
  mem_of_mem_take (hcursor.boundedSessions limit sessions ▸ h)

theorem call_spec {clock : CallClock} (hclock : clock.Reads times) {s : CallState ρ}
    (hcursor : OrderCursor listed s.cursor)
    (hwork : ∀ id ∈ s.ns.sessions, s.ns.Workable env (times id) id) :
    ∃ page ns', s.call env endpointIncarnation limit clock = (.ok page, ns') ∧
      CallSpec env limit times s page ns' := by
  have hmem : ∀ id ∈ boundedSessions s.cursor limit s.ns.sessions, id ∈ s.ns.sessions :=
    fun id => mem_of_mem_boundedSessions hcursor
  have hsorted :
      (boundedSessions s.cursor limit s.ns.sessions).Pairwise fun a b => ¬ stringLe b a := by
    rw [hcursor.boundedSessions]
    exact (sessions_sorted s.ns).sublist (take_sublist _ _)
  let call : EnumerateCall := { cursor := s.cursor, limit, clock }
  have hsignal : ∀ id, call.signal id = none := fun _ => rfl
  obtain ⟨claims, d, hloop, hsweep⟩ :=
    enumerateLoop_sweep endpointIncarnation (d := ⟨[], none, s.ns⟩)
    hsignal hclock hsorted (fun id hid => hwork id (hmem id hid)) (Nat.zero_le _)
  have hclaims : d.claims = claims := hsweep.claims_eq
  have hafter : ∀ c ∈ claims, ¬ stringLe c.orderKey s.cursor := by
    intro c hc
    obtain ⟨hin, hstays⟩ := hsweep.session c hc
    exact after_cursor hcursor (mem_sessions.mp (hmem _ hin)).2 hstays (hsweep.takes.ahead c hc)
  -- Every claim is after the cursor, so that the filter after the loop drops none of them.
  have hpage : pageOf call d = ⟨claims, claims.getLast?.map SessionClaim.orderKey⟩ := by
    have hfilter : (d.claims.filter fun c => !decide (stringLe c.orderKey s.cursor)) = claims := by
      rw [hclaims]
      exact filter_eq_self.mpr fun c hc => by simp [hafter c hc]
    have htake : claims.take (boundedPage limit) = claims :=
      take_of_length_le (hclaims ▸ hsweep.fits)
    simp only [pageOf, call, hcursor.roundRobin, Bool.false_eq_true, ↓reduceIte, hfilter, htake]
  refine ⟨⟨claims, claims.getLast?.map SessionClaim.orderKey⟩, d.ns, ?_, hsweep.takes, rfl,
    fun c hc => (hsweep.session c hc).1, hafter, ?_⟩
  · rw [CallState.call, enumeratePublicDeliveries, hloop]
    dsimp only
    rw [hpage]
  · intro id hid hstays hdone
    refine hsweep.spent id hid hstays (hdone.imp_left ?_)
    rintro rfl
    rw [hclaims]
    exact boundedPage_pos limit

theorem CallSpec.ends_iff {s : CallState ρ} {page : Page} {ns' : NamespaceState ρ}
    (h : CallSpec env limit times s page ns') : page.nextCursor = none ↔ page.claims = [] := by
  rw [h.next, map_eq_none_iff, getLast?_eq_none_iff]

theorem NamespaceState.Takes.sessions {cursor : Text} {before after : NamespaceState ρ}
    {claims : List SessionClaim} (h : before.Takes env times cursor claims after) :
    after.sessions ⊆ before.sessions ∧
      ∀ id ∈ before.sessions, id ∉ after.sessions → ∀ t ∈ times id, after.awaiting t id = [] := by
  constructor
  · intro id hid
    obtain ⟨hlisted, hpattern⟩ := mem_sessions.mp hid
    exact mem_sessions.mpr ⟨hlisted.imp (h.roster ▸ ·) (h.listed ·), hpattern⟩
  · intro id hid hnot
    obtain ⟨hlisted, hpattern⟩ := mem_sessions.mp hid
    rcases hlisted with hroster | hretained
    · exact absurd (mem_sessions.mpr ⟨.inl (h.roster ▸ hroster), hpattern⟩) hnot
    · exact h.unlisted id hretained fun hkept => hnot (mem_sessions.mpr ⟨.inr hkept, hpattern⟩)

end Calls

section Invariant

variable {ρ : Type} [DecidableEq ρ] (env : Env ρ) (times : Text → ClaimTimes)
    (ns : NamespaceState ρ)

/-- What holds between the calls: what they returned and what still waits make up what waited at
first. -/
structure Between (s : CallState ρ) (done : List SessionClaim) : Prop where
  cursor : OrderCursor ns.sessions s.cursor
  listed : s.ns.sessions ⊆ ns.sessions
  unlisted : ∀ id ∈ ns.sessions, id ∉ s.ns.sessions → ∀ t ∈ times id, s.ns.awaiting t id = []
  workable : ∀ id ∈ ns.sessions, s.ns.Workable env (times id) id
  session : ∀ c ∈ done, c.sessionId ∈ ns.sessions
  split : ∀ id, ∀ t ∈ times id,
    ((done.filter (·.sessionId = id)).map (·.claim.event.publicEventId) ++
      (s.ns.awaiting t id).map (·.publicEventId)).Perm ((ns.awaiting t id).map (·.publicEventId))

variable {env times ns} {limit : Int} {s : CallState ρ} {done : List SessionClaim} {page : Page}
  {ns' : NamespaceState ρ}

theorem Between.page_listed (h : Between env times ns s done)
    (hspec : CallSpec env limit times s page ns')
    {c : SessionClaim} (hc : c ∈ page.claims) : c.sessionId ∈ ns.sessions :=
  h.listed (mem_of_mem_boundedSessions h.cursor (hspec.session c hc))

theorem Between.next_cursor (h : Between env times ns s done)
    (hspec : CallSpec env limit times s page ns') {next : Text}
    (hnext : page.nextCursor = some next) :
    ∃ c ∈ page.claims, next = c.orderKey ∧ sessionIdPattern c.sessionId = true := by
  rw [hspec.next] at hnext
  obtain ⟨c, hlast, rfl⟩ := map_eq_some_iff.mp hnext
  have hc := mem_of_getLast? hlast
  exact ⟨c, hc, rfl, (mem_sessions.mp (h.page_listed hspec hc)).2⟩

theorem Between.step (h : Between env times ns s done) (hspec : CallSpec env limit times s page ns')
    {cursor : Text} (hcursor : OrderCursor ns.sessions cursor) :
    Between env times ns ⟨cursor, ns'⟩ (done ++ page.claims) where
  cursor := hcursor
  listed := fun _ hid => h.listed (hspec.takes.sessions.1 hid)
  unlisted := by
    intro id hid hnot t ht
    by_cases hmid : id ∈ s.ns.sessions
    · exact hspec.takes.sessions.2 id hmid hnot t ht
    · exact eq_nil_of_subset_nil (h.unlisted id hid hmid t ht ▸ hspec.takes.subset id t ht)
  workable := fun id hid => hspec.takes.workable id (h.workable id hid)
  session := fun c hc => (mem_append.mp hc).elim (h.session c) (h.page_listed hspec)
  split := by
    intro id t ht
    rw [filter_append, map_append, append_assoc]
    exact ((hspec.takes.split id t ht).append_left _).trans (h.split id t ht)

variable {id : Text} {t : Int} {clock : CallClock}

theorem Between.awaiting_eq (h : Between env times ns s done) (hid : id ∈ ns.sessions)
    {t' : Int} (ht : t ∈ times id) (ht' : t' ∈ times id) :
    s.ns.awaiting t id = s.ns.awaiting t' id := by
  unfold NamespaceState.awaiting
  cases htx : s.ns.transactions id with
  | none => rfl
  | some tx => exact filter_congr fun e he => (h.workable id hid tx htx).2.2 t ht t' ht' e he

theorem Between.distinct (h : Between env times ns s done) {clock : CallClock}
    (hclock : clock.Reads times)
    (hid : id ∈ ns.sessions) (t : Int) : ((s.ns.awaiting t id).map (·.publicEventId)).Nodup := by
  unfold NamespaceState.awaiting
  cases htx : s.ns.transactions id with
  | none => exact nodup_nil
  | some tx =>
    obtain ⟨claims, tx', hclaim⟩ := (h.workable id hid tx htx).2.1 tx .refl {} _ _ rfl (hclock id).1
      (hclock id).2.1
    exact awaiting_ids_distinct (claimPublicDelivery_ok hclaim).1 t

def NoneBehind (times : Text → ClaimTimes) (ns : NamespaceState ρ) (s : CallState ρ) : Prop :=
  ∀ id ∈ ns.sessions, passesSession s.cursor id = true → ∀ t ∈ times id, s.ns.awaiting t id = []

theorem CallSpec.nothing_left (hspec : CallSpec env limit times s page ns')
    (h : Between env times ns s done) (hnone : NoneBehind times ns s)
    (hreach : InReach limit clock s)
    (hclock : clock.Reads times) (hid : id ∈ ns.sessions)
    (hin : id ∈ s.ns.sessions → id ∈ boundedSessions s.cursor limit s.ns.sessions)
    (hdone : page.claims = [] ∨ ∃ c ∈ page.claims, ¬ stringLe c.sessionId id)
    (ht : t ∈ times id) : ns'.awaiting t id = [] := by
  have hsubset := hspec.takes.subset id t ht
  cases hstays : passesSession s.cursor id with
  | true => exact eq_nil_of_subset_nil (hnone id hid hstays t ht ▸ hsubset)
  | false =>
    by_cases hmem : id ∈ s.ns.sessions
    · refine eq_nil_iff_forall_not_mem.mpr fun e he => ?_
      obtain ⟨rfl, hle⟩ :=
        (behindCursor_iff h.cursor).mp (hspec.spent id (hin hmem) hstays hdone t ht e he)
      exact hreach.ahead e (h.awaiting_eq hid ht (hclock _).1 ▸ hsubset he) hle
    · exact eq_nil_of_subset_nil (h.unlisted id hid hmem t ht ▸ hsubset)

theorem NoneBehind.step (hnone : NoneBehind times ns s)
    (hspec : CallSpec env limit times s page ns') (h : Between env times ns s done)
    (hreach : InReach limit clock s) (hclock : clock.Reads times) {next : Text}
    (hnext : page.nextCursor = some next) : NoneBehind times ns ⟨next, ns'⟩ := by
  intro id hid hpasses t ht
  obtain ⟨c, hc, rfl, hpattern⟩ := h.next_cursor hspec hnext
  have hcursor : OrderCursor ns.sessions c.orderKey :=
    .inr ⟨c.sessionId, h.page_listed hspec hc, hpattern, c.claim.event, rfl⟩
  have hbefore := ((passesSession_iff hcursor).mp hpasses).2
  rw [SessionClaim.orderKey, cursorSession_orderKey hpattern] at hbefore
  refine hspec.nothing_left h hnone hreach hclock hid (fun hmem => ?_) (.inr ⟨c, hc, hbefore⟩) ht
  have hin := hspec.session c hc
  rw [h.cursor.boundedSessions] at hin ⊢
  exact mem_take_of_before (sessions_sorted s.ns) hin hmem hbefore

theorem CallSpec.keeps_behind (hspec : CallSpec env limit times s page ns') (ht : t ∈ times id)
    (hdistinct : ((s.ns.awaiting t id).map (·.publicEventId)).Nodup) {e : OutboxEvent}
    (he : e ∈ s.ns.awaiting t id) (hbehind : stringLe (deliveryOrderKey id e) s.cursor) :
    e ∈ ns'.awaiting t id := by
  have hid : e.publicEventId ∈ (s.ns.awaiting t id).map (·.publicEventId) := mem_map_of_mem he
  rcases mem_append.mp ((hspec.takes.split id t ht).mem_iff.mpr hid) with hclaimed | hleft
  · obtain ⟨c, hc, hsame⟩ := mem_map.mp hclaimed
    obtain ⟨hpage, hsession⟩ := mem_filter.mp hc
    rw [decide_eq_true_eq] at hsession
    subst hsession
    obtain ⟨e', he', hkey, hid'⟩ := hspec.takes.source c hpage t ht
    have heq : e' = e := inj_on_of_nodup_map hdistinct he' he (hid'.symm.trans hsame)
    rw [← heq, ← hkey] at hbehind
    exact absurd hbehind (hspec.after c hpage)
  · obtain ⟨e', he', hsame⟩ := mem_map.mp hleft
    have heq : e' = e :=
      inj_on_of_nodup_map hdistinct (hspec.takes.subset id t ht he') he hsame
    exact heq ▸ he'

end Invariant

section Calls

variable {ρ : Type} [DecidableEq ρ] {env : Env ρ} {endpointIncarnation : ρ → Option Text}
    {limit : Int}
  {clocks : Nat → CallClock} {ns : NamespaceState ρ}

omit [DecidableEq ρ] in
theorem Unchanging.reads (h : Unchanging clocks ns) (n : Nat) :
    (clocks n).Reads (callTimes clocks) := by
  refine fun s => ⟨⟨n, rfl⟩, ⟨n, rfl⟩, ?_⟩
  rintro t ⟨m, rfl⟩
  exact h.lease m n s

variable {last m n : Nat} {id : Text} {s : CallState ρ} {ns' : NamespaceState ρ} {page : Page}

theorem callAt_succ (hs : callAt env endpointIncarnation limit clocks ns n = some s)
    (hcall : s.call env endpointIncarnation limit (clocks n) = (.ok page, ns')) :
    callAt env endpointIncarnation limit clocks ns (n + 1) = page.nextCursor.map (⟨·, ns'⟩) := by
  rw [callAt, hs, bind_some, hcall]

theorem pageAt_eq (hs : callAt env endpointIncarnation limit clocks ns n = some s)
    (hcall : s.call env endpointIncarnation limit (clocks n) = (.ok page, ns')) :
    pageAt env endpointIncarnation limit clocks ns n = some page := by
  rw [pageAt, hs, bind_some, hcall]
  rfl

theorem returned_succ (hpage : pageAt env endpointIncarnation limit clocks ns n = some page) :
    returned env endpointIncarnation limit clocks ns (n + 1) =
      returned env endpointIncarnation limit clocks ns n ++ page.claims := by
  rw [returned, range_succ, flatMap_append, flatMap_singleton, hpage]
  rfl

theorem callAt_none_of_le (hle : m ≤ n)
    (hm : callAt env endpointIncarnation limit clocks ns m = none) :
    callAt env endpointIncarnation limit clocks ns n = none := by
  induction n, hle using Nat.le_induction with
  | base => exact hm
  | succ n _ ih => rw [callAt, ih, bind_none]

theorem between_at (hchange : Unchanging clocks ns) (htakes : TakesClaims env clocks ns)
    (hs : callAt env endpointIncarnation limit clocks ns n = some s) :
    Between env (callTimes clocks) ns s (returned env endpointIncarnation limit clocks ns n) ∧
      ∃ page ns', s.call env endpointIncarnation limit (clocks n) = (.ok page, ns') ∧
        CallSpec env limit (callTimes clocks) s page ns' := by
  induction n generalizing s with
  | zero =>
    cases hs
    have hwork :
        ∀ id ∈ ns.sessions, ns.Workable env (callTimes clocks id) id := fun id hid tx htx =>
      ⟨(htakes id hid tx htx).1, (htakes id hid tx htx).2, hchange.steady id hid tx htx⟩
    have hcursor := OrderCursor.nil ns.sessions
    exact ⟨⟨hcursor, fun _ h => h, fun _ h hnot => absurd h hnot, hwork,
      fun _ h => absurd h not_mem_nil, fun _ _ _ => List.Perm.refl _⟩,
      call_spec (hchange.reads 0) hcursor hwork⟩
  | succ n ih =>
    cases hprev : callAt env endpointIncarnation limit clocks ns n with
    | none =>
      rw [callAt_none_of_le (Nat.le_succ n) hprev] at hs
      cases hs
    | some prev =>
      obtain ⟨hbetween, page, ns', hcall, hspec⟩ := ih hprev
      rw [callAt_succ hprev hcall] at hs
      obtain ⟨next, hnext, rfl⟩ := map_eq_some_iff.mp hs
      obtain ⟨c, hc, rfl, hpattern⟩ := hbetween.next_cursor hspec hnext
      have hcursor : OrderCursor ns.sessions c.orderKey :=
        .inr ⟨c.sessionId, hbetween.page_listed hspec hc, hpattern, c.claim.event, rfl⟩
      rw [returned_succ (pageAt_eq hprev hcall)]
      have hnow := hbetween.step hspec hcursor
      exact ⟨hnow, call_spec (hchange.reads (n + 1)) hcursor fun id hid =>
        hnow.workable id (hnow.listed hid)⟩

def waiting (clocks : Nat → CallClock) (listed : List Text) (ns : NamespaceState ρ) : Nat :=
  (listed.map fun id => (ns.awaiting ((clocks 0).now id) id).length).sum

theorem CallSpec.waiting_lt
    (hspec : CallSpec env limit (callTimes clocks) s page ns') {listed : List Text}
    {c : SessionClaim}
    (hc : c ∈ page.claims) (hlisted : c.sessionId ∈ listed) :
    waiting clocks listed ns' < waiting clocks listed s.ns := by
  have hlength : ∀ id, (page.claims.filter (·.sessionId = id)).length +
      (ns'.awaiting ((clocks 0).now id) id).length =
        (s.ns.awaiting ((clocks 0).now id) id).length := by
    intro id
    have hperm := (hspec.takes.split id _ ⟨0, rfl⟩).length_eq
    rwa [length_append, length_map, length_map, length_map] at hperm
  refine sum_lt_sum _ _ (fun id _ => ?_) ⟨c.sessionId, hlisted, ?_⟩
  · have := hlength id
    omega
  · have hpos : 0 < (page.claims.filter (·.sessionId = c.sessionId)).length :=
      length_pos_of_mem (mem_filter.mpr ⟨hc, decide_eq_true rfl⟩)
    have := hlength c.sessionId
    omega

theorem exists_last (hchange : Unchanging clocks ns) (htakes : TakesClaims env clocks ns)
    (hs : callAt env endpointIncarnation limit clocks ns n = some s) :
    ∃ last s page ns', callAt env endpointIncarnation limit clocks ns last = some s ∧
      s.call env endpointIncarnation limit (clocks last) = (.ok page, ns') ∧
      page.nextCursor = none := by
  induction hk : waiting clocks ns.sessions s.ns using Nat.strong_induction_on generalizing n s with
  | _ k ih =>
    obtain ⟨hbetween, page, ns', hcall, hspec⟩ := between_at hchange htakes hs
    cases hnext : page.nextCursor with
    | none => exact ⟨n, s, page, ns', hs, hcall, hnext⟩
    | some next =>
      obtain ⟨c, hc, rfl, -⟩ := hbetween.next_cursor hspec hnext
      have hlt := hspec.waiting_lt hc (hbetween.page_listed hspec hc)
      refine ih _ (hk ▸ hlt) (n := n + 1) (s := ⟨c.orderKey, ns'⟩) ?_ rfl
      rw [callAt_succ hs hcall, hnext]
      rfl

structure LastCall (env : Env ρ) (endpointIncarnation : ρ → Option Text) (limit : Int)
    (clocks : Nat → CallClock) (ns : NamespaceState ρ) (last : Nat) (s : CallState ρ) (page : Page)
    (ns' : NamespaceState ρ) : Prop where
  state : callAt env endpointIncarnation limit clocks ns last = some s
  call : s.call env endpointIncarnation limit (clocks last) = (.ok page, ns')
  ended : page.nextCursor = none

theorem LastCall.eq_of_page {other : Nat} {page page' : Page}
    (h : LastCall env endpointIncarnation limit clocks ns last s page ns')
    (hpage : pageAt env endpointIncarnation limit clocks ns other = some page')
    (hended : page'.nextCursor = none) : other = last := by
  have hafter : callAt env endpointIncarnation limit clocks ns (last + 1) = none := by
    rw [callAt_succ h.state h.call, h.ended]
    rfl
  obtain ⟨t, ht, hresult⟩ := bind_eq_some_iff.mp hpage
  have hle : other ≤ last := by
    by_contra hlater
    rw [callAt_none_of_le (by omega) hafter] at ht
    cases ht
  by_contra hne
  cases hcall : t.call env endpointIncarnation limit (clocks other) with
  | mk result ns'' =>
    rw [hcall] at hresult
    cases result with
    | error message => cases hresult
    | ok page'' =>
      cases hresult
      have hnext : callAt env endpointIncarnation limit clocks ns (other + 1) = none := by
        rw [callAt_succ ht hcall, hended]
        rfl
      have hstate := h.state
      rw [callAt_none_of_le (by omega) hnext] at hstate
      cases hstate

theorem LastCall.enumeratesAll_iff
    (h : LastCall env endpointIncarnation limit clocks ns last s page ns')
    (hchange : Unchanging clocks ns) (htakes : TakesClaims env clocks ns) :
    EnumeratesAll env endpointIncarnation limit clocks ns ↔
      ∀ id ∈ ns.sessions, ns'.awaiting ((clocks 0).now id) id = [] := by
  obtain ⟨hbetween, page', ns'', hcall, hspec⟩ := between_at hchange htakes h.state
  rw [h.call] at hcall
  cases hcall
  have hafter := hbetween.step hspec (.nil ns.sessions)
  rw [← returned_succ (pageAt_eq h.state h.call)] at hafter
  constructor
  · rintro ⟨⟨other, page', hpage, hended, -, hall⟩, -⟩ id hid
    rw [h.eq_of_page hpage hended] at hall
    have hlength := ((hafter.split id _ ⟨0, rfl⟩).trans (hall id hid).symm).length_eq
    rw [length_append, length_map, length_map] at hlength
    exact length_eq_zero_iff.mp (by dsimp only at hlength; omega)
  · intro hempty
    refine ⟨⟨last, page, pageAt_eq h.state h.call, h.ended, hafter.session, ?_⟩, ?_⟩
    · intro id hid
      have hsplit := hafter.split id _ ⟨0, rfl⟩
      rw [hempty id hid, map_nil, append_nil] at hsplit
      exact hsplit
    · intro n t ht
      obtain ⟨-, page, ns', hcall, hspec⟩ := between_at hchange htakes ht
      exact ⟨page, ns', hcall, hspec.takes.leavesNone⟩

theorem behind_stays (hchange : Unchanging clocks ns) (htakes : TakesClaims env clocks ns)
    (hle : n ≤ m) {s s' : CallState ρ}
    (hs : callAt env endpointIncarnation limit clocks ns n = some s)
    (hs' : callAt env endpointIncarnation limit clocks ns m = some s')
    (hid : id ∈ ns.sessions) {t : Int} (ht : t ∈ callTimes clocks id) {e : OutboxEvent}
    (he : e ∈ s.ns.awaiting t id) (hbehind : stringLe (deliveryOrderKey id e) s.cursor) :
    e ∈ s'.ns.awaiting t id ∧ stringLe (deliveryOrderKey id e) s'.cursor := by
  induction m, hle using Nat.le_induction generalizing s' with
  | base =>
    rw [hs] at hs'
    cases hs'
    exact ⟨he, hbehind⟩
  | succ m _ ih =>
    cases hprev : callAt env endpointIncarnation limit clocks ns m with
    | none =>
      rw [callAt_none_of_le (Nat.le_succ m) hprev] at hs'
      cases hs'
    | some prev =>
      obtain ⟨hwaits, hkey⟩ := ih hprev
      obtain ⟨hbetween, page, ns', hcall, hspec⟩ := between_at hchange htakes hprev
      rw [callAt_succ hprev hcall] at hs'
      obtain ⟨next, hnext, rfl⟩ := map_eq_some_iff.mp hs'
      obtain ⟨c, hc, rfl, -⟩ := hbetween.next_cursor hspec hnext
      refine ⟨hspec.keeps_behind ht (hbetween.distinct (hchange.reads 0) hid t) hwaits hkey, ?_⟩
      exact stringLe_trans hkey ((stringLe_total _ _).resolve_right (hspec.after c hc))

theorem inReach_of_empty (h : LastCall env endpointIncarnation limit clocks ns last s page ns')
    (hchange : Unchanging clocks ns) (htakes : TakesClaims env clocks ns)
    (hempty : ∀ id ∈ ns.sessions, ns'.awaiting ((clocks 0).now id) id = []) {t : CallState ρ}
    (ht : callAt env endpointIncarnation limit clocks ns n = some t) :
    InReach limit (clocks n) t := by
  obtain ⟨hbetween, page', ns'', hcall, hspec⟩ := between_at hchange htakes ht
  have hnow : ∀ id, (clocks n).now id ∈ callTimes clocks id := fun id => ⟨n, rfl⟩
  refine ⟨?_, ?_⟩
  · by_contra hwindow
    rw [not_or] at hwindow
    obtain ⟨hwaits, hnone⟩ := hwindow
    have hpage : page'.claims = [] := by
      refine eq_nil_iff_forall_not_mem.mpr fun c hc => hnone ⟨c.sessionId, hspec.session c hc, ?_⟩
      obtain ⟨e, he, -⟩ := hspec.takes.source c hc _ (hnow _)
      exact ne_nil_of_mem he
    have hlast : n = last := h.eq_of_page (pageAt_eq ht hcall) (hspec.ends_iff.mpr hpage)
    subst hlast
    have hsame := h.state
    rw [ht] at hsame
    cases hsame
    rw [h.call] at hcall
    cases hcall
    refine hwaits fun id hid => ?_
    have hsplit := (hspec.takes.split id _ ⟨0, rfl⟩).length_eq
    rw [hpage, hempty id (hbetween.listed hid), filter_nil, map_nil, map_nil, append_nil,
      length_map] at hsplit
    rw [hbetween.awaiting_eq (hbetween.listed hid) (hnow id) ⟨0, rfl⟩]
    exact length_eq_zero_iff.mp hsplit.symm
  · intro e he hle
    rcases hbetween.cursor with hnil | ⟨id, hid, hpattern, e', hcursor⟩
    · rw [hnil] at hle
      exact deliveryOrderKey_ne_nil _ _ hle
    · have hsession :
          cursorSession t.cursor = id := by rw [hcursor, cursorSession_orderKey hpattern]
      rw [hsession] at he hle
      have hn : n ≤ last := by
        by_contra hlater
        have hafter := callAt_succ h.state h.call
        rw [h.ended] at hafter
        rw [callAt_none_of_le (by omega) hafter] at ht
        cases ht
      obtain ⟨hwaits, hkey⟩ := behind_stays hchange htakes hn ht h.state hid (hnow id) he hle
      obtain ⟨hbetween', page', ns'', hcall', hspec'⟩ := between_at hchange htakes h.state
      rw [h.call] at hcall'
      cases hcall'
      have hleft :=
        hspec'.keeps_behind (hnow id) (hbetween'.distinct (hchange.reads 0) hid _) hwaits hkey
      have hafter := hbetween'.step hspec' (.nil ns.sessions)
      rw [hafter.awaiting_eq hid (hnow id) ⟨0, rfl⟩] at hleft
      exact absurd hleft (hempty id hid ▸ not_mem_nil)

theorem noneBehind_at (hchange : Unchanging clocks ns) (htakes : TakesClaims env clocks ns)
    (hreach : ∀ n s, callAt env endpointIncarnation limit clocks ns n = some s →
      InReach limit (clocks n) s)
    (hs : callAt env endpointIncarnation limit clocks ns n = some s) :
    NoneBehind (callTimes clocks) ns s := by
  induction n generalizing s with
  | zero =>
    cases hs
    intro id _ hpasses
    cases hpasses
  | succ n ih =>
    cases hprev : callAt env endpointIncarnation limit clocks ns n with
    | none =>
      rw [callAt_none_of_le (Nat.le_succ n) hprev] at hs
      cases hs
    | some prev =>
      obtain ⟨hbetween, page, ns', hcall, hspec⟩ := between_at hchange htakes hprev
      rw [callAt_succ hprev hcall] at hs
      obtain ⟨next, hnext, rfl⟩ := map_eq_some_iff.mp hs
      exact (ih hprev).step hspec hbetween (hreach n prev hprev) (hchange.reads n) hnext

theorem empty_of_inReach (h : LastCall env endpointIncarnation limit clocks ns last s page ns')
    (hchange : Unchanging clocks ns) (htakes : TakesClaims env clocks ns)
    (hreach : ∀ n s, callAt env endpointIncarnation limit clocks ns n = some s →
      InReach limit (clocks n) s) :
    ∀ id ∈ ns.sessions, ns'.awaiting ((clocks 0).now id) id = [] := by
  obtain ⟨hbetween, page', ns'', hcall, hspec⟩ := between_at hchange htakes h.state
  rw [h.call] at hcall
  cases hcall
  have hnone := noneBehind_at hchange htakes hreach h.state
  have hpage := hspec.ends_iff.mp h.ended
  have hlast := hreach last s h.state
  have hwindow : ∀ id ∈ boundedSessions s.cursor limit s.ns.sessions,
      s.ns.awaiting ((clocks last).now id) id = [] := by
    intro id hid
    have hlisted := hbetween.listed (mem_of_mem_boundedSessions hbetween.cursor hid)
    have hleft :=
      hspec.nothing_left hbetween hnone hlast (hchange.reads last) hlisted (fun _ => hid)
      (.inl hpage) (t := (clocks last).now id) ⟨last, rfl⟩
    have hsplit := (hspec.takes.split id _ ⟨last, rfl⟩).length_eq
    rw [hpage, hleft, length_map] at hsplit
    exact length_eq_zero_iff.mp hsplit.symm
  have hall : ∀ id ∈ s.ns.sessions, s.ns.awaiting ((clocks last).now id) id = [] := by
    rcases hlast.window with hall | ⟨id, hid, hwaits⟩
    · exact hall
    · exact absurd (hwindow id hid) hwaits
  intro id hid
  refine eq_nil_of_subset_nil fun e he => ?_
  have hbefore := hspec.takes.subset id _ ⟨0, rfl⟩ he
  by_cases hmem : id ∈ s.ns.sessions
  · rw [hbetween.awaiting_eq hid ⟨0, rfl⟩ ⟨last, rfl⟩, hall id hmem] at hbefore
    exact hbefore
  · rw [hbetween.unlisted id hid hmem _ ⟨0, rfl⟩] at hbefore
    exact hbefore

/-- Calls that follow the cursor return every delivery that waits, once, exactly if each call is
made with what waits within its reach: in the first sessions of the list, two for each claim of a
full page, and, in the session of the cursor, after the cursor as a string. -/
theorem enumeratesAll_iff_inReach (env : Env ρ) (endpointIncarnation : ρ → Option Text)
    (limit : Int)
    (clocks : Nat → CallClock) (ns : NamespaceState ρ) (hchange : Unchanging clocks ns)
    (htakes : TakesClaims env clocks ns) :
    EnumeratesAll env endpointIncarnation limit clocks ns ↔
      ∀ n s, callAt env endpointIncarnation limit clocks ns n = some s →
        InReach limit (clocks n) s := by
  have hfirst : callAt env endpointIncarnation limit clocks ns 0 = some ⟨[], ns⟩ := rfl
  obtain ⟨last, s, page, ns', hstate, hcall, hended⟩ := exists_last hchange htakes hfirst
  have hlast : LastCall env endpointIncarnation limit clocks ns last s page ns' :=
    ⟨hstate, hcall, hended⟩
  rw [hlast.enumeratesAll_iff hchange htakes]
  exact ⟨fun hempty n t ht => inReach_of_empty hlast hchange htakes hempty ht,
    empty_of_inReach hlast hchange htakes⟩

theorem not_enumeratesAll {bound : Nat} (hid : id ∈ ns.sessions)
    (hend : (callAt env endpointIncarnation limit clocks ns bound).isNone = true)
    (hmiss : ∀ last < bound, (pageAt env endpointIncarnation limit clocks ns last).all (fun page =>
      page.nextCursor.isSome ||
        !decide ((((returned env endpointIncarnation limit clocks ns (last + 1)).filter
          (·.sessionId = id)).map (·.claim.event.publicEventId)).Perm
            ((ns.awaiting ((clocks 0).now id) id).map (·.publicEventId)))) = true) :
    ¬ EnumeratesAll env endpointIncarnation limit clocks ns := by
  rintro ⟨⟨last, page, hpage, hended, -, hall⟩, -⟩
  by_cases hlast : last < bound
  · have := hmiss last hlast
    rw [hpage, all_some, hended, decide_eq_true (hall id hid)] at this
    cases this
  · rw [pageAt, callAt_none_of_le (Nat.le_of_not_lt hlast) (isNone_iff_eq_none.mp hend)] at hpage
    cases hpage

end Calls

/-- A collation that compares letters without their case first, and puts small letters before
capital ones. -/
def caseCollation (a b : Text) : Ordering :=
  let x := a.map Char.toLower
  let y := b.map Char.toLower
  if x < y then .lt else if y < x then .gt else if b < a then .lt else if a < b then .gt else .eq

def outboxEnv : Env Unit where
  localeCompare := caseCollation
  assertRest _ := true
  compactRest _ _ := .ok ()
  markScheduler _ _ := ()

def outboxNamespace (txs : List (SessionTransaction Unit)) : NamespaceState Unit where
  roster := txs.map (·.sessionId)
  retainedSessions := []
  transactions id := txs.find? (·.sessionId = id)

def stillClock : CallClock := ⟨fun _ => 0, fun _ => 0, fun _ => 0⟩

theorem outboxNamespace_takesClaims {txs : List (SessionTransaction Unit)}
    {clocks : Nat → CallClock}
    (hvalid : ∀ tx ∈ txs, assertTransaction outboxEnv tx = true) :
    TakesClaims outboxEnv clocks (outboxNamespace txs) := by
  have hlenient : outboxEnv.Lenient := ⟨fun _ => rfl, fun _ _ => ⟨(), rfl⟩⟩
  intro id _ tx htx
  have hname := find?_some htx
  exact ⟨of_decide_eq_true hname, hlenient.accepts (hvalid tx (mem_of_find?_eq_some htx))⟩

theorem stillClock_unchanging (ns : NamespaceState Unit) : Unchanging (fun _ => stillClock) ns where
  steady := by
    rintro s - tx - t ⟨m, rfl⟩ t' ⟨n, rfl⟩ e -
    rfl
  lease := by
    intro _ _ _
    show (0 : Int) < 0 + PUBLIC_CLAIM_LEASE_MS
    decide

def twoSessions : NamespaceState Unit :=
  outboxNamespace [createTransaction "a".toList [⟨['x'], none⟩, ⟨['y'], none⟩] (),
    createTransaction "b".toList [⟨['z'], none⟩] ()]

theorem enumeratesAll_twoSessions :
    EnumeratesAll outboxEnv (fun _ => none) 2 (fun _ => stillClock) twoSessions := by
  have hend : (callAt outboxEnv (fun _ => none) 2 (fun _ => stillClock) twoSessions 3).isNone =
      true := by
    decide +kernel
  have hreach :
      ∀ n < 3, (callAt outboxEnv (fun _ => none) 2 (fun _ => stillClock) twoSessions n).all
      (fun s => decide (InReach 2 stillClock s)) = true := by
    decide +kernel
  refine (enumeratesAll_iff_inReach outboxEnv (fun _ => none) 2 (fun _ => stillClock) twoSessions
    (stillClock_unchanging _) (outboxNamespace_takesClaims (by decide +kernel))).mpr ?_
  intro n s hs
  by_cases hn : n < 3
  · have := hreach n hn
    rw [hs] at this
    exact of_decide_eq_true this
  · rw [callAt_none_of_le (Nat.le_of_not_lt hn) (isNone_iff_eq_none.mp hend)] at hs
    cases hs

def caseSession : NamespaceState Unit :=
  outboxNamespace [createTransaction "s".toList [⟨['b'], none⟩, ⟨['B'], none⟩] ()]

def thirdSession : NamespaceState Unit :=
  outboxNamespace [createTransaction "a".toList [] (), createTransaction "b".toList [] (),
    createTransaction "c".toList [⟨['x'], none⟩] ()]

/-- With one claim to a page, the delivery `B` is claimed after `b` and passed over as a string, and
the third session is out of every page. -/
theorem not_enumeratesAll_caseSession_thirdSession :
    (Unchanging (fun _ => stillClock) caseSession ∧
      TakesClaims outboxEnv (fun _ => stillClock) caseSession ∧
      ¬ EnumeratesAll outboxEnv (fun _ => none) 1 (fun _ => stillClock) caseSession) ∧
    (Unchanging (fun _ => stillClock) thirdSession ∧
      TakesClaims outboxEnv (fun _ => stillClock) thirdSession ∧
      ¬ EnumeratesAll outboxEnv (fun _ => none) 1 (fun _ => stillClock) thirdSession) := by
  refine ⟨⟨stillClock_unchanging _, outboxNamespace_takesClaims (by decide +kernel), ?_⟩,
    stillClock_unchanging _, outboxNamespace_takesClaims (by decide +kernel), ?_⟩
  · have hid : "s".toList ∈ caseSession.sessions := by decide +kernel
    have hend : (callAt outboxEnv (fun _ => none) 1 (fun _ => stillClock) caseSession 2).isNone =
      true := by
      decide +kernel
    exact not_enumeratesAll hid hend (by decide +kernel)
  · have hid : "c".toList ∈ thirdSession.sessions := by decide +kernel
    have hend : (callAt outboxEnv (fun _ => none) 1 (fun _ => stillClock) thirdSession 1).isNone =
      true := by
      decide +kernel
    exact not_enumeratesAll hid hend (by decide +kernel)

end Vibrato.Coordinator
