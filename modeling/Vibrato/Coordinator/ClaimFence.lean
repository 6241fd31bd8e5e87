import Vibrato.Coordinator.Transactions

namespace Vibrato.Coordinator

open List PublicDeliveryClaim

inductive SessionOp (ρ : Type) where
  | claim (options : ClaimOptions) (now commitAt : Int)
  | recover (now commitAt : Int)
  | acknowledge (input : AcknowledgeInput) (now commitAt : Int)
  | release (publicEventId : Text) (claimFence : Nat) (commitAt : Int)
  | other (change : OtherChange ρ) (commitAt : Int)

/-- A call that claimed events: the stored transaction before it, its arguments, and the claims that
it returned. -/
structure ClaimCall (ρ : Type) where
  tx : SessionTransaction ρ
  options : ClaimOptions
  now : Int
  claims : List PublicDeliveryClaim

/-- The stored transaction and the calls that have claimed events so far. -/
structure History (ρ : Type) where
  tx : SessionTransaction ρ
  calls : List (ClaimCall ρ)

variable {ρ : Type} (env : Env ρ)

/-- The public ids of the claimable events before the call, in the order of the claims. -/
def ClaimCall.batch (call : ClaimCall ρ) : List Text :=
  (claimBatch env call.options call.now call.tx).map (·.publicEventId)

namespace History

def claims (h : History ρ) : List PublicDeliveryClaim := h.calls.flatMap (·.claims)

def commit {α : Type} (h : History ρ) : Except Text (α × SessionTransaction ρ) → History ρ
  | .ok (_, tx) => { h with tx }
  | .error _ => h

def step [DecidableEq ρ] (h : History ρ) : SessionOp ρ → History ρ
  | .claim options now commitAt =>
    match claimPublicDelivery env options now commitAt h.tx with
    | .ok (claims, tx) =>
      { tx, calls := h.calls ++ [⟨h.tx, options, now, claims⟩] }
    | .error _ => h
  | .recover now commitAt => h.commit (recoverExpiredPublicDelivery env now commitAt h.tx)
  | .acknowledge input now commitAt =>
      h.commit (acknowledgePublicDelivery env input now commitAt h.tx)
  | .release publicEventId claimFence commitAt =>
    h.commit (releasePublicDeliveryClaim env publicEventId claimFence commitAt h.tx)
  | .other change commitAt =>
    h.commit (withSessionTransaction env commitAt (otherOperation change) h.tx)

def run [DecidableEq ρ] (h : History ρ) (ops : List (SessionOp ρ)) : History ρ :=
  ops.foldl (step env) h

def create (sessionId : Text) (events : List NewEvent) (rest : ρ) : History ρ :=
  ⟨createTransaction sessionId events rest, []⟩

def FencesUnique (h : History ρ) : Prop :=
  h.claims.Pairwise fun c d =>
    c.event.publicEventId = d.event.publicEventId → c.claimFence ≠ d.claimFence

instance (h : History ρ) : Decidable h.FencesUnique :=
  inferInstanceAs (Decidable (List.Pairwise _ _))

def SameDeliveries (tx tx' : SessionTransaction ρ) : Prop :=
  ∀ e' ∈ tx'.outbox.events, ∃ e ∈ tx.outbox.events,
    e.publicEventId = e'.publicEventId ∧ e.publicDelivery = e'.publicDelivery

instance (tx tx' : SessionTransaction ρ) : Decidable (SameDeliveries tx tx') :=
  inferInstanceAs (Decidable (∀ e' ∈ tx'.outbox.events, ∃ e ∈ tx.outbox.events,
    e.publicEventId = e'.publicEventId ∧ e.publicDelivery = e'.publicDelivery))

/-- An acknowledgement or a release under the fence of a claim whose event was claimed again has no
effect. -/
def StaleRefused [DecidableEq ρ] (h : History ρ) : Prop :=
  ∀ c d, [c, d].Sublist h.claims → c.event.publicEventId = d.event.publicEventId →
    (∀ journalSeq now commitAt, SameDeliveries h.tx
      (h.step env (.acknowledge ⟨c.event.publicEventId, c.claimFence,
        journalSeq⟩ now commitAt)).tx) ∧
    (∀ commitAt,
      SameDeliveries h.tx (h.step env (.release c.event.publicEventId c.claimFence commitAt)).tx)

/-- One event is claimable before both calls, and there are fewer before it at the second one by as
much as the revision has grown. -/
def CatchesUp (a b : ClaimCall ρ) : Prop :=
  ∃ publicEventId i j, (a.batch env)[i]? = some publicEventId ∧
    (b.batch env)[j]? = some publicEventId ∧
    a.tx.revision + i = b.tx.revision + j

structure Ordered (call : ClaimCall ρ) : Prop where
  distinct : (call.batch env).Nodup
  keys : call.claims.map key = (call.batch env).zipIdx.map fun entry =>
    (entry.1, call.tx.revision + entry.2 + 1)

variable {env}

variable {call : ClaimCall ρ} {c : PublicDeliveryClaim} {now : Int} {e : OutboxEvent}

theorem Ordered.mem_claims (ho : Ordered env call)
    (hc : c ∈ call.claims) : ∃ i, (call.batch env)[i]? = some c.event.publicEventId ∧
      c.claimFence = call.tx.revision + i + 1 := by
  have hkey : c.key ∈ call.claims.map key := mem_map_of_mem hc
  rw [ho.keys] at hkey
  obtain ⟨⟨id, i⟩, hentry, heq⟩ := mem_map.mp hkey
  have hplace := mk_mem_zipIdx_iff_getElem?.mp hentry
  have hid : id = c.event.publicEventId := congrArg Prod.fst heq
  have hfence : call.tx.revision + i + 1 = c.claimFence := congrArg Prod.snd heq
  exact ⟨i, hid ▸ hplace, hfence.symm⟩

theorem Ordered.exists_claim (ho : Ordered env call) {id : Text} {i : Nat}
    (hi : (call.batch env)[i]? = some id) : ∃ c ∈ call.claims, c.event.publicEventId = id ∧
      c.claimFence = call.tx.revision + i + 1 := by
  have hentry : (id, call.tx.revision + i + 1) ∈ call.claims.map key := by
    rw [ho.keys]
    exact mem_map.mpr ⟨(id, i), mk_mem_zipIdx_iff_getElem?.mpr hi, rfl⟩
  obtain ⟨c, hc, hkey⟩ := mem_map.mp hentry
  exact ⟨c, hc, congrArg Prod.fst hkey, congrArg Prod.snd hkey⟩

theorem Ordered.ids_distinct (ho : Ordered env call) :
    (call.claims.map (·.event.publicEventId)).Nodup := by
  have hkeys := congrArg (List.map Prod.fst) ho.keys
  rw [map_map, map_map] at hkeys
  have hbatch : List.map (Prod.fst ∘ fun entry : Text × Nat =>
      (entry.1, call.tx.revision + entry.2 + 1)) (call.batch env).zipIdx = call.batch env :=
    zipIdx_map_fst _ _
  rw [hbatch] at hkeys
  have hdistinct := ho.distinct
  rw [← hkeys] at hdistinct
  exact hdistinct

variable (env) in
/-- The fence of a claimed event is that of the last claim of the event. -/
structure Tracked (h : History ρ) : Prop where
  calls : ∀ call ∈ h.calls, Ordered env call
  latest : ∀ e ∈ h.tx.outbox.events, e.publicDelivery.state = .claimed →
    ∃ older c newer, h.claims = older ++ c :: newer ∧ c.event.publicEventId = e.publicEventId ∧
      e.publicDelivery.claimFence = some c.claimFence ∧
      ∀ d ∈ newer, d.event.publicEventId ≠ e.publicEventId

variable {h : History ρ} {tx : SessionTransaction ρ}

theorem Tracked.keepsClaims (ht : Tracked env h) (hkeeps : KeepsClaims h.tx tx) :
    Tracked env { h with tx } := by
  refine ⟨ht.calls, ?_⟩
  intro e' he' hclaimed
  obtain ⟨e, he, hid, hdelivery⟩ := hkeeps e' he' hclaimed
  obtain ⟨older, c, newer, hsplit, hc, hfence, hnewer⟩ :=
    ht.latest e he (by rw [hdelivery]; exact hclaimed)
  rw [hid] at hc hnewer
  rw [hdelivery] at hfence
  exact ⟨older, c, newer, hsplit, hc, hfence, hnewer⟩

theorem Tracked.commit [DecidableEq ρ] {α : Type} (ht : Tracked env h)
    {operation : SessionTransaction ρ → Except Text (α × SessionTransaction ρ)}
    (hop : ∀ result tx, operation h.tx = .ok (result, tx) → KeepsClaims h.tx tx) :
    Tracked env (h.commit (withSessionTransaction env now operation h.tx)) := by
  cases hrun : withSessionTransaction env now operation h.tx with
  | error message => exact ht
  | ok committed =>
    obtain ⟨result, tx'⟩ := committed
    obtain ⟨hvalid, mid, hmid, hfrom⟩ := withSessionTransaction_ok hrun
    have hkeeps := hop result mid hmid
    apply ht.keepsClaims
    apply hkeeps.comesFrom _ hfrom
    intro e he hclaimed
    obtain ⟨o, ho, hid, -⟩ := hkeeps e he hclaimed
    rw [← hid]
    exact publicEventId_ne hvalid ho

theorem Tracked.claim [DecidableEq ρ] (ht : Tracked env h) {options : ClaimOptions}
    {commitAt : Int} {claims : List PublicDeliveryClaim}
    (hclaim : claimPublicDelivery env options now commitAt h.tx = .ok (claims, tx)) :
    Tracked env { tx, calls := h.calls ++ [⟨h.tx, options, now, claims⟩] } := by
  obtain ⟨hvalid, hclaims, -⟩ := claimPublicDelivery_ok hclaim
  have hordered : Ordered env ⟨h.tx, options, now, claims⟩ := by
    refine ⟨claimBatch_distinct options now hvalid, ?_⟩
    rw [hclaims, ClaimCall.batch, zipIdx_map, map_map, map_map]
    rfl
  constructor
  · intro call hcall
    rcases mem_append.mp hcall with hcall | hcall
    · exact ht.calls call hcall
    · rw [mem_singleton.mp hcall]
      exact hordered
  intro e' he' hclaimed
  have hlog : History.claims { tx, calls := h.calls ++ [⟨h.tx, options, now, claims⟩] } =
      h.claims ++ claims := by
    simp [History.claims]
  rw [hlog]
  rcases claimPublicDelivery_claimed hclaim he' with ⟨c, hc, hid, hfence⟩ | ⟨e, he, hid, hd, hnone⟩
  · obtain ⟨before, after, hsplit⟩ := append_of_mem hc
    have hids := hordered.ids_distinct
    refine ⟨h.claims ++ before, c, after, by rw [hsplit, append_assoc], hid, hfence, ?_⟩
    intro d hd heq
    rw [hsplit, map_append, map_cons, nodup_append, nodup_cons] at hids
    exact hids.2.1.1 (mem_map.mpr ⟨d, hd, heq.trans hid.symm⟩)
  · obtain ⟨older, c, newer, hsplit, hc, hfence, hnewer⟩ :=
      ht.latest e he (by rw [hd]; exact hclaimed)
    rw [hid] at hc hnewer
    rw [hd] at hfence
    refine ⟨older, c, newer ++ claims, by rw [hsplit, append_assoc, cons_append], hc, hfence, ?_⟩
    intro d hmem
    rcases mem_append.mp hmem with hmem | hmem
    · exact hnewer d hmem
    · exact hnone d hmem

theorem Tracked.step [DecidableEq ρ] {h : History ρ} (ht : Tracked env h) (op : SessionOp ρ) :
    Tracked env (h.step env op) := by
  cases op with
  | claim options now commitAt =>
    cases hclaim : claimPublicDelivery env options now commitAt h.tx with
    | error message =>
      simp only [History.step, hclaim]
      exact ht
    | ok committed =>
      obtain ⟨claims, tx⟩ := committed
      simp only [History.step, hclaim]
      exact ht.claim hclaim
  | recover now commitAt =>
    apply ht.commit
    intro n tx hop
    obtain ⟨n', tx', hop', hkeeps⟩ := recoverOperation_keeps now h.tx
    rw [hop'] at hop
    cases hop
    exact hkeeps
  | acknowledge input now commitAt => exact ht.commit fun _ _ hop => acknowledgeOperation_keeps hop
  | release publicEventId claimFence commitAt =>
    exact ht.commit fun _ _ hop => releaseOperation_keeps hop
  | other change commitAt => exact ht.commit fun _ _ hop => otherOperation_keeps hop

theorem Tracked.run [DecidableEq ρ] (ht : Tracked env h) (ops : List (SessionOp ρ)) :
    Tracked env (h.run env ops) := by
  induction ops generalizing h with
  | nil => exact ht
  | cons op ops ih => exact ih (ht.step op)

theorem create_tracked (sessionId : Text) (events : List NewEvent) (rest : ρ) :
    Tracked env (create sessionId events rest) := by
  constructor
  · intro call hcall
    cases hcall
  intro e he hclaimed
  rcases mem_appendEvents he with he | hfresh
  · cases he
  · rw [hfresh] at hclaimed
    cases hclaimed

theorem catchesUp_iff {a b : ClaimCall ρ} (ha : Ordered env a) (hb : Ordered env b) :
    (∀ c ∈ a.claims, ∀ d ∈ b.claims, c.event.publicEventId = d.event.publicEventId →
      c.claimFence ≠ d.claimFence) ↔ ¬ CatchesUp env a b := by
  constructor
  · rintro hdiffer ⟨id, i, j, hi, hj, hsum⟩
    obtain ⟨c, hc, hcid, hcf⟩ := ha.exists_claim hi
    obtain ⟨d, hd, hdid, hdf⟩ := hb.exists_claim hj
    apply hdiffer c hc d hd (hcid.trans hdid.symm)
    omega
  · intro hnever c hc d hd hid hfence
    obtain ⟨i, hi, hcf⟩ := ha.mem_claims hc
    obtain ⟨j, hj, hdf⟩ := hb.mem_claims hd
    rw [hid] at hi
    exact hnever ⟨_, i, j, hi, hj, by omega⟩

theorem Tracked.fencesUnique_iff (ht : Tracked env h) :
    h.FencesUnique ↔ h.calls.Pairwise fun a b => ¬ CatchesUp env a b := by
  unfold FencesUnique claims
  rw [pairwise_flatMap]
  have hwithin : ∀ call ∈ h.calls, call.claims.Pairwise fun c d =>
      c.event.publicEventId = d.event.publicEventId → c.claimFence ≠ d.claimFence := by
    intro call hcall
    have hids := pairwise_map.mp (ht.calls call hcall).ids_distinct
    exact hids.imp fun hne heq => absurd heq hne
  constructor
  · rintro ⟨-, hacross⟩
    refine hacross.imp_of_mem fun ha hb hdiffer => ?_
    exact (catchesUp_iff (ht.calls _ ha) (ht.calls _ hb)).mp hdiffer
  · intro hnever
    refine ⟨hwithin, hnever.imp_of_mem fun ha hb hcatch => ?_⟩
    exact (catchesUp_iff (ht.calls _ ha) (ht.calls _ hb)).mpr hcatch

theorem mem_of_pair_sublist {α : Type} {p : α → Prop} {older newer : List α} {c d l : α}
    (hnewer : ∀ x ∈ newer, ¬ p x) (hd : p d) (hsub : [c, d].Sublist (older ++ l :: newer)) :
    c ∈ older := by
  obtain ⟨xs, ys, hsplit, hxs, hys⟩ := sublist_append_iff.mp hsub
  cases xs with
  | cons x xs =>
    obtain ⟨rfl, -⟩ := List.cons.inj hsplit
    exact hxs.subset mem_cons_self
  | nil =>
    subst hsplit
    have hd' : d ∈ newer := (cons_sublist_cons'.mp hys).elim
      (fun h => h.subset (mem_cons_of_mem _ mem_cons_self))
      (fun h => h.2.subset mem_cons_self)
    exact absurd hd (hnewer d hd')

theorem Tracked.stale (ht : Tracked env h) (hunique : h.FencesUnique)
    {d : PublicDeliveryClaim} (hsub : [c, d].Sublist h.claims)
    (hid : c.event.publicEventId = d.event.publicEventId)
    (he : e ∈ h.tx.outbox.events) (hpid : e.publicEventId = c.event.publicEventId)
    (hclaimed : e.publicDelivery.state = .claimed) :
    e.publicDelivery.claimFence ≠ some c.claimFence := by
  obtain ⟨older, l, newer, hsplit, hl, hfence, hnewer⟩ := ht.latest e he hclaimed
  rw [hsplit] at hsub
  have hold : c ∈ older :=
    mem_of_pair_sublist (fun x hx hp => hnewer x hx hp) (hid.symm.trans hpid.symm) hsub
  unfold FencesUnique at hunique
  rw [hsplit, pairwise_append] at hunique
  have hdiffer := hunique.2.2 c hold l mem_cons_self (hpid.symm.trans hl.symm)
  rw [hfence]
  intro heq
  exact hdiffer (Option.some.inj heq).symm

theorem commit_sameDeliveries [DecidableEq ρ] {α : Type} (h : History ρ)
    {operation : SessionTransaction ρ → Except Text (α × SessionTransaction ρ)}
    (hop : ∀ result tx, operation h.tx = .ok (result, tx) → tx = h.tx) :
    SameDeliveries h.tx (h.commit (withSessionTransaction env now operation h.tx)).tx := by
  cases hrun : withSessionTransaction env now operation h.tx with
  | error message => exact fun e he => ⟨e, he, rfl, rfl⟩
  | ok committed =>
    obtain ⟨result, tx'⟩ := committed
    obtain ⟨hvalid, mid, hmid, hfrom⟩ := withSessionTransaction_ok hrun
    rw [hop result mid hmid] at hfrom
    intro e' he'
    obtain ⟨e, he, hdelivery, hid⟩ := hfrom e' he'
    exact ⟨e, he, hid (publicEventId_ne hvalid he), hdelivery⟩

theorem find_mem {o : Outbox} {publicEventId : Text}
    (h : o.find publicEventId = some e) : e ∈ o.events ∧ e.publicEventId = publicEventId :=
  ⟨mem_of_find?_eq_some h, by simpa using find?_some h⟩

theorem Tracked.staleRefused [DecidableEq ρ] (ht : Tracked env h) (hunique : h.FencesUnique) :
    h.StaleRefused env := by
  intro c d hsub hid
  constructor
  · intro journalSeq now commitAt
    apply commit_sameDeliveries
    intro event tx hop
    unfold acknowledgeOperation at hop
    split at hop
    · cases hop
    · next e hfind =>
      obtain ⟨he, hpid⟩ := find_mem hfind
      dsimp only at hop
      split at hop
      · split at hop
        · cases hop
        · cases hop
          rfl
      · split at hop
        · cases hop
        · next hheld =>
          push Not at hheld
          exact absurd hheld.2 (ht.stale hunique hsub hid he hpid hheld.1)
  · intro commitAt
    apply commit_sameDeliveries
    intro _ tx hop
    unfold releaseOperation at hop
    split at hop
    · cases hop
      rfl
    · next e hfind =>
      obtain ⟨he, hpid⟩ := find_mem hfind
      dsimp only at hop
      split at hop
      · cases hop
        rfl
      · next hheld =>
        push Not at hheld
        exact absurd hheld.2 (ht.stale hunique hsub hid he hpid hheld.1)

def codePointEnv : Env Unit where
  localeCompare a b := if a = b then .eq else if a < b then .lt else .gt
  assertRest _ := true
  compactRest _ _ := .ok ()
  markScheduler _ _ := ()

/-- In every life of a session, fences are unique and stale ones are refused exactly when no event
moves up in the queue by as many places as the revision grows. -/
theorem fences_safe_iff [DecidableEq ρ] (env : Env ρ) (sessionId : Text) (events : List NewEvent)
    (rest : ρ) (ops : List (SessionOp ρ)) :
    (((create sessionId events rest).run env ops).FencesUnique ∧
      ((create sessionId events rest).run env ops).StaleRefused env) ↔
    ((create sessionId events rest).run env ops).calls.Pairwise fun a b => ¬ CatchesUp env a b := by
  have ht : Tracked env ((create sessionId events rest).run env ops) :=
    (create_tracked sessionId events rest).run ops
  constructor
  · rintro ⟨hunique, -⟩
    exact ht.fencesUnique_iff.mp hunique
  · intro hnever
    have hunique := ht.fencesUnique_iff.mpr hnever
    exact ⟨hunique, ht.staleRefused hunique⟩

def overtaken : History Unit :=
  (create "s".toList [⟨['a'], none⟩, ⟨['b'], none⟩, ⟨['c'], none⟩] ()).run codePointEnv
    [.claim { leaseMs := some 1000 } 0 0,
      .claim { limit := some 2, leaseMs := some 300000 } 1000 1000, .claim {} 2000 2000]

/-- The third event carries fence 4 twice, and an acknowledgement for its expired claim settles
it. -/
theorem fence_repeats : overtaken.claims.map key =
      [(['a'], 2), (['b'], 3), (['c'], 4), (['a'], 3), (['b'], 4), (['c'], 4)] ∧
    ¬ overtaken.FencesUnique ∧ ¬ overtaken.StaleRefused codePointEnv := by
  refine ⟨by decide +kernel, by decide +kernel, ?_⟩
  intro hrefused
  obtain ⟨c, d, hsub, hid, hfence⟩ : ∃ c d, [c, d].Sublist overtaken.claims ∧
      c.event.publicEventId = d.event.publicEventId ∧ c.key = (['c'], 4) :=
    ⟨overtaken.claims.get ⟨2, by decide +kernel⟩, overtaken.claims.get ⟨5, by decide +kernel⟩,
      by decide +kernel, by decide +kernel, by decide +kernel⟩
  have hack := (hrefused c d hsub hid).1 1 3000 3000
  have hname : c.event.publicEventId = ['c'] := congrArg Prod.fst hfence
  have hfour : c.claimFence = 4 := congrArg Prod.snd hfence
  rw [hname, hfour] at hack
  revert hack
  decide +kernel

end History

end Vibrato.Coordinator
