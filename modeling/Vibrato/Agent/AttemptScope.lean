import Vibrato.Lib.OrderedMap
import Vibrato.Lib.Runs

/-! The authority over attempt scopes (`agent/src/attempt-scope.ts`): a side lineage is registered
with the authority of its own that decides which of its scopes is current, and retired by the
disposer that the registration returned. -/

namespace Vibrato.Agent

open Lib List OrderedMap Option

inductive AttemptLineage where
  | main
  | side (id : String)
deriving DecidableEq

structure AttemptScope where
  attemptId : String
  generation : Nat
  lineage : AttemptLineage
deriving DecidableEq

/-- `LineageCurrentness`, as `createLineageCurrentness` makes it. -/
structure LineageCurrentness where
  lineage : AttemptLineage
  current : Nat := 0
  currentAttemptId : Option String := none
deriving DecidableEq

namespace LineageCurrentness

variable (auth : LineageCurrentness)

def isCurrent (scope : AttemptScope) : Bool :=
  scope.lineage = auth.lineage && scope.generation = auth.current &&
    some scope.attemptId = auth.currentAttemptId

/-- `advance`, which returns the new `current`. -/
def advance (attemptId : String) : LineageCurrentness :=
  { auth with currentAttemptId := some attemptId, current := auth.current + 1 }

def lastMinted : Option AttemptScope :=
  auth.currentAttemptId.map fun attemptId =>
    { attemptId, generation := auth.current, lineage := auth.lineage }

theorem isCurrent_lastMinted {auth : LineageCurrentness} {scope : AttemptScope}
    (h : auth.lastMinted = some scope) : auth.isCurrent scope = true := by
  obtain ⟨attemptId, hid, rfl⟩ := map_eq_some_iff.mp h
  simp [isCurrent, hid]

end LineageCurrentness

def SIDE_LRU_CAP : Nat := 1024

/-- A call of `registerSide`, which its disposer closes over: the authority stands for the object by
its number. Whether the disposer has been called is recorded with it. -/
structure Registration where
  lineage : AttemptLineage
  auth : Nat
  disposed : Bool := false
deriving DecidableEq

/-- The variables of `createAttemptScopeAuthority`, with the authority objects of lineages and the
registrations made so far. -/
structure AttemptScopeAuthority where
  mainAuth : LineageCurrentness := { lineage := .main }
  sideAuths : OrderedMap AttemptLineage Nat := .empty
  sideOrder : List AttemptLineage := []
  retiredSet : List AttemptLineage := []
  auths : List LineageCurrentness := []
  registrations : List Registration := []

namespace AttemptScopeAuthority

/-- The body of the loop of `evictRetiredIfNeeded`, for the retired lineage at `i`. -/
def evictAt (s : AttemptScopeAuthority) (i : Nat) : AttemptScopeAuthority :=
  let sideOrder := s.sideOrder.eraseIdx i
  match s.sideOrder[i]? with
  | none => { s with sideOrder }
  | some removed =>
    { s with
      sideOrder
      sideAuths := s.sideAuths.erase removed
      retiredSet := s.retiredSet.filter (· ≠ removed) }

/-- The loop of `evictRetiredIfNeeded`; every turn removes an entry of `sideOrder`. -/
def evictLoop : Nat → AttemptScopeAuthority → AttemptScopeAuthority
  | 0, s => s
  | turns + 1, s =>
    if SIDE_LRU_CAP < s.sideOrder.length then
      match s.sideOrder.findIdx? (· ∈ s.retiredSet) with
      | none => s
      | some i => evictLoop turns (s.evictAt i)
    else s

variable (s : AttemptScopeAuthority)

def evictRetiredIfNeeded : AttemptScopeAuthority :=
  evictLoop s.sideOrder.length s

def registerSide (lineage : AttemptLineage) (auth : Nat) : AttemptScopeAuthority :=
  let sideOrder := if s.sideAuths.has lineage then s.sideOrder.erase lineage else s.sideOrder
  evictRetiredIfNeeded
    { s with
      sideAuths := s.sideAuths.set lineage auth
      sideOrder := sideOrder ++ [lineage]
      registrations := s.registrations ++ [{ lineage, auth }] }

/-- The disposer of registration number `k`. -/
def dispose (k : Nat) : AttemptScopeAuthority :=
  match s.registrations[k]? with
  | none => s
  | some r =>
    let s := { s with registrations := s.registrations.set k { r with disposed := true } }
    if s.sideAuths.get? r.lineage = some r.auth then
      evictRetiredIfNeeded { s with retiredSet := r.lineage :: s.retiredSet }
    else s

/-- `createLineageCurrentness`; the new object is the last one. -/
def createAuth (lineage : AttemptLineage) : AttemptScopeAuthority :=
  { s with auths := s.auths ++ [{ lineage }] }

def advanceAuth (auth : Nat) (attemptId : String) : AttemptScopeAuthority :=
  { s with auths := s.auths.modify auth (·.advance attemptId) }

/-- `mintSide`, with the random identifiers that it draws. -/
def mintSide (uuid attemptId : String) : AttemptScopeAuthority :=
  let auth := s.auths.length
  (((s.createAuth (.side uuid)).registerSide (.side uuid) auth).advanceAuth auth attemptId)

def isCurrent (s : AttemptScopeAuthority) (scope : AttemptScope) : Bool :=
  if scope.lineage = .main then s.mainAuth.isCurrent scope
  else if scope.lineage ∈ s.retiredSet then false
  else
    match s.sideAuths.get? scope.lineage with
    | some auth => (s.auths[auth]?.map (·.isCurrent scope)).getD false
    | none => false

/-- A call. `mintMain` and `advanceMain` do the same to the authority. -/
inductive Call where
  | createAuth (lineage : AttemptLineage)
  | advanceAuth (auth : Nat) (attemptId : String)
  | registerSide (lineage : AttemptLineage) (auth : Nat)
  | mintSide (uuid attemptId : String)
  | dispose (registration : Nat)
  | mintMain (attemptId : String)

def step : Call → AttemptScopeAuthority
  | .createAuth lineage => s.createAuth lineage
  | .advanceAuth auth attemptId => s.advanceAuth auth attemptId
  | .registerSide lineage auth => s.registerSide lineage auth
  | .mintSide uuid attemptId => s.mintSide uuid attemptId
  | .dispose k => s.dispose k
  | .mintMain attemptId => { s with mainAuth := s.mainAuth.advance attemptId }

def latestOf (lineage : AttemptLineage) (registrations : List Registration) : Option Registration :=
  (registrations.filter (·.lineage = lineage)).getLast?

def latest (lineage : AttemptLineage) : Option Registration :=
  latestOf lineage s.registrations

variable (lineage : AttemptLineage)

theorem latestOf_append (before after : List Registration) :
    latestOf lineage (before ++ after) = (latestOf lineage after).or (latestOf lineage before) := by
  rw [latestOf, filter_append, getLast?_append]
  rfl

theorem latestOf_singleton (r : Registration) :
    latestOf lineage [r] = if r.lineage = lineage then some r else none := by
  by_cases h : r.lineage = lineage <;> simp [latestOf, h]

variable {k : Nat} {r : Registration} {lineage : AttemptLineage} {s s' : AttemptScopeAuthority}
  {id : String} {scope : AttemptScope}

theorem registrations_split {registrations : List Registration} (h : registrations[k]? = some r) :
    registrations = registrations.take k ++ r :: registrations.drop (k + 1) := by
  obtain ⟨hk, hr⟩ := List.getElem?_eq_some_iff.mp h
  conv_lhs => rw [← take_append_drop k registrations, drop_eq_getElem_cons hk, hr]

theorem latestOf_at (before after : List Registration) (h : r.lineage = lineage) :
    latestOf lineage (before ++ r :: after) = (latestOf lineage after).or (some r) := by
  rw [← singleton_append, latestOf_append, latestOf_append, latestOf_singleton, if_pos h,
    Option.or_assoc, Option.some_or]

theorem latestOf_other (before after : List Registration) (h : r.lineage ≠ lineage) :
    latestOf lineage (before ++ r :: after) = latestOf lineage (before ++ after) := by
  rw [← singleton_append, latestOf_append, latestOf_append, latestOf_append, latestOf_singleton,
    if_neg h, or_none]

structure Tracks (s : AttemptScopeAuthority) : Prop where
  registered : ∀ {lineage r}, s.latest lineage = some r →
    s.sideAuths.get? lineage = some r.auth ∨ s.sideAuths.get? lineage = none
  disposed : ∀ {lineage r}, s.latest lineage = some r → r.disposed = true →
    lineage ∈ s.retiredSet ∨ s.sideAuths.get? lineage = none

structure KeepsLive (s : AttemptScopeAuthority) : Prop where
  live : ∀ {lineage r}, s.latest lineage = some r → r.disposed = false →
    s.sideAuths.get? lineage = some r.auth ∧ lineage ∉ s.retiredSet

structure Evicts (s s' : AttemptScopeAuthority) : Prop where
  registrations : s'.registrations = s.registrations
  kept : ∀ lineage, lineage ∉ s.retiredSet →
    s'.sideAuths.get? lineage = s.sideAuths.get? lineage ∧ lineage ∉ s'.retiredSet
  retired : ∀ lineage ∈ s.retiredSet,
    (lineage ∈ s'.retiredSet ∧ s'.sideAuths.get? lineage = s.sideAuths.get? lineage) ∨
      s'.sideAuths.get? lineage = none

theorem Evicts.refl (s : AttemptScopeAuthority) : Evicts s s :=
  ⟨rfl, fun _ h => ⟨rfl, h⟩, fun _ h => .inl ⟨h, rfl⟩⟩

theorem Evicts.trans {s'' : AttemptScopeAuthority} (h : Evicts s s') (h' : Evicts s' s'') :
    Evicts s s'' := by
  refine ⟨h'.registrations.trans h.registrations, ?_, ?_⟩
  · intro lineage hlive
    obtain ⟨hget, hlive'⟩ := h.kept lineage hlive
    obtain ⟨hget', hlive''⟩ := h'.kept lineage hlive'
    exact ⟨hget'.trans hget, hlive''⟩
  · intro lineage hretired
    rcases h.retired lineage hretired with ⟨hretired', hget⟩ | hgone
    · rcases h'.retired lineage hretired' with ⟨hretired'', hget'⟩ | hgone
      · exact .inl ⟨hretired'', hget'.trans hget⟩
      · exact .inr hgone
    · by_cases hretired' : lineage ∈ s'.retiredSet
      · rcases h'.retired lineage hretired' with ⟨-, hget'⟩ | hgone'
        · exact .inr (hget'.trans hgone)
        · exact .inr hgone'
      · exact .inr ((h'.kept lineage hretired').1.trans hgone)

theorem evictAt_evicts {i : Nat} {removed : AttemptLineage}
    (hat : s.sideOrder[i]? = some removed) (hretired : removed ∈ s.retiredSet) :
    Evicts s (s.evictAt i) := by
  unfold evictAt
  rw [hat]
  refine ⟨rfl, ?_, ?_⟩
  · intro lineage hlive
    have hne : lineage ≠ removed := fun heq => hlive (heq ▸ hretired)
    refine ⟨s.sideAuths.get?_erase_ne hne, ?_⟩
    simp [hlive]
  · intro lineage hmem
    by_cases heq : lineage = removed
    · rw [heq]
      exact .inr (s.sideAuths.get?_erase_self removed)
    · refine .inl ⟨?_, s.sideAuths.get?_erase_ne heq⟩
      simp [hmem, heq]

theorem evictLoop_evicts (turns : Nat) (s : AttemptScopeAuthority) :
    Evicts s (evictLoop turns s) := by
  induction turns generalizing s with
  | zero => exact .refl s
  | succ turns ih =>
    unfold evictLoop
    split
    · cases hfound : s.sideOrder.findIdx? (· ∈ s.retiredSet) with
      | none => exact .refl s
      | some i =>
        obtain ⟨hi, hretired, -⟩ := findIdx?_eq_some_iff_getElem.mp hfound
        have hat : s.sideOrder[i]? = some s.sideOrder[i] := getElem?_eq_getElem hi
        exact (evictAt_evicts hat (of_decide_eq_true hretired)).trans (ih (s.evictAt i))
    · exact .refl s

theorem evictRetiredIfNeeded_evicts (s : AttemptScopeAuthority) : Evicts s s.evictRetiredIfNeeded :=
  evictLoop_evicts _ s

theorem Evicts.tracks (h : Evicts s s') (hs : s.Tracks) : s'.Tracks := by
  have hlatest : ∀ lineage, s'.latest lineage = s.latest lineage := by
    intro lineage
    rw [latest, h.registrations, latest]
  refine ⟨?_, ?_⟩
  · intro lineage r hr
    rw [hlatest] at hr
    by_cases hretired : lineage ∈ s.retiredSet
    · rcases h.retired lineage hretired with ⟨-, hget⟩ | hgone
      · rw [hget]
        exact hs.registered hr
      · exact .inr hgone
    · rw [(h.kept lineage hretired).1]
      exact hs.registered hr
  · intro lineage r hr hdisposed
    rw [hlatest] at hr
    by_cases hretired : lineage ∈ s.retiredSet
    · exact (h.retired lineage hretired).imp And.left id
    · rw [(h.kept lineage hretired).1]
      exact .inr ((hs.disposed hr hdisposed).resolve_left hretired)

theorem Evicts.keepsLive (h : Evicts s s') (hs : s.KeepsLive) : s'.KeepsLive := by
  refine ⟨fun {lineage r} hr hlive => ?_⟩
  rw [latest, h.registrations] at hr
  obtain ⟨hget, hretired⟩ := hs.live hr hlive
  obtain ⟨hget', hretired'⟩ := h.kept lineage hretired
  exact ⟨hget'.trans hget, hretired'⟩

/-- What a call may rely on: a lineage is not registered while its mark of an earlier disposal
stands, and an old disposer is not called when the latest registration, not disposed, has the same
authority object. -/
def Sound (s : AttemptScopeAuthority) : Call → Prop
  | .registerSide lineage _ => lineage ∉ s.retiredSet
  | .mintSide uuid _ => .side uuid ∉ s.retiredSet
  | .dispose k =>
    ∀ r ∈ s.registrations[k]?, ∀ later ∈ latestOf r.lineage (s.registrations.drop (k + 1)),
      later.disposed = true ∨ later.auth ≠ r.auth
  | _ => True

instance (s : AttemptScopeAuthority) : (c : Call) → Decidable (s.Sound c)
  | .registerSide lineage _ => inferInstanceAs (Decidable (lineage ∉ s.retiredSet))
  | .mintSide uuid _ => inferInstanceAs (Decidable (.side uuid ∉ s.retiredSet))
  | .dispose k => inferInstanceAs (Decidable (∀ r ∈ s.registrations[k]?,
      ∀ later ∈ latestOf r.lineage (s.registrations.drop (k + 1)), later.disposed = true ∨
        later.auth ≠ r.auth))
  | .createAuth _ => inferInstanceAs (Decidable True)
  | .advanceAuth _ _ => inferInstanceAs (Decidable True)
  | .mintMain _ => inferInstanceAs (Decidable True)

theorem latest_registered (s : AttemptScopeAuthority) (registered lineage : AttemptLineage)
    (auth : Nat) :
    latestOf lineage (s.registrations ++ [{ lineage := registered, auth }]) =
      if registered = lineage then some { lineage := registered, auth } else s.latest lineage := by
  rw [latestOf_append, latestOf_singleton]
  split <;> rfl

theorem Tracks.registerSide (h : s.Tracks) (registered : AttemptLineage)
    (auth : Nat) : (s.registerSide registered auth).Tracks := by
  refine (evictRetiredIfNeeded_evicts _).tracks ⟨?_, ?_⟩
  · intro lineage r hr
    rw [latest, latest_registered] at hr
    split at hr
    · next heq =>
      cases hr
      rw [heq, get?_set_self]
      exact .inl rfl
    · next hne =>
      rw [get?_set_ne _ _ (Ne.symm hne)]
      exact h.registered hr
  · intro lineage r hr hdisposed
    rw [latest, latest_registered] at hr
    split at hr
    · cases hr
      cases hdisposed
    · next hne =>
      rw [get?_set_ne _ _ (Ne.symm hne)]
      exact h.disposed hr hdisposed

theorem KeepsLive.registerSide (h : s.KeepsLive) {registered : AttemptLineage}
    (auth : Nat) (hfresh : registered ∉ s.retiredSet) :
    (s.registerSide registered auth).KeepsLive := by
  refine (evictRetiredIfNeeded_evicts _).keepsLive ⟨fun {lineage r} hr hlive => ?_⟩
  rw [latest, latest_registered] at hr
  split at hr
  · next heq =>
    cases hr
    subst heq
    exact ⟨get?_set_self .., hfresh⟩
  · next hne =>
    rw [get?_set_ne _ _ (Ne.symm hne)]
    exact h.live hr hlive

theorem latest_of_disposed {latest' : Registration} (hr : s.registrations[k]? = some r)
    (h : latestOf lineage (s.registrations.set k { r with disposed := true }) = some latest') :
    (s.latest lineage = some latest' ∧
      (r.lineage = lineage → latestOf lineage (s.registrations.drop (k + 1)) = some latest')) ∨
    (r.lineage = lineage ∧ s.latest lineage = some r ∧ latest' = { r with disposed := true }) := by
  have hk : k < s.registrations.length := (List.getElem?_eq_some_iff.mp hr).1
  have hbefore := registrations_split hr
  rw [set_eq_take_append_cons_drop, if_pos hk] at h
  by_cases heq : r.lineage = lineage
  · have hold :
        s.latest lineage = (latestOf lineage (s.registrations.drop (k + 1))).or (some r) := by
      rw [latest]
      conv_lhs => rw [hbefore]
      exact latestOf_at _ _ heq
    rw [latestOf_at _ _ (by exact heq)] at h
    rw [hold]
    cases hlater : latestOf lineage (s.registrations.drop (k + 1)) with
    | none =>
      rw [hlater] at h
      exact .inr ⟨heq, rfl, (some.inj h).symm⟩
    | some later =>
      rw [hlater] at h
      exact .inl ⟨h, fun _ => h⟩
  · rw [latestOf_other _ _ (by exact heq)] at h
    refine .inl ⟨?_, fun heq' => absurd heq' heq⟩
    rw [latest, hbefore, latestOf_other _ _ heq]
    exact h

theorem Tracks.dispose (h : s.Tracks) (k : Nat) : (s.dispose k).Tracks := by
  unfold AttemptScopeAuthority.dispose
  cases hr : s.registrations[k]? with
  | none => exact h
  | some r =>
    have hregistered : ∀ {lineage latest'},
        latestOf lineage (s.registrations.set k { r with disposed := true }) = some latest' →
        s.sideAuths.get? lineage = some latest'.auth ∨ s.sideAuths.get? lineage = none := by
      intro lineage latest' hlatest
      rcases latest_of_disposed hr hlatest with ⟨hold, -⟩ | ⟨-, hold, hauth⟩
      · exact h.registered hold
      · rw [hauth]
        exact h.registered (r := r) hold
    dsimp only
    split
    · refine (evictRetiredIfNeeded_evicts _).tracks ⟨hregistered, ?_⟩
      intro lineage latest' hlatest hdisposed
      rcases latest_of_disposed hr hlatest with ⟨hold, -⟩ | ⟨heq, -, -⟩
      · exact (h.disposed hold hdisposed).imp_left (mem_cons_of_mem _)
      · exact .inl (heq ▸ mem_cons_self)
    · next hget =>
      refine ⟨hregistered, ?_⟩
      intro lineage latest' hlatest hdisposed
      rcases latest_of_disposed hr hlatest with ⟨hold, -⟩ | ⟨heq, hold, -⟩
      · exact h.disposed hold hdisposed
      · subst heq
        exact .inr ((h.registered hold).resolve_left hget)

theorem KeepsLive.dispose (h : s.KeepsLive) (hsound : s.Sound (.dispose k)) :
    (s.dispose k).KeepsLive := by
  unfold AttemptScopeAuthority.dispose
  cases hr : s.registrations[k]? with
  | none => exact h
  | some r =>
    have hlive : ∀ {lineage latest'},
        latestOf lineage (s.registrations.set k { r with disposed := true }) = some latest' →
        latest'.disposed = false → s.sideAuths.get? lineage = some latest'.auth ∧
          lineage ∉ s.retiredSet ∧ (r.lineage = lineage → latest'.auth ≠ r.auth) := by
      intro lineage latest' hlatest hopen
      rcases latest_of_disposed hr hlatest with ⟨hold, hlater⟩ | ⟨-, -, rfl⟩
      · obtain ⟨hget, hretired⟩ := h.live hold hopen
        refine ⟨hget, hretired, fun heq => ?_⟩
        have hmem := hlater heq
        subst heq
        exact (hsound r hr latest' hmem).resolve_left (by simp [hopen])
      · cases hopen
    dsimp only
    split
    · next hget =>
      refine (evictRetiredIfNeeded_evicts _).keepsLive ⟨fun {lineage latest'} hlatest hopen => ?_⟩
      obtain ⟨hget', hretired, hother⟩ := hlive hlatest hopen
      refine ⟨hget', ?_⟩
      rw [mem_cons, not_or]
      refine ⟨fun heq => ?_, hretired⟩
      subst heq
      rw [hget] at hget'
      exact hother rfl (some.inj hget').symm
    · refine ⟨fun {lineage latest'} hlatest hopen => ?_⟩
      obtain ⟨hget', hretired, -⟩ := hlive hlatest hopen
      exact ⟨hget', hretired⟩

theorem Tracks.step {s : AttemptScopeAuthority} (h : s.Tracks) (c : Call) : (s.step c).Tracks := by
  cases c with
  | createAuth lineage => exact ⟨h.registered, h.disposed⟩
  | advanceAuth auth attemptId => exact ⟨h.registered, h.disposed⟩
  | registerSide lineage auth => exact h.registerSide lineage auth
  | mintSide uuid attemptId =>
    have hcreated : (s.createAuth (.side uuid)).Tracks := ⟨h.registered, h.disposed⟩
    have hregistered := hcreated.registerSide (.side uuid) s.auths.length
    exact ⟨hregistered.registered, hregistered.disposed⟩
  | dispose k => exact h.dispose k
  | mintMain attemptId => exact ⟨h.registered, h.disposed⟩

theorem KeepsLive.step {s : AttemptScopeAuthority} (h : s.KeepsLive) {c : Call}
    (hsound : s.Sound c) :
    (s.step c).KeepsLive := by
  cases c with
  | createAuth lineage => exact ⟨h.live⟩
  | advanceAuth auth attemptId => exact ⟨h.live⟩
  | registerSide lineage auth => exact h.registerSide auth hsound
  | mintSide uuid attemptId =>
    have hcreated : (s.createAuth (.side uuid)).KeepsLive := ⟨h.live⟩
    exact ⟨(hcreated.registerSide s.auths.length hsound).live⟩
  | dispose k => exact h.dispose hsound
  | mintMain attemptId => exact ⟨h.live⟩

theorem tracks_run (calls : List Call) : (calls.foldl step {}).Tracks := by
  have hstart : ({} : AttemptScopeAuthority).Tracks := ⟨nofun, nofun⟩
  exact List.foldlRecOn calls step hstart fun s hs c _ => Tracks.step hs c

theorem keepsLive_run {calls : List Call} (h : Guarded step Sound {} calls) :
    (calls.foldl step {}).KeepsLive := by
  have hstart : ({} : AttemptScopeAuthority).KeepsLive := ⟨nofun⟩
  exact h.invariant (I := fun _ s => s.KeepsLive)
    (fun _ _ hs hsound => KeepsLive.step hs hsound) hstart

theorem KeepsLive.isCurrent (h : s.KeepsLive)
    (hr : s.latest (.side id) = some r) (hopen : r.disposed = false) {auth : LineageCurrentness}
    (hauth : s.auths[r.auth]? = some auth) (hlineage : auth.lineage = .side id)
    (hscope : auth.lastMinted = some scope) : s.isCurrent scope = true := by
  obtain ⟨hget, hretired⟩ := h.live hr hopen
  have hcurrent := LineageCurrentness.isCurrent_lastMinted hscope
  have hside : scope.lineage = .side id := by
    obtain ⟨attemptId, -, rfl⟩ := map_eq_some_iff.mp hscope
    exact hlineage
  simp [AttemptScopeAuthority.isCurrent, hside, hretired, hget, hauth, hcurrent]

theorem Tracks.not_isCurrent (h : s.Tracks) (hr : s.latest (.side id) = some r)
    (hdisposed : r.disposed = true)
    (hside : scope.lineage = .side id) : s.isCurrent scope = false := by
  rcases h.disposed hr hdisposed with hretired | hgone
  · simp [AttemptScopeAuthority.isCurrent, hside, hretired]
  · simp [AttemptScopeAuthority.isCurrent, hside, hgone]

/-- What a state does for the latest registration of a side lineage: the scope minted last from its
authority is current until it is disposed, and no scope of the lineage is after that. -/
def DecidesBy (s : AttemptScopeAuthority) (id : String) (r : Registration) : Prop :=
  (r.disposed = false → ∀ auth, s.auths[r.auth]? = some auth → auth.lineage = .side id →
    ∀ scope, auth.lastMinted = some scope → s.isCurrent scope = true) ∧
  (r.disposed = true → ∀ scope, scope.lineage = .side id → s.isCurrent scope = false)

/-- In a run without a registration of a lineage that is still marked as retired, and without an old
disposer that acts on a newer registration, currentness follows the latest registration of each
lineage. -/
theorem decidesBy_latest {calls : List Call} (h : Guarded step Sound {} calls) {id : String}
    {r : Registration} (hr : (calls.foldl step {}).latest (.side id) = some r) :
    (calls.foldl step {}).DecidesBy id r :=
  ⟨fun hopen _ hauth hlineage _ hscope =>
    (keepsLive_run h).isCurrent hr hopen hauth hlineage hscope,
    fun hdisposed _ hside => (tracks_run calls).not_isCurrent hr hdisposed hside⟩

/-- Two lineages, of which the one is disposed and the other registered again with another
authority. -/
theorem decidesBy_registered_again :
    ((([.createAuth (.side "a"), .registerSide (.side "a") 0, .mintSide "b" "1", .dispose 1,
        .createAuth (.side "a"), .registerSide (.side "a") 2, .dispose 0,
        .advanceAuth 2 "2"] : List Call).foldl step {}).DecidesBy "a" ⟨.side "a", 2, false⟩) :=
  decidesBy_latest (by decide) (by decide)

/-- A lineage that is registered again after it was disposed: its new scope is not current. -/
theorem not_decidesBy_after_dispose :
    ¬∀ (calls : List Call) (id : String) (r : Registration),
      (calls.foldl step {}).latest (.side id) = some r → (calls.foldl step {}).DecidesBy id r := by
  intro h
  have hlatest := (h [.createAuth (.side "a"), .registerSide (.side "a") 0, .dispose 0,
    .createAuth (.side "a"), .registerSide (.side "a") 1, .advanceAuth 1 "1"] "a"
      ⟨.side "a", 1, false⟩
    (by decide)).1 rfl ⟨.side "a", 1, some "1"⟩ (by decide) rfl ⟨"1", 1, .side "a"⟩ (by decide)
  revert hlatest
  decide

end AttemptScopeAuthority

end Vibrato.Agent
