import Vibrato.Lib.Runs
import Vibrato.Session.FoldCoordinator

namespace Vibrato.Session.Fold

open Vibrato.Jobs Lib List FoldSlot

def FoldRequestResult.isFolded : FoldRequestResult → Bool
  | folded _ => true
  | _ => false

/-- The fence is released once if it was armed and the call does not fold, and never otherwise. -/
def wellFenced : List CallEvent → Bool
  | [] => true
  | [.armed] => true
  | [.returned _] => true
  | [.armed, .returned result] => result.isFolded
  | [.armed, .released, .returned result] => !result.isFolded
  | _ => false

/-- `expected` is the receipt of the last call that folded, unless it was retired since; `agree`
says that so far deliveries have carried it, and that none carried a receipt before a call
folded. -/
structure Receipts where
  expected : Option FoldReceipt
  folded : Bool
  agree : Bool

namespace Receipts

def start : Receipts := ⟨none, false, true⟩

def observe (r : Receipts) : ReceiptEvent → Receipts
  | .folded receipt => { r with expected := some receipt, folded := true }
  | .retired => { r with expected := none }
  | .delivered (.receipt receipt _) =>
    { r with agree := r.agree && match r.expected with
      | some expected => decide (receipt = expected)
      | none => r.folded }
  | .delivered _ => { r with agree := r.agree && r.expected.isNone }

end Receipts

/-- A completion that is parked has its timer and was not handed over yet; one that was parked was
handed over once. -/
def HandedOnce (slot : Option FoldSlot) (timers : List Int) (parkings handings : List Text) :
    Prop :=
  match slot with
  | some (.reserved _ (some payload) parkedAt) =>
    handings = [] ∧ parkings.getLast? = some payload.text ∧
      ∃ since ∈ parkedAt, since + FOLD_WAKE_MERGE_WINDOW_MS * 4 ∈ timers
  | _ => parkings = [] ∧ handings = [] ∨ ∃ text, parkings.getLast? = some text ∧ handings = [text]

namespace FoldState

variable (s : FoldState)

def traceOf (call : Nat) : List CallEvent :=
  s.trace.filterMap fun event => if event.1 = call then some event.2 else none

def receipts : Receipts := s.history.foldl Receipts.observe .start

structure Correct (s : FoldState) : Prop where
  fences : ∀ call, wellFenced (s.traceOf call) = true
  completions : HandedOnce s.slot s.timers s.parkings s.handings
  receipts : s.receipts.agree = true

def reserves (request : FoldRequest) : Option FoldAdapter :=
  (request.explicit <|> s.resolveTarget).filter fun adapter =>
    request.getJob && decide (s.generation = adapter.jobGeneration) && !s.folding && s.slot.isNone

def isReserved : Bool :=
  s.slot.any fun
    | .reserved .. => true
    | .present .. => false

/-- A call reserves the slot only while no other is capturing, and only if no receipt is carried or
its own observer has settled; a capture does not end with a parked completion whose observer has
settled, unless the fold is rolled back; a delivery does not park what was handed over before; the
timer does not find the receipt of a job that is paused; and a cancellation finds no parked
completion. -/
def Sound : Step → Prop
  | .requestFold request => ∀ adapter ∈ s.reserves request,
    s.capturing = [] ∧ (s.carrier = none ∨ adapter.id ∈ s.settled)
  | .captured call _ => s.capturing.any (·.call = call) = true → ∀ slot ∈ s.slot,
    slot.parked = none ∨ slot.adapter.id ∉ s.settled ∨ s.isAborted slot.adapter = true ∨
      s.status ≠ .running
  | .deliver _ => s.carrier = none → s.isReserved = true → s.handings = []
  | .parkingTimer _ => s.status = .paused → s.slot = none ∨ s.isReserved = true
  | .cancel => s.slot.bind parked = none
  | _ => True

instance (s : FoldState) : (e : Step) → Decidable (s.Sound e)
  | .requestFold request => inferInstanceAs (Decidable (∀ adapter ∈ s.reserves request, _ ∧ _))
  | .captured _ _ => inferInstanceAs (Decidable (_ → ∀ slot ∈ s.slot, _))
  | .deliver _ => inferInstanceAs (Decidable (_ → _ → _))
  | .parkingTimer _ => inferInstanceAs (Decidable (_ → _ ∨ _))
  | .cancel => inferInstanceAs (Decidable (_ = _))
  | .tick _ | .setStatus _ | .registerParticipant _ | .unregister _ | .captureFails _ _ | .abort _
  | .observerSettles _ => inferInstanceAs (Decidable True)

end FoldState

section HandedOnce

variable {slot : Option FoldSlot} {timers : List Int} {parkings handings : List Text}

theorem handedOnce_unparked (h : slot.bind parked = none) :
    HandedOnce slot timers parkings handings ↔
      parkings = [] ∧ handings = [] ∨ ∃ text, parkings.getLast? = some text ∧
        handings = [text] := by
  rcases slot with _ | ⟨a, _ | payload, since⟩ | ⟨a, r⟩
  · rfl
  · rfl
  · cases h
  · rfl

theorem HandedOnce.parked {payload : ForegroundTerminalPayload}
    (h : HandedOnce slot timers parkings handings) (hslot : slot.bind parked = some payload) :
    handings = [] ∧ parkings.getLast? = some payload.text := by
  rcases slot with _ | ⟨a, _ | payload', since⟩ | ⟨a, r⟩
  · cases hslot
  · cases hslot
  · cases hslot
    exact ⟨h.1, h.2.1⟩
  · cases hslot

def parkedTexts (slot : Option FoldSlot) : List Text :=
  (slot.bind parked).toList.map (·.text)

theorem HandedOnce.handOver (h : HandedOnce slot timers parkings handings) {slot' : Option FoldSlot}
    (hslot' : slot'.bind FoldSlot.parked = none) :
    HandedOnce slot' timers parkings (handings ++ parkedTexts slot) := by
  rw [handedOnce_unparked hslot']
  unfold parkedTexts
  cases hparked : slot.bind FoldSlot.parked with
  | none =>
    rw [handedOnce_unparked hparked] at h
    simpa using h
  | some payload =>
    obtain ⟨hnone, hlast⟩ := h.parked hparked
    exact .inr ⟨payload.text, hlast, by simp [hnone]⟩

end HandedOnce

variable (history : List ReceiptEvent)

def receiptsOf : Receipts := history.foldl Receipts.observe .start

theorem receiptsOf_append (event : ReceiptEvent) :
    receiptsOf (history ++ [event]) = (receiptsOf history).observe event :=
  foldl_append

/-- The expected receipt is carried, or is in the slot; and a slot is reserved beside a carried
receipt only for a wait whose observer has settled, so that it cannot fold again. -/
structure Kept (slot : Option FoldSlot) (carrier : Option FoldReceipt) (settled : List Nat)
    (timers : List Int) (parkings handings : List Text) (history : List ReceiptEvent) : Prop where
  handed : HandedOnce slot timers parkings handings
  agree : (receiptsOf history).agree = true
  expected : ∀ {r}, (receiptsOf history).expected = some r →
    carrier = some r ∨ carrier = none ∧ ∃ a, slot = some (.present a r)
  folded : ∀ {r}, carrier = some r ∨ (∃ a, slot = some (.present a r)) →
    (receiptsOf history).folded = true
  parked : ∀ {payload}, slot.bind parked = some payload → carrier = none
  carried : ∀ {r slot'}, carrier = some r → slot = some slot' →
    ∃ a parked parkedAt, slot' = .reserved a parked parkedAt ∧ a.id ∈ settled

namespace Kept

variable {slot : Option FoldSlot} {carrier : Option FoldReceipt} {settled settled' : List Nat}
  {timers : List Int} {parkings handings : List Text} {history : List ReceiptEvent}

variable (h : Kept slot carrier settled timers parkings handings history)
include h

theorem settle (hsettled : ∀ id ∈ settled, id ∈ settled') :
    Kept slot carrier settled' timers parkings handings history :=
  { h with
    carried := fun hcarrier hslot => by
      obtain ⟨a, parked, parkedAt, heq, ha⟩ := h.carried hcarrier hslot
      exact ⟨a, parked, parkedAt, heq, hsettled _ ha⟩ }

theorem clear (hslot : ∀ a r, slot ≠ some (.present a r)) :
    Kept none carrier settled timers parkings (handings ++ parkedTexts slot) history where
  handed := h.handed.handOver rfl
  agree := h.agree
  expected hr := by
    rcases h.expected hr with hcarried | ⟨-, a, hpresent⟩
    · exact .inl hcarried
    · exact absurd hpresent (hslot a _)
  folded hr := by
    rcases hr with hcarried | ⟨a, hpresent⟩
    · exact h.folded (.inl hcarried)
    · cases hpresent
  parked hpayload := by cases hpayload
  carried _ hsome := by cases hsome

theorem drop (hslot : ∀ a r, slot ≠ some (.present a r))
    (hparked : slot.bind FoldSlot.parked = none) :
    Kept none carrier settled timers parkings handings history := by
  have hclear := h.clear hslot
  unfold parkedTexts at hclear
  rw [hparked] at hclear
  simpa using hclear

omit h

variable {a adapter : FoldAdapter} {r : FoldReceipt}

theorem retire (h : Kept (some (.present a r)) carrier settled timers parkings handings history) :
    Kept none carrier settled timers parkings handings (history ++ [.retired]) := by
  have hcarrier : carrier = none := by
    cases hcarrier : carrier with
    | none => rfl
    | some r' =>
      obtain ⟨_, _, _, heq, -⟩ := h.carried hcarrier rfl
      cases heq
  refine ⟨(handedOnce_unparked rfl).mpr ((handedOnce_unparked rfl).mp h.handed), ?_, ?_, ?_,
    fun hpayload => (by cases hpayload), fun _ hsome => by cases hsome⟩
  · rw [receiptsOf_append]
    exact h.agree
  · intro r' hr'
    rw [receiptsOf_append] at hr'
    cases hr'
  · rintro r' (hcarried | ⟨_, hpresent⟩)
    · rw [hcarrier] at hcarried
      cases hcarried
    · cases hpresent

theorem reserve (h : Kept none carrier settled timers parkings handings history)
    (hcarrier : carrier = none ∨ adapter.id ∈ settled) :
    Kept (some (.reserved adapter none none)) carrier settled timers parkings handings history where
  handed := (handedOnce_unparked rfl).mpr ((handedOnce_unparked rfl).mp h.handed)
  agree := h.agree
  expected hr := by
    rcases h.expected hr with hcarried | ⟨-, a, hpresent⟩
    · exact .inl hcarried
    · cases hpresent
  folded hr := by
    rcases hr with hcarried | ⟨a, hpresent⟩
    · exact h.folded (.inl hcarried)
    · cases hpresent
  parked hpayload := by cases hpayload
  carried hcarried hsome := by
    cases hsome
    refine ⟨adapter, none, none, rfl, hcarrier.resolve_left fun hnone => ?_⟩
    rw [hnone] at hcarried
    cases hcarried

theorem fold (h : Kept slot none settled timers parkings handings history) (adapter : FoldAdapter)
    (receipt : FoldReceipt) (hparked : slot.bind FoldSlot.parked = none) :
    Kept (some (.present adapter receipt)) none settled timers parkings handings
      (history ++ [.folded receipt]) := by
  refine ⟨(handedOnce_unparked rfl).mpr ((handedOnce_unparked hparked).mp h.handed), ?_, ?_, ?_,
    fun hpayload => (by cases hpayload), fun hcarried => by cases hcarried⟩
  · rw [receiptsOf_append]
    exact h.agree
  · intro r hr
    rw [receiptsOf_append] at hr
    cases hr
    exact .inr ⟨rfl, adapter, rfl⟩
  · intro r _
    rw [receiptsOf_append]
    rfl

theorem foldParked (h : Kept slot none settled timers parkings handings history)
    (receipt : FoldReceipt) :
    Kept none (some receipt) settled timers parkings (handings ++ parkedTexts slot)
      (history ++ [.folded receipt]) := by
  refine ⟨h.handed.handOver rfl, ?_, ?_, ?_, fun hpayload => (by cases hpayload),
    fun _ hsome => by cases hsome⟩
  · rw [receiptsOf_append]
    exact h.agree
  · intro r hr
    rw [receiptsOf_append] at hr
    cases hr
    exact .inl rfl
  · intro r _
    rw [receiptsOf_append]
    rfl

theorem observe (h : Kept slot carrier settled timers parkings handings history)
    (disposition : FoldDeliveryDisposition)
    (hagree : ((receiptsOf history).observe (.delivered disposition)).agree = true) :
    Kept slot carrier settled timers parkings handings (history ++ [.delivered disposition]) := by
  have hsame : ((receiptsOf history).observe (.delivered disposition)).expected =
      (receiptsOf history).expected ∧
      ((receiptsOf history).observe (.delivered disposition)).folded =
        (receiptsOf history).folded := by
    cases disposition <;> exact ⟨rfl, rfl⟩
  refine { h with agree := ?_, expected := ?_, folded := ?_ }
  · rw [receiptsOf_append]
    exact hagree
  · intro r hr
    rw [receiptsOf_append, hsame.1] at hr
    exact h.expected hr
  · intro r hr
    rw [receiptsOf_append, hsame.2]
    exact h.folded hr

include h

theorem observe_receipt
    {receipt : FoldReceipt} (hreceipt : carrier = some receipt ∨
      carrier = none ∧ ∃ a, slot = some (.present a receipt)) (text : Text) :
    Kept slot carrier settled timers parkings handings
      (history ++ [.delivered (.receipt receipt text)]) := by
  apply h.observe
  have hfolded : (receiptsOf history).folded = true :=
    h.folded (hreceipt.imp_right And.right)
  have hexpected : ∀ r, (receiptsOf history).expected = some r → receipt = r := by
    intro r hr
    rcases h.expected hr, hreceipt with ⟨hcarried | ⟨hnone, a, hpresent⟩,
        hmine | ⟨hnone', a', hpresent'⟩⟩
    · exact Option.some.inj (hmine.symm.trans hcarried)
    · rw [hnone'] at hcarried
      cases hcarried
    · rw [hnone] at hmine
      cases hmine
    · rw [hpresent] at hpresent'
      cases hpresent'
      rfl
  show ((receiptsOf history).agree && _) = true
  rw [h.agree]
  cases hr : (receiptsOf history).expected with
  | none => exact hfolded
  | some r => exact decide_eq_true (hexpected r hr)

omit h

theorem observe_other (h : Kept slot none settled timers parkings handings history)
    (hslot : ∀ a r, slot ≠ some (.present a r)) {disposition : FoldDeliveryDisposition}
    (hother : ∀ r text, disposition ≠ .receipt r text) :
    Kept slot none settled timers parkings handings (history ++ [.delivered disposition]) := by
  apply h.observe
  have hnone : (receiptsOf history).expected = none := by
    cases hr : (receiptsOf history).expected with
    | none => rfl
    | some r =>
      rcases h.expected hr with hcarried | ⟨-, a, hpresent⟩
      · cases hcarried
      · exact absurd hpresent (hslot a r)
  cases disposition with
  | receipt r text => exact absurd rfl (hother r text)
  | ordinary =>
    show ((receiptsOf history).agree && (receiptsOf history).expected.isNone) = true
    rw [h.agree, hnone]
    rfl
  | parked =>
    show ((receiptsOf history).agree && (receiptsOf history).expected.isNone) = true
    rw [h.agree, hnone]
    rfl

theorem park {parked : Option ForegroundTerminalPayload} {parkedAt : Option Int}
    (h : Kept (some (.reserved adapter parked parkedAt)) none settled timers parkings handings
      history)
    (hhandings : handings = []) (now : Int) (text : Text) :
    Kept (some (.reserved adapter (some ⟨adapter.jobId, adapter.jobGeneration, text⟩) (some now)))
      none
      settled (timers ++ [now + FOLD_WAKE_MERGE_WINDOW_MS * 4])
        (parkings ++ [text]) handings history where
  handed := by
    refine ⟨hhandings, by simp, now, rfl, ?_⟩
    exact mem_append_right _ (mem_singleton.mpr rfl)
  agree := h.agree
  expected hr := by
    rcases h.expected hr with hcarried | ⟨-, a, hpresent⟩
    · cases hcarried
    · cases hpresent
  folded hr := by
    rcases hr with hcarried | ⟨a, hpresent⟩
    · cases hcarried
    · cases hpresent
  parked _ := rfl
  carried hcarried := by cases hcarried

theorem take (h : Kept (some (.present a r)) none settled timers parkings handings history) :
    Kept none (some r) settled timers parkings handings history where
  handed := (handedOnce_unparked rfl).mpr ((handedOnce_unparked rfl).mp h.handed)
  agree := h.agree
  expected hr := by
    rcases h.expected hr with hcarried | ⟨-, a', hpresent⟩
    · cases hcarried
    · cases hpresent
      exact .inl rfl
  folded _ := h.folded (.inr ⟨a, rfl⟩)
  parked hpayload := by cases hpayload
  carried _ hsome := by cases hsome

end Kept

namespace FoldState

variable {s : FoldState}

def IsKept (s : FoldState) : Prop :=
  Kept s.slot s.carrier s.settled s.timers s.parkings s.handings s.history

theorem deliver_kept (h : s.IsKept) (text : Text) (hsound : s.Sound (.deliver text)) :
    (s.deliver text).IsKept := by
  unfold IsKept at h
  unfold deliver
  cases hcarrier : s.carrier with
  | some r =>
    rw [onDelivery_carried hcarrier]
    exact h.observe_receipt (.inl hcarrier) text
  | none =>
    rw [hcarrier] at h
    rcases hslot : s.slot with _ | ⟨a, parked, parkedAt⟩ | ⟨a, r⟩
    · rw [onDelivery_free hcarrier hslot]
      show Kept s.slot s.carrier _ _ _ _ _
      rw [hcarrier]
      exact h.observe_other (fun _ _ heq => by rw [hslot] at heq; cases heq)
        (fun _ _ heq => by cases heq)
    · rw [onDelivery_reserved hcarrier hslot]
      rw [hslot] at h
      have hhandings : s.handings = [] := hsound hcarrier (by unfold isReserved; rw [hslot]; rfl)
      rw [hcarrier]
      exact (h.park hhandings s.now text).observe_other (fun _ _ heq => by cases heq)
        (fun _ _ heq => by cases heq)
    · rw [onDelivery_present hcarrier hslot]
      rw [hslot] at h
      exact h.take.observe_receipt (.inl rfl) text

variable {payload : ForegroundTerminalPayload} {adapter : FoldAdapter} {fences : Bool}
    {s' : FoldState}
  {slot : Option FoldSlot}

theorem parkedTexts_of_some (h : slot.bind parked = some payload) :
    parkedTexts slot = [payload.text] := by
  unfold parkedTexts
  rw [h]
  rfl

theorem mem_insert_of_mem {settled : List Nat} (adapter : FoldAdapter) :
    ∀ id ∈ settled, id ∈ if adapter.resolves then settled.insert adapter.id else settled := by
  intro id hid
  split
  · exact List.mem_insert_of_mem hid
  · exact hid

theorem resolve_kept (h : s.IsKept) (hslot : ∀ a r, s.slot ≠ some (.present a r))
    (adapter : FoldAdapter)
    (hparked : s.slot.bind parked = some payload) :
    ({ s with slot := none, folding := false }.resolveForegroundObserver adapter
      payload).IsKept := by
  have hclear := (h.clear hslot).settle (mem_insert_of_mem adapter)
  rw [parkedTexts_of_some hparked] at hclear
  exact hclear

theorem releaseFence_kept (h : s.IsKept) (call : Nat) (fences : Bool) :
    (s.releaseFence call fences).IsKept := by
  unfold releaseFence
  split <;> exact h

theorem giveUp_kept (h : s.IsKept) (call : Nat) (fences : Bool) (reason : Text) :
    (s.giveUp call fences reason).IsKept :=
  releaseFence_kept (s := { s with folding := false }) h call fences

theorem rollback_kept (h : s.IsKept) (hslot : ∀ a r, s.slot ≠ some (.present a r)) (call : Nat)
    (adapter : FoldAdapter) (fences : Bool) (reason : Text) :
    (s.rollback call adapter fences reason).IsKept := by
  unfold rollback releaseFence
  dsimp only
  cases hparked : s.slot.bind FoldSlot.parked with
  | none =>
    cases fences <;> exact h.drop hslot hparked
  | some payload =>
    cases fences <;> exact resolve_kept h hslot adapter hparked

def Holds (s : FoldState) (adapter : FoldAdapter) : Prop :=
  s.slot = none ∨ ∃ parked parkedAt, s.slot = some (.reserved adapter parked parkedAt)

theorem Holds.not_present (h : s.Holds adapter) (a : FoldAdapter)
    (r : FoldReceipt) : s.slot ≠ some (.present a r) := by
  intro heq
  rcases h with hnone | ⟨parked, parkedAt, hsome⟩
  · rw [hnone] at heq
    cases heq
  · rw [hsome] at heq
    cases heq

theorem IsKept.carrier_eq_none (h : s.IsKept) {parked : Option ForegroundTerminalPayload}
    {parkedAt : Option Int}
    (hslot : s.slot = some (.reserved adapter parked parkedAt))
    (hsettled : adapter.id ∉ s.settled) :
    s.carrier = none := by
  cases hcarrier : s.carrier with
  | none => rfl
  | some r =>
    obtain ⟨a, _, _, heq, ha⟩ := Kept.carried h hcarrier hslot
    cases heq
    exact absurd ha hsettled

theorem finishFold_kept (h : s.IsKept) (hholds : s.Holds adapter)
    (hsound : ∀ slot ∈ s.slot, slot.parked = none ∨ slot.adapter.id ∉ s.settled ∨
      s.isAborted slot.adapter = true ∨ s.status ≠ .running)
    (call : Nat) (fences : Bool) (remainingIntent : Option Text) :
    (s.finishFold call adapter fences remainingIntent).IsKept := by
  have hpresent := hholds.not_present
  rcases hholds with hnone | ⟨parked, parkedAt, hslot⟩
  · rw [finishFold_none hnone]
    exact giveUp_kept h call fences settledText
  rw [finishFold_reserved hslot]
  split
  · exact rollback_kept h hpresent call adapter fences settledText
  next hgoes =>
  rw [Bool.or_eq_true, decide_eq_true_eq, not_or, not_not] at hgoes
  split
  · next hsettled =>
    rw [contains_iff_mem] at hsettled
    -- the observer has settled, and so nothing is parked
    have hparked : s.slot.bind FoldSlot.parked = none := by
      have hslots := hsound _ hslot
      rw [hslot]
      exact hslots.resolve_right fun hrest => hrest.elim (fun hnot => hnot hsettled)
        fun hrest => hrest.elim hgoes.1 fun hstatus => hstatus hgoes.2
    exact giveUp_kept (s := { s with slot := none }) (h.drop hpresent hparked) call fences _
  next hsettled =>
  rw [contains_iff_mem] at hsettled
  have hcarrier := h.carrier_eq_none hslot hsettled
  have hids :
      ∀ id ∈ s.settled, id ∈ s.settled.insert adapter.id := fun _ hid => List.mem_insert_of_mem hid
  have hkept := h.settle hids
  rw [hcarrier] at hkept
  cases parked with
  | none =>
    show Kept _ s.carrier _ _ _ _ _
    rw [hcarrier]
    exact hkept.fold adapter _ (by rw [hslot]; rfl)
  | some payload =>
    rw [promote_parked hcarrier]
    have hfold := hkept.foldParked (s.receiptFor adapter remainingIntent)
    rw [parkedTexts_of_some (by rw [hslot]; rfl)] at hfold
    exact hfold

theorem dropSlot_kept (h : s.IsKept) (hparked : s.slot.bind FoldSlot.parked = none)
    {byCancel : Bool}
    (hcancel : byCancel = false → s.slot = none ∨ s.isReserved = true) :
    (s.dropSlot byCancel).IsKept := by
  unfold IsKept at h
  unfold dropSlot
  rcases hslot : s.slot with _ | ⟨a, parked, parkedAt⟩ | ⟨a, r⟩
  · exact h.drop (fun _ _ heq => by rw [hslot] at heq; cases heq) hparked
  · exact h.drop (fun _ _ heq => by rw [hslot] at heq; cases heq) hparked
  · cases byCancel with
    | true =>
      rw [hslot] at h
      exact h.retire
    | false =>
      unfold isReserved at hcancel
      rw [hslot] at hcancel
      rcases hcancel rfl with hnone | hreserved
      · cases hnone
      · cases hreserved

theorem cancel_kept (h : s.IsKept) (hsound : s.Sound .cancel) : (s.retire .cancel).IsKept := by
  unfold retire
  split
  · exact h
  · exact dropSlot_kept h hsound fun hfalse => by cases hfalse

theorem Kept.withTimers {carrier : Option FoldReceipt} {settled : List Nat}
    {timers timers' : List Int} {parkings handings : List Text} {history : List ReceiptEvent}
    (h : Kept slot carrier settled timers parkings handings history)
    (hparked : slot.bind parked = none) :
    Kept slot carrier settled timers' parkings handings history :=
  { h with handed := (handedOnce_unparked hparked).mpr ((handedOnce_unparked hparked).mp h.handed) }

theorem parkingTimer_kept (h : s.IsKept) {due : Int} (hsound : s.Sound (.parkingTimer due)) :
    (s.parkingTimer due).IsKept := by
  unfold parkingTimer
  split
  swap
  · exact h
  next hdue =>
  unfold IsKept at h
  cases hparked : s.slot.bind parked with
  | none =>
    let s₁ : FoldState := { s with timers := s.timers.erase due }
    have hkept : s₁.IsKept := Kept.withTimers h hparked
    unfold retire
    split
    · exact hkept
    next slot hslot =>
    dsimp only
    split
    · rw [hslot] at hparked
      cases hparked
    · split
      · next hstatus =>
        refine dropSlot_kept hkept hparked fun hfalse => hsound (hstatus.resolve_left ?_)
        exact of_decide_eq_false hfalse
      · exact hkept
  | some payload =>
    obtain ⟨a, parkedAt, hslot⟩ :
        ∃ a parkedAt, s.slot = some (.reserved a (some payload) parkedAt) := by
      rcases hslot : s.slot with _ | ⟨a, parked, parkedAt⟩ | ⟨a, r⟩
      · rw [hslot] at hparked
        cases hparked
      · rw [hslot] at hparked
        cases hparked
        exact ⟨a, parkedAt, rfl⟩
      · rw [hslot] at hparked
        cases hparked
    have hkept : s.IsKept := h
    rw [hslot] at h
    obtain ⟨hnone, hlast, since, hsince, htimer⟩ := h.handed
    cases hsince
    unfold retire
    rw [hslot]
    dsimp only
    split
    · next hearly =>
      -- a later delivery has parked the completion again, with a timer of its own
      refine { h with handed := ⟨hnone, hlast, since, rfl, (mem_erase_of_ne ?_).mpr htimer⟩ }
      have hbefore : s.now - since < FOLD_WAKE_MERGE_WINDOW_MS * 4 := hearly
      omega
    · have hpresent : ∀ a r, s.slot ≠ some (.present a r) := fun _ _ heq => by
        rw [hslot] at heq
        cases heq
      have hresolved := resolve_kept hkept hpresent a hparked
      exact Kept.withTimers hresolved rfl

theorem traceOf_append (s : FoldState) (call : Nat) (events : List CallEvent) (call' : Nat) :
    ({ s with trace := s.trace ++ events.map fun event => (call, event) } : FoldState).traceOf
      call' = s.traceOf call' ++ if call' = call then events else [] := by
  unfold traceOf
  rw [filterMap_append]
  congr 1
  split
  · next heq =>
    subst heq
    simp
  · next hne =>
    simp [Ne.symm hne]

def ending (fences : Bool) (result : FoldRequestResult) : List CallEvent :=
  if fences then [.released, .returned result] else [.returned result]

def Finishes (fences : Bool) (events : List CallEvent) : Prop :=
  (∃ result, result.isFolded = false ∧ events = ending fences result) ∨
    ∃ receipt, events = [.returned (.folded receipt)]

theorem Finishes.wellFenced {events : List CallEvent} (h : Finishes fences events) :
    wellFenced ((if fences then [.armed] else []) ++ events) = true := by
  rcases h with ⟨result, hresult, rfl⟩ | ⟨receipt, rfl⟩
  · cases fences
    · rfl
    · simp [ending, Fold.wellFenced, hresult]
  · cases fences <;> rfl

structure Ends (s s' : FoldState) (call : Nat) (fences : Bool) : Prop where
  calls : s'.calls = s.calls
  capturing : s'.capturing = s.capturing
  slot : ∀ a parked parkedAt, s'.slot ≠ some (.reserved a parked parkedAt)
  trace : ∃ events, Finishes fences events ∧
    s'.trace = s.trace ++ events.map fun event => (call, event)

theorem giveUp_ends (hslot : s.slot = none) (call : Nat) (fences : Bool) (reason : Text) :
    Ends s (s.giveUp call fences reason) call fences := by
  refine ⟨?_, ?_, fun a parked parkedAt heq => ?_, _, .inl ⟨.alreadyTerminal reason, rfl, rfl⟩, ?_⟩
  · cases fences <;> rfl
  · cases fences <;> rfl
  · have hsame : (s.giveUp call fences reason).slot = s.slot := by cases fences <;> rfl
    rw [hsame, hslot] at heq
    cases heq
  · cases fences <;> simp [giveUp, releaseFence, note, ending]

theorem rollback_eq (s : FoldState) (call : Nat) (adapter : FoldAdapter) (fences : Bool)
    (reason : Text) :
    ∃ settled, s.rollback call adapter fences reason =
      { s with
        slot := none
        folding := false
        settled
        handings := s.handings ++ parkedTexts s.slot
        trace := s.trace ++ (ending fences (.captureFailed reason)).map fun event =>
          (call, event) } := by
  unfold rollback parkedTexts
  dsimp only
  cases s.slot.bind parked with
  | none => cases fences <;> exact ⟨s.settled, by simp [releaseFence, note, ending]⟩
  | some payload =>
    cases fences <;>
      exact ⟨if adapter.resolves then s.settled.insert adapter.id else s.settled,
        by simp [releaseFence, note, ending, resolveForegroundObserver]⟩

theorem rollback_ends (s : FoldState) (call : Nat) (adapter : FoldAdapter) (fences : Bool)
    (reason : Text) : Ends s (s.rollback call adapter fences reason) call fences := by
  obtain ⟨settled, heq⟩ := s.rollback_eq call adapter fences reason
  rw [heq]
  exact ⟨rfl, rfl, fun a parked parkedAt hslot => (by cases hslot), _,
    .inl ⟨.captureFailed reason, rfl, rfl⟩, rfl⟩

theorem promote_ends (hcarrier : s.carrier = none) (call : Nat) (adapter : FoldAdapter)
    (parked : Option ForegroundTerminalPayload) (receipt : FoldReceipt) (fences : Bool) :
    Ends s (s.promote call adapter parked receipt) call fences := by
  cases parked with
  | none =>
    exact ⟨rfl, rfl, fun _ _ _ heq => (by cases heq), _, .inr ⟨receipt, rfl⟩, rfl⟩
  | some payload =>
    rw [promote_parked hcarrier]
    exact ⟨rfl, rfl, fun _ _ _ heq => (by cases heq), _, .inr ⟨receipt, rfl⟩, rfl⟩

theorem finishFold_ends (h : s.IsKept) (hholds : s.Holds adapter) (call : Nat)
    (fences : Bool) (remainingIntent : Option Text) :
    Ends s (s.finishFold call adapter fences remainingIntent) call fences := by
  rcases hholds with hnone | ⟨parked, parkedAt, hslot⟩
  · rw [finishFold_none hnone]
    exact giveUp_ends hnone call fences settledText
  rw [finishFold_reserved hslot]
  split
  · exact rollback_ends s call adapter fences settledText
  split
  · obtain ⟨hcalls, hcapturing, hslots, htrace⟩ :=
      giveUp_ends (s := { s with slot := none }) rfl call
      fences "the foreground observer already settled".toList
    exact ⟨hcalls, hcapturing, hslots, htrace⟩
  · next hsettled =>
    rw [contains_iff_mem] at hsettled
    exact promote_ends (h.carrier_eq_none hslot hsettled) call adapter parked _ fences

/-- A call that is capturing has armed its fence; a slot is reserved for the call that is capturing,
and there is one at most. -/
structure Calls (s : FoldState) : Prop where
  fences : ∀ call, wellFenced (s.traceOf call) = true
  unused : ∀ call, s.calls < call → s.traceOf call = []
  armed : ∀ c ∈ s.capturing, s.traceOf c.call = [.armed] ∧ c.call ≤ s.calls
  single : ∀ c ∈ s.capturing, s.capturing = [c]
  reserved : ∀ {a parked parkedAt}, s.slot = some (.reserved a parked parkedAt) →
    ∃ call, s.capturing = [⟨call, a⟩]
  present : ∀ {a r}, s.slot = some (.present a r) → s.capturing = []

theorem Ends.toCalls {call : Nat} (h : Ends s s' call fences) (hcapturing : s.capturing = [])
    (hle : call ≤ s.calls)
    (hcall : s.traceOf call = if fences then [.armed] else [])
    (hfences : ∀ call', call' ≠ call → wellFenced (s.traceOf call') = true)
    (hunused : ∀ call', s.calls < call' → s.traceOf call' = []) : s'.Calls := by
  obtain ⟨events, hfinishes, htrace⟩ := h.trace
  have htraceOf : ∀ call', s'.traceOf call' = s.traceOf call' ++ if call' = call then events
      else [] := by
    intro call'
    rw [← traceOf_append s call events call']
    unfold traceOf
    rw [htrace]
  have hnone : s'.capturing = [] := h.capturing.trans hcapturing
  refine ⟨?_, ?_, ?_, ?_, ?_, fun _ => hnone⟩
  · intro call'
    rw [htraceOf]
    by_cases heq : call' = call
    · rw [if_pos heq, heq, hcall]
      exact hfinishes.wellFenced
    · rw [if_neg heq, append_nil]
      exact hfences call' heq
  · intro call' hlt
    rw [h.calls] at hlt
    rw [htraceOf, if_neg (by omega), hunused call' hlt]
    rfl
  · rw [hnone]
    intro c hc
    cases hc
  · rw [hnone]
    intro c hc
    cases hc
  · intro a parked parkedAt hslot
    exact absurd hslot (h.slot a parked parkedAt)

theorem Calls.same (h : s.Calls) (htrace : s'.trace = s.trace) (hcalls : s'.calls = s.calls)
    (hcapturing : s'.capturing = s.capturing)
    (hreserved : ∀ {a parked parkedAt}, s'.slot = some (.reserved a parked parkedAt) →
      ∃ parked' parkedAt', s.slot = some (.reserved a parked' parkedAt'))
    (hpresent : ∀ {a r}, s'.slot = some (.present a r) → s.slot = some (.present a r)) :
    s'.Calls := by
  have htraceOf : ∀ call, s'.traceOf call = s.traceOf call := by
    intro call
    unfold traceOf
    rw [htrace]
  refine ⟨?_, ?_, ?_, ?_, ?_, ?_⟩
  · intro call
    rw [htraceOf]
    exact h.fences call
  · intro call hlt
    rw [htraceOf]
    exact h.unused call (hcalls ▸ hlt)
  · intro c hc
    rw [htraceOf, hcalls]
    exact h.armed c (hcapturing ▸ hc)
  · intro c hc
    rw [hcapturing] at hc ⊢
    exact h.single c hc
  · intro a parked parkedAt hslot
    obtain ⟨parked', parkedAt', hslot'⟩ := hreserved hslot
    rw [hcapturing]
    exact h.reserved hslot'
  · intro a r hslot
    rw [hcapturing]
    exact h.present (hpresent hslot)

structure Inv (s : FoldState) : Prop where
  kept : s.IsKept
  calls : s.Calls

theorem Inv.holds (h : s.Inv) {c : Capture} (hc : c ∈ s.capturing) : s.Holds c.adapter := by
  rcases hslot : s.slot with _ | ⟨a, parked, parkedAt⟩ | ⟨a, r⟩
  · exact .inl hslot
  · obtain ⟨call, hcapturing⟩ := h.calls.reserved hslot
    rw [hcapturing, mem_singleton] at hc
    rw [hc]
    exact .inr ⟨parked, parkedAt, hslot⟩
  · rw [h.calls.present hslot] at hc
    cases hc

theorem resume_inv (h : s.Inv) (call : Nat) (result : Except Text (Option Text))
    (hsound : ∀ intent, result = .ok intent → s.Sound (.captured call intent)) :
    (s.resume call result).Inv := by
  unfold resume
  split
  · exact h
  next c hfind =>
  have hc := mem_of_find?_eq_some hfind
  have hcall : c.call = call := by simpa using find?_some hfind
  subst hcall
  have hnone : s.capturing.erase c = [] := by
    rw [h.calls.single c hc, erase_cons_head]
  let s₁ : FoldState := { s with capturing := s.capturing.erase c }
  have hkept : s₁.IsKept := h.kept
  have hholds : s₁.Holds c.adapter := h.holds hc
  obtain ⟨harmed, hle⟩ := h.calls.armed c hc
  have hcalls : ∀ {s'}, Ends s₁ s' c.call true → s'.Calls := fun hends =>
    hends.toCalls hnone hle harmed (fun call' _ => h.calls.fences call') h.calls.unused
  cases result with
  | error reason =>
    exact ⟨rollback_kept hkept hholds.not_present c.call c.adapter true reason,
      hcalls (rollback_ends s₁ c.call c.adapter true reason)⟩
  | ok intent =>
    have hany : s.capturing.any (·.call = c.call) = true :=
      any_eq_true.mpr ⟨c, hc, decide_eq_true rfl⟩
    exact ⟨finishFold_kept hkept hholds (hsound intent rfl hany) c.call true intent,
      hcalls (finishFold_ends hkept hholds c.call true intent)⟩

theorem requestFold_cases (s : FoldState) (request : FoldRequest) :
    (∃ result, s.requestFold request =
      { s with calls := s.calls + 1 }.note (s.calls + 1) (.returned result)) ∨
    ∃ adapter, s.reserves request = some adapter ∧ s.slot = none ∧
      s.requestFold request = { s with calls := s.calls + 1 }.beginFold
        (s.calls + 1) adapter request := by
  unfold requestFold reserves
  generalize (request.explicit <|> s.resolveTarget) = target
  cases target with
  | none => exact .inl ⟨_, rfl⟩
  | some adapter =>
  dsimp only
  split
  · exact .inl ⟨_, rfl⟩
  next hjob =>
  split
  · exact .inl ⟨_, rfl⟩
  next hgeneration =>
  split
  · exact .inl ⟨_, rfl⟩
  next hfree =>
  rw [Bool.not_eq_true'] at hjob
  rw [not_not] at hgeneration
  rw [Bool.or_eq_true, not_or, Option.not_isSome_iff_eq_none] at hfree
  refine .inr ⟨adapter, ?_, hfree.2, rfl⟩
  simp [hjob, hgeneration, hfree.1, hfree.2]

theorem returned_inv (h : s.Inv) (result : FoldRequestResult) :
    ({ s with calls := s.calls + 1 }.note (s.calls + 1) (.returned result)).Inv := by
  have htraceOf :
      ∀ call, ({ s with calls := s.calls + 1 }.note (s.calls + 1) (.returned result)).traceOf
      call = s.traceOf call ++ if call = s.calls + 1 then [.returned result] else [] :=
    traceOf_append { s with calls := s.calls + 1 } (s.calls + 1) [.returned result]
  refine ⟨h.kept, ?_, ?_, ?_, h.calls.single, h.calls.reserved, h.calls.present⟩
  · intro call
    rw [htraceOf]
    split
    · next heq =>
      rw [heq, h.calls.unused _ (Nat.lt_succ_self _)]
      rfl
    · rw [append_nil]
      exact h.calls.fences call
  · intro call hlt
    change s.calls + 1 < call at hlt
    rw [htraceOf, if_neg (by omega), h.calls.unused call (by omega)]
    rfl
  · intro c hc
    obtain ⟨harmed, hle⟩ := h.calls.armed c hc
    refine ⟨?_, Nat.le_succ_of_le hle⟩
    rw [htraceOf, if_neg (by omega), harmed]
    rfl

def reservedState (s : FoldState) (adapter : FoldAdapter) (fences : Bool) : FoldState :=
  { s with
    calls := s.calls + 1
    folding := true
    slot := some (.reserved adapter none none)
    trace := s.trace ++ (if fences then [.armed] else []).map fun event => (s.calls + 1, event) }

theorem beginFold_eq (s : FoldState) (adapter : FoldAdapter) (request : FoldRequest) :
    ∃ fences, { s with calls := s.calls + 1 }.beginFold (s.calls + 1) adapter request =
        { s.reservedState adapter true with
          capturing := s.capturing ++ [⟨s.calls + 1, adapter⟩] } ∧ fences = true ∨
      (∃ reason, { s with calls := s.calls + 1 }.beginFold (s.calls + 1) adapter request =
        (s.reservedState adapter fences).rollback (s.calls + 1) adapter fences reason) ∨
      { s with calls := s.calls + 1 }.beginFold (s.calls + 1) adapter request =
        (s.reservedState adapter fences).finishFold (s.calls + 1) adapter fences none := by
  unfold beginFold
  dsimp only
  refine ⟨(adapter.originatingTurn <|> request.hasActiveTurn).getD true, ?_⟩
  generalize (adapter.originatingTurn <|> request.hasActiveTurn).getD true = fences
  have hreserved : (if fences = true then
      ({ s with calls := s.calls + 1, folding := true, slot := some (.reserved adapter none
        none) } : FoldState).note (s.calls + 1) .armed
      else { s with calls := s.calls + 1, folding := true, slot := some (.reserved adapter none
        none) }) =
      s.reservedState adapter fences := by
    cases fences <;> simp [reservedState, note]
  rw [hreserved]
  split
  · exact .inr (.inl ⟨_, rfl⟩)
  split
  · exact .inr (.inl ⟨_, rfl⟩)
  · cases fences with
    | false => exact .inr (.inr rfl)
    | true => exact .inl ⟨rfl, rfl⟩

theorem requestFold_inv (h : s.Inv) {request : FoldRequest}
    (hsound : s.Sound (.requestFold request)) :
    (s.requestFold request).Inv := by
  rcases s.requestFold_cases request with ⟨result, heq⟩ | ⟨adapter, hreserves, hslot, heq⟩
  · rw [heq]
    exact returned_inv h result
  obtain ⟨hcapturing, hcarrier⟩ := hsound adapter hreserves
  have hkept : ∀ fences, (s.reservedState adapter fences).IsKept := by
    intro fences
    have hfree := h.kept
    unfold IsKept at hfree
    rw [hslot] at hfree
    exact hfree.reserve hcarrier
  have hholds : ∀ fences, (s.reservedState adapter fences).Holds adapter :=
    fun _ => .inr ⟨none, none, rfl⟩
  have htraceOf : ∀ fences call, (s.reservedState adapter fences).traceOf call =
      s.traceOf call ++ if call = s.calls + 1 then (if fences then [.armed] else []) else [] :=
    fun fences => traceOf_append { s with calls := s.calls + 1 } (s.calls + 1)
      (if fences then [.armed] else [])
  have hcall : ∀ fences, (s.reservedState adapter fences).traceOf (s.calls + 1) =
      if fences then [.armed] else [] := by
    intro fences
    rw [htraceOf, if_pos rfl, h.calls.unused _ (Nat.lt_succ_self _), nil_append]
  have hothers : ∀ fences call, call ≠ s.calls + 1 →
      (s.reservedState adapter fences).traceOf call = s.traceOf call := by
    intro fences call hne
    rw [htraceOf, if_neg hne, append_nil]
  have hunused : ∀ fences call, s.calls + 1 < call →
      (s.reservedState adapter fences).traceOf call = [] := by
    intro fences call hlt
    rw [hothers fences call (by omega)]
    exact h.calls.unused call (by omega)
  have hcalls : ∀ {fences s'}, Ends (s.reservedState adapter fences) s' (s.calls + 1) fences →
      s'.Calls := by
    intro fences s' hends
    refine hends.toCalls hcapturing (Nat.le_refl _) (hcall fences) (fun call' hne => ?_)
      (hunused fences)
    rw [hothers fences call' hne]
    exact h.calls.fences call'
  rw [heq]
  obtain ⟨fences, ⟨hwaits, -⟩ | ⟨reason, hrolls⟩ | hfinishes⟩ := s.beginFold_eq adapter request
  · rw [hwaits, hcapturing]
    refine ⟨hkept true, ?_, hunused true, ?_, ?_, ?_, fun hpresent => (by cases hpresent)⟩
    · intro call
      by_cases heq : call = s.calls + 1
      · rw [heq]
        exact congrArg wellFenced (hcall true)
      · exact (congrArg wellFenced (hothers true call heq)).trans (h.calls.fences call)
    · intro c hc
      rw [mem_singleton.mp hc]
      exact ⟨hcall true, Nat.le_refl _⟩
    · intro c hc
      rw [mem_singleton.mp hc]
      rfl
    · intro a parked parkedAt hreserved
      cases hreserved
      exact ⟨_, rfl⟩
  · rw [hrolls]
    exact ⟨rollback_kept (hkept fences) (hholds fences).not_present _ adapter fences reason,
      hcalls (rollback_ends _ _ adapter fences reason)⟩
  · rw [hfinishes]
    refine ⟨finishFold_kept (hkept fences) (hholds fences) ?_ _ fences none,
      hcalls (finishFold_ends (hkept fences) (hholds fences) _ fences none)⟩
    intro slot hslot
    cases hslot
    exact .inl rfl

theorem deliver_calls (h : s.Calls) (text : Text) : (s.deliver text).Calls := by
  unfold deliver
  cases hcarrier : s.carrier with
  | some r =>
    rw [onDelivery_carried hcarrier]
    exact h.same rfl rfl rfl (fun hslot => ⟨_, _, hslot⟩) fun hslot => hslot
  | none =>
    rcases hslot : s.slot with _ | ⟨a, parked, parkedAt⟩ | ⟨a, r⟩
    · rw [onDelivery_free hcarrier hslot]
      exact h.same rfl rfl rfl (fun hslot => ⟨_, _, hslot⟩) fun hslot => hslot
    · rw [onDelivery_reserved hcarrier hslot]
      refine h.same rfl rfl rfl (fun heq => ?_) fun heq => by cases heq
      cases heq
      exact ⟨parked, parkedAt, hslot⟩
    · rw [onDelivery_present hcarrier hslot]
      exact h.same rfl rfl rfl (fun heq => by cases heq) fun heq => by cases heq

theorem retire_calls (h : s.Calls) (reason : FoldRetireReason) : (s.retire reason).Calls := by
  have hdrop : ∀ byCancel, (s.dropSlot byCancel).Calls := fun _ =>
    h.same rfl rfl rfl (fun heq => by cases heq) fun heq => by cases heq
  unfold retire
  split
  · exact h
  cases reason with
  | cancel => exact hdrop true
  | evict =>
    dsimp only
    split
    · split
      · exact h
      · exact h.same rfl rfl rfl (fun heq => by cases heq) fun heq => by cases heq
    · split
      · exact hdrop _
      · exact h

theorem parkingTimer_calls (h : s.Calls) (due : Int) : (s.parkingTimer due).Calls := by
  unfold parkingTimer
  split
  · apply retire_calls
    exact h.same rfl rfl rfl (fun hslot => ⟨_, _, hslot⟩) fun hslot => hslot
  · exact h

theorem Inv.step (h : s.Inv) {e : Step} (hsound : s.Sound e) : (s.step e).Inv := by
  have hquiet : ∀ {s' : FoldState}, s'.IsKept → s'.trace = s.trace → s'.calls = s.calls →
      s'.capturing = s.capturing → s'.slot = s.slot → s'.Inv := by
    intro s' hkept htrace hcalls hcapturing hslot
    refine ⟨hkept, h.calls.same htrace hcalls hcapturing (fun heq => ?_) fun heq => ?_⟩
    · exact ⟨_, _, hslot ▸ heq⟩
    · exact hslot ▸ heq
  cases e with
  | tick ms => exact hquiet h.kept rfl rfl rfl rfl
  | setStatus status => exact hquiet h.kept rfl rfl rfl rfl
  | registerParticipant adapter => exact hquiet h.kept rfl rfl rfl rfl
  | unregister key => exact hquiet h.kept rfl rfl rfl rfl
  | requestFold request => exact requestFold_inv h hsound
  | captured call intent =>
    refine resume_inv h call (.ok intent) fun intent' heq => ?_
    cases heq
    exact hsound
  | captureFails call reason =>
    exact resume_inv h call (.error reason) fun intent heq => by cases heq
  | abort adapterId => exact hquiet h.kept rfl rfl rfl rfl
  | observerSettles adapterId =>
    have hids : ∀ id ∈ s.settled, id ∈ s.settled.insert adapterId := fun _ hid =>
        List.mem_insert_of_mem hid
    exact hquiet (Kept.settle h.kept hids) rfl rfl rfl rfl
  | deliver text => exact ⟨deliver_kept h.kept text hsound, deliver_calls h.calls text⟩
  | parkingTimer due => exact ⟨parkingTimer_kept h.kept hsound, parkingTimer_calls h.calls due⟩
  | cancel => exact ⟨cancel_kept h.kept hsound, retire_calls h.calls .cancel⟩

theorem create_inv (now : Int) (generation : Text) : (create now generation).Inv where
  kept :=
    { handed := .inl ⟨rfl, rfl⟩
      agree := rfl
      expected := fun hr => by cases hr
      folded := fun hr => by
        rcases hr with hcarried | ⟨a, hpresent⟩
        · cases hcarried
        · cases hpresent
      parked := fun hpayload => by cases hpayload
      carried := fun hcarried => by cases hcarried }
  calls :=
    { fences := fun _ => rfl
      unused := fun _ _ => rfl
      armed := fun _ hc => by cases hc
      single := fun _ hc => by cases hc
      reserved := fun hslot => by cases hslot
      present := fun hslot => by cases hslot }

/-- Fences are released once, parked completions are handed over once, and deliveries carry the
receipt. -/
theorem run_correct (now : Int) (generation : Text) (steps : List Step)
    (h : Guarded step Sound (create now generation) steps) :
    (steps.foldl step (create now generation)).Correct := by
  have hinv : (steps.foldl step (create now generation)).Inv :=
    Guarded.invariant (I := fun _ s => s.Inv) (fun _ _ hs hsound => hs.step hsound)
      (create_inv now generation) h
  exact ⟨hinv.calls.fences, hinv.kept.handed, hinv.kept.agree⟩

def bashAdapter : FoldAdapter where
  id := 1
  kind := .bashManaged
  jobId := "bg_1".toList
  jobGeneration := "job:1".toList
  label := "make".toList
  cwdSensitive := true
  signal := true
  originatingTurn := some true
  outputRef := ⟨"bg_1".toList, "job:1".toList, "job output bg_1".toList⟩
  resolves := true

/-- A completion arrives during the capture, the call folds, and a second call is refused. -/
def foldsOnce : List Step :=
  [.registerParticipant bashAdapter, .requestFold ⟨none, true, none, none⟩, .deliver "done".toList,
    .captured 1 (some "next".toList), .deliver "done".toList,
    .requestFold ⟨none, true, none, none⟩, .captured 2 none]

theorem foldsOnce_correct :
    (foldsOnce.foldl step (create 0 "job:1".toList)).handings = ["done".toList] ∧
      (foldsOnce.foldl step (create 0 "job:1".toList)).Correct :=
  ⟨by decide +kernel, run_correct 0 "job:1".toList foldsOnce (by decide +kernel)⟩

/-- A completion is parked during the capture, and then the slot is retired by cancellation. -/
def cancelledWhileParked : List Step :=
  [.registerParticipant bashAdapter, .requestFold ⟨none, true, none, none⟩, .deliver "done".toList,
    .cancel,
    .captured 1 (some "next".toList)]

/-- The completion is handed to no one. -/
theorem cancelledWhileParked_not_correct :
    ¬ (cancelledWhileParked.foldl step (create 0 "job:1".toList)).Correct := by
  intro h
  have hslot : (cancelledWhileParked.foldl step (create 0 "job:1".toList)).slot = none := by
    decide +kernel
  have hparked : (cancelledWhileParked.foldl step (create 0 "job:1".toList)).parkings =
      ["done".toList] := by decide +kernel
  have hhanded : (cancelledWhileParked.foldl step (create 0 "job:1".toList)).handings = [] := by
    decide +kernel
  have honce := h.completions
  rw [handedOnce_unparked rfl, hparked, hhanded] at honce
  simp at honce

end FoldState

end Vibrato.Session.Fold
