import Vibrato.Jobs.Table

namespace Vibrato.Jobs

open Lib List OrderedMap

namespace AsyncJobManager

theorem firstFree_free {taken : Text → Bool} {name : Nat → Text} (hname : Function.Injective name)
    {ids : List Text} {fuel k : Nat} (hids : ids.length ≤ fuel)
    (htaken : ∀ j, k ≤ j → taken (name j) = true → name j ∈ ids) :
    taken (firstFree taken name fuel k) = false := by
  induction fuel generalizing ids k with
  | zero =>
    have hnil : ids = [] := length_eq_zero_iff.mp (by omega)
    subst hnil
    show taken (name k) = false
    cases h : taken (name k) with
    | false => rfl
    | true => cases htaken k (Nat.le_refl k) h
  | succ fuel ih =>
    unfold firstFree
    split
    · next h =>
      have hmem := htaken k (Nat.le_refl k) h
      have hfewer : (ids.erase (name k)).length ≤ fuel := by
        rw [length_erase_of_mem hmem]
        omega
      apply ih hfewer
      · intro j hj hj'
        have hne : name j ≠ name k := fun heq => absurd (hname heq) (by omega)
        exact (mem_erase_of_ne hne).mpr (htaken j (by omega) hj')
    · next h => simpa using h

variable (m : AsyncJobManager)

def takenIds : List Text :=
  m.table.jobs.keys ++ m.queue.deliveries.map (·.jobId) ++
    m.queue.inFlightDeliveries.map (·.jobId) ++
    m.queue.parkedDeliveries.values.map (·.jobId) ++ m.queue.receiptClaims.values.map (·.jobId) ++
    m.queue.suppressedDeliveryJobIds.values ++ m.queue.deadLetteredDeliveries.keys ++
    m.queue.evictedDeadLetters.values.map (·.jobId)

theorem length_takenIds : m.takenIds.length = m.takenBound := by
  simp only [takenIds, takenBound, OrderedMap.keys, values, size, length_append, length_map]

theorem mem_takenIds {id : Text} (h : m.isTaken id = true) : id ∈ m.takenIds := by
  have hletters := has_iff_mem_keys (m := m.queue.deadLetteredDeliveries) (k := id)
  have hjobs := has_iff_mem_keys (m := m.table.jobs) (k := id)
  simp only [isTaken, DeliveryQueue.hasDeliveryCollisionForJobId,
    DeliveryQueue.hasPendingDeliveryForJobId, Bool.or_eq_true, any_eq_true, decide_eq_true_eq,
    contains_iff_mem, hletters, hjobs] at h
  simp only [takenIds, mem_append, mem_map]
  simpa only [or_assoc] using h

theorem ofNat_injective : Function.Injective Text.ofNat := by
  intro a b h
  have hdigits := congrArg (Nat.ofDigitChars 10 · 0) h
  simpa only [Text.ofNat, Nat.ofDigitChars_ten_toDigits] using hdigits

theorem resolveJobId_free (preferredId : Option Text) :
    m.isTaken (m.resolveJobId preferredId) = false := by
  have hbound : m.takenIds.length ≤ m.takenBound := Nat.le_of_eq m.length_takenIds
  unfold resolveJobId
  dsimp only
  split
  · refine firstFree_free (fun a b h => ofNat_injective ?_) hbound fun j _ h => m.mem_takenIds h
    exact append_cancel_left h
  split
  · next h => simpa using h
  · refine firstFree_free (fun a b h => ofNat_injective ?_) hbound fun j _ h => m.mem_takenIds h
    exact (List.cons.inj (append_cancel_left h)).2

end AsyncJobManager

end Vibrato.Jobs
