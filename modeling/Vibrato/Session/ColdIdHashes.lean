import Mathlib.Logic.Function.Basic

/-! The fingerprints of cold ids in `session-manager.ts`: a table with open addressing that forgets
nothing it was given. -/

namespace Vibrato.Session

open List

def COLD_ID_HASH_CAPACITY : Nat := 1250003

/-- A slot holds the high and the low part of a fingerprint, both zero when it is empty. -/
abbrev Fingerprint := UInt8 × UInt16

structure BoundedColdIdHashSet where
  maxEntries : Nat
  slots : Nat → Fingerprint := fun _ => (0, 0)
  size : Nat := 0

namespace BoundedColdIdHashSet

def hash (value : List UInt16) (seed : UInt32) : UInt32 :=
  value.foldl (fun hash unit => (hash ^^^ unit.toUInt32) * 0x01000193) seed

def fingerprint (value : List UInt16) : Fingerprint :=
  let fingerprint := hash value 0x811c9dc5 &&& 0xffffff
  let fingerprint := if fingerprint = 0 then 1 else fingerprint
  ((fingerprint >>> 16 &&& 0xff).toUInt8, (fingerprint &&& 0xffff).toUInt16)

def firstSlot (value : List UInt16) : Nat := (hash value 0x9e3779b9).toNat % COLD_ID_HASH_CAPACITY

def nextSlot (slot : Nat) : Nat := if slot + 1 = COLD_ID_HASH_CAPACITY then 0 else slot + 1

/-- The answer and the number of probes, with at most the given number of probes to go. -/
def hasFrom (slots : Nat → Fingerprint) (fp : Fingerprint) : Nat → Nat → Bool × Nat
  | 0, _ => (true, 0)
  | left + 1, slot =>
    if slots slot = (0, 0) then (false, 1)
    else if slots slot = fp then (true, 1)
    else
      let (found, probes) := hasFrom slots fp left (nextSlot slot)
      (found, probes + 1)

def addFrom (s : BoundedColdIdHashSet) (fp : Fingerprint) :
    Nat → Nat → BoundedColdIdHashSet × Bool × Nat
  | 0, _ => (s, false, 0)
  | left + 1, slot =>
    if s.slots slot = fp then (s, true, 1)
    else if s.slots slot = (0, 0) then
      ({ s with slots := Function.update s.slots slot fp, size := s.size + 1 }, true, 1)
    else
      let (s', added, probes) := addFrom s fp left (nextSlot slot)
      (s', added, probes + 1)

variable (s : BoundedColdIdHashSet) (value : List UInt16)

def has : Bool × Nat := hasFrom s.slots (fingerprint value) COLD_ID_HASH_CAPACITY (firstSlot value)

def add : BoundedColdIdHashSet × Bool × Nat :=
  if s.maxEntries ≤ s.size then (s, false, 0)
  else addFrom s (fingerprint value) COLD_ID_HASH_CAPACITY (firstSlot value)

def addAll (values : List (List UInt16)) : BoundedColdIdHashSet :=
  values.foldl (fun s value => (s.add value).1) s

/-- A value whose `add` answered `true` is found after any further additions. -/
def NoFalseNegatives (maxEntries : Nat) : Prop := ∀ before value after,
  (add (addAll { maxEntries } before) value).2.1 = true →
    (has (addAll (add (addAll { maxEntries } before) value).1 after) value).1 = true

theorem fingerprint_ne : fingerprint value ≠ (0, 0) := by
  have hmask : ∀ n k, n &&& (2 ^ k - 1) = n % 2 ^ k := Nat.and_two_pow_sub_one_eq_mod
  have hparts : ∀ f : UInt32, f.toNat < 2 ^ 24 →
      ((f >>> 16 &&& 0xff).toUInt8, (f &&& 0xffff).toUInt16) = ((0, 0) : Fingerprint) → f = 0 := by
    intro f hlt hzero
    have hhigh : (f.toNat >>> 16 &&& (2 ^ 8 - 1)) % 2 ^ 8 = 0 :=
      congrArg UInt8.toNat (congrArg Prod.fst hzero)
    have hlow : (f.toNat &&& (2 ^ 16 - 1)) % 2 ^ 16 = 0 :=
      congrArg UInt16.toNat (congrArg Prod.snd hzero)
    rw [hmask, Nat.shiftRight_eq_div_pow] at hhigh
    rw [hmask] at hlow
    apply UInt32.toNat.inj
    rw [show (0 : UInt32).toNat = 0 from rfl]
    omega
  have hlt : (hash value 0x811c9dc5 &&& 0xffffff).toNat < 2 ^ 24 := by
    exact Nat.and_lt_two_pow _ (by decide)
  intro h
  rw [fingerprint] at h
  split at h
  · exact absurd (hparts 1 (by decide) h) (by decide)
  · next hne => exact hne (hparts _ hlt h)

variable {s value} {s' : BoundedColdIdHashSet} {fp : Fingerprint}

def Extends (s s' : BoundedColdIdHashSet) : Prop :=
  ∀ slot, s.slots slot ≠ (0, 0) → s'.slots slot = s.slots slot

theorem Extends.has (h : Extends s s') (left slot : Nat)
    (hhas : (hasFrom s.slots fp left slot).1 = true) :
    (hasFrom s'.slots fp left slot).1 = true := by
  induction left generalizing slot with
  | zero => rfl
  | succ left ih =>
    rw [hasFrom] at hhas ⊢
    split at hhas
    · cases hhas
    · next hfull =>
      rw [h slot hfull, if_neg hfull]
      split
      · rfl
      · next hne =>
        rw [if_neg hne] at hhas
        exact ih _ hhas

theorem extends_addFrom (fp : Fingerprint) (left slot : Nat) :
    Extends s (addFrom s fp left slot).1 := by
  induction left generalizing slot with
  | zero => exact fun _ _ => rfl
  | succ left ih =>
    rw [addFrom]
    split
    · exact fun _ _ => rfl
    · split
      · next hempty =>
        refine fun other hother => Function.update_of_ne ?_ ..
        rintro rfl
        exact hother hempty
      · exact ih _

theorem hasFrom_addFrom (hfp : fp ≠ (0, 0)) {left slot : Nat}
    (h : (addFrom s fp left slot).2.1 = true) :
    (hasFrom (addFrom s fp left slot).1.slots fp left slot).1 = true := by
  induction left generalizing slot with
  | zero => rfl
  | succ left ih =>
    rw [addFrom] at h ⊢
    split
    · next hfound => simp [hasFrom, hfound, hfp]
    · next hne =>
      split
      · simp [hasFrom, hfp]
      · next hfull =>
        rw [if_neg hne, if_neg hfull] at h
        -- the slots passed are full, and stay as they are
        rw [hasFrom, extends_addFrom fp left (nextSlot slot) slot hfull, if_neg hfull, if_neg hne]
        exact ih h

theorem extends_add (value : List UInt16) : Extends s (s.add value).1 := by
  rw [add]
  split
  · exact fun _ _ => rfl
  · exact extends_addFrom _ _ _

theorem extends_addAll (values : List (List UInt16)) : Extends s (s.addAll values) := by
  induction values generalizing s with
  | nil => exact fun _ _ => rfl
  | cons value values ih =>
    intro slot hfull
    have hnext := extends_add value slot hfull
    exact (ih slot (hnext ▸ hfull)).trans hnext

theorem has_add (h : (s.add value).2.1 = true) : ((s.add value).1.has value).1 = true := by
  rw [add] at h ⊢
  split at h
  · cases h
  · next hroom =>
    rw [if_neg hroom]
    exact hasFrom_addFrom (fingerprint_ne value) h

theorem probes_hasFrom_le (slots : Nat → Fingerprint) (fp : Fingerprint) (left slot : Nat) :
    (hasFrom slots fp left slot).2 ≤ left := by
  induction left generalizing slot with
  | zero => exact Nat.le_refl _
  | succ left ih =>
    have hrest := ih (nextSlot slot)
    rw [hasFrom]
    split
    · exact Nat.le_add_left ..
    · split
      · exact Nat.le_add_left ..
      · exact Nat.succ_le_succ hrest

theorem probes_addFrom_le (s : BoundedColdIdHashSet) (fp : Fingerprint) (left slot : Nat) :
    (addFrom s fp left slot).2.2 ≤ left := by
  induction left generalizing slot with
  | zero => exact Nat.le_refl _
  | succ left ih =>
    have hrest := ih (nextSlot slot)
    rw [addFrom]
    split
    · exact Nat.le_add_left ..
    · split
      · exact Nat.le_add_left ..
      · exact Nat.succ_le_succ hrest

theorem forgetsNothing (maxEntries : Nat) : NoFalseNegatives maxEntries ∧
    ∀ (s : BoundedColdIdHashSet) value, (s.has value).2 ≤ COLD_ID_HASH_CAPACITY ∧
      (s.add value).2.2 ≤ COLD_ID_HASH_CAPACITY := by
  refine ⟨fun before value after h => (extends_addAll after).has _ _ (has_add h),
    fun s value => ⟨?_, ?_⟩⟩
  · exact probes_hasFrom_le ..
  · rw [add]
    split
    · exact Nat.zero_le _
    · exact probes_addFrom_le ..

end BoundedColdIdHashSet
end Vibrato.Session
