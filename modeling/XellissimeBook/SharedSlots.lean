-- Writes to shared slots: each write is made under a key, and it goes to the
-- slot of the key, which other keys may share. The law is about what a key finds
-- in its slot.
import XellissimeBook.Runs

open runs

namespace shared_slots

variable {ω κ ν γ : Type*} [DecidableEq κ] [DecidableEq ν]

/-! ## The last write at a place -/

/-- The value of the last write at the place. -/
def lastAt (place : ω → κ) (value : ω → γ) (k : κ) (writes : List ω) : Option γ :=
  lastSome (fun w => if place w = k then some (value w) else none) writes

variable (place : ω → κ) (value : ω → γ) {k : κ} {v : γ} {writes : List ω} {w : ω}

theorem lastAt_nil : lastAt place value k [] = none := rfl

theorem lastAt_snoc_self (h : place w = k) :
    lastAt place value k (writes ++ [w]) = some (value w) :=
  lastSome_snoc_some (if_pos h)

theorem lastAt_snoc_of_ne (h : place w ≠ k) :
    lastAt place value k (writes ++ [w]) = lastAt place value k writes :=
  lastSome_snoc_none (if_neg h)

/-- A place that was written has a last value. -/
theorem exists_lastAt (h : w ∈ writes) : ∃ v, lastAt place value (place w) writes = some v := by
  rw [← Option.isSome_iff_exists, Option.isSome_iff_ne_none]
  intro hnone
  have hw := lastSome_eq_none_iff.mp hnone w h
  rw [if_pos rfl] at hw
  cases hw

variable {place value}

theorem mem_of_lastAt (h : lastAt place value k writes = some v) :
    ∃ w ∈ writes, place w = k ∧ value w = v := by
  obtain ⟨w, hw, hv⟩ := mem_of_lastSome h
  split at hv
  · rename_i hplace
    exact ⟨w, hw, hplace, Option.some.inj hv⟩
  · cases hv

/-! ## Keys that share a slot -/

/-- The slot of a write. -/
def slotOf (key : ω → κ) (slot : κ → ν) (w : ω) : ν := slot (key w)

/-- Each key that was written finds its own last value in its slot. -/
def OwnLast (key : ω → κ) (slot : κ → ν) (value : ω → γ) (writes : List ω) : Prop :=
  ∀ k v, lastAt key value k writes = some v →
    lastAt (slotOf key slot) value (slot k) writes = some v

/-- Where another key has written to the slot of the write, the slot holds the
value of the write already. -/
def SparesOthers (key : ω → κ) (slot : κ → ν) (value : ω → γ) (writes : List ω) (w : ω) : Prop :=
  ∀ other ∈ writes, key other ≠ key w → slotOf key slot other = slotOf key slot w →
    lastAt (slotOf key slot) value (slotOf key slot w) writes = some (value w)

variable {key : ω → κ} {slot : κ → ν}

theorem ownLast_nil : OwnLast key slot value [] := by
  intro k v h
  rw [lastAt_nil] at h
  cases h

/-- One more write keeps the law exactly when it spares the other keys. -/
theorem ownLast_snoc_iff (h : OwnLast key slot value writes) :
    OwnLast key slot value (writes ++ [w]) ↔ SparesOthers key slot value writes w := by
  constructor
  · intro hsnoc other hother hkey hslot
    obtain ⟨v, hv⟩ := exists_lastAt key value hother
    have hbefore := h (key other) v hv
    -- the other key still has its value, and the slot has the new one
    have hkept : lastAt key value (key other) (writes ++ [w]) = some v := by
      rw [lastAt_snoc_of_ne key value hkey.symm]
      exact hv
    have hafter := hsnoc (key other) v hkept
    have hsame : slotOf key slot w = slot (key other) := hslot.symm
    rw [lastAt_snoc_self (slotOf key slot) value hsame] at hafter
    rw [hsame, hbefore, hafter]
  · intro hspares k v hv
    by_cases hkey : key w = k
    · rw [lastAt_snoc_self key value hkey] at hv
      rw [lastAt_snoc_self (slotOf key slot) value (congrArg slot hkey), hv]
    · rw [lastAt_snoc_of_ne key value hkey] at hv
      have hbefore := h k v hv
      by_cases hslot : slotOf key slot w = slot k
      · obtain ⟨other, hother, rfl, _⟩ := mem_of_lastAt hv
        have hheld := hspares other hother (Ne.symm hkey) hslot.symm
        rw [lastAt_snoc_self (slotOf key slot) value hslot, ← hheld, hslot, hbefore]
      · rw [lastAt_snoc_of_ne (slotOf key slot) value hslot]
        exact hbefore

end shared_slots
