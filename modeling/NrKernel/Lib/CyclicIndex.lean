import Mathlib.Tactic.Ring.RingNF

/-!
# Cyclic indices

Logical positions of an unbounded sequence stored in a ring of fixed size: the physical slot
of a position, and the bit that alternates between successive passes over the ring. Within
any window of one ring length the slot determines the position.
-/

namespace Lib

/-- The physical slot of a logical position. -/
def slot (size : Nat) (i : Int) : Nat := (i % (size : Int)).toNat

/-- A bit that is the same for all positions of one pass over the ring and flips on the next. -/
def passBit (size : Nat) (i : Int) : Bool := decide (i / (size : Int) % 2 = 0)

variable {size : Nat}

/-- A slot is an index into the buffer. -/
theorem slot_lt (h : 0 < size) (i : Int) : slot size i < size := by
  have hpos : (0 : Int) < size := by omega
  have hlt := Int.emod_lt_of_pos i hpos
  have hnn := Int.emod_nonneg i (show (size : Int) ≠ 0 by omega)
  rw [slot]
  omega

/-- Indices one buffer length apart share a slot. -/
theorem slot_add_size (i : Int) : slot size (i + size) = slot size i := by
  rw [slot, slot, Int.add_emod_right]

/-- The next pass over the ring carries the other bit. -/
theorem passBit_add_size (h : 0 < size) (i : Int) :
    passBit size (i + size) = !passBit size i := by
  have hpos : (size : Int) ≠ 0 := by omega
  have hdiv : (i + size) / (size : Int) = i / size + 1 := by
    rw [Int.add_ediv_of_dvd_right (Int.dvd_refl _), Int.ediv_self hpos]
  rw [passBit, passBit, hdiv]
  by_cases hpar : i / (size : Int) % 2 = 0
  · have hodd : ¬ (i / (size : Int) + 1) % 2 = 0 := by omega
    simp [hpar, hodd]
  · have heven : (i / (size : Int) + 1) % 2 = 0 := by omega
    simp [hpar, heven]

/-- Positions share a slot when they are a multiple of the ring length apart. -/
theorem slot_eq_iff (h : 0 < size) (i j : Int) :
    slot size i = slot size j ↔ (size : Int) ∣ i - j := by
  have hpos : (size : Int) ≠ 0 := by omega
  have hi := Int.emod_nonneg i hpos
  have hj := Int.emod_nonneg j hpos
  rw [Int.dvd_iff_emod_eq_zero, ← Int.emod_eq_emod_iff_emod_sub_eq_zero, slot, slot]
  omega

/-- Within one ring length the slot determines the position. -/
theorem slot_inj (h : 0 < size) {i j lower : Int} (hi : lower ≤ i) (hi' : i < lower + size)
    (hj : lower ≤ j) (hj' : j < lower + size) (heq : slot size i = slot size j) : i = j := by
  have hdvd := (slot_eq_iff h i j).mp heq
  have hzero : i - j = 0 := Int.eq_zero_of_abs_lt_dvd hdvd (by rw [abs_lt]; omega)
  omega

end Lib
