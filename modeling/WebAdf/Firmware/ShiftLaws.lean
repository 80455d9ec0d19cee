import WebAdf.Firmware.Mfm
import WebAdf.Lib.Clocking

/-!
# The decoder's shift register and realignment

What the register holds after any bit since its last reset, and a body read
from any bit offset.
-/

namespace WebAdf.Firmware

open Lib Adfmfm

/-- The register `sr` after bit `b - 1` of `mfm`, reset before bit `r`. -/
def Shifted (mfm : Bytes) (r b : Nat) (sr : UInt32) : Prop :=
  ∀ j < 32, sr.toBitVec.getLsbD j = (decide (r + j < b) && bitAt mfm (b - 1 - j))

theorem shiftIn_zero (mfm : Bytes) (b : Nat) (sr : UInt32) :
    (shiftIn mfm b sr).toBitVec.getLsbD 0 = bitAt mfm b := by
  have hj : b % 8 < 8 := Nat.mod_lt _ (by decide)
  rw [shiftIn, bitAt]
  generalize mfm.getD (b / 8) 0 = x
  generalize b % 8 = j at hj
  interval_cases j <;> simp [BitVec.getMsbD, BitVec.getLsbD]

theorem shiftIn_succ (mfm : Bytes) (b : Nat) (sr : UInt32) (hj : j + 1 < 32) :
    (shiftIn mfm b sr).toBitVec.getLsbD (j + 1) = sr.toBitVec.getLsbD j := by
  rw [shiftIn]
  generalize (mfm.getD (b / 8) 0).toUInt32 >>> UInt32.ofNat (7 - b % 8) = x
  simp [hj, BitVec.getLsbD_eq_getElem (show j < 32 by omega)]

theorem Shifted.reset (mfm : Bytes) (b : Nat) : Shifted mfm b b 0 := by
  intro j _
  simp

theorem Shifted.step (h : Shifted mfm r b sr) (hr : r ≤ b) :
    Shifted mfm r (b + 1) (shiftIn mfm b sr) := by
  intro j hj
  cases j with
  | zero => rw [shiftIn_zero, decide_eq_true (by omega)]; simp
  | succ j =>
    rw [shiftIn_succ mfm b sr hj, h j (by omega)]
    congr 2
    · simp
      omega
    · omega

theorem sync_getLsbD (hk : k < 32) :
    (0x44894489 : UInt32).toBitVec.getLsbD (31 - k) = syncBit k := by
  interval_cases k <;> rfl

/-- A sync word shifted in whole is seen. -/
theorem Shifted.eq_sync (h : Shifted mfm r (p + 32) sr) (hr : r ≤ p)
    (hbits : ∀ k < 32, bitAt mfm (p + k) = syncBit k) : sr = 0x44894489 := by
  apply UInt32.toBitVec_inj.mp
  apply BitVec.eq_of_getLsbD_eq
  intro j hj
  have hs := sync_getLsbD (k := 31 - j) (by omega)
  rw [show 31 - (31 - j) = j by omega] at hs
  rw [h j hj, decide_eq_true (by omega), Bool.true_and, hs,
    show p + 32 - 1 - j = p + (31 - j) by omega, hbits _ (by omega)]

/-- A register that reads as a sync word has seen its bits 1 to 31. -/
theorem Shifted.sync_bits (h : Shifted mfm r (p + 32) 0x44894489) (hk : 1 ≤ k ∧ k < 32) :
    bitAt mfm (p + k) = syncBit k := by
  -- bit 1 is set, so the reset came before it
  have hone := h 30 (by decide)
  rw [show (0x44894489 : UInt32).toBitVec.getLsbD 30 = true from rfl, eq_comm,
    Bool.and_eq_true, decide_eq_true_eq] at hone
  have hbit := h (31 - k) (by omega)
  rw [sync_getLsbD hk.2, decide_eq_true (by omega), Bool.true_and,
    show p + 32 - 1 - (31 - k) = p + k by omega] at hbit
  exact hbit.symm

-- ---------------------------------------------------------------------------
-- Realignment
-- ---------------------------------------------------------------------------

theorem shifted_byte (x y : UInt8) (hs : 0 < s ∧ s < 8) (hj : j < 8) :
    ((x <<< UInt8.ofNat s) ||| (y >>> UInt8.ofNat (8 - s))).toBitVec.getMsbD j =
      if j + s < 8 then x.toBitVec.getMsbD (j + s) else y.toBitVec.getMsbD (j + s - 8) := by
  obtain ⟨hs0, hs8⟩ := hs
  interval_cases s <;> interval_cases j <;> simp [BitVec.getMsbD]

@[simp] theorem length_realign (h : bit + 8 * n ≤ 8 * m.length) : (realign m bit n).length = n := by
  rw [realign]
  split
  · rw [length_slice]
    omega
  · simp

theorem bitAt_realign (m : Bytes) (bit : Nat) (hk : k < 8 * n) :
    bitAt (realign m bit n) k = bitAt m (bit + k) := by
  rw [realign]
  split
  · rw [bitAt_slice _ _ hk, show 8 * (bit / 8) + k = bit + k by omega]
  · have hi : k / 8 < n := by omega
    have hj : k % 8 < 8 := Nat.mod_lt _ (by decide)
    rw [bitAt, List.getD_eq_getElem?_getD, List.getElem?_map, List.getElem?_range hi,
      Option.map_some, Option.getD_some, shifted_byte _ _ ⟨by omega, by omega⟩ hj, bitAt]
    split
    · rw [show (bit + k) / 8 = bit / 8 + k / 8 by omega,
        show (bit + k) % 8 = k % 8 + bit % 8 by omega]
    · rw [show (bit + k) / 8 = bit / 8 + k / 8 + 1 by omega,
        show (bit + k) % 8 = k % 8 + bit % 8 - 8 by omega]

end WebAdf.Firmware
