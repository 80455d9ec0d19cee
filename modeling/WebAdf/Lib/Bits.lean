import Mathlib.Data.Nat.Bitwise
import Mathlib.Tactic.IntervalCases
import WebAdf.Lib.Slice

/-!
# Byte strings read bit by bit

Bit `b` of a byte string counts from the high bit of its first byte. `capture`
is a byte string that repeats, read from any bit on.
-/

namespace WebAdf.Lib

/-- Bit `b` of a byte string, high bits first. -/
def bitAt (xs : List UInt8) (b : Nat) : Bool := (xs.getD (b / 8) 0).toBitVec.getMsbD (b % 8)

theorem bitAt_byte (xs : List UInt8) (i : Nat) (hj : j < 8) :
    bitAt xs (8 * i + j) = (xs.getD i 0).toBitVec.getMsbD j := by
  rw [bitAt, show (8 * i + j) / 8 = i by omega, show (8 * i + j) % 8 = j by omega]

/-- Two bytes are equal when their eight bits are. -/
theorem byte_ext {x y : UInt8} (h : ∀ j < 8, x.toBitVec.getMsbD j = y.toBitVec.getMsbD j) :
    x = y :=
  UInt8.toBitVec_inj.mp (BitVec.eq_of_getMsbD_eq h)

theorem bytes_ext {xs ys : List UInt8} (hlen : xs.length = ys.length)
    (h : ∀ b < 8 * xs.length, bitAt xs b = bitAt ys b) : xs = ys := by
  apply List.ext_getElem hlen
  intro i hi hi'
  apply byte_ext
  intro j hj
  have hb := h (8 * i + j) (by omega)
  rw [bitAt_byte _ _ hj, bitAt_byte _ _ hj] at hb
  simpa [List.getD_eq_getElem?_getD, hi, hi'] using hb

theorem bitAt_slice (xs : List UInt8) (off : Nat) (hb : b < 8 * n) :
    bitAt (slice xs off n) b = bitAt xs (8 * off + b) := by
  rw [bitAt, getD_slice xs (by omega), bitAt, show (8 * off + b) / 8 = off + b / 8 by omega,
    show (8 * off + b) % 8 = b % 8 by omega]

/-- A byte from its bits, high bit first. -/
def packByte (f : Nat → Bool) : UInt8 :=
  ⟨BitVec.ofBoolListBE [f 0, f 1, f 2, f 3, f 4, f 5, f 6, f 7]⟩

theorem getMsbD_packByte (f : Nat → Bool) (hj : j < 8) :
    (packByte f).toBitVec.getMsbD j = f j := by
  show (BitVec.ofBoolListBE [f 0, f 1, f 2, f 3, f 4, f 5, f 6, f 7]).getMsbD j = f j
  rw [BitVec.getMsbD_ofBoolListBE]
  interval_cases j <;> rfl

/-- Bit `b` of a byte string that repeats without end. -/
def cyclicBit (xs : List UInt8) (b : Nat) : Bool := bitAt xs (b % (8 * xs.length))

/-- `len` bytes of a repeating byte string, read from bit `off` on. -/
def capture (xs : List UInt8) (off len : Nat) : List UInt8 :=
  (List.range len).map fun i => packByte fun j => cyclicBit xs (off + (8 * i + j))

@[simp] theorem length_capture (xs : List UInt8) (off len : Nat) :
    (capture xs off len).length = len := by
  simp [capture]

theorem bitAt_capture (xs : List UInt8) (off : Nat) (hb : b < 8 * len) :
    bitAt (capture xs off len) b = cyclicBit xs (off + b) := by
  have hi : b / 8 < len := by omega
  have hj : b % 8 < 8 := Nat.mod_lt _ (by decide)
  rw [bitAt, capture, List.getD_eq_getElem?_getD, List.getElem?_map, List.getElem?_range hi,
    Option.map_some, Option.getD_some, getMsbD_packByte _ hj, Nat.div_add_mod]

end WebAdf.Lib
