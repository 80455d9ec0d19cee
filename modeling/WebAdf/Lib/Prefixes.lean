import Mathlib.Tactic.Ring
import WebAdf.Lib.Bits

/-!
# Bit prefixes

The number a byte string spells, high byte first, and what it means for two
numbers to agree in their first bits: both lie in one aligned block.
-/

namespace WebAdf.Lib

/-- Big-endian. -/
def beNat (xs : List UInt8) : Nat := xs.foldl (fun n b => 256 * n + b.toNat) 0

@[simp] theorem beNat_nil : beNat [] = 0 := rfl

theorem beNat_concat (xs : List UInt8) (b : UInt8) : beNat (xs ++ [b]) = 256 * beNat xs + b.toNat := by
  rw [beNat, List.foldl_append, List.foldl_cons, List.foldl_nil, beNat]

theorem beNat_append (xs ys : List UInt8) : beNat (xs ++ ys) = 256 ^ ys.length * beNat xs + beNat ys := by
  induction ys using List.reverseRecOn with
  | nil => simp
  | append_singleton ys y ih =>
    rw [← List.append_assoc, beNat_concat, ih, beNat_concat, List.length_append, List.length_singleton, pow_succ]
    ring

theorem beNat_lt (xs : List UInt8) : beNat xs < 256 ^ xs.length := by
  induction xs using List.reverseRecOn with
  | nil => simp
  | append_singleton xs b ih =>
    have hb := b.toNat_lt
    rw [beNat_concat, List.length_append, List.length_singleton, pow_succ]
    omega

theorem testBit_shift (hb : b < 256) (n i : Nat) :
    (256 * n + b).testBit i = if i < 8 then b.testBit i else n.testBit (i - 8) := by
  have h := Nat.testBit_two_pow_mul_add n (b := b) (i := 8) (by omega) i
  rwa [show (2 : Nat) ^ 8 = 256 from rfl] at h

/-- A byte string's number has its bits. -/
theorem testBit_beNat (xs : List UInt8) (hb : b < 8 * xs.length) :
    (beNat xs).testBit (8 * xs.length - 1 - b) = bitAt xs b := by
  induction xs using List.reverseRecOn with
  | nil => simp at hb
  | append_singleton xs x ih =>
    rw [List.length_append, List.length_singleton] at hb ⊢
    rw [beNat_concat, testBit_shift x.toNat_lt]
    by_cases hin : b < 8 * xs.length
    · rw [if_neg (by omega), show 8 * (xs.length + 1) - 1 - b - 8 = 8 * xs.length - 1 - b by omega, ih hin]
      rw [bitAt, bitAt, List.getD_append _ _ _ _ (by omega)]
    · rw [if_pos (by omega), bitAt, List.getD_append_right _ _ _ _ (by omega),
        show b / 8 - xs.length = 0 by omega, List.getD_cons_zero, BitVec.getMsbD, BitVec.getLsbD,
        show 8 * (xs.length + 1) - 1 - b = 8 - 1 - b % 8 by omega]
      simp [show b % 8 < 8 by omega]

/-- Numbers of `w` bits agree in the first `k` of them when they lie in one block. -/
theorem div_eq_iff_testBit (hv : v < 2 ^ w) (hp : p < 2 ^ w) (hk : k ≤ w) :
    v / 2 ^ (w - k) = p / 2 ^ (w - k) ↔ ∀ i < k, v.testBit (w - 1 - i) = p.testBit (w - 1 - i) := by
  constructor
  · intro h i hi
    have hbit : ∀ n : Nat, n.testBit (w - 1 - i) = (n / 2 ^ (w - k)).testBit (k - 1 - i) := by
      intro n
      rw [Nat.testBit_div_two_pow, show k - 1 - i + (w - k) = w - 1 - i by omega]
    rw [hbit, hbit, h]
  · intro h
    apply Nat.eq_of_testBit_eq
    intro j
    rw [Nat.testBit_div_two_pow, Nat.testBit_div_two_pow]
    by_cases hj : j < k
    · have hi := h (k - 1 - j) (by omega)
      rwa [show w - 1 - (k - 1 - j) = j + (w - k) by omega] at hi
    · rw [Nat.testBit_lt_two_pow (lt_of_lt_of_le hv (Nat.pow_le_pow_right (by omega) (by omega))),
        Nat.testBit_lt_two_pow (lt_of_lt_of_le hp (Nat.pow_le_pow_right (by omega) (by omega)))]

/-- The block of an aligned number. -/
theorem div_eq_iff_range (hp : 2 ^ k ∣ p) : v / 2 ^ k = p / 2 ^ k ↔ p ≤ v ∧ v < p + 2 ^ k := by
  obtain ⟨q, rfl⟩ := hp
  rw [Nat.mul_div_cancel_left _ (Nat.two_pow_pos k), Nat.div_eq_iff (Nat.two_pow_pos k), Nat.mul_comm q]
  constructor
  · rintro ⟨hle, hlt⟩
    have := Nat.two_pow_pos k
    omega
  · rintro ⟨hle, hlt⟩
    omega

end WebAdf.Lib
