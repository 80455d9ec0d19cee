import Mathlib.Data.Nat.Bitwise

/-!
# Big-endian words

A word of two or four bytes, high byte first, and its value back.
-/

namespace WebAdf.Lib

def be16 (a b : UInt8) : Nat := a.toNat * 2 ^ 8 + b.toNat

def be32 (a b c d : UInt8) : Nat :=
  a.toNat * 2 ^ 24 + b.toNat * 2 ^ 16 + c.toNat * 2 ^ 8 + d.toNat

/-- The byte of `v` that weighs `2 ^ (8 * k)`. -/
def byteOf (v k : Nat) : UInt8 := UInt8.ofNat (v / 2 ^ (8 * k))

def put16 (v : Nat) : List UInt8 := [byteOf v 1, byteOf v 0]

def put32 (v : Nat) : List UInt8 := [byteOf v 3, byteOf v 2, byteOf v 1, byteOf v 0]

@[simp] theorem length_put16 (v : Nat) : (put16 v).length = 2 := rfl

@[simp] theorem length_put32 (v : Nat) : (put32 v).length = 4 := rfl

theorem toNat_byteOf (v k : Nat) : (byteOf v k).toNat = v / 2 ^ (8 * k) % 256 := by
  simp [byteOf]

theorem be16_put (h : v < 2 ^ 16) : be16 (byteOf v 1) (byteOf v 0) = v := by
  simp only [be16, toNat_byteOf]
  omega

theorem be32_put (h : v < 2 ^ 32) :
    be32 (byteOf v 3) (byteOf v 2) (byteOf v 1) (byteOf v 0) = v := by
  simp only [be32, toNat_byteOf]
  omega

theorem be32_lt (a b c d : UInt8) : be32 a b c d < 2 ^ 32 := by
  have := a.toNat_lt
  have := b.toNat_lt
  have := c.toNat_lt
  have := d.toNat_lt
  simp only [be32]
  omega

end WebAdf.Lib

/-!
# Little-endian words

A word of four bytes, low byte first, and its value back.
-/

namespace WebAdf.Lib

/-- The word the first four bytes make. -/
def le32 (b : List UInt8) : Nat :=
  (b.getD 0 0).toNat +
    256 * ((b.getD 1 0).toNat + 256 * ((b.getD 2 0).toNat + 256 * (b.getD 3 0).toNat))

def putLe32 (v : Nat) : List UInt8 := [byteOf v 0, byteOf v 1, byteOf v 2, byteOf v 3]

@[simp] theorem length_putLe32 (v : Nat) : (putLe32 v).length = 4 := rfl

theorem le32_putLe32 (h : v < 2 ^ 32) (rest : List UInt8) : le32 (putLe32 v ++ rest) = v := by
  simp only [le32, putLe32, List.cons_append, List.getD_cons_zero, List.getD_cons_succ,
    toNat_byteOf]
  omega

theorem le32_lt (b : List UInt8) : le32 b < 2 ^ 32 := by
  have := (b.getD 0 0).toNat_lt
  have := (b.getD 1 0).toNat_lt
  have := (b.getD 2 0).toNat_lt
  have := (b.getD 3 0).toNat_lt
  simp only [le32]
  omega

theorem putLe32_le32 (h : b.length = 4) : putLe32 (le32 b) = b := by
  obtain ⟨b₀, b₁, b₂, b₃, rfl⟩ : ∃ b₀ b₁ b₂ b₃, b = [b₀, b₁, b₂, b₃] := by
    match b, h with
    | [b₀, b₁, b₂, b₃], _ => exact ⟨b₀, b₁, b₂, b₃, rfl⟩
  have h₀ := b₀.toNat_lt
  have h₁ := b₁.toNat_lt
  have h₂ := b₂.toNat_lt
  have h₃ := b₃.toNat_lt
  simp only [putLe32, le32, List.getD_cons_zero, List.getD_cons_succ, List.cons.injEq, and_true,
    ← UInt8.toNat_inj, toNat_byteOf]
  omega

theorem le32_append (h : 4 ≤ b.length) (rest : List UInt8) : le32 (b ++ rest) = le32 b := by
  unfold le32
  rw [List.getD_append _ _ _ _ (by omega), List.getD_append _ _ _ _ (by omega),
    List.getD_append _ _ _ _ (by omega), List.getD_append _ _ _ _ (by omega)]

end WebAdf.Lib
