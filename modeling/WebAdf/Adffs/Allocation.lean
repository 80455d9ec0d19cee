import Mathlib
import WebAdf.Adffs.Format

/-!
# Allocation is exact and can be undone

The allocator works on the image it is given: it takes all it was asked for and
changes those bits and the checksum alone, or leaves the image as it was; freeing
what it took gives the image back.
-/

namespace WebAdf.Adffs

open Lib

namespace Block

variable {b c : Block}

-- ---------------------------------------------------------------------------
-- The bitmap's checksum
-- ---------------------------------------------------------------------------

/-- The sum of the block's words but the first. -/
def bitmapSum (b : Block) : Nat := ((List.range (blockBytes / 4 - 1)).map fun i => b.be32 ((i + 1) * 4)).sum

/-- All the words of a bitmap block add up to zero. -/
def bitmapChecksumOk (b : Block) : Bool := (b.be32 0 + b.bitmapSum) % 2 ^ 32 == 0

theorem foldl_sum_mod (f : Nat → Nat) (l : List Nat) (ha : a < 2 ^ 32) :
    l.foldl (fun sum i => (sum + f i) % 2 ^ 32) a = (a + (l.map f).sum) % 2 ^ 32 := by
  induction l generalizing a with
  | nil => exact (Nat.mod_eq_of_lt ha).symm
  | cons x l ih =>
    rw [List.foldl_cons, ih (Nat.mod_lt _ (by decide)), List.map_cons, List.sum_cons]
    omega

theorem bitmapSum_congr (h : ∀ k, b.be32 (4 + k * 4) = c.be32 (4 + k * 4)) : b.bitmapSum = c.bitmapSum := by
  refine congrArg List.sum (List.map_congr_left fun i _ => ?_)
  have hi := h i
  rwa [show 4 + i * 4 = (i + 1) * 4 by omega] at hi

/-- The checksum word that `rechecksum` stores. -/
theorem be32_rechecksum (b : Block) : b.rechecksum.be32 0 = (2 ^ 32 - b.bitmapSum % 2 ^ 32) % 2 ^ 32 := by
  have hzero : ∀ k, (b.putBe32 0 0).be32 (4 + k * 4) = b.be32 (4 + k * 4) := fun k => be32_putBe32_other (by omega)
  have hsum : (List.range (blockBytes / 4)).foldl (fun sum i => (sum + (b.putBe32 0 0).be32 (i * 4)) % 2 ^ 32) 0 =
      b.bitmapSum % 2 ^ 32 := by
    rw [foldl_sum_mod (fun i => (b.putBe32 0 0).be32 (i * 4)) _ (by decide), ← bitmapSum_congr hzero,
      show blockBytes / 4 = blockBytes / 4 - 1 + 1 from rfl, List.range_succ_eq_map, List.map_cons, List.sum_cons,
      Nat.zero_mul, be32_putBe32, List.map_map]
    simp only [Nat.zero_mod, Nat.zero_add]
    rfl
  rw [rechecksum, hsum, be32_putBe32, Nat.mod_mod]

theorem bitmapChecksumOk_rechecksum (b : Block) : b.rechecksum.bitmapChecksumOk = true := by
  have hrest : b.rechecksum.bitmapSum = b.bitmapSum := bitmapSum_congr fun k => by
    rw [rechecksum, be32_putBe32_other (by omega), be32_putBe32_other (by omega)]
  rw [bitmapChecksumOk, be32_rechecksum, hrest, beq_iff_eq]
  omega

-- ---------------------------------------------------------------------------
-- Words and bits
-- ---------------------------------------------------------------------------

theorem bytes_of_be32 (h : b.be32 off = c.be32 off) (hi : i < 4) : b (off + i) = c (off + i) := by
  have h0 := (b off).toNat_lt
  have h1 := (b (off + 1)).toNat_lt
  have h2 := (b (off + 2)).toNat_lt
  have h3 := (b (off + 3)).toNat_lt
  have h0' := (c off).toNat_lt
  have h1' := (c (off + 1)).toNat_lt
  have h2' := (c (off + 2)).toNat_lt
  have h3' := (c (off + 3)).toNat_lt
  simp only [be32, Lib.be32] at h
  refine UInt8.toNat_inj.1 ?_
  obtain rfl | rfl | rfl | rfl : i = 0 ∨ i = 1 ∨ i = 2 ∨ i = 3 := by omega
  · exact (by omega : (b off).toNat = (c off).toNat)
  · omega
  · omega
  · omega

theorem be32_of_bits (h : ∀ bit, b.freeBit bit = c.freeBit bit) (k : Nat) : b.be32 (4 + k * 4) = c.be32 (4 + k * 4) := by
  refine Nat.eq_of_testBit_eq fun j => ?_
  by_cases hj : j < 32
  · have hbit := h (k * 32 + j)
    rwa [freeBit, freeBit, show (k * 32 + j) / 32 = k by omega, show (k * 32 + j) % 32 = j by omega] at hbit
  · have hle : 2 ^ 32 ≤ 2 ^ j := Nat.pow_le_pow_right (by decide) (Nat.le_of_not_lt hj)
    rw [Nat.testBit_lt_two_pow (Nat.lt_of_lt_of_le (be32_lt b _) hle),
      Nat.testBit_lt_two_pow (Nat.lt_of_lt_of_le (be32_lt c _) hle)]

/-- A block whose bits are those of a checksummed bitmap is that bitmap once its checksum is made good. -/
theorem rechecksum_eq (hc : c.bitmapChecksumOk = true) (hbits : ∀ bit, b.freeBit bit = c.freeBit bit) : b.rechecksum = c := by
  have hwords := be32_of_bits hbits
  have hzero : b.rechecksum.be32 0 = c.be32 0 := by
    rw [bitmapChecksumOk, beq_iff_eq] at hc
    have hlt := be32_lt c 0
    rw [be32_rechecksum, bitmapSum_congr hwords]
    omega
  funext i
  by_cases hi : i < 4
  · have hbyte := bytes_of_be32 hzero hi
    rwa [Nat.zero_add] at hbyte
  · have hbyte : b (4 + (i - 4) / 4 * 4 + (i - 4) % 4) = c (4 + (i - 4) / 4 * 4 + (i - 4) % 4) :=
      bytes_of_be32 (hwords _) (Nat.mod_lt _ (by decide))
    rw [show 4 + (i - 4) / 4 * 4 + (i - 4) % 4 = i by omega] at hbyte
    rw [rechecksum, putBe32_other (by omega), putBe32_other (by omega), hbyte]

end Block

namespace Adf

variable {adf out : Adf} {page : Nat} {blocks : List Nat}

-- ---------------------------------------------------------------------------
-- In place
-- ---------------------------------------------------------------------------

/-- The allocator as it works on the image it is given. -/
def allocateIn (adf : Adf) (n : Nat) : Option (List Nat) × Adf :=
  adf.bitmapPage.elim (none, adf) fun page =>
    let out := (adf.candidates page).take n
    if out.length < n then (none, adf) else (some out, adf.setBits page out false)

/-- The blocks that may be handed out. -/
def freeList (adf : Adf) : List Nat := (List.range adf.blockCount).filter adf.isFree

theorem allocate_eq (adf : Adf) (n : Nat) :
    adf.allocate n = (adf.allocateIn n).1.map fun blocks => (blocks, (adf.allocateIn n).2) := by
  rw [allocate, allocateIn]
  cases adf.bitmapPage with
  | none => rfl
  | some page =>
    rw [Option.bind_some, Option.elim_some]
    dsimp only
    by_cases hlen : ((adf.candidates page).take n).length < n
    · rw [if_pos hlen, if_pos hlen]
      rfl
    · rw [if_neg hlen, if_neg hlen]
      rfl

theorem freeList_eq (ht : adf.Trusted page) : adf.freeList = adf.candidates page := by
  refine List.filter_congr fun b _ => ?_
  rw [isFree, bitmapPage_iff.2 ht, Option.any_some]

theorem isFree_iff (ht : adf.Trusted page) : adf.isFree n = true ↔ adf.isReserved page n = false ∧ adf.isFreeAt page n = true := by
  rw [isFree, bitmapPage_iff.2 ht, Option.any_some, Bool.and_eq_true, Bool.not_eq_true']

-- ---------------------------------------------------------------------------
-- Exact and reversible
-- ---------------------------------------------------------------------------

/-- A bit of the bitmap page after an allocation or a freeing. -/
theorem bit_setBits (ht : adf.Trusted page) (hge : ∀ x ∈ blocks, bitmapFirstBlock ≤ x) (bit : Nat) :
    ((adf.setBits page blocks v).block page).freeBit bit =
      if bit + bitmapFirstBlock ∈ blocks then v else (adf.block page).freeBit bit := by
  have h := @freeBit_setBits adf page (bit + bitmapFirstBlock) v blocks ht hge (Nat.le_add_left ..)
  rwa [Nat.add_sub_cancel] at h

theorem density_eq_ext {a b : Adf} (hd : a.density = b.density) (hb : ∀ n, a.block n = b.block n) : a = b := by
  obtain ⟨da, ba⟩ := a
  obtain ⟨db, bb⟩ := b
  obtain rfl : da = db := hd
  obtain rfl : ba = bb := funext hb
  rfl

/-- Freeing what an allocation took gives the image back. -/
theorem free_setBits (ht : adf.Trusted page) (hsum : (adf.block page).bitmapChecksumOk = true) (hb : Taken adf page blocks) :
    (adf.setBits page blocks false).free blocks = adf := by
  have ht' := ht.setBits (v := false) hb.ge hb.not_page
  have hall : (blocks.filter fun b => !(adf.setBits page blocks false).isReserved page b) = blocks := by
    refine List.filter_eq_self.2 fun b hmem => ?_
    rw [Bool.not_eq_true']
    exact hb.kept b hmem
  refine density_eq_ext (density_free _ _) fun n => ?_
  by_cases hn : n = page
  · subst hn
    rw [free_eq ht', hall, setBits, block_modify_self ht'.lt]
    refine Block.rechecksum_eq hsum fun bit => ?_
    have hbit := Block.freeBit_setBits blocks hb.ge true ((adf.setBits n blocks false).block n) (bit + bitmapFirstBlock)
      (Nat.le_add_left ..)
    rw [Nat.add_sub_cancel] at hbit
    rw [hbit, bit_setBits ht hb.ge]
    by_cases hmem : bit + bitmapFirstBlock ∈ blocks
    · have hfree := hb.free _ hmem
      rw [ht.isFreeAt, Nat.add_sub_cancel] at hfree
      rw [if_pos hmem, hfree]
    · rw [if_neg hmem, if_neg hmem]
  · rw [block_free ht' hn, block_setBits hn]

/-- What a successful allocation did to the image. -/
structure Allocated (adf : Adf) (page n : Nat) (blocks : List Nat) (out : Adf) : Prop where
  length : blocks.length = n
  nodup : blocks.Nodup
  free : ∀ b ∈ blocks, adf.isFree b = true
  range : ∀ b ∈ blocks, bitmapFirstBlock ≤ b ∧ b < adf.blockCount ∧ b ≠ adf.rootBlock ∧ b ≠ page
  density : out.density = adf.density
  other : ∀ i, i ≠ page → out.block i = adf.block i
  bits : ∀ bit, (out.block page).freeBit bit = if bit + bitmapFirstBlock ∈ blocks then false else (adf.block page).freeBit bit
  checksum : (out.block page).bitmapChecksumOk = true
  undone : out.free blocks = adf

/-- The allocator hands out exactly what was asked for or leaves the image alone, and
freeing what it took restores the image. -/
theorem allocate_exact (hpage : adf.bitmapPage = some page) (hsum : (adf.block page).bitmapChecksumOk = true) (n : Nat) :
    (adf.freeList.length < n ∧ adf.allocateIn n = (none, adf)) ∨
      (n ≤ adf.freeList.length ∧ ∃ blocks out, adf.allocateIn n = (some blocks, out) ∧ Allocated adf page n blocks out) := by
  have ht := bitmapPage_iff.1 hpage
  rw [freeList_eq ht, allocateIn, hpage, Option.elim_some]
  dsimp only
  by_cases hlen : ((adf.candidates page).take n).length < n
  · rw [if_pos hlen]
    rw [List.length_take] at hlen
    exact .inl ⟨by omega, rfl⟩
  · rw [if_neg hlen]
    rw [List.length_take] at hlen
    refine .inr ⟨by omega, _, _, rfl, ?_⟩
    have hall : adf.allocate n = some ((adf.candidates page).take n, adf.setBits page ((adf.candidates page).take n) false) := by
      rw [allocate, hpage, Option.bind_some]
      dsimp only
      rw [if_neg (by rw [List.length_take]; omega)]
    obtain ⟨hb, hl, -⟩ := allocate_some ht hall
    exact {
      length := hl
      nodup := hb.nodup
      free := fun b hmem => (isFree_iff ht).2 ⟨hb.kept b hmem, hb.free b hmem⟩
      range := fun b hmem => by
        obtain ⟨hroot, hp, hge, hlt⟩ := isReserved_iff.1 (hb.kept b hmem)
        exact ⟨hge, hlt, hroot, hp⟩
      density := density_setBits _ _ _ _
      other := fun i hi => block_setBits hi
      bits := bit_setBits ht hb.ge
      checksum := by
        rw [setBits, block_modify_self ht.lt]
        exact Block.bitmapChecksumOk_rechecksum _
      undone := free_setBits ht hsum hb }

end Adf

/-- Three blocks of a freshly formatted disk. -/
theorem allocate_exact_floppy : ∃ blocks out, (formatVolume { volumeName := [0x45], filesystem := .ofs } 0).allocateIn 3 =
    (some blocks, out) ∧ Adf.Allocated (formatVolume { volumeName := [0x45], filesystem := .ofs } 0) 881 3 blocks out := by
  have hw := formatVolume_wellFormed { volumeName := [0x45], filesystem := .ofs } 0
  have hsum : ((formatVolume { volumeName := [0x45], filesystem := .ofs } 0).block 881).bitmapChecksumOk = true := by
    refine (congrArg Block.bitmapChecksumOk block_formatVolume_bitmap).trans ?_
    exact Block.bitmapChecksumOk_rechecksum _
  have hsome : ((formatVolume { volumeName := [0x45], filesystem := .ofs } 0).allocateIn 3).1.isSome = true := by
    decide +kernel
  rcases Adf.allocate_exact hw.bitmap hsum 3 with ⟨-, hnone⟩ | ⟨-, h⟩
  · rw [hnone] at hsome
    cases hsome
  · exact h

end WebAdf.Adffs
