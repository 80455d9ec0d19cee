import Mathlib.Data.Nat.Bitwise
import Mathlib.Data.List.Nodup
import WebAdf.Adffs.HeaderLaws

/-!
# What allocating and freeing change

A bit set is the bit read, and only the bitmap's block changes. The bitmap stays
trusted as long as its own bit and the root block stay.
-/

namespace WebAdf.Adffs

open Lib

namespace Block

variable {b : Block}

theorem freeBit_setBit (b : Block) (block : Nat) (v : Bool) (bit : Nat) :
    (b.setBit block v).freeBit bit = if bit = block - bitmapFirstBlock then v else b.freeBit bit := by
  have hlt : bit % 32 < 32 := Nat.mod_lt _ (by decide)
  by_cases hword : bit / 32 = (block - bitmapFirstBlock) / 32
  · have hsame : bit = block - bitmapFirstBlock ↔ bit % 32 = (block - bitmapFirstBlock) % 32 := by
      constructor
      · exact fun h => by rw [h]
      · intro h
        rw [← Nat.div_add_mod bit 32, ← Nat.div_add_mod (block - bitmapFirstBlock) 32, hword, h]
    rw [freeBit, setBit, hword, be32_putBe32, Nat.testBit_mod_two_pow, decide_eq_true hlt, Bool.true_and, freeBit, hword]
    by_cases hbit : bit = block - bitmapFirstBlock
    · rw [if_pos hbit, ← hsame.1 hbit]
      cases v with
      | true => rw [if_pos rfl, Nat.testBit_or, Nat.testBit_two_pow_self, Bool.or_true]
      | false =>
        rw [if_neg Bool.false_ne_true, Nat.testBit_and, Nat.testBit_xor, Nat.testBit_two_pow_self,
          show (0xffffffff : Nat) = 2 ^ 32 - 1 from rfl, Nat.testBit_two_pow_sub_one, decide_eq_true hlt]
        exact Bool.and_false _
    · have hne : (block - bitmapFirstBlock) % 32 ≠ bit % 32 := fun h => hbit (hsame.2 h.symm)
      rw [if_neg hbit]
      cases v with
      | true => rw [if_pos rfl, Nat.testBit_or, Nat.testBit_two_pow_of_ne hne, Bool.or_false]
      | false =>
        rw [if_neg Bool.false_ne_true, Nat.testBit_and, Nat.testBit_xor, Nat.testBit_two_pow_of_ne hne,
          show (0xffffffff : Nat) = 2 ^ 32 - 1 from rfl, Nat.testBit_two_pow_sub_one, decide_eq_true hlt]
        exact Bool.and_true _
  · have hbit : bit ≠ block - bitmapFirstBlock := fun h => hword (by rw [h])
    rw [if_neg hbit, freeBit, setBit, be32_putBe32_other (by omega), freeBit]

theorem freeBit_rechecksum (b : Block) (bit : Nat) : b.rechecksum.freeBit bit = b.freeBit bit := by
  rw [freeBit, rechecksum, be32_putBe32_other (by omega), be32_putBe32_other (by omega), freeBit]

theorem freeBit_setBits (blocks : List Nat) (hge : ∀ x ∈ blocks, bitmapFirstBlock ≤ x) (v : Bool) (b : Block) (n : Nat)
    (hn : bitmapFirstBlock ≤ n) :
    (blocks.foldl (fun b block => b.setBit block v) b).freeBit (n - bitmapFirstBlock) =
      if n ∈ blocks then v else b.freeBit (n - bitmapFirstBlock) := by
  induction blocks generalizing b with
  | nil => rfl
  | cons x blocks ih =>
    have hx := hge x (List.mem_cons_self ..)
    rw [List.foldl_cons, ih (fun y hy => hge y (List.mem_cons_of_mem _ hy)), freeBit_setBit]
    by_cases hmem : n ∈ blocks
    · rw [if_pos hmem, if_pos (List.mem_cons_of_mem _ hmem)]
    · rw [if_neg hmem]
      by_cases hnx : n = x
      · rw [if_pos (by rw [hnx]), if_pos (by rw [hnx]; exact List.mem_cons_self ..)]
      · rw [if_neg (by omega), if_neg (fun h => (List.mem_cons.1 h).elim hnx hmem)]

end Block

namespace Adf

variable {adf out : Adf}

-- ---------------------------------------------------------------------------
-- Blocks
-- ---------------------------------------------------------------------------

theorem raw_of_lt (h : n < adf.blockCount) : adf.raw n = adf.block n := if_pos h

theorem blockAt_of_lt (h : n < adf.blockCount) : adf.blockAt n = some (adf.block n) := if_pos h

theorem blockAt_eq_some (h : adf.blockAt n = some b) : n < adf.blockCount ∧ b = adf.block n := by
  rw [blockAt] at h
  split at h
  · rename_i hlt
    exact ⟨hlt, (Option.some.inj h).symm⟩
  · cases h

theorem block_modify_self (h : n < adf.blockCount) : (adf.modify n f).block n = f (adf.block n) := if_pos ⟨rfl, h⟩

theorem block_modify_other (h : i ≠ n) : (adf.modify n f).block i = adf.block i := if_neg fun hf => h hf.1

@[simp] theorem density_modify (adf : Adf) (n : Nat) (f : Block → Block) : (adf.modify n f).density = adf.density := rfl

theorem rootBlock_lt (adf : Adf) : adf.rootBlock < adf.blockCount := by
  rw [rootBlock, blockCount]
  cases adf.density <;> decide

theorem rootBlock_ge (adf : Adf) : bitmapFirstBlock ≤ adf.rootBlock := by
  rw [rootBlock]
  cases adf.density <;> decide

theorem blockCount_lt (adf : Adf) : adf.blockCount < 2 ^ 32 := by
  rw [blockCount]
  cases adf.density <;> decide

theorem blockCount_pos (adf : Adf) : 0 < adf.blockCount := Nat.lt_of_le_of_lt (Nat.zero_le _) adf.rootBlock_lt

-- ---------------------------------------------------------------------------
-- A trusted bitmap
-- ---------------------------------------------------------------------------

/-- The root block says the bitmap is valid and stands at `page`, which is marked used. -/
structure Trusted (adf : Adf) (page : Nat) : Prop where
  valid : (adf.block adf.rootBlock).i32 312 = -1
  pointer : (adf.block adf.rootBlock).be32 316 = page
  ge : bitmapFirstBlock ≤ page
  lt : page < adf.blockCount
  ne : page ≠ adf.rootBlock
  used : (adf.block page).freeBit (page - bitmapFirstBlock) = false

theorem readUsage_of_trusted (h : adf.Trusted page) : adf.readUsage =
    some ⟨adf.blockCount, adf.blockCount - adf.freeBlocks page, adf.freeBlocks page⟩ := by
  have hroot : adf.raw adf.rootBlock = adf.block adf.rootBlock := raw_of_lt adf.rootBlock_lt
  have hrange : ¬ (page < bitmapFirstBlock ∨ adf.blockCount ≤ page ∨ page = adf.rootBlock) := by
    rintro (hlt | hle | heq)
    · exact absurd h.ge (Nat.not_le.2 hlt)
    · exact absurd h.lt (Nat.not_lt.2 hle)
    · exact h.ne heq
  have hused : ¬ (adf.raw page).freeBit (page - bitmapFirstBlock) = true := by
    rw [raw_of_lt h.lt, h.used]
    exact Bool.false_ne_true
  delta readUsage
  dsimp only
  rw [hroot, h.pointer, if_neg (not_not.2 h.valid), if_neg hrange, if_neg hused]

theorem trusted_of_readUsage (h : adf.readUsage = some u) : adf.Trusted ((adf.block adf.rootBlock).be32 316) := by
  have hroot : adf.raw adf.rootBlock = adf.block adf.rootBlock := raw_of_lt adf.rootBlock_lt
  delta readUsage at h
  dsimp only at h
  rw [hroot] at h
  generalize hp : (adf.block adf.rootBlock).be32 316 = page at h ⊢
  by_cases hvalid : (adf.block adf.rootBlock).i32 312 ≠ -1
  · rw [if_pos hvalid] at h
    cases h
  · rw [if_neg hvalid] at h
    by_cases hrange : page < bitmapFirstBlock ∨ adf.blockCount ≤ page ∨ page = adf.rootBlock
    · rw [if_pos hrange] at h
      cases h
    · rw [if_neg hrange] at h
      rw [not_or, not_or, Nat.not_lt, Nat.not_le] at hrange
      by_cases hused : (adf.raw page).freeBit (page - bitmapFirstBlock) = true
      · rw [if_pos hused] at h
        cases h
      · rw [raw_of_lt hrange.2.1] at hused
        exact ⟨not_not.1 hvalid, hp, hrange.1, hrange.2.1, hrange.2.2, Bool.eq_false_iff.2 hused⟩

theorem bitmapPage_iff : adf.bitmapPage = some page ↔ adf.Trusted page := by
  have hroot : adf.raw adf.rootBlock = adf.block adf.rootBlock := raw_of_lt adf.rootBlock_lt
  rw [bitmapPage, hroot]
  constructor
  · intro h
    by_cases hu : adf.readUsage = none
    · rw [if_pos hu] at h
      cases h
    · rw [if_neg hu] at h
      obtain ⟨u, hu⟩ := Option.ne_none_iff_exists'.1 hu
      have ht := trusted_of_readUsage hu
      rwa [Option.some.inj h] at ht
  · intro h
    have hu : adf.readUsage ≠ none := by
      rw [readUsage_of_trusted h]
      exact Option.some_ne_none _
    rw [if_neg hu, h.pointer]

theorem Trusted.isFreeAt (h : adf.Trusted page) (n : Nat) :
    adf.isFreeAt page n = (adf.block page).freeBit (n - bitmapFirstBlock) := by
  rw [Adf.isFreeAt, raw_of_lt h.lt]

/-- The bitmap is trusted as long as its page and the root block stay. -/
theorem Trusted.same (h : adf.Trusted page) (hd : out.density = adf.density)
    (hroot : out.block adf.rootBlock = adf.block adf.rootBlock)
    (hused : (out.block page).freeBit (page - bitmapFirstBlock) = false) : out.Trusted page := by
  have hr : out.rootBlock = adf.rootBlock := by rw [rootBlock, rootBlock, hd]
  have hc : out.blockCount = adf.blockCount := by rw [blockCount, blockCount, hd]
  exact ⟨by rw [hr, hroot, h.valid], by rw [hr, hroot, h.pointer], h.ge, hc ▸ h.lt, hr ▸ h.ne, hused⟩

theorem isReserved_iff : adf.isReserved page n = false ↔
    n ≠ adf.rootBlock ∧ n ≠ page ∧ bitmapFirstBlock ≤ n ∧ n < adf.blockCount := by
  simp [isReserved, and_assoc]

-- ---------------------------------------------------------------------------
-- Setting bits
-- ---------------------------------------------------------------------------

@[simp] theorem density_setBits (adf : Adf) (page : Nat) (blocks : List Nat) (v : Bool) :
    (adf.setBits page blocks v).density = adf.density := rfl

theorem block_setBits (h : n ≠ page) : (adf.setBits page blocks v).block n = adf.block n := block_modify_other h

theorem freeBit_setBits {blocks : List Nat} (h : adf.Trusted page) (hge : ∀ x ∈ blocks, bitmapFirstBlock ≤ x)
    (hn : bitmapFirstBlock ≤ n) :
    ((adf.setBits page blocks v).block page).freeBit (n - bitmapFirstBlock) =
      if n ∈ blocks then v else (adf.block page).freeBit (n - bitmapFirstBlock) := by
  rw [setBits, block_modify_self h.lt, Block.freeBit_rechecksum, Block.freeBit_setBits blocks hge v _ n hn]

theorem Trusted.setBits {blocks : List Nat} (h : adf.Trusted page) (hge : ∀ x ∈ blocks, bitmapFirstBlock ≤ x)
    (hpage : page ∉ blocks) : (adf.setBits page blocks v).Trusted page := by
  refine h.same rfl (block_setBits h.ne.symm) ?_
  rw [freeBit_setBits h hge h.ge, if_neg hpage, h.used]

theorem Trusted.isFreeAt_setBits {blocks : List Nat} (h : adf.Trusted page) (hge : ∀ x ∈ blocks, bitmapFirstBlock ≤ x)
    (hpage : page ∉ blocks) (hn : bitmapFirstBlock ≤ n) :
    (adf.setBits page blocks v).isFreeAt page n = if n ∈ blocks then v else adf.isFreeAt page n := by
  rw [(h.setBits hge hpage).isFreeAt, h.isFreeAt, freeBit_setBits h hge hn]

-- ---------------------------------------------------------------------------
-- Allocating and freeing
-- ---------------------------------------------------------------------------

theorem mem_candidates : n ∈ adf.candidates page ↔ adf.isReserved page n = false ∧ adf.isFreeAt page n = true := by
  rw [candidates, List.mem_filter, List.mem_range, Bool.and_eq_true, Bool.not_eq_true']
  constructor
  · rintro ⟨-, hr, hf⟩
    exact ⟨hr, hf⟩
  · rintro ⟨hr, hf⟩
    exact ⟨(isReserved_iff.1 hr).2.2.2, hr, hf⟩

theorem nodup_candidates : (adf.candidates page).Nodup := List.Nodup.filter _ List.nodup_range

/-- What an allocation hands out. -/
structure Taken (adf : Adf) (page : Nat) (blocks : List Nat) : Prop where
  nodup : blocks.Nodup
  free : ∀ b ∈ blocks, adf.isFreeAt page b = true
  kept : ∀ b ∈ blocks, adf.isReserved page b = false

theorem Taken.ge {page : Nat} {blocks : List Nat} (h : Taken adf page blocks) : ∀ b ∈ blocks, bitmapFirstBlock ≤ b := fun b hb =>
  (isReserved_iff.1 (h.kept b hb)).2.2.1

theorem Taken.not_page (h : Taken adf page blocks) : page ∉ blocks := fun hmem => (isReserved_iff.1 (h.kept _ hmem)).2.1 rfl

theorem Taken.lt (h : Taken adf page blocks) : ∀ b ∈ blocks, b < adf.blockCount := fun b hb =>
  (isReserved_iff.1 (h.kept b hb)).2.2.2

theorem Taken.ne_zero (h : Taken adf page blocks) : ∀ b ∈ blocks, b ≠ 0 ∧ b < 2 ^ 32 := fun b hb => by
  have hge := h.ge b hb
  have hlt := h.lt b hb
  have hc := adf.blockCount_lt
  rw [bitmapFirstBlock] at hge
  omega

theorem allocate_some (ht : adf.Trusted page) (h : adf.allocate n = some (blocks, out)) :
    Taken adf page blocks ∧ blocks.length = n ∧ out = adf.setBits page blocks false := by
  rw [allocate, bitmapPage_iff.2 ht, Option.bind_some] at h
  dsimp only at h
  by_cases hlen : ((adf.candidates page).take n).length < n
  · rw [if_pos hlen] at h
    cases h
  · rw [if_neg hlen] at h
    obtain ⟨rfl, rfl⟩ := Prod.mk.inj (Option.some.inj h)
    have hmem : ∀ b ∈ (adf.candidates page).take n, b ∈ adf.candidates page := fun b hb => List.mem_of_mem_take hb
    refine ⟨⟨(List.take_sublist _ _).nodup nodup_candidates, fun b hb => (mem_candidates.1 (hmem b hb)).2,
      fun b hb => (mem_candidates.1 (hmem b hb)).1⟩, ?_, rfl⟩
    rw [List.length_take] at hlen ⊢
    omega

theorem allocate_none (ht : adf.Trusted page) : adf.allocate n = none ↔ (adf.candidates page).length < n := by
  rw [allocate, bitmapPage_iff.2 ht, Option.bind_some]
  dsimp only
  by_cases hlen : ((adf.candidates page).take n).length < n
  · rw [if_pos hlen]
    rw [List.length_take] at hlen
    exact ⟨fun _ => by omega, fun _ => rfl⟩
  · rw [if_neg hlen]
    rw [List.length_take] at hlen
    constructor
    · intro h
      cases h
    · intro h
      omega

theorem free_eq (ht : adf.Trusted page) (blocks : List Nat) :
    adf.free blocks = adf.setBits page (blocks.filter fun b => !adf.isReserved page b) true := by
  rw [Adf.free, bitmapPage_iff.2 ht, Option.elim_some]

theorem mem_freed {blocks : List Nat} : n ∈ blocks.filter (fun b => !adf.isReserved page b) ↔
    n ∈ blocks ∧ adf.isReserved page n = false := by
  rw [List.mem_filter, Bool.not_eq_true']

theorem freed_ge (blocks : List Nat) : ∀ x ∈ blocks.filter fun b => !adf.isReserved page b, bitmapFirstBlock ≤ x :=
  fun _ hx => (isReserved_iff.1 (mem_freed.1 hx).2).2.2.1

theorem freed_page (blocks : List Nat) : page ∉ blocks.filter fun b => !adf.isReserved page b :=
  fun hx => (isReserved_iff.1 (mem_freed.1 hx).2).2.1 rfl

theorem Trusted.free (ht : adf.Trusted page) (blocks : List Nat) : (adf.free blocks).Trusted page := by
  rw [free_eq ht]
  exact ht.setBits (freed_ge blocks) (freed_page blocks)

theorem block_free (ht : adf.Trusted page) (h : n ≠ page) : (adf.free blocks).block n = adf.block n := by
  rw [free_eq ht, block_setBits h]

theorem density_free (adf : Adf) (blocks : List Nat) : (adf.free blocks).density = adf.density := by
  rw [Adf.free]
  cases adf.bitmapPage with
  | none => rfl
  | some page => rfl

theorem Trusted.isFreeAt_free (ht : adf.Trusted page) (hn : adf.isReserved page n = false) :
    (adf.free blocks).isFreeAt page n = (decide (n ∈ blocks) || adf.isFreeAt page n) := by
  rw [free_eq ht, ht.isFreeAt_setBits (freed_ge blocks) (freed_page blocks) (isReserved_iff.1 hn).2.2.1]
  by_cases hmem : n ∈ blocks
  · rw [if_pos (mem_freed.2 ⟨hmem, hn⟩), decide_eq_true hmem, Bool.true_or]
  · rw [if_neg (fun h => hmem (mem_freed.1 h).1), decide_eq_false hmem, Bool.false_or]

end Adf

end WebAdf.Adffs
