import WebAdf.Adffs.WellFormed

/-!
# A freshly formatted volume

Boot block, root and bitmap of an empty disk, and that it is well formed.
-/

namespace WebAdf.Adffs

open Lib

structure FormatOptions where
  volumeName : Units
  filesystem : Filesystem
  intl : Bool := false
  density : Density := .dd

def maxVolumeName : Nat := 30

/-- A character past Latin-1 becomes an underscore. -/
def Block.putBcpl (b : Block) (lengthOffset : Nat) (value : Units) (max : Nat) : Block :=
  let bytes := ((leads value).take max).map fun u => if u ≤ 0xff then u.toUInt8 else 0x5f
  (b.putByte lengthOffset (UInt8.ofNat bytes.length)).set (lengthOffset + 1) bytes

def formatBoot (opts : FormatOptions) : Block :=
  let flags : UInt8 := (if opts.filesystem = .ffs then 0x01 else 0) ||| (if opts.intl then 0x02 else 0)
  let b : Block := fun _ => 0
  (b.set 0 [0x44, 0x4f, 0x53, flags]).putBe32 8 opts.density.rootBlock

def formatRoot (opts : FormatOptions) (now : Int) : Block :=
  let b : Block := fun _ => 0
  let b := b.putBe32 0 tHeader
  let b := b.putBe32 12 hashTableSize
  let b := b.putBe32 312 0xffffffff
  let b := b.putBe32 316 (opts.density.rootBlock + 1)
  let b := b.putAmigaDate 420 now
  let b := b.putBcpl 432 opts.volumeName maxVolumeName
  let b := b.putAmigaDate 472 now
  let b := b.putAmigaDate 484 now
  let b := b.putBe32 508 1
  b.recheck

/-- All free but the root and the bitmap. -/
def formatBitmap (opts : FormatOptions) : Block :=
  let b : Block := fun _ => 0
  let b := b.fill 0xff 4 blockBytes
  ([opts.density.rootBlock, opts.density.rootBlock + 1].foldl (fun b used => b.setBit used false) b).rechecksum

def formatVolume (opts : FormatOptions) (now : Int) : Adf where
  density := opts.density
  block n :=
    if n = 0 then formatBoot opts
    else if n = opts.density.rootBlock then formatRoot opts now
    else if n = opts.density.rootBlock + 1 then formatBitmap opts
    else fun _ => 0

-- ---------------------------------------------------------------------------
-- Its blocks
-- ---------------------------------------------------------------------------

variable {opts : FormatOptions} {now : Int}

/-- What `readBoot` says of a formatted disk. -/
def FormatOptions.boot (opts : FormatOptions) : BootInfo := ⟨opts.filesystem, opts.intl, false⟩

namespace Block

variable {b : Block}

theorem putBcpl_other {max : Nat} (h : i < off ∨ off + 1 + max ≤ i) : (b.putBcpl off value max) i = b i := by
  have hlen : (((leads value).take max).map fun u => if u ≤ 0xff then u.toUInt8 else 0x5f).length ≤ max := by
    rw [List.length_map]
    exact List.length_take_le ..
  rw [putBcpl, set_other (by omega), putByte_other (by omega)]

theorem be32_putBcpl {max : Nat} (h : off' + 4 ≤ off ∨ off + 1 + max ≤ off') : (b.putBcpl off value max).be32 off' = b.be32 off' := by
  refine be32_congr fun i _ _ => ?_
  exact putBcpl_other (by omega)

theorem be32_zero (off : Nat) : be32 (fun _ => 0) off = 0 := by
  simp [be32, Lib.be32]

theorem freeBit_fill (h : bit < 4064) : (b.fill 0xff 4 blockBytes).freeBit bit = true := by
  have hword : (b.fill 0xff 4 blockBytes).be32 (4 + bit / 32 * 4) = 2 ^ 32 - 1 := by
    have hin : ∀ i, i < 4 → (b.fill 0xff 4 blockBytes) (4 + bit / 32 * 4 + i) = 0xff := fun i hi => by
      refine fill_in ?_
      rw [blockBytes]
      omega
    rw [be32, hin 1 (by omega), hin 2 (by omega), hin 3 (by omega)]
    rw [show (b.fill 0xff 4 blockBytes) (4 + bit / 32 * 4) = 0xff from hin 0 (by omega)]
    rfl
  rw [freeBit, hword, Nat.testBit_two_pow_sub_one, decide_eq_true (Nat.mod_lt _ (by decide))]

end Block

theorem root_ne_zero (opts : FormatOptions) : opts.density.rootBlock ≠ 0 := by
  cases opts.density <;> decide

theorem block_formatVolume_boot : (formatVolume opts now).block 0 = formatBoot opts := by
  rw [formatVolume]
  dsimp only
  rw [if_pos rfl]

theorem block_formatVolume_root : (formatVolume opts now).block opts.density.rootBlock = formatRoot opts now := by
  rw [formatVolume]
  dsimp only
  rw [if_neg (root_ne_zero opts), if_pos rfl]

theorem block_formatVolume_bitmap : (formatVolume opts now).block (opts.density.rootBlock + 1) = formatBitmap opts := by
  rw [formatVolume]
  dsimp only
  rw [if_neg (Nat.succ_ne_zero _), if_neg (Nat.succ_ne_self _), if_pos rfl]

theorem readBoot_formatVolume : (formatVolume opts now).readBoot = some opts.boot := by
  have hpos : 0 < (formatVolume opts now).blockCount := Adf.blockCount_pos _
  have hbytes : ∀ i, i < 4 → formatBoot opts i = [0x44, 0x4f, 0x53, (if opts.filesystem = .ffs then 0x01 else 0) |||
      (if opts.intl then 0x02 else 0)].getD i 0 := fun i hi => by
    rw [formatBoot, Block.putBe32_other (by omega), Block.set_in ⟨Nat.zero_le _, by simpa using hi⟩, Nat.sub_zero]
  rw [Adf.readBoot, Adf.blockAt_of_lt hpos, block_formatVolume_boot]
  simp only [hbytes 0 (by decide), hbytes 1 (by decide), hbytes 2 (by decide), hbytes 3 (by decide)]
  rw [FormatOptions.boot]
  cases opts.filesystem <;> cases opts.intl <;> decide

theorem slot_formatVolume (h : slot < hashTableSize) : (formatVolume opts now).slot opts.density.rootBlock slot = 0 := by
  rw [hashTableSize] at h
  rw [Adf.slot, block_formatVolume_root]
  simp (disch := omega) only [formatRoot, Block.be32_recheck, Block.be32_putBe32_other, Block.be32_putAmigaDate,
    Block.be32_putBcpl, Block.be32_zero, maxVolumeName]

theorem freeBit_formatBitmap (h : n < 3520) (hn : bitmapFirstBlock ≤ n) : (formatBitmap opts).freeBit (n - bitmapFirstBlock) =
    decide (n ≠ opts.density.rootBlock ∧ n ≠ opts.density.rootBlock + 1) := by
  have hge : ∀ x ∈ [opts.density.rootBlock, opts.density.rootBlock + 1], bitmapFirstBlock ≤ x := by
    cases opts.density <;> decide
  have hbit : n - bitmapFirstBlock < 4064 := by
    rw [bitmapFirstBlock]
    omega
  rw [formatBitmap, Block.freeBit_rechecksum, Block.freeBit_setBits _ hge _ _ n hn, Block.freeBit_fill hbit]
  simp

-- ---------------------------------------------------------------------------
-- Well-formedness
-- ---------------------------------------------------------------------------

theorem trusted_formatVolume : (formatVolume opts now).Trusted (opts.density.rootBlock + 1) where
  valid := by
    refine (congrArg (Block.i32 · 312) block_formatVolume_root).trans ?_
    have hword : (formatRoot opts now).be32 312 = 0xffffffff := by
      simp (disch := omega) only [formatRoot, Block.be32_recheck, Block.be32_putBe32_other, Block.be32_putAmigaDate,
        Block.be32_putBcpl, Block.be32_putBe32, maxVolumeName]
      rfl
    rw [Block.i32, hword]
    rfl
  pointer := by
    refine (congrArg (Block.be32 · 316) block_formatVolume_root).trans ?_
    simp (disch := omega) only [formatRoot, Block.be32_recheck, Block.be32_putBe32_other, Block.be32_putAmigaDate,
      Block.be32_putBcpl, Block.be32_putBe32, maxVolumeName]
    cases opts.density <;> rfl
  ge := by cases opts.density <;> decide
  lt := by
    change opts.density.rootBlock + 1 < opts.density.blockCount
    cases opts.density <;> decide
  ne := Nat.succ_ne_self _
  used := by
    rw [block_formatVolume_bitmap, freeBit_formatBitmap]
    · simp
    · cases opts.density <;> decide
    · cases opts.density <;> decide

theorem directory_formatVolume (h : Directory (formatVolume opts now) d) : d = opts.density.rootBlock := by
  induction h with
  | root => rfl
  | inside _ hc _ ih =>
    subst ih
    obtain ⟨slot, l, hslot, hchain, hmem⟩ := hc
    rw [slot_formatVolume hslot] at hchain
    cases l with
    | nil => cases hmem
    | cons e l => exact absurd hchain.1.symm hchain.2.1

theorem no_entry_formatVolume : ¬ Entry (formatVolume opts now) d e := by
  rintro ⟨hd, slot, l, hslot, hchain, hmem⟩
  rw [directory_formatVolume hd, slot_formatVolume hslot] at hchain
  cases l with
  | nil => cases hmem
  | cons e l => exact hchain.2.1 hchain.1.symm

/-- A formatted disk is a well-formed empty volume. -/
theorem formatVolume_wellFormed (opts : FormatOptions) (now : Int) :
    WellFormed (formatVolume opts now) opts.boot (opts.density.rootBlock + 1) where
  volume := readBoot_formatVolume
  rootType := by
    refine (congrArg (Block.be32 · 0) block_formatVolume_root).trans ?_
    simp (disch := omega) only [formatRoot, Block.be32_recheck, Block.be32_putBe32_other, Block.be32_putAmigaDate,
      Block.be32_putBcpl, Block.be32_putBe32, maxVolumeName]
    rfl
  rootSecondary := by
    have hword : (formatRoot opts now).be32 508 = 1 := by
      simp (disch := omega) only [formatRoot, Block.be32_recheck, Block.be32_putBe32]
      rfl
    refine (congrArg (Block.i32 · 508) block_formatVolume_root).trans ?_
    rw [Block.i32, hword]
    rfl
  rootChecksum := by
    refine (congrArg (Block.checksumOk · checksumWord) block_formatVolume_root).trans ?_
    exact Block.checksumOk_recheck _
  bitmap := Adf.bitmapPage_iff.2 trusted_formatVolume
  rootUsed := by
    rw [trusted_formatVolume.isFreeAt, block_formatVolume_bitmap]
    refine (freeBit_formatBitmap ?_ ?_).trans ?_
    · change opts.density.rootBlock < 3520
      cases opts.density <;> decide
    · exact Adf.rootBlock_ge _
    · simp [Adf.rootBlock, formatVolume]
  chain hd hslot := by
    refine ⟨[], ?_⟩
    rw [directory_formatVolume hd]
    exact slot_formatVolume hslot
  entry he := absurd he no_entry_formatVolume
  parent he := absurd he no_entry_formatVolume
  bucket hd hslot hc hmem := absurd ⟨hd, _, _, hslot, hc, hmem⟩ no_entry_formatVolume
  names he := absurd he no_entry_formatVolume
  held he := absurd he no_entry_formatVolume
  owner he := absurd he no_entry_formatVolume
  once he := absurd he no_entry_formatVolume

end WebAdf.Adffs
