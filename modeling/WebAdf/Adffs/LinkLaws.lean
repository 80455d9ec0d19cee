import WebAdf.Adffs.BitmapLaws

/-!
# Linking and unlinking

Linking changes the new entry's link and the directory's slot, unlinking one word;
with the checksums made good everything else of those blocks stays.
-/

namespace WebAdf.Adffs

open Lib

namespace Block

variable {b b' : Block}

/-- One word changed and the checksum made good. -/
def reword (b : Block) (off v : Nat) : Block := (b.putBe32 off v).recheck

theorem reword_other (h : i < off ∨ off + 4 ≤ i) (hi : i < 20 ∨ 24 ≤ i) : (b.reword off v) i = b i := by
  rw [reword, recheck_other hi, putBe32_other h]

theorem be32_reword_other (h : off' + 4 ≤ off ∨ off + 4 ≤ off') (hoff : off' + 4 ≤ 20 ∨ 24 ≤ off') :
    (b.reword off v).be32 off' = b.be32 off' := by
  rw [reword, be32_recheck hoff, be32_putBe32_other h]

theorem be32_reword (h : off + 4 ≤ 20 ∨ 24 ≤ off) : (b.reword off v).be32 off = v % 2 ^ 32 := by
  rw [reword, be32_recheck h, be32_putBe32]

theorem checksumOk_reword (b : Block) (off v : Nat) : (b.reword off v).checksumOk checksumWord = true := checksumOk_recheck _

theorem fileHeader_reword (h : FileHeader b parent size first72 next protection) (v : Nat) :
    FileHeader (b.reword 496 v) parent size first72 next protection where
  type := by rw [be32_reword_other (by omega) (by omega), h.type]
  secondary := by rw [i32_congr (be32_reword_other (by omega) (by omega)), h.secondary]
  checksum := checksumOk_reword _ _ _
  parent := by rw [be32_reword_other (by omega) (by omega), h.parent]
  size := by rw [be32_reword_other (by omega) (by omega), h.size]
  pointers hp := (pointers_congr fun _ _ _ => reword_other (by omega) (by omega)).trans (h.pointers hp)
  next := by rw [be32_reword_other (by omega) (by omega), h.next]
  protection := by rw [be32_reword_other (by omega) (by omega), h.protection]

end Block

-- ---------------------------------------------------------------------------
-- The slot of a name
-- ---------------------------------------------------------------------------

theorem nameHash_lt (name : Units) (intl : Bool) : nameHash name intl < hashTableSize := Nat.mod_lt _ (by decide)

theorem slotOf_bounds (name : Units) (intl : Bool) : 24 ≤ slotOf name intl ∧ slotOf name intl + 4 ≤ 312 := by
  have h := nameHash_lt name intl
  rw [hashTableSize] at h
  rw [slotOf]
  omega

-- ---------------------------------------------------------------------------
-- Linking
-- ---------------------------------------------------------------------------

variable {adf : Adf} {dir entry : Nat} {name : Units} {intl : Bool}

@[simp] theorem density_linkIntoDirectory (adf : Adf) (dir entry : Nat) (name : Units) (intl : Bool) :
    (linkIntoDirectory adf dir entry name intl).density = adf.density := rfl

theorem block_linkIntoDirectory_other (hd : n ≠ dir) (he : n ≠ entry) :
    (linkIntoDirectory adf dir entry name intl).block n = adf.block n := by
  simp only [linkIntoDirectory, Adf.recheck, Adf.putBe32, Adf.block_modify_other hd, Adf.block_modify_other he]

theorem block_linkIntoDirectory_entry (hne : entry ≠ dir) (he : entry < adf.blockCount) (hd : dir < adf.blockCount) :
    (linkIntoDirectory adf dir entry name intl).block entry =
      (adf.block entry).reword 496 ((adf.block dir).be32 (slotOf name intl)) := by
  have hraw : adf.raw dir = adf.block dir := Adf.raw_of_lt hd
  rw [linkIntoDirectory, Adf.recheck, Adf.block_modify_other hne, Adf.recheck, Adf.block_modify_self, Adf.putBe32,
    Adf.block_modify_other hne, Adf.putBe32, Adf.block_modify_self he, hraw]
  · rfl
  · exact he

theorem block_linkIntoDirectory_dir (hne : entry ≠ dir) (hd : dir < adf.blockCount) :
    (linkIntoDirectory adf dir entry name intl).block dir = (adf.block dir).reword (slotOf name intl) entry := by
  rw [linkIntoDirectory, Adf.recheck, Adf.block_modify_self, Adf.recheck, Adf.block_modify_other hne.symm, Adf.putBe32,
    Adf.block_modify_self, Adf.putBe32, Adf.block_modify_other hne.symm]
  · rfl
  · exact hd
  · exact hd

/-- The new entry stands at the head of its bucket. -/
theorem slot_linkIntoDirectory (hne : entry ≠ dir) (he : entry < adf.blockCount) (hd : dir < adf.blockCount) :
    ((linkIntoDirectory adf dir entry name intl).block dir).be32 (slotOf name intl) = entry := by
  obtain ⟨hlo, -⟩ := slotOf_bounds name intl
  rw [block_linkIntoDirectory_dir hne hd, Block.be32_reword (.inr hlo)]
  exact Nat.mod_eq_of_lt (Nat.lt_trans he adf.blockCount_lt)

-- ---------------------------------------------------------------------------
-- The boot block
-- ---------------------------------------------------------------------------

theorem readBoot_same {out : Adf} (hd : out.density = adf.density) (hb : out.block 0 = adf.block 0) : out.readBoot = adf.readBoot := by
  rw [Adf.readBoot, Adf.readBoot, Adf.blockAt, Adf.blockAt, Adf.blockCount, Adf.blockCount, hd, hb]

end WebAdf.Adffs
