import Mathlib
import WebAdf.Adffs.BlockLaws

/-!
# What the writers lay down

The fields of a file header, an extension block and a directory header as the
readers see them, and what a rewritten header keeps of the old one.
-/

namespace WebAdf.Adffs

open Lib

namespace Block

variable {b old : Block}

-- ---------------------------------------------------------------------------
-- Names
-- ---------------------------------------------------------------------------

/-- A unit that reads back as it was put. -/
def Plain (u : UInt16) : Prop := 0x20 ≤ u.toNat ∧ u.toNat < 0x100 ∧ u.toNat ≠ 0x7f

theorem plain_toUInt8 (h : Plain u) : 0x20 ≤ u.toUInt8 ∧ u.toUInt8 ≠ 0x7f ∧ u.toUInt8.toUInt16 = u := by
  obtain ⟨hlo, hhi, hne⟩ := h
  have hnat : u.toUInt8.toNat = u.toNat := by
    rw [UInt16.toNat_toUInt8]
    exact Nat.mod_eq_of_lt hhi
  refine ⟨?_, fun heq => hne ?_, ?_⟩
  · rw [UInt8.le_iff_toNat_le, hnat]
    exact hlo
  · rw [← hnat, heq]
    rfl
  · rw [← UInt16.toNat_inj, UInt8.toNat_toUInt16, hnat]

theorem bcplString_plain (b : Block) (off max : Nat) : ∀ u ∈ b.bcplString off max, Plain u := by
  intro u hu
  obtain ⟨i, -, rfl⟩ := List.mem_map.1 hu
  dsimp only
  split
  · rename_i h
    have hlt := (b (off + 1 + i)).toNat_lt
    refine ⟨?_, ?_, fun heq => h.2 ?_⟩
    · rw [UInt8.toNat_toUInt16]
      exact UInt8.le_iff_toNat_le.1 h.1
    · rw [UInt8.toNat_toUInt16]
      exact hlt
    · rw [UInt8.toNat_toUInt16] at heq
      rw [← UInt8.toNat_inj, heq]
      rfl
  · exact ⟨by decide, by decide, by decide⟩

theorem length_bcplString (b : Block) (off max : Nat) : (b.bcplString off max).length ≤ max := by
  rw [bcplString, List.length_map, List.length_range]
  omega

/-- A BCPL string of plain characters reads back. -/
theorem bcplString_put {max : Nat} {s : Units} (hroom : off + 1 + max ≤ 512) (hmax : max < 256) (hlen : s.length ≤ max)
    (hplain : ∀ u ∈ s, Plain u) (hsize : b off = UInt8.ofNat s.length)
    (hbytes : ∀ i, i < s.length → b (off + 1 + i) = (latin s).getD i 0) : b.bcplString off max = s := by
  have hdeclared : (b off).toNat = s.length := by
    rw [hsize, UInt8.toNat_ofNat']
    omega
  have hcount : min (b off).toNat (min max (blockBytes - off - 1)) = s.length := by
    rw [hdeclared, blockBytes]
    omega
  refine List.ext_getElem ?_ fun i hi hi' => ?_
  · rw [bcplString, List.length_map, List.length_range, hcount]
  · simp only [bcplString, List.getElem_map, List.getElem_range]
    have hlatin : i < (latin s).length := by
      rw [length_latin]
      exact hi'
    have hget : (latin s)[i] = s[i].toUInt8 := List.getElem_map ..
    rw [hbytes i hi', List.getD_eq_getElem _ _ hlatin]
    obtain ⟨hlo, hne, heq⟩ := plain_toUInt8 (hplain _ (List.getElem_mem hi'))
    rw [hget, if_pos ⟨hlo, hne⟩, heq]

theorem putName_length_byte {name : Units} (h : name.length ≤ nameMax) :
    (b.putName name) 432 = UInt8.ofNat name.length := by
  rw [putName, List.take_of_length_le h, set_other (by omega), putByte_self]

theorem putName_byte {name : Units} (h : name.length ≤ nameMax) (hi : i < name.length) :
    (b.putName name) (432 + 1 + i) = (latin name).getD i 0 := by
  rw [putName, List.take_of_length_le h, set_in, show 432 + 1 + i - 433 = i by omega]
  rw [length_latin]
  omega

-- ---------------------------------------------------------------------------
-- A file header
-- ---------------------------------------------------------------------------

/-- A file header as the readers see it. -/
structure FileHeader (h : Block) (parent size : Nat) (first72 : List Nat) (firstExtension protection : Nat) : Prop where
  type : h.be32 0 = tHeader
  secondary : h.i32 508 = stFile
  checksum : h.checksumOk checksumWord = true
  parent : h.be32 500 = parent % 2 ^ 32
  size : h.be32 324 = size % 2 ^ 32
  pointers : (∀ p ∈ first72, p ≠ 0 ∧ p < 2 ^ 32) → h.pointers = first72
  next : h.be32 504 = firstExtension % 2 ^ 32
  protection : h.be32 320 = protection % 2 ^ 32

variable {name : Units} {first72 : List Nat} {protection : Option Nat} {meta_ : EntryMeta}

theorem fileHeader_write (hl : first72.length ≤ hashTableSize) :
    FileHeader (b.writeFileHeader now header parent name size first72 firstExtension protection meta_) parent size first72
      firstExtension (protection.getD 0) where
  type := by
    simp (disch := omega) only [writeFileHeader, be32_recheck, be32_putBe32_other, be32_putName, be32_putPointers hl,
      be32_putComment, be32_putAmigaDate, be32_putBe32]
    rfl
  secondary := by
    refine i32_file ?_
    simp (disch := omega) only [writeFileHeader, be32_recheck, be32_putBe32]
    rfl
  checksum := checksumOk_recheck _
  parent := by
    simp (disch := omega) only [writeFileHeader, be32_recheck, be32_putBe32_other, be32_putBe32]
  size := by
    simp (disch := omega) only [writeFileHeader, be32_recheck, be32_putBe32_other, be32_putName, be32_putPointers hl,
      be32_putComment, be32_putAmigaDate, be32_putBe32]
  pointers hp := by
    exact pointers_of_put hl hp fun i _ _ => by
      rw [writeFileHeader, recheck_other (by omega), putBe32_other (by omega), putBe32_other (by omega), putName_other (by omega),
        putBe32_other (by omega)]
  next := by
    simp (disch := omega) only [writeFileHeader, be32_recheck, be32_putBe32_other, be32_putName, be32_putBe32]
  protection := by
    simp (disch := omega) only [writeFileHeader, be32_recheck, be32_putBe32_other, be32_putName, be32_putPointers hl,
      be32_putComment, be32_putAmigaDate, be32_putBe32]

/-- The link to the next entry of the chain stays. -/
theorem next_writeFileHeader (hl : first72.length ≤ hashTableSize) :
    (b.writeFileHeader now header parent name size first72 firstExtension protection meta_).be32 496 = b.be32 496 := by
  simp (disch := omega) only [writeFileHeader, be32_recheck, be32_putBe32_other, be32_putName, be32_putPointers hl,
    be32_putComment, be32_putAmigaDate]

theorem name_writeFileHeader (hlen : name.length ≤ nameMax) (hplain : ∀ u ∈ name, Plain u) :
    (b.writeFileHeader now header parent name size first72 firstExtension protection meta_).bcplString 432 nameMax = name := by
  rw [nameMax] at hlen
  refine bcplString_put (by decide) (by decide) hlen hplain ?_ fun i hi => ?_
  · simp (disch := omega) only [writeFileHeader, recheck_other, putBe32_other]
    exact putName_length_byte hlen
  · simp (disch := omega) only [writeFileHeader, recheck_other, putBe32_other]
    exact putName_byte hlen hi

theorem length_saved (old : Block) : (old.subarray 420 432).length = 12 ∧ (old.subarray 328 408).length = 80 := by
  rw [subarray, subarray, List.length_map, List.length_map, List.length_range, List.length_range]
  exact ⟨rfl, rfl⟩

/-- A rewritten header: the name, the place in its chain and directory, the date and the
comment are the old ones; the protection word is not. -/
theorem fileHeader_rewrite (hl : first72.length ≤ hashTableSize) :
    FileHeader (b.rewriteFileHeader old now header size first72 firstExtension) (old.be32 500) size first72
      firstExtension 0 := by
  have hw : FileHeader (b.writeFileHeader now header (old.be32 500) (old.bcplString 432 nameMax) size first72
      firstExtension none {}) (old.be32 500) size first72 firstExtension ((none : Option Nat).getD 0) := fileHeader_write hl
  have hsub := length_saved old
  have hword : ∀ off, off + 4 ≤ 20 ∨ 24 ≤ off ∧ off + 4 ≤ 328 ∨ 408 ≤ off ∧ off + 4 ≤ 420 ∨ 432 ≤ off →
      (b.rewriteFileHeader old now header size first72 firstExtension).be32 off =
        (b.writeFileHeader now header (old.be32 500) (old.bcplString 432 nameMax) size first72 firstExtension none {}).be32 off := by
    intro off hoff
    rw [rewriteFileHeader, be32_recheck (by omega), be32_set_other (by omega), be32_set_other (by omega)]
  refine ⟨?_, ?_, checksumOk_recheck _, ?_, ?_, fun hp => ?_, ?_, ?_⟩
  · rw [hword 0 (by omega), hw.type]
  · rw [i32_congr (hword 508 (by omega)), hw.secondary]
  · rw [hword 500 (by omega), hw.parent]
  · rw [hword 324 (by omega), hw.size]
  · refine (pointers_congr fun i _ _ => ?_).trans (hw.pointers hp)
    rw [rewriteFileHeader, recheck_other (by omega), set_other (by omega), set_other (by omega)]
  · rw [hword 504 (by omega), hw.next]
  · rw [hword 320 (by omega), hw.protection]
    rfl

/-- What a rewritten header keeps. -/
structure Kept (h old : Block) : Prop where
  name : h.bcplString 432 nameMax = old.bcplString 432 nameMax
  parent : h.be32 500 = old.be32 500
  next : h.be32 496 = old.be32 496
  date : h.amigaDate 420 = old.amigaDate 420
  comment : h.bcplString 328 commentMax = old.bcplString 328 commentMax

theorem subarray_get (h : i < stop - off) : (old.subarray off stop).getD i 0 = old (off + i) := by
  have hlen : i < (old.subarray off stop).length := by
    rw [subarray, List.length_map, List.length_range]
    exact h
  rw [List.getD_eq_getElem _ _ hlen]
  simp only [subarray, List.getElem_map, List.getElem_range]

theorem kept_rewrite (hl : first72.length ≤ hashTableSize) (hnext : b.be32 496 = old.be32 496) :
    Kept (b.rewriteFileHeader old now header size first72 firstExtension) old := by
  have hsub := length_saved old
  refine ⟨?_, ?_, ?_, ?_, ?_⟩
  · have hkept : (b.writeFileHeader now header (old.be32 500) (old.bcplString 432 nameMax) size first72 firstExtension none
        {}).bcplString 432 nameMax = old.bcplString 432 nameMax :=
      name_writeFileHeader (length_bcplString _ _ _) (bcplString_plain _ _ _)
    refine Eq.trans (bcplString_congr fun i _ hi => ?_) hkept
    rw [rewriteFileHeader, recheck_other (by omega), set_other (by omega), set_other (by omega)]
  · rw [(fileHeader_rewrite hl).parent]
    exact Nat.mod_eq_of_lt (be32_lt _ _)
  · rw [rewriteFileHeader, be32_recheck (by omega), be32_set_other (by omega), be32_set_other (by omega),
      next_writeFileHeader hl, hnext]
  · refine amigaDate_congr fun i _ _ => ?_
    rw [rewriteFileHeader, recheck_other (by omega), set_other (by omega), set_in (by omega), subarray_get (by omega),
      show 420 + (i - 420) = i by omega]
  · refine bcplString_congr fun i _ hi => ?_
    rw [commentMax] at hi
    rw [rewriteFileHeader, recheck_other (by omega), set_in (by omega), subarray_get (by omega),
      show 328 + (i - 328) = i by omega]

-- ---------------------------------------------------------------------------
-- An extension block
-- ---------------------------------------------------------------------------

theorem pointers_writeExtension (hl : take.length ≤ hashTableSize) (hp : ∀ p ∈ take, p ≠ 0 ∧ p < 2 ^ 32) :
    (b.writeExtension ext take header next).pointers = take := by
  exact pointers_of_put hl hp fun i _ _ => by
    rw [writeExtension, recheck_other (by omega), putBe32_other (by omega), putBe32_other (by omega)]

theorem next_writeExtension : (b.writeExtension ext take header next).be32 504 = next % 2 ^ 32 := by
  simp (disch := omega) only [writeExtension, be32_recheck, be32_putBe32_other, be32_putBe32]

-- ---------------------------------------------------------------------------
-- Data blocks
-- ---------------------------------------------------------------------------

theorem subarray_set {chunk : Bytes} (h : n ≤ chunk.length) : (b.set off chunk).subarray off (off + n) = chunk.take n := by
  refine List.ext_getElem ?_ fun i hi hi' => ?_
  · rw [subarray, List.length_map, List.length_range, List.length_take]
    omega
  · rw [subarray, List.length_map, List.length_range] at hi
    simp only [subarray, List.getElem_map, List.getElem_range]
    rw [set_in (by omega), Nat.add_sub_cancel_left, List.getD_eq_getElem _ _ (by omega), List.getElem_take]

/-- A chunk as it reads back: whole, and on an FFS disk with the rest of the block behind it. -/
theorem payload_writeData {chunk : Bytes} (h : chunk.length ≤ fs.perBlock) :
    ∃ rest, (b.writeData fs chunk i header next).payload fs = chunk ++ rest ∧
      (fs = .ofs → rest = []) ∧ (fs = .ffs → rest.length = blockBytes - chunk.length) := by
  cases fs with
  | ofs =>
    have hle : chunk.length ≤ 488 := h
    refine ⟨[], ?_, fun _ => rfl, fun hfs => by cases hfs⟩
    have hsize : (b.writeData .ofs chunk i header next).be32 12 = chunk.length := by
      simp (disch := omega) only [writeData, be32_recheck, be32_set_other, be32_putBe32_other, be32_putBe32]
      omega
    rw [payload, hsize, ofsDataBytes, Nat.min_eq_left hle, List.append_nil]
    have hread : (b.set 24 chunk).subarray 24 (24 + chunk.length) = chunk :=
      (subarray_set (Nat.le_refl chunk.length)).trans (List.take_length ..)
    refine Eq.trans ?_ hread
    refine List.map_congr_left fun k hk => ?_
    have hlt := List.mem_range.1 hk
    rw [writeData, recheck_other (by omega), set_in (by omega), set_in (by omega)]
  | ffs =>
    have hle : chunk.length ≤ 512 := h
    refine ⟨(b.writeData .ffs chunk i header next).subarray chunk.length blockBytes, ?_, (fun hfs => by cases hfs), fun _ => ?_⟩
    · refine List.ext_getElem ?_ fun k hk _ => ?_
      · rw [payload, subarray, subarray, List.length_append, List.length_map, List.length_map, List.length_range,
          List.length_range, blockBytes]
        omega
      · rw [payload, subarray, List.length_map, List.length_range] at hk
        by_cases hlt : k < chunk.length
        · rw [List.getElem_append_left hlt]
          simp only [payload, subarray, List.getElem_map, List.getElem_range, writeData]
          rw [set_in (by omega), show 0 + k - 0 = k by omega, List.getD_eq_getElem _ _ hlt]
        · rw [List.getElem_append_right (by omega)]
          simp only [payload, subarray, List.getElem_map, List.getElem_range]
          congr 1
          omega
    · rw [subarray, List.length_map, List.length_range]

end Block

end WebAdf.Adffs
