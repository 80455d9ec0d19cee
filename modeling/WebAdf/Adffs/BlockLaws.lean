import Mathlib.Data.List.GetD
import WebAdf.Adffs.Write

/-!
# What the fields of a block hold

A word reads back what was put there last, and a write changes only its own
bytes. A rechecked block has a good checksum.
-/

namespace WebAdf.Adffs

open Lib

namespace Block

variable {b b' : Block}

-- ---------------------------------------------------------------------------
-- Bytes
-- ---------------------------------------------------------------------------

theorem putBe32_other (h : i < off ∨ off + 4 ≤ i) : (b.putBe32 off v) i = b i := if_neg (by omega)

theorem putByte_other (h : i ≠ off) : (b.putByte off v) i = b i := if_neg h

theorem putByte_self : (b.putByte off v) off = v := if_pos rfl

theorem fill_other (h : i < off ∨ stop ≤ i) : (b.fill v off stop) i = b i := if_neg (by omega)

theorem fill_in (h : off ≤ i ∧ i < stop) : (b.fill v off stop) i = v := if_pos h

theorem set_other (h : i < off ∨ off + bytes.length ≤ i) : (b.set off bytes) i = b i := if_neg (by omega)

theorem set_in (h : off ≤ i ∧ i < off + bytes.length) : (b.set off bytes) i = bytes.getD (i - off) 0 := if_pos h

theorem length_latin (name : Units) : (latin name).length = name.length := List.length_map _

theorem putName_other (h : i < 432 ∨ 463 ≤ i) : (b.putName name) i = b i := by
  rw [putName, set_other, putByte_other (by omega)]
  rw [length_latin, List.length_take, nameMax]
  omega

theorem putComment_other (h : i < 328 ∨ 408 ≤ i) : (b.putComment comment) i = b i := by
  rw [putComment, set_other, putByte_other (by omega), fill_other (by omega)]
  rw [length_latin, List.length_take, commentMax]
  omega

theorem putAmigaDate_other (h : i < off ∨ off + 12 ≤ i) : (b.putAmigaDate off when_) i = b i := by
  rw [putAmigaDate, putBe32_other (by omega), putBe32_other (by omega), putBe32_other (by omega)]

-- ---------------------------------------------------------------------------
-- Words
-- ---------------------------------------------------------------------------

theorem be32_congr (h : ∀ i, off ≤ i → i < off + 4 → b i = b' i) : b.be32 off = b'.be32 off := by
  rw [be32, be32, h off (by omega) (by omega), h (off + 1) (by omega) (by omega), h (off + 2) (by omega) (by omega),
    h (off + 3) (by omega) (by omega)]

theorem be32_lt (b : Block) (off : Nat) : b.be32 off < 2 ^ 32 := Lib.be32_lt _ _ _ _

theorem be32_putBe32 (b : Block) (off v : Nat) : (b.putBe32 off v).be32 off = v % 2 ^ 32 := by
  have h0 : (b.putBe32 off v) off = byteOf v 3 := by
    rw [putBe32, if_pos (by omega)]
    congr 1
    omega
  have h1 : (b.putBe32 off v) (off + 1) = byteOf v 2 := by
    rw [putBe32, if_pos (by omega)]
    congr 1
    omega
  have h2 : (b.putBe32 off v) (off + 2) = byteOf v 1 := by
    rw [putBe32, if_pos (by omega)]
    congr 1
    omega
  have h3 : (b.putBe32 off v) (off + 3) = byteOf v 0 := by
    rw [putBe32, if_pos (by omega)]
    congr 1
    omega
  rw [be32, h0, h1, h2, h3]
  simp only [Lib.be32, toNat_byteOf]
  omega

theorem be32_putBe32_other (h : off' + 4 ≤ off ∨ off + 4 ≤ off') : (b.putBe32 off v).be32 off' = b.be32 off' :=
  be32_congr fun _ _ _ => putBe32_other (by omega)

theorem be32_fill_other (h : off' + 4 ≤ off ∨ stop ≤ off') : (b.fill v off stop).be32 off' = b.be32 off' :=
  be32_congr fun _ _ _ => fill_other (by omega)

theorem be32_fill_zero (h : off ≤ off' ∧ off' + 4 ≤ stop) : (b.fill 0 off stop).be32 off' = 0 := by
  rw [be32, fill_in (by omega), fill_in (by omega), fill_in (by omega), fill_in (by omega)]
  rfl

theorem be32_set_other (h : off' + 4 ≤ off ∨ off + bytes.length ≤ off') : (b.set off bytes).be32 off' = b.be32 off' :=
  be32_congr fun _ _ _ => set_other (by omega)

theorem be32_putName (h : off + 4 ≤ 432 ∨ 463 ≤ off) : (b.putName name).be32 off = b.be32 off :=
  be32_congr fun _ _ _ => putName_other (by omega)

theorem be32_putComment (h : off + 4 ≤ 328 ∨ 408 ≤ off) : (b.putComment comment).be32 off = b.be32 off :=
  be32_congr fun _ _ _ => putComment_other (by omega)

theorem be32_putAmigaDate (h : off' + 4 ≤ off ∨ off + 12 ≤ off') : (b.putAmigaDate off when_).be32 off' = b.be32 off' :=
  be32_congr fun _ _ _ => putAmigaDate_other (by omega)

-- ---------------------------------------------------------------------------
-- Checksums
-- ---------------------------------------------------------------------------

theorem blockChecksum_congr (h : ∀ i, i < 128 → i ≠ skip → b.be32 (i * 4) = b'.be32 (i * 4)) :
    b.blockChecksum skip = b'.blockChecksum skip := by
  have hfold : ∀ (l : List Nat) (s : Nat), (∀ i ∈ l, i < 128) →
      l.foldl (fun sum i => if i = skip then sum else (sum + b.be32 (i * 4)) % 2 ^ 32) s =
        l.foldl (fun sum i => if i = skip then sum else (sum + b'.be32 (i * 4)) % 2 ^ 32) s := by
    intro l
    induction l with
    | nil => exact fun _ _ => by rw [List.foldl_nil, List.foldl_nil]
    | cons i l ih =>
      intro s hl
      rw [List.foldl_cons, List.foldl_cons]
      by_cases hi : i = skip
      · rw [if_pos hi, if_pos hi]
        exact ih _ fun j hj => hl j (List.mem_cons_of_mem _ hj)
      · rw [if_neg hi, if_neg hi, h i (hl i (List.mem_cons_self ..)) hi]
        exact ih _ fun j hj => hl j (List.mem_cons_of_mem _ hj)
  rw [blockChecksum, blockChecksum, show blockBytes / 4 = 128 from rfl, hfold (List.range 128) 0 fun i hi => List.mem_range.1 hi]

theorem blockChecksum_lt (b : Block) (skip : Nat) : b.blockChecksum skip < 2 ^ 32 := Nat.mod_lt _ (by decide)

theorem be32_recheck (h : off + 4 ≤ 20 ∨ 24 ≤ off) : b.recheck.be32 off = b.be32 off :=
  be32_putBe32_other (by rw [checksumWord]; omega)

theorem recheck_other (h : i < 20 ∨ 24 ≤ i) : b.recheck i = b i := putBe32_other (by rw [checksumWord]; omega)

theorem checksumOk_recheck (b : Block) : b.recheck.checksumOk checksumWord = true := by
  rw [checksumOk, beq_iff_eq, recheck, be32_putBe32, Nat.mod_eq_of_lt (blockChecksum_lt b _)]
  refine blockChecksum_congr fun i _ hi => (be32_putBe32_other ?_).symm
  rw [checksumWord] at hi ⊢
  omega

-- ---------------------------------------------------------------------------
-- Texts and dates
-- ---------------------------------------------------------------------------

theorem bcplString_congr {max : Nat} (h : ∀ i, off ≤ i → i < off + 1 + max → b i = b' i) :
    b.bcplString off max = b'.bcplString off max := by
  rw [bcplString, bcplString, h off (by omega) (by omega)]
  refine List.map_congr_left fun i hi => ?_
  have hlt := List.mem_range.1 hi
  rw [h (off + 1 + i) (by omega) (by omega)]

theorem amigaDate_congr (h : ∀ i, off ≤ i → i < off + 12 → b i = b' i) : b.amigaDate off = b'.amigaDate off := by
  have hdays : b.be32 off = b'.be32 off := be32_congr fun i _ _ => h i (by omega) (by omega)
  have hmins : b.be32 (off + 4) = b'.be32 (off + 4) := be32_congr fun i _ _ => h i (by omega) (by omega)
  have hticks : b.be32 (off + 8) = b'.be32 (off + 8) := be32_congr fun i _ _ => h i (by omega) (by omega)
  rw [amigaDate, amigaDate, hdays, hmins, hticks]

theorem i32_congr (h : b.be32 off = b'.be32 off) : b.i32 off = b'.i32 off := by
  rw [i32, i32, h]

theorem i32_file (h : b.be32 off = 0xfffffffd) : b.i32 off = stFile := by
  rw [i32, h]
  rfl

-- ---------------------------------------------------------------------------
-- The pointer table
-- ---------------------------------------------------------------------------

/-- The fold that lays the pointers from slot `n` on. -/
theorem putPointers_fold (l : List Nat) (n : Nat) (hn : n + l.length ≤ hashTableSize) (b : Block) :
    (∀ i, i < 24 ∨ 312 ≤ i → ((l.zipIdx n).foldl (fun b p => b.putBe32 (24 + (hashTableSize - 1 - p.2) * 4) p.1) b) i = b i) ∧
    ∀ k, k < hashTableSize →
      ((l.zipIdx n).foldl (fun b p => b.putBe32 (24 + (hashTableSize - 1 - p.2) * 4) p.1) b).be32
        (24 + (hashTableSize - 1 - k) * 4) =
      if n ≤ k ∧ k < n + l.length then (l.getD (k - n) 0) % 2 ^ 32 else b.be32 (24 + (hashTableSize - 1 - k) * 4) := by
  induction l generalizing n b with
  | nil => exact ⟨fun _ _ => rfl, fun k _ => (if_neg (by simp)).symm⟩
  | cons p l ih =>
    rw [hashTableSize] at hn
    rw [List.length_cons] at hn
    obtain ⟨hout, hin⟩ := ih (n + 1) (by rw [hashTableSize]; omega) (b.putBe32 (24 + (hashTableSize - 1 - n) * 4) p)
    rw [List.zipIdx_cons, List.foldl_cons]
    refine ⟨fun i hi => ?_, fun k hk => ?_⟩
    · rw [hout i hi]
      refine putBe32_other ?_
      rw [hashTableSize]
      omega
    · rw [hin k hk]
      rw [hashTableSize] at hk
      by_cases hkn : k = n
      · subst hkn
        rw [if_neg (by omega), if_pos (by simp), be32_putBe32, Nat.sub_self, List.getD_cons_zero]
      · rw [be32_putBe32_other (by rw [hashTableSize]; omega)]
        by_cases hr : n + 1 ≤ k ∧ k < n + 1 + l.length
        · rw [if_pos hr, if_pos (by rw [List.length_cons]; omega), show k - n = (k - (n + 1)) + 1 by omega, List.getD_cons_succ]
        · rw [if_neg hr, if_neg (by rw [List.length_cons]; omega)]

theorem putPointers_other (hl : l.length ≤ hashTableSize) (h : i < 24 ∨ 312 ≤ i) : (b.putPointers l) i = b i := by
  rw [putPointers, (putPointers_fold l 0 (by omega) _).1 i h]
  refine fill_other ?_
  rw [hashTableSize]
  omega

theorem be32_putPointers (hl : l.length ≤ hashTableSize) (h : off + 4 ≤ 24 ∨ 312 ≤ off) :
    (b.putPointers l).be32 off = b.be32 off :=
  be32_congr fun _ _ _ => putPointers_other hl (by omega)

theorem pointers_congr (h : ∀ i, 24 ≤ i → i < 312 → b i = b' i) : b.pointers = b'.pointers := by
  refine congrArg (List.filter _) (List.map_congr_left fun i hi => be32_congr fun j _ _ => h j (by omega) ?_)
  have hlt := List.mem_range.1 hi
  rw [hashTableSize] at *
  omega

/-- The table reads back what was put there. -/
theorem pointers_putPointers (hl : l.length ≤ hashTableSize) (hsmall : ∀ p ∈ l, p ≠ 0 ∧ p < 2 ^ 32) :
    (b.putPointers l).pointers = l := by
  have hmap : ((List.range hashTableSize).map fun i => (b.putPointers l).be32 (24 + (hashTableSize - 1 - i) * 4)) =
      l ++ List.replicate (hashTableSize - l.length) 0 := by
    refine List.ext_getElem ?_ fun i hi _ => ?_
    · rw [List.length_map, List.length_range, List.length_append, List.length_replicate]
      omega
    · rw [List.length_map, List.length_range] at hi
      rw [List.getElem_map, List.getElem_range, putPointers, (putPointers_fold l 0 (by omega) _).2 i hi]
      by_cases hlt : i < l.length
      · rw [if_pos (by omega), List.getElem_append_left hlt, Nat.sub_zero, List.getD_eq_getElem l 0 hlt,
          Nat.mod_eq_of_lt (hsmall _ (List.getElem_mem hlt)).2]
      · rw [if_neg (by omega), List.getElem_append_right (by omega), List.getElem_replicate]
        refine be32_fill_zero ?_
        rw [hashTableSize] at *
        omega
  rw [pointers, hmap, List.filter_append, List.filter_eq_self.2 fun p hp => decide_eq_true (hsmall p hp).1,
    List.filter_eq_nil_iff.2, List.append_nil]
  intro p hp
  rw [List.eq_of_mem_replicate hp]
  decide

theorem pointers_of_put {c : Block} (hl : l.length ≤ hashTableSize) (hsmall : ∀ p ∈ l, p ≠ 0 ∧ p < 2 ^ 32)
    (h : ∀ i, 24 ≤ i → i < 312 → b i = (c.putPointers l) i) : b.pointers = l :=
  (pointers_congr h).trans (pointers_putPointers hl hsmall)

end Block

end WebAdf.Adffs
