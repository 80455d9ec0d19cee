import WebAdf.DiskHistory.DeltaLaws

/-!
# The delta codec is exact

Every well-formed delta is read back as it was stored, and whatever the decoder
accepts is such a stored delta, byte for byte but for the reserved word of the
header, which nothing reads.
-/

namespace WebAdf.DiskHistory

open Lib

-- ---------------------------------------------------------------------------
-- Well-formed deltas
-- ---------------------------------------------------------------------------

/-- Ascending sectors of a disk, each with its 512 bytes. -/
structure Delta.Ascending (d : Delta) : Prop where
  ascending : d.sectors.Pairwise (· < ·)
  range : ∀ s ∈ d.sectors, s < maxSectorsPerDisk
  length : d.bytes.length = d.sectors.length * sectorBytes

theorem Delta.entries_whole {d : Delta} (h : d.bytes.length = d.sectors.length * sectorBytes) : WholeSectors d.entries := by
  rintro _ hp
  simp only [Delta.entries, List.mem_map] at hp
  obtain ⟨⟨s, n⟩, hmem, rfl⟩ := hp
  have hn : n < d.sectors.length := List.snd_lt_of_mem_zipIdx hmem
  rw [length_slice, h]
  simp only [sectorBytes]
  omega

theorem Delta.map_fst_entries (d : Delta) : d.entries.map Prod.fst = d.sectors := by
  rw [Delta.entries, List.map_map]
  exact List.zipIdx_map_fst 0 d.sectors

theorem Delta.ofEntries_entries {d : Delta} (h : d.bytes.length = d.sectors.length * sectorBytes) :
    Delta.ofEntries d.entries = d := by
  obtain ⟨sectors, bytes⟩ := d
  have hfst := Delta.map_fst_entries ⟨sectors, bytes⟩
  have hsnd : (Delta.entries ⟨sectors, bytes⟩).map Prod.snd =
      (List.range sectors.length).map fun n => slice bytes (n * sectorBytes) sectorBytes := by
    refine List.ext_getElem (by simp [Delta.entries]) fun i _ _ => ?_
    simp [Delta.entries]
  rw [Delta.ofEntries, hfst, List.flatMap_def, hsnd, ← List.flatMap_def, flatMap_slices h]

theorem Delta.Ascending.ofEntries {ps : List (Nat × Bytes)} (hw : WholeSectors ps) (hlt : ∀ p ∈ ps, p.1 < maxSectorsPerDisk)
    (hasc : (ps.map Prod.fst).Pairwise (· < ·)) : (Delta.ofEntries ps).Ascending where
  ascending := hasc
  range s hs := by
    obtain ⟨p, hp, rfl⟩ := List.mem_map.1 hs
    exact hlt p hp
  length := Delta.length_ofEntries hw

-- ---------------------------------------------------------------------------
-- What the decoder accepts
-- ---------------------------------------------------------------------------

theorem slice_add (xs : List α) (off m n : Nat) : slice xs off (m + n) = slice xs off m ++ slice xs (off + m) n := by
  rw [slice, slice, slice, List.take_add, List.drop_drop]

theorem put32_be32 (a b c d : UInt8) : put32 (be32 a b c d) = [a, b, c, d] := by
  have ha := a.toNat_lt
  have hb := b.toNat_lt
  have hc := c.toNat_lt
  have hd := d.toNat_lt
  simp only [put32, List.cons.injEq, and_true]
  refine ⟨?_, ?_, ?_, ?_⟩ <;> rw [← UInt8.toNat_inj, toNat_byteOf, be32] <;> omega

theorem put16_be16 (a b : UInt8) : put16 (be16 a b) = [a, b] := by
  have ha := a.toNat_lt
  have hb := b.toNat_lt
  simp only [put16, List.cons.injEq, and_true]
  refine ⟨?_, ?_⟩ <;> rw [← UInt8.toNat_inj, toNat_byteOf, be16] <;> omega

theorem slice_getD {src : Bytes} (h : off + n ≤ src.length) : slice src off n = (List.range n).map fun k => src.getD (off + k) 0 := by
  apply List.ext_getElem?
  intro i
  rw [getElem?_slice, List.getElem?_map]
  by_cases hi : i < n
  · rw [if_pos hi, List.getElem?_range hi, Option.map_some, List.getD_eq_getElem?_getD,
      List.getElem?_eq_getElem (by omega), Option.getD_some]
  · rw [if_neg hi, List.getElem?_eq_none (by rw [List.length_range]; omega), Option.map_none]

theorem slice_getUint32 {src : Bytes} (h : off + 4 ≤ src.length) : slice src off 4 = put32 (getUint32 src off) := by
  rw [slice_getD h, getUint32, put32_be32]
  rfl

theorem slice_getUint16 {src : Bytes} (h : off + 2 ≤ src.length) : slice src off 2 = put16 (getUint16 src off) := by
  rw [slice_getD h, getUint16, put16_be16]
  rfl

/-- The entries that were accepted are the bytes from there on. -/
theorem decodeEntries_ok (h : decodeEntries src count i prev = .ok d)
    (hlen : i + count * (entryHeaderBytes + sectorBytes) ≤ src.length) :
    ∃ ps, d = .ofEntries ps ∧ ps.length = count ∧ WholeSectors ps ∧ (∀ p ∈ ps, p.1 < maxSectorsPerDisk) ∧
      (ps.map Prod.fst).Pairwise (· < ·) ∧ (∀ p ∈ ps, prev < (p.1 : Int)) ∧
      slice src i (count * (entryHeaderBytes + sectorBytes)) = entryBytes ps := by
  induction count generalizing i prev d with
  | zero =>
    cases h
    refine ⟨[], rfl, rfl, by simp [WholeSectors], by simp, by simp, by simp, ?_⟩
    simp [slice, entryBytes]
  | succ count ih =>
    have hsize : (count + 1) * (entryHeaderBytes + sectorBytes) =
        entryHeaderBytes + (sectorBytes + count * (entryHeaderBytes + sectorBytes)) := by
      rw [Nat.succ_mul]
      omega
    rw [hsize] at hlen
    rw [decodeEntries] at h
    by_cases hrange : getUint32 src i ≥ maxSectorsPerDisk
    · simp only [if_pos hrange] at h
      cases h
    by_cases hprev : (getUint32 src i : Int) ≤ prev
    · simp only [if_neg hrange, if_pos hprev] at h
      cases h
    simp only [if_neg hrange, if_neg hprev] at h
    obtain ⟨rest, hrest, hd⟩ := bind_ok.1 h
    obtain ⟨ps, rfl, hcount, hw, hlt, hasc, hfirst, hbytes⟩ := ih hrest (by omega)
    have hrun : (slice src (i + entryHeaderBytes) sectorBytes).length = sectorBytes := by
      rw [length_slice]
      omega
    refine ⟨(getUint32 src i, slice src (i + entryHeaderBytes) sectorBytes) :: ps, ?_, ?_, ?_, ?_, ?_, ?_, ?_⟩
    · exact (Except.ok.inj hd).symm
    · rw [List.length_cons, hcount]
    · rintro p hp
      rcases List.mem_cons.1 hp with rfl | hp
      · exact hrun
      · exact hw p hp
    · rintro p hp
      rcases List.mem_cons.1 hp with rfl | hp
      · exact Nat.not_le.1 hrange
      · exact hlt p hp
    · refine List.pairwise_cons.2 ⟨fun s hs => ?_, hasc⟩
      obtain ⟨p, hp, rfl⟩ := List.mem_map.1 hs
      exact Int.ofNat_lt.1 (hfirst p hp)
    · rintro p hp
      rcases List.mem_cons.1 hp with rfl | hp
      · exact Int.not_le.1 hprev
      · exact Int.lt_trans (Int.not_le.1 hprev) (hfirst p hp)
    · have hword : slice src i entryHeaderBytes = put32 (getUint32 src i) := slice_getUint32 (by rw [entryHeaderBytes] at hlen; omega)
      rw [hsize, slice_add, slice_add, hword, hbytes, entryBytes, entryBytes, List.flatMap_cons, List.append_assoc]

/-- A byte string that is accepted is a header and the entries. -/
theorem decodeDelta_ok (h : decodeDelta src = .ok d) :
    ∃ ps reserved, d = .ofEntries ps ∧ WholeSectors ps ∧ (∀ p ∈ ps, p.1 < maxSectorsPerDisk) ∧
      (ps.map Prod.fst).Pairwise (· < ·) ∧ reserved.length = 4 ∧
      src = put32 magic ++ put16 formatVersion ++ put16 sectorBytes ++ put32 ps.length ++ reserved ++ entryBytes ps := by
  rw [decodeDelta] at h
  by_cases hshort : src.length < headerBytes
  · simp only [if_pos hshort] at h
    cases h
  by_cases hmagic : getUint32 src 0 ≠ magic
  · simp only [if_neg hshort, if_pos hmagic] at h
    cases h
  by_cases hversion : getUint16 src 4 ≠ formatVersion
  · simp only [if_neg hshort, if_neg hmagic, if_pos hversion] at h
    cases h
  by_cases hsector : getUint16 src 6 ≠ sectorBytes
  · simp only [if_neg hshort, if_neg hmagic, if_neg hversion, if_pos hsector] at h
    cases h
  by_cases hwant : src.length ≠ headerBytes + getUint32 src 8 * (entryHeaderBytes + sectorBytes)
  · simp only [if_neg hshort, if_neg hmagic, if_neg hversion, if_neg hsector, if_pos hwant] at h
    cases h
  simp only [if_neg hshort, if_neg hmagic, if_neg hversion, if_neg hsector, if_neg hwant] at h
  rw [not_not] at hmagic hversion hsector hwant
  obtain ⟨ps, rfl, hcount, hw, hlt, hasc, -, hbytes⟩ := decodeEntries_ok h (Nat.le_of_eq hwant.symm)
  rw [headerBytes] at hshort hbytes
  refine ⟨ps, slice src 12 4, rfl, hw, hlt, hasc, by rw [length_slice]; omega, ?_⟩
  have h0 : slice src 0 4 = put32 magic := by rw [slice_getUint32 (by omega), hmagic]
  have h4 : slice src 4 2 = put16 formatVersion := by rw [slice_getUint16 (by omega), hversion]
  have h6 : slice src 6 2 = put16 sectorBytes := by rw [slice_getUint16 (by omega), hsector]
  have h8 : slice src 8 4 = put32 ps.length := by rw [slice_getUint32 (by omega), hcount]
  rw [← h0, ← h4, ← h6, ← h8, ← hbytes, ← slice_add, ← slice_add, ← slice_add, ← slice_add, ← slice_add,
    show 4 + 2 + 2 + 4 + 4 + getUint32 src 8 * (entryHeaderBytes + sectorBytes) = src.length by rw [hwant, headerBytes],
    slice_self]

-- ---------------------------------------------------------------------------
-- Exact
-- ---------------------------------------------------------------------------

/-- The four operations on two images of one supported size and on every byte string. -/
theorem delta_exact :
    (∀ before after, isHistoryImage before = true → after.length = before.length →
      ∃ d, buildDelta before after = .ok d ∧ applyDelta before d = .ok after ∧ d.sectors.Pairwise (· < ·) ∧
        ∀ s, s ∈ d.sectors ↔ s < before.length / sectorBytes ∧ sectorOf before s ≠ sectorOf after s) ∧
    (∀ d : Delta, d.Ascending → ∃ src, encodeDelta d = .ok src ∧ decodeDelta src = .ok d) ∧
    (∀ src d, decodeDelta src = .ok d → d.Ascending ∧
      ∃ enc, encodeDelta d = .ok enc ∧ enc.length = src.length ∧ enc.take 12 = src.take 12 ∧ enc.drop 16 = src.drop 16) := by
  refine ⟨?_, ?_, ?_⟩
  · intro before after hb hl
    have hbuild := buildDelta_ok.2 ⟨hb, hl, rfl⟩
    refine ⟨_, hbuild, apply_build hbuild, changedRuns_ascending _ _ _, fun s => ?_⟩
    simp [Delta.ofEntries, changedRuns]
  · intro d hd
    have hw := Delta.entries_whole hd.length
    have hlt : ∀ p ∈ d.entries, p.1 < maxSectorsPerDisk := fun p hp =>
      hd.range p.1 (d.map_fst_entries ▸ List.mem_map_of_mem hp)
    have hasc : (d.entries.map Prod.fst).Pairwise (· < ·) := d.map_fst_entries.symm ▸ hd.ascending
    have henc := encodeDelta_ofEntries hw
    have hdec := decode_encode hw hlt hasc
    rw [Delta.ofEntries_entries hd.length] at henc hdec
    exact ⟨_, henc, hdec⟩
  · intro src d h
    obtain ⟨ps, reserved, rfl, hw, hlt, hasc, hres, hsrc⟩ := decodeDelta_ok h
    refine ⟨Delta.Ascending.ofEntries hw hlt hasc, _, encodeDelta_ofEntries hw, ?_, ?_, ?_⟩
    · rw [hsrc, deltaHeader]
      simp [hres]
    · have htake : ∀ word rest : Bytes, (put32 magic ++ put16 formatVersion ++ put16 sectorBytes ++ put32 ps.length ++ word ++
          rest).take 12 = put32 magic ++ put16 formatVersion ++ put16 sectorBytes ++ put32 ps.length := fun word rest => by
        rw [List.append_assoc]
        exact List.take_left' rfl
      rw [hsrc, deltaHeader, htake, htake]
    · have hlen : ∀ word : Bytes, word.length = 4 → (put32 magic ++ put16 formatVersion ++ put16 sectorBytes ++ put32 ps.length ++
          word).length = 16 := fun word hword => by simp [hword]
      rw [hsrc, deltaHeader, List.drop_left' (hlen reserved hres), List.drop_left' (hlen (put32 0) rfl)]

/-- A delta of one sector, there and back. -/
theorem delta_exact_sector : ∃ src, encodeDelta ⟨[3], List.replicate sectorBytes 7⟩ = .ok src ∧
    decodeDelta src = .ok ⟨[3], List.replicate sectorBytes 7⟩ :=
  delta_exact.2.1 _ ⟨List.pairwise_singleton _ _, by decide, by rw [List.length_replicate, List.length_singleton, Nat.one_mul]⟩

end WebAdf.DiskHistory
