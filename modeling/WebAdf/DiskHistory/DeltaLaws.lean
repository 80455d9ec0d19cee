import Mathlib.Data.List.Perm.Subperm
import WebAdf.DiskHistory.Diff

/-!
# A built delta reads back and applies

`decode_encode` is the round trip of the stored form, for every delta whose
sectors ascend, and `apply_build` the purpose of a delta: applied to the image
it was built against it gives the image it was built for.
-/

namespace WebAdf.DiskHistory

open Lib

-- ---------------------------------------------------------------------------
-- Deltas as lists of sector runs
-- ---------------------------------------------------------------------------

theorem bind_ok {x : Except ε α} {f : α → Except ε β} :
    x >>= f = .ok b ↔ ∃ a, x = .ok a ∧ f a = .ok b := by
  cases x <;> simp [bind, Except.bind]

/-- The delta that holds these sector runs, in this order. -/
def Delta.ofEntries (ps : List (Nat × Bytes)) : Delta :=
  ⟨ps.map Prod.fst, ps.flatMap Prod.snd⟩

/-- Every run is a whole sector. -/
def WholeSectors (ps : List (Nat × Bytes)) : Prop := ∀ p ∈ ps, p.2.length = sectorBytes

theorem Delta.length_ofEntries (h : WholeSectors ps) :
    (Delta.ofEntries ps).bytes.length = (Delta.ofEntries ps).sectors.length * sectorBytes := by
  simp only [Delta.ofEntries, List.length_map]
  exact length_flatMap_block h

theorem Delta.entries_ofEntries (h : WholeSectors ps) : (Delta.ofEntries ps).entries = ps := by
  apply List.ext_getElem
  · simp [Delta.entries, Delta.ofEntries]
  · intro i hi hi'
    simp only [Delta.entries, Delta.ofEntries, List.getElem_map, List.getElem_zipIdx,
      Nat.zero_add]
    rw [slice_flatMap h hi']

/-- The runs a delta between two images is made of. -/
def changedRuns (before after : Bytes) (n : Nat) : List (Nat × Bytes) :=
  ((List.range n).filter fun s => sectorOf before s ≠ sectorOf after s).map fun s =>
    (s, sectorOf after s)

theorem assertImage_ok :
    assertImage img what = .ok n ↔ isHistoryImage img = true ∧ n = img.length / sectorBytes := by
  unfold assertImage
  split
  next h => simp [h, eq_comm]
  next h => simp [h]

theorem buildDelta_ok : buildDelta before after = .ok d ↔
    isHistoryImage before = true ∧ after.length = before.length ∧
      d = .ofEntries (changedRuns before after (before.length / sectorBytes)) := by
  simp only [buildDelta, bind_ok, assertImage_ok]
  constructor
  · rintro ⟨_, ⟨hb, rfl⟩, _, ⟨-, -⟩, h⟩
    split at h
    · cases h
    next hl =>
      cases h
      refine ⟨hb, (not_not.mp hl).symm, ?_⟩
      simp [Delta.ofEntries, changedRuns, List.flatMap_map, Function.comp_def]
  · rintro ⟨hb, hl, rfl⟩
    have ha : isHistoryImage after = true := by rwa [isHistoryImage, hl]
    refine ⟨_, ⟨hb, rfl⟩, _, ⟨ha, rfl⟩, ?_⟩
    rw [if_neg (not_not.mpr hl.symm)]
    simp [Delta.ofEntries, changedRuns, List.flatMap_map, Function.comp_def, pure, Except.pure]

-- ---------------------------------------------------------------------------
-- Sizes
-- ---------------------------------------------------------------------------

/-- A history image is whole sectors, at most the largest disk's. -/
theorem isHistoryImage_sectors (h : isHistoryImage img = true) :
    img.length = img.length / sectorBytes * sectorBytes ∧
      img.length / sectorBytes ≤ maxSectorsPerDisk := by
  simp only [isHistoryImage, Bool.or_eq_true, beq_iff_eq] at h
  rcases h with h | h <;> rw [h] <;> decide

theorem changedRuns_whole (before : Bytes) (ha : after.length = n * sectorBytes) :
    WholeSectors (changedRuns before after n) := by
  simp only [WholeSectors, changedRuns, List.mem_map, List.mem_filter, List.mem_range]
  rintro _ ⟨s, ⟨hs, -⟩, rfl⟩
  have hle : (s + 1) * sectorBytes ≤ n * sectorBytes := Nat.mul_le_mul_right _ hs
  simp only [sectorOf, length_slice, ha]
  rw [Nat.succ_mul] at hle
  omega

theorem changedRuns_blocks (before : Bytes) (ha : after.length = n * sectorBytes) :
    Blocks n sectorBytes (changedRuns before after n) := by
  intro p hp
  refine ⟨?_, changedRuns_whole before ha p hp⟩
  simp only [changedRuns, List.mem_map, List.mem_filter, List.mem_range] at hp
  obtain ⟨s, ⟨hs, -⟩, rfl⟩ := hp
  exact hs

theorem changedRuns_ascending (before after : Bytes) (n : Nat) :
    ((changedRuns before after n).map Prod.fst).Pairwise (· < ·) := by
  simp only [changedRuns, List.map_map, Function.comp_def, List.map_id']
  exact List.Pairwise.filter _ List.pairwise_lt_range

-- ---------------------------------------------------------------------------
-- Applying a delta
-- ---------------------------------------------------------------------------

theorem applyDelta_ofEntries (hi : isHistoryImage image = true)
    (hp : Blocks (image.length / sectorBytes) sectorBytes ps) :
    applyDelta image (.ofEntries ps) = .ok (patch sectorBytes image ps) := by
  have hw : WholeSectors ps := fun p h => (hp p h).2
  simp only [applyDelta, bind_ok, assertImage_ok]
  refine ⟨_, ⟨hi, rfl⟩, ?_⟩
  rw [if_neg (not_not.mpr (Delta.length_ofEntries hw)), Delta.entries_ofEntries hw]
  clear hw
  generalize image.length / sectorBytes = n at hp
  clear hi
  induction ps generalizing image with
  | nil => rfl
  | cons p ps ih =>
    have hlt : ¬ n ≤ p.1 := Nat.not_le.mpr (hp p (by simp)).1
    simp only [List.foldlM_cons, ge_iff_le, if_neg hlt]
    exact ih fun q hq => hp q (by simp [hq])

/-- A sector's last write among the changed runs is the sector of `after`
where the images differ, and nothing where they agree. -/
theorem lastWrite_changedRuns (before after : Bytes) (n : Nat) (hs : s < n) :
    lastWrite s (changedRuns before after n) =
      if sectorOf before s = sectorOf after s then none else some (sectorOf after s) := by
  induction n with
  | zero => omega
  | succ n ih =>
    have hstep : changedRuns before after (n + 1) = changedRuns before after n ++
        if sectorOf before n = sectorOf after n then [] else [(n, sectorOf after n)] := by
      simp only [changedRuns, List.range_succ, List.filter_append, List.map_append]
      congr 1
      by_cases h : sectorOf before n = sectorOf after n <;> simp [h]
    rw [hstep]
    rcases Nat.lt_succ_iff_lt_or_eq.mp hs with hlt | rfl
    · split
      · rw [List.append_nil, ih hlt]
      · rw [lastWrite_concat, if_neg (by simp; omega), ih hlt]
    · have hnone : lastWrite s (changedRuns before after s) = none := by
        have hlt : ∀ p ∈ changedRuns before after s, p.1 ≠ s := by
          simp only [changedRuns, List.mem_map, List.mem_filter, List.mem_range]
          rintro _ ⟨t, ⟨ht, -⟩, rfl⟩
          exact Nat.ne_of_lt ht
        exact lastWrite_none hlt
      split
      · rw [List.append_nil, hnone]
      · rw [lastWrite_concat, if_pos rfl]

theorem apply_build (h : buildDelta before after = .ok d) : applyDelta before d = .ok after := by
  obtain ⟨hb, hl, rfl⟩ := buildDelta_ok.mp h
  obtain ⟨hsize, -⟩ := isHistoryImage_sectors hb
  have hblocks := changedRuns_blocks before (hl.trans hsize)
  rw [applyDelta_ofEntries hb hblocks]
  congr 1
  refine ext_slice (length_patch hsize hblocks) (hl.trans hsize) fun s hs => ?_
  rw [slice_patch hsize hblocks, lastWrite_changedRuns before after _ hs]
  split
  next he => exact he
  next => rfl

-- ---------------------------------------------------------------------------
-- The stored form
-- ---------------------------------------------------------------------------

/-- The entries as `encodeDelta` lays them out. -/
def entryBytes (ps : List (Nat × Bytes)) : Bytes := ps.flatMap fun p => put32 p.1 ++ p.2

theorem length_entryBytes (h : WholeSectors ps) :
    (entryBytes ps).length = ps.length * (entryHeaderBytes + sectorBytes) := by
  apply length_flatMap_block
  intro p hp
  rw [List.length_append, length_put32, h p hp, entryHeaderBytes]

theorem getUint32_append (pre : Bytes) (hv : v < 2 ^ 32) :
    getUint32 (pre ++ (put32 v ++ rest)) pre.length = v := by
  have hget (k : Nat) : (pre ++ (put32 v ++ rest)).getD (pre.length + k) 0 =
      (put32 v ++ rest).getD k 0 := by
    rw [List.getD_eq_getElem?_getD, List.getD_eq_getElem?_getD,
      List.getElem?_append_right (by omega), Nat.add_sub_cancel_left]
  have h0 := hget 0
  rw [Nat.add_zero] at h0
  rw [getUint32, h0, hget, hget, hget]
  exact be32_put hv

theorem decodeEntries_entryBytes (hw : WholeSectors ps) (hlt : ∀ p ∈ ps, p.1 < maxSectorsPerDisk)
    (hasc : (ps.map Prod.fst).Pairwise (· < ·)) (prev : Int) (hprev : ∀ p ∈ ps, prev < (p.1 : Int))
    (pre : Bytes) :
    decodeEntries (pre ++ entryBytes ps) ps.length pre.length prev = .ok (.ofEntries ps) := by
  induction ps generalizing pre prev with
  | nil => rfl
  | cons p ps ih =>
    rw [List.map_cons, List.pairwise_cons] at hasc
    obtain ⟨hp, hasc⟩ := hasc
    have hplt : p.1 < maxSectorsPerDisk := hlt p (by simp)
    have hlen : p.2.length = sectorBytes := hw p (by simp)
    have h32 : p.1 < 2 ^ 32 := Nat.lt_trans hplt (by decide)
    have hsrc : pre ++ entryBytes (p :: ps) = pre ++ (put32 p.1 ++ (p.2 ++ entryBytes ps)) := by
      simp [entryBytes]
    have hrun : slice (pre ++ entryBytes (p :: ps)) (pre.length + entryHeaderBytes) sectorBytes =
        p.2 := by
      rw [hsrc, ← List.append_assoc, slice_append_right (by simp [entryHeaderBytes])]
      simp only [List.length_append, length_put32, entryHeaderBytes, Nat.sub_self]
      rw [slice_append_left (by omega), ← hlen, slice_self]
    have hrest := ih (fun q hq => hw q (by simp [hq]))
      (fun q hq => hlt q (by simp [hq])) hasc p.1
      (fun q hq => by exact_mod_cast hp q.1 (List.mem_map_of_mem hq)) (pre ++ put32 p.1 ++ p.2)
    have happ : pre ++ put32 p.1 ++ p.2 ++ entryBytes ps = pre ++ entryBytes (p :: ps) := by
      simp [entryBytes]
    have hnext : (pre ++ put32 p.1 ++ p.2).length = pre.length + entryHeaderBytes + sectorBytes := by
      simp [hlen, entryHeaderBytes, Nat.add_assoc]
    rw [happ, hnext] at hrest
    have hs : getUint32 (pre ++ entryBytes (p :: ps)) pre.length = p.1 := by
      rw [hsrc]
      exact getUint32_append pre h32
    have hpos : ¬ (p.1 : Int) ≤ prev := by
      have := hprev p (by simp)
      omega
    simp only [List.length_cons, decodeEntries, hs, if_neg (Nat.not_le.mpr hplt), if_neg hpos, hrun]
    show (do let rest ← decodeEntries _ _ _ _; pure (_ : Delta)) = _
    rw [hrest]
    rfl

/-- The 16 bytes before the entries. -/
def deltaHeader (count : Nat) : Bytes :=
  put32 magic ++ put16 formatVersion ++ put16 sectorBytes ++ put32 count ++ put32 0

theorem encodeDelta_ofEntries (hw : WholeSectors ps) :
    encodeDelta (.ofEntries ps) = .ok (deltaHeader ps.length ++ entryBytes ps) := by
  rw [encodeDelta, if_neg (not_not.mpr (Delta.length_ofEntries hw)), Delta.entries_ofEntries hw]
  simp [deltaHeader, entryBytes, Delta.ofEntries]

theorem ascending_length {xs : List Nat} (h : xs.Pairwise (· < ·)) (hlt : ∀ x ∈ xs, x < n) :
    xs.length ≤ n := by
  have hsub : xs ⊆ List.range n := fun x hx => List.mem_range.mpr (hlt x hx)
  have hnd : xs.Nodup := h.imp fun hab => Nat.ne_of_lt hab
  simpa using (List.subperm_of_subset hnd hsub).length_le

/-- Every ascending list of whole sectors of a disk is read back as it was
stored. -/
theorem decode_encode (hw : WholeSectors ps) (hlt : ∀ p ∈ ps, p.1 < maxSectorsPerDisk)
    (hasc : (ps.map Prod.fst).Pairwise (· < ·)) :
    decodeDelta (deltaHeader ps.length ++ entryBytes ps) = .ok (.ofEntries ps) := by
  have hn : ps.length < 2 ^ 32 := by
    have h := ascending_length hasc (by simpa using hlt)
    rw [List.length_map] at h
    exact Nat.lt_of_le_of_lt h (by decide)
  have hlen : (deltaHeader ps.length ++ entryBytes ps).length =
      headerBytes + ps.length * (entryHeaderBytes + sectorBytes) := by
    rw [List.length_append, length_entryBytes hw]
    rfl
  have hmagic : getUint32 (deltaHeader ps.length ++ entryBytes ps) 0 = magic :=
    be32_put (v := magic) (by decide)
  have hversion : getUint16 (deltaHeader ps.length ++ entryBytes ps) 4 = formatVersion :=
    be16_put (v := formatVersion) (by decide)
  have hsize : getUint16 (deltaHeader ps.length ++ entryBytes ps) 6 = sectorBytes :=
    be16_put (v := sectorBytes) (by decide)
  have hcount : getUint32 (deltaHeader ps.length ++ entryBytes ps) 8 = ps.length := be32_put hn
  have hshort : ¬ (deltaHeader ps.length ++ entryBytes ps).length < headerBytes := by
    rw [hlen]
    omega
  have hrun := decodeEntries_entryBytes hw hlt hasc (-1) (fun _ _ => by omega) (deltaHeader ps.length)
  simp only [decodeDelta, hmagic, hversion, hsize, hcount, hlen, ne_eq, not_true_eq_false,
    if_false]
  rw [if_neg (hlen ▸ hshort)]
  exact hrun

/-- A built delta is stored and read back whole. -/
theorem decode_encode_build (h : buildDelta before after = .ok d) :
    ∃ src, encodeDelta d = .ok src ∧ decodeDelta src = .ok d := by
  obtain ⟨hb, hl, rfl⟩ := buildDelta_ok.mp h
  obtain ⟨hsize, hmax⟩ := isHistoryImage_sectors hb
  have hblocks := changedRuns_blocks before (hl.trans hsize)
  have hw : WholeSectors _ := fun p hp => (hblocks p hp).2
  exact ⟨_, encodeDelta_ofEntries hw, decode_encode hw
    (fun p hp => Nat.lt_of_lt_of_le (hblocks p hp).1 hmax) (changedRuns_ascending _ _ _)⟩

end WebAdf.DiskHistory
