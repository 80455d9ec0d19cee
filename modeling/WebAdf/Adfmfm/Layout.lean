import WebAdf.Adfmfm.Mfm

/-!
# The track layout

A track before its clocks are filled in: a gap, the sectors one after another
and a gap. `rawTrack` is what every encoder lays down, and its sync words are
the only bytes that carry clock bits of their own.
-/

namespace WebAdf.Adfmfm

open Lib

/-- Sector `n` of the `nsec` of a track, header and zero label. -/
def headerAndLabel (nsec : Nat) (trackNo : UInt8) (n : Nat) : Bytes :=
  [0xff, trackNo, UInt8.ofNat n, UInt8.ofNat (nsec - n)] ++ List.replicate 16 0

/-- A sector's fields after its sync word, without the closing pad. -/
def sectorFields (hl data : Bytes) : Bytes :=
  splitLanes (hl.take 4) ++ (splitLanes (hl.drop 4) ++ (splitLanes (longBytes (foldedXor hl)) ++
    (splitLanes (longBytes (foldedXor data)) ++ splitLanes data)))

def rawSector (hl data : Bytes) : Bytes := sync ++ sectorFields hl data

def sectorData (data : Bytes) (n : Nat) : Bytes := slice data (n * sectorDataBytes) sectorDataBytes

def rawTrack (lead nsec trail : Nat) (trackNo : UInt8) (data : Bytes) : Bytes :=
  List.replicate lead 0 ++
    (List.range nsec).flatMap (fun n =>
      rawSector (headerAndLabel nsec trackNo n) (sectorData data n) ++ List.replicate 4 0) ++
    List.replicate trail 0

def markOf (lead n : Nat) : Nat := lead + n * sectorMfmBytes

@[simp] theorem length_headerAndLabel (nsec : Nat) (trackNo : UInt8) (n : Nat) :
    (headerAndLabel nsec trackNo n).length = 20 := rfl

theorem length_sectorFields (hhl : hl.length = 20) (hdata : data.length = sectorDataBytes) :
    (sectorFields hl data).length = 1080 := by
  simp [sectorFields, hhl, hdata, sectorDataBytes]

theorem length_rawSector (hhl : hl.length = 20) (hdata : data.length = sectorDataBytes) :
    (rawSector hl data).length = 1084 := by
  rw [rawSector, List.length_append, length_sectorFields hhl hdata]
  rfl

section
variable {data : Bytes} {nsec : Nat} (hdata : data.length = nsec * sectorDataBytes)
include hdata

theorem length_sectorData (hn : n < nsec) : (sectorData data n).length = sectorDataBytes := by
  have h := block_le (w := sectorDataBytes) hn
  rw [sectorData, length_slice, hdata]
  omega

theorem length_sector_pad (trackNo : UInt8) (hn : n < nsec) :
    (rawSector (headerAndLabel nsec trackNo n) (sectorData data n)).length + 4 =
      sectorMfmBytes := by
  rw [length_rawSector rfl (length_sectorData hdata hn)]
  rfl

theorem length_sector_padded (trackNo : UInt8) : ∀ n ∈ List.range nsec,
    (rawSector (headerAndLabel nsec trackNo n) (sectorData data n) ++
      List.replicate 4 0).length = sectorMfmBytes := by
  intro n hn
  rw [List.length_append, List.length_replicate]
  exact length_sector_pad hdata trackNo (List.mem_range.mp hn)

theorem length_sectors (trackNo : UInt8) :
    ((List.range nsec).flatMap fun n =>
      rawSector (headerAndLabel nsec trackNo n) (sectorData data n) ++
        List.replicate 4 0).length = nsec * sectorMfmBytes := by
  rw [length_flatMap_block (length_sector_padded hdata trackNo), List.length_range]

theorem length_rawTrack :
    (rawTrack lead nsec trail trackNo data).length = lead + (nsec * sectorMfmBytes + trail) := by
  rw [rawTrack, List.length_append, List.length_append, List.length_replicate,
    List.length_replicate, length_sectors hdata trackNo, Nat.add_assoc]

theorem slice_rawTrack (hn : n < nsec) :
    slice (rawTrack lead nsec trail trackNo data) (markOf lead n) 1084 =
      rawSector (headerAndLabel nsec trackNo n) (sectorData data n) := by
  have hlen := length_rawSector (length_headerAndLabel nsec trackNo n) (length_sectorData hdata hn)
  have hfit := block_le (w := sectorMfmBytes) hn
  have hall := length_sectors hdata trackNo
  have hbig : slice (rawTrack lead nsec trail trackNo data) (markOf lead n) sectorMfmBytes =
      rawSector (headerAndLabel nsec trackNo n) (sectorData data n) ++ List.replicate 4 0 := by
    rw [rawTrack, List.append_assoc, slice_append_right (by simp [markOf]),
      List.length_replicate, markOf, Nat.add_sub_cancel_left,
      slice_append_left (by rw [hall]; exact hfit),
      slice_flatMap (length_sector_padded hdata trackNo) (by simpa using hn), List.getElem_range]
  calc slice (rawTrack lead nsec trail trackNo data) (markOf lead n) 1084
      = slice (slice (rawTrack lead nsec trail trackNo data) (markOf lead n) sectorMfmBytes) 0
          1084 := by rw [slice_slice _ (by decide), Nat.add_zero]
    _ = _ := by rw [hbig, slice_append_left (by omega), ← hlen, slice_self]

/-- The fields of sector `n`, each where it lies on the track. -/
theorem slice_fields (lead trail : Nat) (trackNo : UInt8) (hn : n < nsec) (h : off + m ≤ 1080) :
    slice (rawTrack lead nsec trail trackNo data) (markOf lead n + 4 + off) m =
      slice (sectorFields (headerAndLabel nsec trackNo n) (sectorData data n)) off m := by
  rw [Nat.add_assoc, ← slice_slice (n := 1084) _ (by omega), slice_rawTrack hdata hn, rawSector,
    slice_append_right (by simp [sync]), show 4 + off - sync.length = off from
      Nat.add_sub_cancel_left 4 off]

theorem getD_rawTrack (lead trail : Nat) (trackNo : UInt8) (hn : n < nsec) (hj : j < sectorMfmBytes) :
    (rawTrack lead nsec trail trackNo data).getD (markOf lead n + j) 0 =
      (rawSector (headerAndLabel nsec trackNo n) (sectorData data n) ++
        List.replicate 4 0).getD j 0 := by
  have hfit := block_le (w := sectorMfmBytes) hn
  have hall := length_sectors hdata trackNo
  rw [rawTrack, List.append_assoc, List.getD_append_right _ _ _ _ (by simp [markOf]; omega),
    List.length_replicate, markOf, Nat.add_assoc, Nat.add_sub_cancel_left,
    List.getD_append _ _ _ _ (by omega), ← getD_slice _ hj,
    slice_flatMap (length_sector_padded hdata trackNo) (by simpa using hn), List.getElem_range]

end

/-- A sector's header, label, checksums and data sit at 0, 8, 40, 48 and 56. -/
theorem sectorFields_at (hhl : hl.length = 20) (hdata : data.length = sectorDataBytes) :
    slice (sectorFields hl data) 0 8 = splitLanes (hl.take 4) ∧
    slice (sectorFields hl data) 8 32 = splitLanes (hl.drop 4) ∧
    slice (sectorFields hl data) 40 8 = splitLanes (longBytes (foldedXor hl)) ∧
    slice (sectorFields hl data) 48 8 = splitLanes (longBytes (foldedXor data)) ∧
    slice (sectorFields hl data) 56 1024 = splitLanes data := by
  have h4 : (splitLanes (hl.take 4)).length = 8 := by simp [hhl]
  have h16 : (splitLanes (hl.drop 4)).length = 32 := by simp [hhl]
  have hd : (splitLanes data).length = 1024 := by simp [hdata, sectorDataBytes]
  refine ⟨?_, ?_, ?_, ?_, ?_⟩
  · rw [sectorFields, slice_append_left (by omega), ← h4, slice_self]
  · rw [sectorFields, slice_append_at h4 h16]
  · rw [sectorFields, slice_append_right (by omega), h4, slice_append_at h16 (by simp)]
  · rw [sectorFields, slice_append_right (by omega), h4, slice_append_right (by omega), h16,
      slice_append_at (by simp) (by simp)]
  · rw [sectorFields, slice_append_right (by omega), h4, slice_append_right (by omega), h16,
      slice_append_right (by simp), length_splitLanes, length_longBytes,
      slice_append_right (by simp), length_splitLanes, length_longBytes, ← hd, slice_self]

/-- The six writes of a sector, in the encoders' order, are one. -/
theorem lay_sector (data : Bytes) (hhl : hl.length = 20) (hp : p + 60 ≤ out.length) :
    blit (blit (blit (blit (blit (blit out p sync) (p + 4) (splitLanes (hl.take 4)))
        (p + 12) (splitLanes (hl.drop 4))) (p + 44) (splitLanes (longBytes (foldedXor hl))))
        (p + 52) (splitLanes (longBytes (foldedXor data)))) (p + 60) (splitLanes data) =
      blit out p (rawSector hl data) := by
  have h4 : (splitLanes (hl.take 4)).length = 8 := by simp [hhl]
  have h16 : (splitLanes (hl.drop 4)).length = 32 := by simp [hhl]
  have hsum (v : UInt32) : (splitLanes (longBytes v)).length = 8 := by simp
  have hs : sync.length = 4 := rfl
  have hc := hsum (foldedXor hl)
  have hd := hsum (foldedXor data)
  rw [rawSector, sectorFields]
  generalize sync = s at *
  generalize splitLanes (hl.take 4) = a at *
  generalize splitLanes (hl.drop 4) = b at *
  generalize splitLanes (longBytes (foldedXor hl)) = c at *
  generalize splitLanes (longBytes (foldedXor data)) = d at *
  have ha2 : (s ++ a).length = 12 := by simp [hs, h4]
  have hb3 : (s ++ a ++ b).length = 44 := by simp [hs, h4, h16]
  have hc4 : (s ++ a ++ b ++ c).length = 52 := by simp [hs, h4, h16, hc]
  have hd5 : (s ++ a ++ b ++ c ++ d).length = 60 := by simp [hs, h4, h16, hc, hd]
  rw [blit_append (show p + s.length ≤ out.length by omega) (by omega),
    blit_append (show p + (s ++ a).length ≤ out.length by omega) (by omega),
    blit_append (show p + (s ++ a ++ b).length ≤ out.length by omega) (by omega),
    blit_append (show p + (s ++ a ++ b ++ c).length ≤ out.length by omega) (by omega),
    blit_append (show p + (s ++ a ++ b ++ c ++ d).length ≤ out.length by omega) (by omega)]
  simp only [List.append_assoc]

-- ---------------------------------------------------------------------------
-- The sync words
-- ---------------------------------------------------------------------------

theorem unclocked_getD {xs : Bytes} (h : ∀ x ∈ xs, Unclocked x) (i : Nat) : Unclocked (xs.getD i 0) := by
  rcases Nat.lt_or_ge i xs.length with hi | hi
  · rw [List.getD_eq_getElem _ _ hi]
    exact h _ (List.getElem_mem hi)
  · rw [List.getD_eq_default _ _ hi]
    decide

theorem unclocked_replicate (k : Nat) : ∀ x ∈ List.replicate k (0 : UInt8), Unclocked x := by
  intro x hx
  obtain ⟨-, rfl⟩ := List.mem_replicate.mp hx
  decide

theorem unclocked_sectorFields (hl data : Bytes) :
    ∀ x ∈ sectorFields hl data ++ List.replicate 4 0, Unclocked x := by
  intro x hx
  simp only [sectorFields, List.mem_append] at hx
  obtain (h | h | h | h | h) | h := hx
  · exact unclocked_splitLanes _ x h
  · exact unclocked_splitLanes _ x h
  · exact unclocked_splitLanes _ x h
  · exact unclocked_splitLanes _ x h
  · exact unclocked_splitLanes _ x h
  · exact unclocked_replicate 4 x h

/-- The marks of a track: where its sectors start. -/
def markAt (lead nsec m : Nat) : Prop := ∃ n < nsec, m = markOf lead n

theorem marked_rawTrack (lead : Nat) (trackNo : UInt8) (hdata : data.length = nsec * sectorDataBytes) (htrail : 0 < trail) :
    Marked (rawTrack lead nsec trail trackNo data) (markAt lead nsec) where
  last := by
    have hall := length_sectors hdata trackNo
    rw [length_rawTrack hdata, rawTrack, List.getD_append_right _ _ _ _ (by
      rw [List.length_append, List.length_replicate, hall]; omega), List.getD_eq_getElem?_getD,
      List.getElem?_getD_replicate_default_eq]
    rfl
  sync := by
    rintro m ⟨n, hn, rfl⟩
    have hfit := block_le (w := sectorMfmBytes) hn
    have h (j : Nat) (hj : j < sectorMfmBytes) := getD_rawTrack hdata lead trail trackNo hn hj
    refine ⟨?_, h 0 (by decide), h 1 (by decide), h 2 (by decide), h 3 (by decide)⟩
    rw [length_rawTrack hdata]
    simp only [markOf, sectorMfmBytes] at *
    omega
  clear := by
    intro i hi hclock
    have hall := length_sectors hdata trackNo
    rw [length_rawTrack hdata] at hi
    rcases Nat.lt_or_ge i lead with hlead | hlead
    · refine absurd ?_ hclock
      rw [rawTrack, List.append_assoc, List.getD_append _ _ _ _ (by simpa using hlead)]
      exact unclocked_getD (unclocked_replicate _) _
    rcases Nat.lt_or_ge i (lead + nsec * sectorMfmBytes) with hsec | htrail
    · obtain ⟨n, j, rfl, hj⟩ : ∃ n j, i = markOf lead n + j ∧ j < sectorMfmBytes :=
        ⟨(i - lead) / sectorMfmBytes, (i - lead) % sectorMfmBytes, by
          simp only [markOf, sectorMfmBytes]; omega, Nat.mod_lt _ (by decide)⟩
      have hn : n < nsec := by
        simp only [markOf, sectorMfmBytes] at *
        omega
      rw [getD_rawTrack hdata lead trail trackNo hn hj] at hclock
      -- only the second and fourth byte of the sync word are not plain data
      rcases Nat.lt_or_ge j 4 with hlt | hge
      · refine ⟨_, ⟨n, hn, rfl⟩, ?_⟩
        interval_cases j
        · exact absurd (show Unclocked 0x44 by decide) hclock
        · exact .inl rfl
        · exact absurd (show Unclocked 0x44 by decide) hclock
        · exact .inr rfl
      · refine absurd ?_ hclock
        rw [rawSector, List.append_assoc, List.getD_append_right _ _ _ _ hge]
        exact unclocked_getD (unclocked_sectorFields _ _) _
    · refine absurd ?_ hclock
      rw [rawTrack, List.getD_append_right _ _ _ _ (by
        rw [List.length_append, List.length_replicate, hall]; omega)]
      exact unclocked_getD (unclocked_replicate _) _
  apart := by
    rintro m m' ⟨n, hn, rfl⟩ ⟨n', hn', rfl⟩ hlt
    simp only [markOf, sectorMfmBytes] at *
    omega

end WebAdf.Adfmfm
