import WebAdf.Adfmfm.Track
import WebAdf.Firmware.Mfm
import WebAdf.Lib.Run

/-!
# The board's encoders against the layout

Both encoders lay down `rawTrack` over the start of their buffer and clock it.
`encoders_agree` puts them beside the server's.
-/

namespace WebAdf.Firmware

open Lib Adfmfm

/-- The loop over the sectors of a buffer that starts with a zeroed track. -/
theorem foldl_lay_sectors {enc : Bytes → Nat → Bytes} {data : Bytes} (trail : Nat)
    (hdata : data.length = nsec * sectorDataBytes)
    (henc : ∀ out n, n < nsec → markOf lead n + 60 ≤ out.length →
      enc out n = blit out (markOf lead n)
        (rawSector (headerAndLabel nsec trackNo n) (sectorData data n)))
    (rest : Bytes) :
    (List.range nsec).foldl enc
        (List.replicate (lead + (nsec * sectorMfmBytes + trail)) 0 ++ rest) =
      rawTrack lead nsec trail trackNo data ++ rest := by
  rw [rawTrack, List.append_assoc, ← foldl_blit_fill lead 4 (0 : UInt8) rest
    (fun n hn => length_sector_pad hdata trackNo hn) trail]
  apply foldl_congr_of
    (P := fun out => lead + nsec * sectorMfmBytes ≤ out.length)
  · intro out n hout hn
    have hn := List.mem_range.mp hn
    have hfit := block_le (w := sectorMfmBytes) hn
    have hlen := length_sector_pad hdata trackNo hn
    simp only [markOf, sectorMfmBytes] at *
    refine ⟨henc out n hn (by omega), ?_⟩
    rw [length_blit (by omega)]
    exact hout
  · simp
    omega

theorem fill_prefix (raw rest : Bytes) (hraw : raw.length = len) :
    fillClocks 0 ((raw ++ rest).take len) ++ (raw ++ rest).drop len = clock 0 raw ++ rest := by
  subst hraw
  rw [List.take_left, List.drop_left, fillClocks_eq]
  rfl

theorem blit_zeros (out : Bytes) (n : Nat) :
    blit out 0 (List.replicate n 0) = List.replicate n (0 : UInt8) ++ out.drop n := by
  simp [blit]

-- ---------------------------------------------------------------------------
-- The double-density encoder
-- ---------------------------------------------------------------------------

theorem mfmEncodeSector_eq (data : Bytes) (trackNo : UInt8)
    (hout : markOf gapLeadBytes n + 60 ≤ out.length) :
    mfmEncodeSector data trackNo out n = blit out (markOf gapLeadBytes n)
      (rawSector (headerAndLabel sectors trackNo n) (sectorData data n)) := by
  rw [← lay_sector _ (length_headerAndLabel sectors trackNo n) hout]
  rfl

theorem mfmEncodeTrack_eq (hdata : data.length = trackDataBytes) :
    mfmEncodeTrack data trackNo out =
      (nominalTrack trackNo data ++ out.drop trackBytes, trackBits) := by
  have hlay := foldl_lay_sectors 444 hdata
    (fun out n _ h => mfmEncodeSector_eq data trackNo h) (out.drop trackBytes)
  rw [mfmEncodeTrack, blit_zeros]
  rw [show trackBytes = gapLeadBytes + (sectors * sectorMfmBytes + 444) from rfl] at hlay ⊢
  rw [hlay, mfmFillClockBits, fill_prefix _ _ (length_rawTrack hdata)]
  rfl

-- ---------------------------------------------------------------------------
-- The encoder for both densities
-- ---------------------------------------------------------------------------

/-- The clocked track of either density: the gaps grow with the sector count. -/
def clockedTrack (nsec : Nat) (trackNo : UInt8) (data : Bytes) : Bytes :=
  clock 0 (rawTrack (256 * (nsec / sectors)) nsec (444 * (nsec / sectors)) trackNo data)

theorem clockedTrack_dd (trackNo : UInt8) (data : Bytes) :
    clockedTrack sectors trackNo data = nominalTrack trackNo data := rfl

/-- The two densities a disk has. -/
def Density (nsec : Nat) : Prop := nsec = sectors ∨ nsec = hdSectors

theorem Density.trackBytes (h : Density nsec) :
    adfMfmTrackBytes nsec =
      256 * (nsec / sectors) + (nsec * sectorMfmBytes + 444 * (nsec / sectors)) := by
  obtain rfl | rfl := h
  · rfl
  · rfl

theorem adfMfmEncodeSector_eq (data : Bytes) (nsec trackNo : Nat)
    (hout : markOf lead n + 60 ≤ out.length) :
    adfMfmEncodeSector data nsec trackNo lead out n = blit out (markOf lead n)
      (rawSector (headerAndLabel nsec (UInt8.ofNat trackNo) n) (sectorData data n)) := by
  rw [← lay_sector _ (length_headerAndLabel nsec (UInt8.ofNat trackNo) n) hout]
  rfl

theorem adfMfmEncodeTrack_eq (hnsec : Density nsec)
    (hdata : data.length = nsec * sectorDataBytes) (ht : trackNo < tracks) :
    adfMfmEncodeTrack data nsec trackNo out =
      (clockedTrack nsec (UInt8.ofNat trackNo) data ++ out.drop (adfMfmTrackBytes nsec),
        adfMfmTrackBytes nsec) := by
  have hpos : adfMfmTrackBytes nsec ≠ 0 := by
    obtain rfl | rfl := hnsec
    · decide
    · decide
  have hlay := foldl_lay_sectors (444 * (nsec / sectors)) hdata
    (fun out n _ (h : markOf (256 * (nsec / sectors)) n + 60 ≤ out.length) =>
      adfMfmEncodeSector_eq data nsec trackNo h) (out.drop (adfMfmTrackBytes nsec))
  have hraw : (rawTrack (256 * (nsec / sectors)) nsec (444 * (nsec / sectors))
      (UInt8.ofNat trackNo) data).length = adfMfmTrackBytes nsec := by
    rw [length_rawTrack hdata, hnsec.trackBytes]
  rw [← hnsec.trackBytes] at hlay
  rw [adfMfmEncodeTrack, if_neg (by omega), blit_zeros]
  dsimp only
  rw [hlay, adfMfmFillClockBits, fill_prefix _ _ hraw]
  rfl

-- ---------------------------------------------------------------------------
-- The three encoders
-- ---------------------------------------------------------------------------

/-- The server and both encoders of the board produce one track, bit for bit,
and the server decodes it to the data. -/
theorem encoders_agree (hdata : data.length = trackDataBytes) (ht : trackNo < tracks)
    (mfmOut adfOut : Bytes) :
    ∃ mfm, mfm.length = trackBytes ∧
      encodeTrack data trackNo = .ok mfm ∧
      mfmEncodeTrack data (UInt8.ofNat trackNo) mfmOut =
        (mfm ++ mfmOut.drop trackBytes, trackBits) ∧
      adfMfmEncodeTrack data sectors trackNo adfOut =
        (mfm ++ adfOut.drop trackBytes, trackBytes) ∧
      decodeTrack mfm = .ok data := by
  refine ⟨nominalTrack (UInt8.ofNat trackNo) data, length_nominalTrack _ hdata,
    encodeTrack_eq hdata ht, mfmEncodeTrack_eq hdata, ?_, decodeTrack_nominal hdata⟩
  rw [adfMfmEncodeTrack_eq (.inl rfl) hdata ht, clockedTrack_dd]
  rfl

theorem encoders_agree_blank :
    ∃ mfm, mfm.length = trackBytes ∧
      encodeTrack (List.replicate trackDataBytes 0) (79 : Nat) = .ok mfm ∧
      mfmEncodeTrack (List.replicate trackDataBytes 0) (UInt8.ofNat 79)
        (List.replicate trackBytes 0) = (mfm ++ (List.replicate trackBytes 0).drop trackBytes,
          trackBits) ∧
      adfMfmEncodeTrack (List.replicate trackDataBytes 0) sectors 79 (List.replicate trackBytes 0) =
        (mfm ++ (List.replicate trackBytes 0).drop trackBytes, trackBytes) ∧
      decodeTrack mfm = .ok (List.replicate trackDataBytes 0) :=
  encoders_agree (List.length_replicate ..) (by decide) _ _

end WebAdf.Firmware
