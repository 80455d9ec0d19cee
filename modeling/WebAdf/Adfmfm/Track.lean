import WebAdf.Adfmfm.Layout
import WebAdf.Adfmfm.Mfm
import WebAdf.Lib.Run

/-!
# The server's track codec

`encodeTrack` lays eleven sectors between two gaps and clocks the whole track.
`decodeTrack` scans the bytes for sync words and checks every sector it finds.
-/

namespace WebAdf.Adfmfm

open Lib

def labelBytes : Nat := 16

/-- Sector `n` of a track written at its place. -/
def encodeSector (data : Bytes) (trackNo : Int) (out : Bytes) (n : Nat) : Except Thrown Bytes := do
  let sectorData := slice data (n * sectorDataBytes) sectorDataBytes
  let header : Bytes := [0xff, UInt8.ofInt trackNo, UInt8.ofNat n, UInt8.ofNat (sectors - n)]
  let label : Bytes := List.replicate labelBytes 0
  let headerAndLabel := header ++ label
  let at0 := gapLeadBytes + n * sectorMfmBytes
  let out := blit out at0 sync
  let out := blit out (at0 + 4) (splitOddEven header)
  let out := blit out (at0 + 12) (splitOddEven label)
  let hdrSum ← checksum headerAndLabel
  let out := blit out (at0 + 44) (splitOddEven (longBytes hdrSum))
  let datSum ← checksum sectorData
  let out := blit out (at0 + 52) (splitOddEven (longBytes datSum))
  let out := blit out (at0 + 60) (splitOddEven sectorData)
  return blit out (at0 + 1084) (splitOddEven (List.replicate 2 0))

def encodeTrack (data : Bytes) (trackNo : Int) : Except Thrown Bytes := do
  if data.length ≠ trackDataBytes then
    throw (.adfFormat s!"track data must be {trackDataBytes} bytes, got {data.length}")
  if trackNo < 0 ∨ trackNo ≥ tracks then
    throw (.adfFormat s!"track number must be an integer in 0..{tracks - 1}, got {trackNo}")
  let out ← (List.range sectors).foldlM (encodeSector data trackNo) (List.replicate trackBytes 0)
  return fillClockBits out

def u32be (v : Bytes) : UInt32 := long (v.getD 0 0) (v.getD 1 0) (v.getD 2 0) (v.getD 3 0)

def isSync (mfm : Bytes) (i : Nat) : Bool :=
  mfm.getD i 0 == 0x44 && mfm.getD (i + 1) 0 == 0x89 && mfm.getD (i + 2) 0 == 0x44 &&
    mfm.getD (i + 3) 0 == 0x89

/-- The sector whose sync word is at byte `i`: its id and its data. -/
def decodeSector (mfm : Bytes) (i : Nat) : Except Thrown (Nat × Bytes) := do
  let header := joinOddEven (slice mfm (i + 4) 8)
  let label := joinOddEven (slice mfm (i + 12) 32)
  let hdrSum := u32be (joinOddEven (slice mfm (i + 44) 8))
  let datSum := u32be (joinOddEven (slice mfm (i + 52) 8))
  let data := joinOddEven (slice mfm (i + 60) 1024)
  let headerAndLabel := header ++ label
  if (← checksum headerAndLabel) ≠ hdrSum then
    throw (.trackDecode s!"header checksum mismatch at byte {i}")
  if (← checksum data) ≠ datSum then
    throw (.trackDecode s!"data checksum mismatch at byte {i}")
  let sectorId := (header.getD 2 0).toNat
  if sectorId ≥ sectors then
    throw (.trackDecode s!"sector id {sectorId} out of range at byte {i}")
  return (sectorId, data)

/-- The scan from byte `i` on, with what was decoded before it. -/
def decodeFrom (mfm : Bytes) (i : Nat) (out : Bytes) (seen : List Nat) :
    Except Thrown (Bytes × List Nat) :=
  if h : i + sectorMfmBytes ≤ mfm.length then
    if isSync mfm i then
      match decodeSector mfm i with
      | .error e => .error e
      | .ok (sectorId, data) =>
        if sectorId ∈ seen then .error (.trackDecode s!"sector {sectorId} appears twice")
        else decodeFrom mfm (i + sectorMfmBytes) (blit out (sectorId * sectorDataBytes) data)
          (sectorId :: seen)
    else decodeFrom mfm (i + 1) out seen
  else .ok (out, seen)
termination_by mfm.length - i
decreasing_by all_goals simp only [sectorMfmBytes] at *; omega

def decodeTrack (mfm : Bytes) : Except Thrown Bytes := do
  if mfm.length ≠ trackBytes then
    throw (.trackDecode s!"track must be {trackBytes} bytes, got {mfm.length}")
  let (out, seen) ← decodeFrom mfm 0 (List.replicate trackDataBytes 0) []
  if seen.length ≠ sectors then
    throw (.trackDecode s!"expected 11 sectors, found {seen.length}")
  return out

end WebAdf.Adfmfm

/-!
# The server's track codec against the layout

`encodeTrack` is the clocked layout, and `decodeTrack` reads it back: it steps
over the leading gap byte by byte, then from sector to sector, and has no room
for another sync word after the last.
-/

namespace WebAdf.Adfmfm

open Lib

/-- The clocked double-density track. -/
def nominalTrack (trackNo : UInt8) (data : Bytes) : Bytes :=
  clock 0 (rawTrack gapLeadBytes sectors 444 trackNo data)

theorem checksum_ok (h : src.length % 4 = 0) : checksum src = .ok (foldedXor src) := by
  rw [checksum, if_neg (by omega)]

-- ---------------------------------------------------------------------------
-- Encoding
-- ---------------------------------------------------------------------------

theorem encodeSector_eq (trackNo : Int) (hdata : data.length = trackDataBytes) (hn : n < sectors)
    (hout : out.length = trackBytes) :
    encodeSector data trackNo out n = .ok (blit out (markOf gapLeadBytes n)
      (rawSector (headerAndLabel sectors (UInt8.ofInt trackNo) n) (sectorData data n) ++
        List.replicate 4 0)) := by
  have hsd : (sectorData data n).length = sectorDataBytes := length_sectorData hdata hn
  have hfit : markOf gapLeadBytes n + 1088 ≤ out.length := by
    simp only [markOf, gapLeadBytes, sectorMfmBytes, hout, trackBytes, sectors] at *
    omega
  have hraw := length_rawSector (length_headerAndLabel sectors (UInt8.ofInt trackNo) n) hsd
  have hlay := lay_sector (sectorData data n)
    (length_headerAndLabel sectors (UInt8.ofInt trackNo) n)
    (show markOf gapLeadBytes n + 60 ≤ out.length by omega)
  have hpad : splitOddEven (List.replicate 2 0) = List.replicate 4 0 := by decide
  have hbody : encodeSector data trackNo out n = .ok (blit
      (blit out (markOf gapLeadBytes n)
        (rawSector (headerAndLabel sectors (UInt8.ofInt trackNo) n) (sectorData data n)))
      (markOf gapLeadBytes n + 1084) (splitOddEven (List.replicate 2 0))) := by
    rw [← hlay, encodeSector, checksum_ok, checksum_ok]
    · rfl
    · rw [← sectorData, hsd]
      rfl
    · simp [labelBytes]
  rw [hbody, hpad, blit_append (by omega) (by omega)]

theorem ofInt_natCast (n : Nat) : UInt8.ofInt n = UInt8.ofNat n := by
  apply UInt8.toNat_inj.mp
  simp only [UInt8.ofInt, UInt8.toNat_ofNat']
  omega

theorem encodeTrack_eq (hdata : data.length = trackDataBytes) (ht : trackNo < tracks) :
    encodeTrack data (trackNo : Nat) = .ok (nominalTrack (UInt8.ofNat trackNo) data) := by
  have hloop : (List.range sectors).foldlM (encodeSector data (trackNo : Nat))
      (List.replicate trackBytes 0) = .ok ((List.range sectors).foldl
        (fun out n => blit out (gapLeadBytes + n * sectorMfmBytes)
          (rawSector (headerAndLabel sectors (UInt8.ofNat trackNo) n) (sectorData data n) ++
            List.replicate 4 0)) (List.replicate trackBytes 0)) := by
    apply foldlM_ok (P := fun out => out.length = trackBytes)
    · intro out n hout hn
      have hn := List.mem_range.mp hn
      have hok := encodeSector_eq trackNo hdata hn hout
      rw [ofInt_natCast] at hok
      refine ⟨hok, ?_⟩
      have hlen := length_sector_padded hdata (UInt8.ofNat trackNo) n (by simpa using hn)
      rw [length_blit, hout]
      rw [hlen, hout]
      simp only [gapLeadBytes, sectorMfmBytes, trackBytes, sectors] at *
      omega
    · simp
  have hlay := foldl_blit_fill gapLeadBytes 0 (0 : UInt8) [] (k := sectors) (w := sectorMfmBytes)
    (f := fun n => rawSector (headerAndLabel sectors (UInt8.ofNat trackNo) n)
      (sectorData data n) ++ List.replicate 4 0)
    (fun n hn => length_sector_padded hdata _ n (by simpa using hn)) 444
  simp only [List.append_nil, List.replicate_zero] at hlay
  rw [encodeTrack, if_neg (by simp [hdata]), if_neg (by omega), hloop]
  show Except.ok (fillClockBits _) = _
  rw [show trackBytes = gapLeadBytes + (sectors * sectorMfmBytes + 444) from rfl, hlay,
    fillClockBits, fillClocks_eq]
  rfl

-- ---------------------------------------------------------------------------
-- Decoding
-- ---------------------------------------------------------------------------

theorem joinOddEven_clocked (h : slice raw off (2 * n) = splitLanes src) (hn : src.length = n) :
    joinOddEven (slice (clock 0 raw) off (2 * n)) = src := by
  have hlen : (slice (clock 0 raw) off (2 * n)).length / 2 = n := by
    have hl := congrArg List.length h
    rw [length_slice, length_splitLanes, hn] at hl
    rw [length_slice, length_clock]
    omega
  rw [joinOddEven, hlen, joinLanes_clocked h hn]

theorem decodeSector_nominal (hdata : data.length = trackDataBytes) (hn : n < sectors) :
    decodeSector (nominalTrack trackNo data) (markOf gapLeadBytes n) =
      .ok (n, sectorData data n) := by
  have hsd : (sectorData data n).length = sectorDataBytes := length_sectorData hdata hn
  have hfield (off : Nat) {m : Nat} (h : off + m ≤ 1080) :=
    slice_fields hdata gapLeadBytes 444 trackNo hn h
  obtain ⟨hh, hl, hhs, hds, hd⟩ := sectorFields_at (length_headerAndLabel sectors trackNo n) hsd
  have header : joinOddEven (slice (nominalTrack trackNo data) (markOf gapLeadBytes n + 4) 8) =
      (headerAndLabel sectors trackNo n).take 4 :=
    joinOddEven_clocked (n := 4) ((hfield 0 (by decide)).trans hh) rfl
  have label : joinOddEven (slice (nominalTrack trackNo data) (markOf gapLeadBytes n + 12) 32) =
      (headerAndLabel sectors trackNo n).drop 4 :=
    joinOddEven_clocked (n := 16) ((hfield 8 (by decide)).trans hl) rfl
  have hdrSum : joinOddEven (slice (nominalTrack trackNo data) (markOf gapLeadBytes n + 44) 8) =
      longBytes (foldedXor (headerAndLabel sectors trackNo n)) :=
    joinOddEven_clocked (n := 4) ((hfield 40 (by decide)).trans hhs) rfl
  have datSum : joinOddEven (slice (nominalTrack trackNo data) (markOf gapLeadBytes n + 52) 8) =
      longBytes (foldedXor (sectorData data n)) :=
    joinOddEven_clocked (n := 4) ((hfield 48 (by decide)).trans hds) rfl
  have sector : joinOddEven (slice (nominalTrack trackNo data) (markOf gapLeadBytes n + 60) 1024) =
      sectorData data n :=
    joinOddEven_clocked (n := 512) ((hfield 56 (by decide)).trans hd) hsd
  have hsum (v : UInt32) : u32be (longBytes v) = v := long_longBytes v
  have hid : (((headerAndLabel sectors trackNo n).take 4).getD 2 0).toNat = n := by
    show (UInt8.ofNat n).toNat = n
    simp only [UInt8.toNat_ofNat', sectors] at *
    omega
  rw [decodeSector, header, label, hdrSum, datSum, sector, hsum, hsum, List.take_append_drop,
    checksum_ok (by rw [length_headerAndLabel]), checksum_ok (by rw [hsd]; rfl), hid]
  simp only [bind, Except.bind, ne_eq, not_true_eq_false, if_false]
  rw [if_neg (by omega)]
  rfl

/-- The scan steps over bytes that are not a sync word. -/
theorem decodeFrom_skip (h : ∀ i < k, isSync mfm i = false) (hk : k + sectorMfmBytes ≤ mfm.length)
    (hi : i ≤ k) : decodeFrom mfm i out seen = decodeFrom mfm k out seen := by
  obtain ⟨d, rfl⟩ := Nat.exists_eq_add_of_le hi
  clear hi
  induction d generalizing i with
  | zero => rfl
  | succ d ih =>
    rw [decodeFrom, dif_pos (by omega), h i (by omega), if_neg (by simp),
      ih (i := i + 1) (by rwa [show i + 1 + d = i + (d + 1) by omega])
        (by rwa [show i + 1 + d = i + (d + 1) by omega]), show i + 1 + d = i + (d + 1) by omega]

theorem decodeFrom_sector (hsync : isSync mfm i = true) (hfit : i + sectorMfmBytes ≤ mfm.length)
    (hok : decodeSector mfm i = .ok (n, data)) (hnew : n ∉ seen) :
    decodeFrom mfm i out seen =
      decodeFrom mfm (i + sectorMfmBytes) (blit out (n * sectorDataBytes) data) (n :: seen) := by
  rw [decodeFrom, dif_pos hfit, if_pos hsync, hok]
  exact if_neg hnew

theorem decodeFrom_end (h : mfm.length < i + sectorMfmBytes) :
    decodeFrom mfm i out seen = .ok (out, seen) := by
  rw [decodeFrom, dif_neg (by omega)]

theorem length_nominalTrack (trackNo : UInt8) (hdata : data.length = trackDataBytes) :
    (nominalTrack trackNo data).length = trackBytes := by
  rw [nominalTrack, length_clock, length_rawTrack hdata]
  rfl

theorem isSync_gap (hi : i < gapLeadBytes) : isSync (nominalTrack trackNo data) i = false := by
  have hraw : (rawTrack gapLeadBytes sectors 444 trackNo data).getD i 0 = 0 := by
    rw [rawTrack, List.append_assoc, List.getD_append _ _ _ _ (by simpa using hi),
      List.getD_eq_getElem?_getD, List.getElem?_getD_replicate_default_eq]
  have hbits := getD_dataBits (nominalTrack trackNo data) i
  rw [nominalTrack, dataBits_clock, getD_dataBits, hraw] at hbits
  rw [nominalTrack, isSync, Bool.and_eq_false_iff, Bool.and_eq_false_iff, Bool.and_eq_false_iff]
  refine .inl (.inl (.inl ?_))
  rw [beq_eq_false_iff_ne]
  intro h
  rw [h] at hbits
  exact absurd hbits (by decide)

theorem isSync_mark (hdata : data.length = trackDataBytes) (hn : n < sectors) :
    isSync (nominalTrack trackNo data) (markOf gapLeadBytes n) = true := by
  obtain ⟨-, ha, hb, hc, hd⟩ := (marked_rawTrack gapLeadBytes trackNo hdata
    (show 0 < 444 by decide)).legal.sync _ ⟨n, hn, rfl⟩
  rw [isSync, nominalTrack, ha, hb, hc, hd]
  rfl

/-- The scan when it comes to sector `k`. -/
theorem decodeFrom_reach (hdata : data.length = trackDataBytes) (hk : k ≤ sectors) :
    decodeFrom (nominalTrack trackNo data) 0 out [] =
      decodeFrom (nominalTrack trackNo data) (markOf gapLeadBytes k)
        ((List.range k).foldl (fun out n => blit out (n * sectorDataBytes) (sectorData data n)) out)
        (List.range k).reverse := by
  have hlen := length_nominalTrack trackNo hdata
  induction k with
  | zero =>
    exact decodeFrom_skip (k := gapLeadBytes) (fun i hi => isSync_gap hi)
      (by rw [hlen]; decide) (Nat.zero_le _)
  | succ k ih =>
    have hfit : markOf gapLeadBytes k + sectorMfmBytes ≤ (nominalTrack trackNo data).length := by
      rw [hlen]
      simp only [markOf, gapLeadBytes, sectorMfmBytes, trackBytes, sectors] at *
      omega
    rw [ih (by omega), decodeFrom_sector (isSync_mark hdata (by omega)) hfit
      (decodeSector_nominal hdata (by omega)) (by simp), List.range_succ, List.foldl_append,
      List.reverse_append, markOf, markOf, Nat.add_assoc, ← Nat.succ_mul]
    rfl

theorem decodeTrack_nominal (hdata : data.length = trackDataBytes) :
    decodeTrack (nominalTrack trackNo data) = .ok data := by
  have hlen := length_nominalTrack trackNo hdata
  have hfill := foldl_blit_fill 0 0 (0 : UInt8) [] (k := sectors) (w := sectorDataBytes)
    (f := sectorData data) (fun n hn => length_sectorData hdata hn) 0
  simp only [List.replicate_zero, List.append_nil, List.nil_append, Nat.zero_add,
    Nat.add_zero] at hfill
  have hblocks : (List.range sectors).flatMap (sectorData data) = data := flatMap_slices hdata
  rw [decodeTrack, if_neg (by simp [hlen]), decodeFrom_reach hdata (Nat.le_refl sectors),
    decodeFrom_end (by rw [hlen]; decide), show trackDataBytes = sectors * sectorDataBytes from rfl,
    hfill, hblocks]
  rfl

end WebAdf.Adfmfm
