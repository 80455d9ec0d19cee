import WebAdf.Adfmfm.Mfm

/-!
# The board's MFM codec

The double-density encoder the board re-serves a captured write with, and the
decoder that reads sectors out of a capture which starts at any bit. The decoder
looks for the sync word at every bit and realigns each sector from its own.
-/

namespace WebAdf.Firmware

open Lib Adfmfm

def mfmMaxSectors : Nat := hdSectors

def mfmChecksum (src : Bytes) (len : Nat) : UInt32 := foldedXor (src.take len)

def mfmJoinOddEven (src : Bytes) (n : Nat) : Bytes := joinLanes src n

def mfmSplitOddEven (src : Bytes) (n : Nat) : Bytes := splitLanes (src.take n)

def mfmFillClockBits (track : Bytes) (len : Nat) : Bytes :=
  fillClocks 0 (track.take len) ++ track.drop len

-- ---------------------------------------------------------------------------
-- The encoder
-- ---------------------------------------------------------------------------

/-- Sector `n` of a track written at its place; its last four bytes stay. -/
def mfmEncodeSector (data : Bytes) (trackNo : UInt8) (out : Bytes) (n : Nat) : Bytes :=
  let sd := data.drop (n * sectorDataBytes)
  let hl : Bytes := [0xff, trackNo, UInt8.ofNat n, UInt8.ofNat (sectors - n)] ++ List.replicate 16 0
  let label : Bytes := List.replicate 16 0
  let p := gapLeadBytes + n * sectorMfmBytes
  let out := blit out p sync
  let out := blit out (p + 4) (mfmSplitOddEven hl 4)
  let out := blit out (p + 12) (mfmSplitOddEven label 16)
  let out := blit out (p + 44) (mfmSplitOddEven (longBytes (mfmChecksum hl 20)) 4)
  let out := blit out (p + 52) (mfmSplitOddEven (longBytes (mfmChecksum sd sectorDataBytes)) 4)
  blit out (p + 60) (mfmSplitOddEven sd sectorDataBytes)

/-- The buffer `out` with the track encoded over its start, and the bit count. -/
def mfmEncodeTrack (data : Bytes) (trackNo : UInt8) (out : Bytes) : Bytes × Nat :=
  let out := blit out 0 (List.replicate trackBytes 0)
  let out := (List.range sectors).foldl (mfmEncodeSector data trackNo) out
  (mfmFillClockBits out trackBytes, trackBits)

-- ---------------------------------------------------------------------------
-- The decoder
-- ---------------------------------------------------------------------------

structure DecodeResult where
  found : UInt32
  badChecksums : UInt16
  foreignSectors : UInt16
  trackNo : UInt8
  trackNoConsistent : Bool
  firstSyncBit : UInt32
  lastEndBit : UInt32
  firstId : UInt8
  lastId : UInt8
  deriving DecidableEq, Repr

/-- What the decoder's loop carries from candidate to candidate. -/
structure DecodeState where
  out : DecodeResult
  haveTrackNo : Bool
  adfOut : Bytes
  deriving DecidableEq, Repr

def secBodyBytes : Nat := sectorMfmBytes - 8

def bodyBits : Nat := secBodyBytes * 8

def headerBe32 (b : Bytes) : UInt32 := long (b.getD 0 0) (b.getD 1 0) (b.getD 2 0) (b.getD 3 0)

/-- `n` bytes of `m`, starting `bit` bits in. -/
def realign (m : Bytes) (bit n : Nat) : Bytes :=
  if bit % 8 = 0 then slice m (bit / 8) n
  else (List.range n).map fun i =>
    (m.getD (bit / 8 + i) 0 <<< UInt8.ofNat (bit % 8)) |||
      (m.getD (bit / 8 + i + 1) 0 >>> UInt8.ofNat (8 - bit % 8))

/-- The shift register after bit `b`. -/
def shiftIn (mfm : Bytes) (b : Nat) (sr : UInt32) : UInt32 :=
  (sr <<< 1) ||| (((mfm.getD (b / 8) 0).toUInt32 >>> UInt32.ofNat (7 - b % 8)) &&& 1)

/-- The header and the data of a sector body, `none` when a checksum fails. -/
def readBody (sec : Bytes) : Option (Bytes × Bytes) :=
  let header := mfmJoinOddEven sec 4
  let label := mfmJoinOddEven (sec.drop 8) 16
  let hdrsumRaw := mfmJoinOddEven (sec.drop 40) 4
  let datsumRaw := mfmJoinOddEven (sec.drop 48) 4
  let data := mfmJoinOddEven (sec.drop 56) sectorDataBytes
  let headerAndLabel := header ++ label
  if mfmChecksum headerAndLabel 20 = headerBe32 hdrsumRaw ∧
      mfmChecksum data sectorDataBytes = headerBe32 datsumRaw then some (header, data)
  else none

/-- The report after a verified sector's header: the first one sets the track
number, and a later one that differs makes it inconsistent. -/
def DecodeResult.noteHeader (out : DecodeResult) (haveTrackNo : Bool) (header : Bytes)
    (body : Nat) : DecodeResult :=
  let sectorId := header.getD 2 0
  let out :=
    if !haveTrackNo then
      { out with
        trackNo := header.getD 1 0, firstSyncBit := UInt32.ofNat (body - 32), firstId := sectorId }
    else if header.getD 1 0 ≠ out.trackNo then { out with trackNoConsistent := false }
    else out
  { out with lastId := sectorId, lastEndBit := UInt32.ofNat (body + bodyBits) }

/-- A verified sector taken up: the first good copy of its data wins. -/
def DecodeState.accept (st : DecodeState) (header data : Bytes) (body : Nat) : DecodeState :=
  let sectorId := header.getD 2 0
  let out := st.out.noteHeader st.haveTrackNo header body
  let bit := (1 : UInt32) <<< sectorId.toUInt32
  if out.found &&& bit = 0 then
    { out := { out with found := out.found ||| bit }
      haveTrackNo := true
      adfOut := blit st.adfOut (sectorId.toNat * sectorDataBytes) data }
  else { st with out := out, haveTrackNo := true }

/-- The candidate whose body starts at bit `body`: whether it earns the long
stride, and the state after it. -/
def DecodeState.candidate (st : DecodeState) (mfm : Bytes) (nsec body : Nat) :
    Bool × DecodeState :=
  match readBody (realign mfm body secBodyBytes) with
  | none => (false, { st with out := { st.out with badChecksums := st.out.badChecksums + 1 } })
  | some (header, data) =>
    if (header.getD 2 0).toNat ≥ nsec then
      (false, { st with out := { st.out with foreignSectors := st.out.foreignSectors + 1 } })
    else (true, st.accept header data body)

/-- The search from bit `b` on. -/
def decodeBits (mfm : Bytes) (nsec b : Nat) (sr : UInt32) (st : DecodeState) : DecodeState :=
  if b < mfm.length * 8 then
    let sr := shiftIn mfm b sr
    if b < 31 ∨ sr ≠ 0x44894489 then decodeBits mfm nsec (b + 1) sr st
    else
      let body := b + 1
      if body + bodyBits > mfm.length * 8 then st
      else
        let (good, st) := st.candidate mfm nsec body
        if good then decodeBits mfm nsec (body + bodyBits) 0 st
        else decodeBits mfm nsec (b + 1) sr st
  else st
termination_by mfm.length * 8 - b
decreasing_by all_goals omega

def emptyResult : DecodeResult := ⟨0, 0, 0, 0, true, 0, 0, 0, 0⟩

/-- The report and the sector data, over what `adfOut` held. -/
def mfmDecodeTrackRn (mfm adfOut : Bytes) (nsec : Nat) : DecodeResult × Bytes :=
  if nsec = 0 ∨ nsec > mfmMaxSectors then (emptyResult, adfOut)
  else
    let st := decodeBits mfm nsec 0 0 ⟨emptyResult, false, adfOut⟩
    (st.out, st.adfOut)

end WebAdf.Firmware

/-!
# ADF track to MFM on the board

The encoder for both densities, which the board runs on every read of a
high-density disk.
-/

namespace WebAdf.Firmware

open Lib Adfmfm

def adfMfmHdTrackBytes : Nat := 25336

def adfMfmTrackBytes (nsec : Nat) : Nat :=
  if nsec = sectors then trackBytes else if nsec = hdSectors then adfMfmHdTrackBytes else 0

/-- The loop reads whole longs, and `n` is 20 or 512. -/
def adfMfmChecksum (src : Bytes) (n : Nat) : UInt32 := foldedXor (src.take n)

def adfMfmSplitOddEven (src : Bytes) (n : Nat) : Bytes := splitLanes (src.take n)

def adfMfmFillClockBits (t : Bytes) (n : Nat) : Bytes := fillClocks 0 (t.take n) ++ t.drop n

/-- Sector `n` of the `nsec` of a track, the first at `lead`. -/
def adfMfmEncodeSector (data : Bytes) (nsec trackNo lead : Nat) (out : Bytes) (n : Nat) : Bytes :=
  let sd := data.drop (n * sectorDataBytes)
  let hl : Bytes :=
    [0xff, UInt8.ofNat trackNo, UInt8.ofNat n, UInt8.ofNat (nsec - n)] ++ List.replicate 16 0
  let p := lead + n * sectorMfmBytes
  let out := blit out p sync
  let out := blit out (p + 4) (adfMfmSplitOddEven hl 4)
  let out := blit out (p + 12) (adfMfmSplitOddEven (hl.drop 4) 16)
  let out := blit out (p + 44) (adfMfmSplitOddEven (longBytes (adfMfmChecksum hl 20)) 4)
  let out := blit out (p + 52)
    (adfMfmSplitOddEven (longBytes (adfMfmChecksum sd sectorDataBytes)) 4)
  blit out (p + 60) (adfMfmSplitOddEven sd sectorDataBytes)

/-- The buffer `out` with the track encoded over its start, and the byte count:
zero, and nothing written, where `nsec` or `trackNo` is out of range. -/
def adfMfmEncodeTrack (data : Bytes) (nsec trackNo : Nat) (out : Bytes) : Bytes × Nat :=
  let total := adfMfmTrackBytes nsec
  if total = 0 ∨ trackNo ≥ tracks then (out, 0)
  else
    let out := blit out 0 (List.replicate total 0)
    let lead := 256 * (nsec / sectors)
    let out := (List.range nsec).foldl (adfMfmEncodeSector data nsec trackNo lead) out
    (adfMfmFillClockBits out total, total)

end WebAdf.Firmware
