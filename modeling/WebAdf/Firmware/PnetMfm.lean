import WebAdf.Constants
import WebAdf.Firmware.Mfm
import WebAdf.Lib.Endian

/-!
# The network link's byte codecs

MFM one byte at a time, the XOR checksum of 16-bit words and the run-length
decoder.
-/

namespace WebAdf.Firmware

/-- The MFM word of a byte, after the word `prev`. -/
def mfmWord (prev : UInt16) (b : UInt8) : UInt16 :=
  let w := ((b.toUInt16 &&& 0xaa) <<< 7) ||| (b.toUInt16 &&& 0x55)
  let nb := (w <<< 1) ||| (w >>> 1) ||| (prev <<< 15)
  w ||| (~~~nb &&& 0xaaaa)

/-- The MFM bytes, and the last word for the next chunk. -/
def pnetMfmEncode (last : UInt16) : Bytes → Bytes × UInt16
  | [] => ([], last)
  | b :: src =>
    let w := mfmWord last b
    let (out, last) := pnetMfmEncode w src
    ((w >>> 8).toUInt8 :: w.toUInt8 :: out, last)

/-- A byte from the two of its MFM word. -/
def mfmByte (hi lo : UInt8) : UInt8 :=
  let d := ((hi.toUInt16 <<< 8) ||| lo.toUInt16) &&& 0x5555
  ((d >>> 7) ||| d).toUInt8

def pnetMfmDecode (src : Bytes) (n : Nat) : Bytes :=
  (List.range n).map fun i => mfmByte (src.getD (2 * i) 0) (src.getD (2 * i + 1) 0)

/-- XOR of the big-endian words; an odd last byte is a high half. -/
def xorWords : UInt16 → Bytes → UInt16
  | c, hi :: lo :: rest => xorWords (c ^^^ ((hi.toUInt16 <<< 8) ||| lo.toUInt16)) rest
  | c, [hi] => c ^^^ (hi.toUInt16 <<< 8)
  | c, [] => c

def pnetChecksum (p : Bytes) : UInt16 := xorWords 0 p

/-- The decoder from the input left and what it has written: whether the input
is whole and within `cap`, and everything written. -/
def rleDecodeFrom (cap : Nat) (written : Bytes) : Bytes → Bool × Bytes
  | [] => (true, written)
  | c :: src =>
    let k := c.toNat &&& 0x7f
    if k = 0 then rleDecodeFrom cap written src
    else if k > cap - written.length then (false, written)
    else if c &&& 0x80 ≠ 0 then
      if k > src.length then (false, written)
      else rleDecodeFrom cap (written ++ src.take k) (src.drop k)
    else
      match src with
      | [] => (false, written)
      | b :: src => rleDecodeFrom cap (written ++ List.replicate k b) src
termination_by src => src.length
decreasing_by all_goals simp only [List.length_cons, List.length_drop]; omega

/-- The decoded length, `none` for -1, and what was written. -/
def pnetRleDecode (src : Bytes) (cap : Nat) : Option Nat × Bytes :=
  let (ok, written) := rleDecodeFrom cap [] src
  (if ok then some written.length else none, written)

end WebAdf.Firmware

/-!
# The network link's wire format

The batch header, the search for the sync word at any bit, the shift to a byte
boundary, and the iterator over a payload's frames.
-/

namespace WebAdf.Firmware

open Lib

def pnetMagic : Nat := 0x5450
def pnetModeEthernet : UInt8 := 3
def pnetHdrBytes : Nat := 12
def pnetHdrMfmBytes : Nat := 24
def pnetLeadBytes : Nat := 120
def pnetTrailBytes : Nat := 120
def pnetEthMtu : Nat := 1518
def pnetMaxFrames : Nat := 20
def pnetToAmigaMaxPayload : Nat := 16128

inductive PnetDir
  | toBoard
  | toAmiga
  deriving DecidableEq, Repr

inductive PnetErr
  | short
  | magic
  | mode
  | size
  | checksum
  | frames
  | frameSize
  | rle
  | full
  | lz4
  deriving DecidableEq, Repr

structure PnetHdr where
  checksum : UInt16
  dataSize : UInt16
  compressedSize : UInt16
  mode : UInt8
  compressed : UInt8
  amigaCtr : UInt8
  picoCtr : UInt8
  deriving DecidableEq, Repr

def hdrPack (h : PnetHdr) : Bytes :=
  put16 pnetMagic ++ put16 h.checksum.toNat ++ put16 h.dataSize.toNat ++
    put16 h.compressedSize.toNat ++ [h.mode, h.compressed, h.amigaCtr, h.picoCtr]

def get16 (b : Bytes) (i : Nat) : Nat := be16 (b.getD i 0) (b.getD (i + 1) 0)

/-- The fields, and whether the magic is right. -/
def hdrUnpack (b : Bytes) : PnetHdr × Bool :=
  ({ checksum := UInt16.ofNat (get16 b 2), dataSize := UInt16.ofNat (get16 b 4)
     compressedSize := UInt16.ofNat (get16 b 6), mode := b.getD 8 0, compressed := b.getD 9 0
     amigaCtr := b.getD 10 0, picoCtr := b.getD 11 0 },
    get16 b 0 == pnetMagic)

/-- The sync words and the header. -/
def pnetPutHdrToAmiga (h : PnetHdr) : Bytes :=
  [0x44, 0x89, 0x44, 0x89] ++ (pnetMfmEncode 0 (hdrPack h)).1

def pnetParseHdrToAmigaAs (b : Bytes) (withPayload : Bool) (mode : UInt8) :
    Except PnetErr PnetHdr := do
  if b.length < pnetHdrMfmBytes then throw .short
  let (h, good) := hdrUnpack (pnetMfmDecode b pnetHdrBytes)
  if !good then throw .magic
  if h.mode ≠ mode then throw .mode
  if !withPayload then return h
  let sent := if h.compressed ≠ 0 then h.compressedSize.toNat else h.dataSize.toNat
  if sent &&& 1 ≠ 0 then throw .size
  if pnetHdrMfmBytes + sent > b.length then throw .short
  if pnetChecksum (slice b pnetHdrMfmBytes sent) ≠ h.checksum then throw .checksum
  return h

def pnetParseHdrToAmiga (b : Bytes) (withPayload : Bool) : Except PnetErr PnetHdr :=
  pnetParseHdrToAmigaAs b withPayload pnetModeEthernet

-- ---------------------------------------------------------------------------
-- Alignment
-- ---------------------------------------------------------------------------

/-- The search over the bits below `limit`, from `bit` on. -/
def findSyncFrom (b : Bytes) (limit bit : Nat) (reg : UInt32) : Option Nat :=
  if bit < limit then
    let reg := shiftIn b bit reg
    if 32 ≤ bit + 1 ∧ reg = 0x44894489 then some (bit + 1)
    else findSyncFrom b limit (bit + 1) reg
  else none
termination_by limit - bit

/-- The bit just past the sync words, when they start in the first `scan` bytes. -/
def pnetFindSync (b : Bytes) (scan : Nat) : Option Nat :=
  let limit := if scan + 4 < b.length then scan + 4 else b.length
  findSyncFrom b (limit * 8) 0 0

/-- `b` moved left by `bits` in place, and how many bytes are whole. -/
def pnetShiftLeft (b : Bytes) (bits : Nat) : Bytes × Nat :=
  if bits / 8 ≥ b.length then (b, 0)
  else
    let valid := b.length - bits / 8 - (if bits % 8 ≠ 0 then 1 else 0)
    (realign b bits valid ++ b.drop valid, valid)

-- ---------------------------------------------------------------------------
-- The frames of a payload
-- ---------------------------------------------------------------------------

structure FrameIter where
  p : Bytes
  pos : Nat
  dir : PnetDir
  count : Nat
  i : Nat

def pnetFrameIterInit (p : Bytes) (dir : PnetDir) : Except PnetErr FrameIter :=
  let it : FrameIter := { p := p, pos := 4, dir := dir, count := 0, i := 0 }
  if p.length = 0 then .ok it
  else if p.length < 4 then .error .frames
  else .ok { it with count := ((pnetMfmDecode p 2).getD 0 0).toNat }

/-- One frame read: the error if any, the iterator after it, and what was written
to `out`. -/
structure FrameRead where
  err : Option PnetErr
  it : FrameIter
  out : Bytes

def FrameIter.fail (it : FrameIter) (err : PnetErr) : FrameRead := ⟨some err, it, []⟩

/-- Past a frame of `size` bytes at `off`, its pad counted. -/
def FrameIter.advance (it : FrameIter) (off size : Nat) : FrameIter :=
  let next := off + size + (size &&& 1)
  { it with pos := if next > it.p.length then it.p.length else next, i := it.i + 1 }

def pnetFrameIterNext (it : FrameIter) (cap : Nat) : FrameRead :=
  if it.i ≥ it.count then it.fail .frames
  else if 8 > it.p.length - it.pos then it.fail .frames
  else
    let ch := pnetMfmDecode (it.p.drop it.pos) 4
    let off := it.pos + 8
    let field := get16 ch 0
    let os := get16 ch 2
    let size := field &&& 0x7fff
    let rle := if it.dir = .toBoard then field &&& 0x8000 ≠ 0 else field &&& 0x8000 = 0
    if size > it.p.length - off then it.fail .frames
    else if os = 0 ∨ os > pnetEthMtu then it.fail .frameSize
    else if os > cap then it.fail .full
    else if rle then
      let (len, out) := pnetRleDecode (slice it.p off size) os
      if len ≠ some os then ⟨some .rle, it, out⟩ else ⟨none, it.advance off size, out⟩
    else if size ≠ 2 * os then it.fail .frameSize
    else ⟨none, it.advance off size, pnetMfmDecode (it.p.drop off) os⟩

end WebAdf.Firmware
