import WebAdf.Archive.DmsUnpack

/-!
# Reading a DMS archive

`readDms`: the archive's header, its track records one after another, and the
image put together from what the disk's tracks unpack to.
-/

namespace WebAdf.Archive

open Lib

def headLen : Nat := 56
def thLen : Nat := 20
def adfBytes : Nat := 901120

/-- A word at a byte of an array. -/
def word (b : Bytes) (at_ : Nat) : Nat := be16 (b.getD at_ 0) (b.getD (at_ + 1) 0)

-- ---------------------------------------------------------------------------
-- Checksums
-- ---------------------------------------------------------------------------

/-- An entry of `CRC_TABLE`. -/
def crcEntry (i : Nat) : Nat :=
  (List.range 8).foldl (fun c _ => if c &&& 1 = 1 then (c >>> 1) ^^^ 0xa001 else c >>> 1) i

def crcTable : List Nat := (List.range 256).map crcEntry

def crcByte (crc : Nat) (x : UInt8) : Nat :=
  (crcTable.getD ((crc ^^^ x.toNat) &&& 0xff) 0 ^^^ ((crc >>> 8) &&& 0xff)) &&& 0xffff

def crc16 (b : Bytes) : Nat := b.foldl crcByte 0

/-- A sum of the unpacked bytes. -/
def checksum (b : Bytes) : Nat := b.foldl (fun u x => (u + x.toNat) &&& 0xffff) 0

-- ---------------------------------------------------------------------------
-- Results
-- ---------------------------------------------------------------------------

/-- FILE_ID.DIZ is kept as the bytes of its text. -/
structure DmsInfo where
  modes : List String
  from_ : Nat
  to_ : Nat
  tracks : Nat
  fileId : Option Bytes

def modeNames : List String := ["NOCOMP", "SIMPLE", "QUICK", "MEDIUM", "DEEP", "HEAVY1", "HEAVY2"]

/-- A track record's header. -/
structure TrackHeader where
  number : Nat
  pklen1 : Nat
  pklen2 : Nat
  unpklen : Nat
  flags : Nat
  cmode : Nat
  usum : Nat
  dcrc : Nat
  deriving DecidableEq

/-- The fields of a header, as they stand. -/
def trackHeader (th : Bytes) : TrackHeader where
  number := word th 2
  pklen1 := word th 6
  pklen2 := word th 8
  unpklen := word th 10
  flags := (th.getD 12 0).toNat
  cmode := (th.getD 13 0).toNat
  usum := word th 14
  dcrc := word th 16

/-- A track of the disk, not a banner or a boot block of 1024 bytes. -/
def TrackHeader.isDiskTrack (h : TrackHeader) : Bool := h.number < 80 && h.unpklen > 2048

-- ---------------------------------------------------------------------------
-- The loop
-- ---------------------------------------------------------------------------

/-- What the loop of `decode` keeps; each unpacked track stands with its
record's number. -/
structure Reading where
  state : DmsState
  b1 : Bytes
  b2 : Bytes
  out : List (Nat × Bytes)
  modes : List String
  fileId : Option Bytes
  total : Nat
  expectNumber : Option Nat
  at_ : Nat

def Reading.start : Reading where
  state := .new
  b1 := List.replicate trackBufferLen 0
  b2 := List.replicate trackBufferLen 0
  out := []
  modes := []
  fileId := none
  total := 0
  expectNumber := none
  at_ := headLen

def refuse (reason : String) : Run α := .error (.refused reason)

/-- The record at `at_`: its header, with the checks made before its data. -/
def readHeader (src : Bytes) (at_ : Nat) : Run TrackHeader := do
  let th := slice src at_ thLen
  if th.getD 0 0 ≠ 0x54 ∨ th.getD 1 0 ≠ 0x52 then refuse s!"expected a track header at byte {at_}" else
  if crc16 (th.take (thLen - 2)) ≠ word th (thLen - 2) then
    refuse s!"track header checksum failed at byte {at_}"
  else
  let h := trackHeader th
  if h.pklen1 > trackBufferLen ∨ h.pklen2 > trackBufferLen ∨ h.unpklen > trackBufferLen then
    refuse s!"track {h.number} declares an impossible length"
  else if at_ + thLen + h.pklen1 > src.length then refuse s!"track {h.number} is truncated"
  else if h.cmode > 6 then refuse s!"track {h.number} uses unknown compression mode {h.cmode}"
  else .ok h

/-- What `trim` takes off. -/
def isBlank (c : UInt8) : Bool := (0x09 ≤ c && c ≤ 0x0d) || c == 0x20 || c == 0xa0

def trimBytes (b : Bytes) : Bytes := ((b.dropWhile isBlank).reverse.dropWhile isBlank).reverse

/-- The text of FILE_ID.DIZ, without the NULs behind it. -/
def fileIdText (b : Bytes) : Option Bytes :=
  let text := trimBytes (b.reverse.dropWhile (· == 0)).reverse
  if text = [] then none else some text

def Reading.resetUnless (flags : Nat) (r : Reading) : Reading :=
  if flags &&& 1 = 0 then { r with state := r.state.reset } else r

/-- RLE over what an unpacker left in `b2`. -/
def secondPass (b1 b2 : Bytes) (unpklen : Nat) : Bool × Bytes × Bytes :=
  let (failed, b1) := unpackRle b2 b1 unpklen
  (failed, b1, if failed then b2 else blit b2 0 (b1.take unpklen))

/-- The switch over the modes: whether it failed, the state and the buffers. -/
def unpack (h : TrackHeader) (s : DmsState) (b1 b2 : Bytes) : Run (Bool × DmsState × Bytes × Bytes) :=
  match h.cmode with
  | 0 => .ok (false, s, b1, blit b2 0 (b1.take h.unpklen))
  | 1 =>
    let (failed, b2) := unpackRle b1 b2 h.unpklen
    .ok (failed, s, b1, b2)
  | 2 =>
    let (s, b2) := unpackQuick s b1 b2 h.pklen2
    .ok ((secondPass b1 b2 h.unpklen).1, s, (secondPass b1 b2 h.unpklen).2)
  | 3 =>
    let (s, b2) := unpackMedium s b1 b2 h.pklen2
    .ok ((secondPass b1 b2 h.unpklen).1, s, (secondPass b1 b2 h.unpklen).2)
  | 4 => do
    let (s, b2) ← unpackDeep s b1 b2 h.pklen2
    .ok ((secondPass b1 b2 h.unpklen).1, s, (secondPass b1 b2 h.unpklen).2)
  | _ => do
    let flags := if h.cmode = 5 then h.flags &&& 7 else h.flags ||| 8
    let (failed, s, b2) ← unpackHeavy s b1 b2 flags h.pklen2
    if !failed && h.flags &&& 4 ≠ 0 then
      .ok ((secondPass b1 b2 h.unpklen).1, s, (secondPass b1 b2 h.unpklen).2)
    else .ok (failed, s, b1, b2)

def addMode (modes : List String) (mode : String) : List String :=
  if modes.contains mode then modes else modes ++ [mode]

/-- A record out of order would land at the wrong offset. -/
def checkOrder (expectNumber : Option Nat) (number : Nat) : Run Unit :=
  match expectNumber with
  | some expected =>
    if number ≠ expected then refuse s!"tracks are out of order (expected {expected}, got {number})"
    else .ok ()
  | none => .ok ()

/-- A track of the disk, its packed bytes in `b1`. -/
def diskTrack (h : TrackHeader) (r : Reading) : Run Reading := do
  checkOrder r.expectNumber h.number
  let (failed, state, b1, b2) ← unpack h r.state r.b1 r.b2
  if failed then refuse s!"track {h.number} could not be decompressed" else
  if checksum (b2.take h.unpklen) ≠ h.usum then
    refuse s!"track {h.number} decoded to the wrong checksum"
  else
  .ok (Reading.resetUnless h.flags
    { r with
      state := state
      b1 := b1
      b2 := b2
      modes := addMode r.modes (modeNames.getD h.cmode "")
      expectNumber := some (h.number + 1)
      out := r.out ++ [(h.number, b2.take h.unpklen)]
      total := r.total + h.unpklen })

/-- A record that is no track of the disk. -/
def otherTrack (h : TrackHeader) (r : Reading) : Reading :=
  let r := if h.number = 80 ∧ h.cmode = 0 ∧ h.unpklen ≤ 2048 then
      { r with fileId := fileIdText (r.b1.take (min h.pklen1 h.unpklen)) }
    else r
  r.resetUnless h.flags

/-- One round of the loop. -/
def readTrack (src : Bytes) (r : Reading) : Run Reading := do
  let h ← readHeader src r.at_
  let packed := slice src (r.at_ + thLen) h.pklen1
  let b1 := blit r.b1 0 packed
  let r := { r with b1 := b1, at_ := r.at_ + thLen + h.pklen1 }
  if crc16 (b1.take h.pklen1) ≠ h.dcrc then
    refuse s!"track {h.number} failed its data checksum -- the file is damaged"
  else if h.isDiskTrack then diskTrack h r
  else .ok (otherTrack h r)

/-- The loop; each round passes at least a header. -/
def readTracks (src : Bytes) : Nat → Reading → Run Reading
  | 0, r => .ok r
  | fuel + 1, r =>
    if r.at_ + thLen ≤ src.length then do
      let r ← readTrack src r
      readTracks src fuel r
    else .ok r

-- ---------------------------------------------------------------------------
-- The archive
-- ---------------------------------------------------------------------------

/-- The checks of the archive's header. -/
def checkHead (src : Bytes) : Run Unit :=
  if src.length < headLen then refuse "too short to be a DMS archive"
  else if src.take 4 ≠ [0x44, 0x4d, 0x53, 0x21] then refuse "not a DMS archive (no \"DMS!\" signature)"
  else if word src (headLen - 2) ≠ crc16 (slice src 4 (headLen - 6)) then
    refuse "DMS header checksum failed -- the file is damaged"
  else if word src 10 &&& 0x02 ≠ 0 then refuse "this DMS archive is password-protected"
  else .ok ()

/-- Every track an archive unpacks to. -/
def decodeTracks (src : Bytes) : Run Reading := do
  checkHead src
  readTracks src src.length .start

/-- The image, put together in the order of the records. -/
def decode (src : Bytes) : Run (Bytes × DmsInfo) := do
  let r ← decodeTracks src
  if r.out = [] then refuse "the archive contains no disk tracks"
  else if r.total ≠ adfBytes then
    refuse s!"decoded {r.total} bytes, not a standard {adfBytes}-byte DD disk ({r.out.length} tracks) -- HD and non-standard disks are not supported"
  else .ok (r.out.flatMap Prod.snd, ⟨r.modes, word src 16, word src 18, r.out.length, r.fileId⟩)

def readDms (src : Bytes) : Except String (Bytes × DmsInfo) :=
  match decode src with
  | .ok found => .ok found
  | .error (.refused reason) => .error reason
  | .error (.corrupt message) => .error s!"the archive is damaged ({message})"

end WebAdf.Archive
