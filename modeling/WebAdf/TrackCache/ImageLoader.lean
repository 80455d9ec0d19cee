import WebAdf.Lib.Endian
import WebAdf.TrackCache.PsramImage

/-!
# The image loader

A container's bytes come in pieces of any size. The header and each length are
put together byte by byte, and payload goes straight to its track's place.
-/

namespace WebAdf.TrackCache

open Lib

def imageMagic : Nat := 0x464d4657
def imageVersion : Nat := 1
def wfadMagic : Nat := 0x44414657
def wfadVersion : Nat := 1
def wfadTracks : Nat := 160
def wfadSectors : Nat := 22
def wfadSectorsDd : Nat := 11
def imageHeaderBytes : Nat := 16

inductive LoadState
  | hdr | len | payload | pad | err | eof
  deriving DecidableEq, Repr

/-- `hdr` and `lenb` are the bytes got of each. -/
structure Loader where
  st : LoadState
  slot : Nat
  hdr : Bytes
  lenb : Bytes
  track : Nat
  trackCount : Nat
  bits : Nat
  payloadBytes : Nat
  payloadGot : Nat
  padLeft : Nat
  adf : Bool
  deriving DecidableEq, Repr

def Psram.missingCount (p : Psram) (slot : Nat) : Nat :=
  if !p.havePsram || !p.slotOk slot then tracks
  else ((List.range tracks).filter fun t : Nat => p.state slot t == .absent).length

/-- The bytes that fill up the last word. -/
def padding (n : Nat) : Nat := (4 - n % 4) % 4

namespace Loader

-- ---------------------------------------------------------------------------
-- One part
-- ---------------------------------------------------------------------------

/-- The bytes that are missing to what is being read. -/
def want (l : Loader) : Nat :=
  match l.st with
  | .hdr => imageHeaderBytes - l.hdr.length
  | .len => 4 - l.lenb.length
  | .payload => l.payloadBytes - l.payloadGot
  | .pad => l.padLeft
  | .err | .eof => 0

/-- Some of them. -/
def absorb (l : Loader) (p : Psram) (d : Bytes) : Loader × Psram :=
  match l.st with
  | .hdr => ({ l with hdr := l.hdr ++ d }, p)
  | .len => ({ l with lenb := l.lenb ++ d }, p)
  | .payload =>
    ({ l with payloadGot := l.payloadGot + d.length }, p.writeAt l.slot l.track l.payloadGot d)
  | .pad => ({ l with padLeft := l.padLeft - d.length }, p)
  | .err | .eof => (l, p)

/-- The sectors a track of the WFAD a slot takes, and what it makes of the
slot. -/
def geometry (slot : Nat) : Nat := if slot = slotNet then wfadSectorsDd else wfadSectors

def adfKind (slot : Nat) : SlotKind := if slot = slotNet then .adfDd else .adfHd

/-- Word `i` of the header. -/
@[irreducible] def word (l : Loader) (i : Nat) : Nat := le32 (l.hdr.drop (4 * i))

/-- The one geometry the slot takes. -/
def isWfad (l : Loader) : Bool :=
  l.word 1 == wfadVersion && l.word 2 == wfadTracks && l.word 3 == geometry l.slot

def isWfmf (l : Loader) : Bool := l.word 0 == imageMagic && l.word 1 == imageVersion

def counted (l : Loader) : Loader := { l with trackCount := l.word 2 }

def countOk (l : Loader) : Bool := 0 < l.trackCount && l.trackCount ≤ tracks

def startAdf (l : Loader) : Loader := { l with
  adf := true
  trackCount := wfadTracks
  track := 0
  bits := l.word 3 * 512 * 8
  payloadBytes := l.word 3 * 512
  payloadGot := 0
  st := .payload }

def startTracks (l : Loader) : Loader := { l with track := 0, st := .len, lenb := [] }

/-- The header is there. -/
def header (l : Loader) (p : Psram) : Loader × Psram :=
  if l.word 0 == wfadMagic then
    if !l.isWfad then ({ l with st := .err }, p)
    else (l.startAdf, p.setSlotKind l.slot (adfKind l.slot))
  else if !l.isWfmf then ({ l with st := .err }, p)
  else if l.slot == slotNet then ({ l with st := .err }, p)
  else if !l.counted.countOk then ({ l.counted with st := .err }, p)
  else (l.counted.startTracks, p)

/-- A track's length is there. -/
def length (l : Loader) : Loader :=
  let l := { l with bits := le32 l.lenb }
  if l.bits > trackMaxBytes * 8 then { l with st := .err }
  else
    let l := { l with payloadBytes := (l.bits + 7) / 8 }
    if l.payloadBytes > trackMaxBytes then { l with st := .err }
    else { l with payloadGot := 0, padLeft := padding l.payloadBytes, st := .payload }

/-- On to the next track, or the end. -/
def nextTrack (l : Loader) : Loader :=
  let l := { l with track := l.track + 1 }
  if l.track ≥ l.trackCount then { l with st := .eof } else l

/-- A track's payload is there, and is committed. -/
def payloadDone (l : Loader) : Loader :=
  if l.adf then { l with payloadGot := 0 }.nextTrack
  else if l.padLeft ≠ 0 then { l with st := .pad, lenb := [] }
  else { l with st := .len, lenb := [] }.nextTrack

/-- What is being read is all there. -/
def advance (l : Loader) (p : Psram) : Loader × Psram :=
  match l.st with
  | .hdr => l.header p
  | .len => (l.length, p)
  | .payload => (l.payloadDone, p.commit l.slot l.track l.bits)
  | .pad => ({ l with st := .len, lenb := [] }.nextTrack, p)
  | .err | .eof => (l, p)

-- ---------------------------------------------------------------------------
-- The loop
-- ---------------------------------------------------------------------------

/-- One turn of the loop, and the bytes that are left. -/
def pass (l : Loader) (p : Psram) (d : Bytes) : Loader × Psram × Bytes :=
  let take := min d.length l.want
  let (l, p) := l.absorb p (d.take take)
  if 0 < l.want then (l, p, d.drop take)
  else
    let (l, p) := l.advance p
    (l, p, d.drop take)

def stopped (l : Loader) (d : Bytes) : Bool := d.isEmpty || l.st == .err || l.st == .eof

/-- A turn takes a byte, but for the one over an empty track's payload. -/
def sinkLoop : Nat → Loader → Psram → Bytes → Loader × Psram × Bytes
  | 0, l, p, d => (l, p, d)
  | fuel + 1, l, p, d =>
    if l.stopped d then (l, p, d)
    else
      let (l, p, d) := l.pass p d
      sinkLoop fuel l p d

/-- A byte after a WFAD's last track is one too many. -/
def ended (l : Loader) (d : Bytes) : Loader :=
  if l.adf && l.st == .eof && !d.isEmpty then { l with st := .err } else l

def sink (l : Loader) (p : Psram) (d : Bytes) : Loader × Psram :=
  let (l, p, d) := sinkLoop (2 * d.length + 1) l p d
  (l.ended d, p)

-- ---------------------------------------------------------------------------
-- A parse
-- ---------------------------------------------------------------------------

def parseBegin (p : Psram) (slot : Nat) : Loader × Psram :=
  ({ st := if p.havePsram then .hdr else .err
     slot := slot
     hdr := []
     lenb := []
     track := 0
     trackCount := 0
     bits := 0
     payloadBytes := 0
     payloadGot := 0
     padLeft := 0
     adf := false }, p.resetSlot slot)

/-- A container that is not whole leaves the slot empty. -/
def parseEnd (l : Loader) (p : Psram) : Bool × Psram :=
  let ok := l.st == .eof && p.missingCount l.slot == 0
  (ok, if ok then p else p.resetSlot l.slot)

/-- `image_parse_begin`, `image_parse_feed` for each piece, and
`image_parse_end`. -/
def parse (p : Psram) (slot : Nat) (pieces : List Bytes) : Bool × Psram :=
  let (l, p) := pieces.foldl (fun (l, p) d => l.sink p d) (parseBegin p slot)
  l.parseEnd p

end Loader

end WebAdf.TrackCache
