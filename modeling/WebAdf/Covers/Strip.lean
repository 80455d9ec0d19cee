import WebAdf.Constants
import WebAdf.Lib.Ascii
import WebAdf.Lib.Endian
import WebAdf.Lib.Slice

/-!
# Cover metadata

A cover's bytes without the metadata an upload must not keep: three walkers, one a
format, each over what is left of the bytes. A walker that gives `none` leaves the
bytes as they are. The loops take the bytes' length as fuel, each step going on by one
byte at least.
-/

namespace WebAdf.Covers

open Lib

def asciiAt (b : Bytes) (i : Nat) (s : String) : Bool := slice b i s.length == ascii s

-- ---------------------------------------------------------------------------
-- JPEG
-- ---------------------------------------------------------------------------

/-- A 16-bit word of a TIFF, in its byte order. -/
def r16 (seg : Bytes) (little : Bool) (i : Nat) : Nat :=
  if little then be16 (seg.getD (i + 1) 0) (seg.getD i 0) else be16 (seg.getD i 0) (seg.getD (i + 1) 0)

def r32 (seg : Bytes) (little : Bool) (i : Nat) : Nat :=
  if little then be32 (seg.getD (i + 3) 0) (seg.getD (i + 2) 0) (seg.getD (i + 1) 0) (seg.getD i 0)
  else be32 (seg.getD i 0) (seg.getD (i + 1) 0) (seg.getD (i + 2) 0) (seg.getD (i + 3) 0)

/-- The entries of an IFD from `e` on, until one is the Orientation. -/
def orientationEntry (seg : Bytes) (little : Bool) : Nat → Nat → Option Nat
  | 0, _ => none
  | n + 1, e =>
    if seg.length < e + 12 then none
    else if r16 seg little e = 0x0112 then
      let v := r16 seg little (e + 8)
      if 1 ≤ v ∧ v ≤ 8 then some v else none
    else orientationEntry seg little n (e + 12)

/-- The Orientation of an Exif payload, past the marker's length. -/
def exifOrientation (seg : Bytes) : Option Nat :=
  if !asciiAt seg 0 "Exif" || seg.getD 4 1 ≠ 0 || seg.getD 5 1 ≠ 0 || seg.length < 14 then none
  else
    let little := seg.getD 6 0 == 0x49 && seg.getD 7 0 == 0x49
    if !little && !(seg.getD 6 0 == 0x4d && seg.getD 7 0 == 0x4d) then none
    else if r16 seg little 8 ≠ 0x2a then none
    else
      let ifd := 6 + r32 seg little 10
      if seg.length < ifd + 2 then none else orientationEntry seg little (r16 seg little ifd) (ifd + 2)

/-- A whole Exif segment with one entry, the Orientation. -/
def orientationSegment (value : Nat) : Bytes :=
  [0xff, 0xe1, 0x00, 0x22,
    0x45, 0x78, 0x69, 0x66, 0x00, 0x00,
    0x4d, 0x4d, 0x00, 0x2a, 0x00, 0x00, 0x00, 0x08,
    0x00, 0x01,
    0x01, 0x12, 0x00, 0x03, 0x00, 0x00, 0x00, 0x01, 0x00, UInt8.ofNat value, 0x00, 0x00,
    0x00, 0x00, 0x00, 0x00]

def isRestart (m : UInt8) : Bool := 0xd0 ≤ m && m ≤ 0xd7

/-- Fill bytes before a marker. -/
def skipFill : Bytes → Bytes
  | 0xff :: 0xff :: rest => skipFill (0xff :: rest)
  | b => b

/-- Past the entropy-coded data: what follows from its marker on. -/
def entropyEnd : Bytes → Option Bytes
  | f :: n :: rest =>
    if f ≠ 0xff then entropyEnd (n :: rest)
    else if n = 0x00 || isRestart n then entropyEnd rest
    else if n = 0xff then entropyEnd (n :: rest)
    else some (f :: n :: rest)
  | _ => none

/-- Past a segment, and past the data where it is an SOS: from the next marker on. -/
def nextMarker (m : UInt8) (b : Bytes) : Option Bytes :=
  (if m = 0xda then entropyEnd b else some b).map skipFill

/-- From the SOS marker: what follows the EOI that ends the scans. -/
def jpegEoiEnd : Nat → Bytes → Option Bytes
  | 0, _ => none
  | fuel + 1, b =>
    match b with
    | _ :: m :: hi :: lo :: rest =>
      let len := be16 hi lo
      if len < 2 || rest.length + 2 < len then none
      else match nextMarker m (rest.drop (len - 2)) with
        | some (0xff :: m' :: rest') =>
          if m' = 0xd9 then some rest'
          else if m' = 0x00 || m' = 0x01 || isRestart m' then none
          else jpegEoiEnd fuel (0xff :: m' :: rest')
        | _ => none
    | _ => none

/-- The head so far, the Orientation met, and where in the head it goes. -/
structure Head where
  parts : List Bytes
  orientation : Option Nat
  orientationAt : Option Nat

def Head.push (h : Head) (part : Bytes) : Head := { h with parts := h.parts ++ [part] }

/-- The head with the Orientation written back, but for the default. -/
def Head.out (h : Head) : List Bytes :=
  let at_ := h.orientationAt.getD h.parts.length
  match h.orientation with
  | some o => if o ≠ 1 then h.parts.take at_ ++ [orientationSegment o] ++ h.parts.drop at_ else h.parts
  | none => h.parts

/-- The scans up to and with their EOI; all of them where there is none. -/
def scansKept (scans : Bytes) : Bytes :=
  match jpegEoiEnd scans.length scans with
  | some rest => scans.take (scans.length - rest.length)
  | none => scans

def finish (h : Head) (scans : Bytes) : Bytes := (h.out ++ [scansKept scans]).flatten

def jpegHead : Nat → Bytes → Head → Option Bytes
  | 0, _, _ => none
  | fuel + 1, b, h =>
    match b with
    | f :: _ :: _ =>
      if f ≠ 0xff then none
      else match skipFill b with
        | f' :: m :: rest =>
          if m = 0xda then some (finish h (f' :: m :: rest))
          else if m = 0xd9 then none
          else if m = 0x01 || isRestart m then jpegHead fuel rest (h.push [f', m])
          else match rest with
            | hi :: lo :: after =>
              let len := be16 hi lo
              if len < 2 || after.length + 2 < len then none
              else if m = 0xe1 || m = 0xed then
                let orientation :=
                  if m = 0xe1 then h.orientation.or (exifOrientation (after.take (len - 2)))
                  else h.orientation
                jpegHead fuel (after.drop (len - 2)) { h with orientation := orientation }
              else
                let at_ := if m = 0xe0 then h.orientationAt else h.orientationAt.or (some h.parts.length)
                jpegHead fuel (after.drop (len - 2))
                  ({ h with orientationAt := at_ }.push (f' :: m :: hi :: lo :: after.take (len - 2)))
            | _ => none
        | _ => none
    | _ => none

def stripJpeg (b : Bytes) : Bytes :=
  match b with
  | 0xff :: 0xd8 :: rest =>
    if b.length < 4 then b else (jpegHead b.length rest ⟨[[0xff, 0xd8]], none, none⟩).getD b
  | _ => b

-- ---------------------------------------------------------------------------
-- PNG
-- ---------------------------------------------------------------------------

/-- Text and Exif. -/
def pngDrop : List Bytes := [ascii "tEXt", ascii "zTXt", ascii "iTXt", ascii "eXIf"]

/-- The chunks kept, whether one was dropped, and what is left. -/
def pngChunks : Nat → Bytes → List Bytes → Bool → Option (List Bytes × Bool × Bytes)
  | 0, b, parts, dropped => some (parts, dropped, b)
  | fuel + 1, b, parts, dropped =>
    if b.length < 12 then some (parts, dropped, b)
    else
      let len := be32 (b.getD 0 0) (b.getD 1 0) (b.getD 2 0) (b.getD 3 0)
      if b.length < 12 + len then none
      else
        let type := slice b 4 4
        let parts' := if type ∈ pngDrop then parts else parts ++ [b.take (12 + len)]
        let dropped' := dropped || type ∈ pngDrop
        if type = ascii "IEND" then some (parts', dropped', b.drop (12 + len))
        else pngChunks fuel (b.drop (12 + len)) parts' dropped'

def stripPng (b : Bytes) : Bytes :=
  if b.length < 8 + 12 || b.getD 0 0 ≠ 0x89 || !asciiAt b 1 "PNG" then b
  else match pngChunks b.length (b.drop 8) [b.take 8] false with
    | some (parts, true, rest) => (parts ++ [rest]).flatten
    | _ => b

-- ---------------------------------------------------------------------------
-- WebP
-- ---------------------------------------------------------------------------

def clearFlags (chunk : Bytes) : Bytes := chunk.set 8 (chunk.getD 8 0 &&& ~~~(0x08 ||| 0x04))

def webpChunks : Nat → Bytes → List Bytes → Bool → Option (List Bytes × Bool)
  | 0, _, parts, dropped => some (parts, dropped)
  | fuel + 1, b, parts, dropped =>
    if b.length < 8 then some (parts, dropped)
    else
      let len := le32 (b.drop 4)
      if b.length < 8 + len then none
      else
        let chunk := b.take (8 + len + len % 2)
        let rest := b.drop (8 + len + len % 2)
        if asciiAt b 0 "EXIF" || asciiAt b 0 "XMP " then webpChunks fuel rest parts true
        else if asciiAt b 0 "VP8X" && 10 ≤ len then webpChunks fuel rest (parts ++ [clearFlags chunk]) dropped
        else webpChunks fuel rest (parts ++ [chunk]) dropped

def stripWebp (b : Bytes) : Bytes :=
  if b.length < 20 || !asciiAt b 0 "RIFF" || !asciiAt b 8 "WEBP" then b
  else match webpChunks b.length (b.drop 12) [] false with
    | some (parts, true) =>
      let body := parts.flatten
      b.take 4 ++ putLe32 (12 + body.length - 8) ++ slice b 8 4 ++ body
    | _ => b

def stripImageMetadata (b : Bytes) : Bytes :=
  if b.getD 0 0 = 0xff then stripJpeg b
  else if b.getD 0 0 = 0x89 then stripPng b
  else if b.getD 0 0 = 0x52 then stripWebp b
  else b

end WebAdf.Covers
