import WebAdf.Constants
import WebAdf.Lib.Endian
import WebAdf.Lib.Utf16

/-!
# Blocks

An image is its blocks of 512 bytes: 1,760 of them, or 3,520 on a high-density
disk. Words are big-endian. Every block pointer in an image may be anything, so
a block is read through `blockAt`; a raw read past the end gives zeros and a
write there is lost, as with a typed array.
-/

namespace WebAdf.Adffs

open Lib

def blockBytes : Nat := 512
def hashTableSize : Nat := 72
/-- Of root, directory and file-header blocks, and of an OFS data block. -/
def checksumWord : Nat := 5
def ofsDataBytes : Nat := 488
def tHeader : Nat := 2
def tData : Nat := 8
def tList : Nat := 16
def stRoot : Int := 1
def stUserdir : Int := 2
def stFile : Int := -3
def maxEntries : Nat := 10000
def maxDepth : Nat := 32
def bitmapFirstBlock : Nat := 2
def commentMax : Nat := 79
def nameMax : Nat := 30

inductive Density
  | dd
  | hd
  deriving DecidableEq, Repr

def Density.blockCount : Density → Nat
  | .dd => 1760
  | .hd => 3520

def Density.rootBlock : Density → Nat
  | .dd => 880
  | .hd => 1760

-- ---------------------------------------------------------------------------
-- One block
-- ---------------------------------------------------------------------------

/-- The bytes of a block by their offset; only the first 512 count. -/
abbrev Block := Nat → UInt8

namespace Block

def be32 (b : Block) (off : Nat) : Nat := Lib.be32 (b off) (b (off + 1)) (b (off + 2)) (b (off + 3))

def i32 (b : Block) (off : Nat) : Int := if b.be32 off < 2 ^ 31 then b.be32 off else b.be32 off - 2 ^ 32

def putBe32 (b : Block) (off v : Nat) : Block := fun i =>
  if off ≤ i ∧ i < off + 4 then byteOf v (off + 3 - i) else b i

def putByte (b : Block) (off : Nat) (v : UInt8) : Block := fun i => if i = off then v else b i

def fill (b : Block) (v : UInt8) (off stop : Nat) : Block := fun i => if off ≤ i ∧ i < stop then v else b i

def set (b : Block) (off : Nat) (bytes : Bytes) : Block := fun i =>
  if off ≤ i ∧ i < off + bytes.length then bytes.getD (i - off) 0 else b i

def subarray (b : Block) (off stop : Nat) : Bytes := (List.range (stop - off)).map fun i => b (off + i)

/-- The negated sum of the block's words but one. -/
def blockChecksum (b : Block) (skipWord : Nat) : Nat :=
  let sum := (List.range (blockBytes / 4)).foldl
    (fun sum i => if i = skipWord then sum else (sum + b.be32 (i * 4)) % 2 ^ 32) 0
  (2 ^ 32 - sum) % 2 ^ 32

def checksumOk (b : Block) (skipWord : Nat) : Bool := b.be32 (skipWord * 4) == b.blockChecksum skipWord

def recheck (b : Block) : Block := b.putBe32 (checksumWord * 4) (b.blockChecksum checksumWord)

/-- A BCPL string; a control character reads as an underscore. -/
def bcplString (b : Block) (lengthOffset max : Nat) : Units :=
  let declared := (b lengthOffset).toNat
  let room := min max (blockBytes - lengthOffset - 1)
  (List.range (min declared room)).map fun i =>
    let c := b (lengthOffset + 1 + i)
    if 0x20 ≤ c ∧ c ≠ 0x7f then c.toUInt16 else 0x5f

/-- The low byte of each unit. -/
def latin (name : Units) : Bytes := name.map (·.toUInt8)

def putName (b : Block) (name : Units) : Block :=
  let n := name.take nameMax
  (b.putByte 432 (UInt8.ofNat n.length)).set 433 (latin n)

def putComment (b : Block) (comment : Option Units) : Block :=
  let c := (comment.getD []).take commentMax
  ((b.fill 0 328 (328 + 80)).putByte 328 (UInt8.ofNat c.length)).set 329 (latin c)

-- ---------------------------------------------------------------------------
-- Dates
-- ---------------------------------------------------------------------------

/-- Milliseconds from 1970 to 1978. -/
def amigaEpochMs : Int := 252460800000

def maxDays : Nat := 45000

/-- Days, minutes and ticks since 1978. -/
def amigaDate (b : Block) (off : Nat) : Option Int :=
  let days := b.be32 off
  let mins := b.be32 (off + 4)
  let ticks := b.be32 (off + 8)
  if days = 0 ∧ mins = 0 ∧ ticks = 0 then none
  else if days > maxDays ∨ mins ≥ 1440 ∨ ticks ≥ 3000 then none
  else some (amigaEpochMs + days * 86400000 + mins * 60000 + ticks * 20)

def putAmigaDate (b : Block) (off : Nat) (when_ : Int) : Block :=
  let ms := when_ - amigaEpochMs
  let days := ms / 86400000
  let restMs := ms - days * 86400000
  let mins := restMs / 60000
  let ticks := (restMs - mins * 60000) / 20
  ((b.putBe32 off days.toNat).putBe32 (off + 4) mins.toNat).putBe32 (off + 8) ticks.toNat

end Block

-- ---------------------------------------------------------------------------
-- The image
-- ---------------------------------------------------------------------------

structure Adf where
  density : Density
  block : Nat → Block

namespace Adf

def blockCount (adf : Adf) : Nat := adf.density.blockCount

def rootBlock (adf : Adf) : Nat := adf.density.rootBlock

def blockAt (adf : Adf) (n : Nat) : Option Block := if n < adf.blockCount then some (adf.block n) else none

/-- A read that no one has checked. -/
def raw (adf : Adf) (n : Nat) : Block := if n < adf.blockCount then adf.block n else fun _ => 0

def modify (adf : Adf) (n : Nat) (f : Block → Block) : Adf :=
  { adf with block := fun i => if i = n ∧ n < adf.blockCount then f (adf.block i) else adf.block i }

def putBe32 (adf : Adf) (n off v : Nat) : Adf := adf.modify n (·.putBe32 off v)

def recheck (adf : Adf) (n : Nat) : Adf := adf.modify n (·.recheck)

end Adf

end WebAdf.Adffs
