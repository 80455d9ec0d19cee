import WebAdf.Adffs.Blocks

/-!
# The volume: boot block, bitmap and allocation

A set bit of the bitmap means free. The bitmap covers the blocks from 2 on and is
trusted only where the root block says it is valid and it marks its own block
used; where it is not, nothing is allocated and nothing freed.
-/

namespace WebAdf.Adffs

inductive Filesystem
  | ofs
  | ffs
  deriving DecidableEq, Repr

structure BootInfo where
  filesystem : Filesystem
  intl : Bool
  dirc : Bool
  deriving DecidableEq, Repr

structure VolumeUsage where
  totalBlocks : Nat
  usedBlocks : Nat
  freeBlocks : Nat
  deriving DecidableEq, Repr

/-- Payload bytes of one data block. -/
def Filesystem.perBlock : Filesystem → Nat
  | .ofs => ofsDataBytes
  | .ffs => blockBytes

namespace Block

/-- The bitmap's answer for the block that is `bit` blocks past the first it covers. -/
def freeBit (b : Block) (bit : Nat) : Bool := (b.be32 (4 + bit / 32 * 4)).testBit (bit % 32)

def setBit (b : Block) (block : Nat) (freeNow : Bool) : Block :=
  let bit := block - bitmapFirstBlock
  let o := 4 + bit / 32 * 4
  let word := b.be32 o
  b.putBe32 o (if freeNow then word ||| 2 ^ (bit % 32) else word &&& (0xffffffff ^^^ 2 ^ (bit % 32)))

/-- The bitmap's checksum is its first word: all 128 words add up to zero. -/
def rechecksum (b : Block) : Block :=
  let zeroed := b.putBe32 0 0
  let sum := (List.range (blockBytes / 4)).foldl (fun sum i => (sum + zeroed.be32 (i * 4)) % 2 ^ 32) 0
  zeroed.putBe32 0 ((2 ^ 32 - sum) % 2 ^ 32)

end Block

namespace Adf

/-- Null without the `DOS` signature; the boot block's own checksum is not looked at. -/
def readBoot (adf : Adf) : Option BootInfo :=
  match adf.blockAt 0 with
  | none => none
  | some boot =>
    if boot 0 ≠ 0x44 ∨ boot 1 ≠ 0x4f ∨ boot 2 ≠ 0x53 then none
    else
      let flags := boot 3
      some {
        filesystem := if flags &&& 0x01 ≠ 0 then .ffs else .ofs
        intl := flags &&& 0x02 ≠ 0
        dirc := flags &&& 0x04 ≠ 0 }

/-- The blocks the bitmap calls free. -/
def freeBlocks (adf : Adf) (page : Nat) : Nat :=
  (List.range (adf.blockCount - bitmapFirstBlock)).countP (adf.raw page).freeBit

/-- Null when the bitmap cannot be trusted, never a guess. -/
def readUsage (adf : Adf) : Option VolumeUsage :=
  let root := adf.raw adf.rootBlock
  if root.i32 312 ≠ -1 then none
  else
    let page := root.be32 316
    if page < bitmapFirstBlock ∨ adf.blockCount ≤ page ∨ page = adf.rootBlock then none
    else if (adf.raw page).freeBit (page - bitmapFirstBlock) then none
    else some {
      totalBlocks := adf.blockCount
      usedBlocks := adf.blockCount - adf.freeBlocks page
      freeBlocks := adf.freeBlocks page }

/-- The trusted bitmap block. -/
def bitmapPage (adf : Adf) : Option Nat :=
  if adf.readUsage = none then none else some ((adf.raw adf.rootBlock).be32 316)

def isFreeAt (adf : Adf) (page block : Nat) : Bool := (adf.raw page).freeBit (block - bitmapFirstBlock)

/-- Outside the bitmap's range, or never to be handed out. -/
def isReserved (adf : Adf) (page block : Nat) : Bool :=
  block == adf.rootBlock || block == page || block < bitmapFirstBlock || adf.blockCount ≤ block

def isFree (adf : Adf) (block : Nat) : Bool :=
  adf.bitmapPage.any fun page => !adf.isReserved page block && adf.isFreeAt page block

/-- Every block that may be handed out, lowest first. -/
def candidates (adf : Adf) (page : Nat) : List Nat :=
  (List.range adf.blockCount).filter fun b => !adf.isReserved page b && adf.isFreeAt page b

def setBits (adf : Adf) (page : Nat) (blocks : List Nat) (freeNow : Bool) : Adf :=
  adf.modify page fun b => (blocks.foldl (fun b block => b.setBit block freeNow) b).rechecksum

/-- `n` free blocks, now used; all or nothing. -/
def allocate (adf : Adf) (n : Nat) : Option (List Nat × Adf) :=
  adf.bitmapPage.bind fun page =>
    let out := (adf.candidates page).take n
    if out.length < n then none else some (out, adf.setBits page out false)

/-- Marks blocks free again; a reserved one is skipped. -/
def free (adf : Adf) (blocks : List Nat) : Adf :=
  adf.bitmapPage.elim adf fun page => adf.setBits page (blocks.filter fun b => !adf.isReserved page b) true

end Adf

-- ---------------------------------------------------------------------------
-- Capacity
-- ---------------------------------------------------------------------------

def dataBlocks (sizeBytes : Nat) (fs : Filesystem) : Nat := max 1 ((sizeBytes + fs.perBlock - 1) / fs.perBlock)

def extBlocks (dataCount : Nat) : Nat := (dataCount - hashTableSize + hashTableSize - 1) / hashTableSize

end WebAdf.Adffs
