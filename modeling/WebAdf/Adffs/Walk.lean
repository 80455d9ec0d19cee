import WebAdf.Adffs.Volume

/-!
# Reading directories and files

A directory's 72 slots each start a chain of entries; a file's header and its
extension blocks list its data blocks last slot first. Both walks go by pointers
that may lie, so each has a set of blocks it has seen.
-/

namespace WebAdf.Adffs

open Lib

-- ---------------------------------------------------------------------------
-- Names
-- ---------------------------------------------------------------------------

/-- The first unit of each character. -/
def leads : Units → Units
  | [] => []
  | [u] => [u]
  | u :: v :: s => if isHigh u && isLow v then u :: leads s else u :: leads (v :: s)

def upperChar (c : UInt16) (intl : Bool) : UInt16 :=
  if 0x61 ≤ c ∧ c ≤ 0x7a then c - 32
  else if intl ∧ 0xe0 ≤ c ∧ c ≤ 0xfe ∧ c ≠ 0xf7 then c - 32
  else c

def nameHash (name : Units) (intl : Bool) : Nat :=
  (leads name).foldl (fun hash ch => (hash * 13 + (upperChar ch intl).toNat) % 2048) name.length % hashTableSize

def sameName (a b : Units) (intl : Bool) : Bool := a.map (upperChar · intl) == b.map (upperChar · intl)

-- ---------------------------------------------------------------------------
-- Directories
-- ---------------------------------------------------------------------------

inductive Kind
  | file
  | dir
  deriving DecidableEq, Repr

inductive AdfEntry
  | mk (name : Units) (kind : Kind) (block sizeBytes : Nat) (modifiedAt : Option Int) (protection : String)
      (comment : Option Units) (children : List AdfEntry)

namespace AdfEntry

def name : AdfEntry → Units
  | mk name .. => name

def kind : AdfEntry → Kind
  | mk _ kind .. => kind

def block : AdfEntry → Nat
  | mk _ _ block .. => block

def children : AdfEntry → List AdfEntry
  | mk _ _ _ _ _ _ _ children => children

end AdfEntry

inductive Warning
  | outOfRange (block : Nat)
  | notHeader (block : Nat)
  | badChecksum (block : Nat)
  | tooDeep (block : Nat)
  | chainCycle (block : Nat)
  | chainOutOfRange (block : Nat)
  | tooManyPointers (maxData : Nat)
  | extensionCycle (block : Nat)
  | dataOutOfRange (block : Nat)
  | short (declared total : Nat)
  | excess (declared total : Nat)
  deriving DecidableEq, Repr

def Warning.text : Warning → String
  | .outOfRange block => s!"block {block} is out of range"
  | .notHeader block => s!"block {block} is not a header"
  | .badChecksum block => s!"block {block} has a bad checksum"
  | .tooDeep block => s!"directory nesting deeper than {maxDepth} at block {block}"
  | .chainCycle block => s!"hash chain cycle at block {block}"
  | .chainOutOfRange block => s!"hash chain points to block {block}, out of range"
  | .tooManyPointers maxData => s!"data pointer list exceeds {maxData} blocks; stopping collection"
  | .extensionCycle block => s!"extension chain cycle at block {block}"
  | .dataOutOfRange block => s!"data block {block} is out of range"
  | .short declared total => s!"header claims {declared} bytes but only {total} are reachable"
  | .excess declared total =>
    s!"header claims {declared} bytes but the block list holds {total} ({(total - declared) / blockBytes} block(s) too many) -- inconsistent metadata"

/-- At most fifty. -/
def warn (ws : List Warning) (w : Warning) : List Warning := if ws.length < 50 then ws ++ [w] else ws

/-- The low four bits are inverted: a set bit forbids the action. -/
def protectionString (bits : Nat) : String :=
  let high := [(7, 'h'), (6, 's'), (5, 'p'), (4, 'a')].map fun p => if bits.testBit p.1 then p.2 else '-'
  let low := [(3, 'r'), (2, 'w'), (1, 'e'), (0, 'd')].map fun p => if bits.testBit p.1 then '-' else p.2
  String.ofList (high ++ low)

/-- What a walk carries; `stuck` is set where a chain was longer than any chain can be. -/
structure Walk where
  visited : List Nat
  count : Nat := 0
  truncated : Bool := false
  warnings : List Warning := []
  stuck : Bool := false

namespace Walk

def warn (w : Walk) (m : Warning) : Walk := { w with warnings := Adffs.warn w.warnings m }

def visit (w : Walk) (ptr : Nat) : Walk := { w with visited := w.visited ++ [ptr], count := w.count + 1 }

end Walk

/-- The entry in a block, and what it holds where it is a directory; `children` is missing
at the depth limit. -/
def readEntry (adf : Adf) (children : Option (Nat → Walk → List AdfEntry × Walk)) (block : Nat) (w : Walk) :
    Option AdfEntry × Walk :=
  match adf.blockAt block with
  | none => (none, w.warn (.outOfRange block))
  | some b =>
    if b.be32 0 ≠ tHeader then (none, w.warn (.notHeader block))
    else if !b.checksumOk checksumWord then (none, w.warn (.badChecksum block))
    else
      let entry := fun kind size children => AdfEntry.mk (b.bcplString 432 nameMax) kind block size (b.amigaDate 420)
        (protectionString (b.be32 320)) (match b.bcplString 328 commentMax with | [] => none | c => some c) children
      if b.i32 508 = stUserdir then
        match children with
        | none => (some (entry .dir 0 []), w.warn (.tooDeep block))
        | some children =>
          let (below, w) := children block w
          (some (entry .dir 0 below), w)
      else if b.i32 508 = stFile then (some (entry .file (b.be32 324) []), w)
      else (none, w)

/-- One chain from `ptr` on; the third part says that the entries ran out of room. -/
def readChain (adf : Adf) (most : Nat) (read : Nat → Walk → Option AdfEntry × Walk) :
    Nat → Nat → Walk → List AdfEntry × Bool × Walk
  | fuel, ptr, w =>
    if ptr = 0 then ([], false, w)
    else match fuel with
    | 0 => ([], false, { w with stuck := true })
    | fuel + 1 =>
      if most ≤ w.count then ([], true, { w with truncated := true })
      else if ptr ∈ w.visited then ([], false, w.warn (.chainCycle ptr))
      else match adf.blockAt ptr with
      | none => ([], false, ({ w with visited := w.visited ++ [ptr] } : Walk).warn (.chainOutOfRange ptr))
      | some next =>
        let (entry, w) := read ptr (w.visit ptr)
        let (rest, full, w) := readChain adf most read fuel (next.be32 496) w
        (entry.toList ++ rest, full, w)

/-- The slots from `slots` on, up to the one where the room ran out. -/
def readSlots (adf : Adf) (most : Nat) (read : Nat → Walk → Option AdfEntry × Walk) (dir : Block) :
    List Nat → Walk → List AdfEntry × Walk
  | [], w => ([], w)
  | slot :: slots, w =>
    let chain := readChain adf most read (adf.blockCount + 1) (dir.be32 (24 + slot * 4)) w
    if chain.2.1 then (chain.1, chain.2.2)
    else
      let rest := readSlots adf most read dir slots chain.2.2
      (chain.1 ++ rest.1, rest.2)

/-- A directory's table, with `levels` more below it to go into. -/
def readTable (adf : Adf) (most : Nat) : Nat → Nat → Walk → List AdfEntry × Walk
  | levels, dirBlock, w =>
    match adf.blockAt dirBlock with
    | none => ([], w)
    | some dir =>
      let children := match levels with
        | 0 => none
        | levels + 1 => some (readTable adf most levels)
      readSlots adf most (readEntry adf children) dir (List.range hashTableSize) w

structure WalkResult where
  root : List AdfEntry
  truncated : Bool
  warnings : List Warning

def walkDirectoryUpTo (adf : Adf) (start most : Nat) : WalkResult :=
  let (root, w) := readTable adf most maxDepth start { visited := [start] }
  ⟨root, w.truncated, w.warnings⟩

def walkDirectory (adf : Adf) (start : Nat) : WalkResult := walkDirectoryUpTo adf start maxEntries

-- ---------------------------------------------------------------------------
-- Files
-- ---------------------------------------------------------------------------

structure FileBlocks where
  data : List Nat := []
  extensions : List Nat := []

/-- The pointers of one block, last slot first. -/
def Block.pointers (b : Block) : List Nat :=
  ((List.range hashTableSize).map fun i => b.be32 (24 + (hashTableSize - 1 - i) * 4)).filter (· ≠ 0)

/-- The chain from a header or an extension block on: `seen` are the blocks before it. -/
def collectFrom (adf : Adf) : Nat → Nat → Bool → List Nat → FileBlocks → List Warning → FileBlocks × List Warning
  | 0, _, _, _, got, ws => (got, ws)
  | fuel + 1, current, isHeader, seen, got, ws =>
    match adf.blockAt current with
    | none => (got, warn ws (.outOfRange current))
    | some b =>
      let room := adf.blockCount - got.data.length
      let got : FileBlocks := {
        data := got.data ++ b.pointers.take room
        extensions := got.extensions ++ if isHeader then [] else [current] }
      if room < b.pointers.length then (got, warn ws (.tooManyPointers adf.blockCount))
      else
        let next := b.be32 504
        if next = 0 then (got, ws)
        else if next ∈ seen then (got, warn ws (.extensionCycle next))
        else collectFrom adf fuel next false (seen ++ [next]) got ws

def collectFileBlocks (adf : Adf) (headerBlock : Nat) (ws : List Warning) : FileBlocks × List Warning :=
  collectFrom adf (adf.blockCount + 2) headerBlock true [headerBlock] {} ws

structure FileBytes where
  bytes : Bytes
  complete : Bool
  warnings : List Warning
  deriving DecidableEq

/-- The payload of one data block. -/
def Block.payload (b : Block) (filesystem : Filesystem) : Bytes :=
  match filesystem with
  | .ofs => b.subarray 24 (24 + min (b.be32 12) ofsDataBytes)
  | .ffs => b.subarray 0 blockBytes

/-- The payloads in order; a block out of range is left out. -/
def readChunks (adf : Adf) (filesystem : Filesystem) : List Nat → List Warning → List Bytes × List Warning
  | [], ws => ([], ws)
  | blk :: blocks, ws =>
    match adf.blockAt blk with
    | none => readChunks adf filesystem blocks (warn ws (.dataOutOfRange blk))
    | some b =>
      let (chunks, ws) := readChunks adf filesystem blocks ws
      (b.payload filesystem :: chunks, ws)

/-- A checksummed file header. -/
def Block.isFileHeader (b : Block) : Bool := b.be32 0 == tHeader && b.i32 508 == stFile && b.checksumOk checksumWord

/-- The declared size only ever trims what the reachable blocks hold. -/
def readFileBytes (adf : Adf) (headerBlock : Nat) (filesystem : Filesystem) : Option FileBytes :=
  match adf.blockAt headerBlock with
  | none => none
  | some header =>
    if !header.isFileHeader then none
    else
      let declared := header.be32 324
      let (blocks, ws) := collectFileBlocks adf headerBlock []
      let (chunks, ws) := readChunks adf filesystem blocks.data ws
      let total := (chunks.map List.length).sum
      let ws :=
        if total < declared then warn ws (.short declared total)
        else if blockBytes ≤ total - declared then warn ws (.excess declared total)
        else ws
      some ⟨chunks.flatten.take (min declared total), declared ≤ total && ws.isEmpty, ws⟩

def readFile (adf : Adf) (block : Nat) : Option FileBytes :=
  match adf.readBoot with
  | none => none
  | some boot => readFileBytes adf block boot.filesystem

end WebAdf.Adffs
