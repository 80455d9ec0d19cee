import WebAdf.Adffs.Walk

/-!
# Write operations

Each validates first, works on a copy and gives the copy back or a reason. `now`
is the time where the caller brings no date.
-/

namespace WebAdf.Adffs

open Lib

inductive WriteError
  | diskFull
  | nameTooLong
  | nameExists
  | notFound
  | notADirectory
  | bitmapUntrusted
  | noFilesystem
  | cycle
  | commentTooLong
  deriving DecidableEq, Repr

structure EntryMeta where
  date : Option Int := none
  comment : Option Units := none

abbrev WriteResult := Except WriteError Adf

def refuse (c : Prop) [Decidable c] (reason : WriteError) : Except WriteError Unit := if c then .error reason else .ok ()

def need (o : Option α) (reason : WriteError) : Except WriteError α := o.elim (.error reason) .ok

theorem bind_ok {x : Except ε α} {f : α → Except ε β} : x >>= f = .ok b ↔ ∃ a, x = .ok a ∧ f a = .ok b := by
  cases x <;> simp [bind, Except.bind]

theorem pure_ok : (pure a : Except ε α) = .ok b ↔ a = b := by
  simp [pure, Except.pure]

theorem refuse_ok [Decidable c] : refuse c reason = .ok u ↔ ¬ c := by
  by_cases h : c
  · simp [refuse, h]
  · simp [refuse, h]

@[simp] theorem ok_bind (a : α) (f : α → Except ε β) : (.ok a >>= f) = f a := by
  simp only [bind, Except.bind]

@[simp] theorem error_bind (reason : ε) (f : α → Except ε β) : (.error reason >>= f) = .error reason := by
  simp only [bind, Except.bind]

theorem refuse_neg {c : Prop} [Decidable c] (h : ¬ c) : refuse c reason = .ok () := if_neg h

theorem refuse_pos {c : Prop} [Decidable c] (h : c) : refuse c reason = .error reason := if_pos h

@[simp] theorem need_some (a : α) (reason : WriteError) : need (some a) reason = .ok a := by
  rw [need, Option.elim_some]

theorem need_ok {o : Option α} : need o reason = .ok a ↔ o = some a := by
  cases o with
  | none => simp [need]
  | some _ => simp [need]

def EntryMeta.tooLong (meta_ : EntryMeta) : Bool := meta_.comment.any fun c => commentMax < c.length

-- ---------------------------------------------------------------------------
-- Blocks of a file and of a directory
-- ---------------------------------------------------------------------------

/-- One data block: the `i`th chunk, with its header on an OFS disk. -/
def Block.writeData (b : Block) (filesystem : Filesystem) (chunk : Bytes) (i header next : Nat) : Block :=
  match filesystem with
  | .ofs =>
    let b := (((((b.putBe32 0 tData).putBe32 4 header).putBe32 8 (i + 1)).putBe32 12 chunk.length).putBe32 16 next).set 24 chunk
    b.recheck
  | .ffs => b.set 0 chunk

/-- The pointer table: the first pointer goes into the last slot. -/
def Block.putPointers (b : Block) (pointers : List Nat) : Block :=
  pointers.zipIdx.foldl (fun b p => b.putBe32 (24 + (hashTableSize - 1 - p.2) * 4) p.1)
    (b.fill 0 24 (24 + hashTableSize * 4))

def writeDataFrom (adf : Adf) (bytes : Bytes) (header : Nat) (filesystem : Filesystem) : Nat → List Nat → Adf
  | _, [] => adf
  | i, blk :: blocks =>
    let chunk := (bytes.drop (i * filesystem.perBlock)).take filesystem.perBlock
    writeDataFrom (adf.modify blk fun b => b.writeData filesystem chunk i header (blocks.headD 0)) bytes header filesystem
      (i + 1) blocks

def writeDataBlocks (adf : Adf) (dataBlocks : List Nat) (bytes : Bytes) (header : Nat) (filesystem : Filesystem) : Adf :=
  writeDataFrom adf bytes header filesystem 0 dataBlocks

/-- A file header from its parts; a recycled block's protection, date, comment and
pointers are overwritten. -/
def Block.writeFileHeader (b : Block) (now : Int) (header parent : Nat) (name : Units) (size : Nat) (first72 : List Nat)
    (firstExtension : Nat) (protection : Option Nat) (meta_ : EntryMeta) : Block :=
  let b := b.putBe32 0 tHeader
  let b := b.putBe32 4 header
  let b := b.putBe32 8 first72.length
  let b := b.putBe32 16 (first72.headD 0)
  let b := b.putBe32 320 (protection.getD 0)
  let b := b.putBe32 324 size
  let b := b.putAmigaDate 420 (meta_.date.getD now)
  let b := b.putComment meta_.comment
  let b := b.putPointers first72
  let b := b.putBe32 504 firstExtension
  let b := b.putName name
  let b := b.putBe32 500 parent
  let b := b.putBe32 508 0xfffffffd
  b.recheck

/-- An extension block of `take` further pointers. -/
def Block.writeExtension (b : Block) (ext : Nat) (take : List Nat) (header next : Nat) : Block :=
  let b := b.putBe32 0 tList
  let b := b.putBe32 4 ext
  let b := b.putBe32 8 take.length
  let b := b.putBe32 500 header
  let b := b.putPointers take
  let b := b.putBe32 504 next
  let b := b.putBe32 508 0xfffffffd
  b.recheck

/-- The pointers the header has no room for, 72 to a block. -/
def writeExtensionBlocks (adf : Adf) (header : Nat) : List Nat → List Nat → Adf
  | [], _ => adf
  | ext :: exts, rest =>
    writeExtensionBlocks (adf.modify ext fun b => b.writeExtension ext (rest.take hashTableSize) header (exts.headD 0))
      header exts (rest.drop hashTableSize)

/-- A directory header with empty slots, the whole block cleared first. -/
def Block.writeDirectoryHeader (b : Block) (block parent : Nat) (name : Units) (when_ : Int) (comment : Option Units) : Block :=
  let b := b.fill 0 0 blockBytes
  let b := b.putBe32 0 tHeader
  let b := b.putBe32 4 block
  let b := b.putAmigaDate 420 when_
  let b := b.putComment comment
  let b := b.putName name
  let b := b.putBe32 500 parent
  let b := b.putBe32 508 2
  b.recheck

-- ---------------------------------------------------------------------------
-- Links
-- ---------------------------------------------------------------------------

def slotOf (name : Units) (intl : Bool) : Nat := 24 + nameHash name intl * 4

def entryNamed (adf : Adf) (dir : Nat) (name : Units) (intl : Bool) (exclude : Option Nat) : Bool :=
  (walkDirectory adf dir).root.any fun e => some e.block != exclude && sameName e.name name intl

/-- At the head of the bucket; both checksums are made good. -/
def linkIntoDirectory (adf : Adf) (dir entry : Nat) (name : Units) (intl : Bool) : Adf :=
  let slot := slotOf name intl
  let adf := adf.putBe32 entry 496 ((adf.raw dir).be32 slot)
  let adf := adf.putBe32 dir slot entry
  (adf.recheck entry).recheck dir

/-- What points at an entry: a slot of the directory, or another entry. -/
inductive Pred
  | slot (offset : Nat)
  | entry (block : Nat)
  deriving DecidableEq, Repr

def predecessorFrom (adf : Adf) (entry : Nat) : Nat → Nat → List Nat → Option Pred
  | 0, _, _ => none
  | fuel + 1, ptr, seen =>
    if ptr = 0 ∨ ptr ∈ seen then none
    else if (adf.raw ptr).be32 496 = entry then some (.entry ptr)
    else predecessorFrom adf entry fuel ((adf.raw ptr).be32 496) (seen ++ [ptr])

def predecessorOf (adf : Adf) (dir entry : Nat) (name : Units) (intl : Bool) : Option Pred :=
  let slot := slotOf name intl
  let ptr := (adf.raw dir).be32 slot
  if ptr = entry then some (.slot slot) else predecessorFrom adf entry (adf.blockCount + 2) ptr []

/-- The chain goes round the entry. -/
def unlink (adf : Adf) (dir : Nat) (pred : Pred) (next : Nat) : Adf :=
  match pred with
  | .slot offset => (adf.putBe32 dir offset next).recheck dir
  | .entry block => (adf.putBe32 block 496 next).recheck block

/-- A checksummed header of a file or a directory. -/
def Block.isEntry (b : Block) : Bool :=
  b.be32 0 == tHeader && b.checksumOk checksumWord && (b.i32 508 == stFile || b.i32 508 == stUserdir)

/-- An entry that says `parentBlock` is its directory. -/
def entryIn (adf : Adf) (parentBlock entryBlock : Nat) : Option Block :=
  (adf.blockAt entryBlock).filter fun header => header.isEntry && header.be32 500 == parentBlock

-- ---------------------------------------------------------------------------
-- Adding
-- ---------------------------------------------------------------------------

def badName (name : Units) : Bool := name.length == 0 || nameMax < name.length

def addFile (adf : Adf) (now : Int) (parentBlock : Nat) (name : Units) (bytes : Bytes) (protection : Option Nat)
    (meta_ : EntryMeta) : WriteResult := do
  refuse (badName name) .nameTooLong
  refuse meta_.tooLong .commentTooLong
  let boot ← need adf.readBoot .noFilesystem
  refuse (adf.bitmapPage = none) .bitmapUntrusted
  refuse (entryNamed adf parentBlock name boot.intl none) .nameExists
  let dataCount := dataBlocks bytes.length boot.filesystem
  let (blocks, out) ← need (adf.allocate (1 + dataCount + extBlocks dataCount)) .diskFull
  let header := blocks.headD 0
  let data := blocks.tail.take dataCount
  let exts := blocks.tail.drop dataCount
  let out := writeDataBlocks out data bytes header boot.filesystem
  let out := out.modify header fun b => b.writeFileHeader now header parentBlock name bytes.length
    (data.take hashTableSize) (exts.headD 0) protection meta_
  let out := writeExtensionBlocks out header exts (data.drop hashTableSize)
  return linkIntoDirectory out parentBlock header name boot.intl

def makeDirectory (adf : Adf) (now : Int) (parentBlock : Nat) (name : Units) (meta_ : EntryMeta) : WriteResult := do
  refuse (badName name) .nameTooLong
  refuse meta_.tooLong .commentTooLong
  let boot ← need adf.readBoot .noFilesystem
  refuse (adf.bitmapPage = none) .bitmapUntrusted
  refuse (entryNamed adf parentBlock name boot.intl none) .nameExists
  let (blocks, out) ← need (adf.allocate 1) .diskFull
  let dir := blocks.headD 0
  let out := out.modify dir fun b => b.writeDirectoryHeader dir parentBlock name (meta_.date.getD now) meta_.comment
  return linkIntoDirectory out parentBlock dir name boot.intl

-- ---------------------------------------------------------------------------
-- Deleting
-- ---------------------------------------------------------------------------

/-- Every block of a file: header, data and extensions. -/
def fileBlocks (adf : Adf) (header : Nat) : List Nat :=
  let got := (collectFileBlocks adf header []).1
  header :: got.data ++ got.extensions

mutual

def entryBlocks (adf : Adf) : AdfEntry → List Nat
  | .mk _ .dir block _ _ _ _ children => block :: entriesBlocks adf children
  | .mk _ .file block _ _ _ _ _ => fileBlocks adf block

def entriesBlocks (adf : Adf) : List AdfEntry → List Nat
  | [] => []
  | e :: es => entryBlocks adf e ++ entriesBlocks adf es

end

/-- Every block a directory's subtree holds, as the walk sees it. -/
def collectSubtreeBlocks (adf : Adf) (dirBlock : Nat) : List Nat :=
  dirBlock :: entriesBlocks adf (walkDirectory adf dirBlock).root

def deleteEntry (adf : Adf) (parentBlock entryBlock : Nat) : WriteResult := do
  let boot ← need adf.readBoot .noFilesystem
  refuse (adf.bitmapPage = none) .bitmapUntrusted
  let header ← need (entryIn adf parentBlock entryBlock) .notFound
  let pred ← need (predecessorOf adf parentBlock entryBlock (header.bcplString 432 nameMax) boot.intl) .notFound
  let out := unlink adf parentBlock pred (header.be32 496)
  let toFree := if header.i32 508 = stUserdir then collectSubtreeBlocks out entryBlock else fileBlocks out entryBlock
  return out.free toFree

-- ---------------------------------------------------------------------------
-- Changing
-- ---------------------------------------------------------------------------

def renameEntry (adf : Adf) (parentBlock entryBlock : Nat) (newName : Units) : WriteResult := do
  refuse (badName newName) .nameTooLong
  let boot ← need adf.readBoot .noFilesystem
  refuse (adf.bitmapPage = none) .bitmapUntrusted
  let header ← need (entryIn adf parentBlock entryBlock) .notFound
  let pred ← need (predecessorOf adf parentBlock entryBlock (header.bcplString 432 nameMax) boot.intl) .notFound
  refuse (entryNamed adf parentBlock newName boot.intl (some entryBlock)) .nameExists
  let out := unlink adf parentBlock pred (header.be32 496)
  let out := out.modify entryBlock fun b => (b.fill 0 432 463).putName newName
  return linkIntoDirectory out parentBlock entryBlock newName boot.intl

/-- The header of a replaced file: all but its date and comment is written anew. -/
def Block.rewriteFileHeader (b old : Block) (now : Int) (header size : Nat) (first72 : List Nat) (firstExtension : Nat) : Block :=
  let b := b.writeFileHeader now header (old.be32 500) (old.bcplString 432 nameMax) size first72 firstExtension none {}
  let b := b.set 420 (old.subarray 420 432)
  let b := b.set 328 (old.subarray 328 408)
  b.recheck

/-- New contents under the old header: the old blocks are freed before the new ones are
taken. -/
def replaceFile (adf : Adf) (now : Int) (entryBlock : Nat) (bytes : Bytes) : WriteResult := do
  let boot ← need adf.readBoot .noFilesystem
  refuse (adf.bitmapPage = none) .bitmapUntrusted
  let header ← need (adf.blockAt entryBlock) .notFound
  refuse (header.isFileHeader = false) .notFound
  let got := (collectFileBlocks adf entryBlock []).1
  let dataCount := dataBlocks bytes.length boot.filesystem
  let (blocks, out) ← need ((adf.free (got.data ++ got.extensions)).allocate (dataCount + extBlocks dataCount)) .diskFull
  let data := blocks.take dataCount
  let exts := blocks.drop dataCount
  let out := writeDataBlocks out data bytes entryBlock boot.filesystem
  let out := out.modify entryBlock fun b => b.rewriteFileHeader header now entryBlock bytes.length
    (data.take hashTableSize) (exts.headD 0)
  return writeExtensionBlocks out entryBlock exts (data.drop hashTableSize)

/-- One header changed in place. -/
def rewriteHeader (adf : Adf) (parentBlock entryBlock : Nat) (mutate : Block → Block) : WriteResult := do
  refuse (adf.readBoot = none) .noFilesystem
  refuse (entryIn adf parentBlock entryBlock = none) .notFound
  return adf.modify entryBlock fun b => (mutate b).recheck

def setProtection (adf : Adf) (parentBlock entryBlock bits mask : Nat) : WriteResult :=
  rewriteHeader adf parentBlock entryBlock fun b =>
    b.putBe32 320 ((b.be32 320 &&& (0xffffffff ^^^ mask % 2 ^ 32)) ||| (bits &&& mask) % 2 ^ 32)

def setComment (adf : Adf) (parentBlock entryBlock : Nat) (comment : Units) : WriteResult := do
  refuse (commentMax < comment.length) .commentTooLong
  rewriteHeader adf parentBlock entryBlock fun b => b.putComment (some comment)

def setMetaOnBlock (adf : Adf) (parentBlock entryBlock : Nat) (meta_ : EntryMeta) : WriteResult := do
  refuse meta_.tooLong .commentTooLong
  rewriteHeader adf parentBlock entryBlock fun b =>
    let b := match meta_.date with
      | none => b
      | some d => b.putAmigaDate 420 d
    match meta_.comment with
    | none => b
    | some c => b.putComment (some c)

-- ---------------------------------------------------------------------------
-- Moving
-- ---------------------------------------------------------------------------

def ancestryFrom (adf : Adf) : Nat → Nat → List Nat → List Nat
  | 0, _, chain => chain
  | fuel + 1, cur, chain =>
    if cur = 0 ∨ cur ∈ chain then chain
    else if cur = adf.rootBlock then chain ++ [cur]
    else ancestryFrom adf fuel ((adf.raw cur).be32 500) (chain ++ [cur])

/-- The blocks from an entry up to the root. -/
def ancestryOf (adf : Adf) (entry : Nat) : List Nat := ancestryFrom adf (adf.blockCount + 2) entry []

def moveEntry (adf : Adf) (fromParent entryBlock toParent : Nat) : WriteResult := do
  let boot ← need adf.readBoot .noFilesystem
  refuse (adf.bitmapPage = none) .bitmapUntrusted
  if toParent = fromParent then return adf
  let header ← need (entryIn adf fromParent entryBlock) .notFound
  let dest ← need (adf.blockAt toParent) .notFound
  refuse (dest.be32 0 ≠ tHeader ∨ dest.checksumOk checksumWord = false) .notFound
  refuse (toParent ≠ adf.rootBlock ∧ dest.i32 508 ≠ stUserdir) .notADirectory
  refuse (entryBlock ∈ ancestryOf adf toParent) .cycle
  let name := header.bcplString 432 nameMax
  refuse (entryNamed adf toParent name boot.intl none) .nameExists
  let pred ← need (predecessorOf adf fromParent entryBlock name boot.intl) .notFound
  let out := unlink adf fromParent pred (header.be32 496)
  let out := out.putBe32 entryBlock 500 toParent
  let out := out.putBe32 entryBlock 496 0
  return linkIntoDirectory out toParent entryBlock name boot.intl

-- ---------------------------------------------------------------------------
-- Batches
-- ---------------------------------------------------------------------------

inductive BatchKind
  | mkdir
  | add
  | replace
  deriving DecidableEq, Repr

/-- One step of a batch; `mkdir` has no bytes and no protection. -/
structure BatchOp where
  op : BatchKind
  parentPath : Units
  name : Units
  bytes : Bytes := []
  protection : Option Nat := none
  date : Option Int := none
  comment : Option Units := none

/-- The paths a batch has resolved, the last one set first. -/
abbrev Dirs := List (Units × Nat)

def findChildBlock (adf : Adf) (parent : Nat) (name : Units) : Option Nat :=
  let intl := adf.readBoot.any (·.intl)
  ((walkDirectory adf parent).root.find? fun e => sameName e.name name intl).map (·.block)

def replaceExisting (adf : Adf) (now : Int) (parent : Nat) (name : Units) (bytes : Bytes) : WriteResult := do
  replaceFile adf now (← need (findChildBlock adf parent name) .notFound) bytes

def slash : UInt16 := 0x2f

/-- What stands before the last slash, and after it. -/
def splitLast (path : Units) : Units × Units :=
  let name := (path.reverse.takeWhile (· ≠ slash)).reverse
  (path.take (path.length - name.length - 1), name)

/-- A path through the batch's own cache, else through the disk, each part of it a directory. -/
def resolveParentPath (adf : Adf) (dirs : Dirs) (path : Units) : Nat → Except WriteError (Nat × Dirs)
  | 0 => .error .notFound
  | fuel + 1 =>
    match dirs.lookup path with
    | some block => .ok (block, dirs)
    | none => do
      let (parentPath, name) := splitLast path
      let (parent, dirs) ← resolveParentPath adf dirs parentPath fuel
      let block ← need (findChildBlock adf parent name) .notFound
      let header ← need (adf.blockAt block) .notADirectory
      refuse (header.i32 508 ≠ stUserdir) .notADirectory
      return (block, (path, block) :: dirs)

/-- The step itself, and a replace's date and comment. -/
def applyOp (cur : Adf) (now : Int) (parent : Nat) (op : BatchOp) : WriteResult :=
  let meta_ : EntryMeta := { date := op.date, comment := op.comment }
  match op.op with
  | .mkdir => makeDirectory cur now parent op.name meta_
  | .add => addFile cur now parent op.name op.bytes op.protection meta_
  | .replace => do
    let cur ← replaceExisting cur now parent op.name op.bytes
    if op.date = none ∧ op.comment = none then return cur
    setMetaOnBlock cur parent (← need (findChildBlock cur parent op.name) .notFound) meta_

def joinPath (parentPath name : Units) : Units := if parentPath = [] then name else parentPath ++ slash :: name

def applyFrom (now : Int) : List BatchOp → Adf → Dirs → WriteResult
  | [], cur, _ => .ok cur
  | op :: ops, cur, dirs => do
    let (parent, dirs) ← resolveParentPath cur dirs op.parentPath (op.parentPath.length + 2)
    let cur ← applyOp cur now parent op
    if op.op = .mkdir then
      let made ← need (findChildBlock cur parent op.name) .notFound
      applyFrom now ops cur ((joinPath op.parentPath op.name, made) :: dirs)
    else applyFrom now ops cur dirs

def applyBatch (now : Int) (ops : List BatchOp) (adf : Adf) : WriteResult :=
  applyFrom now ops adf [([], adf.rootBlock)]

end WebAdf.Adffs
