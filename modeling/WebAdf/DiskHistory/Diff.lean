import WebAdf.Adffs.Image
import WebAdf.Constants
import WebAdf.Lib.Endian
import WebAdf.Lib.Slice

/-!
# What changed between two trees

Removed entries first, then changed ones, then added ones, each sorted by path;
and the one line that stands in where a disk has no readable tree.
-/

namespace WebAdf.DiskHistory

open Lib Adffs

inductive ChangeKind
  | added
  | changed
  | removed
  deriving DecidableEq, Repr

structure TreeChange where
  path : Units
  kind : ChangeKind
  isDir : Bool
  deriving DecidableEq, Repr

/-- A map in the order its keys were first set. -/
abbrev TreeMap := List (Units × AdfEntry)

def TreeMap.set (m : TreeMap) (path : Units) (item : AdfEntry) : TreeMap :=
  if m.any (·.1 == path) then m.map fun p => if p.1 = path then (path, item) else p else m ++ [(path, item)]

mutual

def walkEntry (parentPath : Units) (m : TreeMap) : AdfEntry → TreeMap
  | .mk name kind block size modifiedAt protection comment children =>
    let path := if parentPath = [] then name else parentPath ++ 0x2f :: name
    let m := TreeMap.set m path (.mk name kind block size modifiedAt protection comment children)
    if kind = .dir then walkEntries path m children else m

def walkEntries (parentPath : Units) (m : TreeMap) : List AdfEntry → TreeMap
  | [] => m
  | item :: items => walkEntries parentPath (walkEntry parentPath m item) items

end

def treeToMap (entries : List AdfEntry) : TreeMap := walkEntries [] [] entries

def sizeBytes : AdfEntry → Nat
  | .mk _ _ _ size .. => size

def modifiedAt : AdfEntry → Option Int
  | .mk _ _ _ _ modifiedAt .. => modifiedAt

def entriesChanged (before after : AdfEntry) : Bool :=
  sizeBytes before != sizeBytes after || before.block != after.block || modifiedAt before != modifiedAt after

/-- What became of a path the tree had before, by the group it is reported in. -/
def changesAt (afterMap : TreeMap) (kind : ChangeKind) (p : Units × AdfEntry) : List TreeChange :=
  match afterMap.lookup p.1, kind with
  | none, .removed => [⟨p.1, .removed, p.2.kind = .dir⟩]
  | some after, .removed => if p.2.kind ≠ after.kind then [⟨p.1, .removed, p.2.kind = .dir⟩] else []
  | some after, .added => if p.2.kind ≠ after.kind then [⟨p.1, .added, after.kind = .dir⟩] else []
  | some after, .changed =>
    if p.2.kind = after.kind ∧ p.2.kind = .file ∧ entriesChanged p.2 after then [⟨p.1, .changed, false⟩] else []
  | none, _ => []

/-- `localeCompare` orders two paths. -/
def diffTrees (localeCompare : Units → Units → Int) (before after : List AdfEntry) : List TreeChange :=
  let beforeMap := treeToMap before
  let afterMap := treeToMap after
  let sorted := fun changes : List TreeChange => changes.mergeSort fun a b => localeCompare a.path b.path ≤ 0
  let fresh := (afterMap.filter fun p => !beforeMap.any (·.1 == p.1)).map fun p => TreeChange.mk p.1 .added (p.2.kind = .dir)
  sorted (beforeMap.flatMap (changesAt afterMap .removed)) ++
    sorted (beforeMap.flatMap (changesAt afterMap .changed)) ++
    sorted (beforeMap.flatMap (changesAt afterMap .added) ++ fresh)

def sectorSummary (sectorCount : Nat) : String :=
  let plural := if sectorCount = 1 then "sector" else "sectors"
  s!"{sectorCount} {plural} changed"

end WebAdf.DiskHistory

/-!
# Sector deltas between two images

`buildDelta` lists the sectors in which two images differ, `applyDelta` writes
them over an image, and `encodeDelta`/`decodeDelta` are the stored form. A
built delta decodes to itself and takes its `before` to its `after`.
-/

namespace WebAdf.DiskHistory

open Lib

def sectorBytes : Nat := 512
def sectorsPerDisk : Nat := adfBytes / sectorBytes
def maxSectorsPerDisk : Nat := adfHdBytes / sectorBytes

def magic : Nat := 0x57444c44
def formatVersion : Nat := 1
def headerBytes : Nat := 16
def entryHeaderBytes : Nat := 4

structure Delta where
  sectors : List Nat
  bytes : Bytes
  deriving DecidableEq, Repr

/-- What the history code throws. -/
inductive Thrown
  | delta (message : String)
  | history (message : String)
  | storage (message : String)
  deriving DecidableEq, Repr

def isHistoryImage (img : Bytes) : Bool :=
  img.length == adfBytes || img.length == adfHdBytes

def assertImage (img : Bytes) (what : String) : Except Thrown Nat :=
  if isHistoryImage img then .ok (img.length / sectorBytes)
  else .error (.delta s!"{what} must be {adfBytes} or {adfHdBytes} bytes, got {img.length}")

/-- Sector `s` of an image. -/
def sectorOf (img : Bytes) (s : Nat) : Bytes := slice img (s * sectorBytes) sectorBytes

def buildDelta (before after : Bytes) : Except Thrown Delta := do
  let sectorsInImage ← assertImage before "before"
  let _ ← assertImage after "after"
  if before.length ≠ after.length then
    throw (.delta s!"before is {before.length} bytes and after is {after.length}: a disk has one size")
  let sectors := (List.range sectorsInImage).filter fun s => sectorOf before s ≠ sectorOf after s
  return ⟨sectors, sectors.flatMap (sectorOf after)⟩

/-- Each listed sector with its own 512-byte run. -/
def Delta.entries (d : Delta) : List (Nat × Bytes) :=
  d.sectors.zipIdx.map fun (s, n) => (s, slice d.bytes (n * sectorBytes) sectorBytes)

def applyDelta (image : Bytes) (delta : Delta) : Except Thrown Bytes := do
  let sectorsInImage ← assertImage image "image"
  if delta.bytes.length ≠ delta.sectors.length * sectorBytes then
    throw (.delta "delta payload does not match its sector count")
  delta.entries.foldlM (fun out (s, run) =>
    if s ≥ sectorsInImage then throw (.delta s!"sector {s} is outside the disk")
    else pure (blit out (s * sectorBytes) run)) image

def encodeDelta (delta : Delta) : Except Thrown Bytes :=
  if delta.bytes.length ≠ delta.sectors.length * sectorBytes then
    .error (.delta "delta payload does not match its sector count")
  else
    .ok (put32 magic ++ put16 formatVersion ++ put16 sectorBytes ++ put32 delta.sectors.length ++
      put32 0 ++ delta.entries.flatMap fun (s, run) => put32 s ++ run)

def getUint16 (src : Bytes) (i : Nat) : Nat := be16 (src.getD i 0) (src.getD (i + 1) 0)

def getUint32 (src : Bytes) (i : Nat) : Nat :=
  be32 (src.getD i 0) (src.getD (i + 1) 0) (src.getD (i + 2) 0) (src.getD (i + 3) 0)

/-- The loop over the entries: `i` is where the next one starts, `prev` the
sector before it, `-1` at the first. -/
def decodeEntries (src : Bytes) : Nat → Nat → Int → Except Thrown Delta
  | 0, _, _ => .ok ⟨[], []⟩
  | count + 1, i, prev => do
    let s := getUint32 src i
    if s ≥ maxSectorsPerDisk then throw (.delta s!"sector {s} is outside the disk")
    if (s : Int) ≤ prev then throw (.delta "delta sectors must be ascending and unique")
    let rest ← decodeEntries src count (i + entryHeaderBytes + sectorBytes) s
    return ⟨s :: rest.sectors, slice src (i + entryHeaderBytes) sectorBytes ++ rest.bytes⟩

def decodeDelta (src : Bytes) : Except Thrown Delta := do
  if src.length < headerBytes then throw (.delta "delta is too short to have a header")
  if getUint32 src 0 ≠ magic then throw (.delta "not a disk delta")
  let version := getUint16 src 4
  if version ≠ formatVersion then throw (.delta s!"unknown delta format version {version}")
  let sectorSize := getUint16 src 6
  if sectorSize ≠ sectorBytes then throw (.delta s!"unexpected sector size {sectorSize}")
  let count := getUint32 src 8
  let want := headerBytes + count * (entryHeaderBytes + sectorBytes)
  if src.length ≠ want then
    throw (.delta s!"delta claims {count} sectors ({want} bytes) but is {src.length}")
  decodeEntries src count headerBytes (-1)

def encodedSize (sectorCount : Nat) : Nat :=
  headerBytes + sectorCount * (entryHeaderBytes + sectorBytes)

/-- `SNAPSHOT_THRESHOLD` is one half, so the bound is compared doubled. -/
def shouldSnapshot (changedSectors imageBytes : Nat) : Bool :=
  imageBytes ≤ 2 * encodedSize changedSectors

end WebAdf.DiskHistory
