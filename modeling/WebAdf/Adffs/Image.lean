import WebAdf.Adffs.Walk

/-!
# An image as bytes

The length alone says which disk it is. A disk without a filesystem is an ordinary
answer, so `readVolume` says why instead of throwing.
-/

namespace WebAdf.Adffs

open Lib

/-- The geometry an image of this length has. -/
def geometryOf (img : Bytes) : Option Density :=
  if img.length = Density.dd.blockCount * blockBytes then some .dd
  else if img.length = Density.hd.blockCount * blockBytes then some .hd
  else none

def Adf.ofBytes (density : Density) (img : Bytes) : Adf where
  density
  block n off := if off < blockBytes then img.getD (n * blockBytes + off) 0 else 0

structure VolumeInfo where
  filesystem : Filesystem
  intl : Bool
  dirc : Bool
  name : Units
  createdAt : Option Int
  modifiedAt : Option Int

def Adf.readRoot (adf : Adf) (boot : BootInfo) : Option VolumeInfo :=
  (adf.blockAt adf.rootBlock).bind fun root =>
    if root.be32 0 ≠ tHeader then none
    else if root.i32 508 ≠ stRoot then none
    else if root.checksumOk checksumWord = false then none
    else some {
      filesystem := boot.filesystem
      intl := boot.intl
      dirc := boot.dirc
      name := root.bcplString 432 nameMax
      modifiedAt := root.amigaDate 420
      createdAt := root.amigaDate 484 }

inductive NoVolume
  | notAdf
  | noDosSignature
  | noFilesystem
  deriving DecidableEq, Repr

structure Volume where
  volume : VolumeInfo
  root : List AdfEntry
  truncated : Bool
  warnings : List Warning
  rootBlock : Nat

def readVolume (img : Bytes) : Except NoVolume Volume :=
  (geometryOf img).elim (.error .notAdf) fun density =>
    let adf := Adf.ofBytes density img
    adf.readBoot.elim (.error .noDosSignature) fun boot =>
      (adf.readRoot boot).elim (.error .noFilesystem) fun volume =>
        let walk := walkDirectory adf adf.rootBlock
        .ok ⟨volume, walk.root, walk.truncated, walk.warnings, adf.rootBlock⟩

end WebAdf.Adffs
