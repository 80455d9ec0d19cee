import WebAdf.Constants

/-!
# The file system's hooks

What the core asks of the machine it runs on. Every hook may change the machine
and may fail as it likes; errors are AmigaDOS error numbers, and 0 is none.
-/

namespace WebAdf.Receive

def dosInUse : Nat := 202
def dosExists : Nat := 203
def dosDirNotFound : Nat := 204
def dosNotFound : Nat := 205
def dosWrongType : Nat := 212
def dosNotEmpty : Nat := 216
def dosReadProtected : Nat := 224

/-- What `Examine` says about a file. -/
structure Finfo where
  size : Nat := 0
  prot : Nat := 0
  days : Nat := 0
  mins : Nat := 0
  ticks : Nat := 0
  comment : Bytes := []

structure Vol where
  name : Bytes := []
  device : Bytes := []
  size : Nat := 0
  free : Nat := 0
  days : Nat := 0
  mins : Nat := 0
  ticks : Nat := 0

structure Dent where
  isDir : Bool
  size : Nat
  prot : Nat
  days : Nat
  mins : Nat
  ticks : Nat
  isLink : Bool
  name : Bytes
  comment : Bytes

inductive Next
  | failed (err : Nat)
  | finished
  | entry (e : Dent)

structure Fs (φ : Type) where
  malloc : φ → Bool × φ
  folderOk : φ → Bool × φ
  freeBytes : φ → Nat × φ
  existsRel : Bytes → φ → Bool × φ
  makeDir : Bytes → φ → Bool × φ
  openW : Bytes → φ → Bool × φ
  write : Bytes → φ → Bool × φ
  closeW : φ → Bool × φ
  rename : Bytes → Bytes → φ → Bool × φ
  remove : Bytes → φ → Bool × φ
  setMeta : Bytes → Nat → Bytes → φ → Bool × φ
  openR : Bytes → φ → Option Finfo × φ
  /-- Fewer bytes than asked for only at the end; `none` where it failed. -/
  read : Nat → φ → Option Bytes × φ
  closeR : φ → φ
  vols : φ → Option (List Vol) × φ
  dirOpen : Bytes → φ → Nat × φ
  dirNext : φ → Next × φ
  /-- A listing has an end. -/
  dirLeft : φ → Nat
  dirNext_left : ∀ {d e d'}, dirNext d = (.entry e, d') → dirLeft d' < dirLeft d
  dirClose : φ → φ
  /-- With whether it is a drawer. -/
  stat : Bytes → φ → Nat × Finfo × Bool × φ
  fault : Nat → φ → Bytes × φ
  /-- The error of the last failed hook. -/
  err : φ → Nat × φ
  freeAt : Bytes → φ → Nat × φ
  wMkdir : Bytes → φ → Nat × φ
  wRename : Bytes → Bytes → φ → Nat × φ
  wDelete : Bytes → φ → Nat × φ
  wProtect : Bytes → Nat → φ → Nat × φ
  wNote : Bytes → Bytes → φ → Nat × φ
  wIcon : Bytes → φ → Nat × φ

end WebAdf.Receive
