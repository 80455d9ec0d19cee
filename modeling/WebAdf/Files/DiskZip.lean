import WebAdf.Adffs.Walk
import WebAdf.Files.StashNames

/-!
# Zip downloads

The entries of one download, as paths and bytes in the order they are written. A
selection comes from disk images or as a device's walk; each top stands under its
own name, a later one of the same name numbered, and every name is made safe.
-/

namespace WebAdf.Files.DiskZip

open Lib
open Adffs (Adf AdfEntry Kind readFile)

def backslash : UInt16 := 0x5c
def colon : UInt16 := 0x3a

/-- What no component may hold: a separator or a control character. -/
def hostile (u : UInt16) : Bool := u == slash || u == backslash || u == colon || u < 0x20 || u == 0x7f

/-- One name as one harmless component of a path. -/
def safe (name : Units) : Units :=
  let s := name.map fun u => if hostile u then underscore else u
  if s = [] then [underscore] else if s = [dot] ∨ s = [dot, dot] then underscore :: s else s

/-- `" (n)"`. -/
def count (n : Nat) : Units := [0x20, 0x28] ++ numberText n ++ [0x29]

def numbered (name : Units) (n : Nat) : Units :=
  let at_ := lastIndexOf name dot
  if 0 < at_ then name.take at_.toNat ++ count n ++ name.drop at_.toNat else name ++ count n

/-- A path ending in a slash is a folder, and has no bytes. -/
structure ZipFile where
  path : Units
  bytes : Option Bytes
  deriving DecidableEq

inductive ZipOutcome where
  | ok (files : List ZipFile)
  | notFound
  | unreadable (name : Units)
  | tooLarge
  deriving DecidableEq

/-- One top read: its files as paths below its name. -/
structure ReadTop where
  name : Units
  files : List (Units × Option Bytes)

-- ---------------------------------------------------------------------------
-- The archive
-- ---------------------------------------------------------------------------

variable (low : LowerCase)

/-- The loop that numbers a taken name, at most `fuel` looks at the names taken. -/
def freeName (taken : List Units) (base : Units) : Nat → Nat → Units → Units
  | 0, _, name => name
  | fuel + 1, n, name =>
    if low.lower name ∈ taken then freeName taken base fuel (n + 1) (numbered base n) else name

def topName (taken : List Units) (base : Units) : Units :=
  freeName low taken base (taken.length + 2) 2 base

/-- `zipReadTops`, behind the tops whose names are `taken`. -/
def zipReadTopsFrom : List Units → List ReadTop → List ZipFile
  | _, [] => []
  | taken, t :: tops =>
    let name := topName low taken (safe t.name)
    t.files.map (fun f => ⟨name ++ f.1, f.2⟩) ++ zipReadTopsFrom (low.lower name :: taken) tops

def zipReadTops (tops : List ReadTop) : List ZipFile := zipReadTopsFrom low [] tops

-- ---------------------------------------------------------------------------
-- From images
-- ---------------------------------------------------------------------------

structure Tally where
  entries : Nat
  bytes : Nat

structure ZipLimits where
  maxEntries : Nat
  maxBytes : Nat

def Tally.add (a b : Tally) : Tally := ⟨a.entries + b.entries, a.bytes + b.bytes⟩

def Tally.over (t : Tally) (limits : ZipLimits) : Bool :=
  limits.maxEntries < t.entries || limits.maxBytes < t.bytes

mutual
def tallyTop : AdfEntry → Tally
  | .mk _ kind _ sizeBytes _ _ _ children =>
    match kind with
    | .dir => Tally.add ⟨1, 0⟩ (tallyAll children)
    | .file => ⟨1, sizeBytes⟩
def tallyAll : List AdfEntry → Tally
  | [] => ⟨0, 0⟩
  | c :: cs => (tallyTop c).add (tallyAll cs)
end

mutual
/-- `add` of `readTop`; the error is the name of a file that cannot be read. -/
def readUnder (adf : Adf) : AdfEntry → Units → Except Units (List (Units × Option Bytes))
  | .mk name kind block _ _ _ _ children, rel =>
    match kind with
    | .dir => do
      let files ← readChildren adf children rel
      .ok ((rel ++ [slash], none) :: files)
    | .file =>
      match readFile adf block with
      | none => .error name
      | some content => .ok [(rel, some content.bytes)]
def readChildren (adf : Adf) : List AdfEntry → Units → Except Units (List (Units × Option Bytes))
  | [], _ => .ok []
  | c :: cs, rel => do
    let files ← readUnder adf c (rel ++ slash :: safe c.name)
    let more ← readChildren adf cs rel
    .ok (files ++ more)
end

def readTop (adf : Adf) (entry : AdfEntry) : Except Units ReadTop := do
  let files ← readUnder adf entry []
  .ok ⟨entry.name, files⟩

def zipTops (tops : List (Adf × AdfEntry)) (limits : Option ZipLimits) : ZipOutcome :=
  let tally : Tally := (tops.map fun t => tallyTop t.2).foldl Tally.add ⟨0, 0⟩
  if limits.any tally.over then .tooLarge
  else
    match tops.mapM fun t => readTop t.1 t.2 with
    | .error name => .unreadable name
    | .ok read => .ok (zipReadTops low read)

-- ---------------------------------------------------------------------------
-- From a device's walk
-- ---------------------------------------------------------------------------

/-- One entry of a walk, with the names from its top's own on. -/
structure Item where
  rel : List Units
  kind : Kind
  bytes : Option Bytes
  size : Option Nat
  named : rel ≠ []

def Item.length (i : Item) : Nat := (i.bytes.map List.length).getD (i.size.getD 0)

def tallyIncoming (tops : List (List Item)) : Tally :=
  (tops.flatten.map fun i =>
    Tally.mk 1 (match i.kind with | .file => i.length | .dir => 0)).foldl Tally.add ⟨0, 0⟩

def readItem (i : Item) : Except Units (Units × Option Bytes) :=
  let rel := i.rel.tail.flatMap fun s => slash :: safe s
  match i.kind with
  | .dir => .ok (rel ++ [slash], none)
  | .file =>
    match i.bytes with
    | none => .error (i.rel.getLast i.named)
    | some bytes => .ok (rel, some bytes)

/-- One top of a walk; `none` where it is empty. -/
def readItems : List Item → Option (Except Units ReadTop)
  | [] => none
  | i :: items => some do
    let files ← (i :: items).mapM readItem
    .ok ⟨i.rel.head i.named, files⟩

/-- The tops read one after another, as far as the first that is not. -/
def readIncoming : List (List Item) → Except ZipOutcome (List ReadTop)
  | [] => .ok []
  | items :: tops =>
    match readItems items with
    | none => .error .notFound
    | some (.error name) => .error (.unreadable name)
    | some (.ok t) => do
      let read ← readIncoming tops
      .ok (t :: read)

def zipIncoming (tops : List (List Item)) (limits : ZipLimits) : ZipOutcome :=
  if (tallyIncoming tops).over limits then .tooLarge
  else
    match readIncoming tops with
    | .error refused => refused
    | .ok read => .ok (zipReadTops low read)

end WebAdf.Files.DiskZip
