import Mathlib.Algebra.Group.Nat.Defs
import Mathlib.Data.List.Range
import Mathlib.Logic.Function.Basic
import WebAdf.Constants

/-!
# Disk images in the board's PSRAM

Two slots for DF0's rotation and `slotNet` for the network disk. A published
word packs a generation with the slot; the generation counts every word made,
and the word keeps its low 29 bits.
-/

namespace WebAdf.TrackCache

def slotCount : Nat := 2
def slotNet : Nat := 2
def slotAll : Nat := 3
def trackMaxBytes : Nat := 14336
def netTrackBytes : Nat := sectors * sectorDataBytes

inductive TrackState
  | absent
  | present
  | dirty
  deriving DecidableEq, Repr

/-- What a slot's tracks hold: MFM ready to stream, or sector data. -/
inductive SlotKind
  | mfm
  | adfHd
  | adfDd
  deriving DecidableEq, Repr

/-- `mem` is the track's place in PSRAM, by slot, track and offset. -/
structure Psram where
  mem : Nat → Int → Nat → UInt8
  bits : Nat → Int → Nat
  state : Nat → Int → TrackState
  kind : Nat → SlotKind
  havePsram : Bool
  haveNet : Bool
  gGen : Nat
  activeWord : Nat
  df1Word : Nat
  df1ReaderAck : Nat

-- ---------------------------------------------------------------------------
-- Words
-- ---------------------------------------------------------------------------

/-- `none` is `SLOT_NONE`. -/
def packWord (gen : Nat) : Option Nat → Nat
  | none => gen * 8 % 2 ^ 32
  | some slot => gen * 8 % 2 ^ 32 + 4 + slot % 4

def slotOfWord (w : Nat) : Option Nat := if w / 4 % 2 = 1 then some (w % 4) else none

namespace Psram

def slotOk (p : Psram) (slot : Nat) : Bool := slot < slotAll && (slot != slotNet || p.haveNet)

def slotTrackCap (slot : Nat) : Nat := if slot = slotNet then netTrackBytes else trackMaxBytes

def inRange (track : Int) : Bool := 0 ≤ track && track < tracks

/-- The slot and the track are there to use. -/
def usable (p : Psram) (slot : Nat) (track : Int) : Bool :=
  p.havePsram && p.slotOk slot && inRange track

def trackState (p : Psram) (slot : Nat) (track : Int) : TrackState :=
  if p.usable slot track then p.state slot track else .absent

def haveTrack (p : Psram) (slot : Nat) (track : Int) : Bool := p.trackState slot track != .absent

def slotKind (p : Psram) (slot : Nat) : SlotKind := if p.slotOk slot then p.kind slot else .mfm

-- ---------------------------------------------------------------------------
-- Bytes
-- ---------------------------------------------------------------------------

def bytes (p : Psram) (slot : Nat) (track : Int) (n : Nat) : Bytes :=
  (List.range n).map (p.mem slot track)

def update2 (f : Nat → Int → α) (slot : Nat) (track : Int) (a : α) : Nat → Int → α :=
  Function.update f slot (Function.update (f slot) track a)

/-- `memcpy` to the track's place. -/
def copyIn (p : Psram) (slot : Nat) (track : Int) (off : Nat) (src : Bytes) : Psram :=
  { p with mem := update2 p.mem slot track fun i =>
      if off ≤ i ∧ i < off + src.length then src.getD (i - off) 0 else p.mem slot track i }

def setTrack (p : Psram) (slot : Nat) (track : Int) (bitCount : Nat) (st : TrackState) : Psram :=
  { p with bits := update2 p.bits slot track bitCount, state := update2 p.state slot track st }

/-- A track out of an MFM slot: its bytes and its bit count. -/
def read (p : Psram) (slot : Nat) (track : Int) : Option (Bytes × Nat) :=
  if !p.haveTrack slot track then none
  else if p.kind slot ≠ .mfm then none
  else
    let nbytes := (p.bits slot track + 7) / 8
    if nbytes > trackMaxBytes then none
    else some (p.bytes slot track nbytes, p.bits slot track)

def store (p : Psram) (slot : Nat) (track : Int) (src : Bytes) (bitCount : Nat) (st : TrackState) :
    Psram :=
  if !p.usable slot track then p
  else if slot = slotNet then p
  else if p.kind slot ≠ .mfm then p
  else
    let nbytes := (bitCount + 7) / 8
    if nbytes > slotTrackCap slot then p
    else (p.copyIn slot track 0 (src.take nbytes)).setTrack slot track bitCount st

def markDirty (p : Psram) (slot : Nat) (track : Int) (src : Bytes) (bitCount : Nat) : Psram :=
  p.store slot track src bitCount .dirty

def storeAdf (p : Psram) (slot : Nat) (track : Int) (adf : Bytes) : Psram × Bool :=
  if !p.usable slot track then (p, false)
  else
    let n := match p.kind slot with
      | .adfHd => hdTrackDataBytes
      | .adfDd => netTrackBytes
      | .mfm => 0
    if n = 0 then (p, false)
    else ((p.copyIn slot track 0 (adf.take n)).setTrack slot track (n * 8) .dirty, true)

-- ---------------------------------------------------------------------------
-- The loader
-- ---------------------------------------------------------------------------

def writeAt (p : Psram) (slot : Nat) (track : Int) (offset : Nat) (src : Bytes) : Psram :=
  if !p.usable slot track then p
  else if offset + src.length > slotTrackCap slot then p
  else p.copyIn slot track offset src

def commit (p : Psram) (slot : Nat) (track : Int) (bitCount : Nat) : Psram :=
  if !p.usable slot track then p
  else if (bitCount + 7) / 8 > slotTrackCap slot then p
  else p.setTrack slot track bitCount .present

def resetSlot (p : Psram) (slot : Nat) : Psram :=
  if !p.slotOk slot then p
  else { p with
    bits := Function.update p.bits slot fun _ => 0
    state := Function.update p.state slot fun _ => .absent
    kind := Function.update p.kind slot .mfm }

def setSlotKind (p : Psram) (slot : Nat) (k : SlotKind) : Psram :=
  if p.slotOk slot then { p with kind := Function.update p.kind slot k } else p

-- ---------------------------------------------------------------------------
-- Dirty flags
-- ---------------------------------------------------------------------------

def clearDirty (p : Psram) (slot : Nat) (track : Int) : Psram :=
  if p.trackState slot track = .dirty then { p with state := update2 p.state slot track .present }
  else p

def setDirty (p : Psram) (slot : Nat) (track : Int) : Psram :=
  if p.trackState slot track = .present then { p with state := update2 p.state slot track .dirty }
  else p

def discardDirty (p : Psram) (slot : Nat) : Psram :=
  if !p.havePsram || !p.slotOk slot then p
  else { p with state := Function.update p.state slot fun track =>
      if inRange track && p.state slot track == .dirty then .present else p.state slot track }

-- ---------------------------------------------------------------------------
-- Publishing
-- ---------------------------------------------------------------------------

def activeSlot (p : Psram) : Option Nat := slotOfWord p.activeWord

def df1Slot (p : Psram) : Option Nat := slotOfWord p.df1Word

def df1Quiescent (p : Psram) : Bool := p.df1ReaderAck == p.df1Word

def makeDf1Word (p : Psram) (slot : Option Nat) : Psram :=
  { p with gGen := p.gGen + 1, df1Word := packWord (p.gGen + 1) slot }

/-- DF1 lets go of an A/B slot DF0 takes, and of any while DF0 is empty. -/
def releaseDf1 (p : Psram) (slot : Option Nat) : Psram :=
  match p.df1Slot with
  | none => p
  | some d1 =>
    if d1 ≠ slotNet ∧ (slot = none ∨ slot = some d1) then p.makeDf1Word none else p

def publishSlot (p : Psram) (slot : Option Nat) : Psram :=
  if slot.any (· ≥ slotCount) then p
  else
    let p := p.releaseDf1 slot
    { p with gGen := p.gGen + 1, activeWord := packWord (p.gGen + 1) slot }

def publishDf1 (p : Psram) (slot : Option Nat) : Psram × Bool :=
  match slot with
  | none => (p.makeDf1Word none, true)
  | some slot =>
    if slot = slotNet then
      if p.slotOk slotNet then (p.makeDf1Word (some slot), true) else (p, false)
    else if p.activeSlot = none ∨ p.activeSlot = some slot ∨ slot ≥ slotCount then (p, false)
    else (p.makeDf1Word (some slot), true)

def readerAck (p : Psram) : Psram := { p with df1ReaderAck := p.df1Word }

end Psram

end WebAdf.TrackCache
