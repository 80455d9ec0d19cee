import Mathlib
import WebAdf.Firmware.Mfm
import WebAdf.TrackCache.PsramImage

/-!
# The track cache

Two buffers, each tagged with a track and the whole word it was read under: one
feeds the drive while the other is filled. A write that lands in PSRAM drops
the buffers of its track, which the tags alone would not tell.

The system around it: core 1 loads images into slots no drive holds and
publishes; core 0 applies writes, serves both drives and acknowledges DF1's
word.
-/

namespace WebAdf.TrackCache

open Lib Firmware

def trackBufBytes : Nat := 25344
def adfMfmHdTrackBits : Nat := 202688

structure SramBuf where
  token : Nat
  track : Int
  bitCount : Nat
  data : Bytes

structure Cache where
  buf : Fin 2 → SramBuf
  active : Fin 2

namespace Cache

/-- There are two buffers, so that a numeral can index them. -/
local instance twoBuffers : NeZero 2 := ⟨Nat.succ_ne_zero 1⟩

def init : Cache where
  buf := fun _ => ⟨0, -1, 0, List.replicate trackBufBytes 0⟩
  active := 0

def setBuf (c : Cache) (i : Fin 2) (b : SramBuf) : Cache := { c with buf := Function.update c.buf i b }

/-- The first buffer that holds the track under the token. -/
def hit (c : Cache) (token : Nat) (track : Int) : Option (Fin 2) :=
  [0, 1].find? fun i => (c.buf i).track == track && (c.buf i).token == token

/-- The bytes `out` with the slot's track over their start, encoded or copied,
and its bit count where the slot has the track. -/
def render (p : Psram) (slot : Nat) (track : Int) (out : Bytes) : Bytes × Option Nat :=
  let k := p.slotKind slot
  if k = .adfHd ∨ k = .adfDd then
    let nsec := if k = .adfHd then hdSectors else sectors
    if !p.haveTrack slot track then (out, none)
    else
      let (data, n) := adfMfmEncodeTrack (p.bytes slot track (nsec * sectorDataBytes)) nsec
        track.toNat out
      (data, if n = 0 then none
        else some (if k = .adfHd then adfMfmHdTrackBits else Adfmfm.trackBytes * 8))
  else match p.read slot track with
    | some (bytes, bitCount) => (blit out 0 bytes, some bitCount)
    | none => (out, none)

/-- The idle buffer is untagged before it is written, and a completed fill tags
it and makes it the active one. -/
def fill (c : Cache) (p : Psram) (token slot : Nat) (track : Int) : Cache × Option (Fin 2 × Nat) :=
  let dst := c.active ^^^ 1
  match render p slot track (c.buf dst).data with
  | (data, some bitCount) =>
    ({ c.setBuf dst ⟨token, track, bitCount, data⟩ with active := dst }, some (dst, bitCount))
  | (data, none) => (c.setBuf dst { c.buf dst with track := -1, data := data }, none)

/-- The buffer that is returned and its bit count. -/
def getToken (c : Cache) (p : Psram) (token : Nat) (track : Int) :
    Cache × Option (Fin 2 × Nat) :=
  if track < 0 ∨ track ≥ tracks then (c, none)
  else match slotOfWord token with
    | none => (c, none)
    | some slot =>
      match c.hit token track with
      | some i => ({ c with active := i }, some (i, (c.buf i).bitCount))
      | none => c.fill p token slot track

def invalidate (c : Cache) (track : Int) : Cache :=
  { c with buf := fun i =>
      if (c.buf i).track = track then { c.buf i with track := -1 } else c.buf i }

end Cache

/-- Whether it landed. -/
def writeBackApply (p : Psram) (slot : Nat) (track : Int) (adfTrack : Bytes) : Psram × Bool :=
  if p.slotKind slot = .adfHd then p.storeAdf slot track adfTrack
  else
    let (mfm, bits) := mfmEncodeTrack adfTrack (UInt8.ofNat track.toNat)
      (List.replicate Adfmfm.trackBytes 0)
    let p := p.markDirty slot track mfm bits
    (p, p.trackState slot track == .dirty)

-- ---------------------------------------------------------------------------
-- The board
-- ---------------------------------------------------------------------------

/-- `last` is the buffer returned last. -/
structure State where
  psram : Psram
  cache : Cache
  last : Option (Fin 2)

inductive LoadOp
  | reset
  | kind
  | writeAt (track : Int) (offset : Nat) (src : Bytes)
  | commit (track : Int) (bitCount : Nat)

inductive Action
  /-- One step of an image load into a slot. -/
  | load (slot : Nat) (op : LoadOp)
  | publish (slot : Option Nat)
  | publishDf1 (slot : Option Nat)
  | ackDf1
  /-- A verified write, with the invalidation that follows it. -/
  | apply (track : Int) (adfTrack : Bytes)
  | get (track : Int)
  | getDf1 (track : Int)
  | clearDirty (slot : Nat) (track : Int)
  | setDirty (slot : Nat) (track : Int)
  | discardDirty (slot : Nat)

/-- The loader sets the kind its slot's images have. -/
def LoadOp.run (p : Psram) (slot : Nat) : LoadOp → Psram
  | .reset => p.resetSlot slot
  | .kind => p.setSlotKind slot (if slot = slotNet then .adfDd else .adfHd)
  | .writeAt track offset src => p.writeAt slot track offset src
  | .commit track bitCount => p.commit slot track bitCount

/-- No drive holds the slot, and core 0 has let go of DF1's. -/
def Psram.unpublished (p : Psram) (slot : Nat) : Bool :=
  p.activeSlot != some slot && p.df1Slot != some slot && p.df1Quiescent

def State.serve (s : State) (token : Nat) (track : Int) : State :=
  match s.cache.getToken s.psram token track with
  | (c, some (i, _)) => { s with cache := c, last := some i }
  | (c, none) => { s with cache := c }

/-- One step; `none` where it cannot be taken. -/
def step (s : State) : Action → Option State
  | .load slot op =>
    if s.psram.unpublished slot then some { s with psram := op.run s.psram slot } else none
  | .publish slot => some { s with psram := s.psram.publishSlot slot }
  | .publishDf1 slot => some { s with psram := (s.psram.publishDf1 slot).1 }
  | .ackDf1 => some { s with psram := s.psram.readerAck }
  | .apply track adfTrack =>
    s.psram.activeSlot.map fun slot =>
      let (p, ok) := writeBackApply s.psram slot track adfTrack
      { s with psram := p, cache := if ok then s.cache.invalidate track else s.cache }
  | .get track => some (s.serve s.psram.activeWord track)
  | .getDf1 track => some (s.serve s.psram.df1ReaderAck track)
  | .clearDirty slot track => some { s with psram := s.psram.clearDirty slot track }
  | .setDirty slot track => some { s with psram := s.psram.setDirty slot track }
  | .discardDirty slot => some { s with psram := s.psram.discardDirty slot }

/-- After `track_cache_init`, whatever PSRAM is fitted and holds. -/
structure Boot (s : State) : Prop where
  cache : s.cache = Cache.init
  last : s.last = none
  bits : ∀ slot track, s.psram.bits slot track = 0
  state : ∀ slot track, s.psram.state slot track = .absent
  kind : ∀ slot, s.psram.kind slot = .mfm
  gGen : s.psram.gGen = 0
  activeWord : s.psram.activeWord = 0
  df1Word : s.psram.df1Word = 0
  df1ReaderAck : s.psram.df1ReaderAck = 0

def Reaches : State → State → Prop := Relation.ReflTransGen fun s t => ∃ a, step s a = some t

end WebAdf.TrackCache
