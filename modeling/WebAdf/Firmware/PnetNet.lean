import Mathlib.Logic.Relation
import WebAdf.Firmware.PnetLink
import WebAdf.Lib.StopAndWait

/-!
# The link with the Amiga at its other end

The board with its two rings, an Amiga that takes a batch once for each counter and
echoes the last it took, and the two ways between them. A batch may be lost, repeated
or damaged on either; damage toward the Amiga is a batch it refuses, so a lost one.
What damage the board's way does is a parameter.
-/

namespace WebAdf.Firmware

open Lib
open Relation (ReflTransGen)

/-- A batch on its way to the Amiga. `no` and `ackNo` number it and the batch it
acknowledges; no step reads them. -/
structure ToAmiga where
  pico : UInt8
  amiga : UInt8
  frames : List Bytes
  no : Nat
  ackNo : Nat

/-- What the board will capture, numbered likewise. -/
structure ToBoard where
  bytes : Bytes
  no : Nat
  ackNo : Nat

structure AmigaBatch where
  compressed : UInt8
  payload : Bytes

/-- `out` while its batch is unacknowledged; `last` is the counter it took last. -/
structure Amiga where
  ctr : UInt8
  out : Bool
  batch : AmigaBatch
  last : UInt8
  received : List (List Bytes)

/-- A batch the board took, with what window, and how many of its frames went into the
ring. -/
structure Taking where
  batch : AmigaBatch
  win : Option Bytes
  passed : Nat

/-- The frames of the batch that can be read. -/
def Taking.frames (t : Taking) : List Bytes := PnetLink.batchFrames t.batch.compressed t.win t.batch.payload

/-- How many of its frames did not go into the ring. -/
def Taking.missed (t : Taking) : Nat := PnetLink.batchCount t.batch.payload - t.passed

/-- After `toBoard`, what happened so far: the batches the board started, whether one
was shrunk, the frames queued, the Amiga's batches, those taken, and the frames that
left `tx`. -/
structure PnetNet where
  link : PnetLink
  rx : PnetRing
  tx : PnetRing
  amiga : Amiga
  toAmiga : List ToAmiga
  toBoard : List ToBoard
  started : Nat
  shrunk : Bool
  queued : List Bytes
  sent : List AmigaBatch
  takings : List Taking
  released : List Bytes

namespace Amiga

def boot : Amiga := { ctr := 0xff, out := false, batch := ⟨0, []⟩, last := 0x7f, received := [] }

def header (a : Amiga) (b : AmigaBatch) (dataSize : UInt16) : PnetHdr where
  checksum := pnetChecksum b.payload
  dataSize := dataSize
  compressedSize := UInt16.ofNat b.payload.length
  mode := pnetModeEthernet
  compressed := b.compressed
  amigaCtr := a.ctr
  picoCtr := a.last

/-- The batch `b` as the board captures it, and what was on the track after it. -/
def bytes (a : Amiga) (b : AmigaBatch) (dataSize : UInt16) (tail : Bytes) : Bytes :=
  hdrPack (a.header b dataSize) ++ (b.payload ++ tail)

def start (a : Amiga) (b : AmigaBatch) : Amiga := { a with ctr := a.ctr + 1, out := true, batch := b }

/-- A batch from the board: its acknowledgement, and its frames where it is new. -/
def take (a : Amiga) (c : ToAmiga) : Amiga :=
  { a with
      out := a.out && c.amiga != a.ctr
      last := c.pico
      received := if c.pico = a.last then a.received else a.received ++ [c.frames] }

end Amiga

namespace PnetNet

def boot (rxMem txMem : Nat → Bytes) (rxSlots txSlots : UInt32) : PnetNet where
  link := .init
  rx := (PnetRing.init rxMem rxSlots).2
  tx := (PnetRing.init txMem txSlots).2
  amiga := .boot
  toAmiga := []
  toBoard := []
  started := 0
  shrunk := false
  queued := []
  sent := []
  takings := []
  released := []

def queue (n : PnetNet) (f : Bytes) : PnetNet :=
  { n with rx := (n.rx.push f).2, queued := n.queued ++ if (n.rx.push f).1 then [f] else [] }

def start (n : PnetNet) (k : Nat) : PnetNet :=
  { n with link := n.link.start k, started := if k = 0 ∨ n.link.backup then n.started else n.started + 1 }

def shrink (n : PnetNet) (k : Nat) : PnetNet := { n with link := n.link.shrink k, shrunk := true }

/-- The batch out, built from the front of the ring. -/
def boardSend (n : PnetNet) : PnetNet :=
  { n with
      toAmiga := n.toAmiga ++
        [{ pico := n.link.pico, amiga := n.link.lastAmiga, frames := n.rx.frames.take n.link.nframes.toNat
           no := n.started, ackNo := n.takings.length }] }

/-- A capture: refused by the checks, or its acknowledgement and then its batch. -/
def capture (n : PnetNet) (c : ToBoard) (rest : List ToBoard) (win : Option Bytes) : PnetNet :=
  match pnetParseHdrFromAmiga c.bytes with
  | .error _ => { n with toBoard := rest }
  | .ok h =>
    let (acked, link) := n.link.ack h
    let payload := slice c.bytes pnetHdrBytes h.compressedSize.toNat
    let (new, link, tx) := link.takeLz4 h payload n.tx win
    { n with
        link := link
        rx := n.rx.drop acked.toUInt32
        tx := tx
        toBoard := rest
        takings :=
          if new then n.takings ++ [⟨⟨h.compressed, payload⟩, win, (tx.count - n.tx.count).toNat⟩] else n.takings }

/-- Frames leave the ring toward the network. -/
def release (n : PnetNet) (k : UInt32) : PnetNet :=
  { n with tx := n.tx.drop k, released := n.released ++ n.tx.frames.take k.toNat }

def amigaStart (n : PnetNet) (b : AmigaBatch) : PnetNet :=
  { n with amiga := n.amiga.start b, sent := n.sent ++ [b] }

def amigaSend (n : PnetNet) (b : AmigaBatch) (dataSize : UInt16) (tail : Bytes) : PnetNet :=
  { n with
      toBoard := n.toBoard ++
        [{ bytes := n.amiga.bytes b dataSize tail, no := n.sent.length, ackNo := n.amiga.received.length }] }

def amigaTake (n : PnetNet) (c : ToAmiga) (rest : List ToAmiga) : PnetNet :=
  { n with amiga := n.amiga.take c, toAmiga := rest }

/-- How many frames left the board's send ring. -/
def gone (n : PnetNet) : Nat := n.queued.length - n.rx.frames.length

/-- The board starts a batch of frames it holds, the Amiga one batch after another was
acknowledged. `Damage b b'` lets `b'` arrive for `b`. -/
inductive Step (Damage : Bytes → Bytes → Prop) (n : PnetNet) : PnetNet → Prop
  | queue (f : Bytes) : Step Damage n (n.queue f)
  | start (k : Nat) (hk : k ≤ n.rx.frames.length) : Step Damage n (n.start k)
  | shrink (k : Nat) : Step Damage n (n.shrink k)
  | boardSend : Step Damage n n.boardSend
  | capture (win : Option Bytes) (hc : n.toBoard = c :: rest) : Step Damage n (n.capture c rest win)
  | release (k : UInt32) : Step Damage n (n.release k)
  | amigaStart (b : AmigaBatch) (hout : n.amiga.out = false) : Step Damage n (n.amigaStart b)
  | amigaSend (b : AmigaBatch) (dataSize : UInt16) (tail : Bytes) (hb : n.amiga.out = true → b = n.amiga.batch)
      (hlen : b.payload.length < 2 ^ 16) : Step Damage n (n.amigaSend b dataSize tail)
  | amigaTake (hc : n.toAmiga = c :: rest) : Step Damage n (n.amigaTake c rest)
  | faultyAmiga (hf : Faulty n.toAmiga ways) : Step Damage n { n with toAmiga := ways }
  | faultyBoard (hf : Faulty n.toBoard ways) : Step Damage n { n with toBoard := ways }
  | damage (early : List ToBoard) (b : Bytes) (hc : n.toBoard = early ++ c :: late) (hd : Damage c.bytes b) :
      Step Damage n { n with toBoard := early ++ { c with bytes := b } :: late }

/-- Damage that the board's checks notice. -/
def Noticed (_ b : Bytes) : Prop := ∃ e, pnetParseHdrFromAmiga b = .error e

/-- Any bytes of the same length. -/
def AnyDamage (b b' : Bytes) : Prop := b'.length = b.length

-- ---------------------------------------------------------------------------
-- What the link is for
-- ---------------------------------------------------------------------------

/-- `got` is the queue in pieces: each starts after the start of the one before it, and
no later than where that one ends (`whole`: just there). The next starts at `g`. -/
inductive Delivered (whole : Prop) (queue : List Bytes) : List (List Bytes) → Nat → Prop
  | none : Delivered whole queue [] 0
  | batch (h : Delivered whole queue got g) (hw : w = (queue.drop g).take w.length) (hlt : g < g')
      (hle : g' ≤ g + w.length) (hwhole : whole → g' = g + w.length) : Delivered whole queue (got ++ [w]) g'

/-- From `n` to `n'` a capture acknowledged the batch out, whose frames left the ring;
the Amiga's last batch has them. -/
structure Acknowledged (n n' : PnetNet) : Prop where
  header : ∃ c rest win h, n.toBoard = c :: rest ∧ n' = n.capture c rest win ∧ pnetParseHdrFromAmiga c.bytes = .ok h ∧
    h.picoCtr = n.link.pico
  out : n.link.backup = true
  left : n'.rx.frames = n.rx.frames.drop n.link.nframes.toNat
  received : ∃ w ∈ n.amiga.received.getLast?, n.rx.frames.take n.link.nframes.toNat <+: w

/-- What holds of the link at any time. -/
structure Delivers (n : PnetNet) : Prop where
  held : n.rx.frames <:+ n.queued
  delivered : ∃ g, n.gone ≤ g ∧ Delivered (n.shrunk = false) n.queued n.amiga.received g
  noneLost : (n.queued.take n.gone).Sublist n.amiga.received.flatten
  noneTwice : n.shrunk = false → n.amiga.received.flatten <+: n.queued
  once : n.takings.map Taking.batch = n.sent.take n.takings.length
  acknowledged : n.amiga.out = false → n.takings.length = n.sent.length
  passed : n.released ++ n.tx.frames = n.takings.flatMap fun t => t.frames.take t.passed
  within : ∀ t ∈ n.takings, t.passed ≤ t.frames.length ∧ t.passed ≤ PnetLink.batchCount t.batch.payload
  counted : n.link.queued = UInt32.ofNat (n.takings.map Taking.passed).sum ∧
    n.link.over_ + n.link.malformed = UInt32.ofNat (n.takings.map Taking.missed).sum

end PnetNet

end WebAdf.Firmware
