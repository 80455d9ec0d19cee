import WebAdf.DeviceWrite.Uploader
import WebAdf.Firmware.Mfm
import WebAdf.Uploading.Tracks

/-!
# The uploader beside the drive

Two cores at work on one slot: the drive stores a track byte by byte under an
odd write generation and then marks it dirty; the uploader clears a flag, reads
the track, sends it and acts on the answer, and closes the session over a hash
of the whole image. Each step here is one access to what the two share.

The clock is left out: a wait may be over at any time.
-/

namespace WebAdf.Uploading

open Lib Firmware TrackCache DeviceWrite

/-- The drive's store: `done` bytes of `src` are copied. It is `ended` once the
track is flagged dirty, or PSRAM took nothing. -/
structure Store where
  slot : Nat
  track : Nat
  src : Bytes
  bitCount : Nat
  done : Nat
  ended : Bool

/-- `sent`: the tracks the session got a 200 for. -/
structure Uploader (σ : Type) where
  token : Nat
  opened : Nat
  current : Option BoardSession
  seq : Nat
  sent : Nat → Bool
  parked : Bool
  parkedVersion : Nat
  parkedSha : Option σ

structure Client (σ : Type) where
  mountedVersion : Nat
  mountedDiskId : String
  mountedSha : Option σ
  halted : Bool

/-- Where the uploader stands. While it hashes, `image` holds the tracks done and
`r` is the read of the next one. -/
inductive Pc
  | idle
  | cleared (t : Nat)
  | sending (r : Reader)
  | posting (u : Upload)
  | hashing (g0 : Nat) (image : List Bytes) (r : Option Reader)
  | scanning (image : List Bytes) (t : Nat)
  | closing (image : List Bytes)

structure Board (σ : Type) where
  psram : Psram
  slot : Nat
  gen : Nat
  store : Option Store
  pc : Pc
  up : Uploader σ
  client : Client σ

inductive UploadAnswer
  | noAnswer
  /-- 200, a duplicate too. -/
  | ok
  /-- 400 or 422. -/
  | permanent
  | writeProtected
  /-- 409 not_mounted, or 404. -/
  | notMounted
  | unauthorized
  /-- 5xx, or another 4xx. -/
  | other
  deriving DecidableEq

inductive CloseAnswer (σ : Type)
  | noAnswer
  | ok (sha256 : σ)
  /-- 200 without a digest. -/
  | noSha
  | permanent
  | mismatch
  | incomplete
  | notMounted
  | unauthorized
  /-- 409 conflict, 5xx, or another 4xx. -/
  | other

section
variable {σ : Type}

namespace Board

-- ---------------------------------------------------------------------------
-- The drive's core
-- ---------------------------------------------------------------------------

def dirty (b : Board σ) (t : Nat) : Bool := dirtyAt b.psram b.slot t

def held (b : Board σ) (t : Nat) : Option Bytes := Uploading.held b.psram b.slot t

/-- The track is being stored and not yet flagged. -/
def copying (b : Board σ) (t : Nat) : Bool :=
  b.store.any fun st => st.slot == b.slot && st.track == t && !st.ended

/-- What `write_back_apply` puts in the slot: the sector data, or its MFM. -/
def storeBegin (b : Board σ) (t : Nat) (adf : Bytes) (took : Bool) : Board σ :=
  let (src, bitCount) :=
    if b.psram.slotKind b.slot = .adfHd then (adf.take hdTrackDataBytes, hdTrackDataBytes * 8)
    else mfmEncodeTrack adf (UInt8.ofNat t) (List.replicate Adfmfm.trackBytes 0)
  { b with gen := (b.gen + 1) % 2 ^ 32, store := some ⟨b.slot, t, src, bitCount, 0, !took⟩ }

def storeCopy (b : Board σ) (st : Store) (k : Nat) : Board σ :=
  let chunk := slice st.src st.done k
  { b with
    psram := b.psram.copyIn st.slot st.track st.done chunk
    store := some { st with done := st.done + chunk.length } }

def storeBits (b : Board σ) (st : Store) : Board σ :=
  { b with psram := b.psram.setTrack st.slot st.track st.bitCount (b.psram.state st.slot st.track) }

def storeFlag (b : Board σ) (st : Store) : Board σ :=
  { b with
    psram := b.psram.setTrack st.slot st.track st.bitCount .dirty
    store := some { st with ended := true } }

def storeEnd (b : Board σ) : Board σ := { b with gen := (b.gen + 1) % 2 ^ 32, store := none }

-- ---------------------------------------------------------------------------
-- Sessions
-- ---------------------------------------------------------------------------

def clearSession (b : Board σ) : Board σ :=
  { b with up := { b.up with current := none, seq := 0, sent := fun _ => false } }

/-- Every track the session got a 200 for goes again. -/
def redirty (b : Board σ) : Board σ :=
  { b with
    psram := (List.range tracks).foldl
      (fun p t => if b.up.sent t then p.setDirty b.slot t else p) b.psram }

def setDirty (b : Board σ) (t : Nat) : Board σ := { b with psram := b.psram.setDirty b.slot t }

def park (b : Board σ) : Board σ :=
  let b := b.redirty.clearSession
  { b with up := { b.up with
      parked := true
      parkedVersion := b.client.mountedVersion
      parkedSha := b.client.mountedSha } }

/-- The dirty tracks are given up; the poll fetches the server's image. -/
def serverWins (b : Board σ) : Board σ :=
  { b with psram := b.psram.discardDirty b.slot }.clearSession

/-- A board that parked goes on once the mount has changed. -/
def refresh [DecidableEq σ] (b : Board σ) : Board σ :=
  if b.up.parked ∧
      (b.client.mountedVersion ≠ b.up.parkedVersion ∨ b.client.mountedSha ≠ b.up.parkedSha) then
    { b with up := { b.up with parked := false } }
  else b

def nextDirty (b : Board σ) : Option Nat := (List.range tracks).find? b.dirty

def pending (b : Board σ) : Bool := b.up.current.isSome || b.nextDirty.isSome

def hasWork (b : Board σ) : Bool :=
  !b.client.halted && b.client.mountedSha.isSome && !b.up.parked && b.pending

-- ---------------------------------------------------------------------------
-- Sending a track
-- ---------------------------------------------------------------------------

/-- The session an upload goes under, opened if there is none. -/
def openSession (b : Board σ) : Board σ :=
  match b.up.current with
  | some _ => b
  | none =>
    { b with up := { b.up with
        current := some ⟨b.up.opened + 1, b.up.token, b.client.mountedVersion, b.client.mountedDiskId⟩
        opened := b.up.opened + 1
        seq := 0
        sent := fun _ => false } }

def clearDirty (b : Board σ) (t : Nat) : Board σ :=
  { b with psram := b.psram.clearDirty b.slot t, pc := .cleared t }

/-- The track was read, and `fits` where its request is not too long to send. -/
def sendTrack (b : Board σ) (r : Reader) (stale : Bytes) (fits : Bool) (e : BoardSession) :
    Board σ × Option Upload :=
  match r.finish b.psram b.slot stale with
  | none => ({ b with pc := .idle }.setDirty r.track, none)
  | some trk =>
    let seq := (b.up.seq + 1) % 2 ^ 32
    let b := { b with up := { b.up with seq := seq } }
    if fits then
      let u : Upload := ⟨e, r.track, seq, trk⟩
      ({ b with pc := .posting u }, some u)
    else (({ b with pc := .idle }.setDirty r.track).park, none)

def halt (b : Board σ) : Board σ := { b with client := { b.client with halted := true } }

def uploadAnswered (b : Board σ) (t : Nat) (a : UploadAnswer) : Board σ :=
  let b := { b with pc := .idle }
  match a with
  | .ok => { b with up := { b.up with sent := fun i => i == t || b.up.sent i } }
  | .permanent | .notMounted => (b.setDirty t).park
  | .writeProtected => b.serverWins
  | .unauthorized => (b.setDirty t).halt
  | .noAnswer | .other => b.setDirty t

-- ---------------------------------------------------------------------------
-- Closing
-- ---------------------------------------------------------------------------

/-- The first read of the write generation. -/
def closeStart (b : Board σ) : Board σ :=
  if b.gen % 2 = 1 then b else { b with pc := .hashing b.gen [] none }

/-- A track of the image was read. -/
def hashTrack (b : Board σ) (g0 : Nat) (image : List Bytes) (r : Reader) (stale : Bytes) : Board σ :=
  match r.finish b.psram b.slot stale with
  | none => { b with pc := .idle }
  | some trk => { b with pc := .hashing g0 (image ++ [trk]) none }

/-- The second read of the write generation. -/
def closeCheck (b : Board σ) (g0 : Nat) (image : List Bytes) : Board σ :=
  if b.gen ≠ g0 then { b with pc := .idle } else { b with pc := .scanning image 0 }

def scan (b : Board σ) (image : List Bytes) (t : Nat) : Board σ :=
  if b.dirty t then { b with pc := .idle } else { b with pc := .scanning image (t + 1) }

def sendClose (b : Board σ) (image : List Bytes) (fits : Bool) (sha256Of : Bytes → σ)
    (e : BoardSession) : Board σ × Option (Close σ) :=
  if fits then ({ b with pc := .closing image }, some ⟨e, b.up.seq, sha256Of image.flatten⟩)
  else ({ b with pc := .idle }.park, none)

def closeAnswered (b : Board σ) (a : CloseAnswer σ) : Board σ :=
  let b := { b with pc := .idle }
  match a with
  | .ok sha256 => { b with client := { b.client with mountedSha := some sha256 } }.clearSession
  | .permanent | .notMounted => b.park
  | .mismatch => b.serverWins
  | .incomplete => b.redirty
  | .unauthorized => b.halt
  | .noAnswer | .noSha | .other => b

end Board

end

end WebAdf.Uploading
