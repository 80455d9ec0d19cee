import Mathlib.Data.List.Find
import WebAdf.Constants

/-!
# The board's uploader

One request at a time: each dirty track is sent under the next `seq` of the
session, and when none is left the session is closed. An answer, or none, says
what stays dirty and whether the session goes on.

`BoardSession.number` is not sent. It tells apart two sessions of one boot at
one mount, which look the same to the server.
-/

namespace WebAdf.DeviceWrite

structure BoardSession where
  number : Nat
  token : Nat
  mount : Nat
  diskId : String
  deriving DecidableEq, Repr

/-- `/api/device/write`: one attempt to send a track. -/
structure Upload where
  session : BoardSession
  track : Nat
  seq : Nat
  data : Bytes
  deriving DecidableEq, Repr

/-- `/api/device/write/close`, with the digest of the image the board holds. -/
structure Close (σ : Type) where
  session : BoardSession
  seq : Nat
  sha256 : σ
  deriving DecidableEq, Repr

inductive Request (σ : Type)
  | upload (u : Upload)
  | close (q : Close σ)
  deriving DecidableEq, Repr

/-- What a route answers; `failed` is a handler that threw or died. -/
inductive Answer (σ : Type)
  | staged (track : Nat)
  | duplicate
  | invalidBody
  | notFound
  | notMounted (behind : Bool)
  | writeProtected
  | closed (sha256 : σ) (unchanged : Bool)
  | mismatch (sha256 : σ)
  | incomplete
  | conflict
  | failed
  deriving DecidableEq, Repr

/-- The uploader and the image it serves. `opened` counts the sessions so far;
`seq` and `sent` are the current session's. -/
structure Board (σ : Type) where
  token : Nat
  mountedVersion : Nat
  mountedDiskId : String
  image : Nat → Bytes
  dirty : Nat → Bool
  opened : Nat
  current : Option BoardSession
  seq : Nat
  sent : Nat → Bool
  parked : Bool
  waiting : Option (Request σ)

section
variable {σ : Type}

def Board.nextDirty (b : Board σ) : Option Nat := (List.range tracks).find? b.dirty

def Board.setDirty (b : Board σ) (t : Nat) : Board σ :=
  { b with dirty := fun i => i == t || b.dirty i }

def Board.clearDirty (b : Board σ) (t : Nat) : Board σ :=
  { b with dirty := fun i => i != t && b.dirty i }

def Board.clearSession (b : Board σ) : Board σ :=
  { b with current := none, seq := 0, sent := fun _ => false }

/-- Every track the session got an answer for goes again. -/
def Board.redirty (b : Board σ) : Board σ := { b with dirty := fun i => b.sent i || b.dirty i }

def Board.park (b : Board σ) : Board σ := { b.redirty.clearSession with parked := true }

def Board.serverWins (b : Board σ) : Board σ := { b.clearSession with dirty := fun _ => false }

/-- The session an upload goes under, opened if there is none. -/
def Board.openSession (b : Board σ) : Board σ × BoardSession :=
  match b.current with
  | some e => (b, e)
  | none =>
    let e := ⟨b.opened + 1, b.token, b.mountedVersion, b.mountedDiskId⟩
    ({ b with current := some e, opened := b.opened + 1, seq := 0, sent := fun _ => false }, e)

/-- The track's dirty flag is cleared before it is read, and the attempt spends
its `seq` before it is sent. -/
def Board.sendTrack (b : Board σ) (t : Nat) : Board σ × Upload :=
  let (b, e) := b.openSession
  let b := b.clearDirty t
  let u : Upload := ⟨e, t, b.seq + 1, b.image t⟩
  ({ b with seq := b.seq + 1, waiting := some (.upload u) }, u)

/-- A read torn by the drive's store: nothing is sent. -/
def Board.torn (b : Board σ) : Board σ := b.openSession.1

def Board.uploadAnswered (b : Board σ) (t : Nat) : Answer σ → Board σ
  | .staged _ | .duplicate => { b with sent := fun i => i == t || b.sent i }
  | .writeProtected => b.serverWins
  | .invalidBody | .notMounted _ | .notFound => (b.setDirty t).park
  | _ => b.setDirty t

def Board.closeAnswered (b : Board σ) : Answer σ → Board σ
  | .closed _ _ => b.clearSession
  | .mismatch _ => b.serverWins
  | .incomplete => b.redirty
  | .invalidBody | .notMounted _ | .notFound => b.park
  | _ => b

/-- The answer to the request the board waits for. -/
def Board.answered (b : Board σ) (r : Request σ) (a : Answer σ) : Board σ :=
  let b := { b with waiting := none }
  match r with
  | .upload u => b.uploadAnswered u.track a
  | .close _ => b.closeAnswered a

/-- No answer: a track goes again, a close is tried again later. -/
def Board.unanswered (b : Board σ) : Request σ → Board σ
  | .upload u => { b with waiting := none }.setDirty u.track
  | .close _ => { b with waiting := none }

/-- After a power cycle: another token, and nothing held. -/
def Board.reboot (b : Board σ) : Board σ :=
  { b with
    token := b.token + 1, dirty := fun _ => false, current := none, seq := 0
    sent := fun _ => false, parked := false, waiting := none }

end

end WebAdf.DeviceWrite
