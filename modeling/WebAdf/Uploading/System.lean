import Mathlib.Logic.Relation
import WebAdf.Uploading.Uploader

/-!
# Board and server, step by step

The server stages an upload when its `seq` is above the session's last, and a
close records what is staged over the mounted image. Any copy of a request may
reach it at any time while the session is on, and the board may be answered
anything; only the digest of a 200 to a close is that of the image the server
holds.

A track is `yielded` once the server's copy has won over the board's: the board
knew it for unsent and discarded that, or a close was answered with another
image than the board's.
-/

namespace WebAdf.Uploading

open Lib TrackCache DeviceWrite

structure Row where
  lastSeq : Nat
  staged : Nat → Option Bytes

def Row.empty : Row := ⟨0, fun _ => none⟩

structure State (σ : Type) where
  board : Board σ
  base : Nat → Bytes
  rows : BoardSession → Row
  uploads : List Upload
  closes : List (Close σ)
  yielded : Nat → Bool

inductive Action (σ : Type)
  /-- A verified write of the drive's begins to be stored. -/
  | storeBegin (t : Nat) (adf : Bytes) (took : Bool)
  | storeCopy (k : Nat)
  | storeBits
  | storeFlag
  | storeEnd
  | sendTrack (t : Nat)
  | readStart
  | read (k : Nat)
  | readDone (stale : Bytes) (fits : Bool)
  | uploadAnswered (a : UploadAnswer)
  | closeStart
  | hashDone (stale : Bytes)
  | closeCheck
  | scan
  | sendClose (fits : Bool)
  | closeAnswered (a : CloseAnswer σ)
  /-- A copy of upload `i` reaches the server. -/
  | stage (i : Nat)
  /-- A copy of close `i` reaches the server, and it records. -/
  | record (i : Nat)
  /-- The mount has another version: the same disk. -/
  | bumped (version : Nat) (diskId : String)
  /-- A fetched image, in a slot of its own, is mounted. -/
  | mounted (psram : Psram) (slot : Nat) (base : Nat → Bytes) (version : Nat) (diskId : String)
    (sha256 : σ)

section
variable {σ : Type}

def imageOf (base : Nat → Bytes) : Bytes := (List.range tracks).flatMap base

/-- A track as the server has it for the session: staged, or of the mounted
image. -/
def State.view (s : State σ) (e : Option BoardSession) (t : Nat) : Bytes :=
  (e.bind fun e => (s.rows e).staged t).getD (s.base t)

/-- The row after an upload: a `seq` that is not above the last is a repeat. -/
def Row.stage (r : Row) (u : Upload) : Row :=
  if u.seq ≤ r.lastSeq then r
  else ⟨u.seq, Function.update r.staged u.track (some u.data)⟩

/-- The slot holds the image, and nothing in it is dirty. -/
def Loaded (p : Psram) (slot : Nat) (base : Nat → Bytes) : Prop :=
  ∀ t < tracks, p.haveTrack slot t = true ∧ dirtyAt p slot t = false ∧
    held p slot t = some (base t)

/-- The uploader has read the track, or is about to, and has no answer yet. -/
def Pc.inFlight : Pc → Nat → Bool
  | .cleared t, i => t == i
  | .sending r, i => r.track == i
  | .posting u, i => u.track == i
  | _, _ => false

/-- The tracks the uploader knows it owes the server, or may owe it again. -/
def Board.owes (b : Board σ) (t : Nat) : Bool := b.dirty t || b.pc.inFlight t || b.up.sent t

def State.known (s : State σ) (t : Nat) : Bool := s.board.owes t || s.yielded t

/-- What has yielded once a close of `image` is answered. -/
def State.yieldedBy (s : State σ) (image : List Bytes) : CloseAnswer σ → Nat → Bool
  | .ok _ => fun _ => decide (image.flatten ≠ imageOf s.base)
  | .mismatch => s.known
  | _ => s.yielded

variable [DecidableEq σ]

/-- One step, where the board can take it. -/
inductive Step (sha256Of : Bytes → σ) (s : State σ) : Action σ → State σ → Prop
  | storeBegin (t : Nat) (adf : Bytes) (took : Bool) (range : t < tracks)
      (idle : s.board.store = none) :
    Step sha256Of s (.storeBegin t adf took) { s with board := s.board.storeBegin t adf took }
  | storeCopy (k : Nat) (st : Store) (under : s.board.store = some st) (ended : st.ended = false) :
    Step sha256Of s (.storeCopy k) { s with board := s.board.storeCopy st k }
  | storeBits (st : Store) (under : s.board.store = some st) (ended : st.ended = false)
      (all : st.done = st.src.length) :
    Step sha256Of s .storeBits { s with board := s.board.storeBits st }
  | storeFlag (st : Store) (under : s.board.store = some st) (ended : st.ended = false)
      (all : st.done = st.src.length) :
    Step sha256Of s .storeFlag { s with board := s.board.storeFlag st }
  | storeEnd (st : Store) (under : s.board.store = some st) (ended : st.ended = true) :
    Step sha256Of s .storeEnd { s with board := s.board.storeEnd }
  | sendTrack (t : Nat) (range : t < tracks) (idle : s.board.pc = .idle)
      (work : s.board.refresh.hasWork = true) (dirty : s.board.dirty t = true) :
    Step sha256Of s (.sendTrack t)
      { s with board := s.board.refresh.openSession.clearDirty t }
  | readStart (t : Nat) (pc : s.board.pc = .cleared t) :
    Step sha256Of s .readStart
      { s with board := { s.board with pc := .sending (.start s.board.psram s.board.slot t) } }
  | readTrack (k : Nat) (r : Reader) (pc : s.board.pc = .sending r) :
    Step sha256Of s (.read k)
      { s with board := { s.board with pc := .sending (r.more s.board.psram s.board.slot k) } }
  | readDone (stale : Bytes) (fits : Bool) (r : Reader) (e : BoardSession)
      (pc : s.board.pc = .sending r) (all : r.acc.length = r.n) (session : s.board.up.current = some e) :
    Step sha256Of s (.readDone stale fits)
      { s with
        board := (s.board.sendTrack r stale fits e).1
        uploads := s.uploads ++ (s.board.sendTrack r stale fits e).2.toList }
  | uploadAnswered (a : UploadAnswer) (u : Upload) (pc : s.board.pc = .posting u) :
    Step sha256Of s (.uploadAnswered a)
      { s with
        board := s.board.uploadAnswered u.track a
        yielded := if a = .writeProtected then s.known else s.yielded }
  | closeStart (idle : s.board.pc = .idle) (work : s.board.refresh.hasWork = true)
      (session : s.board.up.current.isSome = true) :
    Step sha256Of s .closeStart { s with board := s.board.refresh.closeStart }
  | hashStart (g0 : Nat) (image : List Bytes) (pc : s.board.pc = .hashing g0 image none)
      (next : image.length < tracks) :
    Step sha256Of s .readStart
      { s with
        board := { s.board with
          pc := .hashing g0 image (some (.start s.board.psram s.board.slot image.length)) } }
  | hashTrack (k : Nat) (g0 : Nat) (image : List Bytes) (r : Reader)
      (pc : s.board.pc = .hashing g0 image (some r)) :
    Step sha256Of s (.read k)
      { s with
        board := { s.board with
          pc := .hashing g0 image (some (r.more s.board.psram s.board.slot k)) } }
  | hashDone (stale : Bytes) (g0 : Nat) (image : List Bytes) (r : Reader)
      (pc : s.board.pc = .hashing g0 image (some r)) (all : r.acc.length = r.n) :
    Step sha256Of s (.hashDone stale) { s with board := s.board.hashTrack g0 image r stale }
  | closeCheck (g0 : Nat) (image : List Bytes) (pc : s.board.pc = .hashing g0 image none)
      (all : image.length = tracks) :
    Step sha256Of s .closeCheck { s with board := s.board.closeCheck g0 image }
  | scan (image : List Bytes) (t : Nat) (pc : s.board.pc = .scanning image t) (next : t < tracks) :
    Step sha256Of s .scan { s with board := s.board.scan image t }
  | sendClose (fits : Bool) (image : List Bytes) (e : BoardSession)
      (pc : s.board.pc = .scanning image tracks) (session : s.board.up.current = some e) :
    Step sha256Of s (.sendClose fits)
      { s with
        board := (s.board.sendClose image fits sha256Of e).1
        closes := s.closes ++ (s.board.sendClose image fits sha256Of e).2.toList }
  | closeAnswered (a : CloseAnswer σ) (image : List Bytes) (pc : s.board.pc = .closing image)
      (digest : ∀ sha256, a = .ok sha256 → sha256 = sha256Of (imageOf s.base)) :
    Step sha256Of s (.closeAnswered a)
      { s with
        board := s.board.closeAnswered a
        yielded := s.yieldedBy image a }
  | stage (i : Nat) (u : Upload) (sent : s.uploads[i]? = some u) :
    Step sha256Of s (.stage i)
      { s with rows := Function.update s.rows u.session ((s.rows u.session).stage u) }
  | record (i : Nat) (q : Close σ) (sent : s.closes[i]? = some q)
      (on : s.board.up.current = some q.session) (seq : (s.rows q.session).lastSeq = q.seq) :
    Step sha256Of s (.record i)
      { s with base := s.view (some q.session), rows := Function.update s.rows q.session .empty }
  | bumped (version : Nat) (diskId : String) (idle : s.board.pc = .idle) :
    Step sha256Of s (.bumped version diskId)
      { s with
        board := { s.board with
          client := { s.board.client with mountedVersion := version, mountedDiskId := diskId } } }
  | mounted (psram : Psram) (slot : Nat) (base : Nat → Bytes) (version : Nat) (diskId : String)
      (sha256 : σ) (idle : s.board.pc = .idle) (session : s.board.up.current = none)
      (free : s.board.up.parked = true ∨ s.board.nextDirty = none)
      (apart : ∀ st, s.board.store = some st → st.slot ≠ slot) (loaded : Loaded psram slot base) :
    Step sha256Of s (.mounted psram slot base version diskId sha256)
      { s with
        board := { s.board with
          psram := psram, slot := slot
          client := ⟨version, diskId, some sha256, s.board.client.halted⟩ }
        base := base
        yielded := fun _ => false }

/-- After `up_init`, with an image mounted. -/
structure Boot (s : State σ) : Prop where
  store : s.board.store = none
  pc : s.board.pc = .idle
  current : s.board.up.current = none
  sent : ∀ t, s.board.up.sent t = false
  loaded : Loaded s.board.psram s.board.slot s.base
  rows : ∀ e, s.rows e = .empty
  uploads : s.uploads = []
  closes : s.closes = []

def Reaches (sha256Of : Bytes → σ) : State σ → State σ → Prop :=
  Relation.ReflTransGen fun s t => ∃ a, Step sha256Of s a t

-- ---------------------------------------------------------------------------
-- What is claimed
-- ---------------------------------------------------------------------------

/-- The uploads of a session are numbered upward. -/
def Ascending (us : List Upload) : Prop :=
  us.Pairwise fun u v => u.session = v.session → u.seq < v.seq

end

end WebAdf.Uploading
