import Mathlib.Logic.Function.Basic
import WebAdf.DeviceWrite.Uploader
import WebAdf.DiskHistory.Version

/-!
# The write session's handlers

`stageTrack` and `closeSession`, cut at every database statement: what the
handler knows between two statements, and what the next one does. The tables
are those of one board. `diskStore.read` gives the bytes of a digest or throws,
so the bytes are an argument of the step that reads them.

`opener`, `taken`, `committed` and `floor` are not part of the program. They
keep for which of the board's sessions a row was opened, up to which `seq`
closes have taken a session's uploads, and which uploads were staged.
-/

namespace WebAdf.DeviceWrite

open DiskHistory

inductive ImageFormat
  | adf
  | hfe
  deriving DecidableEq, Repr

/-- A row of `disks`. -/
structure Disk (σ : Type) where
  sha256 : σ
  writeProtected : Bool
  imageFormat : ImageFormat
  sizeBytes : Nat

/-- The board's row of `devices`. -/
structure Device where
  mountedDiskId : Option String
  mountedVersion : Nat
  desiredDiskId : Option String
  desiredVersion : Nat

/-- A row of `disk_write_sessions`. -/
structure Session (σ : Type) where
  diskId : String
  lastSeq : Nat
  token : Nat
  baseSha256 : σ
  opener : BoardSession

structure Tables (σ : Type) where
  device : Device
  disks : String → Option (Disk σ)
  /-- By mount. -/
  sessions : Nat → Option (Session σ)
  /-- `disk_write_tracks`, by mount and track. -/
  tracks : Nat → Nat → Option Bytes
  committed : List Upload
  taken : BoardSession → Nat

section
variable {σ : Type}

def trackBytesForDisk (d : Disk σ) : Option Nat :=
  if d.imageFormat ≠ .adf then none else trackBytesForImage d.sizeBytes

-- ---------------------------------------------------------------------------
-- holdsMount
-- ---------------------------------------------------------------------------

inductive Held
  | current
  | behind
  | session
  deriving DecidableEq, Repr

/-- The device's row read: an answer, or on to the session's row. -/
inductive HeldRead
  | held (h : Held)
  | readSession
  | refused

def holdsMount (device : Device) (e : BoardSession) : HeldRead :=
  if device.mountedDiskId ≠ some e.diskId then .refused
  else if device.mountedVersion = e.mount then
    .held (if device.desiredDiskId = some e.diskId ∧ device.desiredVersion > device.mountedVersion
      then .behind else .current)
  else .readSession

/-- A session is open for the disk at this mount. -/
def sessionOpen (sessions : Nat → Option (Session σ)) (e : BoardSession) : Bool :=
  (sessions e.mount).any (·.diskId == e.diskId)

-- ---------------------------------------------------------------------------
-- stageTrack
-- ---------------------------------------------------------------------------

/-- Where `stageTrack` stands; each but the last has a statement to run. -/
inductive Staging (σ : Type)
  | start
  | heldSession
  | held (h : Held)
  | session (h : Held) (d : Disk σ)
  | discard (d : Disk σ)
  | insert (d : Disk σ)
  | commit
  | answered (a : Answer σ)

/-- After the session's row: repeats are answered, the rest is committed. -/
def seqCheck (q : Upload) (lastSeq : Nat) : Staging σ :=
  if q.seq ≤ lastSeq then .answered .duplicate else .commit

/-- Whether a session may be opened. -/
def mayOpen (h : Held) (d : Disk σ) : Staging σ :=
  if h = .session then .answered (.notMounted false)
  else if d.writeProtected ∨ d.imageFormat = .hfe then .answered .writeProtected
  else if h = .behind then .answered (.notMounted true)
  else .discard d

/-- Every other session of the board, its tracks with it. -/
def Tables.discardOthers (s : Tables σ) (e : BoardSession) : Tables σ :=
  let other (mount : Nat) : Bool := mount ≠ e.mount ∨ (s.sessions mount).any (·.token ≠ e.token)
  { s with
    sessions := fun mount => if other mount then none else s.sessions mount
    tracks := fun mount => if other mount then fun _ => none else s.tracks mount }

/-- A new row, unless the mount has one. -/
def Tables.insertSession (s : Tables σ) (e : BoardSession) (baseSha256 : σ) : Tables σ :=
  match s.sessions e.mount with
  | some _ => s
  | none =>
    let row : Session σ := ⟨e.diskId, 0, e.token, baseSha256, e⟩
    { s with sessions := Function.update s.sessions e.mount (some row) }

/-- The batch: the track, and the `seq` of the token's session. `none` where the
mount has no session for the track to belong to. -/
def Tables.commitTrack (s : Tables σ) (q : Upload) : Option (Tables σ) :=
  match s.sessions q.session.mount with
  | none => none
  | some row =>
    some { s with
      tracks := Function.update s.tracks q.session.mount
        (Function.update (s.tracks q.session.mount) q.track (some q.data))
      sessions := if row.token = q.session.token then
          Function.update s.sessions q.session.mount (some { row with lastSeq := q.seq })
        else s.sessions
      committed := s.committed ++ [q] }

/-- One statement of `stageTrack`. -/
def stageTrack (s : Tables σ) (q : Upload) : Staging σ → Tables σ × Staging σ
  | .start =>
    if !isTrackUpload q.track q.data trackDataBytes && !isTrackUpload q.track q.data hdTrackDataBytes
    then (s, .answered .invalidBody)
    else match holdsMount s.device q.session with
      | .held h => (s, .held h)
      | .readSession => (s, .heldSession)
      | .refused => (s, .answered (.notMounted false))
  | .heldSession =>
    (s, if sessionOpen s.sessions q.session then .held .session else .answered (.notMounted false))
  | .held h =>
    match s.disks q.session.diskId with
    | none => (s, .answered .notFound)
    | some d =>
      if (trackBytesForDisk d).any (· ≠ q.data.length) then (s, .answered .invalidBody)
      else (s, .session h d)
  | .session h d =>
    match s.sessions q.session.mount with
    | some row =>
      (s, if row.token = q.session.token then seqCheck q row.lastSeq else mayOpen h d)
    | none => (s, mayOpen h d)
  | .discard d => (s.discardOthers q.session, .insert d)
  | .insert d => (s.insertSession q.session d.sha256, seqCheck q 0)
  | .commit =>
    match s.commitTrack q with
    | some s => (s, .answered (.staged q.track))
    | none => (s, .answered .failed)
  | .answered a => (s, .answered a)

-- ---------------------------------------------------------------------------
-- closeSession
-- ---------------------------------------------------------------------------

/-- The session's row as the close read it; `floor` is what closes had taken. -/
structure Opened (σ : Type) where
  baseSha256 : σ
  floor : Nat

inductive Closing (σ : Type)
  | start
  | heldSession
  | held
  | session (sha256 : σ)
  | staged (sha256 : σ) (session : Opened σ)
  | record (sha256 : σ) (session : Opened σ) (staged : List (Nat × Bytes))
  | unchanged (sha256 : σ)
  | finish (sha256 : σ)
  | answered (a : Answer σ)

/-- A version `recordVersion` recorded for a session, over the image `base`;
`made` is every upload the board had made by then. -/
structure Recorded (σ : Type) where
  session : BoardSession
  floor : Nat
  baseSha256 : σ
  base : Bytes
  image : Bytes
  made : List Upload

/-- The token's session, its tracks with it. -/
def Tables.deleteSession (s : Tables σ) (e : BoardSession) : Tables σ :=
  match s.sessions e.mount with
  | none => s
  | some row =>
    if row.token = e.token then
      { s with
        sessions := Function.update s.sessions e.mount none
        tracks := Function.update s.tracks e.mount fun _ => none
        taken := Function.update s.taken row.opener (max (s.taken row.opener) row.lastSeq) }
    else s

variable [DecidableEq σ]

/-- Nothing staged: the board may hold the head already. -/
def nothingStaged (q : Close σ) (sha256 : σ) (session : Bool) : Closing σ :=
  if q.sha256 = sha256 then
    if session then .unchanged sha256 else .answered (.closed sha256 true)
  else .finish sha256

/-- The last batch: the session goes, and where the digests disagree the board
is pointed at the server's image. -/
def Tables.finish (s : Tables σ) (q : Close σ) (sha256 : σ) : Tables σ :=
  let s := s.deleteSession q.session
  if sha256 ≠ q.sha256 ∧ s.device.desiredDiskId = some q.session.diskId then
    { s with device := { s.device with desiredVersion := s.device.desiredVersion + 1 } }
  else s

/-- `recordVersion` of the staged tracks over `base`, when the head read is
`head`: the head moved on, nothing changed, or the next version. -/
def recordVersion (sha256Of : Bytes → σ) (s : Tables σ) (made : List Upload) (q : Close σ)
    (sha256 : σ) (session : Opened σ) (staged : List (Nat × Bytes)) (base head : Bytes) :
    Tables σ × Closing σ × Option (Recorded σ) :=
  match overlayTracks base staged, s.disks q.session.diskId with
  | some next, some d =>
    if d.sha256 ≠ sha256 then (s, .answered .conflict, none)
    else if next = head then (s, .finish sha256, none)
    else
      let disk : Disk σ := { d with sha256 := sha256Of next }
      ({ s with disks := Function.update s.disks q.session.diskId (some disk) },
        .finish (sha256Of next),
        some ⟨q.session, session.floor, session.baseSha256, base, next, made⟩)
  | _, _ => (s, .answered .failed, none)

/-- One statement of `closeSession`, and the version it records, if any. -/
def closeSession (sha256Of : Bytes → σ) (s : Tables σ) (made : List Upload) (q : Close σ)
    (base head : Bytes) : Closing σ → Tables σ × Closing σ × Option (Recorded σ)
  | .start =>
    match holdsMount s.device q.session with
    | .held _ => (s, .held, none)
    | .readSession => (s, .heldSession, none)
    | .refused => (s, .answered (.notMounted false), none)
  | .heldSession =>
    (s, if sessionOpen s.sessions q.session then .held else .answered (.notMounted false), none)
  | .held =>
    match s.disks q.session.diskId with
    | none => (s, .answered .notFound, none)
    | some d => (s, .session d.sha256, none)
  | .session sha256 =>
    match (s.sessions q.session.mount).filter (·.token == q.session.token) with
    | none => (s, nothingStaged q sha256 false, none)
    | some row =>
      if q.seq ≠ row.lastSeq then (s, .answered .incomplete, none)
      else (s, .staged sha256 ⟨row.baseSha256, s.taken row.opener⟩, none)
  | .staged sha256 session =>
    let staged := rowsOf (s.tracks q.session.mount)
    (s, if staged ≠ [] then .record sha256 session staged else nothingStaged q sha256 true, none)
  | .record sha256 session staged =>
    if sha256Of base = session.baseSha256 ∧ sha256Of head = sha256 then
      recordVersion sha256Of s made q sha256 session staged base head
    else (s, .answered .failed, none)
  | .unchanged sha256 => (s.deleteSession q.session, .answered (.closed sha256 true), none)
  | .finish sha256 =>
    (s.finish q sha256,
      .answered (if sha256 ≠ q.sha256 then .mismatch sha256 else .closed sha256 false), none)
  | .answered a => (s, .answered a, none)

end

end WebAdf.DeviceWrite
