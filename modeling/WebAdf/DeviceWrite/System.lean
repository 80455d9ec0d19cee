import Mathlib.Logic.Relation
import WebAdf.DeviceWrite.Handlers

/-!
# Board and server together

Any request the board ever sent may reach the server any number of times, at
any later time; each copy is a handler of its own, and the handlers take their
statements in any order among each other and may die anywhere. The rest of the
world changes the device's and the disks' rows at will.

A step is `Timely` when what its handler found earlier still holds: nothing
that happened in between made its request a late one.
-/

namespace WebAdf.DeviceWrite

open Lib DiskHistory

inductive Task (σ : Type)
  | stage (q : Upload) (pc : Staging σ)
  | close (q : Close σ) (pc : Closing σ)

structure State (σ : Type) where
  board : Board σ
  tables : Tables σ
  requests : List (Request σ)
  tasks : List (Task σ)
  made : List Upload
  records : List (Recorded σ)

inductive Action (σ : Type)
  /-- The Amiga writes a track. -/
  | write (track : Nat) (data : Bytes)
  | sendTrack
  | torn
  | sendClose
  /-- The board gets the answer of handler `i`. -/
  | answer (i : Nat)
  /-- The board gets no answer. -/
  | lost
  | reboot
  /-- A fetched image is mounted. -/
  | mounted (version : Nat) (diskId : String) (image : Nat → Bytes)
  /-- A new version of the disk it holds is acknowledged. -/
  | bumped (version : Nat)
  /-- A copy of request `j` reaches the server. -/
  | deliver (j : Nat)
  /-- Handler `i` runs its next statement. -/
  | serve (i : Nat) (base head : Bytes)
  | die (i : Nat)
  | world (device : Device) (disks : String → Option (Disk σ))

section
variable {σ : Type}

/-- The board may send: nothing under way, and not parked. -/
def Board.free (b : Board σ) : Bool := b.waiting.isNone && !b.parked

def imageOf (b : Board σ) : Bytes := (List.range tracks).flatMap b.image

def Request.task : Request σ → Task σ
  | .upload q => .stage q .start
  | .close q => .close q .start

/-- The request of a handler that is done, and its answer. -/
def Task.answer : Task σ → Option (Request σ × Answer σ)
  | .stage q (.answered a) => some (.upload q, a)
  | .close q (.answered a) => some (.close q, a)
  | _ => none

def Task.die : Task σ → Task σ
  | .stage q _ => .stage q (.answered .failed)
  | .close q _ => .close q (.answered .failed)

variable [DecidableEq σ]

/-- One statement of handler `i`. -/
def serve (sha256Of : Bytes → σ) (s : State σ) (i : Nat) (base head : Bytes) : Task σ → State σ
  | .stage q pc =>
    let (tables, pc) := stageTrack s.tables q pc
    { s with tables := tables, tasks := s.tasks.set i (.stage q pc) }
  | .close q pc =>
    let (tables, pc, recorded) := closeSession sha256Of s.tables s.made q base head pc
    { s with
      tables := tables, tasks := s.tasks.set i (.close q pc)
      records := s.records ++ recorded.toList }

/-- One step; `none` where it cannot be taken. -/
def step (sha256Of : Bytes → σ) (s : State σ) : Action σ → Option (State σ)
  | .write t data =>
    if t < tracks then
      some { s with
        board := { s.board with image := Function.update s.board.image t data }.setDirty t }
    else none
  | .sendTrack =>
    if s.board.free then
      s.board.nextDirty.map fun t =>
        let (board, u) := s.board.sendTrack t
        { s with
          board := board, requests := s.requests ++ [.upload u], made := s.made ++ [u] }
    else none
  | .torn =>
    if s.board.free && s.board.nextDirty.isSome then some { s with board := s.board.torn } else none
  | .sendClose =>
    if s.board.free && s.board.nextDirty.isNone then
      s.board.current.map fun e =>
        let r := .close ⟨e, s.board.seq, sha256Of (imageOf s.board)⟩
        { s with
          board := { s.board with waiting := some r }, requests := s.requests ++ [r] }
    else none
  | .answer i =>
    match s.tasks[i]?.bind Task.answer with
    | some (r, a) =>
      if s.board.waiting = some r then some { s with board := s.board.answered r a } else none
    | none => none
  | .lost => s.board.waiting.map fun r => { s with board := s.board.unanswered r }
  | .reboot => some { s with board := s.board.reboot }
  | .mounted version diskId image =>
    if s.board.current.isNone then
      some { s with board := { s.board with
        mountedVersion := version, mountedDiskId := diskId, image := image
        dirty := fun _ => false, parked := false } }
    else none
  | .bumped version =>
    some { s with board := { s.board with mountedVersion := version, parked := false } }
  | .deliver j => s.requests[j]?.map fun r => { s with tasks := s.tasks ++ [r.task] }
  | .serve i base head => s.tasks[i]?.map fun task => serve sha256Of s i base head task
  | .die i => s.tasks[i]?.map fun task => { s with tasks := s.tasks.set i task.die }
  | .world device disks =>
    some { s with tables := { s.tables with device := device, disks := disks } }

/-- Nothing sent, nothing staged. -/
structure Fresh (s : State σ) : Prop where
  requests : s.requests = []
  tasks : s.tasks = []
  made : s.made = []
  records : s.records = []
  current : s.board.current = none
  waiting : s.board.waiting = none
  sessions : ∀ mount, s.tables.sessions mount = none
  tracks : ∀ mount t, s.tables.tracks mount t = none
  committed : s.tables.committed = []

def Reaches (sha256Of : Bytes → σ) : State σ → State σ → Prop :=
  Relation.ReflTransGen fun s t => ∃ a, step sha256Of s a = some t

-- ---------------------------------------------------------------------------
-- What is claimed
-- ---------------------------------------------------------------------------

/-- An upload of a session that no earlier close has taken. -/
def Mine (e : BoardSession) (floor : Nat) (u : Upload) : Prop := u.session = e ∧ floor < u.seq

/-- `u` is the session's upload of its track with the highest `seq`. -/
def Highest (us : List Upload) (e : BoardSession) (floor : Nat) (u : Upload) : Prop :=
  u ∈ us ∧ Mine e floor u ∧
    ∀ v ∈ us, Mine e floor v → v.track = u.track → v.seq ≤ u.seq

/-- The recorded image is the base with each uploaded track as it was last
uploaded, and every other track unchanged. -/
def Recorded.Overlaid (r : Recorded σ) : Prop :=
  ∃ n, trackBytesForImage r.base.length = some n ∧ r.image.length = r.base.length ∧
    (∀ u, Highest r.made r.session r.floor u → slice r.image (u.track * n) n = u.data) ∧
    ∀ t < tracks, (∀ u ∈ r.made, Mine r.session r.floor u → u.track ≠ t) →
      slice r.image (t * n) n = slice r.base (t * n) n

-- ---------------------------------------------------------------------------
-- Late steps
-- ---------------------------------------------------------------------------

/-- The row at the session's mount under its token, if any. -/
def TokenRow (s : Tables σ) (e : BoardSession) (row : Session σ) : Prop :=
  s.sessions e.mount = some row ∧ row.token = e.token

/-- The upload the board waits for is a repeat only of its own session's; a
session is opened only while the board is in it; a track is committed only to
its own session's row, and only above everything the session has taken. -/
def Staging.Timely (s : State σ) (q : Upload) : Staging σ → Prop
  | .session _ _ => s.board.current = some q.session →
    ∀ row, TokenRow s.tables q.session row → q.seq ≤ row.lastSeq → row.opener = q.session
  | .discard _ | .insert _ => s.board.current = some q.session
  | .commit => ∀ row, s.tables.sessions q.session.mount = some row →
    row.opener = q.session ∧ row.lastSeq < q.seq ∧ s.tables.taken q.session < q.seq
  | _ => True

/-- A close goes on only with its own session's row and tracks, records while the
board has uploaded nothing more, and deletes the row only as it read it. -/
def Closing.Timely (s : State σ) (q : Close σ) : Closing σ → Prop
  | .session _ => ∀ row, TokenRow s.tables q.session row → row.lastSeq = q.seq →
    row.opener = q.session
  | .staged _ _ => ∀ row, s.tables.sessions q.session.mount = some row → row.opener = q.session
  | .record _ _ _ => ∀ u ∈ s.made, u.session = q.session → u.seq ≤ q.seq
  | .unchanged _ | .finish _ => ∀ row, TokenRow s.tables q.session row →
    row.opener = q.session ∧ row.lastSeq = q.seq
  | _ => True

def Task.Timely (s : State σ) : Task σ → Prop
  | .stage q pc => pc.Timely s q
  | .close q pc => pc.Timely s q

def Timely (s : State σ) : Action σ → Prop
  | .serve i _ _ => ∀ task, s.tasks[i]? = some task → task.Timely s
  | _ => True

def ReachesTimely (sha256Of : Bytes → σ) : State σ → State σ → Prop :=
  Relation.ReflTransGen fun s t => ∃ a, Timely s a ∧ step sha256Of s a = some t

end

end WebAdf.DeviceWrite
