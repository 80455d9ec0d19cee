import WebAdf.Server.Tables

/-!
# The send queue's operations

What puts files in a board's queue, moves them on and takes them out, each one
transaction on the tables. The queue's text lists the active rows not past their
expiry, and copies onto a volume only while the board can write.
-/

namespace WebAdf.Server

open Lib Send

def sendListMax : Nat := 32
def sendQueueMaxFiles : Nat := 1000
def sendQueueMaxBytes : Nat := 134217728
def sendExpireMs : Int := 86400000
def sendKeepFinishedMs : Int := 604800000

-- ---------------------------------------------------------------------------
-- The text
-- ---------------------------------------------------------------------------

def unitsLe : Units → Units → Bool
  | [], _ => true
  | _ :: _, [] => false
  | u :: us, v :: vs => u < v || (u == v && unitsLe us vs)

/-- What the text says of a row, and its place in the queue. -/
structure Listed where
  file : QueueRow
  createdAt : Int

/-- `ORDER BY created_at, id`. -/
def Listed.le (a b : Listed) : Bool :=
  a.createdAt < b.createdAt || (a.createdAt == b.createdAt && unitsLe a.file.id.text b.file.id.text)

/-- The rows `sendQueueText` selects. -/
def Transfer.listed (deviceId : String) (writes : Bool) (now : Int) (t : Transfer) : Option Listed :=
  if t.deviceId == deviceId && t.status.active && decide (t.expiresAt > now) &&
      (writes || t.file.dest.isNone) then some ⟨t.file, t.createdAt⟩
  else none

namespace Db

/-- A copy onto a volume waits while the board cannot write. -/
def writes (db : Db) (deviceId : String) : Bool := (db.device deviceId).elim false boardWrites

def queueRows (db : Db) (deviceId : String) (now : Int) : List Listed :=
  db.transfers.filterMap (Transfer.listed deviceId (db.writes deviceId) now)

def sendQueueText (db : Db) (deviceId : String) (now : Int) : Units :=
  let queue := (((db.queueRows deviceId now).mergeSort Listed.le).take sendListMax).map Listed.file
  formatQueue queue.head? queue

-- ---------------------------------------------------------------------------
-- Into the queue
-- ---------------------------------------------------------------------------

/-- What counts against the board's limits. -/
def load (db : Db) (deviceId : String) (now : Int) : List Transfer :=
  db.transfers.filter fun t => t.deviceId == deviceId && t.status.active && decide (t.expiresAt > now)

def bytesOf (rows : List Transfer) : Nat := (rows.map (·.file.sizeBytes)).sum

/-- `INSERT`: an id that is there fails the transaction. -/
def insertTransfers (db : Db) (rows : List Transfer) : Option Db :=
  if (rows.map (·.file.id.text)).Nodup ∧
      ∀ r ∈ rows, ∀ t ∈ db.transfers, t.file.id.text ≠ r.file.id.text then
    some { db with transfers := db.transfers ++ rows }
  else none

/-- The last part of both: the limits, the rows and the cursor, in one transaction. -/
def insertQueued (db : Db) (deviceId : String) (now : Int) (rows : List Transfer) : Db :=
  let load := db.load deviceId now
  if load.length + rows.length > sendQueueMaxFiles ∨ bytesOf load + bytesOf rows > sendQueueMaxBytes then
    db
  else ((db.insertTransfers rows).map (·.bumpSend (· == deviceId))).getD db

/-- A row as both insert it. -/
def queuedRow (file : QueueRow) (orgId deviceId : String) (createdAt now : Int) : Transfer :=
  { file := file, orgId := orgId, deviceId := deviceId, status := .queued, createdAt := createdAt,
    expiresAt := now + sendExpireMs, finishedAt := none, jobId := none, moveSource := none,
    moveItem := none }

/-- `createdAt` is the database's own clock's. -/
def queueTransferFromBlob (db : Db) (orgId deviceId : String) (id : Uuid) (a : QueueFile)
    (stored : Bool) (createdAt now : Int) : Db :=
  match db.devices.find? (fun d => d.id == deviceId && d.orgId == orgId), blobRow id a with
  | some _, .ok file =>
    if !stored then db
    else db.insertQueued deviceId now [queuedRow file orgId deviceId createdAt now]
  | _, _ => db

/-- One of `queueTransfers`' files: its id, its bytes as the store has them, and
the move it is part of. -/
structure JobFile where
  id : Uuid
  file : QueueFile
  stored : Bool
  moveSource : Option Units
  moveItem : Option Units

/-- The row of the `k`th file: a millisecond behind the one before it. -/
def jobRow (orgId deviceId : String) (jobId : Option String) (now : Int) (f : JobFile) (k : Nat) :
    Option Transfer :=
  match fileRow f.id f.file with
  | .ok file =>
    if !f.stored then none
    else some { queuedRow file orgId deviceId (now + k) now with
                jobId := jobId, moveSource := f.moveSource, moveItem := f.moveItem }
  | .error _ => none

/-- Every file or none: `none` where one is refused. -/
def jobRows (orgId deviceId : String) (jobId : Option String) (now : Int) (files : List JobFile) :
    Option (List Transfer) :=
  files.zipIdx.mapM fun p => jobRow orgId deviceId jobId now p.1 p.2

def queueTransfers (db : Db) (orgId deviceId : String) (jobId : Option String)
    (files : List JobFile) (now : Int) : Db :=
  match db.devices.find? (fun d => d.id == deviceId && d.orgId == orgId),
    jobRows orgId deviceId jobId now files with
  | some _, some rows =>
    if files = [] ∨ files.length > sendQueueMaxFiles then db else db.insertQueued deviceId now rows
  | _, _ => db

-- ---------------------------------------------------------------------------
-- Reports
-- ---------------------------------------------------------------------------

/-- What the poll says of Transfer: its protocol and its switches. -/
structure Cap where
  proto : Nat
  browse : Bool
  write : Bool

/-- The columns a report sets: `none` leaves them. -/
structure Flags where
  rxProto : Option Nat
  browseOn : Bool
  writeOn : Bool

def flagsOf (rx : Rx) (cap : Option Cap) (poll : Bool) : Option Flags :=
  match cap with
  | some c => some ⟨some c.proto, c.browse, decide (c.proto ≥ 4) && c.browse && c.write⟩
  | none => if rx ≠ .c ∨ poll then some ⟨none, false, false⟩ else none

/-- `capChanged`. -/
def Flags.changed (f : Flags) (d : Device) : Bool :=
  d.browseOn != f.browseOn || d.writeOn != f.writeOn ||
    match f.rxProto with
    | some p => d.rxProto != some p
    | none => false

def Flags.set (f : Flags) (d : Device) : Device :=
  { d with rxProto := f.rxProto.orElse fun _ => d.rxProto, browseOn := f.browseOn, writeOn := f.writeOn }

/-- A copy onto a volume waits for the board. -/
def volumeWaits (db : Db) (deviceId : String) : Bool :=
  db.transfers.any fun t => t.deviceId == deviceId && t.status.active && t.file.dest.isSome

/-- `writesMoved`: the ability changed, and such a copy waits. -/
def writesMoved (db : Db) (flags : Option Flags) (d : Device) : Nat :=
  match flags with
  | some f => if boardWrites d != f.writeOn && db.volumeWaits d.id then 1 else 0
  | none => 0

/-- On a change, or after 30 s. -/
def reportDue (flags : Option Flags) (rx : Rx) (now : Int) (d : Device) : Bool :=
  d.sendRx != some rx || d.sendRxAt.elim true (fun t => decide (t < now - 30000)) ||
    flags.elim false (·.changed d)

def reportSet (db : Db) (flags : Option Flags) (rx : Rx) (now : Int) (d : Device) : Device :=
  { flags.elim d (·.set d) with
    sendRx := some rx, sendRxAt := some now, sendVersion := d.sendVersion + db.writesMoved flags d }

def recordSendRx (db : Db) (deviceId : String) (rx : Rx) (cap : Option Cap) (poll : Bool) (now : Int) :
    Db :=
  let flags := flagsOf rx cap poll
  let due : Device → Bool := fun d => d.id == deviceId && reportDue flags rx now d
  { db with devices := update due (db.reportSet flags rx now) db.devices }

end Db

-- ---------------------------------------------------------------------------
-- On and out
-- ---------------------------------------------------------------------------

/-- A row as its end leaves it. -/
def Transfer.ended (status : TransferStatus) (now : Int) (t : Transfer) : Transfer :=
  { t with status := status, finishedAt := some now }

def Transfer.sent (t : Transfer) : Transfer := { t with status := .sending }

namespace Db

/-- The row of this id on this board, while it is active. -/
def moving (deviceId : String) (id : Units) (t : Transfer) : Bool :=
  t.file.id.text == id && t.deviceId == deviceId && t.status.active

/-- A chunk says Transfer is there. -/
def recordChunk (db : Db) (deviceId : String) (id : Units) (offset : Nat) (now : Int) : Db :=
  let p : Transfer → Bool := fun t => moving deviceId id t && decide (t.file.sizeBytes > offset)
  if db.transfers.any p then
    (db.setTransfers p Transfer.sent).recordSendRx deviceId .c none false now
  else db

inductive Outcome
  | ok
  | skipped
  | error

def Outcome.status : Outcome → TransferStatus
  | .ok => .delivered
  | .skipped => .skipped
  | .error => .failed

/-- A delivery counts even of a row that Cancel marked. -/
def finishable (deviceId : String) (id : Units) (o : Outcome) (t : Transfer) : Bool :=
  t.file.id.text == id && t.deviceId == deviceId &&
    match o with
    | .ok => t.status.active || t.status == .cancelled
    | _ => t.status.active

def finishTransfer (db : Db) (deviceId : String) (id : Units) (o : Outcome) (now : Int) : Db :=
  let p := finishable deviceId id o
  if db.transfers.any p then
    (db.setTransfers p (Transfer.ended o.status now)).bumpSend
      (· == deviceId)
  else db

def cancelTransfer (db : Db) (orgId : String) (id : Units) (now : Int) : Db :=
  let p : Transfer → Bool := fun t => t.file.id.text == id && t.orgId == orgId && t.status.active
  match db.transfers.find? p with
  | some done =>
    (db.setTransfers p (Transfer.ended .cancelled now)).bumpSend
      (· == done.deviceId)
  | none => db

/-- The board's rows of no job. -/
def cancelQueueSends (db : Db) (orgId deviceId : String) (now : Int) : Db :=
  let p : Transfer → Bool := fun t =>
    t.orgId == orgId && t.deviceId == deviceId && t.jobId.isNone && t.status.active
  if db.transfers.any p then
    (db.setTransfers p (Transfer.ended .cancelled now)).bumpSend
      (· == deviceId)
  else db

/-- What waits to be written fails: the copies onto a volume, and the writes not
yet taken. -/
def failWritesWhenOff (db : Db) (deviceId : String) (now : Int) : Db :=
  let p : Transfer → Bool := fun t => t.deviceId == deviceId && t.status.active && t.file.dest.isSome
  let failed := db.setTransfers p (Transfer.ended .failed now)
  (if db.transfers.any p then failed.bumpSend (· == deviceId) else db).setRequests
    (fun r => r.deviceId == deviceId && r.status == .waiting && r.kind.write)
    (fun r => { r with status := .failed, errorCode := some "readonly", answeredAt := some now })

/-- Finished rows go after seven days. -/
def expireTransfers (db : Db) (now : Int) : Db :=
  let p : Transfer → Bool := fun t => t.status.active && decide (t.expiresAt < now)
  let expired := (db.setTransfers p (Transfer.ended .expired now)).bumpSend
    fun id => (db.transfers.filter p).any (·.deviceId == id)
  { expired with transfers := expired.transfers.filter fun t =>
      !(t.finishedAt.elim false fun f => decide (f < now - sendKeepFinishedMs)) }

/-- `notOfRunningJob`, negated. -/
def ofRunningJob (db : Db) (now : Int) (t : Transfer) : Bool :=
  match t.jobId with
  | none => false
  | some job => !t.status.active &&
    (db.transfers.any (fun a => a.jobId == some job && a.status.active && decide (a.expiresAt > now)) ||
      db.requests.any fun g => g.fetchId == some job && g.kind == .get &&
        (g.status == .waiting || g.status == .sent || g.status == .fetching || g.status == .placing))

/-- Finished, or past its expiry. -/
def cleared (now : Int) (t : Transfer) : Bool :=
  !t.status.active || decide (t.expiresAt ≤ now)

def clearFinishedTransfers (db : Db) (orgId deviceId : String) (now : Int) : Db :=
  { db with transfers := db.transfers.filter fun t =>
      !(t.orgId == orgId && t.deviceId == deviceId && cleared now t && !db.ofRunningJob now t) }

def clearTransfer (db : Db) (orgId : String) (id : Units) (now : Int) : Db :=
  { db with transfers := db.transfers.filter fun t =>
      !(t.file.id.text == id && t.orgId == orgId && cleared now t) }

end Db

end WebAdf.Server

/-!
# Cancel the rest

A job's parts that are not under way are withdrawn, its queue rows cancelled, and
its markers go, so that no move of it removes anything from here. A row of its
own kind records it.
-/

namespace WebAdf.Server

open Lib Send

/-- `queue:<board>:<…>`: the board's plain sends. -/
def queueJobBoard (id : String) : Option String :=
  let chars := id.toList
  if "queue:".toList.isPrefixOf chars then
    let colons := (List.range chars.length).filter fun i => chars[i]? == some ':'
    match colons.getLast? with
    | some last => if last ≤ 6 then none else some (String.ofList ((chars.take last).drop 6))
    | none => none
  else none

def isQueueJob (id : String) : Bool := "queue:".toList.isPrefixOf id.toList

/-- A get not stored yet, or a write not taken. -/
def withdrawn (r : Request) : Bool :=
  (r.kind == .get && (r.status == .waiting || r.status == .sent || r.status == .fetching)) ||
    (r.kind.write && r.status == .waiting)

/-- A get or a Makedir that says what a move removes. -/
def marked (r : Request) : Bool := (r.kind == .get || r.kind == .mkdir) && r.target.marker.isSome

/-- Transfer runs it, or its file is being placed. -/
def stillRunning (r : Request) : Bool :=
  (r.kind.write && (r.status == .sent || r.status == .settling)) || (r.kind == .get && r.status == .placing)

def Request.before (a b : Request) : Bool :=
  a.createdAt < b.createdAt || (a.createdAt == b.createdAt && decide (a.id ≤ b.id))

def Transfer.before (a b : Transfer) : Bool :=
  a.createdAt < b.createdAt || (a.createdAt == b.createdAt && unitsLe a.file.id.text b.file.id.text)

def Target.plain : Target :=
  { one := false, moveSource := none, relay := none, moveSeen := none, moveVerify := none }

/-- The record of a cancel, never sent to a board. -/
def cancelRow (id orgId board job : String) (now : Int) : Request :=
  { id := id, orgId := orgId, deviceId := board, kind := .cancel, amigaPath := [], status := .done,
    errorCode := none, pieces := 0, target := Target.plain, fetchId := some job,
    uploadId := none, createdAt := now, sentAt := none, activeAt := none, answeredAt := some now }

namespace Db

def jobRequests (db : Db) (orgId job : String) : List Request :=
  (db.requests.filter fun r => r.fetchId == some job && r.orgId == orgId).mergeSort Request.before

def jobTransfers (db : Db) (orgId job : String) : List Transfer :=
  (db.transfers.filter fun t => t.jobId == some job && t.orgId == orgId).mergeSort Transfer.before

/-- The board hears that a file it is sending is gone. -/
def dropArriving (db : Db) (orgId : String) (ids : List String) : Db :=
  let p : Upload → Bool := fun u => ids.contains u.id && u.orgId == orgId && u.status == .receiving
  { db with uploads := update p (fun u => { u with status := .deleted }) db.uploads }

/-- The queue rows of a job that wait or move. -/
def cancelRows (db : Db) (orgId job : String) (now : Int) : Db :=
  let p : Transfer → Bool := fun t => t.jobId == some job && t.orgId == orgId && t.status.active
  if db.transfers.any p then
    (db.setTransfers p (Transfer.ended .cancelled now)).bumpSend
      fun id => (db.transfers.filter p).any (·.deviceId == id)
  else db

/-- The markers of a job go. -/
def unmarkJob (db : Db) (orgId job : String) : Db :=
  (db.setRequests (fun r => r.fetchId == some job && r.orgId == orgId && marked r)
    (fun r => { r with target := r.target.unmark })).setTransfers
    (fun t => t.jobId == some job && t.orgId == orgId && t.moveSource.isSome)
    (fun t => { t with moveSource := none })

/-- Those of the requests seen, and of the rows. -/
def unmarkSeen (db : Db) (orgId job : String) (seen : String → Bool) : Db :=
  (db.setRequests (fun r => r.fetchId == some job && r.orgId == orgId && marked r && seen r.id)
    (fun r => { r with target := r.target.unmark })).setTransfers
    (fun t => t.jobId == some job && t.orgId == orgId && t.moveSource.isSome)
    (fun t => { t with moveSource := none })

def cancelParts (db : Db) (orgId job cancelId : String) (now : Int) : Db :=
  let reqs := db.jobRequests orgId job
  let rows := db.jobTransfers orgId job
  if reqs.isEmpty && rows.isEmpty then db
  else
    let arriving := (reqs.filter fun r => withdrawn r && r.kind == .get && r.status == .fetching).filterMap
      Request.uploadId
    let stopped := (((db.setRequests
      (fun r => r.fetchId == some job && r.orgId == orgId && withdrawn r)
      (fun r => { r with status := .failed, errorCode := some "cancelled", answeredAt := some now })
        ).dropArriving orgId arriving).cancelRows orgId job now).unmarkJob orgId job
    let anything := reqs.any withdrawn || rows.any (·.status.active) || reqs.any marked ||
      rows.any (·.moveSource.isSome) || reqs.any stillRunning
    if anything && !reqs.any (·.kind == .cancel) then
      let board := ((rows.head?.map Transfer.deviceId).orElse fun _ =>
        ((reqs.find? (·.kind != .get)).orElse fun _ => reqs.head?).map Request.deviceId).getD ""
      { stopped with requests := stopped.requests ++ [cancelRow cancelId orgId board job now] }
    else stopped

/-- The same of the requests it holds, and no others. -/
def cancelSeen (db : Db) (orgId job cancelId : String) (seen : String → Bool) (now : Int) : Db :=
  let reqs := (db.jobRequests orgId job).filter fun r => seen r.id
  let rows := db.jobTransfers orgId job
  if reqs.isEmpty && rows.isEmpty then db
  else
    let arriving := (reqs.filter fun r => withdrawn r && r.kind == .get && r.status == .fetching).filterMap
      Request.uploadId
    let stopped := (((db.setRequests
      (fun r => r.fetchId == some job && r.orgId == orgId && withdrawn r && seen r.id)
      (fun r => { r with status := .failed, errorCode := some "cancelled", answeredAt := some now })
        ).dropArriving orgId arriving).cancelRows orgId job now).unmarkSeen orgId job seen
    let anything := reqs.any withdrawn || rows.any (·.status.active) || reqs.any marked ||
      rows.any (·.moveSource.isSome) || reqs.any stillRunning
    if anything && !reqs.any (·.kind == .cancel) then
      let board := ((rows.head?.map Transfer.deviceId).orElse fun _ =>
        ((reqs.find? (·.kind != .get)).orElse fun _ => reqs.head?).map Request.deviceId).getD ""
      { stopped with requests := stopped.requests ++ [cancelRow cancelId orgId board job now] }
    else stopped

def cancelJob (db : Db) (orgId job cancelId : String) (now : Int) : Db :=
  if isQueueJob job then
    match queueJobBoard job with
    | none => db
    | some board =>
      if (db.devices.find? fun d => d.id == board && d.orgId == orgId).isSome then
        db.cancelQueueSends orgId board now
      else db
  else db.cancelParts orgId job cancelId now

end Db

end WebAdf.Server
