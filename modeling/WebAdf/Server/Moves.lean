import WebAdf.Server.Requests

/-!
# A move's second half

Once every part of a move has ended its source is removed, or kept. What a settle
decides it decides under its parts' locks, and it claims the move by clearing the
markers; the removal comes after.
-/

namespace WebAdf.Server

open Lib Send
open Browse (EntryInfo)

-- ---------------------------------------------------------------------------
-- Sources
-- ---------------------------------------------------------------------------

inductive FsDevice
  | stash
  | net
  | library
  deriving DecidableEq, Repr

structure FsPath where
  device : FsDevice
  segments : List Units

def fsDevice (name : Units) : Option FsDevice :=
  if name = units "STASH" then some .stash
  else if name = units "NET" then some .net
  else if name = units "LIBRARY" then some .library
  else none

/-- No part of a path. -/
def badSegment (s : Units) : Bool :=
  s == [] || s == [dot] || s == [dot, dot] || decide (s.length > 255) ||
    s.any fun u => u < 0x20 || u == 0x7f

def parsePath (raw : Units) : Option FsPath :=
  match raw.idxOf? colon with
  | none => none
  | some c =>
    match fsDevice (raw.take c), raw.drop (c + 1) with
    | none, _ => none
    | some device, [] => some ⟨device, []⟩
    | some device, u :: body =>
      if u ≠ slash then none
      else if body = [] then some ⟨device, []⟩
      else
        let body := if body.getLast? = some slash then body.dropLast else body
        let segments := body.splitOn slash
        if segments.length > 40 ∨ segments.any badSegment then none else some ⟨device, segments⟩

/-- `isNetVolumePath`: an object on a volume. -/
def onVolume (source : Units) : Bool :=
  match parsePath source with
  | some p => p.device == .net && decide (3 ≤ p.segments.length) && p.segments[1]? != some (units "Queue")
  | none => false

-- ---------------------------------------------------------------------------
-- Parts
-- ---------------------------------------------------------------------------

/-- `getMarked`: a get or a Makedir of this move. -/
def partOf (job : String) (source : Units) (r : Request) : Bool :=
  r.fetchId == some job && (r.kind == .get || r.kind == .mkdir) &&
    (r.target.moveSource == some source || (r.target.relay.bind Relay.moveSource) == some source)

/-- `rowMarked`. -/
def rowOf (job : String) (source : Units) (t : Transfer) : Bool :=
  t.jobId == some job && t.moveSource == some source

def Request.over (r : Request) : Bool := r.status == .done || r.status == .failed

/-- Nothing of the move is on its way. -/
def allOver (parts : List Request) (rows : List Transfer) : Bool :=
  parts.all Request.over && rows.all fun t => !t.status.active

def arrived (parts : List Request) (rows : List Transfer) : Bool :=
  parts.all (·.status == .done) && rows.all (·.status == .delivered) &&
    decide ((parts.filter fun r => r.kind == .get && r.target.relay.isSome).length ≤ rows.length)

/-- What a settle decided, for the removal: its record's id, the move, its parts and
rows as they were, and, off a volume, the files that may go. -/
structure Decision where
  said : String
  orgId : String
  job : String
  deviceId : String
  source : Units
  parts : List Request
  rows : List Transfer
  checked : List Units
  refused : Bool

-- ---------------------------------------------------------------------------
-- What the Amiga holds now
-- ---------------------------------------------------------------------------

/-- What was copied of an entry that is not on a volume, by its rows (`copiedOf`).
Nothing where a row does not say which entry it copied. -/
def Decision.copied (d : Decision) : List Units :=
  if d.rows.any (·.moveItem.isNone) then [] else d.rows.filterMap Transfer.moveItem

def lastName (path : Units) : Units :=
  let c := path.idxOf? colon
  match lastIndexOf slash path, c with
  | some i, some c => path.drop (max i c + 1)
  | some i, none => path.drop (i + 1)
  | none, some c => path.drop (c + 1)
  | none, none => path

/-- Each once, in the order of the first. -/
def distinctPaths (paths : List Units) : List Units :=
  paths.foldl (fun kept x => if kept.any (samePath x) then kept else kept ++ [x]) []

/-- A file as a fresh listing shows it. -/
inductive Shown
  | unlisted
  | gone
  | changed
  | same
  deriving DecidableEq, Repr

def entriesOf (r : Request) : List EntryInfo :=
  match r.answer with
  | some (.listing _ es) => es
  | _ => []

/-- The last of the done listings of that drawer. -/
def listingOf (answers : List Request) (drawer : Units) : Option Request :=
  (answers.filter fun a => a.status == .done && samePath a.amigaPath drawer).getLast?

def shown (answers : List Request) (g : Request) : Shown :=
  match listingOf answers (parentOf g.amigaPath) with
  | none => .unlisted
  | some a =>
    match (entriesOf a).find? fun e => samePath e.name (lastName g.amigaPath) with
    | none => .gone
    | some e =>
      if g.target.moveSeen = some (e.size, e.date) ∧ !e.dir then .same else .changed

/-- The ids a settle needs: of the listings it asks for, of its record, and of what it
says was left. -/
structure SettleIds where
  verify : List String
  said : String
  changed : List String

inductive Checked
  | waiting (asked : Option (List (String × Units)))
  | refused
  | checked (files changed : List Units)

/-- `checkOffVolume`: asks once, then waits for the answers. `blocked` where the board
cannot be written to now. -/
def checkOffVolume (requests gets : List Request) (ids : SettleIds) (blocked : Bool) : Checked :=
  match (gets.head?.bind fun g => g.target.moveVerify) with
  | none =>
    if blocked then .refused
    else .waiting (some (ids.verify.zip (distinctPaths (gets.map fun g => parentOf g.amigaPath))))
  | some asked =>
    let answers := requests.filter fun r => asked.contains r.id
    if answers.any fun a => !a.over then .waiting none
    else
      .checked ((gets.filter fun g => shown answers g == .same).map Request.amigaPath)
        ((gets.filter fun g => shown answers g == .unlisted || shown answers g == .changed).map
          Request.amigaPath)

-- ---------------------------------------------------------------------------
-- Deciding
-- ---------------------------------------------------------------------------

def Request.unmark (r : Request) : Request := { r with target := r.target.unmark }

/-- The gets remember the listings asked for. -/
def Request.verify (ids : List String) (r : Request) : Request :=
  { r with target := { r.target with moveVerify := some ids } }

/-- What a settle comes to. -/
inductive Verdict
  | waits
  | unmark
  | asks (paths : List (String × Units))
  | decides (d : Decision) (changed : List (String × Units))

inductive Removal
  | removed
  | kept
  | refused
  deriving DecidableEq, Repr

namespace Db

/-- The markers of these parts and rows go. -/
def unmarkParts (db : Db) (parts : List Request) (rows : List Transfer) : Db :=
  (db.setRequests (fun r => (parts.map Request.id).contains r.id) Request.unmark).setTransfers
    (fun t => (rows.map (·.file.id.text)).contains t.file.id.text) (fun t => { t with moveSource := none })

/-- A row the job says something with. -/
def saidRow (id : String) (d : Decision) (path : Units) (status : RequestStatus) (code : Option String)
    (now : Int) : Request :=
  { Request.fresh id d.orgId d.deviceId .delete path Target.plain (some d.job) now with
    status := status, errorCode := code
    activeAt := if status = .settling then some now else none
    answeredAt := if status = .settling then none else some now }

/-- The claim: what was left is said, the job gets its `settling` row, and the markers
go. -/
def claimMove (db : Db) (d : Decision) (changed : List (String × Units)) (now : Int) : Db :=
  ((db.insertRequests (changed.map fun c => saidRow c.1 d c.2 .failed (some "moved") now)).insertRequests
    [saidRow d.said d d.source .settling none now]).unmarkParts d.parts d.rows

def jobCancelled (db : Db) (orgId job : String) : Bool :=
  db.requests.any fun r => r.fetchId == some job && r.orgId == orgId && r.kind == .cancel

/-- The board a move's record names: its first get's, else its first row's, else its
first part's. -/
def moveBoard (parts : List Request) (rows : List Transfer) : String :=
  ((parts.find? (·.kind == .get)).map Request.deviceId).getD
    ((rows.head?.map Transfer.deviceId).getD ((parts.head?.map Request.deviceId).getD ""))

/-- What `settleMove` decides with the move's parts and rows held. Off a volume with no
get it throws, and nothing changes. -/
def verdict (db : Db) (orgId job : String) (source : Units) (parts : List Request) (rows : List Transfer)
    (ids : SettleIds) (blocked : Bool) : Verdict :=
  if parts = [] ∧ rows = [] then .waits
  else if db.jobCancelled orgId job then .unmark
  else if !allOver parts rows then .waits
  else if !arrived parts rows then .unmark
  else
    let gets := parts.filter (·.kind == .get)
    let d : Decision := ⟨ids.said, orgId, job, moveBoard parts rows, source, parts, rows, [], false⟩
    if !onVolume source then .decides d []
    else if gets = [] then .waits
    else
      match checkOffVolume db.requests gets ids blocked with
      | .waiting none => .waits
      | .waiting (some asked) => .asks asked
      | .refused => .decides { d with refused := true } []
      | .checked files changed => .decides { d with checked := files } (ids.changed.zip changed)

/-- The rest of its transaction. -/
def settled (db : Db) (orgId job : String) (parts : List Request) (rows : List Transfer) (v : Verdict)
    (now : Int) : Db :=
  match v with
  | .waits => db
  | .unmark => db.unmarkParts parts rows
  | .asks paths =>
    (db.addListings orgId (moveBoard parts rows) job paths now).setRequests
      (fun r => ((parts.filter (·.kind == .get)).map Request.id).contains r.id)
      (Request.verify (paths.map Prod.fst))
  | .decides d changed => db.claimMove d changed now

-- ---------------------------------------------------------------------------
-- The removal
-- ---------------------------------------------------------------------------

/-- How deep a path lies on its volume. -/
def depth (path : Units) : Nat :=
  (((path.drop ((path.idxOf? colon).elim 0 (· + 1))).splitOn slash).filter (· != [])).length

/-- `removeCopiedOnVolume`: each file that may go, then each drawer of the move, the
deepest first. -/
def removalPaths (d : Decision) (files : List Units) : List Units :=
  distinctPaths files ++
    (distinctPaths ((d.parts.filter (·.kind == .get)).flatMap (·.target.moveDrawers))).mergeSort
      fun a b => decide (depth b ≤ depth a)

def removeCopied (db : Db) (d : Decision) (deviceId : String) (files : List Units) (ids : List String)
    (now : Int) : Db :=
  db.addWrites d.orgId deviceId d.job
    ((ids.zip (removalPaths d files)).map fun p =>
      { id := p.1, kind := .delete, write := rfl, amigaPath := p.2, target := { Target.plain with one := true } }) now

/-- What the removal came to, in the job: its record ends, or goes. -/
def recordRemoval (db : Db) (d : Decision) (out : Removal) (now : Int) : Db :=
  let p : Request → Bool := fun r => r.id == d.said && r.status == .settling
  match out with
  | .refused => db.setRequests p (Request.fail "moved" now)
  | .kept => db.setRequests p fun r =>
      { r with status := .done, answeredAt := some now, answer := some (.removed 0 true) }
  | .removed => { db with requests := db.requests.filter fun r => !p r }

-- ---------------------------------------------------------------------------
-- Between two volumes
-- ---------------------------------------------------------------------------

/-- The marker as the get carries it now. -/
def relayMarker (db : Db) (g : Request) : Option Units :=
  (db.requests.find? (·.id == g.id)).bind fun r => r.target.relay.bind Relay.moveSource

/-- `relay`: a fetched file into the destination board's queue, in the transaction that
reads its marker. `none`: the job is cancelled, or the queue refuses it. -/
def relay (db : Db) (g : Request) (r : Relay) (id : Uuid) (file : QueueFile) (stored : Bool) (now : Int) :
    Option Db :=
  if g.fetchId.elim false (db.jobCancelled g.orgId) then none
  else
    let file := { file with dest := some r.dest, onClash := some r.onClash }
    let queued := db.queueTransfers g.orgId r.deviceId g.fetchId
      [⟨id, file, stored, db.relayMarker g, none⟩] now
    if db.transfers.length < queued.transfers.length then some queued else none

end Db

end WebAdf.Server
