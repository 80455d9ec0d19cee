import WebAdf.Server.Transfers

/-!
# The requests to a board

What asks the Amiga, hands the requests to the board and takes its answers, on
the tables. A board asks for its requests only when their version moves, so
whatever adds one moves it.
-/

namespace WebAdf.Server

open Lib Send
open Browse (AnswerLine parseAnswerLine EntryInfo VolumeInfo)

def listTimeoutMs : Int := 60000
def getTimeoutMs : Int := 600000
def rememberMs : Int := 120000
def failedShownMs : Int := 10000
def paneGiveUpMs : Int := 20000
def requestKeepMs : Int := 86400000
def reqFetchMax : Nat := 8
def moveProto : Nat := 5

-- ---------------------------------------------------------------------------
-- Rows
-- ---------------------------------------------------------------------------

/-- `LINE_KINDS`. -/
def Kind.line (k : Kind) : Bool := k == .vols || k == .dir || k.write

def Request.fail (code : String) (now : Int) (r : Request) : Request :=
  { r with status := .failed, errorCode := some code, answeredAt := some now }

/-- `liveGet`: its file can still arrive. -/
def liveGet (r : Request) : Bool :=
  r.kind == .get && (r.status == .sent || r.status == .fetching ||
    (r.status == .failed && r.errorCode == some "timeout"))

/-- The last of them, by when they were made. -/
def newest (rows : List Request) : Option Request :=
  rows.foldl (fun m r =>
    match m with
    | none => some r
    | some x => if x.createdAt < r.createdAt then some r else some x) none

/-- `amigaFoldSql`, of a character of Latin-1. -/
def foldUnit (u : UInt16) : UInt16 :=
  if (0x41 ≤ u && u ≤ 0x5a) || (0xc0 ≤ u && u ≤ 0xde && u != 0xd7) then u + 0x20 else u

def samePath (a b : Units) : Bool := a.map foldUnit == b.map foldUnit

/-- A row as it is put in. -/
def Request.fresh (id orgId deviceId : String) (kind : Kind) (path : Units) (target : Target)
    (job : Option String) (now : Int) : Request :=
  { id := id, orgId := orgId, deviceId := deviceId, kind := kind, amigaPath := path, status := .waiting,
    errorCode := none, pieces := 0, target := target, fetchId := job, uploadId := none, createdAt := now,
    sentAt := none, activeAt := none, answeredAt := none }

namespace Db

def insertRequests (db : Db) (rows : List Request) : Db := { db with requests := db.requests ++ rows }

/-- `req_version + 1`. -/
def bumpReq (db : Db) (deviceId : String) : Db :=
  { db with
    devices := update (fun d => d.id == deviceId) (fun d => { d with reqVersion := d.reqVersion + 1 }) db.devices }

/-- Those of a day ago go. -/
def dropOld (db : Db) (now : Int) : Db :=
  { db with requests := db.requests.filter fun r => !decide (r.createdAt < now - requestKeepMs) }

-- ---------------------------------------------------------------------------
-- Time
-- ---------------------------------------------------------------------------

/-- The last sign of life. -/
def lifeOf (r : Request) : Option Int := r.activeAt.orElse fun _ => r.sentAt

def before (t : Option Int) (cut : Int) : Bool := t.elim false fun t => decide (t < cut)

/-- Listings and writes nobody answered. `moving` says whether the board is busy with
something else. -/
def lineStale (moving : Request → Bool) (now : Int) (r : Request) : Bool :=
  r.kind.line &&
    ((r.status == .sent && before (lifeOf r) (now - listTimeoutMs) && (decide (r.pieces > 0) || !moving r)) ||
      (r.status == .waiting && decide (r.createdAt < now - listTimeoutMs) && !moving r))

/-- Another get of the board's moved lately. -/
def boardGets (db : Db) (now : Int) (r : Request) : Bool :=
  db.requests.any fun b => b.deviceId == r.deviceId && b.kind == .get &&
    (lifeOf b).elim false fun t => decide (now - getTimeoutMs ≤ t)

def getStale (db : Db) (now : Int) (r : Request) : Bool :=
  r.kind == .get && before (lifeOf r) (now - getTimeoutMs) &&
    (r.status == .fetching || (r.status == .sent && !db.boardGets now r))

def settlingStale (now : Int) (r : Request) : Bool :=
  r.status == .settling && before r.activeAt (now - getTimeoutMs)

def placingStale (now : Int) (r : Request) : Bool :=
  r.kind == .get && r.status == .placing && before r.activeAt (now - getTimeoutMs)

def expireLines (db : Db) (moving : Request → Bool) (now : Int) : Db :=
  db.setRequests (lineStale moving now) (Request.fail "timeout" now)

def expireGets (db : Db) (now : Int) : Db :=
  db.setRequests (db.getStale now) (Request.fail "timeout" now)

def expireSettling (db : Db) (now : Int) : Db :=
  db.setRequests (settlingStale now) (Request.fail "moved" now)

def expirePlacing (db : Db) (now : Int) : Db :=
  db.setRequests (placingStale now) (Request.fail "io" now)

/-- Four statements. -/
def expireStale (db : Db) (moving : Request → Bool) (now : Int) : Db :=
  (((db.expireLines moving now).expireGets now).expireSettling now).expirePlacing now

-- ---------------------------------------------------------------------------
-- Asking
-- ---------------------------------------------------------------------------

inductive ListingState
  | ready
  | pending (row : Request)
  | failed
  | none

def since (now : Int) (t : Option Int) (span : Int) : Bool := t.elim false fun t => decide (now - t < span)

def listingState (now : Int) : Option Request → ListingState
  | .none => .none
  | some r =>
    if r.status == .waiting || r.status == .sent then .pending r
    else if r.status == .done && since now r.answeredAt rememberMs then .ready
    else if r.status == .failed && since now r.answeredAt failedShownMs then .failed
    else .none

/-- `latestFor`, behind the timeouts. -/
def latestFor (db : Db) (deviceId : String) (kind : Kind) (path : Units) (now : Int) : ListingState :=
  listingState now (newest (db.requests.filter fun r =>
    r.deviceId == deviceId && r.kind == kind && samePath r.amigaPath path))

/-- Whether the state answers this visit. -/
def keeps (fresh : Bool) (now : Int) : ListingState → Bool
  | .pending r => !(fresh && decide (paneGiveUpMs ≤ now - r.activeAt.getD r.createdAt))
  | .none => false
  | _ => !fresh

/-- `requestListing`, from the board's row on. -/
def requestListing (db : Db) (id orgId deviceId : String) (kind : Kind) (path : Units) (fresh : Bool)
    (moving : Request → Bool) (now : Int) : Db :=
  let db := db.expireStale moving now
  let state := db.latestFor deviceId kind path now
  if keeps fresh now state then db
  else
    let db := match state with
      | .pending row => db.setRequests (fun r => r.id == row.id) (Request.fail "timeout" now)
      | _ => db
    ((db.dropOld now).insertRequests
      [Request.fresh id orgId deviceId kind path Target.plain none now]).bumpReq deviceId

def addGets (db : Db) (orgId deviceId fetchId : String) (files : List (String × Units × Target))
    (now : Int) : Db :=
  if files = [] then db
  else
    (db.insertRequests (files.map fun f =>
      Request.fresh f.1 orgId deviceId .get f.2.1 f.2.2 (some fetchId) now)).bumpReq deviceId

def addListings (db : Db) (orgId deviceId jobId : String) (paths : List (String × Units)) (now : Int) : Db :=
  if paths = [] then db
  else
    (db.insertRequests (paths.map fun p =>
      Request.fresh p.1 orgId deviceId .dir p.2 Target.plain (some jobId) now)).bumpReq deviceId

structure WriteReq where
  id : String
  kind : Kind
  write : kind.write = true
  amigaPath : Units
  target : Target

/-- A millisecond apart, in the order given. -/
def addWrites (db : Db) (orgId deviceId jobId : String) (writes : List WriteReq) (now : Int) : Db :=
  if writes = [] then db
  else
    ((db.dropOld now).insertRequests (writes.zipIdx.map fun p =>
      Request.fresh p.1.id orgId deviceId p.1.kind p.1.amigaPath p.1.target (some jobId)
        (now + p.2))).bumpReq deviceId

-- ---------------------------------------------------------------------------
-- Handing out
-- ---------------------------------------------------------------------------

/-- Why a write is not handed to this board. -/
def refusal (d : Option Device) (r : Request) : Option String :=
  if r.kind.write && !d.any boardWrites then some "readonly"
  else if r.kind == .delete && r.target.one && !d.any (fun d => d.rxProto.getD 0 ≥ moveProto) then
    some "proto"
  else none

def waitingOf (deviceId : String) (r : Request) : Bool :=
  r.deviceId == deviceId && r.status == .waiting && r.kind != .cancel

/-- `listingsFirst`, then the oldest. -/
def handOrder (r : Request) : Nat := if r.kind = .get then 1 else 0

def Request.handBefore (a b : Request) : Bool :=
  handOrder a < handOrder b || (handOrder a == handOrder b && Request.before a b)

/-- The waiting requests the board cannot take. -/
def refused (db : Db) (deviceId : String) : List Request :=
  db.requests.filter fun r =>
    r.deviceId == deviceId && r.status == .waiting && (refusal (db.device deviceId) r).isSome

/-- What is picked of the others, past the rows someone else holds. -/
def picked (db : Db) (deviceId : String) (held : String → Bool) : List Request :=
  ((db.requests.filter fun r => waitingOf deviceId r && (refusal (db.device deviceId) r).isNone &&
    !held r.id).mergeSort Request.handBefore).take reqFetchMax

def Request.hand (now : Int) (r : Request) : Request :=
  { r with status := .sent, sentAt := some now, activeAt := some now }

/-- The rest of `takeWaiting`, of the rows it holds: those refused with their codes,
and those picked. -/
def handOut (db : Db) (deviceId : String) (refused : List (String × String)) (picked : List String)
    (now : Int) : Db :=
  let db := db.setRequests (fun r => (refused.lookup r.id).isSome)
    fun r => r.fail ((refused.lookup r.id).getD "") now
  if picked = [] then db
  else
    let db := db.setRequests (fun r => picked.contains r.id) (Request.hand now)
    if db.requests.any (waitingOf deviceId) then db.bumpReq deviceId else db

end Db

-- ---------------------------------------------------------------------------
-- Answers
-- ---------------------------------------------------------------------------

inductive End
  | done
  | failed (code : String)

def codeText (code : Units) : String := String.ofList (code.map fun u => Char.ofNat u.toNat)

structure WriteLines where
  removed : Nat
  kept : Bool
  ended : Option End

/-- A write's lines, from the count removed so far. -/
def writeLines (r : Request) : Nat → List Units → WriteLines
  | removed, [] => ⟨removed, false, none⟩
  | removed, line :: lines =>
    match parseAnswerLine (units r.id) line with
    | some (.del count) =>
      if r.kind = .delete then writeLines r (max removed count) lines
      else ⟨removed, false, some (.failed "bad")⟩
    | some (.done count cut) =>
      if cut then ⟨removed, false, some (.failed "bad")⟩
      else ⟨if r.kind = .delete then count else removed, false, some .done⟩
    | some (.err code _) =>
      let c := codeText code
      if (c = "notfound" ∧ r.target.icon) ∨ (c = "exists" ∧ r.target.ensure) then
        ⟨removed, false, some .done⟩
      else if r.kind = .delete ∧ r.target.one ∧ (c = "notempty" ∨ c = "notfound") then
        ⟨removed, c = "notempty", some .done⟩
      else ⟨removed, false, some (.failed c)⟩
    | _ => ⟨removed, false, some (.failed "bad")⟩

structure ListLines where
  volumes : List VolumeInfo
  entries : List EntryInfo
  cut : Bool
  fetching : Bool
  ended : Option End

/-- A listing's lines or a get's, behind what is kept. A DONE does not stop the
reading; an error does. -/
def listLines (r : Request) : ListLines → List Units → ListLines
  | s, [] => s
  | s, line :: lines =>
    match parseAnswerLine (units r.id) line with
    | some (.vol v) =>
      if r.kind = .vols then listLines r { s with volumes := s.volumes ++ [v] } lines
      else { s with ended := some (.failed "bad") }
    | some (.ent e) =>
      if r.kind = .dir then listLines r { s with entries := s.entries ++ [e] } lines
      else { s with ended := some (.failed "bad") }
    | some (.done _ cut) =>
      if r.kind = .get then { s with ended := some (.failed "bad") }
      else listLines r { s with cut := cut, ended := some .done } lines
    | some (.err code _) => { s with ended := some (.failed (codeText code)) }
    | some (.got _) =>
      if r.kind = .get then listLines r { s with fetching := true } lines
      else { s with ended := some (.failed "bad") }
    | _ => { s with ended := some (.failed "bad") }

structure Piece where
  piece : Nat
  lines : List Units
  last : Bool

/-- The end of an answer, as its row keeps it. -/
def Request.close (now : Int) (e : Option End) (r : Request) : Request :=
  match e with
  | none => r
  | some .done => { r with status := .done, answeredAt := some now }
  | some (.failed code) => r.fail code now

/-- The last piece ends the answer, or the answer is bad. -/
def lastEnd (p : Piece) (more : Bool) (e : Option End) : Option End :=
  match e with
  | none => if p.last && !more then some (.failed "bad") else none
  | some e => some e

def removedOf (r : Request) : Nat :=
  match r.answer with
  | some (.removed n _) => n
  | _ => 0

def listedOf (r : Request) : List VolumeInfo × List EntryInfo :=
  match r.answer with
  | some (.listing vs es) => (vs, es)
  | _ => ([], [])

/-- The row with the next piece of its answer. -/
def Request.piece (p : Piece) (now : Int) (r : Request) : Request :=
  let s := { r with pieces := r.pieces + 1, activeAt := some now }
  if r.kind.write then
    let w := writeLines r (removedOf r) p.lines
    let s := if r.kind = .delete then { s with answer := some (.removed w.removed w.kept) } else s
    s.close now (lastEnd p false w.ended)
  else
    let l := listLines r ⟨(listedOf r).1, (listedOf r).2, r.cut, false, none⟩ p.lines
    let s := if l.fetching then { s with status := .fetching } else s
    let s := if r.kind = .get then s else { s with answer := some (.listing l.volumes l.entries), cut := l.cut }
    s.close now (lastEnd p (r.kind == .get && l.fetching) l.ended)

inductive PieceResult
  | ok
  | gone
  | conflict
  deriving DecidableEq, Repr

/-- What a piece is to its request: the next one, a repeat, or out of place. -/
def pieceDue (p : Piece) (r : Request) : Option PieceResult :=
  if r.status == .done || r.status == .failed || decide (p.piece < r.pieces) then some .ok
  else if decide (p.piece > r.pieces) || (r.status != .sent && r.status != .fetching) then some .conflict
  else none

/-- The drawers a finished write changed. -/
def parentOf (path : Units) : Units :=
  let c := (path.idxOf? colon).getD 0
  match lastIndexOf slash path with
  | some i => if i > c then path.take i else path.take (c + 1)
  | none => path.take (c + 1)

/-- What a finished write touched: its drawer, and what it removed or renamed. A
rename's other drawer is `renamed`. -/
def touched (r : Request) (renamed : Option Units) : List Units × List Units :=
  if r.kind = .rename then
    ([parentOf r.amigaPath] ++ (renamed.map parentOf).toList ++ [r.amigaPath], [r.amigaPath])
  else if r.kind = .delete then ([parentOf r.amigaPath, r.amigaPath], [r.amigaPath])
  else ([parentOf r.amigaPath], [])

/-- A row below one of the drawers, or one of them. -/
def touches (paths below : List Units) (r : Request) : Bool :=
  paths.any (samePath r.amigaPath) ||
    below.any fun u => ((u ++ [slash]).map foldUnit).isPrefixOf (r.amigaPath.map foldUnit)

namespace Db

/-- `dropMemory`: listings of those drawers, or under one of them, are let go. -/
def dropMemory (db : Db) (deviceId : String) (paths below : List Units) : Db :=
  db.setRequests
    (fun r => r.deviceId == deviceId && r.kind == .dir && r.status == .done && touches paths below r)
    fun r => { r with status := .stale }

/-- Staging whose get the board failed goes. -/
def dropStaging (db : Db) (id : String) : Db :=
  let p : Upload → Bool := fun u => u.id == id && u.source == .staging && u.status == .receiving
  { db with uploads := update p (fun u => { u with status := .deleted }) db.uploads }

/-- What follows a piece: the listings a write changed are let go, and a failed get's
staging goes. -/
def afterPiece (db : Db) (r s : Request) (renamed : Option Units) : Db :=
  if r.kind.write then
    if s.status = .done ∨ (s.status = .failed ∧ removedOf s > 0) then
      db.dropMemory r.deviceId (touched r renamed).1 (touched r renamed).2
    else db
  else if r.kind = .get ∧ s.status = .failed then
    match r.uploadId with
    | some id => db.dropStaging id
    | none => db
  else db

def answerPiece (db : Db) (deviceId rid : String) (p : Piece) (renamed : Option Units) (now : Int) :
    PieceResult × Db :=
  match db.requests.find? (fun r => r.id == rid && r.deviceId == deviceId) with
  | none => (.gone, db)
  | some r =>
    match pieceDue p r with
    | some result => (result, db)
    | none =>
      (.ok, (db.setRequests (fun x => x.id == rid) (Request.piece p now)).afterPiece r (r.piece p now) renamed)

end Db

-- ---------------------------------------------------------------------------
-- A get's file
-- ---------------------------------------------------------------------------

def Request.touch (now : Int) (upload : Option String) (r : Request) : Request :=
  { r with
    status := .fetching, activeAt := some now, errorCode := none, answeredAt := none
    uploadId := upload.orElse fun _ => r.uploadId }

def Request.place (now : Int) (r : Request) : Request :=
  { r with status := .placing, activeAt := some now, errorCode := none, answeredAt := none }

namespace Db

/-- A sign of life of the get of this id, whose file's upload opened. -/
def touchGet (db : Db) (id : String) (now : Int) (upload : Option String) : Db :=
  db.setRequests (fun r => r.id == id && liveGet r) (Request.touch now upload)

/-- A sign of life of the get whose file this upload is. -/
def touchGetOf (db : Db) (uploadId : String) (now : Int) : Db :=
  db.setRequests (fun r => r.uploadId == some uploadId && liveGet r) (Request.touch now none)

/-- A get that names the upload lets go of it, but this one. -/
def releaseGets (db : Db) (uploadId rid : String) : Db :=
  db.setRequests (fun r => r.uploadId == some uploadId && r.id != rid) fun r => { r with uploadId := none }

/-- The live get the upload is of, claimed. -/
def claimed (db : Db) (uploadId : String) : Option Request :=
  newest (db.requests.filter fun r => r.uploadId == some uploadId && liveGet r)

def claimGet (db : Db) (uploadId : String) (now : Int) : Option Request × Db :=
  match db.claimed uploadId with
  | none => (none, db)
  | some g => (some g, db.setRequests (fun r => r.id == g.id && liveGet r) (Request.place now))

def settleGet (db : Db) (rid : String) (e : End) (now : Int) (onlyFrom : Option RequestStatus) : Db :=
  db.setRequests (fun r => r.id == rid && onlyFrom.elim true (r.status == ·)) (Request.close now (some e))

end Db

end WebAdf.Server
