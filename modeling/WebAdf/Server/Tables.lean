import WebAdf.Browse.Wire

/-!
# The server's tables

Boards, files queued for them, requests to them and files coming up from them,
as rows. A table is its rows in no order that anything relies on; an update
changes the rows a condition names, each in its place.
-/

namespace WebAdf.Server

open Lib Send
open Browse (EntryInfo VolumeInfo)

-- ---------------------------------------------------------------------------
-- Boards
-- ---------------------------------------------------------------------------

/-- What the board says of Transfer: connected, refused, unreachable, or none. -/
inductive Rx
  | c
  | r
  | u
  | off
  deriving DecidableEq, Repr

structure Device where
  id : String
  orgId : String
  rxProto : Option Nat
  browseOn : Bool
  writeOn : Bool
  sendRx : Option Rx
  sendRxAt : Option Int
  sendVersion : Nat
  reqVersion : Nat

/-- Transfer's READY 4 with both switches on. -/
def boardWrites (d : Device) : Bool := d.rxProto.getD 0 ≥ 4 && d.browseOn && d.writeOn

-- ---------------------------------------------------------------------------
-- Files for the Amiga
-- ---------------------------------------------------------------------------

inductive TransferStatus
  | queued
  | sending
  | delivered
  | failed
  | cancelled
  | expired
  | skipped
  deriving DecidableEq, Repr

/-- `ACTIVE`. The others are `FINISHED`. -/
def TransferStatus.active : TransferStatus → Bool
  | .queued | .sending => true
  | _ => false

structure Transfer where
  file : QueueRow
  orgId : String
  deviceId : String
  status : TransferStatus
  createdAt : Int
  expiresAt : Int
  finishedAt : Option Int
  jobId : Option String
  moveSource : Option Units
  moveItem : Option Units

-- ---------------------------------------------------------------------------
-- Requests to a board
-- ---------------------------------------------------------------------------

inductive Kind
  | vols
  | dir
  | get
  | mkdir
  | rename
  | delete
  | protect
  | note
  | cancel
  deriving DecidableEq, Repr

/-- `isWriteKind`. -/
def Kind.write : Kind → Bool
  | .mkdir | .rename | .delete | .protect | .note => true
  | _ => false

inductive RequestStatus
  | waiting
  | sent
  | fetching
  | placing
  | settling
  | done
  | failed
  | stale
  deriving DecidableEq, Repr

/-- A copy onto another volume: the board its file goes to. -/
structure Relay where
  deviceId : String
  dest : Units
  onClash : ClashMode
  moveSource : Option Units
  deriving DecidableEq

/-- A request's `target`: what a get or a write is for. -/
structure Target where
  one : Bool
  moveSource : Option Units
  relay : Option Relay
  moveSeen : Option (Nat × Units)
  moveVerify : Option (List String)
  /-- A `.info` taken along. -/
  icon : Bool := false
  /-- A drawer a copy needs: one there already is as good as made. -/
  ensure : Bool := false
  /-- A moved drawer's drawers, and the entry of it that a Makedir copies. -/
  moveDrawers : List Units := []
  moveItem : Option Units := none
  deriving DecidableEq

/-- The source a move removes, wherever the row says it. -/
def Target.marker (t : Target) : Option Units :=
  t.moveSource.orElse fun _ => t.relay.bind Relay.moveSource

/-- `(target - 'moveSource') #- '{relay,moveSource}'`. -/
def Target.unmark (t : Target) : Target :=
  { t with moveSource := none, relay := t.relay.map fun r => { r with moveSource := none } }

/-- What is kept of an answer: a listing's lines, or what a delete removed. -/
inductive Answer
  | listing (volumes : List VolumeInfo) (entries : List EntryInfo)
  | removed (count : Nat) (kept : Bool)
  deriving DecidableEq

structure Request where
  id : String
  orgId : String
  deviceId : String
  kind : Kind
  amigaPath : Units
  status : RequestStatus
  errorCode : Option String
  pieces : Nat
  target : Target
  fetchId : Option String
  uploadId : Option String
  createdAt : Int
  sentAt : Option Int
  activeAt : Option Int
  answeredAt : Option Int
  answer : Option Answer := none
  cut : Bool := false

-- ---------------------------------------------------------------------------
-- Files from the Amiga
-- ---------------------------------------------------------------------------

inductive UploadStatus
  | receiving
  | stored
  | failed
  | deleted
  deriving DecidableEq, Repr

/-- Where a row came from. `staging` is a file between two volumes, no STASH: entry. -/
inductive UploadSource
  | amiga
  | browser
  | copy
  | staging
  deriving DecidableEq, Repr

structure Upload where
  id : String
  orgId : String
  status : UploadStatus
  source : UploadSource := .amiga

structure Db where
  devices : List Device
  transfers : List Transfer
  requests : List Request
  uploads : List Upload

-- ---------------------------------------------------------------------------
-- Updates
-- ---------------------------------------------------------------------------

/-- `UPDATE … SET … WHERE …`. -/
def update (p : α → Bool) (f : α → α) (rows : List α) : List α :=
  rows.map fun r => if p r then f r else r

namespace Db

def device (db : Db) (id : String) : Option Device := db.devices.find? (·.id == id)

/-- `send_version + 1` for the boards a condition names. -/
def bumpSend (db : Db) (p : String → Bool) : Db :=
  { db with
    devices := update (fun d => p d.id) (fun d => { d with sendVersion := d.sendVersion + 1 }) db.devices }

def setTransfers (db : Db) (p : Transfer → Bool) (f : Transfer → Transfer) : Db :=
  { db with transfers := update p f db.transfers }

def setRequests (db : Db) (p : Request → Bool) (f : Request → Request) : Db :=
  { db with requests := update p f db.requests }

end Db

end WebAdf.Server
