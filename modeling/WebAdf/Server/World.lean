import Mathlib.Logic.Relation
import WebAdf.Server.Moves

/-!
# Callers side by side

A statement that locks a few rows runs at once; a hand-out, a settle and a cancel
keep rows locked while others run. A statement waits for the rows it changes; a
hand-out passes locked ones by.
-/

namespace WebAdf.Server

open Lib Send

-- ---------------------------------------------------------------------------
-- Statements
-- ---------------------------------------------------------------------------

/-- The transactions that are over as soon as they have their rows. -/
inductive Stmt
  | listing (rid orgId deviceId : String) (drawer : Bool) (path : Units) (fresh : Bool) (moving : Request → Bool)
  | gets (orgId deviceId fetchId : String) (files : List (String × Units × Target))
  | writes (orgId deviceId jobId : String) (ws : List Db.WriteReq)
  | expireLines (moving : Request → Bool)
  | expireGets
  | expireSettling
  | expirePlacing
  | answer (deviceId rid : String) (p : Piece) (renamed : Option Units)
  | touch (rid : String) (upload : Option String)
  | touchOf (uploadId : String)
  | release (uploadId rid : String)
  | failGet (rid code : String)
  | failWrites (deviceId : String)
  | report (deviceId : String) (rx : Rx) (cap : Option Db.Cap) (poll : Bool)
  | finish (deviceId : String) (id : Units) (o : Db.Outcome)
  | cancelTransfer (orgId : String) (id : Units)
  | cancelQueue (orgId deviceId : String)
  | clear (orgId : String) (id : Units)
  | expireTransfers

def Stmt.run (now : Int) (db : Db) : Stmt → Db
  | .listing rid orgId deviceId drawer path fresh moving =>
    db.requestListing rid orgId deviceId (if drawer then .dir else .vols) path fresh moving now
  | .gets orgId deviceId fetchId files => db.addGets orgId deviceId fetchId files now
  | .writes orgId deviceId jobId ws => db.addWrites orgId deviceId jobId ws now
  | .expireLines moving => db.expireLines moving now
  | .expireGets => db.expireGets now
  | .expireSettling => db.expireSettling now
  | .expirePlacing => db.expirePlacing now
  | .answer deviceId rid p renamed => (db.answerPiece deviceId rid p renamed now).2
  | .touch rid upload => db.touchGet rid now upload
  | .touchOf uploadId => db.touchGetOf uploadId now
  | .release uploadId rid => db.releaseGets uploadId rid
  | .failGet rid code => db.settleGet rid (.failed code) now none
  | .failWrites deviceId => db.failWritesWhenOff deviceId now
  | .report deviceId rx cap poll => db.recordSendRx deviceId rx cap poll now
  | .finish deviceId id o => db.finishTransfer deviceId id o now
  | .cancelTransfer orgId id => db.cancelTransfer orgId id now
  | .cancelQueue orgId deviceId => db.cancelQueueSends orgId deviceId now
  | .clear orgId id => db.clearTransfer orgId id now
  | .expireTransfers => db.expireTransfers now

/-- The ids a statement draws. -/
def Stmt.draws : Stmt → List String
  | .listing rid .. => [rid]
  | .gets _ _ _ files => files.map Prod.fst
  | .writes _ _ _ ws => ws.map Db.WriteReq.id
  | _ => []

-- ---------------------------------------------------------------------------
-- Transactions under way
-- ---------------------------------------------------------------------------

/-- A transaction with the requests it holds. `asked` is the version the board asks at. -/
inductive Open
  | take (deviceId : String) (refused : List (String × String)) (picked : List String) (asked : Option Nat)
  | settle (orgId job : String) (source : Units) (parts : List Request)
  | cancel (orgId job : String) (seen : List String)

def Open.ids : Open → List String
  | .take _ refused picked _ => refused.map Prod.fst ++ picked
  | .settle _ _ _ parts => parts.map Request.id
  | .cancel _ _ seen => seen

/-- A get whose file is being placed, as it was claimed. -/
structure Placing where
  get : Request
  queued : Bool

inductive Event
  | handed (rid : String)
  | applied (rid : String) (piece : Nat)
  | asked (job : String) (source : Units) (ids : List String) (parts : List Request) (rows : List Transfer)
  | decided (d : Decision)
  | cancelled (orgId job : String)
  | removing (d : Decision) (paths : List Units)
  | queued (job : Option String) (id : Units)

/-- The tables, the transactions under way, the removals decided and those begun, and
one board: the version it was told and the one it last asked at. The log is what has
happened, the newest first. -/
structure World where
  db : Db
  running : List Open
  placing : List Placing
  due : List Decision
  begun : List Decision
  told : Nat
  acked : Nat
  replies : List Nat
  used : List String
  log : List Event

namespace World

def holds (w : World) (rid : String) : Bool := w.running.any fun o => o.ids.contains rid

/-- No row is held that the statement changes. -/
def Free (w : World) (db : Db) : Prop :=
  ∀ r ∈ w.db.requests, w.holds r.id = true → r ∈ db.requests

/-- Ids no one drew before. -/
def Drawn (w : World) (ids : List String) : Prop := ids.Nodup ∧ ∀ i ∈ ids, i ∉ w.used

end World

def Db.reqVersion (db : Db) (deviceId : String) : Nat :=
  ((db.device deviceId).map Device.reqVersion).getD 0

/-- The piece a call adds to an answer: none where it is a repeat, or out of place. -/
def Db.appliedPiece (db : Db) (deviceId rid : String) (p : Piece) : Option (String × Nat) :=
  match db.requests.find? (fun r => r.id == rid && r.deviceId == deviceId) with
  | some r => if pieceDue p r = none then some (rid, p.piece) else none
  | none => none

def Stmt.applies (db : Db) : Stmt → Option (String × Nat)
  | .answer deviceId rid p _ => db.appliedPiece deviceId rid p
  | _ => none

/-- A settle's parts, in the order it locks them, and its rows. -/
def Db.movedParts (db : Db) (job : String) (source : Units) : List Request :=
  (db.requests.filter (partOf job source)).mergeSort Request.before

def Db.movedRows (db : Db) (job : String) (source : Units) : List Transfer :=
  db.transfers.filter (rowOf job source)

/-- What a settle draws: the listings' ids, its record's, and those of what it leaves. -/
def SettleIds.draws (ids : SettleIds) : List String := ids.verify ++ (ids.changed ++ [ids.said])

/-- What it has drawn of them. -/
def Verdict.drawn : Verdict → List String
  | .asks paths => paths.map Prod.fst
  | .decides d changed => changed.map Prod.fst ++ [d.said]
  | _ => []

def Verdict.decision : Verdict → Option Decision
  | .decides d _ => some d
  | _ => none

def Verdict.events (job : String) (source : Units) (parts : List Request) (rows : List Transfer) :
    Verdict → List Event
  | .asks paths => [.asked job source (paths.map Prod.fst) parts rows]
  | .decides d _ => [.decided d]
  | _ => []

-- ---------------------------------------------------------------------------
-- Steps
-- ---------------------------------------------------------------------------

inductive Act
  | stmt (s : Stmt) (now : Int)
  | asks (deviceId : String)
  | handsOut (deviceId : String) (now : Int)
  | settles (orgId job : String) (source : Units)
  | settled (orgId job : String) (source : Units) (now : Int)
  | cancels (orgId job : String)
  | cancelled (orgId job : String) (now : Int)
  | aborts (o : Open)
  | told
  | replied (v : Nat)
  | boots
  | claims (uploadId : String) (now : Int)
  | relays (g : Request) (now : Int)
  | placed (g : Request) (e : End) (now : Int)
  | removes (d : Decision) (now : Int)
  | records (d : Decision) (out : Removal) (now : Int)

/-- One step, with the board `dev` at the other end. -/
inductive Step (dev : String) (w : World) : Act → World → Prop
  | stmt (s : Stmt) (now : Int) (free : w.Free (s.run now w.db)) (drawn : w.Drawn s.draws) :
    Step dev w (.stmt s now)
      { w with
        db := s.run now w.db, used := s.draws ++ w.used
        log := ((s.applies w.db).map fun a => Event.applied a.1 a.2).toList ++ w.log }
  | asks (deviceId : String) (free : ∀ r ∈ w.db.refused deviceId, w.holds r.id = false) :
    Step dev w (.asks deviceId)
      { w with
        running := .take deviceId
          ((w.db.refused deviceId).map fun r => (r.id, (Db.refusal (w.db.device deviceId) r).getD ""))
          ((w.db.picked deviceId w.holds).map Request.id)
          (if deviceId = dev then some w.told else none) :: w.running }
  | handsOut (as bs : List Open) (deviceId : String) (refused : List (String × String)) (picked : List String)
      (asked : Option Nat) (now : Int) (here : w.running = as ++ .take deviceId refused picked asked :: bs) :
    Step dev w (.handsOut deviceId now)
      { w with
        db := w.db.handOut deviceId refused picked now, running := as ++ bs
        replies := asked.toList ++ w.replies, log := picked.map Event.handed ++ w.log }
  | settles (orgId job : String) (source : Units)
      (free : ∀ r ∈ w.db.movedParts job source, w.holds r.id = false) :
    Step dev w (.settles orgId job source)
      { w with running := .settle orgId job source (w.db.movedParts job source) :: w.running }
  | settled (as bs : List Open) (orgId job : String) (source : Units) (parts : List Request) (ids : SettleIds)
      (blocked : Bool) (v : Verdict) (now : Int) (here : w.running = as ++ .settle orgId job source parts :: bs)
      (drawn : w.Drawn ids.draws) (enough : parts.length ≤ ids.verify.length ∧ parts.length ≤ ids.changed.length)
      (verdict : v = w.db.verdict orgId job source parts (w.db.movedRows job source) ids blocked) :
    Step dev w (.settled orgId job source now)
      { w with
        db := w.db.settled orgId job parts (w.db.movedRows job source) v now
        running := as ++ bs, due := v.decision.toList ++ w.due, used := ids.draws ++ w.used
        log := v.events job source parts (w.db.movedRows job source) ++ w.log }
  | cancels (orgId job : String) (free : ∀ r ∈ w.db.jobRequests orgId job, w.holds r.id = false) :
    Step dev w (.cancels orgId job)
      { w with running := .cancel orgId job ((w.db.jobRequests orgId job).map Request.id) :: w.running }
  | cancelled (as bs : List Open) (orgId job : String) (seen : List String) (id : String) (now : Int)
      (here : w.running = as ++ .cancel orgId job seen :: bs) (drawn : w.Drawn [id]) :
    Step dev w (.cancelled orgId job now)
      { w with
        db := w.db.cancelSeen orgId job id seen.contains now, running := as ++ bs, used := id :: w.used
        log := .cancelled orgId job :: w.log }
  | aborts (as bs : List Open) (o : Open) (here : w.running = as ++ o :: bs) :
    Step dev w (.aborts o) { w with running := as ++ bs }
  | told : Step dev w .told { w with told := w.db.reqVersion dev }
  | replied (as bs : List Nat) (v : Nat) (here : w.replies = as ++ v :: bs) :
    Step dev w (.replied v) { w with acked := v, replies := as ++ bs }
  | boots : Step dev w .boots { w with told := 0, acked := 0, replies := [] }
  | claims (uploadId : String) (now : Int) (free : w.Free (w.db.claimGet uploadId now).2) :
    Step dev w (.claims uploadId now)
      { w with
        db := (w.db.claimGet uploadId now).2
        placing := ((w.db.claimGet uploadId now).1.map fun g => ⟨g, false⟩).toList ++ w.placing }
  | relays (as bs : List Placing) (g : Request) (r : Relay) (id : Uuid) (file : QueueFile) (stored : Bool)
      (db : Db) (now : Int) (here : w.placing = as ++ ⟨g, false⟩ :: bs) (relay : g.target.relay = some r)
      (free : w.holds g.id = false) (queued : w.db.relay g r id file stored now = some db) :
    Step dev w (.relays g now)
      { w with
        db := db, placing := as ++ ⟨g, true⟩ :: bs
        log := .queued g.fetchId id.text :: w.log }
  | placed (as bs : List Placing) (p : Placing) (e : End) (now : Int) (here : w.placing = as ++ p :: bs)
      (done : e = .done → p.get.target.relay = none ∨ p.queued = true)
      (free : w.Free (w.db.settleGet p.get.id e now (some .placing))) :
    Step dev w (.placed p.get e now)
      { w with db := w.db.settleGet p.get.id e now (some .placing), placing := as ++ bs }
  | removes (as bs : List Decision) (d : Decision) (files : List Units) (deviceId : String) (ids : List String)
      (now : Int) (here : w.due = as ++ d :: bs) (refused : d.refused = false) (volume : onVolume d.source = true)
      (perm : files.Perm d.checked) (drawn : w.Drawn ids) (enough : (Db.removalPaths d files).length = ids.length)
      (free : w.Free (w.db.removeCopied d deviceId files ids now)) :
    Step dev w (.removes d now)
      { w with
        db := w.db.removeCopied d deviceId files ids now, due := as ++ bs, begun := d :: w.begun
        used := ids ++ w.used, log := .removing d files :: w.log }
  | unlinks (as bs : List Decision) (d : Decision) (now : Int) (here : w.due = as ++ d :: bs)
      (refused : d.refused = false) (volume : onVolume d.source = false) :
    Step dev w (.removes d now)
      { w with due := as ++ bs, begun := d :: w.begun, log := .removing d d.copied :: w.log }
  | leaves (as bs : List Decision) (d : Decision) (now : Int) (here : w.due = as ++ d :: bs)
      (free : w.Free (w.db.recordRemoval d Removal.refused now)) :
    Step dev w (.records d Removal.refused now)
      { w with db := w.db.recordRemoval d Removal.refused now, due := as ++ bs }
  | records (as bs : List Decision) (d : Decision) (out : Removal) (now : Int) (here : w.begun = as ++ d :: bs)
      (free : w.Free (w.db.recordRemoval d out now)) :
    Step dev w (.records d out now)
      { w with db := w.db.recordRemoval d out now, begun := as ++ bs }

end WebAdf.Server
