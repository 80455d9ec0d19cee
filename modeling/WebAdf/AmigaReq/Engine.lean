import Mathlib.Logic.Relation
import WebAdf.AmigaReq.Body

/-!
# The board relays an answer

What the send engine does with a request: hands it to Transfer or answers it
itself, reads Transfer's lines while the piece has room, posts one piece at a
time, and ends the answer when Transfer falls silent or the connection goes.

Around the board's state stands what an observer sees: the lines of each answer
and the pieces the server acknowledged. The clock is left out, so each timeout
may strike at any time; so is what decides whose turn it is.
-/

namespace WebAdf.AmigaReq

open Lib

def txtNorx : Bytes := ascii "Transfer is not running on the Amiga"
def txtLost : Bytes := ascii "The connection to Transfer was lost"
def txtOld : Bytes := ascii "Transfer 2.3 or newer is needed"
def txtOld5 : Bytes := ascii "Transfer 2.6 or newer is needed"
def txtSilent : Bytes := ascii "Transfer stopped answering"
def txtRo : Bytes := ascii "Writing is off in Transfer"

/-- The requests the board answers itself. -/
def boardWords : List (Bytes × Bytes) :=
  [(ascii "norx", txtNorx), (ascii "old", txtOld), (ascii "old", txtOld5), (ascii "readonly", txtRo)]

/-- A line as `recv_line` gives it: no CR, cut to its buffer. -/
def recvLine (raw : Bytes) : Bytes := ((raw.filter (· != 13)).take lineMax).takeWhile (· != 0)

def accepted (st : Int) : Bool := 200 ≤ st && st < 300

/-- Refused for good. -/
def refused (st : Int) : Bool := 400 ≤ st && st < 500 && st != 401 && st != 408 && st != 429

/-- Before the next line is read: false while the piece cannot take one more,
which is then closed. `slow`: the piece has waited long enough. -/
def reqRoom (r : Req) (slow : Bool) : Req × Bool :=
  if !r.active || !r.sent || r.ended || r.discard then (r, true)
  else if r.postOwed then (r, false)
  else if bodyFull r || (0 < r.bodyLines && slow) then (bodyClose r false, false)
  else (r, true)

/-- The tag of `GOT <rid> <tag>`. -/
def gotTag (line rid : Bytes) : Option Bytes :=
  match line.drop (4 + rid.length) with
  | 32 :: tag => if 1 ≤ tag.length && tag.length ≤ tagMax && tag.all isDigit then some tag else none
  | _ => none

/-- The line belongs to the answer in progress. -/
def answers (r : Req) (line : Bytes) : Bool :=
  match lineVerb line with
  | some (_, rid) => r.active && r.sent && !r.ended && rid == r.rid
  | none => false

def reqLine (r : Req) (line : Bytes) : Req :=
  match lineVerb line with
  | none => r
  | some (verb, rid) =>
    if r.active && r.sent && !r.ended && rid == r.rid then
      let last := verb == .got || verb == .done || verb == .err
      if r.discard then if last then finish r else r
      else
        let r := if verb == .got && r.kind == .get then
            match gotTag line rid with
            | some tag => gotAdd r rid tag
            | none => r
          else r
        let r := (bodyAdd r line).getD r
        if last then bodyClose r true else r
    else if verb == .err then
      match gotByRid r rid with
      | some i => gotModify r i (·.late line)
      | none => r
    else r

/-- The connection went. -/
def reqOnDrop (r : Req) : Req :=
  let r := if r.active && r.sent then endErr r (ascii "norx") txtLost else r
  { r with got := r.got.map fun g => if g.used then g.fail (ascii "norx") txtLost else g }

/-- The request's own entry goes from the GOT table. -/
def gotForget (r : Req) : Req :=
  match gotByRid r r.rid with
  | some i => gotRemove r i
  | none => r

/-- The POST of the piece owed was answered `st`. -/
def posted (r : Req) (st : Int) : Req :=
  if accepted st then bodyPosted r
  else if refused st then
    if r.postLast then finish (gotForget r)
    else { gotForget r with postOwed := false, discard := true }
  else r

-- ---------------------------------------------------------------------------
-- What an observer sees
-- ---------------------------------------------------------------------------

/-- One answer: its lines so far, the bodies of its POSTs, those among them the
server acknowledged, and the one it refused for good. -/
structure Answer where
  rid : Bytes
  lines : List Bytes
  tried : List Bytes
  acked : List Bytes
  refused : Option Bytes

def Answer.new (rid : Bytes) : Answer := ⟨rid, [], [], [], none⟩

/-- The POST of a late ERR. -/
structure Late where
  rid : Bytes
  err : Bytes
  body : Bytes

structure World where
  req : Req
  cur : Answer
  past : List Answer
  late : List Late

def World.boot : World := ⟨init, Answer.new [], [], []⟩

/-- The answer in progress goes on, or is over. -/
def World.go (w : World) (r : Req) (a : Answer) : World :=
  if r.active then { w with req := r, cur := a }
  else { w with req := r, past := a :: w.past }

def Answer.say (a : Answer) (line : Bytes) : Answer := { a with lines := a.lines ++ [line] }

/-- The answer in progress with the board's ERR, where that ends it. -/
def World.errSaid (w : World) (code text : Bytes) : Answer :=
  if w.req.ended || w.req.discard then w.cur
  else match errLine (errMax + 1) w.req.rid code text with
    | some line => w.cur.say line
    | none => w.cur

def World.err (w : World) (code text : Bytes) : World :=
  if w.req.active then w.go (endErr w.req code text) (w.errSaid code text) else w

def World.line (w : World) (line : Bytes) : World :=
  if answers w.req line then w.go (reqLine w.req line) (w.cur.say line)
  else { w with req := reqLine w.req line }

def World.drop (w : World) : World :=
  if w.req.active then
    w.go (reqOnDrop w.req) (if w.req.sent then w.errSaid (ascii "norx") txtLost else w.cur)
  else { w with req := reqOnDrop w.req }

/-- The body that goes out. -/
def Req.out (r : Req) : Bytes := r.body.take r.bodyLen

/-- The answer after a POST that was answered `st`. -/
def Answer.heard (a : Answer) (body : Bytes) (st : Int) : Answer where
  rid := a.rid
  lines := a.lines
  tried := a.tried ++ [body]
  acked := if accepted st then a.acked ++ [body] else a.acked
  refused := if !accepted st && AmigaReq.refused st then some body else a.refused

def World.posted (w : World) (st : Int) : World :=
  w.go (AmigaReq.posted w.req st) (w.cur.heard w.req.out st)

def World.postedLate (w : World) (i : Nat) (st : Int) : World :=
  let g := w.req.got.getD i .empty
  { w with
    req := if accepted st || AmigaReq.refused st then gotRemove w.req i else w.req
    late := ⟨g.rid, g.err, lateBody g⟩ :: w.late }

inductive Step (w : World) : World → Prop
  /-- A fetched request goes to Transfer. -/
  | start (kind : Kind) (rid : Bytes) (idle : w.req.active = false)
      (ok : ridOk rid = true) :
      Step w { w with req := { take w.req kind rid with sent := true }, cur := .new rid }
  /-- A fetched request is answered by the board. -/
  | board (kind : Kind) (rid : Bytes) (idle : w.req.active = false)
      (ok : ridOk rid = true) (word : (code, text) ∈ boardWords) :
      Step w (World.err { w with req := take w.req kind rid, cur := .new rid } code text)
  /-- No room for a line, or none waits. -/
  | room (slow : Bool) : Step w { w with req := (reqRoom w.req slow).1 }
  | read (slow : Bool) (raw : Bytes) (room : reqRoom w.req slow = (w.req, true)) :
      Step w (w.line (recvLine raw))
  | drop : Step w w.drop
  /-- Transfer is silent: the answer ends and the connection goes. -/
  | silent (active : w.req.active = true) (sent : w.req.sent = true)
      (ended : w.req.ended = false) (owed : w.req.postOwed = false) :
      Step w (w.err (ascii "timeout") txtSilent).drop
  | post (st : Int) (owed : w.req.postOwed = true) : Step w (w.posted st)
  | postLate (i : Nat) (st : Int) (owed : w.req.postOwed = false)
      (err : gotOwed w.req = some i) : Step w (w.postedLate i st)
  /-- The upload of a GET's file is refused. -/
  | upNo (tag text : Bytes) (size : Bool) (i : Nat) (mine : gotByTag w.req tag = some i) :
      Step w { w with req := gotFail w.req i (ascii (if size then "toolarge" else "io")) text }
  /-- The upload of a GET's file is stored. -/
  | upDone (tag : Bytes) (i : Nat) (mine : gotByTag w.req tag = some i) :
      Step w { w with req := gotRemove w.req i }

def Reaches : World → World → Prop := Relation.ReflTransGen Step

end WebAdf.AmigaReq
