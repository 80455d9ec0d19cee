import Mathlib
import WebAdf.Constants
import WebAdf.Lib.Ascii

/-!
# A request's answer, piece by piece

The pure part of the board's request relay: the JSON body of the piece being
gathered, how an answer ends, and the GETs answered GOT whose files have not
finished. A line is a C string, the bytes before its NUL.
-/

namespace WebAdf.AmigaReq

open Lib

def ridMax : Nat := 40
def arMax : Nat := 8
def bodyBytes : Nat := 32768
def pieceLines : Nat := 400
def lineMax : Nat := 640
def tagMax : Nat := 9
def errMax : Nat := 200
def lateBytes : Nat := 1280
def closeReserve : Nat := 16

inductive Kind
  | none | vols | dir | get | mkdir | rename | delete | protect | note | deleteOne | mkdirIcon
  deriving DecidableEq

/-- A GET that was answered GOT: its file comes up later as the upload `tag`.
With `errOwed`, the GET failed since and `err` waits to be posted. -/
structure Got where
  used : Bool
  errOwed : Bool
  seq : Nat
  rid : Bytes
  tag : Bytes
  err : Bytes
  deriving DecidableEq

def Got.empty : Got := ⟨false, false, 0, [], [], []⟩

/-- The request being answered. `body` holds the piece so far, of which `bodyLen`
bytes count; `endErr` is the ERR that ends the answer after the piece owed. -/
structure Req where
  active : Bool
  sent : Bool
  ended : Bool
  discard : Bool
  kind : Kind
  rid : Bytes
  linesTotal : Nat
  body : Bytes
  bodyLen : Nat
  bodyLines : Nat
  piece : Nat
  postOwed : Bool
  postLast : Bool
  endErr : Bytes
  got : List Got
  gotSeq : Nat

def init : Req where
  active := false
  sent := false
  ended := false
  discard := false
  kind := .none
  rid := []
  linesTotal := 0
  body := []
  bodyLen := 0
  bodyLines := 0
  piece := 0
  postOwed := false
  postLast := false
  endErr := []
  got := List.replicate arMax Got.empty
  gotSeq := 0

def ridByte (c : UInt8) : Bool :=
  65 ≤ c && c ≤ 90 || 97 ≤ c && c ≤ 122 || 48 ≤ c && c ≤ 57 || c == 45 || c == 95

def ridOk (t : Bytes) : Bool := 1 ≤ t.length && t.length ≤ ridMax && t.all ridByte

-- ---------------------------------------------------------------------------
-- Escaping
-- ---------------------------------------------------------------------------

def hexDigit (n : Nat) : UInt8 := UInt8.ofNat (if n < 10 then 48 + n else 87 + n)

def escByte (c : UInt8) : Bytes :=
  if c = 34 ∨ c = 92 then [92, c]
  else if c < 0x20 ∨ 0x7f ≤ c then ascii "\\u00" ++ [hexDigit (c.toNat / 16), hexDigit (c.toNat % 16)]
  else [c]

/-- `as_json_escape` with `o` bytes written so far: cut to fit, never half an
escape. -/
def jsonEscape (cap o : Nat) : Bytes → Bytes
  | [] => []
  | c :: cs =>
    if cap ≤ o + (escByte c).length then []
    else escByte c ++ jsonEscape cap (o + (escByte c).length) cs

def escLen (line : Bytes) : Nat :=
  (line.map fun c => if c = 34 ∨ c = 92 then 2 else if c < 0x20 ∨ 0x7f ≤ c then 6 else 1).sum

-- ---------------------------------------------------------------------------
-- The piece's body
-- ---------------------------------------------------------------------------

def bodyBegin (r : Req) : Req :=
  let (body, n) := snprintf bodyBytes
    (ascii "\x7b\"piece\":" ++ decimal r.piece ++ ascii ",\"lines\":[")
  { r with body := body, bodyLen := n, bodyLines := 0 }

/-- `none` where the line does not fit. -/
def bodyAdd (r : Req) (line : Bytes) : Option Req :=
  if pieceLines ≤ r.bodyLines ∨ bodyBytes < r.bodyLen + (escLen line + 3) + closeReserve then none
  else
    let o := r.body.take r.bodyLen ++ (if r.bodyLines = 0 then [] else ascii ",") ++ ascii "\""
    let o := o ++ jsonEscape (bodyBytes - o.length) 0 line ++ ascii "\""
    some { r with
      body := o
      bodyLen := o.length
      bodyLines := r.bodyLines + 1
      linesTotal := (r.linesTotal + 1) % 2 ^ 32 }

/-- A line of `lineMax` bytes might not fit. -/
def bodyFull (r : Req) : Bool :=
  pieceLines ≤ r.bodyLines || bodyBytes < r.bodyLen + lineMax * 6 + 3 + closeReserve

def bodyClose (r : Req) (last : Bool) : Req :=
  let (text, n) := snprintf (bodyBytes - r.bodyLen)
    (ascii "],\"last\":" ++ (if last then ascii "true" else ascii "false") ++ ascii "\x7d")
  { r with
    body := r.body.take r.bodyLen ++ text
    bodyLen := r.bodyLen + n
    postOwed := true
    postLast := last
    ended := r.ended || last }

def finish (r : Req) : Req :=
  { r with
    active := false
    sent := false
    ended := false
    discard := false
    postOwed := false
    postLast := false
    kind := .none
    rid := []
    endErr := []
    bodyLen := 0
    bodyLines := 0 }

/-- The request of a fetched line: its first piece begins. -/
def take (r : Req) (kind : Kind) (rid : Bytes) : Req :=
  bodyBegin { r with
    active := true
    sent := false
    ended := false
    discard := false
    kind := kind
    rid := rid
    piece := 0
    linesTotal := 0
    endErr := []
    postOwed := false
    postLast := false }

/-- After its POST: the next piece begins, with the ERR that waits, or the
request is done. -/
def bodyPosted (r : Req) : Req :=
  let r := { r with postOwed := false }
  if r.postLast then finish r
  else
    let r := bodyBegin { r with piece := (r.piece + 1) % 2 ^ 32 }
    if r.endErr = [] then r
    else
      let r := (bodyAdd r r.endErr).getD r
      bodyClose { r with endErr := [] } true

/-- The board's own `ERR`; `none` where it does not fit in `cap`. -/
def errLine (cap : Nat) (rid code text : Bytes) : Option Bytes :=
  let text := text.take 79
  let (line, n) := snprintf cap
    (ascii "ERR " ++ rid ++ ascii " " ++ code ++ ascii " " ++ decimal text.length ++ ascii ":" ++ text)
  if cap ≤ n then none else some line

def endErr (r : Req) (code text : Bytes) : Req :=
  if !r.active || r.ended then r
  else if r.discard then finish r
  else match errLine (errMax + 1) r.rid code text with
    | none => r
    | some line =>
      let r := { r with ended := true }
      if r.postOwed then { r with endErr := line.take errMax }
      else match bodyAdd r line with
        | none => { bodyClose r false with ended := true, endErr := line.take errMax }
        | some r => bodyClose r true

-- ---------------------------------------------------------------------------
-- Lines
-- ---------------------------------------------------------------------------

inductive Verb
  | vol | ent | done | err | got | del
  deriving DecidableEq

def Verb.text : Verb → Bytes
  | .vol => ascii "VOL"
  | .ent => ascii "ENT"
  | .done => ascii "DONE"
  | .err => ascii "ERR"
  | .got => ascii "GOT"
  | .del => ascii "DEL"

/-- The verb and the rid of a line of Transfer's. -/
def lineVerb (line : Bytes) : Option (Verb × Bytes) :=
  match [Verb.vol, .ent, .done, .err, .got, .del].find?
      fun v => (v.text ++ ascii " ").isPrefixOf line with
  | none => none
  | some v =>
    let rid := (line.drop (v.text.length + 1)).takeWhile (· != 32)
    if ridOk rid then some (v, rid) else none

-- ---------------------------------------------------------------------------
-- The GOT table
-- ---------------------------------------------------------------------------

/-- The entry that goes when the table is full: the first with the least `seq`. -/
def oldest (got : List Got) : Nat :=
  (List.range got.length).foldl
    (fun g i => if (got.getD i .empty).seq < (got.getD g .empty).seq then i else g) 0

def gotAdd (r : Req) (rid tag : Bytes) : Req :=
  let i := (r.got.findIdx? fun g => !g.used).getD (oldest r.got)
  let seq := (r.gotSeq + 1) % 2 ^ 32
  { r with
    got := r.got.set i ⟨true, false, seq, rid.take ridMax, tag.take tagMax, []⟩
    gotSeq := seq }

/-- A failed entry is matched by rid only. -/
def gotByTag (r : Req) (tag : Bytes) : Option Nat :=
  r.got.findIdx? fun g => g.used && !g.errOwed && g.tag == tag

def gotByRid (r : Req) (rid : Bytes) : Option Nat :=
  r.got.findIdx? fun g => g.used && g.rid == rid

/-- Once: a later failure keeps the first. -/
def Got.fail (g : Got) (code text : Bytes) : Got :=
  if g.errOwed then g
  else match errLine (errMax + 1) g.rid code text with
    | none => g
    | some line => { g with err := line, errOwed := true }

/-- Transfer's own late ERR, as it came. -/
def Got.late (g : Got) (line : Bytes) : Got :=
  if g.errOwed || errMax < line.length then g else { g with err := line.take errMax, errOwed := true }

def gotOwed (r : Req) : Option Nat := r.got.findIdx? fun g => g.used && g.errOwed

def lateBody (g : Got) : Bytes :=
  let o := ascii "\x7b\"piece\":1,\"lines\":[\""
  let o := o ++ jsonEscape (lateBytes - o.length - 20) 0 g.err
  o ++ (snprintf (lateBytes - o.length) (ascii "\"],\"last\":true\x7d")).1

def gotModify (r : Req) (i : Nat) (f : Got → Got) : Req := { r with got := r.got.modify i f }

def gotFail (r : Req) (i : Nat) (code text : Bytes) : Req := gotModify r i (Got.fail · code text)

def gotRemove (r : Req) (i : Nat) : Req := gotModify r i fun _ => .empty

end WebAdf.AmigaReq
