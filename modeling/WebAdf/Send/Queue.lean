import WebAdf.Lib.Json
import WebAdf.Poll.Body

/-!
# The send queue

A file queued for the Amiga: its path made safe, or its destination checked, its
comment cleaned. The queue's text is one NEXT line and a LIST of rows, Latin-1
as on the wire, cut to the board's buffer.
-/

namespace WebAdf.Send

open Lib

def sendQueueBytes : Nat := 6144
def sendFileMax : Nat := 4194304

/-- `Buffer.from(text, 'latin1')`. -/
def latin1 (s : Units) : List UInt8 := s.map fun u => UInt8.ofNat u.toNat

-- ---------------------------------------------------------------------------
-- Paths
-- ---------------------------------------------------------------------------

def slash : UInt16 := 0x2f
def colon : UInt16 := 0x3a
def dot : UInt16 := 0x2e
def underscore : UInt16 := 0x5f

/-- `for (const ch of s)`: each character's code point. -/
def codePoints : Units → List Nat
  | [] => []
  | [u] => [u.toNat]
  | u :: v :: s =>
    if isHigh u && isLow v then
      (0x10000 + (u.toNat - 0xd800) * 1024 + (v.toNat - 0xdc00)) :: codePoints s
    else u.toNat :: codePoints (v :: s)

/-- What is kept of a character. -/
def cleanPoint (c : Nat) : Units :=
  if c < 0x20 ∨ c = 0x7f ∨ (0x80 ≤ c ∧ c < 0xa0) then []
  else if c = colon.toNat then [underscore]
  else if c > 0xff then [underscore]
  else [UInt16.ofNat c]

/-- `lastIndexOf`. -/
def lastIndexOf (c : UInt16) (s : Units) : Option Nat :=
  if c ∈ s then some (s.length - 1 - (s.reverse.takeWhile (· ≠ c)).length) else none

/-- The part's extension, of nine units at most. -/
def extension (p : Units) : Units :=
  match lastIndexOf dot p with
  | some d => if d > 0 ∧ p.length - d ≤ 9 then p.drop d else []
  | none => []

def cutPart (p : Units) : Units :=
  if p.length > 30 then p.take (30 - (extension p).length) ++ extension p else p

def cleanPart (raw : Units) : Option Units :=
  let p := (codePoints raw).flatMap cleanPoint
  if p = [] ∨ p = [dot] ∨ p = [dot, dot] then none else some (cutPart p)

def cleanAmigaPath (input : Units) : Option Units :=
  let out := [slash].intercalate ((input.splitOn slash).filterMap cleanPart)
  if out.length ≥ 1 ∧ out.length ≤ 255 then some out else none

inductive NameProblem
  | empty
  | tooLong
  | badChar
  deriving DecidableEq, Repr

/-- `CONTROL`, `C1` and `NOT_LATIN1`. -/
def badChar (u : UInt16) : Bool :=
  u ≤ 0x1f || u == 0x7f || (0x80 ≤ u && u ≤ 0x9f) || u > 0xff

def amigaNameProblem (name : Units) : Option NameProblem :=
  if Poll.trim name = [] then some .empty
  else if (codePoints name).length > 30 then some .tooLong
  else if name = [dot] ∨ name = [dot, dot] then some .badChar
  else if colon ∈ name ∨ slash ∈ name ∨ name.any badChar then some .badChar
  else none

/-- Checked, never cleaned. -/
def cleanAmigaDest (dest : Units) : Option Units :=
  match dest.idxOf? colon with
  | none => none
  | some c =>
    if c < 1 ∨ dest.length > 255 then none
    else
      let volume := dest.take c
      let parts := (dest.drop (c + 1)).splitOn slash
      if amigaNameProblem volume ≠ none ∨ parts.any (fun x => amigaNameProblem x ≠ none) then none
      else some dest

/-- Latin-1 printable, 79 characters at most. -/
def cleanComment (c : Units) : Units :=
  (c.filter fun u => (0x20 ≤ u && u ≤ 0x7e) || (0xa0 ≤ u && u ≤ 0xff)).take 79

-- ---------------------------------------------------------------------------
-- Rows
-- ---------------------------------------------------------------------------

inductive ClashMode
  | keep
  | replace
  | skip
  deriving DecidableEq, Repr

def ClashMode.text : ClashMode → Units
  | .keep => units "keep"
  | .replace => units "replace"
  | .skip => units "skip"

def hexUnit (u : UInt16) : Bool := (0x30 ≤ u && u ≤ 0x39) || (0x61 ≤ u && u ≤ 0x66)

/-- Five groups of lower-case digits. -/
def isUuid (s : Units) : Bool :=
  s.length == 36 && s.zipIdx.all fun (u, i) =>
    if i = 8 ∨ i = 13 ∨ i = 18 ∨ i = 23 then u == 0x2d else hexUnit u

/-- `crypto.randomUUID()`. -/
structure Uuid where
  text : Units
  shape : isUuid text = true

structure QueueRow where
  id : Uuid
  sizeBytes : Nat
  crc32 : UInt32
  protection : UInt32
  path : Units
  comment : Units
  dest : Option Units
  onClash : Option ClashMode

/-- One file to queue: its bytes' size and CRC, and where it goes. -/
structure QueueFile where
  path : Units
  sizeBytes : Nat
  crc32 : UInt32
  protection : UInt32
  comment : Units
  dest : Option Units
  onClash : Option ClashMode

inductive Refused
  | badName
  | tooLarge
  | empty
  deriving DecidableEq, Repr

/-- The row `queueTransferFromBlob` inserts. -/
def blobRow (id : Uuid) (a : QueueFile) : Except Refused QueueRow :=
  match cleanAmigaPath a.path with
  | none => .error .badName
  | some path =>
    if a.sizeBytes > sendFileMax then .error .tooLarge
    else .ok { id := id, sizeBytes := a.sizeBytes, crc32 := a.crc32, protection := a.protection,
               path := path, comment := cleanComment a.comment, dest := none, onClash := none }

/-- Behind the last slash, or else behind the first colon. -/
def destName (dest : Units) : Units :=
  dest.drop (max ((lastIndexOf slash dest).elim 0 (· + 1)) ((dest.idxOf? colon).elim 0 (· + 1)))

/-- The path `queueTransfers` keeps: a copy onto a volume has its file's name. -/
def pathOf (f : QueueFile) : Option Units :=
  match f.dest with
  | none => cleanAmigaPath f.path
  | some dest => (cleanAmigaDest dest).bind fun dest => cleanAmigaPath (destName dest)

/-- The row `queueTransfers` inserts for one of its files. -/
def fileRow (id : Uuid) (f : QueueFile) : Except Refused QueueRow :=
  match pathOf f with
  | none => .error .badName
  | some path =>
    if f.sizeBytes > sendFileMax then .error .tooLarge
    else if f.sizeBytes = 0 ∧ f.dest = none then .error .empty
    else .ok { id := id, sizeBytes := f.sizeBytes, crc32 := f.crc32, protection := f.protection,
               path := path, comment := cleanComment f.comment, dest := f.dest,
               onClash := if f.dest.isSome then some (f.onClash.getD .keep) else none }

/-- A row one of the two put in the table. -/
def Queued (r : QueueRow) : Prop :=
  (∃ a, blobRow r.id a = .ok r) ∨ ∃ f, fileRow r.id f = .ok r

-- ---------------------------------------------------------------------------
-- Text
-- ---------------------------------------------------------------------------

def hexUnits (n : Nat) : Units := (Nat.toDigits 16 n).map fun c => UInt16.ofNat c.toNat

def QueueRow.place (r : QueueRow) : Units := r.dest.getD r.path

/-- `"<len>:<text>"`, the length in Latin-1 bytes. -/
def counted (s : Units) : Units := decimalUnits (latin1 s).length ++ (colon :: s)

/-- `" <mode>"` behind an absolute destination. -/
def modeUnits (r : QueueRow) : Units :=
  match r.dest with
  | none | some [] => []
  | some _ => units " " ++ (r.onClash.getD .keep).text

/-- The NEXT line's fields. -/
def nextFields (r : QueueRow) : Units :=
  r.id.text ++ units " " ++ decimalUnits r.sizeBytes ++ units " " ++ hexUnits r.crc32.toNat ++
    units " " ++ hexUnits r.protection.toNat ++ units " " ++ counted r.place ++ units " " ++
    counted r.comment ++ modeUnits r

def nextLine : Option QueueRow → Units
  | some r => units "NEXT " ++ nextFields r ++ units "\n"
  | none => units "NEXT -\n"

def listRow (r : QueueRow) : Units :=
  r.id.text ++ units " " ++ decimalUnits r.sizeBytes ++ units " " ++ counted r.place ++ units "\n"

def listText (head : Units) (lines : List Units) (n : Nat) : Units :=
  head ++ units "LIST " ++ decimalUnits n ++ units "\n" ++ (lines.take n).flatten

/-- With as many rows as fit. -/
def formatQueue (next : Option QueueRow) (rows : List QueueRow) : Units :=
  let head := nextLine next
  let lines := rows.map listRow
  match (List.range (lines.length + 1)).reverse.find? fun n =>
      (latin1 (listText head lines n)).length ≤ sendQueueBytes with
  | some n => listText head lines n
  | none => head ++ units "LIST 0\n"

end WebAdf.Send
