import WebAdf.Send.Queue

/-!
# The browse protocol's lines at the server

The request lines a board passes to Transfer and the answer lines it brings
back. A line's words stand between single blanks, a text with its length before
it; characters are Latin-1. Paths below a board are checked name by name.
-/

namespace WebAdf.Browse

open Lib Send

def space : UInt16 := 0x20

-- ---------------------------------------------------------------------------
-- Requests
-- ---------------------------------------------------------------------------

/-- `RemoteKind`: what has a request line. -/
inductive RemoteKind
  | vols
  | dir
  | get
  | mkdir
  | rename
  | delete
  | protect
  | note
  deriving DecidableEq, Repr

/-- A write request's arguments: `renamed` is RENAME's `to`. -/
structure WriteArgs where
  renamed : Option Units
  protection : Option UInt32
  comment : Option Units
  one : Bool
  drawerIcon : Bool

structure RequestRow where
  id : Units
  kind : RemoteKind
  amigaPath : Units
  target : WriteArgs

/-- `"<len>:<text>"`. -/
def lp (s : Units) : Units := decimalUnits s.length ++ (colon :: s)

def requestLine (r : RequestRow) : Units :=
  let a := r.target
  let withPath (verb : String) : Units := units verb ++ units " " ++ r.id ++ units " " ++ lp r.amigaPath
  match r.kind with
  | .vols => units "VOLS " ++ r.id ++ units "\n"
  | .dir => withPath "DIR" ++ units "\n"
  | .get => withPath "GET" ++ units "\n"
  | .mkdir => withPath "MKDIR" ++ (if a.drawerIcon then units " icon" else []) ++ units "\n"
  | .delete => withPath "DELETE" ++ (if a.one then units " one" else []) ++ units "\n"
  | .rename => withPath "RENAME" ++ units " " ++ lp (a.renamed.getD []) ++ units "\n"
  | .protect => withPath "PROTECT" ++ units " " ++ hexUnits (a.protection.getD 0).toNat ++ units "\n"
  | .note => withPath "NOTE" ++ units " " ++ lp (a.comment.getD []) ++ units "\n"

-- ---------------------------------------------------------------------------
-- Paths
-- ---------------------------------------------------------------------------

def deviceUnit (u : UInt16) : Bool :=
  (0x41 ≤ u && u ≤ 0x5a) || (0x61 ≤ u && u ≤ 0x7a) || (0x30 ≤ u && u ≤ 0x39) || u == 0x5f ||
    u == dot || u == 0x2d

/-- What `.` matches. -/
def inLine (u : UInt16) : Bool := u != 0x0a && u != 0x0d && u != 0x2028 && u != 0x2029

/-- `SUFFIXED`: `"Name (DEVn:)"`, the name and the device. -/
def suffixed (volume : Units) : Option (Units × Units) :=
  match volume.reverse with
  | 0x29 :: 0x3a :: r =>
    let dev := r.takeWhile deviceUnit
    match r.drop dev.length with
    | 0x28 :: 0x20 :: name =>
      if 1 ≤ dev.length ∧ dev.length ≤ 30 ∧ name ≠ [] ∧ name.all inLine then
        some (name.reverse, dev.reverse ++ [colon])
      else none
    | _ => none
  | _ => none

structure AmigaPath where
  volume : Units
  amigaPath : Units
  shown : Units

/-- Segments below the board as an Amiga path: a labelled volume goes by its
device. -/
def amigaPathOf (segments : List Units) : Option AmigaPath :=
  match segments with
  | [] => none
  | volume :: rest =>
    let name := ((suffixed volume).map Prod.fst).getD volume
    if amigaNameProblem name ≠ none ∨ rest.any (fun s => amigaNameProblem s ≠ none) then none
    else
      let below := [slash].intercalate rest
      let root := ((suffixed volume).map Prod.snd).getD (volume ++ [colon])
      some ⟨volume, root ++ below, volume ++ [colon] ++ below⟩

-- ---------------------------------------------------------------------------
-- Answers
-- ---------------------------------------------------------------------------

structure VolumeInfo where
  name : Units
  device : Units
  size : Nat
  free : Nat
  date : Units
  deriving DecidableEq

structure EntryInfo where
  name : Units
  dir : Bool
  size : Nat
  protection : Nat
  date : Units
  comment : Units
  deriving DecidableEq

inductive AnswerLine
  | vol (v : VolumeInfo)
  | ent (e : EntryInfo)
  | done (count : Nat) (cut : Bool)
  | err (code text : Units)
  | got (tag : Units)
  | del (count : Nat)
  deriving DecidableEq

/-- A number with at least `n` digits. -/
def padded (n k : Nat) : Units :=
  let ds := decimalUnits k
  List.replicate (n - ds.length) 0x30 ++ ds

/-- The year, month and day of a day of the era that begins 0000-03-01. -/
def civil (day : Nat) : Nat × Nat × Nat :=
  let era := day / 146097
  let doe := day % 146097
  let yoe := (doe - doe / 1460 + doe / 36524 - doe / 146096) / 365
  let doy := doe - (365 * yoe + yoe / 4 - yoe / 100)
  let mp := (5 * doy + 2) / 153
  let month := if mp < 10 then mp + 3 else mp - 9
  ((yoe + era * 400) + (if month ≤ 2 then 1 else 0), month, doy - (153 * mp + 2) / 5 + 1)

/-- `new Date(…).toISOString()`: the Amiga's days count from 1978-01-01, and a tick
is 20 milliseconds. -/
def amigaDateIso (days mins ticks : Nat) : Units :=
  let ms := days * 86400000 + mins * 60000 + ticks * 20
  let (y, m, d) := civil (722390 + ms / 86400000)
  let t := ms % 86400000
  padded 4 y ++ units "-" ++ padded 2 m ++ units "-" ++ padded 2 d ++ units "T" ++
    padded 2 (t / 3600000) ++ units ":" ++ padded 2 (t / 60000 % 60) ++ units ":" ++
    padded 2 (t / 1000 % 60) ++ units "." ++ padded 3 (t % 1000) ++ units "Z"

/-- A cursor over one line: what is left, or nothing once it is past the end. -/
abbrev Cursor := Option Units

def isDigitUnit (u : UInt16) : Bool := 0x30 ≤ u && u ≤ 0x39

/-- `/^\d{lo,hi}$/`. -/
def digits (lo hi : Nat) (s : Units) : Bool :=
  lo ≤ s.length && s.length ≤ hi && s.all isDigitUnit

/-- `Number` of digits. -/
def number (s : Units) : Nat := s.foldl (fun n u => 10 * n + (u.toNat - 0x30)) 0

def word : Cursor → Option Units × Cursor
  | none => (none, none)
  | some s =>
    let w := s.takeWhile (· != space)
    (some w, if w.length < s.length then some (s.drop (w.length + 1)) else none)

def lenStr : Cursor → Option Units × Cursor
  | none => (none, none)
  | some s =>
    match s.idxOf? colon with
    | none => (none, some s)
    | some c =>
      let n := s.take c
      if !digits 1 4 n then (none, some s)
      else
        let v := (s.drop (c + 1)).take (number n)
        if v.length < number n then (none, some s)
        else
          match s.drop (c + 1 + number n) with
          | [] => (some v, none)
          | u :: rest => if u = space then (some v, some rest) else (none, some s)

def atEnd : Cursor → Bool
  | none => true
  | some s => s.isEmpty

def num (w : Option Units) (max : Nat) : Option Nat :=
  w.bind fun w => if digits 1 10 w && decide (number w ≤ max) then some (number w) else none

def numMax : Nat := 0xffffffff

/-- `"<days>.<mins>.<ticks>"`. -/
def date (w : Option Units) : Option Units :=
  w.bind fun w =>
    match w.splitOn dot with
    | [d, m, t] =>
      if digits 1 6 d && digits 1 5 m && digits 1 5 t then
        some (amigaDateIso (number d) (number m) (number t))
      else none
    | _ => none

/-- `/^[0-9a-fA-F]{1,8}$/`, and its value. -/
def hexValue (u : UInt16) : Option Nat :=
  if 0x30 ≤ u ∧ u ≤ 0x39 then some (u.toNat - 0x30)
  else if 0x61 ≤ u ∧ u ≤ 0x66 then some (u.toNat - 0x61 + 10)
  else if 0x41 ≤ u ∧ u ≤ 0x46 then some (u.toNat - 0x41 + 10)
  else none

def protection (w : Option Units) : Option Nat :=
  w.bind fun w =>
    if w.length < 1 ∨ w.length > 8 then none
    else w.foldlM (fun x u => (hexValue u).map fun d => x * 16 + d) 0

def nameOk (n : Units) : Bool := amigaNameProblem n = none

/-- `DEVICE`. -/
def deviceOk (d : Units) : Bool :=
  2 ≤ d.length && d.length ≤ 31 && d.getLast? == some colon && d.dropLast.all deviceUnit

/-- `CODES`. -/
def codes : List Units :=
  ["off", "notfound", "notdir", "isdir", "busy", "toolarge", "denied", "bad", "io", "norx", "old",
    "timeout", "readonly", "exists", "wprot", "full", "xvol", "notempty"].map units

def parseVol (c : Cursor) : Option AnswerLine :=
  let (name, c) := lenStr c
  let (device, c) := lenStr c
  let (size, c) := word c
  let (free, c) := word c
  let (d, c) := word c
  match name, device, num size numMax, num free numMax, date d with
  | some name, some device, some size, some free, some d =>
    if nameOk name && deviceOk device && atEnd c then some (.vol ⟨name, device, size, free, d⟩) else none
  | _, _, _, _, _ => none

def parseEnt (c : Cursor) : Option AnswerLine :=
  let (kind, c) := word c
  let (size, c) := word c
  let (prot, c) := word c
  let (d, c) := word c
  let (name, c) := lenStr c
  let (comment, c) := lenStr c
  match kind, num size numMax, protection prot, date d, name, comment with
  | some kind, some size, some prot, some d, some name, some comment =>
    if (kind == units "d" || kind == units "f") && nameOk name && decide (comment.length ≤ 79) && atEnd c then
      some (.ent ⟨name, kind == units "d", size, prot, d, comment⟩)
    else none
  | _, _, _, _, _, _ => none

def parseDone (c : Cursor) : Option AnswerLine :=
  let (count, c) := word c
  let (rest, c) := word c
  match num count 1000000, rest with
  | some count, none => if atEnd c then some (.done count false) else none
  | some count, some rest =>
    if rest == units "cut" && atEnd c then some (.done count true) else none
  | none, _ => none

def parseErr (c : Cursor) : Option AnswerLine :=
  let (code, c) := word c
  let (text, c) := lenStr c
  match code, text with
  | some code, some text => if codes.contains code && atEnd c then some (.err code text) else none
  | _, _ => none

def parseDel (c : Cursor) : Option AnswerLine :=
  let (count, c) := word c
  (num count 1000000).bind fun count => if atEnd c then some (.del count) else none

def parseGot (c : Cursor) : Option AnswerLine :=
  let (tag, c) := word c
  tag.bind fun tag => if digits 1 9 tag && atEnd c then some (.got tag) else none

def parseAnswerLine (rid line : Units) : Option AnswerLine :=
  let (verb, c) := word (some line)
  let (id, c) := word c
  if id ≠ some rid then none
  else if verb = some (units "VOL") then parseVol c
  else if verb = some (units "ENT") then parseEnt c
  else if verb = some (units "DONE") then parseDone c
  else if verb = some (units "ERR") then parseErr c
  else if verb = some (units "DEL") then parseDel c
  else if verb = some (units "GOT") then parseGot c
  else none

example : amigaDateIso 0 0 0 = units "1978-01-01T00:00:00.000Z" := by decide

example : amigaDateIso 16861 1439 2999 = units "2024-03-01T23:59:59.980Z" := by decide

end WebAdf.Browse
