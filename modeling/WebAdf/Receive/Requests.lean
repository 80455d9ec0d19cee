import WebAdf.Receive.Uploads

/-!
# The web app's requests

VOLS, DIR and GET, and the writes. One request waits and one is answered; an
answer goes out a line at a time while there is room for one. A drawer is
deleted an entry at a time, hidden under another name first.
-/

namespace WebAdf.Receive

open Lib

def ReqKind.word : ReqKind → String
  | .none => ""
  | .vols => "vols"
  | .dir => "dir"
  | .get => "get"
  | .mkdir => "mkdir"
  | .rename => "rename"
  | .delete => "delete"
  | .protect => "protect"
  | .note => "note"

def ReqKind.isWrite : ReqKind → Bool
  | .mkdir | .rename | .delete | .protect | .note => true
  | _ => false

def errCode (err : Nat) (wantDir : Bool) : String :=
  if err = dosNotFound ∨ err = dosDirNotFound then "notfound"
  else if err = dosInUse then "busy"
  else if err = dosReadProtected ∨ err = 222 ∨ err = 223 then "denied"
  else if err = dosWrongType then if wantDir then "notdir" else "isdir"
  else if err = dosExists then "exists"
  else if err = 214 then "wprot"
  else if err = 215 then "xvol"
  else if err = 221 then "full"
  else "io"

/-- AmigaDOS's case rule for names. -/
def fold (c : UInt8) : UInt8 :=
  if (0x61 ≤ c ∧ c ≤ 0x7a) ∨ (0xe0 ≤ c ∧ c ≤ 0xfe ∧ c ≠ 0xf7) then c - 32 else c

def nameEq (a b : Bytes) : Bool := a.map fold == b.map fold

def asciiUp (c : UInt8) : UInt8 := if 0x61 ≤ c ∧ c ≤ 0x7a then c - 32 else c

def asciiEq (a b : Bytes) : Bool := a.map asciiUp == b.map asciiUp

/-- The volume `path` names, by its name or its device's. -/
def volFind (vols : List Vol) (path : Bytes) : Option Vol :=
  let n := path.takeWhile (· != colon)
  vols.find? fun v =>
    nameSendable v.name && deviceSendable v.device &&
      (asciiEq v.name n || asciiEq v.device (n ++ [colon]))

/-- `cat`: what fits in `cap` with its NUL. -/
def catTo (cap : Nat) (s t : Bytes) : Bytes := s ++ t.take (cap - 1 - s.length)

/-- The drawer a path is in, and its name there. -/
def splitPath (path : Bytes) : Bytes × Bytes :=
  match lastIdx slash path with
  | some i => (path.take i, path.drop (i + 1))
  | none => (path.takeWhile (· != colon) ++ [colon], (path.dropWhile (· != colon)).drop 1)

namespace Session

variable {φ : Type}

/-- `fs->vols`, into the list every answer shares. -/
def readVols (fs : Fs φ) (s : Session φ) : Option (List Vol) × Session φ :=
  match fs.vols s.disk with
  | (none, d) => (none, { s with disk := d })
  | (some vs, d) =>
    (some (vs.take volsMax),
      { s with disk := d, vols := vs.take volsMax ++ s.vols.drop (vs.take volsMax).length })

-- ---------------------------------------------------------------------------
-- Ends of an answer
-- ---------------------------------------------------------------------------

def emitReq (s : Session φ) (kind : ReqKind) (id path : Bytes) (count : Nat) (cut : Bool)
    (why : Option Bytes) : Session φ :=
  s.emit {
    kind := .req, id := some id, path := some path, size := count, bytes := if cut then 1 else 0
    text := why, code := some (ascii kind.word)
    target := if kind = .rename ∧ kind = s.req.kind then some s.req.arg else none }

def reqEnd (fs : Fs φ) (s : Session φ) : Session φ :=
  let s :=
    if s.req.isOpen then
      { s with disk := fs.dirClose s.disk, req := { s.req with isOpen := false } }
    else s
  let path := if s.req.kind = .delete then s.req.path.take s.req.delTop else s.req.path
  { s with req := { s.req with path := path, kind := .none, delDrawer := false } }

/-- The request being answered fails. -/
def reqFailText (fs : Fs φ) (s : Session φ) (code : String) (text : Bytes) : Session φ :=
  ((s.reqErr s.req.id code text).emitReq s.req.kind s.req.id s.req.path s.req.count false
    (some text)).reqEnd fs

def reqDone (fs : Fs φ) (s : Session φ) (cut : Bool) : Session φ :=
  let s := s.puts ([ascii "DONE ", s.req.id, ascii " ", decimal s.req.count] ++
    (if cut then [ascii " cut"] else []) ++ [ascii "\n"])
  (s.emitReq s.req.kind s.req.id s.req.path s.req.count cut none).reqEnd fs

/-- A DOS error ends the request, in AmigaDOS's own words. -/
def reqFail (fs : Fs φ) (s : Session φ) (err : Nat) (wantDir : Bool) : Session φ :=
  let (t, d) := fs.fault err s.disk
  let t := t.take 79
  { s with disk := d }.reqFailText fs (errCode err wantDir) (if t = [] then ascii "error" else t)

-- ---------------------------------------------------------------------------
-- GET
-- ---------------------------------------------------------------------------

def getStart (fs : Fs φ) (s : Session φ) : Session φ :=
  match fs.stat s.req.path s.disk with
  | (e, info, isDir, d) =>
    let s := { s with disk := d }
    if e ≠ 0 then s.reqFail fs e false
    else if isDir then s.reqFail fs dosWrongType false
    else if info.prot / 8 % 2 = 1 then s.reqFail fs dosReadProtected false
    else if info.size > fileMax then
      s.reqFailText fs "toolarge" (ascii "file too large (4 MB at most)")
    else
      let name := baseName s.req.path
      match s.upAddFront fs s.req.path name s.req.id with
      | (0, s) =>
        if s.upq.any (upMax ≤ ·.q.length) then s.reqFailText fs "busy" (ascii "too many files waiting")
        else if !pathOk name then s.reqFailText fs "io" (ascii "cannot send that name")
        else s.reqFailText fs "busy" (ascii "not enough memory on the Amiga")
      | (tag, s) =>
        let s := s.puts [ascii "GOT ", s.req.id, ascii " ", decimal tag, ascii "\n"]
        (s.emitReq .get s.req.id s.req.path 0 false none).reqEnd fs

-- ---------------------------------------------------------------------------
-- Deleting a drawer
-- ---------------------------------------------------------------------------

def putDel (s : Session φ) : Session φ :=
  s.puts [ascii "DEL ", s.req.id, ascii " ", decimal s.req.count, ascii "\n"]

/-- `.webadf-del-` and eight hexadecimal digits. -/
def hiddenName (v : Nat) : Bytes :=
  let digits := hex (v % 2 ^ 32)
  ascii ".webadf-del-" ++ List.replicate (8 - digits.length) 0x30 ++ digits

/-- The drawer takes the first hidden name that is free, of `k` from `i` on. A
refusal of any other kind leaves it as it is. -/
def hideFrom (fs : Fs φ) (h cut : Nat) : Nat → Nat → Session φ → Session φ
  | 0, _, s => { s with req := { s.req with path := s.req.arg } }
  | k + 1, i, s =>
    let hidden := s.req.arg.take cut ++ hiddenName (h + i)
    match fs.wRename s.req.arg hidden s.disk with
    | (r, d) =>
      let s := { s with disk := d }
      if r = 0 then { s with req := { s.req with path := hidden, delHidden := true } }
      else if r ≠ dosExists then { s with req := { s.req with path := s.req.arg } }
      else hideFrom fs h cut k (i + 1) s

/-- The drawer at `path` is renamed within its parent before it is emptied.
`spelled` is its name as the disk has it. -/
def delHide (fs : Fs φ) (s : Session φ) (spelled : Bytes) : Session φ :=
  let p := s.req.path
  let cut := p.length - (splitPath p).2.length
  if cut + 12 + 8 > localMax then s
  else
    let arg := if spelled.length = p.length - cut then p.take cut ++ spelled else p
    { s with req := { s.req with arg := arg } }.hideFrom fs (crc32Update 0 s.req.id).toNat cut 8 0

/-- The walk ends: `path` is the named path again and a hidden drawer has its
name back, or the answer says where the rest is. -/
def delUnhide (fs : Fs φ) (s : Session φ) : Option Bytes × Session φ :=
  let hidden := s.req.path.take s.req.delTop
  if !s.req.delHidden then (none, { s with req := { s.req with path := hidden } })
  else
    match fs.wRename hidden s.req.arg s.disk with
    | (r, d) =>
      (if r ≠ 0 then some (catTo 80 (ascii "the rest is in ") (splitPath hidden).2) else none,
        { s with
          disk := d
          req := { s.req with path := s.req.arg, delTop := s.req.arg.length, delHidden := false } })

def delStopText (fs : Fs φ) (s : Session φ) (code : String) (why : Bytes) : Session φ :=
  let below := s.req.path.drop (s.req.delTop + 1)
  let text :=
    if s.req.path.length > s.req.delTop then catTo 80 (catTo 80 (catTo 80 [] below) (ascii ": ")) why
    else catTo 80 [] why
  let s := if s.req.delDrawer then s.putDel else s
  match s.delUnhide fs with
  | (some place, s) => s.reqFailText fs code (catTo 80 (catTo 80 place (ascii ": ")) text)
  | (none, s) => s.reqFailText fs code text

def delStop (fs : Fs φ) (s : Session φ) (err : Nat) : Session φ :=
  let (f, d) := fs.fault err s.disk
  let f := f.take 79
  { s with disk := d }.delStopText fs (errCode err true) (if f = [] then ascii "error" else f)

/-- `DEL` every fifty entries. -/
def delCounted (s : Session φ) : Session φ := if s.req.count % delEvery = 0 then s.putDel else s

/-- The drawer at `path` is empty. -/
def delEmpty (fs : Fs φ) (s : Session φ) : Session φ :=
  match fs.wDelete s.req.path s.disk with
  | (r, d) =>
    let s := { s with disk := d }
    if r ≠ 0 then s.delStop fs r
    else
      let s := { s with req := { s.req with count := s.req.count + 1 } }
      if s.req.path.length = s.req.delTop then
        let s :=
          if s.req.delHidden then
            { s with req := { s.req with
              path := s.req.arg, delTop := s.req.arg.length, delHidden := false } }
          else s
        s.reqDone fs false
      else
        { s with req := { s.req with path := s.req.path.take ((lastIdx slash s.req.path).getD 0) } }.delCounted

/-- The first entry of the drawer at `path`. -/
def delFirst (fs : Fs φ) (s : Session φ) : Except Nat (Option Dent) × Session φ :=
  match fs.dirOpen s.req.path s.disk with
  | (0, d) =>
    match fs.dirNext d with
    | (.failed e, d) => (.error e, { s with disk := fs.dirClose d })
    | (.finished, d) => (.ok none, { s with disk := fs.dirClose d })
    | (.entry e, d) => (.ok (some e), { s with disk := fs.dirClose d })
  | (r, d) => (.error r, { s with disk := d })

theorem delFirst_req (fs : Fs φ) (s : Session φ) : (s.delFirst fs).2.req = s.req := by
  unfold delFirst
  split
  · split <;> rfl
  · rfl

/-- An entry's name goes onto the path. -/
def enter (s : Session φ) (name : Bytes) : Session φ :=
  { s with req := { s.req with path := s.req.path ++ slash :: name } }

/-- The entry at `path` is deleted, and the path is that of its drawer again. -/
def delEntry (fs : Fs φ) (s : Session φ) (drawer : Bytes) : Session φ :=
  match fs.wDelete s.req.path s.disk with
  | (r, d) =>
    let s := { s with disk := d }
    if r ≠ 0 then s.delStop fs r
    else { s with req := { s.req with path := drawer, count := s.req.count + 1 } }.delCounted

/-- Down to the first object that is not a drawer with something in it; that one
is deleted. -/
def delWalk (fs : Fs φ) (s : Session φ) : Session φ :=
  match _h : s.delFirst fs with
  | (.error r, s) => s.delStop fs r
  | (.ok none, s) => s.delEmpty fs
  | (.ok (some e), s) =>
    if e.name = [] ∨ slash ∈ e.name ∨ colon ∈ e.name then s.delStopText fs "io" (ascii "bad name")
    else if s.req.path.length + 1 + e.name.length > localMax then
      s.delStopText fs "io" (ascii "path too long")
    else if e.isDir && !e.isLink then delWalk fs (s.enter e.name)
    else (s.enter e.name).delEntry fs s.req.path
termination_by localMax - s.req.path.length
decreasing_by
  have hreq := congrArg (·.2.req) _h
  simp only [delFirst_req] at hreq
  simp only [enter, List.length_append, List.length_cons, hreq]
  omega

/-- One step of a drawer delete: one object removed. -/
def delStep (fs : Fs φ) (s : Session φ) : Session φ :=
  if !s.writeOn then s.delStopText fs "readonly" (ascii "writing is off in Transfer")
  else s.delWalk fs

-- ---------------------------------------------------------------------------
-- Starting
-- ---------------------------------------------------------------------------

/-- A listing up to the first entry of that name. -/
def findEntry (fs : Fs φ) (name : Bytes) (d : φ) : Except Nat Dent × φ :=
  match _h : fs.dirNext d with
  | (.failed e, d) => (.error e, d)
  | (.finished, d) => (.error dosNotFound, d)
  | (.entry e, d') => if nameEq e.name name then (.ok e, d') else findEntry fs name d'
termination_by fs.dirLeft d
decreasing_by exact fs.dirNext_left _h

/-- What `path` names, without following it: its entry in its drawer's listing. -/
def entryKind (fs : Fs φ) (s : Session φ) (path : Bytes) : Except Nat Dent × Session φ :=
  let (parent, name) := splitPath path
  match fs.dirOpen parent s.disk with
  | (0, d) =>
    let (r, d) := findEntry fs name d
    (r, { s with disk := fs.dirClose d })
  | (r, d) => (.error (if r = dosWrongType then dosNotFound else r), { s with disk := d })

/-- A write is done, or a DOS error ends it. -/
def writeEnd (fs : Fs φ) (s : Session φ) (e : Nat) : Session φ :=
  if e ≠ 0 then { s with req := { s.req with count := 0 } }.reqFail fs e true else s.reqDone fs false

/-- A hook of a write request's. -/
def writeHook (fs : Fs φ) (s : Session φ) (hook : φ → Nat × φ) : Session φ :=
  let (e, d) := hook s.disk
  { s with disk := d }.writeEnd fs e

def startMkdir (fs : Fs φ) (s : Session φ) : Session φ :=
  let (e, d) := fs.wMkdir s.req.path s.disk
  let d := if e = 0 ∧ s.req.num ≠ 0 then (fs.wIcon s.req.path d).2 else d
  { s with disk := d }.writeEnd fs e

def startRename (fs : Fs φ) (s : Session φ) (vols : List Vol) (v : Vol) : Session φ :=
  match volFind vols s.req.arg with
  | none => s.reqFail fs dosNotFound true
  | some w =>
    if !asciiEq v.device w.device then
      s.reqFailText fs "xvol" (ascii "rename works within one volume")
    else s.writeHook fs (fs.wRename s.req.path s.req.arg)

/-- "one": AmigaDOS itself refuses a drawer that is not empty. -/
def deleteOne (fs : Fs φ) (s : Session φ) : Session φ :=
  let (e, d) := fs.wDelete s.req.path s.disk
  let s := { s with disk := d }
  if e = dosNotEmpty then
    let (f, d) := fs.fault e s.disk
    let f := f.take 79
    { s with disk := d, req := { s.req with count := 0 } }.reqFailText fs "notempty"
      (if f = [] then ascii "drawer is not empty" else f)
  else s.writeEnd fs e

/-- A drawer's delete begins: from protocol 5 on it is hidden first. -/
def startWalk (fs : Fs φ) (s : Session φ) (spelled : Bytes) : Session φ :=
  let s := { s with req := { s.req with count := 0 } }
  let s := if 5 ≤ s.peerV then s.delHide fs spelled else s
  { s with req := { s.req with delTop := s.req.path.length, delDrawer := true } }

/-- A file, or a link, at once; a drawer step by step. -/
def startDelete (fs : Fs φ) (s : Session φ) : Session φ :=
  if s.req.num ≠ 0 then s.deleteOne fs
  else
    match s.entryKind fs s.req.path with
    | (.error e, s) => s.writeEnd fs e
    | (.ok entry, s) =>
      if !entry.isDir || entry.isLink then s.writeHook fs (fs.wDelete s.req.path)
      else s.startWalk fs entry.name

def writeStart (fs : Fs φ) (s : Session φ) : Session φ :=
  if !s.writeOn then s.reqFailText fs "readonly" (ascii "writing is off in Transfer")
  else
    match s.readVols fs with
    | (none, s) => s.reqFailText fs "io" (ascii "cannot read the volume list")
    | (some vols, s) =>
      match volFind vols s.req.path with
      | none => s.reqFail fs dosNotFound true
      | some v =>
        let s := { s with req := { s.req with count := 1 } }
        match s.req.kind with
        | .mkdir => s.startMkdir fs
        | .rename => s.startRename fs vols v
        | .protect => s.writeHook fs (fs.wProtect s.req.path s.req.num)
        | .note => s.writeHook fs (fs.wNote s.req.path s.req.arg)
        | _ => s.startDelete fs

/-- DIR and GET: of a mounted volume only. -/
def readStart (fs : Fs φ) (s : Session φ) : Session φ :=
  match s.readVols fs with
  | (none, s) => s.reqFailText fs "io" (ascii "cannot read the volume list")
  | (some vols, s) =>
    match volFind vols s.req.path with
    | none => s.reqFail fs dosNotFound (s.req.kind = .dir)
    | some _ =>
      if s.req.kind = .dir then
        let (e, d) := fs.dirOpen s.req.path s.disk
        let s := { s with disk := d }
        if e ≠ 0 then s.reqFail fs e true else { s with req := { s.req with isOpen := true } }
      else s.getStart fs

/-- The waiting request becomes the one answered. -/
def Req.take (r : Req) : Req :=
  { r with
    kind := r.waitKind, id := r.waitId, path := r.waitPath, arg := r.waitArg, num := r.waitNum
    waitKind := .none
    i := 0, count := 0, isOpen := false, delDrawer := false, delHidden := false
    delTop := r.waitPath.length }

def reqStart (fs : Fs φ) (s : Session φ) : Session φ :=
  let s := { s with req := Req.take s.req }
  if s.req.kind.isWrite then s.writeStart fs
  else if !s.browseOn then s.reqFailText fs "off" (ascii "browsing is off in Transfer")
  else if s.req.kind = .vols then
    match s.readVols fs with
    | (none, s) => s.reqFailText fs "io" (ascii "cannot read the volume list")
    | (some vols, s) => { s with req := { s.req with nvols := vols.length } }
  else s.readStart fs

-- ---------------------------------------------------------------------------
-- Answering
-- ---------------------------------------------------------------------------

def hasRoom (s : Session φ) : Bool := outMax - s.out.length ≥ reqRoom

/-- A date the server would refuse goes out as zeros. -/
def datePieces (d m t : Nat) : List Bytes :=
  let (d, m, t) := if d > 999999 ∨ m > 99999 ∨ t > 99999 then (0, 0, 0) else (d, m, t)
  [decimal d, ascii ".", decimal m, ascii ".", decimal t]

def volLine (s : Session φ) (v : Vol) : Session φ :=
  s.puts ([ascii "VOL ", s.req.id, ascii " "] ++ lenPieces v.name ++ [ascii " "] ++ lenPieces v.device ++
    [ascii " ", decimal v.size, ascii " ", decimal v.free, ascii " "] ++
    datePieces v.days v.mins v.ticks ++ [ascii "\n"])

def entLine (s : Session φ) (e : Dent) : Session φ :=
  s.puts ([ascii "ENT ", s.req.id, ascii (if e.isDir then " d " else " f "),
    decimal (if e.isDir then 0 else e.size), ascii " ", hex e.prot, ascii " "] ++
    datePieces e.days e.mins e.ticks ++ [ascii " "] ++ lenPieces e.name ++ [ascii " "] ++
    lenPieces (clean e.comment (commentMax + 1)) ++ [ascii "\n"])

theorem entLine_disk (s : Session φ) (e : Dent) : (s.entLine e).disk = s.disk := puts_disk _ _

/-- The volumes from `req.i` on, while there is room. -/
def pumpVols (fs : Fs φ) : Nat → Session φ → Session φ
  | 0, s => s
  | k + 1, s =>
    if s.req.kind ≠ .vols ∨ !s.hasRoom then s
    else if s.req.i ≥ s.req.nvols then s.reqDone fs false
    else
      let v := s.vols.getD s.req.i {}
      let s := { s with req := { s.req with i := s.req.i + 1 } }
      pumpVols fs k
        (if !nameSendable v.name || !deviceSendable v.device then s
        else
          let s := s.volLine v
          { s with req := { s.req with count := s.req.count + 1 } })

/-- The drawer's entries, while there is room. -/
def pumpDir (fs : Fs φ) (s : Session φ) : Session φ :=
  if s.req.kind ≠ .dir ∨ !s.hasRoom then s
  else
    match _h : fs.dirNext s.disk with
    | (.failed e, d) => { s with disk := d }.reqFail fs e true
    | (.finished, d) => { s with disk := d }.reqDone fs false
    | (.entry e, d) =>
      let s' := { s with disk := d }
      if !nameSendable e.name then pumpDir fs s'
      else if s.req.count = entMax then s'.reqDone fs true
      else
        let s' := s'.entLine e
        pumpDir fs { s' with req := { s'.req with count := s.req.count + 1 } }
termination_by fs.dirLeft s.disk
decreasing_by
  · exact fs.dirNext_left _h
  · rw [entLine_disk]
    exact fs.dirNext_left _h

/-- At most four entries of a drawer being deleted. -/
def pumpDel (fs : Fs φ) : Nat → Session φ → Session φ
  | 0, s => s
  | k + 1, s =>
    if s.req.kind = .delete ∧ s.req.delDrawer ∧ s.hasRoom then pumpDel fs k (s.delStep fs) else s

def reqPump (fs : Fs φ) (s : Session φ) : Session φ :=
  let s :=
    if s.req.kind = .none ∧ s.req.waitKind ≠ .none ∧ s.reqIdle then s.reqStart fs else s
  let s := s.pumpVols fs (s.req.nvols + 1 - s.req.i)
  (s.pumpDir fs).pumpDel fs delPass

def reqDue (s : Session φ) : Bool :=
  if s.req.kind ≠ .none then s.hasRoom else s.req.waitKind != .none && s.reqIdle

-- ---------------------------------------------------------------------------
-- Requests that arrive
-- ---------------------------------------------------------------------------

def refuseReq (s : Session φ) (kind : ReqKind) (id path : Bytes) (code text : String) : Session φ :=
  (s.reqErr id code (ascii text)).emitReq kind (orDash id) path 0 false (some (ascii text))

/-- An optional word at the end of a line: it sets the number, and nothing else may
follow. -/
def optWord (c : Bytes) (word : String) : Option (Nat × Bytes) :=
  if c = [] then some (0, [])
  else
    let (t, c) := tok c
    if t = some (ascii word) then some (1, c) else none

/-- What follows a write's path: its argument and its number. -/
def writeArgs (s : Session φ) (c : Bytes) (kind : ReqKind) (path : Bytes) :
    Option (Bytes × Nat × Bytes) :=
  if !absPathOk path then none
  else match kind with
    | .rename =>
      match lenstr c (localMax + 1) false with
      | some (arg, c) => if absPathOk arg then some (arg, 0, c) else none
      | none => none
    | .protect =>
      let (t, c) := tok c
      (t.bind (num · 16)).map fun bits => ([], bits, c)
    | .note =>
      match lenstr c (commentMax + 1) false with
      | some (arg, c) => if noControl arg then some (arg, 0, c) else none
      | none => none
    | .delete =>
      if 5 ≤ s.peerV then (optWord c "one").map fun (n, c) => ([], n, c) else some ([], 0, c)
    | .mkdir =>
      if 6 ≤ s.peerV then (optWord c "icon").map fun (n, c) => ([], n, c) else some ([], 0, c)
    | _ => some ([], 0, c)

/-- A request line's path, argument and number, where the line is well formed. -/
def reqFields (s : Session φ) (c : Bytes) (kind : ReqKind) : Option (Bytes × Bytes × Nat) :=
  if kind = .vols then if c = [] then some ([], [], 0) else none
  else
    match lenstr c (localMax + 1) false with
    | none => none
    | some (path, c) =>
      if !localPathOk path then none
      else if kind.isWrite then
        match s.writeArgs c kind path with
        | some (arg, n, []) => some (path, arg, n)
        | _ => none
      else if c = [] then some (path, [], 0) else none

/-- The path a request line names, whatever follows it. -/
def reqPathOf (c : Bytes) (kind : ReqKind) : Bytes :=
  if kind = .vols then [] else ((lenBytes c (localMax + 1) false).map (·.1)).getD []

/-- Refused at once, or kept to be answered when nothing moves. -/
def onRequest (s : Session φ) (c : Bytes) (kind : ReqKind) : Session φ :=
  match tok c with
  | (none, _) => s.reqErr [] "bad" (ascii "bad request")
  | (some id, c) =>
    if !idOk id then s.reqErr [] "bad" (ascii "bad request")
    else match s.reqFields c kind with
      | none => s.refuseReq kind id (reqPathOf c kind) "bad" "bad request"
      | some (path, arg, n) =>
        if kind.isWrite && !s.writeOn then
          s.refuseReq kind id path "readonly" "writing is off in Transfer"
        else if !s.browseOn then s.refuseReq kind id path "off" "browsing is off in Transfer"
        else if s.req.waitKind ≠ .none then
          s.refuseReq kind id path "busy" "another request is waiting"
        else
          { s with req := { s.req with
            waitKind := kind, waitId := id, waitPath := path, waitArg := arg, waitNum := n } }

/-- `rx_hello_stale`. -/
def helloStale (s : Session φ) : Bool :=
  3 ≤ s.peerV && (s.helloBrowse != s.browseOn || (4 ≤ s.peerV && s.helloWrite != s.writeOn)) &&
    s.reqIdle && s.req.kind == .none && s.req.waitKind == .none && s.out.length == 0

end Session

end WebAdf.Receive
