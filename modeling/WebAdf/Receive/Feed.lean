import WebAdf.Receive.Files

/-!
# The byte stream

Lines until a FILE says GO, then the file's bytes, then lines again.
-/

namespace WebAdf.Receive.Session

open Lib

variable {φ : Type}

-- ---------------------------------------------------------------------------
-- Lines
-- ---------------------------------------------------------------------------

def listItem (c : Bytes) : Option Item :=
  match tok c with
  | (none, _) => none
  | (some id, c) =>
    if !idOk id then none
    else
      let (size, c) := tok c
      match size.bind (num · 10), lenstr c (pathMax + 1) false with
      | some size, some (path, _) => if pathOk path then some ⟨id, size, path⟩ else none
      | _, _ => none

def addItem (s : Session φ) (c : Bytes) : Session φ :=
  match listItem c with
  | some it => if s.list.length < listMax then { s with list := s.list ++ [it] } else s
  | none => s

def onListItem (s : Session φ) (c : Bytes) : Session φ :=
  let s := s.addItem c
  let s := { s with listExpect := s.listExpect - 1 }
  if s.listExpect = 0 then s.emit { kind := .list } else s

/-- `"LIST <n>"`: as many items follow. -/
def onList (s : Session φ) (c : Bytes) : Session φ :=
  match (tok c).1.bind (num · 10) with
  | none => s
  | some k =>
    if k > 1000 then s
    else
      let s := { s with list := [], listExpect := k }
      if k = 0 then s.emit { kind := .list } else s

/-- The request a word asks for. -/
def reqWord (t : Bytes) : Option ReqKind :=
  if t = ascii "VOLS" then some .vols
  else if t = ascii "DIR" then some .dir
  else if t = ascii "GET" then some .get
  else if t = ascii "MKDIR" then some .mkdir
  else if t = ascii "RENAME" then some .rename
  else if t = ascii "DELETE" then some .delete
  else if t = ascii "PROTECT" then some .protect
  else if t = ascii "NOTE" then some .note
  else none

/-- A line by its first word; any other is ignored. -/
def onWord (fs : Fs φ) (s : Session φ) (t c : Bytes) : Session φ :=
  if t = ascii "WEBADF" then s.onHello c
  else if t = ascii "PING" then s.put (ascii "PONG\n")
  else if t = ascii "LIST" then s.onList c
  else if t = ascii "FILE" then
    if s.up.phase = .skip ∨ s.up.phase = .data then
      s.protocolError fs "the board sent a file mid-upload"
    else s.onFile fs c
  else if t = ascii "TAKE" then s.onTake fs c
  else if t = ascii "MORE" then s.onMore fs c
  else if t = ascii "DONE" then s.onDone fs c
  else if t = ascii "NO" then s.onNo fs c
  else match reqWord t with
    | some kind => s.onRequest c kind
    | none => s

def onLine (fs : Fs φ) (s : Session φ) (line : Bytes) : Session φ :=
  if s.listExpect ≠ 0 then s.onListItem line
  else match tok line with
    | (none, _) => s
    | (some t, c) => s.onWord fs t c

def newline : UInt8 := 0x0a
def carriageReturn : UInt8 := 0x0d

/-- A line without its return. -/
def chomp (line : Bytes) : Bytes :=
  if line.getLast? = some carriageReturn then line.dropLast else line

/-- A newline: the line is acted on. -/
def endLine (fs : Fs φ) (s : Session φ) : Session φ :=
  { s with line := [] }.onLine fs (chomp s.line)

-- ---------------------------------------------------------------------------
-- The end of a file's bytes
-- ---------------------------------------------------------------------------

theorem failFileErr_inData (fs : Fs φ) (s : Session φ) (e : Nat) (dflt : String) :
    (s.failFileErr fs e dflt).inData = false := rfl

theorem failWrite_inData (fs : Fs φ) (s : Session φ) (e : Nat) : (s.failWrite fs e).inData = false := by
  unfold failWrite
  split <;> rfl

theorem replaceFile_inData (fs : Fs φ) (s : Session φ) : (s.replaceFile fs).inData = false := by
  unfold replaceFile
  split
  · rfl
  · split
    · rfl
    · dsimp only
      split <;> rfl

theorem keepFile_inData (fs : Fs φ) (s : Session φ) : (s.keepFile fs).inData = false := by
  unfold keepFile
  split
  · rfl
  · split
    · rfl
    · split <;> rfl

theorem finishFile_inData (fs : Fs φ) (s : Session φ) : (s.finishFile fs).inData = false := by
  unfold finishFile
  split
  · rfl
  · split
    · rfl
    · dsimp only
      split
      · exact failWrite_inData ..
      · split
        · rfl
        · split
          · exact replaceFile_inData ..
          · exact keepFile_inData ..

theorem switchChanged_left (fs : Fs φ) (s : Session φ) : (s.switchChanged fs).cur.left = s.cur.left := by
  unfold switchChanged dropTmp
  dsimp only
  split
  · rfl
  · split <;> rfl

theorem writeData_left (fs : Fs φ) (s : Session φ) (data : Bytes) :
    (s.writeData fs data).cur.left = s.cur.left := by
  unfold writeData
  split
  · rfl
  · split
    · rename_i heq
      exact congrArg (·.2.cur.left) heq.symm
    · rename_i heq
      exact congrArg (·.2.cur.left) heq.symm

theorem markData_left (s : Session φ) : s.markData.cur.left = s.cur.left := by
  unfold markData
  dsimp only
  split <;> rfl

theorem eat_inData (fs : Fs φ) (s : Session φ) (h : s.cur.left ≤ data.length) :
    (s.eat fs data).inData = false := by
  unfold eat
  dsimp only
  rw [if_pos]
  · exact finishFile_inData ..
  · rw [markData_left]
    show (((s.switchChanged fs).writeData fs data).cur.left - data.length) = 0
    rw [writeData_left, switchChanged_left]
    omega

-- ---------------------------------------------------------------------------
-- The stream
-- ---------------------------------------------------------------------------

theorem passLen_le (s : Session φ) (n : Nat) : s.passLen n ≤ n := by
  unfold passLen
  omega

theorem passLen_pos (s : Session φ) (hn : 0 < n) (hleft : 0 < s.cur.left) : 0 < s.passLen n := by
  have hmod : (s.cur.size - s.cur.left) % progressStep < progressStep :=
    Nat.mod_lt _ (by decide)
  unfold passLen
  omega

/-- `rx_feed`: `false` closes the connection. -/
def feed (fs : Fs φ) (s : Session φ) (data : Bytes) : Bool × Session φ :=
  match data with
  | [] => (true, s)
  | c :: rest =>
    if s.inData then
      let k := s.passLen (rest.length + 1)
      feed fs (s.eat fs ((c :: rest).take k)) ((c :: rest).drop k)
    else if c = newline then
      let s := s.endLine fs
      if s.protoErr then (false, s) else feed fs s rest
    else if s.line.length ≥ lineMax then (false, s)
    else feed fs { s with line := s.line ++ [c] } rest
termination_by (data.length, if s.inData then 1 else 0)
decreasing_by
  · by_cases hleft : 0 < s.cur.left
    · have hpos := s.passLen_pos (n := rest.length + 1) (Nat.succ_pos _) hleft
      simp only [List.length_drop, List.length_cons]
      exact Prod.Lex.left _ _ (by omega)
    · have hzero : s.passLen (rest.length + 1) = 0 := by
        unfold passLen
        omega
      have hend : (s.eat fs []).inData = false := s.eat_inData fs (Nat.le_of_not_lt hleft)
      simp_all
      exact Prod.Lex.right _ Nat.zero_lt_one
  · exact Prod.Lex.left _ _ (Nat.lt_succ_self _)
  · exact Prod.Lex.left _ _ (Nat.lt_succ_self _)

-- ---------------------------------------------------------------------------
-- Output and the link
-- ---------------------------------------------------------------------------

/-- `rx_take_output`: `none` closes the connection. -/
def takeOutput (fs : Fs φ) (s : Session φ) (cap : Nat) : Option Bytes × Session φ :=
  if s.up.closing then (none, s)
  else if s.up.phase = .skip ∨ s.up.phase = .data then s.upBytes fs cap
  else
    let s := s.reqPump fs
    let s := if s.out = [] then s.upPut fs else s
    let (b, s) := s.takeLines cap
    (some b, s)

/-- A half-written file is dropped. -/
def lostFile (fs : Fs φ) (s : Session φ) : Session φ :=
  if !s.inData then s
  else
    let s :=
      if s.cur.isOpen then
        { s with disk := (fs.closeW s.disk).2, cur := { s.cur with isOpen := false } }
      else s
    let s :=
      if !s.cur.off && !s.cur.dup then { s with disk := (fs.remove s.cur.tmp s.disk).2 } else s
    { s with inData := false, cur := { s.cur with off := false, dup := false } }.emitFile .failed 0
      (some (ascii "connection lost"))

def lostUp (fs : Fs φ) (s : Session φ) : Session φ :=
  if s.up.phase = .idle then s
  else s.upFailed fs (ascii (if s.up.cancel then "cancelled" else "connection lost")) (ascii "local")

/-- A delete mid-way has its drawer back under its name, or says where it is. -/
def lostReq (fs : Fs φ) (s : Session φ) : Session φ :=
  if s.req.kind = .none then s
  else
    let (where_, s) := if s.req.kind = .delete then s.delUnhide fs else (none, s)
    let text := match where_ with
      | some place => catTo 80 place (ascii ": connection lost")
      | none => ascii "connection lost"
    (s.emitReq s.req.kind s.req.id s.req.path s.req.count false (some text)).reqEnd fs

/-- A GET's files not yet gone up leave the queue, the last first. -/
def lostGets (s : Session φ) : Session φ :=
  match s.upq with
  | none => s
  | some q => (q.q.reverse.filter (·.rid ≠ [])).foldl (fun s it =>
      (s.upqRemove it.tag).emitUp .upFailed it none 0 0 (some (ascii "connection lost"))
        (some (ascii "local"))) s

/-- `rx_disconnected`. -/
def disconnected (fs : Fs φ) (s : Session φ) : Session φ :=
  let s := ((s.lostFile fs).lostUp fs).lostReq fs
  let s := { s with req := { s.req with waitKind := .none }, helloBrowse := false }.lostGets
  { s with
    up := { s.up with closing := false }
    protoErr := false, peerV := 0, trust := .none, line := [], listExpect := 0, out := [] }

end WebAdf.Receive.Session
