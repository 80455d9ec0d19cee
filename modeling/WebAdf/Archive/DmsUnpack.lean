import WebAdf.Lib.Endian
import WebAdf.Lib.Slice
import Mathlib.Data.Int.Notation

/-!
# DMS's unpackers

The bit reader, the code tables and the six unpackers of a DiskMasher track,
with the state they carry from one track to the next. A read past an array is
`undefined` in the source, which every use of it takes for zero but one, and a
write past one is dropped. A loop that waits for the output to fill has the
output's size for its fuel.
-/

namespace WebAdf.Archive

open Lib

abbrev Bytes := List UInt8

def textLen : Nat := 32000
def trackBufferLen : Nat := 32000

-- ---------------------------------------------------------------------------
-- Position tables
-- ---------------------------------------------------------------------------

/-- Runs of repeated values. -/
def expandRuns (pairs : List (Nat × Nat)) : List Nat := pairs.flatMap fun (v, n) => List.replicate n v

def dCode : List Nat := expandRuns [
  (0, 32), (1, 16), (2, 16), (3, 16), (4, 8), (5, 8), (6, 8), (7, 8), (8, 8), (9, 8), (10, 8),
  (11, 8), (12, 4), (13, 4), (14, 4), (15, 4), (16, 4), (17, 4), (18, 4), (19, 4), (20, 4),
  (21, 4), (22, 4), (23, 4), (24, 2), (25, 2), (26, 2), (27, 2), (28, 2), (29, 2), (30, 2),
  (31, 2), (32, 2), (33, 2), (34, 2), (35, 2), (36, 2), (37, 2), (38, 2), (39, 2), (40, 2),
  (41, 2), (42, 2), (43, 2), (44, 2), (45, 2), (46, 2), (47, 2), (48, 1), (49, 1), (50, 1),
  (51, 1), (52, 1), (53, 1), (54, 1), (55, 1), (56, 1), (57, 1), (58, 1), (59, 1), (60, 1),
  (61, 1), (62, 1), (63, 1)]

def dLen : List Nat := expandRuns [(3, 32), (4, 48), (5, 64), (6, 48), (7, 48), (8, 16)]

theorem length_positionTables : dCode.length = 256 ∧ dLen.length = 256 := by
  decide +kernel

-- ---------------------------------------------------------------------------
-- Bit reader
-- ---------------------------------------------------------------------------

/-- `MASK[n]`; outside the table a mask of nothing. -/
def mask (n : Int) : Nat := if 0 ≤ n ∧ n ≤ 24 then 2 ^ n.toNat - 1 else 0

structure Bits where
  buf : Nat
  count : Int
  pos : Nat

/-- The refill of `drop`, at most `fuel` bytes of it. -/
def Bits.refill (data : Bytes) : Nat → Bits → Bits
  | 0, b => b
  | fuel + 1, b =>
    if b.count < 16 then
      Bits.refill data fuel
        ⟨((b.buf <<< 8) % 2 ^ 32) ||| (data.getD b.pos 0).toNat, b.count + 8, b.pos + 1⟩
    else b

def Bits.drop (data : Bytes) (n : Int) (b : Bits) : Bits :=
  let count := b.count - n
  Bits.refill data (16 - count).toNat { b with buf := b.buf &&& mask count, count := count }

def Bits.start (data : Bytes) : Bits := Bits.drop data 0 ⟨0, 0, 0⟩

/-- The shift count of `>>>` is taken modulo 32. -/
def Bits.get (n : Nat) (b : Bits) : Nat := (b.buf >>> ((b.count - n) % 32).toNat) &&& 0xffff

def Bits.getDrop (data : Bytes) (n : Nat) (b : Bits) : Nat × Bits := (b.get n, b.drop data n)

-- ---------------------------------------------------------------------------
-- Code tables
-- ---------------------------------------------------------------------------

def nC : Nat := 510
def n1 : Nat := 510
def nPt : Nat := 20
def offset : Nat := 253

/-- What `makeTable`'s recursion shares. -/
structure TableRun where
  table : List Nat
  left : List Nat
  right : List Nat
  avail : Nat
  bit : Nat
  depth : Nat
  len : Nat
  c : Int
  codeword : Nat
  err : Nat

/-- `table[i++] = c` up to `stop`. -/
def fillTo (table : List Nat) (start stop v : Nat) : List Nat :=
  (List.range' start (stop - start)).foldl (fun t i => t.set i v) table

/-- The next code of the current length, taken into the table. -/
def TableRun.leaf (n tblsiz : Nat) (bitlen : List Nat) (r : TableRun) : Option (Nat × TableRun) :=
  match (List.range n).find? fun (c : Nat) => r.c < c ∧ bitlen.getD c 0 = r.len with
  | some c =>
    let codeword := r.codeword + r.bit
    if codeword > tblsiz then some (0, { r with c := c, codeword := codeword, err := 1 })
    else some (c, { r with c := c, codeword := codeword, table := fillTo r.table r.codeword codeword c })
  | none => none

/-- `mktbl`; its depth ends at 32. -/
def mktbl (n tablebits : Nat) (bitlen : List Nat) : Nat → TableRun → Nat × TableRun
  | 0, r => (0, r)
  | fuel + 1, r =>
    if r.err ≠ 0 then (0, r) else
    let tblsiz := 2 ^ tablebits
    match if r.len = r.depth then r.leaf n tblsiz bitlen else none with
    | some found => found
    | none =>
      let r := if r.len = r.depth then { r with c := -1, len := r.len + 1, bit := r.bit / 2 } else r
      let r := { r with depth := r.depth + 1 }
      if r.depth < tablebits + 1 then
        let (_, r) := mktbl n tablebits bitlen fuel r
        let (_, r) := mktbl n tablebits bitlen fuel r
        (0, { r with depth := r.depth - 1 })
      else if r.depth > 32 then (0, { r with err := 2 })
      else
        let i := r.avail
        let r := { r with avail := r.avail + 1 }
        if i ≥ 2 * n - 1 then (0, { r with err := 3 }) else
        let (l, r) := mktbl n tablebits bitlen fuel r
        let r := { r with left := r.left.set i l }
        let (l, r) := mktbl n tablebits bitlen fuel r
        let r := { r with right := r.right.set i l }
        if r.codeword ≥ tblsiz then (0, { r with err := 4 }) else
        let r := if r.depth = tablebits + 1 then
            { r with table := r.table.set r.codeword i, codeword := r.codeword + 1 }
          else r
        (i, { r with depth := r.depth - 1 })

/-- Whether the code is bad, and the tables as they were left. -/
def makeTable (nchar : Nat) (bitlen : List Nat) (tablebits : Nat) (table left right : List Nat) :
    Bool × List Nat × List Nat × List Nat :=
  let tblsiz := 2 ^ tablebits
  let r : TableRun := ⟨table, left, right, nchar, tblsiz / 2, 1, 1, -1, 0, 0⟩
  let (_, r) := mktbl nchar tablebits bitlen 34 r
  let r := if r.err ≠ 0 then r else (mktbl nchar tablebits bitlen 34 r).2
  (r.err ≠ 0 || r.codeword ≠ tblsiz, r.table, r.left, r.right)

-- ---------------------------------------------------------------------------
-- State
-- ---------------------------------------------------------------------------

/-- Everything that survives from one track to the next. -/
structure DmsState where
  text : Bytes
  quickTextLoc : Nat
  mediumTextLoc : Nat
  heavyTextLoc : Nat
  deepTextLoc : Nat
  initDeepTabs : Bool
  left : List Nat
  right : List Nat
  cLen : List Nat
  ptLen : List Nat
  cTable : List Nat
  ptTable : List Nat
  lastlen : Nat
  np : Nat
  freq : List Nat
  prnt : List Nat
  son : List Nat

/-- Only the first 0x3fc8 bytes of the history are cleared. -/
def DmsState.reset (s : DmsState) : DmsState :=
  { s with
    quickTextLoc := 251
    mediumTextLoc := 0x3fbe
    heavyTextLoc := 0
    deepTextLoc := 0x3fc4
    initDeepTabs := true
    text := blit s.text 0 (List.replicate 0x3fc8 0) }

def DmsState.new : DmsState :=
  DmsState.reset
    { text := List.replicate textLen 0
      quickTextLoc := 0
      mediumTextLoc := 0
      heavyTextLoc := 0
      deepTextLoc := 0
      initDeepTabs := true
      left := List.replicate (2 * nC - 1) 0
      right := List.replicate (2 * nC - 1 + 9) 0
      cLen := List.replicate nC 0
      ptLen := List.replicate nPt 0
      cTable := List.replicate 4096 0
      ptTable := List.replicate 256 0
      lastlen := 0
      np := 0
      freq := List.replicate (627 + 1) 0
      prnt := List.replicate (627 + 314) 0
      son := List.replicate 627 0 }

/-- What ends an archive: a reason returned, or `Corrupt` thrown. -/
inductive Stop
  | refused (reason : String)
  | corrupt (message : String)

abbrev Run := Except Stop

-- ---------------------------------------------------------------------------
-- The history window
-- ---------------------------------------------------------------------------

/-- The history with a decoder's place in it, and the output so far. -/
structure Window where
  text : Bytes
  loc : Nat
  out : Bytes
  o : Nat

/-- `out[o++] = text[loc++ & mask] = v`. -/
def Window.emit (m v : Nat) (w : Window) : Window :=
  { text := w.text.set (w.loc &&& m) (UInt8.ofNat v)
    loc := w.loc + 1
    out := w.out.set w.o (UInt8.ofNat v)
    o := w.o + 1 }

/-- `while (j--) out[o++] = text[loc++ & mask] = text[i++ & mask]`. -/
def Window.copy (m : Nat) : Nat → Nat → Window → Window
  | 0, _, w => w
  | j + 1, i, w => Window.copy m j (i + 1) (w.emit m (w.text.getD (i &&& m) 0).toNat)

/-- Where a match `back` behind starts. -/
def Window.from_ (back : Nat) (w : Window) : Nat := (((w.loc : Int) - back - 1) % 0x10000).toNat

-- ---------------------------------------------------------------------------
-- SIMPLE
-- ---------------------------------------------------------------------------

/-- The length of a long run: a second byte past the input makes it zero. -/
def longRun (inp : Bytes) (i : Nat) : Nat :=
  if i + 1 < inp.length then be16 (inp.getD i 0) (inp.getD (i + 1) 0) else 0

/-- The loop of `unpackRle`. A round writes a byte or reads five. -/
def rleLoop (inp : Bytes) (origsize : Nat) : Nat → Nat → Nat → Bytes → Bool × Bytes
  | 0, _, _, out => (false, out)
  | fuel + 1, i, o, out =>
    if o < origsize then
      let a := inp.getD i 0
      if a ≠ 0x90 then rleLoop inp origsize fuel (i + 1) (o + 1) (out.set o a) else
      let b := inp.getD (i + 1) 0
      if b = 0 then rleLoop inp origsize fuel (i + 2) (o + 1) (out.set o a) else
      let v := inp.getD (i + 2) 0
      let (n, i) := if b = 0xff then (longRun inp (i + 3), i + 5) else (b.toNat, i + 3)
      if o + n > origsize then (true, out)
      else rleLoop inp origsize fuel i (o + n) (blit out o (List.replicate n v))
    else (false, out)

/-- RLE, on its own or as a second pass: whether it failed, and the output. -/
def unpackRle (inp out : Bytes) (origsize : Nat) : Bool × Bytes :=
  rleLoop inp origsize (inp.length + origsize + 1) 0 0 out

-- ---------------------------------------------------------------------------
-- QUICK and MEDIUM
-- ---------------------------------------------------------------------------

/-- The loop of an unpacker whose round reads bits and writes to the window. -/
def unpackLoop (origsize : Nat) (round : Bits → Window → Bits × Window) : Nat → Bits → Window → Window
  | 0, _, w => w
  | fuel + 1, b, w =>
    if w.o < origsize then
      let (b, w) := round b w
      unpackLoop origsize round fuel b w
    else w

def quickRound (inp : Bytes) (b : Bits) (w : Window) : Bits × Window :=
  if b.get 1 ≠ 0 then
    let (v, b) := (b.drop inp 1).getDrop inp 8
    (b, w.emit 0xff v)
  else
    let (j, b) := (b.drop inp 1).getDrop inp 2
    let (back, b) := b.getDrop inp 8
    (b, w.copy 0xff (j + 2) (w.from_ back))

def unpackQuick (s : DmsState) (inp out : Bytes) (origsize : Nat) : DmsState × Bytes :=
  let w := unpackLoop origsize (quickRound inp) origsize (.start inp) ⟨s.text, s.quickTextLoc, out, 0⟩
  ({ s with text := w.text, quickTextLoc := (w.loc + 5) &&& 0xff }, w.out)

def mediumRound (inp : Bytes) (b : Bits) (w : Window) : Bits × Window :=
  if b.get 1 ≠ 0 then
    let (v, b) := (b.drop inp 1).getDrop inp 8
    (b, w.emit 0x3fff v)
  else
    let (c, b) := (b.drop inp 1).getDrop inp 8
    let j := dCode.getD c 0 + 3
    let u := dLen.getD c 0
    let (v, b) := b.getDrop inp u
    let c := ((c <<< u) ||| v) &&& 0xff
    let u := dLen.getD c 0
    let (v, b) := b.getDrop inp u
    let c := ((dCode.getD c 0 <<< 8) ||| (((c <<< u) ||| v) &&& 0xff)) &&& 0xffff
    (b, w.copy 0x3fff j (w.from_ c))

def unpackMedium (s : DmsState) (inp out : Bytes) (origsize : Nat) : DmsState × Bytes :=
  let w := unpackLoop origsize (mediumRound inp) origsize (.start inp) ⟨s.text, s.mediumTextLoc, out, 0⟩
  ({ s with text := w.text, mediumTextLoc := (w.loc + 66) &&& 0x3fff }, w.out)

-- ---------------------------------------------------------------------------
-- DEEP
-- ---------------------------------------------------------------------------

def threshold : Nat := 2
def nChar : Nat := 314
def tSize : Nat := 627
def rRoot : Nat := 626
def maxFreq : Nat := 0x8000

/-- DEEP's adaptive tree. -/
structure Tree where
  freq : List Nat
  prnt : List Nat
  son : List Nat

def DmsState.tree (s : DmsState) : Tree := ⟨s.freq, s.prnt, s.son⟩

/-- A node's one or two links back. -/
def Tree.adopt (t : Tree) (i at_ : Nat) : Tree :=
  let prnt := t.prnt.set i at_
  { t with prnt := if i < tSize then prnt.set (i + 1) at_ else prnt }

def initDeepTabs (t : Tree) : Tree :=
  let t := (List.range nChar).foldl (fun t i =>
    { freq := t.freq.set i 1, son := t.son.set i (i + tSize), prnt := t.prnt.set (i + tSize) i }) t
  let t := (List.range (tSize - nChar)).foldl (fun t k =>
    let i := 2 * k
    let j := nChar + k
    { freq := t.freq.set j ((t.freq.getD i 0 + t.freq.getD (i + 1) 0) % 0x10000)
      son := t.son.set j i
      prnt := (t.prnt.set (i + 1) j).set i j }) t
  { t with freq := t.freq.set tSize 0xffff, prnt := t.prnt.set rRoot 0 }

/-- `copyWithin(k + 1, k, stop)` and then `xs[k] = v`. -/
def insertWithin (xs : List Nat) (k stop v : Nat) : List Nat :=
  (blit xs (k + 1) (slice xs k (stop - k))).set k v

/-- The place after the last element from `jj` down that is no greater. -/
def sortedPlace (freq : List Nat) (f : Nat) : Nat → Nat
  | 0 => 0
  | k + 1 => if f < freq.getD k 0 then sortedPlace freq f k else k + 1

def reconst (t : Tree) : Tree :=
  let (t, _) := (List.range tSize).foldl (fun (t, j) i =>
    if t.son.getD i 0 ≥ tSize then
      ({ t with freq := t.freq.set j ((t.freq.getD i 0 + 1) / 2), son := t.son.set j (t.son.getD i 0) }, j + 1)
    else (t, j)) (t, 0)
  let t := (List.range (tSize - nChar)).foldl (fun t n =>
    let i := 2 * n
    let jj := nChar + n
    let f := (t.freq.getD i 0 + t.freq.getD (i + 1) 0) % 0x10000
    let freq := t.freq.set jj f
    let k := sortedPlace freq f jj
    { t with freq := insertWithin freq k jj f, son := insertWithin t.son k jj i }) t
  (List.range tSize).foldl (fun t i => t.adopt (t.son.getD i 0) i) t

/-- `while (l < T_SIZE && k > freq[++l])`, and `l--` after it. -/
def lastBelow (freq : List Nat) (k : Nat) : Nat → Nat → Nat
  | 0, l => l - 1
  | fuel + 1, l =>
    if l < tSize then
      if freq.getD (l + 1) 0 < k then lastBelow freq k fuel (l + 1) else l
    else l - 1

/-- The walk of `update` from `c` to the root. -/
def updateLoop : Nat → Nat → Tree → Run Tree
  | 0, _, _ => .error <| .corrupt "cycle walking to the tree root"
  | fuel + 1, c, t =>
    let k := t.freq.getD c 0 + 1
    let t := { t with freq := t.freq.set c (k % 0x10000) }
    let (c, t) :=
      if t.freq.getD (c + 1) 0 < k then
        let l := lastBelow t.freq k tSize (c + 1)
        let i := t.son.getD c 0
        let jj := t.son.getD l 0
        let t := { t with freq := (t.freq.set c (t.freq.getD l 0)).set l k }
        let t := { t.adopt i l with son := t.son.set l i }
        let t := t.adopt jj c
        (l, { t with son := t.son.set c jj })
      else (c, t)
    let c := t.prnt.getD c 0
    if c = 0 then .ok t else updateLoop fuel c t

def update (t : Tree) (code : Nat) : Run Tree :=
  let t := if t.freq.getD rRoot 0 = maxFreq then reconst t else t
  updateLoop tSize (t.prnt.getD (code + tSize) 0) t

/-- From a node down to a leaf. -/
def descend (inp : Bytes) (son : List Nat) : Nat → Nat → Bits → Run (Nat × Bits)
  | fuel, c, b =>
    if c < tSize then
      match fuel with
      | 0 => .error <| .corrupt "cycle descending the DEEP tree"
      | fuel + 1 =>
        let (bit, b) := b.getDrop inp 1
        descend inp son fuel (son.getD (c + bit) 0) b
    else .ok (c, b)

def deepLoop (inp : Bytes) (origsize : Nat) : Nat → Bits → Tree → Window → Run (Tree × Window)
  | 0, _, t, w => .ok (t, w)
  | fuel + 1, b, t, w =>
    if w.o < origsize then do
      let (c, b) ← descend inp t.son tSize (t.son.getD rRoot 0) b
      let c := c - tSize
      let t ← update t c
      if c < 256 then deepLoop inp origsize fuel b t (w.emit 0x3fff c)
      else
        let j := c - 255 + threshold
        let (i, b) := b.getDrop inp 8
        let hi := dCode.getD i 0 <<< 8
        let nb := dLen.getD i 0
        let (v, b) := b.getDrop inp nb
        let i := ((i <<< nb) ||| v) &&& 0xff
        let pos := (hi ||| i) &&& 0xffff
        deepLoop inp origsize fuel b t (w.copy 0x3fff j (w.from_ pos))
    else .ok (t, w)

def unpackDeep (s : DmsState) (inp out : Bytes) (origsize : Nat) : Run (DmsState × Bytes) := do
  let t := if s.initDeepTabs then initDeepTabs s.tree else s.tree
  let (t, w) ← deepLoop inp origsize origsize (.start inp) t ⟨s.text, s.deepTextLoc, out, 0⟩
  .ok ({ s with
    text := w.text
    deepTextLoc := (w.loc + 60) &&& 0x3fff
    initDeepTabs := false
    freq := t.freq
    prnt := t.prnt
    son := t.son }, w.out)

-- ---------------------------------------------------------------------------
-- HEAVY
-- ---------------------------------------------------------------------------

/-- `n` lengths of `w` bits into the front of a table. -/
def readLens (inp : Bytes) (w : Nat) : Nat → Nat → List Nat → Bits → List Nat × Bits
  | 0, _, lens, b => (lens, b)
  | n + 1, i, lens, b =>
    let (v, b) := b.getDrop inp w
    readLens inp w n (i + 1) (lens.set i v) b

/-- `xs.fill(v, start, stop)`; a start past the stop fills nothing. -/
def fill (xs : List Nat) (v start stop : Nat) : List Nat :=
  blit xs start (List.replicate (min stop xs.length - start) v)

def readTreeC (s : DmsState) (inp : Bytes) (b : Bits) : Bool × DmsState × Bits :=
  let (n, b) := b.getDrop inp 9
  if n > nC then (true, s, b)
  else if n > 0 then
    let (lens, b) := readLens inp 5 n 0 s.cLen b
    let cLen := fill lens 0 n 510
    let (bad, table, left, right) := makeTable 510 cLen 12 s.cTable s.left s.right
    (bad, { s with cLen := cLen, cTable := table, left := left, right := right }, b)
  else
    let (n, b) := b.getDrop inp 9
    (false, { s with cLen := fill s.cLen 0 0 510, cTable := List.replicate s.cTable.length n }, b)

def readTreeP (s : DmsState) (inp : Bytes) (b : Bits) : Bool × DmsState × Bits :=
  let (n, b) := b.getDrop inp 5
  if n > nPt then (true, s, b)
  else if n > 0 then
    let (lens, b) := readLens inp 4 n 0 s.ptLen b
    let ptLen := fill lens 0 n s.np
    let (bad, table, left, right) := makeTable s.np ptLen 8 s.ptTable s.left s.right
    (bad, { s with ptLen := ptLen, ptTable := table, left := left, right := right }, b)
  else
    let (n, b) := b.getDrop inp 5
    (false, { s with ptLen := fill s.ptLen 0 0 s.np, ptTable := List.replicate s.ptTable.length n }, b)

/-- The overflow tree below `j`, a bit of `i` a level, down to a code under `stop`. -/
def walk (s : DmsState) (stop i : Nat) (cycle : String) : Nat → Nat → Nat → Run Nat
  | 0, _, _ => .error (.corrupt cycle)
  | fuel + 1, j, m =>
    let j := if i &&& m ≠ 0 then s.right.getD j 0 else s.left.getD j 0
    if j ≥ stop then walk s stop i cycle fuel j (m / 2) else .ok j

def decodeC (s : DmsState) (inp : Bytes) (b : Bits) : Run (Nat × Bits) := do
  let j := s.cTable.getD (b.get 12) 0
  if j < n1 then .ok (j, b.drop inp (s.cLen.getD j 0))
  else
    let b := b.drop inp 12
    let j ← walk s n1 (b.get 16) "cycle in the HEAVY literal tree" 32 j 0x8000
    .ok (j, b.drop inp ((s.cLen.getD j 0 : Int) - 12))

/-- A position, and the last one kept. -/
def decodeP (s : DmsState) (inp : Bytes) (b : Bits) : Run (DmsState × Bits) := do
  let j := s.ptTable.getD (b.get 8) 0
  let (j, b) ←
    if j < s.np then pure (j, b.drop inp (s.ptLen.getD j 0))
    else do
      let b := b.drop inp 8
      let j ← walk s s.np (b.get 16) "cycle in the HEAVY position tree" 32 j 0x8000
      pure (j, b.drop inp ((s.ptLen.getD j 0 : Int) - 8))
  if j = s.np - 1 then .ok (s, b)
  else if j = 0 then .ok ({ s with lastlen := 0 }, b)
  else
    let n := j - 1
    let v := (b.get n ||| (1 <<< (j - 1))) &&& 0xffff
    .ok ({ s with lastlen := v }, b.drop inp n)

def heavyLoop (inp : Bytes) (bitmask origsize : Nat) :
    Nat → Bits → DmsState → Window → Run (DmsState × Window)
  | 0, _, s, w => .ok (s, w)
  | fuel + 1, b, s, w =>
    if w.o < origsize then do
      let (c, b) ← decodeC s inp b
      if c < 256 then heavyLoop inp bitmask origsize fuel b s (w.emit bitmask c)
      else
        let (s, b) ← decodeP s inp b
        heavyLoop inp bitmask origsize fuel b s (w.copy bitmask (c - offset) (w.from_ s.lastlen))
    else .ok (s, w)

/-- The trees a track's flags say it brings. -/
def readTrees (s : DmsState) (inp : Bytes) (flags : Nat) (b : Bits) : Bool × DmsState × Bits :=
  if flags &&& 2 ≠ 0 then
    let (bad, s, b) := readTreeC s inp b
    if bad then (true, s, b) else readTreeP s inp b
  else (false, s, b)

/-- Whether a tree was bad, with the state and the output it left. -/
def unpackHeavy (s : DmsState) (inp out : Bytes) (flags origsize : Nat) :
    Run (Bool × DmsState × Bytes) :=
  let bitmask := if flags &&& 8 ≠ 0 then 0x1fff else 0x0fff
  let np := if flags &&& 8 ≠ 0 then 15 else 14
  match readTrees { s with np := np } inp flags (.start inp) with
  | (true, s, _) => .ok (true, s, out)
  | (false, s, b) => do
    let (s, w) ← heavyLoop inp bitmask origsize origsize b s ⟨s.text, s.heavyTextLoc, out, 0⟩
    .ok (false, { s with text := w.text, heavyTextLoc := w.loc }, w.out)

end WebAdf.Archive
