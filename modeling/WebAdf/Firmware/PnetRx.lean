import WebAdf.Constants
import WebAdf.Lib.Bits
import WebAdf.Lib.Checked

/-!
# The raw decoder

Intervals between the pulses of a raw write, turned into its bits. The sync's 16
cells give the pulse's low time; what follows is counted in cells and adds a one
after the cells that are empty. Short intervals are counted at the nominal cell
and sampled; long ones with the cell and the low time fitted to the samples.
Every sum, product and store is checked: `none` is a value that left its type or
a byte outside the buffer. The counters of words, of intervals hunted through and
of those out of range go round, as unsigned ones do.
-/

namespace WebAdf.Firmware

open Lib

def pnetCellNs : Nat := 2000
def pnetSyncCells : Nat := 16
def pnetRxPwMinNs : Nat := 150
def pnetRxPwMaxNs : Nat := 1700
def pnetRxJitterNs : Nat := 280
def pnetRxSyncMinNs : Nat := pnetSyncCells * pnetCellNs - pnetRxPwMaxNs - pnetRxJitterNs
def pnetRxSyncMaxNs : Nat := pnetSyncCells * pnetCellNs - pnetRxPwMinNs + pnetRxJitterNs
def pnetRxGap17MaxNs : Nat := (pnetSyncCells + 1) * pnetCellNs - pnetRxPwMinNs + pnetRxJitterNs
def pnetRxTwoMinNs : Nat := 2 * pnetCellNs - pnetRxPwMaxNs - pnetRxJitterNs
def pnetRxTwoMaxNs : Nat := 2 * pnetCellNs - pnetRxPwMinNs + pnetRxJitterNs
def pnetRxImpliedLeadNs : Nat := 4 * pnetCellNs
def pnetRxHuntMax : Nat := 8192
def pnetRxMaxCells : Nat := 64
def pnetRxCalMax : Nat := 64
def pnetRxCalCells : Nat := 24

structure PnetRx where
  buf : Bytes
  capBits : Nat
  bit : Nat
  cleared : Nat
  words : Nat
  leadNs : Nat
  syncNs : Nat
  pwNs : Int
  huntN : Nat
  syncOk : Bool
  implied : Bool
  prearmed : Bool
  huntFailed : Bool
  overflowed : Bool
  outOfRange : Nat
  calK : Nat
  calSn : Nat
  calSnn : Nat
  calSt : Nat
  calSnt : Nat
  calC16 : Nat
  calP16 : Int

/-- A decoder over `buf`, whatever it holds; the caller may say it is `prearmed`. -/
def pnetRxInit (buf : Bytes) (prearmed : Bool) : PnetRx where
  buf := buf
  capBits := buf.length * 8
  bit := 0
  cleared := 0
  words := 0
  leadNs := 0
  syncNs := 0
  pwNs := 0
  huntN := 0
  syncOk := false
  implied := false
  prearmed := prearmed
  huntFailed := false
  overflowed := false
  outOfRange := 0
  calK := 0
  calSn := 0
  calSnn := 0
  calSt := 0
  calSnt := 0
  calC16 := 0
  calP16 := 0

def inRange (ns lo hi : Nat) : Bool := ns ≥ lo && ns ≤ hi

namespace PnetRx

def calReset (r : PnetRx) : PnetRx :=
  { r with calK := 0, calSn := 0, calSnn := 0, calSt := 0, calSnt := 0, calC16 := 0, calP16 := 0 }

def calAdd (r : PnetRx) (n t : Nat) : Option PnetRx :=
  if r.calK ≥ pnetRxCalMax ∨ n > pnetSyncCells then some r
  else do
    let k ← u32 (r.calK + 1)
    let sn ← u32 (r.calSn + n)
    let nn ← u32 (n * n)
    let snn ← u32 (r.calSnn + nn)
    let st ← u32 (r.calSt + t)
    let nt ← u32 (n * t)
    let snt ← u32 (r.calSnt + nt)
    -- the fit is stale
    some { r with calK := k, calSn := sn, calSnn := snn, calSt := st, calSnt := snt, calC16 := 0 }

/-- The least-squares cell and low time, in sixteenths of a nanosecond. -/
def calFit (r : PnetRx) : Option (PnetRx × Bool) :=
  if r.calC16 ≠ 0 then some (r, true)
  else do
    let k : Int := r.calK
    let sn : Int := r.calSn
    let ksnn ← i64 (k * r.calSnn)
    let snsn ← i64 (sn * sn)
    let den ← i64 (ksnn - snsn)
    if k < 2 ∨ den ≤ 0 then some (r, false)
    else
      let ksnt ← i64 (k * r.calSnt)
      let snst ← i64 (sn * r.calSt)
      let num ← i64 (ksnt - snst)
      let num16 ← i64 (16 * num)
      let c16 := num16.tdiv den
      if c16 < 16 * 1900 ∨ c16 > 16 * 2010 then some (r, false)
      else
        let csn ← i64 (c16 * sn)
        let st16 ← i64 (16 * r.calSt)
        let diff ← i64 (csn - st16)
        let p16 ← i32 (diff.tdiv k)
        some ({ r with calC16 := c16.toNat, calP16 := p16 }, true)

/-- The cells of an interval counted with the fit. -/
def fitted (r : PnetRx) (ns : Nat) : Option Nat := do
  let ns16 ← i32 (ns * 16)
  let sum ← i32 (ns16 + r.calP16)
  let sum ← i32 (sum + (r.calC16 / 2 : Nat))
  toUnsigned (sum.tdiv r.calC16)

/-- The cells of an interval, sampled when it is short. -/
def count (r : PnetRx) (ns : Nat) : Option (PnetRx × Nat) := do
  let ns := if ns > (pnetRxMaxCells + 2) * pnetCellNs then (pnetRxMaxCells + 2) * pnetCellNs else ns
  let sum ← i32 (ns + r.pwNs)
  let t ← i32 (sum + (pnetCellNs / 2 : Nat))
  let cells := if t > 0 then t.toNat / pnetCellNs else 0
  let cells := if cells < 1 then 1 else cells
  if cells ≤ pnetSyncCells then do
    let r ← r.calAdd cells ns
    some (r, cells)
  else if cells ≥ pnetRxCalCells then do
    let (r, fit) ← r.calFit
    if fit then do
      let cells ← r.fitted ns
      some (r, cells)
    else some (r, cells)
  else some (r, cells)

def store (r : PnetRx) (i : Nat) (b : UInt8) : Option PnetRx :=
  if i < r.buf.length then some { r with buf := r.buf.set i b } else none

/-- `n` rounds of the lazy clear. -/
def clear (r : PnetRx) : Nat → Option PnetRx
  | 0 => some r
  | n + 1 => do
    let r ← r.store r.cleared 0
    let cleared ← u32 (r.cleared + 1)
    clear { r with cleared := cleared } n

/-- The empty cells of an interval, and the one after them. -/
def emit (r : PnetRx) (cells : Nat) : Option PnetRx := do
  let r := if cells > pnetRxMaxCells then { r with outOfRange := bump r.outOfRange } else r
  let cells := if cells > pnetRxMaxCells then pnetRxMaxCells else cells
  let sum ← u32 (r.bit + cells)
  let last ← minus sum 1
  if last ≥ r.capBits then some { r with overflowed := true }
  else do
    let r ← r.clear (last / 8 + 1 - r.cleared)
    let byte ← r.buf[last / 8]?
    let r ← r.store (last / 8) (byte ||| (0x80 >>> UInt8.ofNat (last % 8)))
    let bit ← u32 (last + 1)
    some { r with bit := bit }

/-- An interval after the sync. -/
def decode (r : PnetRx) (ns : Nat) : Option PnetRx :=
  if r.overflowed then some r
  else do
    let (r, cells) ← r.count ns
    r.emit cells

/-- An interval of the hunt. -/
def hunt (r : PnetRx) (ns : Nat) (sync : Bool) : Option PnetRx :=
  let r := { r with syncNs := ns }
  if sync then do
    let r := if r.syncOk then { r with huntN := bump r.huntN } else r
    let pw ← i32 ((pnetSyncCells * pnetCellNs : Nat) - ns)
    { r with syncOk := true, pwNs := pw }.calReset.calAdd pnetSyncCells ns
  else
    let r := { r with huntN := bump r.huntN }
    if r.huntN > pnetRxHuntMax ∨ ns > pnetRxGap17MaxNs then some { r with huntFailed := true }
    else some r

end PnetRx

def pnetRxFeed (r : PnetRx) (ns : Nat) : Option PnetRx :=
  let w := r.words
  let r := { r with words := bump r.words }
  if w = 0 then some { r with leadNs := ns }
  else if r.huntFailed then some r
  else
    let sync := inRange ns pnetRxSyncMinNs pnetRxSyncMaxNs
    if w = 1 ∧ !r.prearmed ∧ r.leadNs ≥ pnetRxImpliedLeadNs ∧
        inRange ns pnetRxTwoMinNs pnetRxTwoMaxNs then do
      let pw ← i32 ((2 * pnetCellNs : Nat) - ns)
      { r with syncOk := true, implied := true, syncNs := ns, pwNs := pw }.decode ns
    else if !r.syncOk || (r.bit == 0 && sync) then r.hunt ns sync
    else r.decode ns

/-- Every value of a capture, in turn. -/
def pnetRxFeeds : PnetRx → List Nat → Option PnetRx
  | r, [] => some r
  | r, ns :: rest => (pnetRxFeed r ns).bind fun r => pnetRxFeeds r rest

def pnetRxBytes (r : PnetRx) : Nat := (r.bit + 7) / 8

end WebAdf.Firmware
