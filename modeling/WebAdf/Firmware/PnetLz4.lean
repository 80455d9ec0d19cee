import Mathlib.Data.Nat.Bitwise
import WebAdf.Constants
import WebAdf.Lib.Lz77
import WebAdf.Lib.Slice

/-!
# The LZ4 block codec of the network link

An encoder whose matches may reach back into the window before its source, and
the decoder. Positions count from the window's start; the encoder's hash table
is whatever an earlier block left in it.
-/

namespace WebAdf.Firmware

open Lib

/-- The bytes of the 255-run that follow a nibble for the length `x`. -/
def extlen (x : Nat) : Nat := if x < 15 then 0 else (x - 15) / 255 + 1

def putLen (len : Nat) : Bytes :=
  if 255 ≤ len then 255 :: putLen (len - 255) else [UInt8.ofNat len]

def nibble (x : Nat) : Nat := if 15 ≤ x then 15 else x

def lengthRun (x : Nat) : Bytes := if 15 ≤ x then putLen (x - 15) else []

-- ---------------------------------------------------------------------------
-- The encoder
-- ---------------------------------------------------------------------------

/-- The loop's variables; `out` is what was written to `dst`. -/
structure EncodeState where
  pos : Nat
  anchor : Nat
  misses : Nat
  out : Bytes
  tab : List UInt16

/-- A match: `len` bytes at `pos` that are also at `ref`. -/
structure Match where
  pos : Nat
  ref : Nat
  len : Nat

def hashAt (base : Bytes) (entries pos : Nat) : Nat :=
  let x := (base.getD pos 0).toNat <<< 8 ||| (base.getD (pos + 2) 0).toNat
  let y := (base.getD (pos + 1) 0).toNat <<< 8 ||| (base.getD (pos + 3) 0).toNat
  ((2 * x + y) &&& ((entries - 1) <<< 1)) >>> 1

def sameFour (base : Bytes) (ref pos : Nat) : Bool :=
  base.getD ref 0 == base.getD pos 0 && base.getD (ref + 1) 0 == base.getD (pos + 1) 0 &&
    base.getD (ref + 2) 0 == base.getD (pos + 2) 0 && base.getD (ref + 3) 0 == base.getD (pos + 3) 0

def forwards (base : Bytes) (mend : Nat) (m : Match) : Match :=
  if m.pos + m.len < mend ∧ base.getD (m.ref + m.len) 0 = base.getD (m.pos + m.len) 0 then
    forwards base mend { m with len := m.len + 1 }
  else m
termination_by mend - (m.pos + m.len)

def backwards (base : Bytes) (anchor : Nat) (m : Match) : Match :=
  if anchor < m.pos ∧ 0 < m.ref ∧ base.getD (m.pos - 1) 0 = base.getD (m.ref - 1) 0 then
    backwards base anchor ⟨m.pos - 1, m.ref - 1, m.len + 1⟩
  else m
termination_by m.ref

/-- The match at a candidate, grown both ways. -/
def growMatch (base : Bytes) (mend anchor ref pos : Nat) : Match :=
  backwards base anchor (forwards base mend ⟨pos, ref, 4⟩)

theorem forwards_pos (base : Bytes) (mend : Nat) (m : Match) :
    (forwards base mend m).pos = m.pos ∧ m.len ≤ (forwards base mend m).len := by
  fun_induction forwards base mend m with
  | case1 m _ ih => exact ⟨ih.1, by have := ih.2; simp only at this; omega⟩
  | case2 m _ => exact ⟨rfl, Nat.le_refl _⟩

theorem backwards_end (base : Bytes) (anchor : Nat) (m : Match) :
    (backwards base anchor m).pos + (backwards base anchor m).len = m.pos + m.len := by
  fun_induction backwards base anchor m with
  | case1 m h ih => rw [ih]; simp only; omega
  | case2 m _ => rfl

theorem growMatch_end (base : Bytes) (mend anchor ref pos : Nat) :
    pos + 4 ≤ (growMatch base mend anchor ref pos).pos +
      (growMatch base mend anchor ref pos).len := by
  obtain ⟨hpos, hlen⟩ := forwards_pos base mend ⟨pos, ref, 4⟩
  rw [growMatch, backwards_end, hpos]
  exact Nat.add_le_add_left hlen _

/-- A sequence: the token, the literals and a match of `ml + 4` bytes. -/
def putSequence (lits : Bytes) (off ml : Nat) : Bytes :=
  UInt8.ofNat (nibble lits.length <<< 4 ||| nibble ml) :: (lengthRun lits.length ++ (lits ++
    (UInt8.ofNat off :: UInt8.ofNat (off >>> 8) :: lengthRun ml)))

/-- The last sequence: literals only. -/
def putLast (lits : Bytes) : Bytes :=
  UInt8.ofNat (nibble lits.length <<< 4) :: (lengthRun lits.length ++ lits)

/-- The search for matches; `false` when the block would pass `cap`. -/
def encodeLoop (base : Bytes) (entries cap mflimit mend : Nat) (st : EncodeState) :
    Bool × EncodeState :=
  if st.pos ≤ mflimit then
    let h := hashAt base entries st.pos
    let ref := (st.tab.getD h 0 ^^^ 0x8000).toNat
    let tab := st.tab.set h (UInt16.ofNat st.pos ^^^ 0x8000)
    if st.pos ≤ ref ∨ sameFour base ref st.pos = false then
      encodeLoop base entries cap mflimit mend
        { st with pos := st.pos + (1 + st.misses >>> 6), misses := st.misses + 1, tab := tab }
    else
      let m := growMatch base mend st.anchor ref st.pos
      let lit := m.pos - st.anchor
      let ml := m.len - 4
      if 3 + lit + extlen lit + extlen ml > cap - st.out.length then (false, { st with tab := tab })
      else
        encodeLoop base entries cap mflimit mend
          { pos := m.pos + m.len, anchor := m.pos + m.len, misses := 0, tab := tab
            out := st.out ++ putSequence (slice base st.anchor lit) (m.pos - m.ref) ml }
  else (true, st)
termination_by mflimit + 1 - st.pos
decreasing_by
  · omega
  · have := growMatch_end base mend st.anchor
      (st.tab.getD (hashAt base entries st.pos) 0 ^^^ 0x8000).toNat st.pos
    omega

/-- What the encoder returns, what it wrote from `dst` on, and the table after. -/
structure Encoded where
  size : Nat
  written : Bytes
  tab : List UInt16

/-- After the search: nothing when it gave up, else the last literals. -/
def EncodeState.finish (st : EncodeState) (fits : Bool) (base : Bytes) (cap : Nat) : Encoded :=
  if !fits then ⟨0, st.out, st.tab⟩
  else
    let lit := base.length - st.anchor
    if 1 + lit + extlen lit > cap - st.out.length then ⟨0, st.out, st.tab⟩
    else
      let out := st.out ++ putLast (slice base st.anchor lit)
      ⟨out.length, out, st.tab⟩

def pnetLz4EncodeLinked (window src : Bytes) (cap : Nat) (tab : List UInt16) (entries : Nat) :
    Encoded :=
  let n := src.length
  let base := window ++ src
  if n > 65535 ∨ base.length > 65536 then ⟨0, [], tab⟩
  else
    let st : EncodeState := ⟨window.length, window.length, 0, [], tab⟩
    if 13 ≤ n then
      let (fits, st) := encodeLoop base entries cap (base.length - 12) (base.length - 5) st
      st.finish fits base cap
    else st.finish true base cap

-- ---------------------------------------------------------------------------
-- The decoder
-- ---------------------------------------------------------------------------

/-- A length run on top of `len`, with the input after it. -/
def readRun (len : Nat) : Bytes → Option (Nat × Bytes)
  | [] => none
  | b :: rest => if b = 255 then readRun (len + 255) rest else some (len + b.toNat, rest)

/-- The length of a nibble, read on when it is 15. -/
def readLength (nib base : Nat) (inp : Bytes) : Option (Nat × Bytes) :=
  if nib = 15 then readRun (nib + base) inp else some (nib + base, inp)

/-- One sequence read: the output so far, and the input left. -/
inductive Step
  | bad (out : Bytes)
  | done (out : Bytes)
  | next (out rest : Bytes)

/-- One turn of the decoder; `out` is everything from the window's start on, and
`limit` where `dst_end` is in it. -/
def readSequence (limit : Nat) (out : Bytes) : Bytes → Step
  | [] => .bad out
  | token :: inp =>
    match readLength (token.toNat >>> 4) 0 inp with
    | none => .bad out
    | some (lit, inp) =>
      if lit > inp.length ∨ lit > limit - out.length then .bad out
      else
        let out := out ++ inp.take lit
        match inp.drop lit with
        | [] => .done out
        | [_] => .bad out
        | lo :: hi :: inp =>
          let off := lo.toNat ||| hi.toNat <<< 8
          if off = 0 ∨ off > out.length then .bad out
          else
            match readLength (token.toNat &&& 15) 4 inp with
            | none => .bad out
            | some (ml, inp) =>
              if ml > limit - out.length then .bad out
              else
                let out := copyMatch out off ml
                if inp = [] then .bad out else .next out inp

theorem readRun_length (h : readRun len inp = some (n, rest)) : rest.length < inp.length := by
  induction inp generalizing len with
  | nil => simp [readRun] at h
  | cons b inp ih =>
    rw [readRun] at h
    split at h
    · have := ih h
      simp only [List.length_cons]
      omega
    · simp only [Option.some.injEq, Prod.mk.injEq] at h
      obtain ⟨-, rfl⟩ := h
      simp

theorem readLength_length (h : readLength nib base inp = some (n, rest)) :
    rest.length ≤ inp.length := by
  rw [readLength] at h
  split at h
  · exact Nat.le_of_lt (readRun_length h)
  · simp only [Option.some.injEq, Prod.mk.injEq] at h
    obtain ⟨-, rfl⟩ := h
    exact Nat.le_refl _

/-- Every sequence takes input. -/
theorem readSequence_length (h : readSequence limit out inp = .next out' rest) :
    rest.length < inp.length := by
  cases inp with
  | nil => simp [readSequence] at h
  | cons token inp =>
    rw [readSequence] at h
    split at h
    · cases h
    · rename_i lit inp1 hlit
      split at h
      · cases h
      · dsimp only at h
        split at h
        · cases h
        · cases h
        · rename_i lo hi inp2 hdrop
          split at h
          · cases h
          · split at h
            · cases h
            · rename_i ml inp3 hml
              split at h
              · cases h
              · split at h
                · cases h
                · cases h
                  have h1 := readLength_length hlit
                  have h2 := readLength_length hml
                  have h3 := congrArg List.length hdrop
                  simp only [List.length_drop, List.length_cons] at h3 ⊢
                  omega

/-- Whether the block decodes, and everything from the window's start on. -/
def decodeLoop (limit : Nat) (out inp : Bytes) : Bool × Bytes :=
  match _h : readSequence limit out inp with
  | .bad out => (false, out)
  | .done out => (true, out)
  | .next out rest => decodeLoop limit out rest
termination_by inp.length
decreasing_by exact readSequence_length _h

/-- The decoded length, `none` for -1, and what was written from `dst` on. -/
def pnetLz4Decode (block window : Bytes) (room : Nat) : Option Nat × Bytes :=
  if block = [] then (none, [])
  else
    let (ok, out) := decodeLoop (window.length + room) window block
    let written := out.drop window.length
    (if ok then some written.length else none, written)

end WebAdf.Firmware

/-!
# What the decoder makes of the encoder's sequences

A length run reads back as its length, a sequence as its literals and its match,
and the last sequence ends the block.
-/

namespace WebAdf.Firmware

open Lib

-- ---------------------------------------------------------------------------
-- Lengths
-- ---------------------------------------------------------------------------

theorem length_putLen (k : Nat) : (putLen k).length = k / 255 + 1 := by
  fun_induction putLen k with
  | case1 k h ih => rw [List.length_cons, ih]; omega
  | case2 k h => rw [List.length_singleton]; omega

theorem length_lengthRun (x : Nat) : (lengthRun x).length = extlen x := by
  rw [lengthRun, extlen]
  split
  · rw [length_putLen, if_neg (by omega)]
  · rw [if_pos (by omega), List.length_nil]

theorem readRun_putLen (len k : Nat) (rest : Bytes) :
    readRun len (putLen k ++ rest) = some (len + k, rest) := by
  fun_induction putLen k generalizing len with
  | case1 k h ih =>
    rw [List.cons_append, readRun, if_pos rfl, ih, show len + 255 + (k - 255) = len + k by omega]
  | case2 k h =>
    have hk : (UInt8.ofNat k).toNat = k := by
      rw [UInt8.toNat_ofNat']
      omega
    have hne : UInt8.ofNat k ≠ 255 := by
      intro he
      rw [he] at hk
      exact h (by rw [← hk]; decide)
    rw [List.cons_append, readRun, if_neg hne, hk, List.nil_append]

theorem readLength_lengthRun (x base : Nat) (rest : Bytes) :
    readLength (nibble x) base (lengthRun x ++ rest) = some (x + base, rest) := by
  rw [readLength, nibble, lengthRun]
  by_cases hx : 15 ≤ x
  · rw [if_pos hx, if_pos hx, if_pos rfl, readRun_putLen]
    congr 2
    omega
  · rw [if_neg hx, if_neg hx, if_neg (by omega), List.nil_append]

theorem nibble_lt (x : Nat) : nibble x < 16 := by
  rw [nibble]
  split
  · decide
  · omega

theorem token_nibbles (ha : a < 16) (hb : b < 16) :
    (UInt8.ofNat (a <<< 4 ||| b)).toNat >>> 4 = a ∧ (UInt8.ofNat (a <<< 4 ||| b)).toNat &&& 15 = b := by
  have hall : ∀ a < 16, ∀ b < 16, (UInt8.ofNat (a <<< 4 ||| b)).toNat >>> 4 = a ∧
      (UInt8.ofNat (a <<< 4 ||| b)).toNat &&& 15 = b := by decide
  exact hall a ha b hb

theorem offset_bytes (h : off < 65536) :
    (UInt8.ofNat off).toNat ||| (UInt8.ofNat (off >>> 8)).toNat <<< 8 = off := by
  rw [UInt8.toNat_ofNat', UInt8.toNat_ofNat', Nat.or_comm,
    ← Nat.shiftLeft_add_eq_or_of_lt (Nat.mod_lt _ (by decide)), Nat.shiftLeft_eq,
    Nat.shiftRight_eq_div_pow]
  omega

-- ---------------------------------------------------------------------------
-- Sequences
-- ---------------------------------------------------------------------------

theorem length_putSequence (lits : Bytes) (off ml : Nat) :
    (putSequence lits off ml).length = 3 + lits.length + extlen lits.length + extlen ml := by
  simp only [putSequence, List.length_cons, List.length_append, length_lengthRun]
  omega

theorem length_putLast (lits : Bytes) :
    (putLast lits).length = 1 + lits.length + extlen lits.length := by
  simp only [putLast, List.length_cons, List.length_append, length_lengthRun]
  omega

theorem readSequence_putSequence (hoff : 0 < off ∧ off ≤ out.length + lits.length)
    (hlt : off < 65536) (hroom : out.length + lits.length + (ml + 4) ≤ limit) (hrest : rest ≠ []) :
    readSequence limit out (putSequence lits off ml ++ rest) =
      .next (copyMatch (out ++ lits) off (ml + 4)) rest := by
  obtain ⟨hlit, hml⟩ := token_nibbles (nibble_lt lits.length) (nibble_lt ml)
  rw [putSequence, List.cons_append, readSequence, hlit, List.append_assoc, readLength_lengthRun,
    Nat.add_zero]
  dsimp only
  rw [if_neg (by simp; omega), List.append_assoc, List.take_left' rfl, List.drop_left' rfl,
    List.cons_append, List.cons_append]
  dsimp only
  rw [offset_bytes hlt, if_neg (by simp; omega), hml, readLength_lengthRun]
  dsimp only
  rw [if_neg (by simp; omega), if_neg hrest]

theorem readSequence_putLast (hroom : out.length + lits.length ≤ limit) :
    readSequence limit out (putLast lits) = .done (out ++ lits) := by
  obtain ⟨hlit, -⟩ := token_nibbles (nibble_lt lits.length) (show 0 < 16 by decide)
  rw [Nat.or_zero] at hlit
  rw [putLast, readSequence, hlit, readLength_lengthRun, Nat.add_zero]
  dsimp only
  rw [if_neg (by simp; omega), List.take_of_length_le (Nat.le_refl _),
    List.drop_of_length_le (Nat.le_refl _)]

theorem decodeLoop_next (h : readSequence limit out inp = .next out' rest) :
    decodeLoop limit out inp = decodeLoop limit out' rest := by
  rw [decodeLoop]
  split
  · simp_all
  · simp_all
  · simp_all

theorem decodeLoop_done (h : readSequence limit out inp = .done out') :
    decodeLoop limit out inp = (true, out') := by
  rw [decodeLoop]
  split
  · simp_all
  · simp_all
  · simp_all

end WebAdf.Firmware
