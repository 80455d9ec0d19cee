import WebAdf.Constants

/-!
# SHA-256

The digest by blocks of 64 bytes, fed in pieces of any length: how the bytes were cut
makes no difference.
-/

namespace WebAdf.Firmware

def sha256K : List UInt32 := [
  0x428a2f98, 0x71374491, 0xb5c0fbcf, 0xe9b5dba5, 0x3956c25b, 0x59f111f1, 0x923f82a4, 0xab1c5ed5,
  0xd807aa98, 0x12835b01, 0x243185be, 0x550c7dc3, 0x72be5d74, 0x80deb1fe, 0x9bdc06a7, 0xc19bf174,
  0xe49b69c1, 0xefbe4786, 0x0fc19dc6, 0x240ca1cc, 0x2de92c6f, 0x4a7484aa, 0x5cb0a9dc, 0x76f988da,
  0x983e5152, 0xa831c66d, 0xb00327c8, 0xbf597fc7, 0xc6e00bf3, 0xd5a79147, 0x06ca6351, 0x14292967,
  0x27b70a85, 0x2e1b2138, 0x4d2c6dfc, 0x53380d13, 0x650a7354, 0x766a0abb, 0x81c2c92e, 0x92722c85,
  0xa2bfe8a1, 0xa81a664b, 0xc24b8b70, 0xc76c51a3, 0xd192e819, 0xd6990624, 0xf40e3585, 0x106aa070,
  0x19a4c116, 0x1e376c08, 0x2748774c, 0x34b0bcb5, 0x391c0cb3, 0x4ed8aa4a, 0x5b9cca4f, 0x682e6ff3,
  0x748f82ee, 0x78a5636f, 0x84c87814, 0x8cc70208, 0x90befffa, 0xa4506ceb, 0xbef9a3f7, 0xc67178f2]

def ror (x n : UInt32) : UInt32 := (x >>> n) ||| (x <<< (32 - n))

/-- The eight words of the state. -/
structure ShaWords where
  a : UInt32
  b : UInt32
  c : UInt32
  d : UInt32
  e : UInt32
  f : UInt32
  g : UInt32
  h : UInt32
  deriving DecidableEq

/-- `buf` has the bytes of a block not yet whole. -/
structure Sha256 where
  h : ShaWords
  len : UInt64
  buf : Bytes
  deriving DecidableEq

def blockWords : Nat → Bytes → List UInt32
  | 0, _ => []
  | n + 1, p =>
    ((p.getD 0 0).toUInt32 <<< 24 ||| (p.getD 1 0).toUInt32 <<< 16 ||| (p.getD 2 0).toUInt32 <<< 8 |||
      (p.getD 3 0).toUInt32) :: blockWords n (p.drop 4)

/-- The schedule, its last word first. -/
def schedule : Nat → List UInt32 → List UInt32
  | 0, w => w
  | n + 1, w =>
    let s0 := ror (w.getD 14 0) 7 ^^^ ror (w.getD 14 0) 18 ^^^ (w.getD 14 0 >>> 3)
    let s1 := ror (w.getD 1 0) 17 ^^^ ror (w.getD 1 0) 19 ^^^ (w.getD 1 0 >>> 10)
    schedule n ((w.getD 15 0 + s0 + w.getD 6 0 + s1) :: w)

def shaRound (s : ShaWords) (k w : UInt32) : ShaWords :=
  let t1 := s.h + (ror s.e 6 ^^^ ror s.e 11 ^^^ ror s.e 25) + ((s.e &&& s.f) ^^^ (~~~s.e &&& s.g)) + k + w
  let t2 := (ror s.a 2 ^^^ ror s.a 13 ^^^ ror s.a 22) + ((s.a &&& s.b) ^^^ (s.a &&& s.c) ^^^ (s.b &&& s.c))
  { a := t1 + t2, b := s.a, c := s.b, d := s.c, e := s.d + t1, f := s.e, g := s.f, h := s.g }

def shaRounds (s : ShaWords) : List UInt32 → List UInt32 → ShaWords
  | k :: ks, w :: ws => shaRounds (shaRound s k w) ks ws
  | _, _ => s

namespace Sha256

def block (s : ShaWords) (p : Bytes) : ShaWords :=
  let t := shaRounds s sha256K (schedule 48 (blockWords 16 p).reverse).reverse
  { a := s.a + t.a, b := s.b + t.b, c := s.c + t.c, d := s.d + t.d
    e := s.e + t.e, f := s.f + t.f, g := s.g + t.g, h := s.h + t.h }

def init : Sha256 where
  h := ⟨0x6a09e667, 0xbb67ae85, 0x3c6ef372, 0xa54ff53a, 0x510e527f, 0x9b05688c, 0x1f83d9ab, 0x5be0cd19⟩
  len := 0
  buf := []

/-- The loop of `update`, `n` pieces at most: as much as the block lacks. -/
def absorb : Nat → Sha256 → Bytes → Sha256
  | 0, s, _ => s
  | n + 1, s, p =>
    if p = [] then s
    else
      let take := min (64 - s.buf.length) p.length
      let buf := s.buf ++ p.take take
      absorb n (if buf.length = 64 then { s with h := block s.h buf, buf := [] } else { s with buf := buf }) (p.drop take)

def update (s : Sha256) (p : Bytes) : Sha256 :=
  absorb p.length { s with len := s.len + UInt64.ofNat p.length } p

def wordBytes (x : UInt32) : Bytes := [(x >>> 24).toUInt8, (x >>> 16).toUInt8, (x >>> 8).toUInt8, x.toUInt8]

def final (s : Sha256) : Bytes :=
  let bits := s.len * 8
  let buf := s.buf ++ [0x80]
  let (h, buf) :=
    if buf.length > 56 then (block s.h (buf ++ List.replicate (64 - buf.length) 0), []) else (s.h, buf)
  let size := (List.range 8).map fun i => (bits >>> UInt64.ofNat (56 - 8 * i)).toUInt8
  let h := block h (buf ++ List.replicate (56 - buf.length) 0 ++ size)
  [h.a, h.b, h.c, h.d, h.e, h.f, h.g, h.h].flatMap wordBytes

def hexByte (n : UInt8) : UInt8 := if n < 10 then 0x30 + n else 0x57 + n

def hex (digest : Bytes) : Bytes := digest.flatMap fun (b : UInt8) => [hexByte (b >>> 4), hexByte (b &&& 15)]

end Sha256

/-- The digest of a whole, in hex. -/
def sha256 (p : Bytes) : Bytes := Sha256.hex (Sha256.init.update p).final

-- ---------------------------------------------------------------------------
-- Pieces
-- ---------------------------------------------------------------------------

namespace Sha256

/-- One byte more. -/
def feed (s : Sha256) (b : UInt8) : Sha256 :=
  if s.buf.length + 1 = 64 then { s with h := block s.h (s.buf ++ [b]), buf := [] } else { s with buf := s.buf ++ [b] }

theorem feed_room (s : Sha256) (p : Bytes) (h : s.buf.length + p.length < 64) :
    p.foldl feed s = { s with buf := s.buf ++ p } := by
  induction p generalizing s with
  | nil => rw [List.foldl_nil, List.append_nil]
  | cons b p ih =>
    rw [List.length_cons] at h
    have hone : feed s b = { s with buf := s.buf ++ [b] } := if_neg (by omega)
    rw [List.foldl_cons, hone, ih]
    · dsimp only
      rw [List.append_assoc, List.singleton_append]
    · dsimp only
      rw [List.length_append, List.length_singleton]
      omega

theorem feed_whole (s : Sha256) (p : Bytes) (hp : p ≠ []) (h : s.buf.length + p.length = 64) :
    p.foldl feed s = { s with h := block s.h (s.buf ++ p), buf := [] } := by
  obtain ⟨q, b, rfl⟩ := List.eq_nil_or_concat p |>.resolve_left hp
  rw [List.concat_eq_append] at h ⊢
  rw [List.length_append, List.length_singleton] at h
  rw [List.foldl_append, feed_room s q (by omega), List.foldl_cons, List.foldl_nil, feed, if_pos]
  · dsimp only
    rw [List.append_assoc]
  · dsimp only
    rw [List.length_append]
    omega

theorem absorb_eq (s : Sha256) (p : Bytes) (hs : s.buf.length < 64) (hn : p.length ≤ n) :
    absorb n s p = p.foldl feed s ∧ (absorb n s p).buf.length < 64 := by
  induction n generalizing s p with
  | zero =>
    rw [List.length_eq_zero_iff.1 (Nat.le_zero.1 hn)]
    exact ⟨rfl, hs⟩
  | succ n ih =>
    rw [absorb]
    by_cases hp : p = []
    · rw [if_pos hp, hp]
      exact ⟨rfl, hs⟩
    · rw [if_neg hp]
      have hpos : 0 < p.length := List.length_pos_iff.2 hp
      obtain ⟨k, hk⟩ : ∃ k, k = min (64 - s.buf.length) p.length := ⟨_, rfl⟩
      have hlen : (p.take k).length = k := by rw [List.length_take]; omega
      have hrest : (p.drop k).length ≤ n := by rw [List.length_drop]; omega
      dsimp only
      rw [← hk]
      conv =>
        enter [1, 2]
        rw [← List.take_append_drop k p, List.foldl_append]
      by_cases hfull : (s.buf ++ p.take k).length = 64
      · rw [if_pos hfull]
        rw [List.length_append] at hfull
        rw [feed_whole s (p.take k) (List.ne_nil_of_length_pos (by omega)) (by omega)]
        exact ih _ _ (Nat.zero_lt_succ _) hrest
      · rw [if_neg hfull]
        rw [List.length_append] at hfull
        rw [feed_room s (p.take k) (by omega)]
        refine ih _ _ ?_ hrest
        dsimp only
        rw [List.length_append]
        omega

theorem feed_len (s : Sha256) (p : Bytes) (n : UInt64) :
    p.foldl feed { s with len := n } = { p.foldl feed s with len := n } := by
  induction p generalizing s with
  | nil => rfl
  | cons b p ih =>
    have hone : feed { s with len := n } b = { feed s b with len := n } := by
      unfold feed
      split
      · rfl
      · rfl
    rw [List.foldl_cons, List.foldl_cons, hone, ih]

theorem length_buf_update (s : Sha256) (p : Bytes) (hs : s.buf.length < 64) : (s.update p).buf.length < 64 :=
  (absorb_eq { s with len := s.len + UInt64.ofNat p.length } p hs (Nat.le_refl _)).2

theorem update_append (s : Sha256) (p q : Bytes) (hs : s.buf.length < 64) :
    (s.update p).update q = s.update (p ++ q) := by
  have hone : ∀ (s : Sha256) (p : Bytes), s.buf.length < 64 →
      s.update p = { p.foldl feed s with len := s.len + UInt64.ofNat p.length } := by
    intro s p hs
    rw [update, (absorb_eq { s with len := s.len + UInt64.ofNat p.length } p hs (Nat.le_refl _)).1, feed_len]
  have hp := length_buf_update s p hs
  rw [hone s p hs] at hp ⊢
  rw [hone _ q hp, hone s (p ++ q) hs, feed_len, List.foldl_append, List.length_append, UInt64.ofNat_add, UInt64.add_assoc]

theorem update_nil (s : Sha256) : s.update [] = s := by
  rw [update, List.length_nil, absorb]
  show ({ s with len := s.len + 0 } : Sha256) = s
  rw [UInt64.add_zero]

/-- A digest has 64 digits. -/
theorem length_hex_final (s : Sha256) : (hex s.final).length = 64 := rfl

end Sha256

end WebAdf.Firmware
