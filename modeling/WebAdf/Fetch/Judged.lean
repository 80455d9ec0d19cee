import WebAdf.Fetch.Texts

/-!
# What isPublicAddress says of an address

The special ranges as intervals of the address's value. Both parsers read the
value off every text, and the mask tests are those intervals, so the answer
depends on the address alone. A zone id is refused whatever it follows.
-/

namespace WebAdf.Fetch

open Lib

-- ---------------------------------------------------------------------------
-- The ranges
-- ---------------------------------------------------------------------------

/-- First and last address. -/
def Within (r : Nat × Nat) (n : Nat) : Prop := r.1 ≤ n ∧ n ≤ r.2

def special4 : List (Nat × Nat) :=
  [ (be32 0 0 0 0, be32 0 255 255 255), (be32 10 0 0 0, be32 10 255 255 255), (be32 100 64 0 0, be32 100 127 255 255),
    (be32 127 0 0 0, be32 127 255 255 255), (be32 169 254 0 0, be32 169 254 255 255),
    (be32 172 16 0 0, be32 172 31 255 255), (be32 192 0 0 0, be32 192 0 0 255), (be32 192 0 2 0, be32 192 0 2 255),
    (be32 192 88 99 0, be32 192 88 99 255), (be32 192 168 0 0, be32 192 168 255 255),
    (be32 198 18 0 0, be32 198 19 255 255), (be32 198 51 100 0, be32 198 51 100 255),
    (be32 203 0 113 0, be32 203 0 113 255), (be32 224 0 0 0, be32 239 255 255 255),
    (be32 240 0 0 0, be32 255 255 255 255) ]

def Public4 (n : Nat) : Prop := ∀ r ∈ special4, ¬Within r n

/-- Global unicast. -/
def unicast6 : Nat × Nat := (0x2000 <<< 112, 0x4000 <<< 112 - 1)

def special6 : List (Nat × Nat) :=
  [ (0x20010000 <<< 96, 0x20010200 <<< 96 - 1), (0x20010db8 <<< 96, 0x20010db9 <<< 96 - 1),
    (0x2002 <<< 112, 0x2003 <<< 112 - 1), (0x3fff0 <<< 108, 0x3fff1 <<< 108 - 1) ]

/-- An address that carries an IPv4 address, and the one it carries. -/
def carried (n : Nat) : Option Nat :=
  if n / 2 ^ 32 = 0xffff ∨ n / 2 ^ 32 = 0x64ff9b <<< 64 then some (n % 2 ^ 32) else none

def Public6 (n : Nat) : Prop :=
  match carried n with
  | some v => Public4 v
  | none => Within unicast6 n ∧ ∀ r ∈ special6, ¬Within r n

def Address.Public : Address → Prop
  | .v4 n => Public4 n
  | .v6 n => Public6 n

-- ---------------------------------------------------------------------------
-- Masks
-- ---------------------------------------------------------------------------

theorem or_below (hb : b < 2 ^ k) (a : Nat) : 2 ^ k * a ||| b = 2 ^ k * a + b :=
  (Nat.two_pow_add_eq_or_of_lt hb a).symm

theorem toNat_v4 (ha : a.toNat < 256) (hb : b.toNat < 256) (hc : c.toNat < 256) (hd : d.toNat < 256) :
    (v4 a b c d).toNat = a.toNat * 2 ^ 24 + b.toNat * 2 ^ 16 + c.toNat * 2 ^ 8 + d.toNat := by
  have hshift : ∀ (x : UInt32) (k : UInt32), k.toNat ≤ 24 → x.toNat < 256 → (x <<< k).toNat = 2 ^ k.toNat * x.toNat := by
    intro x k hk hx
    have hpow : (2 : Nat) ^ k.toNat ≤ 2 ^ 24 := Nat.pow_le_pow_right (by decide) hk
    have hlt : 2 ^ k.toNat * x.toNat < 2 ^ 32 := by
      calc 2 ^ k.toNat * x.toNat ≤ 2 ^ 24 * x.toNat := Nat.mul_le_mul_right _ hpow
        _ < 2 ^ 32 := by omega
    rw [UInt32.toNat_shiftLeft, Nat.mod_eq_of_lt (show k.toNat < 32 by omega), Nat.shiftLeft_eq, Nat.mul_comm,
      Nat.mod_eq_of_lt hlt]
  rw [v4, UInt32.toNat_or, UInt32.toNat_or, UInt32.toNat_or, hshift a 24 (by decide) ha, hshift b 16 (by decide) hb,
    hshift c 8 (by decide) hc]
  simp only [UInt32.reduceToNat]
  rw [or_below (by omega), show 2 ^ 24 * a.toNat + 2 ^ 16 * b.toNat = 2 ^ 16 * (2 ^ 8 * a.toNat + b.toNat) by omega,
    or_below (by omega), show 2 ^ 16 * (2 ^ 8 * a.toNat + b.toNat) + 2 ^ 8 * c.toNat =
      2 ^ 8 * (2 ^ 8 * (2 ^ 8 * a.toNat + b.toNat) + c.toNat) by omega, or_below (by omega)]
  omega

theorem toNat_and_mask (n : UInt32) (h : 0 < len) (hle : len ≤ 32) :
    (n &&& v4Mask len).toNat = n.toNat / 2 ^ (32 - len) * 2 ^ (32 - len) := by
  have hk : (UInt32.ofNat (32 - len)).toNat = 32 - len := by
    rw [UInt32.toNat_ofNat_of_lt' (by show 32 - len < 2 ^ 32; omega)]
  have hn := n.toNat_lt
  apply Nat.eq_of_testBit_eq
  intro i
  rw [v4Mask, if_neg (by omega), UInt32.toNat_and, UInt32.toNat_shiftLeft, hk, Nat.mod_eq_of_lt (show 32 - len < 32 by omega),
    Nat.testBit_and, Nat.testBit_mod_two_pow, Nat.testBit_shiftLeft, Nat.testBit_mul_two_pow, Nat.testBit_div_two_pow,
    show (0xffffffff : UInt32).toNat = 2 ^ 32 - 1 from rfl, Nat.testBit_two_pow_sub_one]
  by_cases hi : 32 - len ≤ i
  · by_cases hlt : i < 32
    · simp [hi, hlt, show i - (32 - len) < 32 by omega, Nat.sub_add_cancel hi]
    · have hbit : n.toNat.testBit i = false :=
        Nat.testBit_lt_two_pow (lt_of_lt_of_le hn (Nat.pow_le_pow_right (by decide) (by omega)))
      simp [hi, hlt, hbit, Nat.sub_add_cancel hi]
  · simp [hi]

/-- The mask test of one range. -/
theorem and_mask_iff (n net : UInt32) (h : 0 < len) (hle : len ≤ 32) (hnet : 2 ^ (32 - len) ∣ net.toNat) :
    (n &&& v4Mask len == net) = true ↔ Within (net.toNat, net.toNat + 2 ^ (32 - len) - 1) n.toNat := by
  have hpos := Nat.two_pow_pos (32 - len)
  have hrange := div_eq_iff_range (v := n.toNat) hnet
  rw [beq_iff_eq, ← UInt32.toNat_inj, toNat_and_mask n h hle, Within]
  constructor
  · intro heq
    have hdiv : n.toNat / 2 ^ (32 - len) = net.toNat / 2 ^ (32 - len) := by
      rw [← heq, Nat.mul_div_cancel _ hpos]
    have := hrange.1 hdiv
    omega
  · intro hw
    rw [hrange.2 (by omega), Nat.div_mul_cancel hnet]

def range4 (block : Cidr4) : Nat × Nat := (block.1.toNat, block.1.toNat + 2 ^ (32 - block.2) - 1)

theorem special4_blocked : special4 = blockedV4.map range4 := by decide

theorem blockedV4_aligned : ∀ block ∈ blockedV4, 0 < block.2 ∧ block.2 ≤ 32 ∧ 2 ^ (32 - block.2) ∣ block.1.toNat := by
  decide

theorem v4Public_iff (n : UInt32) : v4Public n = true ↔ Public4 n.toNat := by
  rw [v4Public, Bool.not_eq_true', List.any_eq_false, Public4, special4_blocked, List.forall_mem_map]
  constructor
  · intro h block hb hw
    obtain ⟨hpos, hle, hnet⟩ := blockedV4_aligned block hb
    exact h block hb ((and_mask_iff n _ hpos hle hnet).2 hw)
  · intro h block hb hmask
    obtain ⟨hpos, hle, hnet⟩ := blockedV4_aligned block hb
    exact h block hb ((and_mask_iff n _ hpos hle hnet).1 hmask)

-- ---------------------------------------------------------------------------
-- Prefixes
-- ---------------------------------------------------------------------------

theorem and_top (x : BitVec 8) (hj : j < 8) :
    x &&& (0x80#8 >>> j) = if x.getMsbD j then 0x80#8 >>> j else 0#8 := by
  have htop : ∀ i, (0x80#8).getLsbD i = decide (i = 7) := by
    intro i
    rw [show 0x80#8 = BitVec.twoPow 8 7 from rfl, BitVec.getLsbD_twoPow]
    simp [eq_comm]
  apply BitVec.eq_of_getLsbD_eq
  intro i hi
  rw [BitVec.getLsbD_and, BitVec.getLsbD_ushiftRight, htop]
  by_cases hij : j + i = 7
  · have hpos : 7 - j = i := by omega
    rw [BitVec.getMsbD_eq_getLsbD, decide_eq_true hj, Bool.true_and, show 8 - 1 - j = i by omega]
    cases x.getLsbD i with
    | true => simp [hij]
    | false => simp
  · rw [decide_eq_false hij, Bool.and_false]
    split
    · rw [BitVec.getLsbD_ushiftRight, htop, decide_eq_false hij]
    · simp

theorem bit_ne : ∀ j < 8, (0x80 >>> UInt8.ofNat j : UInt8) ≠ 0 := by decide

theorem toBitVec_bit : ∀ j < 8, (0x80 >>> UInt8.ofNat j : UInt8).toBitVec = 0x80#8 >>> j := by decide

theorem and_bit (x : UInt8) (hj : j < 8) :
    x &&& (0x80 >>> UInt8.ofNat j) = if x.toBitVec.getMsbD j then 0x80 >>> UInt8.ofNat j else 0 := by
  apply UInt8.toBitVec_inj.mp
  rw [UInt8.toBitVec_and, toBitVec_bit j hj, and_top _ hj]
  split
  · rw [toBitVec_bit j hj]
  · rfl

theorem and_bit_iff (x y : UInt8) (hj : j < 8) :
    (x &&& (0x80 >>> UInt8.ofNat j) == y &&& (0x80 >>> UInt8.ofNat j)) = true ↔
      x.toBitVec.getMsbD j = y.toBitVec.getMsbD j := by
  rw [beq_iff_eq, and_bit x hj, and_bit y hj]
  cases x.toBitVec.getMsbD j <;> cases y.toBitVec.getMsbD j <;> simp [bit_ne j hj, (bit_ne j hj).symm]

/-- A prefix filled up with zeros. -/
def padded (pre : Bytes) : Bytes := pre ++ List.replicate (16 - pre.length) 0

theorem getD_padded (pre : Bytes) (i : Nat) : (padded pre).getD i 0 = pre.getD i 0 := by
  rw [padded, List.getD_eq_getElem?_getD, List.getD_eq_getElem?_getD, List.getElem?_append]
  split
  · rfl
  · rename_i h
    rw [List.getElem?_replicate, List.getElem?_eq_none (by omega)]
    split <;> rfl

theorem prefixMatch_iff (pre : Bytes) (bits : Nat) (hlen : b.length = 16) (hpre : pre.length ≤ 16) (hbits : bits ≤ 128) :
    prefixMatch b pre bits = true ↔ beNat b / 2 ^ (128 - bits) = beNat (padded pre) / 2 ^ (128 - bits) := by
  have hpad : (padded pre).length = 16 := by
    rw [padded, List.length_append, List.length_replicate]
    omega
  have hb := beNat_lt b
  have hp := beNat_lt (padded pre)
  rw [hlen] at hb
  rw [hpad] at hp
  rw [div_eq_iff_testBit hb hp hbits, prefixMatch, List.all_eq_true]
  have hbit : ∀ i < bits, (b.getD (i / 8) 0 &&& (0x80 >>> UInt8.ofNat (i % 8)) ==
      pre.getD (i / 8) 0 &&& (0x80 >>> UInt8.ofNat (i % 8))) = true ↔
      (beNat b).testBit (128 - 1 - i) = (beNat (padded pre)).testBit (128 - 1 - i) := by
    intro i hi
    have htest := testBit_beNat b (b := i) (by omega)
    have htest' := testBit_beNat (padded pre) (b := i) (by omega)
    rw [hlen] at htest
    rw [hpad] at htest'
    rw [show 128 - 1 - i = 8 * 16 - 1 - i from rfl, htest, htest', bitAt, bitAt, getD_padded]
    exact and_bit_iff _ _ (Nat.mod_lt _ (by decide))
  exact ⟨fun h i hi => (hbit i hi).1 (h i (List.mem_range.2 hi)),
    fun h i hi => (hbit i (List.mem_range.1 hi)).2 (h i (List.mem_range.1 hi))⟩

theorem beNat_quad (a b c d : UInt8) : beNat [a, b, c, d] = be32 a b c d := by
  simp only [beNat, List.foldl_cons, List.foldl_nil, be32]
  omega

theorem toNat_embeddedV4 (hlen : b.length = 16) : (embeddedV4 b).toNat = beNat b % 2 ^ 32 := by
  obtain ⟨front, w, x, y, z, rfl, hfront⟩ : ∃ front w x y z, b = front ++ [w, x, y, z] ∧ front.length = 12 := by
    have hdrop : (b.drop 12).length = 4 := by
      rw [List.length_drop, hlen]
    match hb : b.drop 12, hdrop with
    | [w, x, y, z], _ => exact ⟨b.take 12, w, x, y, z, by rw [← hb, List.take_append_drop], by simp [hlen]⟩
  have hget : ∀ i, (front ++ [w, x, y, z]).getD (12 + i) 0 = [w, x, y, z].getD i 0 := by
    intro i
    rw [List.getD_append_right _ _ _ _ (by omega), hfront, Nat.add_sub_cancel_left]
  have hword : ∀ u : UInt8, u.toUInt32.toNat < 256 := fun u => by
    rw [UInt8.toNat_toUInt32]
    exact u.toNat_lt
  rw [embeddedV4, show 13 = 12 + 1 from rfl, show 14 = 12 + 2 from rfl, show 15 = 12 + 3 from rfl, hget 1, hget 2, hget 3,
    show (front ++ [w, x, y, z]).getD 12 0 = w from hget 0, toNat_v4 (hword _) (hword _) (hword _) (hword _), beNat_append,
    beNat_quad]
  have hlt := be32_lt w x y z
  rw [show [w, x, y, z].length = 4 from rfl, show (256 : Nat) ^ 4 = 2 ^ 32 by decide, Nat.mul_add_mod, Nat.mod_eq_of_lt hlt, be32]
  simp only [UInt8.toNat_toUInt32, List.getD_cons_succ, List.getD_cons_zero]

def range6 (block : Bytes × Nat) : Nat × Nat :=
  (beNat (padded block.1), beNat (padded block.1) + 2 ^ (128 - block.2) - 1)

theorem special6_blocked : special6 = blockedV6.map range6 := by decide

theorem unicast6_block : unicast6 = range6 ([0x20], 3) := by decide

theorem blockedV6_aligned : ∀ block ∈ ([0x20], 3) :: blockedV6, block.1.length ≤ 16 ∧ block.2 ≤ 128 ∧
    2 ^ (128 - block.2) ∣ beNat (padded block.1) := by
  decide

theorem prefixMatch_within (block : Bytes × Nat) (hlen : b.length = 16) (hblock : block ∈ ([0x20], 3) :: blockedV6) :
    prefixMatch b block.1 block.2 = true ↔ Within (range6 block) (beNat b) := by
  obtain ⟨hpre, hbits, haligned⟩ := blockedV6_aligned block hblock
  have hpos := Nat.two_pow_pos (128 - block.2)
  rw [prefixMatch_iff _ _ hlen hpre hbits, div_eq_iff_range haligned, range6, Within]
  constructor
  · rintro ⟨hle, hlt⟩
    exact ⟨hle, by omega⟩
  · rintro ⟨hle, hlt⟩
    exact ⟨hle, by omega⟩

theorem carried_iff (hlen : b.length = 16) :
    carried (beNat b) = if prefixMatch b mappedPrefix 96 || prefixMatch b nat64Prefix 96
      then some (beNat b % 2 ^ 32) else none := by
  have hm := prefixMatch_iff mappedPrefix 96 hlen (by decide) (by decide)
  have hn := prefixMatch_iff nat64Prefix 96 hlen (by decide) (by decide)
  rw [show beNat (padded mappedPrefix) / 2 ^ (128 - 96) = 0xffff by decide] at hm
  rw [show beNat (padded nat64Prefix) / 2 ^ (128 - 96) = 0x64ff9b <<< 64 by decide] at hn
  rw [carried]
  congr 1
  rw [Bool.or_eq_true, hm, hn]

theorem v6Public_iff (hlen : b.length = 16) : v6Public b = true ↔ Public6 (beNat b) := by
  rw [v6Public, Public6, carried_iff hlen, ← toNat_embeddedV4 hlen]
  cases hm : prefixMatch b mappedPrefix 96 with
  | true => exact v4Public_iff _
  | false =>
    cases hn : prefixMatch b nat64Prefix 96 with
    | true => exact v4Public_iff _
    | false =>
      have hu := prefixMatch_within ([0x20], 3) hlen (List.mem_cons_self ..)
      rw [← unicast6_block] at hu
      simp only [Bool.false_eq_true, if_false, Bool.or_false]
      rw [special6_blocked, List.forall_mem_map, ← hu]
      have hblocks : (!blockedV6.any fun block => prefixMatch b block.1 block.2) = true ↔
          ∀ block ∈ blockedV6, ¬Within (range6 block) (beNat b) := by
        rw [Bool.not_eq_true', List.any_eq_false]
        exact forall₂_congr fun block hb => not_congr (prefixMatch_within _ hlen (List.mem_cons_of_mem _ hb))
      cases hu' : prefixMatch b [0x20] 3 with
      | true => simpa using hblocks
      | false => simp

-- ---------------------------------------------------------------------------
-- The parsers on a text
-- ---------------------------------------------------------------------------

theorem parseV4_text (q : Quad) : ∃ n, parseV4 q.text = some n ∧ n.toNat = q.value := by
  have hrun := fun (o : UInt8) => octetText_run o.toNat o.toNat_lt
  have hword : ∀ o : UInt8, (UInt32.ofNat o.toNat).toNat = o.toNat := fun o =>
    UInt32.toNat_ofNat_of_lt' (lt_of_lt_of_le o.toNat_lt (by decide))
  have hbyte : ∀ o : UInt8, (UInt32.ofNat o.toNat).toNat < 256 := fun o => by
    rw [hword]
    exact o.toNat_lt
  refine ⟨v4 (UInt32.ofNat q.a.toNat) (UInt32.ofNat q.b.toNat) (UInt32.ofNat q.c.toNat) (UInt32.ofNat q.d.toNat), ?_, ?_⟩
  · rw [parseV4, q.split_text, Quad.octets]
    simp only [List.all_cons, List.all_nil, (hrun q.a).1, (hrun q.b).1, (hrun q.c).1, (hrun q.d).1, Bool.and_self, if_true,
      List.map_cons, List.map_nil, (hrun q.a).2, (hrun q.b).2, (hrun q.c).2, (hrun q.d).2]
    have hle : ∀ o : UInt8, decide (o.toNat > 255) = false := fun o => decide_eq_false (by have := o.toNat_lt; omega)
    simp [hle]
  · rw [toNat_v4 (hbyte _) (hbyte _) (hbyte _) (hbyte _), hword, hword, hword, hword, Quad.value, be32]

theorem quadBytes_text (hn : n.toNat = be32 a b c d) : quadBytes n = [a, b, c, d] := by
  have ha := a.toNat_lt
  have hb := b.toNat_lt
  have hc := c.toNat_lt
  have hd := d.toNat_lt
  have hbyte : ∀ (m : UInt32) (x : UInt8), m.toNat % 256 = x.toNat → m.toUInt8 = x := by
    intro m x h
    rw [← UInt8.toNat_inj, UInt32.toNat_toUInt8]
    exact h
  have hand : ∀ m : UInt32, (m &&& 0xff).toNat = m.toNat % 2 ^ 8 := fun m => by
    rw [UInt32.toNat_and, ← Nat.and_two_pow_sub_one_eq_mod]
    rfl
  have hshift : ∀ k : UInt32, k.toNat < 32 → (n >>> k).toNat = n.toNat / 2 ^ k.toNat := fun k hk => by
    rw [UInt32.toNat_shiftRight, Nat.mod_eq_of_lt hk, Nat.shiftRight_eq_div_pow]
  have h24 := hshift 24 (by decide)
  have h16 := hshift 16 (by decide)
  have h8 := hshift 8 (by decide)
  simp only [UInt32.reduceToNat] at h24 h16 h8
  rw [be32] at hn
  rw [quadBytes, hbyte _ a (by rw [h24, hn]; omega), hbyte _ b (by rw [hand, h16, hn]; omega),
    hbyte _ c (by rw [hand, h8, hn]; omega), hbyte _ d (by rw [hand, hn]; omega)]

theorem groupBytes_be16 (a b : UInt8) : groupBytes (be16 a b) = [a, b] := by
  have ha := a.toNat_lt
  have hb := b.toNat_lt
  have hlow : be16 a b &&& 0xff = b.toNat := by
    rw [show (0xff : Nat) = 2 ^ 8 - 1 from rfl, Nat.and_two_pow_sub_one_eq_mod, be16]
    omega
  have hhigh : be16 a b >>> 8 = a.toNat := by
    rw [Nat.shiftRight_eq_div_pow, be16]
    omega
  rw [groupBytes, hlow, hhigh, UInt8.ofNat_toNat, UInt8.ofNat_toNat]

theorem hexValue_lt (u : UInt16) : (hexValue u).getD 0 < 16 := by
  simp only [hexValue, Bool.and_eq_true, decide_eq_true_eq, UInt16.le_iff_toNat_le, UInt16.reduceToNat]
  split_ifs with hdigit hupper hlower
  · simp only [Option.getD_some]
    omega
  · simp only [Option.getD_some]
    omega
  · simp only [Option.getD_some]
    omega
  · decide

theorem hexNat_lt (h : isHexRun p = true) : hexNat p < 65536 := by
  have hfold : ∀ (p : Units) (n : Nat), p.foldl (fun n u => 16 * n + (hexValue u).getD 0) n < 16 ^ p.length * (n + 1) := by
    intro p
    induction p with
    | nil => intro n; simp
    | cons u p ih =>
      intro n
      have hu := hexValue_lt u
      rw [List.foldl_cons, List.length_cons, pow_succ]
      calc p.foldl (fun n u => 16 * n + (hexValue u).getD 0) (16 * n + (hexValue u).getD 0)
          < 16 ^ p.length * (16 * n + (hexValue u).getD 0 + 1) := ih _
        _ ≤ 16 ^ p.length * (16 * (n + 1)) := Nat.mul_le_mul_left _ (by omega)
        _ = 16 ^ p.length * 16 * (n + 1) := by ring
  have hrun := hfold p 0
  have hpow : (16 : Nat) ^ p.length ≤ 16 ^ 4 := Nat.pow_le_pow_right (by decide) (isHexRun_iff.1 h).2.1
  rw [Nat.zero_add, Nat.mul_one] at hrun
  exact lt_of_lt_of_le hrun hpow

theorem beNat_groupBytes (hw : w < 65536) : beNat (groupBytes w) = w := by
  have hlow : w &&& 0xff = w % 256 := Nat.and_two_pow_sub_one_eq_mod w 8
  rw [groupBytes, hlow, Nat.shiftRight_eq_div_pow]
  simp only [beNat, List.foldl_cons, List.foldl_nil, UInt8.toNat_ofNat']
  omega

/-- The bytes of words spell their number. -/
theorem beNat_words (ws : List Nat) (h : ∀ w ∈ ws, w < 65536) :
    beNat (ws.flatMap groupBytes) = ws.foldl (fun n w => 65536 * n + w) 0 := by
  induction ws using List.reverseRecOn with
  | nil => rfl
  | append_singleton ws w ih =>
    rw [List.flatMap_append, List.flatMap_singleton, beNat_append, List.foldl_append, List.foldl_cons, List.foldl_nil,
      ih fun x hx => h x (List.mem_append_left _ hx), beNat_groupBytes (h w (by simp)),
      show (groupBytes w).length = 2 from rfl, show (256 : Nat) ^ 2 = 65536 by decide]

theorem length_words_bytes (ws : List Nat) : (ws.flatMap groupBytes).length = 2 * ws.length := by
  induction ws with
  | nil => rfl
  | cons w ws ih =>
    rw [List.flatMap_cons, List.length_append, ih, List.length_cons]
    show 2 + _ = _
    omega

def V6Text.bytes (t : V6Text) : Bytes := t.words.flatMap groupBytes

theorem length_words (gs : List Group) (tail : Option Quad) : (words gs tail).length = gs.length + tailGroups tail := by
  rw [words, List.length_append, List.length_map]
  cases tail with
  | none => rfl
  | some q => rfl

theorem V6Text.length_words (t : V6Text) : t.words.length = 8 := by
  cases t with
  | whole gs tail h => rw [words, Fetch.length_words, h]
  | gapped left right tail h =>
    rw [words, List.length_append, List.length_append, Fetch.length_words, Fetch.length_words, List.length_replicate,
      show tailGroups none = 0 from rfl]
    omega

theorem words_lt (gs : List Group) (tail : Option Quad) : ∀ w ∈ words gs tail, w < 65536 := by
  intro w hw
  rcases List.mem_append.1 hw with hw | hw
  · obtain ⟨g, -, rfl⟩ := List.mem_map.1 hw
    exact hexNat_lt g.hex
  · cases tail with
    | none => cases hw
    | some q =>
      have ha := q.a.toNat_lt
      have hb := q.b.toNat_lt
      have hc := q.c.toNat_lt
      have hd := q.d.toNat_lt
      simp only [Option.elim_some, List.mem_cons, List.not_mem_nil, or_false, be16] at hw
      rcases hw with rfl | rfl
      · omega
      · omega

theorem V6Text.words_lt (t : V6Text) : ∀ w ∈ t.words, w < 65536 := by
  cases t with
  | whole gs tail h => exact Fetch.words_lt gs tail
  | gapped left right tail h =>
    intro w hw
    rcases List.mem_append.1 hw with hw | hw
    · rcases List.mem_append.1 hw with hw | hw
      · exact Fetch.words_lt _ _ w hw
      · rw [List.eq_of_mem_replicate hw]
        decide
    · exact Fetch.words_lt _ _ w hw

theorem V6Text.length_bytes (t : V6Text) : t.bytes.length = 16 := by
  rw [bytes, length_words_bytes, t.length_words]

theorem V6Text.beNat_bytes (t : V6Text) : beNat t.bytes = t.value := beNat_words _ t.words_lt

theorem parts_none (gs : List Group) : parts gs none = gs.map (·.digits) := List.append_nil _

theorem words_none (gs : List Group) : words gs none = gs.map (·.value) := List.append_nil _

theorem groupsV6_text (t : V6Text) (h : t.tail = none) : groupsV6 t.text = some t.bytes := by
  have hall : ∀ gs : List Group, (gs.map (·.digits)).all isHexRun = true := fun gs => by
    rw [List.all_map, List.all_eq_true]
    exact fun g _ => g.hex
  cases t with
  | whole gs tail hlen =>
    obtain rfl : tail = none := h
    have hgroups : allGroups (V6Text.whole gs none hlen).text = some (gs.map (·.digits)) := by
      rw [V6Text.text, allGroups, splitGap_whole (part_parts gs none)]
      simp only
      rw [groups_joined (part_parts gs none), parts_none, List.length_map, if_pos (show gs.length = 8 from hlen)]
    rw [groupsV6, hgroups, Option.bind_eq_bind, Option.bind_some, if_pos (hall gs), V6Text.bytes, V6Text.words, words_none,
      List.flatMap_map, List.flatMap_map]
    rfl
  | gapped left right tail hlen =>
    obtain rfl : tail = none := h
    have hgroups : allGroups (V6Text.gapped left right none hlen).text =
        some (left.map (·.digits) ++ List.replicate (8 - left.length - right.length) [0x30] ++ right.map (·.digits)) := by
      rw [V6Text.text, allGroups, splitGap_gapped (part_parts left none) (part_parts right none)]
      simp only
      rw [groups_joined (part_parts left none), groups_joined (part_parts right none), parts_none, parts_none, List.length_map,
        List.length_map, if_pos (by simpa [tailGroups] using hlen)]
    have hzeros : (List.replicate (8 - left.length - right.length) ([0x30] : Units)).all isHexRun = true := by
      rw [List.all_replicate]
      split
      · rfl
      · decide
    rw [groupsV6, hgroups, Option.bind_eq_bind, Option.bind_some, if_pos, V6Text.bytes, V6Text.words, words_none, words_none]
    · rw [List.flatMap_append, List.flatMap_append, List.flatMap_append, List.flatMap_append, List.flatMap_map, List.flatMap_map,
        List.flatMap_map, List.flatMap_map, List.flatMap_replicate, List.flatMap_replicate]
      rfl
    · rw [List.all_append, List.all_append, hall, hall, hzeros]
      rfl

theorem last_joint (sep : UInt16) (h : ps ≠ []) : (ps.flatMap (· ++ [sep])).getLast? = some sep := by
  obtain ⟨qs, p, rfl⟩ := List.eq_nil_or_concat' ps |>.resolve_left h
  rw [List.flatMap_append, List.flatMap_singleton, ← List.append_assoc, List.getLast?_concat]

def zeroGroup : Group := ⟨[0x30], by decide⟩

/-- A text with a dotted tail: what stands before the tail, and the text with two
placeholder groups in the tail's place. -/
theorem V6Text.held (t : V6Text) (h : t.tail = some q) : ∃ front ws, ∃ t' : V6Text,
    t.text = front ++ q.text ∧ front.getLast? = some Fetch.colon ∧ t'.text = front ++ placeholder ∧ t'.tail = none ∧
      t.words = ws ++ [be16 q.a q.b, be16 q.c q.d] ∧ t'.words = ws ++ [0, 0] := by
  have hjoin : ∀ gs : List Group, [Fetch.colon].intercalate (parts gs (some q)) =
      (gs.map (·.digits)).flatMap (· ++ [Fetch.colon]) ++ q.text := fun gs => joined_concat _ _ _
  have hjoin' : ∀ gs : List Group, [Fetch.colon].intercalate (parts (gs ++ [zeroGroup, zeroGroup]) none) =
      (gs.map (·.digits)).flatMap (· ++ [Fetch.colon]) ++ placeholder := fun gs => by
    rw [parts_none, List.map_append, show [zeroGroup, zeroGroup].map (·.digits) = [[0x30]] ++ [[0x30]] from rfl,
      ← List.append_assoc, joined_concat, List.flatMap_append, List.append_assoc]
    rfl
  cases t with
  | whole gs tail hlen =>
    obtain rfl : tail = some q := h
    have hne : gs.map (·.digits) ≠ [] := by
      intro hnil
      rw [List.map_eq_nil_iff.1 hnil] at hlen
      cases hlen
    refine ⟨_, gs.map (·.value), .whole (gs ++ [zeroGroup, zeroGroup]) none ?_, hjoin gs, last_joint _ hne, hjoin' gs, rfl, rfl, ?_⟩
    · rw [List.length_append]
      exact hlen
    · rw [words, words_none, List.map_append]
      rfl
  | gapped left right tail hlen =>
    obtain rfl : tail = some q := h
    have hcount : left.length + right.length + 2 < 8 := hlen
    refine ⟨[Fetch.colon].intercalate (parts left none) ++ Fetch.colon :: Fetch.colon ::
        (right.map (·.digits)).flatMap (· ++ [Fetch.colon]),
      Fetch.words left none ++ List.replicate (8 - left.length - right.length - 2) 0 ++ right.map (·.value),
      .gapped left (right ++ [zeroGroup, zeroGroup]) none ?_, ?_, ?_, ?_, rfl, ?_, ?_⟩
    · rw [List.length_append]
      exact hlen
    · rw [text, hjoin, List.append_assoc, List.cons_append, List.cons_append]
    · cases right with
      | nil => simp
      | cons g gs =>
        rw [List.getLast?_append, List.getLast?_cons_cons, List.getLast?_cons, last_joint _ (by simp)]
        rfl
    · rw [text, hjoin', List.append_assoc, List.cons_append, List.cons_append]
    · rw [words, List.append_assoc, List.append_assoc, List.append_assoc]
      rfl
    · rw [words, words_none (right ++ _), List.map_append, List.length_append, List.append_assoc, List.append_assoc, List.append_assoc]
      rfl

/-- The bytes that the parser reads off a text are those of its value. -/
theorem parseV6_text (t : V6Text) : parseV6 t.text = some t.bytes := by
  rw [parseV6, if_neg t.no_percent]
  cases htail : t.tail with
  | none =>
    have hdot : dot ∉ t.text := t.not_mem (by decide) (by decide) (by decide) (.inr htail)
    have hafter : dot ∉ afterColon t.text := fun h => hdot ((List.rtakeWhile_suffix _ _).subset h)
    rw [if_neg hafter, groupsV6_text t htail]
  | some q =>
    obtain ⟨front, ws, t', htext, hlast, htext', htail', hwords, hwords'⟩ := t.held htail
    have hq : ∀ u ∈ q.text, (u != colon) = true := fun u hu => bne_iff_ne.2 fun h => q.part.colon (h ▸ hu)
    obtain ⟨f, rfl⟩ : ∃ f, front = f ++ [colon] := by
      obtain ⟨f, u, rfl⟩ := List.eq_nil_or_concat' front |>.resolve_left (by rintro rfl; cases hlast)
      rw [List.getLast?_concat, Option.some.injEq] at hlast
      exact ⟨f, by rw [hlast]⟩
    have hafter : afterColon t.text = q.text := by
      rw [afterColon, List.rtakeWhile, htext, List.reverse_append, List.takeWhile_append_of_pos
        (fun u hu => hq u (List.mem_reverse.1 hu)), List.reverse_concat,
        List.takeWhile_cons_of_neg (by simp), List.append_nil, List.reverse_reverse]
    have hupto : uptoColon t.text = f ++ [colon] := by
      rw [uptoColon, List.rdropWhile, htext, List.reverse_append, List.dropWhile_append_of_pos
        (fun u hu => hq u (List.mem_reverse.1 hu)), List.reverse_concat,
        List.dropWhile_cons_of_neg (by simp), List.reverse_cons, List.reverse_reverse]
    obtain ⟨n, hn, hvalue⟩ := parseV4_text q
    have hws : ws.length = 6 := by
      have hlen := t.length_words
      rw [hwords, List.length_append] at hlen
      simpa using hlen
    rw [hafter, if_pos q.dot_mem, hn, hupto, ← htext', groupsV6_text t' htail']
    simp only [Option.bind_eq_bind, Option.bind_some]
    rw [V6Text.bytes, V6Text.bytes, hwords, hwords', List.flatMap_append, List.flatMap_append,
      List.take_left' (by rw [length_words_bytes, hws]), quadBytes_text hvalue, List.flatMap_cons, List.flatMap_singleton,
      groupBytes_be16, groupBytes_be16]
    rfl

-- ---------------------------------------------------------------------------
-- isPublicAddress
-- ---------------------------------------------------------------------------

theorem Denotes.no_bracket (h : Denotes s a) : openBracket ∉ s := by
  cases h with
  | v4 q => exact q.not_mem (by decide) (by decide)
  | v6 t => exact t.not_mem (by decide) (by decide) (by decide) (.inl (by decide))

theorem Zoned.no_bracket (h : Zoned s a) : openBracket ∉ s := by
  cases h with
  | mk t hne hzone =>
    intro hmem
    rcases List.mem_append.1 hmem with hmem | hmem
    · exact (Denotes.v6 t).no_bracket hmem
    · rcases List.mem_cons.1 hmem with hmem | hmem
      · exact absurd hmem (by decide)
      · exact absurd (List.all_eq_true.1 hzone _ hmem) (by decide)

theorem bare_eq (h : openBracket ∉ s) : bare s = s := by
  rw [bare, if_neg]
  rintro ⟨hhead, -⟩
  exact h (List.mem_of_mem_head? hhead)

/-- The answer depends on the address alone. -/
theorem isPublicAddress_iff (h : Denotes s a) : isPublicAddress s = true ↔ a.Public := by
  rw [isPublicAddress, bare_eq h.no_bracket]
  cases h with
  | v4 q =>
    obtain ⟨n, hn, hvalue⟩ := parseV4_text q
    rw [isIP_quad]
    simp only [hn, Option.elim_some]
    rw [v4Public_iff, hvalue, Address.Public]
  | v6 t =>
    have hip := isIP_text t [] rfl nofun
    rw [List.append_nil] at hip
    rw [hip]
    simp only [parseV6_text t, Option.elim_some]
    rw [v6Public_iff t.length_bytes, t.beNat_bytes, Address.Public]

theorem isPublicAddress_zoned (h : Zoned s a) : isPublicAddress s = false := by
  rw [isPublicAddress, bare_eq h.no_bracket]
  cases h with
  | mk t hne hzone =>
    rw [isIP_zoned t hne hzone]
    simp only
    rw [parseV6, if_pos (by simp)]
    rfl

/-- A text called public denotes a public address, brackets aside. -/
theorem isPublicAddress_denotes (h : isPublicAddress s = true) : ∃ a, Denotes (bare s) a ∧ a.Public := by
  have haccepted : isIP (bare s) ≠ 0 := by
    intro h0
    rw [isPublicAddress, h0] at h
    cases h
  have hsame : openBracket ∉ bare s → isPublicAddress (bare s) = true := fun hb => by
    rw [isPublicAddress, bare_eq hb]
    exact h
  obtain ⟨a, ha⟩ | ⟨a, ha⟩ := isIP_accepts haccepted
  · exact ⟨a, ha, (isPublicAddress_iff ha).1 (hsame ha.no_bracket)⟩
  · have hfalse := isPublicAddress_zoned ha
    rw [hsame ha.no_bracket] at hfalse
    cases hfalse

end WebAdf.Fetch
