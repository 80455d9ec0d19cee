import WebAdf.Firmware.PnetMfm
import WebAdf.Firmware.ShiftLaws
import WebAdf.Lib.Clocking

/-!
# What the link's MFM keeps

Encoded bytes decode to themselves whatever follows them, and lack no clock
wherever the encoding starts. The header's fields come back from its bytes.
-/

namespace WebAdf.Firmware

open Lib

theorem mfmByte_bit (hi lo : UInt8) (hj : j < 8) : (mfmByte hi lo).toBitVec.getMsbD j =
    if j % 2 = 0 then hi.toBitVec.getMsbD (j + 1) else lo.toBitVec.getMsbD j := by
  interval_cases j <;> simp [mfmByte, BitVec.getMsbD]

theorem mfmByte_mfmWord (prev : UInt16) (b : UInt8) :
    mfmByte (mfmWord prev b >>> 8).toUInt8 (mfmWord prev b).toUInt8 = b := by
  apply byte_ext
  intro j hj
  rw [mfmByte_bit _ _ hj]
  interval_cases j <;> simp [mfmWord, BitVec.getMsbD]

theorem clocked_mfmWord (prev : UInt16) (b : UInt8) :
    Clocked prev.toUInt8 (mfmWord prev b >>> 8).toUInt8 ∧
      Clocked (mfmWord prev b >>> 8).toUInt8 (mfmWord prev b).toUInt8 := by
  constructor
  · apply UInt8.toBitVec_inj.mp
    ext i hi
    interval_cases i <;> simp [mfmWord] <;> grind
  · apply UInt8.toBitVec_inj.mp
    ext i hi
    interval_cases i <;> simp [mfmWord] <;> grind

@[simp] theorem length_pnetMfmEncode (last : UInt16) (src : Bytes) :
    (pnetMfmEncode last src).1.length = 2 * src.length := by
  induction src generalizing last with
  | nil => rfl
  | cons b src ih =>
    simp only [pnetMfmEncode, List.length_cons, ih]
    omega

/-- A second chunk goes on from the first one's last word. -/
theorem pnetMfmEncode_append (last : UInt16) (a b : Bytes) :
    pnetMfmEncode last (a ++ b) =
      ((pnetMfmEncode last a).1 ++ (pnetMfmEncode (pnetMfmEncode last a).2 b).1,
        (pnetMfmEncode (pnetMfmEncode last a).2 b).2) := by
  induction a generalizing last with
  | nil => rfl
  | cons x a ih => simp only [List.cons_append, pnetMfmEncode, ih]

theorem clockedFrom_pnetMfmEncode (last : UInt16) (src : Bytes) :
    ClockedFrom last.toUInt8 (pnetMfmEncode last src).1 := by
  induction src generalizing last with
  | nil => trivial
  | cons b src ih => exact ⟨(clocked_mfmWord last b).1, (clocked_mfmWord last b).2, ih _⟩

theorem pnetMfmDecode_cons (hi lo : UInt8) (rest : Bytes) (n : Nat) :
    pnetMfmDecode (hi :: lo :: rest) (n + 1) = mfmByte hi lo :: pnetMfmDecode rest n := by
  simp only [pnetMfmDecode, List.range_succ_eq_map, List.map_cons, List.map_map]
  rfl

theorem pnetMfmDecode_encode (last : UInt16) (src rest : Bytes) :
    pnetMfmDecode ((pnetMfmEncode last src).1 ++ rest) src.length = src := by
  induction src generalizing last with
  | nil => rfl
  | cons b src ih =>
    simp only [pnetMfmEncode, List.cons_append, List.length_cons]
    rw [pnetMfmDecode_cons, mfmByte_mfmWord, ih]

-- ---------------------------------------------------------------------------
-- The header
-- ---------------------------------------------------------------------------

@[simp] theorem length_hdrPack (h : PnetHdr) : (hdrPack h).length = pnetHdrBytes := rfl

theorem hdrUnpack_hdrPack (h : PnetHdr) : hdrUnpack (hdrPack h) = (h, true) := by
  obtain ⟨checksum, dataSize, compressedSize, mode, compressed, amigaCtr, picoCtr⟩ := h
  have hc := be16_put checksum.toNat_lt
  have hd := be16_put dataSize.toNat_lt
  have hz := be16_put compressedSize.toNat_lt
  simp [hdrUnpack, hdrPack, put16, get16, hc, hd, hz, be16_put (v := pnetMagic) (by decide)]

@[simp] theorem length_pnetPutHdrToAmiga (h : PnetHdr) :
    (pnetPutHdrToAmiga h).length = 4 + pnetHdrMfmBytes := by
  simp [pnetPutHdrToAmiga, pnetHdrBytes, pnetHdrMfmBytes]

/-- A header and the payload it was made for are accepted, whatever follows. -/
theorem pnetParseHdrToAmiga_put (h : PnetHdr) (pay rest : Bytes)
    (hmode : h.mode = pnetModeEthernet) (hraw : h.compressed = 0)
    (hsize : h.dataSize.toNat = pay.length) (heven : pay.length % 2 = 0)
    (hsum : h.checksum = pnetChecksum pay) :
    pnetParseHdrToAmiga ((pnetMfmEncode 0 (hdrPack h)).1 ++ (pay ++ rest)) true = .ok h := by
  have hlen : (pnetMfmEncode 0 (hdrPack h)).1.length = pnetHdrMfmBytes := by
    simp [pnetHdrBytes, pnetHdrMfmBytes]
  have hdec : pnetMfmDecode ((pnetMfmEncode 0 (hdrPack h)).1 ++ (pay ++ rest)) pnetHdrBytes =
      hdrPack h := by
    rw [← length_hdrPack h]
    exact pnetMfmDecode_encode 0 (hdrPack h) (pay ++ rest)
  have hpay : slice ((pnetMfmEncode 0 (hdrPack h)).1 ++ (pay ++ rest)) pnetHdrMfmBytes
      pay.length = pay := slice_append_at hlen rfl
  have hodd : ¬ (pay.length &&& 1 ≠ 0) := by
    rw [Nat.and_one_is_mod, heven]
    simp
  have htotal : ((pnetMfmEncode 0 (hdrPack h)).1 ++ (pay ++ rest)).length =
      pnetHdrMfmBytes + (pay.length + rest.length) := by
    rw [List.length_append, List.length_append, hlen]
  have hfits : ¬ pnetHdrMfmBytes + (pay.length + rest.length) < pnetHdrMfmBytes := by omega
  have hwhole : ¬ pnetHdrMfmBytes + pay.length > pnetHdrMfmBytes + (pay.length + rest.length) := by
    omega
  simp only [pnetParseHdrToAmiga, pnetParseHdrToAmigaAs, hdec, hdrUnpack_hdrPack, hraw, hsize,
    hmode, hsum, htotal, hfits, hwhole, hodd, ne_eq, not_true_eq_false, if_false, Bool.not_true,
    Bool.false_eq_true, hpay]
  rfl

end WebAdf.Firmware

/-!
# The batch found on the track

A track with one sync word, read from any bit on, shows the sync word at one
distance only; the bytes after it come out whole. The plain iterator reads one
MFM frame back.
-/

namespace WebAdf.Firmware

open Lib

/-- The first sync word is the one found: no earlier bit starts its bits 1 to 31. -/
theorem findSyncFrom_first (hreg : Shifted b 0 bit reg) (hbit : bit ≤ q + 31)
    (hlimit : q + 32 ≤ limit) (hsync : ∀ k < 32, bitAt b (q + k) = syncBit k)
    (hfirst : ∀ p < q, ¬ ∀ k, 1 ≤ k → k < 32 → bitAt b (p + k) = syncBit k) :
    findSyncFrom b limit bit reg = some (q + 32) := by
  fun_induction findSyncFrom b limit bit reg with
  | case1 bit reg hlt reg' hfound =>
    obtain ⟨hmin, heq⟩ := hfound
    obtain ⟨p, rfl⟩ : ∃ p, bit = p + 31 := ⟨bit - 31, by omega⟩
    have hnext : Shifted b 0 (p + 32) 0x44894489 := heq ▸ hreg.step (Nat.zero_le _)
    rcases Nat.lt_or_ge p q with hp | hp
    · exact absurd (fun k h1 h32 => hnext.sync_bits ⟨h1, h32⟩) (hfirst p hp)
    · rw [show p = q by omega]
  | case2 bit reg hlt reg' hno ih =>
    have hnext : Shifted b 0 (bit + 1) reg' := hreg.step (Nat.zero_le _)
    refine ih hnext ?_
    by_contra hpast
    have hq : bit + 1 = q + 32 := by omega
    rw [hq] at hnext
    exact hno ⟨by omega, hnext.eq_sync (Nat.zero_le _) hsync⟩
  | case3 bit reg hge => omega

section
variable {zs : Bytes} {m off q len scan : Nat}

/-- `q` bits into the read, the sync word at `m` comes by for the first time. -/
theorem pnetFindSync_capture (h : Legal zs (· = m)) (hq : q < 8 * zs.length)
    (hat : (off + q) % (8 * zs.length) = 8 * m) (hscan : q ≤ 8 * scan) (hlen : q + 32 ≤ 8 * len) :
    pnetFindSync (capture zs off len) scan = some (q + 32) := by
  obtain ⟨hfit, -⟩ := h.sync m rfl
  rw [pnetFindSync]
  refine findSyncFrom_first (Shifted.reset _ 0) (by omega) ?_ ?_ ?_
  · rw [length_capture]
    split <;> omega
  · intro k hk
    rw [bitAt_capture _ _ (by omega), ← Nat.add_assoc, cyclicBit,
      cyclic_add hat (by omega), h.sync_bits rfl hk]
  · -- an earlier one would be the same mark, less than a turn before
    intro p hp hbits
    obtain ⟨m', rfl, hm⟩ := h.sync_at_mark (p := off + p) (by omega) fun k h1 h32 => by
      have hb := hbits k h1 h32
      rwa [bitAt_capture _ _ (by omega), ← Nat.add_assoc] at hb
    have hd : 8 * zs.length ∣ (off + q) - (off + p) :=
      Nat.dvd_of_mod_eq_zero (Nat.sub_mod_eq_zero_of_mod_eq (hat.trans hm.symm))
    have hle := Nat.le_of_dvd (by omega) hd
    omega

/-- Shifted to the bit after the sync word, the read is the track from there on. -/
theorem pnetShiftLeft_capture (hat : (off + q) % (8 * zs.length) = 8 * m)
    (hn : m + 4 + n ≤ zs.length) (hlen : q + 32 + 8 * n ≤ 8 * len) (hpos : 0 < n) :
    ∃ b valid rest, pnetShiftLeft (capture zs off len) (q + 32) = (b, valid) ∧
      b.take valid = slice zs (m + 4) n ++ rest := by
  rw [pnetShiftLeft, length_capture, if_neg (by omega)]
  dsimp only
  obtain ⟨valid, hvalid⟩ : ∃ v, v = len - (q + 32) / 8 - (if (q + 32) % 8 ≠ 0 then 1 else 0) :=
    ⟨_, rfl⟩
  have hbounds : n ≤ valid ∧ q + 32 + 8 * valid ≤ 8 * len := by
    rw [hvalid]
    split <;> omega
  have hreal : (realign (capture zs off len) (q + 32) valid).length = valid :=
    length_realign (by rw [length_capture]; omega)
  rw [← hvalid]
  refine ⟨_, valid, (realign (capture zs off len) (q + 32) valid).drop n, rfl, ?_⟩
  rw [List.take_append_of_le_length (by omega), List.take_of_length_le (by omega)]
  rw [← List.take_append_drop n (realign (capture zs off len) (q + 32) valid)]
  congr 1
  · apply bytes_ext
    · rw [List.length_take, hreal, length_slice]
      omega
    · intro k hk
      have hkn : k < 8 * n := by rw [List.length_take, hreal] at hk; omega
      have htake : (realign (capture zs off len) (q + 32) valid).take n =
          slice (realign (capture zs off len) (q + 32) valid) 0 n := rfl
      rw [htake, bitAt_slice _ _ hkn, Nat.mul_zero, Nat.zero_add, bitAt_realign _ _ (by omega),
        bitAt_capture _ _ (by omega), bitAt_slice _ _ hkn, cyclicBit,
        show off + (q + 32 + k) = off + q + (32 + k) by omega, cyclic_add hat (by omega),
        show 8 * m + (32 + k) = 8 * (m + 4) + k by omega]
  · rw [List.take_append_drop]

end

end WebAdf.Firmware
