import WebAdf.Firmware.PortalKeeps

/-!
# The page a config is kept in

A check over a page shows one changed byte wherever it covers it. So a page that was
cut, or of which a byte changed, is refused or yields what it held, but where the cut or
the change leaves the check another extent that happens to pass.
-/

namespace WebAdf.Firmware.Portal

open Lib
open FwState (crc32Bytes crcBit)

-- ---------------------------------------------------------------------------
-- The check
-- ---------------------------------------------------------------------------

/-- One bit shifted out, on bit vectors. -/
def crcShift (c : BitVec 32) : BitVec 32 :=
  if c.getLsbD 0 then (c >>> 1) ^^^ 0xedb88320#32 else c >>> 1

theorem crcBit_toBitVec (c : UInt32) : (crcBit c).toBitVec = crcShift c.toBitVec := by
  have hlow : (c &&& 1).toBitVec = BitVec.setWidth 32 (BitVec.ofBool (c.toBitVec.getLsbD 0)) := by
    rw [UInt32.toBitVec_and]
    exact BitVec.and_one_eq_setWidth_ofBool_getLsbD
  rw [crcBit, crcShift, UInt32.toBitVec_xor, UInt32.toBitVec_and, UInt32.toBitVec_sub, hlow]
  cases hbit : c.toBitVec.getLsbD 0 with
  | false => simp
  | true =>
    rw [if_pos rfl]
    rfl

/-- The bit shifted out is the top one of what is left. -/
theorem crcShift_top (c : BitVec 32) : (crcShift c).getLsbD 31 = c.getLsbD 0 := by
  rw [crcShift]
  cases hbit : c.getLsbD 0 with
  | false => simp
  | true =>
    rw [if_pos rfl]
    simp

theorem crcShift_injective {a b : BitVec 32} (h : crcShift a = crcShift b) : a = b := by
  have hlow : a.getLsbD 0 = b.getLsbD 0 := by
    rw [← crcShift_top, ← crcShift_top, h]
  have hrest : a >>> 1 = b >>> 1 := by
    rw [crcShift, crcShift, hlow] at h
    split at h
    · exact (BitVec.xor_left_inj _).mp h
    · exact h
  apply BitVec.eq_of_getLsbD_eq
  rintro (_ | i) hi
  · exact hlow
  · have hat := congrArg (·.getLsbD i) hrest
    simpa [Nat.add_comm] using hat

theorem crcBit_injective {a b : UInt32} (h : crcBit a = crcBit b) : a = b := by
  apply UInt32.toBitVec_inj.mp
  apply crcShift_injective
  rw [← crcBit_toBitVec, ← crcBit_toBitVec, h]

/-- A changed byte shows in the check. -/
theorem crc32Bytes_changed (xs ys : Bytes) {x y : UInt8} (hx : x ≠ y) :
    crc32Bytes (xs ++ x :: ys) ≠ crc32Bytes (xs ++ y :: ys) := by
  rintro heq
  refine foldl_changed ?_ ?_ xs ys hx 0xffffffff (UInt32.not_inj.mp heq)
  · rintro b c c' h
    iterate 8 replace h := crcBit_injective h
    exact (UInt32.xor_left_inj _).mp h
  · rintro c b b' h
    iterate 8 replace h := crcBit_injective h
    have hbyte := (UInt32.xor_right_inj _).mp h
    exact UInt8.toUInt32_inj.mp hbyte

theorem crc32Bytes_set {p : Bytes} (h : i < p.length) (hb : p[i] ≠ b) :
    crc32Bytes (p.set i b) ≠ crc32Bytes p := by
  have hp : p.take i ++ p[i] :: p.drop (i + 1) = p := by
    rw [← List.drop_eq_getElem_cons h, List.take_append_drop]
  have hchanged := crc32Bytes_changed (p.take i) (p.drop (i + 1)) (Ne.symm hb)
  rw [hp] at hchanged
  rwa [List.set_eq_take_append_cons_drop, if_pos h]

-- ---------------------------------------------------------------------------
-- The parts of a page
-- ---------------------------------------------------------------------------

/-- The values at their lengths. -/
def unpacked (nSsid nPass nCode : Nat) (fields : Bytes) : DeviceConfig where
  ssid := array (slice fields 0 nSsid) (configSsidMax + 1)
  pass := array (slice fields nSsid nPass) (configPassMax + 1)
  code := array (slice fields (nSsid + nPass) nCode) (configCodeMax + 1)

/-- A page with room for its values, whatever its magic, its version and its check. -/
def parts (magic : Bytes) (v nSsid nPass nCode : UInt8) (fields check tail : Bytes) : Bytes :=
  magic ++ ([v, nSsid, nPass, nCode] ++ (fields ++ (check ++ tail)))

/-- The lengths of a page's parts. -/
structure Fits (magic : Bytes) (nSsid nPass nCode : UInt8) (fields check : Bytes) : Prop where
  magic : magic.length = 4
  ssid : nSsid.toNat ≤ configSsidMax
  pass : nPass.toNat ≤ configPassMax
  code : nCode.toNat ≤ configCodeMax
  fields : fields.length = nSsid.toNat + nPass.toNat + nCode.toNat
  check : check.length = 4

theorem getD_parts (v nSsid nPass nCode : UInt8) (fields check tail : Bytes) (h : magic.length = 4) (i : Nat) :
    (parts magic v nSsid nPass nCode fields check tail).getD (4 + i) 0 =
      ([v, nSsid, nPass, nCode] ++ (fields ++ (check ++ tail))).getD i 0 := by
  rw [parts, List.getD_append_right _ _ _ _ (by rw [h]; omega), h, Nat.add_sub_cancel_left]

theorem payload_parts (h : Fits magic nSsid nPass nCode fields check) (v : UInt8) (tail : Bytes) :
    slice (parts magic v nSsid nPass nCode fields check tail) 4 (1 + 3 + nSsid.toNat + nPass.toNat + nCode.toNat) =
      [v, nSsid, nPass, nCode] ++ fields := by
  rw [parts, ← List.append_assoc [v, nSsid, nPass, nCode]]
  refine slice_append_at h.magic ?_
  simp only [List.length_append, h.fields, List.length_cons, List.length_nil]
  omega

theorem pageLoad_parts {v : UInt8} {tail : Bytes} (h : Fits magic nSsid nPass nCode fields check) :
    pageLoad (parts magic v nSsid nPass nCode fields check tail) =
      if le32 magic = configMagic ∧ v = configVersion ∧
          (crc32Bytes ([v, nSsid, nPass, nCode] ++ fields)).toNat = le32 check then
        some (unpacked nSsid.toNat nPass.toNat nCode.toNat fields)
      else none := by
  obtain ⟨p, hp⟩ : ∃ p, p = parts magic v nSsid nPass nCode fields check tail := ⟨_, rfl⟩
  have hlen : p.length = 12 + (nSsid.toNat + nPass.toNat + nCode.toNat) + tail.length := by
    rw [hp, parts]
    simp only [List.length_append, h.magic, h.fields, h.check, List.length_cons, List.length_nil]
    omega
  have hmagic : le32 p = le32 magic := by
    rw [hp, parts]
    exact le32_append (by rw [h.magic]) _
  have hslice : ∀ off n, off + n ≤ fields.length → slice p (8 + off) n = slice fields off n := by
    rintro off n hn
    rw [hp, parts, ← List.append_assoc, slice_append_right (by simp [h.magic]),
      slice_append_left (by simp [h.magic]; omega)]
    simp [h.magic]
  have hcheck : le32 (p.drop (8 + (nSsid.toNat + nPass.toNat + nCode.toNat))) = le32 check := by
    have hfront : (magic ++ ([v, nSsid, nPass, nCode] ++ fields)).length = 8 + (nSsid.toNat + nPass.toNat + nCode.toNat) := by
      simp only [List.length_append, h.magic, h.fields, List.length_cons, List.length_nil]
      omega
    have hparts : p = (magic ++ ([v, nSsid, nPass, nCode] ++ fields)) ++ (check ++ tail) := by
      rw [hp, parts, List.append_assoc, List.append_assoc]
    rw [hparts, List.drop_left' hfront, le32_append (by rw [h.check])]
  have hpayload : slice p 4 (1 + 3 + nSsid.toNat + nPass.toNat + nCode.toNat) = [v, nSsid, nPass, nCode] ++ fields := by
    rw [hp, payload_parts h]
  have hat := getD_parts v nSsid nPass nCode fields check tail h.magic
  rw [← hp] at hat
  have hver : p.getD 4 0 = v := hat 0
  have hls : p.getD 5 0 = nSsid := hat 1
  have hlp : p.getD 6 0 = nPass := hat 2
  have hlc : p.getD 7 0 = nCode := hat 3
  have hssid := h.ssid
  have hpass := h.pass
  have hcode := h.code
  rw [← hp, pageLoad, hmagic, hver, hls, hlp, hlc]
  have hroom : ¬ p.length < configHeaderLen + 4 := by
    rw [hlen, configHeaderLen]
    omega
  have hoff : configHeaderLen + nSsid.toNat + nPass.toNat + nCode.toNat = 8 + (nSsid.toNat + nPass.toNat + nCode.toNat) := by
    rw [configHeaderLen]
    omega
  have hfits : ¬ p.length < 8 + (nSsid.toNat + nPass.toNat + nCode.toNat) + 4 := by
    rw [hlen]
    omega
  by_cases hm : le32 magic = configMagic
  · rw [if_neg (by simp [hm, hroom])]
    by_cases hv : v = configVersion
    · rw [if_neg (not_not.mpr hv), if_neg (by simp [hssid, hpass, hcode]), hoff, if_neg hfits, hpayload, hcheck]
      by_cases hcrc : (crc32Bytes ([v, nSsid, nPass, nCode] ++ fields)).toNat = le32 check
      · rw [if_neg (not_not.mpr hcrc), if_pos ⟨hm, hv, hcrc⟩, unpacked, configHeaderLen]
        have hfields := h.fields
        rw [show 8 + nSsid.toNat + nPass.toNat = 8 + (nSsid.toNat + nPass.toNat) from Nat.add_assoc .., ← hslice _ _ (by omega),
          ← hslice _ _ (by omega), ← hslice _ _ (by omega)]
      · rw [if_pos hcrc, if_neg (fun hall => hcrc hall.2.2)]
    · rw [if_pos hv, if_neg (fun hall => hv hall.2.1)]
  · rw [if_pos (by simp [hm]), if_neg (fun hall => hm hall.1)]

/-- The bytes behind the magic that a page says its check is over. -/
def extent (page : Bytes) : Nat :=
  1 + 3 + (page.getD 5 0).toNat + (page.getD 6 0).toNat + (page.getD 7 0).toNat

def Passes (page : Bytes) : Prop :=
  (crc32Bytes (slice page 4 (extent page))).toNat = le32 (page.drop (4 + extent page))

theorem pageLoad_some {page : Bytes} (h : pageLoad page = some cfg) :
    le32 page = configMagic ∧ page.getD 4 0 = configVersion ∧ (page.getD 5 0).toNat ≤ configSsidMax ∧
      (page.getD 6 0).toNat ≤ configPassMax ∧ (page.getD 7 0).toNat ≤ configCodeMax ∧ Passes page := by
  rw [pageLoad] at h
  split at h
  · cases h
  · rename_i hmagic
    split at h
    · cases h
    · rename_i hver
      dsimp only at h
      split at h
      · cases h
      · rename_i hlens
        split at h
        · cases h
        · split at h
          · cases h
          · rename_i hcrc
            simp only [Bool.or_eq_true, decide_eq_true_eq, not_or, not_not, Nat.not_lt] at hmagic hlens
            refine ⟨hmagic.2, not_not.mp hver, hlens.1.1, hlens.1.2, hlens.2, ?_⟩
            rw [Passes, extent]
            refine (not_not.mp hcrc).trans ?_
            rw [configHeaderLen]
            congr 2
            omega

/-- No byte of a good page's header is an erased one. -/
theorem head_of_pageLoad {page : Bytes} (h : pageLoad page = some cfg) (hi : i < configHeaderLen) :
    page.getD i 0 ≠ 0xff := by
  obtain ⟨hmagic, hver, hssid, hpass, hcode, -⟩ := pageLoad_some h
  rintro herased
  have hbyte : (page.getD i 0).toNat = 255 := by
    rw [herased]
    rfl
  have h0 := (page.getD 0 0).toNat_lt
  have h1 := (page.getD 1 0).toNat_lt
  have h2 := (page.getD 2 0).toNat_lt
  have h3 := (page.getD 3 0).toNat_lt
  rw [le32, configMagic] at hmagic
  rw [configHeaderLen] at hi
  rw [configSsidMax] at hssid
  rw [configPassMax] at hpass
  rw [configCodeMax] at hcode
  obtain rfl | rfl | rfl | rfl | rfl | rfl | rfl | rfl :
      i = 0 ∨ i = 1 ∨ i = 2 ∨ i = 3 ∨ i = 4 ∨ i = 5 ∨ i = 6 ∨ i = 7 := by omega
  · omega
  · omega
  · omega
  · omega
  · rw [hver] at herased
    exact absurd herased (by decide)
  · omega
  · omega
  · omega

-- ---------------------------------------------------------------------------
-- A page that was saved
-- ---------------------------------------------------------------------------

/-- A page as it is built, and the config it is loaded as. -/
inductive Saved : Bytes → DeviceConfig → Prop where
  | mk (tail : Bytes) : Fits (putLe32 configMagic) nSsid nPass nCode fields check →
      (crc32Bytes ([configVersion, nSsid, nPass, nCode] ++ fields)).toNat = le32 check →
      Saved (parts (putLe32 configMagic) configVersion nSsid nPass nCode fields check tail)
        (unpacked nSsid.toNat nPass.toNat nCode.toNat fields)

theorem Saved.load (h : Saved page cfg) : pageLoad page = some cfg := by
  obtain ⟨tail, hfits, hcrc⟩ := h
  rw [pageLoad_parts hfits, if_pos ⟨rfl, rfl, hcrc⟩]

/-- A page of which the flash took the first `n` bytes. -/
def cutAt (n : Nat) (page : Bytes) : Bytes := page.take n ++ List.replicate (page.length - n) 0xff

theorem cutAt_append (n : Nat) (xs ys : Bytes) : cutAt n (xs ++ ys) = cutAt n xs ++ cutAt (n - xs.length) ys := by
  rw [cutAt, cutAt, cutAt, List.take_append, List.length_append]
  rcases Nat.le_total n xs.length with hle | hge
  · rw [Nat.sub_eq_zero_of_le hle, List.take_zero, List.nil_append, List.append_nil, List.append_assoc,
      List.replicate_append_replicate]
    congr 2
    omega
  · rw [Nat.sub_eq_zero_of_le hge, List.replicate_zero, List.append_nil, List.append_assoc]
    congr 3
    omega

theorem cutAt_of_le (h : xs.length ≤ n) : cutAt n xs = xs := by
  rw [cutAt, List.take_of_length_le h, Nat.sub_eq_zero_of_le h, List.replicate_zero, List.append_nil]

@[simp] theorem length_cutAt (n : Nat) (xs : Bytes) : (cutAt n xs).length = xs.length := by
  rw [cutAt, List.length_append, List.length_take, List.length_replicate]
  omega

theorem getD_cutAt (h : n < xs.length) : (cutAt n xs).getD n 0 = 0xff := by
  have hlen : (xs.take n).length = n := by
    rw [List.length_take]
    omega
  rw [cutAt, List.getD_append_right _ _ _ _ (by rw [hlen]), hlen, Nat.sub_self,
    show xs.length - n = xs.length - n - 1 + 1 by omega, List.replicate_succ]
  rfl

theorem toNat_erased {c : UInt32} (h : c.toNat = le32 (List.replicate 4 0xff)) : c = 0xffffffff :=
  UInt32.toNat_inj.mp h

theorem extent_parts {v : UInt8} {tail : Bytes} (h : Fits magic nSsid nPass nCode fields check) :
    extent (parts magic v nSsid nPass nCode fields check tail) = 1 + 3 + nSsid.toNat + nPass.toNat + nCode.toNat := by
  have hat := getD_parts v nSsid nPass nCode fields check tail h.magic
  rw [extent, show (5 : Nat) = 4 + 1 from rfl, show (6 : Nat) = 4 + 2 from rfl,
    show (7 : Nat) = 4 + 3 from rfl, hat, hat, hat]
  rfl

theorem cutAt_parts {v : UInt8} {tail : Bytes} (h : Fits magic nSsid nPass nCode fields check) (hn : 8 ≤ n) :
    cutAt n (parts magic v nSsid nPass nCode fields check tail) =
      parts magic v nSsid nPass nCode (cutAt (n - 8) fields) (cutAt (n - 8 - fields.length) check)
        (cutAt (n - 8 - fields.length - 4) tail) := by
  have hheader : [v, nSsid, nPass, nCode].length = 4 := rfl
  rw [parts, cutAt_append, cutAt_append, cutAt_append, cutAt_append, h.magic, h.check, hheader,
    cutAt_of_le (by rw [h.magic]; omega), cutAt_of_le (by rw [hheader]; omega),
    show n - 4 - 4 = n - 8 by omega, parts]

/-- A cut page is refused or yields the same values, unless what the cut left of the values
has a check of ones, the erased bytes there being read as that check. -/
theorem Saved.cut (h : Saved page cfg) (n : Nat) :
    pageLoad (cutAt n page) = none ∨ pageLoad (cutAt n page) = some cfg ∨
      (configHeaderLen ≤ n ∧ n < 4 + extent page ∧
        crc32Bytes (slice (cutAt n page) 4 (extent page)) = 0xffffffff) := by
  obtain ⟨tail, hfits, hcrc⟩ := h
  rename_i nSsid nPass nCode fields check
  have hfields := hfits.fields
  by_cases hn : n < configHeaderLen
  · -- an erased byte in the header
    refine .inl ?_
    cases hload : pageLoad (cutAt n (parts (putLe32 configMagic) configVersion nSsid nPass nCode fields check tail)) with
    | none => rfl
    | some cfg' =>
      refine absurd (getD_cutAt ?_) (head_of_pageLoad hload hn)
      rw [configHeaderLen] at hn
      simp only [parts, List.length_append, hfits.magic, List.length_cons, List.length_nil]
      omega
  · rw [configHeaderLen, Nat.not_lt] at hn
    rw [cutAt_parts hfits hn, extent_parts hfits]
    obtain ⟨fields', hfields'⟩ : ∃ fields', fields' = cutAt (n - 8) fields := ⟨_, rfl⟩
    obtain ⟨check', hcheck'⟩ : ∃ check', check' = cutAt (n - 8 - fields.length) check := ⟨_, rfl⟩
    have hfits' : Fits (putLe32 configMagic) nSsid nPass nCode fields' check' := by
      refine ⟨hfits.magic, hfits.ssid, hfits.pass, hfits.code, ?_, ?_⟩
      · rw [hfields', length_cutAt, hfits.fields]
      · rw [hcheck', length_cutAt, hfits.check]
    rw [← hfields', ← hcheck', pageLoad_parts hfits', payload_parts hfits']
    by_cases hwhole : fields.length ≤ n - 8
    · -- the values are whole
      rw [cutAt_of_le hwhole] at hfields'
      rw [hfields']
      split
      · exact .inr (.inl rfl)
      · exact .inl rfl
    · have herased : check' = List.replicate 4 0xff := by
        rw [hcheck', show n - 8 - fields.length = 0 by omega, cutAt, List.take_zero, List.nil_append,
          hfits.check]
      split
      · rename_i hpass
        refine .inr (.inr ⟨hn, by omega, ?_⟩)
        rw [herased] at hpass
        exact toNat_erased hpass.2.2
      · exact .inl rfl

/-- A page of one changed byte is refused or yields the same values, unless the byte is a
length and the check of what the lengths then name passes. -/
theorem Saved.changed (h : Saved page cfg) (i : Nat) (b : UInt8) :
    pageLoad (page.set i b) = none ∨ pageLoad (page.set i b) = some cfg ∨
      (5 ≤ i ∧ i ≤ 7 ∧ Passes (page.set i b)) := by
  obtain ⟨tail, hfits, hcrc⟩ := h
  rename_i nSsid nPass nCode fields check
  have hmagic := hfits.magic
  rw [parts, List.set_append]
  split
  · rename_i hi
    refine (?_ : _ ∨ _).imp_right .inl
    have hfits' : Fits ((putLe32 configMagic).set i b) nSsid nPass nCode fields check :=
      ⟨by rw [List.length_set, hmagic], hfits.ssid, hfits.pass, hfits.code, hfits.fields, hfits.check⟩
    rw [← parts, pageLoad_parts hfits']
    split
    · exact .inr rfl
    · exact .inl rfl
  · rename_i hi
    rw [hmagic] at hi ⊢
    obtain rfl | hlens | hbody : i = 4 ∨ (5 ≤ i ∧ i ≤ 7) ∨ 8 ≤ i := by omega
    · refine (?_ : _ ∨ _).imp_right .inl
      rw [show ([configVersion, nSsid, nPass, nCode] ++ (fields ++ (check ++ tail))).set (4 - 4) b =
        [b, nSsid, nPass, nCode] ++ (fields ++ (check ++ tail)) from rfl, ← parts, pageLoad_parts hfits]
      split
      · exact .inr rfl
      · exact .inl rfl
    · cases hload : pageLoad (putLe32 configMagic ++
          ([configVersion, nSsid, nPass, nCode] ++ (fields ++ (check ++ tail))).set (i - 4) b) with
      | none => exact .inl rfl
      | some cfg' => exact .inr (.inr ⟨hlens.1, hlens.2, (pageLoad_some hload).2.2.2.2.2⟩)
    · refine (?_ : _ ∨ _).imp_right .inl
      have hheader : [configVersion, nSsid, nPass, nCode].length = 4 := rfl
      rw [List.set_append_right _ _ (by rw [hheader]; omega), hheader, List.set_append]
      split
      · rename_i hfield
        have hfits' : Fits (putLe32 configMagic) nSsid nPass nCode (fields.set (i - 4 - 4) b) check :=
          ⟨hmagic, hfits.ssid, hfits.pass, hfits.code, by rw [List.length_set, hfits.fields], hfits.check⟩
        rw [← parts, pageLoad_parts hfits']
        split
        · rename_i hpass
          refine .inr ?_
          by_cases hb : fields[i - 4 - 4] = b
          · rw [← hb, List.set_getElem_self]
          · -- a changed value fails the check
            have hat : i - 4 < ([configVersion, nSsid, nPass, nCode] ++ fields).length := by
              rw [List.length_append, hheader]
              omega
            have hne : ([configVersion, nSsid, nPass, nCode] ++ fields)[i - 4] ≠ b := by
              rw [List.getElem_append_right (by rw [hheader]; omega)]
              exact hb
            refine absurd ?_ (crc32Bytes_set hat hne)
            rw [List.set_append_right _ _ (by rw [hheader]; omega), hheader]
            exact UInt32.toNat_inj.mp (hpass.2.2.trans hcrc.symm)
        · exact .inl rfl
      · rw [List.set_append]
        split
        · have hfits' : Fits (putLe32 configMagic) nSsid nPass nCode fields
              (check.set (i - 4 - 4 - fields.length) b) :=
            ⟨hmagic, hfits.ssid, hfits.pass, hfits.code, hfits.fields, by rw [List.length_set, hfits.check]⟩
          rw [← parts, pageLoad_parts hfits']
          split
          · exact .inr rfl
          · exact .inl rfl
        · rw [← parts]
          exact .inr (Saved.mk _ hfits hcrc).load

-- ---------------------------------------------------------------------------
-- Saving and loading
-- ---------------------------------------------------------------------------

theorem cstr_prefix {value buf : Bytes} (h0 : 0 ∉ value) (h : value ++ [0] <+: buf) : cstr buf = value := by
  obtain ⟨rest, rfl⟩ := h
  have hvalue : ∀ c ∈ value, c ≠ (0 : UInt8) := fun c hc heq => h0 (heq ▸ hc)
  rw [cstr, List.append_assoc, List.takeWhile_append_of_pos (by simpa using hvalue)]
  simp

theorem cstr_array {value : Bytes} (h0 : 0 ∉ value) (h : value.length ≤ cap) : cstr (array value (cap + 1)) = value := by
  refine cstr_prefix h0 ?_
  rw [array, show cap + 1 - value.length = cap - value.length + 1 by omega, List.replicate_succ]
  exact ⟨List.replicate (cap - value.length) 0, by simp⟩

theorem zero_notMem_cstr (buf : Bytes) : 0 ∉ cstr buf := by
  rintro hmem
  simpa using List.mem_takeWhile_imp hmem

/-- Arrays of their length that end. -/
structure Ends (cfg : DeviceConfig) : Prop where
  sized : Sized cfg
  ends : ∀ fd, (cstr (cfg.get fd)).length ≤ fd.max

theorem pageBuild_some {cfg : DeviceConfig} (h : Ends cfg) (hroom : configHostCap ≤ pageLen) :
    ∃ page, pageBuild pageLen cfg = some page ∧ page.length = pageLen ∧
      ∃ cfg', Saved page cfg' ∧ ∀ fd, cstr (cfg'.get fd) = cstr (cfg.get fd) := by
  obtain ⟨ssid, hssid⟩ : ∃ ssid, ssid = cstr cfg.ssid := ⟨_, rfl⟩
  obtain ⟨pass, hpass⟩ : ∃ pass, pass = cstr cfg.pass := ⟨_, rfl⟩
  obtain ⟨code, hcode⟩ : ∃ code, code = cstr cfg.code := ⟨_, rfl⟩
  have hs : ssid.length ≤ configSsidMax := hssid ▸ h.ends .ssid
  have hp : pass.length ≤ configPassMax := hpass ▸ h.ends .pass
  have hc : code.length ≤ configCodeMax := hcode ▸ h.ends .code
  have hsize : cfg.ssid.length = configSsidMax + 1 := h.sized .ssid
  have hsize' : cfg.pass.length = configPassMax + 1 := h.sized .pass
  have hsize'' : cfg.code.length = configCodeMax + 1 := h.sized .code
  simp only [configSsidMax, configPassMax, configCodeMax, configHostCap, configHeaderLen] at hs hp hc hsize hsize' hsize'' hroom
  have hs' : (UInt8.ofNat ssid.length).toNat = ssid.length :=
    UInt8.toNat_ofNat_of_lt' (Nat.lt_of_le_of_lt hs (by decide))
  have hp' : (UInt8.ofNat pass.length).toNat = pass.length :=
    UInt8.toNat_ofNat_of_lt' (Nat.lt_of_le_of_lt hp (by decide))
  have hc' : (UInt8.ofNat code.length).toNat = code.length :=
    UInt8.toNat_ofNat_of_lt' (Nat.lt_of_le_of_lt hc (by decide))
  obtain ⟨record, hrecord⟩ : ∃ record, record = putLe32 configMagic ++ (payload ssid pass code ++
    putLe32 (crc32Bytes (payload ssid pass code)).toNat) := ⟨_, rfl⟩
  have hlen : record.length = 12 + ssid.length + pass.length + code.length := by
    rw [hrecord]
    simp only [List.length_append, length_putLe32, payload, List.length_cons]
    omega
  have hfits : Fits (putLe32 configMagic) (.ofNat ssid.length) (.ofNat pass.length) (.ofNat code.length)
      (ssid ++ (pass ++ code)) (putLe32 (crc32Bytes (payload ssid pass code)).toNat) := by
    refine ⟨rfl, ?_, ?_, ?_, ?_, rfl⟩
    · rw [hs', configSsidMax]
      exact hs
    · rw [hp', configPassMax]
      exact hp
    · rw [hc', configCodeMax]
      exact hc
    · rw [hs', hp', hc', List.length_append, List.length_append, Nat.add_assoc]
  have hcrc : (crc32Bytes ([configVersion, .ofNat ssid.length, .ofNat pass.length, .ofNat code.length] ++
      (ssid ++ (pass ++ code)))).toNat = le32 (putLe32 (crc32Bytes (payload ssid pass code)).toNat) := by
    have hback := le32_putLe32 (crc32Bytes (payload ssid pass code)).toNat_lt []
    rw [List.append_nil] at hback
    exact hback.symm
  have hparts : parts (putLe32 configMagic) configVersion (.ofNat ssid.length) (.ofNat pass.length)
      (.ofNat code.length) (ssid ++ (pass ++ code)) (putLe32 (crc32Bytes (payload ssid pass code)).toNat)
      (List.replicate (pageLen - record.length) 0xff) = record ++ List.replicate (pageLen - record.length) 0xff := by
    rw [hrecord]
    simp [parts, payload]
  have hsaved := Saved.mk (List.replicate (pageLen - record.length) 0xff) hfits hcrc
  rw [hparts, hs', hp', hc'] at hsaved
  refine ⟨_, ?_, ?_, _, hsaved, ?_⟩
  · rw [pageBuild, ← hssid, ← hpass, ← hcode]
    dsimp only
    rw [if_neg, if_neg, hrecord]
    · rw [configHeaderLen]
      omega
    · simp only [Bool.or_eq_true, decide_eq_true_eq]
      omega
  · rw [List.length_append, List.length_replicate]
    omega
  · have hends : ∀ b : Bytes, 0 ∉ cstr b := zero_notMem_cstr
    rintro (_ | _ | _)
    · rw [DeviceConfig.get, DeviceConfig.get, unpacked, ← hssid]
      dsimp only
      rw [slice_append_left (by omega), slice_self]
      exact cstr_array (hssid ▸ hends _) hs
    · rw [DeviceConfig.get, DeviceConfig.get, unpacked, ← hpass]
      dsimp only
      rw [slice_append_at rfl rfl]
      exact cstr_array (hpass ▸ hends _) hp
    · rw [DeviceConfig.get, DeviceConfig.get, unpacked, ← hcode]
      dsimp only
      rw [← List.append_assoc, slice_append_right (by simp), List.length_append, Nat.sub_self, slice_self]
      exact cstr_array (hcode ▸ hends _) hc

theorem submit_iff (method path body mac err : Option Bytes) :
    (portalRequest method path body mac err).2.action = .submit ↔
      path = some (ascii "/save") ∧ method = some (ascii "POST") ∧ ∃ b, body = some b ∧ Accepted b := by
  cases method with
  | none => simp [portalRequest]
  | some method =>
    cases path with
    | none => simp [portalRequest]
    | some path =>
      rw [portalRequest]
      split
      · rename_i hsave
        obtain ⟨rfl, rfl⟩ := hsave
        cases body with
        | none => simp [parseForm]
        | some b =>
          cases hform : parseForm (some b) with
          | none =>
            have hno : ¬ Accepted b := by
              rintro hacc
              have hsome := parseForm_of_accepted hacc
              rw [hform] at hsome
              cases hsome
            simp [hno]
          | some cfg => simp [(parseForm_some hform).1]
      · rename_i hother
        split
        · simp only [reduceCtorEq, false_iff]
          rintro ⟨hp, hm, -⟩
          exact hother ⟨Option.some.inj hp, Option.some.inj hm⟩
        · simp only [reduceCtorEq, false_iff]
          rintro ⟨hp, hm, -⟩
          exact hother ⟨Option.some.inj hp, Option.some.inj hm⟩

theorem submit_some {method path body mac err : Option Bytes}
    (h : (portalRequest method path body mac err).2.action = .submit) :
    parseForm body = some (portalRequest method path body mac err).2.submitted := by
  obtain ⟨rfl, rfl, b, rfl, hacc⟩ := (submit_iff ..).mp h
  obtain ⟨cfg, hform⟩ := Option.isSome_iff_exists.mp (parseForm_of_accepted hacc)
  rw [portalRequest, if_pos ⟨rfl, rfl⟩, hform]

theorem length_cstr_le (d rest : Bytes) : (cstr (d ++ [0] ++ rest)).length ≤ d.length := by
  induction d with
  | nil => simp [cstr]
  | cons c d ih =>
    rw [cstr, List.cons_append, List.cons_append, List.takeWhile_cons]
    split
    · rw [List.length_cons, List.length_cons]
      exact Nat.succ_le_succ ih
    · exact Nat.zero_le _

theorem Holds.cstr_le {buf : Bytes} (h : Holds fd buf v) : (cstr buf).length ≤ fd.max := by
  obtain ⟨d, -, hfits, rest, rfl⟩ := h
  exact Nat.le_trans (length_cstr_le d rest) hfits

theorem configStoreSave_some {st : Store} {cfg : DeviceConfig} (h : Ends cfg)
    (hroom : configHostCap ≤ st.page.length) :
    (st.mounted = false → (configStoreSave st cfg true).1 = true) ∧
      ∀ flashed st', configStoreSave st cfg flashed = (true, st') →
        ∃ cfg', Saved st'.page cfg' ∧ ∀ fd, cstr (cfg'.get fd) = cstr (cfg.get fd) := by
  obtain ⟨page, hbuild, -, cfg', hsaved, hback⟩ := pageBuild_some h hroom
  constructor
  · rintro hmounted
    rw [configStoreSave, hmounted, hbuild]
    rfl
  · rintro flashed st' hsave
    rw [configStoreSave, hbuild] at hsave
    split at hsave
    · cases hsave
    · dsimp only at hsave
      split at hsave
      · cases hsave
        exact ⟨cfg', hsaved, hback⟩
      · cases hsave

/-- What of a field is in a submitted config, and that it is the last value of it decoded. -/
structure Submitted (body : Bytes) (fd : Field) (buf value : Bytes) : Prop where
  last : ∃ v, (occurrences body fd).getLast? = some v ∧ Decodes v value
  fits : value.length ≤ fd.max
  size : buf.length = fd.max + 1
  holds : value ++ [0] <+: buf

/-- What a page that was saved is loaded as, whatever cut it or changed a byte of it. -/
structure Kept (page : Bytes) (cfg : DeviceConfig) : Prop where
  load : pageLoad page = some cfg
  cut : ∀ n, pageLoad (cutAt n page) = none ∨ pageLoad (cutAt n page) = some cfg ∨
    (configHeaderLen ≤ n ∧ n < 4 + extent page ∧
      crc32Bytes (slice (cutAt n page) 4 (extent page)) = 0xffffffff)
  changed : ∀ i b, pageLoad (page.set i b) = none ∨ pageLoad (page.set i b) = some cfg ∨
    (5 ≤ i ∧ i ≤ 7 ∧ Passes (page.set i b))

/-- A submit is accepted exactly when each field is there and every value of it decodes within
its limit. It holds the decoded bytes of the last ones, and what is saved of it is kept. -/
theorem submit_kept {st : Store} (hroom : configHostCap ≤ st.page.length)
    (method path body mac err : Option Bytes) :
    ((portalRequest method path body mac err).2.action = .submit ↔
      path = some (ascii "/save") ∧ method = some (ascii "POST") ∧ ∃ b, body = some b ∧ Accepted b) ∧
    ∀ b cfg, body = some b → (portalRequest method path body mac err).2 = ⟨.submit, cfg⟩ →
      ∃ value : Field → Bytes, (∀ fd, Submitted b fd (cfg.get fd) (value fd)) ∧
        (st.mounted = false → (configStoreSave st cfg true).1 = true) ∧
        ∀ flashed st', configStoreSave st cfg flashed = (true, st') →
          ∃ cfg', configStoreLoad st' = some cfg' ∧ Kept st'.page cfg' ∧
            ∀ fd, 0 ∉ value fd → cstr (cfg'.get fd) = value fd := by
  refine ⟨submit_iff method path body mac err, ?_⟩
  rintro b cfg rfl hsubmit
  have hform : parseForm (some b) = some cfg := by
    rw [submit_some (congrArg Result.action hsubmit), hsubmit]
  obtain ⟨-, hsized, hlast⟩ := parseForm_some hform
  have hfield : ∀ fd, ∃ value, Submitted b fd (cfg.get fd) value := by
    intro fd
    obtain ⟨v, hv, d, hdecodes, hfits, hprefix⟩ := hlast fd
    exact ⟨d, ⟨v, hv, hdecodes⟩, hfits, hsized fd, hprefix⟩
  choose value hvalue using hfield
  have hends : Ends cfg := by
    refine ⟨hsized, fun fd => ?_⟩
    obtain ⟨v, -, hholds⟩ := hlast fd
    exact hholds.cstr_le
  obtain ⟨hsave, hsaved⟩ := configStoreSave_some hends hroom
  refine ⟨value, hvalue, hsave, ?_⟩
  rintro flashed st' hst
  obtain ⟨cfg', hpage, hback⟩ := hsaved flashed st' hst
  refine ⟨cfg', hpage.load, ⟨hpage.load, hpage.cut, hpage.changed⟩, ?_⟩
  rintro fd h0
  rw [hback fd]
  exact cstr_prefix h0 (hvalue fd).holds

/-- The store of a host build before its first save. -/
def erased : Store := ⟨List.replicate configHostCap 0xff, none, false⟩

/-- What a posted form is answered with. -/
def posted (body : String) : Result :=
  (portalRequest (some (ascii "POST")) (some (ascii "/save")) (some (ascii body)) none none).2

theorem submit_kept_erased :
    configHostCap ≤ erased.page.length ∧ (posted "ssid=a+b&pass=%70&code=").action = .submit := by
  have hform : (parseForm (some (ascii "ssid=a+b&pass=%70&code="))).isSome = true := by decide
  obtain ⟨cfg, hcfg⟩ := Option.isSome_iff_exists.mp hform
  have hroom : configHostCap ≤ erased.page.length := Nat.le_of_eq (List.length_replicate ..).symm
  have hsubmit := (submit_kept hroom (some (ascii "POST")) (some (ascii "/save"))
    (some (ascii "ssid=a+b&pass=%70&code=")) none none).1.mpr ⟨rfl, rfl, _, rfl, (parseForm_some hcfg).1⟩
  exact ⟨hroom, hsubmit⟩

/-- The page an erased store holds after a form was submitted. -/
def pageOf (body : String) : Bytes := (configStoreSave erased (posted body).submitted true).2.page

def ssidOf (page : Bytes) : Option Bytes := (pageLoad page).map fun cfg => cstr cfg.ssid

/-- An early value that does not decode refuses a form whose last ones do; a NUL in a value ends
it; a page cut within its values, or of which one bit of a length changed, may pass its check. -/
theorem submit_kept_otherwise :
    ((∀ fd, ∃ v d, (occurrences (ascii "ssid=%zz&ssid=a&pass=b&code=c") fd).getLast? = some v ∧ Decodes v d ∧
        d.length ≤ fd.max) ∧ (posted "ssid=%zz&ssid=a&pass=b&code=c").action = .none) ∧
      ((posted "ssid=a%00b&pass=&code=").action = .submit ∧ ssidOf (pageOf "ssid=a%00b&pass=&code=") = some (ascii "a")) ∧
      (ssidOf (pageOf "ssid=-\"Rckx&pass=&code=") = some (ascii "-\"Rckx") ∧
        ssidOf (cutAt 13 (pageOf "ssid=-\"Rckx&pass=&code=")) = some (ascii "-\"Rck" ++ [0xff])) ∧
      (ssidOf (pageOf "ssid=yPp'j&pass=&code=") = some (ascii "yPp'j") ∧
        (pageOf "ssid=yPp'j&pass=&code=")[5]? = some 5 ∧
        ssidOf ((pageOf "ssid=yPp'j&pass=&code=").set 5 1) = some (ascii "y")) := by
  refine ⟨⟨?_, by decide⟩, by decide +kernel, by decide +kernel, by decide +kernel⟩
  rintro (_ | _ | _)
  · exact ⟨ascii "a", ascii "a", by decide, .plain (by decide) (by decide) .nil, by decide⟩
  · exact ⟨ascii "b", ascii "b", by decide, .plain (by decide) (by decide) .nil, by decide⟩
  · exact ⟨ascii "c", ascii "c", by decide, .plain (by decide) (by decide) .nil, by decide⟩

end WebAdf.Firmware.Portal
