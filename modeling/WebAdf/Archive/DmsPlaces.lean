import WebAdf.Archive.Dms
import Mathlib.Algebra.BigOperators.Group.List.Basic

/-!
# Where a DMS image's tracks are

The image is put together in the order of the records, and a record's number is
only compared with the one before it. Its tracks are in their places exactly
when the records start at track 0 and each unpacks to a whole cylinder.
-/

namespace WebAdf.Archive

open Lib

/-- A cylinder: two sides of eleven sectors. -/
def cylinderBytes : Nat := 11264

-- ---------------------------------------------------------------------------
-- Buffers keep their size
-- ---------------------------------------------------------------------------

@[simp] theorem Window.length_emit (m v : Nat) (w : Window) : (w.emit m v).out.length = w.out.length := by
  simp [Window.emit]

@[simp] theorem Window.length_copy (m j i : Nat) (w : Window) : (w.copy m j i).out.length = w.out.length := by
  induction j generalizing i w with
  | zero => rfl
  | succ j ih => simp [Window.copy, ih]

theorem length_rleLoop {out : Bytes} (h : origsize ≤ out.length) :
    (rleLoop inp origsize fuel i o out).2.length = out.length := by
  induction fuel generalizing i o out with
  | zero => rfl
  | succ fuel ih =>
    have hrun (n i : Nat) (v : UInt8) :
        (if o + n > origsize then (true, out)
          else rleLoop inp origsize fuel i (o + n) (blit out o (List.replicate n v))).2.length = out.length := by
      split
      · rfl
      · have hlen : (blit out o (List.replicate n v)).length = out.length := by
          rw [length_blit]
          rw [List.length_replicate]
          omega
        rw [ih (by omega), hlen]
    unfold rleLoop
    dsimp only
    split
    · split
      · rw [ih (by simpa using h), List.length_set]
      · split
        · rw [ih (by simpa using h), List.length_set]
        · split
          · exact hrun ..
          · exact hrun ..
    · rfl

theorem length_unpackRle {out : Bytes} (h : origsize ≤ out.length) :
    (unpackRle inp out origsize).2.length = out.length := length_rleLoop h

theorem length_unpackLoop {round : Bits → Window → Bits × Window}
    (hround : ∀ b w, (round b w).2.out.length = w.out.length) (fuel : Nat) (b : Bits) (w : Window) :
    (unpackLoop origsize round fuel b w).out.length = w.out.length := by
  induction fuel generalizing b w with
  | zero => rfl
  | succ fuel ih =>
    unfold unpackLoop
    split
    · rw [ih, hround]
    · rfl

theorem length_unpackQuick (s : DmsState) (inp out : Bytes) (n : Nat) :
    (unpackQuick s inp out n).2.length = out.length := by
  refine length_unpackLoop ?_ ..
  intro b w
  simp only [quickRound]
  split <;> simp

theorem length_unpackMedium (s : DmsState) (inp out : Bytes) (n : Nat) :
    (unpackMedium s inp out n).2.length = out.length := by
  refine length_unpackLoop ?_ ..
  intro b w
  simp only [mediumRound]
  split <;> simp

theorem bind_ok {x : Run α} {f : α → Run β} : x >>= f = .ok b ↔ ∃ a, x = .ok a ∧ f a = .ok b := by
  cases x with
  | ok a =>
    constructor
    · exact fun h => ⟨a, rfl, h⟩
    · rintro ⟨_, ⟨⟩, h⟩
      exact h
  | error e =>
    constructor
    · rintro ⟨⟩
    · rintro ⟨_, ⟨⟩, _⟩

theorem length_deepLoop (h : deepLoop inp origsize fuel b t w = .ok (t', w')) :
    w'.out.length = w.out.length := by
  induction fuel generalizing b t w with
  | zero =>
    cases h
    rfl
  | succ fuel ih =>
    unfold deepLoop at h
    split at h
    · obtain ⟨⟨c, b'⟩, -, h⟩ := bind_ok.1 h
      obtain ⟨t'', -, h⟩ := bind_ok.1 h
      split at h
      · rw [ih h, Window.length_emit]
      · rw [ih h, Window.length_copy]
    · cases h
      rfl

theorem length_unpackDeep (h : unpackDeep s inp out n = .ok (s', out')) : out'.length = out.length := by
  obtain ⟨⟨t, w⟩, hloop, h⟩ := bind_ok.1 h
  cases h
  exact length_deepLoop hloop

theorem length_heavyLoop (h : heavyLoop inp m origsize fuel b s w = .ok (s', w')) :
    w'.out.length = w.out.length := by
  induction fuel generalizing b s w with
  | zero =>
    cases h
    rfl
  | succ fuel ih =>
    unfold heavyLoop at h
    split at h
    · obtain ⟨⟨c, b'⟩, -, h⟩ := bind_ok.1 h
      dsimp only at h
      split at h
      · rw [ih h, Window.length_emit]
      · obtain ⟨⟨s'', b''⟩, -, h⟩ := bind_ok.1 h
        rw [ih h, Window.length_copy]
    · cases h
      rfl

theorem length_unpackHeavy (h : unpackHeavy s inp out flags n = .ok (failed, s', out')) :
    out'.length = out.length := by
  unfold unpackHeavy at h
  dsimp only at h
  split at h
  · cases h
    rfl
  · obtain ⟨⟨s'', w⟩, hloop, h⟩ := bind_ok.1 h
    cases h
    exact length_heavyLoop hloop

/-- Both track buffers are whole. -/
structure Sized (b1 b2 : Bytes) : Prop where
  first : b1.length = trackBufferLen
  second : b2.length = trackBufferLen

theorem Sized.pass (h : Sized b1 b2) (hlen : n ≤ trackBufferLen) :
    Sized (secondPass b1 b2 n).2.1 (secondPass b1 b2 n).2.2 := by
  have hrle : (unpackRle b2 b1 n).2.length = trackBufferLen := by
    rw [length_unpackRle (by rw [h.first]; exact hlen), h.first]
  refine ⟨hrle, ?_⟩
  simp only [secondPass]
  split
  · exact h.second
  · rw [length_blit]
    · exact h.second
    · rw [List.length_take, h.second, hrle]
      omega

theorem unpack_sized (hs : Sized b1 b2) (hlen : h.unpklen ≤ trackBufferLen)
    (hrun : unpack h s b1 b2 = .ok (failed, s', b1', b2')) : Sized b1' b2' := by
  obtain ⟨h1, h2⟩ := hs
  unfold unpack at hrun
  split at hrun
  · simp only [Except.ok.injEq, Prod.mk.injEq] at hrun
    obtain ⟨-, -, rfl, rfl⟩ := hrun
    refine ⟨h1, ?_⟩
    rw [length_blit, h2]
    rw [List.length_take, h1, h2]
    omega
  · simp only [Except.ok.injEq, Prod.mk.injEq] at hrun
    obtain ⟨-, -, rfl, rfl⟩ := hrun
    exact ⟨h1, by rw [length_unpackRle (by omega), h2]⟩
  · simp only [Except.ok.injEq, Prod.mk.injEq] at hrun
    obtain ⟨-, -, rfl, rfl⟩ := hrun
    exact Sized.pass ⟨h1, (length_unpackQuick ..).trans h2⟩ hlen
  · simp only [Except.ok.injEq, Prod.mk.injEq] at hrun
    obtain ⟨-, -, rfl, rfl⟩ := hrun
    exact Sized.pass ⟨h1, (length_unpackMedium ..).trans h2⟩ hlen
  · obtain ⟨⟨s'', b2''⟩, hdeep, hrun⟩ := bind_ok.1 hrun
    simp only [Except.ok.injEq, Prod.mk.injEq] at hrun
    obtain ⟨-, -, rfl, rfl⟩ := hrun
    exact Sized.pass ⟨h1, (length_unpackDeep hdeep).trans h2⟩ hlen
  · obtain ⟨⟨failed', s'', b2''⟩, hheavy, hrun⟩ := bind_ok.1 hrun
    have h2' := (length_unpackHeavy hheavy).trans h2
    dsimp only at hrun
    split at hrun <;> simp only [Except.ok.injEq, Prod.mk.injEq] at hrun <;> obtain ⟨-, -, rfl, rfl⟩ := hrun
    · exact Sized.pass ⟨h1, h2'⟩ hlen
    · exact ⟨h1, h2'⟩

-- ---------------------------------------------------------------------------
-- The records
-- ---------------------------------------------------------------------------

/-- The disk's records of a file, each with its number and its unpacked length,
from their headers alone. -/
def recordsFrom (src : Bytes) : Nat → Nat → List (Nat × Nat)
  | 0, _ => []
  | fuel + 1, at_ =>
    if at_ + thLen ≤ src.length then
      let h := trackHeader (slice src at_ thLen)
      let rest := recordsFrom src fuel (at_ + thLen + h.pklen1)
      if h.isDiskTrack then (h.number, h.unpklen) :: rest else rest
    else []

def diskRecords (src : Bytes) : List (Nat × Nat) := recordsFrom src src.length headLen

/-- What a round leaves that the next ones rely on. -/
structure Tidy (r : Reading) : Prop where
  sized : Sized r.b1 r.b2
  total : r.total = (r.out.map fun p => p.2.length).sum
  order : ∃ first, r.out.map Prod.fst = List.range' first r.out.length ∧
    (r.out ≠ [] → r.expectNumber = some (first + r.out.length))

theorem tidy_start : Tidy .start := by
  refine ⟨⟨?_, ?_⟩, rfl, 0, rfl, fun h => absurd rfl h⟩ <;> exact List.length_replicate

theorem readHeader_ok (h : readHeader src at_ = .ok hd) :
    hd = trackHeader (slice src at_ thLen) ∧ hd.unpklen ≤ trackBufferLen ∧ hd.pklen1 ≤ trackBufferLen ∧
      at_ + thLen + hd.pklen1 ≤ src.length := by
  unfold readHeader at h
  dsimp only [refuse] at h
  split_ifs at h with h1 h2 h3 h4 h5
  cases h
  exact ⟨rfl, by omega, by omega, by omega⟩

theorem resetUnless_same (flags : Nat) (r : Reading) :
    Tidy r → Tidy (r.resetUnless flags) ∧ (r.resetUnless flags).out = r.out ∧
      (r.resetUnless flags).at_ = r.at_ := by
  rintro ⟨hsized, htotal, horder⟩
  unfold Reading.resetUnless
  split
  · exact ⟨⟨hsized, htotal, horder⟩, rfl, rfl⟩
  · exact ⟨⟨hsized, htotal, horder⟩, rfl, rfl⟩

theorem otherTrack_same (hd : TrackHeader) (ht : Tidy r) :
    Tidy (otherTrack hd r) ∧ (otherTrack hd r).out = r.out ∧ (otherTrack hd r).at_ = r.at_ := by
  obtain ⟨hsized, htotal, horder⟩ := ht
  unfold otherTrack
  dsimp only
  split
  · exact resetUnless_same _ _ ⟨hsized, htotal, horder⟩
  · exact resetUnless_same _ _ ⟨hsized, htotal, horder⟩

theorem checkOrder_ok (h : checkOrder expect number = .ok u) : ∀ e, expect = some e → number = e := by
  rintro e rfl
  simp only [checkOrder, refuse] at h
  split_ifs at h with hne
  simpa using hne

theorem diskTrack_ok (ht : Tidy r) (hlen : hd.unpklen ≤ trackBufferLen) (h : diskTrack hd r = .ok r') :
    Tidy r' ∧ r'.at_ = r.at_ ∧
      ∃ bytes : Bytes, bytes.length = hd.unpklen ∧ r'.out = r.out ++ [(hd.number, bytes)] := by
  obtain ⟨hsized, htotal, first, hnumbers, hexpect⟩ := ht
  unfold diskTrack at h
  obtain ⟨_, horder, h⟩ := bind_ok.1 h
  obtain ⟨⟨failed, state, b1, b2⟩, hunpack, h⟩ := bind_ok.1 h
  have hsized' := unpack_sized hsized hlen hunpack
  have hbytes : (b2.take hd.unpklen).length = hd.unpklen := by
    rw [List.length_take, hsized'.second]
    omega
  have hnext : ∃ first, (r.out ++ [(hd.number, b2.take hd.unpklen)]).map Prod.fst =
        List.range' first (r.out ++ [(hd.number, b2.take hd.unpklen)]).length ∧
      (r.out ++ [(hd.number, b2.take hd.unpklen)] ≠ [] → some (hd.number + 1) =
        some (first + (r.out ++ [(hd.number, b2.take hd.unpklen)]).length)) := by
    by_cases hempty : r.out = []
    · exact ⟨hd.number, by simp [hempty], by simp [hempty]⟩
    · have hnumber := checkOrder_ok horder _ (hexpect hempty)
      refine ⟨first, ?_, ?_⟩
      · rw [List.map_append, hnumbers, List.length_append, List.length_singleton, List.range'_concat,
          hnumber, Nat.one_mul]
        rfl
      · rw [List.length_append, List.length_singleton, hnumber]
        exact fun _ => rfl
  dsimp only [refuse] at h
  split_ifs at h with hfailed hsum
  cases h
  obtain ⟨htidy, hout, hat⟩ := resetUnless_same hd.flags
    { r with
      state := state
      b1 := b1
      b2 := b2
      modes := addMode r.modes (modeNames.getD hd.cmode "")
      expectNumber := some (hd.number + 1)
      out := r.out ++ [(hd.number, b2.take hd.unpklen)]
      total := r.total + hd.unpklen }
    ⟨hsized', by simp only [List.map_append, List.sum_append, htotal, List.map_cons, List.map_nil,
      List.sum_singleton, hbytes], hnext⟩
  exact ⟨htidy, hat, _, hbytes, hout⟩

/-- What a round does to the reading, by its header. -/
theorem readTrack_ok (ht : Tidy r) (h : readTrack src r = .ok r') :
    let hd := trackHeader (slice src r.at_ thLen)
    Tidy r' ∧ r'.at_ = r.at_ + thLen + hd.pklen1 ∧
      if hd.isDiskTrack then ∃ bytes : Bytes, bytes.length = hd.unpklen ∧ r'.out = r.out ++ [(hd.number, bytes)]
      else r'.out = r.out := by
  obtain ⟨hd, hhead, h⟩ := bind_ok.1 h
  obtain ⟨rfl, hunp, hpk, hend⟩ := readHeader_ok hhead
  obtain ⟨⟨h1, h2⟩, htotal, horder⟩ := ht
  have htidy : Tidy { r with
      b1 := blit r.b1 0 (slice src (r.at_ + thLen) (trackHeader (slice src r.at_ thLen)).pklen1)
      at_ := r.at_ + thLen + (trackHeader (slice src r.at_ thLen)).pklen1 } := by
    refine ⟨⟨?_, h2⟩, htotal, horder⟩
    rw [length_blit, h1]
    rw [length_slice, h1]
    omega
  dsimp only [refuse] at h ⊢
  split_ifs at h ⊢ with hcrc hdisk
  · obtain ⟨htidy', hat, hout⟩ := diskTrack_ok htidy hunp h
    exact ⟨htidy', hat, hout⟩
  · cases h
    obtain ⟨htidy', hout, hat⟩ := otherTrack_same (trackHeader (slice src r.at_ thLen)) htidy
    exact ⟨htidy', hat, hout⟩

/-- The loop's tracks are the file's records, in their order. -/
theorem readTracks_ok (ht : Tidy r) (h : readTracks src fuel r = .ok r') :
    Tidy r' ∧ ∃ more : List (Nat × Bytes), r'.out = r.out ++ more ∧
      more.map (fun p => (p.1, p.2.length)) = recordsFrom src fuel r.at_ := by
  induction fuel generalizing r with
  | zero =>
    cases h
    exact ⟨ht, [], by simp, rfl⟩
  | succ fuel ih =>
    unfold readTracks at h
    unfold recordsFrom
    split at h
    · rename_i hroom
      obtain ⟨mid, hround, h⟩ := bind_ok.1 h
      obtain ⟨hmid, hat, hout⟩ := readTrack_ok ht hround
      obtain ⟨ht', more, hmore, hrecords⟩ := ih hmid h
      refine ⟨ht', ?_⟩
      rw [if_pos hroom]
      dsimp only
      rw [hat] at hrecords
      split_ifs at hout ⊢ with hdisk
      · obtain ⟨bytes, hlen, hout⟩ := hout
        exact ⟨(_, bytes) :: more, by rw [hmore, hout, List.append_assoc, List.singleton_append],
          by rw [List.map_cons, hrecords, hlen]⟩
      · exact ⟨more, by rw [hmore, hout], hrecords⟩
    · rename_i hroom
      cases h
      exact ⟨ht, [], by simp, by rw [if_neg hroom]; rfl⟩

-- ---------------------------------------------------------------------------
-- The image
-- ---------------------------------------------------------------------------

/-- Every track of an image is one record's, at the track's place in it. -/
structure InPlace (out : List (Nat × Bytes)) (adf : Bytes) : Prop where
  place : ∀ (k t : Nat) (bytes : Bytes), out[k]? = some (t, bytes) →
    ((out.take k).flatMap Prod.snd).length = t * cylinderBytes ∧ bytes.length = cylinderBytes
  once : ∀ t, t * cylinderBytes < adf.length → ∃! k : Nat, (out[k]?).map Prod.fst = some t
  whole : adfBytes ∣ adf.length

/-- Records that start with track 0 and unpack to a cylinder each. -/
def Standard (records : List (Nat × Nat)) : Prop :=
  records.head?.map Prod.fst = some 0 ∧ ∀ record ∈ records, record.2 = cylinderBytes

theorem length_image (out : List (Nat × Bytes)) :
    (out.flatMap Prod.snd).length = (out.map fun p => p.2.length).sum := by
  rw [List.length_flatMap]

/-- The image an archive gives, and the records it is put together from. -/
theorem readDms_ok (h : readDms src = .ok (adf, info)) :
    ∃ r, decodeTracks src = .ok r ∧ adf = r.out.flatMap Prod.snd ∧ adf.length = adfBytes ∧ r.out ≠ [] ∧
      r.out.map (fun p => (p.1, p.2.length)) = diskRecords src ∧
      ∃ first, r.out.map Prod.fst = List.range' first r.out.length := by
  unfold readDms at h
  split at h <;> simp only [reduceCtorEq, Except.ok.injEq] at h
  rename_i found hdecode
  subst h
  obtain ⟨r, htracks, h⟩ := bind_ok.1 hdecode
  obtain ⟨_, -, hloop⟩ := bind_ok.1 htracks
  obtain ⟨⟨-, htotal, first, hnumbers, -⟩, more, hout, hrecords⟩ := readTracks_ok tidy_start hloop
  simp only [refuse] at h
  split_ifs at h with hempty hsize
  cases h
  refine ⟨r, htracks, rfl, ?_, hempty, ?_, first, hnumbers⟩
  · rw [length_image, ← htotal]
    simpa using hsize
  · rw [hout]
    exact hrecords

theorem take_cylinders {out : List (Nat × Bytes)} (h : ∀ p ∈ out, p.2.length = cylinderBytes) (hk : k ≤ out.length) :
    ((out.take k).flatMap Prod.snd).length = k * cylinderBytes := by
  rw [List.length_flatMap, List.map_congr_left fun p hp => h p (List.mem_of_mem_take hp), List.map_const',
    List.sum_replicate_nat, List.length_take, Nat.min_eq_left hk]

/-- The image's tracks are in their places if and only if the records start
with track 0 and each declares a cylinder. -/
theorem dms_in_place (h : readDms src = .ok (adf, info)) :
    ∃ r, decodeTracks src = .ok r ∧ adf = r.out.flatMap Prod.snd ∧
      (InPlace r.out adf ↔ Standard (diskRecords src)) := by
  obtain ⟨r, htracks, rfl, hlen, hne, hrecords, first, hnumbers⟩ := readDms_ok h
  refine ⟨r, htracks, rfl, ?_⟩
  rw [← hrecords]
  obtain ⟨p, rest, hcons⟩ := List.exists_cons_of_ne_nil hne
  have hfirst : p.1 = first := by
    rw [hcons] at hnumbers
    exact (List.cons.inj hnumbers).1
  have hnumber (k : Nat) (hk : k < r.out.length) : (r.out[k]?).map Prod.fst = some (first + k) := by
    rw [← List.getElem?_map, hnumbers, List.getElem?_range' hk, Nat.one_mul]
  constructor
  · rintro ⟨hplace, -, -⟩
    have hcyl : ∀ q ∈ r.out, q.2.length = cylinderBytes := by
      intro q hq
      obtain ⟨k, hk⟩ := List.mem_iff_getElem?.1 hq
      exact (hplace k q.1 q.2 hk).2
    refine ⟨?_, ?_⟩
    · obtain ⟨hzero, -⟩ := hplace 0 p.1 p.2 (by rw [hcons]; rfl)
      simp only [List.take_zero, List.flatMap_nil, List.length_nil] at hzero
      have : p.1 = 0 := by
        simp only [cylinderBytes] at hzero
        omega
      rw [hcons, List.map_cons, List.head?_cons, Option.map_some, this]
    · intro record hmem
      obtain ⟨q, hq, rfl⟩ := List.mem_map.1 hmem
      exact hcyl q hq
  · rintro ⟨hhead, hcyls⟩
    have hcyl : ∀ q ∈ r.out, q.2.length = cylinderBytes := fun q hq => hcyls _ (List.mem_map.2 ⟨q, hq, rfl⟩)
    have hzero : first = 0 := by
      rw [hcons, List.map_cons, List.head?_cons, Option.map_some, Option.some.injEq] at hhead
      exact hfirst ▸ hhead
    subst hzero
    have hwhole := take_cylinders hcyl (Nat.le_refl _)
    rw [List.take_length, hlen] at hwhole
    refine ⟨?_, ?_, by rw [hlen]⟩
    · intro k t bytes hk
      have hlt := (List.getElem?_eq_some_iff.1 hk).1
      have ht := hnumber k hlt
      rw [hk] at ht
      simp only [Option.map_some, Nat.zero_add, Option.some.injEq] at ht
      exact ⟨by rw [take_cylinders hcyl hlt.le, ht], hcyl _ (List.mem_of_getElem? hk)⟩
    · intro t ht
      rw [hlen, hwhole] at ht
      have hlt : t < r.out.length := Nat.lt_of_mul_lt_mul_right ht
      refine ⟨t, by simpa using hnumber t hlt, ?_⟩
      intro k hk
      have hkt : k < r.out.length := by
        by_contra hge
        simp [List.getElem?_eq_none (not_lt.1 hge)] at hk
      have := hnumber k hkt
      rw [hk] at this
      simpa using this.symm

-- ---------------------------------------------------------------------------
-- An archive of blank tracks
-- ---------------------------------------------------------------------------

/-- A run of `len` zeros under SIMPLE. -/
def blankPacked (len : Nat) : Bytes := [0x90, 0xff, 0, byteOf len 1, byteOf len 0]

def blankHead (number len : Nat) : Bytes :=
  [0x54, 0x52, byteOf number 1, byteOf number 0, 0, 0, 0, 5, 0, 5, byteOf len 1, byteOf len 0, 1, 1, 0, 0,
    byteOf (crc16 (blankPacked len)) 1, byteOf (crc16 (blankPacked len)) 0]

/-- A record of a track of zeros. -/
def blankRecord (number len : Nat) : Bytes :=
  blankHead number len ++ put16 (crc16 (blankHead number len)) ++ blankPacked len

/-- Records of tracks of these lengths, numbered from `number`. -/
def blankRecords (number : Nat) : List Nat → Bytes
  | [] => []
  | len :: lens => blankRecord number len ++ blankRecords (number + 1) lens

def blankLead : Bytes := [0x44, 0x4d, 0x53, 0x21] ++ List.replicate 52 0

def blankArchive (lens : List Nat) : Bytes := blankLead ++ blankRecords 0 lens

theorem crc16_lt (b : Bytes) : crc16 b < 2 ^ 16 := by
  have hand (crc : Nat) (x : UInt8) : crcByte crc x < 2 ^ 16 := Nat.and_lt_two_pow _ (by decide)
  induction b using List.reverseRecOn with
  | nil => decide
  | append_singleton b x _ =>
    rw [crc16, List.foldl_append]
    exact hand ..

theorem length_blankRecord (number len : Nat) : (blankRecord number len).length = 25 := rfl

theorem trackHeader_fields (n n' l l' d d' c c' : UInt8) :
    trackHeader [0x54, 0x52, n, n', 0, 0, 0, 5, 0, 5, l, l', 1, 1, 0, 0, d, d', c, c'] =
      ⟨be16 n n', 5, 5, be16 l l', 1, 1, 0, be16 d d'⟩ := by
  simp [trackHeader, word, be16]

/-- The header of a record that stands at `pre`. -/
theorem readHeader_blank (hlen : len ≤ trackBufferLen) (hnumber : number < 2 ^ 16) (pre post : Bytes) :
    readHeader (pre ++ blankRecord number len ++ post) pre.length =
      .ok ⟨number, 5, 5, len, 1, 1, 0, crc16 (blankPacked len)⟩ := by
  have hslice : slice (pre ++ blankRecord number len ++ post) pre.length thLen =
      blankHead number len ++ put16 (crc16 (blankHead number len)) := by
    have happ : pre ++ blankRecord number len ++ post =
        pre ++ ((blankHead number len ++ put16 (crc16 (blankHead number len))) ++ (blankPacked len ++ post)) := by
      simp only [blankRecord, List.append_assoc]
    rw [happ]
    exact slice_append_at rfl rfl
  have hword : word (blankHead number len ++ put16 (crc16 (blankHead number len))) (thLen - 2) =
      crc16 (blankHead number len) := be16_put (crc16_lt _)
  have htake : (blankHead number len ++ put16 (crc16 (blankHead number len))).take (thLen - 2) =
      blankHead number len := List.take_left' rfl
  have hhead : trackHeader (blankHead number len ++ put16 (crc16 (blankHead number len))) =
      ⟨number, 5, 5, len, 1, 1, 0, crc16 (blankPacked len)⟩ := by
    refine (trackHeader_fields ..).trans ?_
    rw [be16_put hnumber, be16_put (lt_of_le_of_lt hlen (by decide)), be16_put (crc16_lt _)]
  have hmagic : ¬ ((blankHead number len ++ put16 (crc16 (blankHead number len))).getD 0 0 ≠ 0x54 ∨
      (blankHead number len ++ put16 (crc16 (blankHead number len))).getD 1 0 ≠ 0x52) := by
    rintro (h | h) <;> exact h rfl
  have hroom : ¬ (5 > trackBufferLen ∨ 5 > trackBufferLen ∨ len > trackBufferLen) := by
    simp only [trackBufferLen] at hlen ⊢
    omega
  have hend : ¬ pre.length + thLen + 5 > (pre ++ blankRecord number len ++ post).length := by
    simp only [List.length_append, length_blankRecord, thLen]
    omega
  unfold readHeader
  simp only [hslice, hword, htake, hhead, if_neg hmagic, if_neg hroom, if_neg hend, ne_eq, not_true,
    if_false, Nat.not_lt_zero]
  rfl

theorem rle_blank (hpos : 0 < len) (hlen : len ≤ trackBufferLen) (rest out : Bytes) :
    unpackRle (blankPacked len ++ rest) out len = (false, blit out 0 (List.replicate len 0)) := by
  have hrun : longRun (blankPacked len ++ rest) 3 = len := by
    unfold longRun
    rw [if_pos (by simp [blankPacked])]
    exact be16_put (lt_of_le_of_lt hlen (by decide))
  obtain ⟨fuel, hfuel⟩ : ∃ fuel, (blankPacked len ++ rest).length + len + 1 = fuel + 2 :=
    ⟨(blankPacked len ++ rest).length + len - 1, by omega⟩
  have h0 : (blankPacked len ++ rest).getD 0 0 = 0x90 := rfl
  have h1 : (blankPacked len ++ rest).getD 1 0 = 0xff := rfl
  have h2 : (blankPacked len ++ rest).getD 2 0 = 0 := rfl
  rw [unpackRle, hfuel, rleLoop, if_pos hpos]
  simp only [Nat.zero_add, h0, h1, h2, hrun]
  simp [rleLoop]

theorem checksum_zeros (n : Nat) : checksum (List.replicate n 0) = 0 := by
  induction n with
  | zero => rfl
  | succ n ih => exact ih

/-- A round over a record of zeros. -/
theorem readTrack_blank (ht : Tidy r) (hat : r.at_ = pre.length)
    (hexpect : r.expectNumber = none ∨ r.expectNumber = some number) (hnumber : number < 80)
    (hlen : 2048 < len ∧ len ≤ trackBufferLen) (post : Bytes) :
    ∃ r', readTrack (pre ++ blankRecord number len ++ post) r = .ok r' ∧
      r'.at_ = (pre ++ blankRecord number len).length ∧ r'.expectNumber = some (number + 1) ∧
      r'.out = r.out ++ [(number, List.replicate len 0)] ∧ r'.total = r.total + len := by
  obtain ⟨⟨h1, h2⟩, -, -⟩ := ht
  have hhead := readHeader_blank hlen.2 (lt_trans hnumber (by decide)) pre post
  have hpacked : slice (pre ++ blankRecord number len ++ post) (pre.length + thLen) 5 = blankPacked len := by
    have happ : pre ++ blankRecord number len ++ post =
        (pre ++ (blankHead number len ++ put16 (crc16 (blankHead number len)))) ++ (blankPacked len ++ post) := by
      simp only [blankRecord, List.append_assoc]
    rw [happ]
    exact slice_append_at (by rw [List.length_append]; rfl) rfl
  have hb1 : blit r.b1 0 (blankPacked len) = blankPacked len ++ r.b1.drop 5 := rfl
  have htake : (blankPacked len ++ r.b1.drop 5).take 5 = blankPacked len := List.take_left' rfl
  have horder : checkOrder r.expectNumber number = .ok () := by
    rcases hexpect with h | h <;> simp [checkOrder, h]
  have hzeros : (blit r.b2 0 (List.replicate len 0)).take len = List.replicate len (0 : UInt8) := by
    simp [blit]
  unfold readTrack
  rw [hat, hhead]
  simp only [bind, Except.bind, hpacked, hb1, htake]
  rw [if_neg (fun h => h rfl)]
  have hdisk : TrackHeader.isDiskTrack ⟨number, 5, 5, len, 1, 1, 0, crc16 (blankPacked len)⟩ = true := by
    simp [TrackHeader.isDiskTrack, hnumber, hlen.1]
  rw [if_pos hdisk]
  unfold diskTrack
  simp only [bind, Except.bind, horder, unpack, rle_blank (by omega : 0 < len) hlen.2, hzeros, checksum_zeros]
  refine ⟨_, rfl, ?_, rfl, rfl, rfl⟩
  simp [Reading.resetUnless, length_blankRecord, thLen]

/-- The loop over records of zeros. -/
theorem readTracks_blank {lens : List Nat} (ht : Tidy r) (hat : r.at_ = pre.length)
    (hexpect : r.expectNumber = none ∨ r.expectNumber = some number) (hnumber : number + lens.length ≤ 80)
    (hlens : ∀ len ∈ lens, 2048 < len ∧ len ≤ trackBufferLen) (hfuel : lens.length < fuel) :
    ∃ r', readTracks (pre ++ blankRecords number lens) fuel r = .ok r' ∧
      r'.out = r.out ++ lens.zipIdx.map (fun p => (number + p.2, List.replicate p.1 0)) ∧
      r'.total = r.total + lens.sum := by
  induction lens generalizing pre r number fuel with
  | nil =>
    obtain ⟨fuel, rfl⟩ : ∃ k, fuel = k + 1 := ⟨fuel - 1, by simp at hfuel; omega⟩
    refine ⟨r, ?_, by simp, by simp⟩
    rw [readTracks, if_neg]
    simp only [blankRecords, List.append_nil, hat, thLen]
    omega
  | cons len lens ih =>
    obtain ⟨fuel, rfl⟩ : ∃ k, fuel = k + 1 := ⟨fuel - 1, by simp at hfuel; omega⟩
    simp only [List.length_cons] at hnumber hfuel
    obtain ⟨mid, hround, hmat, hmexpect, hmout, hmtotal⟩ := readTrack_blank ht hat hexpect
      (by omega : number < 80) (hlens len (List.mem_cons_self ..)) (blankRecords (number + 1) lens)
    have hmid := (readTrack_ok ht hround).1
    have hleft : lens.length < fuel := by omega
    obtain ⟨r', hrest, hout, htotal⟩ := ih hmid hmat (.inr hmexpect) (by omega)
      (fun l hl => hlens l (List.mem_cons_of_mem _ hl)) hleft
    refine ⟨r', ?_, ?_, ?_⟩
    · rw [readTracks, if_pos]
      · rw [blankRecords, ← List.append_assoc, hround]
        exact hrest
      · simp only [blankRecords, hat, List.length_append, length_blankRecord, thLen]
        omega
    · rw [hout, hmout, List.append_assoc, List.zipIdx_cons', List.map_cons, List.map_map]
      simp [Function.comp_def, Nat.add_assoc, Nat.add_comm 1]
    · rw [htotal, hmtotal, List.sum_cons, Nat.add_assoc]

theorem checkHead_blank (lens : List Nat) : checkHead (blankArchive lens) = .ok () := by
  have hlen : ¬ (blankArchive lens).length < headLen := by
    rw [blankArchive, List.length_append]
    exact Nat.not_lt.2 (Nat.le_add_right ..)
  have hword (i : Nat) (hi : i + 1 < blankLead.length) : word (blankArchive lens) i = word blankLead i := by
    unfold word blankArchive
    rw [List.getD_append _ _ _ _ (by omega), List.getD_append _ _ _ _ hi]
  have hmagic : ¬ (blankArchive lens).take 4 ≠ [0x44, 0x4d, 0x53, 0x21] := fun h => h rfl
  have hsum : word (blankArchive lens) (headLen - 2) = 0 := hword _ (by decide)
  have hcrc : crc16 (slice (blankArchive lens) 4 (headLen - 6)) = 0 := by
    have hzeros : slice (blankArchive lens) 4 (headLen - 6) = List.replicate 50 0 := rfl
    rw [hzeros]
    decide +kernel
  have hinfo : ¬ word (blankArchive lens) 10 &&& 0x02 ≠ 0 := by
    rw [hword _ (by decide)]
    decide
  unfold checkHead
  rw [if_neg hlen, if_neg hmagic, hsum, hcrc, if_neg (fun h => h rfl), if_neg hinfo]

/-- An archive of blank tracks, as many bytes as a disk has. -/
theorem readDms_blank {lens : List Nat} (hcount : lens.length ≤ 80) (hne : lens ≠ [])
    (hlens : ∀ len ∈ lens, 2048 < len ∧ len ≤ trackBufferLen) (hsum : lens.sum = adfBytes) :
    ∃ adf info r, readDms (blankArchive lens) = .ok (adf, info) ∧ decodeTracks (blankArchive lens) = .ok r ∧
      r.out = lens.zipIdx.map fun p => (p.2, List.replicate p.1 0) := by
  have hfuel : lens.length < (blankArchive lens).length := by
    have hrecords (n : Nat) : (blankRecords n lens).length = 25 * lens.length := by
      clear hcount hne hlens hsum
      induction lens generalizing n with
      | nil => rfl
      | cons len lens ih =>
        rw [blankRecords, List.length_append, length_blankRecord, ih, List.length_cons]
        omega
    have hlead : blankLead.length = 56 := rfl
    rw [blankArchive, List.length_append, hrecords]
    omega
  have hat : Reading.start.at_ = blankLead.length := rfl
  obtain ⟨r, hrun, hout, htotal⟩ := readTracks_blank tidy_start hat (.inl rfl)
    (by omega : 0 + lens.length ≤ 80) hlens hfuel
  have hdecode : decodeTracks (blankArchive lens) = .ok r := by
    rw [decodeTracks, checkHead_blank]
    exact hrun
  have htotal : r.total = adfBytes := by
    rw [htotal, hsum]
    rfl
  have hempty : r.out ≠ [] := by
    obtain ⟨len, rest, rfl⟩ := List.exists_cons_of_ne_nil hne
    rw [hout]
    simp
  have hread : decode (blankArchive lens) = .ok (r.out.flatMap Prod.snd,
      ⟨r.modes, word (blankArchive lens) 16, word (blankArchive lens) 18, r.out.length, r.fileId⟩) := by
    rw [decode, hdecode]
    simp only [bind, Except.bind, htotal]
    rw [if_neg hempty, if_neg (fun h => h rfl)]
  exact ⟨_, _, r, by rw [readDms, hread], hdecode, by simpa [Reading.start] using hout⟩

/-- A disk whose first track is a sector too long and its second one too short. -/
def shifted : List Nat := 11776 :: 10752 :: List.replicate 78 cylinderBytes

theorem shifted_reads : ∃ adf info r, readDms (blankArchive shifted) = .ok (adf, info) ∧
    decodeTracks (blankArchive shifted) = .ok r ∧
      r.out = shifted.zipIdx.map fun p => (p.2, List.replicate p.1 0) := by
  refine readDms_blank (by decide) (by decide) ?_ ?_
  · decide
  · decide

theorem dms_in_place_shifted : ∃ adf info r, readDms (blankArchive shifted) = .ok (adf, info) ∧
    decodeTracks (blankArchive shifted) = .ok r ∧
      (InPlace r.out adf ↔ Standard (diskRecords (blankArchive shifted))) := by
  obtain ⟨adf, info, -, hread, -, -⟩ := shifted_reads
  obtain ⟨r, hdecode, -, hiff⟩ := dms_in_place hread
  exact ⟨adf, info, r, hread, hdecode, hiff⟩

/-- An archive that unpacks to a disk's bytes with its tracks out of place. -/
theorem shifted_out_of_place : ¬ ∀ src adf info r, readDms src = .ok (adf, info) →
    decodeTracks src = .ok r → InPlace r.out adf := by
  intro h
  obtain ⟨adf, info, r, hread, hdecode, hout⟩ := shifted_reads
  obtain ⟨hplace, -, -⟩ := h _ adf info r hread hdecode
  have hfirst := (hplace 0 0 (List.replicate 11776 0) (by rw [hout]; rfl)).2
  rw [List.length_replicate] at hfirst
  revert hfirst
  decide

end WebAdf.Archive
