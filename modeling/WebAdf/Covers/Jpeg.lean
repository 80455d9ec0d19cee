import WebAdf.Covers.Strip
import Mathlib.Data.List.TakeWhile

/-!
# JPEG covers

A JPEG as its parts: a head of segments, scans with segments between them, an EOI and
whatever follows it. The strip keeps the head's other segments and the scans byte for
byte, and drops Exif, XMP and Photoshop from the head.
-/

namespace WebAdf.Covers

open Lib

-- ---------------------------------------------------------------------------
-- Parts
-- ---------------------------------------------------------------------------

/-- A marker with a length, behind fill bytes. -/
structure Segment where
  fill : Nat
  marker : UInt8
  payload : Bytes
  fits : payload.length + 2 < 2 ^ 16

def Segment.bytes (s : Segment) : Bytes :=
  0xff :: s.marker :: byteOf (s.payload.length + 2) 1 :: byteOf (s.payload.length + 2) 0 :: s.payload

def hasLength (m : UInt8) : Bool :=
  m != 0xff && m != 0xda && m != 0xd9 && m != 0x01 && !isRestart m

/-- What stands before the first scan. -/
inductive HeadPart where
  | alone (fill : Nat) (m : UInt8) (h : (m == 0x01 || isRestart m) = true)
  | segment (s : Segment) (h : hasLength s.marker = true)

def HeadPart.fill : HeadPart → Nat
  | .alone n _ _ => n
  | .segment s _ => s.fill

def HeadPart.plain : HeadPart → HeadPart
  | .alone _ m h => .alone 0 m h
  | .segment s h => .segment { s with fill := 0 } h

def HeadPart.bytes : HeadPart → Bytes
  | .alone _ m _ => [0xff, m]
  | .segment s _ => s.bytes

/-- A part with the fill bytes before it. -/
def HeadPart.spread (p : HeadPart) : Bytes := List.replicate p.fill 0xff ++ p.bytes

/-- Exif, XMP, Photoshop. -/
def HeadPart.isMeta : HeadPart → Bool
  | .alone _ _ _ => false
  | .segment s _ => s.marker == 0xe1 || s.marker == 0xed

def HeadPart.orientation : HeadPart → Option Nat
  | .alone _ _ _ => none
  | .segment s _ => if s.marker = 0xe1 then exifOrientation s.payload else none

/-- What the Orientation is written behind: APP0, and markers without a length. -/
def HeadPart.leads : HeadPart → Bool
  | .alone _ _ _ => true
  | .segment s _ => s.marker == 0xe0

/-- The Exif segment of the Orientation alone, and none for the default. -/
def orientationPart (v : Nat) : HeadPart :=
  .segment ⟨0, 0xe1, (orientationSegment v).drop 4, by simp [orientationSegment]⟩ rfl

def written (o : Option Nat) : List HeadPart :=
  match o with
  | some v => if v ≠ 1 then [orientationPart v] else []
  | none => []

def keptParts (parts : List HeadPart) : List HeadPart :=
  (parts.filter fun p => !p.isMeta).map HeadPart.plain

def strippedHead (parts : List HeadPart) : List HeadPart :=
  (keptParts parts).takeWhile HeadPart.leads ++ written (parts.findSome? HeadPart.orientation) ++
    (keptParts parts).dropWhile HeadPart.leads

theorem plain_bytes (p : HeadPart) : p.plain.bytes = p.bytes := by
  cases p with
  | alone => rfl
  | segment => rfl

theorem plain_leads (p : HeadPart) : p.plain.leads = p.leads := by
  cases p with
  | alone => rfl
  | segment => rfl

theorem plain_isMeta (p : HeadPart) : p.plain.isMeta = p.isMeta := by
  cases p with
  | alone => rfl
  | segment => rfl

theorem plain_spread (p : HeadPart) : p.plain.spread = p.bytes := by
  cases p with
  | alone => rfl
  | segment => rfl

theorem orientationPart_bytes (v : Nat) : (orientationPart v).bytes = orientationSegment v := by
  have hlen : ((orientationSegment v).drop 4).length + 2 = 34 := rfl
  rw [orientationPart, HeadPart.bytes.eq_def]
  simp only [Segment.bytes, hlen]
  rfl

-- ---------------------------------------------------------------------------
-- The head
-- ---------------------------------------------------------------------------

theorem skipFill_marker (n : Nat) (hm : m ≠ 0xff) (rest : Bytes) :
    skipFill (List.replicate n 0xff ++ 0xff :: m :: rest) = 0xff :: m :: rest := by
  induction n with
  | zero =>
    rw [List.replicate_zero, List.nil_append, skipFill]
    rintro rest' hrest
    injection hrest with _ hrest
    injection hrest with heq _
    exact hm heq
  | succ n ih =>
    cases n with
    | zero =>
      rw [List.replicate_one, List.singleton_append, skipFill]
      exact ih
    | succ n =>
      rw [List.replicate_succ, List.replicate_succ, List.cons_append, List.cons_append, skipFill]
      rw [List.replicate_succ, List.cons_append] at ih
      exact ih

/-- What a part does to the head. -/
def Head.after (h : Head) (p : HeadPart) : Head :=
  match p with
  | .alone _ m _ => h.push [0xff, m]
  | .segment s _ =>
    if s.marker = 0xe1 || s.marker = 0xed then
      { h with orientation := if s.marker = 0xe1 then h.orientation.or (exifOrientation s.payload)
          else h.orientation }
    else
      { h with orientationAt := if s.marker = 0xe0 then h.orientationAt
          else h.orientationAt.or (some h.parts.length) }.push s.bytes

theorem hasLength_iff : hasLength m = true ↔
    m ≠ 0xff ∧ m ≠ 0xda ∧ m ≠ 0xd9 ∧ m ≠ 0x01 ∧ isRestart m = false := by
  simp [hasLength, and_assoc]

theorem cons_replicate (n : Nat) (rest : Bytes) (m : UInt8) :
    ∃ f tail, List.replicate n 0xff ++ 0xff :: m :: rest = 0xff :: f :: tail := by
  cases n with
  | zero => exact ⟨m, rest, rfl⟩
  | succ n =>
    cases n with
    | zero => exact ⟨0xff, m :: rest, rfl⟩
    | succ n => exact ⟨0xff, _, rfl⟩

theorem jpegHead_sos (fuel n : Nat) (rest : Bytes) (h : Head) :
    jpegHead (fuel + 1) (List.replicate n 0xff ++ 0xff :: 0xda :: rest) h =
      some (finish h (0xff :: 0xda :: rest)) := by
  obtain ⟨f, tail, heq⟩ := cons_replicate n rest 0xda
  have hskip := skipFill_marker n (by decide : (0xda : UInt8) ≠ 0xff) rest
  rw [heq] at hskip ⊢
  rw [jpegHead]
  simp only [hskip]
  simp

theorem jpegHead_part (fuel : Nat) (p : HeadPart) (rest : Bytes) (h : Head) :
    jpegHead (fuel + 1) (p.spread ++ rest) h = jpegHead fuel rest (h.after p) := by
  cases p with
  | alone n m hm =>
    have hmne : m ≠ 0xff ∧ m ≠ 0xda ∧ m ≠ 0xd9 := by
      refine ⟨?_, ?_, ?_⟩
      · rintro rfl
        revert hm
        decide
      · rintro rfl
        revert hm
        decide
      · rintro rfl
        revert hm
        decide
    have hspread : (HeadPart.alone n m hm).spread ++ rest =
        List.replicate n 0xff ++ 0xff :: m :: rest := by
      simp [HeadPart.spread, HeadPart.fill, HeadPart.bytes]
    obtain ⟨f, tail, heq⟩ := cons_replicate n rest m
    have hskip := skipFill_marker n hmne.1 rest
    rw [hspread]
    rw [heq] at hskip ⊢
    rw [jpegHead]
    simp only [hskip]
    have hm' : (decide (m = 0x01) || isRestart m) = true := by simpa using hm
    simp [hmne.2.1, hmne.2.2, hm', Head.after]
  | segment s hs =>
    obtain ⟨hff, hda, hd9, h01, hrst⟩ := hasLength_iff.mp hs
    have hspread : (HeadPart.segment s hs).spread ++ rest =
        List.replicate s.fill 0xff ++ 0xff :: s.marker :: byteOf (s.payload.length + 2) 1 ::
          byteOf (s.payload.length + 2) 0 :: (s.payload ++ rest) := by
      simp [HeadPart.spread, HeadPart.fill, HeadPart.bytes, Segment.bytes]
    obtain ⟨f, tail, heq⟩ := cons_replicate s.fill (byteOf (s.payload.length + 2) 1 ::
      byteOf (s.payload.length + 2) 0 :: (s.payload ++ rest)) s.marker
    have hskip := skipFill_marker s.fill hff (byteOf (s.payload.length + 2) 1 ::
      byteOf (s.payload.length + 2) 0 :: (s.payload ++ rest))
    rw [hspread]
    rw [heq] at hskip ⊢
    rw [jpegHead]
    simp only [hskip, be16_put s.fits]
    have hlong : ¬ (s.payload ++ rest).length + 2 < s.payload.length + 2 := by
      rw [List.length_append]
      omega
    have hshort : ¬ s.payload.length + 2 < 2 := by omega
    simp only [ne_eq, not_true_eq_false, if_false, hda, hd9, h01, hrst, Bool.or_false, decide_false,
      Bool.false_eq_true, hlong, hshort, Nat.add_sub_cancel, List.take_left', List.drop_left',
      Head.after]
    split
    · rfl
    · rfl

theorem jpegHead_parts (parts : List HeadPart) (fuel n : Nat) (rest : Bytes) (h : Head)
    (hfuel : parts.length < fuel) :
    jpegHead fuel (parts.flatMap HeadPart.spread ++ (List.replicate n 0xff ++ 0xff :: 0xda :: rest)) h =
      some (finish (parts.foldl Head.after h) (0xff :: 0xda :: rest)) := by
  induction parts generalizing fuel h with
  | nil =>
    obtain ⟨fuel, rfl⟩ : ∃ k, fuel = k + 1 := ⟨fuel - 1, by simp at hfuel; omega⟩
    exact jpegHead_sos fuel n rest h
  | cons p parts ih =>
    obtain ⟨fuel, rfl⟩ : ∃ k, fuel = k + 1 := ⟨fuel - 1, by simp at hfuel; omega⟩
    rw [List.flatMap_cons, List.append_assoc, jpegHead_part, List.foldl_cons]
    exact ih fuel (h.after p) (by simp at hfuel; omega)

theorem keptParts_meta {p : HeadPart} (hp : p.isMeta = true) (parts : List HeadPart) :
    keptParts (p :: parts) = keptParts parts := by
  simp [keptParts, hp]

theorem keptParts_kept {p : HeadPart} (hp : p.isMeta = false) (parts : List HeadPart) :
    keptParts (p :: parts) = p.plain :: keptParts parts := by
  simp [keptParts, hp]

/-- Metadata is gone from the head, but for the first Orientation. -/
theorem after_meta {p : HeadPart} (hp : p.isMeta = true) (h : Head) :
    h.after p = { h with orientation := h.orientation.or p.orientation } := by
  cases p with
  | alone => cases hp
  | segment s hs =>
    have hmark : s.marker = 0xe1 ∨ s.marker = 0xed := by simpa [HeadPart.isMeta] using hp
    rcases hmark with hmark | hmark
    · simp [Head.after, HeadPart.orientation, hmark]
    · simp [Head.after, HeadPart.orientation, hmark]

theorem after_kept {p : HeadPart} (hp : p.isMeta = false) (h : Head) :
    h.after p = ⟨h.parts ++ [p.bytes], h.orientation,
      if p.leads then h.orientationAt else h.orientationAt.or (some h.parts.length)⟩ := by
  cases p with
  | alone => rfl
  | segment s hs =>
    have hmark : s.marker ≠ 0xe1 ∧ s.marker ≠ 0xed := by simpa [HeadPart.isMeta] using hp
    simp only [Head.after, hmark.1, hmark.2, decide_false, Bool.or_self, Bool.false_eq_true, if_false,
      Head.push, HeadPart.bytes, HeadPart.leads, beq_iff_eq]

theorem orientation_kept {p : HeadPart} (hp : p.isMeta = false) : p.orientation = none := by
  cases p with
  | alone => rfl
  | segment s hs =>
    have hmark : s.marker ≠ 0xe1 ∧ s.marker ≠ 0xed := by simpa [HeadPart.isMeta] using hp
    rw [HeadPart.orientation, if_neg hmark.1]

/-- What the head has gathered after its parts. -/
theorem after_parts (parts : List HeadPart) (h : Head) :
    (parts.foldl Head.after h).parts = h.parts ++ (keptParts parts).map HeadPart.bytes ∧
      (parts.foldl Head.after h).orientation =
        h.orientation.or (parts.findSome? HeadPart.orientation) ∧
      (parts.foldl Head.after h).orientationAt.getD (parts.foldl Head.after h).parts.length =
        h.orientationAt.getD
          (h.parts.length + ((keptParts parts).takeWhile HeadPart.leads).length) := by
  induction parts generalizing h with
  | nil => simp [keptParts]
  | cons p parts ih =>
    rw [List.foldl_cons]
    obtain ⟨hparts, horientation, hat⟩ := ih (h.after p)
    rw [hat, hparts, horientation]
    cases hp : p.isMeta with
    | true =>
      rw [after_meta hp, keptParts_meta hp, List.findSome?_cons]
      refine ⟨rfl, ?_, rfl⟩
      cases p.orientation with
      | none => simp
      | some o => cases h.orientation <;> rfl
    | false =>
      rw [after_kept hp, keptParts_kept hp, List.findSome?_cons, orientation_kept hp]
      refine ⟨by simp [plain_bytes], rfl, ?_⟩
      cases hl : p.leads with
      | true =>
        rw [List.takeWhile_cons_of_pos (by rw [plain_leads, hl])]
        simp only [if_true, List.length_append, List.length_cons, List.length_nil]
        congr 1
        omega
      | false =>
        rw [List.takeWhile_cons_of_neg (by rw [plain_leads, hl]; decide)]
        cases h.orientationAt <;> rfl

theorem flatMap_spread {ps : List HeadPart} (h : ∀ p ∈ ps, p.spread = p.bytes) :
    ps.flatMap HeadPart.spread = (ps.map HeadPart.bytes).flatten := by
  rw [List.flatMap_def, List.map_congr_left h]

theorem spread_kept {parts : List HeadPart} (hp : p ∈ keptParts parts) : p.spread = p.bytes := by
  obtain ⟨q, -, rfl⟩ := List.mem_map.mp hp
  rw [plain_spread, plain_bytes]

theorem mem_written (h : p ∈ written o) : ∃ v, o = some v ∧ v ≠ 1 ∧ p = orientationPart v := by
  cases o with
  | none => cases h
  | some v =>
    rw [written] at h
    split at h
    · rename_i hv
      exact ⟨v, rfl, hv, List.mem_singleton.mp h⟩
    · cases h

theorem spread_stripped {parts : List HeadPart} (hp : p ∈ strippedHead parts) : p.spread = p.bytes := by
  rw [strippedHead, List.mem_append, List.mem_append] at hp
  rcases hp with (hp | hp) | hp
  · exact spread_kept ((List.takeWhile_subset _) hp)
  · obtain ⟨v, -, -, rfl⟩ := mem_written hp
    rfl
  · exact spread_kept ((List.dropWhile_suffix _).subset hp)

theorem out_parts (parts : List HeadPart) :
    (parts.foldl Head.after ⟨[[0xff, 0xd8]], none, none⟩).out =
      [0xff, 0xd8] :: (strippedHead parts).map HeadPart.bytes := by
  obtain ⟨hparts, horientation, hat⟩ := after_parts parts ⟨[[0xff, 0xd8]], none, none⟩
  have hsplit : (keptParts parts).map HeadPart.bytes =
      ((keptParts parts).takeWhile HeadPart.leads).map HeadPart.bytes ++
        ((keptParts parts).dropWhile HeadPart.leads).map HeadPart.bytes := by
    rw [← List.map_append, List.takeWhile_append_dropWhile]
  rw [Head.out, hat, horientation, hparts, Option.none_or, Option.getD_none]
  rw [strippedHead, List.map_append, List.map_append]
  have hall : [[0xff, 0xd8]] ++ (keptParts parts).map HeadPart.bytes =
      [0xff, 0xd8] :: (((keptParts parts).takeWhile HeadPart.leads).map HeadPart.bytes ++
        ((keptParts parts).dropWhile HeadPart.leads).map HeadPart.bytes) := by
    rw [hsplit]
    rfl
  cases parts.findSome? HeadPart.orientation with
  | none =>
    simp only [written, List.map_nil, List.append_nil]
    exact hall
  | some o =>
    simp only [written]
    split
    · have hlen : [([0xff, 0xd8] : Bytes)].length + ((keptParts parts).takeWhile HeadPart.leads).length =
          ([0xff, 0xd8] :: ((keptParts parts).takeWhile HeadPart.leads).map HeadPart.bytes).length := by
        simp only [List.length_cons, List.length_nil, List.length_map]
        omega
      rw [hall, hlen, ← List.cons_append, List.take_left' rfl, List.drop_left' rfl, List.map_singleton,
        orientationPart_bytes]
      rfl
    · rw [List.map_nil, List.append_nil]
      exact hall

theorem finish_parts (parts : List HeadPart) (scans : Bytes) :
    finish (parts.foldl Head.after ⟨[[0xff, 0xd8]], none, none⟩) scans =
      [0xff, 0xd8] ++ (strippedHead parts).flatMap HeadPart.spread ++ scansKept scans := by
  rw [finish, out_parts, flatMap_spread fun p hp => spread_stripped hp]
  simp

theorem parts_length (parts : List HeadPart) : 2 * parts.length ≤ (parts.flatMap HeadPart.spread).length := by
  induction parts with
  | nil => simp
  | cons p parts ih =>
    have hp : 2 ≤ p.spread.length := by
      cases p with
      | alone => simp [HeadPart.spread, HeadPart.bytes]
      | segment s _ =>
        simp [HeadPart.spread, HeadPart.bytes, Segment.bytes]
        omega
    rw [List.flatMap_cons, List.length_append, List.length_cons]
    omega

/-- What the strip makes of a head and what follows its first SOS. -/
theorem stripJpeg_parts (parts : List HeadPart) (n : Nat) (rest : Bytes) :
    stripJpeg ([0xff, 0xd8] ++ parts.flatMap HeadPart.spread ++
        (List.replicate n 0xff ++ 0xff :: 0xda :: rest)) =
      [0xff, 0xd8] ++ (strippedHead parts).flatMap HeadPart.spread ++
        scansKept (0xff :: 0xda :: rest) := by
  have hlen := parts_length parts
  rw [List.append_assoc]
  have hcons : ([0xff, 0xd8] : Bytes) ++ (parts.flatMap HeadPart.spread ++
      (List.replicate n 0xff ++ 0xff :: 0xda :: rest)) =
      0xff :: 0xd8 :: (parts.flatMap HeadPart.spread ++
        (List.replicate n 0xff ++ 0xff :: 0xda :: rest)) := rfl
  have hfuel : parts.length < (0xff :: 0xd8 :: (parts.flatMap HeadPart.spread ++
      (List.replicate n 0xff ++ 0xff :: 0xda :: rest))).length := by
    simp only [List.length_cons, List.length_append, List.length_replicate]
    omega
  have hlong : ¬ (0xff :: 0xd8 :: (parts.flatMap HeadPart.spread ++
      (List.replicate n 0xff ++ 0xff :: 0xda :: rest))).length < 4 := by
    simp only [List.length_cons, List.length_append, List.length_replicate]
    omega
  rw [hcons, stripJpeg, if_neg hlong, jpegHead_parts parts _ n rest _ hfuel, Option.getD_some,
    finish_parts]

-- ---------------------------------------------------------------------------
-- Scans
-- ---------------------------------------------------------------------------

/-- Entropy-coded data: a byte, a stuffed 0xff, or a restart. -/
inductive Code where
  | byte (c : UInt8) (h : c ≠ 0xff)
  | stuffed
  | restart (m : UInt8) (h : isRestart m = true)

def Code.bytes : Code → Bytes
  | .byte c _ => [c]
  | .stuffed => [0xff, 0x00]
  | .restart m _ => [0xff, m]

/-- A marker that ends entropy-coded data. -/
def isMarker (m : UInt8) : Bool := m != 0x00 && m != 0xff && !isRestart m

theorem isMarker_iff : isMarker m = true ↔ m ≠ 0x00 ∧ m ≠ 0xff ∧ isRestart m = false := by
  simp [isMarker, and_assoc]

theorem entropyEnd_fill (tail : Bytes) : entropyEnd (0xff :: 0xff :: tail) = entropyEnd (0xff :: tail) := by
  have hr : isRestart 0xff = false := by decide
  rw [entropyEnd]
  simp [hr]

theorem entropyEnd_marker (n : Nat) (hm : isMarker m = true) (rest : Bytes) :
    entropyEnd (List.replicate n 0xff ++ 0xff :: m :: rest) = some (0xff :: m :: rest) := by
  obtain ⟨h00, hff, hrst⟩ := isMarker_iff.mp hm
  have hbase : entropyEnd (0xff :: m :: rest) = some (0xff :: m :: rest) := by
    rw [entropyEnd]
    simp [h00, hff, hrst]
  induction n with
  | zero => exact hbase
  | succ n ih =>
    have hcons : ∃ tail, List.replicate n 0xff ++ 0xff :: m :: rest = 0xff :: tail := by
      cases n with
      | zero => exact ⟨_, rfl⟩
      | succ n => exact ⟨_, rfl⟩
    obtain ⟨tail, htail⟩ := hcons
    rw [List.replicate_succ, List.cons_append, htail, entropyEnd_fill, ← htail]
    exact ih

theorem entropyEnd_code (c : Code) (rest : Bytes) (hrest : rest ≠ []) :
    entropyEnd (c.bytes ++ rest) = entropyEnd rest := by
  cases c with
  | byte c hc =>
    cases rest with
    | nil => exact absurd rfl hrest
    | cons n rest =>
      rw [Code.bytes, List.singleton_append, entropyEnd]
      simp [hc]
  | stuffed =>
    rw [Code.bytes, List.cons_append, List.singleton_append, entropyEnd]
    simp
  | restart m hm =>
    rw [Code.bytes, List.cons_append, List.singleton_append, entropyEnd]
    simp [hm]

theorem entropyEnd_codes (codes : List Code) (n : Nat) (hm : isMarker m = true) (rest : Bytes) :
    entropyEnd (codes.flatMap Code.bytes ++ (List.replicate n 0xff ++ 0xff :: m :: rest)) =
      some (0xff :: m :: rest) := by
  induction codes with
  | nil => exact entropyEnd_marker n hm rest
  | cons c codes ih =>
    rw [List.flatMap_cons, List.append_assoc, entropyEnd_code c _ (by simp)]
    exact ih

/-- Where the data ends, whatever comes behind its marker. -/
theorem entropyEnd_some {b r : Bytes} (h : entropyEnd b = some r) :
    ∃ pre m rest, isMarker m = true ∧ r = 0xff :: m :: rest ∧ b = pre ++ r ∧
      ∀ rest', entropyEnd (pre ++ 0xff :: m :: rest') = some (0xff :: m :: rest') := by
  induction b using entropyEnd.induct with
  | case1 f n rest hf ih =>
    rw [entropyEnd, if_pos hf] at h
    obtain ⟨pre, m, rest', hm, hr, hb, hall⟩ := ih h
    refine ⟨f :: pre, m, rest', hm, hr, by rw [hb]; rfl, fun t => ?_⟩
    exact (entropyEnd_code (.byte f hf) _ (by simp)).trans (hall t)
  | case2 f n rest hf hn ih =>
    have hff : f = 0xff := not_not.mp hf
    rw [entropyEnd, if_neg hf, if_pos hn] at h
    obtain ⟨pre, m, rest', hm, hr, hb, hall⟩ := ih h
    refine ⟨f :: n :: pre, m, rest', hm, hr, by rw [hb]; rfl, fun t => ?_⟩
    rw [List.cons_append, List.cons_append, entropyEnd, if_neg hf, if_pos hn]
    exact hall t
  | case3 f rest hf hn ih =>
    have hff : f = 0xff := not_not.mp hf
    rw [hff, entropyEnd_fill] at h
    obtain ⟨pre, m, rest', hm, hr, hb, hall⟩ := ih h
    refine ⟨f :: pre, m, rest', hm, hr, by rw [hb]; rfl, fun t => ?_⟩
    have hnext : ∃ tail, pre ++ 0xff :: m :: t = 0xff :: tail := by
      cases pre with
      | nil => exact ⟨_, rfl⟩
      | cons c pre =>
        injection hb with hc
        exact ⟨_, by rw [← hc]; rfl⟩
    obtain ⟨tail, htail⟩ := hnext
    rw [hff, List.cons_append, htail, entropyEnd_fill, ← htail]
    exact hall t
  | case4 f n rest hf hn hfill =>
    have hff : f = 0xff := not_not.mp hf
    rw [entropyEnd, if_neg hf, if_neg hn, if_neg hfill] at h
    have hm : isMarker n = true := by
      simp only [Bool.or_eq_true, decide_eq_true_eq, not_or, Bool.not_eq_true] at hn
      exact isMarker_iff.mpr ⟨hn.1, hfill, hn.2⟩
    refine ⟨[], n, rest, hm, ?_, ?_, fun t => entropyEnd_marker 0 hm t⟩
    · rw [← Option.some.inj h, hff]
    · rw [← Option.some.inj h]
      rfl
  | case5 b hb =>
    have hnone : entropyEnd b = none := by
      match b, hb with
      | [], _ => rfl
      | [_], _ => rfl
      | f :: n :: rest, hb => exact absurd rfl (hb f n rest)
    rw [hnone] at h
    cases h

/-- A segment of the scans, with the data behind it where it is an SOS. -/
structure ScanPart where
  segment : Segment
  data : List Code
  coded : segment.marker ≠ 0xda → data = []

def ScanPart.bytes (p : ScanPart) : Bytes := p.segment.bytes ++ p.data.flatMap Code.bytes

def ScanPart.spread (p : ScanPart) : Bytes := List.replicate p.segment.fill 0xff ++ p.bytes

theorem nextMarker_part (p : ScanPart) (n : Nat) (hm : isMarker m = true) (rest : Bytes) :
    nextMarker p.segment.marker
        (p.data.flatMap Code.bytes ++ (List.replicate n 0xff ++ 0xff :: m :: rest)) =
      some (0xff :: m :: rest) := by
  obtain ⟨-, hff, -⟩ := isMarker_iff.mp hm
  rw [nextMarker]
  split
  · rw [entropyEnd_codes p.data n hm, Option.map_some]
    exact congrArg some (skipFill_marker 0 hff rest)
  · rename_i hne
    rw [p.coded hne, List.flatMap_nil, List.nil_append, Option.map_some, skipFill_marker n hff]

theorem jpegEoiEnd_next {payload b : Bytes} {hi lo : UInt8} (hlen : be16 hi lo = payload.length + 2)
    (h : nextMarker mk b = some (0xff :: m :: t)) (fuel : Nat) (f : UInt8) :
    jpegEoiEnd (fuel + 1) (f :: mk :: hi :: lo :: (payload ++ b)) =
      if m = 0xd9 then some t
      else if m = 0x00 || m = 0x01 || isRestart m then none
      else jpegEoiEnd fuel (0xff :: m :: t) := by
  have hlong : ¬ (payload ++ b).length + 2 < payload.length + 2 := by
    rw [List.length_append]
    omega
  have hshort : ¬ payload.length + 2 < 2 := by omega
  rw [jpegEoiEnd]
  simp only [hlen, hlong, hshort, decide_false, Bool.or_self, Bool.false_eq_true, if_false,
    Nat.add_sub_cancel, List.drop_left', h]

theorem jpegEoiEnd_part (fuel : Nat) (p : ScanPart) (n : Nat) (hm : isMarker m = true) (rest : Bytes) :
    jpegEoiEnd (fuel + 1) (p.bytes ++ (List.replicate n 0xff ++ 0xff :: m :: rest)) =
      if m = 0xd9 then some rest else if m = 0x01 then none else jpegEoiEnd fuel (0xff :: m :: rest) := by
  obtain ⟨h00, -, hrst⟩ := isMarker_iff.mp hm
  have hbytes : p.bytes ++ (List.replicate n 0xff ++ 0xff :: m :: rest) =
      0xff :: p.segment.marker :: byteOf (p.segment.payload.length + 2) 1 ::
        byteOf (p.segment.payload.length + 2) 0 :: (p.segment.payload ++
          (p.data.flatMap Code.bytes ++ (List.replicate n 0xff ++ 0xff :: m :: rest))) := by
    simp [ScanPart.bytes, Segment.bytes]
  rw [hbytes, jpegEoiEnd_next (be16_put p.segment.fits) (nextMarker_part p n hm rest)]
  simp [h00, hrst]

/-- A marker that may stand between scans. -/
def isBetween (m : UInt8) : Bool := isMarker m && m != 0xd9 && m != 0x01

theorem isBetween_iff : isBetween m = true ↔ isMarker m = true ∧ m ≠ 0xd9 ∧ m ≠ 0x01 := by
  simp [isBetween, and_assoc]

theorem jpegEoiEnd_scans (more : List ScanPart) (hmore : ∀ p ∈ more, isBetween p.segment.marker = true)
    (fuel : Nat) (first : ScanPart) (n : Nat) (trailing : Bytes) (hfuel : more.length < fuel) :
    jpegEoiEnd fuel (first.bytes ++ (more.flatMap ScanPart.spread ++
      (List.replicate n 0xff ++ 0xff :: 0xd9 :: trailing))) = some trailing := by
  induction more generalizing fuel first with
  | nil =>
    obtain ⟨fuel, rfl⟩ : ∃ k, fuel = k + 1 := ⟨fuel - 1, by simp at hfuel; omega⟩
    rw [List.flatMap_nil, List.nil_append, jpegEoiEnd_part fuel first n (by decide)]
    rfl
  | cons p more ih =>
    obtain ⟨fuel, rfl⟩ : ∃ k, fuel = k + 1 := ⟨fuel - 1, by simp at hfuel; omega⟩
    obtain ⟨hm, hd9, h01⟩ := isBetween_iff.mp (hmore p (List.mem_cons_self ..))
    have hnext := ih (fun q hq => hmore q (List.mem_cons_of_mem _ hq)) fuel p
      (by simp at hfuel; omega)
    obtain ⟨tail, htail⟩ : ∃ tail, p.bytes ++ (more.flatMap ScanPart.spread ++
        (List.replicate n 0xff ++ 0xff :: 0xd9 :: trailing)) = 0xff :: p.segment.marker :: tail :=
      ⟨_, rfl⟩
    have hsplit : (p :: more).flatMap ScanPart.spread ++
        (List.replicate n 0xff ++ 0xff :: 0xd9 :: trailing) =
        List.replicate p.segment.fill 0xff ++ 0xff :: p.segment.marker :: tail := by
      rw [← htail, List.flatMap_cons, ScanPart.spread, List.append_assoc, List.append_assoc]
    rw [hsplit, jpegEoiEnd_part fuel first p.segment.fill hm, if_neg hd9, if_neg h01, ← htail]
    exact hnext

theorem skipFill_some {b : Bytes} (h : skipFill b = 0xff :: m :: rest) :
    m ≠ 0xff ∧ ∃ n, b = List.replicate n 0xff ++ 0xff :: m :: rest := by
  induction b using skipFill.induct with
  | case1 tail ih =>
    rw [skipFill] at h
    obtain ⟨hm, n, hn⟩ := ih h
    exact ⟨hm, n + 1, by rw [hn, List.replicate_succ]; rfl⟩
  | case2 b hb =>
    have hself : skipFill b = b := by
      match b, hb with
      | [], _ => rfl
      | [c], _ => simp [skipFill]
      | c :: d :: tail, hb =>
        rw [skipFill]
        rintro rest' heq
        exact hb rest' heq
    rw [hself] at h
    refine ⟨?_, 0, h⟩
    rintro rfl
    exact hb rest h

theorem nextMarker_some {mk : UInt8} {b : Bytes} (h : nextMarker mk b = some (0xff :: m :: rest)) :
    ∃ pre, b = pre ++ 0xff :: m :: rest ∧
      ∀ t, nextMarker mk (pre ++ 0xff :: m :: t) = some (0xff :: m :: t) := by
  rw [nextMarker] at h
  split at h
  · rename_i hsos
    rw [Option.map_eq_some_iff] at h
    obtain ⟨past, hpast, hskip⟩ := h
    obtain ⟨pre, m', rest', hm', rfl, hb, hall⟩ := entropyEnd_some hpast
    obtain ⟨-, hff, -⟩ := isMarker_iff.mp hm'
    have hself := skipFill_marker 0 hff rest'
    rw [List.replicate_zero, List.nil_append] at hself
    rw [hself] at hskip
    injection hskip with _ hskip
    injection hskip with hm hrest
    subst hm hrest
    refine ⟨pre, hb, fun t => ?_⟩
    rw [nextMarker, if_pos hsos, hall, Option.map_some]
    exact congrArg some (skipFill_marker 0 hff t)
  · rename_i hsos
    rw [Option.map_some, Option.some.injEq] at h
    obtain ⟨hff, n, hn⟩ := skipFill_some h
    refine ⟨_, hn, fun t => ?_⟩
    rw [nextMarker, if_neg hsos, Option.map_some, skipFill_marker n hff]

/-- Where the scans end, whatever comes behind their EOI. -/
theorem jpegEoiEnd_some {fuel : Nat} {b : Bytes} (h : jpegEoiEnd fuel b = some rest) :
    ∃ pre, b = pre ++ rest ∧ 4 ≤ pre.length ∧
      ∀ k t, pre.length ≤ k → jpegEoiEnd k (pre ++ t) = some t := by
  induction fuel generalizing b with
  | zero => cases h
  | succ fuel ih =>
    match b with
    | [] | [_] | [_, _] | [_, _, _] => cases h
    | f :: mk :: hi :: lo :: tail =>
      rw [jpegEoiEnd] at h
      split at h
      · cases h
      · rename_i hlen
        simp only [Bool.or_eq_true, decide_eq_true_eq, not_or, Nat.not_lt] at hlen
        split at h
        · rename_i m' rest' hnext
          obtain ⟨pre, htail, hall⟩ := nextMarker_some hnext
          have hpayload : be16 hi lo = (tail.take (be16 hi lo - 2)).length + 2 := by
            rw [List.length_take]
            omega
          have hb : f :: mk :: hi :: lo :: tail = f :: mk :: hi :: lo ::
              (tail.take (be16 hi lo - 2) ++ (pre ++ 0xff :: m' :: rest')) := by
            rw [← htail, List.take_append_drop]
          have hstep := fun fuel t => jpegEoiEnd_next hpayload (hall t) fuel f
          generalize tail.take (be16 hi lo - 2) = payload at hb hstep
          split at h
          · rename_i heoi
            cases h
            refine ⟨f :: mk :: hi :: lo :: (payload ++ (pre ++ [0xff, m'])), ?_, by simp, fun k t hk => ?_⟩
            · rw [hb]
              simp
            · obtain ⟨k, rfl⟩ : ∃ j, k = j + 1 := ⟨k - 1, by simp at hk; omega⟩
              have hnow := hstep k t
              rw [if_pos heoi] at hnow
              rw [← hnow]
              simp
          · rename_i heoi
            split at h
            · cases h
            · rename_i hstray
              obtain ⟨pre', hpre, hlong, hall'⟩ := ih h
              -- the rest of the scans starts with the marker met
              obtain ⟨mid, rfl⟩ : ∃ mid, pre' = 0xff :: m' :: mid := by
                match pre', hpre, hlong with
                | c :: d :: mid, hpre, _ =>
                  injection hpre with hc hpre
                  injection hpre with hd _
                  exact ⟨mid, by rw [hc, hd]⟩
              have hrest : rest' = mid ++ rest := by
                injection hpre with _ hpre
                injection hpre
              refine ⟨f :: mk :: hi :: lo :: (payload ++ (pre ++ 0xff :: m' :: mid)), ?_, by simp,
                fun k t hk => ?_⟩
              · rw [hb, hrest]
                simp
              · obtain ⟨k, rfl⟩ : ∃ j, k = j + 1 := ⟨k - 1, by simp at hk; omega⟩
                have hnow := hstep k (mid ++ t)
                rw [if_neg heoi, if_neg hstray] at hnow
                have hlast := hall' k t (by simp at hk ⊢; omega)
                rw [List.cons_append, List.cons_append] at hlast
                rw [← hlast, ← hnow]
                simp
        · cases h

-- ---------------------------------------------------------------------------
-- Stripped again
-- ---------------------------------------------------------------------------

theorem scansKept_eoi {pre : Bytes} (hlong : 4 ≤ pre.length)
    (hall : ∀ k t, pre.length ≤ k → jpegEoiEnd k (pre ++ t) = some t) (t : Bytes) :
    scansKept (pre ++ t) = pre := by
  rw [scansKept, hall _ t (by simp)]
  simp

/-- What is kept of the scans starts where they start, and is kept whole. -/
theorem scansKept_again (x : Bytes) :
    ∃ y, scansKept (0xff :: 0xda :: x) = 0xff :: 0xda :: y ∧
      scansKept (0xff :: 0xda :: y) = 0xff :: 0xda :: y := by
  cases heoi : jpegEoiEnd (0xff :: 0xda :: x).length (0xff :: 0xda :: x) with
  | none =>
    have hkept : scansKept (0xff :: 0xda :: x) = 0xff :: 0xda :: x := by
      rw [scansKept, heoi]
    exact ⟨x, hkept, hkept⟩
  | some rest =>
    obtain ⟨pre, hpre, hlong, hall⟩ := jpegEoiEnd_some heoi
    obtain ⟨y, rfl⟩ : ∃ y, pre = 0xff :: 0xda :: y := by
      match pre, hpre, hlong with
      | c :: d :: y, hpre, _ =>
        injection hpre with hc hpre
        injection hpre with hd _
        exact ⟨y, by rw [hc, hd]⟩
    refine ⟨y, ?_, ?_⟩
    · rw [hpre, scansKept_eoi hlong hall]
    · have hself := scansKept_eoi hlong hall []
      rw [List.append_nil] at hself
      exact hself

theorem orientationEntry_range {seg : Bytes} (h : orientationEntry seg little n e = some v) :
    1 ≤ v ∧ v ≤ 8 := by
  induction n generalizing e with
  | zero => cases h
  | succ n ih =>
    rw [orientationEntry] at h
    split at h
    · cases h
    · split at h
      · dsimp only at h
        split at h
        · rename_i hrange
          cases h
          exact hrange
        · cases h
      · exact ih h

theorem exifOrientation_range {seg : Bytes} (h : exifOrientation seg = some v) : 1 ≤ v ∧ v ≤ 8 := by
  rw [exifOrientation] at h
  split at h
  · cases h
  · dsimp only at h
    split at h
    · cases h
    · split at h
      · cases h
      · split at h
        · cases h
        · exact orientationEntry_range h

/-- The Orientation written back is read as itself. -/
theorem exifOrientation_written : ∀ v ≤ 8, 1 ≤ v → exifOrientation ((orientationSegment v).drop 4) = some v := by
  decide

theorem orientation_written (hv : 1 ≤ v ∧ v ≤ 8) : (orientationPart v).orientation = some v := by
  rw [orientationPart, HeadPart.orientation.eq_def]
  simp only [if_true]
  exact exifOrientation_written v hv.2 hv.1

theorem orientation_range {parts : List HeadPart} (h : parts.findSome? HeadPart.orientation = some v) :
    1 ≤ v ∧ v ≤ 8 := by
  obtain ⟨p, -, hp⟩ := List.exists_of_findSome?_eq_some h
  cases p with
  | alone => cases hp
  | segment s _ =>
    rw [HeadPart.orientation.eq_def] at hp
    dsimp only at hp
    split at hp
    · exact exifOrientation_range hp
    · cases hp

theorem kept_isMeta {parts : List HeadPart} (hp : p ∈ keptParts parts) : p.isMeta = false := by
  obtain ⟨q, hq, rfl⟩ := List.mem_map.mp hp
  have hmeta := (List.mem_filter.mp hq).2
  rw [plain_isMeta]
  simpa using hmeta

theorem keptParts_of_kept {parts : List HeadPart} (h : ∀ p ∈ parts, p.isMeta = false) :
    keptParts parts = parts.map HeadPart.plain := by
  rw [keptParts, List.filter_eq_self.mpr]
  rintro p hp
  rw [h p hp]
  rfl

theorem plain_kept {parts : List HeadPart} : (keptParts parts).map HeadPart.plain = keptParts parts := by
  rw [keptParts, List.map_map]
  refine List.map_congr_left fun p _ => ?_
  cases p with
  | alone => rfl
  | segment => rfl

theorem keptParts_append (ps qs : List HeadPart) : keptParts (ps ++ qs) = keptParts ps ++ keptParts qs := by
  simp [keptParts]

theorem keptParts_written (o : Option Nat) : keptParts (written o) = [] := by
  rw [keptParts, List.map_eq_nil_iff, List.filter_eq_nil_iff]
  rintro p hp
  obtain ⟨v, -, -, rfl⟩ := mem_written hp
  exact fun hno => absurd hno (by simp [orientationPart, HeadPart.isMeta])

theorem keptParts_stripped (parts : List HeadPart) : keptParts (strippedHead parts) = keptParts parts := by
  have hself : keptParts (keptParts parts) = keptParts parts := by
    rw [keptParts_of_kept fun p hp => kept_isMeta hp, plain_kept]
  have hsplit := congrArg keptParts
    (List.takeWhile_append_dropWhile (p := HeadPart.leads) (l := keptParts parts))
  rw [keptParts_append, hself] at hsplit
  rw [strippedHead, keptParts_append, keptParts_append, keptParts_written, List.append_nil, hsplit]

theorem findSome_kept {parts : List HeadPart} (h : ∀ p ∈ parts, p.isMeta = false) :
    parts.findSome? HeadPart.orientation = none := by
  rw [List.findSome?_eq_none_iff]
  exact fun p hp => orientation_kept (h p hp)

theorem written_stripped (parts : List HeadPart) :
    written ((strippedHead parts).findSome? HeadPart.orientation) =
      written (parts.findSome? HeadPart.orientation) := by
  have hlead : ((keptParts parts).takeWhile HeadPart.leads).findSome? HeadPart.orientation = none :=
    findSome_kept fun p hp => kept_isMeta ((List.takeWhile_subset _) hp)
  have hrest : ((keptParts parts).dropWhile HeadPart.leads).findSome? HeadPart.orientation = none :=
    findSome_kept fun p hp => kept_isMeta ((List.dropWhile_suffix _).subset hp)
  rw [strippedHead, List.findSome?_append, List.findSome?_append, hlead, hrest, Option.none_or,
    Option.or_none]
  cases ho : parts.findSome? HeadPart.orientation with
  | none => rfl
  | some v =>
    rw [written]
    split
    · rename_i hv
      rw [List.findSome?_cons, orientation_written (orientation_range ho), written, if_pos hv]
    · rfl

theorem strippedHead_again (parts : List HeadPart) :
    strippedHead (strippedHead parts) = strippedHead parts := by
  have hself : strippedHead (strippedHead parts) =
      (keptParts (strippedHead parts)).takeWhile HeadPart.leads ++
        written ((strippedHead parts).findSome? HeadPart.orientation) ++
        (keptParts (strippedHead parts)).dropWhile HeadPart.leads := rfl
  rw [hself, keptParts_stripped, written_stripped]
  rfl

theorem skipFill_head {tail r : Bytes} (h : skipFill (0xff :: tail) = f :: r) : f = 0xff := by
  induction tail with
  | nil =>
    simp only [skipFill, List.cons.injEq] at h
    exact h.1.symm
  | cons c tail ih =>
    by_cases hc : c = 0xff
    · rw [hc, skipFill] at h
      exact ih h
    · rw [skipFill] at h
      · injection h with h
        exact h.symm
      · rintro rest heq
        injection heq with _ heq
        injection heq with heq
        exact hc heq

theorem byteOf_be16 (hi lo : UInt8) : byteOf (be16 hi lo) 1 = hi ∧ byteOf (be16 hi lo) 0 = lo := by
  have hhi := hi.toNat_lt
  have hlo := lo.toNat_lt
  constructor
  · apply UInt8.toNat_inj.mp
    rw [toNat_byteOf, be16]
    omega
  · apply UInt8.toNat_inj.mp
    rw [toNat_byteOf, be16]
    omega

/-- What the strip changes starts with a head and an SOS. -/
theorem jpegHead_some {b : Bytes} {h : Head} (hb : jpegHead fuel b h = some out) :
    ∃ (parts : List HeadPart) (n : Nat) (rest : Bytes),
      b = parts.flatMap HeadPart.spread ++ (List.replicate n 0xff ++ 0xff :: 0xda :: rest) := by
  induction fuel generalizing b h with
  | zero => cases hb
  | succ fuel ih =>
    have hmore : ∀ (p : HeadPart) (rest : Bytes) (h' : Head), b = p.spread ++ rest →
        jpegHead fuel rest h' = some out →
        ∃ (parts : List HeadPart) (n : Nat) (rest : Bytes),
          b = parts.flatMap HeadPart.spread ++ (List.replicate n 0xff ++ 0xff :: 0xda :: rest) := by
      rintro p rest h' hp hrest
      obtain ⟨parts, n, rest', heq⟩ := ih hrest
      exact ⟨p :: parts, n, rest', by rw [hp, heq, List.flatMap_cons, List.append_assoc]⟩
    match b with
    | [] | [_] => cases hb
    | f :: c :: tail =>
      rw [jpegHead] at hb
      split at hb
      · cases hb
      · rename_i hf
        have hff : f = 0xff := not_not.mp hf
        subst hff
        split at hb
        · rename_i f' m rest hskip
          have hf' := skipFill_head hskip
          subst hf'
          obtain ⟨hm, n, hn⟩ := skipFill_some hskip
          split at hb
          · rename_i hsos
            exact ⟨[], n, rest, by rw [hn, hsos]; rfl⟩
          · rename_i hda
            split at hb
            · cases hb
            · rename_i hd9
              split at hb
              · rename_i halone
                have halone' : (m == 0x01 || isRestart m) = true := by simpa using halone
                refine hmore (.alone n m halone') rest _ ?_ hb
                rw [hn, HeadPart.spread, HeadPart.fill, HeadPart.bytes, List.append_assoc]
                rfl
              · rename_i halone
                simp only [Bool.or_eq_true, decide_eq_true_eq, not_or, Bool.not_eq_true] at halone
                split at hb
                · rename_i hi lo after
                  have hlt := hi.toNat_lt
                  have hlt' := lo.toNat_lt
                  dsimp only at hb
                  split at hb
                  · cases hb
                  · rename_i hlen
                    simp only [Bool.or_eq_true, decide_eq_true_eq, not_or, Nat.not_lt] at hlen
                    have hpayload : (after.take (be16 hi lo - 2)).length + 2 = be16 hi lo := by
                      rw [List.length_take]
                      omega
                    have hfits : (after.take (be16 hi lo - 2)).length + 2 < 2 ^ 16 := by
                      rw [hpayload, be16]
                      omega
                    have hspread : (0xff : UInt8) :: c :: tail =
                        (HeadPart.segment ⟨n, m, after.take (be16 hi lo - 2), hfits⟩
                          (hasLength_iff.mpr ⟨hm, hda, hd9, halone.1, halone.2⟩)).spread ++
                          after.drop (be16 hi lo - 2) := by
                      rw [hn]
                      simp only [HeadPart.spread, HeadPart.fill, HeadPart.bytes, Segment.bytes, hpayload,
                        (byteOf_be16 hi lo).1, (byteOf_be16 hi lo).2, List.append_assoc, List.cons_append,
                        List.take_append_drop]
                    split at hb
                    · exact hmore _ _ _ hspread hb
                    · exact hmore _ _ _ hspread hb
                · cases hb
        · cases hb

/-- The strip leaves the bytes as they are, or they have a head and an SOS. -/
theorem stripJpeg_cases (b : Bytes) :
    stripJpeg b = b ∨ ∃ (parts : List HeadPart) (n : Nat) (rest : Bytes),
      b = [0xff, 0xd8] ++ parts.flatMap HeadPart.spread ++
        (List.replicate n 0xff ++ 0xff :: 0xda :: rest) := by
  rw [stripJpeg.eq_def]
  split
  · rename_i rest
    split
    · exact .inl rfl
    · cases hhead : jpegHead (0xff :: 0xd8 :: rest).length rest ⟨[[0xff, 0xd8]], none, none⟩ with
      | none => exact .inl rfl
      | some out =>
        obtain ⟨parts, n, rest', heq⟩ := jpegHead_some hhead
        exact .inr ⟨parts, n, rest', by rw [heq, List.append_assoc]; rfl⟩
  · exact .inl rfl

theorem stripJpeg_again (b : Bytes) : stripJpeg (stripJpeg b) = stripJpeg b := by
  rcases stripJpeg_cases b with hsame | ⟨parts, n, rest, rfl⟩
  · rw [hsame]
    exact hsame
  · obtain ⟨y, hkept, hagain⟩ := scansKept_again rest
    have hnext := stripJpeg_parts (strippedHead parts) 0 y
    rw [List.replicate_zero, List.nil_append] at hnext
    rw [stripJpeg_parts, hkept, hnext, strippedHead_again, hagain]

end WebAdf.Covers
