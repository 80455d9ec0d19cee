import Mathlib
import WebAdf.Covers.Strip

/-!
# Covers in chunks

A PNG and a WebP as their chunks. The strip drops the text, Exif and XMP chunks and
keeps the others byte for byte; a WebP it changes has its flags cleared and its size
set.
-/

namespace WebAdf.Covers

open Lib

-- ---------------------------------------------------------------------------
-- PNG
-- ---------------------------------------------------------------------------

structure PngChunk where
  type : Bytes
  data : Bytes
  crc : Bytes
  typeLength : type.length = 4
  crcLength : crc.length = 4
  fits : data.length < 2 ^ 32

def PngChunk.bytes (c : PngChunk) : Bytes := put32 c.data.length ++ c.type ++ c.data ++ c.crc

def PngChunk.isText (c : PngChunk) : Bool := pngDrop.contains c.type

theorem PngChunk.length_bytes (c : PngChunk) : c.bytes.length = 12 + c.data.length := by
  simp only [PngChunk.bytes, List.length_append, length_put32, c.typeLength, c.crcLength]
  omega

/-- What the walk stops at: the end chunk, or less than a chunk. -/
inductive PngEnd where
  | iend (c : PngChunk) (h : c.type = ascii "IEND") (trailing : Bytes)
  | short (rest : Bytes) (h : rest.length < 12)

def PngEnd.bytes : PngEnd → Bytes
  | .iend c _ trailing => c.bytes ++ trailing
  | .short rest _ => rest

theorem png_head (c : PngChunk) (rest : Bytes) :
    ¬ (c.bytes ++ rest).length < 12 ∧
      be32 ((c.bytes ++ rest).getD 0 0) ((c.bytes ++ rest).getD 1 0) ((c.bytes ++ rest).getD 2 0)
        ((c.bytes ++ rest).getD 3 0) = c.data.length ∧
      slice (c.bytes ++ rest) 4 4 = c.type ∧
      (c.bytes ++ rest).take (12 + c.data.length) = c.bytes ∧
      (c.bytes ++ rest).drop (12 + c.data.length) = rest := by
  have hlen := c.length_bytes
  refine ⟨by rw [List.length_append]; omega, ?_, ?_, List.take_left' hlen, List.drop_left' hlen⟩
  · simp only [PngChunk.bytes, put32, List.cons_append, List.getD_cons_zero, List.getD_cons_succ]
    exact be32_put c.fits
  · have hdrop : (c.bytes ++ rest).drop 4 = c.type ++ (c.data ++ c.crc ++ rest) := by
      simp [PngChunk.bytes, put32]
    rw [slice, hdrop, List.take_left' c.typeLength]

theorem pngChunks_chunk {c : PngChunk} (hc : c.type ≠ ascii "IEND") (fuel : Nat) (rest : Bytes)
    (parts : List Bytes) (dropped : Bool) :
    pngChunks (fuel + 1) (c.bytes ++ rest) parts dropped =
      pngChunks fuel rest (if c.isText then parts else parts ++ [c.bytes]) (dropped || c.isText) := by
  obtain ⟨hlong, hlen, htype, htake, hdrop⟩ := png_head c rest
  rw [pngChunks, if_neg hlong]
  simp only [hlen, htype, htake, hdrop, if_neg hc, PngChunk.isText, List.contains_eq_mem, decide_eq_true_eq]
  rw [if_neg]
  rw [List.length_append, c.length_bytes]
  omega

theorem pngChunks_end (fuel : Nat) (e : PngEnd) (parts : List Bytes) (dropped : Bool) :
    ∃ parts' rest, pngChunks (fuel + 1) e.bytes parts dropped = some (parts', dropped, rest) ∧
      (parts' ++ [rest]).flatten = parts.flatten ++ e.bytes := by
  cases e with
  | iend c h trailing =>
    obtain ⟨hlong, hlen, htype, htake, hdrop⟩ := png_head c trailing
    have hkeep : c.type ∉ pngDrop := by
      rw [h]
      decide
    refine ⟨parts ++ [c.bytes], trailing, ?_, ?_⟩
    · rw [PngEnd.bytes, pngChunks, if_neg hlong]
      have hlong' : ¬ (c.bytes ++ trailing).length < 12 + c.data.length := by
        rw [List.length_append, c.length_bytes]
        omega
      simp only [hlen, htype, htake, hdrop, if_neg hlong', if_pos h, hkeep, decide_false,
        Bool.or_false, if_false]
    · simp [PngEnd.bytes]
  | short rest h =>
    refine ⟨parts, rest, ?_, ?_⟩
    · rw [PngEnd.bytes, pngChunks, if_pos h]
    · simp [PngEnd.bytes]

def keptChunks (cs : List PngChunk) : List PngChunk := cs.filter fun c => !c.isText

theorem pngChunks_run (cs : List PngChunk) (hcs : ∀ c ∈ cs, c.type ≠ ascii "IEND") (e : PngEnd) (fuel : Nat)
    (hfuel : cs.length < fuel) (parts : List Bytes) (dropped : Bool) :
    ∃ parts' rest, pngChunks fuel (cs.flatMap PngChunk.bytes ++ e.bytes) parts dropped =
        some (parts', dropped || cs.any PngChunk.isText, rest) ∧
      (parts' ++ [rest]).flatten =
        parts.flatten ++ (keptChunks cs).flatMap PngChunk.bytes ++ e.bytes := by
  induction cs generalizing fuel parts dropped with
  | nil =>
    obtain ⟨fuel, rfl⟩ : ∃ k, fuel = k + 1 := ⟨fuel - 1, by simp at hfuel; omega⟩
    obtain ⟨parts', rest, hrun, hflat⟩ := pngChunks_end fuel e parts dropped
    exact ⟨parts', rest, by simpa using hrun, by simpa [keptChunks] using hflat⟩
  | cons c cs ih =>
    obtain ⟨fuel, rfl⟩ : ∃ k, fuel = k + 1 := ⟨fuel - 1, by simp at hfuel; omega⟩
    obtain ⟨parts', rest, hrun, hflat⟩ := ih (fun d hd => hcs d (List.mem_cons_of_mem _ hd)) fuel
      (by simp at hfuel; omega) (if c.isText then parts else parts ++ [c.bytes]) (dropped || c.isText)
    refine ⟨parts', rest, ?_, ?_⟩
    · rw [List.flatMap_cons, List.append_assoc, pngChunks_chunk (hcs c (List.mem_cons_self ..)), hrun,
        List.any_cons, Bool.or_assoc]
    · rw [hflat]
      cases hc : c.isText with
      | true => simp [keptChunks, hc]
      | false => simp [keptChunks, hc]

structure Png where
  sig : Bytes
  chunks : List PngChunk
  ending : PngEnd
  sigLength : sig.length = 8
  isPng : sig.getD 0 0 = 0x89 ∧ asciiAt sig 1 "PNG" = true
  middle : ∀ c ∈ chunks, c.type ≠ ascii "IEND"

def Png.bytes (p : Png) : Bytes := p.sig ++ p.chunks.flatMap PngChunk.bytes ++ p.ending.bytes

/-- A PNG without its text and Exif. -/
def Png.stripped (p : Png) : Png :=
  { p with
    chunks := keptChunks p.chunks
    middle := fun c hc => p.middle c (List.mem_filter.mp hc).1 }

theorem stripped_bytes (p : Png) :
    p.stripped.bytes = p.sig ++ (keptChunks p.chunks).flatMap PngChunk.bytes ++ p.ending.bytes := rfl

theorem kept_none {cs : List PngChunk} (h : cs.any PngChunk.isText = false) : keptChunks cs = cs := by
  rw [keptChunks, List.filter_eq_self]
  rintro c hc
  have hno := List.any_eq_false.mp h c hc
  simpa using hno

theorem chunks_length (cs : List PngChunk) : 12 * cs.length ≤ (cs.flatMap PngChunk.bytes).length := by
  induction cs with
  | nil => simp
  | cons c cs ih =>
    rw [List.flatMap_cons, List.length_append, List.length_cons, c.length_bytes]
    omega

theorem asciiAt_append {b : Bytes} {s : String} (h : i + s.length ≤ b.length) (rest : Bytes) :
    asciiAt (b ++ rest) i s = asciiAt b i s := by
  have hslice : slice (b ++ rest) i s.length = slice b i s.length := by
    rw [slice, slice, List.drop_append_of_le_length (by omega),
      List.take_append_of_le_length (by rw [List.length_drop]; omega)]
  rw [asciiAt, asciiAt, hslice]

theorem stripPng_png (p : Png) : stripPng p.bytes = p.stripped.bytes := by
  obtain ⟨h89, hpng⟩ := p.isPng
  have hsig := p.sigLength
  have hstart : p.bytes.getD 0 0 = 0x89 ∧ asciiAt p.bytes 1 "PNG" = true := by
    have hrest : p.bytes = p.sig ++ (p.chunks.flatMap PngChunk.bytes ++ p.ending.bytes) := by
      rw [Png.bytes, List.append_assoc]
    have hfits : 1 + "PNG".length ≤ p.sig.length := by
      rw [hsig]
      decide
    rw [hrest, asciiAt_append hfits, hpng, List.getD_append _ _ _ _ (by omega), h89]
    exact ⟨rfl, rfl⟩
  have htake : p.bytes.take 8 = p.sig := by
    rw [Png.bytes, List.append_assoc, List.take_left' hsig]
  have hdrop : p.bytes.drop 8 = p.chunks.flatMap PngChunk.bytes ++ p.ending.bytes := by
    rw [Png.bytes, List.append_assoc, List.drop_left' hsig]
  have hlen := chunks_length p.chunks
  have hbytes : p.bytes.length =
      8 + (p.chunks.flatMap PngChunk.bytes).length + p.ending.bytes.length := by
    rw [Png.bytes, List.length_append, List.length_append, hsig]
  rw [stripPng, hstart.1, hstart.2, htake, hdrop]
  split
  · rename_i hshort
    simp only [ne_eq, not_true_eq_false, decide_false, Bool.or_false, Bool.not_true,
      decide_eq_true_eq] at hshort
    have hnil : p.chunks = [] := List.length_eq_zero_iff.mp (by omega)
    rw [stripped_bytes, Png.bytes, hnil]
    rfl
  · obtain ⟨parts', rest, hrun, hflat⟩ := pngChunks_run p.chunks p.middle p.ending p.bytes.length
      (by omega) [p.sig] false
    rw [hrun]
    simp only [List.flatten_cons, List.flatten_nil, List.append_nil] at hflat
    cases hany : p.chunks.any PngChunk.isText with
    | true => exact hflat
    | false => rw [stripped_bytes, kept_none hany, Png.bytes]; rfl

theorem put32_be32 (a b c d : UInt8) : put32 (be32 a b c d) = [a, b, c, d] := by
  have := a.toNat_lt
  have := b.toNat_lt
  have := c.toNat_lt
  have := d.toNat_lt
  simp only [put32, be32, List.cons.injEq, and_true, ← UInt8.toNat_inj, toNat_byteOf]
  omega

/-- Bytes that start with a whole chunk. -/
theorem exists_chunk {b : Bytes} (h : ¬ b.length < 12)
    (hlen : ¬ b.length < 12 + be32 (b.getD 0 0) (b.getD 1 0) (b.getD 2 0) (b.getD 3 0)) :
    ∃ (c : PngChunk) (rest : Bytes), b = c.bytes ++ rest := by
  match b, h with
  | [], h | [_], h | [_, _], h | [_, _, _], h => exact absurd (by simp) h
  | b₀ :: b₁ :: b₂ :: b₃ :: tail, h =>
    simp only [List.getD_cons_zero, List.getD_cons_succ, List.length_cons] at hlen h
    have hlt := be32_lt b₀ b₁ b₂ b₃
    have hword := put32_be32 b₀ b₁ b₂ b₃
    generalize be32 b₀ b₁ b₂ b₃ = len at hlen hlt hword
    have hdata : (slice tail 4 len).length = len := by
      rw [length_slice]
      omega
    refine ⟨⟨tail.take 4, slice tail 4 len, slice tail (4 + len) 4, by rw [List.length_take]; omega,
      by rw [length_slice]; omega, by rw [hdata]; exact hlt⟩, tail.drop (4 + len + 4), ?_⟩
    have htail : tail.take 4 ++ slice tail 4 len ++ slice tail (4 + len) 4 ++ tail.drop (4 + len + 4) =
        tail := by
      rw [slice, slice, ← List.take_add, ← List.take_add, List.take_append_drop]
    rw [PngChunk.bytes]
    simp only [hdata, hword]
    simpa using htail.symm

theorem pngChunks_some {fuel : Nat} {b : Bytes} (hfuel : b.length ≤ fuel)
    (h : pngChunks fuel b parts dropped = some r) :
    ∃ (cs : List PngChunk) (e : PngEnd), (∀ c ∈ cs, c.type ≠ ascii "IEND") ∧
      b = cs.flatMap PngChunk.bytes ++ e.bytes := by
  induction fuel generalizing b parts dropped with
  | zero =>
    have hnil : b = [] := List.length_eq_zero_iff.mp (by omega)
    exact ⟨[], .short [] (by decide), by simp, by rw [hnil]; rfl⟩
  | succ fuel ih =>
    by_cases hshort : b.length < 12
    · exact ⟨[], .short b hshort, by simp, rfl⟩
    · by_cases hlen : b.length < 12 + be32 (b.getD 0 0) (b.getD 1 0) (b.getD 2 0) (b.getD 3 0)
      · rw [pngChunks, if_neg hshort] at h
        simp only [if_pos hlen] at h
        cases h
      · obtain ⟨c, rest, rfl⟩ := exists_chunk hshort hlen
        by_cases hend : c.type = ascii "IEND"
        · exact ⟨[], .iend c hend rest, by simp, rfl⟩
        · rw [pngChunks_chunk hend] at h
          rw [List.length_append, c.length_bytes] at hfuel
          obtain ⟨cs, e, hcs, hrest⟩ := ih (by omega) h
          refine ⟨c :: cs, e, ?_, by rw [hrest, List.flatMap_cons, List.append_assoc]⟩
          rintro d hd
          rcases List.mem_cons.mp hd with rfl | hd
          · exact hend
          · exact hcs d hd

/-- The strip leaves the bytes as they are, or they are a PNG's chunks. -/
theorem stripPng_cases (b : Bytes) : stripPng b = b ∨ ∃ p : Png, b = p.bytes := by
  by_cases hsig : b.length < 8 + 12 || b.getD 0 0 ≠ 0x89 || !asciiAt b 1 "PNG"
  · exact .inl (by rw [stripPng, if_pos hsig])
  · cases hrun : pngChunks b.length (b.drop 8) [b.take 8] false with
    | none => exact .inl (by rw [stripPng, if_neg hsig, hrun])
    | some r =>
      obtain ⟨cs, e, hcs, hdrop⟩ := pngChunks_some (by rw [List.length_drop]; omega) hrun
      simp only [ne_eq, Bool.or_eq_true, decide_eq_true_eq, not_or, Nat.not_lt, not_not,
        Bool.not_eq_true', Bool.not_eq_false] at hsig
      obtain ⟨⟨hlen, h89⟩, hpng⟩ := hsig
      have htake : (b.take 8).length = 8 := by
        rw [List.length_take]
        omega
      have hfits : 1 + "PNG".length ≤ (b.take 8).length := by
        rw [htake]
        decide
      have hname : asciiAt (b.take 8) 1 "PNG" = true := by
        rw [← asciiAt_append hfits (b.drop 8), List.take_append_drop]
        exact hpng
      have hfirst : (b.take 8).getD 0 0 = 0x89 := by
        rw [← List.getD_append _ (b.drop 8) _ _ (by omega), List.take_append_drop]
        exact h89
      refine .inr ⟨⟨b.take 8, cs, e, htake, ⟨hfirst, hname⟩, hcs⟩, ?_⟩
      rw [Png.bytes, List.append_assoc, ← hdrop, List.take_append_drop]

theorem keptChunks_again (cs : List PngChunk) : keptChunks (keptChunks cs) = keptChunks cs := by
  rw [keptChunks, keptChunks, List.filter_filter]
  simp

theorem stripPng_again (b : Bytes) : stripPng (stripPng b) = stripPng b := by
  rcases stripPng_cases b with hsame | ⟨p, rfl⟩
  · rw [hsame]
    exact hsame
  · have htwice : p.stripped.stripped.bytes = p.stripped.bytes := by
      rw [stripped_bytes p.stripped, stripped_bytes p]
      exact congrArg (p.sig ++ List.flatMap PngChunk.bytes · ++ p.ending.bytes) (keptChunks_again p.chunks)
    rw [stripPng_png, stripPng_png, htwice]

-- ---------------------------------------------------------------------------
-- WebP
-- ---------------------------------------------------------------------------

/-- A chunk of a RIFF file; only the last may lack the pad byte of an odd length. -/
structure RiffChunk where
  type : Bytes
  data : Bytes
  pad : Bytes
  typeLength : type.length = 4
  padLength : pad.length ≤ data.length % 2
  fits : data.length < 2 ^ 32

def RiffChunk.bytes (c : RiffChunk) : Bytes := c.type ++ putLe32 c.data.length ++ c.data ++ c.pad

def RiffChunk.whole (c : RiffChunk) : Prop := c.pad.length = c.data.length % 2

/-- Exif, XMP. -/
def RiffChunk.isMeta (c : RiffChunk) : Bool := c.type == ascii "EXIF" || c.type == ascii "XMP "

/-- The header chunk, its Exif and XMP flags cleared; another as it is. -/
def RiffChunk.cleared (c : RiffChunk) : RiffChunk :=
  if c.type = ascii "VP8X" ∧ 10 ≤ c.data.length then
    { c with
      data := c.data.set 0 (c.data.getD 0 0 &&& ~~~(0x08 ||| 0x04))
      padLength := by rw [List.length_set]; exact c.padLength
      fits := by rw [List.length_set]; exact c.fits }
  else c

theorem RiffChunk.length_bytes (c : RiffChunk) : c.bytes.length = 8 + c.data.length + c.pad.length := by
  simp only [RiffChunk.bytes, List.length_append, length_putLe32, c.typeLength]

/-- Chunks one after another, with less than a chunk's header behind them. -/
inductive Laid : List RiffChunk → Bytes → Prop where
  | done : rest.length < 8 → Laid [] rest
  | next : c.whole ∨ (cs = [] ∧ rest = []) → Laid cs rest → Laid (c :: cs) rest

def keptRiff (cs : List RiffChunk) : List RiffChunk :=
  (cs.filter fun c => !c.isMeta).map RiffChunk.cleared

theorem riff_head (c : RiffChunk) (rest : Bytes) (hc : c.whole ∨ rest = []) :
    ¬ (c.bytes ++ rest).length < 8 ∧ le32 ((c.bytes ++ rest).drop 4) = c.data.length ∧
      ¬ (c.bytes ++ rest).length < 8 + c.data.length ∧
      (∀ s, s.length = 4 → asciiAt (c.bytes ++ rest) 0 s = (c.type == ascii s)) ∧
      (c.bytes ++ rest).take (8 + c.data.length + c.data.length % 2) = c.bytes ∧
      (c.bytes ++ rest).drop (8 + c.data.length + c.data.length % 2) = rest := by
  have hlen := c.length_bytes
  have hpad := c.padLength
  refine ⟨by rw [List.length_append]; omega, ?_, by rw [List.length_append]; omega, ?_, ?_, ?_⟩
  · have hdrop : (c.bytes ++ rest).drop 4 = putLe32 c.data.length ++ (c.data ++ c.pad ++ rest) := by
      rw [RiffChunk.bytes, List.append_assoc, List.append_assoc, List.append_assoc,
        List.drop_left' c.typeLength]
      simp
    rw [hdrop, le32_putLe32 c.fits]
  · rintro s hs
    have htake : slice (c.bytes ++ rest) 0 s.length = c.type := by
      rw [slice, List.drop_zero, hs, RiffChunk.bytes, List.append_assoc, List.append_assoc,
        List.append_assoc, List.take_left' c.typeLength]
    rw [asciiAt, htake]
  · rcases hc with hwhole | rfl
    · refine List.take_left' ?_
      rw [hlen, hwhole]
    · rw [List.append_nil, List.take_of_length_le (by omega)]
  · rcases hc with hwhole | rfl
    · refine List.drop_left' ?_
      rw [hlen, hwhole]
    · rw [List.append_nil, List.drop_eq_nil_of_le (by omega)]

theorem cleared_bytes (c : RiffChunk) :
    c.cleared.bytes = if c.type = ascii "VP8X" ∧ 10 ≤ c.data.length then clearFlags c.bytes else c.bytes := by
  rw [RiffChunk.cleared]
  split
  · rename_i hflags
    have hbytes : c.bytes = (c.type ++ putLe32 c.data.length) ++ (c.data ++ c.pad) := by
      rw [RiffChunk.bytes, List.append_assoc]
    have hlen : (c.type ++ putLe32 c.data.length).length = 8 := by
      rw [List.length_append, c.typeLength, length_putLe32]
    have hpos : 0 < c.data.length := by omega
    rw [clearFlags, hbytes, List.getD_append_right _ _ _ _ (by omega), List.set_append_right _ _ (by omega),
      hlen, Nat.sub_self, List.getD_append _ _ _ _ hpos, List.set_append_left _ _ hpos]
    simp only [RiffChunk.bytes, List.length_set, List.append_assoc]
  · rfl

theorem webpChunks_chunk (c : RiffChunk) (rest : Bytes) (hc : c.whole ∨ rest = []) (fuel : Nat)
    (parts : List Bytes) (dropped : Bool) :
    webpChunks (fuel + 1) (c.bytes ++ rest) parts dropped =
      webpChunks fuel rest (if c.isMeta then parts else parts ++ [c.cleared.bytes]) (dropped || c.isMeta) := by
  obtain ⟨hlong, hlen, hfits, hascii, htake, hdrop⟩ := riff_head c rest hc
  rw [webpChunks, if_neg hlong]
  simp only [hlen, if_neg hfits, htake, hdrop]
  rw [hascii "EXIF" rfl, hascii "XMP " rfl, hascii "VP8X" rfl]
  have hmeta : (c.type == ascii "EXIF" || c.type == ascii "XMP ") = c.isMeta := rfl
  rw [hmeta, cleared_bytes]
  cases c.isMeta with
  | true => simp
  | false =>
    simp only [Bool.false_eq_true, if_false, Bool.or_false, Bool.and_eq_true, beq_iff_eq, decide_eq_true_eq]
    split
    · rfl
    · rfl

theorem webpChunks_run {cs : List RiffChunk} {rest : Bytes} (h : Laid cs rest) (fuel : Nat)
    (hfuel : cs.length < fuel) (parts : List Bytes) (dropped : Bool) :
    webpChunks fuel (cs.flatMap RiffChunk.bytes ++ rest) parts dropped =
      some (parts ++ (keptRiff cs).map RiffChunk.bytes, dropped || cs.any RiffChunk.isMeta) := by
  induction h generalizing fuel parts dropped with
  | done hshort =>
    obtain ⟨fuel, rfl⟩ : ∃ k, fuel = k + 1 := ⟨fuel - 1, by simp at hfuel; omega⟩
    rw [List.flatMap_nil, List.nil_append, webpChunks, if_pos hshort]
    simp [keptRiff]
  | next hc _ ih =>
    rename_i cs rest c _
    obtain ⟨fuel, rfl⟩ : ∃ k, fuel = k + 1 := ⟨fuel - 1, by simp at hfuel; omega⟩
    have hc' : c.whole ∨ cs.flatMap RiffChunk.bytes ++ rest = [] := by
      rcases hc with hwhole | ⟨rfl, rfl⟩
      · exact .inl hwhole
      · exact .inr rfl
    rw [List.flatMap_cons, List.append_assoc, webpChunks_chunk c _ hc', ih fuel (by simp at hfuel; omega),
      List.any_cons, Bool.or_assoc]
    cases hm : c.isMeta with
    | true => simp [keptRiff, hm]
    | false => simp [keptRiff, hm]

/-- A WebP as the walk reads it; its size as it stands. -/
structure Webp where
  size : Bytes
  chunks : List RiffChunk
  rest : Bytes
  sizeLength : size.length = 4
  laid : Laid chunks rest

def Webp.bytes (w : Webp) : Bytes :=
  ascii "RIFF" ++ w.size ++ ascii "WEBP" ++ w.chunks.flatMap RiffChunk.bytes ++ w.rest

theorem laid_kept {cs : List RiffChunk} {rest : Bytes} (h : Laid cs rest) : Laid (keptRiff cs) [] := by
  induction h with
  | done => exact .done (by decide)
  | next hc _ ih =>
    rename_i cs rest c _
    cases hm : c.isMeta with
    | true =>
      have hkept : keptRiff (c :: cs) = keptRiff cs := by simp [keptRiff, hm]
      rw [hkept]
      exact ih
    | false =>
      have hkept : keptRiff (c :: cs) = c.cleared :: keptRiff cs := by simp [keptRiff, hm]
      rw [hkept]
      refine .next ?_ ih
      rcases hc with hwhole | ⟨rfl, rfl⟩
      · refine .inl ?_
        rw [RiffChunk.cleared]
        split
        · rw [RiffChunk.whole, List.length_set]
          exact hwhole
        · exact hwhole
      · exact .inr ⟨rfl, rfl⟩

/-- A WebP without its Exif and XMP, its flags cleared and its size set. -/
def Webp.stripped (w : Webp) : Webp :=
  if w.chunks.any RiffChunk.isMeta then
    ⟨putLe32 (4 + ((keptRiff w.chunks).flatMap RiffChunk.bytes).length), keptRiff w.chunks, [], rfl,
      laid_kept w.laid⟩
  else w

theorem riff_length (cs : List RiffChunk) : 8 * cs.length ≤ (cs.flatMap RiffChunk.bytes).length := by
  induction cs with
  | nil => simp
  | cons c cs ih =>
    rw [List.flatMap_cons, List.length_append, List.length_cons, c.length_bytes]
    omega

theorem stripWebp_webp (w : Webp) : stripWebp w.bytes = w.stripped.bytes := by
  have hsize := w.sizeLength
  have hcount := riff_length w.chunks
  have hbytes : w.bytes = (ascii "RIFF" ++ w.size ++ ascii "WEBP") ++
      (w.chunks.flatMap RiffChunk.bytes ++ w.rest) := by
    rw [Webp.bytes, List.append_assoc]
  have hhead : (ascii "RIFF" ++ w.size ++ ascii "WEBP").length = 12 := by
    simp [hsize, ascii]
  have hriff : asciiAt w.bytes 0 "RIFF" = true := by
    have htake : slice w.bytes 0 4 = ascii "RIFF" := by
      rw [slice, List.drop_zero, Webp.bytes, List.append_assoc, List.append_assoc, List.append_assoc]
      exact List.take_left' rfl
    exact beq_iff_eq.mpr htake
  have hname : slice w.bytes 8 4 = ascii "WEBP" := by
    have hdrop : w.bytes.drop 8 = ascii "WEBP" ++ (w.chunks.flatMap RiffChunk.bytes ++ w.rest) := by
      rw [hbytes, List.append_assoc]
      exact List.drop_left' (by rw [List.length_append, hsize]; rfl)
    rw [slice, hdrop]
    exact List.take_left' rfl
  have hwebp : asciiAt w.bytes 8 "WEBP" = true := beq_iff_eq.mpr hname
  have hlen : w.bytes.length = 12 + ((w.chunks.flatMap RiffChunk.bytes).length + w.rest.length) := by
    rw [hbytes, List.length_append, hhead, List.length_append]
  rw [stripWebp, hriff, hwebp]
  split
  · rename_i hshort
    simp only [Bool.not_true, Bool.or_false, decide_eq_true_eq] at hshort
    have hnil : w.chunks = [] := List.length_eq_zero_iff.mp (by omega)
    rw [Webp.stripped, if_neg]
    rw [hnil]
    decide
  · have hrun := webpChunks_run w.laid w.bytes.length (by omega) [] false
    have hdrop : w.bytes.drop 12 = w.chunks.flatMap RiffChunk.bytes ++ w.rest := by
      rw [hbytes]
      exact List.drop_left' hhead
    rw [hdrop, hrun, Webp.stripped]
    cases hany : w.chunks.any RiffChunk.isMeta with
    | false => rfl
    | true =>
      have htake : w.bytes.take 4 = ascii "RIFF" := by
        rw [Webp.bytes, List.append_assoc, List.append_assoc, List.append_assoc]
        exact List.take_left' rfl
      have hflat : ((keptRiff w.chunks).map RiffChunk.bytes).flatten =
          (keptRiff w.chunks).flatMap RiffChunk.bytes := rfl
      have hsum : 12 + ((keptRiff w.chunks).flatMap RiffChunk.bytes).length - 8 =
          4 + ((keptRiff w.chunks).flatMap RiffChunk.bytes).length := by omega
      simp only [Bool.false_or, List.nil_append, if_true, htake, hname, hflat, hsum]
      rw [Webp.bytes, List.append_nil]

/-- Bytes that start with a chunk, whole or the last. -/
theorem exists_riff {b : Bytes} (h : ¬ b.length < 8) (hlen : ¬ b.length < 8 + le32 (b.drop 4)) :
    ∃ (c : RiffChunk) (rest : Bytes), b = c.bytes ++ rest ∧ (c.whole ∨ rest = []) := by
  have hlt := le32_lt (b.drop 4)
  have hword : putLe32 (le32 (b.drop 4)) = slice b 4 4 := by
    have htake : le32 (slice b 4 4) = le32 (b.drop 4) := by
      have happend := le32_append (b := slice b 4 4) (by rw [length_slice]; omega) ((b.drop 4).drop 4)
      rw [slice, List.take_append_drop] at happend
      exact happend.symm
    rw [← htake, putLe32_le32]
    rw [length_slice]
    omega
  generalize le32 (b.drop 4) = len at hlen hlt hword
  have hdata : (slice b 8 len).length = len := by
    rw [length_slice]
    omega
  refine ⟨⟨b.take 4, slice b 8 len, slice b (8 + len) (len % 2), by rw [List.length_take]; omega,
    by rw [hdata, length_slice]; omega, by rw [hdata]; exact hlt⟩, b.drop (8 + len + len % 2), ?_, ?_⟩
  · have hall : b.take 4 ++ slice b 4 4 ++ slice b 8 len ++ slice b (8 + len) (len % 2) ++
        b.drop (8 + len + len % 2) = b := by
      have h8 : (8 : Nat) = 4 + 4 := rfl
      rw [slice, slice, slice, ← List.take_add, h8, ← List.take_add, ← List.take_add, List.take_append_drop]
    rw [RiffChunk.bytes]
    simp only [hdata, hword]
    exact hall.symm
  · by_cases hfull : 8 + len + len % 2 ≤ b.length
    · refine .inl ?_
      rw [RiffChunk.whole]
      simp only [hdata]
      rw [length_slice]
      omega
    · exact .inr (List.drop_eq_nil_of_le (by omega))

theorem webpChunks_some {fuel : Nat} {b : Bytes} (hfuel : b.length ≤ fuel)
    (h : webpChunks fuel b parts dropped = some r) :
    ∃ (cs : List RiffChunk) (rest : Bytes), b = cs.flatMap RiffChunk.bytes ++ rest ∧ Laid cs rest := by
  induction fuel generalizing b parts dropped with
  | zero => exact ⟨[], b, rfl, .done (by omega)⟩
  | succ fuel ih =>
    by_cases hshort : b.length < 8
    · exact ⟨[], b, rfl, .done hshort⟩
    · by_cases hlen : b.length < 8 + le32 (b.drop 4)
      · rw [webpChunks, if_neg hshort] at h
        simp only [if_pos hlen] at h
        cases h
      · obtain ⟨c, rest, rfl, hc⟩ := exists_riff hshort hlen
        rw [webpChunks_chunk c rest hc] at h
        rw [List.length_append, c.length_bytes] at hfuel
        obtain ⟨cs, rest', hrest, hlaid⟩ := ih (by omega) h
        refine ⟨c :: cs, rest', by rw [hrest, List.flatMap_cons, List.append_assoc], .next ?_ hlaid⟩
        rcases hc with hwhole | hnil
        · exact .inl hwhole
        · have hcount := riff_length cs
          have hsum := congrArg List.length (hrest.symm.trans hnil)
          rw [List.length_append, List.length_nil] at hsum
          exact .inr ⟨List.length_eq_zero_iff.mp (by omega), List.length_eq_zero_iff.mp (by omega)⟩

/-- The strip leaves the bytes as they are, or they are a WebP's chunks. -/
theorem stripWebp_cases (b : Bytes) : stripWebp b = b ∨ ∃ w : Webp, b = w.bytes := by
  by_cases hhead : b.length < 20 || !asciiAt b 0 "RIFF" || !asciiAt b 8 "WEBP"
  · exact .inl (by rw [stripWebp, if_pos hhead])
  · cases hrun : webpChunks b.length (b.drop 12) [] false with
    | none => exact .inl (by rw [stripWebp, if_neg hhead, hrun])
    | some r =>
      obtain ⟨cs, rest, hdrop, hlaid⟩ := webpChunks_some (by rw [List.length_drop]; omega) hrun
      simp only [Bool.or_eq_true, decide_eq_true_eq, not_or, Nat.not_lt, Bool.not_eq_true',
        Bool.not_eq_false] at hhead
      obtain ⟨⟨hlen, hriff⟩, hwebp⟩ := hhead
      have hfirst : slice b 0 4 = ascii "RIFF" := beq_iff_eq.mp hriff
      have hname : slice b 8 4 = ascii "WEBP" := beq_iff_eq.mp hwebp
      refine .inr ⟨⟨slice b 4 4, cs, rest, by rw [length_slice]; omega, hlaid⟩, ?_⟩
      have hall : slice b 0 4 ++ slice b 4 4 ++ slice b 8 4 ++ b.drop 12 = b := by
        have h8 : (8 : Nat) = 4 + 4 := rfl
        have h12 : (12 : Nat) = 4 + 4 + 4 := rfl
        rw [slice, slice, slice, List.drop_zero, ← List.take_add, h8, ← List.take_add, h12,
          List.take_append_drop]
      rw [Webp.bytes, ← hfirst, ← hname, List.append_assoc, ← hdrop, hall]

theorem cleared_isMeta (c : RiffChunk) : c.cleared.isMeta = c.isMeta := by
  rw [RiffChunk.cleared]
  split
  · rfl
  · rfl

theorem stripped_isMeta (w : Webp) : w.stripped.chunks.any RiffChunk.isMeta = false := by
  rw [Webp.stripped]
  split
  · rw [List.any_eq_false]
    rintro c hc
    obtain ⟨c', hc', rfl⟩ := List.mem_map.mp hc
    have hkept := (List.mem_filter.mp hc').2
    rw [cleared_isMeta]
    simpa using hkept
  · rename_i hno
    simpa using hno

theorem stripWebp_again (b : Bytes) : stripWebp (stripWebp b) = stripWebp b := by
  rcases stripWebp_cases b with hsame | ⟨w, rfl⟩
  · rw [hsame]
    exact hsame
  · rw [stripWebp_webp, stripWebp_webp, Webp.stripped, if_neg]
    rw [stripped_isMeta]
    decide

end WebAdf.Covers
