import WebAdf.Covers.Chunks
import WebAdf.Covers.Jpeg

/-!
# Stored covers

What is stored of a cover: a whole JPEG with its head stripped and nothing behind its
EOI, a PNG or a WebP without its metadata chunks, and any other bytes as they are. A
stored cover stripped again is the same.
-/

namespace WebAdf.Covers

open Lib

/-- A whole JPEG: its scans with segments between them, and bytes behind its EOI. -/
structure Jpeg where
  head : List HeadPart
  first : ScanPart
  more : List ScanPart
  eoiFill : Nat
  trailing : Bytes
  sos : first.segment.marker = 0xda
  between : ∀ p ∈ more, isBetween p.segment.marker = true

def Jpeg.bytes (j : Jpeg) : Bytes :=
  [0xff, 0xd8] ++ j.head.flatMap HeadPart.spread ++ (j.first.spread ++ (j.more.flatMap ScanPart.spread ++
    (List.replicate j.eoiFill 0xff ++ 0xff :: 0xd9 :: j.trailing)))

def ScanPart.plain (p : ScanPart) : ScanPart :=
  { p with segment := { p.segment with fill := 0 } }

def Jpeg.stripped (j : Jpeg) : Jpeg :=
  { j with
    head := strippedHead j.head
    first := j.first.plain
    trailing := [] }

theorem scan_start (p : ScanPart) (h : p.segment.marker = 0xda) (rest : Bytes) :
    ∃ tail, p.bytes ++ rest = 0xff :: 0xda :: tail := by
  rw [ScanPart.bytes, Segment.bytes, h]
  exact ⟨_, rfl⟩

theorem length_spreads (ps : List ScanPart) : ps.length ≤ (ps.flatMap ScanPart.spread).length := by
  induction ps with
  | nil => simp
  | cons p ps ih =>
    have hp : 1 ≤ p.spread.length := by
      simp only [ScanPart.spread, ScanPart.bytes, Segment.bytes, List.length_append, List.length_cons]
      omega
    rw [List.flatMap_cons, List.length_append, List.length_cons]
    omega

theorem stripJpeg_jpeg (j : Jpeg) : stripJpeg j.bytes = j.stripped.bytes := by
  have hkept : ∀ trailing, scansKept (j.first.bytes ++ (j.more.flatMap ScanPart.spread ++
      (List.replicate j.eoiFill 0xff ++ 0xff :: 0xd9 :: trailing))) =
      j.first.bytes ++ (j.more.flatMap ScanPart.spread ++
        (List.replicate j.eoiFill 0xff ++ [0xff, 0xd9])) := by
    intro trailing
    have hmore := length_spreads j.more
    have heoi := jpegEoiEnd_scans j.more j.between (j.first.bytes ++ (j.more.flatMap ScanPart.spread ++
      (List.replicate j.eoiFill 0xff ++ 0xff :: 0xd9 :: trailing))).length j.first j.eoiFill trailing (by
        simp only [List.length_append, List.length_cons, List.length_replicate]
        omega)
    have hsplit : j.first.bytes ++ (j.more.flatMap ScanPart.spread ++
        (List.replicate j.eoiFill 0xff ++ 0xff :: 0xd9 :: trailing)) =
        (j.first.bytes ++ (j.more.flatMap ScanPart.spread ++
          (List.replicate j.eoiFill 0xff ++ [0xff, 0xd9]))) ++ trailing := by
      simp
    rw [scansKept, heoi]
    dsimp only
    rw [hsplit, List.length_append, Nat.add_sub_cancel, List.take_left' rfl]
  obtain ⟨tail, htail⟩ := scan_start j.first j.sos (j.more.flatMap ScanPart.spread ++
    (List.replicate j.eoiFill 0xff ++ 0xff :: 0xd9 :: j.trailing))
  have hbytes : j.bytes = [0xff, 0xd8] ++ j.head.flatMap HeadPart.spread ++
      (List.replicate j.first.segment.fill 0xff ++ 0xff :: 0xda :: tail) := by
    rw [← htail, Jpeg.bytes, ScanPart.spread, List.append_assoc (List.replicate j.first.segment.fill 0xff)]
  rw [hbytes, stripJpeg_parts, ← htail, hkept]
  rfl

theorem filter_written (parts : List HeadPart) :
    (strippedHead parts).filter HeadPart.isMeta = written (parts.findSome? HeadPart.orientation) := by
  have hkept : ∀ ps : List HeadPart, ps ⊆ keptParts parts → ps.filter HeadPart.isMeta = [] := by
    rintro ps hps
    rw [List.filter_eq_nil_iff]
    rintro p hp
    rw [kept_isMeta (hps hp)]
    decide
  have hwritten : (written (parts.findSome? HeadPart.orientation)).filter HeadPart.isMeta =
      written (parts.findSome? HeadPart.orientation) := by
    rw [List.filter_eq_self]
    rintro p hp
    obtain ⟨v, -, -, rfl⟩ := mem_written hp
    simp [orientationPart, HeadPart.isMeta]
  rw [strippedHead, List.filter_append, List.filter_append, hkept _ (List.takeWhile_subset _), hwritten,
    hkept _ (List.dropWhile_suffix _).subset]
  simp

-- ---------------------------------------------------------------------------
-- By their first byte
-- ---------------------------------------------------------------------------

theorem strip_jpeg {b : Bytes} (h : b.getD 0 0 = 0xff) : stripImageMetadata b = stripJpeg b := by
  rw [stripImageMetadata, if_pos h]

theorem strip_png {b : Bytes} (h : b.getD 0 0 = 0x89) : stripImageMetadata b = stripPng b := by
  rw [stripImageMetadata, if_neg (by rw [h]; decide), if_pos h]

theorem strip_webp {b : Bytes} (h : b.getD 0 0 = 0x52) : stripImageMetadata b = stripWebp b := by
  rw [stripImageMetadata, if_neg (by rw [h]; decide), if_neg (by rw [h]; decide), if_pos h]

theorem png_first (p : Png) : p.bytes.getD 0 0 = 0x89 := by
  have hsig := p.sigLength
  rw [Png.bytes, List.append_assoc, List.getD_append _ _ _ _ (by omega)]
  exact p.isPng.1

theorem webp_first (w : Webp) : w.bytes.getD 0 0 = 0x52 := by
  rw [Webp.bytes, List.append_assoc, List.append_assoc, List.append_assoc]
  rfl

theorem strip_again (b : Bytes) : stripImageMetadata (stripImageMetadata b) = stripImageMetadata b := by
  by_cases hff : b.getD 0 0 = 0xff
  · have hfirst : (stripJpeg b).getD 0 0 = 0xff := by
      rcases stripJpeg_cases b with hsame | ⟨parts, n, rest, rfl⟩
      · rw [hsame, hff]
      · rw [stripJpeg_parts]
        rfl
    rw [strip_jpeg hff, strip_jpeg hfirst, stripJpeg_again]
  · by_cases h89 : b.getD 0 0 = 0x89
    · have hfirst : (stripPng b).getD 0 0 = 0x89 := by
        rcases stripPng_cases b with hsame | ⟨p, rfl⟩
        · rw [hsame, h89]
        · rw [stripPng_png, png_first]
      rw [strip_png h89, strip_png hfirst, stripPng_again]
    · by_cases h52 : b.getD 0 0 = 0x52
      · have hfirst : (stripWebp b).getD 0 0 = 0x52 := by
          rcases stripWebp_cases b with hsame | ⟨w, rfl⟩
          · rw [hsame, h52]
          · rw [stripWebp_webp, webp_first]
        rw [strip_webp h52, strip_webp hfirst, stripWebp_again]
      · have hsame : stripImageMetadata b = b := by
          rw [stripImageMetadata, if_neg hff, if_neg h89, if_neg h52]
        rw [hsame, hsame]

theorem scansKept_prefix (scans : Bytes) : scansKept scans <+: scans := by
  rw [scansKept]
  split
  · exact List.take_prefix _ _
  · exact List.prefix_refl _

/-- Bytes the strip may change: a head up to a first SOS, or chunks. -/
theorem strip_cases (b : Bytes) : stripImageMetadata b = b ∨
    (∃ (head : List HeadPart) (n : Nat) (rest kept : Bytes),
      b = [0xff, 0xd8] ++ head.flatMap HeadPart.spread ++
        (List.replicate n 0xff ++ 0xff :: 0xda :: rest) ∧
      kept <+: 0xff :: 0xda :: rest ∧
      stripImageMetadata b = [0xff, 0xd8] ++ (strippedHead head).flatMap HeadPart.spread ++ kept) ∨
    (∃ p : Png, b = p.bytes) ∨ ∃ w : Webp, b = w.bytes := by
  by_cases hff : b.getD 0 0 = 0xff
  · rw [strip_jpeg hff]
    rcases stripJpeg_cases b with hsame | ⟨parts, n, rest, rfl⟩
    · exact .inl hsame
    · exact .inr (.inl ⟨parts, n, rest, _, rfl, scansKept_prefix _, stripJpeg_parts parts n rest⟩)
  · by_cases h89 : b.getD 0 0 = 0x89
    · rw [strip_png h89]
      rcases stripPng_cases b with hsame | hpng
      · exact .inl hsame
      · exact .inr (.inr (.inl hpng))
    · by_cases h52 : b.getD 0 0 = 0x52
      · rw [strip_webp h52]
        rcases stripWebp_cases b with hsame | hwebp
        · exact .inl hsame
        · exact .inr (.inr (.inr hwebp))
      · refine .inl ?_
        rw [stripImageMetadata, if_neg hff, if_neg h89, if_neg h52]

theorem webp_size (w : Webp) (h : w.rest = []) :
    w.bytes.length - 8 = 4 + (w.chunks.flatMap RiffChunk.bytes).length := by
  have hsize := w.sizeLength
  have hriff : (ascii "RIFF").length = 4 := rfl
  have hwebp : (ascii "WEBP").length = 4 := rfl
  rw [Webp.bytes, h]
  simp only [List.length_append, List.length_nil, hsize, hriff, hwebp]
  omega

/-- A photo whose Exif stands between its two scans. -/
def exifBetweenScans : Jpeg where
  head := []
  first := ⟨⟨0, 0xda, [1, 1, 0, 0, 63, 0], by decide⟩, [.byte 0x12 (by decide)], fun h => absurd rfl h⟩
  more := [⟨⟨0, 0xe1, ascii "Exif" ++ [0, 0] ++ ascii "GPS", by decide⟩, [], fun _ => rfl⟩,
    ⟨⟨0, 0xda, [1, 1, 0, 0, 63, 0], by decide⟩, [.byte 0x34 (by decide)], fun h => absurd rfl h⟩]
  eoiFill := 0
  trailing := []
  sos := rfl
  between := by decide

end WebAdf.Covers
