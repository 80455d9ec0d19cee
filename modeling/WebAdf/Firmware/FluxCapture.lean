import WebAdf.Firmware.DecodeLaws
import WebAdf.Firmware.FluxBits

/-!
# A captured write is the track that was written

The encoded tracks keep the cell rule round and round, so the time between two
flux changes is two, three or four cells. Fed to the accumulator, each a little
off, the times give the encoded bits back, and the decoder finds every sector.
-/

namespace WebAdf.Firmware

open Lib Adfmfm

/-- The rule holds over the whole track, and where its end meets its start. -/
theorem EncodedBy.cellRule (h : EncodedBy nsec trackNo data enc) (hnsec : Density nsec)
    (hdata : data.length = nsec * sectorDataBytes) (ht : trackNo < tracks) (n : Nat) :
    CellRule (cyclicBit enc) n := by
  obtain rfl := h.eq hnsec hdata ht
  have htrail : 0 < 444 * (nsec / sectors) := by
    obtain rfl | rfl := hnsec
    · decide
    · decide
  refine (marked_rawTrack _ _ hdata htrail).cellRule ?_ n
  rw [length_rawTrack hdata]
  omega

theorem EncodedBy.length (h : EncodedBy nsec trackNo data enc) (hnsec : Density nsec)
    (hdata : data.length = nsec * sectorDataBytes) (ht : trackNo < tracks) :
    enc.length = 256 * (nsec / sectors) + (nsec * sectorMfmBytes + 444 * (nsec / sectors)) := by
  obtain rfl := h.eq hnsec hdata ht
  rw [clockedTrack, length_clock, length_rawTrack hdata]

/-- A track starts with a flux change. -/
theorem EncodedBy.first (h : EncodedBy nsec trackNo data enc) (hnsec : Density nsec)
    (hdata : data.length = nsec * sectorDataBytes) (ht : trackNo < tracks) (k : Nat) :
    cyclicBit enc (8 * (k * enc.length)) = true := by
  have hlen := h.length hnsec hdata ht
  obtain rfl := h.eq hnsec hdata ht
  have hbyte : (clockedTrack nsec (UInt8.ofNat trackNo) data).getD 0 0 = 0xaa := by
    obtain rfl | rfl := hnsec
    · rfl
    · rfl
  rw [cyclicBit, Nat.mul_left_comm, Nat.mul_mod_left, bitAt, hbyte]
  rfl

/-- The bits of a stretch from one flux change to another are what its times give. -/
theorem feeds_window (h : ∀ m, CellRule (cyclicBit enc) m) (hfirst : cyclicBit enc off = true)
    (hend : cyclicBit enc (off + n) = true) {f : FluxBits} (hf : f.Clear)
    (hroom : f.bit + n ≤ f.capBits)
    (hns : List.Forall₂ NearCells ns (gaps (window (cyclicBit enc) off n))) :
    f.Took (ns.foldl fluxBitsFeed f) (window (cyclicBit enc) off n) := by
  have hrule := gaps_rule h hfirst hend
  cases n with
  | zero =>
    rw [show gaps (window (cyclicBit enc) off 0) = [] from rfl] at hns
    cases hns
    exact ⟨rfl, rfl, hf, fun _ _ => rfl, nofun, rfl, rfl⟩
  | succ n =>
    have hspread : spread (gaps (window (cyclicBit enc) off (n + 1))) =
        window (cyclicBit enc) off (n + 1) := by
      apply spread_gaps
      rw [window_succ, List.head?_cons, hfirst]
    have htook := foldl_fluxBitsFeed_took hf hns hrule (by rwa [hspread, length_window])
    rwa [hspread] at htook

/-- Whole turns, captured into an empty buffer. -/
theorem capture_of_took (h : (fluxBitsInit cap).Took f (window (cyclicBit enc) off (8 * m)))
    (hcap : m ≤ cap) :
    f.buf.take (fluxBitsBytes f) = capture enc off m := by
  have hbit : f.bit = 8 * m := by
    rw [h.bit, length_window]
    exact Nat.zero_add _
  have hbytes : fluxBitsBytes f = m := by
    rw [fluxBitsBytes, hbit]
    omega
  have hsize : f.buf.length = cap := by
    have := h.clear.size
    rw [h.cap, show (fluxBitsInit cap).capBits = cap * 8 from rfl] at this
    omega
  rw [hbytes]
  apply bytes_ext
  · rw [List.length_take, length_capture]
    omega
  · intro b hb
    rw [List.length_take, hsize, Nat.min_eq_left hcap] at hb
    have hat := h.appended b (by rwa [length_window])
    rw [show (fluxBitsInit cap).bit + b = b from Nat.zero_add b, window,
      List.getD_eq_getElem?_getD, List.getElem?_map, List.getElem?_range hb] at hat
    rw [bitAt_capture _ _ hb, bitAt, List.getD_eq_getElem?_getD,
      List.getElem?_take_of_lt (by omega), ← List.getD_eq_getElem?_getD, ← bitAt, hat]
    rfl

theorem capture_self (enc : Bytes) : capture enc 0 enc.length = enc := by
  apply bytes_ext (length_capture _ _ _)
  intro b hb
  rw [length_capture] at hb
  rw [bitAt_capture _ _ hb, Nat.zero_add, cyclicBit_lt _ hb]

/-- Flux times of an encoded track, each within the margin, give its bits back:
from any flux change to any other, after whatever was captured before, and over
whole turns, which decode to the data. -/
theorem flux_reproduces (hnsec : Density nsec) (hdata : data.length = nsec * sectorDataBytes)
    (ht : trackNo < tracks) (henc : EncodedBy nsec trackNo data enc)
    (hadf : adfOut.length = nsec * sectorDataBytes) :
    (∀ off n, cyclicBit enc off = true → cyclicBit enc (off + n) = true →
      (∀ k ∈ gaps (window (cyclicBit enc) off n), 2 ≤ k ∧ k ≤ 4) ∧
      ∀ f : FluxBits, f.Clear → f.bit + n ≤ f.capBits →
        ∀ ns, List.Forall₂ NearCells ns (gaps (window (cyclicBit enc) off n)) →
          f.Took (ns.foldl fluxBitsFeed f) (window (cyclicBit enc) off n)) ∧
      ∀ turns off cap, (off = 0 ∧ 0 < turns) ∨ (cyclicBit enc off = true ∧ 1 < turns) →
        turns * enc.length ≤ cap →
        ∀ ns, List.Forall₂ NearCells ns
            (gaps (window (cyclicBit enc) off (8 * (turns * enc.length)))) →
          let f := ns.foldl fluxBitsFeed (fluxBitsInit cap)
          let got := f.buf.take (fluxBitsBytes f)
          got = capture enc off (turns * enc.length) ∧ (off = 0 → turns = 1 → got = enc) ∧
            ∃ out, mfmDecodeTrackRn got adfOut nsec = (out, data) ∧ out.found = allFound nsec ∧
              out.badChecksums = 0 ∧ out.foreignSectors = 0 ∧ out.trackNo = UInt8.ofNat trackNo ∧
              out.trackNoConsistent = true := by
  have hrule := henc.cellRule hnsec hdata ht
  refine ⟨fun off n hfirst hend => ⟨gaps_rule hrule hfirst hend, fun f hf hroom ns hns =>
    feeds_window hrule hfirst hend hf hroom hns⟩, ?_⟩
  intro turns off cap hwhole hcap ns hns f got
  have hlen := henc.length hnsec hdata ht
  have hfirst : cyclicBit enc off = true := by
    rcases hwhole with ⟨rfl, -⟩ | ⟨hone, -⟩
    · have := henc.first hnsec hdata ht 0
      rwa [Nat.zero_mul] at this
    · exact hone
  have hend : cyclicBit enc (off + 8 * (turns * enc.length)) = true := by
    rw [cyclicBit, Nat.mul_left_comm, Nat.add_mul_mod_self_right, ← cyclicBit, hfirst]
  have htook := feeds_window hrule hfirst hend (fluxBitsInit_clear cap) (by
    show 0 + 8 * (turns * enc.length) ≤ cap * 8
    omega) hns
  have hgot : got = capture enc off (turns * enc.length) := capture_of_took htook hcap
  refine ⟨hgot, ?_, ?_⟩
  · rintro rfl rfl
    rw [hgot, Nat.one_mul, capture_self]
  · rw [hgot]
    obtain rfl := henc.eq hnsec hdata ht
    apply decodes_capture hnsec hdata hadf
    intro n hn q hq hat
    have hbits : bodyBits = 8640 := rfl
    have hroom := block_le (w := sectorMfmBytes) hn
    rcases hwhole with ⟨rfl, hpos⟩ | ⟨-, hmany⟩
    · rw [Nat.zero_add, Nat.mod_eq_of_lt hq] at hat
      have hturn : (clockedTrack nsec (UInt8.ofNat trackNo) data).length ≤
          turns * (clockedTrack nsec (UInt8.ofNat trackNo) data).length :=
        Nat.le_mul_of_pos_left _ hpos
      simp only [markOf, sectorMfmBytes] at *
      omega
    · have hturn : 2 * (clockedTrack nsec (UInt8.ofNat trackNo) data).length ≤
          turns * (clockedTrack nsec (UInt8.ofNat trackNo) data).length :=
        Nat.mul_le_mul_right _ hmany
      have hbig : 1088 ≤ (clockedTrack nsec (UInt8.ofNat trackNo) data).length := by
        rw [hlen]
        obtain rfl | rfl := hnsec
        · decide
        · decide
      omega

/-- The nominal times, four, six and eight microseconds. -/
theorem nominal_near (h : ∀ k ∈ ks, 2 ≤ k ∧ k ≤ 4) :
    List.Forall₂ NearCells (ks.map fun k => UInt32.ofNat (2000 * k)) ks := by
  induction ks with
  | nil => exact .nil
  | cons k ks ih =>
    have hk := h k (by simp)
    refine .cons ?_ (ih fun g hg => h g (by simp [hg]))
    rw [NearCells, UInt32.toNat_ofNat']
    omega

/-- A blank track written at the nominal times, one turn of it captured. -/
theorem flux_reproduces_blank :
    ∃ (enc : Bytes) (ns : List UInt32), enc = (mfmEncodeTrack (List.replicate trackDataBytes 0) 0
        (List.replicate trackBytes 0)).1.take trackBytes ∧
      let f := ns.foldl fluxBitsFeed (fluxBitsInit 32768)
      f.buf.take (fluxBitsBytes f) = enc := by
  obtain ⟨enc, henc⟩ : ∃ enc, enc = (mfmEncodeTrack (List.replicate trackDataBytes 0) 0
      (List.replicate trackBytes 0)).1.take trackBytes := ⟨_, rfl⟩
  have hdata : (List.replicate trackDataBytes (0 : UInt8)).length = sectors * sectorDataBytes :=
    List.length_replicate ..
  have hby : EncodedBy sectors 0 (List.replicate trackDataBytes 0) enc :=
    .inl ⟨rfl, _, (List.length_replicate ..).ge, henc⟩
  have hlen := hby.length (.inl rfl) hdata (by decide)
  have hfirst := hby.first (.inl rfl) hdata (by decide)
  have hblank : (List.replicate trackDataBytes (0xff : UInt8)).length = sectors * sectorDataBytes :=
    List.length_replicate ..
  have hall := flux_reproduces (.inl rfl) hdata (by decide) hby hblank
  have hks := (hall.1 0 (8 * (1 * enc.length)) (by simpa using hfirst 0)
    (by simpa using hfirst 1)).1
  refine ⟨enc, _, henc, ((hall.2 1 0 32768 (.inl ⟨rfl, Nat.one_pos⟩) ?_ _
    (nominal_near hks)).2.1 rfl rfl)⟩
  rw [hlen]
  decide

end WebAdf.Firmware
