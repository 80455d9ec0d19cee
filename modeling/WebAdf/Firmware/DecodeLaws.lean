import WebAdf.Firmware.EncodeLaws
import WebAdf.Firmware.ShiftLaws

/-!
# The decoder on a captured track

A capture of an encoded track, from any bit on: every sync word the decoder
sees is a written one, every body it reads verifies, and no sector is passed
over before it is read.
-/

namespace WebAdf.Firmware

open Lib Adfmfm

/-- The clocked track of `lead`, `nsec` sectors and `trail`. -/
def trackOf (lead nsec trail : Nat) (trackNo : UInt8) (data : Bytes) : Bytes :=
  clock 0 (rawTrack lead nsec trail trackNo data)

-- ---------------------------------------------------------------------------
-- One body
-- ---------------------------------------------------------------------------

section
variable {data : Bytes} {nsec lead trail : Nat} {trackNo : UInt8}

theorem length_trackOf (hdata : data.length = nsec * sectorDataBytes) :
    (trackOf lead nsec trail trackNo data).length = lead + (nsec * sectorMfmBytes + trail) := by
  rw [trackOf, length_clock, length_rawTrack hdata]

theorem readBody_sector (hdata : data.length = nsec * sectorDataBytes) (hn : n < nsec) :
    readBody (slice (trackOf lead nsec trail trackNo data) (markOf lead n + 4) secBodyBytes) =
      some ([0xff, trackNo, UInt8.ofNat n, UInt8.ofNat (nsec - n)], sectorData data n) := by
  have hsd : (sectorData data n).length = sectorDataBytes := length_sectorData hdata hn
  obtain ⟨hh, hl, hhs, hds, hd⟩ := sectorFields_at (length_headerAndLabel nsec trackNo n) hsd
  have hfield (off : Nat) {m : Nat} {src : Bytes} (h : off + 2 * m ≤ 1080) (hm : src.length = m)
      (hraw : slice (sectorFields (headerAndLabel nsec trackNo n) (sectorData data n)) off (2 * m) =
        splitLanes src) :
      mfmJoinOddEven ((slice (trackOf lead nsec trail trackNo data) (markOf lead n + 4)
        secBodyBytes).drop off) m = src := by
    rw [mfmJoinOddEven, ← joinLanes_take]
    show joinLanes (slice (slice _ _ _) off (2 * m)) m = src
    rw [slice_slice _ (show off + 2 * m ≤ secBodyBytes from h)]
    exact joinLanes_clocked ((slice_fields hdata lead trail trackNo hn h).trans hraw) hm
  have header := hfield 0 (m := 4) (by decide) rfl hh
  have label := hfield 8 (m := 16) (by decide) rfl hl
  have hdrsum := hfield 40 (m := 4) (by decide) rfl hhs
  have datsum := hfield 48 (m := 4) (by decide) rfl hds
  have sector := hfield 56 (m := sectorDataBytes) (by decide) hsd hd
  have hsum (v : UInt32) : headerBe32 (longBytes v) = v := long_longBytes v
  rw [List.drop_zero] at header
  rw [readBody, header, label, hdrsum, datsum, sector, hsum, hsum, mfmChecksum, mfmChecksum,
    List.take_append_drop, List.take_of_length_le (length_headerAndLabel nsec trackNo n).le,
    List.take_of_length_le hsd.le]
  exact if_pos ⟨rfl, rfl⟩

end

-- ---------------------------------------------------------------------------
-- A sector taken up
-- ---------------------------------------------------------------------------

theorem bit_of_sector (hn : n < mfmMaxSectors) (hi : i < 32) :
    ((1 : UInt32) <<< (UInt8.ofNat n).toUInt32).toBitVec.getLsbD i = decide (i = n) := by
  have hn : n < 22 := hn
  interval_cases n <;> interval_cases i <;> rfl

theorem and_bit_eq_zero (found : UInt32) {bit : UInt32} (hn : n < 32)
    (hbit : ∀ i < 32, bit.toBitVec.getLsbD i = decide (i = n)) :
    found &&& bit = 0 ↔ found.toBitVec.getLsbD n = false := by
  constructor
  · intro h
    have hb := congrArg (fun x : UInt32 => x.toBitVec.getLsbD n) h
    simpa [hbit n hn] using hb
  · intro h
    apply UInt32.toBitVec_inj.mp
    apply BitVec.eq_of_getLsbD_eq
    intro i hi
    by_cases hin : i = n
    · subst hin
      simp [h]
    · simp [hbit i hi, hin]

/-- What the decoder has found so far is good: the sectors whose bit is set hold
their data, and nothing was counted bad or foreign. -/
structure Good (nsec : Nat) (trackNo : UInt8) (data : Bytes) (st : DecodeState) : Prop where
  bad : st.out.badChecksums = 0
  foreign : st.out.foreignSectors = 0
  consistent : st.out.trackNoConsistent = true
  track : st.haveTrackNo = true → st.out.trackNo = trackNo
  size : st.adfOut.length = nsec * sectorDataBytes
  below : ∀ i < 32, st.out.found.toBitVec.getLsbD i = true → i < nsec ∧ st.haveTrackNo = true
  sector : ∀ n < nsec, st.out.found.toBitVec.getLsbD n = true →
    slice st.adfOut (n * sectorDataBytes) sectorDataBytes = sectorData data n

theorem noteHeader_keeps (out : DecodeResult) (known : Bool) (header : Bytes) (body : Nat) :
    (out.noteHeader known header body).found = out.found ∧
      (out.noteHeader known header body).badChecksums = out.badChecksums ∧
      (out.noteHeader known header body).foreignSectors = out.foreignSectors := by
  unfold DecodeResult.noteHeader
  split
  · exact ⟨rfl, rfl, rfl⟩
  · split
    · exact ⟨rfl, rfl, rfl⟩
    · exact ⟨rfl, rfl, rfl⟩

theorem noteHeader_track {out : DecodeResult} {known : Bool} {header : Bytes}
    (hknown : known = true → out.trackNo = header.getD 1 0) (body : Nat) :
    (DecodeResult.noteHeader out known header body).trackNo = header.getD 1 0 ∧
      (DecodeResult.noteHeader out known header body).trackNoConsistent =
        out.trackNoConsistent := by
  unfold DecodeResult.noteHeader
  cases known with
  | false => exact ⟨rfl, rfl⟩
  | true =>
    have ht := hknown rfl
    simp only [Bool.not_true, Bool.false_eq_true, if_false, ne_eq, ← ht, not_true_eq_false]
    exact ⟨trivial, trivial⟩

theorem Good.accept (h : Good nsec trackNo data st) (hdata : data.length = nsec * sectorDataBytes)
    (hn : n < nsec) (hnsec : nsec ≤ mfmMaxSectors) (body : Nat) :
    Good nsec trackNo data
        (st.accept [0xff, trackNo, UInt8.ofNat n, UInt8.ofNat (nsec - n)] (sectorData data n) body) ∧
      ∀ i < 32, (st.accept [0xff, trackNo, UInt8.ofNat n, UInt8.ofNat (nsec - n)]
        (sectorData data n) body).out.found.toBitVec.getLsbD i =
          (st.out.found.toBitVec.getLsbD i || decide (i = n)) := by
  have hnsec22 : nsec ≤ 22 := hnsec
  have hid : (UInt8.ofNat n).toNat = n := by
    rw [UInt8.toNat_ofNat']
    omega
  have hbit (i : Nat) (hi : i < 32) := bit_of_sector (Nat.lt_of_lt_of_le hn hnsec) hi
  have hsd := length_sectorData hdata hn
  have hfit : n * sectorDataBytes + (sectorData data n).length ≤ st.adfOut.length := by
    rw [hsd, h.size]
    exact block_le hn
  have hzero := and_bit_eq_zero st.out.found (by omega) hbit
  obtain ⟨hfound, hbad, hforeign⟩ := noteHeader_keeps st.out st.haveTrackNo
    [0xff, trackNo, UInt8.ofNat n, UInt8.ofNat (nsec - n)] body
  obtain ⟨htrack, hcons⟩ := noteHeader_track (show st.haveTrackNo = true →
    st.out.trackNo = [0xff, trackNo, UInt8.ofNat n, UInt8.ofNat (nsec - n)].getD 1 0 from h.track) body
  rw [DecodeState.accept]
  generalize st.out.noteHeader st.haveTrackNo _ body = out at *
  simp only [hfound, List.getD_cons_succ, List.getD_cons_zero, hid]
  cases hset : st.out.found.toBitVec.getLsbD n with
  | true =>
    rw [if_neg (by rw [hzero, hset]; simp)]
    refine ⟨⟨hbad.trans h.bad, hforeign.trans h.foreign, hcons.trans h.consistent,
      fun _ => htrack, h.size, fun i hi hb => ⟨(h.below i hi (hfound ▸ hb)).1, rfl⟩,
      fun m hm hb => h.sector m hm (hfound ▸ hb)⟩, ?_⟩
    intro i hi
    by_cases hin : i = n
    · subst hin
      simp [hfound, hset]
    · simp [hfound, hin]
  | false =>
    rw [if_pos (hzero.mpr hset)]
    have hor (i : Nat) (hi : i < 32) : (st.out.found ||| (1 : UInt32) <<<
        (UInt8.ofNat n).toUInt32).toBitVec.getLsbD i =
          (st.out.found.toBitVec.getLsbD i || decide (i = n)) := by
      rw [UInt32.toBitVec_or, BitVec.getLsbD_or, hbit i hi]
    refine ⟨⟨hbad.trans h.bad, hforeign.trans h.foreign, hcons.trans h.consistent,
      fun _ => htrack, ?_, ?_, ?_⟩, hor⟩
    · rw [length_blit hfit]
      exact h.size
    · intro i hi hb
      rw [hor i hi, Bool.or_eq_true, decide_eq_true_eq] at hb
      refine ⟨?_, rfl⟩
      obtain hb | rfl := hb
      · exact (h.below i hi hb).1
      · exact hn
    · intro m hm hb
      rw [hor m (by omega), Bool.or_eq_true, decide_eq_true_eq] at hb
      by_cases hmn : m = n
      · subst hmn
        have hself := slice_blit_self hfit
        rwa [hsd] at hself
      · rw [slice_blit_disjoint hfit ?_]
        · exact h.sector m hm (hb.resolve_right hmn)
        · rw [hsd]
          obtain hlt | hlt := Nat.lt_or_gt_of_ne hmn
          · exact .inl (block_le hlt)
          · exact .inr (block_le hlt)

-- ---------------------------------------------------------------------------
-- The search
-- ---------------------------------------------------------------------------

/-- The first copy of sector `n` in a capture from bit `off` has not been shifted
in past bit `b - 1`, and the register was not reset inside it. -/
def Ahead (off period mark r b : Nat) : Prop :=
  ∃ q, r ≤ q ∧ b ≤ q + 31 ∧ q < period ∧ (off + q) % period = 8 * mark

/-- The search stands before bit `b`, after a reset before bit `r`. -/
structure Reading (lead nsec trail : Nat) (trackNo : UInt8) (data : Bytes) (off len r b : Nat)
    (sr : UInt32) (st : DecodeState) : Prop where
  reg : Shifted (capture (trackOf lead nsec trail trackNo data) off len) r b sr
  reset : r ≤ b
  good : Good nsec trackNo data st
  ahead : ∀ n < nsec, st.out.found.toBitVec.getLsbD n = true ∨
    Ahead off (8 * (trackOf lead nsec trail trackNo data).length) (markOf lead n) r b

section
variable {data : Bytes} {nsec lead trail off len : Nat} {trackNo : UInt8}
variable (hdata : data.length = nsec * sectorDataBytes) (htrail : 0 < trail)
variable (hfits : ∀ n < nsec, ∀ q < 8 * (trackOf lead nsec trail trackNo data).length,
  (off + q) % (8 * (trackOf lead nsec trail trackNo data).length) = 8 * markOf lead n →
    q + 32 + bodyBits ≤ len * 8)
include hdata htrail

theorem sync_only_at_sector
    (hbits : ∀ k, 1 ≤ k → k < 32 → cyclicBit (trackOf lead nsec trail trackNo data) (p + k) =
      syncBit k) :
    ∃ n < nsec, p % (8 * (trackOf lead nsec trail trackNo data).length) = 8 * markOf lead n := by
  have hpos : 0 < (trackOf lead nsec trail trackNo data).length := by
    rw [length_trackOf hdata]
    omega
  obtain ⟨m, ⟨n, hn, rfl⟩, hp⟩ :=
    (marked_rawTrack lead trackNo hdata htrail).legal.sync_at_mark hpos hbits
  exact ⟨n, hn, hp⟩

theorem sync_at_sector (hn : n < nsec)
    (hp : p % (8 * (trackOf lead nsec trail trackNo data).length) = 8 * markOf lead n)
    (hk : k < 32) :
    cyclicBit (trackOf lead nsec trail trackNo data) (p + k) = syncBit k := by
  have hfit := block_le (w := sectorMfmBytes) hn
  have hin : 8 * markOf lead n + k < 8 * (trackOf lead nsec trail trackNo data).length := by
    rw [length_trackOf hdata]
    simp only [markOf, sectorMfmBytes] at *
    omega
  rw [cyclicBit, cyclic_add hp hin]
  exact (marked_rawTrack lead trackNo hdata htrail).legal.sync_bits ⟨n, hn, rfl⟩ hk

/-- A bit that completes no sync word leaves every unread sector ahead. -/
theorem Reading.plain (h : Reading lead nsec trail trackNo data off len r b sr st)
    (hb : b < 8 * len)
    (hno : b < 31 ∨ shiftIn (capture (trackOf lead nsec trail trackNo data) off len) b sr ≠
      0x44894489) :
    Reading lead nsec trail trackNo data off len r (b + 1)
      (shiftIn (capture (trackOf lead nsec trail trackNo data) off len) b sr) st := by
  have hreg := h.reg.step h.reset
  refine ⟨hreg, Nat.le_succ_of_le h.reset, h.good, ?_⟩
  intro n hn
  obtain hfound | ⟨q, hr, hbq, hlt, hq⟩ := h.ahead n hn
  · exact .inl hfound
  · refine .inr ⟨q, hr, ?_, hlt, hq⟩
    by_contra hpast
    obtain rfl : b = q + 31 := by omega
    have hsync := hreg.eq_sync hr (fun k hk => by
      rw [bitAt_capture _ _ (by omega), ← Nat.add_assoc]
      exact sync_at_sector hdata htrail hn hq hk)
    exact hno.elim (by omega) (fun hne => hne hsync)

/-- A sync word seen is that of a sector. -/
theorem Reading.at_sector
    (h : Reading lead nsec trail trackNo data off len r (p + 31) sr st) (hb : p + 31 < 8 * len)
    (hsync : shiftIn (capture (trackOf lead nsec trail trackNo data) off len) (p + 31) sr =
      0x44894489) :
    ∃ n < nsec, (off + p) % (8 * (trackOf lead nsec trail trackNo data).length) =
      8 * markOf lead n := by
  have hreg := h.reg.step h.reset
  rw [hsync] at hreg
  apply sync_only_at_sector hdata htrail
  intro k h1 hk
  rw [Nat.add_assoc, ← bitAt_capture _ off (show p + k < 8 * len by omega)]
  exact hreg.sync_bits ⟨h1, hk⟩

omit htrail in
/-- The body after a sector's sync word, realigned. -/
theorem realign_capture (hn : n < nsec)
    (hp : (off + p) % (8 * (trackOf lead nsec trail trackNo data).length) = 8 * markOf lead n)
    (hfit : p + 32 + bodyBits ≤ len * 8) :
    realign (capture (trackOf lead nsec trail trackNo data) off len) (p + 32) secBodyBytes =
      slice (trackOf lead nsec trail trackNo data) (markOf lead n + 4) secBodyBytes := by
  have hroom := block_le (w := sectorMfmBytes) hn
  have hbody : secBodyBytes = 1080 := rfl
  have hbits : bodyBits = 8640 := rfl
  have hin : 8 * markOf lead n + 8704 ≤ 8 * (trackOf lead nsec trail trackNo data).length := by
    rw [length_trackOf hdata]
    simp only [markOf, sectorMfmBytes] at *
    omega
  have hlen : (realign (capture (trackOf lead nsec trail trackNo data) off len) (p + 32)
      secBodyBytes).length = secBodyBytes :=
    length_realign (by rw [length_capture]; omega)
  apply bytes_ext
  · rw [hlen, length_slice]
    omega
  · intro k hk
    rw [hlen] at hk
    rw [bitAt_realign _ _ hk, bitAt_slice _ _ hk, bitAt_capture _ _ (by omega), cyclicBit,
      show off + (p + 32 + k) = off + p + (32 + k) by omega, cyclic_add hp (by omega)]
    congr 1
    omega

omit htrail in
/-- The candidate at a sector is taken up. -/
theorem Reading.candidate (h : Reading lead nsec trail trackNo data off len r b sr st)
    (hnsec : nsec ≤ mfmMaxSectors) (hn : n < nsec)
    (hp : (off + p) % (8 * (trackOf lead nsec trail trackNo data).length) = 8 * markOf lead n)
    (hfit : p + 32 + bodyBits ≤ len * 8) :
    ∃ st', st.candidate (capture (trackOf lead nsec trail trackNo data) off len) nsec (p + 32) =
        (true, st') ∧ Good nsec trackNo data st' ∧
      ∀ i < 32, st'.out.found.toBitVec.getLsbD i =
        (st.out.found.toBitVec.getLsbD i || decide (i = n)) := by
  have hid : ((([0xff, trackNo, UInt8.ofNat n, UInt8.ofNat (nsec - n)] : Bytes).getD 2 0)).toNat =
      n := by
    have hn22 : n < 22 := Nat.lt_of_lt_of_le hn hnsec
    show (UInt8.ofNat n).toNat = n
    rw [UInt8.toNat_ofNat']
    omega
  refine ⟨_, ?_, h.good.accept hdata hn hnsec (p + 32)⟩
  rw [DecodeState.candidate, realign_capture hdata hn hp hfit, readBody_sector hdata hn]
  simp only
  rw [hid, if_neg (by omega)]

/-- After a sector is taken up, the others unread are ahead of its end. -/
theorem Reading.stride (h : Reading lead nsec trail trackNo data off len r (p + 31) sr st)
    (hn : n < nsec)
    (hp : (off + p) % (8 * (trackOf lead nsec trail trackNo data).length) = 8 * markOf lead n)
    (hnsec : nsec ≤ mfmMaxSectors) (hgood : Good nsec trackNo data st')
    (hfound : ∀ i < 32, st'.out.found.toBitVec.getLsbD i =
      (st.out.found.toBitVec.getLsbD i || decide (i = n))) :
    Reading lead nsec trail trackNo data off len (p + 32 + bodyBits) (p + 32 + bodyBits) 0 st' := by
  have hnsec22 : nsec ≤ 22 := hnsec
  have hbits : bodyBits = 8640 := rfl
  refine ⟨Shifted.reset _ _, Nat.le_refl _, hgood, ?_⟩
  intro m hm
  rw [hfound m (by omega)]
  obtain hset | ⟨q, hr, hbq, hlt, hq⟩ := h.ahead m hm
  · exact .inl (by rw [hset, Bool.true_or])
  · by_cases hmn : m = n
    · exact .inl (by rw [hmn, decide_eq_true rfl, Bool.or_true])
    · refine .inr ⟨q, ?_, ?_, hlt, hq⟩
      all_goals
        by_contra hnear
        -- within one sector of `p` there is no other mark
        obtain ⟨d, rfl⟩ : ∃ d, q = p + d := ⟨q - p, by omega⟩
        have hroom := block_le (w := sectorMfmBytes) hn
        have hin : 8 * markOf lead n + d < 8 * (trackOf lead nsec trail trackNo data).length := by
          rw [length_trackOf hdata]
          simp only [markOf, sectorMfmBytes] at *
          omega
        have hq' := cyclic_add hp hin
        rw [Nat.add_assoc, hq] at hq'
        simp only [markOf, sectorMfmBytes] at hq'
        omega

omit hdata htrail in
include hfits in
/-- A sector still ahead fits into the capture. -/
theorem Reading.ahead_fits (h : Reading lead nsec trail trackNo data off len r b sr st)
    (hn : n < nsec) (hend : len * 8 < b + 1 + bodyBits) :
    st.out.found.toBitVec.getLsbD n = true := by
  obtain hset | ⟨q, hr, hbq, hlt, hq⟩ := h.ahead n hn
  · exact hset
  · have := hfits n hn q hlt hq
    omega

omit htrail in
/-- Before the first bit every sector is ahead. -/
theorem Reading.start (hadf : adfOut.length = nsec * sectorDataBytes) :
    Reading lead nsec trail trackNo data off len 0 0 0 ⟨emptyResult, false, adfOut⟩ := by
  have hnone (i : Nat) : ¬ (0 : UInt32).toBitVec.getLsbD i = true := by simp
  refine ⟨Shifted.reset _ _, Nat.le_refl _, ⟨rfl, rfl, rfl, fun h => (nomatch h), hadf,
    fun i _ h => absurd h (hnone i), fun n _ h => absurd h (hnone n)⟩, ?_⟩
  intro n hn
  have hroom := block_le (w := sectorMfmBytes) hn
  obtain ⟨q, hlt, hq⟩ := cyclic_phase off (m := 8 * markOf lead n)
    (M := 8 * (trackOf lead nsec trail trackNo data).length) (by
      rw [length_trackOf hdata]
      simp only [markOf, sectorMfmBytes] at *
      omega)
  exact .inr ⟨q, Nat.zero_le _, Nat.zero_le _, hlt, hq⟩

include hfits in
/-- The search ends with every sector found. -/
theorem decodeBits_finds (hnsec : nsec ≤ mfmMaxSectors)
    (h : Reading lead nsec trail trackNo data off len r b sr st) :
    ∃ st', decodeBits (capture (trackOf lead nsec trail trackNo data) off len) nsec b sr st = st' ∧
      Good nsec trackNo data st' ∧ ∀ n < nsec, st'.out.found.toBitVec.getLsbD n = true := by
  induction hk : len * 8 - b using Nat.strong_induction_on generalizing b r sr st with
  | _ k ih =>
    refine ⟨_, rfl, ?_⟩
    rw [decodeBits, length_capture]
    by_cases hb : b < len * 8
    · rw [if_pos hb]
      dsimp only
      by_cases hno : b < 31 ∨
          shiftIn (capture (trackOf lead nsec trail trackNo data) off len) b sr ≠ 0x44894489
      · rw [if_pos hno]
        obtain ⟨st', rfl, hst'⟩ := ih (len * 8 - (b + 1)) (by omega)
          (h.plain hdata htrail (by omega) hno) rfl
        exact hst'
      · rw [if_neg hno]
        rw [not_or, not_not] at hno
        obtain ⟨hb31, hsync⟩ := hno
        obtain ⟨p, rfl⟩ : ∃ p, b = p + 31 := ⟨b - 31, by omega⟩
        obtain ⟨n, hn, hp⟩ := h.at_sector hdata htrail (by omega) hsync
        by_cases hend : p + 31 + 1 + bodyBits > len * 8
        · rw [if_pos hend]
          exact ⟨h.good, fun m hm => h.ahead_fits hfits hm (by omega)⟩
        · rw [if_neg hend]
          obtain ⟨st', hcand, hgood, hfound⟩ := h.candidate hdata hnsec hn hp (by omega)
          rw [show p + 31 + 1 = p + 32 from rfl, hcand]
          simp only [if_true]
          obtain ⟨st'', rfl, hst''⟩ := ih (len * 8 - (p + 32 + bodyBits)) (by omega)
            (h.stride hdata htrail hn hp hnsec hgood hfound) rfl
          exact hst''
    · rw [if_neg hb]
      exact ⟨h.good, fun m hm => h.ahead_fits hfits hm (by omega)⟩

end

-- ---------------------------------------------------------------------------
-- The whole capture
-- ---------------------------------------------------------------------------

/-- `enc` is the track that the board encodes, through either encoder. -/
def EncodedBy (nsec trackNo : Nat) (data enc : Bytes) : Prop :=
  (nsec = sectors ∧ ∃ out, trackBytes ≤ out.length ∧
    enc = (mfmEncodeTrack data (UInt8.ofNat trackNo) out).1.take trackBytes) ∨
  (∃ out, adfMfmTrackBytes nsec ≤ out.length ∧
    enc = (adfMfmEncodeTrack data nsec trackNo out).1.take (adfMfmTrackBytes nsec))

theorem EncodedBy.eq (h : EncodedBy nsec trackNo data enc) (hnsec : Density nsec)
    (hdata : data.length = nsec * sectorDataBytes) (ht : trackNo < tracks) :
    enc = clockedTrack nsec (UInt8.ofNat trackNo) data := by
  have hlen : (clockedTrack nsec (UInt8.ofNat trackNo) data).length = adfMfmTrackBytes nsec := by
    rw [clockedTrack, length_clock, length_rawTrack hdata, hnsec.trackBytes]
  obtain ⟨rfl, out, -, henc⟩ | ⟨out, -, henc⟩ := h
  · rw [henc, mfmEncodeTrack_eq hdata, clockedTrack_dd]
    exact List.take_left' (length_nominalTrack _ hdata)
  · rw [henc, adfMfmEncodeTrack_eq hnsec hdata ht]
    exact List.take_left' hlen

/-- The bitmap of `nsec` sectors. -/
def allFound (nsec : Nat) : UInt32 := UInt32.ofNat (2 ^ nsec - 1)

theorem Good.all (h : Good nsec trackNo data st) (hall : ∀ n < nsec, st.out.found.toBitVec.getLsbD n = true) :
    st.out.found = allFound nsec := by
  apply UInt32.toBitVec_inj.mp
  apply BitVec.eq_of_getLsbD_eq
  intro i hi
  have hbit : (allFound nsec).toBitVec.getLsbD i = decide (i < nsec) := by
    show (BitVec.ofNat 32 (2 ^ nsec - 1)).getLsbD i = _
    rw [BitVec.getLsbD_ofNat, decide_eq_true hi, Bool.true_and, Nat.testBit_two_pow_sub_one]
  rw [hbit]
  by_cases hin : i < nsec
  · rw [hall i hin, decide_eq_true hin]
  · rw [decide_eq_false hin, Bool.eq_false_iff]
    exact fun hset => hin (h.below i hi hset).1

/-- A clocked track's capture that has every sector's first copy whole. -/
theorem decodes_capture (hnsec : Density nsec) (hdata : data.length = nsec * sectorDataBytes)
    (hadf : adfOut.length = nsec * sectorDataBytes)
    (hfits : ∀ n < nsec, ∀ q < 8 * (clockedTrack nsec trackNo data).length,
      (off + q) % (8 * (clockedTrack nsec trackNo data).length) =
        8 * markOf (256 * (nsec / sectors)) n → q + 32 + bodyBits ≤ len * 8) :
    ∃ out, mfmDecodeTrackRn (capture (clockedTrack nsec trackNo data) off len) adfOut nsec =
        (out, data) ∧
      out.found = allFound nsec ∧ out.badChecksums = 0 ∧ out.foreignSectors = 0 ∧
      out.trackNo = trackNo ∧ out.trackNoConsistent = true := by
  have htrail : 0 < 444 * (nsec / sectors) := by
    obtain rfl | rfl := hnsec
    · decide
    · decide
  obtain ⟨hpos, hmax⟩ : 0 < nsec ∧ nsec ≤ mfmMaxSectors := by
    obtain rfl | rfl := hnsec
    · decide
    · decide
  have hstart : Reading (256 * (nsec / sectors)) nsec (444 * (nsec / sectors)) trackNo data off len
      0 0 0 ⟨emptyResult, false, adfOut⟩ :=
    Reading.start hdata hadf
  obtain ⟨st', hrun, hgood, hall⟩ := decodeBits_finds hdata htrail hfits hmax hstart
  have hmem : st'.adfOut = data := by
    apply ext_slice hgood.size hdata
    intro s hs
    exact hgood.sector s hs (hall s hs)
  refine ⟨st'.out, ?_, hgood.all hall, hgood.bad, hgood.foreign, hgood.track ?_, hgood.consistent⟩
  · rw [mfmDecodeTrackRn, if_neg (by omega), clockedTrack, ← trackOf, hrun, ← hmem]
  · exact (hgood.below 0 (by decide) (hall 0 hpos)).2

/-- An encoded track read round and round from any bit, for a revolution and a
sector or more, decodes to the data; its sync words are those of its sectors. -/
theorem mfm_round_trip (hnsec : Density nsec) (hdata : data.length = nsec * sectorDataBytes)
    (ht : trackNo < tracks) (henc : EncodedBy nsec trackNo data enc)
    (hlen : enc.length + sectorMfmBytes ≤ len) (hadf : adfOut.length = nsec * sectorDataBytes)
    (off : Nat) :
    (∃ out, mfmDecodeTrackRn (capture enc off len) adfOut nsec = (out, data) ∧
      out.found = allFound nsec ∧ out.badChecksums = 0 ∧ out.foreignSectors = 0 ∧
      out.trackNo = UInt8.ofNat trackNo ∧ out.trackNoConsistent = true) ∧
    ∀ p, (∀ k < 32, cyclicBit enc (p + k) = syncBit k) ↔
      ∃ n < nsec, p % (8 * enc.length) = 8 * markOf (256 * (nsec / sectors)) n := by
  obtain rfl := henc.eq hnsec hdata ht
  have htrail : 0 < 444 * (nsec / sectors) := by
    obtain rfl | rfl := hnsec
    · decide
    · decide
  refine ⟨decodes_capture hnsec hdata hadf ?_, fun p =>
    ⟨fun h => sync_only_at_sector hdata htrail fun k _ hk => h k hk, ?_⟩⟩
  · intro n _ q hq _
    have hbits : bodyBits = 8640 := rfl
    simp only [sectorMfmBytes] at hlen
    omega
  · rintro ⟨n, hn, hp⟩ k hk
    exact sync_at_sector hdata htrail hn hp hk

/-- A blank high-density track, captured from its sixth bit. -/
theorem mfm_round_trip_blank :
    ∃ out, mfmDecodeTrackRn
        (capture ((adfMfmEncodeTrack (List.replicate hdTrackDataBytes 0) hdSectors 159
          (List.replicate adfMfmHdTrackBytes 0)).1.take (adfMfmTrackBytes hdSectors)) 5 26424)
        (List.replicate hdTrackDataBytes 0xff) hdSectors =
          (out, List.replicate hdTrackDataBytes 0) ∧
      out.found = allFound hdSectors ∧ out.badChecksums = 0 ∧ out.foreignSectors = 0 ∧
      out.trackNo = UInt8.ofNat 159 ∧ out.trackNoConsistent = true :=
  (mfm_round_trip (.inr rfl) (List.length_replicate ..) (by decide)
    (.inr ⟨_, (List.length_replicate ..).ge, rfl⟩)
    (Nat.add_le_add_right (List.length_take_le _ _) _) (List.length_replicate ..) 5).1

end WebAdf.Firmware
