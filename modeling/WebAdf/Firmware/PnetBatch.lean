import WebAdf.Firmware.PnetMfmLaws
import WebAdf.Firmware.PnetPack

/-!
# A batch toward the Amiga arrives intact

`readBatch` is the Amiga's side: the sync word found in what was read, the
header parsed, and the frames decoded one after another into a window that
holds anything. It gives back the frames that were packed, from whatever bit of
the turning track the read began.
-/

namespace WebAdf.Firmware

open Lib

/-- The frames in the read `b`, the sync word looked for in its first `scan`
bytes; `win` is the reader's window and `cap` the room for a frame. -/
def readBatch (b : Bytes) (scan : Nat) (win : Bytes) (cap : Nat) : Option (List Bytes) := do
  let bits ← pnetFindSync b scan
  let (b, valid) := pnetShiftLeft b bits
  let b := b.take valid
  let h ← (pnetParseHdrToAmiga b true).toOption
  let it ← (pnetFrameIterInit (slice b pnetHdrMfmBytes h.dataSize.toNat) .toAmiga).toOption
  readFrames it ⟨win, some 0⟩ cap it.count

-- ---------------------------------------------------------------------------
-- The frames of a payload
-- ---------------------------------------------------------------------------

theorem putFrame_eq (mem : PackMem) (f : PnetOut) : putFrame mem f =
    wireFrame (if f.lz4Len ≠ 0 then 0x8000 ||| pnetSizeLz4 ||| f.lz4Len else 0x8000 ||| 2 * f.len)
      f.len (if f.lz4Len ≠ 0 then f.block mem else f.frame mem) := by
  rw [wireFrame, pnetMfmEncode_append]
  rfl

theorem Carries.length_putFrame (h : Carries mem ws f data) :
    (putFrame mem f).length = 8 + wireOf f := by
  rw [putFrame_eq, length_wireFrame, wireOf]
  by_cases hz : f.lz4Len = 0
  · rw [if_neg (by simpa using hz), if_neg (by simpa using hz), h.plain hz, h.len]
  · rw [if_pos hz, if_pos hz, (h.block hz).2.1]

/-- One packed frame read. -/
theorem Carries.took (h : Carries mem ws f data) (hmore : it.i < it.count)
    (hnext : it.p.drop it.pos = putFrame mem f ++ rest) (hdir : it.dir = .toAmiga)
    (hlaid : Laid win pos ws) (hcap : pnetEthMtu ≤ cap) :
    ∃ n, (putFrame mem f).length = 8 + 2 * n ∧
      Took (pnetLz4IterNext it ⟨win, some pos⟩ cap) it n ws data := by
  obtain ⟨hpos, hmtu⟩ := h.sendable
  rw [putFrame_eq] at hnext ⊢
  by_cases hz : f.lz4Len = 0
  · rw [if_neg (by simpa using hz), if_neg (by simpa using hz), h.plain hz, h.len] at hnext ⊢
    exact ⟨data.length, length_wireFrame _ _ _, pnetLz4IterNext_mfm ⟨hmore, hnext⟩ hlaid h.window
      hdir h.sendable (by omega)⟩
  · obtain ⟨-, hlen, hdec⟩ := h.block hz
    have hshort := h.shorter
    rw [if_pos hz, if_pos hz, h.len, ← hlen] at hnext
    rw [if_pos hz, if_pos hz, h.len]
    exact ⟨(f.block mem).length, length_wireFrame _ _ _, pnetLz4IterNext_lz4 ⟨hmore, hnext⟩ hlaid
      h.window h.sendable (by omega) ⟨by omega, by omega⟩ hdec⟩

theorem CarriesAll.read (h : CarriesAll mem ws fs ds) (hcount : it.count = it.i + fs.length)
    (hnext : it.p.drop it.pos = fs.flatMap (putFrame mem)) (hdir : it.dir = .toAmiga)
    (hlaid : Laid win pos ws) (hcap : pnetEthMtu ≤ cap) :
    readFrames it ⟨win, some pos⟩ cap fs.length = some ds := by
  induction fs generalizing ws ds it win pos with
  | nil =>
    cases ds with
    | nil => exact if_neg (by simp [hcount])
    | cons => exact h.elim
  | cons f fs ih =>
    cases ds with
    | nil => exact h.elim
    | cons data ds =>
      obtain ⟨hf, hfs⟩ := h
      rw [List.length_cons] at hcount
      rw [List.flatMap_cons] at hnext
      have hmore : it.i < it.count := by omega
      obtain ⟨n, hn, herr, hout, hit, pos', hw, hlaid'⟩ :=
        hf.took hmore hnext hdir hlaid hcap
      rw [List.length_cons, readFrames, if_pos hmore]
      generalize pnetLz4IterNext it ⟨win, some pos⟩ cap = r at herr hout hit hw hlaid' ⊢
      obtain ⟨err, it', ⟨win', wpos⟩, out, z⟩ := r
      dsimp only at herr hout hit hw hlaid' ⊢
      subst hout hit hw
      have hpast : it.p.drop (it.pos + (8 + 2 * n)) = fs.flatMap (putFrame mem) := by
        rw [← hn, ← List.drop_drop, hnext, List.drop_left' rfl]
      have hrest : readFrames { it with pos := it.pos + (8 + 2 * n), i := it.i + 1 }
          ⟨win', some pos'⟩ cap fs.length = some ds :=
        ih hfs (by dsimp only; omega) hpast hdir hlaid'
      rw [if_pos herr, hrest, Option.map_some]

theorem CarriesAll.length_frames (h : CarriesAll mem ws fs ds) (b : Nat) :
    fs.foldl (fun b f => b + (8 + wireOf f)) b = b + (fs.flatMap (putFrame mem)).length := by
  induction fs generalizing ws ds b with
  | nil => rfl
  | cons f fs ih =>
    cases ds with
    | nil => exact h.elim
    | cons data ds =>
      rw [List.foldl_cons, ih h.2, List.flatMap_cons, List.length_append, h.1.length_putFrame,
        Nat.add_assoc]

theorem CarriesAll.length_payload (h : CarriesAll mem ws fs ds) (flags : UInt8) :
    (putPayload mem flags fs).length = pnetOutPayloadBytes fs := by
  rw [putPayload, pnetOutPayloadBytes]
  split
  · rfl
  · rw [List.length_append, h.length_frames, length_pnetMfmEncode]
    rfl

theorem wireOf_even (f : PnetOut) : wireOf f % 2 = 0 := Nat.mul_mod_right 2 _

theorem pnetOutPayloadBytes_even (fs : List PnetOut) : pnetOutPayloadBytes fs % 2 = 0 := by
  rw [pnetOutPayloadBytes]
  split
  · rfl
  · suffices ∀ b, b % 2 = 0 → fs.foldl (fun b f => b + (8 + wireOf f)) b % 2 = 0 from this 4 rfl
    clear * -
    induction fs with
    | nil => exact fun _ h => h
    | cons f fs ih =>
      intro b hb
      have hf := wireOf_even f
      exact ih (b + (8 + wireOf f)) (by omega)

/-- A payload's iterator, from its first frame on, reads the frames back. -/
theorem CarriesAll.payload (h : CarriesAll mem [] fs ds) (hmax : fs.length ≤ pnetMaxFrames)
    (flags : UInt8) (hwin : win.length = pnetLz4Window) (hcap : pnetEthMtu ≤ cap) :
    ∃ it, pnetFrameIterInit (putPayload mem flags fs) .toAmiga = .ok it ∧
      readFrames it ⟨win, some 0⟩ cap it.count = some ds := by
  rw [putPayload]
  by_cases hnone : fs = []
  · subst hnone
    exact ⟨_, rfl, h.read (by rfl) (by rfl) rfl (Laid.start hwin) hcap⟩
  · have hhead : (pnetMfmEncode 0 [UInt8.ofNat fs.length, flags]).1.length = 4 := by simp
    have hcount : (UInt8.ofNat fs.length).toNat = fs.length := by
      rw [pnetMaxFrames] at hmax
      rw [UInt8.toNat_ofNat', Nat.mod_eq_of_lt (by omega)]
    have hdec : pnetMfmDecode ((pnetMfmEncode 0 [UInt8.ofNat fs.length, flags]).1 ++
        fs.flatMap (putFrame mem)) 2 = [UInt8.ofNat fs.length, flags] :=
      pnetMfmDecode_encode 0 [UInt8.ofNat fs.length, flags] _
    rw [if_neg hnone, pnetFrameIterInit, if_neg (by simp), if_neg (by simp), hdec]
    refine ⟨_, rfl, ?_⟩
    have hread : readFrames ⟨(pnetMfmEncode 0 [UInt8.ofNat fs.length, flags]).1 ++
        fs.flatMap (putFrame mem), 4, .toAmiga, fs.length, 0⟩ ⟨win, some 0⟩ cap fs.length =
        some ds := h.read (by simp) (List.drop_left' hhead) rfl (Laid.start hwin) hcap
    simp only [List.getD_cons_zero]
    rwa [hcount]

-- ---------------------------------------------------------------------------
-- The track
-- ---------------------------------------------------------------------------

theorem clockedFrom_putPayload (mem : PackMem) (flags : UInt8) (fs : List PnetOut) :
    ClockedFrom 0 (putPayload mem flags fs) := by
  rw [putPayload]
  split
  · trivial
  · refine (clockedFrom_pnetMfmEncode 0 _).append (.flatMap fun f _ => ?_)
    rw [putFrame_eq]
    exact clockedFrom_pnetMfmEncode 0 _

/-- A track of a lead-in, the sync words, a header, its payload and a trail. -/
structure Track (out : Bytes) (txLead : Nat) (h : PnetHdr) (pay : Bytes) (trail : Nat) : Prop where
  eq : out = List.replicate txLead 0xaa ++ ([0x44, 0x89, 0x44, 0x89] ++
    ((pnetMfmEncode 0 (hdrPack h)).1 ++ (pay ++ List.replicate trail 0xaa)))
  clocked : ClockedFrom 0 pay
  size : h.dataSize.toNat = pay.length
  even : pay.length % 2 = 0
  sum : h.checksum = pnetChecksum pay
  mode : h.mode = pnetModeEthernet
  raw : h.compressed = 0

section
variable {out pay win : Bytes} {txLead trail off q len scan : Nat} {h : PnetHdr}

theorem Track.length (ht : Track out txLead h pay trail) :
    out.length = txLead + (28 + (pay.length + trail)) := by
  rw [ht.eq]
  simp [pnetHdrBytes]
  omega

theorem Track.legal (ht : Track out txLead h pay trail) : Legal out (· = txLead) := by
  have hpost : ClockedFrom 0 ((pnetMfmEncode 0 (hdrPack h)).1 ++
      (pay ++ List.replicate trail 0xaa)) :=
    (clockedFrom_pnetMfmEncode 0 _).append (ht.clocked.append (.replicate (by decide) 0 trail))
  have hl := Legal.of_parts (.replicate (x := 0xaa) (by decide) 0 txLead) hpost
    (by simp [pnetHdrBytes]; omega)
  rwa [List.length_replicate, ← ht.eq] at hl

/-- Read from any bit, the header is accepted and its payload is found. -/
theorem Track.read (ht : Track out txLead h pay trail) (hq : q < 8 * out.length)
    (hat : (off + q) % (8 * out.length) = 8 * txLead) (hscan : q ≤ 8 * scan)
    (hlen : q + 8 * (4 + pnetHdrMfmBytes + pay.length) ≤ 8 * len) :
    pnetFindSync (capture out off len) scan = some (q + 32) ∧
      ∃ b valid, pnetShiftLeft (capture out off len) (q + 32) = (b, valid) ∧
        pnetParseHdrToAmiga (b.take valid) true = .ok h ∧
        slice (b.take valid) pnetHdrMfmBytes pay.length = pay := by
  have htotal := ht.length
  rw [pnetHdrMfmBytes] at hlen
  refine ⟨pnetFindSync_capture ht.legal hq hat hscan (by omega), ?_⟩
  have hread : q + 32 + 8 * (24 + pay.length) ≤ 8 * len := by omega
  obtain ⟨b, valid, rest, hshift, hrest⟩ :=
    pnetShiftLeft_capture hat (by omega) hread (by omega)
  have hhdr : (pnetMfmEncode 0 (hdrPack h)).1.length = 24 := by simp [pnetHdrBytes]
  have hslice : slice out (txLead + 4) (24 + pay.length) =
      (pnetMfmEncode 0 (hdrPack h)).1 ++ pay := by
    rw [ht.eq, ← List.append_assoc, ← List.append_assoc _ pay]
    exact slice_append_at (by simp) (by simp [pnetHdrBytes])
  rw [hslice, List.append_assoc] at hrest
  refine ⟨b, valid, hshift, ?_, ?_⟩
  · rw [hrest]
    exact pnetParseHdrToAmiga_put h pay rest ht.mode ht.raw ht.size ht.even ht.sum
  · rw [hrest]
    exact slice_append_at hhdr rfl

end

theorem CarriesAll.sendable (h : CarriesAll mem ws fs ds) :
    fs.any (fun f => f.len == 0 || pnetEthMtu < f.len || 0x3fff < f.lz4Len ||
      (f.lz4Len != 0 && f.lz4 == none)) = false := by
  induction fs generalizing ws ds with
  | nil => rfl
  | cons f fs ih =>
    cases ds with
    | nil => exact h.elim
    | cons data ds =>
      obtain ⟨hpos, hmtu⟩ := h.1.sendable
      have hlen := h.1.len
      have hshort := h.1.shorter
      have hblock := h.1.block
      have hsmall : data.length ≤ 1518 := hmtu
      rw [List.any_cons, ih h.2, Bool.or_false]
      simp only [Bool.or_eq_false_iff, Bool.and_eq_false_iff, decide_eq_false_iff_not,
        beq_eq_false_iff_ne, bne_eq_false_iff_eq]
      refine ⟨⟨⟨by omega, by omega⟩, by omega⟩, ?_⟩
      by_cases hz : f.lz4Len = 0
      · exact .inl hz
      · exact .inr (hblock hz).1

/-- The track built from packed frames, when there is room for it. -/
theorem CarriesAll.build (h : CarriesAll mem [] fs ds) (hmax : fs.length ≤ pnetMaxFrames)
    (hmost : pnetOutPayloadBytes fs ≤ pnetToAmigaMaxPayload)
    (txLead cap : Nat) (amigaCtr picoCtr flags : UInt8) :
    let out := pnetBuildToAmigaOut txLead cap amigaCtr picoCtr flags mem fs
    let need := txLead + 4 + pnetHdrMfmBytes + pnetOutPayloadBytes fs + pnetTrailBytes + 3
    if need > cap then out = [] else out.length ≤ need ∧
      ∃ hdr trail, Track out txLead hdr (putPayload mem flags fs) trail := by
  have hlen := h.length_payload flags
  have heven := pnetOutPayloadBytes_even fs
  rw [pnetBuildToAmigaOut, if_neg (show ¬ fs.length > pnetMaxFrames by omega), h.sendable,
    if_neg (show ¬ false = true by simp)]
  dsimp only
  split
  · rfl
  · generalize hhdr : ({ checksum := pnetChecksum (putPayload mem flags fs)
                         dataSize := UInt16.ofNat (putPayload mem flags fs).length
                         compressedSize := UInt16.ofNat (putPayload mem flags fs).length
                         mode := pnetModeEthernet, compressed := 0
                         amigaCtr := amigaCtr, picoCtr := picoCtr } : PnetHdr) = hdr
    have hsize : hdr.dataSize.toNat = (putPayload mem flags fs).length := by
      rw [pnetToAmigaMaxPayload] at hmost
      rw [← hhdr, UInt16.toNat_ofNat', Nat.mod_eq_of_lt (by omega)]
    have htrack : (List.replicate txLead 0xaa ++ pnetPutHdrToAmiga hdr ++
        putPayload mem flags fs).length =
        txLead + 4 + pnetHdrMfmBytes + pnetOutPayloadBytes fs := by
      simp [hlen]
      omega
    rw [htrack]
    refine ⟨?_, hdr, (txLead + 4 + pnetHdrMfmBytes + pnetOutPayloadBytes fs + pnetTrailBytes + 3) /
      4 * 4 - (txLead + 4 + pnetHdrMfmBytes + pnetOutPayloadBytes fs), ?_,
      clockedFrom_putPayload mem flags fs, hsize, by omega, ?_, ?_, ?_⟩
    · rw [List.length_append, htrack, List.length_replicate]
      omega
    · simp only [pnetPutHdrToAmiga, List.append_assoc]
    · rw [← hhdr]
    · rw [← hhdr]
    · rw [← hhdr]

/-- The packed frames come back from a read of the track from any bit `off`, once
it reaches past the batch: `q` is the distance to the sync word. The payload is
within its limit, and the track within the room it was built for; where that room
is the packer's `cap` and the longer lead-in, the track is built. -/
theorem batch_intact (mem : PackMem) (lz4 : Bool) (frames : List Bytes) (cap : Nat)
    (hwin : mem.win.length = pnetLz4Window) (hblk : mem.blk.length = pnetLz4Window) :
    let pk := (pnetPack mem lz4 frames cap).1
    let mem' := (pnetPack mem lz4 frames cap).2
    ∀ txLead room amigaCtr picoCtr flags,
      let pay := putPayload mem' flags pk.f
      let out := pnetBuildToAmigaOut txLead room amigaCtr picoCtr flags mem' pk.f
      pay.length ≤ pnetToAmigaMaxPayload ∧ out.length ≤ room ∧
      (pk.f ≠ [] → out.length + pnetLeadBytes ≤ cap + txLead ∧
        (cap + txLead ≤ room + pnetLeadBytes → out ≠ [])) ∧
      (out ≠ [] → ∀ off, ∃ q < 8 * out.length, (off + q) % (8 * out.length) = 8 * txLead ∧
        ∀ len scan win frameRoom, q ≤ 8 * scan →
          q + 8 * (4 + pnetHdrMfmBytes + pay.length) ≤ 8 * len →
          win.length = pnetLz4Window → pnetEthMtu ≤ frameRoom →
          readBatch (capture out off len) scan win frameRoom = some (frames.take pk.f.length)) := by
  have hpack := pnetPack_carries mem lz4 frames cap hwin hblk
  generalize pnetPack mem lz4 frames cap = packed at hpack ⊢
  obtain ⟨pack, mem'⟩ := packed
  obtain ⟨hcarries, hmax, hmost, hcap⟩ := hpack
  intro pk mem' txLead room amigaCtr picoCtr flags
  have hpay := hcarries.length_payload flags
  have hbuild := hcarries.build hmax hmost txLead room amigaCtr picoCtr flags
  dsimp only [pk, mem'] at hbuild ⊢
  clear pk mem'
  generalize pnetBuildToAmigaOut txLead room amigaCtr picoCtr flags mem' pack.f = out at hbuild ⊢
  refine ⟨by omega, ?_, fun hne => ?_, fun hout off => ?_⟩
  · split at hbuild
    · rw [hbuild]
      exact Nat.zero_le _
    · omega
  · have hneed := hcap hne
    split at hbuild
    · refine ⟨by rw [hbuild, List.length_nil]; omega, fun hroom => by omega⟩
    · obtain ⟨hlen, hdr, trail, htrack⟩ := hbuild
      have htotal := htrack.length
      refine ⟨by omega, fun _ hnil => ?_⟩
      rw [hnil, List.length_nil] at htotal
      omega
  · split at hbuild
    · exact absurd hbuild hout
    · obtain ⟨-, hdr, trail, htrack⟩ := hbuild
      have htotal := htrack.length
      obtain ⟨q, hq, hat⟩ := cyclic_phase (m := 8 * txLead) (M := 8 * out.length) off (by omega)
      refine ⟨q, hq, hat, ?_⟩
      intro len scan win frameRoom hscan hlen hsize hframe
      obtain ⟨hfind, b, valid, hshift, hparse, hslice⟩ := htrack.read hq hat hscan hlen
      obtain ⟨it, hit, hread⟩ := hcarries.payload hmax flags hsize hframe
      rw [← htrack.size] at hslice
      simp only [readBatch, hfind, Option.bind_eq_bind, Option.bind_some, hshift, hparse,
        Except.toOption, hslice, hit, hread]

/-- The packer's memory as the board starts with it. -/
def PackMem.boot : PackMem :=
  ⟨List.replicate pnetLz4Window 0, List.replicate pnetLz4Window 0, List.replicate 256 0, 256, none⟩

/-- Two frames that go as LZ4 blocks, read from five bits into the lead-in. -/
theorem batch_intact_two_blocks :
    let packed := pnetPack .boot true [List.replicate 40 7, List.replicate 39 7] 400
    let out := pnetBuildToAmigaOut pnetLeadBytes 400 1 2 0 packed.2 packed.1.f
    packed.1.lz4 = 2 ∧
      readBatch (capture out 5 800) 400 (List.replicate pnetLz4Window 0xaa) pnetEthMtu =
        some [List.replicate 40 7, List.replicate 39 7] := by
  intro packed out
  obtain ⟨-, -, -, hread⟩ := batch_intact .boot true [List.replicate 40 7, List.replicate 39 7] 400
    List.length_replicate List.length_replicate pnetLeadBytes 400 1 2 0
  have hlen : out.length = 332 := by decide +kernel
  have hpay : (putPayload packed.2 0 packed.1.f).length = 62 := by decide +kernel
  have hcount : packed.1.f.length = 2 := by decide +kernel
  have hne : out ≠ [] := by
    intro hnil
    rw [hnil] at hlen
    cases hlen
  obtain ⟨q, hq, hat, hround⟩ := hread hne 5
  refine ⟨by decide +kernel, ?_⟩
  have hbatch := hround 800 400 (List.replicate pnetLz4Window 0xaa) pnetEthMtu
  have hq' : q < 8 * out.length := hq
  rw [hcount] at hbatch
  refine hbatch (by omega) ?_ List.length_replicate (Nat.le_refl _)
  rw [hpay, pnetHdrMfmBytes]
  omega

end WebAdf.Firmware
