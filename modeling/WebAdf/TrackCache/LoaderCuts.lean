import WebAdf.TrackCache.ImageLoader
import WebAdf.TrackCache.PsramLaws

/-!
# However a container is cut

What the loader is reading takes its bytes in two parts as it takes them at
once, and the loop's fuel is enough; so the cut of the stream does not show.
-/

namespace WebAdf.TrackCache

-- ---------------------------------------------------------------------------
-- Writes at a track's place
-- ---------------------------------------------------------------------------

namespace Psram

theorem update2_update2 (f : Nat → Int → α) (slot : Nat) (track : Int) (a b : α) :
    update2 (update2 f slot track a) slot track b = update2 f slot track b := by
  unfold update2
  rw [Function.update_self, Function.update_idem, Function.update_idem]

theorem update2_same (f : Nat → Int → α) (slot : Nat) (track : Int) :
    update2 f slot track (f slot track) = f := by
  unfold update2
  rw [Function.update_eq_self, Function.update_eq_self]

theorem copyIn_nil (p : Psram) (slot : Nat) (track : Int) (off : Nat) :
    p.copyIn slot track off [] = p := by
  have hmem : (fun i => if off ≤ i ∧ i < off + ([] : Bytes).length then
      ([] : Bytes).getD (i - off) 0 else p.mem slot track i) = p.mem slot track := by
    funext i
    rw [if_neg (by simp)]
  unfold copyIn
  rw [hmem, update2_same]

theorem copyIn_append (p : Psram) (slot : Nat) (track : Int) (off : Nat) (x y : Bytes) :
    (p.copyIn slot track off x).copyIn slot track (off + x.length) y =
      p.copyIn slot track off (x ++ y) := by
  unfold copyIn
  dsimp only
  rw [update2_update2, update2_self]
  congr 2
  funext i
  rw [List.length_append]
  by_cases hy : off + x.length ≤ i ∧ i < off + x.length + y.length
  · rw [if_pos hy, if_pos ⟨by omega, by omega⟩, List.getD_append_right _ _ _ _ (by omega)]
    congr 1
    omega
  · rw [if_neg hy]
    by_cases hx : off ≤ i ∧ i < off + x.length
    · rw [if_pos hx, if_pos ⟨hx.1, by omega⟩, List.getD_append _ _ _ _ (by omega)]
    · rw [if_neg hx, if_neg (by omega)]

theorem writeAt_nil (p : Psram) (slot : Nat) (track : Int) (off : Nat) :
    p.writeAt slot track off [] = p := by
  unfold writeAt
  split
  · rfl
  · split
    · rfl
    · exact copyIn_nil ..

theorem usable_writeAt (p : Psram) (slot : Nat) (track : Int) (off : Nat) (x : Bytes) :
    (p.writeAt slot track off x).usable slot track = p.usable slot track := by
  unfold writeAt
  split
  · rfl
  · split <;> rfl

/-- A write in two parts, where the whole fits. -/
theorem writeAt_append (p : Psram) (slot : Nat) (track : Int) (off : Nat) (x y : Bytes)
    (h : off + x.length + y.length ≤ slotTrackCap slot) :
    (p.writeAt slot track off x).writeAt slot track (off + x.length) y =
      p.writeAt slot track off (x ++ y) := by
  have husable := usable_writeAt p slot track off x
  have hx : ¬ off + x.length > slotTrackCap slot := by omega
  have hy : ¬ off + x.length + y.length > slotTrackCap slot := by omega
  have hxy : ¬ off + (x ++ y).length > slotTrackCap slot := by
    rw [List.length_append]
    omega
  cases hu : p.usable slot track with
  | false =>
    have hstay : ∀ off z, p.writeAt slot track off z = p := fun off z => if_pos (by simp [hu])
    rw [hstay, hstay, hstay]
  | true =>
    have hwrite : ∀ q : Psram, q.usable slot track = true → ∀ off z,
        ¬ off + z.length > slotTrackCap slot →
          q.writeAt slot track off z = q.copyIn slot track off z := by
      intro q hq off z hz
      unfold writeAt
      rw [if_neg (by simp [hq]), if_neg hz]
    rw [hwrite _ (husable.trans hu) _ _ hy, hwrite p hu _ _ hx, hwrite p hu _ _ hxy, copyIn_append]

end Psram

namespace Loader

variable {l : Loader}

-- ---------------------------------------------------------------------------
-- What is being read is not all there yet
-- ---------------------------------------------------------------------------

structure Ready (l : Loader) : Prop where
  hdr : l.st = .hdr → l.hdr.length < imageHeaderBytes ∧ l.adf = false
  len : l.st = .len → l.lenb.length < 4 ∧ l.adf = false ∧ l.slot ≠ slotNet
  payload : l.st = .payload → (l.payloadGot < l.payloadBytes ∨
    l.payloadGot = 0 ∧ l.payloadBytes = 0) ∧ l.payloadBytes ≤ Psram.slotTrackCap l.slot
  adf : l.st = .payload → l.adf = true → 0 < l.payloadBytes
  mfm : l.st = .payload → l.adf = false → l.slot ≠ slotNet
  pad : l.st = .pad → 0 < l.padLeft ∧ l.adf = false ∧ l.slot ≠ slotNet

theorem ready_err (h : l.st = .err) : l.Ready :=
  ⟨by simp [h], by simp [h], by simp [h], by simp [h], by simp [h], by simp [h]⟩

theorem ready_eof (h : l.st = .eof) : l.Ready :=
  ⟨by simp [h], by simp [h], by simp [h], by simp [h], by simp [h], by simp [h]⟩

theorem ready_begin (p : Psram) (slot : Nat) : (parseBegin p slot).1.Ready := by
  unfold parseBegin
  dsimp only
  cases p.havePsram with
  | false => exact ready_err rfl
  | true => exact ⟨fun _ => ⟨Nat.zero_lt_succ _, rfl⟩, nofun, nofun, nofun, nofun, nofun⟩

theorem slotTrackCap_of_ne {slot : Nat} (h : slot ≠ slotNet) :
    Psram.slotTrackCap slot = trackMaxBytes := if_neg h

theorem geometry_fits (slot : Nat) :
    0 < geometry slot * 512 ∧ geometry slot * 512 ≤ Psram.slotTrackCap slot := by
  unfold geometry Psram.slotTrackCap
  split <;> decide

theorem word_geometry (h : l.isWfad = true) : l.word 3 = geometry l.slot := by
  simp only [isWfad, Bool.and_eq_true, beq_iff_eq] at h
  exact h.2

/-- The header is refused, or starts a WFAD or a WFMF. -/
theorem header_cases (l : Loader) (p : Psram) :
    (l.header p).1.st = .err ∨
    ((l.word 0 == wfadMagic) = true ∧ l.isWfad = true) ∧
      l.header p = (l.startAdf, p.setSlotKind l.slot (adfKind l.slot)) ∨
    ((l.word 0 == wfadMagic) = false ∧ l.isWfmf = true ∧ l.slot ≠ slotNet ∧
      l.counted.countOk = true) ∧ l.header p = (l.counted.startTracks, p) := by
  unfold header
  cases hmagic : (l.word 0 == wfadMagic) with
  | true =>
    cases hfits : l.isWfad with
    | true => exact .inr (.inl ⟨⟨rfl, rfl⟩, rfl⟩)
    | false => exact .inl rfl
  | false =>
    cases hwfmf : l.isWfmf with
    | false => exact .inl rfl
    | true =>
      cases hnet : (l.slot == slotNet) with
      | true => exact .inl rfl
      | false =>
        cases hcount : l.counted.countOk with
        | false => exact .inl rfl
        | true => exact .inr (.inr ⟨⟨rfl, rfl, by simpa using hnet, rfl⟩, rfl⟩)

theorem startAdf_payloadBytes (l : Loader) : l.startAdf.payloadBytes = l.word 3 * 512 := rfl

theorem startAdf_payloadGot (l : Loader) : l.startAdf.payloadGot = 0 := rfl

theorem startAdf_slot (l : Loader) : l.startAdf.slot = l.slot := rfl

theorem ready_startAdf (h : l.isWfad = true) : l.startAdf.Ready := by
  obtain ⟨hpos, hle⟩ := geometry_fits l.slot
  have hbytes := startAdf_payloadBytes l
  rw [word_geometry h] at hbytes
  rw [← hbytes] at hpos hle
  refine ⟨nofun, nofun, fun _ => ⟨.inl ?_, ?_⟩, fun _ _ => hpos, nofun, nofun⟩
  · rwa [startAdf_payloadGot]
  · rwa [startAdf_slot]

theorem ready_startTracks (hadf : l.adf = false) (hnet : l.slot ≠ slotNet) :
    l.startTracks.Ready := by
  have hst : l.startTracks.st = .len := rfl
  have hlen : l.startTracks.lenb.length < 4 := Nat.zero_lt_succ 3
  refine ⟨?_, fun _ => ⟨hlen, hadf, hnet⟩, ?_, ?_, ?_, ?_⟩ <;> simp [hst]

theorem ready_header (h : l.adf = false) (p : Psram) : (l.header p).1.Ready := by
  rcases header_cases l p with herr | ⟨⟨-, hwfad⟩, heq⟩ | ⟨⟨-, -, hnet, -⟩, heq⟩
  · exact ready_err herr
  · rw [heq]
    exact ready_startAdf hwfad
  · rw [heq]
    exact @ready_startTracks l.counted h hnet

theorem ready_length (hadf : l.adf = false) (hnet : l.slot ≠ slotNet) : l.length.Ready := by
  unfold length
  dsimp only
  split
  · exact ready_err rfl
  · split
    · exact ready_err rfl
    · rename_i hbytes
      refine ⟨nofun, nofun, fun _ => ⟨?_, ?_⟩, fun _ h => ?_, fun _ _ => hnet, nofun⟩
      · dsimp only
        omega
      · rw [slotTrackCap_of_ne hnet]
        exact Nat.le_of_not_lt hbytes
      · exact absurd (h.symm.trans hadf) (by decide)

theorem ready_nextTrack (h : l.Ready) : l.nextTrack.Ready := by
  unfold nextTrack
  dsimp only
  split
  · exact ready_eof rfl
  · exact ⟨h.hdr, h.len, h.payload, h.adf, h.mfm, h.pad⟩

theorem ready_payloadDone (hst : l.st = .payload)
    (hfits : l.payloadBytes ≤ Psram.slotTrackCap l.slot)
    (hadf : l.adf = true → 0 < l.payloadBytes) (hmfm : l.adf = false → l.slot ≠ slotNet) :
    l.payloadDone.Ready := by
  unfold payloadDone
  split
  · rename_i h
    have hpos := hadf h
    refine ready_nextTrack ⟨?_, ?_, fun _ => ⟨.inl hpos, hfits⟩, fun _ _ => hpos, ?_, ?_⟩
    · simp [hst]
    · simp [hst]
    · simp [h]
    · simp [hst]
  · rename_i h
    have hnet := hmfm (by simpa using h)
    split
    · rename_i hpad
      exact ⟨nofun, nofun, nofun, nofun, nofun,
        fun _ => ⟨Nat.pos_of_ne_zero hpad, by simpa using h, hnet⟩⟩
    · exact ready_nextTrack ⟨nofun, fun _ => ⟨Nat.zero_lt_succ _, by simpa using h, hnet⟩,
        nofun, nofun, nofun, nofun⟩

theorem absorb_st (l : Loader) (p : Psram) (x : Bytes) : (l.absorb p x).1.st = l.st := by
  unfold absorb
  split <;> rfl

theorem absorb_slot (l : Loader) (p : Psram) (x : Bytes) : (l.absorb p x).1.slot = l.slot := by
  unfold absorb
  split <;> rfl

theorem absorb_adf (l : Loader) (p : Psram) (x : Bytes) : (l.absorb p x).1.adf = l.adf := by
  unfold absorb
  split <;> rfl

theorem absorb_payloadBytes (l : Loader) (p : Psram) (x : Bytes) :
    (l.absorb p x).1.payloadBytes = l.payloadBytes := by
  unfold absorb
  split <;> rfl

theorem absorb_want (l : Loader) (p : Psram) (x : Bytes) :
    (l.absorb p x).1.want = l.want - x.length := by
  unfold absorb want
  cases hst : l.st with
  | hdr => simp only [List.length_append, Nat.sub_sub]
  | len => simp only [List.length_append, Nat.sub_sub]
  | payload => simp only [Nat.sub_sub]
  | pad => simp only
  | err => simp only [hst, Nat.zero_sub]
  | eof => simp only [hst, Nat.zero_sub]

/-- What is read in two parts. -/
theorem absorb_absorb (h : l.Ready) (p : Psram) {x y : Bytes} (hlen : x.length + y.length ≤ l.want) :
    (l.absorb p x).1.absorb (l.absorb p x).2 y = l.absorb p (x ++ y) := by
  unfold absorb
  cases hst : l.st with
  | hdr => simp only [List.append_assoc]
  | len => simp only [List.append_assoc]
  | payload =>
    obtain ⟨hgot, hfits⟩ := h.payload hst
    simp only [want, hst] at hlen
    simp only [List.length_append, Nat.add_assoc]
    rw [Psram.writeAt_append _ _ _ _ _ _ (by omega)]
  | pad => simp only [List.length_append, Nat.sub_sub]
  | err => simp only [hst]
  | eof => simp only [hst]

/-- A part of it is not all of it. -/
theorem ready_absorb (h : l.Ready) (p : Psram) {x : Bytes} (hlen : x.length < l.want) :
    (l.absorb p x).1.Ready := by
  unfold absorb
  unfold want at hlen
  cases hst : l.st with
  | hdr =>
    simp only [hst] at hlen
    obtain ⟨-, hadf⟩ := h.hdr hst
    refine ⟨fun _ => ⟨?_, hadf⟩, by simp [hst], by simp [hst], by simp [hst], by simp [hst],
      by simp [hst]⟩
    simp only [List.length_append]
    omega
  | len =>
    simp only [hst] at hlen
    obtain ⟨-, hadf, hnet⟩ := h.len hst
    refine ⟨by simp [hst], fun _ => ⟨?_, hadf, hnet⟩, by simp [hst], by simp [hst], by simp [hst],
      by simp [hst]⟩
    simp only [List.length_append]
    omega
  | payload =>
    simp only [hst] at hlen
    obtain ⟨-, hfits⟩ := h.payload hst
    refine ⟨by simp [hst], by simp [hst], fun _ => ⟨.inl ?_, hfits⟩, fun _ => h.adf hst,
      fun _ => h.mfm hst, by simp [hst]⟩
    dsimp only
    omega
  | pad =>
    simp only [hst] at hlen
    obtain ⟨-, hadf, hnet⟩ := h.pad hst
    refine ⟨by simp [hst], by simp [hst], by simp [hst], by simp [hst], by simp [hst],
      fun _ => ⟨?_, hadf, hnet⟩⟩
    dsimp only
    omega
  | err => exact ready_err hst
  | eof => exact ready_eof hst

/-- On from what is all there. -/
theorem ready_advance (h : l.Ready) (p : Psram) (x : Bytes) :
    ((l.absorb p x).1.advance (l.absorb p x).2).1.Ready := by
  unfold advance
  rw [absorb_st]
  cases hst : l.st with
  | hdr =>
    obtain ⟨-, hadf⟩ := h.hdr hst
    exact ready_header ((absorb_adf ..).trans hadf) _
  | len =>
    obtain ⟨-, hadf, hnet⟩ := h.len hst
    refine ready_length ((absorb_adf ..).trans hadf) ?_
    rwa [absorb_slot]
  | payload =>
    obtain ⟨-, hfits⟩ := h.payload hst
    refine ready_payloadDone ((absorb_st ..).trans hst) ?_ ?_ ?_
    · rwa [absorb_payloadBytes, absorb_slot]
    · rw [absorb_adf, absorb_payloadBytes]
      exact h.adf hst
    · rw [absorb_adf, absorb_slot]
      exact h.mfm hst
  | pad =>
    obtain ⟨-, hadf, hnet⟩ := h.pad hst
    refine ready_nextTrack ⟨nofun, fun _ => ⟨Nat.zero_lt_succ _, ?_, ?_⟩, nofun, nofun, nofun,
      nofun⟩
    · exact (absorb_adf ..).trans hadf
    · exact (absorb_slot ..).trans_ne hnet
  | err => exact ready_err ((absorb_st ..).trans hst)
  | eof => exact ready_eof ((absorb_st ..).trans hst)

-- ---------------------------------------------------------------------------
-- One turn
-- ---------------------------------------------------------------------------

/-- A turn that leaves something missing. -/
theorem pass_part (p : Psram) {d : Bytes} (h : d.length < l.want) :
    l.pass p d = ((l.absorb p d).1, (l.absorb p d).2, []) := by
  have hmore : 0 < (l.absorb p d).1.want := by
    rw [absorb_want]
    omega
  unfold pass
  dsimp only
  rw [Nat.min_eq_left (Nat.le_of_lt h), List.take_length, List.drop_length, if_pos hmore]

/-- A turn that has all that was missing. -/
theorem pass_full (p : Psram) {d : Bytes} (h : l.want ≤ d.length) :
    l.pass p d = (((l.absorb p (d.take l.want)).1.advance (l.absorb p (d.take l.want)).2).1,
      ((l.absorb p (d.take l.want)).1.advance (l.absorb p (d.take l.want)).2).2,
      d.drop l.want) := by
  have hnone : ¬ 0 < (l.absorb p (d.take l.want)).1.want := by
    rw [absorb_want, List.length_take]
    omega
  unfold pass
  dsimp only
  rw [Nat.min_eq_right h, if_neg hnone]

theorem pass_ready (h : l.Ready) (p : Psram) (d : Bytes) : (l.pass p d).1.Ready := by
  by_cases hlt : d.length < l.want
  · rw [pass_part p hlt]
    exact ready_absorb h p hlt
  · rw [pass_full p (Nat.le_of_not_lt hlt)]
    exact ready_advance h p _

/-- The turns that are left at most: two for a byte, and one over an empty
track's payload. -/
def measure (l : Loader) (d : Bytes) : Nat :=
  2 * d.length + if l.st = .payload ∧ l.want = 0 then 1 else 0

theorem stopped_iff (l : Loader) (d : Bytes) :
    l.stopped d = true ↔ d = [] ∨ l.st = .err ∨ l.st = .eof := by
  simp [stopped, or_assoc]

/-- Something is missing, but for an empty payload. -/
theorem want_pos (h : l.Ready) (herr : l.st ≠ .err) (heof : l.st ≠ .eof) :
    0 < l.want ∨ l.st = .payload ∧ l.want = 0 := by
  unfold want
  cases hst : l.st with
  | hdr =>
    have := (h.hdr hst).1
    simp only
    omega
  | len =>
    have := (h.len hst).1
    simp only
    omega
  | payload =>
    have := (h.payload hst).1
    simp only [true_and]
    omega
  | pad => exact .inl (h.pad hst).1
  | err => exact absurd hst herr
  | eof => exact absurd hst heof

theorem nextTrack_st (l : Loader) : l.nextTrack.st = .eof ∨ l.nextTrack.st = l.st := by
  unfold nextTrack
  dsimp only
  split
  · exact .inl rfl
  · exact .inr rfl

/-- After an empty payload something else is read. -/
theorem payloadDone_empty (h : l.Ready) (hst : l.st = .payload) (hwant : l.want = 0) :
    l.payloadDone.st ≠ .payload := by
  have hadf : l.adf = false := by
    cases hadf : l.adf with
    | false => rfl
    | true =>
      have := h.adf hst hadf
      have := (h.payload hst).1
      simp only [want, hst] at hwant
      omega
  unfold payloadDone
  rw [if_neg (by simp [hadf])]
  split
  · simp
  · rcases nextTrack_st { l with st := .len, lenb := [] } with heq | heq <;> rw [heq] <;> simp

theorem measure_pass (h : l.Ready) (p : Psram) {d : Bytes} (hgo : l.stopped d = false) :
    measure (l.pass p d).1 (l.pass p d).2.2 < measure l d := by
  have hstop : ¬ (d = [] ∨ l.st = .err ∨ l.st = .eof) := by
    rw [← stopped_iff, hgo]
    decide
  simp only [not_or] at hstop
  obtain ⟨hne, herr, heof⟩ := hstop
  have hpos := List.length_pos_of_ne_nil hne
  by_cases hlt : d.length < l.want
  · rw [pass_part p hlt]
    unfold measure
    dsimp only
    rw [List.length_nil]
    split <;> omega
  · rw [pass_full p (Nat.le_of_not_lt hlt)]
    unfold measure
    dsimp only
    rw [List.length_drop]
    rcases want_pos h herr heof with hwant | ⟨hst, hwant⟩
    · split <;> omega
    · rw [if_pos (⟨hst, hwant⟩ : l.st = .payload ∧ l.want = 0), if_neg]
      · omega
      · rintro ⟨hpayload, -⟩
        rw [hwant, List.take_zero] at hpayload
        unfold advance at hpayload
        rw [absorb_st, hst] at hpayload
        have hself : l.absorb p [] = (l, p) := by
          unfold absorb
          simp only [hst, List.length_nil, Nat.add_zero, Psram.writeAt_nil]
          rw [← hst]
        rw [hself] at hpayload
        exact payloadDone_empty h hst hwant hpayload

-- ---------------------------------------------------------------------------
-- The loop
-- ---------------------------------------------------------------------------

theorem sinkLoop_stopped (h : l.stopped d = true) (p : Psram) (n : Nat) :
    sinkLoop n l p d = (l, p, d) := by
  cases n with
  | zero => rfl
  | succ n => rw [sinkLoop, if_pos h]

/-- Fuel past the turns that are left changes nothing. -/
theorem sinkLoop_fuel (h : l.Ready) (p : Psram) (d : Bytes) (hn : measure l d ≤ n)
    (hm : measure l d ≤ m) : sinkLoop n l p d = sinkLoop m l p d := by
  induction n generalizing l p d m with
  | zero =>
    have hstop : l.stopped d = true := by
      rw [stopped_iff]
      unfold measure at hn
      exact .inl (List.length_eq_zero_iff.1 (by omega))
    rw [sinkLoop_stopped hstop, sinkLoop_stopped hstop]
  | succ n ih =>
    cases hgo : l.stopped d with
    | true => rw [sinkLoop_stopped hgo, sinkLoop_stopped hgo]
    | false =>
      have hless := measure_pass h p hgo
      cases m with
      | zero => omega
      | succ m =>
        rw [sinkLoop, sinkLoop, if_neg (by simp [hgo]), if_neg (by simp [hgo])]
        exact ih (pass_ready h p d) _ _ (Nat.le_of_lt_succ (Nat.lt_of_lt_of_le hless hn))
          (Nat.le_of_lt_succ (Nat.lt_of_lt_of_le hless hm))

/-- The loop to its end. -/
def loop (l : Loader) (p : Psram) (d : Bytes) : Loader × Psram × Bytes :=
  sinkLoop (2 * d.length + 1) l p d

theorem measure_le (l : Loader) (d : Bytes) : measure l d ≤ 2 * d.length + 1 := by
  unfold measure
  split <;> omega

theorem loop_stopped (h : l.stopped d = true) (p : Psram) : l.loop p d = (l, p, d) :=
  sinkLoop_stopped h p _

theorem loop_pass (h : l.Ready) (p : Psram) (hgo : l.stopped d = false) :
    l.loop p d = (l.pass p d).1.loop (l.pass p d).2.1 (l.pass p d).2.2 := by
  have hless := measure_pass h p hgo
  have hle := measure_le l d
  unfold loop
  rw [sinkLoop, if_neg (by simp [hgo])]
  exact sinkLoop_fuel (pass_ready h p d) _ _
    (Nat.le_of_lt_succ (Nat.lt_of_lt_of_le hless hle)) (measure_le ..)

theorem sink_eq (l : Loader) (p : Psram) (d : Bytes) :
    l.sink p d = ((l.loop p d).1.ended (l.loop p d).2.2, (l.loop p d).2.1) := rfl

/-- The loop over bytes that come in two parts. -/
theorem loop_append (h : l.Ready) (p : Psram) (a b : Bytes) :
    l.loop p (a ++ b) =
      if (l.loop p a).2.2 = [] then (l.loop p a).1.loop (l.loop p a).2.1 b
      else ((l.loop p a).1, (l.loop p a).2.1, (l.loop p a).2.2 ++ b) := by
  generalize hn : measure l a = n
  induction n using Nat.strongRecOn generalizing l p a with
  | ind n ih =>
    subst hn
    by_cases ha : a = []
    · subst ha
      have hstop : l.stopped [] = true := rfl
      rw [loop_stopped hstop, if_pos rfl, List.nil_append]
    cases hgo : l.stopped a with
    | true =>
      have hover := ((stopped_iff ..).1 hgo).resolve_left ha
      rw [loop_stopped hgo, if_neg ha, loop_stopped ((stopped_iff ..).2 (.inr hover))]
    | false =>
      have hgo' : l.stopped (a ++ b) = false := by
        rw [← Bool.not_eq_true, stopped_iff] at hgo ⊢
        simp only [not_or] at hgo ⊢
        exact ⟨by simp [ha], hgo.2⟩
      by_cases hlt : a.length < l.want
      · -- the first part leaves something missing
        have hpart : l.loop p a = ((l.absorb p a).1, (l.absorb p a).2, []) := by
          rw [loop_pass h p hgo, pass_part p hlt, loop_stopped rfl]
        rw [hpart, if_pos rfl]
        dsimp only
        by_cases hb : b = []
        · subst hb
          rw [List.append_nil, hpart, loop_stopped rfl]
        have hgob : (l.absorb p a).1.stopped b = false := by
          rw [← Bool.not_eq_true, stopped_iff] at hgo ⊢
          simp only [not_or] at hgo ⊢
          rw [absorb_st]
          exact ⟨hb, hgo.2⟩
        have hready := ready_absorb h p hlt
        rw [loop_pass h p hgo', loop_pass hready _ hgob]
        have hpass : l.pass p (a ++ b) = (l.absorb p a).1.pass (l.absorb p a).2 b := by
          have hwant := absorb_want l p a
          by_cases hmore : (a ++ b).length < l.want
          · rw [pass_part p hmore, pass_part, absorb_absorb h]
            · rw [List.length_append] at hmore
              omega
            · rw [List.length_append] at hmore
              omega
          · rw [List.length_append] at hmore
            rw [pass_full p (by rw [List.length_append]; omega), pass_full _ (by omega), hwant,
              absorb_absorb h p (by rw [List.length_take]; omega), List.take_append,
              List.drop_append, List.take_of_length_le (by omega),
              List.drop_of_length_le (by omega), List.nil_append]
        rw [hpass]
      · have hle := Nat.le_of_not_lt hlt
        have hless := measure_pass h p hgo
        have hready := pass_ready h p a
        rw [loop_pass h p hgo', loop_pass h p hgo]
        have hpass : l.pass p (a ++ b) = ((l.pass p a).1, (l.pass p a).2.1, (l.pass p a).2.2 ++ b) := by
          rw [pass_full p hle, pass_full p (by rw [List.length_append]; omega),
            List.take_append_of_le_length hle, List.drop_append_of_le_length hle]
        rw [hpass]
        exact ih _ hless hready _ _ rfl

theorem loop_ready (h : l.Ready) (p : Psram) (d : Bytes) : (l.loop p d).1.Ready := by
  generalize hn : measure l d = n
  induction n using Nat.strongRecOn generalizing l p d with
  | ind n ih =>
    subst hn
    cases hgo : l.stopped d with
    | true => rwa [loop_stopped hgo]
    | false =>
      rw [loop_pass h p hgo]
      exact ih _ (measure_pass h p hgo) (pass_ready h p d) _ _ rfl

theorem ready_ended (h : l.Ready) (d : Bytes) : (l.ended d).Ready := by
  unfold ended
  split
  · exact ready_err rfl
  · exact h

theorem ready_sink (h : l.Ready) (p : Psram) (d : Bytes) : (l.sink p d).1.Ready :=
  ready_ended (loop_ready h p d) _

/-- Where bytes are left the loader is at its end. -/
theorem loop_left (h : l.Ready) (p : Psram) (d : Bytes) (hleft : (l.loop p d).2.2 ≠ []) :
    (l.loop p d).1.st = .err ∨ (l.loop p d).1.st = .eof := by
  generalize hn : measure l d = n
  induction n using Nat.strongRecOn generalizing l p d with
  | ind n ih =>
    subst hn
    cases hgo : l.stopped d with
    | true =>
      rw [loop_stopped hgo] at hleft ⊢
      exact ((stopped_iff ..).1 hgo).resolve_left hleft
    | false =>
      rw [loop_pass h p hgo] at hleft ⊢
      exact ih _ (measure_pass h p hgo) (pass_ready h p d) _ _ hleft rfl

/-- Bytes given in two parts leave what they leave given at once. -/
theorem sink_append (h : l.Ready) (p : Psram) (a b : Bytes) :
    l.sink p (a ++ b) = (l.sink p a).1.sink (l.sink p a).2 b := by
  rw [sink_eq, sink_eq l p a, loop_append h]
  by_cases hleft : (l.loop p a).2.2 = []
  · rw [if_pos hleft, hleft]
    have hended : (l.loop p a).1.ended [] = (l.loop p a).1 := by
      unfold ended
      rw [if_neg (by simp)]
    rw [hended, sink_eq]
  · rw [if_neg hleft]
    dsimp only
    -- the loader was at its end before the last byte of the first part
    have hover := loop_left h p a hleft
    generalize l.loop p a = r at hleft hover
    obtain ⟨q, p', rest⟩ := r
    dsimp only at hleft hover ⊢
    have hrest : (q.ended rest).st = .err ∨ (q.ended rest).st = .eof := by
      unfold ended
      split
      · exact .inl rfl
      · exact hover
    rw [sink_eq, loop_stopped ((stopped_iff ..).2 (.inr hrest))]
    dsimp only
    congr 1
    unfold ended
    cases rest with
    | nil => exact absurd rfl hleft
    | cons c rest =>
      cases hbad : (q.adf && q.st == .eof) with
      | true => simp [hbad]
      | false => simp [hbad]

/-- The pieces of a stream leave what it leaves given at once. -/
theorem sink_pieces (h : l.Ready) (p : Psram) (pieces : List Bytes) :
    pieces.foldl (fun (s : Loader × Psram) d => s.1.sink s.2 d) (l, p) = l.sink p pieces.flatten := by
  induction pieces generalizing l p with
  | nil =>
    rw [List.flatten_nil, sink_eq, loop_stopped rfl, List.foldl_nil]
    unfold ended
    rw [if_neg (by simp)]
  | cons d pieces ih =>
    rw [List.foldl_cons, List.flatten_cons, sink_append h]
    exact ih (ready_sink h p d) _

end Loader

end WebAdf.TrackCache
