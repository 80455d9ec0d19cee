import WebAdf.TrackCache.Containers

/-!
# The loader's run over a container

From the length word of a track on, the loader stores the tracks that lie in
the stream and is at the end once the last is over; of a stream that is none it
never is. An empty last track is over only when a byte follows.
-/

namespace WebAdf.TrackCache.Loader

open Lib

variable {l : Loader} {p : Psram} {slot count i n left : Nat}

-- ---------------------------------------------------------------------------
-- One part
-- ---------------------------------------------------------------------------

theorem sink_step (h : l.Ready) (p : Psram) {d : Bytes} (hgo : l.stopped d = false)
    (hle : l.want ≤ d.length) :
    l.sink p d = ((l.absorb p (d.take l.want)).1.advance (l.absorb p (d.take l.want)).2).1.sink
      ((l.absorb p (d.take l.want)).1.advance (l.absorb p (d.take l.want)).2).2
        (d.drop l.want) := by
  rw [sink_eq, loop_pass h p hgo, pass_full p hle, sink_eq]

theorem sink_nil (l : Loader) (p : Psram) : l.sink p [] = (l, p) := by
  rw [sink_eq, loop_stopped rfl]
  unfold ended
  rw [if_neg (by simp)]

/-- Bytes short of what is missing end nothing. -/
theorem sink_short (h : l.Ready) (p : Psram) {d : Bytes} (hlt : d.length < l.want) :
    (l.sink p d).1.st = l.st := by
  by_cases hd : d = []
  · rw [hd, sink_nil]
  cases hgo : l.stopped d with
  | true =>
    have hwant : l.want = 0 := by
      rcases ((stopped_iff ..).1 hgo).resolve_left hd with hst | hst <;> simp [want, hst]
    omega
  | false =>
    rw [sink_eq, loop_pass h p hgo, pass_part p hlt, loop_stopped rfl]
    unfold ended
    rw [if_neg (by simp)]
    exact absorb_st ..

theorem sink_err (h : l.st = .err) (p : Psram) (d : Bytes) : (l.sink p d).1.st = .err := by
  rw [sink_eq, loop_stopped ((stopped_iff ..).2 (.inr (.inl h)))]
  unfold ended
  split
  · rfl
  · exact h

theorem go (d : Bytes) (hne : d ≠ []) (herr : l.st ≠ .err) (heof : l.st ≠ .eof) :
    l.stopped d = false := by
  rw [← Bool.not_eq_true, stopped_iff]
  simp [hne, herr, heof]

-- ---------------------------------------------------------------------------
-- A track of a WFMF
-- ---------------------------------------------------------------------------

/-- Before track `i` of `count`, or at the end after the last. -/
structure Standing (l : Loader) (slot count i : Nat) : Prop where
  place : l.slot = slot
  mfm : l.adf = false
  ordinary : slot ≠ slotNet
  total : l.trackCount = count
  track : l.track = i
  st : i < count ∧ l.st = .len ∧ l.lenb = [] ∨ count ≤ i ∧ l.st = .eof

theorem Standing.atLen (h : l.Standing slot count i) (hi : i < count) :
    l.st = .len ∧ l.lenb = [] := by
  rcases h.st with ⟨-, hst⟩ | ⟨hle, -⟩
  · exact hst
  · omega

theorem ready_len (hst : l.st = .len) (hlen : l.lenb.length < 4) (hmfm : l.adf = false)
    (hslot : l.slot ≠ slotNet) : l.Ready :=
  ⟨by simp [hst], fun _ => ⟨hlen, hmfm, hslot⟩, by simp [hst], by simp [hst], by simp [hst],
    by simp [hst]⟩

theorem Standing.ready (h : l.Standing slot count i) (hi : i < count) : l.Ready := by
  obtain ⟨hst, hlenb⟩ := h.atLen hi
  exact ready_len hst (by simp [hlenb]) h.mfm (by rw [h.place]; exact h.ordinary)

/-- The payload of `n` bits of track `i` comes next. -/
structure AtPayload (l : Loader) (slot count i n : Nat) : Prop where
  place : l.slot = slot
  mfm : l.adf = false
  ordinary : slot ≠ slotNet
  total : l.trackCount = count
  track : l.track = i
  st : l.st = .payload
  bits : l.bits = n
  payloadBytes : l.payloadBytes = (n + 7) / 8
  payloadGot : l.payloadGot = 0
  padLeft : l.padLeft = padding ((n + 7) / 8)
  fits : (n + 7) / 8 ≤ trackMaxBytes

theorem AtPayload.ready (h : l.AtPayload slot count i n) : l.Ready := by
  have hst := h.st
  refine ⟨by simp [hst], by simp [hst], fun _ => ⟨?_, ?_⟩, fun _ hadf => ?_, fun _ _ => ?_,
    by simp [hst]⟩
  · rw [h.payloadGot, h.payloadBytes]
    omega
  · rw [h.payloadBytes, h.place, slotTrackCap_of_ne h.ordinary]
    exact h.fits
  · exact absurd (hadf.symm.trans h.mfm) (by decide)
  · rw [h.place]
    exact h.ordinary

theorem AtPayload.want (h : l.AtPayload slot count i n) : l.want = (n + 7) / 8 := by
  unfold Loader.want
  rw [h.st]
  dsimp only
  rw [h.payloadBytes, h.payloadGot, Nat.sub_zero]

/-- The length word is there. -/
theorem Standing.sized (h : l.Standing slot count i) (hi : i < count) (p : Psram) {d : Bytes}
    (hlen : 4 ≤ d.length) :
    (trackMaxBytes * 8 < le32 (d.take 4) ∧ (l.sink p d).1.st = .err) ∨
    le32 (d.take 4) ≤ trackMaxBytes * 8 ∧
      ∃ l' : Loader, l'.AtPayload slot count i (le32 (d.take 4)) ∧ l.sink p d = l'.sink p (d.drop 4) := by
  obtain ⟨hst, hlenb⟩ := h.atLen hi
  have hwant : l.want = 4 := by
    unfold Loader.want
    rw [hst]
    simp [hlenb]
  have hne : d ≠ [] := by
    rintro rfl
    simp at hlen
  have habsorb : l.absorb p (d.take 4) = ({ l with lenb := d.take 4 }, p) := by
    unfold absorb
    rw [hst]
    simp [hlenb, ← hst]
  have hadvance : ({ l with lenb := d.take 4 } : Loader).advance p =
      (({ l with lenb := d.take 4 } : Loader).length, p) := by
    unfold advance
    dsimp only
    rw [hst]
  rw [sink_step (h.ready hi) p (go d hne (by simp [hst]) (by simp [hst])) (by omega), hwant, habsorb]
  dsimp only
  rw [hadvance]
  dsimp only
  generalize hn : le32 (d.take 4) = n
  by_cases hbig : trackMaxBytes * 8 < n
  · refine .inl ⟨hbig, sink_err ?_ p _⟩
    unfold Loader.length
    dsimp only
    rw [hn, if_pos hbig]
  · refine .inr ⟨Nat.le_of_not_lt hbig, _, ?_, rfl⟩
    have hfits : (n + 7) / 8 ≤ trackMaxBytes := by omega
    unfold Loader.length
    dsimp only
    rw [hn, if_neg hbig, if_neg (by omega)]
    exact ⟨h.place, h.mfm, h.ordinary, h.total, h.track, rfl, rfl, rfl, rfl, rfl, hfits⟩

/-- The padding of a track comes next. -/
structure AtPad (l : Loader) (slot count i left : Nat) : Prop where
  place : l.slot = slot
  mfm : l.adf = false
  ordinary : slot ≠ slotNet
  total : l.trackCount = count
  track : l.track = i
  st : l.st = .pad
  padLeft : l.padLeft = left
  pos : 0 < left

theorem AtPad.ready (h : l.AtPad slot count i left) : l.Ready := by
  have hst := h.st
  refine ⟨by simp [hst], by simp [hst], by simp [hst], by simp [hst], by simp [hst],
    fun _ => ⟨?_, h.mfm, ?_⟩⟩
  · rw [h.padLeft]
    exact h.pos
  · rw [h.place]
    exact h.ordinary

/-- The track after this one, or the end. -/
theorem standing_nextTrack (hslot : l.slot = slot) (hmfm : l.adf = false) (hord : slot ≠ slotNet)
    (hcount : l.trackCount = count) (htrack : l.track = i) :
    ({ l with st := .len, lenb := [] } : Loader).nextTrack.Standing slot count (i + 1) := by
  unfold nextTrack
  dsimp only
  split
  · rename_i hlast
    exact ⟨hslot, hmfm, hord, hcount, congrArg (· + 1) htrack, .inr ⟨by omega, rfl⟩⟩
  · rename_i hmore
    exact ⟨hslot, hmfm, hord, hcount, congrArg (· + 1) htrack, .inl ⟨by omega, rfl, rfl⟩⟩

/-- The payload is there, and a byte at least was read for it or follows. -/
theorem AtPayload.stored (h : l.AtPayload slot count i n) (p : Psram) {d : Bytes} (hne : d ≠ [])
    (hlen : (n + 7) / 8 ≤ d.length) :
    ∃ l' : Loader, (padding ((n + 7) / 8) = 0 ∧ l'.Standing slot count (i + 1) ∨
        l'.AtPad slot count i (padding ((n + 7) / 8))) ∧
      l.sink p d = l'.sink (p.put slot i n (d.take ((n + 7) / 8))) (d.drop ((n + 7) / 8)) := by
  have hst := h.st
  have habsorb : l.absorb p (d.take ((n + 7) / 8)) =
      ({ l with payloadGot := ((n + 7) / 8) }, p.writeAt slot i 0 (d.take ((n + 7) / 8))) := by
    unfold absorb
    rw [hst]
    dsimp only
    rw [h.place, h.track, h.payloadGot, List.length_take, Nat.min_eq_left hlen, Nat.zero_add, ← hst,
      ← h.place, ← h.track]
  have hadvance : ∀ q, ({ l with payloadGot := ((n + 7) / 8) } : Loader).advance q =
      (({ l with payloadGot := ((n + 7) / 8) } : Loader).payloadDone, q.commit slot i n) := by
    intro q
    unfold advance
    dsimp only
    rw [hst]
    dsimp only
    rw [h.place, h.track, h.bits]
  rw [sink_step h.ready p (go d hne (by simp [hst]) (by simp [hst])) (by rw [h.want]; exact hlen),
    h.want, habsorb]
  dsimp only
  rw [hadvance]
  refine ⟨_, ?_, rfl⟩
  unfold payloadDone
  dsimp only
  rw [if_neg (by simp [h.mfm])]
  by_cases hpad : l.padLeft = 0
  · rw [if_neg (by simp [hpad])]
    exact .inl ⟨h.padLeft ▸ hpad, @standing_nextTrack { l with payloadGot := (n + 7) / 8 } slot
      count i h.place h.mfm h.ordinary h.total h.track⟩
  · rw [if_pos hpad]
    exact .inr ⟨h.place, h.mfm, h.ordinary, h.total, h.track, rfl, h.padLeft,
      Nat.pos_of_ne_zero (h.padLeft ▸ hpad)⟩

/-- The padding is there. -/
theorem AtPad.done (h : l.AtPad slot count i left) (p : Psram) {d : Bytes}
    (hlen : left ≤ d.length) :
    ∃ l' : Loader, l'.Standing slot count (i + 1) ∧ l.sink p d = l'.sink p (d.drop left) := by
  have hst := h.st
  have hne : d ≠ [] := by
    rintro rfl
    have := h.pos
    simp at hlen
    omega
  have hwant : l.want = left := by
    unfold Loader.want
    rw [hst]
    exact h.padLeft
  have habsorb : ∃ k, l.absorb p (d.take left) = ({ l with padLeft := k }, p) := by
    unfold absorb
    rw [hst]
    exact ⟨_, rfl⟩
  obtain ⟨k, habsorb⟩ := habsorb
  rw [sink_step h.ready p (go d hne (by simp [hst]) (by simp [hst])) (by omega), hwant, habsorb]
  have hadvance : ({ l with padLeft := k } : Loader).advance p =
      (({ l with padLeft := k, st := .len, lenb := [] } : Loader).nextTrack, p) := by
    unfold advance
    dsimp only
    rw [hst]
  dsimp only
  rw [hadvance]
  exact ⟨_, @standing_nextTrack { l with padLeft := k } slot count i h.place h.mfm h.ordinary
    h.total h.track, rfl⟩

-- ---------------------------------------------------------------------------
-- The tracks of a WFMF
-- ---------------------------------------------------------------------------

theorem le32_take (h : 4 ≤ d.length) : le32 (d.take 4) = le32 d := by
  have hlen : 4 ≤ (d.take 4).length := by
    rw [List.length_take]
    omega
  have heq := le32_append hlen (d.drop 4)
  rw [List.take_append_drop] at heq
  exact heq.symm

theorem blob_take (t : WfmfTrack) (d : Bytes) :
    (t.blob ++ d).take 4 = putLe32 t.bits ∧ (t.blob ++ d).drop 4 = t.bytes ++ (t.pad ++ d) := by
  unfold WfmfTrack.blob
  rw [List.append_assoc, List.append_assoc]
  exact ⟨List.take_left' (length_putLe32 _), List.drop_left' (length_putLe32 _)⟩

theorem blob_length (t : WfmfTrack) : 4 ≤ t.blob.length := by
  unfold WfmfTrack.blob
  rw [List.length_append, length_putLe32]
  omega

theorem bits_lt (t : WfmfTrack) : t.bits < 2 ^ 32 := by
  have h := t.bits_le
  have hmax : trackMaxBytes * 8 < 2 ^ 32 := by decide
  omega

/-- Over a track, where it is not an empty one that ends the stream. -/
theorem Standing.track_run (h : l.Standing slot count i) (hi : i < count) (p : Psram)
    (t : WfmfTrack) (d : Bytes) (hd : t.bytes ≠ [] ∨ d ≠ []) :
    ∃ l' : Loader, l'.Standing slot count (i + 1) ∧
      l.sink p (t.blob ++ d) = l'.sink (p.put slot i t.bits t.bytes) d := by
  obtain ⟨htake, hdrop⟩ := blob_take t d
  have hlen := blob_length t
  have hbits : le32 ((t.blob ++ d).take 4) = t.bits := by
    rw [htake, ← List.append_nil (putLe32 t.bits), le32_putLe32 (bits_lt t)]
  rcases h.sized hi p (d := t.blob ++ d) (by rw [List.length_append]; omega) with
    ⟨hbig, -⟩ | ⟨-, l₁, h₁, heq₁⟩
  · rw [hbits] at hbig
    have := t.bits_le
    omega
  rw [hbits] at h₁
  rw [heq₁, hdrop]
  have hne : t.bytes ++ (t.pad ++ d) ≠ [] := by
    rcases hd with hd | hd <;> simp [hd]
  obtain ⟨l₂, h₂, heq₂⟩ := h₁.stored p hne (by rw [List.length_append, t.length]; omega)
  rw [← t.length, List.take_left, List.drop_left] at heq₂
  rw [heq₂]
  have hpad := t.padded
  rw [t.length] at hpad
  rcases h₂ with ⟨hzero, h₂⟩ | h₂
  · have hnil : t.pad = [] := List.length_eq_zero_iff.1 (hpad.trans hzero)
    rw [hnil, List.nil_append]
    exact ⟨l₂, h₂, rfl⟩
  · obtain ⟨l₃, h₃, heq₃⟩ := h₂.done (p.put slot i t.bits t.bytes) (d := t.pad ++ d)
      (by rw [List.length_append]; omega)
    rw [← hpad, List.drop_left] at heq₃
    exact ⟨l₃, h₃, heq₃⟩

/-- An empty track at the end of the stream is not over. -/
theorem Standing.empty_run (h : l.Standing slot count i) (hi : i < count) (p : Psram)
    (t : WfmfTrack) (ht : t.bytes = []) : (l.sink p t.blob).1.st ≠ .eof := by
  obtain ⟨htake, hdrop⟩ := blob_take t []
  rw [List.append_nil] at htake hdrop
  have hpad : t.pad = [] := by
    have hpad := t.padded
    rw [ht] at hpad
    exact List.length_eq_zero_iff.1 hpad
  rcases h.sized hi p (blob_length t) with ⟨-, herr⟩ | ⟨-, l₁, h₁, heq₁⟩
  · rw [herr]
    decide
  · rw [heq₁, hdrop, ht, hpad, List.append_nil, List.append_nil, sink_nil]
    simp [h₁.st]

/-- Bytes enough for the length they start with are a track. -/
theorem exists_blob {d : Bytes} (hlen : 4 ≤ d.length) (hn : le32 (d.take 4) = n)
    (hle : n ≤ trackMaxBytes * 8) (hbytes : (n + 7) / 8 ≤ (d.drop 4).length)
    (hpad : padding ((n + 7) / 8) ≤ ((d.drop 4).drop ((n + 7) / 8)).length) :
    ∃ t : WfmfTrack, ∃ d', d = t.blob ++ d' := by
  refine ⟨⟨n, (d.drop 4).take ((n + 7) / 8),
    ((d.drop 4).drop ((n + 7) / 8)).take (padding ((n + 7) / 8)), hle, ?_, ?_⟩,
    ((d.drop 4).drop ((n + 7) / 8)).drop (padding ((n + 7) / 8)), ?_⟩
  · exact List.length_take_of_le hbytes
  · rw [List.length_take_of_le hpad, List.length_take_of_le hbytes]
  · unfold WfmfTrack.blob
    dsimp only
    rw [← hn, putLe32_le32 (List.length_take_of_le hlen), List.append_assoc,
      List.append_assoc, List.take_append_drop, List.take_append_drop, List.take_append_drop]

/-- What comes next is a track, or the loader never gets to the end. -/
theorem Standing.track_cases (h : l.Standing slot count i) (hi : i < count) (p : Psram)
    (d : Bytes) : (∃ t : WfmfTrack, ∃ d', d = t.blob ++ d') ∨ (l.sink p d).1.st ≠ .eof := by
  obtain ⟨hst, hlenb⟩ := h.atLen hi
  by_cases hlen : 4 ≤ d.length
  · rcases h.sized hi p hlen with ⟨-, herr⟩ | ⟨hle, l₁, h₁, heq₁⟩
    · rw [herr]
      exact .inr (by decide)
    rw [heq₁]
    generalize hn : le32 (d.take 4) = n at hle h₁
    by_cases hbytes : (n + 7) / 8 ≤ (d.drop 4).length
    · by_cases hpad : padding ((n + 7) / 8) ≤ ((d.drop 4).drop ((n + 7) / 8)).length
      · exact .inl (exists_blob hlen hn hle hbytes hpad)
      · -- the stream ends in its padding
        have hne : d.drop 4 ≠ [] := by
          intro hnil
          rw [hnil] at hbytes hpad
          have hzero : (n + 7) / 8 = 0 := Nat.le_zero.1 hbytes
          rw [hzero] at hpad
          exact hpad (Nat.le_refl 0)
        obtain ⟨l₂, h₂, heq₂⟩ := h₁.stored p hne hbytes
        rw [heq₂]
        rcases h₂ with ⟨hzero, -⟩ | h₂
        · omega
        · refine .inr ?_
          rw [sink_short h₂.ready]
          · simp [h₂.st]
          · have hwant : l₂.want = padding ((n + 7) / 8) := by
              unfold Loader.want
              rw [h₂.st]
              exact h₂.padLeft
            omega
    · -- the stream ends in its payload
      refine .inr ?_
      rw [sink_short h₁.ready p (by rw [h₁.want]; omega)]
      simp [h₁.st]
  · -- the stream ends in its length
    refine .inr ?_
    rw [sink_short (h.ready hi) p]
    · simp [hst]
    · unfold Loader.want
      rw [hst]
      simp only [hlenb, List.length_nil]
      omega

end WebAdf.TrackCache.Loader
