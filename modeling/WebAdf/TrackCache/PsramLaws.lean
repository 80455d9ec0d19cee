import WebAdf.Firmware.EncodeLaws
import WebAdf.TrackCache.Cache

/-!
# What each step does to the images and the words

A load touches its slot only, a write back its track only, and a dirty flag
nothing a drive sees. A published word is past every earlier one, until the
generation's 29 bits are used up.
-/

namespace WebAdf.TrackCache

open Lib Firmware

/-- What a slot holds for a track, as a drive streams it: the bit count and the
bytes. -/
def Psram.slotStream (p : Psram) (track : Int) (slot : Nat) : Option (Nat × Bytes) :=
  if !p.haveTrack slot track then none
  else match p.kind slot with
    | .adfHd => some (adfMfmHdTrackBits, clockedTrack hdSectors (UInt8.ofNat track.toNat)
        (p.bytes slot track hdTrackDataBytes))
    | .adfDd => some (Adfmfm.trackBits, clockedTrack sectors (UInt8.ofNat track.toNat)
        (p.bytes slot track netTrackBytes))
    | .mfm =>
      let nbytes := (p.bits slot track + 7) / 8
      if nbytes > trackMaxBytes then none
      else some (p.bits slot track, p.bytes slot track nbytes)

/-- The same, of the disk a word names. -/
def Psram.stream (p : Psram) (token : Nat) (track : Int) : Option (Nat × Bytes) :=
  (slotOfWord token).bind (p.slotStream track)

-- ---------------------------------------------------------------------------
-- PSRAM
-- ---------------------------------------------------------------------------

/-- A track's place is the same, but for the dirty flag. -/
structure Same (p q : Psram) (slot : Nat) (track : Int) : Prop where
  psram : q.havePsram = p.havePsram
  net : q.haveNet = p.haveNet
  kind : q.kind slot = p.kind slot
  bits : q.bits slot track = p.bits slot track
  mem : q.mem slot track = p.mem slot track
  present : q.state slot track = .absent ↔ p.state slot track = .absent

theorem Same.refl (p : Psram) (slot : Nat) (track : Int) : Same p p slot track :=
  ⟨rfl, rfl, rfl, rfl, rfl, .rfl⟩

theorem Same.trans (h : Same p q slot track) (h' : Same q r slot track) : Same p r slot track :=
  ⟨h'.psram.trans h.psram, h'.net.trans h.net, h'.kind.trans h.kind, h'.bits.trans h.bits,
    h'.mem.trans h.mem, h'.present.trans h.present⟩

theorem Same.usable (h : Same p q slot track) : q.usable slot track = p.usable slot track := by
  simp only [Psram.usable, Psram.slotOk, h.psram, h.net]

theorem Same.haveTrack (h : Same p q slot track) : q.haveTrack slot track = p.haveTrack slot track := by
  simp only [Psram.haveTrack, Psram.trackState, h.usable]
  split
  · rw [Bool.eq_iff_iff, bne_iff_ne, bne_iff_ne]
    exact not_congr h.present
  · rfl

theorem Same.stream (h : ∀ slot, slotOfWord token = some slot → Same p q slot track) :
    q.stream token track = p.stream token track := by
  unfold Psram.stream
  cases hslot : slotOfWord token with
  | none => rfl
  | some slot =>
    have hs := h slot hslot
    simp only [Option.bind_some, Psram.slotStream, hs.haveTrack, hs.kind, hs.bits, Psram.bytes, hs.mem]

theorem update2_of_ne (f : Nat → Int → α) (a : α) (h : slot' ≠ slot ∨ track' ≠ track) :
    Psram.update2 f slot track a slot' track' = f slot' track' := by
  unfold Psram.update2
  by_cases hs : slot' = slot
  · subst hs
    rw [Function.update_self, Function.update_of_ne (h.resolve_left (absurd rfl))]
  · rw [Function.update_of_ne hs]

theorem update2_self (f : Nat → Int → α) (a : α) : Psram.update2 f slot track a slot track = a := by
  rw [Psram.update2, Function.update_self, Function.update_self]

theorem same_copyIn (p : Psram) (off : Nat) (src : Bytes) (h : slot' ≠ slot ∨ track' ≠ track) :
    Same p (p.copyIn slot track off src) slot' track' :=
  ⟨rfl, rfl, rfl, rfl, update2_of_ne _ _ h, .rfl⟩

theorem same_setTrack (p : Psram) (n : Nat) (st : TrackState) (h : slot' ≠ slot ∨ track' ≠ track) :
    Same p (p.setTrack slot track n st) slot' track' :=
  ⟨rfl, rfl, rfl, update2_of_ne _ _ h, rfl, iff_of_eq (congrArg (· = _) (update2_of_ne _ _ h))⟩

/-- A write to one track's place. -/
theorem same_written (p : Psram) (src : Bytes) (n : Nat) (st : TrackState)
    (h : slot' ≠ slot ∨ track' ≠ track) :
    Same p ((p.copyIn slot track 0 src).setTrack slot track n st) slot' track' :=
  (same_copyIn p 0 src h).trans (same_setTrack _ n st h)

theorem same_load (p : Psram) (op : LoadOp) (h : slot' ≠ slot) :
    Same p (op.run p slot) slot' track' := by
  cases op with
  | reset =>
    simp only [LoadOp.run, Psram.resetSlot]
    split
    · exact .refl ..
    · exact ⟨rfl, rfl, Function.update_of_ne h .., by simp [h], rfl, by simp [h]⟩
  | kind =>
    simp only [LoadOp.run, Psram.setSlotKind]
    split
    · exact ⟨rfl, rfl, Function.update_of_ne h .., rfl, rfl, .rfl⟩
    · exact .refl ..
  | writeAt track offset src =>
    simp only [LoadOp.run, Psram.writeAt]
    split
    · exact .refl ..
    · split
      · exact .refl ..
      · exact same_copyIn p _ _ (.inl h)
  | commit track bitCount =>
    simp only [LoadOp.run, Psram.commit]
    split
    · exact .refl ..
    · split
      · exact .refl ..
      · exact same_setTrack p _ _ (.inl h)

theorem same_state (p : Psram) (st : Nat → Int → TrackState)
    (h : st slot track = .absent ↔ p.state slot track = .absent) :
    Same p { p with state := st } slot track :=
  ⟨rfl, rfl, rfl, rfl, rfl, h⟩

/-- A flag that replaces another leaves every track as present as it was. -/
theorem same_flag (p : Psram) (old new : TrackState) (hold : old ≠ .absent) (hnew : new ≠ .absent)
    (h : p.trackState slot track = old) :
    Same p { p with state := Psram.update2 p.state slot track new } slot' track' := by
  refine same_state p _ ?_
  by_cases hne : slot' ≠ slot ∨ track' ≠ track
  · rw [update2_of_ne _ _ hne]
  · simp only [not_or, ne_eq, not_not] at hne
    obtain ⟨rfl, rfl⟩ := hne
    rw [update2_self]
    unfold Psram.trackState at h
    split at h
    · rw [h]
      exact ⟨fun h => absurd h hnew, fun h => absurd h hold⟩
    · exact absurd h.symm hold

theorem same_clearDirty (p : Psram) (slot' : Nat) (track' : Int) :
    Same p (p.clearDirty slot track) slot' track' := by
  unfold Psram.clearDirty
  split
  · rename_i h
    exact same_flag p _ _ (by decide) (by decide) h
  · exact .refl ..

theorem same_setDirty (p : Psram) (slot' : Nat) (track' : Int) :
    Same p (p.setDirty slot track) slot' track' := by
  unfold Psram.setDirty
  split
  · rename_i h
    exact same_flag p _ _ (by decide) (by decide) h
  · exact .refl ..

theorem same_discardDirty (p : Psram) (slot' : Nat) (track' : Int) :
    Same p (p.discardDirty slot) slot' track' := by
  unfold Psram.discardDirty
  split
  · exact .refl ..
  · refine same_state p _ ?_
    by_cases hs : slot' = slot
    · subst hs
      rw [Function.update_self]
      split
      · rename_i h
        simp only [Bool.and_eq_true, beq_iff_eq] at h
        simp [h.2]
      · exact .rfl
    · rw [Function.update_of_ne hs]

theorem storeAdf_cases (p : Psram) (slot : Nat) (track : Int) (adf : Bytes) :
    p.storeAdf slot track adf = (p, false) ∨ ∃ src n,
      p.storeAdf slot track adf =
        ((p.copyIn slot track 0 src).setTrack slot track n .dirty, true) := by
  unfold Psram.storeAdf
  split
  · exact .inl rfl
  · cases p.kind slot with
    | mfm => exact .inl rfl
    | adfHd => exact .inr ⟨_, _, rfl⟩
    | adfDd => exact .inr ⟨_, _, rfl⟩

theorem markDirty_cases (p : Psram) (slot : Nat) (track : Int) (src : Bytes) (n : Nat) :
    p.markDirty slot track src n = p ∨ p.usable slot track = true ∧ ∃ bytes,
      p.markDirty slot track src n =
        (p.copyIn slot track 0 bytes).setTrack slot track n .dirty := by
  unfold Psram.markDirty Psram.store
  split
  · exact .inl rfl
  · rename_i husable
    split
    · exact .inl rfl
    · split
      · exact .inl rfl
      · dsimp only
        split
        · exact .inl rfl
        · exact .inr ⟨by simpa using husable, _, rfl⟩

/-- A write back changes its own track, and nothing where it does not land. -/
theorem writeBackApply_same (p : Psram) (slot : Nat) (track : Int) (adf : Bytes) :
    (∀ slot' track', slot' ≠ slot ∨ track' ≠ track →
      Same p (writeBackApply p slot track adf).1 slot' track') ∧
    ((writeBackApply p slot track adf).2 = false → (writeBackApply p slot track adf).1 = p) := by
  unfold writeBackApply
  split
  · rcases storeAdf_cases p slot track adf with h | ⟨src, n, h⟩
    · rw [h]
      exact ⟨fun _ _ _ => .refl .., fun _ => rfl⟩
    · rw [h]
      exact ⟨fun _ _ hne => same_written p _ _ _ hne, fun h => by cases h⟩
  · generalize mfmEncodeTrack adf _ _ = enc
    obtain ⟨mfm, bits⟩ := enc
    dsimp only
    rcases markDirty_cases p slot track mfm bits with h | ⟨husable, bytes, h⟩
    · rw [h]
      exact ⟨fun _ _ _ => .refl .., fun _ => rfl⟩
    · rw [h]
      refine ⟨fun _ _ hne => same_written p _ _ _ hne, fun hfalse => ?_⟩
      -- what was stored is dirty
      have hstored : ((p.copyIn slot track 0 bytes).setTrack slot track bits .dirty).trackState slot
          track = .dirty := by
        have husable' : ((p.copyIn slot track 0 bytes).setTrack slot track bits .dirty).usable slot
            track = true := husable
        rw [Psram.trackState, if_pos husable']
        exact update2_self ..
      rw [hstored] at hfalse
      cases hfalse

-- ---------------------------------------------------------------------------
-- Words
-- ---------------------------------------------------------------------------

theorem packWord_lt (gen : Nat) (slot : Option Nat) : packWord gen slot < 8 * (gen + 1) := by
  cases slot with
  | none => simp only [packWord]; omega
  | some slot => simp only [packWord]; omega

/-- Below 2^29 words, a word is past every earlier one. -/
theorem le_packWord (h : gen < 2 ^ 29) (slot : Option Nat) : 8 * gen ≤ packWord gen slot := by
  cases slot with
  | none => simp only [packWord]; omega
  | some slot => simp only [packWord]; omega

/-- The words core 0 may read a track under. -/
def Psram.Live (p : Psram) (token : Nat) : Prop :=
  token = p.activeWord ∨ token = p.df1Word ∨ token = p.df1ReaderAck

/-- No word is made, published or acknowledged. -/
structure SameWords (p q : Psram) : Prop where
  gen : q.gGen = p.gGen
  active : q.activeWord = p.activeWord
  df1 : q.df1Word = p.df1Word
  ack : q.df1ReaderAck = p.df1ReaderAck

theorem SameWords.live (h : SameWords p q) (ht : q.Live token) : p.Live token := by
  unfold Psram.Live at ht ⊢
  rwa [h.active, h.df1, h.ack] at ht

theorem sameWords_load (p : Psram) (slot : Nat) (op : LoadOp) : SameWords p (op.run p slot) := by
  cases op with
  | reset =>
    simp only [LoadOp.run, Psram.resetSlot]
    split <;> exact ⟨rfl, rfl, rfl, rfl⟩
  | kind =>
    simp only [LoadOp.run, Psram.setSlotKind]
    split <;> exact ⟨rfl, rfl, rfl, rfl⟩
  | writeAt track offset src =>
    simp only [LoadOp.run, Psram.writeAt]
    split
    · exact ⟨rfl, rfl, rfl, rfl⟩
    · split <;> exact ⟨rfl, rfl, rfl, rfl⟩
  | commit track bitCount =>
    simp only [LoadOp.run, Psram.commit]
    split
    · exact ⟨rfl, rfl, rfl, rfl⟩
    · split <;> exact ⟨rfl, rfl, rfl, rfl⟩

theorem sameWords_writeBackApply (p : Psram) (slot : Nat) (track : Int) (adf : Bytes) :
    SameWords p (writeBackApply p slot track adf).1 := by
  unfold writeBackApply
  split
  · rcases storeAdf_cases p slot track adf with h | ⟨src, n, h⟩ <;> rw [h] <;> exact ⟨rfl, rfl, rfl, rfl⟩
  · dsimp only
    rcases markDirty_cases p slot track _ _ with h | ⟨-, bytes, h⟩ <;> rw [h] <;> exact ⟨rfl, rfl, rfl, rfl⟩

theorem sameWords_clearDirty (p : Psram) (slot : Nat) (track : Int) :
    SameWords p (p.clearDirty slot track) := by
  unfold Psram.clearDirty
  split <;> exact ⟨rfl, rfl, rfl, rfl⟩

theorem sameWords_setDirty (p : Psram) (slot : Nat) (track : Int) :
    SameWords p (p.setDirty slot track) := by
  unfold Psram.setDirty
  split <;> exact ⟨rfl, rfl, rfl, rfl⟩

theorem sameWords_discardDirty (p : Psram) (slot : Nat) : SameWords p (p.discardDirty slot) := by
  unfold Psram.discardDirty
  split <;> exact ⟨rfl, rfl, rfl, rfl⟩

/-- What a publish does: the tracks stay, and a word that was not there is new. -/
structure Published (p q : Psram) : Prop where
  same : ∀ slot track, Same p q slot track
  gen : p.gGen ≤ q.gGen
  below : ∀ token, q.Live token → p.Live token ∨ token < 8 * (q.gGen + 1)
  fresh : q.gGen < 2 ^ 29 → ∀ token, q.Live token → p.Live token ∨ 8 * (p.gGen + 1) ≤ token

theorem Published.refl (p : Psram) : Published p p :=
  ⟨.refl p, Nat.le_refl _, fun _ h => .inl h, fun _ _ h => .inl h⟩

theorem Published.trans (h : Published p q) (h' : Published q r) : Published p r := by
  refine ⟨fun slot track => (h.same slot track).trans (h'.same slot track),
    Nat.le_trans h.gen h'.gen, fun token ht => ?_, fun hgen token ht => ?_⟩
  · rcases h'.below token ht with hq | hlt
    · have hgen := h'.gen
      exact (h.below token hq).imp_right fun hlt => by omega
    · exact .inr hlt
  · rcases h'.fresh hgen token ht with hq | hle
    · exact h.fresh (Nat.lt_of_le_of_lt h'.gen hgen) token hq
    · have := h.gen
      exact .inr (by omega)

theorem published_df1 (p : Psram) (slot : Option Nat) : Published p (p.makeDf1Word slot) := by
  refine ⟨fun slot track => ⟨rfl, rfl, rfl, rfl, rfl, .rfl⟩, Nat.le_succ _, ?_, ?_⟩
  · rintro token (rfl | rfl | rfl)
    · exact .inl (.inl rfl)
    · exact .inr (packWord_lt ..)
    · exact .inl (.inr (.inr rfl))
  · rintro hgen token (rfl | rfl | rfl)
    · exact .inl (.inl rfl)
    · exact .inr (le_packWord hgen slot)
    · exact .inl (.inr (.inr rfl))

theorem published_slot (p : Psram) (slot : Option Nat) : Published p (p.publishSlot slot) := by
  unfold Psram.publishSlot
  split
  · exact .refl p
  · have hrelease : Published p (p.releaseDf1 slot) := by
      unfold Psram.releaseDf1
      split
      · exact .refl p
      · split
        · exact published_df1 p none
        · exact .refl p
    refine hrelease.trans ⟨fun slot track => ⟨rfl, rfl, rfl, rfl, rfl, .rfl⟩, Nat.le_succ _, ?_, ?_⟩
    · rintro token (rfl | rfl | rfl)
      · exact .inr (packWord_lt ..)
      · exact .inl (.inr (.inl rfl))
      · exact .inl (.inr (.inr rfl))
    · rintro hgen token (rfl | rfl | rfl)
      · exact .inr (le_packWord hgen slot)
      · exact .inl (.inr (.inl rfl))
      · exact .inl (.inr (.inr rfl))

theorem published_publishDf1 (p : Psram) (slot : Option Nat) :
    Published p (p.publishDf1 slot).1 := by
  cases slot with
  | none => exact published_df1 p none
  | some slot =>
    unfold Psram.publishDf1
    dsimp only
    split
    · split
      · exact published_df1 p _
      · exact .refl p
    · split
      · exact .refl p
      · exact published_df1 p _

end WebAdf.TrackCache
