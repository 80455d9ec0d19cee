import WebAdf.TrackCache.PsramLaws

/-!
# A track read while it is written

The uploader reads a track out of PSRAM piece by piece while the other core may
be storing it. What it takes the bytes for is the track as the server keeps it:
the sector data of a high-density slot, or the decoded MFM of the others when
every sector is there. `held` is what it would read if nothing stirred.
-/

namespace WebAdf.Uploading

open Lib Firmware TrackCache

/-- `psram_image_next_dirty`'s test of one track. -/
def dirtyAt (p : Psram) (slot t : Nat) : Bool := p.trackState slot t == .dirty

/-- The bytes a read copies. -/
def rawLen (p : Psram) (slot t : Nat) : Nat :=
  if !p.haveTrack slot t then 0
  else if p.slotKind slot = .adfHd then hdTrackDataBytes
  else if p.kind slot ≠ .mfm ∨ (p.bits slot t + 7) / 8 > trackMaxBytes then 0
  else (p.bits slot t + 7) / 8

/-- What the bytes read for a track are taken for; `none` where it could not be
read whole. -/
def wholeTrack (p : Psram) (slot t : Nat) (raw : Bytes) : Option Bytes :=
  if p.slotKind slot = .adfHd then if p.haveTrack slot t then some raw else none
  else
    let (d, trk) := mfmDecodeTrackRn raw (List.replicate trackDataBytes 0) sectors
    if d.found ≠ 0x7ff ∨ !d.trackNoConsistent ∨ d.trackNo ≠ UInt8.ofNat t then none else some trk

def held (p : Psram) (slot t : Nat) : Option Bytes :=
  wholeTrack p slot t (p.bytes slot t (rawLen p slot t))

/-- A read under way: `n` bytes to copy, `acc` copied. -/
structure Reader where
  track : Nat
  n : Nat
  acc : Bytes

namespace Reader

def start (p : Psram) (slot t : Nat) : Reader := ⟨t, rawLen p slot t, []⟩

/-- The next `k` bytes, as they are now. -/
def more (r : Reader) (p : Psram) (slot k : Nat) : Reader :=
  { r with acc := r.acc ++
      (List.range' r.acc.length (min k (r.n - r.acc.length))).map (p.mem slot r.track) }

/-- All copied. The length is read again; `stale` is what an earlier read left
behind the bytes. -/
def finish (r : Reader) (p : Psram) (slot : Nat) (stale : Bytes) : Option Bytes :=
  wholeTrack p slot r.track ((r.acc ++ stale).take (rawLen p slot r.track))

/-- What was read so far is what is there. -/
def Current (r : Reader) (p : Psram) (slot : Nat) : Prop :=
  r.n = rawLen p slot r.track ∧ r.acc = p.bytes slot r.track r.acc.length ∧ r.acc.length ≤ r.n

end Reader

/-- Every track of the slot is there. -/
def Complete (p : Psram) (slot : Nat) : Prop := ∀ t < tracks, p.haveTrack slot t = true

-- ---------------------------------------------------------------------------
-- Reading
-- ---------------------------------------------------------------------------

theorem Reader.start_current (p : Psram) (slot t : Nat) : (start p slot t).Current p slot :=
  ⟨rfl, rfl, Nat.zero_le _⟩

theorem Reader.Current.more {r : Reader} (h : r.Current p slot) (k : Nat) :
    (r.more p slot k).Current p slot := by
  obtain ⟨hn, hacc, hle⟩ := h
  have hlen : (r.more p slot k).acc.length = r.acc.length + min k (r.n - r.acc.length) := by
    simp [Reader.more]
  refine ⟨hn, ?_, ?_⟩
  · rw [hlen]
    simp only [Reader.more, Psram.bytes, List.range_eq_range']
    rw [List.range'_append_1.symm, List.map_append, Nat.zero_add]
    congr 1
    rw [hacc, Psram.bytes, List.range_eq_range', List.length_map, List.length_range']
  · rw [hlen]
    have hle' : min k (r.n - r.acc.length) ≤ r.n - r.acc.length := Nat.min_le_right _ _
    show _ ≤ r.n
    omega

/-- A read nothing disturbed gives the track. -/
theorem Reader.Current.finish {r : Reader} (h : r.Current p slot) (hall : r.acc.length = r.n)
    (stale : Bytes) : r.finish p slot stale = held p slot r.track := by
  obtain ⟨hn, hacc, -⟩ := h
  rw [Reader.finish, held, List.take_append_of_le_length (by omega), List.take_of_length_le (by omega),
    hacc, hall, hn]

theorem same_slotKind {t : Nat} (h : Same p q slot t) : q.slotKind slot = p.slotKind slot := by
  have hok : q.slotOk slot = p.slotOk slot := by
    unfold Psram.slotOk
    rw [h.net]
  unfold Psram.slotKind
  rw [hok, h.kind]

theorem same_rawLen {t : Nat} (h : Same p q slot t) : rawLen q slot t = rawLen p slot t := by
  unfold rawLen
  rw [h.haveTrack, same_slotKind h, h.kind, h.bits]

theorem same_wholeTrack {t : Nat} (h : Same p q slot t) (raw : Bytes) :
    wholeTrack q slot t raw = wholeTrack p slot t raw := by
  unfold wholeTrack
  rw [h.haveTrack, same_slotKind h]

theorem same_bytes {t : Nat} (h : Same p q slot t) (n : Nat) : q.bytes slot t n = p.bytes slot t n := by
  simp only [Psram.bytes, h.mem]

theorem same_held {t : Nat} (h : Same p q slot t) : held q slot t = held p slot t := by
  rw [held, held, same_rawLen h, same_bytes h, same_wholeTrack h]

theorem same_current {r : Reader} (h : Same p q slot r.track) (hr : r.Current p slot) :
    r.Current q slot := by
  obtain ⟨hn, hacc, hle⟩ := hr
  exact ⟨by rw [same_rawLen h]; exact hn, by rw [same_bytes h]; exact hacc, hle⟩

theorem same_complete (h : ∀ t : Nat, Same p q slot t) (hp : Complete p slot) : Complete q slot :=
  fun t ht => (h t).haveTrack.trans (hp t ht)

-- ---------------------------------------------------------------------------
-- Lengths
-- ---------------------------------------------------------------------------

theorem length_candidate {st : DecodeState} (h : st.adfOut.length = nsec * sectorDataBytes)
    (mfm : Bytes) (body : Nat) :
    (st.candidate mfm nsec body).2.adfOut.length = nsec * sectorDataBytes := by
  unfold DecodeState.candidate
  split
  · exact h
  · rename_i header data hbody
    split
    · exact h
    · rename_i hid
      have hdata : data.length = sectorDataBytes := by
        unfold readBody at hbody
        simp only at hbody
        split at hbody
        · simp only [Option.some.injEq, Prod.mk.injEq] at hbody
          rw [← hbody.2]
          exact Adfmfm.length_joinLanes _ _
        · cases hbody
      simp only [DecodeState.accept]
      split
      · refine (length_blit ?_).trans h
        rw [h, hdata]
        exact block_le (by omega)
      · exact h

theorem length_decodeBits {mfm : Bytes} {nsec b : Nat} {sr : UInt32} {st : DecodeState}
    (h : st.adfOut.length = nsec * sectorDataBytes) :
    (decodeBits mfm nsec b sr st).adfOut.length = nsec * sectorDataBytes := by
  induction hk : mfm.length * 8 - b using Nat.strong_induction_on generalizing b sr st with
  | _ k ih =>
    rw [decodeBits]
    by_cases hb : b < mfm.length * 8
    · rw [if_pos hb]
      dsimp only
      split
      · exact ih (mfm.length * 8 - (b + 1)) (by omega) h rfl
      · split
        · exact h
        · have hlen := length_candidate h mfm (b + 1)
          cases hcand : st.candidate mfm nsec (b + 1) with
          | mk good st' =>
            rw [hcand] at hlen
            dsimp only
            split
            · exact ih (mfm.length * 8 - (b + 1 + bodyBits)) (by omega) hlen rfl
            · exact ih (mfm.length * 8 - (b + 1)) (by omega) hlen rfl
    · rw [if_neg hb]
      exact h

/-- The bytes a track of the slot's disk has. -/
def trackLen (p : Psram) (slot : Nat) : Nat :=
  if p.slotKind slot = .adfHd then hdTrackDataBytes else trackDataBytes

theorem length_wholeTrack (h : wholeTrack p slot t raw = some trk)
    (hraw : p.slotKind slot = .adfHd → raw.length = hdTrackDataBytes) :
    trk.length = trackLen p slot := by
  unfold wholeTrack at h
  unfold trackLen
  split at h
  · rename_i hkind
    rw [if_pos hkind]
    split at h
    · cases h
      exact hraw hkind
    · cases h
  · rename_i hkind
    rw [if_neg hkind]
    simp only at h
    split at h
    · cases h
    · cases h
      rw [mfmDecodeTrackRn, if_neg (by decide)]
      exact length_decodeBits (by simp [trackDataBytes])

/-- A high-density track is copied whole, whatever is stored meanwhile. -/
def Reader.Sized (r : Reader) (p : Psram) (slot : Nat) : Prop :=
  p.slotKind slot = .adfHd → r.n = hdTrackDataBytes

theorem Reader.start_sized (h : p.haveTrack slot t = true) : (start p slot t).Sized p slot := by
  intro hkind
  rw [Reader.start, rawLen, if_neg (by simp [h]), if_pos hkind]

theorem Reader.Sized.length_finish {r : Reader} (h : r.Sized p slot)
    (hhave : p.haveTrack slot r.track = true) (hall : r.acc.length = r.n)
    (hfin : r.finish p slot stale = some trk) : trk.length = trackLen p slot := by
  refine length_wholeTrack hfin fun hkind => ?_
  rw [rawLen, if_neg (by simp [hhave]), if_pos hkind, List.length_take, List.length_append, hall,
    h hkind]
  omega

theorem length_held (hhave : p.haveTrack slot t = true) (h : held p slot t = some trk) :
    trk.length = trackLen p slot := by
  refine length_wholeTrack h fun hkind => ?_
  rw [Psram.bytes, List.length_map, List.length_range, rawLen, if_neg (by simp [hhave]), if_pos hkind]

-- ---------------------------------------------------------------------------
-- Dirty flags
-- ---------------------------------------------------------------------------

theorem state_update2 (p : Psram) (slot t : Nat) (st : TrackState) (h : p.usable slot t = true) :
    ({ p with state := Psram.update2 p.state slot t st } : Psram).trackState slot t = st := by
  have husable : ({ p with state := Psram.update2 p.state slot t st } : Psram).usable slot t = true := h
  rw [Psram.trackState, if_pos husable]
  exact update2_self p.state st

theorem trackState_other (p : Psram) (slot t slot' t' : Nat) (st : TrackState)
    (h : slot' ≠ slot ∨ t' ≠ t) :
    ({ p with state := Psram.update2 p.state slot t st } : Psram).trackState slot' t' =
      p.trackState slot' t' := by
  have hne : slot' ≠ slot ∨ (t' : Int) ≠ t := h.imp_right fun h heq => h (Int.ofNat_inj.mp heq)
  have hstate : Psram.update2 p.state slot t st slot' t' = p.state slot' t' := update2_of_ne _ _ hne
  exact congrArg (fun x => if p.usable slot' t' then x else TrackState.absent) hstate

theorem usable_of_state {p : Psram} (h : p.trackState slot t ≠ .absent) : p.usable slot t = true := by
  unfold Psram.trackState at h
  split at h
  · assumption
  · exact absurd rfl h

/-- Clearing one flag. -/
theorem dirtyAt_clearDirty (p : Psram) (slot t : Nat) :
    dirtyAt (p.clearDirty slot t) slot t = false ∧
      ∀ slot' t', slot' ≠ slot ∨ t' ≠ t → dirtyAt (p.clearDirty slot t) slot' t' = dirtyAt p slot' t' := by
  unfold Psram.clearDirty
  split
  · rename_i h
    have hu : p.usable slot t = true := usable_of_state (by rw [h]; decide)
    refine ⟨?_, fun slot' t' hne => ?_⟩
    · rw [dirtyAt, state_update2 p slot t _ hu]
      rfl
    · rw [dirtyAt, trackState_other p slot t slot' t' _ hne, dirtyAt]
  · rename_i h
    refine ⟨?_, fun _ _ _ => rfl⟩
    rw [dirtyAt, beq_eq_false_iff_ne]
    exact h

/-- Setting one flag: it takes where the track is there, and clears none. -/
theorem dirtyAt_setDirty (p : Psram) (slot t : Nat) :
    (p.haveTrack slot t = true → dirtyAt (p.setDirty slot t) slot t = true) ∧
      ∀ slot' t', dirtyAt p slot' t' = true → dirtyAt (p.setDirty slot t) slot' t' = true := by
  unfold Psram.setDirty
  split
  · rename_i h
    have hu : p.usable slot t = true := usable_of_state (by rw [h]; decide)
    have hset : dirtyAt { p with state := Psram.update2 p.state slot t .dirty } slot t = true := by
      rw [dirtyAt, state_update2 p slot t _ hu]
      rfl
    refine ⟨fun _ => hset, fun slot' t' hd => ?_⟩
    by_cases hne : slot' ≠ slot ∨ t' ≠ t
    · rw [dirtyAt, trackState_other p slot t slot' t' _ hne]
      exact hd
    · simp only [not_or, ne_eq, not_not] at hne
      obtain ⟨rfl, rfl⟩ := hne
      exact hset
  · rename_i h
    refine ⟨fun hhave => ?_, fun _ _ hd => hd⟩
    rw [Psram.haveTrack, bne_iff_ne] at hhave
    rw [dirtyAt, beq_iff_eq]
    cases hst : p.trackState slot t with
    | absent => exact absurd hst hhave
    | present => exact absurd hst h
    | dirty => rfl

/-- A track's bits and state are set. -/
theorem trackState_setTrack (p : Psram) (slot t n : Nat) (st : TrackState)
    (h : p.usable slot t = true) : (p.setTrack slot t n st).trackState slot t = st :=
  state_update2 p slot t st h

theorem trackState_setTrack_other (p : Psram) (slot t n slot' t' : Nat) (st : TrackState)
    (h : slot' ≠ slot ∨ t' ≠ t) : (p.setTrack slot t n st).trackState slot' t' = p.trackState slot' t' :=
  trackState_other p slot t slot' t' st h

theorem usable_of_have {p : Psram} {slot t : Nat} (h : p.haveTrack slot t = true) :
    p.usable slot t = true := by
  rw [Psram.haveTrack, bne_iff_ne] at h
  exact usable_of_state h

/-- Setting a track to its own state changes no flag. -/
theorem trackState_setBits (p : Psram) (slot t n slot' t' : Nat) :
    (p.setTrack slot t n (p.state slot t)).trackState slot' t' = p.trackState slot' t' := by
  by_cases hne : slot' ≠ slot ∨ t' ≠ t
  · exact trackState_setTrack_other p slot t n slot' t' _ hne
  · simp only [not_or, ne_eq, not_not] at hne
    obtain ⟨rfl, rfl⟩ := hne
    cases hu : p.usable slot' t' with
    | true =>
      rw [trackState_setTrack p slot' t' n _ hu, Psram.trackState, if_pos hu]
    | false =>
      have hu' : (p.setTrack slot' t' n (p.state slot' t')).usable slot' t' = false := hu
      rw [Psram.trackState, if_neg (by simp [hu']), Psram.trackState, if_neg (by simp [hu])]

end WebAdf.Uploading
