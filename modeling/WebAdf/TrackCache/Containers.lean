import WebAdf.TrackCache.LoaderCuts

/-!
# What the loader takes

The two containers as they lie in a stream, and the loader's run along them:
one lemma for a track, the run of all tracks from it, and what the slot holds
then.
-/

namespace WebAdf.TrackCache

open Lib

-- ---------------------------------------------------------------------------
-- The containers
-- ---------------------------------------------------------------------------

/-- A track of a WFMF, padded to a whole word. -/
structure WfmfTrack where
  bits : Nat
  bytes : Bytes
  pad : Bytes
  bits_le : bits ≤ trackMaxBytes * 8
  length : bytes.length = (bits + 7) / 8
  padded : pad.length = padding bytes.length

def WfmfTrack.blob (t : WfmfTrack) : Bytes := putLe32 t.bits ++ (t.bytes ++ t.pad)

/-- The header of a container: magic, version, track count and a fourth word. -/
structure Header (hdr : Bytes) (magic version count fourth : Nat) : Prop where
  length : hdr.length = imageHeaderBytes
  magic : le32 hdr = magic
  version : le32 (hdr.drop 4) = version
  count : le32 (hdr.drop 8) = count
  fourth : le32 (hdr.drop 12) = fourth

/-- A WFMF of these tracks, and what follows it. -/
structure Wfmf (stream : Bytes) (ts : List WfmfTrack) (rest : Bytes) : Prop where
  whole : ts.length = tracks
  header : ∃ hdr reserved, Header hdr imageMagic imageVersion tracks reserved ∧
    stream = hdr ++ (ts.flatMap WfmfTrack.blob ++ rest)

/-- A WFAD of this many sectors a track. -/
structure Wfad (nsec : Nat) (stream adf : Bytes) : Prop where
  length : adf.length = tracks * (nsec * 512)
  header : ∃ hdr, Header hdr wfadMagic wfadVersion wfadTracks nsec ∧ stream = hdr ++ adf

-- ---------------------------------------------------------------------------
-- A stored track
-- ---------------------------------------------------------------------------

namespace Psram

/-- The slot has storage. -/
def Fitted (p : Psram) (slot : Nat) : Prop := p.havePsram = true ∧ p.slotOk slot = true

/-- The slot holds `n` bits of a track, which are these bytes. -/
structure Holds (p : Psram) (slot : Nat) (track : Int) (n : Nat) (x : Bytes) : Prop where
  present : p.state slot track = .present
  count : p.bits slot track = n
  data : p.bytes slot track x.length = x

/-- The payload written and committed. -/
def put (p : Psram) (slot : Nat) (track : Int) (n : Nat) (x : Bytes) : Psram :=
  (p.writeAt slot track 0 x).commit slot track n

/-- One after another from a track on. -/
def putAll (p : Psram) (slot : Nat) : Nat → List (Nat × Bytes) → Psram
  | _, [] => p
  | i, (n, x) :: ts => (p.put slot i n x).putAll slot (i + 1) ts

variable {p : Psram} {slot n : Nat} {x : Bytes}

theorem Fitted.usable (h : p.Fitted slot) {track : Int} (ht : inRange track = true) :
    p.usable slot track = true := by
  simp [Psram.usable, h.1, h.2, ht]

theorem Fitted.same (h : p.Fitted slot) (hs : Same p q slot' track) : q.Fitted slot :=
  ⟨hs.psram.trans h.1, by
    have hok := h.2
    simp only [slotOk] at hok ⊢
    rwa [hs.net]⟩

theorem put_eq {track : Int} (h : p.usable slot track = true) (hlen : x.length ≤ slotTrackCap slot)
    (hn : (n + 7) / 8 ≤ slotTrackCap slot) :
    p.put slot track n x = (p.copyIn slot track 0 x).setTrack slot track n .present := by
  have hwrite : p.writeAt slot track 0 x = p.copyIn slot track 0 x := by
    unfold writeAt
    rw [if_neg (by simp [h]), if_neg (by omega)]
  have husable : (p.copyIn slot track 0 x).usable slot track = true := h
  unfold put commit
  rw [hwrite, if_neg (by simp [husable]), if_neg (by omega)]

theorem bytes_copyIn (p : Psram) (slot : Nat) (track : Int) (x : Bytes) :
    (p.copyIn slot track 0 x).bytes slot track x.length = x := by
  unfold bytes copyIn
  dsimp only
  rw [update2_self]
  apply List.ext_getElem?
  intro i
  rw [List.getElem?_map]
  by_cases hi : i < x.length
  · rw [List.getElem?_range hi, Option.map_some, if_pos ⟨Nat.zero_le _, by omega⟩, Nat.sub_zero,
      List.getD_eq_getElem?_getD, List.getElem?_eq_getElem hi, Option.getD_some]
  · rw [List.getElem?_eq_none (by simpa using hi), List.getElem?_eq_none (by simpa using hi),
      Option.map_none]

theorem holds_put {track : Int} (h : p.usable slot track = true) (hlen : x.length ≤ slotTrackCap slot)
    (hn : (n + 7) / 8 ≤ slotTrackCap slot) : (p.put slot track n x).Holds slot track n x := by
  rw [put_eq h hlen hn]
  exact ⟨update2_self .., update2_self .., bytes_copyIn ..⟩

theorem writeAt_cases (p : Psram) (slot : Nat) (track : Int) (off : Nat) (x : Bytes) :
    p.writeAt slot track off x = p ∨ p.writeAt slot track off x = p.copyIn slot track off x := by
  unfold writeAt
  split
  · exact .inl rfl
  · split
    · exact .inl rfl
    · exact .inr rfl

theorem commit_cases (p : Psram) (slot : Nat) (track : Int) (n : Nat) :
    p.commit slot track n = p ∨ p.commit slot track n = p.setTrack slot track n .present := by
  unfold commit
  split
  · exact .inl rfl
  · split
    · exact .inl rfl
    · exact .inr rfl

theorem same_put (p : Psram) {track track' : Int} (n : Nat) (x : Bytes)
    (h : slot' ≠ slot ∨ track' ≠ track) : Same p (p.put slot track n x) slot' track' := by
  have hwrite : Same p (p.writeAt slot track 0 x) slot' track' := by
    rcases writeAt_cases p slot track 0 x with heq | heq <;> rw [heq]
    · exact .refl ..
    · exact same_copyIn p _ _ h
  refine hwrite.trans ?_
  unfold put
  rcases commit_cases (p.writeAt slot track 0 x) slot track n with heq | heq <;> rw [heq]
  · exact .refl ..
  · exact same_setTrack _ _ _ h

theorem kind_put (p : Psram) (slot : Nat) (track : Int) (n : Nat) (x : Bytes) :
    (p.put slot track n x).kind = p.kind := by
  unfold put
  rcases commit_cases (p.writeAt slot track 0 x) slot track n with heq | heq <;> rw [heq] <;>
    rcases writeAt_cases p slot track 0 x with heq | heq <;> rw [heq] <;> rfl

/-- What a store leaves of the others, the state's very value included. -/
theorem state_put (p : Psram) {track track' : Int} (n : Nat) (x : Bytes)
    (h : slot' ≠ slot ∨ track' ≠ track) :
    (p.put slot track n x).state slot' track' = p.state slot' track' := by
  unfold put
  rcases commit_cases (p.writeAt slot track 0 x) slot track n with heq | heq <;> rw [heq]
  · rcases writeAt_cases p slot track 0 x with heq | heq <;> rw [heq] <;> rfl
  · refine (update2_of_ne _ _ h).trans ?_
    rcases writeAt_cases p slot track 0 x with heq | heq <;> rw [heq] <;> rfl

theorem Holds.of_same {track : Int} (h : p.Holds slot track n x) (hs : Same p q slot track)
    (hstate : q.state slot track = p.state slot track) : q.Holds slot track n x :=
  ⟨hstate.trans h.present, hs.bits.trans h.count, by
    have hdata := h.data
    unfold bytes at hdata ⊢
    rwa [hs.mem]⟩

-- ---------------------------------------------------------------------------
-- All the tracks
-- ---------------------------------------------------------------------------

/-- A list of tracks the slot has room for. -/
def Fits (slot : Nat) (ts : List (Nat × Bytes)) : Prop :=
  ∀ t ∈ ts, t.2.length ≤ slotTrackCap slot ∧ (t.1 + 7) / 8 ≤ slotTrackCap slot

theorem Fits.tail (h : Fits slot (t :: ts)) : Fits slot ts := fun u hu => h u (List.mem_cons_of_mem _ hu)

theorem inRange_natCast (h : i < tracks) : inRange (i : Int) = true := by
  unfold inRange
  rw [Bool.and_eq_true, decide_eq_true_eq, decide_eq_true_eq]
  exact ⟨Int.natCast_nonneg i, Int.ofNat_lt.2 h⟩

/-- A run of stores leaves every other place. -/
theorem putAll_other (p : Psram) (slot slot' i : Nat) (track : Int) (ts : List (Nat × Bytes))
    (h : slot' ≠ slot ∨ track < i ∨ i + ts.length ≤ track) :
    Same p (p.putAll slot i ts) slot' track ∧
      (p.putAll slot i ts).state slot' track = p.state slot' track := by
  induction ts generalizing p i with
  | nil => exact ⟨.refl .., rfl⟩
  | cons t ts ih =>
    obtain ⟨n, x⟩ := t
    rw [List.length_cons] at h
    have hne : slot' ≠ slot ∨ track ≠ i := by omega
    obtain ⟨hsame, hstate⟩ := ih (p.put slot i n x) (i + 1) (by omega)
    exact ⟨(same_put p n x hne).trans hsame, hstate.trans (state_put p n x hne)⟩

theorem kind_putAll (p : Psram) (slot i : Nat) (ts : List (Nat × Bytes)) :
    (p.putAll slot i ts).kind = p.kind := by
  induction ts generalizing p i with
  | nil => rfl
  | cons t ts ih =>
    obtain ⟨n, x⟩ := t
    exact (ih (p.put slot i n x) (i + 1)).trans (kind_put p slot i n x)

theorem fitted_put (h : p.Fitted slot) (slot' : Nat) (track : Int) (n : Nat) (x : Bytes) :
    (p.put slot' track n x).Fitted slot :=
  h.same (@same_put slot' slot' p track (track + 1) n x (.inr (by omega)))

theorem fitted_putAll (h : p.Fitted slot) (slot' i : Nat) (ts : List (Nat × Bytes)) :
    (p.putAll slot' i ts).Fitted slot := by
  induction ts generalizing p i with
  | nil => exact h
  | cons t ts ih => exact ih (fitted_put h slot' i t.1 t.2) (i + 1)

/-- Each track is there after the run. -/
theorem holds_putAll (h : p.Fitted slot) (hfits : Fits slot ts) (hrange : i + ts.length ≤ tracks)
    (hj : ts[j]? = some t) : (p.putAll slot i ts).Holds slot (i + j : Nat) t.1 t.2 := by
  induction ts generalizing p i j with
  | nil => cases hj
  | cons u ts ih =>
    obtain ⟨n, x⟩ := u
    rw [List.length_cons] at hrange
    cases j with
    | zero =>
      obtain rfl : (n, x) = t := by simpa using hj
      obtain ⟨hlen, hn⟩ := hfits (n, x) (List.mem_cons_self ..)
      have hput := holds_put (h.usable (inRange_natCast (i := i) (by omega))) hlen hn
      obtain ⟨hsame, hstate⟩ := putAll_other (p.put slot i n x) slot slot (i + 1) (i : Int) ts
        (.inr (.inl (by omega)))
      exact hput.of_same hsame hstate
    | succ j =>
      have hrest := ih (fitted_put h slot i n x) hfits.tail (i := i + 1) (j := j) (by omega)
        (by simpa using hj)
      rwa [show i + 1 + j = i + (j + 1) by omega] at hrest

end Psram

end WebAdf.TrackCache
