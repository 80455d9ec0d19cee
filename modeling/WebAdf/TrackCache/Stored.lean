import WebAdf.Adfmfm.Wfmf
import WebAdf.TrackCache.LoaderEnds

/-!
# What a slot holds after a parse

A parse ends well on the two containers, but for a WFMF that ends in an empty
track, and stores what they hold. What the server writes is among them.
-/

namespace WebAdf.TrackCache

open Lib
open Loader (geometry adfKind)

/-- The stream is one of the two containers the slot takes. -/
def Container (slot : Nat) (stream : Bytes) : Prop :=
  (slot ≠ slotNet ∧ ∃ ts rest, Wfmf stream ts rest) ∨ ∃ adf, Wfad (geometry slot) stream adf

/-- The last track of a WFMF is empty and nothing follows it. -/
def EndsEmpty (stream : Bytes) : Prop :=
  ∃ ts t, Wfmf stream ts [] ∧ ts.getLast? = some t ∧ t.bytes = []

/-- The slot holds just the tracks of the container in the stream. -/
structure Psram.Filled (p : Psram) (slot : Nat) (stream : Bytes) : Prop where
  mfm : ∀ ts rest, slot ≠ slotNet → Wfmf stream ts rest →
    ∀ i t, ts[i]? = some t → p.read slot (i : Nat) = some (t.bytes, t.bits)
  sectors : ∀ adf, Wfad (geometry slot) stream adf → p.slotKind slot = adfKind slot ∧
    ∀ i < tracks, p.Holds slot (i : Nat) (geometry slot * 512 * 8)
      (slice adf (i * (geometry slot * 512)) (geometry slot * 512))

/-- What a parse promises. -/
structure LoadsRight (p : Psram) (slot : Nat) (pieces : List Bytes) : Prop where
  accepts : (Loader.parse p slot pieces).1 = true ↔ Container slot pieces.flatten
  stored : (Loader.parse p slot pieces).1 = true →
    (Loader.parse p slot pieces).2.Filled slot pieces.flatten
  empty : (Loader.parse p slot pieces).1 = false →
    ∀ track, (Loader.parse p slot pieces).2.haveTrack slot track = false
  elsewhere : Psram.Elsewhere slot p (Loader.parse p slot pieces).2

-- ---------------------------------------------------------------------------
-- One container at a time
-- ---------------------------------------------------------------------------

theorem Header.append {hdr : Bytes} (h : Header hdr m v c w) (d : Bytes) :
    le32 (hdr ++ d) = m := by
  rw [le32_append (by have := h.length; unfold imageHeaderBytes at this; omega)]
  exact h.magic

theorem Wfmf.magic (h : Wfmf stream ts rest) : le32 stream = imageMagic := by
  obtain ⟨hdr, reserved, hheader, rfl⟩ := h.header
  exact hheader.append _

theorem Wfad.magic (h : Wfad nsec stream adf) : le32 stream = wfadMagic := by
  obtain ⟨hdr, hheader, rfl⟩ := h.header
  exact hheader.append _

/-- No stream is both. -/
theorem Wfmf.not_wfad (h : Wfmf stream ts rest) (h' : Wfad nsec stream adf) : False := by
  have hboth := h.magic.symm.trans h'.magic
  revert hboth
  decide

theorem append_header_inj {hdr hdr' d d' : Bytes} (h : hdr.length = imageHeaderBytes)
    (h' : hdr'.length = imageHeaderBytes) (heq : hdr ++ d = hdr' ++ d') : d = d' :=
  (List.append_inj heq (h.trans h'.symm)).2

/-- The tracks in a stream are the only ones. -/
theorem blobs_inj {ts us : List WfmfTrack} (hlen : ts.length = us.length)
    (heq : ts.flatMap WfmfTrack.blob ++ rest = us.flatMap WfmfTrack.blob ++ rest') :
    ts.map Loader.stored = us.map Loader.stored ∧ rest = rest' := by
  induction ts generalizing us with
  | nil =>
    obtain rfl := List.length_eq_zero_iff.1 hlen.symm
    exact ⟨rfl, heq⟩
  | cons t ts ih =>
    cases us with
    | nil => simp at hlen
    | cons u us =>
      rw [List.flatMap_cons, List.flatMap_cons, List.append_assoc, List.append_assoc] at heq
      obtain ⟨htake, hdrop⟩ := Loader.blob_take t (ts.flatMap WfmfTrack.blob ++ rest)
      obtain ⟨htake', hdrop'⟩ := Loader.blob_take u (us.flatMap WfmfTrack.blob ++ rest')
      rw [heq, htake'] at htake
      rw [heq, hdrop'] at hdrop
      have hbits : t.bits = u.bits := by
        have hle := congrArg le32 htake
        rw [← List.append_nil (putLe32 t.bits), ← List.append_nil (putLe32 u.bits),
          le32_putLe32 (Loader.bits_lt t), le32_putLe32 (Loader.bits_lt u)] at hle
        exact hle.symm
      obtain ⟨hbytes, hrest⟩ := List.append_inj hdrop (by rw [t.length, u.length, hbits])
      obtain ⟨-, hrest⟩ := List.append_inj hrest (by rw [t.padded, u.padded, hbytes])
      obtain ⟨hmap, hend⟩ := ih (by simpa using hlen) hrest.symm
      refine ⟨?_, hend⟩
      rw [List.map_cons, List.map_cons, hmap]
      unfold Loader.stored
      rw [hbits, hbytes]

theorem Wfmf.inj (h : Wfmf stream ts rest) (h' : Wfmf stream us rest') :
    ts.map Loader.stored = us.map Loader.stored ∧ rest = rest' := by
  obtain ⟨hdr, reserved, hheader, hstream⟩ := h.header
  obtain ⟨hdr', reserved', hheader', hstream'⟩ := h'.header
  exact blobs_inj (h.whole.trans h'.whole.symm)
    (append_header_inj hheader.length hheader'.length (hstream.symm.trans hstream'))

theorem Wfad.inj (h : Wfad nsec stream adf) (h' : Wfad nsec stream adf') : adf = adf' := by
  obtain ⟨hdr, hheader, hstream⟩ := h.header
  obtain ⟨hdr', hheader', hstream'⟩ := h'.header
  exact append_header_inj hheader.length hheader'.length (hstream.symm.trans hstream')

-- ---------------------------------------------------------------------------
-- What is read of the slot
-- ---------------------------------------------------------------------------

theorem Psram.Holds.read {p : Psram} {i : Nat} (h : p.Holds slot (i : Nat) n x)
    (hfitted : p.Fitted slot) (hi : i < tracks) (hkind : p.kind slot = .mfm)
    (hlen : x.length = (n + 7) / 8) (hle : x.length ≤ trackMaxBytes) :
    p.read slot (i : Nat) = some (x, n) := by
  have hhave : p.haveTrack slot (i : Nat) = true := by
    unfold haveTrack trackState
    rw [if_pos (hfitted.usable (inRange_natCast hi)), h.present]
    rfl
  have hdata := h.data
  unfold Psram.read
  rw [if_neg (by simp [hhave]), if_neg (by simp [hkind]), h.count]
  dsimp only
  rw [if_neg (by omega), ← hlen, hdata]

theorem kind_resetSlot (h : p.slotOk slot = true) : (Psram.resetSlot p slot).kind slot = .mfm := by
  unfold Psram.resetSlot
  rw [if_neg (by simp [h])]
  exact Function.update_self ..

theorem stored_wfmf {p : Psram} (h : p.Fitted slot) (hslot : slot ≠ slotNet)
    (hwfmf : Wfmf stream ts rest) :
    ((p.resetSlot slot).putAll slot 0 (ts.map Loader.stored)).Filled slot stream := by
  refine ⟨fun us rest' _ hus i t ht => ?_, fun adf hwfad => (hwfmf.not_wfad hwfad).elim⟩
  obtain ⟨hmap, -⟩ := hwfmf.inj hus
  have hi : i < us.length := (List.getElem?_eq_some_iff.1 ht).1
  have hwhole := hus.whole
  have hfitted := Psram.fitted_resetSlot h
  have hfits := Loader.fits_stored hslot us
  have hget : (us.map Loader.stored)[i]? = some (t.bits, t.bytes) := by
    rw [List.getElem?_map, ht]
    rfl
  rw [hmap]
  have hholds := Psram.holds_putAll hfitted hfits (i := 0)
    (by rw [List.length_map]; omega) hget
  rw [Nat.zero_add] at hholds
  refine hholds.read (Psram.fitted_putAll hfitted slot 0 _) (by omega) ?_ t.length ?_
  · rw [Psram.kind_putAll]
    exact kind_resetSlot h.2
  · have := t.bits_le
    rw [t.length]
    omega

theorem stored_wfad {p : Psram} (h : p.Fitted slot) (hwfad : Wfad (geometry slot) stream adf) :
    (((p.resetSlot slot).setSlotKind slot (adfKind slot)).putAll slot 0
      (Loader.adfTracks (geometry slot * 512) tracks adf)).Filled slot stream := by
  refine ⟨fun ts rest _ hwfmf => (hwfmf.not_wfad hwfad).elim, fun adf' hadf' => ?_⟩
  obtain rfl := hwfad.inj hadf'
  have hfitted := Psram.fitted_setSlotKind (Psram.fitted_resetSlot h) (adfKind slot)
  have hok := (Psram.fitted_resetSlot h).2
  refine ⟨?_, fun i hi => ?_⟩
  · unfold Psram.slotKind
    rw [if_pos (Psram.fitted_putAll hfitted slot 0 _).2, Psram.kind_putAll]
    unfold Psram.setSlotKind
    rw [if_pos hok]
    exact Function.update_self ..
  · have hholds := Psram.holds_putAll hfitted (Loader.fits_adfTracks slot tracks adf) (i := 0)
      (by rw [Loader.length_adfTracks]; omega) (Loader.adfTracks_get hwfad.length hi)
    rwa [Nat.zero_add] at hholds

-- ---------------------------------------------------------------------------
-- The parse
-- ---------------------------------------------------------------------------

variable {p : Psram} {slot : Nat} {pieces : List Bytes}

theorem parse_stored (h : (Loader.parse p slot pieces).1 = true) :
    (Loader.parse p slot pieces).2.Filled slot pieces.flatten := by
  have hfitted := Loader.parse_fitted h
  rcases Loader.parse_true h with ⟨hslot, ts, rest, hwfmf, hends⟩ | ⟨adf, hwfad⟩
  · obtain ⟨q, hq, heq⟩ : ∃ q, q.Filled slot pieces.flatten ∧ Loader.parse p slot pieces = (true, q) :=
      ⟨_, stored_wfmf hfitted hslot hwfmf, Loader.parse_wfmf hfitted hslot hwfmf hends⟩
    rwa [heq]
  · obtain ⟨q, hq, heq⟩ : ∃ q, q.Filled slot pieces.flatten ∧ Loader.parse p slot pieces = (true, q) :=
      ⟨_, stored_wfad hfitted hwfad, Loader.parse_wfad hfitted hwfad⟩
    rwa [heq]

theorem ends_or_empty (h : Wfmf stream ts rest) : Loader.Ends ts rest ∨ EndsEmpty stream := by
  by_cases hrest : rest = []
  · subst hrest
    by_cases hlast : ∀ t, ts.getLast? = some t → t.bytes ≠ []
    · exact .inl (.inr hlast)
    · simp only [not_forall, not_not] at hlast
      obtain ⟨t, ht, hempty⟩ := hlast
      exact .inr ⟨ts, t, h, ht, hempty⟩
  · exact .inl (.inl hrest)

theorem parse_container (h : p.Fitted slot) (hcontainer : Container slot pieces.flatten)
    (hends : slot ≠ slotNet → ¬ EndsEmpty pieces.flatten) :
    (Loader.parse p slot pieces).1 = true := by
  rcases hcontainer with ⟨hslot, ts, rest, hwfmf⟩ | ⟨adf, hwfad⟩
  · exact congrArg Prod.fst
      (Loader.parse_wfmf h hslot hwfmf ((ends_or_empty hwfmf).resolve_right (hends hslot)))
  · exact congrArg Prod.fst (Loader.parse_wfad h hwfad)

-- ---------------------------------------------------------------------------
-- What the server writes
-- ---------------------------------------------------------------------------

open Adfmfm (containerHeader padBytes FluxTrack)

theorem header_container (m f : Nat) (hm : m < 2 ^ 32) (hf : f < 2 ^ 32) (v : Nat) (hv : v < 2 ^ 32) :
    Header (containerHeader m v f) m v tracks f := by
  unfold containerHeader
  refine ⟨rfl, ?_, ?_, ?_, ?_⟩
  · rw [List.append_assoc, List.append_assoc, le32_putLe32 hm]
  · rw [List.append_assoc, List.append_assoc, List.drop_left' (length_putLe32 _), le32_putLe32 hv]
  · rw [List.append_assoc, List.drop_left' (by rw [List.length_append]; rfl),
      le32_putLe32 (by decide)]
  · rw [List.drop_left' (by rw [List.length_append, List.length_append]; rfl),
      ← List.append_nil (putLe32 f), le32_putLe32 hf]

/-- A track as the server writes it. -/
def writtenTrack (bits : Nat) (bytes : Bytes) (hbits : bits ≤ trackMaxBytes * 8)
    (hbytes : bytes.length = (bits + 7) / 8) : WfmfTrack where
  bits := bits
  bytes := bytes
  pad := List.replicate (padBytes bytes.length) 0
  bits_le := hbits
  length := hbytes
  padded := List.length_replicate

/-- A container of the server's for a slot, and the tracks it is to hold, each
with its bit count. -/
inductive Written : Nat → Bytes → List (Nat × Bytes) → Prop
  | wfmf {ts blob} (slot : Nat) (hslot : slot ≠ slotNet) (h : Adfmfm.writeWfmf ts = .ok blob) :
      Written slot blob (ts.map fun track => (Adfmfm.trackBits, track))
  | flux {ts blob} (slot : Nat) (hslot : slot ≠ slotNet) (h : Adfmfm.writeWfmfTracks ts = .ok blob) :
      Written slot blob (ts.map fun tr => (tr.bits.toNat, tr.bytes))
  | wfad {adf blob} (slot : Nat) (hslot : slot ≠ slotNet) (h : Adfmfm.writeWfad adf = .ok blob) :
      Written slot blob (Loader.adfTracks hdTrackDataBytes tracks adf)
  | wfadDd {adf blob} (h : Adfmfm.writeWfadDd adf = .ok blob) :
      Written slotNet blob (Loader.adfTracks trackDataBytes tracks adf)

/-- Tracks that are written one by one are written as a WFMF's. -/
theorem exists_tracks {us : List α} {blob : α → Bytes} {stored : α → Nat × Bytes}
    (h : ∀ u ∈ us, ∃ t : WfmfTrack, t.blob = blob u ∧ Loader.stored t = stored u) :
    ∃ ts : List WfmfTrack, ts.length = us.length ∧ ts.flatMap WfmfTrack.blob = us.flatMap blob ∧
      ts.map Loader.stored = us.map stored := by
  induction us with
  | nil => exact ⟨[], rfl, rfl, rfl⟩
  | cons u us ih =>
    obtain ⟨t, hblob, hstored⟩ := h u (List.mem_cons_self ..)
    obtain ⟨ts, hlen, hblobs, hmap⟩ := ih fun v hv => h v (List.mem_cons_of_mem _ hv)
    exact ⟨t :: ts, by simp [hlen], by simp [hblob, hblobs], by simp [hstored, hmap]⟩

theorem written_wfmf {us : List α} {blob : α → Bytes} {stored : α → Nat × Bytes}
    (hlen : us.length = tracks)
    (htracks : ∀ u ∈ us, ∃ t : WfmfTrack, t.blob = blob u ∧ Loader.stored t = stored u)
    (hne : ∀ u ∈ us, (stored u).2 ≠ [])
    (hstream : stream = containerHeader imageMagic imageVersion 0 ++ us.flatMap blob) :
    ∃ ts, Wfmf stream ts [] ∧ Loader.Ends ts [] ∧ ts.map Loader.stored = us.map stored := by
  obtain ⟨ts, hcount, hblobs, hmap⟩ := exists_tracks htracks
  refine ⟨ts, ⟨hcount.trans hlen, _, _,
    header_container imageMagic 0 (by decide) (by decide) imageVersion (by decide), ?_⟩,
    .inr fun t ht => ?_, hmap⟩
  · rw [hstream, List.append_nil, hblobs]
  · have hmem : Loader.stored t ∈ us.map stored :=
      hmap ▸ List.mem_map_of_mem (List.mem_of_getLast? ht)
    obtain ⟨u, hu, heq⟩ := List.mem_map.1 hmem
    have hbytes := hne u hu
    rwa [heq] at hbytes

/-- What the server writes is a container that ends with its last byte. -/
theorem Written.container (h : Written slot stream stored) :
    (slot ≠ slotNet ∧ ∃ ts, Wfmf stream ts [] ∧ Loader.Ends ts [] ∧
      ts.map Loader.stored = stored) ∨
    ∃ adf, Wfad (geometry slot) stream adf ∧
      Loader.adfTracks (geometry slot * 512) tracks adf = stored := by
  cases h with
  | @wfmf ts _ _ hslot h =>
    obtain ⟨hlen, htracks, hblob⟩ := Adfmfm.writeWfmf_ok h
    refine .inl ⟨hslot, written_wfmf hlen (fun track ht => ?_) (fun track ht hnil => ?_) hblob⟩
    · have hbytes := htracks track ht
      refine ⟨writtenTrack Adfmfm.trackBits track (by decide) hbytes, ?_, rfl⟩
      unfold WfmfTrack.blob writtenTrack
      dsimp only
      rw [hbytes, show padBytes Adfmfm.trackBytes = 0 from rfl, List.replicate_zero,
        List.append_nil]
    · have hbytes := htracks track ht
      dsimp only at hnil
      rw [hnil] at hbytes
      cases hbytes
  | @flux ts _ _ hslot h =>
    obtain ⟨hlen, htracks, hblob⟩ := Adfmfm.writeWfmfTracks_ok h
    refine .inl ⟨hslot, written_wfmf hlen (fun tr ht => ?_) (fun tr ht hnil => ?_) hblob⟩
    · obtain ⟨-, hle, hbytes⟩ := htracks tr ht
      have hmax : (Adfmfm.firmwareAcceptTrackBits : Int) = (trackMaxBytes * 8 : Nat) := rfl
      exact ⟨writtenTrack tr.bits.toNat tr.bytes (by omega) hbytes, rfl, rfl⟩
    · obtain ⟨hpos, -, hbytes⟩ := htracks tr ht
      dsimp only at hnil
      rw [hnil, List.length_nil] at hbytes
      omega
  | @wfad adf _ _ hslot h =>
    obtain ⟨hlen, hblob⟩ := Adfmfm.writeWfad_ok h
    have hgeo : geometry slot = wfadSectors := if_neg hslot
    rw [hgeo]
    exact .inr ⟨adf, ⟨hlen, _, header_container wfadMagic wfadSectors (by decide) (by decide)
      wfadVersion (by decide), hblob⟩, rfl⟩
  | @wfadDd adf _ h =>
    obtain ⟨hlen, hblob⟩ := Adfmfm.writeWfadDd_ok h
    exact .inr ⟨adf, ⟨hlen, _, header_container wfadMagic wfadSectorsDd (by decide) (by decide)
      wfadVersion (by decide), hblob⟩, rfl⟩

theorem loadsRight_iff (p : Psram) (slot : Nat) (pieces : List Bytes) :
    LoadsRight p slot pieces ↔
      (Container slot pieces.flatten →
        p.Fitted slot ∧ (slot ≠ slotNet → ¬ EndsEmpty pieces.flatten)) := by
  constructor
  · intro h hcontainer
    have hok := h.accepts.2 hcontainer
    refine ⟨Loader.parse_fitted hok, fun hslot hempty => ?_⟩
    obtain ⟨ts, t, hwfmf, hlast, ht⟩ := hempty
    rw [Loader.parse_stuck hslot hwfmf hlast ht] at hok
    cases hok
  · intro h
    refine ⟨⟨fun hok => ?_, fun hcontainer => ?_⟩, parse_stored, Loader.parse_false,
      Loader.parse_elsewhere p slot pieces⟩
    · rcases Loader.parse_true hok with ⟨hslot, ts, rest, hwfmf, -⟩ | ⟨adf, hwfad⟩
      · exact .inl ⟨hslot, ts, rest, hwfmf⟩
      · exact .inr ⟨adf, hwfad⟩
    · obtain ⟨hfitted, hends⟩ := h hcontainer
      exact parse_container hfitted hcontainer hends

theorem parse_written (h : p.Fitted slot) (hwritten : Written slot pieces.flatten stored) :
    (Loader.parse p slot pieces).1 = true ∧
      ∀ i t, stored[i]? = some t → (Loader.parse p slot pieces).2.Holds slot (i : Nat) t.1 t.2 := by
  rcases hwritten.container with ⟨hslot, ts, hwfmf, hends, rfl⟩ | ⟨adf, hwfad, rfl⟩
  · have hwhole := hwfmf.whole
    have heq := Loader.parse_wfmf h hslot hwfmf hends
    refine ⟨congrArg Prod.fst heq, fun i t ht => ?_⟩
    have hholds := Psram.holds_putAll (Psram.fitted_resetSlot h) (Loader.fits_stored hslot ts)
      (i := 0) (by rw [List.length_map]; omega) ht
    rw [Nat.zero_add] at hholds
    rwa [heq]
  · obtain ⟨q, hq, heq⟩ : ∃ q : Psram, (∀ i t,
        (Loader.adfTracks (geometry slot * 512) tracks adf)[i]? = some t →
          q.Holds slot (i : Nat) t.1 t.2) ∧ Loader.parse p slot pieces = (true, q) := by
      refine ⟨_, fun i t ht => ?_, Loader.parse_wfad h hwfad⟩
      have hholds := Psram.holds_putAll
        (Psram.fitted_setSlotKind (Psram.fitted_resetSlot h) (adfKind slot))
        (Loader.fits_adfTracks slot tracks adf) (i := 0)
        (by rw [Loader.length_adfTracks]; omega) ht
      rwa [Nat.zero_add] at hholds
    rw [heq]
    exact ⟨rfl, hq⟩

/-- A parse does what it promises unless the slot has no storage for the
container or the container is a WFMF that ends with an empty track, and takes
whatever the server writes. -/
theorem parse_loadsRight (p : Psram) (slot : Nat) (pieces : List Bytes) :
    (LoadsRight p slot pieces ↔
      (Container slot pieces.flatten →
        p.Fitted slot ∧ (slot ≠ slotNet → ¬ EndsEmpty pieces.flatten))) ∧
    (p.Fitted slot → ∀ stored, Written slot pieces.flatten stored →
      (Loader.parse p slot pieces).1 = true ∧ ∀ i t, stored[i]? = some t →
        (Loader.parse p slot pieces).2.Holds slot (i : Nat) t.1 t.2) :=
  ⟨loadsRight_iff p slot pieces, fun h _ hwritten => parse_written h hwritten⟩

/-- A board that has storage and no disk. -/
def Psram.diskless : Psram where
  mem := fun _ _ _ => 0
  bits := fun _ _ => 0
  state := fun _ _ => .absent
  kind := fun _ => .mfm
  havePsram := true
  haveNet := true
  gGen := 0
  activeWord := 0
  df1Word := 0
  df1ReaderAck := 0

theorem Psram.fitted_diskless (h : slot < slotAll) : Psram.diskless.Fitted slot :=
  ⟨rfl, by simp [slotOk, h, diskless]⟩

def emptyTrack : WfmfTrack where
  bits := 0
  bytes := []
  pad := []
  bits_le := by decide
  length := rfl
  padded := rfl

def emptyTracks : Bytes :=
  containerHeader imageMagic imageVersion 0 ++
    (List.replicate tracks emptyTrack).flatMap WfmfTrack.blob

theorem wfmf_emptyTracks (rest : Bytes) :
    Wfmf (emptyTracks ++ rest) (List.replicate tracks emptyTrack) rest := by
  refine ⟨List.length_replicate, _, _,
    header_container imageMagic 0 (by decide) (by decide) imageVersion (by decide), ?_⟩
  unfold emptyTracks
  rw [List.append_assoc]

theorem endsEmpty_emptyTracks : EndsEmpty emptyTracks := by
  have hwfmf := wfmf_emptyTracks []
  rw [List.append_nil] at hwfmf
  exact ⟨_, emptyTrack, hwfmf, by rw [List.getLast?_replicate, if_neg (by decide)], rfl⟩

theorem emptyTracks_refused : ¬ LoadsRight Psram.diskless 0 [emptyTracks] := by
  have hflat : [emptyTracks].flatten = emptyTracks := by simp
  have hwfmf := wfmf_emptyTracks []
  rw [List.append_nil] at hwfmf
  rw [loadsRight_iff, hflat]
  intro h
  obtain ⟨-, hends⟩ := h (.inl ⟨by decide, _, _, hwfmf⟩)
  exact hends (by decide) endsEmpty_emptyTracks

/-- One byte more and the same tracks are taken. -/
theorem emptyTracks_trailed : LoadsRight Psram.diskless 0 [emptyTracks, [0]] := by
  have hflat : [emptyTracks, [0]].flatten = emptyTracks ++ [0] := by simp
  refine (parse_loadsRight Psram.diskless 0 [emptyTracks, [0]]).1.2 fun _ =>
    ⟨Psram.fitted_diskless (by decide), fun _ hempty => ?_⟩
  rw [hflat] at hempty
  obtain ⟨ts, t, hwfmf, -⟩ := hempty
  obtain ⟨-, hrest⟩ := (wfmf_emptyTracks [0]).inj hwfmf
  cases hrest

end WebAdf.TrackCache
