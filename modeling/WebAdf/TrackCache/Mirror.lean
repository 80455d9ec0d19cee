import WebAdf.TrackCache.Stored

/-!
# The server's mirror of the board's parser

The mirror's flat scan reads a WFMF and nothing else, an empty last track
included. So it agrees with the board but for a stream that ends with one.
-/

namespace WebAdf.TrackCache

open Lib
open Adfmfm (parseLikeFirmware FirmwareParseResult)
open Adfmfm.FirmwareParser (scan fail)

-- ---------------------------------------------------------------------------
-- The scan
-- ---------------------------------------------------------------------------

/-- The tracks from `i` on put in their places. -/
def place (ts : List (Option Bytes)) (i : Nat) : List WfmfTrack → List (Option Bytes)
  | [] => ts
  | t :: us => place (ts.set i (some t.bytes)) (i + 1) us

theorem scan_blob (flat : Bytes) {at₀ : Nat} {t : WfmfTrack} {d : Bytes}
    (h : flat.drop at₀ = t.blob ++ d) (n i : Nat) (ts : List (Option Bytes)) :
    scan flat (n + 1) i at₀ ts =
      scan flat n (i + 1) (at₀ + t.blob.length) (ts.set i (some t.bytes)) ∧
      flat.drop (at₀ + t.blob.length) = d := by
  have hrest : flat.drop (at₀ + t.blob.length) = d := by
    rw [← List.drop_drop, h, List.drop_left]
  refine ⟨?_, hrest⟩
  obtain ⟨htake, hdrop⟩ := Loader.blob_take t d
  have hblob : t.blob.length = 4 + ((t.bits + 7) / 8 + padding ((t.bits + 7) / 8)) := by
    unfold WfmfTrack.blob
    rw [List.length_append, List.length_append, length_putLe32, t.padded, t.length]
  have hlen := congrArg List.length h
  rw [List.length_drop, List.length_append] at hlen
  have hword : le32 (flat.drop at₀) = t.bits := by
    rw [h, ← Loader.le32_take (by rw [List.length_append]; omega), htake,
      ← List.append_nil (putLe32 t.bits), le32_putLe32 (Loader.bits_lt t)]
  have hslice : slice flat (at₀ + 4) ((t.bits + 7) / 8) = t.bytes := by
    unfold slice
    rw [← List.drop_drop, h, hdrop, ← t.length, List.take_left]
  have hle : t.bits ≤ Adfmfm.FirmwareParser.trackMaxBytes * 8 := t.bits_le
  have hpad : padding ((t.bits + 7) / 8) = (4 - (t.bits + 7) / 8 % 4) % 4 := rfl
  rw [scan, if_neg (by omega)]
  dsimp only
  rw [hword, if_neg (by omega), if_neg (by omega), if_neg (by omega), hslice, ← hpad,
    if_neg (by omega), hblob]
  congr 1
  omega

theorem scan_blobs (flat : Bytes) {at₀ : Nat} {us : List WfmfTrack} {d : Bytes}
    (h : flat.drop at₀ = us.flatMap WfmfTrack.blob ++ d) (i : Nat) (ts : List (Option Bytes)) :
    scan flat us.length i at₀ ts = .ok (place ts i us) := by
  induction us generalizing at₀ i ts with
  | nil => rfl
  | cons t us ih =>
    rw [List.flatMap_cons, List.append_assoc] at h
    obtain ⟨hscan, hrest⟩ := scan_blob flat h us.length i ts
    rw [List.length_cons, hscan, ih hrest]
    rfl

/-- A scan that ends well has read so many tracks. -/
theorem scan_ok (flat : Bytes) {n i at₀ : Nat} {ts ts' : List (Option Bytes)}
    (h : scan flat n i at₀ ts = .ok ts') :
    ∃ (us : List WfmfTrack) (rest : Bytes), us.length = n ∧
      flat.drop at₀ = us.flatMap WfmfTrack.blob ++ rest := by
  induction n generalizing i at₀ ts with
  | zero => exact ⟨[], flat.drop at₀, rfl, rfl⟩
  | succ n ih =>
    by_cases htrack : ∃ t : WfmfTrack, ∃ d, flat.drop at₀ = t.blob ++ d
    · obtain ⟨t, d, ht⟩ := htrack
      obtain ⟨hscan, hrest⟩ := scan_blob flat ht n i ts
      rw [hscan] at h
      obtain ⟨us, rest, hlen, heq⟩ := ih h
      rw [hrest] at heq
      exact ⟨t :: us, rest, by rw [List.length_cons, hlen],
        by rw [ht, heq, List.flatMap_cons, List.append_assoc]⟩
    · -- each check that fails ends the scan
      exfalso
      rw [scan] at h
      split at h
      · cases h
      · rename_i hlong
        dsimp only at h
        split at h
        · cases h
        · rename_i hbits
          split at h
          · cases h
          · split at h
            · cases h
            · rename_i hbytes
              split at h
              · cases h
              · rename_i hpad
                refine htrack (Loader.exists_blob ?_ (Loader.le32_take ?_) (Nat.le_of_not_lt hbits)
                  ?_ ?_)
                · rw [List.length_drop]
                  omega
                · rw [List.length_drop]
                  omega
                · rw [List.length_drop, List.length_drop]
                  omega
                · unfold padding
                  rw [List.length_drop, List.length_drop, List.length_drop]
                  omega

/-- What a scan stops with is a failure. -/
theorem scan_error {flat : Bytes} {n i at₀ : Nat} {ts : List (Option Bytes)}
    {r : FirmwareParseResult} (h : scan flat n i at₀ ts = .error r) : r.ok = false := by
  induction n generalizing i at₀ ts with
  | zero => cases h
  | succ n ih =>
    rw [scan] at h
    dsimp only at h
    split at h
    · cases h
      rfl
    split at h
    · cases h
      rfl
    split at h
    · cases h
      rfl
    split at h
    · cases h
      rfl
    split at h
    · cases h
      rfl
    · exact ih h

-- ---------------------------------------------------------------------------
-- The tracks in their places
-- ---------------------------------------------------------------------------

theorem length_place (ts : List (Option Bytes)) (i : Nat) (us : List WfmfTrack) :
    (place ts i us).length = ts.length := by
  induction us generalizing ts i with
  | nil => rfl
  | cons t us ih => rw [place, ih, List.length_set]

theorem place_get (ts : List (Option Bytes)) (i : Nat) (us : List WfmfTrack) (j : Nat)
    (h : i + us.length ≤ ts.length) :
    (place ts i us)[j]? =
      if i ≤ j ∧ j < i + us.length then (us[j - i]?).map fun t => some t.bytes else ts[j]? := by
  induction us generalizing ts i with
  | nil =>
    rw [place, if_neg]
    simp only [List.length_nil]
    omega
  | cons t us ih =>
    rw [List.length_cons] at h
    rw [place, ih _ _ (by rw [List.length_set]; omega), List.length_cons]
    by_cases hj : i + 1 ≤ j ∧ j < i + 1 + us.length
    · rw [if_pos hj, if_pos (by omega)]
      obtain ⟨k, rfl⟩ : ∃ k, j = i + (k + 1) := ⟨j - (i + 1), by omega⟩
      rw [Nat.add_sub_cancel_left, List.getElem?_cons_succ, show i + (k + 1) - (i + 1) = k by omega]
    · rw [if_neg hj]
      by_cases heq : j = i
      · subst heq
        rw [if_pos (by omega), Nat.sub_self, List.getElem?_cons_zero, Option.map_some,
          List.getElem?_set_self (by omega)]
      · rw [if_neg (by omega), List.getElem?_set_ne (Ne.symm heq)]

theorem place_all {us : List WfmfTrack} (h : us.length = tracks) :
    place (List.replicate Adfmfm.FirmwareParser.numTracks none) 0 us =
      us.map fun t => some t.bytes := by
  apply List.ext_getElem?
  intro j
  have hnum : Adfmfm.FirmwareParser.numTracks = tracks := rfl
  rw [place_get _ _ _ _ (by rw [List.length_replicate, hnum]; omega), List.getElem?_map]
  by_cases hj : j < us.length
  · rw [if_pos ⟨Nat.zero_le _, by omega⟩, Nat.sub_zero]
  · rw [if_neg (by omega), List.getElem?_eq_none (by rw [List.length_replicate, hnum]; omega),
      List.getElem?_eq_none (by omega), Option.map_none]

-- ---------------------------------------------------------------------------
-- The mirror
-- ---------------------------------------------------------------------------

variable {chunks : List Bytes}

theorem mirror_wfmf (h : Wfmf chunks.flatten us rest) :
    parseLikeFirmware chunks = ⟨true, us.map fun t => some t.bytes, none⟩ := by
  obtain ⟨hdr, reserved, hheader, hstream⟩ := h.header
  have hlen := hheader.length
  have hwhole := h.whole
  have hmagic := h.magic
  have hword : ∀ k, k + 4 ≤ 16 → le32 (chunks.flatten.drop k) = le32 (hdr.drop k) := by
    intro k hk
    unfold imageHeaderBytes at hlen
    rw [hstream, List.drop_append_of_le_length (by omega),
      le32_append (by rw [List.length_drop]; omega)]
  have hdrop : chunks.flatten.drop 16 = us.flatMap WfmfTrack.blob ++ rest := by
    rw [hstream]
    exact List.drop_left' hlen
  have hscan := scan_blobs chunks.flatten hdrop 0
    (List.replicate Adfmfm.FirmwareParser.numTracks none)
  rw [hwhole, place_all hwhole] at hscan
  have hsome : (us.map fun t => some t.bytes).any Option.isNone = false := by simp
  unfold parseLikeFirmware
  dsimp only
  rw [if_neg, hmagic, hword 4 (by omega), hword 8 (by omega), hheader.version, hheader.count,
    if_neg (by decide), if_neg (by decide), if_neg (by decide), hscan]
  · dsimp only
    rw [hsome]
    rfl
  · rw [hstream, List.length_append, hlen]
    unfold imageHeaderBytes
    omega

theorem mirror_ok (h : (parseLikeFirmware chunks).ok = true) :
    ∃ us rest, Wfmf chunks.flatten us rest := by
  unfold parseLikeFirmware at h
  dsimp only at h
  generalize chunks.flatten = flat at h ⊢
  split at h
  · cases h
  rename_i hlen
  split at h
  · cases h
  rename_i hmagic
  split at h
  · cases h
  rename_i hversion
  split at h
  · cases h
  rename_i hcount
  cases hscan : scan flat (le32 (flat.drop 8)) 0 16
      (List.replicate Adfmfm.FirmwareParser.numTracks none) with
  | error r =>
    rw [hscan] at h
    dsimp only at h
    -- what a scan stops with is a failure
    exact absurd h (by rw [scan_error hscan]; decide)
  | ok ts =>
    rw [hscan] at h
    dsimp only at h
    obtain ⟨us, rest, hus, hrest⟩ := scan_ok flat hscan
    have hplace := scan_blobs flat hrest 0 (List.replicate Adfmfm.FirmwareParser.numTracks none)
    rw [hus, hscan] at hplace
    have hts : ts = place (List.replicate Adfmfm.FirmwareParser.numTracks none) 0 us := by
      simpa using hplace
    have hnum : Adfmfm.FirmwareParser.numTracks = tracks := rfl
    rw [not_or] at hcount
    have hall : us.length = tracks := by
      by_contra hne
      -- the track after the last read is none
      have hnone : none ∈ ts := by
        refine List.mem_of_getElem? (i := us.length) ?_
        rw [hts, place_get _ _ _ _ (by rw [List.length_replicate]; omega), if_neg (by omega),
          List.getElem?_replicate_of_lt (by omega)]
      rw [if_pos (List.any_eq_true.2 ⟨none, hnone, rfl⟩)] at h
      cases h
    refine ⟨us, rest, hall, flat.take 16, le32 ((flat.take 16).drop 12), ?_, ?_⟩
    · have hword : ∀ k, k + 4 ≤ 16 → le32 ((flat.take 16).drop k) = le32 (flat.drop k) := by
        intro k hk
        rw [← List.take_append_drop 16 flat, List.drop_append_of_le_length
          (by rw [List.length_take]; omega), le32_append (by
            rw [List.length_drop, List.length_take]; omega), List.take_append_drop]
      have hmagic' := hword 0 (by omega)
      rw [List.drop_zero, List.drop_zero] at hmagic'
      exact ⟨List.length_take_of_le (by omega), hmagic'.trans (not_not.1 hmagic),
        (hword 4 (by omega)).trans (not_not.1 hversion),
        (hword 8 (by omega)).trans (hus.symm.trans hall), rfl⟩
    · rw [← hrest, List.take_append_drop]

/-- The board's tracks as the mirror gives them. -/
def Psram.slotTracks (p : Psram) (slot : Nat) : List (Option Bytes) :=
  (List.range tracks).map fun t : Nat => (p.read slot t).map Prod.fst

theorem slotTracks_of_wfmf {p : Psram} (h : p.Filled slot stream) (hslot : slot ≠ slotNet)
    (hwfmf : Wfmf stream us rest) : p.slotTracks slot = us.map fun t => some t.bytes := by
  have hwhole := hwfmf.whole
  unfold Psram.slotTracks
  apply List.ext_getElem?
  intro i
  rw [List.getElem?_map, List.getElem?_map]
  by_cases hi : i < tracks
  · have hget : us[i]? = some us[i] := List.getElem?_eq_getElem (by omega)
    rw [List.getElem?_range hi, hget, Option.map_some, Option.map_some,
      h.mfm us rest hslot hwfmf i _ hget, Option.map_some]
  · rw [List.getElem?_eq_none (by simpa using hi), List.getElem?_eq_none (by omega)]
    rfl

/-- The mirror and the board say the same of the chunks. -/
def Agree (chunks : List Bytes) : Prop :=
  ∀ (p : Psram) (slot : Nat), p.Fitted slot → slot ≠ slotNet → ∀ ts,
    ((parseLikeFirmware chunks).ok = true ∧ (parseLikeFirmware chunks).tracks = ts) ↔
      ((Loader.parse p slot chunks).1 = true ∧ le32 chunks.flatten = imageMagic ∧
        (Loader.parse p slot chunks).2.slotTracks slot = ts)

theorem not_agree (hempty : EndsEmpty chunks.flatten) : ¬ Agree chunks := by
  intro h
  obtain ⟨us, t, hwfmf, hlast, ht⟩ := hempty
  have hmirror := mirror_wfmf hwfmf
  obtain ⟨hok, -⟩ := (h Psram.diskless 0 (Psram.fitted_diskless (by decide)) (by decide) _).1
    ⟨congrArg FirmwareParseResult.ok hmirror, rfl⟩
  rw [Loader.parse_stuck (by decide) hwfmf hlast ht] at hok
  cases hok

theorem emptyTracks_disagree : ¬ Agree [emptyTracks] := by
  refine not_agree ?_
  rw [List.flatten_singleton]
  exact endsEmpty_emptyTracks

/-- They do but for a WFMF that ends with an empty track. -/
theorem agree_iff (chunks : List Bytes) : Agree chunks ↔ ¬ EndsEmpty chunks.flatten := by
  constructor
  · exact fun h hempty => not_agree hempty h
  · intro hends p slot hfitted hslot ts
    constructor
    · rintro ⟨hok, rfl⟩
      obtain ⟨us, rest, hwfmf⟩ := mirror_ok hok
      have hboard := parse_container hfitted (.inl ⟨hslot, us, rest, hwfmf⟩) fun _ => hends
      refine ⟨hboard, hwfmf.magic, ?_⟩
      rw [slotTracks_of_wfmf (parse_stored hboard) hslot hwfmf, mirror_wfmf hwfmf]
    · rintro ⟨hok, hmagic, rfl⟩
      rcases Loader.parse_true hok with ⟨-, us, rest, hwfmf, -⟩ | ⟨adf, hwfad⟩
      · rw [slotTracks_of_wfmf (parse_stored hok) hslot hwfmf, mirror_wfmf hwfmf]
        exact ⟨rfl, rfl⟩
      · exact absurd (hmagic.symm.trans hwfad.magic) (by decide)

end WebAdf.TrackCache
