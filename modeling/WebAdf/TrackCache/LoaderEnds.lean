import WebAdf.TrackCache.LoaderAccepts

/-!
# A parse from its header to its end

The header picks a container's tracks to run along, and a parse ends well when
they are over and none of the slot's is missing.
-/

namespace WebAdf.TrackCache

open Lib

theorem Psram.fitted_resetSlot {p : Psram} (h : p.Fitted slot) : (p.resetSlot slot).Fitted slot :=
  (elsewhere_resetSlot p slot).fitted.2 h

theorem Psram.fitted_setSlotKind {p : Psram} (h : p.Fitted slot) (k : SlotKind) :
    (p.setSlotKind slot k).Fitted slot :=
  (elsewhere_setSlotKind p slot k).fitted.2 h

theorem Psram.missingCount_eq_zero (p : Psram) (slot : Nat) :
    p.missingCount slot = 0 ↔
      p.Fitted slot ∧ ∀ t < tracks, p.state slot (t : Nat) ≠ .absent := by
  unfold missingCount Fitted
  cases hpsram : p.havePsram with
  | false => simp [tracks]
  | true =>
    cases hok : p.slotOk slot with
    | false => simp [tracks]
    | true =>
      simp only [Bool.not_true, Bool.or_self, Bool.false_eq_true, if_false, List.length_eq_zero_iff,
        List.filter_eq_nil_iff, List.mem_range, beq_iff_eq, true_and]

namespace Loader

open Psram (Fits Holds)

variable {p q : Psram} {slot reserved : Nat} {disk : Bytes} {pieces : List Bytes}

-- ---------------------------------------------------------------------------
-- The header
-- ---------------------------------------------------------------------------

/-- A parse that has these bytes of its header. -/
def titled (slot : Nat) (hdr : Bytes) : Loader :=
  { st := .hdr
    slot := slot
    hdr := hdr
    lenb := []
    track := 0
    trackCount := 0
    bits := 0
    payloadBytes := 0
    payloadGot := 0
    padLeft := 0
    adf := false }

theorem parseBegin_eq (h : p.havePsram = true) :
    parseBegin p slot = (titled slot [], p.resetSlot slot) := by
  unfold parseBegin titled
  rw [if_pos h]

theorem ready_titled (slot : Nat) : (titled slot []).Ready :=
  ⟨fun _ => ⟨Nat.zero_lt_succ _, rfl⟩, nofun, nofun, nofun, nofun, nofun⟩

theorem titled_run (q : Psram) {hdr : Bytes} (hlen : hdr.length = imageHeaderBytes) (d : Bytes) :
    (titled slot []).sink q (hdr ++ d) =
      ((titled slot hdr).header q).1.sink ((titled slot hdr).header q).2 d := by
  have hwant : (titled slot []).want = imageHeaderBytes := rfl
  have hne : hdr ++ d ≠ [] := by
    intro hnil
    rw [List.append_eq_nil_iff] at hnil
    simp [hnil.1, imageHeaderBytes] at hlen
  rw [sink_step (ready_titled slot) q (go _ hne nofun nofun)
    (by rw [hwant, List.length_append]; omega), hwant, ← hlen, List.take_left, List.drop_left]
  rfl

theorem titled_short (q : Psram) {d : Bytes} (h : d.length < imageHeaderBytes) :
    ((titled slot []).sink q d).1.st ≠ .eof := by
  rw [sink_short (ready_titled slot) q h]
  nofun

theorem word_titled (slot : Nat) (hdr : Bytes) (i : Nat) :
    (titled slot hdr).word i = le32 (hdr.drop (4 * i)) := by
  unfold word
  rfl

theorem header_wfmf (q : Psram) (hslot : slot ≠ slotNet) {hdr : Bytes}
    (h : Header hdr imageMagic imageVersion tracks reserved) :
    ∃ l : Loader, l.Standing slot tracks 0 ∧ (titled slot hdr).header q = (l, q) := by
  have hmagic : (titled slot hdr).word 0 = imageMagic := (word_titled ..).trans h.magic
  have hversion : (titled slot hdr).word 1 = imageVersion := (word_titled ..).trans h.version
  have hcount : (titled slot hdr).word 2 = tracks := (word_titled ..).trans h.count
  have htotal : (titled slot hdr).counted.trackCount = tracks := hcount
  refine ⟨(titled slot hdr).counted.startTracks, ⟨rfl, rfl, hslot, hcount, rfl,
    .inl ⟨by decide, rfl, rfl⟩⟩, ?_⟩
  unfold header
  rw [hmagic, if_neg (by decide), if_neg (by simp [isWfmf, hmagic, hversion]),
    if_neg (by simpa [titled] using hslot), if_neg (by simp [countOk, htotal, tracks])]

theorem header_wfad (q : Psram) {hdr : Bytes}
    (h : Header hdr wfadMagic wfadVersion wfadTracks (geometry slot)) :
    ∃ l : Loader, l.AtAdf slot 0 ∧
      (titled slot hdr).header q = (l, q.setSlotKind slot (adfKind slot)) := by
  have hmagic : (titled slot hdr).word 0 = wfadMagic := (word_titled ..).trans h.magic
  have hversion : (titled slot hdr).word 1 = wfadVersion := (word_titled ..).trans h.version
  have hcount : (titled slot hdr).word 2 = wfadTracks := (word_titled ..).trans h.count
  have hsectors : (titled slot hdr).word 3 = geometry slot := (word_titled ..).trans h.fourth
  have hplace : (titled slot hdr).slot = slot := rfl
  have hfits : (titled slot hdr).isWfad = true := by
    simp [isWfad, hversion, hcount, hsectors, hplace]
  refine ⟨(titled slot hdr).startAdf, ⟨rfl, rfl, rfl, rfl, ?_, ?_, rfl, .inl ⟨by decide, rfl⟩⟩, ?_⟩
  · exact congrArg (· * 512 * 8) hsectors
  · exact congrArg (· * 512) hsectors
  · unfold header
    rw [hmagic, if_pos (by simp), if_neg (by simp [hfits])]
    rfl

/-- The header is one of a container's, or the parse is refused. -/
theorem header_read (slot : Nat) (q : Psram) {hdr : Bytes} (hlen : hdr.length = imageHeaderBytes) :
    ((titled slot hdr).header q).1.st = .err ∨
    Header hdr wfadMagic wfadVersion wfadTracks (geometry slot) ∨
    slot ≠ slotNet ∧ ∃ count reserved, Header hdr imageMagic imageVersion count reserved ∧
      count ≤ tracks ∧ 0 < count ∧
      ∃ l : Loader, l.Standing slot count 0 ∧ (titled slot hdr).header q = (l, q) := by
  have hword := word_titled slot hdr
  rcases header_cases (titled slot hdr) q with herr | ⟨⟨hmagic, hwfad⟩, -⟩ |
    ⟨⟨-, hwfmf, hslot, hcount⟩, heq⟩
  · exact .inl herr
  · rw [beq_iff_eq, hword] at hmagic
    simp only [isWfad, Bool.and_eq_true, beq_iff_eq, hword] at hwfad
    exact .inr (.inl ⟨hlen, hmagic, hwfad.1.1, hwfad.1.2, hwfad.2⟩)
  · simp only [isWfmf, Bool.and_eq_true, beq_iff_eq, hword] at hwfmf
    have hcount := Bool.and_eq_true_iff.1 hcount
    have hpos := of_decide_eq_true hcount.1
    have hle := of_decide_eq_true hcount.2
    exact .inr (.inr ⟨hslot, _, _, ⟨hlen, hwfmf.1, hwfmf.2, (hword 2).symm, rfl⟩, hle, hpos,
      _, ⟨rfl, rfl, hslot, rfl, rfl, .inl ⟨hpos, rfl, rfl⟩⟩, heq⟩)

-- ---------------------------------------------------------------------------
-- The end
-- ---------------------------------------------------------------------------

theorem parse_eq (p : Psram) (slot : Nat) (pieces : List Bytes) :
    parse p slot pieces = ((parseBegin p slot).1.sink (parseBegin p slot).2 pieces.flatten).1.parseEnd
      ((parseBegin p slot).1.sink (parseBegin p slot).2 pieces.flatten).2 := by
  rw [← sink_pieces (ready_begin p slot) (parseBegin p slot).2 pieces]
  rfl

theorem parse_fst (p : Psram) (slot : Nat) (pieces : List Bytes) :
    (parse p slot pieces).1 = true ↔
      ((parseBegin p slot).1.sink (parseBegin p slot).2 pieces.flatten).1.st = .eof ∧
      ((parseBegin p slot).1.sink (parseBegin p slot).2 pieces.flatten).2.missingCount slot = 0 := by
  obtain ⟨hslot, -⟩ := sink_elsewhere (parseBegin p slot).1 (parseBegin p slot).2 pieces.flatten
  rw [parse_eq]
  unfold parseEnd
  rw [hslot]
  simp [parseBegin]

theorem missing_begin (p : Psram) (slot : Nat) (h : p.Fitted slot) :
    ∀ track, (p.resetSlot slot).state slot track = .absent := by
  intro track
  unfold Psram.resetSlot
  rw [if_neg (by simp [h.2])]
  dsimp only
  rw [Function.update_self]

theorem parse_snd (h : (parse p slot pieces).1 = true) :
    (parse p slot pieces).2 =
      ((parseBegin p slot).1.sink (parseBegin p slot).2 pieces.flatten).2 := by
  rw [parse_eq] at h ⊢
  unfold parseEnd at h ⊢
  dsimp only at h ⊢
  rw [if_pos h]

theorem parse_fitted (h : (parse p slot pieces).1 = true) : p.Fitted slot := by
  obtain ⟨-, hmissing⟩ := (parse_fst ..).1 h
  obtain ⟨hfitted, -⟩ := (Psram.missingCount_eq_zero ..).1 hmissing
  obtain ⟨-, hsink⟩ := sink_elsewhere (parseBegin p slot).1 (parseBegin p slot).2 pieces.flatten
  exact (Psram.elsewhere_resetSlot p slot).fitted.1 (hsink.fitted.1 hfitted)

theorem fits_stored (hslot : slot ≠ slotNet) (ts : List WfmfTrack) : Fits slot (ts.map stored) := by
  intro t ht
  obtain ⟨u, -, rfl⟩ := List.mem_map.1 ht
  have hle := u.bits_le
  rw [slotTrackCap_of_ne hslot]
  unfold stored
  dsimp only
  rw [u.length]
  omega

theorem fits_adfTracks (slot n : Nat) (d : Bytes) :
    Fits slot (adfTracks (geometry slot * 512) n d) := by
  obtain ⟨-, hle⟩ := geometry_fits slot
  induction n generalizing d with
  | zero => exact fun t ht => absurd ht List.not_mem_nil
  | succ n ih =>
    intro t ht
    rcases List.mem_cons.1 ht with rfl | ht
    · dsimp only
      rw [List.length_take]
      omega
    · exact ih _ t ht

theorem present_putAll (h : q.Fitted slot) {ts : List (Nat × Bytes)} (hfits : Fits slot ts)
    (hlen : ts.length = tracks) : (q.putAll slot 0 ts).missingCount slot = 0 := by
  rw [Psram.missingCount_eq_zero]
  refine ⟨Psram.fitted_putAll h slot 0 ts, fun t ht => ?_⟩
  · have hget : ts[t]? = some ts[t] := List.getElem?_eq_getElem (by omega)
    have hholds := Psram.holds_putAll h hfits (i := 0) (by omega) hget
    rw [Nat.zero_add] at hholds
    rw [hholds.present]
    decide

/-- A WFMF whose last track is over is stored. -/
theorem parse_wfmf (h : p.Fitted slot) (hslot : slot ≠ slotNet)
    (hwfmf : Wfmf pieces.flatten ts rest) (hends : Ends ts rest) :
    parse p slot pieces = (true, (p.resetSlot slot).putAll slot 0 (ts.map stored)) := by
  obtain ⟨hdr, reserved, hheader, hstream⟩ := hwfmf.header
  have hwhole := hwfmf.whole
  obtain ⟨l, hl, heq⟩ := header_wfmf (p.resetSlot slot) hslot hheader
  obtain ⟨l', hl', hrun⟩ := hl.tracks_run (p.resetSlot slot) ts (by omega) rest hends
  have hsink : (parseBegin p slot).1.sink (parseBegin p slot).2 pieces.flatten =
      (l', (p.resetSlot slot).putAll slot 0 (ts.map stored)) := by
    rw [parseBegin_eq h.1, hstream, titled_run _ hheader.length, heq, hrun,
      hl'.over (by omega)]
  have hmissing := present_putAll (Psram.fitted_resetSlot h) (fits_stored hslot ts)
    (by rw [List.length_map]; exact hwhole)
  have hok : (parse p slot pieces).1 = true :=
    (parse_fst ..).2 ⟨by rw [hsink]; exact hl'.atEof (by omega), by rw [hsink]; exact hmissing⟩
  exact Prod.ext hok ((parse_snd hok).trans (by rw [hsink]))

/-- A WFAD of the slot's geometry is stored. -/
theorem parse_wfad (h : p.Fitted slot) (hwfad : Wfad (geometry slot) pieces.flatten disk) :
    parse p slot pieces = (true, ((p.resetSlot slot).setSlotKind slot (adfKind slot)).putAll slot 0
      (adfTracks (geometry slot * 512) tracks disk)) := by
  obtain ⟨hdr, hheader, hstream⟩ := hwfad.header
  obtain ⟨l, hl, heq⟩ := header_wfad (p.resetSlot slot) hheader
  obtain ⟨hend, hp⟩ := hl.tracks_run ((p.resetSlot slot).setSlotKind slot (adfKind slot)) disk
    (n := tracks) (by decide)
  have hsink : (parseBegin p slot).1.sink (parseBegin p slot).2 pieces.flatten =
      l.sink ((p.resetSlot slot).setSlotKind slot (adfKind slot)) disk := by
    rw [parseBegin_eq h.1, hstream, titled_run _ hheader.length, heq]
  have hmissing := present_putAll
    (Psram.fitted_setSlotKind (Psram.fitted_resetSlot h) (adfKind slot))
    (fits_adfTracks slot tracks disk) (length_adfTracks ..)
  have hok : (parse p slot pieces).1 = true :=
    (parse_fst ..).2 ⟨by rw [hsink]; exact hend.2 hwfad.length,
      by rw [hsink, hp hwfad.length]; exact hmissing⟩
  exact Prod.ext hok ((parse_snd hok).trans (by rw [hsink, hp hwfad.length]))

/-- A WFMF that ends with an empty track is not. -/
theorem parse_stuck (hslot : slot ≠ slotNet) (hwfmf : Wfmf pieces.flatten ts [])
    (hlast : ts.getLast? = some t) (ht : t.bytes = []) : (parse p slot pieces).1 = false := by
  rw [← Bool.not_eq_true]
  intro hok
  have hpsram := (parse_fitted hok).1
  obtain ⟨heof, -⟩ := (parse_fst ..).1 hok
  obtain ⟨hdr, reserved, hheader, hstream⟩ := hwfmf.header
  obtain ⟨l, hl, heq⟩ := header_wfmf (p.resetSlot slot) hslot hheader
  rw [parseBegin_eq hpsram, hstream, titled_run _ hheader.length, heq, List.append_nil] at heof
  exact hl.tracks_stuck _ (by rw [Nat.zero_add]; exact hwfmf.whole) hlast ht heof

/-- What a parse ends well on. -/
theorem parse_true (h : (parse p slot pieces).1 = true) :
    (slot ≠ slotNet ∧ ∃ ts rest, Wfmf pieces.flatten ts rest ∧ Ends ts rest) ∨
      ∃ d, Wfad (geometry slot) pieces.flatten d := by
  have hfitted := parse_fitted h
  obtain ⟨heof, hmissing⟩ := (parse_fst ..).1 h
  rw [parseBegin_eq hfitted.1] at heof hmissing
  dsimp only at heof hmissing
  generalize pieces.flatten = stream at heof hmissing
  by_cases hlen : stream.length < imageHeaderBytes
  · exact absurd heof (titled_short _ hlen)
  obtain ⟨hdr, d, rfl, hhdr⟩ : ∃ hdr d, stream = hdr ++ d ∧ hdr.length = imageHeaderBytes :=
    ⟨stream.take imageHeaderBytes, stream.drop imageHeaderBytes,
      (List.take_append_drop ..).symm, List.length_take_of_le (by omega)⟩
  rw [titled_run _ hhdr] at heof hmissing
  rcases header_read slot (p.resetSlot slot) hhdr with herr | hheader |
    ⟨hslot, count, reserved, hheader, hle, hpos, l, hl, heq⟩
  · rw [sink_err herr] at heof
    cases heof
  · obtain ⟨l, hl, heq⟩ := header_wfad (p.resetSlot slot) hheader
    rw [heq] at heof
    obtain ⟨hend, -⟩ := hl.tracks_run ((p.resetSlot slot).setSlotKind slot (adfKind slot)) d
      (n := tracks) (by decide)
    exact .inr ⟨d, hend.1 heof, hdr, hheader, rfl⟩
  · rw [heq] at heof hmissing
    obtain ⟨ts, rest, hcount, rfl, hends⟩ := hl.tracks_read hpos (p.resetSlot slot) d heof
    obtain ⟨l', hl', hrun⟩ := hl.tracks_run (p.resetSlot slot) ts (by omega) rest hends
    rw [hrun, hl'.over (by omega)] at hmissing
    have hall : count = tracks := by
      by_contra hne
      -- the track after the last read is missing
      obtain ⟨-, hpresent⟩ := (Psram.missingCount_eq_zero ..).1 hmissing
      obtain ⟨-, hstate⟩ := Psram.putAll_other (p.resetSlot slot) slot slot 0 (count : Int)
        (ts.map stored) (.inr (.inr (by rw [List.length_map]; omega)))
      exact hpresent count (by omega) (hstate.trans (missing_begin p slot hfitted _))
    subst hall
    exact .inl ⟨hslot, ts, rest, ⟨by omega, hdr, reserved, hheader, rfl⟩, hends⟩

/-- A parse touches its slot alone. -/
theorem parse_elsewhere (p : Psram) (slot : Nat) (pieces : List Bytes) :
    Psram.Elsewhere slot p (parse p slot pieces).2 := by
  obtain ⟨hslot, hsink⟩ := sink_elsewhere (parseBegin p slot).1 (parseBegin p slot).2 pieces.flatten
  have hbegin : Psram.Elsewhere slot p (parseBegin p slot).2 := Psram.elsewhere_resetSlot p slot
  have hrun := hbegin.trans hsink
  rw [parse_eq]
  unfold parseEnd
  dsimp only
  split
  · exact hrun
  · rw [hslot]
    exact hrun.trans (Psram.elsewhere_resetSlot _ slot)

/-- A parse that does not end well leaves no track. -/
theorem parse_false (h : (parse p slot pieces).1 = false) (track : Int) :
    (parse p slot pieces).2.haveTrack slot track = false := by
  obtain ⟨hslot, -⟩ := sink_elsewhere (parseBegin p slot).1 (parseBegin p slot).2 pieces.flatten
  rw [parse_eq] at h ⊢
  unfold parseEnd at h ⊢
  dsimp only at h ⊢
  rw [if_neg (by simp [h]), hslot]
  change Psram.haveTrack (Psram.resetSlot _ slot) slot track = false
  generalize ((parseBegin p slot).1.sink (parseBegin p slot).2 pieces.flatten).2 = q
  unfold Psram.haveTrack Psram.trackState
  cases husable : (q.resetSlot slot).usable slot track with
  | false => rfl
  | true =>
    have hok : q.Fitted slot := by
      refine (Psram.elsewhere_resetSlot q slot).fitted.1 ?_
      simp only [Psram.usable, Bool.and_eq_true] at husable
      exact ⟨husable.1.1, husable.1.2⟩
    rw [if_pos rfl, missing_begin q slot hok]
    rfl

end Loader

end WebAdf.TrackCache
