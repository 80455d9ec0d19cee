import WebAdf.TrackCache.LoaderRuns

/-!
# What a parse accepts

A parse ends well on the two containers and on nothing else, but for a WFMF
that ends with an empty track and no byte behind it, which the loader does not
get to the end of. It stores the tracks it read, or empties the slot, and
touches no other.
-/

namespace WebAdf.TrackCache

open Lib

-- ---------------------------------------------------------------------------
-- Other slots
-- ---------------------------------------------------------------------------

/-- Nothing is different but one slot. -/
structure Psram.Elsewhere (slot : Nat) (p q : Psram) : Prop where
  mem : ∀ slot', slot' ≠ slot → q.mem slot' = p.mem slot'
  bits : ∀ slot', slot' ≠ slot → q.bits slot' = p.bits slot'
  state : ∀ slot', slot' ≠ slot → q.state slot' = p.state slot'
  kind : ∀ slot', slot' ≠ slot → q.kind slot' = p.kind slot'
  havePsram : q.havePsram = p.havePsram
  haveNet : q.haveNet = p.haveNet
  words : SameWords p q

namespace Psram

variable {p q r : Psram} {slot : Nat}

theorem Elsewhere.refl (slot : Nat) (p : Psram) : Elsewhere slot p p :=
  ⟨fun _ _ => rfl, fun _ _ => rfl, fun _ _ => rfl, fun _ _ => rfl, rfl, rfl, ⟨rfl, rfl, rfl, rfl⟩⟩

theorem Elsewhere.trans (h : Elsewhere slot p q) (h' : Elsewhere slot q r) : Elsewhere slot p r :=
  ⟨fun s hs => (h'.mem s hs).trans (h.mem s hs), fun s hs => (h'.bits s hs).trans (h.bits s hs),
    fun s hs => (h'.state s hs).trans (h.state s hs), fun s hs => (h'.kind s hs).trans (h.kind s hs),
    h'.havePsram.trans h.havePsram, h'.haveNet.trans h.haveNet,
    ⟨h'.words.gen.trans h.words.gen, h'.words.active.trans h.words.active,
      h'.words.df1.trans h.words.df1, h'.words.ack.trans h.words.ack⟩⟩

theorem Elsewhere.fitted (h : Elsewhere slot p q) : q.Fitted slot ↔ p.Fitted slot := by
  unfold Fitted slotOk
  rw [h.havePsram, h.haveNet]

theorem elsewhere_writeAt (p : Psram) (slot : Nat) (track : Int) (off : Nat) (x : Bytes) :
    Elsewhere slot p (p.writeAt slot track off x) := by
  rcases writeAt_cases p slot track off x with heq | heq <;> rw [heq]
  · exact .refl ..
  · exact ⟨fun _ hs => Function.update_of_ne hs .., fun _ _ => rfl, fun _ _ => rfl, fun _ _ => rfl,
      rfl, rfl, ⟨rfl, rfl, rfl, rfl⟩⟩

theorem elsewhere_commit (p : Psram) (slot : Nat) (track : Int) (n : Nat) :
    Elsewhere slot p (p.commit slot track n) := by
  rcases commit_cases p slot track n with heq | heq <;> rw [heq]
  · exact .refl ..
  · exact ⟨fun _ _ => rfl, fun _ hs => Function.update_of_ne hs ..,
      fun _ hs => Function.update_of_ne hs .., fun _ _ => rfl, rfl, rfl, ⟨rfl, rfl, rfl, rfl⟩⟩

theorem elsewhere_setSlotKind (p : Psram) (slot : Nat) (k : SlotKind) :
    Elsewhere slot p (p.setSlotKind slot k) := by
  unfold setSlotKind
  split
  · exact ⟨fun _ _ => rfl, fun _ _ => rfl, fun _ _ => rfl,
      fun _ hs => Function.update_of_ne hs .., rfl, rfl, ⟨rfl, rfl, rfl, rfl⟩⟩
  · exact .refl ..

theorem elsewhere_resetSlot (p : Psram) (slot : Nat) : Elsewhere slot p (p.resetSlot slot) := by
  unfold resetSlot
  split
  · exact .refl ..
  · exact ⟨fun _ _ => rfl, fun _ hs => Function.update_of_ne hs ..,
      fun _ hs => Function.update_of_ne hs .., fun _ hs => Function.update_of_ne hs .., rfl, rfl,
      ⟨rfl, rfl, rfl, rfl⟩⟩

end Psram

namespace Loader

variable {l : Loader} {p : Psram} {slot count i n : Nat}

open Psram (Elsewhere)

theorem nextTrack_slot (l : Loader) : l.nextTrack.slot = l.slot := by
  unfold nextTrack
  dsimp only
  split <;> rfl

theorem payloadDone_slot (l : Loader) : l.payloadDone.slot = l.slot := by
  unfold payloadDone
  split
  · exact nextTrack_slot _
  · split
    · rfl
    · exact nextTrack_slot _

theorem length_slot (l : Loader) : l.length.slot = l.slot := by
  unfold Loader.length
  dsimp only
  split
  · rfl
  · split <;> rfl

theorem header_elsewhere (l : Loader) (p : Psram) :
    (l.header p).1.slot = l.slot ∧ Elsewhere l.slot p (l.header p).2 := by
  unfold header
  split
  · split
    · exact ⟨rfl, .refl ..⟩
    · exact ⟨rfl, Psram.elsewhere_setSlotKind ..⟩
  · split
    · exact ⟨rfl, .refl ..⟩
    · split
      · exact ⟨rfl, .refl ..⟩
      · split <;> exact ⟨rfl, .refl ..⟩

theorem absorb_elsewhere (l : Loader) (p : Psram) (d : Bytes) :
    Elsewhere l.slot p (l.absorb p d).2 := by
  unfold absorb
  split
  · exact .refl ..
  · exact .refl ..
  · exact Psram.elsewhere_writeAt ..
  · exact .refl ..
  · exact .refl ..
  · exact .refl ..

theorem advance_elsewhere (l : Loader) (p : Psram) :
    (l.advance p).1.slot = l.slot ∧ Elsewhere l.slot p (l.advance p).2 := by
  unfold advance
  split
  · exact header_elsewhere l p
  · exact ⟨length_slot l, .refl ..⟩
  · exact ⟨payloadDone_slot l, Psram.elsewhere_commit ..⟩
  · exact ⟨nextTrack_slot _, .refl ..⟩
  · exact ⟨rfl, .refl ..⟩
  · exact ⟨rfl, .refl ..⟩

theorem pass_elsewhere (l : Loader) (p : Psram) (d : Bytes) :
    (l.pass p d).1.slot = l.slot ∧ Elsewhere l.slot p (l.pass p d).2.1 := by
  unfold pass
  dsimp only
  have habsorb := absorb_elsewhere l p (d.take (min d.length l.want))
  have hslot := absorb_slot l p (d.take (min d.length l.want))
  split
  · exact ⟨hslot, habsorb⟩
  · obtain ⟨hslot', hadvance⟩ := advance_elsewhere (l.absorb p (d.take (min d.length l.want))).1
      (l.absorb p (d.take (min d.length l.want))).2
    rw [hslot] at hslot' hadvance
    exact ⟨hslot', habsorb.trans hadvance⟩

theorem sinkLoop_elsewhere (k : Nat) (l : Loader) (p : Psram) (d : Bytes) :
    (sinkLoop k l p d).1.slot = l.slot ∧ Elsewhere l.slot p (sinkLoop k l p d).2.1 := by
  induction k generalizing l p d with
  | zero => exact ⟨rfl, .refl ..⟩
  | succ k ih =>
    rw [sinkLoop]
    split
    · exact ⟨rfl, .refl ..⟩
    · obtain ⟨hslot, hpass⟩ := pass_elsewhere l p d
      obtain ⟨hslot', hrest⟩ := ih (l.pass p d).1 (l.pass p d).2.1 (l.pass p d).2.2
      rw [hslot] at hslot' hrest
      exact ⟨hslot', hpass.trans hrest⟩

theorem sink_elsewhere (l : Loader) (p : Psram) (d : Bytes) :
    (l.sink p d).1.slot = l.slot ∧ Elsewhere l.slot p (l.sink p d).2 := by
  obtain ⟨hslot, hloop⟩ := sinkLoop_elsewhere (2 * d.length + 1) l p d
  refine ⟨?_, hloop⟩
  unfold sink
  dsimp only
  unfold ended
  split <;> exact hslot

-- ---------------------------------------------------------------------------
-- The tracks of a WFMF
-- ---------------------------------------------------------------------------

/-- The last of the tracks is over: it is not empty, or bytes follow. -/
def Ends (ts : List WfmfTrack) (rest : Bytes) : Prop :=
  rest ≠ [] ∨ ∀ t, ts.getLast? = some t → t.bytes ≠ []

def stored (t : WfmfTrack) : Nat × Bytes := (t.bits, t.bytes)

theorem tracks_ne_nil {ts : List WfmfTrack} (h : ts ≠ []) (rest : Bytes) :
    ts.flatMap WfmfTrack.blob ++ rest ≠ [] := by
  cases ts with
  | nil => exact absurd rfl h
  | cons t ts =>
    have := blob_length t
    intro hnil
    have hlen := congrArg List.length hnil
    simp only [List.flatMap_cons, List.length_append, List.length_nil] at hlen
    omega

theorem Ends.tail {t u : WfmfTrack} (h : Ends (t :: u :: ts) rest) : Ends (u :: ts) rest := by
  refine h.imp_right fun hlast v hv => hlast v ?_
  rwa [List.getLast?_cons_cons]

theorem Standing.tracks_run (h : l.Standing slot count i) (p : Psram) (ts : List WfmfTrack)
    (hcount : i + ts.length ≤ count) (rest : Bytes) (hends : Ends ts rest) :
    ∃ l' : Loader, l'.Standing slot count (i + ts.length) ∧
      l.sink p (ts.flatMap WfmfTrack.blob ++ rest) =
        l'.sink (p.putAll slot i (ts.map stored)) rest := by
  induction ts generalizing l p i with
  | nil => exact ⟨l, h, rfl⟩
  | cons t ts ih =>
    rw [List.length_cons] at hcount
    have hd : t.bytes ≠ [] ∨ ts.flatMap WfmfTrack.blob ++ rest ≠ [] := by
      cases ts with
      | nil => exact (hends.imp_right fun hlast => hlast t rfl).symm
      | cons u ts => exact .inr (tracks_ne_nil (by simp) rest)
    obtain ⟨l₁, h₁, heq₁⟩ := h.track_run (by omega) p t _ hd
    have hends' : Ends ts rest := by
      cases ts with
      | nil => exact .inr nofun
      | cons u ts => exact hends.tail
    obtain ⟨l₂, h₂, heq₂⟩ := ih h₁ (p.put slot i t.bits t.bytes) (by omega) hends'
    refine ⟨l₂, by rwa [List.length_cons, show i + (ts.length + 1) = i + 1 + ts.length by omega], ?_⟩
    rw [List.flatMap_cons, List.append_assoc, heq₁, heq₂]
    rfl

theorem Standing.over (h : l.Standing slot count i) (hi : count ≤ i) (p : Psram) (d : Bytes) :
    l.sink p d = (l, p) := by
  have hst : l.st = .eof := by
    rcases h.st with ⟨hlt, -⟩ | ⟨-, hst⟩
    · omega
    · exact hst
  rw [sink_eq, loop_stopped ((stopped_iff ..).2 (.inr (.inr hst)))]
  unfold ended
  rw [if_neg (by simp [h.mfm])]

theorem Standing.atEof (h : l.Standing slot count i) (hi : count ≤ i) : l.st = .eof := by
  rcases h.st with ⟨hlt, -⟩ | ⟨-, hst⟩
  · omega
  · exact hst

/-- The end is reached over the tracks that are left, whose last is over. -/
theorem Standing.tracks_read (h : l.Standing slot count i) (hi : i < count) (p : Psram) (d : Bytes)
    (heof : (l.sink p d).1.st = .eof) :
    ∃ ts rest, i + ts.length = count ∧ d = ts.flatMap WfmfTrack.blob ++ rest ∧ Ends ts rest := by
  generalize hn : count - i = n
  induction n generalizing l p d i with
  | zero => omega
  | succ n ih =>
    rcases h.track_cases hi p d with ⟨t, d', rfl⟩ | hne
    · have hd : t.bytes ≠ [] ∨ d' ≠ [] := by
        by_cases ht : t.bytes = []
        · refine .inr fun hnil => ?_
          rw [hnil, List.append_nil] at heof
          exact h.empty_run hi p t ht heof
        · exact .inl ht
      obtain ⟨l₁, h₁, heq₁⟩ := h.track_run hi p t d' hd
      by_cases hlast : i + 1 = count
      · refine ⟨[t], d', hlast, by simp, ?_⟩
        refine hd.symm.imp_right fun ht u hu => ?_
        cases hu
        exact ht
      · rw [heq₁] at heof
        obtain ⟨ts, rest, hcount, rfl, hends⟩ := ih h₁ (by omega) _ d' heof (by omega)
        have hts : ts ≠ [] := by
          rintro rfl
          simp only [List.length_nil] at hcount
          omega
        refine ⟨t :: ts, rest, by rw [List.length_cons]; omega, by simp, ?_⟩
        cases ts with
        | nil => exact absurd rfl hts
        | cons u ts => exact hends.imp_right fun hl v hv => hl v (by rwa [List.getLast?_cons_cons] at hv)
    · exact absurd heof hne

/-- An empty last track with nothing behind it is never over. -/
theorem Standing.tracks_stuck (h : l.Standing slot count i) (p : Psram) {ts : List WfmfTrack}
    (hcount : i + ts.length = count) {t : WfmfTrack} (hlast : ts.getLast? = some t)
    (ht : t.bytes = []) : (l.sink p (ts.flatMap WfmfTrack.blob)).1.st ≠ .eof := by
  obtain ⟨us, rfl⟩ := List.getLast?_eq_some_iff.1 hlast
  rw [List.length_append, List.length_singleton] at hcount
  have hne : t.blob ≠ [] := by
    have := blob_length t
    intro hnil
    simp [hnil] at this
  obtain ⟨l', h', heq⟩ := h.tracks_run p us (by omega) t.blob (.inl hne)
  rw [List.flatMap_append, List.flatMap_singleton, heq]
  exact h'.empty_run (by omega) _ t ht

-- ---------------------------------------------------------------------------
-- The tracks of a WFAD
-- ---------------------------------------------------------------------------

/-- Before track `i` of a WFAD, or at the end after the last. -/
structure AtAdf (l : Loader) (slot i : Nat) : Prop where
  place : l.slot = slot
  sectors : l.adf = true
  total : l.trackCount = wfadTracks
  track : l.track = i
  bits : l.bits = geometry slot * 512 * 8
  payloadBytes : l.payloadBytes = geometry slot * 512
  payloadGot : l.payloadGot = 0
  st : i < wfadTracks ∧ l.st = .payload ∨ wfadTracks ≤ i ∧ l.st = .eof

theorem AtAdf.ready (h : l.AtAdf slot i) : l.Ready := by
  rcases h.st with ⟨-, hst⟩ | ⟨-, hst⟩
  · obtain ⟨hpos, hle⟩ := geometry_fits slot
    refine ⟨by simp [hst], by simp [hst], fun _ => ⟨.inl ?_, ?_⟩, fun _ _ => ?_, fun _ hadf => ?_,
      by simp [hst]⟩
    · rwa [h.payloadGot, h.payloadBytes]
    · rwa [h.payloadBytes, h.place]
    · rwa [h.payloadBytes]
    · exact absurd (hadf.symm.trans h.sectors) (by decide)
  · exact ready_eof hst

theorem AtAdf.want (h : l.AtAdf slot i) (hi : i < wfadTracks) : l.want = geometry slot * 512 := by
  rcases h.st with ⟨-, hst⟩ | ⟨hle, -⟩
  · unfold Loader.want
    rw [hst]
    dsimp only
    rw [h.payloadBytes, h.payloadGot, Nat.sub_zero]
  · omega

/-- Over a track of sectors. -/
theorem AtAdf.track_run (h : l.AtAdf slot i) (hi : i < wfadTracks) (p : Psram) {d : Bytes}
    (hlen : geometry slot * 512 ≤ d.length) :
    ∃ l' : Loader, l'.AtAdf slot (i + 1) ∧ l.sink p d =
      l'.sink (p.put slot i (geometry slot * 512 * 8) (d.take (geometry slot * 512)))
        (d.drop (geometry slot * 512)) := by
  have hst : l.st = .payload := by
    rcases h.st with ⟨-, hst⟩ | ⟨hle, -⟩
    · exact hst
    · omega
  obtain ⟨hpos, -⟩ := geometry_fits slot
  have hne : d ≠ [] := by
    rintro rfl
    rw [List.length_nil] at hlen
    omega
  have habsorb : l.absorb p (d.take (geometry slot * 512)) =
      ({ l with payloadGot := geometry slot * 512 },
        p.writeAt slot i 0 (d.take (geometry slot * 512))) := by
    unfold absorb
    rw [hst]
    dsimp only
    rw [h.place, h.track, h.payloadGot, List.length_take, Nat.min_eq_left hlen, Nat.zero_add, ← hst,
      ← h.place, ← h.track]
  have hadvance : ∀ q, ({ l with payloadGot := geometry slot * 512 } : Loader).advance q =
      (({ l with payloadGot := geometry slot * 512 } : Loader).payloadDone,
        q.commit slot i (geometry slot * 512 * 8)) := by
    intro q
    unfold advance
    dsimp only
    rw [hst]
    dsimp only
    rw [h.place, h.track, h.bits]
  rw [sink_step h.ready p (go d hne (by simp [hst]) (by simp [hst])) (by rw [h.want hi]; exact hlen),
    h.want hi, habsorb]
  dsimp only
  rw [hadvance]
  refine ⟨_, ?_, rfl⟩
  have htrack := h.track
  have htotal := h.total
  unfold payloadDone
  rw [if_pos h.sectors]
  unfold nextTrack
  dsimp only
  split
  · exact ⟨h.place, h.sectors, htotal, congrArg (· + 1) htrack, h.bits, h.payloadBytes, rfl,
      .inr ⟨by omega, rfl⟩⟩
  · exact ⟨h.place, h.sectors, htotal, congrArg (· + 1) htrack, h.bits, h.payloadBytes, rfl,
      .inl ⟨by omega, hst⟩⟩

/-- The tracks of a WFAD's bytes. -/
def adfTracks (w : Nat) : Nat → Bytes → List (Nat × Bytes)
  | 0, _ => []
  | n + 1, d => (w * 8, d.take w) :: adfTracks w n (d.drop w)

theorem length_adfTracks (w n : Nat) (d : Bytes) : (adfTracks w n d).length = n := by
  induction n generalizing d with
  | zero => rfl
  | succ n ih => rw [adfTracks, List.length_cons, ih]

theorem adfTracks_get (hlen : d.length = n * w) (hj : j < n) :
    (adfTracks w n d)[j]? = some (w * 8, slice d (j * w) w) := by
  induction n generalizing d j with
  | zero => omega
  | succ n ih =>
    rw [adfTracks]
    cases j with
    | zero => simp [slice]
    | succ j =>
      rw [List.getElem?_cons_succ, ih (by rw [List.length_drop, hlen, Nat.succ_mul]; omega) (by omega)]
      unfold slice
      rw [List.drop_drop, Nat.succ_mul, Nat.add_comm w]

/-- A WFAD ends just where its last track does. -/
theorem AtAdf.over (h : l.AtAdf slot i) (hi : wfadTracks ≤ i) (p : Psram) (d : Bytes) :
    ((l.sink p d).1.st = .eof ↔ d = []) ∧ (l.sink p d).2 = p := by
  have hst : l.st = .eof := by
    rcases h.st with ⟨hlt, -⟩ | ⟨-, hst⟩
    · omega
    · exact hst
  rw [sink_eq, loop_stopped ((stopped_iff ..).2 (.inr (.inr hst)))]
  refine ⟨?_, rfl⟩
  unfold ended
  cases d with
  | nil => simp [hst]
  | cons c d => simp [h.sectors, hst]

theorem AtAdf.tracks_run (h : l.AtAdf slot i) (p : Psram) (d : Bytes) (hn : i + n = wfadTracks) :
    ((l.sink p d).1.st = .eof ↔ d.length = n * (geometry slot * 512)) ∧
      (d.length = n * (geometry slot * 512) →
        (l.sink p d).2 = p.putAll slot i (adfTracks (geometry slot * 512) n d)) := by
  induction n generalizing l p d i with
  | zero =>
    obtain ⟨hend, hp⟩ := h.over (by omega) p d
    rw [Nat.zero_mul, List.length_eq_zero_iff]
    exact ⟨hend, fun _ => hp⟩
  | succ n ih =>
    have hi : i < wfadTracks := by omega
    by_cases hlen : geometry slot * 512 ≤ d.length
    · obtain ⟨l', h', heq⟩ := h.track_run hi p hlen
      obtain ⟨hend, hp⟩ := ih h' (p.put slot i (geometry slot * 512 * 8)
        (d.take (geometry slot * 512))) (d.drop (geometry slot * 512)) (by omega)
      rw [heq, hend, List.length_drop]
      have hsub : d.length - geometry slot * 512 = n * (geometry slot * 512) ↔
          d.length = (n + 1) * (geometry slot * 512) := by
        rw [Nat.succ_mul]
        omega
      refine ⟨hsub, fun hd => ?_⟩
      rw [hp (by rw [List.length_drop]; exact hsub.2 hd)]
      rfl
    · have hshort := sink_short h.ready p (d := d) (by rw [h.want hi]; omega)
      have hst : l.st = .payload := by
        rcases h.st with ⟨-, hst⟩ | ⟨hle, -⟩
        · exact hst
        · omega
      have hne : d.length ≠ (n + 1) * (geometry slot * 512) := by
        rw [Nat.succ_mul]
        omega
      rw [hshort, hst]
      exact ⟨⟨nofun, fun hd => absurd hd hne⟩, fun hd => absurd hd hne⟩

end Loader

end WebAdf.TrackCache
