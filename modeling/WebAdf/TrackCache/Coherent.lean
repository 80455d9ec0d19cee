import WebAdf.Lib.Run
import WebAdf.TrackCache.PsramLaws

/-!
# The track cache is transparent

What a get returns is the published slot's track as it is then, as long as no
word was made twice. The buffer returned last is never the one filled next.
-/

namespace WebAdf.TrackCache

open Lib Firmware

/-- The bits a buffer holds. -/
def SramBuf.stream (b : SramBuf) : Nat × Bytes := (b.bitCount, b.data.take ((b.bitCount + 7) / 8))

-- ---------------------------------------------------------------------------
-- A get
-- ---------------------------------------------------------------------------

theorem haveTrack_true {p : Psram} (h : p.haveTrack slot track = true) :
    p.slotOk slot = true ∧ Psram.inRange track = true := by
  unfold Psram.haveTrack Psram.trackState at h
  split at h
  · rename_i husable
    simp only [Psram.usable, Bool.and_eq_true] at husable
    exact ⟨husable.1.2, husable.2⟩
  · cases h

/-- An encoded track is the clocked track, over whatever the buffer held. -/
theorem encoded (hnsec : Density nsec) (p : Psram) (slot : Nat) (htrack : Psram.inRange track)
    (out : Bytes) :
    ∃ data, adfMfmEncodeTrack (p.bytes slot track (nsec * sectorDataBytes)) nsec track.toNat out =
        (data, adfMfmTrackBytes nsec) ∧ adfMfmTrackBytes nsec ≠ 0 ∧
      data.take (adfMfmTrackBytes nsec) = clockedTrack nsec (UInt8.ofNat track.toNat)
        (p.bytes slot track (nsec * sectorDataBytes)) := by
  have hdata : (p.bytes slot track (nsec * sectorDataBytes)).length = nsec * sectorDataBytes := by
    simp [Psram.bytes]
  have ht : track.toNat < tracks := by
    simp only [Psram.inRange, Bool.and_eq_true, decide_eq_true_eq] at htrack
    omega
  refine ⟨_, adfMfmEncodeTrack_eq hnsec hdata ht, ?_, ?_⟩
  · obtain rfl | rfl := hnsec
    · decide
    · decide
  · have hlen : (clockedTrack nsec (UInt8.ofNat track.toNat)
        (p.bytes slot track (nsec * sectorDataBytes))).length = adfMfmTrackBytes nsec := by
      rw [clockedTrack, length_clock, Adfmfm.length_rawTrack hdata, hnsec.trackBytes]
    rw [← hlen, List.take_left]

/-- A fill renders what the slot holds. -/
theorem render_stream (p : Psram) (slot : Nat) (track : Int) (out : Bytes) :
    (Cache.render p slot track out).2.map
      (fun n => (n, (Cache.render p slot track out).1.take ((n + 7) / 8))) =
    p.slotStream track slot := by
  cases hhave : p.haveTrack slot track with
  | false =>
    have hread : p.read slot track = none := by simp [Psram.read, hhave]
    unfold Cache.render
    dsimp only
    split
    · simp [hhave, Psram.slotStream]
    · simp [hread, hhave, Psram.slotStream]
  | true =>
    obtain ⟨hok, htrack⟩ := haveTrack_true hhave
    have hkind : p.slotKind slot = p.kind slot := if_pos hok
    cases hk : p.kind slot with
    | adfHd =>
      obtain ⟨data, henc, hpos, htake⟩ := encoded (.inr rfl) p slot htrack out
      have hrender : Cache.render p slot track out = (data, some adfMfmHdTrackBits) := by
        simp [Cache.render, hkind, hk, hhave, henc, hpos]
      rw [hrender]
      simp only [Psram.slotStream, hhave, hk]
      exact congrArg (fun d => some (adfMfmHdTrackBits, d)) htake
    | adfDd =>
      obtain ⟨data, henc, hpos, htake⟩ := encoded (.inl rfl) p slot htrack out
      have hrender : Cache.render p slot track out = (data, some (Adfmfm.trackBytes * 8)) := by
        simp [Cache.render, hkind, hk, hhave, henc, hpos]
      rw [hrender]
      simp only [Psram.slotStream, hhave, hk]
      exact congrArg (fun d => some (Adfmfm.trackBits, d)) htake
    | mfm =>
      by_cases hmax : (p.bits slot track + 7) / 8 > trackMaxBytes
      · simp [Cache.render, hkind, hk, Psram.read, hhave, Psram.slotStream, hmax]
      · have hlen : (p.bytes slot track ((p.bits slot track + 7) / 8)).length =
            (p.bits slot track + 7) / 8 := by
          simp [Psram.bytes]
        simp [Cache.render, hkind, hk, Psram.read, hhave, Psram.slotStream, hmax, blit, hlen]

/-- The buffers of the track under the token hold what its disk holds. -/
def Cache.Coherent (c : Cache) (p : Psram) (token : Nat) (track : Int) : Prop :=
  ∀ i, (c.buf i).token = token → (c.buf i).track = track →
    p.stream token track = some (c.buf i).stream

theorem hit_some (h : Cache.hit c token track = some i) :
    (c.buf i).track = track ∧ (c.buf i).token = token := by
  have hp := List.find?_some h
  simpa using hp

/-- What a get does: nothing but to the idle buffer, where the track is not
there; else it finds a buffer with it, or fills the idle one. -/
theorem getToken_cases (hc : 0 ≤ track → Cache.Coherent c p token track) :
    (∃ b, (b = c.buf (c.active ^^^ 1) ∨ b.track = -1 ∧ b.token = (c.buf (c.active ^^^ 1)).token) ∧
      c.getToken p token track = (c.setBuf (c.active ^^^ 1) b, none) ∧
      p.stream token track = none) ∨
    (∃ i, (c.buf i).token = token ∧ (c.buf i).track = track ∧
      c.getToken p token track = ({ c with active := i }, some (i, (c.buf i).bitCount)) ∧
      p.stream token track = some (c.buf i).stream) ∨
    ∃ b : SramBuf, b.token = token ∧ b.track = track ∧
      c.getToken p token track =
        ({ c.setBuf (c.active ^^^ 1) b with active := c.active ^^^ 1 },
          some (c.active ^^^ 1, b.bitCount)) ∧
      p.stream token track = some b.stream := by
  have hself : c = c.setBuf (c.active ^^^ 1) (c.buf (c.active ^^^ 1)) := by
    rw [Cache.setBuf, Function.update_eq_self]
  unfold Cache.getToken
  split
  · rename_i hrange
    refine .inl ⟨_, .inl rfl, congrArg (·, none) hself, ?_⟩
    have hout : Psram.inRange track = false := by
      simp only [Psram.inRange, Bool.and_eq_false_iff, decide_eq_false_iff_not]
      omega
    unfold Psram.stream
    cases slotOfWord token with
    | none => rfl
    | some slot =>
      simp [Psram.slotStream, Psram.haveTrack, Psram.trackState, Psram.usable, hout]
  · rename_i hrange
    cases hslot : slotOfWord token with
    | none => exact .inl ⟨_, .inl rfl, congrArg (·, none) hself, by simp [Psram.stream, hslot]⟩
    | some slot =>
      dsimp only
      cases hhit : c.hit token track with
      | some i =>
        obtain ⟨htrack, htoken⟩ := hit_some hhit
        exact .inr (.inl ⟨i, htoken, htrack, rfl, hc (by omega) i htoken htrack⟩)
      | none =>
        have hrender := render_stream p slot track (c.buf (c.active ^^^ 1)).data
        have hstream : p.stream token track = p.slotStream track slot := by
          rw [Psram.stream, hslot, Option.bind_some]
        rw [hstream, ← hrender]
        dsimp only
        simp only [Cache.fill]
        generalize Cache.render p slot track (c.buf (c.active ^^^ 1)).data = r
        obtain ⟨data, bitCount⟩ := r
        cases bitCount with
        | none =>
          exact .inl ⟨{ c.buf (c.active ^^^ 1) with track := -1, data := data }, .inr ⟨rfl, rfl⟩,
            rfl, rfl⟩
        | some bitCount => exact .inr (.inr ⟨⟨token, track, bitCount, data⟩, rfl, rfl, rfl, rfl⟩)

theorem xor_one_ne (i : Fin 2) : i ^^^ 1 ≠ i := by
  revert i
  decide

/-- The active buffer is left alone, and becomes another only by being returned. -/
theorem getToken_spared (c : Cache) (p : Psram) (token : Nat) (track : Int) :
    (c.getToken p token track).1.buf c.active = c.buf c.active ∧
      (c.getToken p token track).1.active =
        ((c.getToken p token track).2.map Prod.fst).getD c.active := by
  have hidle (b : SramBuf) : (c.setBuf (c.active ^^^ 1) b).buf c.active = c.buf c.active :=
    Function.update_of_ne (xor_one_ne _).symm ..
  unfold Cache.getToken
  split
  · exact ⟨rfl, rfl⟩
  · cases slotOfWord token with
    | none => exact ⟨rfl, rfl⟩
    | some slot =>
      dsimp only
      cases c.hit token track with
      | some i => exact ⟨rfl, rfl⟩
      | none =>
        simp only [Cache.fill]
        generalize Cache.render p slot track (c.buf (c.active ^^^ 1)).data = r
        obtain ⟨data, bitCount⟩ := r
        cases bitCount with
        | none => exact ⟨hidle _, rfl⟩
        | some bitCount => exact ⟨hidle _, rfl⟩

-- ---------------------------------------------------------------------------
-- The invariant
-- ---------------------------------------------------------------------------

structure Inv (s : State) : Prop where
  live : ∀ token, s.psram.Live token → token < 8 * (s.psram.gGen + 1)
  tags : ∀ i, (s.cache.buf i).token < 8 * (s.psram.gGen + 1)
  fresh : ∀ token, s.psram.Live token → ∀ track, 0 ≤ track → s.cache.Coherent s.psram token track

theorem Boot.inv (h : Boot s) : Inv s := by
  obtain ⟨hcache, -, -, -, -, -, hactive, hdf1, hack⟩ := h
  refine ⟨?_, ?_, ?_⟩
  · rintro token (rfl | rfl | rfl)
    · omega
    · omega
    · omega
  · intro i
    rw [hcache]
    exact Nat.succ_pos _
  · intro token _ track hpos i _ ht
    rw [hcache] at ht
    simp only [Cache.init] at ht
    omega

/-- The tracks stay as they are, for what core 0 may read. -/
theorem Inv.kept (h : Inv s) (hgen : p.gGen = s.psram.gGen)
    (hlive : ∀ token, p.Live token → s.psram.Live token)
    (hsame : ∀ token slot, s.psram.Live token → slotOfWord token = some slot →
      ∀ track, Same s.psram p slot track) : Inv { s with psram := p } := by
  refine ⟨fun token ht => ?_, fun i => ?_, fun token ht track hpos i hi htrack => ?_⟩
  · rw [hgen]
    exact h.live token (hlive token ht)
  · rw [hgen]
    exact h.tags i
  · have hold := h.fresh token (hlive token ht) track hpos i hi htrack
    rw [← hold]
    exact Same.stream fun slot hslot => hsame token slot (hlive token ht) hslot track

theorem Inv.published (h : Inv s) (hp : Published s.psram p) (hgen : p.gGen < 2 ^ 29) :
    Inv { s with psram := p } := by
  have hle := hp.gen
  refine ⟨fun token ht => ?_, fun i => ?_, fun token ht track hpos i hi htrack => ?_⟩
  · rcases hp.below token ht with hold | hlt
    · have := h.live token hold
      dsimp only
      omega
    · exact hlt
  · have := h.tags i
    dsimp only
    omega
  · rcases hp.fresh hgen token ht with hold | hnew
    · rw [← h.fresh token hold track hpos i hi htrack]
      exact Same.stream fun slot _ => hp.same slot track
    · -- no buffer is tagged with a new word
      have := h.tags i
      dsimp only at hi
      omega

/-- What a get returns: the bit count and the bits of the buffer. -/
def State.got (s : State) (token : Nat) (track : Int) : Option (Nat × Bytes) :=
  let r := s.cache.getToken s.psram token track
  r.2.map fun b => (b.2, (r.1.buf b.1).data.take ((b.2 + 7) / 8))

/-- A get returns the track, and leaves the buffers coherent. -/
theorem Inv.get (h : Inv s) (hlive : s.psram.Live token) (track : Int) :
    Inv (s.serve token track) ∧ s.got token track = s.psram.stream token track := by
  have hbuf (b : SramBuf) (i : Fin 2) : (s.cache.setBuf (s.cache.active ^^^ 1) b).buf i = b ∨
      (s.cache.setBuf (s.cache.active ^^^ 1) b).buf i = s.cache.buf i := by
    by_cases hi : i = s.cache.active ^^^ 1
    · subst hi
      exact .inl (Function.update_self ..)
    · exact .inr (Function.update_of_ne hi ..)
  unfold State.serve State.got
  rcases getToken_cases (h.fresh token hlive track) with
    ⟨b, hb, hget, hnone⟩ | ⟨i, -, -, hget, hsome⟩ | ⟨b, htoken, htrack, hget, hsome⟩
  · rw [hget, hnone]
    refine ⟨⟨h.live, fun i => ?_, fun token' ht track' hpos i hi htrack => ?_⟩, rfl⟩
    · rcases hbuf b i with hi | hi
      · rw [hi]
        rcases hb with rfl | ⟨-, hb⟩
        · exact h.tags _
        · exact hb ▸ h.tags _
      · rw [hi]
        exact h.tags i
    · rcases hbuf b i with heq | heq
      · rw [heq] at hi htrack ⊢
        rcases hb with rfl | ⟨hb, -⟩
        · exact h.fresh token' ht track' hpos _ hi htrack
        · omega
      · rw [heq] at hi htrack ⊢
        exact h.fresh token' ht track' hpos i hi htrack
  · rw [hget, hsome]
    exact ⟨⟨h.live, h.tags, h.fresh⟩, rfl⟩
  · rw [hget, hsome]
    refine ⟨⟨h.live, fun i => ?_, fun token' ht track' hpos i hi htrack' => ?_⟩, ?_⟩
    · dsimp only
      rcases hbuf b i with hi | hi
      · rw [hi, htoken]
        exact h.live token hlive
      · rw [hi]
        exact h.tags i
    · dsimp only at hi htrack' ⊢
      rcases hbuf b i with heq | heq
      · rw [heq] at hi htrack' ⊢
        rw [← hi, ← htrack', htoken, htrack]
        exact hsome
      · rw [heq] at hi htrack' ⊢
        exact h.fresh token' ht track' hpos i hi htrack'
    · simp [Cache.setBuf, SramBuf.stream]

/-- A write that lands drops the buffers of its track; the others are of tracks
it does not touch. -/
theorem Inv.apply (h : Inv s) (slot : Nat) (track : Int) (adf : Bytes) :
    Inv { s with
      psram := (writeBackApply s.psram slot track adf).1
      cache := if (writeBackApply s.psram slot track adf).2 then s.cache.invalidate track
        else s.cache } := by
  have hwords := sameWords_writeBackApply s.psram slot track adf
  obtain ⟨hsame, hfailed⟩ := writeBackApply_same s.psram slot track adf
  cases hok : (writeBackApply s.psram slot track adf).2 with
  | false =>
    rw [hfailed hok]
    exact h
  | true =>
    refine ⟨fun token ht => ?_, fun i => ?_, fun token ht track' hpos i hi htrack => ?_⟩
    · dsimp only
      rw [hwords.gen]
      exact h.live token (hwords.live ht)
    · dsimp only
      rw [hwords.gen, if_pos rfl]
      have htags := h.tags i
      unfold Cache.invalidate
      dsimp only
      split <;> exact htags
    · dsimp only at hi htrack ⊢
      rw [if_pos rfl] at hi htrack ⊢
      unfold Cache.invalidate at hi htrack ⊢
      dsimp only at hi htrack ⊢
      split at htrack
      · simp only at htrack
        omega
      · rename_i hother
        rw [if_neg hother] at hi ⊢
        rw [← h.fresh token (hwords.live ht) track' hpos i hi htrack]
        exact Same.stream fun slot' _ => hsame slot' track' (.inr fun heq => hother (heq ▸ htrack))

/-- A step keeps the invariant, as long as every word is a new one. -/
theorem step_inv (h : step s a = some t) (hgen : t.psram.gGen < 2 ^ 29) (hi : Inv s) : Inv t := by
  cases a with
  | load slot op =>
    simp only [step, Option.ite_none_right_eq_some, Option.some.injEq] at h
    obtain ⟨hfree, rfl⟩ := h
    simp only [Psram.unpublished, Psram.activeSlot, Psram.df1Slot, Psram.df1Quiescent,
      Bool.and_eq_true, bne_iff_ne, beq_iff_eq] at hfree
    obtain ⟨⟨hactive, hdf1⟩, hack⟩ := hfree
    have hwords := sameWords_load s.psram slot op
    refine hi.kept hwords.gen (fun token ht => hwords.live ht) ?_
    rintro token slot' hlive hslot track
    refine same_load s.psram op ?_
    rintro rfl
    rcases hlive with rfl | rfl | rfl
    · exact hactive hslot
    · exact hdf1 hslot
    · rw [hack] at hslot
      exact hdf1 hslot
  | publish slot =>
    obtain rfl := Option.some.inj h
    exact hi.published (published_slot _ slot) hgen
  | publishDf1 slot =>
    obtain rfl := Option.some.inj h
    exact hi.published (published_publishDf1 _ slot) hgen
  | ackDf1 =>
    obtain rfl := Option.some.inj h
    refine hi.kept rfl ?_ fun token slot _ _ track => ⟨rfl, rfl, rfl, rfl, rfl, .rfl⟩
    rintro token (rfl | rfl | rfl)
    · exact .inl rfl
    · exact .inr (.inl rfl)
    · exact .inr (.inl rfl)
  | apply track adfTrack =>
    simp only [step, Option.map_eq_some_iff] at h
    obtain ⟨slot, -, rfl⟩ := h
    exact hi.apply slot track adfTrack
  | get track =>
    obtain rfl := Option.some.inj h
    exact (hi.get (.inl rfl) track).1
  | getDf1 track =>
    obtain rfl := Option.some.inj h
    exact (hi.get (.inr (.inr rfl)) track).1
  | clearDirty slot track =>
    obtain rfl := Option.some.inj h
    have hwords := sameWords_clearDirty s.psram slot track
    exact hi.kept hwords.gen (fun _ ht => hwords.live ht) fun _ _ _ _ _ => same_clearDirty ..
  | setDirty slot track =>
    obtain rfl := Option.some.inj h
    have hwords := sameWords_setDirty s.psram slot track
    exact hi.kept hwords.gen (fun _ ht => hwords.live ht) fun _ _ _ _ _ => same_setDirty ..
  | discardDirty slot =>
    obtain rfl := Option.some.inj h
    have hwords := sameWords_discardDirty s.psram slot
    exact hi.kept hwords.gen (fun _ ht => hwords.live ht) fun _ _ _ _ _ => same_discardDirty ..

/-- The generation only grows. -/
theorem step_gen (h : step s a = some t) : s.psram.gGen ≤ t.psram.gGen := by
  cases a with
  | load slot op =>
    simp only [step, Option.ite_none_right_eq_some, Option.some.injEq] at h
    obtain ⟨-, rfl⟩ := h
    exact Nat.le_of_eq (sameWords_load s.psram slot op).gen.symm
  | publish slot =>
    obtain rfl := Option.some.inj h
    exact (published_slot _ slot).gen
  | publishDf1 slot =>
    obtain rfl := Option.some.inj h
    exact (published_publishDf1 _ slot).gen
  | ackDf1 =>
    obtain rfl := Option.some.inj h
    exact Nat.le_refl _
  | apply track adfTrack =>
    simp only [step, Option.map_eq_some_iff] at h
    obtain ⟨slot, -, rfl⟩ := h
    exact Nat.le_of_eq (sameWords_writeBackApply s.psram slot track adfTrack).gen.symm
  | get track =>
    obtain rfl := Option.some.inj h
    unfold State.serve
    split <;> exact Nat.le_refl _
  | getDf1 track =>
    obtain rfl := Option.some.inj h
    unfold State.serve
    split <;> exact Nat.le_refl _
  | clearDirty slot track =>
    obtain rfl := Option.some.inj h
    exact Nat.le_of_eq (sameWords_clearDirty s.psram slot track).gen.symm
  | setDirty slot track =>
    obtain rfl := Option.some.inj h
    exact Nat.le_of_eq (sameWords_setDirty s.psram slot track).gen.symm
  | discardDirty slot =>
    obtain rfl := Option.some.inj h
    exact Nat.le_of_eq (sameWords_discardDirty s.psram slot).gen.symm

theorem reaches_inv (h : Reaches s t) (hgen : t.psram.gGen < 2 ^ 29) (hi : Inv s) : Inv t := by
  induction h with
  | refl => exact hi
  | tail _ hstep ih =>
    obtain ⟨a, hstep⟩ := hstep
    have hle := step_gen hstep
    exact step_inv hstep hgen (ih (Nat.lt_of_le_of_lt hle hgen))

-- ---------------------------------------------------------------------------
-- The buffer returned last
-- ---------------------------------------------------------------------------

/-- The buffer returned last is the active one. -/
def State.Last (s : State) : Prop := ∀ i, s.last = some i → s.cache.active = i

theorem serve_last {s : State} (h : s.Last) (token : Nat) (track : Int) :
    (s.serve token track).Last ∧
      ∀ i, s.last = some i → (s.serve token track).cache.buf i = s.cache.buf i := by
  obtain ⟨hbuf, hactive⟩ := getToken_spared s.cache s.psram token track
  unfold State.serve
  generalize s.cache.getToken s.psram token track = r at hbuf hactive
  obtain ⟨c, b⟩ := r
  have hspared (i : Fin 2) (hi : s.last = some i) : c.buf i = s.cache.buf i := h i hi ▸ hbuf
  cases b with
  | none => exact ⟨fun i hi => hactive.trans (h i hi), hspared⟩
  | some b => exact ⟨fun i hi => hactive.trans (Option.some.inj hi), hspared⟩

/-- No step writes over the buffer returned last. -/
theorem step_last (h : step s a = some t) (hl : s.Last) :
    t.Last ∧ ∀ i, s.last = some i →
      (t.cache.buf i).bitCount = (s.cache.buf i).bitCount ∧
        (t.cache.buf i).data = (s.cache.buf i).data := by
  have hserve (token : Nat) (track : Int) : (s.serve token track).Last ∧ ∀ i, s.last = some i →
      ((s.serve token track).cache.buf i).bitCount = (s.cache.buf i).bitCount ∧
        ((s.serve token track).cache.buf i).data = (s.cache.buf i).data := by
    obtain ⟨hlast, hbuf⟩ := serve_last hl token track
    exact ⟨hlast, fun i hi => ⟨congrArg _ (hbuf i hi), congrArg _ (hbuf i hi)⟩⟩
  cases a with
  | get track =>
    obtain rfl := Option.some.inj h
    exact hserve s.psram.activeWord track
  | getDf1 track =>
    obtain rfl := Option.some.inj h
    exact hserve s.psram.df1ReaderAck track
  | apply track adfTrack =>
    simp only [step, Option.map_eq_some_iff] at h
    obtain ⟨slot, -, rfl⟩ := h
    refine ⟨fun i hi => ?_, fun i _ => ?_⟩
    · dsimp only
      split
      · exact hl i hi
      · exact hl i hi
    · dsimp only
      split
      · unfold Cache.invalidate
        dsimp only
        split <;> exact ⟨rfl, rfl⟩
      · exact ⟨rfl, rfl⟩
  | load slot op =>
    simp only [step, Option.ite_none_right_eq_some, Option.some.injEq] at h
    obtain ⟨-, rfl⟩ := h
    exact ⟨hl, fun _ _ => ⟨rfl, rfl⟩⟩
  | _ =>
    obtain rfl := Option.some.inj h
    exact ⟨hl, fun _ _ => ⟨rfl, rfl⟩⟩

theorem reaches_last (h : Reaches s t) (hl : s.Last) : t.Last :=
  invariant_run (fun _ _ ⟨_, hstep⟩ hl => (step_last hstep hl).1) h hl

/-- What a get returns is the track the published word's disk holds then, as
long as every word was a new one; and nothing overwrites the buffer before
another get has returned. -/
theorem cache_transparent (hboot : Boot s₀) (h : Reaches s₀ s) :
    (s.psram.gGen < 2 ^ 29 → ∀ track,
      s.got s.psram.activeWord track = s.psram.stream s.psram.activeWord track ∧
        s.got s.psram.df1ReaderAck track = s.psram.stream s.psram.df1ReaderAck track) ∧
    ∀ a t i, step s a = some t → s.last = some i →
      (t.cache.buf i).bitCount = (s.cache.buf i).bitCount ∧
        (t.cache.buf i).data = (s.cache.buf i).data := by
  constructor
  · intro hgen track
    have hi := reaches_inv h hgen hboot.inv
    exact ⟨(hi.get (.inl rfl) track).2, (hi.get (.inr (.inr rfl)) track).2⟩
  · intro a t i hstep hlast
    have hl : s₀.Last := fun i hi => by
      rw [hboot.last] at hi
      cases hi
    exact (step_last hstep (reaches_last h hl)).2 i hlast

/-- A board with memory and nothing mounted. -/
def bootState : State where
  psram :=
    { mem := fun _ _ _ => 0, bits := fun _ _ => 0, state := fun _ _ => .absent, kind := fun _ => .mfm
      havePsram := true, haveNet := true, gGen := 0, activeWord := 0, df1Word := 0
      df1ReaderAck := 0 }
  cache := Cache.init
  last := none

theorem bootState_boot : Boot bootState :=
  ⟨rfl, rfl, fun _ _ => rfl, fun _ _ => rfl, fun _ => rfl, rfl, rfl, rfl, rfl⟩

/-- Track 0 of slot 0 loaded with one byte. -/
def Psram.loaded (p : Psram) (x : UInt8) : Psram := (p.writeAt 0 0 0 [x]).commit 0 0 8

theorem load_one {s : State} (hfree : s.psram.unpublished 0 = true) (x : UInt8) :
    Reaches s { s with psram := s.psram.loaded x } := by
  have hwrite : step s (.load 0 (.writeAt 0 0 [x])) =
      some { s with psram := s.psram.writeAt 0 0 0 [x] } := if_pos hfree
  have hwords := sameWords_load s.psram 0 (.writeAt 0 0 [x])
  have hfree' : (s.psram.writeAt 0 0 0 [x]).unpublished 0 = true := by
    simp only [LoadOp.run] at hwords
    simpa only [Psram.unpublished, Psram.activeSlot, Psram.df1Slot, Psram.df1Quiescent,
      hwords.active, hwords.df1, hwords.ack] using hfree
  have hcommit : step { s with psram := s.psram.writeAt 0 0 0 [x] } (.load 0 (.commit 0 8)) =
      some { s with psram := s.psram.loaded x } := if_pos hfree'
  exact .head ⟨_, hwrite⟩ (.single ⟨_, hcommit⟩)

/-- A disk of one byte is loaded and mounted; the get returns the byte. -/
theorem cache_transparent_one :
    ∃ s, Boot bootState ∧ Reaches bootState s ∧ s.got s.psram.activeWord 0 = some (8, [0xaa]) := by
  let s : State := { bootState with psram := (bootState.psram.loaded 0xaa).publishSlot (some 0) }
  have hload : Reaches bootState { bootState with psram := bootState.psram.loaded 0xaa } :=
    load_one rfl 0xaa
  have hrun : Reaches bootState s := hload.tail ⟨.publish (some 0), rfl⟩
  have hgot := ((cache_transparent bootState_boot hrun).1 (by decide) 0).1
  exact ⟨s, bootState_boot, hrun, hgot.trans (by decide)⟩

theorem eject_many (hdf1 : s.psram.df1Word = 0) (n : Nat) :
    Reaches s { s with psram := { s.psram with
      gGen := s.psram.gGen + (n + 1), activeWord := packWord (s.psram.gGen + (n + 1)) none } } := by
  have heject (t : State) (ht : t.psram.df1Word = 0) : step t (.publish none) =
      some { t with psram := { t.psram with
        gGen := t.psram.gGen + 1, activeWord := packWord (t.psram.gGen + 1) none } } := by
    have hnone : t.psram.df1Slot = none := by rw [Psram.df1Slot, ht]; rfl
    simp [step, Psram.publishSlot, Psram.releaseDf1, hnone]
  induction n with
  | zero => exact .single ⟨.publish none, heject s hdf1⟩
  | succ n ih => exact ih.tail ⟨.publish none, heject _ hdf1⟩

/-- A get that finds the track leaves a buffer that has it. -/
theorem serve_cached (hi : Inv s) (hlive : s.psram.Live token)
    (hsome : s.psram.stream token track = some x) :
    ∃ i, ((s.serve token track).cache.buf i).token = token ∧
      ((s.serve token track).cache.buf i).track = track := by
  unfold State.serve
  rcases getToken_cases (hi.fresh token hlive track) with
    ⟨b, -, -, hnone⟩ | ⟨i, htoken, htrack, hget, -⟩ | ⟨b, htoken, htrack, hget, -⟩
  · rw [hnone] at hsome
    cases hsome
  · rw [hget]
    exact ⟨i, htoken, htrack⟩
  · rw [hget]
    exact ⟨s.cache.active ^^^ 1, by simp [Cache.setBuf, htoken, htrack]⟩

/-- A buffer with the tag is what a get returns, whatever is in PSRAM. -/
theorem got_tagged {s : State} {track : Int} (hrange : 0 ≤ track ∧ track < tracks)
    (hslot : slotOfWord token = some slot)
    (htag : ∃ i, (s.cache.buf i).token = token ∧ (s.cache.buf i).track = track)
    (hall : ∀ i, (s.cache.buf i).token = token → (s.cache.buf i).track = track →
      (s.cache.buf i).stream = x) : s.got token track = some x := by
  have hin : ¬ (track < 0 ∨ track ≥ tracks) := by omega
  have hmem : ∀ j : Fin 2, j ∈ ([0, 1] : List (Fin 2)) := by decide
  obtain ⟨j, htoken, htrack⟩ := htag
  cases hhit : s.cache.hit token track with
  | none =>
    have hnone := List.find?_eq_none.mp hhit j (hmem j)
    simp [htoken, htrack] at hnone
  | some i =>
    obtain ⟨htrack', htoken'⟩ := hit_some hhit
    have hget : s.cache.getToken s.psram token track =
        ({ s.cache with active := i }, some (i, (s.cache.buf i).bitCount)) := by
      rw [Cache.getToken, if_neg hin, hslot]
      simp only [hhit]
    rw [State.got, hget]
    exact congrArg some (hall i htoken' htrack')

/-- A disk is read, ejected, and after 2^29 words another one in its slot has the
word the first had. -/
theorem word_repeats :
    ¬ ∀ s₀ s, Boot s₀ → Reaches s₀ s → ∀ track,
      s.got s.psram.activeWord track = s.psram.stream s.psram.activeWord track := by
  intro hall
  let p₁ := (bootState.psram.loaded 0xaa).publishSlot (some 0)
  let s₁ : State := { bootState with psram := p₁ }
  have hrun₁ : Reaches bootState s₁ :=
    (load_one rfl 0xaa).tail ⟨.publish (some 0), rfl⟩
  have hi : Inv s₁ := reaches_inv hrun₁ (by decide) bootState_boot.inv
  have hstream : s₁.psram.stream s₁.psram.activeWord 0 = some (8, [0xaa]) := by decide
  let s₂ := s₁.serve s₁.psram.activeWord 0
  have hrun₂ : Reaches bootState s₂ := hrun₁.tail ⟨.get 0, rfl⟩
  have hi₂ : Inv s₂ := (hi.get (.inl rfl) 0).1
  have hpsram : s₂.psram = p₁ := by
    simp only [s₂, State.serve]
    split <;> rfl
  have htag := serve_cached hi (.inl rfl) hstream
  -- 2^29 words on, the generation's bits are those of the first publish
  let p₃ : Psram := { p₁ with gGen := 2 ^ 29, activeWord := 0 }
  have hejects := eject_many (s := s₂) (hpsram ▸ rfl) (2 ^ 29 - 2)
  have hgen : p₁.gGen + (2 ^ 29 - 2 + 1) = 2 ^ 29 := by decide
  have hword₀ : packWord (2 ^ 29) none = 0 := by decide
  rw [hpsram, hgen, hword₀] at hejects
  have hrun₃ : Reaches bootState { s₂ with psram := p₃ } := hrun₂.trans hejects
  have hrun₄ : Reaches bootState { s₂ with psram := p₃.loaded 0x55 } :=
    hrun₃.trans (load_one (s := { s₂ with psram := p₃ }) (by decide) 0x55)
  let s₅ : State := { s₂ with psram := (p₃.loaded 0x55).publishSlot (some 0) }
  have hrun₅ : Reaches bootState s₅ := hrun₄.tail ⟨.publish (some 0), rfl⟩
  have hword : s₅.psram.activeWord = s₁.psram.activeWord := by decide
  have hstream₅ : s₅.psram.stream s₅.psram.activeWord 0 = some (8, [0x55]) := by decide
  have hgot : s₅.got s₅.psram.activeWord 0 = some (8, [0xaa]) := by
    rw [hword]
    refine got_tagged (by decide) (show slotOfWord s₁.psram.activeWord = some 0 by decide) htag
      fun i htoken htrack => ?_
    have hlive : s₂.psram.Live s₁.psram.activeWord := .inl (hpsram ▸ rfl)
    have hfresh := hi₂.fresh _ hlive 0 (Int.le_refl 0) i htoken htrack
    rw [hpsram] at hfresh
    exact (Option.some.inj (hstream.symm.trans hfresh)).symm
  have hsame := hall _ s₅ bootState_boot hrun₅ 0
  rw [hgot, hstream₅] at hsame
  exact absurd hsame (by decide)

end WebAdf.TrackCache
