import WebAdf.Uploading.Inv

/-!
# No dirty track is forgotten

Step by step: what the answers do to the flags, what the server does to the
rows, and the run.
-/

namespace WebAdf.Uploading

open Lib TrackCache DeviceWrite

section
variable {σ : Type}

-- ---------------------------------------------------------------------------
-- Flags
-- ---------------------------------------------------------------------------

/-- Flags are set, and none is cleared. -/
structure Dirtier (b b' : Board σ) : Prop where
  turn : Turn b b'
  dirty : ∀ t, b.dirty t = true → b'.dirty t = true

theorem Dirtier.trans {b b' b'' : Board σ} (h : Dirtier b b') (h' : Dirtier b' b'') : Dirtier b b'' :=
  ⟨h.turn.trans h'.turn, fun t hd => h'.dirty t (h.dirty t hd)⟩

theorem setDirty_dirtier (b : Board σ) (t : Nat) : Dirtier b (b.setDirty t) :=
  ⟨⟨rfl, rfl, fun _ => same_setDirty ..⟩, fun t' => (dirtyAt_setDirty b.psram b.slot t).2 b.slot t'⟩

theorem setDirty_dirty {b : Board σ} {t : Nat} (h : b.psram.haveTrack b.slot t = true) :
    (b.setDirty t).dirty t = true :=
  (dirtyAt_setDirty b.psram b.slot t).1 h

theorem foldl_setDirty (sent : Nat → Bool) (slot : Nat) (ts : List Nat) (p : Psram) :
    let q := ts.foldl (fun p t => if sent t then p.setDirty slot t else p) p
    (∀ t : Nat, Same p q slot t) ∧ (∀ t, dirtyAt p slot t = true → dirtyAt q slot t = true) ∧
      ∀ t ∈ ts, sent t = true → p.haveTrack slot t = true → dirtyAt q slot t = true := by
  induction ts generalizing p with
  | nil => exact ⟨fun _ => .refl .., fun _ hd => hd, fun t ht => absurd ht (by simp)⟩
  | cons t ts ih =>
    have hone : ∀ q : Psram, q = (if sent t then p.setDirty slot t else p) →
        (∀ i : Nat, Same p q slot i) ∧ (∀ i, dirtyAt p slot i = true → dirtyAt q slot i = true) ∧
          (sent t = true → p.haveTrack slot t = true → dirtyAt q slot t = true) := by
      rintro q rfl
      split
      · exact ⟨fun _ => same_setDirty .., (dirtyAt_setDirty p slot t).2 slot,
          fun _ hhave => (dirtyAt_setDirty p slot t).1 hhave⟩
      · rename_i hno
        exact ⟨fun _ => .refl .., fun _ hd => hd, fun hsent => absurd hsent hno⟩
    obtain ⟨hsame, hmono, hset⟩ := hone _ rfl
    obtain ⟨hsame', hmono', hset'⟩ := ih (if sent t then p.setDirty slot t else p)
    refine ⟨fun i => (hsame i).trans (hsame' i), fun i hd => hmono' i (hmono i hd), fun i hi => ?_⟩
    intro hsent hhave
    rcases List.mem_cons.mp hi with rfl | hi
    · exact hmono' _ (hset hsent hhave)
    · exact hset' i hi hsent ((hsame i).haveTrack.trans hhave)

theorem redirty_dirtier (b : Board σ) : Dirtier b b.redirty := by
  obtain ⟨hsame, hmono, -⟩ := foldl_setDirty b.up.sent b.slot (List.range tracks) b.psram
  exact ⟨⟨rfl, rfl, hsame⟩, hmono⟩

theorem redirty_sent {b : Board σ} (hc : Complete b.psram b.slot) (ht : t < tracks)
    (hs : b.up.sent t = true) : b.redirty.dirty t = true := by
  obtain ⟨-, -, hset⟩ := foldl_setDirty b.up.sent b.slot (List.range tracks) b.psram
  exact hset t (List.mem_range.mpr ht) hs (hc t ht)

theorem park_dirtier (b : Board σ) : Dirtier b b.park :=
  ⟨⟨rfl, rfl, (redirty_dirtier b).turn.same⟩, (redirty_dirtier b).dirty⟩

theorem serverWins_turn (b : Board σ) : Turn b b.serverWins :=
  ⟨rfl, rfl, fun _ => same_discardDirty ..⟩

/-- Parking ends the session with everything sent or dirty marked dirty. -/
theorem Inv.park {s : State σ} (h : Inv s) {b : Board σ} (hd : Dirtier s.board b)
    (hup : b.up.sent = s.board.up.sent ∧ b.up.opened = s.board.up.opened) (hpc : b.pc = .idle)
    (hflight : ∀ t, s.board.pc.inFlight t = true → b.dirty t = true) :
    Inv { s with board := b.park } := by
  have hpark := park_dirtier b
  refine h.ended (hd.trans hpark).turn rfl hup.2 (fun _ => rfl) (fun t ht hk => ?_) hpc
  simp only [State.known, Board.owes, Bool.or_eq_true] at hk
  rcases hk with ((hdirty | hflight') | hsent) | hy
  · exact .inl (hpark.dirty t (hd.dirty t hdirty))
  · exact .inl (hpark.dirty t (hflight t hflight'))
  · exact .inl (redirty_sent (hd.turn.complete h.complete) ht (hup.1 ▸ hsent))
  · exact .inr hy

/-- The server's copy wins: what was known yields. -/
theorem Inv.serverWins {s : State σ} (h : Inv s) {b : Board σ} (ht : Turn s.board b)
    (hopened : b.up.opened = s.board.up.opened) (hpc : b.pc = .idle) :
    Inv { s with board := b.serverWins, yielded := s.known } :=
  h.ended (ht.trans (serverWins_turn b)) rfl hopened (fun _ => rfl) (fun _ _ hk => .inr hk) hpc

-- ---------------------------------------------------------------------------
-- Sending a track
-- ---------------------------------------------------------------------------

theorem pcOk_idle {b : Board σ} (h : b.pc = .idle) : PcOk b := by
  unfold PcOk
  rw [h]
  trivial

theorem owes_idle {b : Board σ} (h : b.pc = .idle) (t : Nat) :
    b.owes t = (b.dirty t || b.up.sent t) := by
  simp [Board.owes, h, Pc.inFlight]

/-- A step that moves the program counter only, with no track in flight before
it. -/
theorem Inv.moved {s : State σ} (h : Inv s) {pc : Pc}
    (hflight : ∀ t, s.board.pc.inFlight t = true → pc.inFlight t = true)
    (hpc : PcOk { s.board with pc := pc }) : Inv { s with board := { s.board with pc := pc } } := by
  refine h.onward ⟨rfl, rfl, fun _ => .refl ..⟩ rfl rfl rfl (fun _ _ hs => hs) (fun t ho => ?_) hpc
  simp only [Board.owes, Bool.or_eq_true] at ho ⊢
  exact ho.imp_left (Or.imp_right (hflight t))

theorem refresh_cases [DecidableEq σ] (b : Board σ) :
    ∃ parked, b.refresh = { b with up := { b.up with parked := parked } } := by
  unfold Board.refresh
  split
  · exact ⟨false, rfl⟩
  · exact ⟨b.up.parked, rfl⟩

theorem Inv.refresh [DecidableEq σ] {s : State σ} (h : Inv s) (hpc : s.board.pc = .idle) :
    Inv { s with board := s.board.refresh } := by
  obtain ⟨parked, heq⟩ := refresh_cases s.board
  rw [heq]
  exact h.onward ⟨rfl, rfl, fun _ => .refl ..⟩ rfl rfl rfl (fun _ _ hs => hs) (fun _ ho => ho)
    (pcOk_idle hpc)

theorem count_zero {us : List Upload} {e : BoardSession} (h : ∀ u ∈ us, u.session.number < e.number) :
    count us e = 0 := by
  rw [count, List.length_eq_zero_iff, List.filter_eq_nil_iff]
  intro u hu heq
  have hlt := h u hu
  simp only [decide_eq_true_eq] at heq
  rw [heq] at hlt
  exact Nat.lt_irrefl _ hlt

/-- A new session has no row, no upload and nothing sent. -/
theorem Inv.openSession {s : State σ} (h : Inv s) (hpc : s.board.pc = .idle) :
    Inv { s with board := s.board.openSession } := by
  unfold Board.openSession
  cases hcur : s.board.up.current with
  | some e => exact h
  | none =>
    obtain ⟨-, hnone, holder, hunused, hstaged, hnumbered, -⟩ := h.sessions
    have hless : ∀ u ∈ s.uploads, u.session.number < s.board.up.opened + 1 :=
      fun u hu => Nat.lt_succ_of_le (holder u hu)
    refine ⟨h.complete, h.store, ⟨?_, ?_, ?_, ?_, hstaged, hnumbered, ?_⟩, ?_, h.base, ?_, pcOk_idle hpc⟩
    · rintro e ⟨⟩
      rfl
    · rintro ⟨⟩
    · exact fun u hu => Nat.le_of_lt (hless u hu)
    · exact fun e he => hunused e (Nat.lt_of_succ_lt he)
    · rintro e ⟨⟩
      rw [count_zero hless]
      rfl
    · intro u hu he
      have hlt := hless u hu
      simp only [Option.some.injEq] at he
      rw [← he] at hlt
      exact absurd hlt (Nat.lt_irrefl _)
    · intro t ht
      have hsent := hnone hcur t
      rcases h.kept t ht with hknown | hcopy | hheld
      · refine .inl ?_
        simp only [State.known, Board.owes, Bool.or_eq_true, hsent] at hknown ⊢
        exact hknown.imp_left fun hk => .inl (hk.resolve_right Bool.noConfusion)
      · exact .inr (.inl hcopy)
      · refine .inr (.inr (hheld.trans (congrArg some ?_)))
        rw [hcur]
        simp only [State.view, Option.bind_some, Option.bind_none]
        rw [hunused _ (Nat.lt_succ_self _)]
        rfl

theorem openSession_isSome (b : Board σ) : b.openSession.up.current.isSome = true := by
  unfold Board.openSession
  cases hcur : b.up.current with
  | some e => simp [hcur]
  | none => rfl

theorem openSession_pc (b : Board σ) : b.openSession.pc = b.pc := by
  unfold Board.openSession
  split <;> rfl

theorem Inv.clearDirty {s : State σ} (h : Inv s) (hpc : s.board.pc = .idle) (ht : t < tracks)
    (hsome : s.board.up.current.isSome = true) : Inv { s with board := s.board.clearDirty t } := by
  refine h.onward ⟨rfl, rfl, fun _ => same_clearDirty ..⟩ rfl rfl rfl (fun _ _ hs => hs)
    (fun i ho => ?_) ⟨ht, hsome⟩
  rw [owes_idle hpc] at ho
  simp only [Board.owes, Board.clearDirty, Pc.inFlight, Bool.or_eq_true, beq_iff_eq] at ho ⊢
  by_cases hi : t = i
  · exact .inl (.inr hi)
  · refine ho.imp_left fun hd => .inl ?_
    exact ((dirtyAt_clearDirty s.board.psram s.board.slot t).2 s.board.slot i
      (.inr (Ne.symm hi))).trans hd

theorem Inv.readStart {s : State σ} (h : Inv s) (hpc : s.board.pc = .cleared t) :
    Inv { s with board := { s.board with
      pc := .sending (.start s.board.psram s.board.slot t) } } := by
  have hok := h.pc
  rw [PcOk, hpc] at hok
  refine h.moved (fun i hi => ?_) ⟨hok.1, hok.2, Reader.start_sized (h.complete t hok.1)⟩
  rw [hpc] at hi
  exact hi

theorem Inv.readTrack {s : State σ} (h : Inv s) (hpc : s.board.pc = .sending r) (k : Nat) :
    Inv { s with board := { s.board with
      pc := .sending (r.more s.board.psram s.board.slot k) } } := by
  have hok := h.pc
  rw [PcOk, hpc] at hok
  refine h.moved (fun i hi => ?_) hok
  rw [hpc] at hi
  exact hi

/-- The track in flight is marked dirty again. -/
theorem Inv.unsent {s : State σ} (h : Inv s) (ht : t < tracks)
    (hflight : ∀ i, s.board.pc.inFlight i = true → t = i) :
    Inv { s with board := { s.board with pc := .idle }.setDirty t } := by
  have hd := setDirty_dirtier { s.board with pc := .idle } t
  refine h.onward ⟨rfl, rfl, hd.turn.same⟩ rfl rfl rfl (fun _ _ hs => hs) (fun i ho => ?_)
    (pcOk_idle rfl)
  simp only [Board.owes, Bool.or_eq_true] at ho ⊢
  rcases ho with (hdirty | hi) | hsent
  · exact .inl (.inl (hd.dirty i hdirty))
  · refine .inl (.inl ?_)
    rw [← hflight i hi]
    exact setDirty_dirty (h.complete t ht)
  · exact .inr hsent

theorem count_concat (us : List Upload) (u : Upload) :
    count (us ++ [u]) u.session = count us u.session + 1 := by
  simp [count, List.filter_append]

theorem count_other {us : List Upload} {u : Upload} {e : BoardSession} (h : u.session ≠ e) :
    count (us ++ [u]) e = count us e := by
  simp [count, List.filter_append, h]

theorem Numbered.concat (h : Numbered us) {u : Upload}
    (hu : u.seq = (count us u.session + 1) % 2 ^ 32) : Numbered (us ++ [u]) := by
  intro i v hv
  by_cases hi : i < us.length
  · rw [List.getElem?_append_left hi] at hv
    rw [List.take_append_of_le_length hi]
    exact h i v hv
  · rw [List.getElem?_append_right (by omega)] at hv
    have hlast : i - us.length = 0 := by
      by_contra hne
      rw [List.getElem?_eq_none (by simp; omega)] at hv
      cases hv
    rw [hlast, List.getElem?_cons_zero, Option.some.injEq] at hv
    subst hv
    rw [List.take_of_length_le (by simp; omega), count_concat]
    exact hu

/-- The track was read: its upload goes out under the next `seq`. -/
theorem Inv.upload {s : State σ} (h : Inv s) {r : Reader} (hpc : s.board.pc = .sending r)
    (hcur : s.board.up.current = some e) (hlen : trk.length = trackLen s.board.psram s.board.slot) :
    let seq := (s.board.up.seq + 1) % 2 ^ 32
    let u : Upload := ⟨e, r.track, seq, trk⟩
    Inv { s with
      board := { s.board with pc := .posting u, up := { s.board.up with seq := seq } }
      uploads := s.uploads ++ [u] } := by
  intro seq u
  have hok := h.pc
  rw [PcOk, hpc] at hok
  obtain ⟨hnumber, hnone, holder, hunused, hstaged, hnumbered, hseq⟩ := h.sessions
  have hcount : seq = (count s.uploads e + 1) % 2 ^ 32 := by
    simp only [seq, hseq e hcur]
    omega
  have howes : ∀ t, s.board.owes t = true → (Board.owes { s.board with
      pc := .posting u, up := { s.board.up with seq := seq } } t) = true := by
    intro t ho
    rw [Board.owes, hpc] at ho
    exact ho
  refine ⟨h.complete, h.store, ⟨hnumber, hnone, ?_, hunused, ?_, hnumbered.concat hcount, ?_⟩, ?_,
    h.base, ?_, hok.1, hok.2.1⟩
  · intro v hv
    rcases List.mem_append.mp hv with hv | hv
    · exact holder v hv
    · rw [List.mem_singleton.mp hv]
      exact Nat.le_of_eq (hnumber e hcur)
  · intro e' t d hd
    obtain ⟨v, hv, hrest⟩ := hstaged e' t d hd
    exact ⟨v, List.mem_append_left _ hv, hrest⟩
  · intro e' he'
    obtain rfl : e = e' := Option.some.inj (hcur.symm.trans he')
    rw [show count (s.uploads ++ [u]) e = count s.uploads e + 1 from count_concat s.uploads u]
    exact hcount
  · intro v hv hsession
    rcases List.mem_append.mp hv with hv | hv
    · obtain ⟨hown, hsize⟩ := h.owed v hv hsession
      exact ⟨howes _ hown, hsize⟩
    · rw [List.mem_singleton.mp hv]
      refine ⟨?_, hlen⟩
      simp [Board.owes, Pc.inFlight, u]
  · intro t ht
    rcases h.kept t ht with hknown | hrest
    · refine .inl ?_
      simp only [State.known, Bool.or_eq_true] at hknown ⊢
      exact hknown.imp_left (howes t)
    · exact .inr hrest

theorem Inv.readDone {s : State σ} (h : Inv s) {r : Reader} (hpc : s.board.pc = .sending r)
    (hall : r.acc.length = r.n) (hcur : s.board.up.current = some e) (stale : Bytes) (fits : Bool) :
    Inv { s with
      board := (s.board.sendTrack r stale fits e).1
      uploads := s.uploads ++ (s.board.sendTrack r stale fits e).2.toList } := by
  have hok := h.pc
  rw [PcOk, hpc] at hok
  obtain ⟨ht, -, hsized⟩ := hok
  have hflight : ∀ i, s.board.pc.inFlight i = true → r.track = i := by
    intro i hi
    rw [hpc] at hi
    simpa [Pc.inFlight] using hi
  unfold Board.sendTrack
  cases hfin : r.finish s.board.psram s.board.slot stale with
  | none =>
    simp only [Option.toList_none, List.append_nil]
    exact h.unsent ht hflight
  | some trk =>
    simp only
    split
    · exact h.upload hpc hcur (hsized.length_finish (h.complete _ ht) hall hfin)
    · simp only [Option.toList_none, List.append_nil]
      have hd := setDirty_dirtier { s.board with
        pc := .idle, up := { s.board.up with seq := (s.board.up.seq + 1) % 2 ^ 32 } } r.track
      refine h.park ⟨⟨rfl, rfl, hd.turn.same⟩, hd.dirty⟩ ⟨rfl, rfl⟩ rfl (fun i hi => ?_)
      rw [← hflight i hi]
      exact setDirty_dirty (h.complete _ ht)

theorem Inv.uploadAnswered {s : State σ} (h : Inv s) (hpc : s.board.pc = .posting u)
    (a : UploadAnswer) :
    Inv { s with
      board := s.board.uploadAnswered u.track a
      yielded := if a = .writeProtected then s.known else s.yielded } := by
  have hok := h.pc
  rw [PcOk, hpc] at hok
  obtain ⟨ht, hsome⟩ := hok
  have hflight : ∀ i, s.board.pc.inFlight i = true → u.track = i := by
    intro i hi
    rw [hpc] at hi
    simpa [Pc.inFlight] using hi
  have hparked : Inv { s with board := ({ s.board with pc := .idle }.setDirty u.track).park } := by
    have hd := setDirty_dirtier { s.board with pc := .idle } u.track
    refine h.park ⟨⟨rfl, rfl, hd.turn.same⟩, hd.dirty⟩ ⟨rfl, rfl⟩ rfl (fun i hi => ?_)
    rw [← hflight i hi]
    exact setDirty_dirty (h.complete _ ht)
  have hunsent := h.unsent ht hflight
  cases a with
  | ok =>
    refine h.onward ⟨rfl, rfl, fun _ => .refl ..⟩ rfl rfl rfl (fun hnone => ?_) (fun i ho => ?_)
      (pcOk_idle rfl)
    · rw [hnone] at hsome
      cases hsome
    · simp only [Board.owes, Bool.or_eq_true] at ho
      simp only [Board.owes, Board.uploadAnswered, Pc.inFlight, Bool.or_eq_true, beq_iff_eq]
      rcases ho with (hdirty | hi) | hsent
      · exact .inl (.inl hdirty)
      · exact .inr (.inl (hflight i hi).symm)
      · exact .inr (.inr hsent)
  | permanent => exact hparked
  | notMounted => exact hparked
  | writeProtected => exact h.serverWins ⟨rfl, rfl, fun _ => .refl ..⟩ rfl rfl
  | unauthorized =>
    exact hunsent.onward ⟨rfl, rfl, fun _ => .refl ..⟩ rfl rfl rfl (fun _ _ hs => hs)
      (fun _ ho => ho) (pcOk_idle rfl)
  | noAnswer => exact hunsent
  | other => exact hunsent

-- ---------------------------------------------------------------------------
-- Closing
-- ---------------------------------------------------------------------------

theorem Inv.closeStart {s : State σ} (h : Inv s) (hpc : s.board.pc = .idle) :
    Inv { s with board := s.board.closeStart } := by
  unfold Board.closeStart
  split
  · exact h
  · refine h.moved (fun i hi => ?_) ⟨Nat.zero_le _, fun i trk htrk => ?_, fun r' hr' => ?_⟩
    · rw [hpc] at hi
      exact hi
    · cases htrk
    · cases hr'

/-- While the uploader hashes, only the program counter moves. -/
theorem Inv.hashed {s : State σ} (h : Inv s) {pc : Pc}
    (hflight : ∀ i, s.board.pc.inFlight i = false) (hpc : PcOk { s.board with pc := pc }) :
    Inv { s with board := { s.board with pc := pc } } := by
  refine h.moved (fun i hi => ?_) hpc
  rw [hflight i] at hi
  cases hi

theorem Inv.hashStart {s : State σ} (h : Inv s) (hpc : s.board.pc = .hashing g0 image none)
    (hlt : image.length < tracks) :
    Inv { s with board := { s.board with
      pc := .hashing g0 image (some (.start s.board.psram s.board.slot image.length)) } } := by
  have hok := h.pc
  rw [PcOk, hpc] at hok
  refine h.hashed (fun i => by rw [hpc]; rfl) ⟨hok.1, hok.2.1, ?_⟩
  rintro r' ⟨⟩
  exact ⟨rfl, hlt, Reader.start_sized (h.complete _ hlt), .inr (.inr (Reader.start_current ..))⟩

theorem Inv.hashTrack {s : State σ} (h : Inv s) (hpc : s.board.pc = .hashing g0 image (some r))
    (k : Nat) :
    Inv { s with board := { s.board with
      pc := .hashing g0 image (some (r.more s.board.psram s.board.slot k)) } } := by
  have hok := h.pc
  rw [PcOk, hpc] at hok
  obtain ⟨hlen, himage, hr⟩ := hok
  obtain ⟨htrack, hlt, hsized, hread⟩ := hr r rfl
  refine h.hashed (fun i => by rw [hpc]; rfl) ⟨hlen, himage, ?_⟩
  rintro r' ⟨⟩
  exact ⟨htrack, hlt, hsized, hread.imp_right (Or.imp_right fun hcur => hcur.more k)⟩

theorem Inv.hashDone {s : State σ} (h : Inv s) (hpc : s.board.pc = .hashing g0 image (some r))
    (hall : r.acc.length = r.n) (stale : Bytes) :
    Inv { s with board := s.board.hashTrack g0 image r stale } := by
  have hok := h.pc
  rw [PcOk, hpc] at hok
  obtain ⟨hlen, himage, hr⟩ := hok
  obtain ⟨htrack, hlt, hsized, hread⟩ := hr r rfl
  have hflight : ∀ i, s.board.pc.inFlight i = false := fun i => by rw [hpc]; rfl
  unfold Board.hashTrack
  cases hfin : r.finish s.board.psram s.board.slot stale with
  | none => exact h.hashed hflight (pcOk_idle rfl)
  | some trk =>
    refine h.hashed hflight ⟨?_, fun i d hd => ?_, fun r' hr' => by cases hr'⟩
    · rw [List.length_append, List.length_singleton, ← htrack]
      exact hlt
    · by_cases hi : i < image.length
      · rw [List.getElem?_append_left hi] at hd
        exact himage i d hd
      · rw [List.getElem?_append_right (by omega)] at hd
        obtain ⟨hlast, -⟩ := List.getElem?_eq_some_iff.mp hd
        have hieq : i = r.track := by
          rw [List.length_singleton] at hlast
          omega
        subst hieq
        rw [htrack, Nat.sub_self, List.getElem?_cons_zero, Option.some.injEq] at hd
        subst hd
        refine ⟨hsized.length_finish (h.complete _ hlt) hall hfin,
          hread.imp_right (Or.imp_right fun hcur => ?_)⟩
        exact (hcur.finish hall stale).symm.trans hfin

theorem Inv.closeCheck {s : State σ} (h : Inv s) (hpc : s.board.pc = .hashing g0 image none)
    (hall : image.length = tracks) : Inv { s with board := s.board.closeCheck g0 image } := by
  have hok := h.pc
  rw [PcOk, hpc] at hok
  have hflight : ∀ i, s.board.pc.inFlight i = false := fun i => by rw [hpc]; rfl
  unfold Board.closeCheck
  split
  · exact h.hashed hflight (pcOk_idle rfl)
  · exact h.hashed hflight ⟨hall, hok.2.1⟩

theorem Inv.scan {s : State σ} (h : Inv s) (hpc : s.board.pc = .scanning image t) :
    Inv { s with board := s.board.scan image t } := by
  have hok := h.pc
  rw [PcOk, hpc] at hok
  have hflight : ∀ i, s.board.pc.inFlight i = false := fun i => by rw [hpc]; rfl
  unfold Board.scan
  split
  · exact h.hashed hflight (pcOk_idle rfl)
  · exact h.hashed hflight hok

theorem Inv.closes {s : State σ} (h : Inv s) (cs : List (Close σ)) : Inv { s with closes := cs } := by
  obtain ⟨hnumber, hnone, holder, hunused, hstaged, hnumbered, hseq⟩ := h.sessions
  exact ⟨h.complete, h.store, ⟨hnumber, hnone, holder, hunused, hstaged, hnumbered, hseq⟩, h.owed,
    h.base, h.kept, h.pc⟩

theorem Inv.sendClose {s : State σ} (h : Inv s) (hpc : s.board.pc = .scanning image tracks)
    (fits : Bool) (sha256Of : Bytes → σ) (e : BoardSession) :
    Inv { s with
      board := (s.board.sendClose image fits sha256Of e).1
      closes := s.closes ++ (s.board.sendClose image fits sha256Of e).2.toList } := by
  have hok := h.pc
  rw [PcOk, hpc] at hok
  have hflight : ∀ i, s.board.pc.inFlight i = false := fun i => by rw [hpc]; rfl
  unfold Board.sendClose
  split
  · have hclosing : Inv { s with board := { s.board with pc := .closing image } } :=
      h.hashed hflight hok
    exact hclosing.closes _
  · refine (h.park (b := { s.board with pc := .idle }) ⟨⟨rfl, rfl, fun _ => .refl ..⟩, fun _ hd => hd⟩
      ⟨rfl, rfl⟩ rfl fun i hi => ?_).closes _
    rw [hflight i] at hi
    cases hi

/-- Two rows of pieces of one length make one string only if they are the same. -/
theorem flatten_inj {xs ys : List Bytes} {n : Nat} (hx : ∀ x ∈ xs, x.length = n)
    (hy : ∀ y ∈ ys, y.length = n) (hlen : xs.length = ys.length) (h : xs.flatten = ys.flatten) :
    xs = ys := by
  induction xs generalizing ys with
  | nil => exact (List.length_eq_zero_iff.mp hlen.symm).symm
  | cons x xs ih =>
    cases ys with
    | nil => cases hlen
    | cons y ys =>
      rw [List.flatten_cons, List.flatten_cons] at h
      obtain ⟨rfl, htail⟩ := List.append_inj h ((hx x (by simp)).trans (hy y (by simp)).symm)
      rw [ih (fun z hz => hx z (by simp [hz])) (fun z hz => hy z (by simp [hz])) (by simpa using hlen)
        htail]

/-- Where the server's image is the one hashed, every track hashed is the
server's. -/
theorem Inv.hashed_base {s : State σ} (h : Inv s) (hlen : image.length = tracks)
    (hi : Hashed s.board image) (heq : image.flatten = imageOf s.base) (ht : t < tracks) :
    image[t]? = some (s.base t) := by
  have hlist : image = (List.range tracks).map s.base := by
    refine flatten_inj (n := trackLen s.board.psram s.board.slot) (fun x hx => ?_) (fun y hy => ?_)
      (by simp [hlen]) (heq.trans (List.flatMap_def ..))
    · obtain ⟨i, hi', rfl⟩ := List.getElem_of_mem hx
      exact (hi i _ (List.getElem?_eq_getElem hi')).1
    · obtain ⟨i, hi', rfl⟩ := List.mem_map.mp hy
      exact h.base i (List.mem_range.mp hi')
  rw [hlist, List.getElem?_map, List.getElem?_range ht]
  rfl

/-- A close answered 200: the session is over, and what was hashed is the
server's, unless the server's image is another one. -/
theorem Inv.closed {s : State σ} (h : Inv s) (hpc : s.board.pc = .closing image) (sha256 : σ) :
    Inv { s with
      board := s.board.closeAnswered (.ok sha256)
      yielded := fun _ => decide (image.flatten ≠ imageOf s.base) } := by
  have hok := h.pc
  rw [PcOk, hpc] at hok
  obtain ⟨hlen, hi⟩ := hok
  obtain ⟨-, -, holder, hunused, hstaged, hnumbered, -⟩ := h.sessions
  refine ⟨h.complete, h.store, ⟨?_, fun _ _ => rfl, holder, hunused, hstaged, hnumbered, ?_⟩, ?_, h.base,
    ?_, pcOk_idle rfl⟩
  · rintro e ⟨⟩
  · rintro e ⟨⟩
  · rintro u _ ⟨⟩
  · intro t ht
    by_cases heq : image.flatten = imageOf s.base
    · obtain ⟨-, hsince⟩ := hi t _ (h.hashed_base hlen hi heq ht)
      rcases hsince with hd | hcopy | hheld
      · refine .inl ?_
        simp only [State.known, Board.owes, Bool.or_eq_true]
        exact .inl (.inl (.inl hd))
      · exact .inr (.inl hcopy)
      · exact .inr (.inr hheld)
    · refine .inl ?_
      simp [State.known, heq]

theorem Inv.closeAnswered {s : State σ} (h : Inv s) (hpc : s.board.pc = .closing image)
    (a : CloseAnswer σ) :
    Inv { s with board := s.board.closeAnswered a, yielded := s.yieldedBy image a } := by
  have hflight : ∀ i, s.board.pc.inFlight i = false := fun i => by rw [hpc]; rfl
  have hidle : Inv { s with board := { s.board with pc := .idle } } := h.hashed hflight (pcOk_idle rfl)
  have hparked : Inv { s with board := { s.board with pc := .idle }.park } := by
    refine h.park ⟨⟨rfl, rfl, fun _ => .refl ..⟩, fun _ hd => hd⟩ ⟨rfl, rfl⟩ rfl fun i hi => ?_
    rw [hflight i] at hi
    cases hi
  cases a with
  | ok sha256 => exact h.closed hpc sha256
  | mismatch => exact h.serverWins ⟨rfl, rfl, fun _ => .refl ..⟩ rfl rfl
  | permanent => exact hparked
  | notMounted => exact hparked
  | incomplete =>
    have hd := redirty_dirtier { s.board with pc := .idle }
    refine hidle.onward hd.turn rfl rfl rfl (fun _ _ hs => hs) (fun i ho => ?_) (pcOk_idle rfl)
    simp only [Board.owes, Bool.or_eq_true] at ho ⊢
    exact ho.imp_left (Or.imp_left (hd.dirty i))
  | unauthorized =>
    exact hidle.onward ⟨rfl, rfl, fun _ => .refl ..⟩ rfl rfl rfl (fun _ _ hs => hs)
      (fun _ ho => ho) (pcOk_idle rfl)
  | noAnswer => exact hidle
  | noSha => exact hidle
  | other => exact hidle

-- ---------------------------------------------------------------------------
-- The server and the mount
-- ---------------------------------------------------------------------------

theorem stage_staged (r : Row) (u : Upload) :
    r.stage u = r ∨ (r.stage u).staged = Function.update r.staged u.track (some u.data) := by
  unfold Row.stage
  split
  · exact .inl rfl
  · exact .inr rfl

/-- A row holds nothing but what was uploaded under its session, and an upload of
the session is of a track that is owed. -/
theorem Inv.stage {s : State σ} (h : Inv s) {u : Upload} (hu : u ∈ s.uploads) :
    Inv { s with rows := Function.update s.rows u.session ((s.rows u.session).stage u) } := by
  obtain ⟨hnumber, hnone, holder, hunused, hstaged, hnumbered, hseq⟩ := h.sessions
  refine ⟨h.complete, h.store, ⟨hnumber, hnone, holder, fun e he => ?_, fun e t d hd => ?_, hnumbered,
    hseq⟩, h.owed, h.base, fun t ht => ?_, h.pc⟩
  · have hne : e ≠ u.session := by
      rintro rfl
      exact absurd (holder u hu) (Nat.not_le_of_lt he)
    exact (Function.update_of_ne hne ..).trans (hunused e he)
  · by_cases he : e = u.session
    · subst he
      simp only [Function.update_self] at hd
      rcases stage_staged (s.rows u.session) u with hsame | hset
      · rw [hsame] at hd
        exact hstaged _ t d hd
      · rw [hset] at hd
        by_cases htrack : t = u.track
        · subst htrack
          rw [Function.update_self, Option.some.injEq] at hd
          exact ⟨u, hu, rfl, rfl, hd⟩
        · rw [Function.update_of_ne htrack] at hd
          exact hstaged _ t d hd
    · simp only [Function.update_of_ne he] at hd
      exact hstaged e t d hd
  · rcases h.kept t ht with hknown | hcopy | hheld
    · exact .inl hknown
    · exact .inr (.inl hcopy)
    · by_cases hmine : s.board.up.current = some u.session ∧ t = u.track
      · obtain ⟨hcur, rfl⟩ := hmine
        refine .inl ?_
        simp only [State.known, Bool.or_eq_true]
        exact .inl (h.owed u hu hcur).1
      · refine .inr (.inr (hheld.trans (congrArg some ?_)))
        unfold State.view
        cases hcur : s.board.up.current with
        | none => rfl
        | some e =>
          simp only [Option.bind_some]
          by_cases he : e = u.session
          · subst he
            have htrack : t ≠ u.track := fun heq => hmine ⟨hcur, heq⟩
            rw [Function.update_self]
            rcases stage_staged (s.rows u.session) u with hsame | hset
            · rw [hsame]
            · rw [hset, Function.update_of_ne htrack]
          · rw [Function.update_of_ne he]

/-- Recording what is staged leaves every track as the session saw it. -/
theorem Inv.record {s : State σ} (h : Inv s) (hcur : s.board.up.current = some e) :
    Inv { s with base := s.view (some e), rows := Function.update s.rows e .empty } := by
  obtain ⟨hnumber, hnone, holder, hunused, hstaged, hnumbered, hseq⟩ := h.sessions
  refine ⟨h.complete, h.store, ⟨hnumber, hnone, holder, fun e' he' => ?_, fun e' t d hd => ?_, hnumbered,
    hseq⟩, h.owed, fun t ht => ?_, fun t ht => ?_, h.pc⟩
  · by_cases heq : e' = e
    · subst heq
      exact Function.update_self ..
    · exact (Function.update_of_ne heq ..).trans (hunused e' he')
  · by_cases heq : e' = e
    · subst heq
      simp only [Function.update_self] at hd
      cases hd
    · simp only [Function.update_of_ne heq] at hd
      exact hstaged e' t d hd
  · unfold State.view
    simp only [Option.bind_some]
    cases hst : (s.rows e).staged t with
    | none => exact h.base t ht
    | some d =>
      obtain ⟨u, hu, hue, -, rfl⟩ := hstaged e t d hst
      exact (h.owed u hu (hue ▸ hcur)).2
  · rcases h.kept t ht with hknown | hcopy | hheld
    · exact .inl hknown
    · exact .inr (.inl hcopy)
    · refine .inr (.inr (hheld.trans (congrArg some ?_)))
      rw [hcur]
      simp [State.view, Row.empty]

theorem loaded_length {p : Psram} {image : Nat → Bytes} (h : Loaded p slot image) (ht : t < tracks) :
    (image t).length = trackLen p slot := by
  obtain ⟨hhave, -, hheld⟩ := h t ht
  exact length_held hhave hheld

theorem Inv.mounted {s : State σ} (h : Inv s) (hpc : s.board.pc = .idle)
    (hcur : s.board.up.current = none) {psram : Psram} {slot : Nat} {image : Nat → Bytes}
    (hload : Loaded psram slot image) (client : Client σ) :
    Inv { s with
      board := { s.board with psram := psram, slot := slot, client := client }
      base := image
      yielded := fun _ => false } := by
  obtain ⟨hnumber, hnone, holder, hunused, hstaged, hnumbered, hseq⟩ := h.sessions
  refine ⟨fun t ht => (hload t ht).1, h.store, ⟨hnumber, hnone, holder, hunused, hstaged, hnumbered, hseq⟩,
    fun u _ he => absurd (he.symm.trans hcur) (by simp), fun t ht => loaded_length hload ht,
    fun t ht => .inr (.inr ?_), pcOk_idle hpc⟩
  refine (hload t ht).2.2.trans (congrArg some ?_)
  simp only [hcur]
  rfl

-- ---------------------------------------------------------------------------
-- Every run
-- ---------------------------------------------------------------------------

variable [DecidableEq σ]

theorem step_inv {sha256Of : Bytes → σ} {s s' : State σ} (h : Step sha256Of s a s') (hi : Inv s) :
    Inv s' := by
  cases h with
  | storeBegin t adf took ht hidle => exact hi.drive (storeBegin_drive hidle ht adf took)
  | storeCopy k st hst ho => exact hi.drive (storeCopy_drive hst ho k)
  | storeBits st hst ho => exact hi.drive (storeBits_drive hst ho)
  | storeFlag st hst => exact hi.drive (storeFlag_drive hst)
  | storeEnd st hst ho => exact hi.drive (storeEnd_drive hst ho)
  | sendTrack t ht hidle =>
    have hpc : s.board.refresh.pc = .idle := by
      obtain ⟨parked, heq⟩ := refresh_cases s.board
      rw [heq]
      exact hidle
    have hopen := (hi.refresh hidle).openSession hpc
    exact hopen.clearDirty ((openSession_pc _).trans hpc) ht (openSession_isSome _)
  | readStart t hpc => exact hi.readStart hpc
  | readTrack k r hpc => exact hi.readTrack hpc k
  | readDone stale fits r e hpc hall hcur => exact hi.readDone hpc hall hcur stale fits
  | uploadAnswered a u hpc => exact hi.uploadAnswered hpc a
  | closeStart hidle =>
    refine (hi.refresh hidle).closeStart ?_
    obtain ⟨parked, heq⟩ := refresh_cases s.board
    show s.board.refresh.pc = .idle
    rw [heq]
    exact hidle
  | hashStart g0 image hpc hnext => exact hi.hashStart hpc hnext
  | hashTrack k g0 image r hpc => exact hi.hashTrack hpc k
  | hashDone stale g0 image r hpc hall => exact hi.hashDone hpc hall stale
  | closeCheck g0 image hpc hall => exact hi.closeCheck hpc hall
  | scan image t hpc => exact hi.scan hpc
  | sendClose fits image e hpc => exact hi.sendClose hpc fits sha256Of e
  | closeAnswered a image hpc => exact hi.closeAnswered hpc a
  | stage i u hu => exact hi.stage (List.mem_of_getElem? hu)
  | record i q hq hcur => exact hi.record hcur
  | bumped version diskId hidle =>
    exact hi.onward ⟨rfl, rfl, fun _ => .refl ..⟩ rfl rfl rfl (fun _ _ hs => hs) (fun _ ho => ho)
      (pcOk_idle hidle)
  | mounted psram slot base version diskId sha256 hidle hcur _ _ hload =>
    exact hi.mounted hidle hcur hload _

omit [DecidableEq σ] in
theorem Boot.inv {s : State σ} (h : Boot s) : Inv s := by
  refine ⟨fun t ht => (h.loaded t ht).1, fun st hst => ?_, ⟨fun e he => ?_, fun _ => h.sent, fun u hu => ?_,
    fun e _ => h.rows e, fun e t d hd => ?_, fun i u hu => ?_, fun e he => ?_⟩, fun u hu => ?_,
    fun t ht => loaded_length h.loaded ht, fun t ht => .inr (.inr ?_), pcOk_idle h.pc⟩
  · rw [h.store] at hst
    cases hst
  · rw [h.current] at he
    cases he
  · rw [h.uploads] at hu
    cases hu
  · rw [h.rows e] at hd
    cases hd
  · rw [h.uploads] at hu
    cases hu
  · rw [h.current] at he
    cases he
  · rw [h.uploads] at hu
    cases hu
  · rw [h.current]
    exact (h.loaded t ht).2.2

theorem reaches_inv {sha256Of : Bytes → σ} {s₀ s : State σ} (h : Reaches sha256Of s₀ s)
    (h₀ : Boot s₀) : Inv s :=
  invariant_run (fun _ _ ⟨_, hstep⟩ hi => step_inv hstep hi) h h₀.inv

/-- Uploads that carry their number within the session ascend, short of 2^32. -/
theorem Numbered.ascending (h : Numbered us) (hfew : ∀ e, count us e < 2 ^ 32) : Ascending us := by
  rw [Ascending, List.pairwise_iff_getElem]
  intro i j hi hj hij hsession
  have hu := h i _ (List.getElem?_eq_getElem hi)
  have hv := h j _ (List.getElem?_eq_getElem hj)
  have hprefix : ∀ k, count (us.take k) us[j].session ≤ count us us[j].session :=
    fun k => ((List.take_sublist k us).filter _).length_le
  have hbound := hfew us[j].session
  have hlast : count (us.take (j + 1)) us[j].session =
      count (us.take j) us[j].session + 1 := by
    rw [List.take_succ_eq_append_getElem hj, count_concat]
  have hmono : count (us.take (i + 1)) us[j].session ≤ count (us.take j) us[j].session := by
    refine (List.Sublist.filter _ ?_).length_le
    exact (List.take_prefix_take_left (by omega)).sublist
  have hj' := hprefix (j + 1)
  rw [hu, hv, hsession, Nat.mod_eq_of_lt (by omega), Nat.mod_eq_of_lt (by omega)]
  omega

end

/-- A board just started over a blank high-density disk. -/
def blank : State Bytes where
  board := {
    psram := {
      mem := fun _ _ _ => 0
      bits := fun _ _ => hdTrackDataBytes * 8
      state := fun _ _ => .present
      kind := fun _ => .adfHd
      havePsram := true
      haveNet := true
      gGen := 0
      activeWord := 0
      df1Word := 0
      df1ReaderAck := 0 }
    slot := 0
    gen := 0
    store := none
    pc := .idle
    up := ⟨7, 0, none, 0, fun _ => false, false, 0, none⟩
    client := ⟨1, "disk", some [], false⟩ }
  base := fun _ => List.replicate hdTrackDataBytes 0
  rows := fun _ => .empty
  uploads := []
  closes := []
  yielded := fun _ => false

theorem blank_loaded : Loaded blank.board.psram blank.board.slot blank.base := by
  intro t ht
  have hrange : Psram.inRange t = true := by simp [Psram.inRange, ht]
  have hok : blank.board.psram.slotOk blank.board.slot = true := rfl
  have hu : blank.board.psram.usable blank.board.slot t = true := by
    rw [Psram.usable, hok, hrange]
    rfl
  have hstate : blank.board.psram.trackState blank.board.slot t = .present := if_pos hu
  have hhave : blank.board.psram.haveTrack blank.board.slot t = true := by
    rw [Psram.haveTrack, hstate]
    rfl
  have hkind : blank.board.psram.slotKind blank.board.slot = .adfHd := if_pos hok
  refine ⟨hhave, ?_, ?_⟩
  · rw [dirtyAt, hstate]
    rfl
  · rw [held, wholeTrack, if_pos hkind, if_pos hhave, rawLen, if_neg (by simp [hhave]), if_pos hkind]
    simp [Psram.bytes, blank]

theorem blank_boot : Boot blank :=
  ⟨rfl, rfl, rfl, fun _ => rfl, blank_loaded, fun _ => rfl, rfl, rfl⟩

end WebAdf.Uploading
