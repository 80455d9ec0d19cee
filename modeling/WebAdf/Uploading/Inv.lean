import WebAdf.Lib.Run
import WebAdf.Uploading.System

/-!
# What every step keeps

A track is owed while it is dirty, in flight or sent: once uploaded it stays so
until its session ends. A track that is none of these, is not being copied and
has not yielded is as the server has it. While the uploader hashes, every track
it has hashed is still as it was or has been written since.
-/

namespace WebAdf.Uploading

open Lib TrackCache DeviceWrite

section
variable {σ : Type}

def Kept (s : State σ) (t : Nat) : Prop :=
  s.known t = true ∨ s.board.copying t = true ∨
    s.board.held t = some (s.view s.board.up.current t)

/-- The uploads of a session in `us`. -/
def count (us : List Upload) (e : BoardSession) : Nat := (us.filter (·.session = e)).length

/-- Each upload carries its number within its session, of 32 bits. -/
def Numbered (us : List Upload) : Prop :=
  ∀ i u, us[i]? = some u → u.seq = count (us.take (i + 1)) u.session % 2 ^ 32

structure Sessions (s : State σ) : Prop where
  number : ∀ e, s.board.up.current = some e → e.number = s.board.up.opened
  idle : s.board.up.current = none → ∀ t, s.board.up.sent t = false
  older : ∀ u ∈ s.uploads, u.session.number ≤ s.board.up.opened
  unused : ∀ e : BoardSession, s.board.up.opened < e.number → s.rows e = .empty
  staged : ∀ e t d, (s.rows e).staged t = some d →
    ∃ u ∈ s.uploads, u.session = e ∧ u.track = t ∧ u.data = d
  numbered : Numbered s.uploads
  seq : ∀ e, s.board.up.current = some e → s.board.up.seq = count s.uploads e % 2 ^ 32

/-- Each track hashed is as it was, or was written since. -/
def Hashed (b : Board σ) (image : List Bytes) : Prop :=
  ∀ i trk, image[i]? = some trk → trk.length = trackLen b.psram b.slot ∧
    (b.dirty i = true ∨ b.copying i = true ∨ b.held i = some trk)

/-- The same of the track being read. -/
def Reading (b : Board σ) (r : Reader) : Prop :=
  b.dirty r.track = true ∨ b.copying r.track = true ∨ r.Current b.psram b.slot

def PcOk (b : Board σ) : Prop :=
  match b.pc with
  | .idle => True
  | .cleared t => t < tracks ∧ b.up.current.isSome = true
  | .sending r => r.track < tracks ∧ b.up.current.isSome = true ∧ r.Sized b.psram b.slot
  | .posting u => u.track < tracks ∧ b.up.current.isSome = true
  | .hashing _ image r => image.length ≤ tracks ∧ Hashed b image ∧
    ∀ r', r = some r' → r'.track = image.length ∧ r'.track < tracks ∧
      r'.Sized b.psram b.slot ∧ Reading b r'
  | .scanning image _ | .closing image => image.length = tracks ∧ Hashed b image

structure Inv (s : State σ) : Prop where
  complete : Complete s.board.psram s.board.slot
  store : ∀ st, s.board.store = some st → st.track < tracks
  sessions : Sessions s
  owed : ∀ u ∈ s.uploads, s.board.up.current = some u.session →
    s.board.owes u.track = true ∧ u.data.length = trackLen s.board.psram s.board.slot
  base : ∀ t < tracks, (s.base t).length = trackLen s.board.psram s.board.slot
  kept : ∀ t < tracks, Kept s t
  pc : PcOk s.board

-- ---------------------------------------------------------------------------
-- The drive's steps
-- ---------------------------------------------------------------------------

/-- What a step of the drive's may do: it clears no flag, and a track it changes
is being copied or is dirty. -/
structure Drive (b b' : Board σ) : Prop where
  slot : b'.slot = b.slot
  pc : b'.pc = b.pc
  up : b'.up = b.up
  kind : b'.psram.slotKind b.slot = b.psram.slotKind b.slot
  complete : Complete b.psram b.slot → Complete b'.psram b.slot
  store : (∀ st, b.store = some st → st.track < tracks) → ∀ st, b'.store = some st → st.track < tracks
  dirty : ∀ t, b.dirty t = true → b'.dirty t = true
  track : Complete b.psram b.slot → ∀ t < tracks, b'.dirty t = true ∨ b'.copying t = true ∨
    Same b.psram b'.psram b.slot t ∧ b.copying t = false

theorem Drive.trackLen {b b' : Board σ} (h : Drive b b') :
    trackLen b'.psram b'.slot = trackLen b.psram b.slot := by
  rw [h.slot, Uploading.trackLen, Uploading.trackLen, h.kind]

/-- A track written since stays so; one that was not is unchanged or is now. -/
theorem Drive.since {b b' : Board σ} (h : Drive b b') (hc : Complete b.psram b.slot) (ht : t < tracks)
    {P P' : Prop} (hP : Same b.psram b'.psram b.slot t → P → P')
    (hb : b.dirty t = true ∨ b.copying t = true ∨ P) :
    b'.dirty t = true ∨ b'.copying t = true ∨ P' := by
  rcases h.track hc t ht with hd | hcopy | ⟨hsame, hno⟩
  · exact .inl hd
  · exact .inr (.inl hcopy)
  · rcases hb with hd | hcopy | hb
    · exact .inl (h.dirty t hd)
    · exact absurd (hcopy.symm.trans hno) (by decide)
    · exact .inr (.inr (hP hsame hb))

theorem Drive.held {b b' : Board σ} (h : Drive b b') {t : Nat}
    (hsame : Same b.psram b'.psram b.slot t) : b'.held t = b.held t := by
  rw [Board.held, Board.held, h.slot]
  exact same_held hsame

theorem Drive.owes {b b' : Board σ} (h : Drive b b') (ho : b.owes t = true) : b'.owes t = true := by
  unfold Board.owes at ho ⊢
  rw [h.pc, h.up]
  simp only [Bool.or_eq_true] at ho ⊢
  exact ho.imp_left (Or.imp_left (h.dirty t))

theorem Drive.hashed {b b' : Board σ} (h : Drive b b') (hc : Complete b.psram b.slot)
    (hlen : image.length ≤ tracks) (hi : Hashed b image) : Hashed b' image := by
  intro i trk htrk
  obtain ⟨hlt, -⟩ := List.getElem?_eq_some_iff.mp htrk
  obtain ⟨hsize, hsince⟩ := hi i trk htrk
  refine ⟨hsize.trans h.trackLen.symm, h.since hc (by omega) (fun hsame heq => ?_) hsince⟩
  rw [h.held hsame]
  exact heq

theorem Drive.sized {b b' : Board σ} (h : Drive b b') {r : Reader} (hr : r.Sized b.psram b.slot) :
    r.Sized b'.psram b'.slot := by
  intro hkind
  rw [h.slot, h.kind] at hkind
  exact hr hkind

theorem Drive.pcOk {b b' : Board σ} (h : Drive b b') (hc : Complete b.psram b.slot) (hp : PcOk b) :
    PcOk b' := by
  unfold PcOk at hp ⊢
  rw [h.pc, h.up]
  cases hpc : b.pc with
  | idle => trivial
  | cleared t =>
    rw [hpc] at hp
    exact hp
  | sending r =>
    rw [hpc] at hp
    exact ⟨hp.1, hp.2.1, h.sized hp.2.2⟩
  | posting u =>
    rw [hpc] at hp
    exact hp
  | hashing g0 image r =>
    rw [hpc] at hp
    obtain ⟨hlen, himage, hr⟩ := hp
    refine ⟨hlen, h.hashed hc hlen himage, fun r' hr' => ?_⟩
    obtain ⟨htrack, hlt, hsized, hread⟩ := hr r' hr'
    refine ⟨htrack, hlt, h.sized hsized, h.since hc hlt (fun hsame hcur => ?_) hread⟩
    rw [h.slot]
    exact same_current hsame hcur
  | scanning image t =>
    rw [hpc] at hp
    exact ⟨hp.1, h.hashed hc (Nat.le_of_eq hp.1) hp.2⟩
  | closing image =>
    rw [hpc] at hp
    exact ⟨hp.1, h.hashed hc (Nat.le_of_eq hp.1) hp.2⟩

theorem Inv.drive {s : State σ} (h : Inv s) (hd : Drive s.board b') : Inv { s with board := b' } where
  complete := by
    show Complete b'.psram b'.slot
    rw [hd.slot]
    exact hd.complete h.complete
  store := hd.store h.store
  sessions := by
    obtain ⟨hnumber, hidle, holder, hunused, hstaged, hnumbered, hseq⟩ := h.sessions
    rw [← hd.up] at hnumber hidle holder hunused hseq
    exact ⟨hnumber, hidle, holder, hunused, hstaged, hnumbered, hseq⟩
  owed := by
    intro u hu hcur
    have hcur' : s.board.up.current = some u.session := by rw [← hd.up]; exact hcur
    obtain ⟨howes, hlen⟩ := h.owed u hu hcur'
    exact ⟨hd.owes howes, hlen.trans hd.trackLen.symm⟩
  base := fun t ht => (h.base t ht).trans hd.trackLen.symm
  kept := by
    intro t ht
    have hview : s.view b'.up.current t = s.view s.board.up.current t := by rw [hd.up]
    rcases h.kept t ht with hknown | hrest
    · refine .inl ?_
      simp only [State.known, Bool.or_eq_true] at hknown ⊢
      exact hknown.imp_left hd.owes
    · have hsince : b'.dirty t = true ∨ b'.copying t = true ∨
          b'.held t = some (s.view s.board.up.current t) :=
        hd.since h.complete ht (fun hsame heq => (hd.held hsame).trans heq) (.inr hrest)
      rcases hsince with hdirty | hcopy | hheld
      · refine .inl ?_
        simp only [State.known, Board.owes, Bool.or_eq_true]
        exact .inl (.inl (.inl hdirty))
      · exact .inr (.inl hcopy)
      · exact .inr (.inr (hheld.trans (congrArg some hview.symm)))
  pc := hd.pcOk h.complete h.pc

theorem copying_none {b : Board σ} (h : b.store = none) (t : Nat) : b.copying t = false := by
  simp [Board.copying, h]

theorem copying_over {b : Board σ} (h : b.store = some st) (ho : st.ended = true) (t : Nat) :
    b.copying t = false := by
  simp [Board.copying, h, ho]

/-- The store is to this track, or to a place apart from it. -/
theorem copying_or {b : Board σ} (h : b.store = some st) (t : Nat) :
    (st.slot = b.slot ∧ st.track = t) ∨
      (b.slot ≠ st.slot ∨ t ≠ st.track) ∧ b.copying t = false := by
  by_cases hs : st.slot = b.slot
  · by_cases ht : st.track = t
    · exact .inl ⟨hs, ht⟩
    · exact .inr ⟨.inr (Ne.symm ht), by simp [Board.copying, h, ht]⟩
  · exact .inr ⟨.inl (Ne.symm hs), by simp [Board.copying, h, hs]⟩

theorem storeBegin_drive {b : Board σ} (h : b.store = none) (ht : t < tracks) (adf : Bytes)
    (took : Bool) : Drive b (b.storeBegin t adf took) where
  slot := rfl
  pc := rfl
  up := rfl
  kind := rfl
  complete := id
  store := by
    intro _ st hst
    cases hst
    exact ht
  dirty := fun _ hd => hd
  track := fun _ t' _ => .inr (.inr ⟨.refl .., copying_none h t'⟩)

theorem storeEnd_drive {b : Board σ} (h : b.store = some st) (ho : st.ended = true) :
    Drive b b.storeEnd where
  slot := rfl
  pc := rfl
  up := rfl
  kind := rfl
  complete := id
  store := by
    intro _ st hst
    cases hst
  dirty := fun _ hd => hd
  track := fun _ t' _ => .inr (.inr ⟨.refl .., copying_over h ho t'⟩)

theorem same_slot {t t' : Nat} (h : slot ≠ slot' ∨ t ≠ t') : slot ≠ slot' ∨ (t : Int) ≠ t' :=
  h.imp_right fun hne heq => hne (Int.ofNat_inj.mp heq)

theorem storeCopy_drive {b : Board σ} (h : b.store = some st) (ho : st.ended = false) (k : Nat) :
    Drive b (b.storeCopy st k) where
  slot := rfl
  pc := rfl
  up := rfl
  kind := rfl
  complete := id
  store := by
    intro hall st' hst'
    cases hst'
    exact hall st h
  dirty := fun _ hd => hd
  track := by
    intro _ t' _
    rcases copying_or h t' with ⟨hs, ht⟩ | ⟨hne, hno⟩
    · refine .inr (.inl ?_)
      simp [Board.copying, Board.storeCopy, hs, ht, ho]
    · exact .inr (.inr ⟨same_copyIn _ _ _ (same_slot hne), hno⟩)

theorem storeBits_drive {b : Board σ} (h : b.store = some st) (ho : st.ended = false) :
    Drive b (b.storeBits st) where
  slot := rfl
  pc := rfl
  up := rfl
  kind := rfl
  complete := by
    intro hc t ht
    have hstate := trackState_setBits b.psram st.slot st.track st.bitCount b.slot t
    exact (congrArg (· != TrackState.absent) hstate).trans (hc t ht)
  store := fun hall => hall
  dirty := by
    intro t hd
    have hstate := trackState_setBits b.psram st.slot st.track st.bitCount b.slot t
    exact (congrArg (· == TrackState.dirty) hstate).trans hd
  track := by
    intro _ t' _
    rcases copying_or h t' with ⟨hs, ht⟩ | ⟨hne, hno⟩
    · refine .inr (.inl ?_)
      simp [Board.copying, Board.storeBits, h, hs, ht, ho]
    · exact .inr (.inr ⟨same_setTrack _ _ _ (same_slot hne), hno⟩)

theorem storeFlag_drive {b : Board σ} (h : b.store = some st) :
    Drive b (b.storeFlag st) where
  slot := rfl
  pc := rfl
  up := rfl
  kind := rfl
  complete := by
    intro hc t ht
    by_cases hne : b.slot ≠ st.slot ∨ t ≠ st.track
    · have hstate := trackState_setTrack_other b.psram st.slot st.track st.bitCount b.slot t .dirty hne
      exact (congrArg (· != TrackState.absent) hstate).trans (hc t ht)
    · simp only [not_or, ne_eq, not_not] at hne
      obtain ⟨hs, rfl⟩ := hne
      have hstate := trackState_setTrack b.psram b.slot st.track st.bitCount .dirty
        (usable_of_have (hc _ ht))
      rw [hs] at hstate ⊢
      exact congrArg (· != TrackState.absent) hstate
  store := by
    intro hall st' hst'
    cases hst'
    exact hall st h
  dirty := by
    intro t hd
    by_cases hne : b.slot ≠ st.slot ∨ t ≠ st.track
    · have hstate := trackState_setTrack_other b.psram st.slot st.track st.bitCount b.slot t .dirty hne
      exact (congrArg (· == TrackState.dirty) hstate).trans hd
    · simp only [not_or, ne_eq, not_not] at hne
      obtain ⟨hs, rfl⟩ := hne
      have hu : b.psram.usable b.slot st.track = true := by
        refine usable_of_state ?_
        rw [Board.dirty, dirtyAt, beq_iff_eq] at hd
        rw [hd]
        decide
      have hstate := trackState_setTrack b.psram b.slot st.track st.bitCount .dirty hu
      show dirtyAt _ b.slot st.track = true
      rw [dirtyAt, beq_iff_eq]
      rw [hs] at hstate ⊢
      exact hstate
  track := by
    intro hc t' ht'
    rcases copying_or h t' with ⟨hs, rfl⟩ | ⟨hne, hno⟩
    · refine .inl ?_
      have hstate := trackState_setTrack b.psram b.slot st.track st.bitCount .dirty
        (usable_of_have (hc _ ht'))
      show dirtyAt _ b.slot st.track = true
      rw [dirtyAt, beq_iff_eq]
      rw [← hs] at hstate ⊢
      exact hstate
    · exact .inr (.inr ⟨same_setTrack _ _ _ (same_slot hne), hno⟩)

-- ---------------------------------------------------------------------------
-- The uploader's steps
-- ---------------------------------------------------------------------------

/-- The uploader touches nothing but flags. -/
structure Turn (b b' : Board σ) : Prop where
  slot : b'.slot = b.slot
  store : b'.store = b.store
  same : ∀ t : Nat, Same b.psram b'.psram b.slot t

theorem Turn.refl (b : Board σ) : Turn b b := ⟨rfl, rfl, fun _ => .refl ..⟩

theorem Turn.trans {b b' b'' : Board σ} (h : Turn b b') (h' : Turn b' b'') : Turn b b'' := by
  refine ⟨h'.slot.trans h.slot, h'.store.trans h.store, fun t => (h.same t).trans ?_⟩
  have hsame := h'.same t
  rw [h.slot] at hsame
  exact hsame

theorem Turn.held {b b' : Board σ} (h : Turn b b') (t : Nat) : b'.held t = b.held t := by
  rw [Board.held, Board.held, h.slot]
  exact same_held (h.same t)

theorem Turn.copying {b b' : Board σ} (h : Turn b b') (t : Nat) : b'.copying t = b.copying t := by
  rw [Board.copying, Board.copying, h.slot, h.store]

theorem Turn.trackLen {b b' : Board σ} (h : Turn b b') :
    trackLen b'.psram b'.slot = trackLen b.psram b.slot := by
  rw [h.slot, Uploading.trackLen, Uploading.trackLen, same_slotKind (h.same 0)]

theorem Turn.complete {b b' : Board σ} (h : Turn b b') (hc : Complete b.psram b.slot) :
    Complete b'.psram b'.slot := by
  rw [h.slot]
  exact same_complete h.same hc

theorem Turn.sized {b b' : Board σ} (h : Turn b b') {r : Reader} (hr : r.Sized b.psram b.slot) :
    r.Sized b'.psram b'.slot := by
  intro hkind
  rw [h.slot, same_slotKind (h.same 0)] at hkind
  exact hr hkind

theorem Turn.hashed {b b' : Board σ} (h : Turn b b') (hd : ∀ t, b.dirty t = true → b'.dirty t = true)
    (hi : Hashed b image) : Hashed b' image := by
  intro i trk htrk
  obtain ⟨hsize, hsince⟩ := hi i trk htrk
  refine ⟨hsize.trans h.trackLen.symm, ?_⟩
  rw [h.held, h.copying]
  exact hsince.imp_left (hd i)

/-- Nothing the uploader owes is staged for the session but is not in the known
tracks. -/
theorem Inv.view_base {s : State σ} (h : Inv s) (ht : s.known t = false) :
    s.view s.board.up.current t = s.base t := by
  unfold State.view
  cases hcur : s.board.up.current with
  | none => rfl
  | some e =>
    cases hst : (s.rows e).staged t with
    | none => simp [hst]
    | some d =>
      obtain ⟨u, hu, rfl, rfl, -⟩ := h.sessions.staged e t d hst
      obtain ⟨howes, -⟩ := h.owed u hu hcur
      simp [State.known, howes] at ht

/-- A step within the session: what was owed stays owed. -/
theorem Inv.onward {s : State σ} (h : Inv s) {b' : Board σ} (ht : Turn s.board b')
    (hcur : b'.up.current = s.board.up.current) (hopened : b'.up.opened = s.board.up.opened)
    (hseq : b'.up.seq = s.board.up.seq)
    (hidle : s.board.up.current = none → ∀ t, s.board.up.sent t = false → b'.up.sent t = false)
    (howes : ∀ t, s.board.owes t = true → b'.owes t = true) (hpc : PcOk b') :
    Inv { s with board := b' } where
  complete := ht.complete h.complete
  store := fun st hst => h.store st (by rw [← ht.store]; exact hst)
  sessions := by
    obtain ⟨hnumber, hnone, holder, hunused, hstaged, hnumbered, hseq'⟩ := h.sessions
    refine ⟨fun e he => ?_, fun he t => ?_, fun u hu => ?_, fun e he => ?_, hstaged, hnumbered,
      fun e he => ?_⟩
    · exact (hnumber e (hcur ▸ he)).trans hopened.symm
    · have hnone' : s.board.up.current = none := hcur ▸ he
      exact hidle hnone' t (hnone hnone' t)
    · exact (holder u hu).trans (Nat.le_of_eq hopened.symm)
    · exact hunused e (hopened ▸ he)
    · exact hseq.trans (hseq' e (hcur ▸ he))
  owed := by
    intro u hu he
    obtain ⟨hown, hlen⟩ := h.owed u hu (hcur ▸ he)
    exact ⟨howes _ hown, hlen.trans ht.trackLen.symm⟩
  base := fun t htr => (h.base t htr).trans ht.trackLen.symm
  kept := by
    intro t htr
    rcases h.kept t htr with hknown | hrest
    · refine .inl ?_
      simp only [State.known, Bool.or_eq_true] at hknown ⊢
      exact hknown.imp_left (howes t)
    · refine .inr ?_
      rw [ht.copying, ht.held, hcur]
      exact hrest
  pc := hpc

/-- A step that ends the session, or comes between two: what was known is dirty
again, or has yielded. -/
theorem Inv.ended {s : State σ} (h : Inv s) {b' : Board σ} {y : Nat → Bool} (ht : Turn s.board b')
    (hcur : b'.up.current = none) (hopened : b'.up.opened = s.board.up.opened)
    (hsent : ∀ t, b'.up.sent t = false)
    (hknown : ∀ t < tracks, s.known t = true → b'.dirty t = true ∨ y t = true) (hpc : b'.pc = .idle) :
    Inv { s with board := b', yielded := y } where
  complete := ht.complete h.complete
  store := fun st hst => h.store st (by rw [← ht.store]; exact hst)
  sessions := by
    obtain ⟨-, -, holder, hunused, hstaged, hnumbered, -⟩ := h.sessions
    refine ⟨fun e he => ?_, fun _ => hsent, fun u hu => ?_, fun e he => ?_, hstaged, hnumbered,
      fun e he => ?_⟩
    · exact absurd (he.symm.trans hcur) (by simp)
    · exact (holder u hu).trans (Nat.le_of_eq hopened.symm)
    · exact hunused e (hopened ▸ he)
    · exact absurd (he.symm.trans hcur) (by simp)
  owed := fun u _ he => absurd (he.symm.trans hcur) (by simp)
  base := fun t htr => (h.base t htr).trans ht.trackLen.symm
  kept := by
    intro t htr
    cases hk : s.known t with
    | true =>
      refine .inl ?_
      simp only [State.known, Board.owes, Bool.or_eq_true]
      exact (hknown t htr hk).imp_left fun hd => .inl (.inl hd)
    | false =>
      have hbase := h.view_base hk
      rcases h.kept t htr with hknown' | hcopy | hheld
      · exact absurd (hknown'.symm.trans hk) (by decide)
      · exact .inr (.inl ((ht.copying t).trans hcopy))
      · refine .inr (.inr ((ht.held t).trans (hheld.trans (congrArg some (hbase.trans ?_)))))
        rw [hcur]
        rfl
  pc := by
    unfold PcOk
    rw [hpc]
    trivial

end

end WebAdf.Uploading
