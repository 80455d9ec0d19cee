import WebAdf.Firmware.NfcReader

/-!
# Taps

When a tag counts as one that arrived. The held tag's anchor is never before the
last sighting of it nor before the arm, and the word-sized clock only ever makes
a time away look shorter, so a hold that runs out was away for its whole window.
-/

namespace WebAdf.Firmware.Nfc

open Lib

/-- Not seen for so long up to `till`, in a time that began at `since` or later. -/
def Away (sights : List (Nat × Uid)) (uid : Uid) (since ms till : Nat) : Prop :=
  ∃ last, since ≤ last ∧ last + ms ≤ till ∧ ∀ s ∈ sights, s.2 = uid → ¬(last < s.1 ∧ s.1 < till)

/-- Since the arm the tag has been away for the full window. -/
def NfcArm.Gone (a : NfcArm) (uid : Uid) (now : Nat) : Prop :=
  ∃ till ≤ now, Away a.sights uid a.since rearrivalAbsentMs.toNat till

/-- The window of a held tag, by what it was reported as and whether a write is armed. -/
def windowOf (kind : NfcEvKind) (armed : Bool) : UInt32 :=
  if kind = .tagNext ∧ armed = false then rearrivalAbsentNextMs else rearrivalAbsentMs

/-- Since its report the tag has been away for its window. -/
def NfcTold.Left (k : NfcTold) (now : Nat) : Prop :=
  ∃ x ∈ k.lefts, x.1 ≤ now ∧ Away k.sights k.uid 0 (windowOf k.kind x.2).toNat x.1

def NfcNote.isArrived : NfcNote → Bool
  | .arrived .. => true
  | _ => false

/-- An arrival that may be one: the tag that the write found held has been away since,
or another was reported; and the last one reported has left. -/
def NfcNote.TapOk : NfcNote → Prop
  | .arrived now uid told arm =>
    (∀ a, arm = some a → a.held = some uid → (∃ v ∈ a.reports, v ≠ uid) ∨ a.Gone uid now) ∧
      ∀ k, told = some k → k.uid = uid → k.Left now
  | _ => True

/-- What the taps are decided from. -/
structure TapState where
  clock : Nat
  seenAt : Nat
  lastSeen : UInt32
  held : Bool
  heldNext : Bool
  lastUid : Uid
  armed : Bool
  arm : NfcArm
  told : Option NfcTold
  arrivals : List NfcNote

def NfcReader.tap (r : NfcReader) : TapState :=
  ⟨r.clock, r.seenAt, r.lastSeen, r.held, r.heldNext, r.lastUid, r.armed, r.arm, r.told, r.notes.filter (·.isArrived)⟩

namespace TapState

/-- The held tag as the one the report made it. -/
structure Holds (t : TapState) (k : NfcTold) : Prop where
  uid : t.lastUid = k.uid
  next : t.heldNext = (k.kind == NfcEvKind.tagNext)
  seen : ∀ s ∈ k.sights, s.2 = k.uid → s.1 ≤ t.seenAt

/-- Still the tag that was held when the write was armed. -/
structure Still (t : TapState) (u : Uid) : Prop where
  held : t.held = true
  uid : t.lastUid = u
  since : t.arm.since ≤ t.seenAt
  seen : ∀ s ∈ t.arm.sights, s.2 = u → s.1 ≤ t.seenAt

def ArmOk (t : TapState) : Prop :=
  ∀ uid, t.arm.held = some uid → (∃ v ∈ t.arm.reports, v ≠ uid) ∨ t.Still uid ∨ t.arm.Gone uid t.clock

end TapState

structure Taps (t : TapState) : Prop where
  seen : t.lastSeen = UInt32.ofNat t.seenAt
  le : t.seenAt ≤ t.clock
  untold : t.told = none → t.held = false
  holds : ∀ k, t.told = some k → t.held = true → t.Holds k
  left : ∀ k, t.told = some k → t.held = false → k.Left t.clock
  since : t.arm.since ≤ t.clock
  sights : ∀ s ∈ t.arm.sights, s.1 ≤ t.clock
  arm : t.armed = true → t.ArmOk
  arrivals : ∀ n ∈ t.arrivals, n.TapOk

-- ---------------------------------------------------------------------------
-- Times
-- ---------------------------------------------------------------------------

/-- The clock's low word never makes a time look longer. -/
theorem elapsed_le (h : from_ ≤ now) (hw : w ≤ UInt32.ofNat now - UInt32.ofNat from_) : from_ + w.toNat ≤ now := by
  have hle := UInt32.le_iff_toNat_le.1 hw
  rw [UInt32.toNat_sub, UInt32.toNat_ofNat', UInt32.toNat_ofNat'] at hle
  have hpow : (2 : Nat) ^ 32 = 4294967296 := by decide
  omega

theorem Away.see (h : Away sights uid since ms till) (ht : till ≤ now) (v : Uid) :
    Away (sights ++ [(now, v)]) uid since ms till := by
  obtain ⟨last, hsince, hms, hnone⟩ := h
  refine ⟨last, hsince, hms, fun s hs heq => ?_⟩
  rcases List.mem_append.1 hs with hs | hs
  · exact hnone s hs heq
  · rw [List.mem_singleton.1 hs]
    rintro ⟨-, hlt⟩
    exact absurd hlt (by show ¬now < till; omega)

theorem NfcArm.Gone.later {a : NfcArm} (h : a.Gone uid now) (hle : now ≤ now') : a.Gone uid now' := by
  obtain ⟨till, ht, haway⟩ := h
  exact ⟨till, Nat.le_trans ht hle, haway⟩

theorem NfcTold.Left.later {k : NfcTold} (h : k.Left now) (hle : now ≤ now') : k.Left now' := by
  obtain ⟨x, hx, ht, haway⟩ := h
  exact ⟨x, hx, Nat.le_trans ht hle, haway⟩

-- ---------------------------------------------------------------------------
-- What moves the taps
-- ---------------------------------------------------------------------------

theorem Taps.tick {t : TapState} (h : Taps t) (ms : Nat) : Taps { t with clock := t.clock + ms } where
  seen := h.seen
  le := Nat.le_trans h.le (Nat.le_add_right _ _)
  untold := h.untold
  holds k hk hheld := ⟨(h.holds k hk hheld).uid, (h.holds k hk hheld).next, (h.holds k hk hheld).seen⟩
  left k hk hheld := (h.left k hk hheld).later (Nat.le_add_right _ _)
  since := Nat.le_trans h.since (Nat.le_add_right _ _)
  sights s hs := Nat.le_trans (h.sights s hs) (Nat.le_add_right _ _)
  arm ha uid hu := by
    obtain hforeign | hstill | hgone := h.arm ha uid hu
    · exact .inl hforeign
    · exact .inr (.inl ⟨hstill.held, hstill.uid, hstill.since, hstill.seen⟩)
    · exact .inr (.inr (hgone.later (Nat.le_add_right _ _)))
  arrivals := h.arrivals

theorem Taps.disarm {t : TapState} (h : Taps t) : Taps { t with armed := false } where
  seen := h.seen
  le := h.le
  untold := h.untold
  holds k hk hheld := ⟨(h.holds k hk hheld).uid, (h.holds k hk hheld).next, (h.holds k hk hheld).seen⟩
  left := h.left
  since := h.since
  sights := h.sights
  arm ha := by cases ha
  arrivals := h.arrivals

/-- The tag that is held seen now, or taken to be. -/
def TapState.anchored (t : TapState) : TapState := { t with lastSeen := UInt32.ofNat t.clock, seenAt := t.clock }

theorem Taps.anchored {t : TapState} (h : Taps t) : Taps t.anchored where
  seen := rfl
  le := Nat.le_refl _
  untold := h.untold
  holds k hk hheld := ⟨(h.holds k hk hheld).uid, (h.holds k hk hheld).next,
    fun s hs heq => Nat.le_trans ((h.holds k hk hheld).seen s hs heq) h.le⟩
  left := h.left
  since := h.since
  sights := h.sights
  arm ha uid hu := by
    obtain hforeign | hstill | hgone := h.arm ha uid hu
    · exact .inl hforeign
    · exact .inr (.inl ⟨hstill.held, hstill.uid, Nat.le_trans hstill.since h.le, fun s hs heq => Nat.le_trans (hstill.seen s hs heq) h.le⟩)
    · exact .inr (.inr hgone)
  arrivals := h.arrivals

/-- A tag seen while it is the held one, or while none is held or another. -/
def TapState.sighted (t : TapState) (uid : Uid) : TapState :=
  { t with
    arm := { t.arm with sights := t.arm.sights ++ [(t.clock, uid)] }
    told := t.told.map fun k => { k with sights := k.sights ++ [(t.clock, uid)] } }

/-- The held tag may be sighted only where it is anchored at that moment. -/
theorem Taps.sighted {t : TapState} (h : Taps t) (uid : Uid)
    (hanchor : t.held = true → t.lastUid = uid → t.seenAt = t.clock) : Taps (t.sighted uid) where
  seen := h.seen
  le := h.le
  untold hk := h.untold (Option.map_eq_none_iff.1 hk)
  holds k hk hheld := by
    obtain ⟨k, hold, rfl⟩ := Option.map_eq_some_iff.1 hk
    have hold := h.holds k hold hheld
    refine ⟨hold.uid, hold.next, fun s hs heq => ?_⟩
    rcases List.mem_append.1 hs with hs | hs
    · exact hold.seen s hs heq
    · rw [List.mem_singleton.1 hs] at heq ⊢
      exact Nat.le_of_eq (hanchor hheld (hold.uid.trans heq.symm)).symm
  left k hk hheld := by
    obtain ⟨k, hold, rfl⟩ := Option.map_eq_some_iff.1 hk
    obtain ⟨x, hx, hle, haway⟩ := h.left k hold hheld
    exact ⟨x, hx, hle, haway.see hle uid⟩
  since := h.since
  sights s hs := by
    rcases List.mem_append.1 hs with hs | hs
    · exact h.sights s hs
    · obtain rfl := List.mem_singleton.1 hs
      exact Nat.le_refl _
  arm ha u hu := by
    obtain hforeign | hstill | ⟨till, hle, haway⟩ := h.arm ha u hu
    · exact .inl hforeign
    · refine .inr (.inl ⟨hstill.held, hstill.uid, hstill.since, fun s hs heq => ?_⟩)
      rcases List.mem_append.1 hs with hs | hs
      · exact hstill.seen s hs heq
      · rw [List.mem_singleton.1 hs] at heq ⊢
        exact Nat.le_of_eq (hanchor hstill.held (hstill.uid.trans heq.symm)).symm
    · exact .inr (.inr ⟨till, hle, haway.see hle uid⟩)
  arrivals := h.arrivals

-- ---------------------------------------------------------------------------
-- What leaves the taps alone
-- ---------------------------------------------------------------------------

namespace NfcReader

theorem tap_note (r : NfcReader) (h : n.isArrived = false) : (r.note n).tap = r.tap := by
  rw [tap, tap, note, List.filter_append, List.filter_cons_of_neg (by rw [h]; decide), List.filter_nil, List.append_nil]

theorem tap_emit (r : NfcReader) (e : NfcEvent) : (r.emit e).tap = r.tap := by
  rw [emit]
  cases r.ev with
  | none => rfl
  | some lost => exact tap_note r rfl

theorem tap_finish (r : NfcReader) (kind : NfcEvKind) (why : Option String) : (r.finish kind why).tap = r.tap := rfl

theorem tap_moved (r : NfcReader) : r.moved.tap = r.tap := rfl

theorem tap_tagSelected (r : NfcReader) (sak : UInt8) : (r.tagSelected sak).tap = r.tap := by
  rw [tagSelected]
  cases classify r.uid.length sak with
  | none => rfl
  | classic => rfl
  | t2 => rfl

theorem tap_authDone (r : NfcReader) (ok : Bool) : (r.authDone ok).tap = r.tap := by
  cases ok with
  | false => rfl
  | true => rfl

theorem tap_blockWritten (r : NfcReader) : r.blockWritten.tap = r.tap := by
  rw [blockWritten]
  split
  · rfl
  · rfl

theorem tap_pageWritten (r : NfcReader) : r.pageWritten.tap = r.tap := by
  rw [pageWritten]
  split
  · rfl
  · exact tap_blockWritten _

theorem tap_sendWrite (r : NfcReader) : r.sendWrite.tap = r.tap := by
  rw [sendWrite]
  split
  · split
    · rfl
    · exact tap_note r rfl
  · exact tap_note r rfl

theorem tap_writeAcked (r : NfcReader) : r.writeAcked.tap = r.tap := by
  rw [writeAcked]
  split
  · exact tap_pageWritten r
  · exact tap_blockWritten r

theorem tap_writeNaked (r : NfcReader) : r.writeNaked.tap = r.tap := by
  rw [writeNaked]
  split
  · rfl
  · rfl

theorem tap_decoded (r : NfcReader) : r.decoded.tap = r.tap := by
  rw [decoded]
  split
  · rfl
  · rfl
  · rfl
  · rfl

theorem tap_blockIn (r : NfcReader) (b : Bytes) : (r.blockIn b).tap = r.tap := by
  rw [blockIn]
  split
  · rfl
  · exact tap_decoded _

theorem tap_blockBack (r : NfcReader) (b : Bytes) : (r.blockBack b).tap = r.tap := by
  rw [blockBack]
  split
  · rfl
  · rfl

theorem tap_loseChip (r : NfcReader) : r.loseChip.tap = r.tap := tap_emit _ _

theorem tap_settle (r : NfcReader) : r.settle.tap = r.tap := by
  rw [settle]
  split
  · exact tap_loseChip r
  · rfl

end NfcReader

-- ---------------------------------------------------------------------------
-- What the session does with them
-- ---------------------------------------------------------------------------

open NfcReader

variable {r r' : NfcReader}

/-- The hold runs out: the tag was away for the window that applies. -/
theorem Taps.expireHold (h : Taps r.tap) : Taps r.expireHold.tap := by
  rw [NfcReader.expireHold]
  split
  · exact h
  · rename_i hover
    rw [Bool.or_eq_true, not_or, Bool.not_eq_true', Bool.not_eq_false, decide_eq_true_eq, UInt32.not_lt] at hover
    obtain ⟨hheld, hlong⟩ := hover
    have haway : r.seenAt + r.holdWindow.toNat ≤ r.clock := by
      refine elapsed_le h.le ?_
      rw [nowMs, show r.lastSeen = UInt32.ofNat r.seenAt from h.seen] at hlong
      exact hlong
    refine ⟨h.seen, h.le, fun _ => rfl, fun _ _ hf => (Bool.false_ne_true hf).elim, fun k hk _ => ?_, h.since, h.sights,
      fun ha uid hu => ?_, h.arrivals⟩
    · obtain ⟨k, hold, rfl⟩ := Option.map_eq_some_iff.1 hk
      have hold := h.holds k hold hheld
      refine ⟨(r.clock, r.armed), by simp [NfcTold.left], Nat.le_refl _, r.seenAt, Nat.zero_le _, ?_, fun s hs heq hlt => ?_⟩
      · have hwin : windowOf (k.left r.clock r.armed).kind r.armed = r.holdWindow := by
          rw [holdWindow, windowOf, show r.heldNext = (k.kind == NfcEvKind.tagNext) from hold.next]
          show (if k.kind = .tagNext ∧ r.armed = false then _ else _) = _
          cases r.armed <;> simp
        rw [hwin]
        exact haway
      · have hle : s.1 ≤ r.seenAt := hold.seen s hs heq
        exact absurd hlt.1 (by omega)
    · obtain hforeign | hstill | hgone := h.arm ha uid hu
      · exact .inl hforeign
      · refine .inr (.inr ⟨r.clock, Nat.le_refl _, r.seenAt, hstill.since, ?_, fun s hs heq hlt => ?_⟩)
        · have harmed : r.armed = true := ha
          rw [holdWindow, harmed, Bool.not_true, Bool.and_false, if_neg (by decide)] at haway
          exact haway
        · have hle : s.1 ≤ r.seenAt := hstill.seen s hs heq
          exact absurd hlt.1 (by omega)
      · exact .inr (.inr hgone)

theorem Taps.of_eq (h : Taps r.tap) (heq : r'.tap = r.tap) : Taps r'.tap := heq ▸ h

theorem tap_sighted (r : NfcReader) (uid : Uid) : (r.sighted uid).tap = r.tap.sighted uid := rfl

theorem tap_sameTap (r : NfcReader) : r.sameTap.tap = r.tap.anchored := by
  rw [sameTap]
  split
  · rfl
  · rfl

theorem tap_newTap (r : NfcReader) : r.newTap.tap = { r.tap with arrivals := r.tap.arrivals ++
    [.arrived r.clock r.uid r.told (if r.armed then some r.arm else none)] } := by
  cases ha : r.armed with
  | true => simp [newTap, note, tap, ha, NfcNote.isArrived]
  | false => simp [newTap, note, tap, ha, NfcNote.isArrived]

/-- A poll found a tag; what follows a new arrival leaves the taps alone. -/
theorem Taps.arrival (h : Taps r.tap) {next : NfcReader → NfcReader} (hnext : ∀ r, (next r).tap = r.tap) :
    Taps (r.arrival next).tap := by
  have he := h.expireHold
  rw [NfcReader.arrival]
  generalize r.expireHold = r at he
  split
  · rw [tap_sighted, tap_sameTap]
    exact he.anchored.sighted _ fun _ _ => rfl
  · rename_i hnot
    rw [isHeld, Bool.and_eq_true, beq_iff_eq] at hnot
    rw [hnext, tap_sighted]
    have hnew : Taps r.newTap.tap := by
      rw [tap_newTap]
      refine ⟨he.seen, he.le, he.untold,
        fun k hk hheld => ⟨(he.holds k hk hheld).uid, (he.holds k hk hheld).next, (he.holds k hk hheld).seen⟩,
        he.left, he.since, he.sights, fun ha u hu => ?_, fun n hn => ?_⟩
      · obtain hforeign | hstill | hgone := he.arm ha u hu
        · exact .inl hforeign
        · exact .inr (.inl ⟨hstill.held, hstill.uid, hstill.since, hstill.seen⟩)
        · exact .inr (.inr hgone)
      · rcases List.mem_append.1 hn with hn | hn
        · exact he.arrivals n hn
        · rw [List.mem_singleton.1 hn]
          refine ⟨fun a ha hheld => ?_, fun k hk huid => ?_⟩
          · split at ha
            · rename_i harmed
              obtain rfl := Option.some.inj ha
              obtain hforeign | hstill | hgone := he.arm harmed _ hheld
              · exact .inl hforeign
              · exact absurd ⟨hstill.held, hstill.uid.symm⟩ hnot
              · exact .inr hgone
            · cases ha
          · cases hheld : r.held with
            | false => exact he.left k hk hheld
            | true => exact absurd ⟨hheld, ((he.holds k hk hheld).uid.trans huid).symm⟩ hnot
    refine hnew.sighted _ fun hheld huid => absurd ⟨?_, ?_⟩ hnot
    · rw [tap_newTap] at hheld
      exact hheld
    · rw [tap_newTap] at huid
      exact huid.symm

theorem Taps.report (h : Taps r.tap) : Taps r.report.tap := by
  have htap : r.report.tap = { r.tap with
      held := true, heldNext := r.built.kind == NfcEvKind.tagNext, lastUid := r.uid
      lastSeen := UInt32.ofNat r.clock, seenAt := r.clock
      armed := r.armed && !(r.built.kind == NfcEvKind.writeDone && r.armSeq == r.built.seq)
      arm := { r.arm with sights := r.arm.sights ++ [(r.clock, r.uid)], reports := r.arm.reports ++ [r.uid] }
      told := some ⟨r.uid, r.built.kind, [], []⟩ } := by
    rw [NfcReader.report]
    show (enterIdle (emit _ _) _).tap = _
    rw [show ∀ (r : NfcReader) b, (r.enterIdle b).tap = r.tap from fun _ _ => rfl, tap_emit, tap_note _ rfl]
    split
    · exact tap_note _ rfl
    · rfl
  have hsights : ∀ s ∈ r.arm.sights ++ [(r.clock, r.uid)], s.1 ≤ r.clock := by
    intro s hs
    rcases List.mem_append.1 hs with hs | hs
    · exact h.sights s hs
    · obtain rfl := List.mem_singleton.1 hs
      exact Nat.le_refl _
  rw [htap]
  refine ⟨rfl, Nat.le_refl _, nofun, fun k hk _ => ?_, fun _ _ hf => (Bool.noConfusion hf : False).elim, h.since, hsights,
    fun ha u hu => ?_, h.arrivals⟩
  · obtain rfl := Option.some.inj hk
    exact ⟨rfl, rfl, nofun⟩
  · by_cases hu' : r.uid = u
    · exact .inr (.inl ⟨rfl, hu', h.since, fun s hs _ => hsights s hs⟩)
    · exact .inl ⟨r.uid, List.mem_append_right _ (List.mem_singleton_self _), hu'⟩

theorem Taps.chipFound (h : Taps r.tap) : Taps r.chipFound.tap := by
  rw [NfcReader.chipFound, tap_emit]
  split
  · exact h.anchored
  · exact h

theorem Taps.armWith (h : Taps r.tap) (seq : UInt32) (payload : Option Bytes) : Taps (r.armWith seq payload).tap := by
  have hexp : Taps (if r.present then r.expireHold else r).tap := by
    split
    · exact h.expireHold
    · exact h
  rw [NfcReader.armWith.eq_def, armGate]
  generalize (if r.present then r.expireHold else r) = r at hexp
  have harm : ∀ r : NfcReader, Taps r.tap → (r.held = true → r.seenAt = r.clock) → ∀ armed,
      Taps { r.tap with
        armed := armed, arm := ⟨r.arm.no + 1, seq, payload, r.clock, if r.held then some r.lastUid else none, [], []⟩ } := by
    intro r h hseen armed
    refine ⟨h.seen, h.le, h.untold,
      fun k hk hheld => ⟨(h.holds k hk hheld).uid, (h.holds k hk hheld).next, (h.holds k hk hheld).seen⟩, h.left, Nat.le_refl _,
      nofun, fun _ u hu => ?_, h.arrivals⟩
    cases hheld : r.held with
    | false =>
      rw [hheld] at hu
      cases hu
    | true =>
      rw [hheld] at hu
      exact .inr (.inl ⟨hheld, Option.some.inj hu, Nat.le_of_eq (hseen hheld).symm, nofun⟩)
  have hanchored : Taps (if r.held then { r with lastSeen := r.nowMs, seenAt := r.clock } else r : NfcReader).tap ∧
      ((if r.held then { r with lastSeen := r.nowMs, seenAt := r.clock } else r : NfcReader).held = true →
        (if r.held then { r with lastSeen := r.nowMs, seenAt := r.clock } else r : NfcReader).seenAt =
          (if r.held then { r with lastSeen := r.nowMs, seenAt := r.clock } else r : NfcReader).clock) := by
    split
    · exact ⟨hexp.anchored, fun _ => rfl⟩
    · rename_i hno
      exact ⟨hexp, fun ht => absurd ht hno⟩
  obtain ⟨htaps, hseen⟩ := hanchored
  generalize (if r.held then { r with lastSeen := r.nowMs, seenAt := r.clock } else r : NfcReader) = r at htaps hseen
  cases payload with
  | some b => exact harm r htaps hseen true
  | none => exact harm r htaps hseen false

/-- One turn. -/
theorem Taps.handle (hs : Handle r r') (h : Taps r.tap) : Taps r'.tap := by
  cases hs with
  | wait => exact h
  | transfer => exact h
  | probe => exact h
  | check answered =>
    rw [absentCheck]
    split
    · exact Taps.chipFound (r := ({ r with checkedOnce := true, t0 := r.nowMs, fails := 0, chip := .si512 } : NfcReader).go
        (.reset false)) h
    · exact h
  | report => exact h.report
  | resetSent => exact h
  | resetDone => exact h
  | resetLate =>
    split
    · exact h.of_eq (tap_loseChip _)
    · exact h
  | initDone => exact h
  | isOff => exact h
  | si512Back answered =>
    rw [si512Back]
    split
    · exact h
    · exact h
  | pollDue => exact h.expireHold
  | isOn => exact h
  | atqa => exact h
  | noTag => exact h
  | collision => exact h
  | double => exact h
  | single part => exact Taps.arrival (r := { r with uid := part }) h fun _ => rfl
  | whole rest => exact Taps.arrival (r := { r with uid := r.uid.drop 1 ++ rest }) h fun _ => rfl
  | listed uid sak => exact Taps.arrival (r := { r with uid := uid }) h fun r => tap_tagSelected r sak
  | tooLong uid => exact Taps.arrival (r := { r with uid := uid }) h fun _ => rfl
  | selected sak => exact h.of_eq (tap_tagSelected r sak)
  | moved => exact h
  | authed ok => exact h.of_eq (tap_authDone r ok)
  | block b => exact h.of_eq (tap_blockIn r b)
  | back b => exact h.of_eq (tap_blockBack r b)
  | send => exact h.of_eq (tap_sendWrite r)
  | ack => exact h.of_eq (tap_writeAcked r)
  | nak => exact h.of_eq (tap_writeNaked r)
  | pnFound => exact Taps.chipFound (r := { r with probing := false, tSi512 := r.nowMs }) h
  | pnReady => exact h
  | pnGiveUp => exact h
  | pnLost => exact h.of_eq (tap_loseChip r)

theorem Taps.step (hs : NfcStep r r') (h : Taps r.tap) : Taps r'.tap := by
  cases hs with
  | tick ms => exact h.tick ms
  | takeEvent => exact h
  | takeGap => exact h
  | armWrite seq diskId => exact h.armWith seq _
  | armWriteNext seq => exact h.armWith seq _
  | disarm => exact h.disarm
  | disable => exact h
  | attach => exact h
  | refuseArm =>
    refine h.of_eq ?_
    rw [refuseArm, tap_emit, tap_note _ rfl]
    rfl
  | turn _ _ _ hh => exact (h.handle hh).of_eq (tap_settle _)

end WebAdf.Firmware.Nfc
