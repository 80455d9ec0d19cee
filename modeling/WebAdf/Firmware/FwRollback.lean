import WebAdf.Firmware.FwBoots
import WebAdf.Lib.Run

/-!
# Anti-rollback over every boot

The sequence on record moves only where a boot found the pending version running, and
then to what was pending, which is newer. An update on record is settled by one start-up
whose save lands.
-/

namespace WebAdf.Firmware

open Lib
open Relation (ReflTransGen)

-- ---------------------------------------------------------------------------
-- The record
-- ---------------------------------------------------------------------------

theorem FwState.load_encode {st : FwState} (h : st.Fits) (record : Bytes) :
    FwState.load (st.encode.getD record) = st := by
  obtain ⟨p, hp, hd⟩ := FwState.decode_encode h
  rw [hp, Option.getD_some, FwState.load, hd, Option.getD_some]

theorem load_saveRecord {st : FwState} (h : st.Fits) (record : Bytes) (saved : Bool) :
    FwState.load (saveRecord record st saved) = if saved then st else FwState.load record := by
  cases saved with
  | true => exact FwState.load_encode h record
  | false => rfl

theorem FwState.clearPending_fits (st : FwState) : st.clearPending.Fits :=
  ⟨⟨Nat.zero_le _, List.not_mem_nil⟩, ⟨Nat.zero_le _, List.not_mem_nil⟩⟩

theorem snprintf_take (n : Nat) (text : Bytes) : (snprintf (n + 1) text).1.length ≤ n ∧
    (0 ∉ text → 0 ∉ (snprintf (n + 1) text).1) := by
  refine ⟨?_, fun h hmem => h (List.mem_of_mem_take hmem)⟩
  rw [snprintf, List.length_take]
  exact Nat.min_le_left _ _

-- ---------------------------------------------------------------------------
-- The updater's offer
-- ---------------------------------------------------------------------------

namespace Fwu

/-- The offer held is newer than what is installed, and its version is a C string. -/
def Holds (u : Fwu) (st : FwState) : Prop :=
  u.phase ≠ .idle → u.phase ≠ .failed → st.installedSequence < u.offer.sequence ∧ 0 ∉ u.offer.version

theorem Holds.fail (u : Fwu) (st : FwState) (why : Bytes) : (u.fail why).Holds st := fun _ h => absurd rfl h

theorem Holds.refuse (h : Holds u st) (why : Bytes) : (u.refuse why).Holds st := by
  unfold Fwu.refuse
  split
  · exact h
  · exact .fail u st why

theorem fwOfferParse_version (h : fwOfferParse j = some o) : 0 ∉ o.version := by
  have hversion := (fwOfferParse_fields h).1
  simp only [isPathSafeVersion, Bool.and_eq_true] at hversion
  exact fun hmem => absurd (List.all_eq_true.1 hversion.1.2 _ hmem) (by decide)

theorem Holds.instruct (h : Holds u st) (k : FwKey) (canUpdate : Bool) (i : FwInstruction) :
    (u.instruct k canUpdate st.installedSequence i).Holds st := by
  cases i with
  | sync => exact h
  | malformed => exact h.refuse _
  | cancelled =>
    show (u.onInstruction none .ok).Holds st
    unfold onInstruction
    split
    · exact h
    · exact fun hidle => absurd rfl hidle
  | offer json =>
    unfold Fwu.instruct
    dsimp only
    split
    · exact h.refuse _
    · split
      · next o ho =>
        unfold onInstruction
        split
        · exact h
        · dsimp only
          split
          · exact .fail _ st _
          · next hok =>
            obtain ⟨-, hnewer, -⟩ := fwCheckOffer_ok (not_not.1 hok)
            exact fun _ _ => ⟨hnewer, fwOfferParse_version ho⟩
      · exact h.refuse _

/-- What a step leaves: the offer held as it was, and either no record saved, or the
record of that offer. -/
theorem Stepped.holds (h : Stepped u ops st u' st' calls) (hh : Holds u st) :
    Holds u' st' ∧ st'.installedSequence = st.installedSequence ∧
      ((∀ c ∈ calls, ∀ s, c ≠ .saveState s) ∧ st' = st ∨
        u.phase = .applying ∧ (∃ more, calls = u.applyCall :: .saveState (u.recorded st) :: more ∧
          ∀ c ∈ more, ∀ s, c ≠ .saveState s) ∧
          (ops.saved = false ∧ st' = { u.recorded st with pending := false } ∨ ops.saved = true ∧ st' = u.recorded st)) := by
  cases h with
  | still => exact ⟨hh, rfl, .inl ⟨nofun, rfl⟩⟩
  | fetching hp => exact ⟨fun _ _ => hh (by rw [hp]; nofun) (by rw [hp]; nofun), rfl, .inl ⟨nofun, rfl⟩⟩
  | fetched hp ho hs hm =>
    refine ⟨fun _ _ => ?_, rfl, .inl ⟨fun c hc s => ?_, rfl⟩⟩
    · rw [ho]
      exact hh (by rw [hp]; nofun) (by rw [hp]; nofun)
    · rw [List.mem_singleton.1 hc]
      nofun
  | applying hp => exact ⟨fun _ _ => hh (by rw [hp]; nofun) (by rw [hp]; nofun), rfl, .inl ⟨nofun, rfl⟩⟩
  | notApplied hp why =>
    refine ⟨.fail u _ why, rfl, .inl ⟨fun c hc s => ?_, rfl⟩⟩
    rw [List.mem_singleton.1 hc]
    nofun
  | notSaved hp hs why => exact ⟨.fail u _ why, rfl, .inr ⟨hp, ⟨[], rfl, nofun⟩, .inl ⟨hs, rfl⟩⟩⟩
  | rebooting hp hs =>
    refine ⟨fun _ _ => hh (by rw [hp]; nofun) (by rw [hp]; nofun), rfl, .inr ⟨hp, ⟨_, rfl, fun c hc s => ?_⟩,
      .inr ⟨hs, rfl⟩⟩⟩
    rw [List.mem_singleton.1 hc]
    nofun

theorem recorded_fits (u : Fwu) (st : FwState) (h : 0 ∉ u.offer.version) : (u.recorded st).Fits :=
  ⟨⟨(snprintf_take _ _).1, (snprintf_take _ _).2 h⟩, ⟨Nat.zero_le _, List.not_mem_nil⟩⟩

end Fwu

namespace FwBoard

variable {b : FwBoard}

-- ---------------------------------------------------------------------------
-- The invariant
-- ---------------------------------------------------------------------------

/-- After a start-up the sequence in memory is the one on record, or the pending one of
the version that runs. -/
def Caught (record : Bytes) (up : FwUp) : Prop :=
  up.st.installedSequence = (FwState.load record).installedSequence ∨
    (FwState.load record).pending = true ∧ (FwState.load record).pendingVersion = up.running ∧
      up.st.installedSequence = (FwState.load record).pendingSequence

/-- A running boot, by its part. -/
def UpOk (b : FwBoard) (up : FwUp) : Prop :=
  up.u.Holds up.st ∧
    match up.part with
    | .early => up.u.phase = .idle
    | .trial => up.st = FwState.load b.record
    | .parked => True
    | .loop => up.trial = false ∧ Caught b.record up
    | .report _ landed => up.trial = false ∧ Caught b.record up ∧ .reported b.updates true ∉ b.notes ∧
        (landed = true → (FwState.load b.record).pending = false ∧ (FwState.load b.record).pendingSequence = 0 ∧
          (FwState.load b.record).pendingVersion = [])

structure Inv (b : FwBoard) : Prop where
  sound : Sound b.record
  mark : b.mark.1 = fwProvenMagic → ∃ ms pending, b.asked = some (ms, pending) ∧
    (pending = true → ms < fwTrialBuyCutoffMs)
  bought : ∀ asked, .bought asked ∈ b.notes → ∃ ms pending, asked = some (ms, pending) ∧
    (pending = true → ms < fwTrialBuyCutoffMs)
  numbered : ∀ update landed, .reported update landed ∈ b.notes → update ≤ b.updates
  settled : .reported b.updates true ∈ b.notes → (FwState.load b.record).pending = false
  once : b.notes.Pairwise fun x y => ∀ update landed, x = .reported update true → y ≠ .reported update landed
  ofUp : ∀ up, b.up = some up → b.UpOk up

theorem unmarked : (0 : UInt32) ≠ fwProvenMagic := by decide

theorem start_up (r : Bytes) : (start r).up = none := rfl

theorem start_notes (r : Bytes) : (start r).notes = [] := rfl

theorem start_inv {r : Bytes} (h : Sound r) : (start r).Inv where
  sound := h
  mark hm := absurd hm unmarked
  bought _ hn := absurd hn (by rw [start_notes]; exact List.not_mem_nil)
  numbered _ _ hn := absurd hn (by rw [start_notes]; exact List.not_mem_nil)
  settled hn := absurd hn (by rw [start_notes]; exact List.not_mem_nil)
  once := .nil
  ofUp up hup := by rw [start_up] at hup; cases hup

theorem stop_up (b : FwBoard) (how : FwStop) : (b.stop how).up = none := rfl

theorem Inv.stop (h : b.Inv) (how : FwStop) : (b.stop how).Inv := by
  refine ⟨h.sound, fun hm => h.mark ?_, h.bought, h.numbered, h.settled, h.once, fun up hup => ?_⟩
  rotate_left
  · rw [stop_up] at hup
    cases hup
  cases how with
  | power => exact absurd hm unmarked
  | reset => exact hm
  | reboot => exact fwMarkOtaReboot_proven hm

theorem Inv.boot (h : b.Inv) (stageBuf running : Bytes) (trial bought : Bool) :
    (b.boot stageBuf running trial bought).Inv := by
  have hup : ∀ up, (b.boot stageBuf running trial bought).up = some up → (b.boot stageBuf running trial bought).UpOk up := by
    intro up hup
    cases hup
    exact ⟨fun hidle => absurd rfl hidle, rfl⟩
  by_cases hb : (fwTrialProven trial b.mark.1 b.mark.2 running && bought) = true
  · have hnotes : (b.boot stageBuf running trial bought).notes = b.notes ++ [.bought b.asked] := if_pos hb
    have hproven : b.mark.1 = fwProvenMagic := by
      simp only [fwTrialProven, Bool.and_eq_true, beq_iff_eq] at hb
      exact hb.1.1.2
    refine ⟨h.sound, fun hm => absurd hm unmarked, ?_, ?_, ?_, ?_, hup⟩
    · rw [hnotes]
      intro asked ha
      rcases List.mem_append.1 ha with ha | ha
      · exact h.bought asked ha
      · cases List.mem_singleton.1 ha
        exact h.mark hproven
    · rw [hnotes]
      intro update landed hr
      rcases List.mem_append.1 hr with hr | hr
      · exact h.numbered update landed hr
      · cases List.mem_singleton.1 hr
    · rw [hnotes]
      intro hr
      rcases List.mem_append.1 hr with hr | hr
      · exact h.settled hr
      · cases List.mem_singleton.1 hr
    · rw [hnotes, List.pairwise_append]
      refine ⟨h.once, List.pairwise_singleton _ _, fun x _ y hy update landed _ => ?_⟩
      rw [List.mem_singleton.1 hy]
      nofun
  · have hnotes : (b.boot stageBuf running trial bought).notes = b.notes := if_neg hb
    refine ⟨h.sound, fun hm => absurd hm unmarked, ?_, ?_, ?_, ?_, hup⟩
    · rw [hnotes]
      exact h.bought
    · rw [hnotes]
      exact h.numbered
    · rw [hnotes]
      exact h.settled
    · rw [hnotes]
      exact h.once

theorem Rises.refl (b : FwBoard) {b' : FwBoard} (h : b'.record = b.record) : Rises b b' := by
  have hsame : b'.installed = b.installed := by rw [installed, h, installed]
  exact ⟨UInt32.le_of_eq hsame.symm, fun hne => absurd hsame hne⟩

theorem Inv.startUp {up : FwUp} (h : b.Inv) (hup : b.up = some up) (hpart : up.part = .early) (saved : Bool) :
    (b.startUp up saved).Inv ∧ Rises b (b.startUp up saved) := by
  obtain ⟨hh, hidle⟩ : up.u.Holds up.st ∧ up.u.phase = .idle := by
    have hok := h.ofUp up hup
    rw [UpOk, hpart] at hok
    exact hok
  have hholds : ∀ st, up.u.Holds st := fun st hp => absurd hidle hp
  cases htrial : up.trial with
  | true =>
    rw [FwBoard.startUp, if_pos htrial]
    refine ⟨⟨h.sound, h.mark, h.bought, h.numbered, h.settled, h.once, fun up' hup' => ?_⟩, .refl b rfl⟩
    cases hup'
    exact ⟨hholds _, rfl⟩
  | false =>
    have hrec := reconciled (FwState.load b.record) up.running (fwuErrorMax + 1)
    rw [FwBoard.startUp, if_neg (by rw [htrial]; decide)]
    generalize fwBootReconcile (FwState.load b.record) up.running (fwuErrorMax + 1) = r at hrec
    obtain ⟨found, st, why⟩ := r
    dsimp only at hrec ⊢
    cases hrec with
    | clean hp =>
      refine ⟨⟨h.sound, h.mark, h.bought, h.numbered, h.settled, h.once, fun up' hup' => ?_⟩, .refl b rfl⟩
      cases hup'
      exact ⟨hholds _, htrial, .inl rfl⟩
    | confirmed hp hv =>
      have hload := load_saveRecord (FwState.clearPending_fits
        { FwState.load b.record with installedSequence := (FwState.load b.record).pendingSequence }) b.record saved
      cases saved with
      | false =>
        refine ⟨⟨h.sound, h.mark, h.bought, h.numbered, h.settled, h.once, fun up' hup' => ?_⟩, .refl b rfl⟩
        cases hup'
        exact ⟨hholds _, htrial, .inr ⟨hp, hv, rfl⟩⟩
      | true =>
        rw [if_pos rfl] at hload
        refine ⟨⟨fun hpend => ?_, h.mark, h.bought, h.numbered, fun _ => ?_, h.once, fun up' hup' => ?_⟩, ⟨?_, fun _ => ?_⟩⟩
        · rw [hload] at hpend
          cases hpend
        · rw [hload]
          rfl
        · cases hup'
          refine ⟨hholds _, htrial, .inl ?_⟩
          rw [hload]
        · rw [installed, installed, hload]
          exact UInt32.le_of_lt (h.sound hp)
        · refine ⟨up, hup, htrial, hp, hv, ?_⟩
          rw [installed, hload]
          rfl
    | reverted hp hv =>
      have hnone : .reported b.updates true ∉ b.notes := fun hr => by
        rw [h.settled hr] at hp
        cases hp
      have hload := load_saveRecord (FwState.clearPending_fits (FwState.load b.record)) b.record saved
      cases saved with
      | false =>
        refine ⟨⟨h.sound, h.mark, h.bought, h.numbered, h.settled, h.once, fun up' hup' => ?_⟩, .refl b rfl⟩
        cases hup'
        exact ⟨hholds _, htrial, .inl rfl, hnone, nofun⟩
      | true =>
        rw [if_pos rfl] at hload
        have hsame : (FwState.load (saveRecord b.record (FwState.load b.record).clearPending true)).installedSequence =
            (FwState.load b.record).installedSequence := by
          rw [hload]
          rfl
        refine ⟨⟨fun hpend => ?_, h.mark, h.bought, h.numbered, fun _ => ?_, h.once, fun up' hup' => ?_⟩,
          ⟨UInt32.le_of_eq hsame.symm, fun hne => absurd hsame hne⟩⟩
        · rw [hload] at hpend
          cases hpend
        · rw [hload]
          rfl
        · cases hup'
          refine ⟨hholds _, htrial, .inl hsame.symm, hnone, fun _ => ?_⟩
          rw [hload]
          exact ⟨rfl, rfl, rfl⟩

theorem Inv.report {up : FwUp} (h : b.Inv) (hup : b.up = some up) (hpart : up.part = .report why landed) :
    (b.report up why landed).Inv ∧ Rises b (b.report up why landed) := by
  obtain ⟨hh, htrial, hcaught, hnone, hclear⟩ : up.u.Holds up.st ∧ up.trial = false ∧ Caught b.record up ∧
      .reported b.updates true ∉ b.notes ∧ (landed = true → (FwState.load b.record).pending = false ∧
        (FwState.load b.record).pendingSequence = 0 ∧ (FwState.load b.record).pendingVersion = []) := by
    have hok := h.ofUp up hup
    rw [UpOk, hpart] at hok
    exact hok
  refine ⟨⟨h.sound, h.mark, fun asked ha => ?_, fun update l hr => ?_, fun hr => ?_, ?_, fun up' hup' => ?_⟩, .refl b rfl⟩
  · rcases List.mem_append.1 ha with ha | ha
    · exact h.bought asked ha
    · cases List.mem_singleton.1 ha
  · rcases List.mem_append.1 hr with hr | hr
    · exact h.numbered update l hr
    · cases List.mem_singleton.1 hr
      exact Nat.le_refl _
  · rcases List.mem_append.1 hr with hr | hr
    · exact h.settled hr
    · cases List.mem_singleton.1 hr
      exact (hclear rfl).1
  · show (b.notes ++ [FwNote.reported b.updates landed]).Pairwise _
    rw [List.pairwise_append]
    refine ⟨h.once, List.pairwise_singleton _ _, fun x hx y hy update l hxu hyu => ?_⟩
    rw [List.mem_singleton.1 hy] at hyu
    cases hyu
    exact hnone (hxu ▸ hx)
  · cases hup'
    exact ⟨.fail _ _ _, htrial, hcaught⟩

theorem Inv.trialPass {up : FwUp} (h : b.Inv) (hup : b.up = some up) (hpart : up.part = .trial) (heartbeat : Bool) (ms : UInt32)
    (marked saved : Bool) :
    (b.trialPass up heartbeat ms marked saved).Inv ∧ Rises b (b.trialPass up heartbeat ms marked saved) := by
  obtain ⟨hh, hst⟩ : up.u.Holds up.st ∧ up.st = FwState.load b.record := by
    have hok := h.ofUp up hup
    rw [UpOk, hpart] at hok
    exact hok
  have hbuy : (fwTrialDecide ⟨true, up.st, up.running, heartbeat, ms⟩).1 = .buy → up.st.pending = true →
      ms < fwTrialBuyCutoffMs := fun hb hp => (fwTrialDecide_buy hb hp).2
  have hreason := fwTrialDecide_reason ⟨true, up.st, up.running, heartbeat, ms⟩
  rw [FwBoard.trialPass]
  generalize fwTrialDecide ⟨true, up.st, up.running, heartbeat, ms⟩ = r at hbuy hreason
  obtain ⟨action, why⟩ := r
  cases action with
  | none => exact ⟨h, .refl b rfl⟩
  | wait => exact ⟨h, .refl b rfl⟩
  | buy =>
    refine ⟨⟨h.sound, fun _ => ⟨ms, up.st.pending, rfl, hbuy rfl⟩, h.bought, h.numbered, h.settled, h.once,
      fun up' hup' => ?_⟩, .refl b rfl⟩
    cases hup'
    exact ⟨hh, trivial⟩
  | giveUp =>
    dsimp only at hreason ⊢
    have hfits : ({ up.st with failure := (snprintf (fwStateReasonMax + 1) why).1 } : FwState).Fits :=
      ⟨hst ▸ (FwState.load_fits b.record).version, (snprintf_take _ _).1, (snprintf_take _ _).2 hreason.2⟩
    have hload := load_saveRecord hfits b.record saved
    have hkeep : (FwState.load (saveRecord b.record { up.st with failure := (snprintf (fwStateReasonMax + 1) why).1 } saved)).installedSequence =
          (FwState.load b.record).installedSequence ∧
        (FwState.load (saveRecord b.record { up.st with failure := (snprintf (fwStateReasonMax + 1) why).1 } saved)).pending =
          (FwState.load b.record).pending ∧
        (FwState.load (saveRecord b.record { up.st with failure := (snprintf (fwStateReasonMax + 1) why).1 } saved)).pendingSequence =
          (FwState.load b.record).pendingSequence := by
      rw [hload, ← hst]
      cases saved
      · exact ⟨rfl, rfl, rfl⟩
      · exact ⟨rfl, rfl, rfl⟩
    obtain ⟨hinstalled, hpending, hsequence⟩ := hkeep
    refine ⟨⟨fun hp => ?_, h.mark, h.bought, h.numbered, fun hr => hpending.trans (h.settled hr), h.once,
      fun up' hup' => ?_⟩, ⟨UInt32.le_of_eq hinstalled.symm, fun hne => absurd hinstalled hne⟩⟩
    · rw [hinstalled, hsequence]
      exact h.sound (hpending ▸ hp)
    · cases hup'
      exact ⟨hh, trivial⟩

theorem Inv.instruct {up : FwUp} (h : b.Inv) (hup : b.up = some up) (hpart : up.part = .loop) (k : FwKey) (canUpdate : Bool)
    (i : FwInstruction) : (b.instruct up k canUpdate i).Inv ∧ Rises b (b.instruct up k canUpdate i) := by
  obtain ⟨hh, hloop⟩ : up.u.Holds up.st ∧ up.trial = false ∧ Caught b.record up := by
    have hok := h.ofUp up hup
    rw [UpOk, hpart] at hok
    exact hok
  refine ⟨⟨h.sound, h.mark, h.bought, h.numbered, h.settled, h.once, fun up' hup' => ?_⟩, .refl b rfl⟩
  cases hup'
  refine ⟨hh.instruct k canUpdate i, ?_⟩
  rw [hpart]
  exact hloop

theorem saves_none {calls : List FwuCall} (h : ∀ c ∈ calls, ∀ s, c ≠ .saveState s) (r : Bytes) (saved : Bool) :
    saves r saved calls = r ∧ calls.any FwuCall.isSave = false := by
  induction calls generalizing r with
  | nil => exact ⟨rfl, rfl⟩
  | cons c calls ih =>
    obtain ⟨hs, ha⟩ := ih (fun c hc => h c (List.mem_cons_of_mem _ hc)) r
    cases c with
    | saveState st => exact absurd rfl (h _ (List.mem_cons_self ..) st)
    | fetch version => exact ⟨hs, ha⟩
    | apply img len shaHex => exact ⟨hs, ha⟩
    | requestReboot slotOff => exact ⟨hs, ha⟩

theorem Inv.update {up : FwUp} (h : b.Inv) (hup : b.up = some up) (hpart : up.part = .loop) (ops : FwuOps) (idle : Bool)
    (now : UInt32) : (b.update up ops idle now).Inv ∧ Rises b (b.update up ops idle now) := by
  obtain ⟨hh, htrial, hcaught⟩ : up.u.Holds up.st ∧ up.trial = false ∧ Caught b.record up := by
    have hok := h.ofUp up hup
    rw [UpOk, hpart] at hok
    exact hok
  have hstep := Fwu.step_stepped up.u ops up.st idle now
  rw [FwBoard.update]
  generalize up.u.step ops up.st idle now = r at hstep
  obtain ⟨_, u', st', calls⟩ := r
  dsimp only at hstep ⊢
  obtain ⟨hholds, hinstalled, hcalls⟩ := hstep.holds hh
  have hloop : ∀ rec, Caught rec up → Caught rec { up with u := u', st := st' } := by
    rintro rec (hc | ⟨hp, hv, hc⟩)
    · exact .inl (hinstalled.trans hc)
    · exact .inr ⟨hp, hv, hinstalled.trans hc⟩
  have hsame : ∀ rec n, rec = b.record → n = b.updates →
      ({ b with record := rec, up := some { up with u := u', st := st' }, updates := n } : FwBoard).Inv ∧
        Rises b { b with record := rec, up := some { up with u := u', st := st' }, updates := n } := by
    rintro rec n rfl rfl
    refine ⟨⟨h.sound, h.mark, h.bought, h.numbered, h.settled, h.once, fun up' hup' => ?_⟩, .refl b rfl⟩
    cases hup'
    refine ⟨hholds, ?_⟩
    dsimp only
    rw [hpart]
    exact ⟨htrial, hloop _ hcaught⟩
  rcases hcalls with ⟨hnone, -⟩ | ⟨hphase, ⟨more, hmore, hrest⟩, hsaved⟩
  · obtain ⟨hs, ha⟩ := saves_none hnone b.record ops.saved
    exact hsame _ _ hs (by rw [ha]; exact if_neg fun hc => absurd hc.2 (by decide))
  · have hsaves : saves b.record ops.saved calls = saveRecord b.record (up.u.recorded up.st) ops.saved := by
      rw [hmore]
      exact (saves_none hrest _ ops.saved).1
    have hany : calls.any FwuCall.isSave = true := by rw [hmore]; rfl
    rcases hsaved with ⟨hfalse, -⟩ | ⟨htrue, hst'⟩
    · refine hsame _ _ ?_ (if_neg fun hc => ?_)
      · rw [hsaves, hfalse]
        rfl
      · rw [hfalse] at hc
        exact absurd hc.1 (by decide)
    · -- the record of the offer landed
      obtain ⟨hnewer, hversion⟩ := hh (by rw [hphase]; nofun) (by rw [hphase]; nofun)
      have hload : FwState.load (saves b.record ops.saved calls) = up.u.recorded up.st := by
        rw [hsaves, htrue, load_saveRecord (Fwu.recorded_fits up.u up.st hversion), if_pos rfl]
      have hcount : (if ops.saved = true ∧ calls.any FwuCall.isSave = true
          then b.updates + 1 else b.updates) = b.updates + 1 := if_pos ⟨htrue, hany⟩
      rw [hcount]
      refine ⟨⟨fun _ => ?_, h.mark, h.bought, fun n l hr => Nat.le_succ_of_le (h.numbered n l hr), fun hr => ?_, h.once,
        fun up' hup' => ?_⟩, ⟨?_, fun hne => ?_⟩⟩
      · rw [hload]
        exact hnewer
      · have := h.numbered _ _ hr
        dsimp only at this
        omega
      · cases hup'
        refine ⟨hholds, ?_⟩
        dsimp only
        rw [hpart]
        refine ⟨htrial, .inl ?_⟩
        rw [hload, hst']
      · rw [installed, installed, hload]
        show _ ≤ up.st.installedSequence
        rcases hcaught with hc | ⟨hp, -, hc⟩
        · exact UInt32.le_of_eq hc.symm
        · rw [hc]
          exact UInt32.le_of_lt (h.sound hp)
      · rw [installed, installed, hload] at hne
        rcases hcaught with hc | ⟨hp, hv, hc⟩
        · exact absurd hc hne
        · refine ⟨up, hup, htrial, hp, hv, ?_⟩
          rw [installed, hload]
          exact hc

theorem Step.inv (hs : Step k False b b') (h : b.Inv) : b'.Inv ∧ Rises b b' := by
  cases hs with
  | stop how => exact ⟨h.stop how, .refl b rfl⟩
  | boot hup stageBuf running trial bought => exact ⟨h.boot stageBuf running trial bought, .refl b rfl⟩
  | startUp up hup hpart saved => exact h.startUp hup hpart saved
  | report up why landed hup hpart => exact h.report hup hpart
  | trialPass up hup hpart heartbeat ms marked saved => exact h.trialPass hup hpart heartbeat ms marked saved
  | instruct up hup hpart canUpdate i => exact h.instruct hup hpart k canUpdate i
  | update up hup hpart ops idle now => exact h.update hup hpart ops idle now
  | torn ht => exact ht.elim

theorem Runs.inv (h : Runs k False b) : b.Inv := by
  obtain ⟨r, hr, hrun⟩ := h
  exact invariant_run (I := FwBoard.Inv) (fun _ _ hs h => (hs.inv h).1) hrun (start_inv hr)

/-- Where every save lands whole or not at all, the sequence never falls and rises only
with the version that runs, and a reversion is settled once. -/
theorem rollback_refused (h : Runs k False b) : b.Safe ∧ ∀ b', Step k False b b' → Rises b b' := by
  refine ⟨⟨h.inv.sound, fun up why hup hpart => ?_, h.inv.once, h.inv.bought⟩, fun b' hs => (hs.inv h.inv).2⟩
  have hok := h.inv.ofUp up hup
  rw [UpOk, hpart] at hok
  exact hok.2.2.2.2 rfl

/-- Version 1.2 flashed over a board that has sequence 5. -/
def samplePending : Bytes :=
  (FwState.encode { installedSequence := 5, pending := true, pendingSequence := 7
                    pendingVersion := ascii "1.2", failure := [] }).getD []

def noKey : FwKey := ⟨[], [], fun _ _ _ => false⟩

theorem samplePending_load : FwState.load samplePending = { installedSequence := 5, pending := true, pendingSequence := 7
                                                            pendingVersion := ascii "1.2", failure := [] } := by
  decide +kernel

/-- The boot that is up, where one is. -/
theorem up_get (h : b.up.isSome = true) : b.up = some (b.up.get h) := (Option.some_get h).symm

theorem samplePending_sound : Sound samplePending := by
  intro _
  rw [samplePending_load]
  decide

/-- Its trial is proven, bought in the next boot and confirmed by that boot's start-up. -/
theorem rollback_refused_bought : ∃ b, Runs noKey False b ∧ b.installed = 7 ∧
    b.notes = [.bought (some (1000, true))] ∧ b.Safe := by
  have hstart : ReflTransGen (Step noKey False) (start samplePending) (start samplePending) := .refl
  have htrial := hstart.tail (.boot rfl [] (ascii "1.2") true false)
  have hloaded := htrial.tail (.startUp _ (up_get (by decide)) (by decide) true)
  have hproven := hloaded.tail (.trialPass _ (up_get (by decide)) (by decide) true 1000 true true)
  have hdown := hproven.tail (.stop .reboot)
  have hbought := hdown.tail (.boot rfl [] (ascii "1.2") true true)
  have hdone := hbought.tail (.startUp _ (up_get (by decide)) (by decide) true)
  exact ⟨_, ⟨_, samplePending_sound, hdone⟩, by decide +kernel, by decide +kernel,
    (rollback_refused ⟨_, samplePending_sound, hdone⟩).1⟩

/-- A save torn apart loses the sequence, and a start-up whose save fails leaves the
reversion to be reported again. -/
theorem torn_save :
    (∃ b b', Runs noKey True b ∧ Step noKey True b b' ∧ b'.installed < b.installed) ∧
    ∃ b, Runs noKey False b ∧ b.notes = [.reported 0 false, .reported 0 true] := by
  refine ⟨?_, ?_⟩
  · have hstart : ReflTransGen (Step noKey True) (start samplePending) (start samplePending) := .refl
    have hup := hstart.tail (.boot rfl [] (ascii "1.1") false false)
    exact ⟨_, _, ⟨_, samplePending_sound, hup⟩,
      .torn trivial (.startUp _ (up_get (by decide +kernel)) (by decide +kernel) true) (by decide +kernel),
      by decide +kernel⟩
  · have hstart : ReflTransGen (Step noKey False) (start samplePending) (start samplePending) := .refl
    have hup := hstart.tail (.boot rfl [] (ascii "1.1") false false)
    have hfound := hup.tail (.startUp _ (up_get (by decide)) (by rfl) false)
    have htold := hfound.tail (.report _ (ascii "reverted: the new firmware did not confirm itself") false
      (up_get (by decide +kernel)) (by decide +kernel))
    have hdown := htold.tail (.stop .power)
    have hagain := hdown.tail (.boot rfl [] (ascii "1.1") false false)
    have hfound' := hagain.tail (.startUp _ (up_get (by decide)) (by decide) true)
    have htold' := hfound'.tail (.report _ (ascii "reverted: the new firmware did not confirm itself") true
      (up_get (by decide +kernel)) (by decide +kernel))
    exact ⟨_, ⟨_, samplePending_sound, htold'⟩, by decide +kernel⟩

end FwBoard

end WebAdf.Firmware
