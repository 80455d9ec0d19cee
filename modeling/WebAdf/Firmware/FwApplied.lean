import WebAdf.Firmware.FwUpdate

/-!
# Only signed, newer firmware is applied

From an instruction on, the offer held is one that verified against the installed
sequence, and what is staged has its length and digest. While it is being applied nothing
moves either.
-/

namespace WebAdf.Firmware

open Lib

/-- The updater in the poll loop, with the calls it has made, each with the sequence
installed at that moment. -/
structure FwLoop where
  u : Fwu
  st : FwState
  log : List (UInt32 × FwuCall)

inductive FwEvent
  | instruct (canUpdate : Bool) (i : FwInstruction)
  | step (ops : FwuOps) (idle : Bool) (now : UInt32)

namespace FwLoop

/-- Started with the record as loaded, and what the start-up had to report. -/
def boot (stageBuf : Bytes) (st : FwState) (why : Option Bytes) : FwLoop where
  u := match why with
    | none => Fwu.init stageBuf
    | some why => (Fwu.init stageBuf).fail why
  st := st
  log := []

def after (s : FwLoop) (u : Fwu) (st : FwState) (calls : List FwuCall) : FwLoop :=
  { u := u, st := st, log := s.log ++ calls.map fun c => (s.st.installedSequence, c) }

def next (k : FwKey) (s : FwLoop) : FwEvent → FwLoop
  | .instruct canUpdate i => { s with u := s.u.instruct k canUpdate s.st.installedSequence i }
  | .step ops idle now =>
    let (_, u, st, calls) := s.u.step ops s.st idle now
    s.after u st calls

def run (k : FwKey) (s : FwLoop) (es : List FwEvent) : FwLoop := es.foldl (next k) s

/-- What is applied are the bytes of an offer signed and newer than what is installed. -/
def Legit (k : FwKey) : UInt32 × FwuCall → Prop
  | (installed, .apply img len shaHex) =>
    ∃ o : FwOffer, k.Signed o ∧ img.length = o.sizeBytes.toNat ∧ sha256 img = o.sha256 ∧ installed < o.sequence ∧
      len = o.sizeBytes ∧ shaHex = o.sha256
  | _ => True

/-- An offer is held. -/
def holding (s : FwLoop) : Bool := s.u.phase ≠ .idle ∧ s.u.phase ≠ .failed

/-- What is staged is to be applied. -/
def ready (s : FwLoop) : Bool := s.u.phase = .staged ∨ s.u.phase = .applying

structure Inv (k : FwKey) (s : FwLoop) : Prop where
  cap : s.u.stage.cap = s.u.stage.buf.length
  offer : s.holding = true → k.Signed s.u.offer ∧ s.st.installedSequence < s.u.offer.sequence
  staged : s.ready = true → (s.u.stage.buf.take s.u.offer.sizeBytes.toNat).length = s.u.offer.sizeBytes.toNat ∧
    sha256 (s.u.stage.buf.take s.u.offer.sizeBytes.toNat) = s.u.offer.sha256
  log : ∀ c ∈ s.log, Legit k c

theorem boot_inv (k : FwKey) (stageBuf : Bytes) (st : FwState) (why : Option Bytes) : Inv k (boot stageBuf st why) := by
  cases why with
  | none => exact ⟨rfl, nofun, nofun, nofun⟩
  | some why => exact ⟨rfl, nofun, nofun, nofun⟩

variable {k : FwKey} {s : FwLoop}

/-- A phase with nothing held needs nothing. -/
theorem Inv.let_go (h : Inv k s) (u : Fwu) (hstage : u.stage = s.u.stage) (hp : u.phase = .idle ∨ u.phase = .failed) :
    Inv k { s with u := u } := by
  refine ⟨by rw [hstage]; exact h.cap, fun hh => ?_, fun hr => ?_, h.log⟩
  · rcases hp with hp | hp
    · simp [holding, hp] at hh
    · simp [holding, hp] at hh
  · rcases hp with hp | hp
    · simp [ready, hp] at hr
    · simp [ready, hp] at hr

theorem Inv.refuse (h : Inv k s) (why : Bytes) : Inv k { s with u := s.u.refuse why } := by
  unfold Fwu.refuse
  split
  · exact h
  · exact h.let_go _ rfl (.inr rfl)

theorem Inv.instruct (h : Inv k s) (canUpdate : Bool) (i : FwInstruction) : Inv k (s.next k (.instruct canUpdate i)) := by
  cases i with
  | sync => exact h
  | malformed => exact h.refuse _
  | cancelled =>
    show Inv k { s with u := s.u.onInstruction none .ok }
    unfold Fwu.onInstruction
    split
    · exact h
    · exact h.let_go _ rfl (.inl rfl)
  | offer json =>
    show Inv k { s with u := s.u.instruct k canUpdate s.st.installedSequence (.offer json) }
    unfold Fwu.instruct
    dsimp only
    split
    · exact h.refuse _
    · split
      · next o ho =>
        unfold Fwu.onInstruction
        split
        · exact h
        · dsimp only
          split
          · exact h.let_go _ rfl (.inr rfl)
          · next hok =>
            obtain ⟨hsigned, hnewer, -⟩ := fwCheckOffer_ok (not_not.1 hok)
            exact ⟨h.cap, fun _ => ⟨hsigned, hnewer⟩, nofun, h.log⟩
      · exact h.refuse _

theorem next_step (k : FwKey) (s : FwLoop) (ops : FwuOps) (idle : Bool) (now : UInt32) :
    ∃ u' st' calls, s.next k (.step ops idle now) = s.after u' st' calls ∧ Fwu.Stepped s.u ops s.st u' st' calls :=
  ⟨_, _, _, rfl, Fwu.step_stepped s.u ops s.st idle now⟩

theorem log_append (h : ∀ c ∈ s.log, Legit k c) {calls : List FwuCall}
    (hc : ∀ c ∈ calls, Legit k (s.st.installedSequence, c)) :
    ∀ c ∈ s.log ++ calls.map (fun c => (s.st.installedSequence, c)), Legit k c := by
  intro c hmem
  rcases List.mem_append.1 hmem with hmem | hmem
  · exact h c hmem
  · obtain ⟨call, hcall, rfl⟩ := List.mem_map.1 hmem
    exact hc call hcall

theorem Inv.step (h : Inv k s) (ops : FwuOps) (idle : Bool) (now : UInt32) : Inv k (s.next k (.step ops idle now)) := by
  obtain ⟨u', st', calls, hnext, hstep⟩ := next_step k s ops idle now
  rw [hnext]
  have hsame : ∀ c ∈ s.log ++ ([] : List FwuCall).map (fun c => (s.st.installedSequence, c)), Legit k c :=
    log_append h.log nofun
  have happly (hp : s.u.phase = .applying) : Legit k (s.st.installedSequence, s.u.applyCall) := by
    obtain ⟨hsigned, hnewer⟩ := h.offer (by simp [holding, hp])
    obtain ⟨hlen, hsha⟩ := h.staged (by simp [ready, hp])
    exact ⟨s.u.offer, hsigned, hlen, hsha, hnewer, rfl, rfl⟩
  cases hstep with
  | still => exact ⟨h.cap, h.offer, h.staged, hsame⟩
  | fetching hp => exact ⟨h.cap, fun _ => h.offer (by simp [holding, hp]), nofun, hsame⟩
  | applying hp =>
    exact ⟨h.cap, fun _ => h.offer (by simp [holding, hp]), fun _ => h.staged (by simp [ready, hp]), hsame⟩
  | fetched hp ho hs hm =>
    have hok := FwStage.sinks_ok (FwStage.begin_ok h.cap) ops.pieces
    rw [← hs] at hok
    have hlog : ∀ c ∈ s.log ++ [FwuCall.fetch s.u.offer.version].map (fun c => (s.st.installedSequence, c)), Legit k c :=
      log_append h.log fun c hc => List.mem_singleton.1 hc ▸ trivial
    have hoffer := h.offer (by simp [holding, hp])
    refine ⟨hok.cap, fun _ => ?_, fun hr => ?_, hlog⟩
    · show k.Signed u'.offer ∧ _ < u'.offer.sequence
      rw [ho]
      exact hoffer
    · rcases hm with ⟨-, hm⟩ | hm | hm
      · have hmatch := FwStage.matched hok hm
        rw [← ho] at hmatch
        exact hmatch
      · simp [ready, after, hm] at hr
      · simp [ready, after, hm] at hr
  | notApplied hp why =>
    exact ⟨h.cap, nofun, nofun, log_append h.log fun c hc => List.mem_singleton.1 hc ▸ happly hp⟩
  | notSaved hp hs why =>
    refine ⟨h.cap, nofun, nofun, log_append h.log fun c hc => ?_⟩
    rcases List.mem_cons.1 hc with rfl | hc
    · exact happly hp
    · exact List.mem_singleton.1 hc ▸ trivial
  | rebooting hp hs =>
    refine ⟨h.cap, fun _ => h.offer (by simp [holding, hp]), nofun, log_append h.log fun c hc => ?_⟩
    rcases List.mem_cons.1 hc with rfl | hc
    · exact happly hp
    · rcases List.mem_cons.1 hc with rfl | hc
      · trivial
      · exact List.mem_singleton.1 hc ▸ trivial

theorem Inv.next (h : Inv k s) (e : FwEvent) : Inv k (s.next k e) := by
  cases e with
  | instruct canUpdate i => exact h.instruct canUpdate i
  | step ops idle now => exact h.step ops idle now

theorem Inv.run (h : Inv k s) (es : List FwEvent) : Inv k (s.run k es) := by
  induction es generalizing s with
  | nil => exact h
  | cons e es ih => exact ih (h.next e)

-- ---------------------------------------------------------------------------
-- Past the point of no return
-- ---------------------------------------------------------------------------

/-- From `s` to `t` nothing was fetched, and what was applied is what `s` held. -/
structure Kept (s t : FwLoop) : Prop where
  offer : t.u.offer = s.u.offer
  stage : t.u.stage = s.u.stage
  calls : ∃ calls, t.log = s.log ++ calls ∧ ∀ c ∈ calls, (∀ version, c.2 ≠ .fetch version) ∧
    ∀ img len shaHex, c.2 = .apply img len shaHex → c.2 = s.u.applyCall

theorem Kept.refl (s : FwLoop) : Kept s s := ⟨rfl, rfl, [], (List.append_nil _).symm, nofun⟩

theorem Kept.trans (h : Kept s t) (h' : Kept t r) : Kept s r := by
  obtain ⟨cs, hcs, hc⟩ := h.calls
  obtain ⟨ds, hds, hd⟩ := h'.calls
  refine ⟨h'.offer.trans h.offer, h'.stage.trans h.stage, cs ++ ds, by rw [hds, hcs, List.append_assoc], fun c hmem => ?_⟩
  rcases List.mem_append.1 hmem with hmem | hmem
  · exact hc c hmem
  · refine ⟨(hd c hmem).1, fun img len shaHex ha => ((hd c hmem).2 img len shaHex ha).trans ?_⟩
    rw [Fwu.applyCall, Fwu.applyCall, h.offer, h.stage]

/-- One event: the updater stays past that point, or what it applied failed. -/
theorem past_next (hp : s.u.past = true) (k : FwKey) (e : FwEvent) :
    Kept s (s.next k e) ∧ ((s.next k e).u.past = true ∨ (s.next k e).u.phase = .failed) ∧
      (s.u.phase = .rebooting → (s.next k e).u = s.u) := by
  cases e with
  | instruct canUpdate i =>
    have hsame : s.u.instruct k canUpdate s.st.installedSequence i = s.u := by
      cases i with
      | sync => rfl
      | malformed => exact if_pos hp
      | cancelled => exact if_pos hp
      | offer json =>
        rw [Fwu.instruct]
        split
        · exact if_pos hp
        · split
          · exact if_pos hp
          · exact if_pos hp
    have hnext : s.next k (.instruct canUpdate i) = s := by rw [next, hsame]
    rw [hnext]
    exact ⟨.refl s, .inl hp, fun _ => rfl⟩
  | step ops idle now =>
    obtain ⟨u', st', calls, hnext, hstep⟩ := next_step k s ops idle now
    rw [hnext]
    have hnot : ∀ p, s.u.phase = p → p ≠ .applying → p ≠ .rebooting → False := by
      intro p hpp ha hr
      simp [Fwu.past, hpp, ha, hr] at hp
    have hkept : ∀ u' st' more, u'.offer = s.u.offer → u'.stage = s.u.stage →
        (∀ c ∈ more, (∀ version, c ≠ .fetch version) ∧ ∀ img len shaHex, c ≠ .apply img len shaHex) →
        Kept s (s.after u' st' (s.u.applyCall :: more)) := by
      intro u' st' more ho hs hmore
      refine ⟨ho, hs, _, rfl, fun c hc => ?_⟩
      obtain ⟨call, hcall, rfl⟩ := List.mem_map.1 hc
      rcases List.mem_cons.1 hcall with rfl | hcall
      · exact ⟨nofun, fun _ _ _ _ => rfl⟩
      · exact ⟨(hmore call hcall).1, fun _ _ _ ha => absurd ha ((hmore call hcall).2 _ _ _)⟩
    cases hstep with
    | still => exact ⟨⟨rfl, rfl, [], rfl, nofun⟩, .inl hp, fun _ => rfl⟩
    | fetching hq => exact (hnot _ hq nofun nofun).elim
    | fetched hq => exact (hnot _ hq nofun nofun).elim
    | applying hq => exact (hnot _ hq nofun nofun).elim
    | notApplied ha why =>
      refine ⟨hkept _ _ [] rfl rfl nofun, .inr rfl, fun hr => ?_⟩
      rw [ha] at hr
      cases hr
    | notSaved ha hs why =>
      refine ⟨hkept _ _ _ rfl rfl fun c hc => ?_, .inr rfl, fun hr => ?_⟩
      · rw [List.mem_singleton.1 hc]
        exact ⟨nofun, nofun⟩
      · rw [ha] at hr
        cases hr
    | rebooting ha hs =>
      refine ⟨hkept _ _ _ rfl rfl fun c hc => ?_, .inl rfl, fun hr => ?_⟩
      · rcases List.mem_cons.1 hc with rfl | hc
        · exact ⟨nofun, nofun⟩
        · rw [List.mem_singleton.1 hc]
          exact ⟨nofun, nofun⟩
      · rw [ha] at hr
        cases hr

/-- Over a run: so it goes to the end, or up to the apply that failed. -/
theorem past_run (hp : s.u.past = true) (k : FwKey) (es : List FwEvent) :
    Kept s (s.run k es) ∧ (s.run k es).u.past = true ∨
      ∃ es₁ es₂, es = es₁ ++ es₂ ∧ Kept s (s.run k es₁) ∧ (s.run k es₁).u.phase = .failed := by
  induction es generalizing s with
  | nil => exact .inl ⟨.refl s, hp⟩
  | cons e es ih =>
    obtain ⟨hkept, hpast | hfailed, -⟩ := past_next hp k e
    · rcases ih hpast with ⟨hk, hend⟩ | ⟨es₁, es₂, rfl, hk, hend⟩
      · exact .inl ⟨hkept.trans hk, hend⟩
      · exact .inr ⟨e :: es₁, es₂, rfl, hkept.trans hk, hend⟩
    · exact .inr ⟨[e], es, rfl, hkept, hfailed⟩

theorem rebooting_run (hp : s.u.phase = .rebooting) (k : FwKey) (es : List FwEvent) : (s.run k es).u = s.u := by
  induction es generalizing s with
  | nil => rfl
  | cons e es ih =>
    have hnext := (past_next (by simp [Fwu.past, hp]) k e).2.2 hp
    exact (ih (s := s.next k e) (by rw [hnext]; exact hp)).trans hnext

-- ---------------------------------------------------------------------------
-- The updater as a whole
-- ---------------------------------------------------------------------------

/-- Whatever is offered, instructed and downloaded: what is applied is signed and newer,
a manifest names one release, and from the start of an apply on nothing else is fetched
or applied, until it fails. -/
theorem only_signed_applied (k : FwKey) (stageBuf : Bytes) (st : FwState) (why : Option Bytes) (es : List FwEvent) :
    (∀ c ∈ ((boot stageBuf st why).run k es).log, Legit k c) ∧
    (∀ ja jb a b, fwOfferParse ja = some a → fwOfferParse jb = some b → a.manifestText = b.manifestText →
      a.version = b.version ∧ a.sequence = b.sequence ∧ a.sha256 = b.sha256 ∧ a.sizeBytes = b.sizeBytes) ∧
    (((boot stageBuf st why).run k es).u.past = true → ∀ more,
      Kept ((boot stageBuf st why).run k es) (((boot stageBuf st why).run k es).run k more) ∧
          (((boot stageBuf st why).run k es).run k more).u.past = true ∨
        ∃ es₁ es₂, more = es₁ ++ es₂ ∧
          Kept ((boot stageBuf st why).run k es) (((boot stageBuf st why).run k es).run k es₁) ∧
          (((boot stageBuf st why).run k es).run k es₁).u.phase = .failed) ∧
    (((boot stageBuf st why).run k es).u.phase = .rebooting → ∀ more,
      (((boot stageBuf st why).run k es).run k more).u = ((boot stageBuf st why).run k es).u) :=
  ⟨((boot_inv k stageBuf st why).run es).log, fun _ _ _ _ => manifestText_inj, fun hp => past_run hp k,
    fun hp => rebooting_run hp k⟩

/-- A release of three bytes, signed. -/
def sampleOffer (keyId : String) : Bytes :=
  ascii "\x7b\"version\":\"1.2\",\"sequence\":7,\"sha256\":\"" ++
    ascii "039058c6f2c0cb492c533b0a4d14ef77cc0f78abccced5287d84a1a2011cfb81\",\"sizeBytes\":3," ++
    ascii "\"signature\":\"r21HGxc++rWnwq3+kJVKlZSI1VfRJSu6xwVY7pJpfiqmywuv0suNA03SDxZfncb4KfPGnRY/5wkovIoUJ1ngDQ==\"," ++
    ascii "\"keyId\":\"" ++ ascii keyId ++ ascii "\"\x7d"

def sampleSignature : Bytes :=
  [0xaf, 0x6d, 0x47, 0x1b, 0x17, 0x3e, 0xfa, 0xb5, 0xa7, 0xc2, 0xad, 0xfe, 0x90, 0x95, 0x4a, 0x95, 0x94, 0x88,
    0xd5, 0x57, 0xd1, 0x25, 0x2b, 0xba, 0xc7, 0x05, 0x58, 0xee, 0x92, 0x69, 0x7e, 0x2a, 0xa6, 0xcb, 0x0b, 0xaf,
    0xd2, 0xcb, 0x8d, 0x03, 0x4d, 0xd2, 0x0f, 0x16, 0x5f, 0x9d, 0xc6, 0xf8, 0x29, 0xf3, 0xc6, 0x9d, 0x16, 0x3f,
    0xe7, 0x09, 0x28, 0xbc, 0x8a, 0x14, 0x27, 0x59, 0xe0, 0x0d]

/-- A key, and the check as far as the sample goes. -/
def sampleKey : FwKey where
  keyId := ascii "k"
  pubkey :=
    [0xd7, 0x5a, 0x98, 0x01, 0x82, 0xb1, 0x0a, 0xb7, 0xd5, 0x4b, 0xfe, 0xd3, 0xc9, 0x64, 0x07, 0x3a, 0x0e, 0xe1,
      0x72, 0xf3, 0xda, 0xa6, 0x23, 0x25, 0xaf, 0x02, 0x1a, 0x68, 0xf7, 0x07, 0x51, 0x1a]
  ed25519Check sig _ msg :=
    sig == sampleSignature && msg == ascii "webadf-fw-v1\n1.2\n7\n" ++
      ascii "039058c6f2c0cb492c533b0a4d14ef77cc0f78abccced5287d84a1a2011cfb81\n3"

def sampleOps (applied : FwApplyResult) : FwuOps :=
  { pieces := [[1], [2, 3]], status := 200, applied := applied, slotOff := 4096, saved := true }

def sampleBoot : FwLoop := boot (List.replicate 8 0) .zeroed none

/-- Offered, fetched, and about to be applied. -/
def sampleEvents : List FwEvent :=
  .instruct true (.offer (sampleOffer "k")) :: List.replicate 3 (.step (sampleOps .ok) true 0)

def sampleApplied : FwLoop := sampleBoot.run sampleKey (sampleEvents ++ [.step (sampleOps .ok) true 0])

/-- The sample is applied, and its offer is signed. -/
theorem only_signed_applied_once : ∃ shaHex, (0, FwuCall.apply [1, 2, 3] 3 shaHex) ∈ sampleApplied.log ∧
    Legit sampleKey (0, .apply [1, 2, 3] 3 shaHex) := by
  have hmem : (0, FwuCall.apply [1, 2, 3] 3 (sha256 [1, 2, 3])) ∈ sampleApplied.log := by
    rw [sampleApplied, sampleEvents, sampleOffer, sampleKey]
    repeat rw [ascii_ofList]
    decide +kernel
  exact ⟨_, hmem, (only_signed_applied sampleKey (List.replicate 8 0) .zeroed none _).1 _ hmem⟩

/-- The key's name is outside the manifest, and after an apply that failed the next offer
is fetched. -/
theorem offered_again :
    (∃ a b, fwOfferParse (sampleOffer "k") = some a ∧ fwOfferParse (sampleOffer "l") = some b ∧ a ≠ b ∧
      a.manifestText = b.manifestText) ∧
    (sampleBoot.run sampleKey sampleEvents).u.phase = .applying ∧
    (0, FwuCall.fetch (ascii "1.2")) ∈
      ((sampleBoot.run sampleKey sampleEvents).run sampleKey
        (.step (sampleOps .eraseFailed) true 0 :: sampleEvents)).log.drop
          (sampleBoot.run sampleKey sampleEvents).log.length := by
  have hparsed : ((fwOfferParse (sampleOffer "k")).any fun a => (fwOfferParse (sampleOffer "l")).any fun b =>
      a ≠ b ∧ a.manifestText = b.manifestText) = true := by
    rw [sampleOffer, sampleOffer]
    repeat rw [ascii_ofList]
    decide +kernel
  obtain ⟨a, ha, hany⟩ := (Option.any_eq_true _ _).mp hparsed
  obtain ⟨b, hb, hne⟩ := (Option.any_eq_true _ _).mp hany
  obtain ⟨hne, hsame⟩ := of_decide_eq_true hne
  refine ⟨⟨a, b, ha, hb, hne, hsame⟩, ?_⟩
  rw [sampleEvents, sampleOffer, sampleKey]
  repeat rw [ascii_ofList]
  decide +kernel

end FwLoop

end WebAdf.Firmware
