import WebAdf.Firmware.FwOffer
import WebAdf.Firmware.FwState
import WebAdf.Firmware.Sha256

/-!
# The updater

A download hashed as it is staged, and the phases from an instruction to the reboot. What
the callbacks answer is given to each step; the calls it makes are its output.
-/

namespace WebAdf.Firmware

open Lib

-- ---------------------------------------------------------------------------
-- The stage
-- ---------------------------------------------------------------------------

/-- `buf` is the staging memory, of which `got` bytes have arrived. -/
structure FwStage where
  buf : Bytes
  cap : Nat
  got : Nat
  overflow : Bool
  sha : Sha256

namespace FwStage

def begin (s : FwStage) : FwStage := { s with got := 0, overflow := false, sha := .init }

def sink (s : FwStage) (b : Bytes) : FwStage :=
  if b.length = 0 ∨ s.overflow then s
  else if b.length > s.cap - s.got then { s with overflow := true }
  else { s with buf := blit s.buf s.got b, sha := s.sha.update b, got := s.got + b.length }

def hasMatched (s : FwStage) (expectLen : UInt32) (expectShaHex : Bytes) : Bool :=
  if s.overflow ∨ s.got ≠ expectLen.toNat then false else Sha256.hex s.sha.final == expectShaHex

/-- The digest is of the bytes that arrived. -/
structure Ok (s : FwStage) : Prop where
  cap : s.cap = s.buf.length
  got : s.got ≤ s.cap
  sha : s.sha = Sha256.init.update (s.buf.take s.got)

theorem begin_ok {s : FwStage} (h : s.cap = s.buf.length) : s.begin.Ok :=
  ⟨h, Nat.zero_le _, (Sha256.update_nil _).symm⟩

theorem sink_ok {s : FwStage} (h : s.Ok) (b : Bytes) : (s.sink b).Ok := by
  unfold sink
  split
  · exact h
  · split
    · exact ⟨h.cap, h.got, h.sha⟩
    · next hfit =>
      have hcap := h.cap
      have hgot := h.got
      have hin : s.got + b.length ≤ s.buf.length := by omega
      refine ⟨h.cap.trans (length_blit hin).symm, ?_, ?_⟩
      · show s.got + b.length ≤ s.cap
        omega
      · show s.sha.update b = Sha256.init.update ((blit s.buf s.got b).take (s.got + b.length))
        have hfront : (blit s.buf s.got b).take (s.got + b.length) = s.buf.take s.got ++ b := by
          rw [blit, List.take_left']
          rw [List.length_append, List.length_take, Nat.min_eq_left (by omega)]
        rw [hfront, h.sha, Sha256.update_append _ _ _ (by decide)]

theorem sinks_ok {s : FwStage} (h : s.Ok) (bs : List Bytes) : (bs.foldl sink s).Ok := by
  induction bs generalizing s with
  | nil => exact h
  | cons b bs ih => exact ih (sink_ok h b)

/-- What matched is what the memory holds. -/
theorem matched {s : FwStage} {shaHex : Bytes} (h : s.Ok) (hm : s.hasMatched len shaHex = true) :
    (s.buf.take len.toNat).length = len.toNat ∧ sha256 (s.buf.take len.toNat) = shaHex := by
  unfold hasMatched at hm
  split at hm
  · cases hm
  · next hgot =>
    rw [not_or, not_not] at hgot
    rw [← hgot.2]
    refine ⟨?_, ?_⟩
    · rw [List.length_take, Nat.min_eq_left (h.cap ▸ h.got)]
    · rw [sha256, ← h.sha]
      exact beq_iff_eq.1 hm

end FwStage

-- ---------------------------------------------------------------------------
-- The phases
-- ---------------------------------------------------------------------------

inductive FwApplyResult
  | ok
  | tooBig
  | eraseFailed
  | programFailed
  | readbackMismatch
  deriving DecidableEq

def fwApplyText : FwApplyResult → Bytes
  | .ok => ascii "ok"
  | .tooBig => ascii "image does not fit the slot"
  | .eraseFailed => ascii "flash erase failed"
  | .programFailed => ascii "flash write failed"
  | .readbackMismatch => ascii "flash readback did not match the signed hash"

inductive FwuPhase
  | idle
  | queued
  | downloading
  | staged
  | applying
  | rebooting
  | failed
  deriving DecidableEq

def fwuErrorMax : Nat := 200
def fwuRetryFloorMs : UInt32 := 5000
def fwuRetryCapMs : UInt32 := 300000

structure Fwu where
  phase : FwuPhase
  offer : FwOffer
  error : Bytes
  stage : FwStage
  retryAtMs : UInt32
  backoffMs : UInt32

/-- What the callbacks answer: the pieces a fetch delivers and its status, the outcome of
an apply and the slot it wrote, and whether the record was saved. -/
structure FwuOps where
  pieces : List Bytes
  status : Int
  applied : FwApplyResult
  slotOff : UInt32
  saved : Bool

inductive FwuCall
  | fetch (version : Bytes)
  | apply (img : Bytes) (len : UInt32) (shaHex : Bytes)
  | saveState (st : FwState)
  | requestReboot (slotOff : UInt32)
  deriving DecidableEq

namespace Fwu

/-- The offer of a zeroed structure. -/
def noOffer : FwOffer :=
  { version := [], sequence := 0, sha256 := [], sizeBytes := 0, signature := List.replicate 64 0, keyId := [] }

def init (stageBuf : Bytes) : Fwu where
  phase := .idle
  offer := noOffer
  error := []
  stage := { buf := stageBuf, cap := stageBuf.length, got := 0, overflow := false, sha := .init }
  retryAtMs := 0
  backoffMs := 0

def fail (u : Fwu) (why : Bytes) : Fwu := { u with phase := .failed, error := (snprintf (fwuErrorMax + 1) why).1 }

/-- Past the point of no return. -/
def past (u : Fwu) : Bool := u.phase = .applying ∨ u.phase = .rebooting

def refuse (u : Fwu) (why : Bytes) : Fwu := if u.past then u else u.fail why

/-- No offer is a cancellation. -/
def onInstruction (u : Fwu) (offer : Option FwOffer) (verdict : FwVerdict) : Fwu :=
  if u.past then u
  else
    let u := { u with error := [] }
    match offer with
    | none => { u with phase := .idle }
    | some o =>
      if verdict ≠ .ok then u.fail (snprintf (fwuErrorMax + 1) (ascii "refused: " ++ fwVerdictText verdict)).1
      else { u with offer := o, phase := .queued, retryAtMs := 0, backoffMs := 0 }

def retryLater (u : Fwu) (now : UInt32) : Fwu :=
  let backoff := if u.backoffMs ≠ 0 then u.backoffMs * 2 else fwuRetryFloorMs
  let backoff := if backoff > fwuRetryCapMs then fwuRetryCapMs else backoff
  { u with backoffMs := backoff, retryAtMs := now + backoff, phase := .queued }

/-- The record of the offer being applied. -/
def recorded (u : Fwu) (st : FwState) : FwState :=
  { st with
    pending := true
    pendingSequence := u.offer.sequence
    pendingVersion := (snprintf (fwStateVersionMax + 1) u.offer.version).1
    failure := [] }

/-- The call that applies what is staged. -/
def applyCall (u : Fwu) : FwuCall :=
  .apply (u.stage.buf.take u.offer.sizeBytes.toNat) u.offer.sizeBytes u.offer.sha256

/-- One step: whether there is something to report, and the calls made in order. -/
def step (u : Fwu) (ops : FwuOps) (st : FwState) (idle : Bool) (now : UInt32) : Bool × Fwu × FwState × List FwuCall :=
  match u.phase with
  | .queued =>
    if u.retryAtMs ≠ 0 ∧ now - u.retryAtMs ≥ 0x80000000 then (false, u, st, [])
    else (true, { u with phase := .downloading }, st, [])
  | .downloading =>
    let call := [FwuCall.fetch u.offer.version]
    let u := { u with stage := ops.pieces.foldl FwStage.sink u.stage.begin }
    if ops.status = 200 then
      if u.stage.hasMatched u.offer.sizeBytes u.offer.sha256 then (true, { u with phase := .staged }, st, call)
      else (true, u.fail (ascii "download did not match the signed hash"), st, call)
    else if ops.status = 404 then (true, u.fail (ascii "release not published"), st, call)
    else if ops.status = 400 then (true, u.fail (ascii "server refused the version"), st, call)
    else (true, u.retryLater now, st, call)
  | .staged => if !idle then (false, u, st, []) else (true, { u with phase := .applying }, st, [])
  | .applying =>
    if ops.applied ≠ .ok then (true, u.fail (fwApplyText ops.applied), st, [u.applyCall])
    else
      let st := u.recorded st
      if !ops.saved then
        (true, u.fail (ascii "could not record the pending update"), { st with pending := false },
          [u.applyCall, .saveState st])
      else (true, { u with phase := .rebooting }, st, [u.applyCall, .saveState st, .requestReboot ops.slotOff])
  | _ => (false, u, st, [])

/-- What a step can do: the updater and the record after it, and its calls. -/
inductive Stepped (u : Fwu) (ops : FwuOps) (st : FwState) : Fwu → FwState → List FwuCall → Prop
  | still : Stepped u ops st u st []
  | fetching (hp : u.phase = .queued) : Stepped u ops st { u with phase := .downloading } st []
  | fetched (hp : u.phase = .downloading) (ho : u'.offer = u.offer)
      (hs : u'.stage = ops.pieces.foldl FwStage.sink u.stage.begin)
      (hm : u'.phase = .staged ∧ u'.stage.hasMatched u.offer.sizeBytes u.offer.sha256 = true ∨
        u'.phase = .failed ∨ u'.phase = .queued) : Stepped u ops st u' st [.fetch u.offer.version]
  | applying (hp : u.phase = .staged) : Stepped u ops st { u with phase := .applying } st []
  | notApplied (hp : u.phase = .applying) (why : Bytes) : Stepped u ops st (u.fail why) st [u.applyCall]
  | notSaved (hp : u.phase = .applying) (hs : ops.saved = false) (why : Bytes) :
      Stepped u ops st (u.fail why) { u.recorded st with pending := false } [u.applyCall, .saveState (u.recorded st)]
  | rebooting (hp : u.phase = .applying) (hs : ops.saved = true) :
      Stepped u ops st { u with phase := .rebooting } (u.recorded st)
        [u.applyCall, .saveState (u.recorded st), .requestReboot ops.slotOff]

theorem step_stepped (u : Fwu) (ops : FwuOps) (st : FwState) (idle : Bool) (now : UInt32) :
    Stepped u ops st (u.step ops st idle now).2.1 (u.step ops st idle now).2.2.1 (u.step ops st idle now).2.2.2 := by
  unfold step
  split
  · next hp =>
    split
    · exact .still
    · exact .fetching hp
  · next hp =>
    dsimp only
    split
    · split
      · next hm => exact .fetched hp rfl rfl (.inl ⟨rfl, hm⟩)
      · exact .fetched hp rfl rfl (.inr (.inl rfl))
    · split
      · exact .fetched hp rfl rfl (.inr (.inl rfl))
      · split
        · exact .fetched hp rfl rfl (.inr (.inl rfl))
        · exact .fetched hp rfl rfl (.inr (.inr rfl))
  · next hp =>
    split
    · exact .still
    · exact .applying hp
  · next hp =>
    split
    · exact .notApplied hp _
    · cases hs : ops.saved with
      | false => exact .notSaved hp hs _
      | true => exact .rebooting hp hs
  · exact .still

end Fwu

-- ---------------------------------------------------------------------------
-- The poll loop's part
-- ---------------------------------------------------------------------------

/-- An instruction as the poll carries it: an echo of the cursor, an `update` that could
not be lifted out, one that could, or none. -/
inductive FwInstruction
  | sync
  | malformed
  | offer (json : Bytes)
  | cancelled

/-- `canUpdate` where the board declared that it can. -/
def Fwu.instruct (u : Fwu) (k : FwKey) (canUpdate : Bool) (installedSequence : UInt32) : FwInstruction → Fwu
  | .sync => u
  | .malformed => u.refuse (ascii "refused: malformed update instruction")
  | .offer json =>
    if !canUpdate then u.refuse (ascii "refused: this board cannot update")
    else
      match fwOfferParse json with
      | some o => u.onInstruction (some o) (fwCheckOfferWithKey k o installedSequence)
      | none => u.refuse (ascii "refused: malformed update instruction")
  | .cancelled => u.onInstruction none .ok

end WebAdf.Firmware
