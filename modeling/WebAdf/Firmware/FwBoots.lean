import Mathlib.Data.List.Pairwise
import Mathlib.Logic.Relation
import WebAdf.Firmware.FwState
import WebAdf.Firmware.FwUpdate

/-!
# The board over its boots

The record in flash, the words that survive a reset and one boot after another, each of
whatever version the boot ROM picked, on trial or not. Power may go at any time; where
`Torn`, also in the middle of a save, which leaves the sector erased.
-/

namespace WebAdf.Firmware

open Lib
open Relation (ReflTransGen)

/-- Where a boot is: before the record is loaded; a reversion found (`landed`: its record
saved) but not yet told to the updater; on trial; in the poll loop; waiting for a reset. -/
inductive FwPart
  | early
  | report (why : Bytes) (landed : Bool)
  | trial
  | loop
  | parked
  deriving DecidableEq

structure FwUp where
  running : Bytes
  trial : Bool
  part : FwPart
  st : FwState
  u : Fwu

/-- What has happened: a buy, with what the trial had when it asked for one (the time and
whether an update was pending); a reversion told, of which update. -/
inductive FwNote
  | bought (asked : Option (UInt32 × Bool))
  | reported (update : Nat) (landed : Bool)
  deriving DecidableEq

/-- After `up`, what no step reads: when the last trial asked to be bought, how many
updates were recorded, and what happened. -/
structure FwBoard where
  record : Bytes
  mark : UInt32 × UInt32
  up : Option FwUp
  asked : Option (UInt32 × Bool)
  updates : Nat
  notes : List FwNote

/-- How a boot ends: the power goes, a reset, or a reboot the firmware makes. -/
inductive FwStop
  | power
  | reset
  | reboot

def erasedRecord : Bytes := List.replicate fwStateRecordBytes 0xff

/-- The record after a save that landed or did not. -/
def saveRecord (record : Bytes) (st : FwState) (saved : Bool) : Bytes :=
  if saved then st.encode.getD record else record

def FwuCall.isSave : FwuCall → Bool
  | .saveState _ => true
  | _ => false

namespace FwBoard

def start (record : Bytes) : FwBoard where
  record := record
  mark := (0, 0)
  up := none
  asked := none
  updates := 0
  notes := []

def stop (b : FwBoard) (how : FwStop) : FwBoard :=
  { b with
    up := none
    mark := match how with
      | .power => (0, 0)
      | .reset => b.mark
      | .reboot => fwMarkOtaReboot b.mark }

/-- The boot ROM picked a version; a proven trial is bought before anything else, `bought`
where the ROM's buy succeeded. The mark is consumed either way. -/
def boot (b : FwBoard) (stageBuf running : Bytes) (trial bought : Bool) : FwBoard :=
  let buys := fwTrialProven trial b.mark.1 b.mark.2 running && bought
  { b with
    mark := (0, 0)
    up := some { running := running, trial := trial && !buys, part := .early, st := .zeroed, u := .init stageBuf }
    asked := none
    notes := if buys then b.notes ++ [.bought b.asked] else b.notes }

/-- The record loaded and, unless on trial, reconciled and saved. -/
def startUp (b : FwBoard) (up : FwUp) (saved : Bool) : FwBoard :=
  let st := FwState.load b.record
  if up.trial then { b with up := some { up with st := st, part := .trial } }
  else
    match fwBootReconcile st up.running (fwuErrorMax + 1) with
    | (.clean, st, _) => { b with up := some { up with st := st, part := .loop } }
    | (.confirmedLate, st, _) =>
      { b with record := saveRecord b.record st saved, up := some { up with st := st, part := .loop } }
    | (.reverted, st, why) =>
      { b with record := saveRecord b.record st saved, up := some { up with st := st, part := .report why saved } }

/-- The reversion is what the updater reports. -/
def report (b : FwBoard) (up : FwUp) (why : Bytes) (landed : Bool) : FwBoard :=
  { b with
    up := some { up with u := up.u.fail why, part := .loop }
    notes := b.notes ++ [.reported b.updates landed] }

/-- One pass of the trial: a heartbeat heard or not, so long after the boot. `marked` where
the reboot to buy was accepted. -/
def trialPass (b : FwBoard) (up : FwUp) (heartbeat : Bool) (ms : UInt32) (marked saved : Bool) : FwBoard :=
  match fwTrialDecide ⟨true, up.st, up.running, heartbeat, ms⟩ with
  | (.buy, _) =>
    { b with
      mark := if marked then (fwProvenMagic, fwVersionHash up.running) else b.mark
      up := some { up with part := .parked }
      asked := some (ms, up.st.pending) }
  | (.giveUp, why) =>
    let st := { up.st with failure := (snprintf (fwStateReasonMax + 1) why).1 }
    { b with record := saveRecord b.record st saved, up := some { up with st := st, part := .parked } }
  | _ => b

def instruct (b : FwBoard) (up : FwUp) (k : FwKey) (canUpdate : Bool) (i : FwInstruction) : FwBoard :=
  { b with up := some { up with u := up.u.instruct k canUpdate up.st.installedSequence i } }

/-- The record after the calls of a step. -/
def saves (record : Bytes) (saved : Bool) (calls : List FwuCall) : Bytes :=
  calls.foldl (fun record c => match c with
    | .saveState st => saveRecord record st saved
    | _ => record) record

def update (b : FwBoard) (up : FwUp) (ops : FwuOps) (idle : Bool) (now : UInt32) : FwBoard :=
  let (_, u, st, calls) := up.u.step ops up.st idle now
  { b with
    record := saves b.record ops.saved calls
    up := some { up with u := u, st := st }
    updates := if ops.saved ∧ calls.any FwuCall.isSave then b.updates + 1 else b.updates }

inductive Step (k : FwKey) (Torn : Prop) (b : FwBoard) : FwBoard → Prop
  | stop (how : FwStop) : Step k Torn b (b.stop how)
  | boot (hup : b.up = none) (stageBuf running : Bytes) (trial bought : Bool) :
      Step k Torn b (b.boot stageBuf running trial bought)
  | startUp (up : FwUp) (hup : b.up = some up) (hpart : up.part = .early) (saved : Bool) : Step k Torn b (b.startUp up saved)
  | report (up : FwUp) (why : Bytes) (landed : Bool) (hup : b.up = some up) (hpart : up.part = .report why landed) : Step k Torn b (b.report up why landed)
  | trialPass (up : FwUp) (hup : b.up = some up) (hpart : up.part = .trial) (heartbeat : Bool) (ms : UInt32) (marked saved : Bool) :
      Step k Torn b (b.trialPass up heartbeat ms marked saved)
  | instruct (up : FwUp) (hup : b.up = some up) (hpart : up.part = .loop) (canUpdate : Bool) (i : FwInstruction) :
      Step k Torn b (b.instruct up k canUpdate i)
  | update (up : FwUp) (hup : b.up = some up) (hpart : up.part = .loop) (ops : FwuOps) (idle : Bool) (now : UInt32) :
      Step k Torn b (b.update up ops idle now)
  | torn (ht : Torn) (hs : Step k Torn b b') (hsave : b'.record ≠ b.record) :
      Step k Torn b { b.stop .power with record := erasedRecord }

/-- The sequence on record. -/
def installed (b : FwBoard) : UInt32 := (FwState.load b.record).installedSequence

/-- A record a board may hold: what is pending is newer than what is installed. -/
def Sound (record : Bytes) : Prop :=
  (FwState.load record).pending = true →
    (FwState.load record).installedSequence < (FwState.load record).pendingSequence

/-- The runs of a board from a sound record. -/
def Runs (k : FwKey) (Torn : Prop) (b : FwBoard) : Prop :=
  ∃ record, Sound record ∧ ReflTransGen (Step k Torn) (start record) b

-- ---------------------------------------------------------------------------
-- What is to hold
-- ---------------------------------------------------------------------------

/-- The sequence rises by the pending one of the version that runs, if at all. -/
structure Rises (b b' : FwBoard) : Prop where
  le : b.installed ≤ b'.installed
  running : b'.installed ≠ b.installed → ∃ up, b.up = some up ∧ up.trial = false ∧
    (FwState.load b.record).pending = true ∧ (FwState.load b.record).pendingVersion = up.running ∧
    b'.installed = (FwState.load b.record).pendingSequence

structure Safe (b : FwBoard) : Prop where
  newer : (FwState.load b.record).pending = true → b.installed < (FwState.load b.record).pendingSequence
  /-- a reversion whose record landed left nothing pending -/
  cleared : ∀ up why, b.up = some up → up.part = .report why true →
    (FwState.load b.record).pending = false ∧ (FwState.load b.record).pendingSequence = 0 ∧
      (FwState.load b.record).pendingVersion = []
  /-- after a report whose record landed, that update is never reported again -/
  once : b.notes.Pairwise fun x y => ∀ update landed, x = .reported update true → y ≠ .reported update landed
  /-- what was bought while an update was pending was asked for before the cutoff -/
  bought : ∀ asked, .bought asked ∈ b.notes → ∃ ms pending, asked = some (ms, pending) ∧
    (pending = true → ms < fwTrialBuyCutoffMs)

end FwBoard

end WebAdf.Firmware
