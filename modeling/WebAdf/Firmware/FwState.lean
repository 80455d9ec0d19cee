import Mathlib.Data.List.TakeWhile
import WebAdf.Constants
import WebAdf.Lib.Ascii
import WebAdf.Lib.Endian
import WebAdf.Lib.Slice

/-!
# The update record

What the board keeps of its updates over a restart: one record with its own check, which
reads as none recorded where the check fails. A C string is its bytes before the NUL.
-/

namespace WebAdf.Firmware

open Lib

def fwStateVersionMax : Nat := 64
def fwStateReasonMax : Nat := 48
def fwStateRecordBytes : Nat := 132

structure FwState where
  installedSequence : UInt32
  pending : Bool
  pendingSequence : UInt32
  pendingVersion : Bytes
  failure : Bytes
  deriving DecidableEq

namespace FwState

def zeroed : FwState where
  installedSequence := 0
  pending := false
  pendingSequence := 0
  pendingVersion := []
  failure := []

def magic : Nat := 0x31535746
def format : UInt8 := 1
def offInstalled : Nat := 5
def offPending : Nat := 9
def offPseq : Nat := 10
def offPver : Nat := 14
def offFail : Nat := offPver + fwStateVersionMax + 1
def offCrc : Nat := offFail + fwStateReasonMax + 1

def crcBit (c : UInt32) : UInt32 := (c >>> 1) ^^^ (0xedb88320 &&& (0 - (c &&& 1)))

def crc32Bytes (p : Bytes) : UInt32 :=
  ~~~ p.foldl (fun c b => crcBit (crcBit (crcBit (crcBit (crcBit (crcBit (crcBit (crcBit (c ^^^ b.toUInt32))))))))) 0xffffffff

/-- A string in an array of `n` bytes, NUL-padded. -/
def padded (s : Bytes) (n : Nat) : Bytes := s ++ List.replicate (n - s.length) 0

/-- The record from its format on, without the check. -/
def body (s : FwState) : Bytes :=
  format :: (putLe32 s.installedSequence.toNat ++ (if s.pending then 1 else 0) ::
    (putLe32 s.pendingSequence.toNat ++ (padded s.pendingVersion (fwStateVersionMax + 1) ++
      padded s.failure (fwStateReasonMax + 1))))

def encode (s : FwState) : Option Bytes :=
  if s.pendingVersion.length > fwStateVersionMax then none
  else if s.failure.length > fwStateReasonMax then none
  else some (putLe32 magic ++ (s.body ++ putLe32 (crc32Bytes s.body).toNat))

/-- The string in an array, if it ends there. -/
def cString (b : Bytes) : Option Bytes := if 0 ∈ b then some (b.takeWhile (· ≠ 0)) else none

def decode (p : Bytes) : Option FwState := do
  if le32 p ≠ magic then none
  else if p.getD 4 0 ≠ format then none
  else if le32 (p.drop offCrc) ≠ (crc32Bytes (slice p 4 (offCrc - 4))).toNat then none
  else if p.getD offPending 0 > 1 then none
  else
    let version ← cString (slice p offPver (fwStateVersionMax + 1))
    let failure ← cString (slice p offFail (fwStateReasonMax + 1))
    some {
      installedSequence := UInt32.ofNat (le32 (p.drop offInstalled))
      pending := p.getD offPending 0 = 1
      pendingSequence := UInt32.ofNat (le32 (p.drop offPseq))
      pendingVersion := version
      failure := failure }

/-- The record as it is read: none that checks is all zeros. -/
def load (p : Bytes) : FwState := (decode p).getD zeroed

/-- The strings fit their arrays. -/
structure Fits (s : FwState) : Prop where
  version : s.pendingVersion.length ≤ fwStateVersionMax ∧ 0 ∉ s.pendingVersion
  failure : s.failure.length ≤ fwStateReasonMax ∧ 0 ∉ s.failure

theorem cString_padded {s : Bytes} (h : s.length < n) (h0 : 0 ∉ s) : cString (padded s n) = some s := by
  have hpad : List.replicate (n - s.length) (0 : UInt8) = 0 :: List.replicate (n - s.length - 1) 0 := by
    rw [← List.replicate_succ]
    congr 1
    omega
  have hs : ∀ c ∈ s, decide (c ≠ 0) = true := fun c hc => decide_eq_true fun he => h0 (he ▸ hc)
  rw [cString, padded, hpad, if_pos (List.mem_append_right _ (List.mem_cons_self ..)), List.takeWhile_append_of_pos hs]
  simp

theorem length_padded {s : Bytes} (h : s.length ≤ n) : (padded s n).length = n := by
  rw [padded, List.length_append, List.length_replicate]
  omega

/-- A record written is read back. -/
theorem decode_encode (h : s.Fits) : ∃ p, encode s = some p ∧ decode p = some s := by
  obtain ⟨hv, hv0⟩ := h.version
  obtain ⟨hf, hf0⟩ := h.failure
  refine ⟨_, by rw [encode, if_neg (Nat.not_lt.2 hv), if_neg (Nat.not_lt.2 hf)], ?_⟩
  obtain ⟨crc, hcrc⟩ : ∃ crc, crc = putLe32 (crc32Bytes s.body).toNat := ⟨_, rfl⟩
  obtain ⟨p, hp⟩ : ∃ p, p = putLe32 magic ++ (s.body ++ crc) := ⟨_, rfl⟩
  rw [← hcrc, ← hp]
  have hvpad : (padded s.pendingVersion (fwStateVersionMax + 1)).length = fwStateVersionMax + 1 := length_padded (by omega)
  have hfpad : (padded s.failure (fwStateReasonMax + 1)).length = fwStateReasonMax + 1 := length_padded (by omega)
  have hbody : s.body.length = 124 := by
    simp only [body, List.length_cons, List.length_append, length_putLe32, hvpad, hfpad]
    rfl
  have hdrop : ∀ n, p.drop (4 + n) = (s.body ++ crc).drop n := fun n => by
    rw [← List.drop_drop, hp, List.drop_left' (length_putLe32 _)]
  have hstrings : p.drop 14 = padded s.pendingVersion (fwStateVersionMax + 1) ++
      (padded s.failure (fwStateReasonMax + 1) ++ crc) := by
    rw [← List.append_assoc, hp]
    rfl
  have hmagic : le32 p = magic := by
    rw [hp]
    exact le32_putLe32 (by decide) _
  have hcheck : le32 (p.drop offCrc) = (crc32Bytes (slice p 4 (offCrc - 4))).toNat := by
    have hslice : slice p 4 (offCrc - 4) = s.body := by
      rw [slice, hp, List.drop_left' (length_putLe32 _)]
      exact List.take_left' hbody
    rw [hslice, show p.drop offCrc = crc from (hdrop 124).trans (List.drop_left' hbody), hcrc]
    exact (congrArg le32 (List.append_nil _).symm).trans (le32_putLe32 (UInt32.toNat_lt _) [])
  have hversion : cString (slice p offPver (fwStateVersionMax + 1)) = some s.pendingVersion := by
    rw [slice, show p.drop offPver = _ from hstrings, List.take_left' hvpad, cString_padded (by omega) hv0]
  have hfailure : cString (slice p offFail (fwStateReasonMax + 1)) = some s.failure := by
    have hat : p.drop offFail = padded s.failure (fwStateReasonMax + 1) ++ crc := by
      rw [show offFail = 14 + (fwStateVersionMax + 1) from rfl, ← List.drop_drop, hstrings, List.drop_left' hvpad]
    rw [slice, hat, List.take_left' hfpad, cString_padded (by omega) hf0]
  have hformat : p.getD 4 0 = format := by rw [hp]; rfl
  have hpending : p.getD offPending 0 = if s.pending then 1 else 0 := by rw [hp]; rfl
  have hinstalled : UInt32.ofNat (le32 (p.drop offInstalled)) = s.installedSequence := by
    rw [hp]
    exact (congrArg UInt32.ofNat (le32_putLe32 (UInt32.toNat_lt _) _)).trans UInt32.ofNat_toNat
  have hpseq : UInt32.ofNat (le32 (p.drop offPseq)) = s.pendingSequence := by
    rw [hp]
    exact (congrArg UInt32.ofNat (le32_putLe32 (UInt32.toNat_lt _) _)).trans UInt32.ofNat_toNat
  have hone : ¬ p.getD offPending 0 > 1 := by
    rw [hpending]
    split
    · decide
    · decide
  rw [decode, if_neg (not_not.2 hmagic), if_neg (not_not.2 hformat), if_neg (not_not.2 hcheck), if_neg hone, hversion,
    hfailure, hinstalled, hpseq, hpending]
  obtain ⟨installed, pending, pseq, version, failure⟩ := s
  cases pending
  · rfl
  · rfl

theorem cString_fits {b s : Bytes} (h : cString b = some s) : s.length < b.length ∧ 0 ∉ s := by
  unfold cString at h
  split at h
  · next hmem =>
    cases h
    refine ⟨?_, fun hz => absurd (List.all_eq_true.1 List.all_takeWhile 0 hz) (by decide)⟩
    by_contra hle
    have hall := List.takeWhile_eq_self_iff.1
      ((List.takeWhile_prefix (fun c : UInt8 => decide (c ≠ 0))).eq_of_length_le (Nat.not_lt.1 hle))
    exact absurd (hall 0 hmem) (by decide)
  · cases h

/-- Whatever the sector holds, the strings read from it fit. -/
theorem load_fits (p : Bytes) : (load p).Fits := by
  have hzero : zeroed.Fits := ⟨⟨Nat.zero_le _, List.not_mem_nil⟩, ⟨Nat.zero_le _, List.not_mem_nil⟩⟩
  rw [load]
  cases hd : decode p with
  | none => exact hzero
  | some s =>
    unfold decode at hd
    repeat' split at hd
    all_goals first
      | cases hd
      | skip
    simp only [bind, Option.bind_eq_some_iff] at hd
    obtain ⟨version, hversion, failure, hfailure, hs⟩ := hd
    cases hs
    have hv := cString_fits hversion
    have hf := cString_fits hfailure
    rw [length_slice] at hv hf
    exact ⟨⟨Nat.lt_succ_iff.1 (Nat.lt_of_lt_of_le hv.1 (Nat.min_le_left _ _)), hv.2⟩,
      ⟨Nat.lt_succ_iff.1 (Nat.lt_of_lt_of_le hf.1 (Nat.min_le_left _ _)), hf.2⟩⟩

end FwState

end WebAdf.Firmware

/-!
# The trial boot

What a trial decides, the mark by which it is bought in the next boot, and what a start-up
makes of the record: confirmed where the version runs, reverted where another does.
-/

namespace WebAdf.Firmware

open Lib

def fwTrialDeadlineMs : UInt32 := 300000
def fwTrialBuyCutoffMs : UInt32 := fwTrialDeadlineMs - 15000

inductive FwTrialAction
  | none
  | wait
  | buy
  | giveUp
  deriving DecidableEq

structure FwTrialIn where
  trialBoot : Bool
  st : FwState
  runningVersion : Bytes
  heartbeatOk : Bool
  msSinceBoot : UInt32

/-- The action, and why where it gives up. -/
def fwTrialDecide (i : FwTrialIn) : FwTrialAction × Bytes :=
  if !i.trialBoot then (.none, [])
  else if i.st.pending ∧ i.st.pendingVersion ≠ i.runningVersion then (.giveUp, ascii "version mismatch")
  else if !i.st.pending then (if i.heartbeatOk then .buy else .wait, [])
  else if i.heartbeatOk ∧ i.msSinceBoot < fwTrialBuyCutoffMs then (.buy, [])
  else if i.msSinceBoot ≥ fwTrialBuyCutoffMs then
    (.giveUp,
      if i.heartbeatOk then ascii "heartbeat came too late to confirm" else ascii "no heartbeat within 5 minutes")
  else (.wait, [])

def fwProvenMagic : UInt32 := 0x5052564e
def fwOtaRebootMagic : UInt32 := 0x4f544152

/-- FNV-1a. -/
def fwVersionHash (version : Bytes) : UInt32 := version.foldl (fun h p => (h ^^^ p.toUInt32) * 0x01000193) 0x811c9dc5

def fwTrialProven (trialBoot : Bool) (scratch0 scratch1 : UInt32) (runningVersion : Bytes) : Bool :=
  trialBoot && scratch0 == fwProvenMagic && scratch1 == fwVersionHash runningVersion

/-- The words marked for an update's reboot, a proven mark left as it is. -/
def fwMarkOtaReboot (s : UInt32 × UInt32) : UInt32 × UInt32 :=
  if s.1 = fwProvenMagic then s else (fwOtaRebootMagic, ~~~fwOtaRebootMagic)

namespace FwState

def clearPending (st : FwState) : FwState :=
  { st with pending := false, pendingSequence := 0, pendingVersion := [], failure := [] }

/-- Whether the record changed, and it. -/
def afterBuy (st : FwState) : Bool × FwState :=
  if !st.pending then (false, st)
  else (true, ({ st with installedSequence := st.pendingSequence } : FwState).clearPending)

end FwState

inductive FwBoot
  | clean
  | reverted
  | confirmedLate
  deriving DecidableEq

/-- What a start-up finds, the record it makes of it, and what it reports. -/
def fwBootReconcile (st : FwState) (runningVersion : Bytes) (errLen : Nat) : FwBoot × FwState × Bytes :=
  if !st.pending then (.clean, st, [])
  else if st.pendingVersion = runningVersion then
    (.confirmedLate, ({ st with installedSequence := st.pendingSequence } : FwState).clearPending, [])
  else
    (.reverted, st.clearPending,
      (snprintf errLen (ascii "reverted: " ++
        if st.failure ≠ [] then st.failure else ascii "the new firmware did not confirm itself")).1)

-- ---------------------------------------------------------------------------
-- What they come to
-- ---------------------------------------------------------------------------

/-- Bought while one is pending: by its own version, and before the cutoff. -/
theorem fwTrialDecide_buy (h : (fwTrialDecide i).1 = .buy) (hp : i.st.pending = true) :
    i.st.pendingVersion = i.runningVersion ∧ i.msSinceBoot < fwTrialBuyCutoffMs := by
  unfold fwTrialDecide at h
  split at h
  · cases h
  · split at h
    · cases h
    · next hversion =>
      have hsame : i.st.pendingVersion = i.runningVersion := by
        by_contra hne
        exact hversion ⟨hp, hne⟩
      rw [if_neg (by simp [hp])] at h
      split at h
      · next hb => exact ⟨hsame, hb.2⟩
      · split at h
        · cases h
        · cases h

/-- Why a trial gives up fits the record. -/
theorem fwTrialDecide_reason (i : FwTrialIn) :
    (fwTrialDecide i).2.length ≤ fwStateReasonMax ∧ 0 ∉ (fwTrialDecide i).2 := by
  unfold fwTrialDecide
  repeat' split
  all_goals exact ⟨by decide, by decide⟩

/-- The bookkeeping at a buy is a start-up's of the version bought. -/
theorem afterBuy_reconcile (st : FwState) (h : st.pending = true) (errLen : Nat) :
    fwBootReconcile st st.pendingVersion errLen = (.confirmedLate, st.afterBuy.2, []) := by
  rw [fwBootReconcile, if_neg (by simp [h]), if_pos rfl, FwState.afterBuy, if_neg (by simp [h])]

/-- What a start-up can make of the record. -/
inductive Reconciled (st : FwState) (running : Bytes) : FwBoot → FwState → Prop
  | clean (hp : st.pending = false) : Reconciled st running .clean st
  | confirmed (hp : st.pending = true) (hv : st.pendingVersion = running) :
      Reconciled st running .confirmedLate ({ st with installedSequence := st.pendingSequence } : FwState).clearPending
  | reverted (hp : st.pending = true) (hv : st.pendingVersion ≠ running) :
      Reconciled st running .reverted st.clearPending

theorem reconciled (st : FwState) (running : Bytes) (errLen : Nat) :
    Reconciled st running (fwBootReconcile st running errLen).1 (fwBootReconcile st running errLen).2.1 := by
  unfold fwBootReconcile
  split
  · next hp => exact .clean (by simpa using hp)
  · next hp =>
    split
    · next hv => exact .confirmed (by simpa using hp) hv
    · next hv => exact .reverted (by simpa using hp) hv

theorem fwMarkOtaReboot_proven (h : (fwMarkOtaReboot s).1 = fwProvenMagic) : s.1 = fwProvenMagic := by
  unfold fwMarkOtaReboot at h
  split at h
  · next hs => exact hs
  · exact absurd h (by decide)

end WebAdf.Firmware
