import Mathlib.Data.List.Chain
import WebAdf.DiskHistory.Diff
import WebAdf.DiskHistory.DeltaLaws

/-!
# A disk's versions as a chain

Every version is a complete image (a snapshot) or a delta against the one
before it. `replayPlan` picks what a rewind reads, `materialise` replays it, and
`planNextVersion` decides what the next version is stored as.
-/

namespace WebAdf.DiskHistory

open Lib

inductive VersionKind
  | snapshot
  | delta
  deriving DecidableEq, Repr

structure VersionEntry (σ : Type) where
  seq : Nat
  kind : VersionKind
  /-- The blob to read: a full image for a snapshot, an encoded delta else. -/
  blobSha256 : σ
  /-- The digest of the complete image at this version. -/
  imageSha256 : σ
  source : String
  deriving DecidableEq, Repr

def maxChainDepth : Nat := 64

def nextKind (changedSectors deltasSinceSnapshot imageBytes : Nat) : VersionKind :=
  if shouldSnapshot changedSectors imageBytes then .snapshot
  else if deltasSinceSnapshot ≥ maxChainDepth then .snapshot
  else .delta

section
variable {σ : Type}

/-- The index of the last snapshot at or before `i`. -/
def snapshotAt (entries : List (VersionEntry σ)) : Nat → Option Nat
  | 0 => if (entries[0]?.map (·.kind)) = some .snapshot then some 0 else none
  | i + 1 =>
    if (entries[i + 1]?.map (·.kind)) = some .snapshot then some (i + 1) else snapshotAt entries i

def checkContiguous : List (VersionEntry σ) → Except Thrown Unit
  | a :: b :: rest =>
    if b.seq ≠ a.seq + 1 then
      .error (.history s!"history is not contiguous between {a.seq} and {b.seq}")
    else checkContiguous (b :: rest)
  | _ => .ok ()

/-- The entries to read for version `seq`: a snapshot, then each delta after
it. -/
def replayPlan (entries : List (VersionEntry σ)) (seq : Nat) :
    Except Thrown (List (VersionEntry σ)) := do
  if entries.length = 0 then throw (.history "this disk has no history")
  match entries.findIdx? (·.seq == seq) with
  | none => throw (.history s!"no version {seq}")
  | some i =>
    match snapshotAt entries i with
    | none => throw (.history s!"version {seq} has no snapshot to replay from")
    | some from' =>
      let plan := (entries.take (i + 1)).drop from'
      checkContiguous plan
      return plan

/-- One delta of the plan, read and applied. -/
def replayDelta (read : σ → Except Thrown Bytes) (image : Bytes) (entry : VersionEntry σ) :
    Except Thrown Bytes := do
  let delta ← decodeDelta (← read entry.blobSha256)
  applyDelta image delta

def replay (read : σ → Except Thrown Bytes) :
    List (VersionEntry σ) → Except Thrown Bytes
  | [] => .error (.history "this disk has no history")
  | first :: rest => do
    let image ← read first.blobSha256
    if !isHistoryImage image then
      throw (.history s!"snapshot {first.seq} is {image.length} bytes, not a disk image")
    rest.foldlM (replayDelta read) image

/-- The complete image at version `seq`. -/
def materialise (entries : List (VersionEntry σ)) (seq : Nat) (read : σ → Except Thrown Bytes) :
    Except Thrown Bytes := do
  let plan ← replayPlan entries seq
  replay read plan

/-- Deltas recorded since the most recent snapshot. -/
def deltasSinceSnapshot (entries : List (VersionEntry σ)) : Nat :=
  (entries.reverse.takeWhile (·.kind ≠ .snapshot)).length

structure PlannedVersion where
  kind : VersionKind
  sectorCount : Nat
  /-- The encoded delta for a delta; `none` for a snapshot, whose image is the
  blob. -/
  deltaBlob : Option Bytes
  deriving DecidableEq, Repr

/-- What to record for `next`; `none` when nothing changed. -/
def planNextVersion (entries : List (VersionEntry σ)) (head next : Bytes) :
    Except Thrown (Option PlannedVersion) := do
  let delta ← buildDelta head next
  if delta.sectors.length = 0 then return none
  match nextKind delta.sectors.length (deltasSinceSnapshot entries) next.length with
  | .snapshot => return some ⟨.snapshot, delta.sectors.length, none⟩
  | .delta =>
    let blob ← encodeDelta delta
    return some ⟨.delta, delta.sectors.length, some blob⟩

end

end WebAdf.DiskHistory

/-!
# Replaying a numbered chain

In a chain numbered 0, 1, 2, … a version is replayed either from its own
snapshot or as one delta over the version before it. That is what makes the
image of every version an induction over the chain.
-/

namespace WebAdf.DiskHistory

variable {σ : Type} {entries : List (VersionEntry σ)} {e : VersionEntry σ} {k : Nat}

/-- The versions are numbered from 0, in order and with no gap. -/
def Numbered (entries : List (VersionEntry σ)) : Prop :=
  entries.map (·.seq) = List.range entries.length

theorem Numbered.seq (h : Numbered entries) (hk : entries[k]? = some e) : e.seq = k := by
  obtain ⟨hlt, rfl⟩ := List.getElem?_eq_some_iff.mp hk
  have hs := congrArg (·[k]?) h
  simpa [hlt] using hs

theorem Numbered.ascending (h : Numbered entries) : entries.Pairwise (fun a b => a.seq < b.seq) := by
  have hp : (entries.map (·.seq)).Pairwise (· < ·) := by
    rw [h]
    exact List.pairwise_lt_range
  exact List.pairwise_map.mp hp

theorem Numbered.findIdx? (h : Numbered entries) (hk : entries[k]? = some e) :
    entries.findIdx? (·.seq == k) = some k := by
  have hlt : k < entries.length := (List.getElem?_eq_some_iff.mp hk).1
  rw [List.findIdx?_eq_some_iff_getElem]
  refine ⟨hlt, ?_, ?_⟩
  · simp [h.seq (List.getElem?_eq_getElem hlt)]
  · intro j hj
    have hs := h.seq (List.getElem?_eq_getElem (Nat.lt_trans hj hlt))
    simp only [hs, beq_iff_eq]
    omega

theorem Numbered.of_concat (h : Numbered entries) (hseq : e.seq = entries.length) :
    Numbered (entries ++ [e]) := by
  unfold Numbered at h ⊢
  rw [List.map_append, h, List.length_append, List.length_singleton, List.range_succ]
  simp [hseq]

theorem checkContiguous_ok (h : entries.IsChain (fun a b => b.seq = a.seq + 1)) :
    checkContiguous entries = .ok () := by
  induction entries with
  | nil => rfl
  | cons a rest ih =>
    cases rest with
    | nil => rfl
    | cons b rest =>
      obtain ⟨hab, hrest⟩ := List.isChain_cons_cons.mp h
      rw [checkContiguous, if_neg (not_not.mpr hab)]
      exact ih hrest

theorem Numbered.isChain (h : Numbered entries) :
    entries.IsChain (fun a b => b.seq = a.seq + 1) := by
  rw [List.isChain_iff_getElem]
  intro i hi
  have hi' := h.seq (List.getElem?_eq_getElem (Nat.lt_of_succ_lt hi))
  have hs := h.seq (List.getElem?_eq_getElem hi)
  omega

/-- The plan of version `k` in a numbered chain. -/
theorem replayPlan_eq (h : Numbered entries) (hk : entries[k]? = some e) :
    replayPlan entries k =
      match snapshotAt entries k with
      | none => .error (.history s!"version {k} has no snapshot to replay from")
      | some i => .ok ((entries.take (k + 1)).drop i) := by
  have hlt : k < entries.length := (List.getElem?_eq_some_iff.mp hk).1
  have hne : entries.length ≠ 0 := by omega
  simp only [replayPlan, if_neg hne, h.findIdx? hk]
  cases snapshotAt entries k with
  | none => rfl
  | some i =>
    have hc : checkContiguous ((entries.take (k + 1)).drop i) = .ok () :=
      checkContiguous_ok ((h.isChain.take _).drop _)
    simp only [hc]
    rfl

theorem snapshotAt_snapshot (hk : entries[k]? = some e) (he : e.kind = .snapshot) :
    snapshotAt entries k = some k := by
  cases k <;> simp [snapshotAt, hk, he]

theorem snapshotAt_delta (hk : entries[k + 1]? = some e) (he : e.kind = .delta) :
    snapshotAt entries (k + 1) = snapshotAt entries k := by
  simp [snapshotAt, hk, he]

theorem snapshotAt_le (h : snapshotAt entries k = some i) : i ≤ k := by
  induction k with
  | zero =>
    simp only [snapshotAt] at h
    split at h
    · cases h; exact Nat.le_refl 0
    · cases h
  | succ k ih =>
    simp only [snapshotAt] at h
    split at h
    · cases h; exact Nat.le_refl _
    · exact Nat.le_succ_of_le (ih h)

variable {read : σ → Except Thrown Bytes}

/-- A snapshot is read as it is. -/
theorem materialise_snapshot (h : Numbered entries) (hk : entries[k]? = some e)
    (he : e.kind = .snapshot) (hr : read e.blobSha256 = .ok img)
    (hi : isHistoryImage img = true) : materialise entries k read = .ok img := by
  have hlt : k < entries.length := (List.getElem?_eq_some_iff.mp hk).1
  have hplan : (entries.take (k + 1)).drop k = [e] := by
    rw [List.take_add_one, hk, List.drop_append_of_le_length (by simp; omega)]
    simp
  rw [materialise, replayPlan_eq h hk, snapshotAt_snapshot hk he]
  simp only [hplan, bind_ok]
  refine ⟨_, rfl, ?_⟩
  simp only [replay, bind_ok]
  exact ⟨img, hr, by simp [hi, pure, Except.pure]⟩

/-- A delta is applied to the version before it. -/
theorem materialise_delta (h : Numbered entries) (hk : entries[k + 1]? = some e)
    (he : e.kind = .delta) (hprev : materialise entries k read = .ok img) :
    materialise entries (k + 1) read = replayDelta read img e := by
  have hlt : k + 1 < entries.length := (List.getElem?_eq_some_iff.mp hk).1
  obtain ⟨p, hp⟩ : ∃ p, entries[k]? = some p := ⟨_, List.getElem?_eq_getElem (by omega)⟩
  rw [materialise, replayPlan_eq h hp] at hprev
  rw [materialise, replayPlan_eq h hk, snapshotAt_delta hk he]
  cases hs : snapshotAt entries k with
  | none => simp [hs, bind, Except.bind] at hprev
  | some i =>
    have hik := snapshotAt_le hs
    have hplan : (entries.take (k + 1 + 1)).drop i = (entries.take (k + 1)).drop i ++ [e] := by
      rw [List.take_add_one (i := k + 1), hk, List.drop_append_of_le_length (by simp; omega)]
      rfl
    obtain ⟨first, rest, hfirst⟩ : ∃ first rest, (entries.take (k + 1)).drop i = first :: rest := by
      have hlen : ((entries.take (k + 1)).drop i).length ≠ 0 := by
        simp only [List.length_drop, List.length_take]
        omega
      exact List.exists_cons_of_length_pos (Nat.pos_of_ne_zero hlen)
    simp only [hs, hfirst, bind_ok] at hprev
    obtain ⟨_, ⟨⟩, hprev⟩ := hprev
    simp only [hplan, hfirst]
    show replay read (first :: (rest ++ [e])) = _
    simp only [replay, bind_ok] at hprev
    obtain ⟨snap, hsnap, hprev⟩ := hprev
    simp only [replay, hsnap]
    split at hprev
    · cases hprev
    next hi =>
      simp only [bind, Except.bind, if_neg hi, List.foldlM_append, List.foldlM_cons,
        List.foldlM_nil] at hprev ⊢
      simp only [pure, Except.pure] at hprev ⊢
      rw [hprev]
      show (replayDelta read img e >>= pure) = _
      exact bind_pure _

/-- What is stored for a delta takes the image it was built on to its own. -/
theorem replayDelta_build (hb : buildDelta before after = .ok d) (he : encodeDelta d = .ok src)
    (hr : read e.blobSha256 = .ok src) : replayDelta read before e = .ok after := by
  obtain ⟨src', hsrc, hdec⟩ := decode_encode_build hb
  obtain rfl : src = src' := by simpa [he] using hsrc
  simp only [replayDelta, bind_ok]
  exact ⟨src, hr, d, hdec, apply_build hb⟩

-- ---------------------------------------------------------------------------
-- The depth of a chain
-- ---------------------------------------------------------------------------

theorem deltasSinceSnapshot_concat (entries : List (VersionEntry σ)) (e : VersionEntry σ) :
    deltasSinceSnapshot (entries ++ [e]) =
      if e.kind = .snapshot then 0 else deltasSinceSnapshot entries + 1 := by
  unfold deltasSinceSnapshot
  cases h : e.kind <;> simp [h]

/-- A planned delta is the one `buildDelta` makes, and the chain has room for
it. -/
theorem planNextVersion_ok (h : planNextVersion entries head next = .ok (some plan)) :
    ∃ d, buildDelta head next = .ok d ∧
      ((plan.kind = .snapshot ∧ plan.deltaBlob = none) ∨
        plan.kind = .delta ∧ deltasSinceSnapshot entries < maxChainDepth ∧
          ∃ src, encodeDelta d = .ok src ∧ plan.deltaBlob = some src) := by
  simp only [planNextVersion, bind_ok] at h
  obtain ⟨d, hd, h⟩ := h
  refine ⟨d, hd, ?_⟩
  split at h
  · cases h
  · split at h
    · cases h
      exact .inl ⟨rfl, rfl⟩
    next hkind =>
      simp only [bind_ok] at h
      obtain ⟨src, hsrc, h⟩ := h
      cases h
      refine .inr ⟨rfl, ?_, src, hsrc, rfl⟩
      simp only [nextKind] at hkind
      split at hkind
      · cases hkind
      · split at hkind
        · cases hkind
        next hlt => exact Nat.lt_of_not_le hlt

end WebAdf.DiskHistory
