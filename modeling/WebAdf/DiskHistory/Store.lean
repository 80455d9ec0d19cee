import Mathlib.Logic.Function.Basic
import Mathlib.Logic.Relation
import WebAdf.DiskHistory.Chain

/-!
# Writers of one disk

`recordVersion`, cut at every point where another writer can come between: the
caller reads the disk's row and its bytes, the history is loaded and the next
version planned, each blob is put, and the rows are inserted in one batch whose
(disk, seq) constraint refuses a second version of the same number. Any number
of writers take these steps in any order, and any of them may die at any point.

The digest of bytes is a parameter. `log` is not part of the program: it keeps
the image each committed version was made for, to state what must come back.
-/

namespace WebAdf.DiskHistory

/-- A row of `disk_versions`, of one disk. -/
structure Row (σ : Type) extends VersionEntry σ where
  sectorCount : Nat
  deriving DecidableEq, Repr

/-- What `recordVersion` holds from planning to its batch. -/
structure Pending (σ : Type) where
  /-- The history was empty when it was loaded: version 0 is recorded too. -/
  first : Bool
  headSha : σ
  head : Bytes
  next : Bytes
  seq : Nat
  plan : PlannedVersion
  sha256 : σ
  blobSha256 : σ
  source : String
  /-- The PUTs not yet answered. -/
  puts : List (σ × Bytes)
  deriving DecidableEq, Repr

inductive Writer (σ : Type)
  | idle
  | holding (headSha : σ) (head : Bytes)
  | pending (p : Pending σ)
  /-- `StaleHeadError`: nothing was recorded. -/
  | stale
  deriving DecidableEq, Repr

/-- What loading the history and planning on it comes to. -/
inductive Prepared (σ : Type)
  | stale
  | unchanged
  | thrown (e : Thrown)
  | ready (p : Pending σ)
  deriving DecidableEq, Repr

/-- The image a version was committed with, and the head it was built on. -/
structure Committed where
  base : Option Bytes
  image : Bytes
  deriving DecidableEq, Repr

/-- The versions the batch records. -/
def Pending.committed {σ : Type} (p : Pending σ) : List Committed :=
  (if p.first then [⟨none, p.head⟩] else []) ++ [⟨some p.head, p.next⟩]

structure State (ι σ : Type) where
  blobs : σ → Option Bytes
  rows : List (Row σ)
  /-- `disks.sha256`. -/
  head : σ
  writers : ι → Writer σ
  log : List Committed

section
variable {ι σ : Type} [DecidableEq ι] [DecidableEq σ] [ToString σ]

/-- `diskStore.read`. -/
def readBlob (blobs : σ → Option Bytes) (sha256 : σ) : Except Thrown Bytes :=
  match blobs sha256 with
  | some bytes => .ok bytes
  | none => .error (.storage s!"storage: could not read adf/{sha256} back for verification")

/-- `diskStore.put`: what is already under the key stays. -/
def putBlob (blobs : σ → Option Bytes) (sha256 : σ) (bytes : Bytes) : σ → Option Bytes :=
  if (blobs sha256).isSome then blobs else Function.update blobs sha256 (some bytes)

/-- Rows in `seq` order, as entries. -/
def loadEntries (rows : List (Row σ)) : List (VersionEntry σ) :=
  (rows.mergeSort (·.seq ≤ ·.seq)).map Row.toVersionEntry

/-- The image before the first recorded version, as version 0. -/
def originalEntry (headSha : σ) : VersionEntry σ :=
  ⟨0, .snapshot, headSha, headSha, "original"⟩

/-- `recordVersion` up to its PUTs. -/
def prepare (sha256Of : Bytes → σ) (rows : List (Row σ)) (headSha : σ) (head next : Bytes)
    (source : String) : Prepared σ :=
  let entries := loadEntries rows
  if (entries.getLast?.any (·.imageSha256 ≠ headSha)) then .stale
  else
    let history := if entries.isEmpty then [originalEntry headSha] else entries
    match planNextVersion history head next with
    | .error e => .thrown e
    | .ok none => .unchanged
    | .ok (some plan) =>
      let sha256 := sha256Of next
      let blobSha256 := (plan.deltaBlob.map sha256Of).getD sha256
      .ready {
        first := entries.isEmpty, headSha, head, next,
        seq := (history.getLast?.map (·.seq)).getD 0 + 1,
        plan, sha256, blobSha256, source,
        puts := (sha256, next) :: (plan.deltaBlob.map (blobSha256, ·)).toList }

/-- An insert under the unique constraint on (disk, seq). -/
def insertRow (rows : List (Row σ)) (row : Row σ) : Option (List (Row σ)) :=
  if rows.any (·.seq == row.seq) then none else some (rows ++ [row])

/-- The batch's inserts: all of them, or none. -/
def insertVersion (rows : List (Row σ)) (p : Pending σ) : Option (List (Row σ)) := do
  let rows ← if p.first then insertRow rows ⟨originalEntry p.headSha, 0⟩ else some rows
  insertRow rows
    ⟨⟨p.seq, p.plan.kind, p.blobSha256, p.sha256, p.source⟩, p.plan.sectorCount⟩

def State.setWriter (s : State ι σ) (i : ι) (w : Writer σ) : State ι σ :=
  { s with writers := Function.update s.writers i w }

inductive Action (ι : Type)
  /-- The caller reads the disk's digest and the bytes under it. -/
  | read (i : ι)
  /-- The history is loaded, and `next` planned on it. -/
  | prepare (i : ι) (next : Bytes) (source : String)
  /-- One of the PUTs lands: the `n`-th of those outstanding. -/
  | put (i : ι) (n : Nat)
  /-- The batch. -/
  | commit (i : ι)
  /-- The writer is done, or dies. -/
  | stop (i : ι)

/-- One step of one writer; `none` where it cannot be taken. -/
def step (sha256Of : Bytes → σ) (s : State ι σ) : Action ι → Option (State ι σ)
  | .read i =>
    match s.writers i, s.blobs s.head with
    | .idle, some head => some (s.setWriter i (.holding s.head head))
    | _, _ => none
  | .prepare i next source =>
    match s.writers i with
    | .holding headSha head =>
      match prepare sha256Of s.rows headSha head next source with
      | .stale => some (s.setWriter i .stale)
      | .unchanged | .thrown _ => some (s.setWriter i .idle)
      | .ready p => some (s.setWriter i (.pending p))
    | _ => none
  | .put i n =>
    match s.writers i with
    | .pending p =>
      match p.puts[n]? with
      | some (sha256, bytes) =>
        some ({ s with blobs := putBlob s.blobs sha256 bytes }.setWriter i
          (.pending { p with puts := p.puts.eraseIdx n }))
      | none => none
    | _ => none
  | .commit i =>
    match s.writers i with
    | .pending p =>
      if p.puts ≠ [] then none
      else match insertVersion s.rows p with
        | none => some (s.setWriter i .stale)
        | some rows =>
          some ({ s with
            rows, head := p.sha256
            log := s.log ++ p.committed }.setWriter i .idle)
    | _ => none
  | .stop i => some (s.setWriter i .idle)

/-- Any interleaving of any number of steps. -/
def Reaches (sha256Of : Bytes → σ) : State ι σ → State ι σ → Prop :=
  Relation.ReflTransGen fun s t => ∃ a, step sha256Of s a = some t

/-- A disk that was never written: its image stored, no version, no writer. -/
structure Fresh (sha256Of : Bytes → σ) (s : State ι σ) : Prop where
  addressed : ∀ sha256 bytes, s.blobs sha256 = some bytes → sha256Of bytes = sha256
  rows : s.rows = []
  log : s.log = []
  idle : ∀ i, s.writers i = .idle

/-- The image at version `k` of a state, replayed from its rows and blobs. -/
def State.imageAt (s : State ι σ) (k : Nat) : Except Thrown Bytes :=
  materialise (loadEntries s.rows) k (readBlob s.blobs)

end

end WebAdf.DiskHistory
