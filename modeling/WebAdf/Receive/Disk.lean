import WebAdf.Receive.Starts

/-!
# What the hooks do to a disk

The behaviour of AmigaDOS that the session relies on: a call that fails changes
nothing, a rename takes only a name that is free, and a write goes nowhere but
into the file that is open. A RAM disk behaves so.
-/

namespace WebAdf.Receive

open Lib
open Relation (ReflTransGen)

variable {φ π : Type}

inductive Node
  | drawer
  | file (bytes : Bytes)
  deriving DecidableEq

/-- The disk behind a machine: which place a path names, what is there, and the
file being written with what was written so far. -/
structure Shelf (φ π : Type) where
  place : Bytes → π
  node : φ → π → Option Node
  opened : φ → Option (π × Bytes)

/-- A file at `l` stays as it is. -/
def Shelf.Stays (k : Shelf φ π) (d d' : φ) (l : π) : Prop :=
  ∀ b, k.node d l = some (.file b) → k.node d' l = some (.file b)

theorem Shelf.Stays.trans {k : Shelf φ π} {d d' d'' : φ} {l : π} (h : k.Stays d d' l)
    (h' : k.Stays d' d'' l) : k.Stays d d'' l := fun b hb => h' b (h b hb)

theorem Shelf.Stays.refl (k : Shelf φ π) (d : φ) (l : π) : k.Stays d d l := fun _ => id

/-- Only questions: a name that exists, an error and its words. -/
inductive Fs.Ask (fs : Fs φ) : φ → φ → Prop
  | existsRel (p : Bytes) (d : φ) : Ask fs d (fs.existsRel p d).2
  | err (d : φ) : Ask fs d (fs.err d).2
  | fault (e : Nat) (d : φ) : Ask fs d (fs.fault e d).2

structure Fs.Lawful (fs : Fs φ) (k : Shelf φ π) : Prop where
  look : ∀ {d d'}, fs.Look d d' → k.opened d' = k.opened d ∧ ∀ l, k.Stays d d' l
  /-- A file being written is in use: a request neither moves nor deletes it. -/
  call : ∀ {d d'}, fs.Call true d d' → k.opened d' = k.opened d
  ask : ∀ {d d'}, fs.Ask d d' → k.node d' = k.node d
  openW : ∀ {p d d'}, fs.openW p d = (true, d') → k.opened d' = some (k.place p, [])
  openW_stays : ∀ {p d ok d' l}, fs.openW p d = (ok, d') → l ≠ k.place p → k.Stays d d' l
  write : ∀ {x d d' l b}, fs.write x d = (true, d') → k.opened d = some (l, b) →
    k.opened d' = some (l, b ++ x)
  write_failed : ∀ {x d d' l b}, fs.write x d = (false, d') → k.opened d = some (l, b) →
    ∃ b', k.opened d' = some (l, b')
  write_stays : ∀ {x d ok d' l b l'}, fs.write x d = (ok, d') → k.opened d = some (l, b) → l' ≠ l →
    k.Stays d d' l'
  closeW : ∀ {d d' l b}, fs.closeW d = (true, d') → k.opened d = some (l, b) →
    k.node d' l = some (.file b)
  closeW_stays : ∀ {d ok d' l b l'}, fs.closeW d = (ok, d') → k.opened d = some (l, b) → l' ≠ l →
    k.Stays d d' l'
  /-- A rename that works had something to rename, and its new name is free. -/
  rename : ∀ {p q d d'}, fs.rename p q d = (true, d') →
    ∃ n, k.node d (k.place p) = some n ∧ k.node d' (k.place q) = some n ∧
      (k.place p = k.place q ∨ k.node d (k.place q) = none)
  rename_stays : ∀ {p q d d' b l}, fs.rename p q d = (true, d') →
    k.node d (k.place p) = some (.file b) → l ≠ k.place p → k.Stays d d' l
  rename_failed : ∀ {p q d d'}, fs.rename p q d = (false, d') → k.node d' = k.node d
  remove : ∀ {p d d'}, fs.remove p d = (true, d') → k.node d' (k.place p) = none
  remove_stays : ∀ {p d ok d' l}, fs.remove p d = (ok, d') → ok = false ∨ l ≠ k.place p →
    k.node d' l = k.node d l
  setMeta : ∀ {p n c d ok d'}, fs.setMeta p n c d = (ok, d') → k.node d' = k.node d

-- ---------------------------------------------------------------------------
-- A RAM disk
-- ---------------------------------------------------------------------------

/-- Files by their paths, in drawers that are all there. The next `stuck` renames
fail. -/
structure Ram where
  files : List (Bytes × Bytes) := []
  opened : Option (Bytes × Bytes) := none
  stuck : Nat := 0
  deriving DecidableEq

namespace Ram

def find (d : Ram) (p : Bytes) : Option Bytes := d.files.lookup p

def put (d : Ram) (p b : Bytes) : Ram :=
  { d with files := (p, b) :: d.files.filter (·.1 ≠ p) }

def drop (d : Ram) (p : Bytes) : Ram := { d with files := d.files.filter (·.1 ≠ p) }

def fs : Fs Ram where
  malloc d := (true, d)
  folderOk d := (true, d)
  freeBytes d := (901120, d)
  existsRel p d := ((d.find p).isSome, d)
  makeDir _ d := (true, d)
  openW p d := (true, { d.put p [] with opened := some (p, []) })
  write x d := match d.opened with
    | none => (false, d)
    | some (p, b) => (true, { d with opened := some (p, b ++ x) })
  closeW d := match d.opened with
    | none => (false, d)
    | some (p, b) => (true, { d.put p b with opened := none })
  rename p q d :=
    if d.stuck ≠ 0 then (false, { d with stuck := d.stuck - 1 })
    else match d.find p, d.find q with
      | some b, none => (true, (d.drop p).put q b)
      | _, _ => (false, d)
  remove p d := if (d.find p).isSome then (true, d.drop p) else (false, d)
  setMeta _ _ _ d := (true, d)
  openR _ d := (none, d)
  read _ d := (none, d)
  closeR d := d
  vols d := (some [{ name := ascii "Work", device := ascii "DH0:" }], d)
  dirOpen _ d := (dosNotFound, d)
  dirNext d := (.finished, d)
  dirLeft _ := 0
  dirNext_left h := by simp at h
  dirClose d := d
  stat p d := match d.find p with
    | none => (dosNotFound, {}, false, d)
    | some b => (0, { size := b.length }, false, d)
  fault _ d := ([], d)
  err d := (0, d)
  freeAt _ d := (901120, d)
  wMkdir _ d := (dosNotFound, d)
  wRename _ _ d := (dosNotFound, d)
  wDelete _ d := (dosNotFound, d)
  wProtect _ _ d := (dosNotFound, d)
  wNote _ _ d := (dosNotFound, d)
  wIcon _ d := (dosNotFound, d)

def shelf : Shelf Ram Bytes where
  place := id
  node d p := (d.find p).map .file
  opened := (·.opened)

theorem lookup_filter_ne (files : List (Bytes × Bytes)) (p q : Bytes) :
    (files.filter (·.1 ≠ p)).lookup q = if q = p then none else files.lookup q := by
  induction files with
  | nil => simp
  | cons f files ih =>
    rw [List.filter_cons]
    by_cases hf : f.1 = p
    · rw [if_neg (by simpa using hf), ih, List.lookup_cons]
      by_cases hq : q = p
      · rw [if_pos hq, if_pos hq]
      · rw [if_neg hq, if_neg hq, show (q == f.1) = false by simpa [hf] using hq]
    · rw [if_pos (by simpa using hf), List.lookup_cons, List.lookup_cons, ih]
      cases hq : q == f.1 with
      | true =>
        dsimp only
        rw [if_neg (by rw [eq_of_beq hq]; exact hf)]
      | false => rfl

theorem find_drop (d : Ram) (p q : Bytes) : (d.drop p).find q = if q = p then none else d.find q :=
  lookup_filter_ne ..

theorem find_put (d : Ram) (p b q : Bytes) : (d.put p b).find q = if q = p then some b else d.find q := by
  unfold put find
  rw [List.lookup_cons, lookup_filter_ne]
  by_cases hq : q = p
  · simp [hq]
  · rw [if_neg hq, if_neg hq, show (q == p) = false by simpa using hq]

theorem stays_put {d : Ram} {p b l : Bytes} (o : Option (Bytes × Bytes)) (h : l ≠ p) :
    shelf.Stays d { d.put p b with opened := o } l := by
  intro x hx
  have hfind : (d.put p b).find l = d.find l := by rw [find_put, if_neg h]
  exact (congrArg (·.map Node.file) hfind).trans hx

theorem rename_true {p q : Bytes} {d d' : Ram} (h : fs.rename p q d = (true, d')) :
    ∃ b, d.find p = some b ∧ d.find q = none ∧ d' = (d.drop p).put q b := by
  dsimp only [fs] at h
  split at h
  · simp at h
  · split at h
    · rename_i b hp hq
      exact ⟨b, hp, hq, (congrArg (·.2) h).symm⟩
    · simp at h

theorem stat_same (p : Bytes) (d : Ram) : (fs.stat p d).2.2.2 = d := by
  dsimp only [fs]
  split <;> rfl

theorem lawful : fs.Lawful shelf where
  look h := by
    cases h with
    | call h =>
      cases h with
      | stat =>
        rw [stat_same]
        exact ⟨rfl, fun l b => id⟩
      | _ => exact ⟨rfl, fun l b => id⟩
    | _ => exact ⟨rfl, fun l b => id⟩
  call h := by
    cases h with
    | stat => rw [stat_same]
    | _ => rfl
  ask h := by cases h <;> rfl
  openW h := by
    cases h
    rfl
  openW_stays h hl := by
    cases h
    exact stays_put _ hl
  write h ho := by
    dsimp only [shelf] at ho
    simp only [fs, ho] at h
    cases h
    rfl
  write_failed h ho := by
    dsimp only [shelf] at ho
    simp [fs, ho] at h
  write_stays h ho _ := by
    dsimp only [shelf] at ho
    simp only [fs, ho] at h
    cases h
    exact fun b => id
  closeW h ho := by
    dsimp only [shelf] at ho
    simp only [fs, ho] at h
    cases h
    simp [shelf, put, find]
  closeW_stays h ho hl := by
    dsimp only [shelf] at ho
    simp only [fs, ho] at h
    cases h
    exact stays_put _ hl
  rename {p q d d'} h := by
    obtain ⟨b, hp, hq, rfl⟩ := rename_true h
    refine ⟨.file b, ?_, ?_, .inr ?_⟩
    · simp [shelf, hp]
    · simp [shelf, find_put]
    · simp [shelf, hq]
  rename_stays {p q d d' b l} h hb hl := by
    obtain ⟨b, hp, hq, rfl⟩ := rename_true h
    intro x hx
    simp only [shelf, id] at hx hl ⊢
    rw [find_put, find_drop, if_neg hl, if_neg]
    · exact hx
    · rintro rfl
      simp [hq] at hx
  rename_failed {p q d d'} h := by
    dsimp only [fs] at h
    split at h
    · cases h
      rfl
    · split at h
      · simp at h
      · cases h
        rfl
  remove {p d d'} h := by
    dsimp only [fs] at h
    split at h
    · cases h
      simp [shelf, find_drop]
    · simp at h
  remove_stays {p d ok d' l} h hl := by
    dsimp only [fs] at h
    split at h
    · cases h
      have hl' : l ≠ p := by simpa [shelf] using hl
      simp [shelf, find_drop, hl']
    · cases h
      rfl
  setMeta h := by
    cases h
    rfl

end Ram

end WebAdf.Receive
