import WebAdf.Adffs.WellFormed

/-!
# The tree of a well-formed volume

Every entry has one directory and one depth, so what lies below two entries of one
directory has nothing in common.
-/

namespace WebAdf.Adffs

open Lib

variable {adf : Adf} {boot : BootInfo} {page : Nat}

/-- A directory or an entry, by how far it lies below the root. -/
inductive Depth (adf : Adf) : Nat → Nat → Prop
  | root : Depth adf 0 adf.rootBlock
  | entry (hdepth : Depth adf n dir) (hd : Directory adf dir) (hc : Child adf dir e) : Depth adf (n + 1) e

/-- An entry and what lies below it. -/
inductive Below (adf : Adf) (top : Nat) : Nat → Prop
  | self : Below adf top top
  | child (hb : Below adf top dir) (hdir : adf.isDir dir) (hc : Child adf dir e) : Below adf top e

theorem Directory.depth (hd : Directory adf dir) : ∃ n, Depth adf n dir := by
  induction hd with
  | root => exact ⟨0, .root⟩
  | inside hd hc _ ih =>
    obtain ⟨n, hn⟩ := ih
    exact ⟨n + 1, .entry hn hd hc⟩

theorem Entry.depth (he : Entry adf dir e) : ∃ n, Depth adf n dir ∧ Depth adf (n + 1) e := by
  obtain ⟨n, hn⟩ := he.1.depth
  exact ⟨n, hn, .entry hn he.1 he.2⟩

theorem Entry.directory (he : Entry adf dir e) (hdir : adf.isDir e) : Directory adf e := .inside he.1 he.2 hdir

/-- A directory's subtree is made of entries. -/
theorem Below.entry (hb : Below adf top x) (he : Entry adf dir top) : ∃ up, Entry adf up x := by
  induction hb with
  | self => exact ⟨dir, he⟩
  | child _ hdir hc ih =>
    obtain ⟨up, hup⟩ := ih
    exact ⟨_, hup.directory hdir, hc⟩

theorem Below.trans (h : Below adf top mid) (h' : Below adf mid x) : Below adf top x := by
  induction h' with
  | self => exact h
  | child _ hdir hc ih => exact .child ih hdir hc

namespace WellFormed

/-- An entry is in one directory. -/
theorem parent_unique (hw : WellFormed adf boot page) (h : Entry adf dir e) (h' : Entry adf dir' e) : dir = dir' :=
  (hw.parent h).symm.trans (hw.parent h')

theorem depth_unique (hw : WellFormed adf boot page) (h : Depth adf n e) (h' : Depth adf m e) : n = m := by
  induction h generalizing m with
  | root =>
    cases h' with
    | root => rfl
    | entry _ hd hc => exact absurd rfl (hw.ne_root ⟨hd, hc⟩)
  | entry _ hd hc ih =>
    cases h' with
    | root => exact absurd rfl (hw.ne_root ⟨hd, hc⟩)
    | entry hdepth hd' hc' =>
      obtain rfl := hw.parent_unique ⟨hd, hc⟩ ⟨hd', hc'⟩
      rw [ih hdepth]

/-- What lies below an entry lies deeper, but for the entry itself. -/
theorem depth_below (hw : WellFormed adf boot page) (he : Entry adf dir top) (hb : Below adf top x) (hn : Depth adf n top) :
    ∃ m, Depth adf m x ∧ n ≤ m ∧ (n = m → x = top) := by
  induction hb with
  | self => exact ⟨n, hn, Nat.le_refl n, fun _ => rfl⟩
  | child hb hdir hc ih =>
    obtain ⟨m, hm, hle, -⟩ := ih
    obtain ⟨up, hup⟩ := hb.entry he
    exact ⟨m + 1, .entry hm (hup.directory hdir) hc, by omega, fun heq => by omega⟩

/-- An entry's own directory does not lie below it. -/
theorem not_below (hw : WellFormed adf boot page) (he : Entry adf dir e) : ¬ Below adf e dir := fun hb => by
  obtain ⟨n, hn, hn'⟩ := he.depth
  obtain ⟨m, hm, hle, -⟩ := hw.depth_below he hb hn'
  have heq := hw.depth_unique hn hm
  omega

/-- The subtrees of two entries of one directory have nothing in common. -/
theorem siblings (hw : WellFormed adf boot page) (he : Entry adf dir e) (he' : Entry adf dir e') (hb : Below adf e x)
    (hb' : Below adf e' x) : e = e' := by
  induction hb with
  | self =>
    cases hb' with
    | self => rfl
    | child hb' hdir hc =>
      obtain ⟨up, hup⟩ := hb'.entry he'
      obtain rfl := hw.parent_unique he ⟨hup.directory hdir, hc⟩
      exact absurd hb' (hw.not_below he')
  | child hb hdir hc ih =>
    obtain ⟨up, hup⟩ := hb.entry he
    have hx : Entry adf _ _ := ⟨hup.directory hdir, hc⟩
    cases hb' with
    | self =>
      obtain rfl := hw.parent_unique hx he'
      exact absurd hb (hw.not_below he)
    | child hb' hdir' hc' =>
      obtain ⟨up', hup'⟩ := hb'.entry he'
      obtain rfl := hw.parent_unique hx ⟨hup'.directory hdir', hc'⟩
      exact ih hb'

end WellFormed

end WebAdf.Adffs
