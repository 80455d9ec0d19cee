import Mathlib
import WebAdf.Adffs.Relinked

/-!
# An accepted name stays usable

A name is stored by the low byte of each unit and a control character reads back as an
underscore. So what is hashed and compared is what is stored exactly when every unit is
a printable Latin-1 character, and exactly then the entry can be found again.
-/

namespace WebAdf.Adffs

open Lib

variable {adf mid out : Adf} {boot : BootInfo} {page : Nat}

-- ---------------------------------------------------------------------------
-- Names that are read
-- ---------------------------------------------------------------------------

theorem name_readEntry (h : (readEntry adf children block w).1 = some x) : ∀ u ∈ x.name, Block.Plain u := by
  rw [readEntry] at h
  cases hb : adf.blockAt block with
  | none =>
    rw [hb] at h
    cases h
  | some b =>
    rw [hb] at h
    dsimp only at h
    have hname : x.name = b.bcplString 432 nameMax := by
      split at h
      · cases h
      · split at h
        · cases h
        · split at h
          · split at h <;> (cases h; rfl)
          · split at h
            · cases h
              rfl
            · cases h
    rw [hname]
    exact Block.bcplString_plain b 432 nameMax

section Names

variable {read : Nat → Walk → Option AdfEntry × Walk}

theorem name_readChain (hread : ∀ e w x, (read e w).1 = some x → ∀ u ∈ x.name, Block.Plain u) :
    ∀ x ∈ (readChain adf most read fuel ptr w).1, ∀ u ∈ x.name, Block.Plain u := by
  induction fuel generalizing ptr w with
  | zero =>
    intro x hx
    rw [readChain] at hx
    split at hx <;> cases hx
  | succ fuel ih =>
    intro x hx
    rw [readChain] at hx
    split at hx
    · cases hx
    · dsimp only at hx
      split at hx
      · cases hx
      · split at hx
        · cases hx
        · split at hx
          · cases hx
          · dsimp only at hx
            rcases List.mem_append.1 hx with hx | hx
            · exact hread ptr (w.visit ptr) x (Option.mem_toList.1 hx)
            · exact ih x hx

theorem readSlots_cons (c : List AdfEntry × Bool × Walk)
    (hc : readChain adf most read (adf.blockCount + 1) (dir.be32 (24 + slot * 4)) w = c) :
    readSlots adf most read dir (slot :: slots) w =
      if c.2.1 = true then (c.1, c.2.2)
      else (c.1 ++ (readSlots adf most read dir slots c.2.2).1, (readSlots adf most read dir slots c.2.2).2) := by
  rw [readSlots, hc]

theorem name_readSlots (hread : ∀ e w x, (read e w).1 = some x → ∀ u ∈ x.name, Block.Plain u) :
    ∀ x ∈ (readSlots adf most read dir slots w).1, ∀ u ∈ x.name, Block.Plain u := by
  induction slots generalizing w with
  | nil =>
    intro x hx
    cases hx
  | cons slot slots ih =>
    intro x hx
    obtain ⟨c, hc⟩ : ∃ c, readChain adf most read (adf.blockCount + 1) (dir.be32 (24 + slot * 4)) w = c := ⟨_, rfl⟩
    have hchain : ∀ x ∈ c.1, ∀ u ∈ x.name, Block.Plain u := hc ▸ name_readChain hread
    rw [readSlots_cons c hc] at hx
    by_cases hover : c.2.1 = true
    · rw [if_pos hover] at hx
      exact hchain x hx
    · rw [if_neg hover] at hx
      rcases List.mem_append.1 hx with hx | hx
      · exact hchain x hx
      · exact ih x hx

end Names

theorem name_readTable (adf : Adf) (most levels dir : Nat) (w : Walk) :
    ∀ x ∈ (readTable adf most levels dir w).1, ∀ u ∈ x.name, Block.Plain u := by
  intro x hx
  cases hb : adf.blockAt dir with
  | none => cases levels <;> (rw [readTable, hb] at hx; cases hx)
  | some b =>
    cases levels with
    | zero =>
      rw [readTable, hb] at hx
      exact name_readSlots (fun _ _ _ h => name_readEntry h) x hx
    | succ levels =>
      rw [readTable, hb] at hx
      exact name_readSlots (fun _ _ _ h => name_readEntry h) x hx

/-- Whatever the image, a name the walk shows is of printable characters. -/
theorem name_walkDirectory (adf : Adf) (dir : Nat) : ∀ x ∈ (walkDirectory adf dir).root, ∀ u ∈ x.name, Block.Plain u := by
  have h := name_readTable adf maxEntries maxDepth dir { visited := [dir] }
  rw [walkDirectory, walkDirectoryUpTo]
  generalize readTable adf maxEntries maxDepth dir { visited := [dir] } = r at h
  exact h

/-- Folding the case neither hides nor makes a character that is not printable. -/
theorem plain_upperChar (u : UInt16) (intl : Bool) : Block.Plain (upperChar u intl) ↔ Block.Plain u := by
  have hsub (lo : UInt16) (h : lo ≤ u) (h32 : 32 ≤ lo.toNat) : (u - 32).toNat = u.toNat - 32 := by
    have hle : lo.toNat ≤ u.toNat := UInt16.le_iff_toNat_le.1 h
    have h32' : (32 : UInt16) ≤ u := by
      rw [UInt16.le_iff_toNat_le]
      exact Nat.le_trans h32 hle
    rw [UInt16.toNat_sub_of_le _ _ h32']
    rfl
  rw [upperChar]
  split
  · rename_i h
    have hlo : 0x61 ≤ u.toNat := UInt16.le_iff_toNat_le.1 h.1
    have hhi : u.toNat ≤ 0x7a := UInt16.le_iff_toNat_le.1 h.2
    rw [Block.Plain, Block.Plain, hsub 0x61 h.1 (by decide)]
    omega
  · split
    · rename_i h
      have hlo : 0xe0 ≤ u.toNat := UInt16.le_iff_toNat_le.1 h.2.1
      have hhi : u.toNat ≤ 0xfe := UInt16.le_iff_toNat_le.1 h.2.2.1
      rw [Block.Plain, Block.Plain, hsub 0xe0 h.2.1 (by decide)]
      omega
    · exact Iff.rfl

theorem plain_of_sameName (h : sameName a b intl = true) (ha : ∀ u ∈ a, Block.Plain u) : ∀ u ∈ b, Block.Plain u := by
  intro u hu
  rw [sameName, beq_iff_eq] at h
  have hmem : upperChar u intl ∈ b.map (upperChar · intl) := List.mem_map.2 ⟨u, hu, rfl⟩
  rw [← h] at hmem
  obtain ⟨v, hv, heq⟩ := List.mem_map.1 hmem
  rw [← plain_upperChar u intl, ← heq, plain_upperChar]
  exact ha v hv

/-- A name that is not all printable is no one's, on any image. -/
theorem plain_of_entryNamed (h : entryNamed adf dir name intl exclude = true) : ∀ u ∈ name, Block.Plain u := by
  rw [entryNamed, List.any_eq_true] at h
  obtain ⟨x, hx, hsame⟩ := h
  rw [Bool.and_eq_true] at hsame
  exact plain_of_sameName hsame.2 (name_walkDirectory adf dir x hx)

-- ---------------------------------------------------------------------------
-- What an entry's name is for
-- ---------------------------------------------------------------------------

/-- A move is into a directory of the volume that is not inside the entry. -/
structure Usable (out : Adf) (boot : BootInfo) (dir e : Nat) (name : Units) : Prop where
  listed : ∃ x ∈ (walkDirectory out dir).root, x.block = e ∧ x.name = name
  addRefused : ∀ now again bytes protection meta_, sameName again name boot.intl = true → meta_.tooLong = false →
    addFile out now dir again bytes protection meta_ = .error .nameExists
  mkdirRefused : ∀ now again meta_, sameName again name boot.intl = true → meta_.tooLong = false →
    makeDirectory out now dir again meta_ = .error .nameExists
  deletes : ∃ img, deleteEntry out dir e = .ok img
  renames : ∀ newName, badName newName = false → entryNamed out dir newName boot.intl (some e) = false →
    ∃ img, renameEntry out dir e newName = .ok img
  moves : ∀ up, Directory out up → ¬ Below out e up → up = dir ∨ entryNamed out up name boot.intl none = false →
    ∃ img, moveEntry out dir e up = .ok img

-- ---------------------------------------------------------------------------
-- The operations on an entry of a well-formed volume
-- ---------------------------------------------------------------------------

theorem deleteEntry_succeeds (hw : WellFormed adf boot page) (he : Entry adf dir e) : ∃ img, deleteEntry adf dir e = .ok img := by
  obtain ⟨before, after, hs⟩ := hw.stands he
  rw [deleteEntry, hw.volume, hw.entryIn_eq he]
  simp only [need_some, ok_bind, refuse_neg hw.bitmapPage_ne, hw.predecessorOf_eq hs]
  exact ⟨_, pure_ok.2 rfl⟩

/-- Going up from a directory only meets those it lies in. -/
theorem mem_ancestryFrom (hw : WellFormed adf boot page) (hd : Directory adf cur) (hx : x ∈ ancestryFrom adf fuel cur chain) :
    x ∈ chain ∨ x = adf.rootBlock ∨ (∃ d, Entry adf d x) ∧ Below adf x cur := by
  induction fuel generalizing cur chain with
  | zero => exact .inl hx
  | succ fuel ih =>
    rw [ancestryFrom] at hx
    split at hx
    · exact .inl hx
    · split at hx
      · rename_i hroot
        rcases List.mem_append.1 hx with hx | hx
        · exact .inl hx
        · exact .inr (.inl ((List.mem_singleton.1 hx).trans hroot))
      · rename_i hroot
        rcases WellFormed.directory_cases hd with rfl | ⟨up, hup, -⟩
        · exact absurd rfl hroot
        · obtain ⟨-, -, hlt, -⟩ := hw.directory_used hd
          rw [Adf.raw_of_lt hlt, hw.parent hup] at hx
          rcases ih hup.1 hx with hx | hx | hx
          · rcases List.mem_append.1 hx with hx | hx
            · exact .inl hx
            · rw [List.mem_singleton.1 hx]
              exact .inr (.inr ⟨⟨up, hup⟩, .self⟩)
          · exact .inr (.inl hx)
          · obtain ⟨⟨d, hxd⟩, hb⟩ := hx
            rcases WellFormed.directory_cases hup.1 with hupr | ⟨up', -, hdir⟩
            · obtain ⟨d', hd'⟩ := hb.entry hxd
              exact absurd hupr (hw.ne_root hd')
            · exact .inr (.inr ⟨⟨d, hxd⟩, .child hb hdir hup.2⟩)

theorem moveEntry_succeeds (hw : WellFormed adf boot page) (he : Entry adf dir e) (hup : Directory adf up)
    (hbelow : ¬ Below adf e up) (hfree : up = dir ∨ entryNamed adf up (adf.block e).entryName boot.intl none = false) :
    ∃ img, moveEntry adf dir e up = .ok img := by
  obtain ⟨before, after, hs⟩ := hw.stands he
  have hcycle : e ∉ ancestryOf adf up := fun hmem => by
    rcases mem_ancestryFrom hw hup hmem with hx | hx | hx
    · cases hx
    · exact hw.ne_root he hx
    · exact hbelow hx.2
  rw [moveEntry_eq hw hs hup]
  by_cases hsame : up = dir
  · exact ⟨adf, if_pos hsame⟩
  · have hnamed : ¬ entryNamed adf up (adf.block e).entryName boot.intl none = true :=
      Bool.eq_false_iff.1 (hfree.resolve_left hsame)
    rw [if_neg hsame, if_neg hcycle, if_neg hnamed]
    exact ⟨_, rfl⟩

theorem renameEntry_succeeds (hw : WellFormed adf boot page) (he : Entry adf dir e) (hbad : badName newName = false)
    (hfree : entryNamed adf dir newName boot.intl (some e) = false) : ∃ img, renameEntry adf dir e newName = .ok img := by
  obtain ⟨before, after, hs⟩ := hw.stands he
  rw [renameEntry_eq hw hs, if_neg (Bool.eq_false_iff.1 hbad), if_neg (Bool.eq_false_iff.1 hfree)]
  exact ⟨_, rfl⟩

theorem length_of_sameName (h : sameName a b intl = true) : a.length = b.length := by
  rw [sameName, beq_iff_eq] at h
  have hlen := congrArg List.length h
  rwa [List.length_map, List.length_map] at hlen

/-- A taken name is refused, before anything is allocated. -/
theorem addFile_refused (hw : WellFormed adf boot page) (hbad : badName name = false) (hcomment : meta_.tooLong = false)
    (hnamed : entryNamed adf dir name boot.intl none = true) (now : Int) (bytes : Bytes) (protection : Option Nat) :
    addFile adf now dir name bytes protection meta_ = .error .nameExists := by
  rw [addFile, hw.volume, refuse_neg (Bool.eq_false_iff.1 hbad), refuse_neg (Bool.eq_false_iff.1 hcomment)]
  simp only [need_some, ok_bind, refuse_neg hw.bitmapPage_ne, refuse_pos hnamed, error_bind]

theorem makeDirectory_refused (hw : WellFormed adf boot page) (hbad : badName name = false) (hcomment : meta_.tooLong = false)
    (hnamed : entryNamed adf dir name boot.intl none = true) (now : Int) :
    makeDirectory adf now dir name meta_ = .error .nameExists := by
  rw [makeDirectory, hw.volume, refuse_neg (Bool.eq_false_iff.1 hbad), refuse_neg (Bool.eq_false_iff.1 hcomment)]
  simp only [need_some, ok_bind, refuse_neg hw.bitmapPage_ne, refuse_pos hnamed, error_bind]

/-- An entry of a well-formed volume is usable under the name it is stored with. -/
theorem usable_of_entry (hw : WellFormed adf boot page) (he : Entry adf dir e) (hname : (adf.block e).entryName = name)
    (hbad : badName name = false) : Usable adf boot dir e name where
  listed := by
    have hmem : (name, e) ∈ (walkDirectory adf dir).root.map fun x => (x.name, x.block) := by
      rw [hw.map_walkDirectory he.1]
      exact List.mem_map.2 ⟨e, (hw.mem_childList he.1).2 he.2, by rw [hname]⟩
    obtain ⟨x, hx, heq⟩ := List.mem_map.1 hmem
    obtain ⟨hxn, hxe⟩ := Prod.mk.inj heq
    exact ⟨x, hx, hxe, hxn⟩
  addRefused now again bytes protection meta_ hsame hcomment := by
    refine addFile_refused hw ?_ hcomment ?_ now bytes protection
    · rw [badName, length_of_sameName hsame]
      exact hbad
    · refine (hw.entryNamed_iff he.1).2 ⟨e, he.2, Option.some_ne_none _, ?_⟩
      rw [hname, sameName_symm]
      exact hsame
  mkdirRefused now again meta_ hsame hcomment := by
    refine makeDirectory_refused hw ?_ hcomment ?_ now
    · rw [badName, length_of_sameName hsame]
      exact hbad
    · refine (hw.entryNamed_iff he.1).2 ⟨e, he.2, Option.some_ne_none _, ?_⟩
      rw [hname, sameName_symm]
      exact hsame
  deletes := deleteEntry_succeeds hw he
  renames _ hbad hfree := renameEntry_succeeds hw he hbad hfree
  moves _ hup hbelow hfree := moveEntry_succeeds hw he hup hbelow (hname ▸ hfree)

-- ---------------------------------------------------------------------------
-- The entry just made
-- ---------------------------------------------------------------------------

theorem entry_of_slot (hw : WellFormed out boot page) (hd : Directory out p) (hs : s < hashTableSize) (hslot : out.slot p s = e)
    (hne : e ≠ 0) : Entry out p e := by
  obtain ⟨l, hl⟩ := hw.chain hd hs
  cases l with
  | nil => exact absurd (hslot.symm.trans hl) hne
  | cons x l =>
    obtain rfl : e = x := hslot.symm.trans hl.1
    exact ⟨hd, s, _, hs, hl, List.mem_cons_self ..⟩

/-- An entry that has just been linked in heads the slot of its name. -/
theorem usable_of_link (hw : WellFormed (linkIntoDirectory mid p e name boot.intl) boot page)
    (hd : Directory (linkIntoDirectory mid p e name boot.intl) p) (hne : e ≠ p) (hzero : e ≠ 0) (he : e < mid.blockCount)
    (hp : p < mid.blockCount) (hpkind : (mid.block p).i32 508 ≠ stFile) (hname : (mid.block e).entryName = name)
    (hbad : badName name = false) : Usable (linkIntoDirectory mid p e name boot.intl) boot p e name := by
  have hslot : (linkIntoDirectory mid p e name boot.intl).slot p (nameHash name boot.intl) = e := slot_linkIntoDirectory hne he hp
  refine usable_of_entry hw (entry_of_slot hw hd (nameHash_lt name boot.intl) hslot hzero) ?_ hbad
  rw [(alike_link name hne he hp hpkind boot.intl e).name, hname]

theorem sameName_refl (a : Units) (intl : Bool) : sameName a a intl = true := by
  rw [sameName, beq_self_eq_true]

/-- A name is refused as taken only where an entry is seen to have it. -/
theorem entryNamed_of_refused (h : addFile adf now dir name bytes protection meta_ = .error .nameExists) :
    ∃ intl, entryNamed adf dir name intl none = true := by
  rw [addFile] at h
  by_cases hbad : badName name = true
  · rw [refuse_pos hbad] at h
    cases h
  rw [refuse_neg hbad, ok_bind] at h
  by_cases hcomment : meta_.tooLong = true
  · rw [refuse_pos hcomment] at h
    cases h
  rw [refuse_neg hcomment, ok_bind] at h
  cases hboot : adf.readBoot with
  | none =>
    rw [hboot] at h
    cases h
  | some boot =>
    rw [hboot, need_some, ok_bind] at h
    by_cases hpage : adf.bitmapPage = none
    · rw [refuse_pos hpage] at h
      cases h
    rw [refuse_neg hpage, ok_bind] at h
    by_cases hnamed : entryNamed adf dir name boot.intl none = true
    · exact ⟨boot.intl, hnamed⟩
    · -- past the check only the disk can be full
      rw [refuse_neg hnamed, ok_bind] at h
      dsimp only at h
      cases hall : adf.allocate (1 + dataBlocks bytes.length boot.filesystem +
          extBlocks (dataBlocks bytes.length boot.filesystem)) with
      | none =>
        rw [hall] at h
        cases h
      | some r =>
        rw [hall, need_some, ok_bind] at h
        cases h

/-- A name that is not stored as it is goes on the disk a second time. -/
theorem plain_of_usable (hu : Usable out boot dir e name) : ∀ u ∈ name, Block.Plain u := by
  obtain ⟨intl, hnamed⟩ := entryNamed_of_refused (hu.addRefused 0 name [] none {} (sameName_refl name boot.intl) rfl)
  exact plain_of_entryNamed hnamed

section Results

variable {name : Units} {parent : Nat}

theorem AddedFile.usable_iff {protection : Option Nat} {meta_ : EntryMeta} (hw : WellFormed adf boot page)
    (hd : Directory adf parent) (h : AddedFile adf out now parent name bytes protection meta_ boot page header data exts) :
    Usable out boot parent ((out.block parent).be32 (slotOf name boot.intl)) name ↔ ∀ u ∈ name, Block.Plain u := by
  have hheader : header ∈ header :: data ++ exts := List.mem_cons_self ..
  have hfresh := h.fresh_mid
  have hc : (laidFile adf now parent name bytes protection meta_ boot.filesystem page header data exts).blockCount = adf.blockCount := by
    rw [Adf.blockCount, hfresh.density, Adf.blockCount]
  obtain ⟨hu, -, hplt, -⟩ := hw.directory_used hd
  have hne : header ≠ parent := by
    rintro rfl
    exact WellFormed.not_mem_taken hu h.taken hheader
  have helt : header < (laidFile adf now parent name bytes protection meta_ boot.filesystem page header data exts).blockCount :=
    hc.symm ▸ h.taken.lt header hheader
  have hout : out = linkIntoDirectory (laidFile adf now parent name bytes protection meta_ boot.filesystem page header data exts)
    parent header name boot.intl := h.out
  refine ⟨plain_of_usable, fun hplain => ?_⟩
  have hw' := h.wellFormed hw hd hplain
  have hd' := h.reach hw hd hd
  rw [hout] at hw' hd' ⊢
  rw [slot_linkIntoDirectory hne helt (hc ▸ hplt)]
  refine usable_of_link hw' hd' hne (h.taken.ne_zero header hheader).1 helt (hc ▸ hplt) ?_ (h.name_mid hplain) h.nameOk
  rw [hfresh.directory hw hd]
  exact hw.dir_kind hd

theorem MadeDirectory.usable_iff {meta_ : EntryMeta} (hw : WellFormed adf boot page) (hd : Directory adf parent)
    (h : MadeDirectory adf out now parent name meta_ boot page dir) :
    Usable out boot parent ((out.block parent).be32 (slotOf name boot.intl)) name ↔ ∀ u ∈ name, Block.Plain u := by
  have hself : dir ∈ [dir] := List.mem_singleton_self dir
  have hfresh := h.fresh_mid
  have hc : (laidDir adf now parent name meta_ page dir).blockCount = adf.blockCount := by
    rw [Adf.blockCount, hfresh.density, Adf.blockCount]
  obtain ⟨hu, -, hplt, -⟩ := hw.directory_used hd
  have hne : dir ≠ parent := by
    rintro rfl
    exact WellFormed.not_mem_taken hu h.taken hself
  have helt : dir < (laidDir adf now parent name meta_ page dir).blockCount := hc.symm ▸ h.taken.lt dir hself
  have hout : out = linkIntoDirectory (laidDir adf now parent name meta_ page dir) parent dir name boot.intl := h.out
  refine ⟨plain_of_usable, fun hplain => ?_⟩
  have hw' := h.wellFormed hw hd hplain
  have hd' := h.reach hw hd hd
  rw [hout] at hw' hd' ⊢
  rw [slot_linkIntoDirectory hne helt (hc ▸ hplt)]
  refine usable_of_link hw' hd' hne (h.taken.ne_zero dir hself).1 helt (hc ▸ hplt) ?_ (h.name_mid hplain) h.nameOk
  rw [hfresh.directory hw hd]
  exact hw.dir_kind hd

theorem renamed_usable_iff (hw : WellFormed adf boot page) (he : Entry adf dir e) (h : renameEntry adf dir e name = .ok out) :
    Usable out boot dir e name ↔ ∀ u ∈ name, Block.Plain u := by
  obtain ⟨before, after, hs⟩ := hw.stands he
  refine ⟨plain_of_usable, fun hplain => ?_⟩
  have hw' := renameEntry_wellFormed hw he h hplain
  rw [renameEntry_eq hw hs] at h
  by_cases hbad : badName name = true
  · rw [if_pos hbad] at h
    cases h
  · by_cases hnamed : entryNamed adf dir name boot.intl (some e) = true
    · rw [if_neg hbad, if_pos hnamed] at h
      cases h
    · rw [if_neg hbad, if_neg hnamed] at h
      obtain rfl := Except.ok.inj h
      have hbad := eq_false_of_ne_true hbad
      obtain ⟨f, hf⟩ : ∃ f : Block → Block, f = fun b => (b.fill 0 432 463).putName name := ⟨_, rfl⟩
      have hhead : Block.Rehead (adf.block e) (f (adf.block e)) dir name := by
        rw [hf, ← hw.parent he]
        exact rehead_putName (not_badName hbad).2 hplain
      have hd' := hw.relinked_reach hs hhead hs.directory
      have hne := hw.ne_dir he
      obtain ⟨-, -, hlt, -⟩ := hw.directory_used hs.directory
      have hcount : (checked adf boot dir e before f).blockCount = adf.blockCount := by
        rw [Adf.blockCount, density_checked, Adf.blockCount]
      have hzero : e ≠ 0 := by
        obtain ⟨slot, -, -, l, hl, hmem⟩ := he.placed
        exact (hl.ne_zero hmem).1
      rw [← hf] at hw' ⊢
      rw [link_checked hw hs hs.directory hne] at hw' hd' ⊢
      refine usable_of_link hw' hd' hne hzero (hcount.symm ▸ hw.lt he) (hcount.symm ▸ hlt) ?_ ?_ hbad
      · rw [kind_checked hw hs hhead]
        exact hw.dir_kind hs.directory
      · rw [name_checked hw hs, hhead.name]

end Results

/-- An entry that was added, made or renamed is listed, keeps its name from being taken
again and can be deleted, renamed and moved exactly when its name is of printable
Latin-1 characters. -/
theorem accepted_name_usable (hw : WellFormed adf boot page) :
    (∀ parent now name bytes protection meta_ out, Directory adf parent →
      addFile adf now parent name bytes protection meta_ = .ok out →
      (Usable out boot parent ((out.block parent).be32 (slotOf name boot.intl)) name ↔ ∀ u ∈ name, Block.Plain u)) ∧
    (∀ parent now name meta_ out, Directory adf parent → makeDirectory adf now parent name meta_ = .ok out →
      (Usable out boot parent ((out.block parent).be32 (slotOf name boot.intl)) name ↔ ∀ u ∈ name, Block.Plain u)) ∧
    ∀ dir e name out, Entry adf dir e → renameEntry adf dir e name = .ok out →
      (Usable out boot dir e name ↔ ∀ u ∈ name, Block.Plain u) := by
  refine ⟨?_, ?_, ?_⟩
  · intro parent now name bytes protection meta_ out hd hok
    obtain ⟨boot', page', header, data, exts, h⟩ := addFile_ok hok
    obtain rfl : boot' = boot := Option.some.inj (h.volume.symm.trans hw.volume)
    obtain rfl : page' = page := Option.some.inj ((Adf.bitmapPage_iff.2 h.bitmap).symm.trans hw.bitmap)
    exact h.usable_iff hw hd
  · intro parent now name meta_ out hd hok
    obtain ⟨boot', page', dir, h⟩ := makeDirectory_ok hok
    obtain rfl : boot' = boot := Option.some.inj (h.volume.symm.trans hw.volume)
    obtain rfl : page' = page := Option.some.inj ((Adf.bitmapPage_iff.2 h.bitmap).symm.trans hw.bitmap)
    exact h.usable_iff hw hd
  · intro dir e name out he hok
    exact renamed_usable_iff hw he hok

theorem accepted_name_usable_floppy : ∃ out, addFile blankFloppy 0 880 [0x61] [0x2a] none {} = .ok out ∧
    (Usable out ⟨.ffs, false, false⟩ 880 ((out.block 880).be32 (slotOf [0x61] false)) [0x61] ↔
      ∀ u ∈ ([0x61] : Units), Block.Plain u) := by
  obtain ⟨out, h⟩ := ok_of_isOk add_to_blankFloppy
  have hd : Directory blankFloppy 880 := .root
  exact ⟨out, h, (accepted_name_usable blankFloppy_wellFormed).1 880 0 [0x61] [0x2a] none {} out hd h⟩

theorem add_wide_name : (addFile blankFloppy 0 880 [0x3a9] [0x2a] none {}).isOk = true := by
  decide +kernel

/-- A name outside Latin-1 goes on a blank disk, and is not seen to be taken. -/
theorem wide_name_not_usable : ∃ out, addFile blankFloppy 0 880 [0x3a9] [0x2a] none {} = .ok out ∧
    ¬ Usable out ⟨.ffs, false, false⟩ 880 ((out.block 880).be32 (slotOf [0x3a9] false)) [0x3a9] := by
  obtain ⟨out, h⟩ := ok_of_isOk add_wide_name
  refine ⟨out, h, fun hu => ?_⟩
  have hplain := plain_of_usable hu 0x3a9 (List.mem_singleton_self _)
  exact absurd hplain.2.1 (by decide)

end WebAdf.Adffs
