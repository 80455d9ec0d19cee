import WebAdf.Adffs.ChainLaws

/-!
# A volume with one entry linked in

An entry that fits is made a part of the tree by `linkIntoDirectory`: the volume is well
formed again, whatever the image it was linked in went through before.
-/

namespace WebAdf.Adffs

open Lib

variable {adf mid out : Adf} {boot : BootInfo} {page : Nat}

-- ---------------------------------------------------------------------------
-- What an entry's blocks are not
-- ---------------------------------------------------------------------------

namespace WellFormed

/-- A file's body is neither header nor bitmap, and no other entry's. -/
theorem body_apart (hw : WellFormed adf boot page) (hx : Entry adf d x) (hn : n ∈ owned adf x) (hne : n ≠ x) :
    n ≠ page ∧ adf.isFreeAt page n = false ∧ ¬ Directory adf n ∧ ∀ d' y, Entry adf d' y → n ∈ owned adf y → y = x := by
  obtain ⟨hr, hu⟩ := hw.held hx hn
  obtain ⟨hroot, hpage, -, -⟩ := Adf.isReserved_iff.1 hr
  have hsole : ∀ d' y, Entry adf d' y → n ∈ owned adf y → y = x := fun _ _ hy hny => hw.owner hy hx hny hn
  refine ⟨hpage, hu, fun hd => ?_, hsole⟩
  rcases directory_cases hd with rfl | ⟨up, hup, -⟩
  · exact hroot rfl
  · exact hne (hsole up n hup (mem_owned_self adf n))

theorem dir_kind (hw : WellFormed adf boot page) (hd : Directory adf d) : (adf.block d).i32 508 ≠ stFile := by
  rcases directory_cases hd with rfl | ⟨up, -, hdir⟩
  · rw [hw.rootSecondary]
    decide
  · rw [hdir]
    decide

end WellFormed

-- ---------------------------------------------------------------------------
-- The changes of a link
-- ---------------------------------------------------------------------------

/-- A kept entry is kept through one more change that leaves it alone. -/
theorem Kept.after (h : Kept adf mid page x) (halike : (mid.block x).Alike (out.block x))
    (hrest : ∀ n ∈ owned adf x, n ≠ x → out.block n = mid.block n)
    (hbits : ∀ n ∈ owned adf x, out.isFreeAt page n = mid.isFreeAt page n) : Kept adf out page x where
  alike := h.alike.trans halike
  rest n hn hne := (hrest n hn hne).trans (h.rest n hn hne)
  used n hn := (hbits n hn).trans (h.used n hn)

/-- What a volume is besides its tree stays where a change leaves the boot block, the root
block but for its slots, and the bitmap alone. -/
theorem Base.after (h : Base mid boot page) (hd : out.density = mid.density) (hboot : out.block 0 = mid.block 0)
    (hroot : (mid.block mid.rootBlock).Alike (out.block mid.rootBlock))
    (hvalid : (out.block mid.rootBlock).be32 312 = (mid.block mid.rootBlock).be32 312)
    (hpage : (out.block mid.rootBlock).be32 316 = (mid.block mid.rootBlock).be32 316)
    (hbits : ∀ n, out.isFreeAt page n = mid.isFreeAt page n) : Base out boot page := by
  have hr : out.rootBlock = mid.rootBlock := by rw [Adf.rootBlock, hd, Adf.rootBlock]
  have hc : out.blockCount = mid.blockCount := by rw [Adf.blockCount, hd, Adf.blockCount]
  have ht := h.bitmap
  refine ⟨(readBoot_same hd hboot).trans h.volume, ?_, ?_, ?_, ?_, ?_⟩
  · rw [hr, hroot.type, h.rootType]
  · rw [hr, hroot.kind, h.rootSecondary]
  · rw [hr]
    exact hroot.checksum h.rootChecksum
  · refine ⟨?_, ?_, ht.ge, hc ▸ ht.lt, hr ▸ ht.ne, ?_⟩
    · rw [hr, Block.i32_congr hvalid, ht.valid]
    · rw [hr, hpage, ht.pointer]
    · have hused := hbits page
      rw [Adf.isFreeAt, Adf.raw_of_lt (hc ▸ ht.lt), ht.isFreeAt, ht.used] at hused
      exact hused
  · rw [hr, hbits, h.rootUsed]

/-- Bits of the bitmap are read off its page. -/
theorem isFreeAt_same (hd : out.density = mid.density) (hp : out.block page = mid.block page) (n : Nat) :
    out.isFreeAt page n = mid.isFreeAt page n := by
  rw [Adf.isFreeAt, Adf.isFreeAt, Adf.raw, Adf.raw, Adf.blockCount, hd, hp, Adf.blockCount]

/-- An entry still fits when only its link has changed. -/
theorem Fits.link (h : Fits adf mid boot page p slot e) (hd : out.density = mid.density)
    (halike : (mid.block e).Alike (out.block e)) (howned : owned out e = owned mid e)
    (hbits : ∀ n, out.isFreeAt page n = mid.isFreeAt page n) : Fits adf out boot page p slot e where
  sound := {
    entry := halike.isEntry h.sound.entry
    parent := halike.parent.trans h.sound.parent
    bucket := (congrArg (nameHash · boot.intl) halike.name).trans h.sound.bucket
    held := fun n hn => by
      rw [howned] at hn
      have hreserved : out.isReserved page n = mid.isReserved page n := by
        rw [Adf.isReserved, Adf.isReserved, Adf.rootBlock, Adf.blockCount, hd, Adf.rootBlock, Adf.blockCount]
      exact ⟨hreserved.trans (h.sound.held n hn).1, (hbits n).trans (h.sound.held n hn).2⟩
    once := howned.symm ▸ h.sound.once }
  name x hx hxe := halike.name.symm ▸ h.name x hx hxe
  apart d x hx hxe n hn := howned.symm ▸ h.apart d x hx hxe n hn

section Link

variable {name : Units} {p e : Nat}

theorem alike_link_dir (hne : e ≠ p) (hp : p < mid.blockCount) (hdir : (mid.block p).i32 508 ≠ stFile) (intl : Bool) :
    (mid.block p).Alike ((linkIntoDirectory mid p e name intl).block p) := by
  obtain ⟨hlo, hhi⟩ := slotOf_bounds name intl
  rw [block_linkIntoDirectory_dir hne hp]
  exact Block.alike_reword (.inr ⟨hlo, hhi, hdir⟩) e

theorem alike_link_entry (hne : e ≠ p) (he : e < mid.blockCount) (hp : p < mid.blockCount) (intl : Bool) :
    (mid.block e).Alike ((linkIntoDirectory mid p e name intl).block e) := by
  rw [block_linkIntoDirectory_entry hne he hp]
  exact Block.alike_reword (.inl rfl) _

/-- The tree with the entry at the head of its bucket. -/
def Shape.link (S : Shape) (p h e : Nat) : Shape where
  dirs := S.dirs
  chain d s := if d = p ∧ s = h then e :: S.chain d s else S.chain d s

theorem Shape.at_link {S : Shape} (h : (S.link p slot e).At d s x) : x = e ∧ d = p ∧ s = slot ∨ S.At d s x := by
  obtain ⟨hd, hs, hx⟩ := h
  change x ∈ (if d = p ∧ s = slot then e :: S.chain d s else S.chain d s) at hx
  by_cases hhead : d = p ∧ s = slot
  · rw [if_pos hhead] at hx
    rcases List.mem_cons.1 hx with rfl | hx
    · exact .inl ⟨rfl, hhead⟩
    · exact .inr ⟨hd, hs, hx⟩
  · rw [if_neg hhead] at hx
    exact .inr ⟨hd, hs, hx⟩

theorem Shape.at_link_old {S : Shape} (h : S.At d s x) : (S.link p slot e).At d s x := by
  obtain ⟨hd, hs, hx⟩ := h
  refine ⟨hd, hs, ?_⟩
  change x ∈ if d = p ∧ s = slot then e :: S.chain d s else S.chain d s
  split
  · exact List.mem_cons_of_mem _ hx
  · exact hx

theorem Shape.at_link_new {S : Shape} (hd : S.dirs p) (hs : slot < hashTableSize) : (S.link p slot e).At p slot e := by
  refine ⟨hd, hs, ?_⟩
  change e ∈ if p = p ∧ slot = slot then e :: S.chain p slot else S.chain p slot
  rw [if_pos ⟨rfl, rfl⟩]
  exact List.mem_cons_self ..

/-- A link changes no header but by its own words. -/
theorem alike_link (name : Units) (hne : e ≠ p) (he : e < mid.blockCount) (hp : p < mid.blockCount) (hpkind : (mid.block p).i32 508 ≠ stFile)
    (intl : Bool) (x : Nat) : (mid.block x).Alike ((linkIntoDirectory mid p e name intl).block x) := by
  by_cases hxp : x = p
  · rw [hxp]
    exact alike_link_dir hne hp hpkind intl
  · by_cases hxe : x = e
    · rw [hxe]
      exact alike_link_entry hne he hp intl
    · rw [block_linkIntoDirectory_other hxp hxe]
      exact .refl _

theorem Shape.Holds.link {S : Shape} (name : Units) (hS : S.Holds mid) (hSe : mid.isDir e → S.dirs e) (hloose : ∀ d s, ¬ S.At d s e)
    (hne : e ≠ p) (hzero : e ≠ 0) (he : e < mid.blockCount) (hp : p < mid.blockCount) (hpkind : (mid.block p).i32 508 ≠ stFile)
    (intl : Bool) : (S.link p (nameHash name intl) e).Holds (linkIntoDirectory mid p e name intl) where
  root := hS.root
  chain hd hs := (hS.chain hd hs).link (fun hmem => hloose _ _ ⟨hd, hs, hmem⟩) hne hzero he hp hs
  closed hx hdir := by
    have hdir' : mid.isDir _ := (alike_link name hne he hp hpkind intl _).kind.symm.trans hdir
    rcases Shape.at_link hx with ⟨rfl, -, -⟩ | hx
    · exact hSe hdir'
    · exact hS.closed hx hdir'

/-- An entry that fits, linked into a directory of the volume. -/
theorem WellFormed.linked (hw : WellFormed adf boot page) (hp : Directory adf p) (hd : mid.density = adf.density)
    (hbase : Base mid boot page) {S : Shape} (hS : S.Holds mid) (hSp : S.dirs p) (hSe : mid.isDir e → S.dirs e)
    (hloose : ∀ d s, ¬ S.At d s e) (hold : ∀ d s x, S.At d s x → Placed adf d s x ∧ Kept adf mid page x)
    (hpkind : (mid.block p).i32 508 ≠ stFile)
    (hfits : Fits adf mid boot page p (nameHash name boot.intl) e) (hne : e ≠ p) :
    WellFormed (linkIntoDirectory mid p e name boot.intl) boot page := by
  have hc : mid.blockCount = adf.blockCount := by rw [Adf.blockCount, hd, Adf.blockCount]
  have hr : mid.rootBlock = adf.rootBlock := by rw [Adf.rootBlock, hd, Adf.rootBlock]
  obtain ⟨-, hppage, hplt, hpge⟩ := hw.directory_used hp
  rw [← hc] at hplt
  obtain ⟨heroot, hepage, hege, helt⟩ := Adf.isReserved_iff.1 (hfits.sound.held e (WellFormed.mem_owned_self mid e)).1
  have hpage0 := hw.trusted.ge
  rw [bitmapFirstBlock] at hpge hege hpage0
  obtain ⟨out, hout⟩ : ∃ out, out = linkIntoDirectory mid p e name boot.intl := ⟨_, rfl⟩
  have hod : out.density = mid.density := by rw [hout, density_linkIntoDirectory]
  have hother {n : Nat} (hnp : n ≠ p) (hn : n ≠ e) : out.block n = mid.block n := by
    rw [hout, block_linkIntoDirectory_other hnp hn]
  have halike (x : Nat) : (mid.block x).Alike (out.block x) := hout ▸ alike_link name hne helt hplt hpkind boot.intl x
  have hbits (n : Nat) : out.isFreeAt page n = mid.isFreeAt page n :=
    isFreeAt_same hod (hother hppage.symm (Ne.symm hepage)) n
  -- the entry's own blocks are not the directory's
  have hnotp : p ∉ owned mid e := fun hmem => by
    rcases WellFormed.directory_cases hp with hroot | ⟨up, hup, -⟩
    · exact (Adf.isReserved_iff.1 (hfits.sound.held p hmem).1).1 (hroot.trans hr.symm)
    · exact hfits.apart up p hup hne.symm p (WellFormed.mem_owned_self adf p) hmem
  have howned : owned out e = owned mid e := (halike e).owned hod fun n hn hne' =>
    hother (fun heq => hnotp (heq ▸ hn)) hne'
  have hkeep (d s x : Nat) (hx : S.At d s x) (hxe : x ≠ e) : Placed adf d s x ∧ Kept adf out page x := by
    obtain ⟨hpl, hk⟩ := hold d s x hx
    refine ⟨hpl, hk.after (halike x) (fun n hn hnx => ?_) fun n _ => hbits n⟩
    refine hother ?_ ?_
    · rintro rfl
      exact (hw.body_apart hpl.entry hn hnx).2.2.1 hp
    · rintro rfl
      exact hfits.apart d x hpl.entry hxe _ hn (WellFormed.mem_owned_self mid _)
  rw [← hout]
  have hbase' : Base out boot page := by
    have hword {off : Nat} (hoff : 312 ≤ off) :
        (out.block mid.rootBlock).be32 off = (mid.block mid.rootBlock).be32 off := by
      obtain ⟨-, hhi⟩ := slotOf_bounds name boot.intl
      by_cases hroot : mid.rootBlock = p
      · rw [hroot, hout, block_linkIntoDirectory_dir hne hplt, Block.be32_reword_other (by omega) (by omega)]
      · rw [hother hroot (Ne.symm heroot)]
    exact hbase.after hod (hother (by omega) (by omega)) (halike _) (hword (by omega)) (hword (by omega)) hbits
  have hholds : (S.link p (nameHash name boot.intl) e).Holds out := by
    rw [hout]
    exact hS.link name hSe hloose hne (by omega) helt hplt hpkind boot.intl
  refine hw.rebuild (hod.trans hd) hbase' hholds (e := e) (fun d s x hx hxe => ?_) fun d s hx => ?_
  · rcases Shape.at_link hx with ⟨rfl, -, -⟩ | hx
    · exact absurd rfl hxe
    · exact hkeep d s x hx hxe
  · rcases Shape.at_link hx with ⟨-, rfl, rfl⟩ | hx
    · exact hfits.link hod (halike e) howned hbits
    · exact absurd hx (hloose d s)

end Link

end WebAdf.Adffs
