import Mathlib
import WebAdf.Adffs.Linked
import WebAdf.Adffs.ReadBack

/-!
# Adding keeps a volume well formed

A new file or directory is laid out in blocks the bitmap called free, so no old entry
sees it before it is linked.
-/

namespace WebAdf.Adffs

open Lib

variable {adf mid out : Adf} {boot : BootInfo} {page : Nat}

-- ---------------------------------------------------------------------------
-- The tree as it is
-- ---------------------------------------------------------------------------

/-- A volume's own tree. -/
def treeShape (adf : Adf) : Shape where
  dirs := Directory adf
  chain d s := chainList adf adf.blockCount (adf.slot d s)

theorem WellFormed.at_treeShape (hw : WellFormed adf boot page) : (treeShape adf).At d s x ↔ Placed adf d s x := by
  constructor
  · rintro ⟨hd, hs, hx⟩
    exact ⟨hd, hs, _, hw.chain_chainList hd (List.mem_range.2 hs), hx⟩
  · rintro ⟨hd, hs, l, hl, hx⟩
    refine ⟨hd, hs, ?_⟩
    change x ∈ chainList adf adf.blockCount (adf.slot d s)
    rwa [hl.chainList_eq hl.length_le]

theorem WellFormed.holds_treeShape (hw : WellFormed adf boot page) : (treeShape adf).Holds adf where
  root := .root
  chain hd hs := hw.chain_chainList hd (List.mem_range.2 hs)
  closed hx hdir := (hw.at_treeShape.1 hx).entry.directory hdir

/-- A shape stays where its directories' slots and its entries' links do. -/
theorem Shape.Holds.same {S : Shape} (h : S.Holds mid) (hd : out.density = mid.density)
    (hslot : ∀ d s, S.dirs d → s < hashTableSize → out.slot d s = mid.slot d s)
    (hlink : ∀ d s x, S.At d s x → (out.block x).be32 496 = (mid.block x).be32 496 ∧
      (out.block x).be32 508 = (mid.block x).be32 508) : S.Holds out where
  root := by
    rw [Adf.rootBlock, hd]
    exact h.root
  chain hdir hs := by
    rw [hslot _ _ hdir hs]
    refine (h.chain hdir hs).same ?_ fun x hx => (hlink _ _ x ⟨hdir, hs, hx⟩).1
    rw [Adf.blockCount, hd, Adf.blockCount]
  closed hx hdir := h.closed hx ((Block.i32_congr (hlink _ _ _ hx).2).symm.trans hdir)

-- ---------------------------------------------------------------------------
-- Fresh blocks
-- ---------------------------------------------------------------------------

/-- An image that differs in blocks that were free, and in the bitmap that now has them. -/
structure Fresh (adf mid : Adf) (page : Nat) (blocks : List Nat) : Prop where
  taken : Adf.Taken adf page blocks
  density : mid.density = adf.density
  other : n ∉ blocks → n ≠ page → mid.block n = adf.block n
  bits : bitmapFirstBlock ≤ n → mid.isFreeAt page n = if n ∈ blocks then false else adf.isFreeAt page n

namespace Fresh

variable {blocks : List Nat} {name : Units} {p e : Nat}

theorem used (h : Fresh adf mid page blocks) (hge : bitmapFirstBlock ≤ n) (hu : adf.isFreeAt page n = false) :
    mid.isFreeAt page n = false := by
  rw [h.bits hge]
  split
  · rfl
  · exact hu

theorem block_used (h : Fresh adf mid page blocks) (hu : adf.isFreeAt page n = false) (hp : n ≠ page) :
    mid.block n = adf.block n := h.other (WellFormed.not_mem_taken hu h.taken) hp

/-- A directory of the volume is untouched. -/
theorem directory (h : Fresh adf mid page blocks) (hw : WellFormed adf boot page) (hd : Directory adf d) :
    mid.block d = adf.block d := by
  obtain ⟨hu, hp, -, -⟩ := hw.directory_used hd
  exact h.block_used hu hp

theorem kept (h : Fresh adf mid page blocks) (hw : WellFormed adf boot page) (hx : Entry adf d x) : Kept adf mid page x := by
  have hsame {n : Nat} (hn : n ∈ owned adf x) : mid.block n = adf.block n := by
    obtain ⟨hr, hu⟩ := hw.held hx hn
    exact h.block_used hu (Adf.isReserved_iff.1 hr).2.1
  refine ⟨?_, fun n hn _ => hsame hn, fun n hn => ?_⟩
  · rw [hsame (WellFormed.mem_owned_self adf x)]
    exact .refl _
  · obtain ⟨hr, hu⟩ := hw.held hx hn
    exact h.used (Adf.isReserved_iff.1 hr).2.2.1 hu

theorem base (h : Fresh adf mid page blocks) (hw : WellFormed adf boot page) : Base mid boot page := by
  have hr : mid.rootBlock = adf.rootBlock := by rw [Adf.rootBlock, h.density, Adf.rootBlock]
  have hc : mid.blockCount = adf.blockCount := by rw [Adf.blockCount, h.density, Adf.blockCount]
  have ht := hw.trusted
  have hroot : mid.block adf.rootBlock = adf.block adf.rootBlock := h.block_used hw.rootUsed ht.ne.symm
  have hzero : mid.block 0 = adf.block 0 := by
    have hge := ht.ge
    rw [bitmapFirstBlock] at hge
    exact h.other (fun hmem => (h.taken.ne_zero 0 hmem).1 rfl) (by omega)
  have hpage : mid.isFreeAt page page = false := h.used ht.ge (ht.isFreeAt page ▸ ht.used)
  rw [Adf.isFreeAt, Adf.raw_of_lt (hc ▸ ht.lt)] at hpage
  refine ⟨(readBoot_same h.density hzero).trans hw.volume, ?_, ?_, ?_, ht.same h.density hroot hpage, ?_⟩
  · rw [hr, hroot, hw.rootType]
  · rw [hr, hroot, hw.rootSecondary]
  · rw [hr, hroot, hw.rootChecksum]
  · rw [hr]
    exact h.used adf.rootBlock_ge hw.rootUsed

theorem holds (h : Fresh adf mid page blocks) (hw : WellFormed adf boot page) : (treeShape adf).Holds mid := by
  refine hw.holds_treeShape.same h.density (fun d s hd _ => ?_) fun d s x hx => ?_
  · rw [Adf.slot, Adf.slot, h.directory hw hd]
  · have hk := h.kept hw (hw.at_treeShape.1 hx).entry
    have hblock : mid.block x = adf.block x := by
      obtain ⟨hr, hu⟩ := hw.entry_held (hw.at_treeShape.1 hx).entry
      exact h.block_used hu (Adf.isReserved_iff.1 hr).2.1
    rw [hblock]
    exact ⟨rfl, rfl⟩

/-- What was reached is reached when a fresh entry has been linked in. -/
theorem reach (h : Fresh adf mid page blocks) (hw : WellFormed adf boot page) (hp : Directory adf p) (he : e ∈ blocks) {S : Shape}
    (hS : S.Holds mid) (hSe : mid.isDir e → S.dirs e) (hloose : ∀ d s, ¬ S.At d s e)
    (hsub : ∀ d s x, Placed adf d s x → S.At d s x) (hd : Directory adf d) :
    Directory (linkIntoDirectory mid p e name boot.intl) d := by
  have hc : mid.blockCount = adf.blockCount := by rw [Adf.blockCount, h.density, Adf.blockCount]
  obtain ⟨hu, -, hplt, -⟩ := hw.directory_used hp
  have hne : e ≠ p := by
    rintro rfl
    exact WellFormed.not_mem_taken hu h.taken he
  have helt : e < mid.blockCount := hc ▸ h.taken.lt e he
  have hpkind : (mid.block p).i32 508 ≠ stFile := by
    rw [h.directory hw hp]
    exact hw.dir_kind hp
  have hlink := hS.link name hSe hloose hne (h.taken.ne_zero e he).1 helt (hc ▸ hplt) hpkind boot.intl
  refine hd.reach hlink h.density fun d x hdx hc' hxdir => ?_
  obtain ⟨s, hs⟩ := (show Entry adf d x from ⟨hdx, hc'⟩).placed
  refine ⟨s, Shape.at_link_old (hsub d s x hs), ?_⟩
  have halike := (h.kept hw hs.entry).alike.trans (alike_link name hne helt (hc ▸ hplt) hpkind boot.intl x)
  exact halike.kind.trans hxdir

end Fresh

-- ---------------------------------------------------------------------------
-- A new file
-- ---------------------------------------------------------------------------

/-- The blocks a written file has when it is read back. -/
theorem Written.collect {fin : Adf} {parent size protection : Nat} (h : Written adf header data exts bytes fs) (mid : Adf)
    (hd : fin.density = adf.density) (hmid : mid.density = adf.density)
    (hh : Block.FileHeader (fin.block header) parent size (data.take hashTableSize) (exts.headD 0) protection)
    (hexts : ∀ n ∈ exts, fin.block n = (writeExtensionBlocks mid header exts (data.drop hashTableSize)).block n) :
    collectFileBlocks fin header [] = (⟨data, exts⟩, []) := by
  have hc : fin.blockCount = adf.blockCount := by rw [Adf.blockCount, Adf.blockCount, hd]
  exact collectFileBlocks_laid (h.laid hd hmid hh hexts) h.chain_nodup
    (hc ▸ length_le_of_lt h.data_nodup fun n hn => (h.data_range n hn).2)
    (hc ▸ length_le_of_lt (List.nodup_cons.1 h.chain_nodup).2 fun n hn => (h.exts_range n hn).2)

theorem Block.FileHeader.isEntry {b : Block} {up len ext bits : Nat} (h : Block.FileHeader b up len first72 ext bits) :
    b.isEntry = true := by
  rw [Block.isEntry, h.type, h.checksum, h.secondary]
  rfl

/-- What is taken from free blocks is nobody's. -/
theorem WellFormed.taken_apart (hw : WellFormed adf boot page) (ht : Adf.Taken adf page blocks) (hx : Entry adf d x)
    (hn : n ∈ owned adf x) : n ∉ blocks := WellFormed.not_mem_taken (hw.held hx hn).2 ht

theorem WellFormed.name_free (hw : WellFormed adf boot page) (hd : Directory adf p)
    (h : entryNamed adf p name boot.intl exclude = false) (hx : Entry adf p x) (hne : some x ≠ exclude) :
    sameName (adf.block x).entryName name boot.intl = false := by
  rw [← Bool.not_eq_true]
  intro hsame
  have hnamed := (hw.entryNamed_iff hd).2 ⟨x, hx.2, hne, hsame⟩
  rw [h] at hnamed
  cases hnamed

theorem not_badName (h : badName name = false) : 0 < name.length ∧ name.length ≤ nameMax := by
  simp only [badName, Bool.or_eq_false_iff, beq_eq_false_iff_ne, decide_eq_false_iff_not] at h
  omega

section AddFile

variable {protection : Option Nat} {meta_ : EntryMeta} {name : Units} {data exts : List Nat} {header : Nat}

/-- The image the new file is linked in. -/
def laidFile (adf : Adf) (now : Int) (parent : Nat) (name : Units) (bytes : Bytes) (protection : Option Nat)
    (meta_ : EntryMeta) (fs : Filesystem) (page header : Nat) (data exts : List Nat) : Adf :=
  layFile (adf.setBits page (header :: data ++ exts) false) header data exts bytes fs fun b =>
    b.writeFileHeader now header parent name bytes.length (data.take hashTableSize) (exts.headD 0) protection meta_

theorem AddedFile.fresh_mid (h : AddedFile adf out now parent name bytes protection meta_ boot page header data exts) :
    Fresh adf (laidFile adf now parent name bytes protection meta_ boot.filesystem page header data exts) page
      (header :: data ++ exts) where
  taken := h.taken
  density := by rw [laidFile, density_layFile, Adf.density_setBits]
  other hn hp := by rw [laidFile, block_layFile_other hn, Adf.block_setBits hp]
  bits hge := by
    rw [← h.bitmap.isFreeAt_setBits h.taken.ge h.taken.not_page hge]
    refine isFreeAt_same ?_ ?_ _
    · rw [laidFile, density_layFile]
    · rw [laidFile, block_layFile_other h.taken.not_page]

theorem AddedFile.fileHeader (h : AddedFile adf out now parent name bytes protection meta_ boot page header data exts) :
    Block.FileHeader ((laidFile adf now parent name bytes protection meta_ boot.filesystem page header data exts).block header)
      parent bytes.length (data.take hashTableSize) (exts.headD 0) (protection.getD 0) := by
  rw [laidFile, block_layFile_header h.written (Adf.density_setBits ..).symm]
  exact Block.fileHeader_write (List.length_take_le ..)

theorem AddedFile.owned_mid (h : AddedFile adf out now parent name bytes protection meta_ boot page header data exts) :
    owned (laidFile adf now parent name bytes protection meta_ boot.filesystem page header data exts) header =
      header :: data ++ exts := by
  have hcollect := h.written.collect ((writeDataBlocks (adf.setBits page (header :: data ++ exts) false) data bytes header
    boot.filesystem).modify header fun b => b.writeFileHeader now header parent name bytes.length (data.take hashTableSize)
      (exts.headD 0) protection meta_) h.fresh_mid.density
    (by rw [Adf.density_modify, writeDataBlocks, density_writeDataFrom, Adf.density_setBits]) h.fileHeader fun n _ => rfl
  rw [owned, if_pos h.fileHeader.secondary, fileBlocks, hcollect]

theorem AddedFile.name_mid (h : AddedFile adf out now parent name bytes protection meta_ boot page header data exts)
    (hplain : ∀ u ∈ name, Block.Plain u) : ((laidFile adf now parent name bytes protection meta_ boot.filesystem page header data
      exts).block header).entryName = name := by
  rw [laidFile, block_layFile_header h.written (Adf.density_setBits ..).symm]
  exact Block.name_writeFileHeader (not_badName h.nameOk).2 hplain

theorem AddedFile.fits (hw : WellFormed adf boot page) (hd : Directory adf parent)
    (h : AddedFile adf out now parent name bytes protection meta_ boot page header data exts)
    (hplain : ∀ u ∈ name, Block.Plain u) :
    Fits adf (laidFile adf now parent name bytes protection meta_ boot.filesystem page header data exts) boot page parent
      (nameHash name boot.intl) header := by
  have hname := h.name_mid hplain
  refine ⟨⟨h.fileHeader.isEntry, ?_, by rw [hname], fun n hn => ?_, ?_⟩, fun x hx _ => ?_, fun d x hx _ n hn => ?_⟩
  · rw [h.fileHeader.parent]
    obtain ⟨-, -, hlt, -⟩ := hw.directory_used hd
    exact Nat.mod_eq_of_lt (Nat.lt_trans hlt adf.blockCount_lt)
  · rw [h.owned_mid] at hn
    refine ⟨?_, ?_⟩
    · rw [Adf.isReserved, Adf.rootBlock, Adf.blockCount, h.fresh_mid.density]
      exact h.taken.kept n hn
    · rw [h.fresh_mid.bits (h.taken.ge n hn), if_pos hn]
  · rw [h.owned_mid]
    exact h.taken.nodup
  · rw [hname]
    exact hw.name_free hd h.fresh hx (Option.some_ne_none _)
  · rw [h.owned_mid]
    exact hw.taken_apart h.taken hx hn

theorem AddedFile.kind_mid (h : AddedFile adf out now parent name bytes protection meta_ boot page header data exts) :
    ¬ (laidFile adf now parent name bytes protection meta_ boot.filesystem page header data exts).isDir header := fun hdir => by
  have hfile : (laidFile adf now parent name bytes protection meta_ boot.filesystem page header data exts).isFile header :=
    h.fileHeader.secondary
  rw [Adf.isFile, hdir] at hfile
  cases hfile

theorem AddedFile.reach (hw : WellFormed adf boot page) (hd : Directory adf parent)
    (h : AddedFile adf out now parent name bytes protection meta_ boot page header data exts) (hdir : Directory adf d) :
    Directory out d := by
  have hheader : header ∈ header :: data ++ exts := List.mem_cons_self ..
  have hout : out = linkIntoDirectory (laidFile adf now parent name bytes protection meta_ boot.filesystem page header data exts)
    parent header name boot.intl := h.out
  rw [hout]
  refine h.fresh_mid.reach hw hd hheader (h.fresh_mid.holds hw) (fun hdir => absurd hdir h.kind_mid) (fun d s hx => ?_)
    (fun d s x hx => hw.at_treeShape.2 hx) hdir
  exact hw.taken_apart h.taken (hw.at_treeShape.1 hx).entry (WellFormed.mem_owned_self adf header) hheader

/-- Adding a file with a name that is stored as it is. -/
theorem AddedFile.wellFormed (hw : WellFormed adf boot page) (hd : Directory adf parent)
    (h : AddedFile adf out now parent name bytes protection meta_ boot page header data exts)
    (hplain : ∀ u ∈ name, Block.Plain u) : WellFormed out boot page := by
  have hfresh := h.fresh_mid
  have hheader : header ∈ header :: data ++ exts := List.mem_cons_self ..
  have hne : header ≠ parent := by
    rintro rfl
    exact WellFormed.not_mem_taken (hw.directory_used hd).1 h.taken hheader
  have hout : out = linkIntoDirectory (laidFile adf now parent name bytes protection meta_ boot.filesystem page header data exts)
    parent header name boot.intl := h.out
  rw [hout]
  refine hw.linked hd hfresh.density (hfresh.base hw) (hfresh.holds hw) hd (fun hdir => absurd hdir h.kind_mid) (fun d s hx => ?_)
    (fun d s x hx => ?_) ?_ (h.fits hw hd hplain) hne
  · exact hw.taken_apart h.taken (hw.at_treeShape.1 hx).entry (WellFormed.mem_owned_self adf header) hheader
  · have hp := hw.at_treeShape.1 hx
    exact ⟨hp, hfresh.kept hw hp.entry⟩
  · rw [hfresh.directory hw hd]
    exact hw.dir_kind hd

end AddFile

-- ---------------------------------------------------------------------------
-- A new directory
-- ---------------------------------------------------------------------------

/-- A directory header with nothing in it. -/
structure Block.DirHeader (b : Block) (up : Nat) : Prop where
  type : b.be32 0 = tHeader
  secondary : b.i32 508 = stUserdir
  checksum : b.checksumOk checksumWord = true
  parent : b.be32 500 = up % 2 ^ 32
  empty : ∀ s, s < hashTableSize → b.be32 (24 + s * 4) = 0

theorem Block.dirHeader_write (b : Block) (self up : Nat) (name : Units) (when_ : Int) (comment : Option Units) :
    Block.DirHeader (b.writeDirectoryHeader self up name when_ comment) up where
  type := by
    simp (disch := omega) only [writeDirectoryHeader, be32_recheck, be32_putBe32_other, be32_putName, be32_putComment,
      be32_putAmigaDate, be32_putBe32]
    rfl
  secondary := by
    have hword : (b.writeDirectoryHeader self up name when_ comment).be32 508 = 2 := by
      simp (disch := omega) only [writeDirectoryHeader, be32_recheck, be32_putBe32]
      rfl
    rw [i32, hword]
    rfl
  checksum := checksumOk_recheck _
  parent := by
    simp (disch := omega) only [writeDirectoryHeader, be32_recheck, be32_putBe32_other, be32_putBe32]
  empty s hs := by
    rw [hashTableSize] at hs
    simp (disch := omega) only [writeDirectoryHeader, be32_recheck, be32_putBe32_other, be32_putName, be32_putComment,
      be32_putAmigaDate]
    exact be32_fill_zero (by rw [blockBytes]; omega)

theorem Block.name_writeDirectoryHeader {b : Block} (hlen : name.length ≤ nameMax) (hplain : ∀ u ∈ name, Block.Plain u) :
    (b.writeDirectoryHeader self up name when_ comment).entryName = name := by
  rw [nameMax] at hlen
  refine bcplString_put (by decide) (by decide) hlen hplain ?_ fun i hi => ?_
  · simp (disch := omega) only [writeDirectoryHeader, recheck_other, putBe32_other]
    exact putName_length_byte hlen
  · simp (disch := omega) only [writeDirectoryHeader, recheck_other, putBe32_other]
    exact putName_byte hlen hi

/-- A successful `makeDirectory`: the block was free. -/
structure MadeDirectory (adf out : Adf) (now : Int) (parent : Nat) (name : Units) (meta_ : EntryMeta) (boot : BootInfo)
    (page dir : Nat) : Prop where
  nameOk : badName name = false
  commentOk : meta_.tooLong = false
  volume : adf.readBoot = some boot
  bitmap : adf.Trusted page
  fresh : entryNamed adf parent name boot.intl none = false
  taken : Adf.Taken adf page [dir]
  out : out = linkIntoDirectory ((adf.setBits page [dir] false).modify dir fun b =>
    b.writeDirectoryHeader dir parent name (meta_.date.getD now) meta_.comment) parent dir name boot.intl

theorem makeDirectory_ok {meta_ : EntryMeta} (h : makeDirectory adf now parent name meta_ = .ok out) :
    ∃ boot page dir, MadeDirectory adf out now parent name meta_ boot page dir := by
  simp only [makeDirectory, bind_ok, refuse_ok, need_ok, pure_ok] at h
  obtain ⟨_, hname, _, hcomment, boot, hboot, _, hpage, _, hfresh, ⟨blocks, mid⟩, hall, hout⟩ := h
  obtain ⟨page, hpage⟩ := Option.ne_none_iff_exists'.1 hpage
  have ht := Adf.bitmapPage_iff.1 hpage
  obtain ⟨htaken, hlen, rfl⟩ := Adf.allocate_some ht hall
  obtain ⟨dir, rfl⟩ := List.length_eq_one_iff.1 hlen
  exact ⟨boot, page, dir, eq_false_of_ne_true hname, eq_false_of_ne_true hcomment, hboot, ht, eq_false_of_ne_true hfresh,
    htaken, hout.symm⟩

section MakeDirectory

variable {meta_ : EntryMeta} {name : Units} {dir : Nat}

/-- The image the new directory is linked in. -/
def laidDir (adf : Adf) (now : Int) (parent : Nat) (name : Units) (meta_ : EntryMeta) (page dir : Nat) : Adf :=
  (adf.setBits page [dir] false).modify dir fun b =>
    b.writeDirectoryHeader dir parent name (meta_.date.getD now) meta_.comment

theorem MadeDirectory.fresh_mid (h : MadeDirectory adf out now parent name meta_ boot page dir) :
    Fresh adf (laidDir adf now parent name meta_ page dir) page [dir] where
  taken := h.taken
  density := rfl
  other hn hp := by
    rw [laidDir, Adf.block_modify_other (List.mem_singleton.not.1 hn), Adf.block_setBits hp]
  bits hge := by
    rw [← h.bitmap.isFreeAt_setBits h.taken.ge h.taken.not_page hge]
    have hpage : page ≠ dir := fun heq => h.taken.not_page (List.mem_singleton.2 heq)
    exact isFreeAt_same (by rfl) (Adf.block_modify_other hpage) _

theorem MadeDirectory.block_dir (h : MadeDirectory adf out now parent name meta_ boot page dir) :
    ∃ b : Block, (laidDir adf now parent name meta_ page dir).block dir =
      b.writeDirectoryHeader dir parent name (meta_.date.getD now) meta_.comment :=
  ⟨_, Adf.block_modify_self (h.taken.lt dir (List.mem_singleton_self dir))⟩

theorem MadeDirectory.dirHeader (h : MadeDirectory adf out now parent name meta_ boot page dir) :
    Block.DirHeader ((laidDir adf now parent name meta_ page dir).block dir) parent := by
  obtain ⟨b, hb⟩ := h.block_dir
  rw [hb]
  exact Block.dirHeader_write ..

theorem MadeDirectory.owned_mid (h : MadeDirectory adf out now parent name meta_ boot page dir) :
    owned (laidDir adf now parent name meta_ page dir) dir = [dir] := by
  rw [owned, if_neg]
  rw [h.dirHeader.secondary]
  decide

theorem MadeDirectory.name_mid (h : MadeDirectory adf out now parent name meta_ boot page dir)
    (hplain : ∀ u ∈ name, Block.Plain u) : ((laidDir adf now parent name meta_ page dir).block dir).entryName = name := by
  obtain ⟨b, hb⟩ := h.block_dir
  rw [hb]
  exact Block.name_writeDirectoryHeader (not_badName h.nameOk).2 hplain

theorem MadeDirectory.fits (hw : WellFormed adf boot page) (hd : Directory adf parent)
    (h : MadeDirectory adf out now parent name meta_ boot page dir) (hplain : ∀ u ∈ name, Block.Plain u) :
    Fits adf (laidDir adf now parent name meta_ page dir) boot page parent (nameHash name boot.intl) dir := by
  have hh := h.dirHeader
  have hname := h.name_mid hplain
  refine ⟨⟨?_, ?_, by rw [hname], fun n hn => ?_, ?_⟩, fun x hx _ => ?_, fun d x hx _ n hn => ?_⟩
  · rw [Block.isEntry, hh.type, hh.checksum, hh.secondary]
    rfl
  · rw [hh.parent]
    obtain ⟨-, -, hlt, -⟩ := hw.directory_used hd
    exact Nat.mod_eq_of_lt (Nat.lt_trans hlt adf.blockCount_lt)
  · rw [h.owned_mid] at hn
    exact ⟨h.taken.kept n hn, by rw [h.fresh_mid.bits (h.taken.ge n hn), if_pos hn]⟩
  · rw [h.owned_mid]
    exact h.taken.nodup
  · rw [hname]
    exact hw.name_free hd h.fresh hx (Option.some_ne_none _)
  · rw [h.owned_mid]
    exact hw.taken_apart h.taken hx hn

/-- A tree with one more directory, empty and not yet linked. -/
def Shape.withDir (S : Shape) (e : Nat) : Shape where
  dirs d := S.dirs d ∨ d = e
  chain d s := if d = e then [] else S.chain d s

theorem Shape.at_withDir {S : Shape} : (S.withDir e).At d s x → S.At d s x := by
  rintro ⟨hd, hs, hx⟩
  change x ∈ (if d = e then [] else S.chain d s) at hx
  by_cases hde : d = e
  · rw [if_pos hde] at hx
    cases hx
  · rw [if_neg hde] at hx
    exact ⟨hd.resolve_right hde, hs, hx⟩

theorem Shape.at_withDir_old {S : Shape} (h : S.At d s x) (hne : d ≠ e) : (S.withDir e).At d s x := by
  obtain ⟨hd, hs, hx⟩ := h
  refine ⟨.inl hd, hs, ?_⟩
  change x ∈ if d = e then [] else S.chain d s
  rwa [if_neg hne]

theorem Shape.Holds.withDir {S : Shape} (h : S.Holds mid) (hempty : ∀ s, s < hashTableSize → mid.slot e s = 0) :
    (S.withDir e).Holds mid where
  root := .inl h.root
  chain {d s} hd hs := by
    change Chain mid (mid.slot d s) (if d = e then [] else S.chain d s)
    by_cases hde : d = e
    · rw [if_pos hde, hde]
      exact hempty s hs
    · rw [if_neg hde]
      exact h.chain (hd.resolve_right hde) hs
  closed hx hdir := .inl (h.closed (Shape.at_withDir hx) hdir)

theorem MadeDirectory.reach (hw : WellFormed adf boot page) (hd : Directory adf parent)
    (h : MadeDirectory adf out now parent name meta_ boot page dir) (hdir : Directory adf d) : Directory out d := by
  have hself : dir ∈ [dir] := List.mem_singleton_self dir
  have hout : out = linkIntoDirectory (laidDir adf now parent name meta_ page dir) parent dir name boot.intl := h.out
  rw [hout]
  refine h.fresh_mid.reach hw hd hself ((h.fresh_mid.holds hw).withDir h.dirHeader.empty) (fun _ => .inr rfl) (fun d s hx => ?_)
    (fun d s x hx => ?_) hdir
  · exact hw.taken_apart h.taken (hw.at_treeShape.1 (Shape.at_withDir hx)).entry (WellFormed.mem_owned_self adf dir) hself
  · refine Shape.at_withDir_old (hw.at_treeShape.2 hx) ?_
    rintro rfl
    exact WellFormed.not_mem_taken (hw.directory_used hx.1).1 h.taken hself

/-- Making a directory with a name that is stored as it is. -/
theorem MadeDirectory.wellFormed (hw : WellFormed adf boot page) (hd : Directory adf parent)
    (h : MadeDirectory adf out now parent name meta_ boot page dir) (hplain : ∀ u ∈ name, Block.Plain u) :
    WellFormed out boot page := by
  have hfresh := h.fresh_mid
  have hself : dir ∈ [dir] := List.mem_singleton_self dir
  have hne : dir ≠ parent := by
    rintro rfl
    exact WellFormed.not_mem_taken (hw.directory_used hd).1 h.taken hself
  have hout : out = linkIntoDirectory (laidDir adf now parent name meta_ page dir) parent dir name boot.intl := h.out
  have hS := (hfresh.holds hw).withDir (e := dir) h.dirHeader.empty
  rw [hout]
  refine hw.linked hd hfresh.density (hfresh.base hw) hS (.inl hd) (fun _ => .inr rfl) (fun d s hx => ?_)
    (fun d s x hx => ?_) ?_ (h.fits hw hd hplain) hne
  · exact hw.taken_apart h.taken (hw.at_treeShape.1 (Shape.at_withDir hx)).entry (WellFormed.mem_owned_self adf dir) hself
  · have hp := hw.at_treeShape.1 (Shape.at_withDir hx)
    exact ⟨hp, hfresh.kept hw hp.entry⟩
  · rw [hfresh.directory hw hd]
    exact hw.dir_kind hd

end MakeDirectory

end WebAdf.Adffs
