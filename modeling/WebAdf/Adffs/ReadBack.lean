import WebAdf.Adffs.Format
import WebAdf.Adffs.LinkLaws

/-!
# A written file reads back exactly

What `addFile` and `replaceFile` did when they succeed, and that the reader gives
the same bytes back without a warning, but for an empty file on an FFS disk: it
has one data block, which the reader takes for one too many.
-/

namespace WebAdf.Adffs

open Lib

variable {adf out mid : Adf} {boot : BootInfo} {page : Nat}

-- ---------------------------------------------------------------------------
-- Laying a file out
-- ---------------------------------------------------------------------------

/-- The data, the header and the extension blocks, in the order they are written. -/
def layFile (adf : Adf) (header : Nat) (data exts : List Nat) (bytes : Bytes) (fs : Filesystem) (put : Block → Block) : Adf :=
  writeExtensionBlocks ((writeDataBlocks adf data bytes header fs).modify header put) header exts (data.drop hashTableSize)

section LayFile

variable {header : Nat} {data exts : List Nat} {bytes : Bytes} {fs : Filesystem} {put : Block → Block}

theorem density_layFile (adf : Adf) (header : Nat) (data exts : List Nat) (bytes : Bytes) (fs : Filesystem)
    (put : Block → Block) : (layFile adf header data exts bytes fs put).density = adf.density := by
  rw [layFile, density_writeExtensionBlocks, Adf.density_modify, writeDataBlocks, density_writeDataFrom]

theorem block_layFile_other (h : n ∉ header :: data ++ exts) :
    (layFile adf header data exts bytes fs put).block n = adf.block n := by
  simp only [List.cons_append, List.mem_cons, List.mem_append, not_or] at h
  rw [layFile, block_writeExtensionBlocks h.2.2, Adf.block_modify_other h.1, writeDataBlocks, block_writeDataFrom h.2.1]

theorem block_layFile_header (h : Written mid header data exts bytes fs) (hd : mid.density = adf.density) :
    (layFile adf header data exts bytes fs put).block header = put (adf.block header) := by
  have hexts : header ∉ exts := (List.nodup_cons.1 h.chain_nodup).1
  have hdata : header ∉ data := (List.nodup_cons.1 (List.nodup_append.1 h.nodup).1).1
  rw [layFile, block_writeExtensionBlocks hexts, Adf.block_modify_self, writeDataBlocks, block_writeDataFrom hdata]
  rw [Adf.blockCount, writeDataBlocks, density_writeDataFrom, ← hd]
  exact h.header_lt

theorem block_layFile_data (h : Written mid header data exts bytes fs) (hn : n ∈ data) :
    (layFile adf header data exts bytes fs put).block n = (writeDataBlocks adf data bytes header fs).block n := by
  obtain ⟨hleft, -, hdisj⟩ := List.nodup_append.1 h.nodup
  have hexts : n ∉ exts := fun hmem => hdisj n (List.mem_cons_of_mem _ hn) n hmem rfl
  have hne : n ≠ header := by
    rintro rfl
    exact (List.nodup_cons.1 hleft).1 hn
  rw [layFile, block_writeExtensionBlocks hexts, Adf.block_modify_other hne]

end LayFile

-- ---------------------------------------------------------------------------
-- What a successful call did
-- ---------------------------------------------------------------------------

/-- A successful `addFile`: `blocks` were free, the first is the header. -/
structure AddedFile (adf out : Adf) (now : Int) (parent : Nat) (name : Units) (bytes : Bytes) (protection : Option Nat)
    (meta_ : EntryMeta) (boot : BootInfo) (page header : Nat) (data exts : List Nat) : Prop where
  nameOk : badName name = false
  commentOk : meta_.tooLong = false
  volume : adf.readBoot = some boot
  bitmap : adf.Trusted page
  fresh : entryNamed adf parent name boot.intl none = false
  taken : Adf.Taken adf page (header :: data ++ exts)
  dataLength : data.length = dataBlocks bytes.length boot.filesystem
  extsLength : exts.length = extBlocks data.length
  out : out = linkIntoDirectory (layFile (adf.setBits page (header :: data ++ exts) false) header data exts bytes
    boot.filesystem fun b => b.writeFileHeader now header parent name bytes.length (data.take hashTableSize)
      (exts.headD 0) protection meta_) parent header name boot.intl

theorem split_blocks {blocks : List Nat} (h : blocks.length = 1 + m + k) :
    ∃ header, blocks = header :: blocks.tail.take m ++ blocks.tail.drop m ∧ blocks.headD 0 = header ∧
      (blocks.tail.take m).length = m ∧ (blocks.tail.drop m).length = k := by
  cases blocks with
  | nil =>
    rw [List.length_nil] at h
    omega
  | cons header rest =>
    rw [List.length_cons] at h
    refine ⟨header, ?_, rfl, ?_, ?_⟩
    · rw [List.tail_cons, List.cons_append, List.take_append_drop]
    · rw [List.tail_cons, List.length_take]
      omega
    · rw [List.tail_cons, List.length_drop]
      omega

theorem addFile_ok {protection : Option Nat} {meta_ : EntryMeta}
    (h : addFile adf now parent name bytes protection meta_ = .ok out) :
    ∃ boot page header data exts, AddedFile adf out now parent name bytes protection meta_ boot page header data exts := by
  simp only [addFile, bind_ok, refuse_ok, need_ok, pure_ok] at h
  obtain ⟨_, hname, _, hcomment, boot, hboot, _, hpage, _, hfresh, ⟨blocks, mid⟩, hall, hout⟩ := h
  obtain ⟨page, hpage⟩ := Option.ne_none_iff_exists'.1 hpage
  have ht := Adf.bitmapPage_iff.1 hpage
  obtain ⟨htaken, hlen, rfl⟩ := Adf.allocate_some ht hall
  obtain ⟨header, hsplit, hhead, hdata, hexts⟩ := split_blocks hlen
  rw [hhead] at hout
  generalize hd : blocks.tail.take (dataBlocks bytes.length boot.filesystem) = data at *
  generalize he : blocks.tail.drop (dataBlocks bytes.length boot.filesystem) = exts at *
  subst hsplit
  exact ⟨boot, page, header, data, exts, eq_false_of_ne_true hname, eq_false_of_ne_true hcomment, hboot, ht,
    eq_false_of_ne_true hfresh, htaken, hdata, by rw [hdata, hexts], hout.symm⟩

/-- The blocks of a file besides its header. -/
def bodyBlocks (adf : Adf) (header : Nat) : List Nat :=
  (collectFileBlocks adf header []).1.data ++ (collectFileBlocks adf header []).1.extensions

theorem fileBlocks_eq (adf : Adf) (header : Nat) : fileBlocks adf header = header :: bodyBlocks adf header := rfl

/-- A successful `replaceFile`: the old body was freed before the new blocks were taken. -/
structure ReplacedFile (adf out : Adf) (now : Int) (e : Nat) (bytes : Bytes) (boot : BootInfo) (page : Nat)
    (data exts : List Nat) : Prop where
  volume : adf.readBoot = some boot
  bitmap : adf.Trusted page
  lt : e < adf.blockCount
  file : (adf.block e).isFileHeader = true
  taken : Adf.Taken (adf.free (bodyBlocks adf e)) page (data ++ exts)
  dataLength : data.length = dataBlocks bytes.length boot.filesystem
  extsLength : exts.length = extBlocks data.length
  out : out = layFile ((adf.free (bodyBlocks adf e)).setBits page (data ++ exts) false) e data exts bytes boot.filesystem
    fun b => b.rewriteFileHeader (adf.block e) now e bytes.length (data.take hashTableSize) (exts.headD 0)

theorem replaceFile_ok (h : replaceFile adf now e bytes = .ok out) :
    ∃ boot page data exts, ReplacedFile adf out now e bytes boot page data exts := by
  simp only [replaceFile, bind_ok, refuse_ok, need_ok, pure_ok] at h
  obtain ⟨boot, hboot, _, hpage, header, hat, _, hfile, ⟨blocks, mid⟩, hall, hout⟩ := h
  obtain ⟨page, hpage⟩ := Option.ne_none_iff_exists'.1 hpage
  obtain ⟨hlt, rfl⟩ := Adf.blockAt_eq_some hat
  have ht := Adf.bitmapPage_iff.1 hpage
  obtain ⟨htaken, hlen, rfl⟩ := Adf.allocate_some (ht.free _) hall
  have hdata : (blocks.take (dataBlocks bytes.length boot.filesystem)).length = dataBlocks bytes.length boot.filesystem := by
    rw [List.length_take]
    omega
  have hexts : (blocks.drop (dataBlocks bytes.length boot.filesystem)).length =
      extBlocks (dataBlocks bytes.length boot.filesystem) := by
    rw [List.length_drop]
    omega
  have hsplit : blocks = blocks.take (dataBlocks bytes.length boot.filesystem) ++
    blocks.drop (dataBlocks bytes.length boot.filesystem) := (List.take_append_drop ..).symm
  generalize blocks.take (dataBlocks bytes.length boot.filesystem) = data at *
  generalize blocks.drop (dataBlocks bytes.length boot.filesystem) = exts at *
  subst hsplit
  exact ⟨boot, page, data, exts, hboot, ht, hlt, eq_true_of_ne_false hfile, htaken, hdata, by rw [hdata, hexts], hout.symm⟩

-- ---------------------------------------------------------------------------
-- Reading back
-- ---------------------------------------------------------------------------

/-- What the reader gives for a file just written. -/
def readsBack (boot : BootInfo) (bytes : Bytes) : FileBytes :=
  if bytes = [] ∧ boot.filesystem = .ffs then ⟨[], false, [.excess 0 blockBytes]⟩ else ⟨bytes, true, []⟩

theorem readsBack_exact : readsBack boot bytes = ⟨bytes, true, []⟩ ↔ bytes ≠ [] ∨ boot.filesystem = .ofs := by
  rw [readsBack]
  by_cases h : bytes = [] ∧ boot.filesystem = .ffs
  · rw [if_pos h]
    obtain ⟨rfl, hfs⟩ := h
    simp [hfs]
  · rw [if_neg h]
    cases hfs : boot.filesystem with
    | ofs => simp
    | ffs => simpa [hfs] using h

theorem Adf.Taken.written {blocks : List Nat} (ht : Adf.Taken adf page blocks) (hnodup : (header :: data ++ exts).Nodup)
    (hsub : ∀ n ∈ header :: data ++ exts, n = header ∨ n ∈ blocks) (hge : bitmapFirstBlock ≤ header)
    (hlt : header < adf.blockCount) (hdata : data.length = dataBlocks bytes.length fs)
    (hexts : exts.length = extBlocks data.length) : Written adf header data exts bytes fs := by
  refine ⟨hnodup, fun n hn => ?_, hdata, hexts⟩
  rcases hsub n hn with rfl | hmem
  · rw [bitmapFirstBlock] at hge
    exact ⟨by omega, hlt⟩
  · exact ⟨(ht.ne_zero n hmem).1, ht.lt n hmem⟩

theorem AddedFile.written {protection : Option Nat} {meta_ : EntryMeta}
    (h : AddedFile adf out now parent name bytes protection meta_ boot page header data exts) :
    Written adf header data exts bytes boot.filesystem :=
  h.taken.written h.taken.nodup (fun _ hn => .inr hn) (h.taken.ge header (List.mem_cons_self ..))
    (h.taken.lt header (List.mem_cons_self ..)) h.dataLength h.extsLength

/-- A file laid out in an image reads back, whatever else is written to other blocks. -/
theorem Written.readsBack {fin : Adf} (h : Written adf header data exts bytes boot.filesystem) (hmid : mid.density = adf.density)
    (hd : fin.density = adf.density) (hboot : fin.readBoot = some boot)
    (hh : Block.FileHeader (fin.block header) parent bytes.length (data.take hashTableSize) (exts.headD 0) protection)
    (hrest : ∀ n ∈ data ++ exts, fin.block n = (layFile mid header data exts bytes boot.filesystem put).block n) :
    readFile fin header = some (Adffs.readsBack boot bytes) := by
  have hdata : ∀ n ∈ data, fin.block n = (writeDataBlocks mid data bytes header boot.filesystem).block n := fun n hn => by
    rw [hrest n (List.mem_append_left _ hn), block_layFile_data h hn]
  have hexts : ∀ n ∈ exts, fin.block n = (writeExtensionBlocks ((writeDataBlocks mid data bytes header
      boot.filesystem).modify header put) header exts (data.drop hashTableSize)).block n := fun n hn => by
    rw [hrest n (List.mem_append_right _ hn), layFile]
  have hmod : ((writeDataBlocks mid data bytes header boot.filesystem).modify header put).density = adf.density := by
    rw [Adf.density_modify, writeDataBlocks, density_writeDataFrom, hmid]
  exact h.reads hboot hd hmid hmod hh hdata hexts

theorem AddedFile.reads {protection : Option Nat} {meta_ : EntryMeta} (hw : WellFormed adf boot page) (hd : Directory adf parent)
    (h : AddedFile adf out now parent name bytes protection meta_ boot page header data exts) :
    (out.block parent).be32 (slotOf name boot.intl) = header ∧ readFile out header = some (readsBack boot bytes) := by
  obtain ⟨hused, hpage, hlt, hge⟩ := hw.directory_used hd
  have hwr := h.written
  have hnot : parent ∉ header :: data ++ exts := WellFormed.not_mem_taken hused h.taken
  have hne : header ≠ parent := fun heq => hnot (heq ▸ List.mem_cons_self ..)
  have hzero : (0 : Nat) ∉ header :: data ++ exts := fun hmem => (hwr.range 0 hmem).1 rfl
  have hpage0 : (0 : Nat) ≠ page := Nat.ne_of_lt (Nat.lt_of_lt_of_le (by decide) hw.trusted.ge)
  have hparent0 : (0 : Nat) ≠ parent := Nat.ne_of_lt (Nat.lt_of_lt_of_le (by decide) hge)
  have hout := h.out
  obtain ⟨put, hput⟩ : ∃ put : Block → Block, put = fun b => b.writeFileHeader now header parent name bytes.length
      (data.take hashTableSize) (exts.headD 0) protection meta_ := ⟨_, rfl⟩
  obtain ⟨mid, hmid⟩ : ∃ mid, mid = adf.setBits page (header :: data ++ exts) false := ⟨_, rfl⟩
  rw [← hput, ← hmid] at hout
  have hdens : mid.density = adf.density := by
    rw [hmid, Adf.density_setBits]
  have hlaid : (layFile mid header data exts bytes boot.filesystem put).blockCount = adf.blockCount := by
    rw [Adf.blockCount, density_layFile, hdens, Adf.blockCount]
  have hother : ∀ n, n ≠ parent → n ≠ header →
      out.block n = (layFile mid header data exts bytes boot.filesystem put).block n := fun n hp hh => by
    rw [hout, block_linkIntoDirectory_other hp hh]
  refine ⟨?_, ?_⟩
  · rw [hout]
    exact slot_linkIntoDirectory hne (hlaid ▸ hwr.header_lt) (hlaid ▸ hlt)
  · have hod : out.density = adf.density := by
      rw [hout, density_linkIntoDirectory, density_layFile, hdens]
    have hboot : out.readBoot = some boot := by
      rw [← hw.volume]
      refine readBoot_same hod ?_
      rw [hother 0 hparent0 (fun heq => hzero (heq ▸ List.mem_cons_self ..)), block_layFile_other hzero, hmid,
        Adf.block_setBits hpage0]
    have hh : Block.FileHeader (out.block header) parent bytes.length (data.take hashTableSize) (exts.headD 0)
        (protection.getD 0) := by
      rw [hout, block_linkIntoDirectory_entry hne (hlaid ▸ hwr.header_lt) (hlaid ▸ hlt), block_layFile_header hwr hdens.symm, hput]
      exact Block.fileHeader_reword (Block.fileHeader_write (List.length_take_le ..)) _
    refine hwr.readsBack hdens hod hboot hh fun n hn => hother n ?_ ?_
    · rintro rfl
      exact hnot (List.mem_cons_of_mem _ hn)
    · rintro rfl
      exact (List.nodup_cons.1 hwr.nodup).1 hn

/-- The replaced file's own header is not among the blocks taken for its new body. -/
theorem ReplacedFile.written (hw : WellFormed adf boot page) (he : Entry adf dir e) (hf : adf.isFile e)
    (h : ReplacedFile adf out now e bytes boot page data exts) :
    Written (adf.free (bodyBlocks adf e)) e data exts bytes boot.filesystem := by
  obtain ⟨hr, hu⟩ := hw.entry_held he
  obtain ⟨-, -, hge, hlt⟩ := Adf.isReserved_iff.1 hr
  have hown : e ∉ bodyBlocks adf e := by
    have honce := hw.once he
    rw [WellFormed.owned_file hf, fileBlocks_eq] at honce
    exact (List.nodup_cons.1 honce).1
  have hused : (adf.free (bodyBlocks adf e)).isFreeAt page e = false := by
    rw [h.bitmap.isFreeAt_free hr, hu, decide_eq_false hown]
    rfl
  have hnot : e ∉ data ++ exts := WellFormed.not_mem_taken hused h.taken
  have hlt' : e < (adf.free (bodyBlocks adf e)).blockCount := by
    rw [Adf.blockCount, Adf.density_free]
    exact hlt
  refine h.taken.written (List.nodup_cons.2 ⟨hnot, h.taken.nodup⟩) (fun n hn => ?_) hge hlt' h.dataLength h.extsLength
  rwa [List.cons_append, List.mem_cons] at hn

theorem ReplacedFile.reads (hw : WellFormed adf boot page) (he : Entry adf dir e) (hf : adf.isFile e)
    (h : ReplacedFile adf out now e bytes boot page data exts) : readFile out e = some (readsBack boot bytes) := by
  have hwr := h.written hw he hf
  have hpage0 : (0 : Nat) ≠ page := Nat.ne_of_lt (Nat.lt_of_lt_of_le (by decide) hw.trusted.ge)
  have hzero : (0 : Nat) ∉ e :: data ++ exts := fun hmem => (hwr.range 0 hmem).1 rfl
  have hout := h.out
  obtain ⟨put, hput⟩ : ∃ put : Block → Block, put = fun b => b.rewriteFileHeader (adf.block e) now e bytes.length
      (data.take hashTableSize) (exts.headD 0) := ⟨_, rfl⟩
  obtain ⟨mid, hmid⟩ : ∃ mid, mid = (adf.free (bodyBlocks adf e)).setBits page (data ++ exts) false := ⟨_, rfl⟩
  rw [← hput, ← hmid] at hout
  have hdens : mid.density = (adf.free (bodyBlocks adf e)).density := by
    rw [hmid, Adf.density_setBits]
  have hod : out.density = (adf.free (bodyBlocks adf e)).density := by rw [hout, density_layFile, hdens]
  have hboot : out.readBoot = some boot := by
    rw [← hw.volume]
    refine readBoot_same (hod.trans (Adf.density_free ..)) ?_
    rw [hout, block_layFile_other hzero, hmid, Adf.block_setBits hpage0, Adf.block_free h.bitmap hpage0]
  have hh : Block.FileHeader (out.block e) ((adf.block e).be32 500) bytes.length (data.take hashTableSize) (exts.headD 0) 0 := by
    rw [hout, block_layFile_header hwr hdens.symm, hput]
    exact Block.fileHeader_rewrite (List.length_take_le ..)
  exact hwr.readsBack hdens hod hboot hh fun n _ => by rw [hout]

-- ---------------------------------------------------------------------------
-- Exactly
-- ---------------------------------------------------------------------------

/-- A file that was added under a reachable directory, or written over a reachable file,
reads back as its bytes with no warning exactly when it is not empty or the disk is OFS. -/
theorem written_file_reads_back (hw : WellFormed adf boot page) :
    (∀ parent now name bytes protection meta_ out, Directory adf parent →
      addFile adf now parent name bytes protection meta_ = .ok out →
      (readFile out ((out.block parent).be32 (slotOf name boot.intl)) = some ⟨bytes, true, []⟩ ↔
        bytes ≠ [] ∨ boot.filesystem = .ofs)) ∧
    (∀ dir e now bytes out, Entry adf dir e → adf.isFile e → replaceFile adf now e bytes = .ok out →
      (readFile out e = some ⟨bytes, true, []⟩ ↔ bytes ≠ [] ∨ boot.filesystem = .ofs)) := by
  constructor
  · intro parent now name bytes protection meta_ out hd hok
    obtain ⟨boot', page', header, data, exts, h⟩ := addFile_ok hok
    obtain rfl : boot' = boot := Option.some.inj (h.volume.symm.trans hw.volume)
    obtain rfl : page' = page := Option.some.inj ((Adf.bitmapPage_iff.2 h.bitmap).symm.trans hw.bitmap)
    obtain ⟨hslot, hread⟩ := h.reads hw hd
    rw [hslot, hread, Option.some.injEq, readsBack_exact]
  · intro dir e now bytes out he hf hok
    obtain ⟨boot', page', data, exts, h⟩ := replaceFile_ok hok
    obtain rfl : boot' = boot := Option.some.inj (h.volume.symm.trans hw.volume)
    obtain rfl : page' = page := Option.some.inj ((Adf.bitmapPage_iff.2 h.bitmap).symm.trans hw.bitmap)
    rw [h.reads hw he hf, Option.some.injEq, readsBack_exact]

-- A freshly formatted FFS disk, a file of one byte, and an empty file.

def blankFloppy : Adf := formatVolume { volumeName := [0x45], filesystem := .ffs } 0

theorem ok_of_isOk {x : Except ε α} (h : x.isOk = true) : ∃ a, x = .ok a := by
  cases x with
  | error e => cases h
  | ok a => exact ⟨a, rfl⟩

theorem blankFloppy_wellFormed : WellFormed blankFloppy ⟨.ffs, false, false⟩ 881 := formatVolume_wellFormed _ 0

theorem add_to_blankFloppy : (addFile blankFloppy 0 880 [0x61] [0x2a] none {}).isOk = true := by
  decide +kernel

theorem add_empty_to_blankFloppy : (addFile blankFloppy 0 880 [0x61] [] none {}).isOk = true := by
  decide +kernel

theorem one_byte_file_reads_back : ∃ out, addFile blankFloppy 0 880 [0x61] [0x2a] none {} = .ok out ∧
    readFile out ((out.block 880).be32 (slotOf [0x61] false)) = some ⟨[0x2a], true, []⟩ := by
  obtain ⟨out, hout⟩ := ok_of_isOk add_to_blankFloppy
  exact ⟨out, hout, ((written_file_reads_back blankFloppy_wellFormed).1 880 0 [0x61] [0x2a] none {} out .root hout).2
    (.inl (List.cons_ne_nil _ _))⟩

/-- An empty file on an FFS disk is read with a warning and as incomplete. -/
theorem empty_file_reads_incomplete : ∃ out, addFile blankFloppy 0 880 [0x61] [] none {} = .ok out ∧
    readFile out ((out.block 880).be32 (slotOf [0x61] false)) = some ⟨[], false, [.excess 0 512]⟩ := by
  obtain ⟨out, hout⟩ := ok_of_isOk add_empty_to_blankFloppy
  obtain ⟨boot, page, header, data, exts, h⟩ := addFile_ok hout
  have hw := blankFloppy_wellFormed
  obtain rfl : boot = ⟨.ffs, false, false⟩ := Option.some.inj (h.volume.symm.trans hw.volume)
  obtain rfl : page = 881 := Option.some.inj ((Adf.bitmapPage_iff.2 h.bitmap).symm.trans hw.bitmap)
  have hroot : Directory blankFloppy 880 := .root
  obtain ⟨hslot, hread⟩ := h.reads hw hroot
  refine ⟨out, hout, ?_⟩
  rw [hslot, hread]
  rfl

end WebAdf.Adffs
