import Mathlib.Data.List.Perm.Subperm
import WebAdf.Adffs.BitmapLaws

/-!
# A written file reads back

The writers lay the data blocks, the header's table and the chain of extension
blocks; the reader finds the same blocks in the same order and in them the bytes.
-/

namespace WebAdf.Adffs

open Lib

variable {adf out : Adf} {fs : Filesystem}

-- ---------------------------------------------------------------------------
-- The chain of pointer tables
-- ---------------------------------------------------------------------------

/-- From `cur` on the tables list `data`, 72 to a block, the last block having no next. -/
def Laid (adf : Adf) : Nat → List Nat → List Nat → Prop
  | cur, data, [] => cur < adf.blockCount ∧ (adf.block cur).pointers = data ∧ (adf.block cur).be32 504 = 0
  | cur, data, ext :: exts =>
    cur < adf.blockCount ∧ (adf.block cur).pointers = data.take hashTableSize ∧ (adf.block cur).be32 504 = ext ∧ ext ≠ 0 ∧
      Laid adf ext (data.drop hashTableSize) exts

theorem Laid.lt (h : Laid adf cur data exts) : cur < adf.blockCount := by
  cases exts with
  | nil => exact h.1
  | cons ext exts => exact h.1

/-- Tables read the same in any image that has the same bytes there. -/
theorem Laid.same (h : Laid adf cur data exts) (hd : out.density = adf.density)
    (hb : ∀ n ∈ cur :: exts, (out.block n).pointers = (adf.block n).pointers ∧ (out.block n).be32 504 = (adf.block n).be32 504) :
    Laid out cur data exts := by
  have hc : out.blockCount = adf.blockCount := by rw [Adf.blockCount, Adf.blockCount, hd]
  induction exts generalizing cur data with
  | nil =>
    obtain ⟨hlt, hp, hn⟩ := h
    obtain ⟨hp', hn'⟩ := hb cur (List.mem_cons_self ..)
    exact ⟨hc ▸ hlt, hp'.trans hp, hn'.trans hn⟩
  | cons ext exts ih =>
    obtain ⟨hlt, hp, hn, hne, hrest⟩ := h
    obtain ⟨hp', hn'⟩ := hb cur (List.mem_cons_self ..)
    exact ⟨hc ▸ hlt, hp'.trans hp, hn'.trans hn, hne, ih hrest fun n hm => hb n (List.mem_cons_of_mem _ hm)⟩

theorem collectFrom_laid (h : Laid adf cur data exts) (hnodup : exts.Nodup) (hseen : ∀ n ∈ exts, n ∉ seen)
    (hroom : got.data.length + data.length ≤ adf.blockCount) (hfuel : exts.length < fuel) (isHeader : Bool) :
    collectFrom adf fuel cur isHeader seen got ws =
      (⟨got.data ++ data, (got.extensions ++ if isHeader then [] else [cur]) ++ exts⟩, ws) := by
  obtain ⟨fuel, rfl⟩ : ∃ k, fuel = k + 1 := ⟨fuel - 1, by omega⟩
  induction exts generalizing cur data seen got fuel isHeader with
  | nil =>
    obtain ⟨hlt, hp, hn⟩ := h
    have hcap : ¬ adf.blockCount - got.data.length < data.length := by omega
    rw [collectFrom, Adf.blockAt_of_lt hlt]
    simp only [hp, hn, if_neg hcap, if_true, List.append_nil]
    rw [List.take_of_length_le (by omega)]
  | cons ext exts ih =>
    obtain ⟨hlt, hp, hn, hne, hrest⟩ := h
    obtain ⟨hnot, htail⟩ := List.nodup_cons.1 hnodup
    have hlen : (data.take hashTableSize).length + (data.drop hashTableSize).length = data.length := by
      rw [← List.length_append, List.take_append_drop]
    have hcap : ¬ adf.blockCount - got.data.length < (data.take hashTableSize).length := by omega
    have hext : ext ∉ seen := hseen ext (List.mem_cons_self ..)
    have hnext : ∀ n ∈ exts, n ∉ seen ++ [ext] := by
      intro n hn' hmem
      rcases List.mem_append.1 hmem with hmem | hmem
      · exact hseen n (List.mem_cons_of_mem _ hn') hmem
      · exact hnot (List.mem_singleton.1 hmem ▸ hn')
    rw [List.length_cons] at hfuel
    obtain ⟨fuel, rfl⟩ : ∃ k, fuel = k + 1 := ⟨fuel - 1, by omega⟩
    rw [collectFrom, Adf.blockAt_of_lt hlt]
    simp only [hp, hn, if_neg hcap, if_neg hne, if_neg hext]
    rw [List.take_of_length_le (l := data.take hashTableSize) (by omega)]
    rw [ih hrest htail hnext (by rw [List.length_append]; omega) false fuel (by omega)]
    simp only [List.append_assoc, List.take_append_drop, if_neg Bool.false_ne_true, List.singleton_append]

theorem collectFileBlocks_laid (h : Laid adf header data exts) (hnodup : (header :: exts).Nodup)
    (hroom : data.length ≤ adf.blockCount) (hfuel : exts.length ≤ adf.blockCount) :
    collectFileBlocks adf header ws = (⟨data, exts⟩, ws) := by
  obtain ⟨hnot, htail⟩ := List.nodup_cons.1 hnodup
  have hseen : ∀ n ∈ exts, n ∉ [header] := fun n hn hmem => hnot (List.mem_singleton.1 hmem ▸ hn)
  rw [collectFileBlocks, collectFrom_laid h htail hseen (by simpa using hroom) (by omega) true]
  rfl

-- ---------------------------------------------------------------------------
-- Writing the tables
-- ---------------------------------------------------------------------------

theorem density_writeExtensionBlocks (adf : Adf) (header : Nat) (exts rest : List Nat) :
    (writeExtensionBlocks adf header exts rest).density = adf.density := by
  induction exts generalizing adf rest with
  | nil => rfl
  | cons ext exts ih => rw [writeExtensionBlocks, ih, Adf.density_modify]

theorem block_writeExtensionBlocks (h : n ∉ exts) : (writeExtensionBlocks adf header exts rest).block n = adf.block n := by
  induction exts generalizing adf rest with
  | nil => rfl
  | cons ext exts ih =>
    rw [writeExtensionBlocks, ih fun hmem => h (List.mem_cons_of_mem _ hmem),
      Adf.block_modify_other fun heq => h (by rw [heq]; exact List.mem_cons_self ..)]

/-- The chain from the first extension block on. -/
theorem laid_writeExtensionBlocks (hnodup : (ext :: exts).Nodup) (hlt : ∀ n ∈ ext :: exts, n < adf.blockCount)
    (hne : ∀ n ∈ exts, n ≠ 0) (hsmall : ∀ p ∈ rest, p ≠ 0 ∧ p < 2 ^ 32)
    (hlen : rest.length ≤ (exts.length + 1) * hashTableSize) :
    Laid (writeExtensionBlocks adf header (ext :: exts) rest) ext rest exts := by
  obtain ⟨hnot, htail⟩ := List.nodup_cons.1 hnodup
  have hext : ext < adf.blockCount := hlt ext (List.mem_cons_self ..)
  have htake : ∀ p ∈ rest.take hashTableSize, p ≠ 0 ∧ p < 2 ^ 32 := fun p hp => hsmall p (List.mem_of_mem_take hp)
  have hle : (rest.take hashTableSize).length ≤ hashTableSize := List.length_take_le ..
  induction exts generalizing adf ext rest with
  | nil =>
    have hb : (writeExtensionBlocks adf header [ext] rest).block ext =
        (adf.block ext).writeExtension ext (rest.take hashTableSize) header 0 := by
      rw [writeExtensionBlocks, writeExtensionBlocks, Adf.block_modify_self hext]
      rfl
    have hall : rest.take hashTableSize = rest := List.take_of_length_le (by simpa using hlen)
    refine ⟨hext, ?_, ?_⟩
    · rw [hb, Block.pointers_writeExtension hle htake, hall]
    · rw [hb, Block.next_writeExtension, Nat.zero_mod]
  | cons ext' exts ih =>
    have hstay : (writeExtensionBlocks adf header (ext :: ext' :: exts) rest).block ext =
        (adf.block ext).writeExtension ext (rest.take hashTableSize) header ext' := by
      rw [writeExtensionBlocks, block_writeExtensionBlocks hnot, Adf.block_modify_self hext]
      rfl
    have hlt' : ext' < 2 ^ 32 :=
      Nat.lt_trans (hlt ext' (List.mem_cons_of_mem _ (List.mem_cons_self ..))) adf.blockCount_lt
    refine ⟨?_, ?_, ?_, hne ext' (List.mem_cons_self ..), ?_⟩
    · rw [Adf.blockCount, density_writeExtensionBlocks]
      exact hext
    · rw [hstay, Block.pointers_writeExtension hle htake]
    · rw [hstay, Block.next_writeExtension, Nat.mod_eq_of_lt hlt']
    · have hlen' : (rest.drop hashTableSize).length ≤ (exts.length + 1) * hashTableSize := by
        rw [List.length_cons, Nat.add_mul, Nat.one_mul] at hlen
        rw [List.length_drop]
        omega
      rw [writeExtensionBlocks]
      exact ih htail (fun n hn => hlt n (List.mem_cons_of_mem _ hn)) (fun n hn => hne n (List.mem_cons_of_mem _ hn))
        (fun p hp => hsmall p (List.mem_of_mem_drop hp)) hlen' (List.nodup_cons.1 htail).1 (List.nodup_cons.1 htail).2
        (hlt ext' (List.mem_cons_of_mem _ (List.mem_cons_self ..)))
        (fun p hp => hsmall p (List.mem_of_mem_drop (List.mem_of_mem_take hp))) (List.length_take_le ..)

-- ---------------------------------------------------------------------------
-- Writing the data
-- ---------------------------------------------------------------------------

theorem density_writeDataFrom (adf : Adf) (bytes : Bytes) (header : Nat) (fs : Filesystem) (i : Nat) (blocks : List Nat) :
    (writeDataFrom adf bytes header fs i blocks).density = adf.density := by
  induction blocks generalizing adf i with
  | nil => rfl
  | cons blk blocks ih => rw [writeDataFrom, ih, Adf.density_modify]

theorem block_writeDataFrom (h : n ∉ blocks) : (writeDataFrom adf bytes header fs i blocks).block n = adf.block n := by
  induction blocks generalizing adf i with
  | nil => rfl
  | cons blk blocks ih =>
    rw [writeDataFrom, ih fun hmem => h (List.mem_cons_of_mem _ hmem),
      Adf.block_modify_other fun heq => h (by rw [heq]; exact List.mem_cons_self ..)]

theorem readChunks_same (hd : out.density = adf.density) (hb : ∀ n ∈ blocks, out.block n = adf.block n) :
    readChunks out fs blocks ws = readChunks adf fs blocks ws := by
  have hat : ∀ n ∈ blocks, out.blockAt n = adf.blockAt n := fun n hn => by
    rw [Adf.blockAt, Adf.blockAt, Adf.blockCount, Adf.blockCount, hd, hb n hn]
  induction blocks generalizing ws with
  | nil => rfl
  | cons blk blocks ih =>
    rw [readChunks, readChunks, hat blk (List.mem_cons_self ..)]
    cases adf.blockAt blk with
    | none => exact ih (fun n hn => hb n (List.mem_cons_of_mem _ hn)) fun n hn => hat n (List.mem_cons_of_mem _ hn)
    | some b =>
      dsimp only
      rw [ih (fun n hn => hb n (List.mem_cons_of_mem _ hn)) fun n hn => hat n (List.mem_cons_of_mem _ hn)]

/-- The chunks from the `i`th on read back as the bytes from there on, and on an FFS disk
the rest of the last block behind them. -/
theorem readChunks_written (hnodup : blocks.Nodup) (hlt : ∀ n ∈ blocks, n < adf.blockCount) (hpos : blocks ≠ [])
    (hfull : (i + (blocks.length - 1)) * fs.perBlock ≤ bytes.length)
    (hfit : bytes.length ≤ (i + blocks.length) * fs.perBlock) :
    ∃ chunks rest, readChunks (writeDataFrom adf bytes header fs i blocks) fs blocks ws = (chunks, ws) ∧
      chunks.flatten = bytes.drop (i * fs.perBlock) ++ rest ∧ (fs = .ofs → rest = []) ∧
      (fs = .ffs → bytes.length + rest.length = (i + blocks.length) * blockBytes) := by
  have hchunk : ∀ k, ((bytes.drop (k * fs.perBlock)).take fs.perBlock).length ≤ fs.perBlock := fun k => List.length_take_le ..
  induction blocks generalizing adf i with
  | nil => exact absurd rfl hpos
  | cons blk blocks ih =>
    obtain ⟨hnot, htail⟩ := List.nodup_cons.1 hnodup
    have hblk : blk < adf.blockCount := hlt blk (List.mem_cons_self ..)
    have hhead : (writeDataFrom adf bytes header fs i (blk :: blocks)).blockAt blk =
        some ((adf.block blk).writeData fs ((bytes.drop (i * fs.perBlock)).take fs.perBlock) i header (blocks.headD 0)) := by
      rw [Adf.blockAt_of_lt, writeDataFrom, block_writeDataFrom hnot, Adf.block_modify_self hblk]
      rw [Adf.blockCount, density_writeDataFrom]
      exact hblk
    obtain ⟨rest, hpay, hofs, hffs⟩ : ∃ rest, ((adf.block blk).writeData fs ((bytes.drop (i * fs.perBlock)).take fs.perBlock)
          i header (blocks.headD 0)).payload fs = (bytes.drop (i * fs.perBlock)).take fs.perBlock ++ rest ∧
        (fs = .ofs → rest = []) ∧
        (fs = .ffs → rest.length = blockBytes - ((bytes.drop (i * fs.perBlock)).take fs.perBlock).length) :=
      Block.payload_writeData (hchunk i)
    cases blocks with
    | nil =>
      have hall : (bytes.drop (i * fs.perBlock)).take fs.perBlock = bytes.drop (i * fs.perBlock) := by
        refine List.take_of_length_le ?_
        rw [List.length_singleton, Nat.add_mul, Nat.one_mul] at hfit
        rw [List.length_drop]
        omega
      rw [hall] at hpay hffs hhead
      refine ⟨[bytes.drop (i * fs.perBlock) ++ rest], rest, ?_, List.flatten_singleton, hofs, fun hfs => ?_⟩
      · rw [readChunks, hhead]
        simp only [readChunks, hpay]
      · subst hfs
        have hr := hffs rfl
        rw [List.length_drop] at hr
        rw [List.length_singleton] at hfit hfull ⊢
        simp only [Filesystem.perBlock, blockBytes] at *
        omega
    | cons blk' blocks =>
      have hfull' : (i + 1 + ((blk' :: blocks).length - 1)) * fs.perBlock ≤ bytes.length := by
        rw [List.length_cons, List.length_cons, Nat.add_sub_cancel] at hfull
        rw [List.length_cons, Nat.add_sub_cancel, Nat.add_assoc, Nat.add_comm 1]
        exact hfull
      have hfit' : bytes.length ≤ (i + 1 + (blk' :: blocks).length) * fs.perBlock := by
        rw [List.length_cons] at hfit
        rw [Nat.add_assoc, Nat.add_comm 1]
        exact hfit
      obtain ⟨chunks, rest', hread, hflat, hofs', hffs'⟩ := @ih (adf.modify blk fun b =>
        b.writeData fs ((bytes.drop (i * fs.perBlock)).take fs.perBlock) i header ((blk' :: blocks).headD 0)) (i + 1) htail
        (fun n hn => hlt n (List.mem_cons_of_mem _ hn)) (List.cons_ne_nil _ _) hfull' hfit'
      have hlong : ((bytes.drop (i * fs.perBlock)).take fs.perBlock).length = fs.perBlock := by
        rw [List.length_cons, List.length_cons, Nat.add_sub_cancel] at hfull
        have hle : (i + 1) * fs.perBlock ≤ (i + (blocks.length + 1)) * fs.perBlock := Nat.mul_le_mul_right _ (by omega)
        rw [Nat.add_mul, Nat.one_mul] at hle
        rw [List.length_take, List.length_drop]
        omega
      have hrest : rest = [] := by
        cases fs with
        | ofs => exact hofs rfl
        | ffs =>
          have hr := hffs rfl
          rw [hlong] at hr
          exact List.eq_nil_of_length_eq_zero hr
      refine ⟨(bytes.drop (i * fs.perBlock)).take fs.perBlock :: chunks, rest', ?_, ?_, hofs', fun hfs => ?_⟩
      · rw [readChunks, hhead]
        rw [writeDataFrom, hread]
        simp only [hpay, hrest, List.append_nil]
      · rw [List.flatten_cons, hflat, ← List.append_assoc, show (i + 1) * fs.perBlock = i * fs.perBlock + fs.perBlock by
          rw [Nat.add_mul, Nat.one_mul], ← List.drop_drop, List.take_append_drop]
      · rw [hffs' hfs, List.length_cons, List.length_cons, List.length_cons]
        congr 1
        omega

-- ---------------------------------------------------------------------------
-- The whole file
-- ---------------------------------------------------------------------------

theorem length_le_of_lt {l : List Nat} {n : Nat} (hnodup : l.Nodup) (hlt : ∀ x ∈ l, x < n) : l.length ≤ n := by
  have hsub : l ⊆ List.range n := fun x hx => List.mem_range.2 (hlt x hx)
  have hle := (List.subperm_of_subset hnodup hsub).length_le
  rwa [List.length_range] at hle

theorem dataBlocks_pos (size : Nat) (fs : Filesystem) : 0 < dataBlocks size fs := by
  rw [dataBlocks]
  omega

/-- The last data block is needed, unless there is nothing to store. -/
theorem dataBlocks_bounds (size : Nat) (fs : Filesystem) :
    (dataBlocks size fs - 1) * fs.perBlock ≤ size ∧ size ≤ dataBlocks size fs * fs.perBlock := by
  cases fs <;> simp only [dataBlocks, Filesystem.perBlock, ofsDataBytes, blockBytes] <;> omega

theorem extBlocks_bounds (count : Nat) :
    count - hashTableSize ≤ extBlocks count * hashTableSize ∧ (0 < extBlocks count ↔ hashTableSize < count) := by
  rw [extBlocks, hashTableSize]
  omega

/-- A file's blocks as the writers leave them. -/
structure Written (adf : Adf) (header : Nat) (data exts : List Nat) (bytes : Bytes) (fs : Filesystem) : Prop where
  nodup : (header :: data ++ exts).Nodup
  range : ∀ n ∈ header :: data ++ exts, n ≠ 0 ∧ n < adf.blockCount
  dataLength : data.length = dataBlocks bytes.length fs
  extsLength : exts.length = extBlocks data.length

namespace Written

variable {header : Nat} {data exts : List Nat} {bytes : Bytes}

theorem header_lt (h : Written adf header data exts bytes fs) : header < adf.blockCount :=
  (h.range header (List.mem_cons_self ..)).2

theorem data_range (h : Written adf header data exts bytes fs) : ∀ n ∈ data, n ≠ 0 ∧ n < adf.blockCount := fun n hn =>
  h.range n (List.mem_append_left _ (List.mem_cons_of_mem _ hn))

theorem exts_range (h : Written adf header data exts bytes fs) : ∀ n ∈ exts, n ≠ 0 ∧ n < adf.blockCount := fun n hn =>
  h.range n (List.mem_append_right _ hn)

theorem data_small (h : Written adf header data exts bytes fs) : ∀ n ∈ data, n ≠ 0 ∧ n < 2 ^ 32 := fun n hn =>
  ⟨(h.data_range n hn).1, Nat.lt_trans (h.data_range n hn).2 adf.blockCount_lt⟩

theorem data_nodup (h : Written adf header data exts bytes fs) : data.Nodup :=
  (List.nodup_cons.1 (List.nodup_append.1 h.nodup).1).2

theorem chain_nodup (h : Written adf header data exts bytes fs) : (header :: exts).Nodup := by
  have hsub : List.Sublist (header :: exts) (header :: data ++ exts) :=
    List.Sublist.cons_cons _ (List.sublist_append_right data exts)
  exact hsub.nodup h.nodup

theorem size_lt (h : Written adf header data exts bytes fs) : bytes.length < 2 ^ 32 := by
  have hle := length_le_of_lt h.data_nodup fun n hn => (h.data_range n hn).2
  have hfit := (dataBlocks_bounds bytes.length fs).2
  have hper : fs.perBlock ≤ 512 := by cases fs <;> decide
  have hcount : adf.blockCount ≤ 3520 := by
    rw [Adf.blockCount]
    cases adf.density <;> decide
  rw [← h.dataLength] at hfit
  have hmul := Nat.mul_le_mul (Nat.le_trans hle hcount) hper
  omega

/-- The tables of a written file. -/
theorem laid {fin mid : Adf} (h : Written adf header data exts bytes fs) (hd : fin.density = adf.density)
    (hmid : mid.density = adf.density)
    (hh : Block.FileHeader (fin.block header) parent size (data.take hashTableSize) (exts.headD 0) protection)
    (hexts : ∀ n ∈ exts, fin.block n = (writeExtensionBlocks mid header exts (data.drop hashTableSize)).block n) :
    Laid fin header data exts := by
  have hc : fin.blockCount = adf.blockCount := by rw [Adf.blockCount, Adf.blockCount, hd]
  have hcm : mid.blockCount = adf.blockCount := by rw [Adf.blockCount, Adf.blockCount, hmid]
  have hp := hh.pointers fun n hn => h.data_small n (List.mem_of_mem_take hn)
  have hlen := h.extsLength
  have hext := extBlocks_bounds data.length
  cases exts with
  | nil =>
    have hshort : data.length ≤ hashTableSize := by
      rw [List.length_nil] at hlen
      omega
    refine ⟨hc ▸ h.header_lt, ?_, hh.next⟩
    rw [hp, List.take_of_length_le hshort]
  | cons ext exts =>
    have hne := h.exts_range ext (List.mem_cons_self ..)
    have htail := (List.nodup_cons.1 h.chain_nodup).2
    have hroom : (data.drop hashTableSize).length ≤ (exts.length + 1) * hashTableSize := by
      rw [List.length_cons] at hlen
      rw [List.length_drop, hlen]
      exact hext.1
    have hlaid : Laid (writeExtensionBlocks mid header (ext :: exts) (data.drop hashTableSize)) ext
        (data.drop hashTableSize) exts :=
      laid_writeExtensionBlocks htail (fun n hn => hcm ▸ (h.exts_range n hn).2)
        (fun n hn => (h.exts_range n (List.mem_cons_of_mem _ hn)).1) (fun n hn => h.data_small n (List.mem_of_mem_drop hn)) hroom
    refine ⟨hc ▸ h.header_lt, hp, ?_, hne.1, hlaid.same ?_ fun n hn => ?_⟩
    · rw [hh.next, List.headD_cons]
      exact Nat.mod_eq_of_lt (Nat.lt_trans hne.2 adf.blockCount_lt)
    · rw [density_writeExtensionBlocks, hd, hmid]
    · rw [hexts n hn]
      exact ⟨rfl, rfl⟩

/-- What the reader gives: the bytes, and on an FFS disk a complaint about an empty file's
data block. -/
theorem reads {fin before mid : Adf} (h : Written adf header data exts bytes boot.filesystem)
    (hboot : fin.readBoot = some boot) (hd : fin.density = adf.density) (hbefore : before.density = adf.density)
    (hmid : mid.density = adf.density)
    (hh : Block.FileHeader (fin.block header) parent bytes.length (data.take hashTableSize) (exts.headD 0) protection)
    (hdata : ∀ n ∈ data, fin.block n = (writeDataBlocks before data bytes header boot.filesystem).block n)
    (hexts : ∀ n ∈ exts, fin.block n = (writeExtensionBlocks mid header exts (data.drop hashTableSize)).block n) :
    readFile fin header = some (if bytes = [] ∧ boot.filesystem = .ffs then ⟨[], false, [.excess 0 blockBytes]⟩
      else ⟨bytes, true, []⟩) := by
  have hc : fin.blockCount = adf.blockCount := by rw [Adf.blockCount, Adf.blockCount, hd]
  have hcb : before.blockCount = adf.blockCount := by rw [Adf.blockCount, Adf.blockCount, hbefore]
  have hcollect : collectFileBlocks fin header [] = (⟨data, exts⟩, []) :=
    collectFileBlocks_laid (h.laid hd hmid hh hexts) h.chain_nodup
      (hc ▸ length_le_of_lt h.data_nodup fun n hn => (h.data_range n hn).2)
      (hc ▸ length_le_of_lt (List.nodup_cons.1 h.chain_nodup).2 fun n hn => (h.exts_range n hn).2)
  have hbounds := dataBlocks_bounds bytes.length boot.filesystem
  have hpos := dataBlocks_pos bytes.length boot.filesystem
  rw [← h.dataLength] at hbounds hpos
  obtain ⟨chunks, rest, hread, hflat, hofs, hffs⟩ : ∃ chunks rest,
      readChunks (writeDataFrom before bytes header boot.filesystem 0 data) boot.filesystem data [] = (chunks, []) ∧
      chunks.flatten = bytes.drop (0 * boot.filesystem.perBlock) ++ rest ∧ (boot.filesystem = .ofs → rest = []) ∧
      (boot.filesystem = .ffs → bytes.length + rest.length = (0 + data.length) * blockBytes) :=
    readChunks_written h.data_nodup (fun n hn => hcb ▸ (h.data_range n hn).2) (List.ne_nil_of_length_pos hpos)
      (by rw [Nat.zero_add]; exact hbounds.1) (by rw [Nat.zero_add]; exact hbounds.2)
  have hsame : readChunks fin boot.filesystem data [] = (chunks, []) := by
    rw [← hread]
    refine readChunks_same ?_ hdata
    rw [density_writeDataFrom, hd, hbefore]
  rw [Nat.zero_mul, List.drop_zero] at hflat
  have htotal : (chunks.map List.length).sum = bytes.length + rest.length := by
    rw [← List.length_flatten, hflat, List.length_append]
  have hsize : (fin.block header).be32 324 = bytes.length := by
    rw [hh.size]
    exact Nat.mod_eq_of_lt h.size_lt
  have hfile : (fin.block header).isFileHeader = true := by
    rw [Block.isFileHeader, hh.type, hh.secondary, hh.checksum]
    rfl
  have hbytes : chunks.flatten.take (min bytes.length (bytes.length + rest.length)) = bytes := by
    rw [hflat, Nat.min_eq_left (by omega), List.take_left]
  rw [readFile, hboot]
  simp only [readFileBytes, Adf.blockAt_of_lt (hc ▸ h.header_lt), hfile, Bool.not_true, Bool.false_eq_true, if_false,
    hcollect, hsame, hsize, htotal, hbytes]
  rw [if_neg (by omega), Nat.add_sub_cancel_left, decide_eq_true (Nat.le_add_right ..), Bool.true_and]
  by_cases hempty : bytes = [] ∧ boot.filesystem = .ffs
  · obtain ⟨rfl, hfs⟩ := hempty
    have hone : data.length = 1 := by
      rw [h.dataLength, hfs]
      rfl
    have hrest : rest.length = blockBytes := by
      have hr := hffs hfs
      rwa [hone, List.length_nil, Nat.zero_add, Nat.zero_add, Nat.one_mul] at hr
    rw [if_pos (Nat.le_of_eq hrest.symm), if_pos ⟨rfl, hfs⟩, hrest]
    rfl
  · have hrest : rest.length < blockBytes := by
      cases hfs : boot.filesystem with
      | ofs =>
        rw [hofs hfs]
        decide
      | ffs =>
        have hr := hffs hfs
        have hne : bytes.length ≠ 0 := fun h0 => hempty ⟨List.eq_nil_of_length_eq_zero h0, hfs⟩
        have hlo := hbounds.1
        have hd := h.dataLength
        rw [hfs] at hlo hd
        simp only [dataBlocks, Filesystem.perBlock, blockBytes] at hd hlo hr ⊢
        omega
    rw [if_neg (Nat.not_le.2 hrest), if_neg hempty]
    rfl

end Written

end WebAdf.Adffs
