import Mathlib
import WebAdf.Adffs.Allocation
import WebAdf.Adffs.Unlinked

/-!
# Renaming and moving keep a volume well formed

The entry is taken out of its chain, its header says another name or directory, and it
is linked in again where the new name belongs.
-/

namespace WebAdf.Adffs

open Lib

variable {adf mid out : Adf} {boot : BootInfo} {page : Nat}

-- ---------------------------------------------------------------------------
-- Checksums made good twice
-- ---------------------------------------------------------------------------

namespace Block

/-- A checksum in between does not show. -/
theorem reword_recheck (b : Block) (off v : Nat) : b.recheck.reword off v = b.reword off v := by
  have hbytes (i : Nat) (hi : i < 20 ∨ 24 ≤ i) : b.recheck.putBe32 off v i = b.putBe32 off v i := by
    by_cases hin : i < off ∨ off + 4 ≤ i
    · rw [putBe32_other hin, putBe32_other hin, recheck_other hi]
    · have hin : off ≤ i ∧ i < off + 4 := by omega
      rw [putBe32, putBe32, if_pos hin, if_pos hin]
  have hsum : (b.recheck.putBe32 off v).blockChecksum checksumWord = (b.putBe32 off v).blockChecksum checksumWord := by
    refine blockChecksum_congr fun i _ hne => be32_congr fun j hj hj' => hbytes j ?_
    rw [checksumWord] at hne
    omega
  have hword : checksumWord * 4 = 20 := rfl
  funext i
  change (b.recheck.putBe32 off v).putBe32 (checksumWord * 4) ((b.recheck.putBe32 off v).blockChecksum checksumWord) i =
    (b.putBe32 off v).putBe32 (checksumWord * 4) ((b.putBe32 off v).blockChecksum checksumWord) i
  rw [hsum, hword]
  by_cases hi : i < 20 ∨ 24 ≤ i
  · have hin := hbytes i hi
    rwa [← putBe32_other (b := b.recheck.putBe32 off v) (by omega), ← putBe32_other (b := b.putBe32 off v) (by omega)] at hin
  · have hin : 20 ≤ i ∧ i < 20 + 4 := by omega
    exact (if_pos hin).trans (if_pos hin).symm

end Block

theorem linkIntoDirectory_recheck {p e : Nat} (hne : e ≠ p) (he : e < mid.blockCount) (hp : p < mid.blockCount) :
    linkIntoDirectory (mid.recheck e) p e name intl = linkIntoDirectory mid p e name intl := by
  have hdir : (mid.recheck e).block p = mid.block p := Adf.block_modify_other hne.symm
  have he' : e < (mid.recheck e).blockCount := he
  have hp' : p < (mid.recheck e).blockCount := hp
  refine Adf.density_eq_ext ?_ fun n => ?_
  · rw [density_linkIntoDirectory, density_linkIntoDirectory, Adf.recheck, Adf.density_modify]
  by_cases hnp : n = p
  · rw [hnp, block_linkIntoDirectory_dir hne hp, block_linkIntoDirectory_dir hne hp', hdir]
  · by_cases hn : n = e
    · have hself : (mid.recheck e).block e = (mid.block e).recheck := Adf.block_modify_self he
      rw [hn, block_linkIntoDirectory_entry hne he hp, block_linkIntoDirectory_entry hne he' hp', hdir, hself,
        Block.reword_recheck]
    · rw [block_linkIntoDirectory_other hnp hn, block_linkIntoDirectory_other hnp hn]
      exact Adf.block_modify_other hn

-- ---------------------------------------------------------------------------
-- Another header
-- ---------------------------------------------------------------------------

/-- The header of the same entry under another name or in another directory. -/
structure Block.Rehead (b c : Block) (up : Nat) (name : Units) : Prop where
  type : c.be32 0 = b.be32 0
  secondary : c.be32 508 = b.be32 508
  parent : c.be32 500 = up
  name : c.entryName = name
  table : off + 4 ≤ 312 → 24 ≤ off → c.be32 off = b.be32 off
  next : c.be32 504 = b.be32 504

section Relink

variable {dir e up : Nat} {before after : List Nat} {name : Units} {f : Block → Block}

/-- The image the entry is linked in again. -/
def reheaded (adf : Adf) (boot : BootInfo) (dir e : Nat) (before : List Nat) (f : Block → Block) : Adf :=
  (unlinked adf boot dir e before).modify e f

theorem pointers_same {b c : Block} (h : ∀ off, 24 ≤ off → off + 4 ≤ 312 → c.be32 off = b.be32 off) : c.pointers = b.pointers := by
  have hmap : (List.range hashTableSize).map (fun i => c.be32 (24 + (hashTableSize - 1 - i) * 4)) =
      (List.range hashTableSize).map fun i => b.be32 (24 + (hashTableSize - 1 - i) * 4) := by
    refine List.map_congr_left fun i hi => h _ (by omega) ?_
    have hlt := List.mem_range.1 hi
    rw [hashTableSize] at hlt ⊢
    omega
  rw [Block.pointers, Block.pointers, hmap]

/-- The same with the entry's checksum made good, as it is once it is linked. -/
def checked (adf : Adf) (boot : BootInfo) (dir e : Nat) (before : List Nat) (f : Block → Block) : Adf :=
  (reheaded adf boot dir e before f).recheck e

theorem density_checked : (checked adf boot dir e before f).density = adf.density := by
  rw [checked, Adf.recheck, Adf.density_modify, reheaded, Adf.density_modify, density_unlinked]

theorem blockCount_reheaded : (reheaded adf boot dir e before f).blockCount = adf.blockCount := by
  rw [Adf.blockCount, reheaded, Adf.density_modify, density_unlinked, Adf.blockCount]

theorem block_checked_other (hn : n ≠ e) : (checked adf boot dir e before f).block n = (unlinked adf boot dir e before).block n := by
  rw [checked, Adf.recheck, Adf.block_modify_other hn, reheaded, Adf.block_modify_other hn]

theorem block_checked_self (hw : WellFormed adf boot page) (h : Stands adf boot dir e before after) :
    (checked adf boot dir e before f).block e = (f (adf.block e)).recheck := by
  have hlt : e < (reheaded adf boot dir e before f).blockCount := by
    rw [blockCount_reheaded]
    exact hw.lt h.self
  have hlt' : e < (unlinked adf boot dir e before).blockCount := by
    rw [Adf.blockCount, density_unlinked]
    exact hw.lt h.self
  rw [checked, Adf.recheck, Adf.block_modify_self hlt, reheaded, Adf.block_modify_self hlt', block_unlinked_self hw h]

theorem link_checked (hw : WellFormed adf boot page) (h : Stands adf boot dir e before after) (hup : Directory adf up) (hne : e ≠ up)
    (name : Units) : linkIntoDirectory (reheaded adf boot dir e before f) up e name boot.intl =
      linkIntoDirectory (checked adf boot dir e before f) up e name boot.intl := by
  obtain ⟨-, -, huplt, -⟩ := hw.directory_used hup
  refine (linkIntoDirectory_recheck hne ?_ ?_).symm
  · rw [blockCount_reheaded]
    exact hw.lt h.self
  · rw [blockCount_reheaded]
    exact huplt

theorem word_checked (hw : WellFormed adf boot page) (h : Stands adf boot dir e before after) (hoff : off + 4 ≤ 20 ∨ 24 ≤ off) :
    ((checked adf boot dir e before f).block e).be32 off = (f (adf.block e)).be32 off := by
  rw [block_checked_self hw h, Block.be32_recheck hoff]

theorem name_checked (hw : WellFormed adf boot page) (h : Stands adf boot dir e before after) :
    ((checked adf boot dir e before f).block e).entryName = (f (adf.block e)).entryName := by
  rw [block_checked_self hw h]
  exact Block.bcplString_congr fun i _ hi => Block.recheck_other (by omega)

theorem kind_checked (hw : WellFormed adf boot page) (h : Stands adf boot dir e before after)
    (hhead : Block.Rehead (adf.block e) (f (adf.block e)) up name) (x : Nat) :
    ((checked adf boot dir e before f).block x).i32 508 = (adf.block x).i32 508 := by
  refine Block.i32_congr ?_
  by_cases hxe : x = e
  · rw [hxe, word_checked hw h (by omega), hhead.secondary]
  · rw [block_checked_other hxe, (alike_unlinked hw h x).secondary]

theorem table_checked (hw : WellFormed adf boot page) (h : Stands adf boot dir e before after)
    (hhead : Block.Rehead (adf.block e) (f (adf.block e)) up name) (off : Nat) (hlo : 24 ≤ off) (hhi : off + 4 ≤ 312) :
    ((checked adf boot dir e before f).block e).be32 off = (adf.block e).be32 off :=
  (word_checked hw h (by omega)).trans (hhead.table hhi hlo)

/-- The tree without the entry still holds. -/
theorem holds_checked (hw : WellFormed adf boot page) (h : Stands adf boot dir e before after)
    (hhead : Block.Rehead (adf.block e) (f (adf.block e)) up name) :
    ((treeShape adf).without e).Holds (checked adf boot dir e before f) := by
  refine (holds_unlinked hw h).same (density_checked.trans density_unlinked.symm) (fun d s _ hs => ?_) fun d s x hx => ?_
  · rw [hashTableSize] at hs
    rw [Adf.slot, Adf.slot]
    by_cases hde : d = e
    · rw [hde, table_checked hw h hhead _ (by omega) (by omega), block_unlinked_self hw h]
    · rw [block_checked_other hde]
  · rw [block_checked_other (Shape.at_without.1 hx).2]
    exact ⟨rfl, rfl⟩

/-- An entry taken out, given another header and linked in where that belongs. -/
theorem WellFormed.relinked (hw : WellFormed adf boot page) (h : Stands adf boot dir e before after) (hup : Directory adf up)
    (hne : e ≠ up) (hhead : Block.Rehead (adf.block e) (f (adf.block e)) up name)
    (hfree : ∀ x, Entry adf up x → x ≠ e → sameName (adf.block x).entryName name boot.intl = false) :
    WellFormed (linkIntoDirectory (reheaded adf boot dir e before f) up e name boot.intl) boot page := by
  have he := h.self
  obtain ⟨hereserved, heused⟩ := hw.entry_held he
  obtain ⟨heroot, hepage, hege, helt⟩ := Adf.isReserved_iff.1 hereserved
  rw [link_checked hw h hup hne]
  have hself := block_checked_self (f := f) hw h
  have hkind := kind_checked hw h hhead
  have htable := table_checked hw h hhead
  have hS := holds_checked hw h hhead
  have hword {off : Nat} (hoff : off + 4 ≤ 20 ∨ 24 ≤ off) := word_checked (f := f) hw h hoff
  have hname := (name_checked (f := f) hw h).trans hhead.name
  have hd : (checked adf boot dir e before f).density = adf.density := density_checked
  have hother {n : Nat} (hn : n ≠ e) :
      (checked adf boot dir e before f).block n = (unlinked adf boot dir e before).block n := block_checked_other hn
  generalize checked adf boot dir e before f = mid at *
  have hbits (n : Nat) : mid.isFreeAt page n = adf.isFreeAt page n :=
    (isFreeAt_same (by rw [hd, density_unlinked]) (hother hepage.symm) n).trans (isFreeAt_unlinked hw h n)
  have hbody {d x n : Nat} (hx : Entry adf d x) (hn : n ∈ owned adf x) (hnx : n ≠ x) :
      mid.block n = (unlinked adf boot dir e before).block n := by
    obtain ⟨-, -, -, hsole⟩ := hw.body_apart hx hn hnx
    refine hother ?_
    rintro rfl
    exact hnx (hsole dir _ he (WellFormed.mem_owned_self adf _))
  have howned : owned mid e = owned adf e := by
    refine owned_same hd ((hword (by omega)).trans hhead.secondary) (fun _ => ⟨pointers_same htable, (hword (by omega)).trans hhead.next⟩) fun n hn hne' => ?_
    rw [hbody he hn hne', (kept_unlinked hw h he).rest n hn hne']
  have hbase : Base mid boot page := by
    have hroot : (unlinked adf boot dir e before).rootBlock = adf.rootBlock := by
      rw [Adf.rootBlock, density_unlinked, Adf.rootBlock]
    have hege0 : e ≠ 0 := by
      rintro rfl
      exact absurd hege (by decide)
    refine (base_unlinked hw h).after (hd.trans density_unlinked.symm) (hother hege0.symm) ?_ ?_ ?_ fun n => ?_
    · rw [hroot, hother heroot.symm]
      exact .refl _
    · rw [hroot, hother heroot.symm]
    · rw [hroot, hother heroot.symm]
    · rw [hbits, isFreeAt_unlinked hw h]
  refine hw.linked hup hd hbase hS hup (fun hdir => ?_) (fun d s hx => (Shape.at_without.1 hx).2 rfl) (fun d s x hx => ?_)
    ?_ ?_ hne
  · exact he.directory ((hkind e).symm.trans hdir)
  · obtain ⟨hat, hxe⟩ := Shape.at_without.1 hx
    have hp := hw.at_treeShape.1 hat
    refine ⟨hp, (kept_unlinked hw h hp.entry).after ?_ (fun n hn hnx => hbody hp.entry hn hnx) fun n _ => ?_⟩
    · rw [hother hxe]
      exact .refl _
    · rw [hbits, isFreeAt_unlinked hw h]
  · rw [hkind]
    exact hw.dir_kind hup
  · refine ⟨⟨?_, (hword (by omega)).trans hhead.parent, by rw [hname], fun n hn => ?_, ?_⟩, fun x hx hxe => ?_,
      fun d x hx hxe n hn hn' => ?_⟩
    · have hentry := hw.entry he
      simp only [Block.isEntry, Bool.and_eq_true, Bool.or_eq_true, beq_iff_eq] at hentry ⊢
      refine ⟨⟨(hword (by omega)).trans (hhead.type.trans hentry.1.1), ?_⟩, ?_⟩
      · rw [hself]
        exact Block.checksumOk_recheck _
      · rw [hkind]
        exact hentry.2
    · rw [howned] at hn
      obtain ⟨hr, hu⟩ := hw.held he hn
      refine ⟨?_, (hbits n).trans hu⟩
      rw [Adf.isReserved, Adf.rootBlock, Adf.blockCount, hd]
      exact hr
    · rw [howned]
      exact hw.once he
    · rw [hname]
      exact hfree x hx hxe
    · rw [howned] at hn'
      exact hxe (hw.owner hx he hn hn')

/-- A directory that stays in its own directory takes nothing out of reach. -/
theorem WellFormed.relinked_reach (hw : WellFormed adf boot page) (h : Stands adf boot dir e before after)
    (hhead : Block.Rehead (adf.block e) (f (adf.block e)) dir name) (hd : Directory adf d) :
    Directory (linkIntoDirectory (reheaded adf boot dir e before f) dir e name boot.intl) d := by
  have he := h.self
  have hne := hw.ne_dir he
  obtain ⟨-, -, hlt, -⟩ := hw.directory_used h.directory
  obtain ⟨hr, -⟩ := hw.entry_held he
  obtain ⟨-, -, hege, helt⟩ := Adf.isReserved_iff.1 hr
  have hcount : (checked adf boot dir e before f).blockCount = adf.blockCount := by
    rw [Adf.blockCount, density_checked, Adf.blockCount]
  have helt : e < (checked adf boot dir e before f).blockCount := hcount.symm ▸ helt
  have hlt : dir < (checked adf boot dir e before f).blockCount := hcount.symm ▸ hlt
  have hkind := kind_checked hw h hhead
  have hdirkind : ((checked adf boot dir e before f).block dir).i32 508 ≠ stFile := by
    rw [hkind]
    exact hw.dir_kind h.directory
  have hzero : e ≠ 0 := by
    rintro rfl
    exact absurd hege (by decide)
  have hS := (holds_checked hw h hhead).link name (fun hdir => he.directory ((hkind e).symm.trans hdir))
    (fun d s hx => (Shape.at_without.1 hx).2 rfl) hne hzero helt hlt hdirkind boot.intl
  rw [link_checked hw h h.directory hne]
  have hdens : (linkIntoDirectory (checked adf boot dir e before f) dir e name boot.intl).density = adf.density :=
    (density_linkIntoDirectory ..).trans density_checked
  refine hd.reach hS hdens fun d x hdx hc hxdir => ?_
  have hx : Entry adf d x := ⟨hdx, hc⟩
  have hout := (alike_link name hne helt hlt hdirkind boot.intl x).kind.trans ((hkind x).trans hxdir)
  by_cases hxe : x = e
  · subst hxe
    obtain rfl := hw.parent_unique hx he
    exact ⟨_, Shape.at_link_new hdx (nameHash_lt name boot.intl), hout⟩
  · obtain ⟨s, hs⟩ := hx.placed
    exact ⟨s, Shape.at_link_old (Shape.at_without.2 ⟨hw.at_treeShape.2 hs, hxe⟩), hout⟩

end Relink

-- ---------------------------------------------------------------------------
-- Renaming
-- ---------------------------------------------------------------------------

namespace WellFormed

theorem entryIn_eq (hw : WellFormed adf boot page) (he : Entry adf dir e) : entryIn adf dir e = some (adf.block e) := by
  rw [entryIn, Adf.blockAt_of_lt (hw.lt he), Option.filter_some_pos]
  rw [hw.entry he, hw.parent he, Bool.true_and, beq_self_eq_true]

/-- A volume's bitmap is there for the operations. -/
theorem bitmapPage_ne (hw : WellFormed adf boot page) : adf.bitmapPage ≠ none := by
  rw [hw.bitmap]
  exact Option.some_ne_none page

end WellFormed

theorem rehead_putName {b : Block} (hlen : newName.length ≤ nameMax) (hplain : ∀ u ∈ newName, Block.Plain u) :
    Block.Rehead b ((b.fill 0 432 463).putName newName) (b.be32 500) newName where
  type := by rw [Block.be32_putName (by omega), Block.be32_fill_other (by omega)]
  secondary := by rw [Block.be32_putName (by omega), Block.be32_fill_other (by omega)]
  parent := by rw [Block.be32_putName (by omega), Block.be32_fill_other (by omega)]
  name := by
    rw [nameMax] at hlen
    exact Block.bcplString_put (by decide) (by decide) hlen hplain (Block.putName_length_byte hlen)
      fun i hi => Block.putName_byte hlen hi
  table hhi _ := by rw [Block.be32_putName (by omega), Block.be32_fill_other (by omega)]
  next := by rw [Block.be32_putName (by omega), Block.be32_fill_other (by omega)]

/-- What `renameEntry` gives on a well-formed volume. -/
theorem renameEntry_eq (hw : WellFormed adf boot page) (h : Stands adf boot dir e before after) (newName : Units) :
    renameEntry adf dir e newName =
      if badName newName = true then .error .nameTooLong
      else if entryNamed adf dir newName boot.intl (some e) = true then .error .nameExists
      else .ok (linkIntoDirectory (reheaded adf boot dir e before fun b => (b.fill 0 432 463).putName newName) dir e newName
        boot.intl) := by
  rw [renameEntry, hw.volume, hw.entryIn_eq h.self]
  by_cases hbad : badName newName = true
  · rw [if_pos hbad, refuse_pos hbad, error_bind]
  · rw [if_neg hbad, refuse_neg hbad]
    simp only [ok_bind, need_some, refuse_neg hw.bitmapPage_ne, hw.predecessorOf_eq h]
    by_cases hnamed : entryNamed adf dir newName boot.intl (some e) = true
    · rw [if_pos hnamed, refuse_pos hnamed, error_bind]
    · rw [if_neg hnamed, refuse_neg hnamed, ok_bind, reheaded, unlinked]
      exact pure_ok.2 rfl

/-- Renaming to a name that is stored as it is. -/
theorem renameEntry_wellFormed (hw : WellFormed adf boot page) (he : Entry adf dir e)
    (h : renameEntry adf dir e newName = .ok out) (hplain : ∀ u ∈ newName, Block.Plain u) : WellFormed out boot page := by
  obtain ⟨before, after, hs⟩ := hw.stands he
  rw [renameEntry_eq hw hs] at h
  by_cases hbad : badName newName = true
  · rw [if_pos hbad] at h
    cases h
  · by_cases hnamed : entryNamed adf dir newName boot.intl (some e) = true
    · rw [if_neg hbad, if_pos hnamed] at h
      cases h
    · rw [if_neg hbad, if_neg hnamed] at h
      obtain rfl := Except.ok.inj h
      have hlen := (not_badName (eq_false_of_ne_true hbad)).2
      refine hw.relinked hs hs.directory (hw.ne_dir he) ?_ fun x hx hxe => ?_
      · rw [← hw.parent he]
        exact rehead_putName hlen hplain
      · exact hw.name_free hs.directory (eq_false_of_ne_true hnamed) hx fun heq => hxe (Option.some.inj heq)

-- ---------------------------------------------------------------------------
-- Moving
-- ---------------------------------------------------------------------------

theorem rehead_move (b : Block) (hup : up < 2 ^ 32) : Block.Rehead b ((b.putBe32 500 up).putBe32 496 0) up b.entryName where
  type := by rw [Block.be32_putBe32_other (by omega), Block.be32_putBe32_other (by omega)]
  secondary := by rw [Block.be32_putBe32_other (by omega), Block.be32_putBe32_other (by omega)]
  parent := by rw [Block.be32_putBe32_other (by omega), Block.be32_putBe32, Nat.mod_eq_of_lt hup]
  name := Block.bcplString_congr fun i _ hi => by
    rw [nameMax] at hi
    rw [Block.putBe32_other (by omega), Block.putBe32_other (by omega)]
  table hhi _ := by rw [Block.be32_putBe32_other (by omega), Block.be32_putBe32_other (by omega)]
  next := by rw [Block.be32_putBe32_other (by omega), Block.be32_putBe32_other (by omega)]

/-- A directory's header passes the checks on a destination. -/
theorem WellFormed.dest_ok (hw : WellFormed adf boot page) (hd : Directory adf d) :
    ¬ ((adf.block d).be32 0 ≠ tHeader ∨ (adf.block d).checksumOk checksumWord = false) ∧
      ¬ (d ≠ adf.rootBlock ∧ (adf.block d).i32 508 ≠ stUserdir) := by
  rcases WellFormed.directory_cases hd with rfl | ⟨up, hup, hdir⟩
  · rw [hw.rootType, hw.rootChecksum]
    exact ⟨by simp, fun h => h.1 rfl⟩
  · have hentry := hw.entry hup
    simp only [Block.isEntry, Bool.and_eq_true, beq_iff_eq] at hentry
    rw [hentry.1.1, hentry.1.2]
    exact ⟨by simp, fun h => h.2 hdir⟩

theorem modify_modify (adf : Adf) (n : Nat) (f g : Block → Block) : (adf.modify n f).modify n g = adf.modify n fun b => g (f b) := by
  refine Adf.density_eq_ext (by rw [Adf.density_modify, Adf.density_modify, Adf.density_modify]) fun i => ?_
  by_cases hi : i = n ∧ n < adf.blockCount
  · obtain ⟨rfl, hlt⟩ := hi
    have hlt' : i < (adf.modify i f).blockCount := hlt
    rw [Adf.block_modify_self hlt', Adf.block_modify_self hlt, Adf.block_modify_self hlt]
  · have hi' : ¬ (i = n ∧ n < (adf.modify n f).blockCount) := hi
    exact (if_neg hi').trans ((if_neg hi).trans (if_neg hi).symm)

/-- What `moveEntry` gives on a well-formed volume. -/
theorem moveEntry_eq (hw : WellFormed adf boot page) (h : Stands adf boot dir e before after) (hup : Directory adf up) :
    moveEntry adf dir e up =
      if up = dir then .ok adf
      else if e ∈ ancestryOf adf up then .error .cycle
      else if entryNamed adf up (adf.block e).entryName boot.intl none = true then .error .nameExists
      else .ok (linkIntoDirectory (reheaded adf boot dir e before fun b => (b.putBe32 500 up).putBe32 496 0) up e
        (adf.block e).entryName boot.intl) := by
  obtain ⟨-, -, huplt, -⟩ := hw.directory_used hup
  obtain ⟨hheader, hkind⟩ := hw.dest_ok hup
  rw [moveEntry, hw.volume, hw.entryIn_eq h.self, Adf.blockAt_of_lt huplt]
  simp only [ok_bind, need_some, refuse_neg hw.bitmapPage_ne]
  by_cases hsame : up = dir
  · rw [if_pos hsame, if_pos hsame]
    exact pure_ok.2 rfl
  · rw [if_neg hsame, if_neg hsame, refuse_neg hheader, refuse_neg hkind]
    simp only [ok_bind]
    by_cases hcycle : e ∈ ancestryOf adf up
    · rw [if_pos hcycle, refuse_pos hcycle, error_bind]
    · rw [if_neg hcycle, refuse_neg hcycle, ok_bind, hw.predecessorOf_eq h]
      by_cases hnamed : entryNamed adf up (adf.block e).entryName boot.intl none = true
      · rw [if_pos hnamed]
        rw [Block.entryName] at hnamed
        rw [refuse_pos hnamed, error_bind]
      · rw [if_neg hnamed]
        rw [Block.entryName] at hnamed
        rw [refuse_neg hnamed, ok_bind, need_some, ok_bind, Adf.putBe32, Adf.putBe32, modify_modify, reheaded, unlinked]
        exact pure_ok.2 rfl

theorem mem_ancestryOf_self (hne : n ≠ 0) : n ∈ ancestryOf adf n := by
  rw [ancestryOf, ancestryFrom, if_neg (by simp [hne])]
  have hmem (fuel cur : Nat) (chain : List Nat) (h : n ∈ chain) : n ∈ ancestryFrom adf fuel cur chain := by
    induction fuel generalizing cur chain with
    | zero => exact h
    | succ fuel ih =>
      rw [ancestryFrom]
      split
      · exact h
      · split
        · exact List.mem_append_left _ h
        · exact ih _ _ (List.mem_append_left _ h)
  split
  · simp
  · exact hmem _ _ _ (by simp)

/-- Moving into a directory of the volume. -/
theorem moveEntry_wellFormed (hw : WellFormed adf boot page) (he : Entry adf dir e) (hup : Directory adf up)
    (h : moveEntry adf dir e up = .ok out) : WellFormed out boot page := by
  obtain ⟨before, after, hs⟩ := hw.stands he
  obtain ⟨-, -, huplt, hupge⟩ := hw.directory_used hup
  rw [moveEntry_eq hw hs hup] at h
  by_cases hsame : up = dir
  · rw [if_pos hsame] at h
    rw [← Except.ok.inj h]
    exact hw
  · by_cases hcycle : e ∈ ancestryOf adf up
    · rw [if_neg hsame, if_pos hcycle] at h
      cases h
    · by_cases hnamed : entryNamed adf up (adf.block e).entryName boot.intl none = true
      · rw [if_neg hsame, if_neg hcycle, if_pos hnamed] at h
        cases h
      · rw [if_neg hsame, if_neg hcycle, if_neg hnamed] at h
        obtain rfl := Except.ok.inj h
        refine hw.relinked hs hup ?_ (rehead_move _ (Nat.lt_trans huplt adf.blockCount_lt)) fun x hx _ => ?_
        · rintro rfl
          rw [bitmapFirstBlock] at hupge
          exact hcycle (mem_ancestryOf_self (by omega))
        · exact hw.name_free hup (eq_false_of_ne_true hnamed) hx (Option.some_ne_none _)

end WebAdf.Adffs
