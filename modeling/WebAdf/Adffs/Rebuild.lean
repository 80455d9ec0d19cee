import WebAdf.Adffs.LinkLaws
import WebAdf.Adffs.TreeWalk

/-!
# A volume after one entry has changed

Every operation leaves a volume whose entries are old ones in their old places, but
for one. What has to be shown of it is that the chains hold these, that the old ones
still look the same, and that the one entry is sound and in nobody's way.
-/

namespace WebAdf.Adffs

open Lib

variable {adf out : Adf} {boot : BootInfo} {page : Nat}

-- ---------------------------------------------------------------------------
-- Entries that look the same
-- ---------------------------------------------------------------------------

/-- A header that says the same of its entry; a directory's slots are its own affair. -/
structure Block.Alike (b c : Block) : Prop where
  type : c.be32 0 = b.be32 0
  secondary : c.be32 508 = b.be32 508
  checksum : b.checksumOk checksumWord = true → c.checksumOk checksumWord = true
  parent : c.be32 500 = b.be32 500
  name : c.entryName = b.entryName
  pointers : b.i32 508 = stFile → c.pointers = b.pointers
  next : c.be32 504 = b.be32 504

namespace Block

variable {b c : Block}

theorem Alike.refl (b : Block) : b.Alike b := ⟨rfl, rfl, id, rfl, rfl, fun _ => rfl, rfl⟩

theorem Alike.trans {d : Block} (h : b.Alike c) (h' : c.Alike d) : b.Alike d where
  type := h'.type.trans h.type
  secondary := h'.secondary.trans h.secondary
  checksum hb := h'.checksum (h.checksum hb)
  parent := h'.parent.trans h.parent
  name := h'.name.trans h.name
  pointers hf := (h'.pointers ((i32_congr h.secondary).trans hf)).trans (h.pointers hf)
  next := h'.next.trans h.next

theorem Alike.kind (h : b.Alike c) : c.i32 508 = b.i32 508 := i32_congr h.secondary

theorem Alike.isEntry (h : b.Alike c) (hb : b.isEntry = true) : c.isEntry = true := by
  simp only [Block.isEntry, Bool.and_eq_true, Bool.or_eq_true, beq_iff_eq] at hb ⊢
  rw [h.type, h.kind]
  exact ⟨⟨hb.1.1, h.checksum hb.1.2⟩, hb.2⟩

/-- One word changed where nothing of this is written. -/
theorem alike_reword (hoff : off = 496 ∨ 24 ≤ off ∧ off + 4 ≤ 312 ∧ b.i32 508 ≠ stFile) (v : Nat) :
    b.Alike (b.reword off v) where
  type := be32_reword_other (by omega) (by omega)
  secondary := be32_reword_other (by omega) (by omega)
  checksum _ := checksumOk_reword b off v
  parent := be32_reword_other (by omega) (by omega)
  name := bcplString_congr fun i _ hi => by
    rw [nameMax] at hi
    exact reword_other (by omega) (by omega)
  pointers hf := by
    rcases hoff with rfl | ⟨-, -, hdir⟩
    · exact pointers_congr fun i _ _ => reword_other (by omega) (by omega)
    · exact absurd hf hdir
  next := be32_reword_other (by omega) (by omega)

end Block

theorem extensions_collectFrom (adf : Adf) (fuel cur : Nat) (isHeader : Bool) (seen : List Nat) (got : FileBlocks)
    (ws : List Warning) : got.extensions ⊆ (collectFrom adf fuel cur isHeader seen got ws).1.extensions := by
  induction fuel generalizing cur isHeader seen got ws with
  | zero => exact List.Subset.refl _
  | succ fuel ih =>
    rw [collectFrom]
    cases adf.blockAt cur with
    | none => exact List.Subset.refl _
    | some b =>
      have hgot : got.extensions ⊆ got.extensions ++ if isHeader then [] else [cur] := List.subset_append_left _ _
      dsimp only
      split
      · exact hgot
      · split
        · exact hgot
        · split
          · exact hgot
          · exact List.Subset.trans hgot (ih (b.be32 504) false (seen ++ [b.be32 504])
            ⟨got.data ++ b.pointers.take (adf.blockCount - got.data.length), _⟩ ws)

theorem mem_collectFrom (hcur : cur < adf.blockCount) :
    cur ∈ (collectFrom adf (fuel + 1) cur false seen got ws).1.extensions := by
  rw [collectFrom, Adf.blockAt_of_lt hcur]
  have hgot : cur ∈ got.extensions ++ [cur] := List.mem_append_right _ (List.mem_singleton_self cur)
  dsimp only
  split
  · exact hgot
  · split
    · exact hgot
    · split
      · exact hgot
      · exact extensions_collectFrom _ _ _ _ _ _ _ hgot

/-- A pointer table that says the same. -/
def Block.SameTable (b c : Block) : Prop := c.pointers = b.pointers ∧ c.be32 504 = b.be32 504

/-- A chain of tables is the same where each table on it is. -/
theorem collectFrom_same (hd : out.density = adf.density)
    (hcur : cur < adf.blockCount → (adf.block cur).SameTable (out.block cur))
    (hexts : ∀ n ∈ (collectFrom adf fuel cur isHeader seen got ws).1.extensions, (adf.block n).SameTable (out.block n)) :
    collectFrom out fuel cur isHeader seen got ws = collectFrom adf fuel cur isHeader seen got ws := by
  have hcount : out.blockCount = adf.blockCount := by rw [Adf.blockCount, hd, Adf.blockCount]
  induction fuel generalizing cur isHeader seen got ws with
  | zero => rfl
  | succ fuel ih =>
    by_cases hlt : cur < adf.blockCount
    · obtain ⟨hp, hnext⟩ := hcur hlt
      rw [collectFrom, Adf.blockAt_of_lt hlt] at hexts
      rw [collectFrom, collectFrom, Adf.blockAt_of_lt hlt, Adf.blockAt_of_lt (hcount ▸ hlt)]
      dsimp only at hexts ⊢
      rw [hp, hnext, hcount]
      split
      · rfl
      · rename_i hroom
        rw [if_neg hroom] at hexts
        split
        · rfl
        · rename_i hzero
          rw [if_neg hzero] at hexts
          split
          · rfl
          · rename_i hseen
            rw [if_neg hseen] at hexts
            cases fuel with
            | zero => rfl
            | succ fuel => exact ih (fun hin => hexts _ (mem_collectFrom hin)) hexts
    · rw [collectFrom, collectFrom, Adf.blockAt, Adf.blockAt, hcount, if_neg hlt, if_neg hlt]

theorem collectFileBlocks_same (hd : out.density = adf.density) (hx : (adf.block x).SameTable (out.block x))
    (hexts : ∀ n ∈ (collectFileBlocks adf x []).1.extensions, n ≠ x → out.block n = adf.block n) :
    collectFileBlocks out x [] = collectFileBlocks adf x [] := by
  have hcount : out.blockCount = adf.blockCount := by rw [Adf.blockCount, hd, Adf.blockCount]
  rw [collectFileBlocks, collectFileBlocks, hcount]
  refine collectFrom_same hd (fun _ => hx) fun n hn => ?_
  by_cases hnx : n = x
  · exact hnx ▸ hx
  · rw [hexts n hn hnx]
    exact ⟨rfl, rfl⟩

/-- An entry owns the same blocks where its header's table is the same and the rest is
untouched. -/
theorem owned_same (hd : out.density = adf.density) (hkind : (out.block x).be32 508 = (adf.block x).be32 508)
    (htable : (adf.block x).i32 508 = stFile → (adf.block x).SameTable (out.block x))
    (hrest : ∀ n ∈ owned adf x, n ≠ x → out.block n = adf.block n) : owned out x = owned adf x := by
  have hkind := Block.i32_congr hkind
  by_cases hf : (adf.block x).i32 508 = stFile
  · have hf' : (out.block x).i32 508 = stFile := hkind.trans hf
    rw [owned, if_pos hf] at hrest
    rw [owned, owned, if_pos hf, if_pos hf', fileBlocks, fileBlocks,
      collectFileBlocks_same hd (htable hf) fun n hn => hrest n (List.mem_append_right _ hn)]
  · have hf' : (out.block x).i32 508 ≠ stFile := fun h => hf (hkind.symm.trans h)
    rw [owned, owned, if_neg hf, if_neg hf']

theorem Block.Alike.owned (hx : (adf.block x).Alike (out.block x)) (hd : out.density = adf.density)
    (hrest : ∀ n ∈ owned adf x, n ≠ x → out.block n = adf.block n) : owned out x = owned adf x :=
  owned_same hd hx.secondary (fun hf => ⟨hx.pointers hf, hx.next⟩) hrest

-- ---------------------------------------------------------------------------
-- The changed volume
-- ---------------------------------------------------------------------------

/-- An entry of a directory, by the slot its chain starts in. -/
def Placed (adf : Adf) (dir slot e : Nat) : Prop :=
  Directory adf dir ∧ slot < hashTableSize ∧ ∃ l, Chain adf (adf.slot dir slot) l ∧ e ∈ l

theorem Placed.entry (h : Placed adf dir slot e) : Entry adf dir e := by
  obtain ⟨hd, hslot, l, hl, he⟩ := h
  exact ⟨hd, slot, l, hslot, hl, he⟩

theorem Entry.placed (h : Entry adf dir e) : ∃ slot, Placed adf dir slot e := by
  obtain ⟨hd, slot, l, hslot, hl, he⟩ := h
  exact ⟨slot, hd, hslot, l, hl, he⟩

/-- What a volume is besides its tree. -/
structure Base (adf : Adf) (boot : BootInfo) (page : Nat) : Prop where
  volume : adf.readBoot = some boot
  rootType : (adf.block adf.rootBlock).be32 0 = tHeader
  rootSecondary : (adf.block adf.rootBlock).i32 508 = stRoot
  rootChecksum : (adf.block adf.rootBlock).checksumOk checksumWord = true
  bitmap : adf.Trusted page
  rootUsed : adf.isFreeAt page adf.rootBlock = false

theorem WellFormed.base (hw : WellFormed adf boot page) : Base adf boot page :=
  ⟨hw.volume, hw.rootType, hw.rootSecondary, hw.rootChecksum, hw.trusted, hw.rootUsed⟩

/-- An entry as it has to be. -/
structure Sound (adf : Adf) (boot : BootInfo) (page dir slot e : Nat) : Prop where
  entry : (adf.block e).isEntry = true
  parent : (adf.block e).be32 500 = dir
  bucket : nameHash (adf.block e).entryName boot.intl = slot
  held : ∀ n ∈ owned adf e, adf.Held page n
  once : (owned adf e).Nodup

theorem WellFormed.sound (hw : WellFormed adf boot page) (h : Placed adf dir slot e) : Sound adf boot page dir slot e where
  entry := hw.entry h.entry
  parent := hw.parent h.entry
  bucket := by
    obtain ⟨hd, hslot, l, hl, he⟩ := h
    exact hw.bucket hd hslot hl he
  held _ hn := hw.held h.entry hn
  once := hw.once h.entry

/-- The directories and what their slots hold, as an operation leaves them. -/
structure Shape where
  dirs : Nat → Prop
  chain : Nat → Nat → List Nat

/-- An entry is in one of the chains. -/
def Shape.At (S : Shape) (dir slot e : Nat) : Prop := S.dirs dir ∧ slot < hashTableSize ∧ e ∈ S.chain dir slot

/-- The chains are there, from the root on. -/
structure Shape.Holds (S : Shape) (adf : Adf) : Prop where
  root : S.dirs adf.rootBlock
  chain : S.dirs dir → slot < hashTableSize → Chain adf (adf.slot dir slot) (S.chain dir slot)
  closed : S.At dir slot e → adf.isDir e → S.dirs e

theorem Shape.Holds.directory {S : Shape} (h : S.Holds adf) (hd : Directory adf dir) : S.dirs dir := by
  induction hd with
  | root => exact h.root
  | inside _ hc he ih =>
    obtain ⟨slot, l, hslot, hl, hmem⟩ := hc
    rw [hl.unique (h.chain ih hslot)] at hmem
    exact h.closed ⟨ih, hslot, hmem⟩ he

theorem Shape.Holds.at_of_placed {S : Shape} (h : S.Holds adf) (hp : Placed adf dir slot e) : S.At dir slot e := by
  obtain ⟨hd, hslot, l, hl, he⟩ := hp
  have hdir := h.directory hd
  rw [hl.unique (h.chain hdir hslot)] at he
  exact ⟨hdir, hslot, he⟩

/-- Directories are reached as before where each is still in a chain of its directory. -/
theorem Directory.reach {S : Shape} (hS : S.Holds out) (hd : out.density = adf.density)
    (hin : ∀ d x, Directory adf d → Child adf d x → adf.isDir x → ∃ s, S.At d s x ∧ out.isDir x) (h : Directory adf d) :
    Directory out d := by
  induction h with
  | root =>
    have hr : out.rootBlock = adf.rootBlock := by rw [Adf.rootBlock, hd, Adf.rootBlock]
    rw [← hr]
    exact .root
  | inside hdir hc he ih =>
    obtain ⟨s, ⟨hSd, hs, hx⟩, hxdir⟩ := hin _ _ hdir hc he
    exact .inside ih ⟨s, _, hs, hS.chain hSd hs, hx⟩ hxdir

/-- An old entry in its old place that nothing has touched. -/
structure Kept (adf out : Adf) (page x : Nat) : Prop where
  alike : (adf.block x).Alike (out.block x)
  rest : ∀ n ∈ owned adf x, n ≠ x → out.block n = adf.block n
  used : ∀ n ∈ owned adf x, out.isFreeAt page n = false

namespace Kept

theorem same_owned (h : Kept adf out page x) (hd : out.density = adf.density) : owned out x = owned adf x :=
  h.alike.owned hd h.rest

theorem sound (h : Kept adf out page x) (hd : out.density = adf.density) (hs : Sound adf boot page dir slot x) :
    Sound out boot page dir slot x where
  entry := h.alike.isEntry hs.entry
  parent := h.alike.parent.trans hs.parent
  bucket := (congrArg (nameHash · boot.intl) h.alike.name).trans hs.bucket
  held n hn := by
    rw [h.same_owned hd] at hn
    have hreserved : out.isReserved page n = adf.isReserved page n := by
      rw [Adf.isReserved, Adf.isReserved, Adf.rootBlock, Adf.blockCount, hd, Adf.rootBlock, Adf.blockCount]
    exact ⟨hreserved.trans (hs.held n hn).1, h.used n hn⟩
  once := (h.same_owned hd).symm ▸ hs.once

end Kept

/-- What has to be shown of the one entry that is not as it was, in the directory `p`. -/
structure Fits (adf out : Adf) (boot : BootInfo) (page p slot e : Nat) : Prop where
  sound : Sound out boot page p slot e
  name : ∀ x, Entry adf p x → x ≠ e →
    sameName (adf.block x).entryName (out.block e).entryName boot.intl = false
  apart : ∀ d x, Entry adf d x → x ≠ e → ∀ n ∈ owned adf x, n ∉ owned out e

theorem sameName_symm (a b : Units) (intl : Bool) : sameName a b intl = sameName b a intl := by
  rw [sameName, sameName, Bool.eq_iff_iff, beq_iff_eq, beq_iff_eq, eq_comm]

/-- With the old entries kept and the one that is not as it was in nobody's way, the
volume is well formed. -/
theorem WellFormed.rebuild (hw : WellFormed adf boot page) (hd : out.density = adf.density) (hbase : Base out boot page)
    {S : Shape} (hS : S.Holds out)
    (hold : ∀ d s x, S.At d s x → x ≠ e → Placed adf d s x ∧ Kept adf out page x)
    (hnew : ∀ d s, S.At d s e → Fits adf out boot page d s e) : WellFormed out boot page := by
  have hsound (d s x : Nat) (hx : S.At d s x) : Sound out boot page d s x := by
    by_cases hxe : x = e
    · exact hxe ▸ (hnew d s (hxe ▸ hx)).sound
    · obtain ⟨hp, hk⟩ := hold d s x hx hxe
      exact hk.sound hd (hw.sound hp)
  -- what the one entry has not in common with an old one
  have hnames (d x s s' : Nat) (hx : S.At d s x) (he : S.At d s' e) (hxe : x ≠ e) :
      sameName (out.block x).entryName (out.block e).entryName boot.intl = false := by
    obtain ⟨hp, hk⟩ := hold d s x hx hxe
    rw [hk.alike.name]
    exact (hnew d s' he).name x hp.entry hxe
  have hapart (d d' x s s' n : Nat) (hx : S.At d s x) (he : S.At d' s' e) (hxe : x ≠ e) (hn : n ∈ owned out x)
      (hn' : n ∈ owned out e) : False := by
    obtain ⟨hp, hk⟩ := hold d s x hx hxe
    rw [hk.same_owned hd] at hn
    exact (hnew d' s' he).apart d x hp.entry hxe n hn hn'
  have hat {d x : Nat} (hx : Entry out d x) : ∃ s, S.At d s x := by
    obtain ⟨s, hp⟩ := hx.placed
    exact ⟨s, hS.at_of_placed hp⟩
  refine
    { volume := hbase.volume, rootType := hbase.rootType, rootSecondary := hbase.rootSecondary,
      rootChecksum := hbase.rootChecksum, bitmap := Adf.bitmapPage_iff.2 hbase.bitmap, rootUsed := hbase.rootUsed,
      chain := fun hdir hslot => ⟨_, hS.chain (hS.directory hdir) hslot⟩
      entry := fun hx => ?_, parent := fun hx => ?_, bucket := fun hdir hslot hl hx => ?_
      names := fun hx hy hsame => ?_, held := fun hx hn => ?_, owner := fun hx hy hn hn' => ?_, once := fun hx => ?_ }
  · obtain ⟨s, hs⟩ := hat hx
    exact (hsound _ _ _ hs).entry
  · obtain ⟨s, hs⟩ := hat hx
    exact (hsound _ _ _ hs).parent
  · exact (hsound _ _ _ (hS.at_of_placed ⟨hdir, hslot, _, hl, hx⟩)).bucket
  · rename_i d x y
    obtain ⟨s, hs⟩ := hat hx
    obtain ⟨s', hs'⟩ := hat hy
    by_cases hxe : x = e
    · subst hxe
      by_contra hne
      rw [sameName_symm, hnames d y s' s hs' hs (Ne.symm hne)] at hsame
      cases hsame
    · by_cases hye : y = e
      · subst hye
        rw [hnames d x s s' hs hs' hxe] at hsame
        cases hsame
      · obtain ⟨hp, hk⟩ := hold d s x hs hxe
        obtain ⟨hp', hk'⟩ := hold d s' y hs' hye
        rw [hk.alike.name, hk'.alike.name] at hsame
        exact hw.names hp.entry hp'.entry hsame
  · obtain ⟨s, hs⟩ := hat hx
    exact (hsound _ _ _ hs).held _ hn
  · rename_i d x d' y n
    obtain ⟨s, hs⟩ := hat hx
    obtain ⟨s', hs'⟩ := hat hy
    by_cases hxe : x = e
    · subst hxe
      by_contra hne
      exact hapart d' d y s' s n hs' hs (Ne.symm hne) hn' hn
    · by_cases hye : y = e
      · subst hye
        exact (hapart d d' x s s' n hs hs' hxe hn hn').elim
      · obtain ⟨hp, hk⟩ := hold d s x hs hxe
        obtain ⟨hp', hk'⟩ := hold d' s' y hs' hye
        rw [hk.same_owned hd] at hn
        rw [hk'.same_owned hd] at hn'
        exact hw.owner hp.entry hp'.entry hn hn'
  · obtain ⟨s, hs⟩ := hat hx
    exact (hsound _ _ _ hs).once

end WebAdf.Adffs
