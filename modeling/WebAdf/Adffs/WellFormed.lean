import WebAdf.Adffs.FileLaws

/-!
# Well-formed volumes

What a volume owns and the rules its tree keeps. Directories are what can be
reached from the root by hash chains, at any depth; no walk with its limits has a
part in it.
-/

namespace WebAdf.Adffs

open Lib

-- ---------------------------------------------------------------------------
-- Chains and the tree
-- ---------------------------------------------------------------------------

/-- From `ptr` on the chain is `l`, and ends. -/
def Chain (adf : Adf) : Nat → List Nat → Prop
  | ptr, [] => ptr = 0
  | ptr, e :: l => ptr = e ∧ e ≠ 0 ∧ e < adf.blockCount ∧ Chain adf ((adf.block e).be32 496) l

def Adf.slot (adf : Adf) (dir slot : Nat) : Nat := (adf.block dir).be32 (24 + slot * 4)

/-- An entry of a directory, in one of its chains. -/
def Child (adf : Adf) (dir e : Nat) : Prop := ∃ slot l, slot < hashTableSize ∧ Chain adf (adf.slot dir slot) l ∧ e ∈ l

def Adf.isDir (adf : Adf) (e : Nat) : Prop := (adf.block e).i32 508 = stUserdir

def Adf.isFile (adf : Adf) (e : Nat) : Prop := (adf.block e).i32 508 = stFile

/-- The root and every directory below it. -/
inductive Directory (adf : Adf) : Nat → Prop
  | root : Directory adf adf.rootBlock
  | inside (hd : Directory adf dir) (hc : Child adf dir e) (he : adf.isDir e) : Directory adf e

/-- An entry of a directory that can be reached. -/
def Entry (adf : Adf) (dir e : Nat) : Prop := Directory adf dir ∧ Child adf dir e

def Block.entryName (b : Block) : Units := b.bcplString 432 nameMax

/-- The blocks an entry owns itself, not what is below it. -/
def owned (adf : Adf) (e : Nat) : List Nat := if (adf.block e).i32 508 = stFile then fileBlocks adf e else [e]

/-- In the bitmap's range, neither root nor bitmap, and marked used. -/
def Adf.Held (adf : Adf) (page n : Nat) : Prop := adf.isReserved page n = false ∧ adf.isFreeAt page n = false

structure WellFormed (adf : Adf) (boot : BootInfo) (page : Nat) : Prop where
  volume : adf.readBoot = some boot
  rootType : (adf.block adf.rootBlock).be32 0 = tHeader
  rootSecondary : (adf.block adf.rootBlock).i32 508 = stRoot
  rootChecksum : (adf.block adf.rootBlock).checksumOk checksumWord = true
  bitmap : adf.bitmapPage = some page
  rootUsed : adf.isFreeAt page adf.rootBlock = false
  chain : Directory adf dir → slot < hashTableSize → ∃ l, Chain adf (adf.slot dir slot) l
  entry : Entry adf dir e → (adf.block e).isEntry = true
  parent : Entry adf dir e → (adf.block e).be32 500 = dir
  bucket : Directory adf dir → slot < hashTableSize → Chain adf (adf.slot dir slot) l → e ∈ l →
    nameHash (adf.block e).entryName boot.intl = slot
  names : Entry adf dir e → Entry adf dir e' →
    sameName (adf.block e).entryName (adf.block e').entryName boot.intl = true → e = e'
  held : Entry adf dir e → n ∈ owned adf e → adf.Held page n
  owner : Entry adf dir e → Entry adf dir' e' → n ∈ owned adf e → n ∈ owned adf e' → e = e'
  once : Entry adf dir e → (owned adf e).Nodup

-- ---------------------------------------------------------------------------
-- Chains
-- ---------------------------------------------------------------------------

variable {adf out : Adf} {boot : BootInfo} {page : Nat}

theorem Chain.ne_zero (h : Chain adf ptr l) (he : e ∈ l) : e ≠ 0 ∧ e < adf.blockCount := by
  induction l generalizing ptr with
  | nil => cases he
  | cons x l ih =>
    obtain ⟨rfl, hne, hlt, hrest⟩ := h
    rcases List.mem_cons.1 he with rfl | he
    · exact ⟨hne, hlt⟩
    · exact ih hrest he

/-- A pointer has one chain. -/
theorem Chain.unique (h : Chain adf ptr l) (h' : Chain adf ptr l') : l = l' := by
  induction l generalizing ptr l' with
  | nil =>
    cases l' with
    | nil => rfl
    | cons x l' =>
      obtain ⟨rfl, hne, -⟩ := h'
      exact absurd h hne
  | cons x l ih =>
    obtain ⟨rfl, hne, -, hrest⟩ := h
    cases l' with
    | nil => exact absurd h' hne
    | cons y l' =>
      obtain ⟨rfl, -, -, hrest'⟩ := h'
      rw [ih hrest hrest']

/-- A chain is the same in any image that has the same links in it. -/
theorem Chain.same (h : Chain adf ptr l) (hc : out.blockCount = adf.blockCount)
    (hb : ∀ e ∈ l, (out.block e).be32 496 = (adf.block e).be32 496) : Chain out ptr l := by
  induction l generalizing ptr with
  | nil => exact h
  | cons x l ih =>
    obtain ⟨rfl, hne, hlt, hrest⟩ := h
    refine ⟨rfl, hne, hc ▸ hlt, ?_⟩
    rw [hb ptr (List.mem_cons_self ..)]
    exact ih hrest fun e he => hb e (List.mem_cons_of_mem _ he)

/-- The tail of a chain from one of its entries on. -/
theorem Chain.from (h : Chain adf ptr l) (he : e ∈ l) : ∃ before after, l = before ++ e :: after ∧
    Chain adf ((adf.block e).be32 496) after := by
  induction l generalizing ptr with
  | nil => cases he
  | cons x l ih =>
    obtain ⟨rfl, -, -, hrest⟩ := h
    rcases List.mem_cons.1 he with rfl | he
    · exact ⟨[], l, rfl, hrest⟩
    · obtain ⟨before, after, rfl, ha⟩ := ih hrest he
      exact ⟨ptr :: before, after, rfl, ha⟩

/-- No entry is twice in a chain that ends. -/
theorem Chain.nodup (h : Chain adf ptr l) : l.Nodup := by
  induction l generalizing ptr with
  | nil => exact List.nodup_nil
  | cons x l ih =>
    obtain ⟨rfl, hne, hlt, hrest⟩ := h
    refine List.nodup_cons.2 ⟨fun hmem => ?_, ih hrest⟩
    -- the tail from the second time on would be the whole tail again
    obtain ⟨before, after, hl, ha⟩ := hrest.from hmem
    have heq := congrArg List.length (ha.unique hrest)
    rw [hl, List.length_append, List.length_cons] at heq
    omega

-- ---------------------------------------------------------------------------
-- A well-formed volume
-- ---------------------------------------------------------------------------

namespace WellFormed

theorem trusted (hw : WellFormed adf boot page) : adf.Trusted page := Adf.bitmapPage_iff.1 hw.bitmap

theorem mem_owned_self (adf : Adf) (e : Nat) : e ∈ owned adf e := by
  rw [owned]
  split
  · exact List.mem_cons_self ..
  · exact List.mem_singleton_self ..

theorem entry_held (hw : WellFormed adf boot page) (he : Entry adf dir e) : adf.Held page e :=
  hw.held he (mem_owned_self adf e)

theorem ne_root (hw : WellFormed adf boot page) (he : Entry adf dir e) : e ≠ adf.rootBlock :=
  (Adf.isReserved_iff.1 (hw.entry_held he).1).1

theorem lt (hw : WellFormed adf boot page) (he : Entry adf dir e) : e < adf.blockCount :=
  (Adf.isReserved_iff.1 (hw.entry_held he).1).2.2.2

/-- A directory is the root or an entry of another. -/
theorem directory_cases (hd : Directory adf dir) : dir = adf.rootBlock ∨ ∃ up, Entry adf up dir ∧ adf.isDir dir := by
  cases hd with
  | root => exact .inl rfl
  | inside hd hc he => exact .inr ⟨_, ⟨hd, hc⟩, he⟩

theorem directory_used (hw : WellFormed adf boot page) (hd : Directory adf dir) :
    adf.isFreeAt page dir = false ∧ dir ≠ page ∧ dir < adf.blockCount ∧ bitmapFirstBlock ≤ dir := by
  rcases directory_cases hd with rfl | ⟨up, he, -⟩
  · exact ⟨hw.rootUsed, hw.trusted.ne.symm, adf.rootBlock_lt, adf.rootBlock_ge⟩
  · obtain ⟨hr, hu⟩ := hw.entry_held he
    obtain ⟨-, hp, hge, hlt⟩ := Adf.isReserved_iff.1 hr
    exact ⟨hu, hp, hlt, hge⟩

/-- An allocation takes nothing that is held. -/
theorem not_mem_taken (hu : adf.isFreeAt page n = false) (ht : Adf.Taken adf page blocks) : n ∉ blocks := fun hmem => by
  have hf := ht.free n hmem
  rw [hu] at hf
  cases hf

theorem file_isFileHeader (hw : WellFormed adf boot page) (he : Entry adf dir e) (hf : adf.isFile e) :
    (adf.block e).isFileHeader = true := by
  have hentry := hw.entry he
  simp only [Block.isEntry, Bool.and_eq_true] at hentry
  rw [Block.isFileHeader, hentry.1.1, hentry.1.2, hf]
  rfl

theorem owned_file (hf : adf.isFile e) : owned adf e = fileBlocks adf e := if_pos hf

end WellFormed

end WebAdf.Adffs
