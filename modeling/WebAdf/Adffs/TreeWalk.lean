import WebAdf.Adffs.Tree

/-!
# The walk sees the tree

On a well-formed volume the reader's walk meets no block twice and no limit but
that of depth, so what it returns is the directory's tree down to that depth.
-/

namespace WebAdf.Adffs

open Lib

variable {adf : Adf} {boot : BootInfo} {page : Nat}

-- ---------------------------------------------------------------------------
-- The entries of a directory
-- ---------------------------------------------------------------------------

/-- The chain from `ptr` on, as far as `fuel` goes. -/
def chainList (adf : Adf) : Nat → Nat → List Nat
  | 0, _ => []
  | fuel + 1, ptr => if ptr = 0 ∨ adf.blockCount ≤ ptr then [] else ptr :: chainList adf fuel ((adf.block ptr).be32 496)

def childList (adf : Adf) (dir : Nat) : List Nat :=
  (List.range hashTableSize).flatMap fun slot => chainList adf adf.blockCount (adf.slot dir slot)

theorem Chain.length_le (h : Chain adf ptr l) : l.length ≤ adf.blockCount :=
  length_le_of_lt h.nodup fun _ hx => (h.ne_zero hx).2

theorem Chain.chainList_eq (h : Chain adf ptr l) (hfuel : l.length ≤ fuel) : chainList adf fuel ptr = l := by
  induction l generalizing ptr fuel with
  | nil =>
    cases fuel with
    | zero => rfl
    | succ fuel => exact if_pos (.inl h)
  | cons e l ih =>
    obtain ⟨rfl, hne, hlt, hrest⟩ := h
    cases fuel with
    | zero => cases hfuel
    | succ fuel =>
      have hgo : ¬ (ptr = 0 ∨ adf.blockCount ≤ ptr) := by omega
      rw [chainList, if_neg hgo, ih hrest (by simpa using hfuel)]

namespace WellFormed

theorem mem_childList (hw : WellFormed adf boot page) (hd : Directory adf dir) : e ∈ childList adf dir ↔ Child adf dir e := by
  rw [childList, List.mem_flatMap]
  constructor
  · rintro ⟨slot, hslot, hmem⟩
    have hslot := List.mem_range.1 hslot
    obtain ⟨l, hl⟩ := hw.chain hd hslot
    rw [hl.chainList_eq hl.length_le] at hmem
    exact ⟨slot, l, hslot, hl, hmem⟩
  · rintro ⟨slot, l, hslot, hl, hmem⟩
    refine ⟨slot, List.mem_range.2 hslot, ?_⟩
    rwa [hl.chainList_eq hl.length_le]

theorem nodup_childList (hw : WellFormed adf boot page) (hd : Directory adf dir) : (childList adf dir).Nodup := by
  refine List.nodup_flatMap.2 ⟨fun slot hslot => ?_, List.nodup_range.pairwise_of_forall_ne fun s hs s' hs' hne => ?_⟩
  · obtain ⟨l, hl⟩ := hw.chain hd (List.mem_range.1 hslot)
    rw [hl.chainList_eq hl.length_le]
    exact hl.nodup
  · intro e he he'
    obtain ⟨l, hl⟩ := hw.chain hd (List.mem_range.1 hs)
    obtain ⟨l', hl'⟩ := hw.chain hd (List.mem_range.1 hs')
    replace he : e ∈ chainList adf adf.blockCount (adf.slot dir s) := he
    replace he' : e ∈ chainList adf adf.blockCount (adf.slot dir s') := he'
    rw [hl.chainList_eq hl.length_le] at he
    rw [hl'.chainList_eq hl'.length_le] at he'
    exact hne ((hw.bucket hd (List.mem_range.1 hs) hl he).symm.trans (hw.bucket hd (List.mem_range.1 hs') hl' he'))

end WellFormed

-- ---------------------------------------------------------------------------
-- The tree down to a depth
-- ---------------------------------------------------------------------------

/-- The blocks below a directory in the order the walk comes to them, with `levels` more
directories to go into. -/
def listing (adf : Adf) : Nat → Nat → List Nat
  | 0, dir => childList adf dir
  | levels + 1, dir =>
    (childList adf dir).flatMap fun e => e :: if (adf.block e).i32 508 = stUserdir then listing adf levels e else []

/-- The entry in a block, as the reader shows it. -/
def entryOf (adf : Adf) (e : Nat) (children : List AdfEntry) : AdfEntry :=
  let b := adf.block e
  let entry := fun kind size => AdfEntry.mk b.entryName kind e size (b.amigaDate 420) (protectionString (b.be32 320))
    (match b.bcplString 328 commentMax with | [] => none | c => some c) children
  if b.i32 508 = stUserdir then entry .dir 0 else entry .file (b.be32 324)

def treeOf (adf : Adf) : Nat → Nat → List AdfEntry
  | 0, dir => (childList adf dir).map fun e => entryOf adf e []
  | levels + 1, dir =>
    (childList adf dir).map fun e => entryOf adf e (if (adf.block e).i32 508 = stUserdir then treeOf adf levels e else [])

namespace WellFormed

/-- Everything the walk lists lies below an entry of the directory. -/
theorem mem_listing (hw : WellFormed adf boot page) (hd : Directory adf dir) (hx : x ∈ listing adf levels dir) :
    ∃ e, Entry adf dir e ∧ Below adf e x := by
  induction levels generalizing dir with
  | zero => exact ⟨x, ⟨hd, (hw.mem_childList hd).1 hx⟩, .self⟩
  | succ levels ih =>
    obtain ⟨e, he, hx⟩ := List.mem_flatMap.1 hx
    have hentry : Entry adf dir e := ⟨hd, (hw.mem_childList hd).1 he⟩
    rcases List.mem_cons.1 hx with rfl | hx
    · exact ⟨x, hentry, .self⟩
    · split at hx
      · rename_i hdir
        obtain ⟨e', he', hb⟩ := ih (hentry.directory hdir) hx
        exact ⟨e, hentry, (Below.child .self hdir he'.2).trans hb⟩
      · cases hx

theorem nodup_listing (hw : WellFormed adf boot page) (hd : Directory adf dir) : (listing adf levels dir).Nodup := by
  induction levels generalizing dir with
  | zero => exact hw.nodup_childList hd
  | succ levels ih =>
    refine List.nodup_flatMap.2 ⟨fun e he => ?_, (hw.nodup_childList hd).pairwise_of_forall_ne fun e he e' he' hne => ?_⟩
    · have hentry : Entry adf dir e := ⟨hd, (hw.mem_childList hd).1 he⟩
      split
      · rename_i hdir
        refine List.nodup_cons.2 ⟨fun hmem => ?_, ih (hentry.directory hdir)⟩
        obtain ⟨e', he', hb⟩ := hw.mem_listing (hentry.directory hdir) hmem
        exact hw.not_below he' hb
      · exact List.nodup_singleton e
    · intro x hx hx'
      have below : ∀ {y}, Entry adf dir y →
          x ∈ y :: (if (adf.block y).i32 508 = stUserdir then listing adf levels y else []) → Below adf y x := by
        intro y hy hx
        rcases List.mem_cons.1 hx with rfl | hx
        · exact .self
        · split at hx
          · rename_i hdir
            obtain ⟨z, hz, hb⟩ := hw.mem_listing (hy.directory hdir) hx
            exact (Below.child .self hdir hz.2).trans hb
          · cases hx
      have he : Entry adf dir e := ⟨hd, (hw.mem_childList hd).1 he⟩
      have he' : Entry adf dir e' := ⟨hd, (hw.mem_childList hd).1 he'⟩
      exact hne (hw.siblings he he' (below he hx) (below he' hx'))

theorem listing_lt (hw : WellFormed adf boot page) (hd : Directory adf dir) (hx : x ∈ listing adf levels dir) :
    x < adf.blockCount := by
  obtain ⟨e, he, hb⟩ := hw.mem_listing hd hx
  obtain ⟨up, hup⟩ := hb.entry he
  exact hw.lt hup

theorem length_listing (hw : WellFormed adf boot page) (hd : Directory adf dir) :
    (listing adf levels dir).length ≤ maxEntries := by
  have hle : (listing adf levels dir).length ≤ adf.blockCount :=
    length_le_of_lt (hw.nodup_listing hd) fun x hx => hw.listing_lt hd hx
  have hcount : adf.blockCount ≤ 3520 := by
    rw [Adf.blockCount]
    cases adf.density <;> decide
  rw [maxEntries]
  omega

/-- A directory is not listed below itself. -/
theorem not_mem_listing (hw : WellFormed adf boot page) (hd : Directory adf dir) : dir ∉ listing adf levels dir := fun hmem => by
  obtain ⟨e, he, hb⟩ := hw.mem_listing hd hmem
  exact hw.not_below he hb

end WellFormed

-- ---------------------------------------------------------------------------
-- The walk
-- ---------------------------------------------------------------------------

/-- A walk that has seen `blocks` since `w`. -/
structure Walk.After (w : Walk) (blocks : List Nat) (w' : Walk) : Prop where
  visited : w'.visited = w.visited ++ blocks
  count : w'.count = w.count + blocks.length
  truncated : w'.truncated = w.truncated
  stuck : w'.stuck = w.stuck

namespace Walk.After

variable {w w' w'' : Walk}

theorem refl (w : Walk) : w.After [] w := ⟨(List.append_nil _).symm, rfl, rfl, rfl⟩

theorem trans (h : w.After blocks w') (h' : w'.After more w'') : w.After (blocks ++ more) w'' where
  visited := by rw [h'.visited, h.visited, List.append_assoc]
  count := by rw [h'.count, h.count, List.length_append, Nat.add_assoc]
  truncated := h'.truncated.trans h.truncated
  stuck := h'.stuck.trans h.stuck

theorem visit (w : Walk) (e : Nat) : w.After [e] (w.visit e) := ⟨rfl, rfl, rfl, rfl⟩

/-- What is fresh for a walk and not just seen is fresh after it. -/
theorem fresh {more : List Nat} (h : w.After blocks w') (hfresh : ∀ x ∈ more, x ∉ w.visited) (hdisj : ∀ x ∈ more, x ∉ blocks) :
    ∀ x ∈ more, x ∉ w'.visited := fun x hx hmem => by
  rw [h.visited] at hmem
  rcases List.mem_append.1 hmem with hmem | hmem
  · exact hfresh x hx hmem
  · exact hdisj x hx hmem

end Walk.After

/-- The walk may go into `blocks`: none is seen or twice, and there is room. -/
structure Walk.Open (w : Walk) (most : Nat) (blocks : List Nat) : Prop where
  nodup : blocks.Nodup
  fresh : ∀ x ∈ blocks, x ∉ w.visited
  room : w.count + blocks.length ≤ most

theorem Walk.Open.left {w : Walk} (h : w.Open most (blocks ++ more)) : w.Open most blocks where
  nodup := (List.nodup_append.1 h.nodup).1
  fresh x hx := h.fresh x (List.mem_append_left _ hx)
  room := by
    have hr := h.room
    rw [List.length_append] at hr
    omega

theorem Walk.Open.right {w w' : Walk} (h : w.Open most (blocks ++ more)) (ha : w.After blocks w') : w'.Open most more where
  nodup := (List.nodup_append.1 h.nodup).2.1
  fresh := ha.fresh (fun x hx => h.fresh x (List.mem_append_right _ hx)) fun x hx hmem =>
    (List.nodup_append.1 h.nodup).2.2 x hmem x hx rfl
  room := by
    have hr := h.room
    rw [List.length_append] at hr
    rw [ha.count]
    omega

section Reads

variable {most : Nat} {read : Nat → Walk → Option AdfEntry × Walk} {sub : Nat → List Nat} {ent : Nat → AdfEntry}

/-- The entry's part of a walk: it gives `ent e` and sees `sub e` below it. -/
def Reads (most : Nat) (read : Nat → Walk → Option AdfEntry × Walk) (sub : Nat → List Nat) (ent : Nat → AdfEntry) (e : Nat) : Prop :=
  ∀ w : Walk, w.Open most (sub e) → ∃ w', read e w = (some (ent e), w') ∧ w.After (sub e) w'

theorem readChain_reads (h : Chain adf ptr l) (hread : ∀ e ∈ l, Reads most read sub ent e) (hfuel : l.length ≤ fuel) {w : Walk}
    (hopen : w.Open most (l.flatMap fun e => e :: sub e)) :
    ∃ w', readChain adf most read fuel ptr w = (l.map ent, false, w') ∧ w.After (l.flatMap fun e => e :: sub e) w' := by
  induction l generalizing ptr fuel w with
  | nil =>
    refine ⟨w, ?_, .refl w⟩
    cases fuel <;> exact if_pos h
  | cons e l ih =>
    obtain ⟨rfl, hne, hlt, hrest⟩ := h
    cases fuel with
    | zero => cases hfuel
    | succ fuel =>
      rw [List.flatMap_cons, List.cons_append] at hopen ⊢
      have hroom : ¬ most ≤ w.count := by
        have hr := hopen.room
        rw [List.length_cons] at hr
        omega
      have hnew : ptr ∉ w.visited := hopen.fresh ptr (List.mem_cons_self ..)
      have hvisit := Walk.After.visit w ptr
      have hsub : (w.visit ptr).Open most (sub ptr ++ l.flatMap fun e => e :: sub e) :=
        @Walk.Open.right most [ptr] _ w _ hopen hvisit
      obtain ⟨w₁, hr₁, ha₁⟩ := hread ptr (List.mem_cons_self ..) _ hsub.left
      obtain ⟨w₂, hr₂, ha₂⟩ := ih hrest (fun e he => hread e (List.mem_cons_of_mem _ he)) (by simpa using hfuel) (hsub.right ha₁)
      refine ⟨w₂, ?_, hvisit.trans (ha₁.trans ha₂)⟩
      rw [readChain, if_neg hne]
      simp only [if_neg hroom, if_neg hnew, Adf.blockAt_of_lt hlt, hr₁, hr₂]
      rfl

theorem readSlots_reads {dir : Nat} {chains : Nat → List Nat} (hchain : ∀ s ∈ slots, Chain adf (adf.slot dir s) (chains s))
    (hread : ∀ s ∈ slots, ∀ e ∈ chains s, Reads most read sub ent e) {w : Walk}
    (hopen : w.Open most ((slots.flatMap chains).flatMap fun e => e :: sub e)) :
    ∃ w', readSlots adf most read (adf.block dir) slots w = ((slots.flatMap chains).map ent, w') ∧
      w.After ((slots.flatMap chains).flatMap fun e => e :: sub e) w' := by
  induction slots generalizing w with
  | nil => exact ⟨w, rfl, .refl w⟩
  | cons s slots ih =>
    rw [List.flatMap_cons, List.flatMap_append] at hopen ⊢
    have hc := hchain s (List.mem_cons_self ..)
    have hfuel : (chains s).length ≤ adf.blockCount + 1 := Nat.le_succ_of_le hc.length_le
    obtain ⟨w₁, hr₁, ha₁⟩ := readChain_reads hc (hread s (List.mem_cons_self ..)) hfuel hopen.left
    obtain ⟨w₂, hr₂, ha₂⟩ := ih (fun s hs => hchain s (List.mem_cons_of_mem _ hs))
      (fun s hs => hread s (List.mem_cons_of_mem _ hs)) (hopen.right ha₁)
    refine ⟨w₂, ?_, ha₁.trans ha₂⟩
    rw [Adf.slot] at hr₁
    rw [readSlots, hr₁]
    simp only [Bool.false_eq_true, if_false, hr₂, List.map_append]

end Reads

theorem Walk.After.warn {w : Walk} (m : Warning) : w.After [] (w.warn m) := ⟨(List.append_nil _).symm, rfl, rfl, rfl⟩

/-- An entry is read as it stands; into a directory the walk goes where it has levels left. -/
theorem readEntry_reads (children : Option (Nat → Walk → List AdfEntry × Walk)) (below : Nat → List AdfEntry) {sub : Nat → List Nat}
    (hlt : e < adf.blockCount) (hentry : (adf.block e).isEntry = true)
    (hbelow : (adf.block e).i32 508 = stUserdir → ∀ w : Walk, w.Open most (sub e) →
      ∃ w', w.After (sub e) w' ∧ match children with
        | none => below e = [] ∧ w' = w.warn (.tooDeep e)
        | some go => go e w = (below e, w'))
    (hfile : (adf.block e).i32 508 ≠ stUserdir → sub e = [] ∧ below e = []) :
    Reads most (readEntry adf children) sub (fun e => entryOf adf e (below e)) e := by
  intro w hopen
  simp only [Block.isEntry, Bool.and_eq_true, Bool.or_eq_true, beq_iff_eq] at hentry
  obtain ⟨⟨htype, hsum⟩, hkind⟩ := hentry
  rw [readEntry, Adf.blockAt_of_lt hlt]
  simp only [htype, hsum, ne_eq, not_true_eq_false, if_false, Bool.not_true, Bool.false_eq_true]
  by_cases hdir : (adf.block e).i32 508 = stUserdir
  · obtain ⟨w', ha, hgo⟩ := hbelow hdir w hopen
    refine ⟨w', ?_, ha⟩
    rw [if_pos hdir]
    simp only [entryOf, if_pos hdir]
    cases children with
    | none =>
      obtain ⟨hnil, rfl⟩ := hgo
      rw [hnil]
      rfl
    | some go =>
      dsimp only at hgo ⊢
      rw [hgo]
      rfl
  · obtain ⟨hsub, hnil⟩ := hfile hdir
    refine ⟨w, ?_, hsub ▸ .refl w⟩
    rw [if_neg hdir, if_pos (hkind.resolve_right hdir)]
    simp only [entryOf, if_neg hdir, hnil]
    rfl

namespace WellFormed

theorem chain_chainList (hw : WellFormed adf boot page) (hd : Directory adf dir) (hs : s ∈ List.range hashTableSize) :
    Chain adf (adf.slot dir s) (chainList adf adf.blockCount (adf.slot dir s)) := by
  obtain ⟨l, hl⟩ := hw.chain hd (List.mem_range.1 hs)
  rwa [hl.chainList_eq hl.length_le]

theorem entry_chainList (hw : WellFormed adf boot page) (hd : Directory adf dir) (hs : s ∈ List.range hashTableSize)
    (he : e ∈ chainList adf adf.blockCount (adf.slot dir s)) : Entry adf dir e :=
  ⟨hd, s, _, List.mem_range.1 hs, hw.chain_chainList hd hs, he⟩

/-- The walk from a directory gives its tree, as far down as it may go. -/
theorem readTable_reads (hw : WellFormed adf boot page) (hd : Directory adf dir) (levels : Nat) {w : Walk}
    (hopen : w.Open most (listing adf levels dir)) :
    ∃ w', readTable adf most levels dir w = (treeOf adf levels dir, w') ∧ w.After (listing adf levels dir) w' := by
  induction levels generalizing dir w with
  | zero =>
    obtain ⟨-, -, hlt, -⟩ := hw.directory_used hd
    have hsub : (childList adf dir).flatMap (fun e => e :: (fun _ => []) e) = childList adf dir := List.flatMap_singleton' _
    have hall : ((List.range hashTableSize).flatMap fun s => chainList adf adf.blockCount (adf.slot dir s)) =
      childList adf dir := rfl
    rw [listing, ← hsub, ← hall] at hopen ⊢
    rw [readTable, Adf.blockAt_of_lt hlt]
    refine readSlots_reads (fun s hs => hw.chain_chainList hd hs) (fun s hs e he => ?_) hopen
    have hentry := hw.entry_chainList hd hs he
    exact readEntry_reads none (fun _ => []) (hw.lt hentry) (hw.entry hentry)
      (fun _ w _ => ⟨w.warn (.tooDeep e), .warn _, rfl, rfl⟩) fun _ => ⟨rfl, rfl⟩
  | succ levels ih =>
    obtain ⟨-, -, hlt, -⟩ := hw.directory_used hd
    rw [readTable, Adf.blockAt_of_lt hlt]
    refine readSlots_reads (fun s hs => hw.chain_chainList hd hs) (fun s hs e he => ?_) hopen
    have hentry := hw.entry_chainList hd hs he
    refine readEntry_reads (some (readTable adf most levels))
      (fun e => if (adf.block e).i32 508 = stUserdir then treeOf adf levels e else []) (hw.lt hentry) (hw.entry hentry)
      (fun hdir w hopen => ?_) fun hfile => ⟨if_neg hfile, if_neg hfile⟩
    rw [if_pos hdir] at hopen ⊢
    obtain ⟨w', hr, ha⟩ := ih (hentry.directory hdir) hopen
    exact ⟨w', ha, by rw [if_pos hdir]; exact hr⟩

/-- A walk from a directory: its tree down to the depth limit, and nothing was cut off. -/
theorem walkDirectory_eq (hw : WellFormed adf boot page) (hd : Directory adf dir) :
    (walkDirectory adf dir).root = treeOf adf maxDepth dir ∧ (walkDirectory adf dir).truncated = false := by
  have hopen : ({ visited := [dir] } : Walk).Open maxEntries (listing adf maxDepth dir) := by
    refine ⟨hw.nodup_listing hd, fun x hx hmem => ?_, ?_⟩
    · rw [List.mem_singleton.1 hmem] at hx
      exact hw.not_mem_listing hd hx
    · exact (Nat.zero_add _).symm ▸ hw.length_listing hd
  obtain ⟨w', hr, ha⟩ := hw.readTable_reads hd maxDepth hopen
  rw [walkDirectory, walkDirectoryUpTo, hr]
  exact ⟨rfl, ha.truncated⟩

/-- The directory's own entries are all there, whatever lies below them. -/
theorem map_walkDirectory (hw : WellFormed adf boot page) (hd : Directory adf dir) :
    (walkDirectory adf dir).root.map (fun e => (e.name, e.block)) =
      (childList adf dir).map fun e => ((adf.block e).entryName, e) := by
  rw [(hw.walkDirectory_eq hd).1, maxDepth, treeOf, List.map_map]
  refine List.map_congr_left fun e _ => ?_
  rw [Function.comp_apply, entryOf]
  dsimp only
  split <;> rfl

/-- Whether a name is taken. -/
theorem entryNamed_iff (hw : WellFormed adf boot page) (hd : Directory adf dir) :
    entryNamed adf dir name boot.intl exclude = true ↔
      ∃ e, Child adf dir e ∧ some e ≠ exclude ∧ sameName (adf.block e).entryName name boot.intl = true := by
  have hany : entryNamed adf dir name boot.intl exclude = ((walkDirectory adf dir).root.map fun e => (e.name, e.block)).any
      fun p => some p.2 != exclude && sameName p.1 name boot.intl := by
    rw [entryNamed, List.any_map]
    rfl
  rw [hany, hw.map_walkDirectory hd, List.any_map, List.any_eq_true]
  constructor
  · rintro ⟨e, he, hname⟩
    rw [Function.comp_apply, Bool.and_eq_true, bne_iff_ne] at hname
    exact ⟨e, (hw.mem_childList hd).1 he, hname.1, hname.2⟩
  · rintro ⟨e, hc, hne, hname⟩
    refine ⟨e, (hw.mem_childList hd).2 hc, ?_⟩
    rw [Function.comp_apply, Bool.and_eq_true, bne_iff_ne]
    exact ⟨hne, hname⟩

/-- The entry with a name, if there is one. -/
theorem findChildBlock_eq (hw : WellFormed adf boot page) (hd : Directory adf dir) (name : Units) :
    findChildBlock adf dir name = (childList adf dir).find? fun e => sameName (adf.block e).entryName name boot.intl := by
  have hfind : findChildBlock adf dir name = (((walkDirectory adf dir).root.map fun e => (e.name, e.block)).find?
      fun p => sameName p.1 name boot.intl).map (·.2) := by
    rw [findChildBlock, hw.volume, List.find?_map, Option.map_map]
    rfl
  rw [hfind, hw.map_walkDirectory hd, List.find?_map, Option.map_map]
  exact Option.map_id'

end WellFormed

end WebAdf.Adffs
