import WebAdf.Files.StashNames
import Mathlib.Data.List.Perm.Basic
import Mathlib.Data.List.Induction

/-!
# What the tree shows

Each row's turn adds one node at the row's depth and moves no other, and a path
chosen for one more row is the path it is shown at.
-/

namespace WebAdf.Files

open Lib

/-- One part of a path. -/
def Segment (s : Units) : Prop := s ≠ [] ∧ slash ∉ s

variable (low : LowerCase)

def keys (children : List StashNode) : List Units := children.map fun c => low.lower c.name

/-- What `stashTree` keeps of every folder: its maps agree with its children. -/
inductive StashNode.Sound : StashNode → Prop
  | mk (distinct : (keys low n.children).Nodup)
      (byName : ∀ k p, n.index.byName.lookup k = some p ↔ (keys low n.children)[p]? = some k)
      (twinDir : ∀ p q, n.index.twinDir.lookup p = some q → ∃ c, n.children[q]? = some c ∧ c.kind = .dir)
      (names : ∀ c ∈ n.children, Segment c.name)
      (below : ∀ c ∈ n.children, c.Sound) : Sound n

variable {low}

theorem StashNode.Sound.distinct_all (h : Sound low n) : n.Distinct low := by
  induction h with
  | mk distinct _ _ _ _ ih => exact .mk distinct ih

theorem StashNode.shown_eq (n : StashNode) :
    n.shown = n.row.toList.map (·, []) ++ shownAll n.children := by
  obtain ⟨name, kind, row, children, index⟩ := n
  rfl

theorem shownAll_append (as bs : List StashNode) :
    shownAll (as ++ bs) = shownAll as ++ shownAll bs := by
  induction as with
  | nil => rfl
  | cons c as ih => simp [shownAll, ih]

/-- A folder after a row's turn: one row more, at `path` below it. -/
structure Shows (low : LowerCase) (i : Nat) (path : List Units) (before after : StashNode) : Prop where
  name : after.name = before.name
  kind : after.kind = before.kind
  sound : after.Sound low
  shown : after.shown.Perm ((i, path) :: before.shown)

-- ---------------------------------------------------------------------------
-- The maps
-- ---------------------------------------------------------------------------

theorem hit_some (hs : StashNode.Sound low cur) :
    cur.hit low seg = some (p, c) ↔ cur.children[p]? = some c ∧ low.lower c.name = low.lower seg := by
  obtain ⟨-, hby, -, -, -⟩ := hs
  simp only [StashNode.hit, Option.bind_eq_bind, Option.bind_eq_some_iff]
  constructor
  · rintro ⟨p', hlookup, c', hget, heq⟩
    cases heq
    have hkey := (hby _ _).1 hlookup
    simp only [keys, List.getElem?_map, hget, Option.map_some, Option.some.injEq] at hkey
    exact ⟨hget, hkey⟩
  · rintro ⟨hget, hkey⟩
    exact ⟨p, (hby _ _).2 (by simp [keys, hget, hkey]), c, hget, rfl⟩

theorem hit_none (hs : StashNode.Sound low cur) :
    cur.hit low seg = none ↔ low.lower seg ∉ keys low cur.children := by
  constructor
  · intro hnone hmem
    obtain ⟨c, hc, hkey⟩ := List.mem_map.1 hmem
    obtain ⟨p, hp⟩ := List.mem_iff_getElem?.1 hc
    rw [(hit_some hs).2 ⟨hp, hkey⟩] at hnone
    cases hnone
  · intro hfree
    cases h : cur.hit low seg with
    | none => rfl
    | some pc =>
      obtain ⟨hget, hkey⟩ := (hit_some hs).1 h
      exact absurd (List.mem_map.2 ⟨_, List.mem_of_getElem? hget, hkey⟩) hfree

theorem byName_some (hs : StashNode.Sound low cur) (k : Units) :
    (cur.index.byName.lookup k).isSome = true ↔ k ∈ keys low cur.children := by
  obtain ⟨-, hby, -, -, -⟩ := hs
  simp only [Option.isSome_iff_exists, hby, List.mem_iff_getElem?]

/-- The first child of a name is the one the map holds. -/
theorem find_some (hs : StashNode.Sound low cur) :
    cur.find low seg = some c ↔ ∃ p, cur.hit low seg = some (p, c) := by
  constructor
  · intro hfind
    obtain ⟨p, hp⟩ := List.mem_iff_getElem?.1 (List.mem_of_find?_eq_some hfind)
    have hkey : low.lower c.name = low.lower seg := by
      simpa [sameStashName] using List.find?_some hfind
    exact ⟨p, (hit_some hs).2 ⟨hp, hkey⟩⟩
  · rintro ⟨p, hp⟩
    obtain ⟨hget, hkey⟩ := (hit_some hs).1 hp
    obtain ⟨c', hfind⟩ : ∃ c', cur.find low seg = some c' :=
      Option.isSome_iff_exists.1 (List.find?_isSome.2 ⟨c, List.mem_of_getElem? hget, by simp [sameStashName, hkey]⟩)
    have hkey' : low.lower c'.name = low.lower seg := by
      simpa [sameStashName] using List.find?_some hfind
    obtain ⟨hnodup, -, -, -, -⟩ := hs
    rw [hfind, List.inj_on_of_nodup_map hnodup (List.mem_of_find?_eq_some hfind)
      (List.mem_of_getElem? hget) (hkey'.trans hkey.symm)]

theorem find_none (hs : StashNode.Sound low cur) :
    cur.find low seg = none ↔ cur.hit low seg = none := by
  simp [hit_none hs, StashNode.find, keys, sameStashName]

-- ---------------------------------------------------------------------------
-- One child more
-- ---------------------------------------------------------------------------

theorem keys_append (as : List StashNode) (c : StashNode) :
    keys low (as ++ [c]) = keys low as ++ [low.lower c.name] := by
  simp [keys]

theorem Sound.add (hs : StashNode.Sound low cur) (hc : StashNode.Sound low child)
    (hname : Segment child.name) (hfree : low.lower child.name ∉ keys low cur.children) :
    (cur.add low child).Sound low := by
  have hnone : (cur.index.byName.lookup (low.lower child.name)).isSome = false :=
    Bool.eq_false_iff.2 fun h => hfree ((byName_some hs _).1 h)
  obtain ⟨hnodup, hby, htwin, hnames, hbelow⟩ := hs
  refine .mk ?_ ?_ ?_ ?_ ?_
  · simp only [StashNode.add, keys_append]
    exact hnodup.append (List.nodup_singleton _) (by simpa using hfree)
  · intro k p
    simp only [StashNode.add, hnone, keys_append, Bool.false_eq_true, if_false]
    rw [List.lookup_cons]
    by_cases hk : k = low.lower child.name
    · subst hk
      simp only [beq_self_eq_true, Option.some.injEq]
      constructor
      · rintro rfl
        simp [keys]
      · intro hget
        rcases Nat.lt_or_ge p (keys low cur.children).length with hlt | hge
        · rw [List.getElem?_append_left hlt] at hget
          exact absurd (List.mem_of_getElem? hget) hfree
        · rw [List.getElem?_append_right hge] at hget
          have hzero := (List.getElem?_eq_some_iff.1 hget).1
          simp [keys] at hzero hge
          omega
    · have hbeq : (k == low.lower child.name) = false := by simpa using hk
      simp only [hbeq]
      rw [hby]
      rcases Nat.lt_or_ge p (keys low cur.children).length with hlt | hge
      · rw [List.getElem?_append_left hlt]
      · rw [List.getElem?_append_right hge, List.getElem?_eq_none hge]
        constructor
        · rintro ⟨⟩
        · intro hget
          have hmem := List.mem_of_getElem? hget
          exact absurd (List.mem_singleton.1 hmem) hk
  · intro p q hlookup
    obtain ⟨c, hget, hkind⟩ := htwin p q hlookup
    refine ⟨c, ?_, hkind⟩
    simp only [StashNode.add]
    rw [List.getElem?_append_left (List.getElem?_eq_some_iff.1 hget).1, hget]
  · intro c hmem
    rcases List.mem_append.1 hmem with hmem | hmem
    · exact hnames c hmem
    · rw [List.mem_singleton.1 hmem]
      exact hname
  · intro c hmem
    rcases List.mem_append.1 hmem with hmem | hmem
    · exact hbelow c hmem
    · rw [List.mem_singleton.1 hmem]
      exact hc

theorem shown_add (low : LowerCase) (cur child : StashNode) :
    (cur.add low child).shown =
      cur.shown ++ child.shown.map fun (i, path) => (i, child.name :: path) := by
  rw [StashNode.shown_eq, StashNode.shown_eq cur]
  simp [StashNode.add, shownAll_append, shownAll]

theorem sound_leaf (name : Units) (kind : Kind) (row : Option Nat) :
    StashNode.Sound low ⟨name, kind, row, [], .empty⟩ := by
  refine .mk ?_ ?_ ?_ ?_ ?_ <;> simp [keys, Index.empty]

theorem Shows.leaf {name : Units} (hs : StashNode.Sound low cur) (hname : Segment name)
    (hfree : low.lower name ∉ keys low cur.children) (kind : Kind) (i : Nat) :
    Shows low i [name] cur (cur.add low ⟨name, kind, some i, [], .empty⟩) where
  name := rfl
  kind := rfl
  sound := Sound.add hs (sound_leaf ..) hname hfree
  shown := by
    rw [shown_add]
    simp [StashNode.shown, shownAll]

-- ---------------------------------------------------------------------------
-- One child's turn
-- ---------------------------------------------------------------------------

theorem shownAll_modify {children : List StashNode} {f : StashNode → StashNode}
    (hget : children[p]? = some c) (h : Shows low i path c (f c)) :
    (shownAll (children.modify p f)).Perm ((i, c.name :: path) :: shownAll children) := by
  induction children generalizing p with
  | nil => simp at hget
  | cons d children ih =>
    cases p with
    | zero =>
      simp only [List.getElem?_cons_zero, Option.some.injEq] at hget
      subst hget
      simp only [List.modify_zero_cons, shownAll, h.name]
      exact ((h.shown.map _).append_right _)
    | succ p =>
      simp only [List.modify_succ_cons, shownAll]
      refine ((ih (by simpa using hget)).append_left _).trans ?_
      exact List.perm_middle

theorem keys_modify {children : List StashNode} {f : StashNode → StashNode}
    (hget : children[p]? = some c) (hname : (f c).name = c.name) :
    keys low (children.modify p f) = keys low children := by
  induction children generalizing p with
  | nil => simp at hget
  | cons d children ih =>
    cases p with
    | zero =>
      simp only [List.getElem?_cons_zero, Option.some.injEq] at hget
      subst hget
      simp [keys, hname]
    | succ p =>
      have := ih (by simpa using hget)
      simpa [keys] using this

theorem mem_modify {children : List StashNode} {f : StashNode → StashNode}
    (hget : children[p]? = some c) (h : d ∈ children.modify p f) : d = f c ∨ d ∈ children := by
  induction children generalizing p with
  | nil => simp at hget
  | cons e children ih =>
    cases p with
    | zero =>
      simp only [List.getElem?_cons_zero, Option.some.injEq] at hget
      subst hget
      rcases List.mem_cons.1 h with rfl | h
      · exact .inl rfl
      · exact .inr (List.mem_cons_of_mem _ h)
    | succ p =>
      rcases List.mem_cons.1 h with rfl | h
      · exact .inr (List.mem_cons_self ..)
      · exact (ih (by simpa using hget) h).imp_right (List.mem_cons_of_mem _)

/-- A child's turn is its folder's. -/
theorem Shows.below {f : StashNode → StashNode} (hs : StashNode.Sound low cur)
    (hget : cur.children[p]? = some c) (h : Shows low i path c (f c)) :
    Shows low i (c.name :: path) cur (cur.modify p f) where
  name := rfl
  kind := rfl
  sound := by
    obtain ⟨hnodup, hby, htwin, hnames, hbelow⟩ := hs
    have hkeys : keys low (cur.children.modify p f) = keys low cur.children := keys_modify hget h.name
    refine .mk ?_ ?_ ?_ ?_ ?_
    · simpa only [StashNode.modify, hkeys] using hnodup
    · simpa only [StashNode.modify, hkeys] using hby
    · intro q r hlookup
      obtain ⟨d, hd, hkind⟩ := htwin q r hlookup
      simp only [StashNode.modify, List.getElem?_modify]
      by_cases hpr : p = r
      · subst hpr
        rw [hget] at hd
        cases hd
        exact ⟨f c, by simp [hget], h.kind.trans hkind⟩
      · exact ⟨d, by simp [hd, hpr], hkind⟩
    · intro d hd
      rcases mem_modify hget hd with rfl | hd
      · rw [h.name]
        exact hnames c (List.mem_of_getElem? hget)
      · exact hnames d hd
    · intro d hd
      rcases mem_modify hget hd with rfl | hd
      · exact h.sound
      · exact hbelow d hd
  shown := by
    rw [StashNode.shown_eq, StashNode.shown_eq cur]
    refine ((shownAll_modify hget h).append_left _).trans ?_
    exact List.perm_middle

-- ---------------------------------------------------------------------------
-- Twins
-- ---------------------------------------------------------------------------

theorem mem_sliceTo (h : u ∈ sliceTo s k) : u ∈ s := by
  unfold sliceTo at h
  split at h <;> exact List.mem_of_mem_take h

theorem mem_stemExt (h : u ∈ (stemExt name).1 ∨ u ∈ (stemExt name).2) : u ∈ name := by
  simp only [stemExt] at h
  split at h
  · exact h.elim List.mem_of_mem_take List.mem_of_mem_drop
  · simpa using h

theorem Segment.candidate (h : Segment name) (n : Nat) : Segment (Files.candidate name n) := by
  have hdigits : slash ∉ numberText n := fun hmem => by
    have := digits_numberText n _ hmem
    simp [isDigit, slash] at this
  have hext : slash ∉ extOf name n := by
    rcases List.mem_cons.1 (extOf_mem name n) with heq | heq
    · rw [heq]
      exact fun hmem => h.2 (mem_stemExt (.inr hmem))
    · simp only [List.mem_singleton] at heq
      simp [heq]
  constructor
  · simp [Files.candidate, suffixOf]
  · simp only [Files.candidate, suffixOf, List.mem_append, List.mem_cons, not_or]
    refine ⟨⟨fun hmem => h.2 (mem_stemExt (.inl (mem_sliceTo hmem))), ?_, hdigits⟩, hext⟩
    decide

/-- A folder as another but for the maps of its twins. -/
structure Beside (low : LowerCase) (before after : StashNode) : Prop where
  name : after.name = before.name
  kind : after.kind = before.kind
  row : after.row = before.row
  children : after.children = before.children
  sound : after.Sound low

theorem Beside.shown (h : Beside low before after) : after.shown = before.shown := by
  rw [StashNode.shown_eq, StashNode.shown_eq before, h.row, h.children]

theorem Beside.shows (h : Beside low before cur) (hs : Shows low i path cur after) :
    Shows low i path before after where
  name := hs.name.trans h.name
  kind := hs.kind.trans h.kind
  sound := hs.sound
  shown := h.shown ▸ hs.shown

theorem twinName_spec {seg : Units} (hs : StashNode.Sound low cur) (hseg : Segment seg) :
    Beside low cur (cur.twinName low seg).2 ∧ Segment (cur.twinName low seg).1 ∧
      low.lower (cur.twinName low seg).1 ∉ keys low cur.children := by
  have hfree := exists_free low (fun c => (byName_some hs (low.lower c)).1) seg
    ((cur.index.next.lookup (low.lower seg)).getD 1)
  rw [keys, List.length_map] at hfree
  obtain ⟨n, heq, -, hnot, -⟩ := keepBothFrom_free seg
    (fun c => (cur.index.byName.lookup (low.lower c)).isSome) hfree
  have hname : (cur.twinName low seg).1 = candidate seg n := by rw [StashNode.twinName, heq]
  refine ⟨⟨rfl, rfl, rfl, rfl, ?_⟩, hname ▸ hseg.candidate n, ?_⟩
  · obtain ⟨hnodup, hby, htwin, hnames, hbelow⟩ := hs
    exact .mk hnodup hby htwin hnames hbelow
  · intro hmem
    rw [hname] at hmem
    rw [(byName_some hs _).2 hmem] at hnot
    cases hnot

theorem keepBothName_spec (low : LowerCase) {seg : Units} (hseg : Segment seg) (cur : StashNode) :
    Segment (keepBothName low seg cur) ∧ low.lower (keepBothName low seg cur) ∉ keys low cur.children := by
  have htaken (c : Units) : (cur.children.any fun d => sameStashName low d.name c) = true ↔
      low.lower c ∈ keys low cur.children := by
    simp [sameStashName, keys]
  have hfree := exists_free low (fun c => (htaken c).1) seg 1
  rw [keys, List.length_map] at hfree
  obtain ⟨n, heq, -, hnot, -⟩ := keepBothFrom_free seg
    (fun c => cur.children.any fun d => sameStashName low d.name c) hfree
  have hname : keepBothName low seg cur = candidate seg n := by rw [keepBothName, heq]
  refine ⟨hname ▸ hseg.candidate n, ?_⟩
  intro hmem
  rw [hname] at hmem
  rw [(htaken _).2 hmem] at hnot
  cases hnot

-- ---------------------------------------------------------------------------
-- A row's turn
-- ---------------------------------------------------------------------------

theorem Sound.setTwin (hs : StashNode.Sound low cur) (hget : cur.children[q]? = some c)
    (hkind : c.kind = .dir) (p : Nat) : Beside low cur (cur.setTwin p q) where
  name := rfl
  kind := rfl
  row := rfl
  children := rfl
  sound := by
    obtain ⟨hnodup, hby, htwin, hnames, hbelow⟩ := hs
    refine .mk hnodup hby ?_ hnames hbelow
    intro p' q' hlookup
    simp only [StashNode.setTwin, List.lookup_cons] at hlookup
    split at hlookup
    · cases hlookup
      exact ⟨c, hget, hkind⟩
    · exact htwin p' q' hlookup

theorem add_last (cur child : StashNode) :
    (cur.add low child).children[cur.children.length]? = some child := by
  simp [StashNode.add]

/-- A folder added without a row, and the row below it. -/
theorem Shows.folder {name : Units} {f : StashNode → StashNode}
    (hset : Beside low (cur.add low (Files.folder name)) mid)
    (h : Shows low i path (Files.folder name) (f (Files.folder name))) :
    Shows low i (name :: path) cur (mid.modify cur.children.length f) := by
  have hget : mid.children[cur.children.length]? = some (Files.folder name) := by
    rw [hset.children, add_last]
  obtain ⟨hnm, hkind, hsound, hshown⟩ := Shows.below hset.sound hget h
  refine ⟨hnm.trans hset.name, hkind.trans hset.kind, hsound, hshown.trans ?_⟩
  rw [hset.shown, shown_add]
  simp [Files.folder, StashNode.shown, shownAll]

theorem Beside.refl (hs : StashNode.Sound low cur) : Beside low cur cur := ⟨rfl, rfl, rfl, rfl, hs⟩

/-- Each row's turn shows it once, as deep as its path is long. -/
theorem addRow_shows (row : Row) (i : Nat) {segs : List Units} (hs : StashNode.Sound low cur)
    (hdir : cur.kind = .dir) (hsegs : ∀ s ∈ segs, Segment s) (hne : segs ≠ []) :
    ∃ path, path.length = segs.length ∧ Shows low i path cur (addRow low row i segs cur) := by
  induction segs generalizing cur with
  | nil => exact absurd rfl hne
  | cons seg rest ih =>
    have hseg := hsegs seg (List.mem_cons_self ..)
    obtain ⟨htwin, htname, htfree⟩ := twinName_spec hs hseg
    cases rest with
    | nil =>
      unfold addRow
      cases hhit : cur.hit low seg with
      | none => exact ⟨[seg], rfl, .leaf hs hseg ((hit_none hs).1 hhit) row.kind i⟩
      | some pc =>
        obtain ⟨p, c⟩ := pc
        obtain ⟨hget, -⟩ := (hit_some hs).1 hhit
        dsimp only
        split_ifs with hjoin
        · obtain ⟨-, hrow, -⟩ := hjoin
          refine ⟨[c.name], rfl, .below hs hget ⟨rfl, rfl, ?_, ?_⟩⟩
          · obtain ⟨-, -, -, -, hbelow⟩ := hs
            obtain ⟨hnodup, hby, htw, hnames, hb⟩ := hbelow c (List.mem_of_getElem? hget)
            exact .mk hnodup hby htw hnames hb
          · rw [StashNode.shown_eq, StashNode.shown_eq c, hrow]
            rfl
        · refine ⟨[(cur.twinName low seg).1], rfl, htwin.shows (.leaf htwin.sound htname ?_ row.kind i)⟩
          rwa [htwin.children]
    | cons next rest =>
      have ih := fun {cur} hs hdir => @ih cur hs hdir
        (fun s hmem => hsegs s (List.mem_cons_of_mem _ hmem)) (List.cons_ne_nil _ _)
      have hlen (path : List Units) (name : Units) (h : path.length = (next :: rest).length) :
          (name :: path).length = (seg :: next :: rest).length := by
        simp [h]
      unfold addRow
      cases hhit : cur.hit low seg with
      | none =>
        obtain ⟨path, hpath, hshows⟩ := ih (sound_leaf seg .dir none) rfl
        exact ⟨seg :: path, hlen path seg hpath,
          .folder (.refl (Sound.add hs (sound_leaf ..) hseg ((hit_none hs).1 hhit))) hshows⟩
      | some pc =>
        obtain ⟨p, c⟩ := pc
        obtain ⟨hget, -⟩ := (hit_some hs).1 hhit
        have hbelow (q : Nat) (d : StashNode) (hd : cur.children[q]? = some d) (hkind : d.kind = .dir) :
            ∃ path, path.length = (seg :: next :: rest).length ∧
              Shows low i path cur (cur.modify q (addRow low row i (next :: rest))) := by
          have hsound : d.Sound low := by
            obtain ⟨-, -, -, -, hbelow⟩ := hs
            exact hbelow d (List.mem_of_getElem? hd)
          obtain ⟨path, hpath, hshows⟩ := ih hsound hkind
          exact ⟨d.name :: path, hlen path d.name hpath, .below hs hd hshows⟩
        dsimp only
        split_ifs with hkind
        · exact hbelow p c hget hkind
        · cases hlookup : cur.index.twinDir.lookup p with
          | some q =>
            obtain ⟨d, hd, hdkind⟩ : ∃ d, cur.children[q]? = some d ∧ d.kind = .dir := by
              obtain ⟨-, -, htw, -, -⟩ := hs
              exact htw p q hlookup
            exact hbelow q d hd hdkind
          | none =>
            have hfree : low.lower (cur.twinName low seg).1 ∉ keys low (cur.twinName low seg).2.children := by
              rwa [htwin.children]
            have hadd := Sound.add htwin.sound (sound_leaf (cur.twinName low seg).1 .dir none) htname hfree
            obtain ⟨path, hpath, hshows⟩ := ih (sound_leaf (cur.twinName low seg).1 .dir none) rfl
            exact ⟨_ :: path, hlen path _ hpath,
              htwin.shows (.folder (Sound.setTwin hadd (add_last ..) rfl p) hshows)⟩

-- ---------------------------------------------------------------------------
-- A path that is kept
-- ---------------------------------------------------------------------------

/-- A path whose parts are folders there are, as they are spelled, up to a
name that is not taken. -/
inductive Settled (low : LowerCase) : List Units → StashNode → Prop
  | free (h : cur.hit low seg = none) : Settled low (seg :: rest) cur
  | within (h : cur.hit low c.name = some (p, c)) (hdir : c.kind = .dir)
      (below : Settled low (next :: rest) c) : Settled low (c.name :: next :: rest) cur

theorem hit_folder (name seg : Units) : (folder name).hit low seg = none := rfl

/-- A settled path is the one its row is shown at. -/
theorem Settled.shows (row : Row) (i : Nat) {segs : List Units} (h : Settled low segs cur)
    (hs : StashNode.Sound low cur) (hsegs : ∀ s ∈ segs, Segment s) :
    Shows low i segs cur (addRow low row i segs cur) := by
  induction segs generalizing cur with
  | nil => cases h
  | cons seg rest ih =>
    have hseg := hsegs seg (List.mem_cons_self ..)
    have hrest := fun s hmem => hsegs s (List.mem_cons_of_mem seg hmem)
    cases h with
    | free hhit =>
      have hfree := (hit_none hs).1 hhit
      cases rest with
      | nil =>
        simp only [addRow, hhit]
        exact .leaf hs hseg hfree row.kind i
      | cons next rest =>
        simp only [addRow, hhit]
        exact .folder (.refl (Sound.add hs (sound_leaf ..) hseg hfree))
          (ih (.free (hit_folder ..)) (sound_leaf ..) hrest)
    | within hhit hdir below =>
      obtain ⟨hget, -⟩ := (hit_some hs).1 hhit
      simp only [addRow, hhit, if_pos hdir]
      refine .below hs hget (ih below ?_ hrest)
      obtain ⟨-, -, -, -, hbelow⟩ := hs
      exact hbelow _ (List.mem_of_getElem? hget)

theorem place_none (segs : List Units) : place low segs none = segs := by
  induction segs with
  | nil => rfl
  | cons seg rest ih => simp [place, ih]

theorem place_ne_nil (low : LowerCase) (cur : Option StashNode) (seg : Units) (rest : List Units) :
    place low (seg :: rest) cur ≠ [] := by
  unfold place
  split <;> simp_all
  all_goals (repeat' split) <;> simp

/-- What the chooser gives. -/
theorem place_settled {segs : List Units} (hs : StashNode.Sound low cur)
    (hsegs : ∀ s ∈ segs, Segment s) (hne : segs ≠ []) :
    Settled low (place low segs (some cur)) cur ∧ ∀ s ∈ place low segs (some cur), Segment s := by
  induction segs generalizing cur with
  | nil => exact absurd rfl hne
  | cons seg rest ih =>
    have hseg := hsegs seg (List.mem_cons_self ..)
    obtain ⟨hkname, hkfree⟩ := keepBothName_spec low hseg cur
    have hkept := (hit_none hs).2 hkfree
    cases rest with
    | nil =>
      unfold place
      cases hfind : cur.find low seg with
      | none => exact ⟨.free ((find_none hs).1 hfind), by simpa using hseg⟩
      | some hit => exact ⟨.free hkept, by simpa using hkname⟩
    | cons next rest =>
      have hrest : ∀ s ∈ next :: rest, Segment s := fun s hmem => hsegs s (List.mem_cons_of_mem _ hmem)
      unfold place
      cases hfind : cur.find low seg with
      | none =>
        dsimp only
        rw [place_none]
        exact ⟨.free ((find_none hs).1 hfind), List.forall_mem_cons.2 ⟨hseg, hrest⟩⟩
      | some hit =>
        obtain ⟨p, hhit⟩ := (find_some hs).1 hfind
        obtain ⟨hget, hkey⟩ := (hit_some hs).1 hhit
        dsimp only
        split_ifs with hkind
        · have hself : cur.hit low hit.name = some (p, hit) := (hit_some hs).2 ⟨hget, rfl⟩
          obtain ⟨-, -, -, hnames, hbelow⟩ := hs
          obtain ⟨hsettled, hsegments⟩ := ih (hbelow hit (List.mem_of_getElem? hget)) hrest (List.cons_ne_nil _ _)
          obtain ⟨a, as, heq⟩ := List.exists_cons_of_ne_nil (place_ne_nil low (some hit) next rest)
          rw [heq] at hsettled hsegments ⊢
          exact ⟨.within hself hkind hsettled,
            List.forall_mem_cons.2 ⟨hnames hit (List.mem_of_getElem? hget), hsegments⟩⟩
        · rw [place_none]
          exact ⟨.free hkept, List.forall_mem_cons.2 ⟨hkname, hrest⟩⟩

-- ---------------------------------------------------------------------------
-- The whole tree
-- ---------------------------------------------------------------------------

theorem slash_not_mem {path : Units} : ∀ s ∈ path.splitOn slash, slash ∉ s := by
  induction path with
  | nil => simp
  | cons u path ih =>
    rw [List.splitOn_cons_eq_if_modifyHead]
    split_ifs with hu
    · exact List.forall_mem_cons.2 ⟨by simp, ih⟩
    · obtain ⟨first, rest, heq⟩ := List.exists_cons_of_ne_nil (List.splitOn_ne_nil slash path)
      rw [heq] at ih ⊢
      obtain ⟨hfirst, hrest⟩ := List.forall_mem_cons.1 ih
      refine List.forall_mem_cons.2 ⟨?_, hrest⟩
      rintro (_ | ⟨_, hmem⟩)
      · exact hu (beq_self_eq_true _)
      · exact hfirst hmem

theorem segment_of_mem {path : Units} (h : s ∈ segments path) : Segment s := by
  obtain ⟨hmem, hne⟩ := List.mem_filter.1 h
  exact ⟨by simpa using hne, slash_not_mem s hmem⟩

theorem segments_join {segs : List Units} (h : ∀ s ∈ segs, Segment s) (hne : segs ≠ []) :
    segments ([slash].intercalate segs) = segs := by
  rw [segments, List.splitOn_intercalate _ (fun s hs => (h s hs).2) hne, List.filter_eq_self]
  intro s hs
  simpa using (h s hs).1

theorem stashTree_concat (low : LowerCase) (rows : List Row) (row : Row) :
    stashTree low (rows ++ [row]) = addRow low row rows.length (segments row.path) (stashTree low rows) := by
  simp [stashTree, List.zipIdx_append]

/-- The rows whose path has a part, by number. -/
def named (rows : List Row) : List Nat :=
  (rows.zipIdx.filter fun (row, _) => segments row.path ≠ []).map Prod.snd

theorem named_concat (rows : List Row) (row : Row) :
    named (rows ++ [row]) =
      if segments row.path = [] then named rows else named rows ++ [rows.length] := by
  rw [named, List.zipIdx_append, List.filter_append, List.map_append]
  split_ifs with h <;> simp [named, h]

/-- The tree of some rows: each row with a part once, at its depth. -/
structure Built (low : LowerCase) (rows : List Row) (tree : StashNode) : Prop where
  dir : tree.kind = .dir
  sound : tree.Sound low
  listed : (tree.shown.map Prod.fst).Perm (named rows)
  depth : ∀ shown ∈ tree.shown,
    ∃ row, rows[shown.1]? = some row ∧ shown.2.length = (segments row.path).length

theorem Built.concat {rows : List Row} (h : Built low rows tree) (row : Row) :
    Built low (rows ++ [row]) (addRow low row rows.length (segments row.path) tree) := by
  obtain ⟨hdir, hsound, hrows, hdepth⟩ := h
  have hold : ∀ shown ∈ tree.shown,
      ∃ row', (rows ++ [row])[shown.1]? = some row' ∧ shown.2.length = (segments row'.path).length := by
    intro shown hmem
    obtain ⟨row', hget, hlen⟩ := hdepth shown hmem
    exact ⟨row', by rw [List.getElem?_append_left (List.getElem?_eq_some_iff.1 hget).1, hget], hlen⟩
  by_cases hne : segments row.path = []
  · refine ⟨?_, ?_, ?_, ?_⟩ <;> simp only [hne, addRow, named_concat, if_true]
    · exact hdir
    · exact hsound
    · exact hrows
    · exact hold
  · obtain ⟨path, hlen, hshows⟩ := addRow_shows row rows.length hsound hdir
      (fun s => segment_of_mem) hne
    refine ⟨hshows.kind.trans hdir, hshows.sound, ?_, ?_⟩
    · rw [named_concat, if_neg hne]
      refine (hshows.shown.map _).trans ?_
      exact (hrows.cons _).trans (List.perm_append_singleton _ _).symm
    · intro shown hmem
      rcases List.mem_cons.1 (hshows.shown.mem_iff.1 hmem) with rfl | hmem
      · exact ⟨row, by simp, hlen⟩
      · exact hold shown hmem

theorem built (low : LowerCase) (rows : List Row) : Built low rows (stashTree low rows) := by
  induction rows using List.reverseRecOn with
  | nil => exact ⟨rfl, sound_leaf .., .refl _, by simp [stashTree, folder, StashNode.shown, shownAll]⟩
  | append_singleton rows row ih =>
    rw [stashTree_concat]
    exact ih.concat row

/-- The tree shows each row that has a path once and as deep as its path, no
two names of a folder are one, and a row stored at the path chosen for it is
shown there, every other row where it was. -/
theorem stash_paths (low : LowerCase) (rows : List Row) :
    (stashTree low rows).Distinct low ∧
    (rowsUnder (stashTree low rows)).Perm (named rows) ∧
    (∀ shown ∈ (stashTree low rows).shown,
      ∃ row, rows[shown.1]? = some row ∧ shown.2.length = (segments row.path).length) ∧
    ∀ path kind,
      let chosen := uniqueStashPath low rows path
      let more := stashTree low (rows ++ [⟨chosen, kind⟩])
      [slash].intercalate (segments chosen) = chosen ∧
      if segments path = [] then more = stashTree low rows
      else more.shown.Perm ((rows.length, segments chosen) :: (stashTree low rows).shown) := by
  obtain ⟨-, hsound, hrows, hdepth⟩ := built low rows
  refine ⟨hsound.distinct_all, by rwa [rowsUnder_eq], hdepth, ?_⟩
  intro path kind
  dsimp only
  rw [stashTree_concat]
  by_cases hne : segments path = []
  · have hchosen : uniqueStashPath low rows path = [] := by rw [uniqueStashPath, hne]; rfl
    rw [hchosen, if_pos hne]
    exact ⟨rfl, rfl⟩
  · obtain ⟨hsettled, hsegs⟩ := place_settled hsound (fun s => segment_of_mem) hne
    obtain ⟨seg, rest, hpath⟩ := List.exists_cons_of_ne_nil hne
    have hparts : segments (uniqueStashPath low rows path) =
        place low (segments path) (some (stashTree low rows)) := by
      refine segments_join hsegs ?_
      rw [hpath]
      exact place_ne_nil low _ seg rest
    rw [if_neg hne, hparts]
    exact ⟨rfl, (hsettled.shows _ _ hsound hsegs).shown⟩

/-- A row without a path has no node. -/
theorem empty_path_has_no_node : ¬ ∀ (low : LowerCase) (rows : List Row),
    (rowsUnder (stashTree low rows)).Perm (List.range rows.length) := by
  intro h
  have hlen := (h .ascii [⟨units "//", .file⟩]).length_eq
  revert hlen
  decide

end WebAdf.Files
