import WebAdf.Files.DiskZip
import Mathlib.Data.List.Induction
import Mathlib.Tactic.Common

/-!
# The paths of a download

A download holds every entry of its tops once, under the safe names on the way to it,
and its paths stay below the folder it is unpacked in. They are apart, whatever the
case of their letters, exactly when in every folder the safe names are.
-/

namespace WebAdf.Files.DiskZip

open Lib
open Adffs (Adf AdfEntry Kind readFile)

-- ---------------------------------------------------------------------------
-- Safe names
-- ---------------------------------------------------------------------------

/-- A component of a path that leads nowhere else. -/
structure Harmless (part : Units) : Prop where
  ne : part ≠ []
  not_dot : part ≠ [dot]
  not_dots : part ≠ [dot, dot]
  units : ∀ u ∈ part, hostile u = false

theorem safe_harmless (name : Units) : Harmless (safe name) := by
  have hunits : ∀ u ∈ name.map fun u => if hostile u then underscore else u, hostile u = false := by
    rintro u hu
    obtain ⟨v, -, rfl⟩ := List.mem_map.mp hu
    split
    · decide
    · rename_i h
      simpa using h
  rw [safe]
  split
  · exact ⟨by decide, by decide, by decide, by decide⟩
  rename_i hne
  split
  · rename_i hdots
    obtain hdots | hdots := hdots
    · rw [hdots]
      exact ⟨by decide, by decide, by decide, by decide⟩
    · rw [hdots]
      exact ⟨by decide, by decide, by decide, by decide⟩
  · rename_i hdots
    rw [not_or] at hdots
    exact ⟨hne, hdots.1, hdots.2, hunits⟩

theorem safe_of_harmless (h : Harmless name) : safe name = name := by
  have hsame : (name.map fun u => if hostile u then underscore else u) = name := by
    refine (List.map_congr_left fun u hu => ?_).trans (List.map_id name)
    rw [if_neg (by rw [h.units u hu]; exact Bool.false_ne_true), id]
  rw [safe]
  rw [hsame, if_neg h.ne, if_neg (not_or.mpr ⟨h.not_dot, h.not_dots⟩)]

theorem numbered_eq (name : Units) (n : Nat) :
    numbered name n = (stemExt name).1 ++ count n ++ (stemExt name).2 := by
  rw [numbered, stemExt]
  split
  · rfl
  · rw [List.append_nil]

theorem stemExt_append (name : Units) : (stemExt name).1 ++ (stemExt name).2 = name := by
  rw [stemExt]
  split
  · exact List.take_append_drop ..
  · exact List.append_nil name

theorem count_units (n : Nat) : ∀ u ∈ count n, hostile u = false := by
  rintro u hu
  rw [count, List.mem_append, List.mem_append] at hu
  obtain (hu | hu) | hu := hu
  · revert u
    decide
  · have hdigit := digits_numberText n u hu
    simp only [isDigit, Bool.and_eq_true, decide_eq_true_eq, UInt16.le_iff_toNat_le] at hdigit
    simp only [hostile, Bool.or_eq_false_iff, beq_eq_false_iff_ne, decide_eq_false_iff_not,
      UInt16.lt_iff_toNat_lt, ne_eq, ← UInt16.toNat_inj]
    simp [slash, backslash, colon] at hdigit ⊢
    omega
  · revert u
    decide

theorem numbered_harmless (h : Harmless name) (n : Nat) : Harmless (numbered name n) := by
  have hparen : (0x28 : UInt16) ∈ numbered name n := by
    rw [numbered_eq]
    simp [count]
  refine ⟨List.ne_nil_of_mem hparen, ?_, ?_, ?_⟩
  · rintro heq
    rw [heq] at hparen
    revert hparen
    decide
  · rintro heq
    rw [heq] at hparen
    revert hparen
    decide
  · rintro u hu
    have hname := h.units
    rw [← stemExt_append name] at hname
    rw [numbered_eq] at hu
    obtain hu | hu := List.mem_append.mp hu
    · obtain hu | hu := List.mem_append.mp hu
      · exact hname u (List.mem_append_left _ hu)
      · exact count_units n u hu
    · exact hname u (List.mem_append_right _ hu)

-- ---------------------------------------------------------------------------
-- Numbers of tops
-- ---------------------------------------------------------------------------

variable {low : LowerCase}

theorem lower_around {ds : Units} (a b : Units) (hne : ds ≠ []) (hds : ∀ u ∈ ds, isDigit u = true) :
    low.lower (a ++ ds ++ b) = low.lower a ++ ds ++ low.lower b := by
  cases ds with
  | nil => exact absurd rfl hne
  | cons d ds =>
    rw [List.forall_mem_cons] at hds
    rw [List.append_assoc, List.cons_append, low.around a d (ds ++ b) (by simp [hds.1]),
      lower_digits low hds.2, List.append_assoc, List.cons_append]

theorem numbered_inj (h : low.lower (numbered base n) = low.lower (numbered base m)) : n = m := by
  have hlower : ∀ k, low.lower (numbered base k) =
      low.lower ((stemExt base).1 ++ [0x20, 0x28]) ++ numberText k ++
        low.lower ([0x29] ++ (stemExt base).2) := by
    rintro k
    have hne : numberText k ≠ [] := fun h => Nat.toDigits_ne_nil (List.map_eq_nil_iff.mp h)
    rw [numbered_eq, ← lower_around _ _ hne (digits_numberText k), count]
    simp only [List.append_assoc]
  rw [hlower, hlower] at h
  exact numberText_inj (List.append_cancel_left (List.append_cancel_right h))

/-- A name is `base` or `base` numbered. -/
def Numbered (base name : Units) : Prop := name = base ∨ ∃ n, name = numbered base n

theorem freeName_numbered (h : Numbered base name) (taken : List Units) (fuel n : Nat) :
    Numbered base (freeName low taken base fuel n name) := by
  induction fuel generalizing n name with
  | zero => exact h
  | succ fuel ih =>
    rw [freeName]
    split
    · exact ih (.inr ⟨n, rfl⟩) _
    · exact h

/-- Where every look finds the name taken, so is every number from the first on. -/
theorem freeName_taken (h : low.lower (freeName low taken base fuel n name) ∈ taken) :
    ∀ k, n ≤ k → k + 1 < n + fuel → low.lower (numbered base k) ∈ taken := by
  induction fuel generalizing n name with
  | zero =>
    rintro k hk hlt
    omega
  | succ fuel ih =>
    rintro k hk hlt
    rw [freeName] at h
    split at h
    · obtain rfl | hk := Nat.eq_or_lt_of_le hk
      · cases fuel with
        | zero => omega
        | succ fuel =>
          by_contra hfree
          rw [freeName, if_neg hfree] at h
          exact hfree h
      · exact ih h k hk (by omega)
    · rename_i hfree
      exact absurd h hfree

theorem topName_free (taken : List Units) (base : Units) :
    low.lower (topName low taken base) ∉ taken := by
  intro h
  have hall := freeName_taken h
  have hnodup : ((List.range' 2 (taken.length + 1)).map fun k => low.lower (numbered base k)).Nodup :=
    List.Nodup.map (fun n m h => numbered_inj h) List.nodup_range'
  have hsub : ((List.range' 2 (taken.length + 1)).map fun k => low.lower (numbered base k)) ⊆ taken := by
    rintro x hx
    obtain ⟨k, hk, rfl⟩ := List.mem_map.mp hx
    obtain ⟨hle, hlt⟩ := List.mem_range'_1.mp hk
    exact hall k hle (by omega)
  have hlen := (hnodup.subperm hsub).length_le
  rw [List.length_map, List.length_range'] at hlen
  omega

theorem topName_kept (h : low.lower base ∉ taken) : topName low taken base = base := by
  rw [topName, freeName, if_neg h]

theorem topName_harmless (h : Harmless base) (taken : List Units) :
    Harmless (topName low taken base) := by
  obtain heq | ⟨n, heq⟩ : Numbered base (topName low taken base) := freeName_numbered (.inl rfl) ..
  · rwa [heq]
  · rw [heq]
    exact numbered_harmless h n

-- ---------------------------------------------------------------------------
-- Trees
-- ---------------------------------------------------------------------------

/-- What a top holds. -/
inductive Tree where
  | file (name : Units) (bytes : Bytes)
  | dir (name : Units) (children : List Tree)

def Tree.name : Tree → Units
  | .file name _ => name
  | .dir name _ => name

mutual
/-- The entries of a tree whose own component is `top`: the components of each path, and
a file's bytes. -/
def Tree.entries (top : Units) : Tree → List (List Units × Option Bytes)
  | .file _ bytes => [([top], some bytes)]
  | .dir _ children => ([top], none) :: (entriesOf children).map fun e => (top :: e.1, e.2)
def entriesOf : List Tree → List (List Units × Option Bytes)
  | [] => []
  | c :: cs => c.entries (safe c.name) ++ entriesOf cs
end

mutual
/-- The same as the paths below the top's name. -/
def Tree.files : Tree → Units → List (Units × Option Bytes)
  | .file _ bytes, rel => [(rel, some bytes)]
  | .dir _ children, rel => (rel ++ [slash], none) :: filesOf children rel
def filesOf : List Tree → Units → List (Units × Option Bytes)
  | [], _ => []
  | c :: cs, rel => c.files (rel ++ slash :: safe c.name) ++ filesOf cs rel
end

/-- An entry as the archive has it. -/
def written (e : List Units × Option Bytes) : ZipFile :=
  ⟨[slash].intercalate e.1 ++ if e.2.isNone then [slash] else [], e.2⟩

theorem intercalate_below (pre : List Units) (hpre : pre ≠ []) (part : Units) :
    [slash].intercalate (pre ++ [part]) = [slash].intercalate pre ++ slash :: part := by
  induction pre with
  | nil => exact absurd rfl hpre
  | cons p ps ih =>
    cases ps with
    | nil => simp [List.intercalate_cons_cons]
    | cons q qs =>
      have hrest := ih (List.cons_ne_nil _ _)
      rw [List.cons_append] at hrest
      rw [List.cons_append, List.cons_append, List.intercalate_cons_cons, hrest,
        List.intercalate_cons_cons]
      simp only [List.append_assoc]

mutual
theorem Tree.files_written (t : Tree) {pre : List Units} {top rel name : Units}
    (h : name ++ rel = [slash].intercalate (pre ++ [top])) :
    (t.files rel).map (fun f => (⟨name ++ f.1, f.2⟩ : ZipFile)) =
      (t.entries top).map fun e => written (pre ++ e.1, e.2) := by
  cases t with
  | file n bytes =>
    simp only [Tree.files, Tree.entries, List.map_cons, List.map_nil, written, h]
    simp
  | dir n children =>
    have hchildren := filesOf_written children h
    simp only [Tree.files, Tree.entries, List.map_cons, List.map_map, written, ← List.append_assoc, h]
    rw [hchildren]
    rfl
theorem filesOf_written (cs : List Tree) {pre : List Units} {top rel name : Units}
    (h : name ++ rel = [slash].intercalate (pre ++ [top])) :
    (filesOf cs rel).map (fun f => (⟨name ++ f.1, f.2⟩ : ZipFile)) =
      (entriesOf cs).map fun e => written (pre ++ top :: e.1, e.2) := by
  cases cs with
  | nil => rfl
  | cons c cs =>
    have hbelow : name ++ (rel ++ slash :: safe c.name) =
        [slash].intercalate (pre ++ [top] ++ [safe c.name]) := by
      rw [intercalate_below _ (by simp), ← h, List.append_assoc]
    have hfirst := c.files_written hbelow
    have hrest := filesOf_written cs h
    simp only [filesOf, entriesOf, List.map_append, hfirst, hrest, List.append_assoc,
      List.singleton_append]
end

theorem Tree.entries_below (t : Tree) (top : Units) (he : e ∈ t.entries top) :
    ∃ rest, e.1 = top :: rest := by
  cases t with
  | file n bytes =>
    rw [Tree.entries, List.mem_singleton] at he
    exact ⟨[], by rw [he]⟩
  | dir n children =>
    rw [Tree.entries, List.mem_cons] at he
    obtain rfl | he := he
    · exact ⟨[], rfl⟩
    · obtain ⟨e', -, rfl⟩ := List.mem_map.mp he
      exact ⟨e'.1, rfl⟩

theorem Tree.entries_own (t : Tree) (top : Units) : ∃ b, ([top], b) ∈ t.entries top := by
  cases t with
  | file n bytes => exact ⟨some bytes, by simp [Tree.entries]⟩
  | dir n children => exact ⟨none, by simp [Tree.entries]⟩

theorem mem_entriesOf : e ∈ entriesOf cs ↔ ∃ c ∈ cs, e ∈ c.entries (safe c.name) := by
  induction cs with
  | nil => simp [entriesOf]
  | cons c cs ih => simp [entriesOf, ih]

mutual
theorem Tree.entries_harmless (t : Tree) (htop : Harmless top) :
    ∀ e ∈ t.entries top, ∀ p ∈ e.1, Harmless p := by
  cases t with
  | file n bytes =>
    rintro e he p hp
    rw [Tree.entries, List.mem_singleton] at he
    rw [he] at hp
    rwa [List.mem_singleton.mp hp]
  | dir n children =>
    rintro e he p hp
    rw [Tree.entries, List.mem_cons] at he
    obtain rfl | he := he
    · rwa [List.mem_singleton.mp hp]
    · obtain ⟨e', he', rfl⟩ := List.mem_map.mp he
      obtain rfl | hp := List.mem_cons.mp hp
      · exact htop
      · exact entriesOf_harmless children e' he' p hp
theorem entriesOf_harmless (cs : List Tree) : ∀ e ∈ entriesOf cs, ∀ p ∈ e.1, Harmless p := by
  cases cs with
  | nil => simp [entriesOf]
  | cons c cs =>
    rintro e he p hp
    rw [entriesOf, List.mem_append] at he
    obtain he | he := he
    · exact c.entries_harmless (safe_harmless c.name) e he p hp
    · exact entriesOf_harmless cs e he p hp
end

-- ---------------------------------------------------------------------------
-- Paths apart
-- ---------------------------------------------------------------------------

variable (low)

/-- The components of a file's path, whatever their case. -/
def lowers (f : ZipFile) : List Units :=
  ((if f.bytes.isNone then f.path.dropLast else f.path).splitOn slash).map low.lower

/-- Two files of one path, or one a folder above the other that is a file. -/
def Clash (f g : ZipFile) : Prop :=
  lowers low f = lowers low g ∨ (f.bytes ≠ none ∧ lowers low f <+: lowers low g) ∨
    (g.bytes ≠ none ∧ lowers low g <+: lowers low f)

/-- The same of the components themselves. -/
def Meets (e e' : List Units × Option Bytes) : Prop :=
  e.1.map low.lower = e'.1.map low.lower ∨
    (e.2 ≠ none ∧ e.1.map low.lower <+: e'.1.map low.lower) ∨
    (e'.2 ≠ none ∧ e'.1.map low.lower <+: e.1.map low.lower)

/-- The children of a folder have safe names of their own, whatever their case. -/
def ApartIn (cs : List Tree) : Prop :=
  cs.Pairwise fun a b => low.lower (safe a.name) ≠ low.lower (safe b.name)

mutual
/-- So have those of every folder of a tree. -/
def Tree.Tidy : Tree → Prop
  | .file _ _ => True
  | .dir _ children => ApartIn low children ∧ TidyAll children
def TidyAll : List Tree → Prop
  | [] => True
  | c :: cs => c.Tidy ∧ TidyAll cs
end

variable {low}

theorem meets_below : Meets low (top :: p, b) (top :: q, b') ↔ Meets low (p, b) (q, b') := by
  simp [Meets, List.cons_prefix_cons]

theorem meets_own (h : low.lower top = low.lower top') : Meets low ([top], b) ([top'], b') := by
  simp [Meets, h]

theorem not_meets (h : low.lower top ≠ low.lower top') (p q : List Units) :
    ¬Meets low (top :: p, b) (top' :: q, b') := by
  simp [Meets, List.cons_prefix_cons, h, Ne.symm h]

/-- A folder meets nothing below itself. -/
theorem not_meets_folder (hq : q ≠ []) : ¬Meets low ([top], none) (top :: q, b) := by
  simp [Meets, List.cons_prefix_cons, hq]

theorem entries_apart_iff (t t' : Tree) :
    (∀ e ∈ t.entries top, ∀ e' ∈ t'.entries top', ¬Meets low e e') ↔
      low.lower top ≠ low.lower top' := by
  constructor
  · rintro h hsame
    obtain ⟨b, hb⟩ := t.entries_own top
    obtain ⟨b', hb'⟩ := t'.entries_own top'
    exact h _ hb _ hb' (meets_own hsame)
  · rintro hne ⟨p, b⟩ he ⟨q, b'⟩ he'
    obtain ⟨p', rfl⟩ := t.entries_below top he
    obtain ⟨q', rfl⟩ := t'.entries_below top' he'
    exact not_meets hne p' q'

mutual
theorem Tree.pairwise_iff (t : Tree) (top : Units) :
    (t.entries top).Pairwise (fun e e' => ¬Meets low e e') ↔ t.Tidy low := by
  cases t with
  | file n bytes => simp [Tree.entries, Tree.Tidy]
  | dir n children =>
    have hfolder : ∀ e ∈ (entriesOf children).map fun e => (top :: e.1, e.2),
        ¬Meets low ([top], none) e := by
      rintro e he
      obtain ⟨⟨p, b⟩, he', rfl⟩ := List.mem_map.mp he
      obtain ⟨c, -, hc⟩ := mem_entriesOf.mp he'
      obtain ⟨rest, rfl⟩ := c.entries_below _ hc
      exact not_meets_folder (List.cons_ne_nil _ _)
    rw [Tree.entries, Tree.Tidy, List.pairwise_cons, List.pairwise_map]
    simp only [meets_below]
    rw [and_iff_right hfolder]
    exact entriesOf_pairwise_iff children
theorem entriesOf_pairwise_iff (cs : List Tree) :
    (entriesOf cs).Pairwise (fun e e' => ¬Meets low e e') ↔ ApartIn low cs ∧ TidyAll low cs := by
  cases cs with
  | nil => simp [entriesOf, ApartIn, TidyAll]
  | cons c cs =>
    have hcross : (∀ e ∈ c.entries (safe c.name), ∀ e' ∈ entriesOf cs, ¬Meets low e e') ↔
        ∀ d ∈ cs, low.lower (safe c.name) ≠ low.lower (safe d.name) := by
      constructor
      · rintro h d hd
        refine (entries_apart_iff c d).1 fun e he e' he' => h e he e' ?_
        exact mem_entriesOf.mpr ⟨d, hd, he'⟩
      · rintro h e he e' he'
        obtain ⟨d, hd, he'⟩ := mem_entriesOf.mp he'
        exact (entries_apart_iff c d).2 (h d hd) e he e' he'
    have hcons : ApartIn low (c :: cs) ↔
        (∀ d ∈ cs, low.lower (safe c.name) ≠ low.lower (safe d.name)) ∧ ApartIn low cs :=
      List.pairwise_cons
    rw [entriesOf, List.pairwise_append, c.pairwise_iff, entriesOf_pairwise_iff cs, hcross, hcons,
      TidyAll]
    exact ⟨fun ⟨hc, ⟨hcs, hall⟩, hd⟩ => ⟨⟨hd, hcs⟩, hc, hall⟩,
      fun ⟨⟨hd, hcs⟩, hc, hall⟩ => ⟨hc, ⟨hcs, hall⟩, hd⟩⟩
end

/-- The components of a written path are what was written. -/
theorem lowers_written (hne : e.1 ≠ []) (h : ∀ p ∈ e.1, Harmless p) :
    lowers low (written e) = e.1.map low.lower := by
  have hslash : ∀ p ∈ e.1, slash ∉ p := by
    rintro p hp hmem
    have hhostile := (h p hp).units slash hmem
    revert hhostile
    decide
  have hbody : (if (written e).bytes.isNone then (written e).path.dropLast else (written e).path) =
      [slash].intercalate e.1 := by
    rw [written]
    dsimp only
    split
    · exact List.dropLast_concat
    · exact List.append_nil _
  rw [lowers, hbody, List.splitOn_intercalate slash hslash hne]

theorem clash_written (hne : e.1 ≠ []) (h : ∀ p ∈ e.1, Harmless p) (hne' : e'.1 ≠ [])
    (h' : ∀ p ∈ e'.1, Harmless p) : Clash low (written e) (written e') ↔ Meets low e e' := by
  rw [Clash, lowers_written hne h, lowers_written hne' h']
  rfl

-- ---------------------------------------------------------------------------
-- The archive
-- ---------------------------------------------------------------------------

/-- A tree as a top that was read. -/
def Tree.read (t : Tree) : ReadTop := ⟨t.name, t.files []⟩

/-- The names of the tops, behind those whose names are `taken`. -/
def topNames (low : LowerCase) : List Units → List Tree → List Units
  | _, [] => []
  | taken, t :: trees =>
    let name := topName low taken (safe t.name)
    name :: topNames low (low.lower name :: taken) trees

/-- Every entry of every top, below the top's name. -/
def archive (names : List Units) (trees : List Tree) : List (List Units × Option Bytes) :=
  (names.zip trees).flatMap fun p => p.2.entries p.1

theorem length_topNames (low : LowerCase) (taken : List Units) (trees : List Tree) :
    (topNames low taken trees).length = trees.length := by
  induction trees generalizing taken with
  | nil => rfl
  | cons t trees ih => rw [topNames, List.length_cons, ih, List.length_cons]

theorem topNames_harmless (low : LowerCase) (taken : List Units) (trees : List Tree) :
    ∀ name ∈ topNames low taken trees, Harmless name := by
  induction trees generalizing taken with
  | nil => simp [topNames]
  | cons t trees ih =>
    rintro name hname
    rw [topNames, List.mem_cons] at hname
    obtain rfl | hname := hname
    · exact topName_harmless (safe_harmless t.name) taken
    · exact ih _ name hname

theorem topNames_apart (low : LowerCase) (taken : List Units) (trees : List Tree) :
    (topNames low taken trees).Pairwise (fun a b => low.lower a ≠ low.lower b) ∧
      ∀ name ∈ topNames low taken trees, low.lower name ∉ taken := by
  induction trees generalizing taken with
  | nil => simp [topNames]
  | cons t trees ih =>
    obtain ⟨hrest, hfree⟩ := ih (low.lower (topName low taken (safe t.name)) :: taken)
    rw [topNames, List.pairwise_cons, List.forall_mem_cons]
    refine ⟨⟨fun b hb heq => ?_, hrest⟩, topName_free taken (safe t.name), fun name hname hmem => ?_⟩
    · exact hfree b hb (heq ▸ List.mem_cons_self ..)
    · exact hfree name hname (List.mem_cons_of_mem _ hmem)

/-- A name that needs no change and is not taken stays. -/
theorem topNames_kept (hsafe : Harmless t.name) (hnew : low.lower t.name ∉ taken) :
    (topNames low taken (t :: trees)).head? = some t.name := by
  rw [topNames, List.head?_cons, safe_of_harmless hsafe, topName_kept hnew]

theorem zipReadTops_written (low : LowerCase) (taken : List Units) (trees : List Tree) :
    zipReadTopsFrom low taken (trees.map Tree.read) =
      (archive (topNames low taken trees) trees).map written := by
  induction trees generalizing taken with
  | nil => rfl
  | cons t trees ih =>
    have hname : topName low taken (safe t.name) ++ [] =
        [slash].intercalate ([] ++ [topName low taken (safe t.name)]) := by simp
    have hfirst := t.files_written hname
    simp only [List.nil_append] at hfirst
    have hcons : ∀ n ns, archive (n :: ns) (t :: trees) = t.entries n ++ archive ns trees :=
      fun _ _ => rfl
    rw [List.map_cons, zipReadTopsFrom, ih, topNames, hcons, List.map_append]
    congr 1

theorem archive_harmless (low : LowerCase) (trees : List Tree) (taken : List Units) :
    ∀ e ∈ archive (topNames low taken trees) trees, e.1 ≠ [] ∧ ∀ p ∈ e.1, Harmless p := by
  rintro e he
  obtain ⟨⟨name, t⟩, hp, he⟩ := List.mem_flatMap.mp he
  obtain ⟨rest, hrest⟩ := t.entries_below name he
  refine ⟨by rw [hrest]; exact List.cons_ne_nil _ _, ?_⟩
  exact t.entries_harmless (topNames_harmless low taken trees name (List.of_mem_zip hp).1) e he

/-- The paths of an archive are apart exactly when every folder's safe names are. -/
theorem archive_apart_iff (low : LowerCase) (trees : List Tree) :
    ((archive (topNames low [] trees) trees).map written).Pairwise (fun f g => ¬Clash low f g) ↔
      ∀ t ∈ trees, t.Tidy low := by
  have hgood := archive_harmless low trees []
  have hcomponents : ((archive (topNames low [] trees) trees).map written).Pairwise
      (fun f g => ¬Clash low f g) ↔
      (archive (topNames low [] trees) trees).Pairwise fun e e' => ¬Meets low e e' := by
    rw [List.pairwise_map]
    constructor
    · refine fun h => h.imp_of_mem fun {e e'} he he' hclash => ?_
      rwa [clash_written (hgood e he).1 (hgood e he).2 (hgood e' he').1 (hgood e' he').2] at hclash
    · refine fun h => h.imp_of_mem fun {e e'} he he' hmeets => ?_
      rwa [clash_written (hgood e he).1 (hgood e he).2 (hgood e' he').1 (hgood e' he').2]
  have hlen := length_topNames low [] trees
  have hsnd : ((topNames low [] trees).zip trees).map Prod.snd = trees :=
    List.map_snd_zip (by omega)
  have hfst : ((topNames low [] trees).zip trees).map Prod.fst = topNames low [] trees :=
    List.map_fst_zip (by omega)
  have hnames := (topNames_apart low [] trees).1
  rw [← hfst, List.pairwise_map] at hnames
  rw [hcomponents, archive, List.pairwise_flatMap]
  constructor
  · rintro ⟨hin, -⟩ t ht
    rw [← hsnd] at ht
    obtain ⟨p, hp, rfl⟩ := List.mem_map.mp ht
    exact (p.2.pairwise_iff p.1).1 (hin p hp)
  · refine fun htidy => ⟨fun p hp => ?_, hnames.imp fun {p q} hne => ?_⟩
    · exact (p.2.pairwise_iff p.1).2 (htidy p.2 (List.of_mem_zip hp).2)
    · exact (entries_apart_iff p.2 q.2).2 hne

-- ---------------------------------------------------------------------------
-- What is read
-- ---------------------------------------------------------------------------

mutual
/-- An entry of an image with its files' bytes. -/
def load (adf : Adf) : AdfEntry → Option Tree
  | .mk name kind block _ _ _ _ children =>
    match kind with
    | .dir => (loadAll adf children).map (Tree.dir name)
    | .file => (readFile adf block).map fun content => Tree.file name content.bytes
def loadAll (adf : Adf) : List AdfEntry → Option (List Tree)
  | [] => some []
  | c :: cs => do
    let t ← load adf c
    let ts ← loadAll adf cs
    some (t :: ts)
end

theorem load_name (h : load adf e = some t) : t.name = e.name := by
  obtain ⟨name, kind, block, sizeBytes, modifiedAt, protection, comment, children⟩ := e
  rw [load.eq_def] at h
  cases kind with
  | dir =>
    obtain ⟨ts, -, rfl⟩ := Option.map_eq_some_iff.mp h
    rfl
  | file =>
    obtain ⟨content, -, rfl⟩ := Option.map_eq_some_iff.mp h
    rfl

theorem bind_ok {x : Except ε α} {f : α → Except ε β} (h : x >>= f = .ok b) :
    ∃ a, x = .ok a ∧ f a = .ok b := by
  cases x with
  | error e => cases h
  | ok a => exact ⟨a, rfl, h⟩

mutual
theorem readUnder_files (adf : Adf) (e : AdfEntry) (h : readUnder adf e rel = .ok fs) :
    ∃ t, load adf e = some t ∧ fs = t.files rel := by
  obtain ⟨name, kind, block, sizeBytes, modifiedAt, protection, comment, children⟩ := e
  rw [readUnder.eq_def] at h
  rw [load.eq_def]
  cases kind with
  | dir =>
    obtain ⟨files, hfiles, heq⟩ := bind_ok h
    obtain ⟨ts, hts, rfl⟩ := readChildren_files adf children hfiles
    refine ⟨.dir name ts, by dsimp only; rw [hts]; rfl, ?_⟩
    rw [← Except.ok.inj heq, Tree.files]
  | file =>
    dsimp only at h ⊢
    split at h
    · cases h
    · rename_i content hcontent
      refine ⟨.file name content.bytes, by rw [hcontent]; rfl, ?_⟩
      rw [← Except.ok.inj h, Tree.files]
theorem readChildren_files (adf : Adf) (cs : List AdfEntry) (h : readChildren adf cs rel = .ok fs) :
    ∃ ts, loadAll adf cs = some ts ∧ fs = filesOf ts rel := by
  cases cs with
  | nil =>
    rw [readChildren] at h
    exact ⟨[], by rw [loadAll], by rw [← Except.ok.inj h, filesOf]⟩
  | cons c cs =>
    rw [readChildren] at h
    obtain ⟨files, hfiles, h⟩ := bind_ok h
    obtain ⟨more, hmore, heq⟩ := bind_ok h
    obtain ⟨t, ht, rfl⟩ := readUnder_files adf c hfiles
    obtain ⟨ts, hts, rfl⟩ := readChildren_files adf cs hmore
    refine ⟨t :: ts, by rw [loadAll, ht, hts]; rfl, ?_⟩
    rw [← Except.ok.inj heq, filesOf, load_name ht]
end

theorem readTop_read (h : readTop adf e = .ok r) : ∃ t, load adf e = some t ∧ r = t.read := by
  obtain ⟨files, hfiles, heq⟩ := bind_ok h
  obtain ⟨t, ht, rfl⟩ := readUnder_files adf e hfiles
  refine ⟨t, ht, ?_⟩
  rw [← Except.ok.inj heq, Tree.read, load_name ht]

theorem zipTops_read {tops : List (Adf × AdfEntry)}
    (h : (tops.mapM fun t => readTop t.1 t.2) = .ok rs) :
    ∃ trees, (tops.mapM fun t => load t.1 t.2) = some trees ∧ rs = trees.map Tree.read := by
  induction tops generalizing rs with
  | nil =>
    rw [List.mapM_nil] at h
    exact ⟨[], rfl, (Except.ok.inj h).symm⟩
  | cons t tops ih =>
    rw [List.mapM_cons] at h
    obtain ⟨r, hr, h⟩ := bind_ok h
    obtain ⟨rs', hrs, heq⟩ := bind_ok h
    obtain ⟨tree, htree, rfl⟩ := readTop_read hr
    obtain ⟨trees, htrees, rfl⟩ := ih hrs
    refine ⟨tree :: trees, by rw [List.mapM_cons, htree, htrees]; rfl, (Except.ok.inj heq).symm⟩

/-- An entry of a device, a file perhaps without its bytes. -/
inductive Source where
  | file (name : Units) (bytes : Option Bytes) (size : Option Nat)
  | dir (name : Units) (children : List Source)

def Source.name : Source → Units
  | .file name _ _ => name
  | .dir name _ => name

mutual
/-- A walk of an entry, a folder before what it holds. -/
def Source.items (pre : List Units) : Source → List Item
  | .file name bytes size =>
    [⟨pre ++ [name], .file, bytes, size, List.append_ne_nil_of_right_ne_nil _ (List.cons_ne_nil _ _)⟩]
  | .dir name children =>
    ⟨pre ++ [name], .dir, none, none, List.append_ne_nil_of_right_ne_nil _ (List.cons_ne_nil _ _)⟩ ::
      itemsOf (pre ++ [name]) children
def itemsOf (pre : List Units) : List Source → List Item
  | [] => []
  | c :: cs => c.items pre ++ itemsOf pre cs
end

mutual
def Source.load : Source → Option Tree
  | .file name bytes _ => bytes.map (Tree.file name)
  | .dir name children => (sourcesLoad children).map (Tree.dir name)
def sourcesLoad : List Source → Option (List Tree)
  | [] => some []
  | c :: cs => do
    let t ← c.load
    let ts ← sourcesLoad cs
    some (t :: ts)
end

theorem Source.load_name {s : Source} (h : s.load = some t) : t.name = s.name := by
  cases s with
  | file name bytes size =>
    obtain ⟨b, -, rfl⟩ := Option.map_eq_some_iff.mp h
    rfl
  | dir name children =>
    obtain ⟨ts, -, rfl⟩ := Option.map_eq_some_iff.mp h
    rfl

/-- What `rel.slice(1)` makes of the names on the way. -/
def below (names : List Units) : Units := names.flatMap fun s => slash :: safe s

theorem below_append (pre : List Units) (name : Units) :
    below (pre ++ [name]) = below pre ++ slash :: safe name := by
  rw [below, List.flatMap_append, List.flatMap_singleton]
  rfl

theorem mapM_append_ok {f : α → Except ε β} {xs ys : List α} (h : (xs ++ ys).mapM f = .ok rs) :
    ∃ as bs, xs.mapM f = .ok as ∧ ys.mapM f = .ok bs ∧ rs = as ++ bs := by
  rw [List.mapM_append] at h
  obtain ⟨as, has, h⟩ := bind_ok h
  obtain ⟨bs, hbs, heq⟩ := bind_ok h
  exact ⟨as, bs, has, hbs, (Except.ok.inj heq).symm⟩

mutual
theorem Source.items_files (s : Source) {pre : List Units}
    (h : (s.items pre).mapM readItem = .ok fs) :
    ∃ t, s.load = some t ∧ fs = t.files (below (pre ++ [s.name]).tail) := by
  cases s with
  | file name bytes size =>
    rw [Source.items, List.mapM_cons] at h
    obtain ⟨f, hf, h⟩ := bind_ok h
    obtain ⟨rest, hrest, heq⟩ := bind_ok h
    rw [List.mapM_nil] at hrest
    rw [← Except.ok.inj heq, ← Except.ok.inj hrest]
    cases bytes with
    | none => cases hf
    | some b => exact ⟨.file name b, rfl, by rw [← Except.ok.inj hf, Tree.files]; rfl⟩
  | dir name children =>
    rw [Source.items, List.mapM_cons] at h
    obtain ⟨f, hf, h⟩ := bind_ok h
    obtain ⟨rest, hrest, heq⟩ := bind_ok h
    obtain ⟨ts, hts, rfl⟩ := itemsOf_files children hrest
    refine ⟨.dir name ts, by rw [Source.load, hts]; rfl, ?_⟩
    rw [← Except.ok.inj heq, ← Except.ok.inj hf, Tree.files]
    rfl
theorem itemsOf_files (cs : List Source) {pre : List Units} {top : Units}
    (h : (itemsOf (pre ++ [top]) cs).mapM readItem = .ok fs) :
    ∃ ts, sourcesLoad cs = some ts ∧ fs = filesOf ts (below (pre ++ [top]).tail) := by
  cases cs with
  | nil =>
    rw [itemsOf, List.mapM_nil] at h
    exact ⟨[], rfl, by rw [← Except.ok.inj h, filesOf]⟩
  | cons c cs =>
    rw [itemsOf] at h
    obtain ⟨as, bs, has, hbs, rfl⟩ := mapM_append_ok h
    obtain ⟨t, ht, rfl⟩ := c.items_files has
    obtain ⟨ts, hts, rfl⟩ := itemsOf_files cs hbs
    refine ⟨t :: ts, by rw [sourcesLoad, ht, hts]; rfl, ?_⟩
    have htail : (pre ++ [top] ++ [c.name]).tail = (pre ++ [top]).tail ++ [c.name] :=
      List.tail_append_of_ne_nil (by simp)
    rw [htail, below_append, filesOf, Source.load_name ht]
end

theorem readItems_read (s : Source) (h : readItems (s.items []) = some (.ok r)) :
    ∃ t, s.load = some t ∧ r = t.read := by
  have hhead : ∃ i rest, s.items [] = i :: rest ∧ i.rel = [s.name] := by
    cases s with
    | file name bytes size => exact ⟨_, _, rfl, rfl⟩
    | dir name children => exact ⟨_, _, rfl, rfl⟩
  obtain ⟨i, rest, hitems, hrel⟩ := hhead
  rw [hitems, readItems] at h
  obtain ⟨fs, hfs, heq⟩ := bind_ok (Option.some.inj h)
  rw [← hitems] at hfs
  obtain ⟨t, ht, rfl⟩ := s.items_files hfs
  refine ⟨t, ht, ?_⟩
  rw [← Except.ok.inj heq, Tree.read, Source.load_name ht]
  simp only [hrel, List.head_cons, List.nil_append, List.tail_cons]
  rfl

theorem readIncoming_read {sources : List Source}
    (h : readIncoming (sources.map (Source.items [])) = .ok rs) :
    ∃ trees, sources.mapM Source.load = some trees ∧ rs = trees.map Tree.read := by
  induction sources generalizing rs with
  | nil => exact ⟨[], rfl, (Except.ok.inj h).symm⟩
  | cons s sources ih =>
    rw [List.map_cons, readIncoming] at h
    split at h
    · cases h
    · cases h
    · rename_i r hr
      obtain ⟨rs', hrs, heq⟩ := bind_ok h
      obtain ⟨tree, htree, rfl⟩ := readItems_read s hr
      obtain ⟨trees, htrees, rfl⟩ := ih hrs
      exact ⟨tree :: trees, by rw [List.mapM_cons, htree, htrees]; rfl, (Except.ok.inj heq).symm⟩

theorem readIncoming_refused {tops : List (List Item)} (files : List ZipFile) :
    readIncoming tops ≠ .error (.ok files) := by
  induction tops with
  | nil => exact fun h => nomatch h
  | cons items tops ih =>
    intro h
    rw [readIncoming] at h
    split at h
    · cases h
    · cases h
    · cases hrest : readIncoming tops with
      | error refused =>
        rw [hrest] at h
        rw [Except.error.inj h] at hrest
        exact ih hrest
      | ok rs =>
        rw [hrest] at h
        cases h

-- ---------------------------------------------------------------------------
-- A download
-- ---------------------------------------------------------------------------

/-- An archive of `trees`: every entry once, below its top's name and under harmless
names, and a name that needs no change kept. -/
structure Holds (low : LowerCase) (trees : List Tree) (files : List ZipFile) : Prop where
  entries : files = (archive (topNames low [] trees) trees).map written
  harmless : ∀ e ∈ archive (topNames low [] trees) trees, e.1 ≠ [] ∧ ∀ p ∈ e.1, Harmless p
  same : ∀ name, Harmless name → safe name = name
  tops : ∀ before t after, trees = before ++ t :: after → Harmless t.name →
    (∀ name ∈ (topNames low [] trees).take before.length, low.lower name ≠ low.lower t.name) →
      (topNames low [] trees)[before.length]? = some t.name

theorem topNames_at (low : LowerCase) (taken : List Units) (before : List Tree) (hsafe : Harmless t.name)
    (hnew : ∀ name ∈ (topNames low taken (before ++ t :: after)).take before.length,
      low.lower name ≠ low.lower t.name) (htaken : low.lower t.name ∉ taken) :
    (topNames low taken (before ++ t :: after))[before.length]? = some t.name := by
  induction before generalizing taken with
  | nil =>
    rw [List.nil_append, List.length_nil, ← List.head?_eq_getElem?]
    exact topNames_kept hsafe htaken
  | cons s before ih =>
    rw [List.cons_append, topNames, List.length_cons, List.take_succ_cons, List.forall_mem_cons] at hnew
    rw [List.cons_append, topNames, List.length_cons, List.getElem?_cons_succ]
    refine ih _ hnew.2 ?_
    rw [List.mem_cons, not_or]
    exact ⟨Ne.symm hnew.1, htaken⟩

theorem holds_archive (low : LowerCase) (trees : List Tree) :
    Holds low trees (zipReadTops low (trees.map Tree.read)) where
  entries := zipReadTops_written low [] trees
  harmless := archive_harmless low trees []
  same _ h := safe_of_harmless h
  tops before t after heq hsafe hnew := by
    subst heq
    exact topNames_at low [] before hsafe hnew (List.not_mem_nil)

/-- A download that succeeds holds every selected entry once, with its own bytes and
under a harmless path, and its paths are apart exactly when in every folder the safe
names are. -/
theorem zip_holds (low : LowerCase) :
    (∀ tops limits files, zipTops low tops limits = .ok files →
      ∃ trees, (tops.mapM fun t => load t.1 t.2) = some trees ∧ Holds low trees files ∧
        (files.Pairwise (fun f g => ¬Clash low f g) ↔ ∀ t ∈ trees, t.Tidy low)) ∧
    (∀ (sources : List Source) limits files, zipIncoming low (sources.map (Source.items [])) limits = .ok files →
      ∃ trees, sources.mapM Source.load = some trees ∧ Holds low trees files ∧
        (files.Pairwise (fun f g => ¬Clash low f g) ↔ ∀ t ∈ trees, t.Tidy low)) := by
  have happly : ∀ trees, Holds low trees (zipReadTops low (trees.map Tree.read)) ∧
      ((zipReadTops low (trees.map Tree.read)).Pairwise (fun f g => ¬Clash low f g) ↔
        ∀ t ∈ trees, t.Tidy low) := by
    rintro trees
    have hholds := holds_archive low trees
    exact ⟨hholds, by rw [hholds.entries]; exact archive_apart_iff low trees⟩
  constructor
  · rintro tops limits files h
    rw [zipTops] at h
    split at h
    · cases h
    · split at h
      · cases h
      · rename_i rs hread
        obtain ⟨trees, htrees, rfl⟩ := zipTops_read hread
        obtain rfl := ZipOutcome.ok.inj h
        exact ⟨trees, htrees, happly trees⟩
  · rintro sources limits files h
    rw [zipIncoming] at h
    split at h
    · cases h
    · split at h
      · rename_i refused hrefused
        rw [h] at hrefused
        exact absurd hrefused (readIncoming_refused files)
      · rename_i rs hread
        obtain ⟨trees, htrees, rfl⟩ := readIncoming_read hread
        obtain rfl := ZipOutcome.ok.inj h
        exact ⟨trees, htrees, happly trees⟩

-- ---------------------------------------------------------------------------
-- Two names of one folder
-- ---------------------------------------------------------------------------

def latin1Lower (u : UInt16) : UInt16 :=
  if (0x41 ≤ u && u ≤ 0x5a) || (0xc0 ≤ u && u ≤ 0xde && u != 0xd7) then u + 0x20 else u

theorem latin1Lower_mark (u : UInt16) (hu : (u == underscore || isDigit u) = true) :
    latin1Lower u = u := by
  simp only [isDigit, Bool.or_eq_true, beq_iff_eq, Bool.and_eq_true, decide_eq_true_eq,
    UInt16.le_iff_toNat_le, ← UInt16.toNat_inj] at hu
  rw [latin1Lower, if_neg]
  simp only [Bool.or_eq_true, Bool.and_eq_true, decide_eq_true_eq, UInt16.le_iff_toNat_le]
  simp [underscore] at hu ⊢
  omega

/-- `toLowerCase` of the characters an Amiga name has. -/
def latin1 : LowerCase where
  lower s := s.map latin1Lower
  empty := rfl
  around a u b hu := by simp [latin1Lower_mark u hu]

/-- A folder of a volume that is not international, where `É` and `é` are two names. -/
def accents : Source :=
  .dir [0x44] [.file [0xc9] (some [1]) none, .file [0xe9] (some [2]) none]

theorem zip_holds_accents : ∃ trees, [accents].mapM Source.load = some trees ∧
    Holds latin1 trees [⟨[0x44, 0x2f], none⟩, ⟨[0x44, 0x2f, 0xc9], some [1]⟩,
      ⟨[0x44, 0x2f, 0xe9], some [2]⟩] := by
  obtain ⟨trees, htrees, hholds, -⟩ := (zip_holds latin1).2 [accents] ⟨500, 1000⟩
    [⟨[0x44, 0x2f], none⟩, ⟨[0x44, 0x2f, 0xc9], some [1]⟩, ⟨[0x44, 0x2f, 0xe9], some [2]⟩] (by decide)
  exact ⟨trees, htrees, hholds⟩

instance (low : LowerCase) (f g : ZipFile) : Decidable (Clash low f g) :=
  inferInstanceAs (Decidable (_ ∨ _ ∧ _ ∨ _ ∧ _))

/-- Its files come out under one path but for the case of a letter. -/
theorem accents_clash :
    zipIncoming latin1 [accents.items []] ⟨500, 1000⟩ =
        .ok [⟨[0x44, 0x2f], none⟩, ⟨[0x44, 0x2f, 0xc9], some [1]⟩, ⟨[0x44, 0x2f, 0xe9], some [2]⟩] ∧
      Clash latin1 ⟨[0x44, 0x2f, 0xc9], some [1]⟩ ⟨[0x44, 0x2f, 0xe9], some [2]⟩ := by
  decide

end WebAdf.Files.DiskZip
