import Mathlib.Data.List.Basic
import Mathlib.Data.List.Nodup
import Mathlib.Data.List.Perm.Subperm
import Mathlib.Data.List.ProdSigma
import WebAdf.Lib.Utf16

/-!
# Keep-both names

`keepBothName` of STASH:: a name that is taken gets a number behind its stem,
and the stem is cut so that the name stays within AmigaDOS's limit. The search
counts up to the first free number.
-/

namespace WebAdf.Files

open Lib

def amigaNameMax : Int := 30

def slash : UInt16 := 0x2f
def dot : UInt16 := 0x2e
def underscore : UInt16 := 0x5f

def isDigit (u : UInt16) : Bool := 0x30 ≤ u && u ≤ 0x39

/-- A number in a template literal. -/
def numberText (n : Nat) : Units := (Nat.toDigits 10 n).map fun c => UInt16.ofNat c.toNat

-- ---------------------------------------------------------------------------
-- Case
-- ---------------------------------------------------------------------------

/-- `toLowerCase`. An underscore or a digit is its own lower case, and no
letter's case depends on what stands beyond one. -/
structure LowerCase where
  lower : Units → Units
  empty : lower [] = []
  around (a : Units) (u : UInt16) (b : Units) :
    (u == underscore || isDigit u) = true → lower (a ++ u :: b) = lower a ++ u :: lower b

/-- `toLowerCase` of ASCII. -/
def asciiLower (u : UInt16) : UInt16 := if 0x41 ≤ u && u ≤ 0x5a then u + 0x20 else u

theorem asciiLower_mark : ∀ u : UInt16, (u == underscore || isDigit u) = true → asciiLower u = u := by
  intro u hu
  have hlow : ¬ (0x41 ≤ u ∧ u ≤ 0x5a) := by
    rintro ⟨hle, hge⟩
    simp only [isDigit, Bool.or_eq_true, beq_iff_eq, Bool.and_eq_true, decide_eq_true_eq,
      UInt16.le_iff_toNat_le, ← UInt16.toNat_inj] at hu hle hge
    simp [underscore] at hu hle hge
    omega
  rw [asciiLower, if_neg (by simpa using hlow)]

/-- Text of ASCII, in lower case. -/
def LowerCase.ascii : LowerCase where
  lower s := s.map asciiLower
  empty := rfl
  around a u b hu := by simp [asciiLower_mark u hu]

variable (low : LowerCase)

def sameStashName (a b : Units) : Bool := low.lower a == low.lower b

-- ---------------------------------------------------------------------------
-- The search
-- ---------------------------------------------------------------------------

/-- `s.slice(0, k)`: a negative end counts from the back. -/
def sliceTo (s : Units) (k : Int) : Units :=
  if k < 0 then s.take (s.length - k.natAbs) else s.take k.toNat

def lastIndexOf (s : Units) (u : UInt16) : Int :=
  if u ∈ s then (s.length : Int) - 1 - s.reverse.idxOf u else -1

/-- The stem and the extension, a leading dot being none. -/
def stemExt (name : Units) : Units × Units :=
  let at_ := lastIndexOf name dot
  if 0 < at_ then (name.take at_.toNat, name.drop at_.toNat) else (name, [])

def suffixOf (n : Nat) : Units := underscore :: numberText n

def extOf (name : Units) (n : Nat) : Units :=
  let ext0 := (stemExt name).2
  if (ext0.length : Int) + (suffixOf n).length < amigaNameMax then ext0 else []

def candidate (name : Units) (n : Nat) : Units :=
  let suffix := suffixOf n
  let ext := extOf name n
  sliceTo (stemExt name).1 (amigaNameMax - suffix.length - ext.length) ++ suffix ++ ext

/-- `keepBothFrom`'s loop from `n`, at most `fuel` rounds of it. -/
def keepBothFrom (name : Units) (taken : Units → Bool) : Nat → Nat → Units × Nat
  | 0, n => (candidate name n, n)
  | fuel + 1, n =>
    if taken (candidate name n) then keepBothFrom name taken fuel (n + 1) else (candidate name n, n)

/-- Rounds enough to pass every name of a folder with `k` children: one number
with the extension and one without it make each name. -/
def rounds (k : Nat) : Nat := 2 * k + 1

-- ---------------------------------------------------------------------------
-- Numbers
-- ---------------------------------------------------------------------------

theorem isDigit_digitChar {c : Char} (h : c.isDigit = true) :
    isDigit (UInt16.ofNat c.toNat) = true ∧ (UInt16.ofNat c.toNat).toNat = c.toNat := by
  simp only [Char.isDigit, ge_iff_le, Bool.and_eq_true, decide_eq_true_eq, UInt32.le_iff_toNat_le] at h
  obtain ⟨hle, hge⟩ := h
  have hle : 48 ≤ c.toNat := hle
  have hge : c.toNat ≤ 57 := hge
  have hval : (UInt16.ofNat c.toNat).toNat = c.toNat := by
    simp only [UInt16.toNat_ofNat']
    omega
  refine ⟨?_, hval⟩
  simp only [isDigit, Bool.and_eq_true, decide_eq_true_eq, UInt16.le_iff_toNat_le, hval]
  exact ⟨hle, hge⟩

theorem digits_numberText (n : Nat) : ∀ u ∈ numberText n, isDigit u = true := by
  intro u hu
  obtain ⟨c, hc, rfl⟩ := List.mem_map.1 hu
  exact (isDigit_digitChar (Nat.isDigit_of_mem_toDigits (by decide) (by decide) hc)).1

/-- The characters of a number's text. -/
theorem chars_numberText (n : Nat) :
    (numberText n).map (fun u => Char.ofNat u.toNat) = Nat.toDigits 10 n := by
  rw [numberText, List.map_map]
  refine (List.map_congr_left fun c hc => ?_).trans (List.map_id _)
  have hdigit := Nat.isDigit_of_mem_toDigits (by decide) (by decide) hc
  simp only [Function.comp, (isDigit_digitChar hdigit).2, Char.ofNat_toNat, id]

theorem numberText_inj (h : numberText n = numberText m) : n = m := by
  have hdigits : Nat.toDigits 10 n = Nat.toDigits 10 m := by
    rw [← chars_numberText, h, chars_numberText]
  rw [← Nat.ofDigitChars_ten_toDigits (n := n), hdigits, Nat.ofDigitChars_ten_toDigits]

-- ---------------------------------------------------------------------------
-- Candidates
-- ---------------------------------------------------------------------------

/-- A run of digits behind an underscore can be told from any other. -/
theorem suffix_inj {a b ds es : Units} (hds : ∀ u ∈ ds, isDigit u = true)
    (hes : ∀ u ∈ es, isDigit u = true) (h : a ++ underscore :: ds = b ++ underscore :: es) :
    ds = es := by
  have hrun (a ds : Units) (hds : ∀ u ∈ ds, isDigit u = true) :
      (a ++ underscore :: ds).reverse.takeWhile isDigit = ds.reverse := by
    rw [List.reverse_append, List.reverse_cons, List.append_assoc, List.takeWhile_append_of_pos]
    · simp [isDigit, underscore]
    · simpa using hds
  exact List.reverse_injective (by rw [← hrun a ds hds, h, hrun b es hes])

theorem lower_digits {ds : Units} (hds : ∀ u ∈ ds, isDigit u = true) (b : Units) :
    low.lower (ds ++ b) = ds ++ low.lower b := by
  induction ds with
  | nil => rfl
  | cons d ds ih =>
    have hd := low.around [] d (ds ++ b) (by simp [hds d (List.mem_cons_self ..)])
    rw [low.empty] at hd
    simpa [ih fun u hu => hds u (List.mem_cons_of_mem _ hu)] using hd

theorem lower_suffix (a b : Units) (n : Nat) :
    low.lower (a ++ suffixOf n ++ b) = low.lower a ++ underscore :: numberText n ++ low.lower b := by
  rw [suffixOf, List.append_assoc, List.cons_append, low.around _ _ _ (by simp),
    lower_digits low (digits_numberText n), List.append_assoc, List.cons_append]

/-- Two numbers that both keep the extension, or both leave it off, make
different names. -/
theorem candidate_inj (hext : extOf name n = extOf name m)
    (h : low.lower (candidate name n) = low.lower (candidate name m)) : n = m := by
  rw [candidate, candidate, lower_suffix, lower_suffix, hext] at h
  exact numberText_inj (suffix_inj (digits_numberText n) (digits_numberText m) (List.append_cancel_right h))

theorem extOf_mem (name : Units) (n : Nat) : extOf name n ∈ [(stemExt name).2, []] := by
  simp only [extOf]
  split <;> simp

/-- A folder's names leave some number free. -/
theorem exists_free {taken : Units → Bool} {names : List Units}
    (htaken : ∀ c, taken c = true → low.lower c ∈ names) (name : Units) (first : Nat) :
    ∃ n, first ≤ n ∧ n < first + rounds names.length ∧ taken (candidate name n) = false := by
  by_contra hnone
  have hall : ∀ n ∈ List.range' first (rounds names.length), taken (candidate name n) = true := by
    intro n hn
    obtain ⟨hle, hlt⟩ := List.mem_range'_1.1 hn
    by_contra hfree
    exact hnone ⟨n, hle, hlt, by simpa using hfree⟩
  let key n := (extOf name n, low.lower (candidate name n))
  have hnodup : ((List.range' first (rounds names.length)).map key).Nodup := by
    refine List.Nodup.map ?_ List.nodup_range'
    intro n m h
    obtain ⟨hext, hlower⟩ := Prod.mk.injEq .. ▸ h
    exact candidate_inj low hext hlower
  have hsub : (List.range' first (rounds names.length)).map key ⊆
      [(stemExt name).2, []] ×ˢ names := by
    intro p hp
    obtain ⟨n, hn, rfl⟩ := List.mem_map.1 hp
    exact List.mem_product.2 ⟨extOf_mem name n, htaken _ (hall n hn)⟩
  have hlen := (hnodup.subperm hsub).length_le
  rw [List.length_map, List.length_range', List.length_product] at hlen
  simp only [rounds, List.length_cons, List.length_nil] at hlen
  omega

/-- The loop ends at the first free number. -/
theorem keepBothFrom_free (name : Units) (taken : Units → Bool) {fuel first : Nat}
    (h : ∃ n, first ≤ n ∧ n < first + fuel ∧ taken (candidate name n) = false) :
    ∃ n, keepBothFrom name taken fuel first = (candidate name n, n) ∧ first ≤ n ∧
      taken (candidate name n) = false ∧ ∀ m, first ≤ m → m < n → taken (candidate name m) = true := by
  induction fuel generalizing first with
  | zero =>
    obtain ⟨n, hle, hlt, -⟩ := h
    omega
  | succ fuel ih =>
    cases htaken : taken (candidate name first) with
    | false =>
      refine ⟨first, by simp [keepBothFrom, htaken], Nat.le_refl _, htaken, ?_⟩
      intro m hle hlt
      omega
    | true =>
      have hrest : ∃ n, first + 1 ≤ n ∧ n < first + 1 + fuel ∧ taken (candidate name n) = false := by
        obtain ⟨n, hle, hlt, hfree⟩ := h
        have hne : n ≠ first := by
          rintro rfl
          simp [htaken] at hfree
        exact ⟨n, by omega, by omega, hfree⟩
      obtain ⟨n, heq, hle, hfree, hbelow⟩ := ih hrest
      refine ⟨n, by simpa [keepBothFrom, htaken] using heq, by omega, hfree, ?_⟩
      intro m hm hlt
      rcases Nat.eq_or_lt_of_le hm with rfl | hm
      · exact htaken
      · exact hbelow m hm hlt

end WebAdf.Files

/-!
# The tree of STASH: rows

`stashTree` shows rows, oldest first, as folders and files, and
`uniqueStashPath` chooses a path for one more. The source keeps three maps
beside its nodes; here they stand in the folder they are about, and a node of a
folder is its place among the folder's children.
-/

namespace WebAdf.Files

open Lib

inductive Kind
  | file
  | dir
  deriving DecidableEq, Repr

structure Row where
  path : Units
  kind : Kind

/-- A folder's children by lower-cased name, the next number of each name's
twins, and the folder beside a file that others were needed under. -/
structure Index where
  byName : List (Units × Nat)
  next : List (Units × Nat)
  twinDir : List (Nat × Nat)

def Index.empty : Index := ⟨[], [], []⟩

structure StashNode where
  name : Units
  kind : Kind
  row : Option Nat
  children : List StashNode
  index : Index

/-- `path.split('/').filter(Boolean)`. -/
def segments (path : Units) : List Units := (path.splitOn slash).filter (· ≠ [])

variable (low : LowerCase)

-- ---------------------------------------------------------------------------
-- One folder
-- ---------------------------------------------------------------------------

def folder (name : Units) : StashNode := ⟨name, .dir, none, [], .empty⟩

def StashNode.hit (cur : StashNode) (seg : Units) : Option (Nat × StashNode) := do
  let p ← cur.index.byName.lookup (low.lower seg)
  let c ← cur.children[p]?
  some (p, c)

def StashNode.add (parent child : StashNode) : StashNode :=
  let k := low.lower child.name
  let byName := parent.index.byName
  { parent with
    children := parent.children ++ [child]
    index := { parent.index with
      byName := if (byName.lookup k).isSome then byName else (k, parent.children.length) :: byName } }

/-- The twin's name, and the folder with its next number kept. -/
def StashNode.twinName (parent : StashNode) (seg : Units) : Units × StashNode :=
  let k := low.lower seg
  let taken n := (parent.index.byName.lookup (low.lower n)).isSome
  let got := keepBothFrom seg taken (rounds parent.children.length) ((parent.index.next.lookup k).getD 1)
  (got.1, { parent with index := { parent.index with next := (k, got.2 + 1) :: parent.index.next } })

def StashNode.setTwin (parent : StashNode) (p q : Nat) : StashNode :=
  { parent with index := { parent.index with twinDir := (p, q) :: parent.index.twinDir } }

/-- What is done to one child where it stands. -/
def StashNode.modify (parent : StashNode) (p : Nat) (f : StashNode → StashNode) : StashNode :=
  { parent with children := parent.children.modify p f }

-- ---------------------------------------------------------------------------
-- The tree
-- ---------------------------------------------------------------------------

/-- A row's turn in `stashTree`, from the folder `cur` on. -/
def addRow (row : Row) (i : Nat) : List Units → StashNode → StashNode
  | [], cur => cur
  | [seg], cur =>
    match cur.hit low seg with
    | some (p, hit) =>
      if hit.kind = .dir ∧ hit.row = none ∧ row.kind = .dir then
        cur.modify p fun hit => { hit with row := some i }
      else
        let (name, cur) := cur.twinName low seg
        cur.add low ⟨name, row.kind, some i, [], .empty⟩
    | none => cur.add low ⟨seg, row.kind, some i, [], .empty⟩
  | seg :: next :: rest, cur =>
    match cur.hit low seg with
    | some (p, hit) =>
      if hit.kind = .dir then cur.modify p (addRow row i (next :: rest))
      else
        match cur.index.twinDir.lookup p with
        | some q => cur.modify q (addRow row i (next :: rest))
        | none =>
          let (name, cur) := cur.twinName low seg
          let q := cur.children.length
          ((cur.add low (folder name)).setTwin p q).modify q (addRow row i (next :: rest))
    | none => (cur.add low (folder seg)).modify cur.children.length (addRow row i (next :: rest))

def stashTree (rows : List Row) : StashNode :=
  rows.zipIdx.foldl (fun root (row, i) => addRow low row i (segments row.path) root) (folder [])

mutual
/-- Row indexes of a node and everything under it. -/
def rowsUnder : StashNode → List Nat
  | ⟨_, _, row, children, _⟩ => row.toList ++ rowsUnderAll children
def rowsUnderAll : List StashNode → List Nat
  | [] => []
  | c :: children => rowsUnder c ++ rowsUnderAll children
end

-- ---------------------------------------------------------------------------
-- A path for one more row
-- ---------------------------------------------------------------------------

def StashNode.find (cur : StashNode) (seg : Units) : Option StashNode :=
  cur.children.find? fun c => sameStashName low c.name seg

def keepBothName (name : Units) (cur : StashNode) : Units :=
  let taken n := cur.children.any fun c => sameStashName low c.name n
  (keepBothFrom name taken (rounds cur.children.length) 1).1

/-- The loop of `uniqueStashPath`; without a folder nothing is in the way. -/
def place : List Units → Option StashNode → List Units
  | [], _ => []
  | seg :: rest, none => seg :: place rest none
  | [seg], some cur =>
    match cur.find low seg with
    | some _ => [keepBothName low seg cur]
    | none => [seg]
  | seg :: next :: rest, some cur =>
    match cur.find low seg with
    | some hit =>
      if hit.kind = .dir then hit.name :: place (next :: rest) (some hit)
      else keepBothName low seg cur :: place (next :: rest) none
    | none => seg :: place (next :: rest) none

def uniqueStashPath (rows : List Row) (path : Units) : Units :=
  [slash].intercalate (place low (segments path) (some (stashTree low rows)))

-- ---------------------------------------------------------------------------
-- What is shown
-- ---------------------------------------------------------------------------

mutual
/-- Each row of a node with the names that lead to it. -/
def StashNode.shown : StashNode → List (Nat × List Units)
  | ⟨_, _, row, children, _⟩ => row.toList.map (·, []) ++ shownAll children
def shownAll : List StashNode → List (Nat × List Units)
  | [] => []
  | c :: children => c.shown.map (fun (i, path) => (i, c.name :: path)) ++ shownAll children
end

/-- No two children of a folder have one name, ignoring case. -/
inductive StashNode.Distinct : StashNode → Prop
  | mk (names : (n.children.map fun c => low.lower c.name).Nodup)
      (below : ∀ c ∈ n.children, c.Distinct) : Distinct n

mutual
theorem rowsUnder_eq : (n : StashNode) → rowsUnder n = n.shown.map Prod.fst
  | ⟨_, _, row, children, _⟩ => by
    cases row <;> simp [rowsUnder, StashNode.shown, rowsUnderAll_eq children]
theorem rowsUnderAll_eq : (children : List StashNode) →
    rowsUnderAll children = (shownAll children).map Prod.fst
  | [] => rfl
  | c :: children => by
    simp [rowsUnderAll, shownAll, rowsUnder_eq c, rowsUnderAll_eq children, Function.comp_def]
end

end WebAdf.Files
