import WebAdf.Receive.Parse
import Mathlib.Data.List.Infix
import Mathlib.Data.List.TakeWhile
import Mathlib.Tactic.Common

/-!
# Free names

The names tried for a file that is already there: `_n` before the extension, the stem
cut to make room. Each is a path like the one it is made of, in the same directory and
with the same extension, and no two numbers from 2 on make the same name; a name cut
to its full length may come out as the path itself.
-/

namespace WebAdf.Receive

open Lib

-- ---------------------------------------------------------------------------
-- The last of a byte
-- ---------------------------------------------------------------------------

theorem lastIdx_append {c : UInt8} (a : Bytes) (h : c ∉ b) :
    lastIdx c (a ++ c :: b) = some a.length := by
  have hrev : (a ++ c :: b).reverse.takeWhile (· ≠ c) = b.reverse := by
    have hall : ∀ x ∈ b.reverse, decide (x ≠ c) = true := by
      rintro x hx
      have hne : x ≠ c := by
        rintro rfl
        exact h (List.mem_reverse.mp hx)
      simpa using hne
    rw [List.reverse_append, List.reverse_cons, List.append_assoc,
      List.takeWhile_append_of_pos hall]
    simp
  rw [lastIdx, if_pos (by simp), hrev]
  simp

theorem last_split {c : UInt8} (h : c ∈ xs) : ∃ a b, xs = a ++ c :: b ∧ c ∉ b := by
  obtain ⟨a, b, hab, hnot⟩ := List.eq_append_cons_of_mem (List.mem_reverse.mpr h)
  refine ⟨b.reverse, a.reverse, ?_, fun hc => hnot (List.mem_reverse.mp hc)⟩
  rw [← List.reverse_reverse xs, hab]
  simp

-- ---------------------------------------------------------------------------
-- The directory and the name
-- ---------------------------------------------------------------------------

/-- No slash and no colon. -/
def Bare (name : Bytes) : Prop := ∀ c ∈ name, c ≠ slash ∧ c ≠ colon

/-- What a name stands behind: nothing, or up to a slash or a colon. -/
def Leads (dir : Bytes) : Prop := dir = [] ∨ ∃ d sep, dir = d ++ [sep] ∧ (sep = slash ∨ sep = colon)

theorem dirLen_append (hdir : Leads dir) (hname : Bare name) : dirLen (dir ++ name) = dir.length := by
  have hall : ∀ c ∈ name.reverse, (c != slash && c != colon) = true := by
    rintro c hc
    simpa using hname c (List.mem_reverse.mp hc)
  have htake : (dir ++ name).reverse.takeWhile (fun c => c != slash && c != colon) = name.reverse := by
    rw [List.reverse_append, List.takeWhile_append_of_pos hall]
    obtain rfl | ⟨d, sep, rfl, hsep⟩ := hdir
    · simp
    · obtain rfl | rfl := hsep
      · simp
      · simp
  rw [dirLen, htake, List.length_append, List.length_reverse, Nat.add_sub_cancel]

theorem dir_name (path : Bytes) :
    ∃ dir name, path = dir ++ name ∧ Leads dir ∧ Bare name ∧ dirLen path = dir.length := by
  have hsplit := List.takeWhile_append_dropWhile (p := fun c : UInt8 => c != slash && c != colon)
    (l := path.reverse)
  have hname : Bare (path.reverse.takeWhile fun c => c != slash && c != colon).reverse := by
    rintro c hc
    have hp := List.mem_takeWhile_imp (List.mem_reverse.mp hc)
    simpa using hp
  have hdir : Leads (path.reverse.dropWhile fun c => c != slash && c != colon).reverse := by
    cases hd : path.reverse.dropWhile fun c => c != slash && c != colon with
    | nil => exact .inl rfl
    | cons sep d =>
      have hne : path.reverse.dropWhile (fun c => c != slash && c != colon) ≠ [] := by
        rw [hd]
        exact List.cons_ne_nil _ _
      have hhead := List.head_dropWhile_not (fun c : UInt8 => c != slash && c != colon) hne
      simp only [hd, List.head_cons, Bool.and_eq_false_iff, bne_eq_false_iff_eq] at hhead
      exact .inr ⟨d.reverse, sep, by simp, hhead⟩
  refine ⟨_, _, ?_, hdir, hname, ?_⟩
  · rw [← List.reverse_append, hsplit, List.reverse_reverse]
  · have hlen := congrArg List.length hsplit
    rw [List.length_append, List.length_reverse] at hlen
    rw [dirLen, List.length_reverse]
    omega

-- ---------------------------------------------------------------------------
-- The stem and the extension
-- ---------------------------------------------------------------------------

/-- Where a name's extension begins: at its last dot, unless that dot begins the name. -/
def extAt (name : Bytes) : Nat :=
  match lastIdx dot name with
  | none | some 0 => name.length
  | some d => d

/-- An extension, or none; `stem` is what is before it. -/
def Extends (stem ext : Bytes) : Prop :=
  (ext = [] ∧ dot ∉ stem.tail) ∨ (stem ≠ [] ∧ ∃ e, ext = dot :: e ∧ dot ∉ e)

theorem extAt_append (h : Extends stem ext) : extAt (stem ++ ext) = stem.length := by
  obtain ⟨rfl, hdot⟩ | ⟨hne, e, rfl, hdot⟩ := h
  · rw [List.append_nil]
    by_cases hmem : dot ∈ stem
    · cases stem with
      | nil => cases hmem
      | cons c s =>
        obtain rfl : dot = c := by
          obtain h | h := List.mem_cons.mp hmem
          · exact h
          · exact absurd h hdot
        have hlast : lastIdx dot (dot :: s) = some 0 := lastIdx_append [] hdot
        simp only [extAt, hlast]
    · rw [extAt, lastIdx, if_neg hmem]
  · rw [extAt, lastIdx_append stem hdot]
    cases stem with
    | nil => exact absurd rfl hne
    | cons c s => rfl

theorem stem_ext (name : Bytes) :
    ∃ stem ext, name = stem ++ ext ∧ Extends stem ext ∧ extAt name = stem.length := by
  by_cases hmem : dot ∈ name
  · obtain ⟨a, b, rfl, hb⟩ := last_split hmem
    by_cases ha : a = []
    · subst ha
      have hext : Extends (dot :: b) [] := .inl ⟨rfl, hb⟩
      refine ⟨dot :: b, [], by simp, hext, ?_⟩
      have h := extAt_append hext
      rwa [List.append_nil] at h
    · have hext : Extends a (dot :: b) := .inr ⟨ha, b, rfl, hb⟩
      exact ⟨a, dot :: b, rfl, hext, extAt_append hext⟩
  · have hext : Extends name [] := .inl ⟨rfl, fun h => hmem (List.mem_of_mem_tail h)⟩
    refine ⟨name, [], by simp, hext, ?_⟩
    have h := extAt_append hext
    rwa [List.append_nil] at h

theorem Extends.stem_ne (h : Extends stem ext) (hne : stem ++ ext ≠ []) : stem ≠ [] := by
  rintro rfl
  obtain ⟨rfl, -⟩ | ⟨hstem, -⟩ := h
  · exact hne rfl
  · exact hstem rfl

/-- A stem cut and numbered keeps its extension. -/
theorem Extends.renamed (h : Extends stem ext) (k : Nat) (hne : suf ≠ []) (hsuf : dot ∉ suf) :
    Extends (stem.take k ++ suf) ext := by
  obtain ⟨rfl, hdot⟩ | ⟨-, hext⟩ := h
  · refine .inl ⟨rfl, fun hmem => ?_⟩
    cases htake : stem.take k with
    | nil =>
      rw [htake] at hmem
      exact hsuf (List.mem_of_mem_tail hmem)
    | cons c t =>
      rw [htake, List.cons_append, List.tail_cons] at hmem
      obtain hmem | hmem := List.mem_append.mp hmem
      · have htail : t = (stem.take k).tail := by rw [htake, List.tail_cons]
        rw [htail] at hmem
        exact hdot ((List.take_sublist k stem).tail.subset hmem)
      · exact hsuf hmem
  · exact .inr ⟨by simp [hne], hext⟩

-- ---------------------------------------------------------------------------
-- The number
-- ---------------------------------------------------------------------------

def suffix (n : Nat) : Bytes := ascii "_" ++ decimal n

theorem suffix_length (n : Nat) : 2 ≤ (suffix n).length := by
  have hpos := List.length_pos_of_ne_nil (numeral_ne_nil (b := 10) (by decide) n)
  have hone : (ascii "_").length = 1 := rfl
  rw [suffix, List.length_append, decimal_eq_numeral]
  omega

theorem suffix_bytes (n : Nat) : ∀ c ∈ suffix n, control c = false ∧ c ≠ colon ∧ c ≠ slash ∧ c ≠ dot := by
  rintro c hc
  obtain hc | hc := List.mem_append.mp hc
  · obtain rfl : c = 0x5f := by simpa [ascii] using hc
    decide
  · exact forall_numeral (p := fun c => control c = false ∧ c ≠ colon ∧ c ≠ slash ∧ c ≠ dot)
      (by decide) (by decide) n c hc

theorem suffix_ne (n : Nat) : suffix n ≠ [] := by
  have hlen := suffix_length n
  rintro h
  rw [h, List.length_nil] at hlen
  omega

theorem suffix_dot (n : Nat) : dot ∉ suffix n := fun hmem => (suffix_bytes n dot hmem).2.2.2 rfl

/-- Numbers end names apart. -/
theorem suffix_inj (h : s ++ suffix n = t ++ suffix m) : n = m := by
  have hdigits : ∀ k, ∀ c ∈ (decimal k).reverse, isDigit c = true := fun k c hc =>
    decimal_digits k c (List.mem_reverse.mp hc)
  have hstop : ∀ r : Bytes, ∀ c ∈ ((ascii "_").reverse ++ r).head?, isDigit c = false := by
    rintro r c hc
    obtain rfl : 0x5f = c := Option.some.inj hc
    rfl
  have hrev := congrArg List.reverse h
  simp only [suffix, List.reverse_append, List.append_assoc] at hrev
  obtain ⟨hdec, -⟩ := append_inj_of_stop (hdigits n) (hdigits m) (hstop _) (hstop _) hrev
  rw [← ofDecimal_decimal n, ← ofDecimal_decimal m, List.reverse_injective hdec]

-- ---------------------------------------------------------------------------
-- Paths that Transfer takes
-- ---------------------------------------------------------------------------

theorem partOk_iff : partOk p = true ↔
    1 ≤ p.length ∧ p.length ≤ partMax ∧ p ≠ [dot] ∧ p ≠ [dot, dot] ∧
      ∀ c ∈ p, control c = false ∧ c ≠ colon := by
  simp [partOk, and_assoc]

theorem pathOk_iff : pathOk path = true ↔
    1 ≤ path.length ∧ path.length ≤ pathMax ∧ ∀ p ∈ path.splitOn slash, partOk p = true := by
  simp [pathOk, and_assoc]

theorem absPathOk_iff : absPathOk path = true ↔
    ∃ volume rest, path = volume ++ colon :: rest ∧ colon ∉ volume ∧ volume ≠ [] ∧
      volume.length ≤ partMax ∧ path.length ≤ pathMax ∧
        (∀ c ∈ volume, control c = false ∧ c ≠ slash) ∧ pathOk rest = true := by
  have hread : ∀ volume rest, colon ∉ volume →
      (absPathOk (volume ++ colon :: rest) = true ↔ volume ≠ [] ∧ volume.length ≤ partMax ∧
        (volume ++ colon :: rest).length ≤ pathMax ∧
          (∀ c ∈ volume, control c = false ∧ c ≠ slash) ∧ pathOk rest = true) := by
    rintro volume rest hcolon
    have hdrop : (volume ++ colon :: rest).drop (volume.length + 1) = rest := by
      rw [← List.drop_drop, List.drop_left]
      rfl
    unfold absPathOk
    rw [idxOf?_between hcolon]
    dsimp only
    rw [List.take_left, hdrop]
    simp [and_assoc]
  constructor
  · intro h
    by_cases hmem : colon ∈ path
    · obtain ⟨volume, rest, rfl, hcolon⟩ := List.eq_append_cons_of_mem hmem
      obtain ⟨hne, hlen, htotal, hall, hrest⟩ := (hread volume rest hcolon).1 h
      exact ⟨volume, rest, rfl, hcolon, hne, hlen, htotal, hall, hrest⟩
    · rw [absPathOk, List.idxOf?_eq_none_iff.2 hmem] at h
      cases h
  · rintro ⟨volume, rest, rfl, hcolon, hne, hlen, htotal, hall, hrest⟩
    exact (hread volume rest hcolon).2 ⟨hne, hlen, htotal, hall, hrest⟩

theorem pathOk_no_colon (h : pathOk path = true) : colon ∉ path := by
  obtain ⟨-, -, hparts⟩ := pathOk_iff.1 h
  intro hmem
  have hjoin : [slash].intercalate (path.splitOn slash) = path := List.intercalate_splitOn slash
  rw [← hjoin] at hmem
  obtain hc | ⟨p, hp, hcp⟩ := mem_intercalate hmem
  · cases hc
  · exact ((partOk_iff.1 (hparts p hp)).2.2.2.2 colon hcp).2 rfl

/-- The parts of a path are the parts of its directory and its name. -/
theorem parts_append (hdir : Leads dir) (hcolon : colon ∉ dir) (hname : Bare name) :
    (dir ++ name).splitOn slash = (dir.splitOn slash).dropLast ++ [name] := by
  have hone : name.splitOn slash = [name] :=
    List.splitOn_eq_singleton fun hmem => (hname slash hmem).1 rfl
  obtain rfl | ⟨d, sep, rfl, rfl | rfl⟩ := hdir
  · rw [List.nil_append, hone]
    rfl
  · rw [List.append_assoc, List.singleton_append, List.splitOn_append_cons_self,
      List.splitOn_append_cons_self, hone, List.splitOn_nil, List.dropLast_concat]
  · exact absurd (by simp) hcolon

theorem pathOk_part (h : pathOk (dir ++ name) = true) (hdir : Leads dir) (hname : Bare name) :
    partOk name = true := by
  have hcolon : colon ∉ dir := fun hmem => pathOk_no_colon h (List.mem_append_left _ hmem)
  refine (pathOk_iff.1 h).2.2 name ?_
  rw [parts_append hdir hcolon hname]
  simp

/-- A path stays one when a good part stands for its last. -/
theorem pathOk_replace (h : pathOk (dir ++ name) = true) (hdir : Leads dir) (hname : Bare name)
    (hname' : Bare name') (hpart : partOk name' = true) (hlen : (dir ++ name').length ≤ pathMax) :
    pathOk (dir ++ name') = true := by
  have hcolon : colon ∉ dir := fun hmem => pathOk_no_colon h (List.mem_append_left _ hmem)
  obtain ⟨-, -, hparts⟩ := pathOk_iff.1 h
  rw [parts_append hdir hcolon hname] at hparts
  have hpos := (partOk_iff.1 hpart).1
  refine pathOk_iff.2 ⟨by rw [List.length_append]; omega, hlen, ?_⟩
  rw [parts_append hdir hcolon hname']
  rintro p hp
  obtain hp | hp := List.mem_append.1 hp
  · exact hparts p (List.mem_append_left _ hp)
  · rwa [List.mem_singleton.1 hp]

/-- The volume of an absolute path is in its directory. -/
theorem absPathOk_directory (h : absPathOk (dir ++ name) = true) (hdir : Leads dir)
    (hname : Bare name) :
    ∃ volume dir', dir = volume ++ colon :: dir' ∧ Leads dir' ∧ colon ∉ volume ∧ volume ≠ [] ∧
      volume.length ≤ partMax ∧ (∀ c ∈ volume, control c = false ∧ c ≠ slash) ∧
        pathOk (dir' ++ name) = true := by
  obtain ⟨volume, rest, heq, hcolon, hne, hlen, -, hall, hrest⟩ := absPathOk_iff.1 h
  have hbefore : ∃ dir', dir = volume ++ colon :: dir' ∧ rest = dir' ++ name := by
    obtain ⟨as, hvol, hname'⟩ | ⟨bs, hd, hrest'⟩ := List.append_eq_append_iff.1 heq
    · exact absurd rfl (hname colon (by rw [hname']; simp)).2
    · cases bs with
      | nil => exact absurd rfl (hname colon (by rw [← List.nil_append name, ← hrest']; simp)).2
      | cons b bs =>
        rw [List.cons_append, List.cons.injEq] at hrest'
        exact ⟨bs, by rw [hd, hrest'.1], hrest'.2⟩
  obtain ⟨dir', rfl, rfl⟩ := hbefore
  have hlead : Leads dir' := by
    obtain hnil | ⟨d, sep, heq, hsep⟩ := hdir
    · simp at hnil
    · cases dir' using List.reverseRecOn with
      | nil => exact .inl rfl
      | append_singleton d' c _ =>
        refine .inr ⟨d', c, rfl, ?_⟩
        have hlast := congrArg List.getLast? heq
        rw [← List.cons_append, ← List.append_assoc, List.getLast?_concat,
          List.getLast?_concat] at hlast
        rwa [Option.some.inj hlast]
  exact ⟨volume, dir', rfl, hlead, hcolon, hne, hlen, hall, hrest⟩

theorem absPathOk_replace (h : absPathOk (dir ++ name) = true) (hdir : Leads dir) (hname : Bare name)
    (hname' : Bare name') (hpart : partOk name' = true) (hlen : (dir ++ name').length ≤ pathMax) :
    absPathOk (dir ++ name') = true := by
  obtain ⟨volume, dir', rfl, hdir', hcolon, hne, hvolume, hall, hrest⟩ := absPathOk_directory h hdir hname
  have hrest' := pathOk_replace hrest hdir' hname hname' hpart (by
    simp only [List.length_append, List.length_cons] at hlen ⊢
    omega)
  exact absPathOk_iff.2 ⟨volume, dir' ++ name', by simp, hcolon, hne, hvolume, hlen, hall, hrest'⟩

-- ---------------------------------------------------------------------------
-- A candidate
-- ---------------------------------------------------------------------------

/-- What is left for the stem. -/
def room (ext : Bytes) (n : Nat) : Nat := partMax - (suffix n).length - ext.length

/-- The number and the extension alone are a whole name, with a stem that must be cut. -/
def NoRoom (stem ext : Bytes) (n : Nat) : Prop :=
  partMax < stem.length + (suffix n).length + ext.length ∧ partMax ≤ (suffix n).length + ext.length

instance : Decidable (NoRoom stem ext n) := inferInstanceAs (Decidable (_ ∧ _))

def renamed (stem ext : Bytes) (n : Nat) : Bytes := stem.take (room ext n) ++ suffix n ++ ext

theorem renamed_length (stem ext : Bytes) (n : Nat) :
    (renamed stem ext n).length = min (room ext n) stem.length + (suffix n).length + ext.length := by
  rw [renamed, List.length_append, List.length_append, List.length_take]

/-- A candidate in the parts of its path. -/
theorem candidate_parts (hdir : Leads dir) (hname : Bare (stem ++ ext)) (hext : Extends stem ext)
    (hn : 2 ≤ n) :
    candidate (dir ++ (stem ++ ext)) n =
      if NoRoom stem ext n then none
      else if dir.length + (renamed stem ext n).length > pathMax then none
      else some (dir ++ renamed stem ext n) := by
  have hread : candidate (dir ++ (stem ++ ext)) n =
      if n ≤ 1 then if (dir ++ (stem ++ ext)).length > pathMax then none else some (dir ++ (stem ++ ext))
      else
        let name := (dir ++ (stem ++ ext)).drop (dirLen (dir ++ (stem ++ ext)))
        let ext' := name.drop (extAt name)
        if extAt name + (suffix n).length + ext'.length > partMax ∧
            (suffix n).length + ext'.length ≥ partMax then none
        else
          let cut := min (extAt name) (partMax - (suffix n).length - ext'.length)
          if dirLen (dir ++ (stem ++ ext)) + cut + (suffix n).length + ext'.length > pathMax then none
          else some ((dir ++ (stem ++ ext)).take (dirLen (dir ++ (stem ++ ext))) ++ name.take cut ++
            suffix n ++ ext') := rfl
  have htake : (stem ++ ext).take (min stem.length (room ext n)) = stem.take (room ext n) := by
    rw [List.take_append_of_le_length (Nat.min_le_left _ _), List.take_eq_take_iff]
    omega
  have hlen : dir.length + min stem.length (room ext n) + (suffix n).length + ext.length =
      dir.length + (renamed stem ext n).length := by
    rw [renamed_length, Nat.min_comm]
    omega
  rw [hread, if_neg (by omega), dirLen_append hdir hname, List.drop_left]
  dsimp only
  rw [extAt_append hext, List.drop_left, List.take_left]
  change (if NoRoom stem ext n then none
    else if dir.length + min stem.length (room ext n) + (suffix n).length + ext.length > pathMax then
      none
    else some (dir ++ (stem ++ ext).take (min stem.length (room ext n)) ++ suffix n ++ ext)) = _
  rw [htake, hlen, renamed]
  simp only [List.append_assoc]

/-- What a name made of a good one is. -/
theorem renamed_good (hpart : partOk (stem ++ ext) = true) (hname : Bare (stem ++ ext))
    (hroom : ¬NoRoom stem ext n) :
    partOk (renamed stem ext n) = true ∧ Bare (renamed stem ext n) := by
  obtain ⟨hpos, hlen, -, -, hchars⟩ := partOk_iff.1 hpart
  have hfrom : ∀ c ∈ renamed stem ext n, c ∈ stem ++ ext ∨ c ∈ suffix n := by
    rintro c hc
    obtain hc | hc := List.mem_append.1 hc
    · obtain hc | hc := List.mem_append.1 hc
      · exact .inl (List.mem_append_left _ (List.mem_of_mem_take hc))
      · exact .inr hc
    · exact .inl (List.mem_append_right _ hc)
  have hbare : Bare (renamed stem ext n) := by
    rintro c hc
    obtain hc | hc := hfrom c hc
    · exact hname c hc
    · exact ⟨(suffix_bytes n c hc).2.2.1, (suffix_bytes n c hc).2.1⟩
  have hunder : (0x5f : UInt8) ∈ renamed stem ext n := by simp [renamed, suffix, ascii]
  have hnum := suffix_length n
  have hlength := renamed_length stem ext n
  have hfit : (renamed stem ext n).length ≤ partMax := by
    rw [List.length_append] at hlen
    rw [NoRoom] at hroom
    rw [room] at hlength
    omega
  refine ⟨partOk_iff.2 ⟨by omega, hfit, ?_, ?_, ?_⟩, hbare⟩
  · rintro h
    rw [h] at hunder
    revert hunder
    decide
  · rintro h
    rw [h] at hunder
    revert hunder
    decide
  · rintro c hc
    obtain hc | hc := hfrom c hc
    · exact hchars c hc
    · exact ⟨(suffix_bytes n c hc).1, (suffix_bytes n c hc).2.1⟩

theorem renamed_inj (h : renamed stem ext n = renamed stem ext m) : n = m := by
  rw [renamed, renamed] at h
  exact suffix_inj (List.append_cancel_right h)

/-- Only a name of full length, its stem ending in the number, comes out as itself. -/
theorem renamed_eq_iff (hlen : (stem ++ ext).length ≤ partMax) :
    renamed stem ext n = stem ++ ext ↔
      (stem ++ ext).length = partMax ∧ suffix n <:+ stem := by
  have hnum := suffix_length n
  rw [renamed, List.append_left_inj]
  rw [List.length_append] at hlen ⊢
  constructor
  · rintro h
    have hlength := congrArg List.length h
    rw [List.length_append, List.length_take, room] at hlength
    exact ⟨by omega, stem.take (room ext n), h⟩
  · rintro ⟨hfull, front, rfl⟩
    rw [List.length_append] at hfull
    have hroom : room ext n = front.length := by
      rw [room]
      omega
    rw [hroom, List.take_left]

-- ---------------------------------------------------------------------------
-- Free names
-- ---------------------------------------------------------------------------

def directory (path : Bytes) : Bytes := path.take (dirLen path)

def lastPart (path : Bytes) : Bytes := path.drop (dirLen path)

def stemOf (name : Bytes) : Bytes := name.take (extAt name)

def extOf (name : Bytes) : Bytes := name.drop (extAt name)

theorem directory_append (hdir : Leads dir) (hname : Bare name) : directory (dir ++ name) = dir := by
  rw [directory, dirLen_append hdir hname, List.take_left]

theorem lastPart_append (hdir : Leads dir) (hname : Bare name) : lastPart (dir ++ name) = name := by
  rw [lastPart, dirLen_append hdir hname, List.drop_left]

theorem stemOf_append (h : Extends stem ext) : stemOf (stem ++ ext) = stem := by
  rw [stemOf, extAt_append h, List.take_left]

theorem extOf_append (h : Extends stem ext) : extOf (stem ++ ext) = ext := by
  rw [extOf, extAt_append h, List.drop_left]

/-- The name numbered `n` that `path` would get. -/
def numbered (path : Bytes) (n : Nat) : Bytes :=
  renamed (stemOf (lastPart path)) (extOf (lastPart path)) n

/-- A candidate is a good path in the directory it is for, of the same extension, and
from 2 on every number has its own; there is none where the extension leaves no room
for a stem, or the directory none for the name. -/
theorem candidate_names (hpath : pathOk path = true ∨ absPathOk path = true) :
    (∀ n ≤ 1, candidate path n = some path) ∧
      ∀ n, 2 ≤ n →
        (candidate path n = none ↔
          NoRoom (stemOf (lastPart path)) (extOf (lastPart path)) n ∨
            pathMax < (directory path).length + (numbered path n).length) ∧
        ∀ out, candidate path n = some out →
          (pathOk path = true → pathOk out = true) ∧
          (absPathOk path = true → absPathOk out = true) ∧
          out.length ≤ pathMax ∧ directory out = directory path ∧
          1 ≤ (lastPart out).length ∧ (lastPart out).length ≤ partMax ∧
          extOf (lastPart out) = extOf (lastPart path) ∧
          (∀ m, 2 ≤ m → candidate path m = some out → m = n) ∧
          (out = path ↔
            (lastPart path).length = partMax ∧ suffix n <:+ stemOf (lastPart path)) := by
  obtain ⟨dir, name, rfl, hdir, hbare, -⟩ := dir_name path
  obtain ⟨stem, ext, rfl, hext, -⟩ := stem_ext name
  have htotal : (dir ++ (stem ++ ext)).length ≤ pathMax := by
    obtain h | h := hpath
    · exact (pathOk_iff.1 h).2.1
    · obtain ⟨-, -, -, -, -, -, h, -⟩ := absPathOk_iff.1 h
      exact h
  have hpart : partOk (stem ++ ext) = true := by
    obtain h | h := hpath
    · exact pathOk_part h hdir hbare
    · obtain ⟨_, _, -, hdir', -, -, -, -, hrest⟩ := absPathOk_directory h hdir hbare
      exact pathOk_part hrest hdir' hbare
  have hlen := (partOk_iff.1 hpart).2.1
  simp only [numbered, lastPart_append hdir hbare, directory_append hdir hbare,
    stemOf_append hext, extOf_append hext]
  refine ⟨fun n hn => ?_, fun n hn => ⟨?_, ?_⟩⟩
  · rw [candidate, if_pos hn, if_neg (by omega)]
  · rw [candidate_parts hdir hbare hext hn]
    split_ifs with hroom hfit
    · simp [hroom]
    · simp [hfit]
    · simp only [reduceCtorEq, false_iff, not_or]
      exact ⟨hroom, hfit⟩
  · rintro out hout
    rw [candidate_parts hdir hbare hext hn] at hout
    split_ifs at hout with hroom hfit
    obtain rfl := Option.some.inj hout
    obtain ⟨hgood, hbare'⟩ := renamed_good hpart hbare hroom
    obtain ⟨hpos', hlen', -⟩ := partOk_iff.1 hgood
    have hlength : (dir ++ renamed stem ext n).length ≤ pathMax := by
      rw [List.length_append]
      omega
    have hext' : Extends (stem.take (room ext n) ++ suffix n) ext :=
      hext.renamed _ (suffix_ne n) (suffix_dot n)
    rw [lastPart_append hdir hbare', directory_append hdir hbare']
    refine ⟨fun h => pathOk_replace h hdir hbare hbare' hgood hlength,
      fun h => absPathOk_replace h hdir hbare hbare' hgood hlength, hlength, rfl, hpos', hlen',
      extOf_append hext', ?_, ?_⟩
    · rintro m hm hsame
      rw [candidate_parts hdir hbare hext hm] at hsame
      split_ifs at hsame
      exact renamed_inj (List.append_cancel_left (Option.some.inj hsame))
    · rw [List.append_right_inj, renamed_eq_iff hlen]

theorem candidate_names_work :
    directory (ascii "Work:a/b_3.txt") = ascii "Work:a/" :=
  (((candidate_names (.inr (by decide : absPathOk (ascii "Work:a/b.txt") = true))).2 3 (by decide)).2
    (ascii "Work:a/b_3.txt") (by decide)).2.2.2.1

/-- A name of thirty bytes that ends in a number is its own candidate, and an extension
of 28 bytes leaves no name. -/
theorem candidate_repeats :
    pathOk (ascii "xxxxxxxxxxxxxxxxxxxxxxxxxxxx_2") = true ∧
      candidate (ascii "xxxxxxxxxxxxxxxxxxxxxxxxxxxx_2") 2 =
        candidate (ascii "xxxxxxxxxxxxxxxxxxxxxxxxxxxx_2") 1 ∧
      candidate (ascii "xxxxxxxxxxxxxxxxxxxxxxxxxxxx_2") 1 =
        candidate (ascii "xxxxxxxxxxxxxxxxxxxxxxxxxxxx_2") 0 ∧
      pathOk (ascii "a.123456789012345678901234567") = true ∧
      candidate (ascii "a.123456789012345678901234567") 2 = none := by
  decide

end WebAdf.Receive
