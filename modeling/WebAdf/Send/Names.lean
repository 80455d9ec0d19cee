import WebAdf.Receive.Parse
import WebAdf.Send.Board
import WebAdf.Send.Queue

/-!
# Names both ends take

A path the server made safe and a destination it accepted consist of parts
Transfer takes: each one Latin-1, of 1 to 30 characters, without a slash, a
colon or a control character.
-/

namespace WebAdf.Send

open Lib

-- ---------------------------------------------------------------------------
-- Latin-1
-- ---------------------------------------------------------------------------

def Plain (s : Units) : Prop := ∀ u ∈ s, u ≤ 0xff

theorem toNat_le (h : u ≤ (0xff : UInt16)) : u.toNat ≤ 255 := UInt16.le_iff_toNat_le.1 h

theorem byte_toNat (h : u ≤ (0xff : UInt16)) : (UInt8.ofNat u.toNat).toNat = u.toNat := by
  have := toNat_le h
  rw [UInt8.toNat_ofNat']
  omega

theorem byte_inj (hu : u ≤ (0xff : UInt16)) (hv : v ≤ (0xff : UInt16))
    (h : UInt8.ofNat u.toNat = UInt8.ofNat v.toNat) : u = v := by
  have := congrArg UInt8.toNat h
  rw [byte_toNat hu, byte_toNat hv] at this
  exact UInt16.toNat_inj.1 this

theorem latin1_append (a b : Units) : latin1 (a ++ b) = latin1 a ++ latin1 b := List.map_append

theorem length_latin1 (s : Units) : (latin1 s).length = s.length := List.length_map _

/-- A character of Latin-1 stands in the bytes only where it stands in the text. -/
theorem mem_latin1 (hs : Plain s) (hu : u ≤ 0xff) : UInt8.ofNat u.toNat ∈ latin1 s ↔ u ∈ s := by
  constructor
  · intro h
    obtain ⟨v, hv, heq⟩ := List.mem_map.1 h
    rw [← byte_inj (hs v hv) hu heq]
    exact hv
  · intro h
    exact List.mem_map.2 ⟨u, h, rfl⟩

theorem latin1_inj (ha : Plain a) (hb : Plain b) (h : latin1 a = latin1 b) : a = b := by
  induction a generalizing b with
  | nil => exact (List.map_eq_nil_iff.1 h.symm).symm
  | cons u a ih =>
    cases b with
    | nil => cases h
    | cons v b =>
      obtain ⟨hhead, htail⟩ := List.cons.inj h
      rw [byte_inj (ha u (List.mem_cons_self ..)) (hb v (List.mem_cons_self ..)) hhead,
        ih (fun x hx => ha x (List.mem_cons_of_mem _ hx))
          (fun x hx => hb x (List.mem_cons_of_mem _ hx)) htail]

theorem latin1_intercalate (parts : List Units) :
    latin1 ([slash].intercalate parts) = [Receive.slash].intercalate (parts.map latin1) := by
  induction parts with
  | nil => rfl
  | cons p ps ih =>
    cases ps with
    | nil => simp
    | cons q qs =>
      rw [List.intercalate_cons_cons, List.map_cons, List.map_cons, List.intercalate_cons_cons,
        latin1_append, latin1_append, ih, List.map_cons]
      rfl

-- ---------------------------------------------------------------------------
-- Parts
-- ---------------------------------------------------------------------------

/-- A character of a name. -/
def NameUnit (u : UInt16) : Prop :=
  0x20 ≤ u ∧ u ≤ 0xff ∧ u ≠ 0x7f ∧ u ≠ colon ∧ u ≠ slash

structure GoodPart (p : Units) : Prop where
  pos : 1 ≤ p.length
  le : p.length ≤ 30
  not_dot : p ≠ [dot]
  not_dots : p ≠ [dot, dot]
  units : ∀ u ∈ p, NameUnit u

theorem GoodPart.plain (h : GoodPart p) : Plain p := fun u hu => (h.units u hu).2.1

theorem GoodPart.no_slash (h : GoodPart p) : Receive.slash ∉ latin1 p := fun hmem =>
  (h.units _ ((mem_latin1 (u := slash) h.plain (by decide)).1 hmem)).2.2.2.2 rfl

theorem control_byte (h : NameUnit u) : Receive.control (UInt8.ofNat u.toNat) = false := by
  obtain ⟨hlow, hhigh, hdel, -, -⟩ := h
  have hlow : 32 ≤ u.toNat := UInt16.le_iff_toNat_le.1 hlow
  unfold Receive.control
  rw [Bool.or_eq_false_iff, decide_eq_false_iff_not, UInt8.lt_iff_toNat_lt, byte_toNat hhigh]
  constructor
  · change ¬ (u.toNat < 32)
    omega
  · rw [beq_eq_false_iff_ne]
    intro heq
    exact hdel (byte_inj hhigh (by decide) heq)

theorem plain_dots (n : Nat) : Plain (List.replicate n dot) := fun u hu => by
  rw [(List.mem_replicate.1 hu).2]
  decide

theorem GoodPart.partOk (h : GoodPart p) : Receive.partOk (latin1 p) = true := by
  have hdot : latin1 p ≠ [Receive.dot] := fun heq =>
    h.not_dot (latin1_inj h.plain (plain_dots 1) heq)
  have hdots : latin1 p ≠ [Receive.dot, Receive.dot] := fun heq =>
    h.not_dots (latin1_inj h.plain (plain_dots 2) heq)
  have hall : (latin1 p).all (fun c => !Receive.control c && c != Receive.colon) = true := by
    rw [List.all_eq_true]
    intro c hc
    obtain ⟨u, hu, rfl⟩ := List.mem_map.1 hc
    have hunit := h.units u hu
    rw [control_byte hunit, Bool.not_false, Bool.true_and, bne_iff_ne]
    intro heq
    exact hunit.2.2.2.1 (byte_inj (v := colon) hunit.2.1 (by decide) heq)
  have hpos := h.pos
  have hle : p.length ≤ Receive.partMax := h.le
  unfold Receive.partOk
  rw [hall, length_latin1]
  simp [hdot, hdots, hpos, hle]

/-- Parts between slashes are a path Transfer takes. -/
theorem pathOk_parts (hne : parts ≠ []) (hgood : ∀ p ∈ parts, GoodPart p)
    (hlen : ([slash].intercalate parts).length ≤ 255) :
    Receive.pathOk (latin1 ([slash].intercalate parts)) = true := by
  have hpos : 1 ≤ ([slash].intercalate parts).length := by
    cases parts with
    | nil => exact absurd rfl hne
    | cons p ps =>
      have := (hgood p (List.mem_cons_self ..)).pos
      cases ps with
      | nil => simpa using this
      | cons q qs =>
        rw [List.intercalate_cons_cons, List.length_append, List.length_append]
        omega
  have hle : ([slash].intercalate parts).length ≤ Receive.pathMax := hlen
  have hsplit : (latin1 ([slash].intercalate parts)).splitOn Receive.slash = parts.map latin1 := by
    rw [latin1_intercalate, List.splitOn_intercalate]
    · intro l hl
      obtain ⟨p, hp, rfl⟩ := List.mem_map.1 hl
      exact (hgood p hp).no_slash
    · exact fun h => hne (List.map_eq_nil_iff.1 h)
  have hparts : (parts.map latin1).all Receive.partOk = true := by
    rw [List.all_eq_true]
    intro l hl
    obtain ⟨p, hp, rfl⟩ := List.mem_map.1 hl
    exact (hgood p hp).partOk
  unfold Receive.pathOk
  rw [hsplit, hparts, length_latin1]
  simp [hpos, hle]

-- ---------------------------------------------------------------------------
-- Paths made safe
-- ---------------------------------------------------------------------------

theorem mem_codePoints (h : c ∈ codePoints s) : (∃ u ∈ s, c = u.toNat) ∨ 0x10000 ≤ c := by
  induction s using codePoints.induct with
  | case1 => cases h
  | case2 u =>
    rw [codePoints, List.mem_singleton] at h
    exact .inl ⟨u, List.mem_singleton_self u, h⟩
  | case3 u v s hpair ih =>
    rw [codePoints, if_pos hpair, List.mem_cons] at h
    rcases h with h | h
    · exact .inr (by omega)
    · rcases ih h with ⟨w, hw, heq⟩ | hbig
      · exact .inl ⟨w, List.mem_cons_of_mem _ (List.mem_cons_of_mem _ hw), heq⟩
      · exact .inr hbig
  | case4 u v s hpair ih =>
    rw [codePoints, if_neg hpair, List.mem_cons] at h
    rcases h with h | h
    · exact .inl ⟨u, List.mem_cons_self .., h⟩
    · rcases ih h with ⟨w, hw, heq⟩ | hbig
      · exact .inl ⟨w, List.mem_cons_of_mem _ hw, heq⟩
      · exact .inr hbig

/-- A character kept is one of a name, unless it was a slash. -/
theorem nameUnit_of_cleanPoint (hc : c ≠ slash.toNat) (h : u ∈ cleanPoint c) : NameUnit u := by
  unfold cleanPoint at h
  split at h
  · cases h
  rename_i hcontrol
  split at h
  · rw [List.mem_singleton.1 h]
    unfold NameUnit
    decide
  rename_i hcolon
  split at h
  · rw [List.mem_singleton.1 h]
    unfold NameUnit
    decide
  rename_i hbig
  rw [List.mem_singleton.1 h]
  have hto : (UInt16.ofNat c).toNat = c := by
    rw [UInt16.toNat_ofNat']
    omega
  refine ⟨UInt16.le_iff_toNat_le.2 ?_, UInt16.le_iff_toNat_le.2 ?_, ?_, ?_, ?_⟩
  · rw [hto]
    change 32 ≤ c
    omega
  · rw [hto]
    change c ≤ 255
    omega
  · intro heq
    have := congrArg UInt16.toNat heq
    rw [hto] at this
    exact hcontrol (.inr (.inl this))
  · intro heq
    have := congrArg UInt16.toNat heq
    rw [hto] at this
    exact hcolon this
  · intro heq
    have := congrArg UInt16.toNat heq
    rw [hto] at this
    exact hc this

theorem extension_suffix (p : Units) : (extension p).length ≤ 9 ∧ ∀ u ∈ extension p, u ∈ p := by
  unfold extension
  split
  · split
    · rename_i h
      exact ⟨by rw [List.length_drop]; exact h.2, fun u hu => List.mem_of_mem_drop hu⟩
    · exact ⟨Nat.zero_le _, fun u hu => absurd hu (List.not_mem_nil)⟩
  · exact ⟨Nat.zero_le _, fun u hu => absurd hu (List.not_mem_nil)⟩

theorem cutPart_good (hne : p ≠ []) (hdot : p ≠ [dot]) (hdots : p ≠ [dot, dot])
    (hunits : ∀ u ∈ p, NameUnit u) : GoodPart (cutPart p) := by
  have hpos := List.length_pos_iff.2 hne
  unfold cutPart
  split
  · rename_i hlong
    obtain ⟨hext, hmem⟩ := extension_suffix p
    have hlen : (p.take (30 - (extension p).length) ++ extension p).length = 30 := by
      rw [List.length_append, List.length_take]
      omega
    refine ⟨by omega, by omega, fun h => ?_, fun h => ?_, fun u hu => ?_⟩
    · rw [h] at hlen
      cases hlen
    · rw [h] at hlen
      cases hlen
    · rcases List.mem_append.1 hu with hu | hu
      · exact hunits u (List.mem_of_mem_take hu)
      · exact hunits u (hmem u hu)
  · exact ⟨hpos, by omega, hdot, hdots, hunits⟩

theorem cleanPart_good (hraw : slash ∉ raw) (h : cleanPart raw = some p) : GoodPart p := by
  unfold cleanPart at h
  dsimp only at h
  split at h
  · cases h
  rename_i hempty
  rw [not_or, not_or] at hempty
  rw [← Option.some.inj h]
  refine cutPart_good hempty.1 hempty.2.1 hempty.2.2 fun u hu => ?_
  obtain ⟨c, hc, hu⟩ := List.mem_flatMap.1 hu
  refine nameUnit_of_cleanPoint (fun heq => ?_) hu
  rcases mem_codePoints hc with ⟨v, hv, hcv⟩ | hbig
  · rw [hcv] at heq
    exact hraw (UInt16.toNat_inj.1 heq ▸ hv)
  · rw [heq] at hbig
    exact absurd hbig (by decide)

theorem not_mem_splitOn {c : UInt16} {s : Units} (h : part ∈ s.splitOn c) : c ∉ part := by
  induction s generalizing part with
  | nil =>
    rw [List.splitOn_nil, List.mem_singleton] at h
    rw [h]
    exact List.not_mem_nil
  | cons u s ih =>
    rw [List.splitOn_cons_eq_if_modifyHead] at h
    split at h
    · rcases List.mem_cons.1 h with rfl | h
      · exact List.not_mem_nil
      · exact ih h
    · rename_i hu
      cases hs : s.splitOn c with
      | nil => exact absurd hs (List.splitOn_ne_nil c s)
      | cons first rest =>
        rw [hs, List.modifyHead_cons] at h
        rcases List.mem_cons.1 h with rfl | h
        · rw [List.mem_cons, not_or]
          exact ⟨fun heq => hu (beq_iff_eq.2 heq.symm), ih (hs ▸ List.mem_cons_self ..)⟩
        · exact ih (hs ▸ List.mem_cons_of_mem _ h)

/-- A path of the queue's: relative, and one Transfer takes. -/
theorem cleanAmigaPath_good (h : cleanAmigaPath input = some path) :
    Plain path ∧ colon ∉ path ∧ 1 ≤ path.length ∧ path.length ≤ 255 ∧
      Receive.pathOk (latin1 path) = true ∧ ∀ u ∈ path, 0x20 ≤ u := by
  unfold cleanAmigaPath at h
  dsimp only at h
  split at h
  case isFalse => cases h
  rename_i hlen
  rw [← Option.some.inj h]
  have hgood : ∀ p ∈ (input.splitOn slash).filterMap cleanPart, GoodPart p := by
    intro p hp
    obtain ⟨raw, hraw, hclean⟩ := List.mem_filterMap.1 hp
    exact cleanPart_good (not_mem_splitOn hraw) hclean
  have hunits : ∀ u ∈ [slash].intercalate ((input.splitOn slash).filterMap cleanPart),
      u = slash ∨ NameUnit u := by
    intro u hu
    rcases mem_intercalate hu with h | ⟨p, hp, hup⟩
    · exact .inl h
    · exact .inr ((hgood p hp).units u hup)
  refine ⟨fun u hu => ?_, fun hu => ?_, hlen.1, hlen.2, pathOk_parts ?_ hgood hlen.2, fun u hu => ?_⟩
  · rcases hunits u hu with rfl | h
    · decide
    · exact h.2.1
  · rcases hunits _ hu with h | h
    · exact absurd h (by decide)
    · exact h.2.2.2.1 rfl
  · intro hnil
    rw [hnil] at hlen
    exact absurd hlen.1 (by decide)
  · rcases hunits u hu with rfl | h
    · decide
    · exact h.1

-- ---------------------------------------------------------------------------
-- Destinations
-- ---------------------------------------------------------------------------

theorem codePoints_plain (h : Plain s) : codePoints s = s.map UInt16.toNat := by
  induction s using codePoints.induct with
  | case1 => rfl
  | case2 u => rfl
  | case3 u v s hpair ih =>
    have hu := toNat_le (h u (List.mem_cons_self ..))
    rw [isHigh, Bool.and_eq_true, Bool.and_eq_true, decide_eq_true_eq] at hpair
    have : 55296 ≤ u.toNat := UInt16.le_iff_toNat_le.1 hpair.1.1
    omega
  | case4 u v s hpair ih =>
    rw [codePoints, if_neg hpair, ih fun x hx => h x (List.mem_cons_of_mem _ hx)]
    rfl

theorem nameUnit_of_badChar (hbad : badChar u = false) (hcolon : u ≠ colon) (hslash : u ≠ slash) :
    NameUnit u := by
  unfold badChar at hbad
  simp only [Bool.or_eq_false_iff, decide_eq_false_iff_not, beq_eq_false_iff_ne] at hbad
  obtain ⟨⟨⟨hlow, hdel⟩, -⟩, hhigh⟩ := hbad
  rw [UInt16.le_iff_toNat_le] at hlow
  refine ⟨UInt16.le_iff_toNat_le.2 ?_, UInt16.not_lt.1 hhigh, hdel, hcolon, hslash⟩
  change ¬ (u.toNat ≤ 31) at hlow
  change 32 ≤ u.toNat
  omega

/-- A name AmigaDOS takes is one Transfer takes. -/
theorem amigaNameProblem_good (h : amigaNameProblem name = none) : GoodPart name := by
  unfold amigaNameProblem at h
  split at h
  · cases h
  rename_i htrim
  split at h
  · cases h
  rename_i hlen
  split at h
  · cases h
  rename_i hdots
  split at h
  · cases h
  rename_i hbad
  rw [not_or] at hdots
  rw [not_or, not_or] at hbad
  have hunits : ∀ u ∈ name, NameUnit u := by
    intro u hu
    refine nameUnit_of_badChar ?_ (fun heq => hbad.1 (heq ▸ hu)) (fun heq => hbad.2.1 (heq ▸ hu))
    rw [Bool.eq_false_iff]
    exact fun hb => hbad.2.2 (List.any_eq_true.2 ⟨u, hu, hb⟩)
  have hplain : Plain name := fun u hu => (hunits u hu).2.1
  rw [codePoints_plain hplain, List.length_map] at hlen
  refine ⟨?_, by omega, hdots.1, hdots.2, hunits⟩
  rw [Nat.succ_le_iff, List.length_pos_iff]
  rintro rfl
  exact htrim rfl

/-- A destination is a volume, its colon and parts between slashes. -/
theorem cleanAmigaDest_parts (h : cleanAmigaDest dest = some d) :
    d = dest ∧ dest.length ≤ 255 ∧ ∃ volume parts, GoodPart volume ∧ parts ≠ [] ∧
      (∀ p ∈ parts, GoodPart p) ∧ dest = volume ++ colon :: [slash].intercalate parts := by
  unfold cleanAmigaDest at h
  split at h
  · cases h
  rename_i c hc
  split at h
  · cases h
  rename_i hlen
  dsimp only at h
  split at h
  · cases h
  rename_i hnames
  rw [not_or, not_not] at hnames
  obtain ⟨hvolume, hparts⟩ := hnames
  obtain ⟨hlt, hcolon, -⟩ := List.idxOf?_eq_some_iff.1 hc
  refine ⟨(Option.some.inj h).symm, by omega, dest.take c, (dest.drop (c + 1)).splitOn slash,
    amigaNameProblem_good hvolume, List.splitOn_ne_nil _ _, fun p hp => ?_, ?_⟩
  · refine amigaNameProblem_good (Classical.byContradiction fun hproblem => hparts ?_)
    exact List.any_eq_true.2 ⟨p, hp, decide_eq_true hproblem⟩
  · rw [List.intercalate_splitOn, ← hcolon, ← List.drop_eq_getElem_cons hlt, List.take_append_drop]

theorem GoodPart.no_colon (h : GoodPart p) : Receive.colon ∉ latin1 p := fun hmem =>
  (h.units _ ((mem_latin1 (u := colon) h.plain (by decide)).1 hmem)).2.2.2.1 rfl

/-- A root, its colon and parts between slashes are an absolute path Transfer
takes. -/
theorem absPathOk_join (hpos : 1 ≤ root.length) (hle : root.length ≤ 30)
    (hroot : ∀ u ∈ root, NameUnit u) (hne : parts ≠ []) (hparts : ∀ p ∈ parts, GoodPart p)
    (hlen : (root ++ colon :: [slash].intercalate parts).length ≤ 255) :
    Receive.absPathOk (latin1 (root ++ colon :: [slash].intercalate parts)) = true := by
  have hplain : Plain root := fun u hu => (hroot u hu).2.1
  have hnocolon : Receive.colon ∉ latin1 root := fun hmem =>
    (hroot _ ((mem_latin1 (u := colon) hplain (by decide)).1 hmem)).2.2.2.1 rfl
  have hnoslash : Receive.slash ∉ latin1 root := fun hmem =>
    (hroot _ ((mem_latin1 (u := slash) hplain (by decide)).1 hmem)).2.2.2.2 rfl
  have hbytes : latin1 (root ++ colon :: [slash].intercalate parts) =
      latin1 root ++ Receive.colon :: latin1 ([slash].intercalate parts) := latin1_append ..
  have htotal : (latin1 root ++ Receive.colon :: latin1 ([slash].intercalate parts)).length ≤ 255 := by
    rw [← hbytes, length_latin1]
    exact hlen
  rw [List.length_append, List.length_cons] at hlen
  have hpath := pathOk_parts hne hparts (by omega)
  have hall : (latin1 root).all (fun c => !Receive.control c && c != Receive.slash) = true := by
    rw [List.all_eq_true]
    intro c hc
    obtain ⟨u, hu, heq⟩ := List.mem_map.1 hc
    rw [← heq, control_byte (hroot u hu), Bool.not_false, Bool.true_and, bne_iff_ne, heq]
    rintro rfl
    exact hnoslash hc
  have hrest : (latin1 root ++ Receive.colon :: latin1 ([slash].intercalate parts)).drop
      ((latin1 root).length + 1) = latin1 ([slash].intercalate parts) := by
    rw [← List.drop_drop, List.drop_left]
    rfl
  rw [hbytes]
  unfold Receive.absPathOk
  rw [idxOf?_between hnocolon]
  dsimp only
  rw [List.take_left, hall, hrest, hpath]
  simp only [Bool.and_eq_true, decide_eq_true_eq, bne_iff_ne, and_true]
  rw [length_latin1]
  exact ⟨⟨by omega, hle⟩, htotal⟩

/-- A destination accepted: absolute, and one the board and Transfer take. -/
theorem cleanAmigaDest_good (h : cleanAmigaDest dest = some d) :
    d = dest ∧ Plain dest ∧ colon ∈ dest ∧ 1 ≤ dest.length ∧ dest.length ≤ 255 ∧
      absPathForm (latin1 dest) = true ∧ Receive.absPathOk (latin1 dest) = true ∧
        ∀ u ∈ dest, 0x20 ≤ u := by
  obtain ⟨rfl, hlen, volume, parts, hvolume, hne, hparts, rfl⟩ := cleanAmigaDest_parts h
  have hunits : ∀ u ∈ volume ++ colon :: [slash].intercalate parts,
      u = colon ∨ u = slash ∨ NameUnit u := by
    intro u hu
    rcases List.mem_append.1 hu with hu | hu
    · exact .inr (.inr (hvolume.units u hu))
    rcases List.mem_cons.1 hu with hu | hu
    · exact .inl hu
    rcases mem_intercalate hu with hu | ⟨p, hp, hup⟩
    · exact .inr (.inl hu)
    · exact .inr (.inr ((hparts p hp).units u hup))
  have hlen' := hlen
  rw [List.length_append, List.length_cons] at hlen
  have hpath := pathOk_parts hne hparts (by omega)
  have hbytes : latin1 (volume ++ colon :: [slash].intercalate parts) =
      latin1 volume ++ Receive.colon :: latin1 ([slash].intercalate parts) := latin1_append ..
  have hidx := idxOf?_between hvolume.no_colon (latin1 ([slash].intercalate parts))
  have hpos : 1 ≤ (latin1 volume).length := by
    rw [length_latin1]
    exact hvolume.pos
  have hle : (latin1 volume).length ≤ 30 := by
    rw [length_latin1]
    exact hvolume.le
  have hsome : 1 ≤ (latin1 ([slash].intercalate parts)).length := by
    unfold Receive.pathOk at hpath
    simp only [Bool.and_eq_true, decide_eq_true_eq] at hpath
    exact hpath.1.1
  have htotal : (latin1 volume ++ Receive.colon :: latin1 ([slash].intercalate parts)).length ≤ 255 := by
    rw [List.length_append, List.length_cons, length_latin1, length_latin1]
    omega
  have hcontrol : ∀ c ∈ latin1 volume ++ Receive.colon :: latin1 ([slash].intercalate parts),
      Receive.control c = false := by
    rw [← hbytes]
    intro c hc
    obtain ⟨u, hu, rfl⟩ := List.mem_map.1 hc
    rcases hunits u hu with rfl | rfl | h
    · decide
    · decide
    · exact control_byte h
  refine ⟨rfl, fun u hu => ?_, ?_, ?_, ?_, ?_, ?_, fun u hu => ?_⟩
  · rcases hunits u hu with rfl | rfl | h
    · decide
    · decide
    · exact h.2.1
  · exact List.mem_append_right _ (List.mem_cons_self ..)
  · rw [List.length_append, List.length_cons]
    omega
  · rw [List.length_append, List.length_cons]
    omega
  · rw [hbytes]
    unfold absPathForm
    rw [hidx]
    dsimp only
    rw [List.take_left]
    have hall : (latin1 volume ++ Receive.colon :: latin1 ([slash].intercalate parts)).all
        (fun c => !(decide (c < 0x20) || c == 0x7f)) = true := by
      rw [List.all_eq_true]
      intro c hc
      rw [Bool.not_eq_true']
      exact hcontrol c hc
    have hslash : (latin1 volume).all (· != Receive.slash) = true := by
      rw [List.all_eq_true]
      intro c hc
      rw [bne_iff_ne]
      rintro rfl
      exact hvolume.no_slash hc
    have hlong := htotal
    rw [List.length_append, List.length_cons] at hlong
    rw [hall, hslash]
    simp only [Bool.and_eq_true, decide_eq_true_eq, List.length_append, List.length_cons, and_true,
      true_and]
    omega
  · exact absPathOk_join hvolume.pos hvolume.le hvolume.units hne hparts hlen'
  · rcases hunits u hu with rfl | rfl | h
    · decide
    · decide
    · exact h.1

end WebAdf.Send
