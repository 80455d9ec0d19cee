import WebAdf.Fetch.Address
import WebAdf.Lib.Endian

/-!
# The texts of an address

What a textual address denotes: a dotted quad its 32-bit value, groups of hex
digits with at most one `::` and perhaps a dotted tail their 128-bit value.
`isIP` accepts these texts, an IPv6 one with or without a zone id, and no
other.
-/

namespace WebAdf.Fetch

open Lib

/-- Parts that a colon may stand between. -/
structure Part (p : Units) : Prop where
  ne_nil : p ≠ []
  colon : colon ∉ p

structure Quad where
  a : UInt8
  b : UInt8
  c : UInt8
  d : UInt8

def Quad.octets (q : Quad) : List Units :=
  [octetText q.a.toNat, octetText q.b.toNat, octetText q.c.toNat, octetText q.d.toNat]

def Quad.text (q : Quad) : Units := [dot].intercalate q.octets

def Quad.value (q : Quad) : Nat := be32 q.a q.b q.c q.d

/-- One to four hex digits of either case. -/
structure Group where
  digits : Units
  hex : isHexRun digits = true

def Group.value (g : Group) : Nat := hexNat g.digits

def tailGroups : Option Quad → Nat
  | none => 0
  | some _ => 2

/-- The parts between the colons. -/
def parts (gs : List Group) (tail : Option Quad) : List Units := gs.map (·.digits) ++ tail.toList.map Quad.text

/-- Their 16-bit words. -/
def words (gs : List Group) (tail : Option Quad) : List Nat :=
  gs.map (·.value) ++ tail.elim [] fun q => [be16 q.a q.b, be16 q.c q.d]

/-- An IPv6 address as it is written. -/
inductive V6Text
  | whole (gs : List Group) (tail : Option Quad) (h : gs.length + tailGroups tail = 8)
  | gapped (left right : List Group) (tail : Option Quad) (h : left.length + right.length + tailGroups tail < 8)

def V6Text.text : V6Text → Units
  | .whole gs tail _ => [colon].intercalate (parts gs tail)
  | .gapped left right tail _ =>
    [colon].intercalate (parts left none) ++ colon :: colon :: [colon].intercalate (parts right tail)

def V6Text.words : V6Text → List Nat
  | .whole gs tail _ => Fetch.words gs tail
  | .gapped left right tail _ =>
    Fetch.words left none ++ List.replicate (8 - left.length - right.length - tailGroups tail) 0 ++ Fetch.words right tail

def V6Text.value (t : V6Text) : Nat := t.words.foldl (fun n w => 65536 * n + w) 0

inductive Address
  | v4 (value : Nat)
  | v6 (value : Nat)

inductive Denotes : Units → Address → Prop
  | v4 (q : Quad) : Denotes q.text (.v4 q.value)
  | v6 (t : V6Text) : Denotes t.text (.v6 t.value)

/-- The text of an IPv6 address with a zone id behind it. -/
inductive Zoned : Units → Address → Prop
  | mk (t : V6Text) {zone : Units} (hne : zone ≠ []) (hzone : zone.all isZoneUnit = true) :
    Zoned (t.text ++ percent :: zone) (.v6 t.value)

-- ---------------------------------------------------------------------------
-- Joined parts
-- ---------------------------------------------------------------------------

theorem mem_joined {sep u : UInt16} (h : u ∈ [sep].intercalate ps) : u = sep ∨ ∃ p ∈ ps, u ∈ p := by
  induction ps with
  | nil => cases h
  | cons p ps ih =>
    cases ps with
    | nil =>
      rw [List.intercalate_singleton] at h
      exact .inr ⟨p, List.mem_cons_self .., h⟩
    | cons q qs =>
      rw [List.intercalate_cons_cons, List.mem_append, List.mem_append, List.mem_singleton] at h
      rcases h with (hp | hsep) | hrest
      · exact .inr ⟨p, List.mem_cons_self .., hp⟩
      · exact .inl hsep
      · obtain hsep | ⟨r, hr, hur⟩ := ih hrest
        · exact .inl hsep
        · exact .inr ⟨r, List.mem_cons_of_mem _ hr, hur⟩

theorem joined_concat (sep : UInt16) (ps : List Units) (p : Units) :
    [sep].intercalate (ps ++ [p]) = ps.flatMap (· ++ [sep]) ++ p := by
  induction ps with
  | nil => simp
  | cons q qs ih =>
    rw [List.cons_append, List.intercalate_cons_of_ne_nil (List.append_ne_nil_of_right_ne_nil _ (List.cons_ne_nil _ _)),
      ih, List.flatMap_cons, List.append_assoc, List.append_assoc, List.append_assoc]

theorem joined_ne_nil (hp : Part p) : [colon].intercalate (p :: ps) ≠ [] := by
  cases ps with
  | nil =>
    rw [List.intercalate_singleton]
    exact hp.ne_nil
  | cons q qs =>
    rw [List.intercalate_cons_cons]
    simp

/-- Splitting what was joined. -/
theorem groups_joined (h : ∀ p ∈ ps, Part p) : groups ([colon].intercalate ps) = ps := by
  cases ps with
  | nil => rfl
  | cons p ps =>
    rw [groups, if_neg (joined_ne_nil (h p (List.mem_cons_self ..))),
      List.splitOn_intercalate _ (fun q hq => (h q hq).colon) (List.cons_ne_nil _ _)]

/-- And joining what was split. -/
theorem joined_groups (s : Units) : [colon].intercalate (groups s) = s := by
  rw [groups]
  split
  · rename_i h
    rw [h]
    rfl
  · exact List.intercalate_splitOn colon

theorem modifyHead_nil_append (l : List Units) : l.modifyHead ([] ++ ·) = l := by
  cases l with
  | nil => rfl
  | cons p ps => rfl

theorem splitGap_pass (hu : u ≠ colon) (s : Units) : splitGap (u :: s) = (splitGap s).modifyHead (u :: ·) := by
  cases s with
  | nil => rfl
  | cons v s => rw [splitGap, if_neg fun h => hu h.1]

theorem splitGap_run (hp : colon ∉ p) (s : Units) : splitGap (p ++ s) = (splitGap s).modifyHead (p ++ ·) := by
  induction p with
  | nil => exact (modifyHead_nil_append _).symm
  | cons u p ih =>
    rw [List.cons_append, splitGap_pass fun h => hp (h ▸ List.mem_cons_self ..),
      ih fun h => hp (List.mem_cons_of_mem _ h), List.modifyHead_modifyHead]
    rfl

theorem splitGap_single (hv : v ≠ colon) (s : Units) :
    splitGap (colon :: v :: s) = (splitGap (v :: s)).modifyHead (colon :: ·) := by
  rw [splitGap, if_neg fun h => hv h.2]

/-- Joined parts hold no `::`. -/
theorem splitGap_joined (h : ∀ p ∈ ps, Part p) (s : Units) :
    splitGap ([colon].intercalate ps ++ s) = (splitGap s).modifyHead ([colon].intercalate ps ++ ·) := by
  induction ps with
  | nil => exact (modifyHead_nil_append _).symm
  | cons p ps ih =>
    have hp := h p (List.mem_cons_self ..)
    have hps : ∀ q ∈ ps, Part q := fun q hq => h q (List.mem_cons_of_mem _ hq)
    cases ps with
    | nil =>
      rw [List.intercalate_singleton]
      exact splitGap_run hp.colon s
    | cons q qs =>
      have hq := hps q (List.mem_cons_self ..)
      obtain ⟨v, r, hv, hr⟩ : ∃ v r, v ≠ colon ∧ [colon].intercalate (q :: qs) = v :: r := by
        obtain ⟨v, q', hqv⟩ := List.exists_cons_of_ne_nil hq.ne_nil
        have hne : v ≠ colon := fun hv => hq.colon (by rw [hqv, hv]; exact List.mem_cons_self ..)
        cases qs with
        | nil => exact ⟨v, q', hne, by rw [List.intercalate_singleton, hqv]⟩
        | cons _ _ => exact ⟨v, _, hne, by rw [List.intercalate_cons_cons, hqv]; rfl⟩
      have htail := ih hps
      rw [hr] at htail
      rw [List.intercalate_cons_cons, hr, List.append_assoc, List.append_assoc, splitGap_run hp.colon,
        List.singleton_append, List.cons_append, splitGap_single hv, ← List.cons_append, htail,
        List.modifyHead_modifyHead, List.modifyHead_modifyHead]
      congr 1
      funext x
      simp

theorem splitGap_whole (h : ∀ p ∈ ps, Part p) : splitGap ([colon].intercalate ps) = [[colon].intercalate ps] := by
  have hs := splitGap_joined h []
  rwa [List.append_nil, splitGap, List.modifyHead_cons, List.append_nil] at hs

theorem splitGap_gapped (hl : ∀ p ∈ ls, Part p) (hr : ∀ p ∈ rs, Part p) :
    splitGap ([colon].intercalate ls ++ colon :: colon :: [colon].intercalate rs) =
      [[colon].intercalate ls, [colon].intercalate rs] := by
  rw [splitGap_joined hl, splitGap, if_pos ⟨rfl, rfl⟩, splitGap_whole hr, List.modifyHead_cons, List.append_nil]

theorem joined_splitGap (s : Units) : [colon, colon].intercalate (splitGap s) = s ∧ splitGap s ≠ [] := by
  induction s using splitGap.induct with
  | case1 => exact ⟨rfl, List.cons_ne_nil _ _⟩
  | case2 u => exact ⟨rfl, List.cons_ne_nil _ _⟩
  | case3 u v s h ih =>
    rw [splitGap, if_pos h, List.intercalate_cons_of_ne_nil ih.2, ih.1, h.1, h.2]
    exact ⟨rfl, List.cons_ne_nil _ _⟩
  | case4 u v s h ih =>
    obtain ⟨p, ps, hps⟩ := List.exists_cons_of_ne_nil ih.2
    have hrest := ih.1
    rw [hps] at hrest
    rw [splitGap, if_neg h, hps, List.modifyHead_cons, ← hrest]
    cases ps with
    | nil => exact ⟨by rw [List.intercalate_singleton, List.intercalate_singleton], List.cons_ne_nil _ _⟩
    | cons q qs =>
      exact ⟨by rw [List.intercalate_cons_cons, List.intercalate_cons_cons]; rfl, List.cons_ne_nil _ _⟩

-- ---------------------------------------------------------------------------
-- Quads and groups
-- ---------------------------------------------------------------------------

theorem octetText_run : ∀ n < 256, isOctetRun (octetText n) = true ∧ digitsNat (octetText n) = n := by decide +kernel

theorem isOctetRun_digit (h : isOctetRun p = true) : ∀ u ∈ p, isDigitUnit u = true := by
  rw [isOctetRun, Bool.and_eq_true] at h
  exact List.all_eq_true.1 h.2

theorem isOctetRun_ne (h : isOctetRun p = true) (hu : isDigitUnit u = false) : u ∉ p := by
  intro hmem
  rw [isOctetRun_digit h u hmem] at hu
  cases hu

theorem Quad.run_octets (q : Quad) : ∀ p ∈ q.octets, isOctetRun p = true := by
  intro p hp
  simp only [octets, List.mem_cons, List.not_mem_nil, or_false] at hp
  rcases hp with rfl | rfl | rfl | rfl
  · exact (octetText_run _ q.a.toNat_lt).1
  · exact (octetText_run _ q.b.toNat_lt).1
  · exact (octetText_run _ q.c.toNat_lt).1
  · exact (octetText_run _ q.d.toNat_lt).1

theorem Quad.split_text (q : Quad) : q.text.splitOn dot = q.octets :=
  List.splitOn_intercalate _ (fun p hp => isOctetRun_ne (q.run_octets p hp) (by decide)) (List.cons_ne_nil _ _)

/-- A unit that no dotted quad holds. -/
theorem Quad.not_mem (q : Quad) (hu : isDigitUnit u = false) (hdot : u ≠ dot) : u ∉ q.text := by
  intro h
  obtain rfl | ⟨p, hp, hup⟩ := mem_joined h
  · exact hdot rfl
  · exact isOctetRun_ne (q.run_octets p hp) hu hup

theorem Quad.dot_mem (q : Quad) : dot ∈ q.text := by
  rw [text, octets, List.intercalate_cons_cons]
  simp

theorem Quad.part (q : Quad) : Part q.text :=
  ⟨fun h => List.not_mem_nil (h ▸ q.dot_mem), q.not_mem (by decide) (by decide)⟩

theorem octetTexts_iff : octetTexts.contains p = true ↔ ∃ o : UInt8, p = octetText o.toNat := by
  rw [List.contains_iff_mem, octetTexts, List.mem_map]
  constructor
  · rintro ⟨n, hn, rfl⟩
    exact ⟨UInt8.ofNat n, by rw [UInt8.toNat_ofNat_of_lt' (List.mem_range.1 hn)]⟩
  · rintro ⟨o, rfl⟩
    exact ⟨o.toNat, List.mem_range.2 o.toNat_lt, rfl⟩

theorem isIPv4_iff : isIPv4 s = true ↔ ∃ q : Quad, s = q.text := by
  rw [isIPv4, Bool.and_eq_true, beq_iff_eq, List.all_eq_true]
  constructor
  · rintro ⟨hlen, hall⟩
    obtain ⟨a, b, c, d, hs⟩ : ∃ a b c d, s.splitOn dot = [a, b, c, d] := by
      match hs : s.splitOn dot, hlen with
      | [a, b, c, d], _ => exact ⟨a, b, c, d, rfl⟩
    rw [hs] at hall
    simp only [List.mem_cons, List.not_mem_nil, or_false, forall_eq_or_imp, forall_eq, octetTexts_iff] at hall
    obtain ⟨⟨a, rfl⟩, ⟨b, rfl⟩, ⟨c, rfl⟩, ⟨d, rfl⟩⟩ := hall
    have hjoin : [dot].intercalate (s.splitOn dot) = s := List.intercalate_splitOn dot
    rw [hs] at hjoin
    exact ⟨⟨a, b, c, d⟩, hjoin.symm⟩
  · rintro ⟨q, rfl⟩
    rw [q.split_text]
    refine ⟨rfl, fun p hp => octetTexts_iff.2 ?_⟩
    simp only [Quad.octets, List.mem_cons, List.not_mem_nil, or_false] at hp
    rcases hp with rfl | rfl | rfl | rfl
    · exact ⟨_, rfl⟩
    · exact ⟨_, rfl⟩
    · exact ⟨_, rfl⟩
    · exact ⟨_, rfl⟩

theorem isHexRun_iff : isHexRun p = true ↔ 1 ≤ p.length ∧ p.length ≤ 4 ∧ ∀ u ∈ p, (hexValue u).isSome = true := by
  rw [isHexRun, Bool.and_eq_true, Bool.and_eq_true, decide_eq_true_eq, decide_eq_true_eq, List.all_eq_true, and_assoc]

theorem Group.not_mem (g : Group) (hu : hexValue u = none) : u ∉ g.digits := fun h => by
  have hex := (isHexRun_iff.1 g.hex).2.2 u h
  rw [hu] at hex
  cases hex

theorem Group.part (g : Group) : Part g.digits where
  ne_nil h := by
    have hlen := (isHexRun_iff.1 g.hex).1
    rw [h] at hlen
    exact absurd hlen (by decide)
  colon := g.not_mem (by decide)

theorem part_parts (gs : List Group) (tail : Option Quad) : ∀ p ∈ parts gs tail, Part p := by
  intro p hp
  rcases List.mem_append.1 hp with hp | hp
  · obtain ⟨g, -, rfl⟩ := List.mem_map.1 hp
    exact g.part
  · obtain ⟨q, -, rfl⟩ := List.mem_map.1 hp
    exact q.part

theorem parts_cons (g : Group) (gs : List Group) (tail : Option Quad) :
    parts (g :: gs) tail = g.digits :: parts gs tail := rfl

theorem isHexRun_quad (q : Quad) : isHexRun q.text = false := by
  cases h : isHexRun q.text with
  | false => rfl
  | true => exact absurd ((isHexRun_iff.1 h).2.2 dot q.dot_mem) (by decide)

theorem countGroups_iff : ∀ {ps : List Units} {mayTail : Bool} {n : Nat}, countGroups mayTail ps = some n ↔
    ∃ gs tail, ps = parts gs tail ∧ n = gs.length + tailGroups tail ∧ (mayTail = false → tail = none)
  | [], _, n => by
    rw [countGroups, Option.some.injEq]
    constructor
    · rintro rfl
      exact ⟨[], none, rfl, rfl, fun _ => rfl⟩
    · rintro ⟨gs, tail, hps, rfl, -⟩
      cases gs with
      | nil =>
        cases tail with
        | none => rfl
        | some q => cases hps
      | cons g gs => cases hps
  | [p], mayTail, n => by
    rw [countGroups]
    constructor
    · split
      · rename_i hex
        rintro ⟨⟩
        exact ⟨[⟨p, hex⟩], none, rfl, rfl, fun _ => rfl⟩
      · split
        · rename_i hquad
          rw [Bool.and_eq_true, isIPv4_iff] at hquad
          obtain ⟨ht, q, rfl⟩ := hquad
          rintro ⟨⟩
          exact ⟨[], some q, rfl, rfl, fun hf => absurd (ht.symm.trans hf) (by decide)⟩
        · nofun
    · rintro ⟨gs, tail, hps, rfl, ht⟩
      cases gs with
      | nil =>
        cases tail with
        | none => cases hps
        | some q =>
          have htail : mayTail = true := by
            cases mayTail with
            | true => rfl
            | false => cases ht rfl
          obtain rfl : p = q.text := List.singleton_inj.1 hps
          rw [if_neg (by rw [isHexRun_quad]; decide), htail, if_pos (by
            rw [Bool.true_and]
            exact isIPv4_iff.2 ⟨q, rfl⟩)]
          rfl
      | cons g gs =>
        rw [parts_cons, List.cons_eq_cons] at hps
        obtain ⟨rfl, hnil⟩ := hps
        obtain ⟨rfl, rfl⟩ : gs = [] ∧ tail = none := by
          cases gs with
          | nil =>
            cases tail with
            | none => exact ⟨rfl, rfl⟩
            | some q => cases hnil
          | cons _ _ => cases hnil
        rw [if_pos g.hex]
        rfl
  | p :: p' :: ps, mayTail, n => by
    rw [countGroups]
    constructor
    · split
      · rename_i hex
        intro h
        obtain ⟨m, hm, rfl⟩ := Option.map_eq_some_iff.1 h
        obtain ⟨gs, tail, hps, rfl, ht⟩ := countGroups_iff.1 hm
        exact ⟨⟨p, hex⟩ :: gs, tail, by rw [parts_cons, ← hps], by rw [List.length_cons]; omega, ht⟩
      · nofun
    · rintro ⟨gs, tail, hps, rfl, ht⟩
      cases gs with
      | nil =>
        cases tail with
        | none => cases hps
        | some q => cases hps
      | cons g gs =>
        rw [parts_cons, List.cons_eq_cons] at hps
        obtain ⟨rfl, hps⟩ := hps
        rw [if_pos g.hex, countGroups_iff.2 ⟨gs, tail, hps, rfl, ht⟩, Option.map_some, List.length_cons]
        congr 1
        omega
    · simp

theorem countGroups_parts (gs : List Group) (tail : Option Quad) :
    countGroups true (parts gs tail) = some (gs.length + tailGroups tail) :=
  countGroups_iff.2 ⟨gs, tail, rfl, rfl, nofun⟩

-- ---------------------------------------------------------------------------
-- What isIP accepts
-- ---------------------------------------------------------------------------

theorem isIPv6_iff : isIPv6 s = true ↔ ∃ t : V6Text, s = t.text := by
  constructor
  · intro h
    have hs := (joined_splitGap s).1
    rw [isIPv6] at h
    split at h
    · rename_i whole hsplit
      rw [beq_iff_eq] at h
      obtain ⟨gs, tail, hps, hn, -⟩ := countGroups_iff.1 h
      rw [hsplit, List.intercalate_singleton] at hs
      exact ⟨.whole gs tail hn.symm, by rw [V6Text.text, ← hps, joined_groups, hs]⟩
    · rename_i before after hsplit
      split at h
      · rename_i left right hleft hright
        obtain ⟨ls, tail, hl, rfl, ht⟩ := countGroups_iff.1 hleft
        obtain rfl := ht rfl
        obtain ⟨rs, tail, hr, rfl, -⟩ := countGroups_iff.1 hright
        rw [hsplit, List.intercalate_cons_cons, List.intercalate_singleton] at hs
        refine ⟨.gapped ls rs tail (by simpa [tailGroups, Nat.add_assoc] using h), ?_⟩
        rw [V6Text.text, ← hl, ← hr, joined_groups, joined_groups, ← hs, List.append_assoc]
        rfl
      · cases h
    · cases h
  · rintro ⟨t, rfl⟩
    cases t with
    | whole gs tail h =>
      rw [V6Text.text, isIPv6, splitGap_whole (part_parts gs tail)]
      simp only
      rw [groups_joined (part_parts gs tail), countGroups_parts, h]
      rfl
    | gapped left right tail h =>
      rw [V6Text.text, isIPv6, splitGap_gapped (part_parts left none) (part_parts right tail)]
      simp only
      rw [groups_joined (part_parts left none), groups_joined (part_parts right tail), countGroups_parts,
        countGroups_iff.2 ⟨left, none, rfl, rfl, fun _ => rfl⟩]
      simpa [tailGroups, Nat.add_assoc] using h

theorem mem_parts_ne (hu : hexValue u = none) (hquad : isDigitUnit u = false) (hdot : u ≠ dot ∨ tail = none) :
    ∀ p ∈ parts gs tail, u ∉ p := by
  intro p hp
  rcases List.mem_append.1 hp with hp | hp
  · obtain ⟨g, -, rfl⟩ := List.mem_map.1 hp
    exact g.not_mem hu
  · obtain ⟨q, hq, rfl⟩ := List.mem_map.1 hp
    rcases hdot with hdot | rfl
    · exact q.not_mem hquad hdot
    · cases hq

def V6Text.tail : V6Text → Option Quad
  | .whole _ tail _ => tail
  | .gapped _ _ tail _ => tail

/-- A unit that no text of an address holds. -/
theorem V6Text.not_mem (t : V6Text) (hu : hexValue u = none) (hquad : isDigitUnit u = false) (hcolon : u ≠ Fetch.colon)
    (hdot : u ≠ dot ∨ t.tail = none) : u ∉ t.text := by
  intro h
  cases t with
  | whole gs tail _ =>
    obtain heq | ⟨p, hp, hup⟩ := mem_joined h
    · exact hcolon heq
    · exact mem_parts_ne hu hquad hdot p hp hup
  | gapped left right tail _ =>
    rw [text, List.mem_append, List.mem_cons, List.mem_cons] at h
    rcases h with h | h | h | h
    · obtain heq | ⟨p, hp, hup⟩ := mem_joined h
      · exact hcolon heq
      · exact mem_parts_ne hu hquad (.inr rfl) p hp hup
    · exact hcolon h
    · exact hcolon h
    · obtain heq | ⟨p, hp, hup⟩ := mem_joined h
      · exact hcolon heq
      · exact mem_parts_ne hu hquad hdot p hp hup

theorem V6Text.no_percent (t : V6Text) : percent ∉ t.text :=
  t.not_mem (by decide) (by decide) (by decide) (.inl (by decide))

theorem joined_colon (h : 2 ≤ ps.length) : colon ∈ [colon].intercalate ps := by
  match ps, h with
  | p :: q :: ps, _ =>
    rw [List.intercalate_cons_cons]
    simp

theorem V6Text.colon_mem (t : V6Text) : Fetch.colon ∈ t.text := by
  cases t with
  | whole gs tail h =>
    refine joined_colon ?_
    rw [parts, List.length_append, List.length_map, List.length_map]
    cases tail with
    | none => simp [tailGroups] at h ⊢; omega
    | some q => simp [tailGroups] at h ⊢; omega
  | gapped left right tail h =>
    rw [text]
    simp

theorem V6Text.not_quad (t : V6Text) (zone : Units) : isIPv4 (t.text ++ zone) = false := by
  cases h : isIPv4 (t.text ++ zone) with
  | false => rfl
  | true =>
    obtain ⟨q, hq⟩ := isIPv4_iff.1 h
    exact absurd (hq ▸ List.mem_append_left _ t.colon_mem) q.part.colon

theorem isIP_quad (q : Quad) : isIP q.text = 4 := by
  rw [isIP, if_pos (isIPv4_iff.2 ⟨q, rfl⟩)]

/-- A zone id or nothing behind the text of an IPv6 address. -/
theorem isIP_text (t : V6Text) (zone : Units) (hzone : isZone zone = true) (hhead : ∀ u ∈ zone.head?, u = percent) :
    isIP (t.text ++ zone) = 6 := by
  have hpass : ∀ u ∈ t.text, (u != percent) = true := fun u hu => bne_iff_ne.2 fun h => t.no_percent (h ▸ hu)
  have hstop : zone.takeWhile (· != percent) = [] ∧ zone.dropWhile (· != percent) = zone := by
    cases zone with
    | nil => exact ⟨rfl, rfl⟩
    | cons u zone =>
      obtain rfl := hhead u rfl
      simp
  rw [isIP, if_neg (by rw [t.not_quad]; decide), List.takeWhile_append_of_pos hpass, List.dropWhile_append_of_pos hpass,
    hstop.1, hstop.2, List.append_nil, if_pos]
  rw [Bool.and_eq_true]
  exact ⟨isIPv6_iff.2 ⟨t, rfl⟩, hzone⟩

theorem isIP_zoned (t : V6Text) (hne : zone ≠ []) (hzone : zone.all isZoneUnit = true) :
    isIP (t.text ++ percent :: zone) = 6 := by
  refine isIP_text t _ ?_ ?_
  · rw [isZone, hzone]
    simpa using hne
  · rintro u ⟨⟩
    rfl

/-- What `isIP` accepts: the texts of addresses, with or without a zone id. -/
theorem isIP_accepts (h : isIP s ≠ 0) : (∃ a, Denotes s a) ∨ ∃ a, Zoned s a := by
  rw [isIP] at h
  split at h
  · rename_i h4
    obtain ⟨q, rfl⟩ := isIPv4_iff.1 h4
    exact .inl ⟨_, .v4 q⟩
  · split at h
    · rename_i h6
      rw [Bool.and_eq_true, isIPv6_iff] at h6
      obtain ⟨⟨t, ht⟩, hzone⟩ := h6
      have hs := List.takeWhile_append_dropWhile (p := (· != percent)) (l := s)
      rw [ht] at hs
      cases hrest : s.dropWhile (· != percent) with
      | nil =>
        rw [hrest, List.append_nil] at hs
        exact .inl ⟨.v6 t.value, hs ▸ Denotes.v6 t⟩
      | cons u zone =>
        rw [hrest, isZone, Bool.and_eq_true, Bool.and_eq_true, beq_iff_eq, bne_iff_ne] at hzone
        obtain ⟨⟨rfl, hne⟩, hall⟩ := hzone
        rw [hrest] at hs
        exact .inr ⟨.v6 t.value, hs ▸ Zoned.mk t hne hall⟩
    · exact absurd rfl h

end WebAdf.Fetch
