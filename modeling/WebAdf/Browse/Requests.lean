import WebAdf.Browse.Wire
import WebAdf.Receive.FeedLaws
import WebAdf.Receive.Parse
import WebAdf.Send.Lines

/-!
# Request lines at both ends

What the server's checks promise of a request, and Transfer's reading of the
line written for it: the same id, kind, path and arguments.
-/

namespace WebAdf.Browse

open Lib Send
open Receive (ReqKind Session Word tok lenstr)
open Receive.Session (reqWord newline)

-- ---------------------------------------------------------------------------
-- What the server sends
-- ---------------------------------------------------------------------------

def ridUnit (u : UInt16) : Bool :=
  (0x41 ≤ u && u ≤ 0x5a) || (0x61 ≤ u && u ≤ 0x7a) || (0x30 ≤ u && u ≤ 0x39) || u == 0x2d || u == underscore

/-- `newRequestId`: sixteen bytes in base64, for a URL and without padding. -/
structure Rid (id : Units) : Prop where
  length : id.length = 22
  units : ∀ u ∈ id, ridUnit u = true

/-- The server's rules take `path`: below a volume, where it is an object's. -/
def Accepted (path : Units) (object : Bool) : Prop :=
  path.length ≤ 255 ∧ ∃ segments p, amigaPathOf segments = some p ∧ p.amigaPath = path ∧
    (object = true → 2 ≤ segments.length)

/-- `checkComment`. -/
def commentOk (c : Units) : Bool :=
  c.length ≤ 79 && c.all fun u => (0x20 ≤ u && u ≤ 0x7e) || (0xa0 ≤ u && u ≤ 0xff)

def RemoteKind.reqKind : RemoteKind → ReqKind
  | .vols => .vols
  | .dir => .dir
  | .get => .get
  | .mkdir => .mkdir
  | .rename => .rename
  | .delete => .delete
  | .protect => .protect
  | .note => .note

def RemoteKind.verb : RemoteKind → String
  | .vols => "VOLS"
  | .dir => "DIR"
  | .get => "GET"
  | .mkdir => "MKDIR"
  | .rename => "RENAME"
  | .delete => "DELETE"
  | .protect => "PROTECT"
  | .note => "NOTE"

/-- A request the server makes, for a Transfer of that protocol. -/
structure Legal (protocol : Nat) (r : RequestRow) : Prop where
  id : Rid r.id
  path : r.kind ≠ .vols → Accepted r.amigaPath r.kind.reqKind.isWrite
  renamed : r.kind = .rename → Accepted (r.target.renamed.getD []) true
  comment : r.kind = .note → commentOk (r.target.comment.getD []) = true
  one : r.kind = .delete → r.target.one = true → 5 ≤ protocol
  icon : r.kind = .mkdir → r.target.drawerIcon = true → 6 ≤ protocol

-- ---------------------------------------------------------------------------
-- The line
-- ---------------------------------------------------------------------------

/-- What stands behind the path. -/
def lastField (r : RequestRow) : Option (List UInt8) :=
  match r.kind with
  | .mkdir => if r.target.drawerIcon then some (ascii "icon") else none
  | .delete => if r.target.one then some (ascii "one") else none
  | .rename => some (Receive.counted (latin1 (r.target.renamed.getD [])))
  | .protect => some (numeral 16 (r.target.protection.getD 0).toNat)
  | .note => some (Receive.counted (latin1 (r.target.comment.getD [])))
  | _ => none

/-- The path and what stands behind it. -/
def fields (r : RequestRow) : List UInt8 :=
  Receive.counted (latin1 r.amigaPath) ++ (lastField r).elim [] (Receive.blank :: ·)

def lineOf (r : RequestRow) : List UInt8 :=
  ascii r.kind.verb ++ Receive.blank ::
    (latin1 r.id ++ if r.kind = .vols then [] else Receive.blank :: fields r)

theorem latin1_lp (s : Units) : latin1 (lp s) = Receive.counted (latin1 s) := by
  rw [lp, latin1_append, latin1_decimal, Receive.counted, length_latin1]
  rfl

theorem latin1_requestLine (r : RequestRow) : latin1 (requestLine r) = lineOf r ++ [newline] := by
  have hblank : latin1 (units " ") = [Receive.blank] := rfl
  have hend : latin1 (units "\n") = [newline] := rfl
  unfold requestLine lineOf fields lastField
  cases hkind : r.kind
  case vols =>
    have hverb : latin1 (units "VOLS ") = ascii "VOLS" ++ [Receive.blank] := rfl
    simp only [latin1_append, hverb, hend, RemoteKind.verb, if_true]
    simp
  case mkdir =>
    have hicon : latin1 (if r.target.drawerIcon then units " icon" else []) =
        (if r.target.drawerIcon then some (ascii "icon") else none).elim [] (Receive.blank :: ·) := by
      cases r.target.drawerIcon <;> rfl
    simp [latin1_append, hblank, hend, hicon, latin1_units, latin1_lp, RemoteKind.verb]
  case delete =>
    have hone : latin1 (if r.target.one then units " one" else []) =
        (if r.target.one then some (ascii "one") else none).elim [] (Receive.blank :: ·) := by
      cases r.target.one <;> rfl
    simp [latin1_append, hblank, hend, hone, latin1_units, latin1_lp, RemoteKind.verb]
  all_goals
    simp [latin1_append, hblank, hend, latin1_units, latin1_lp, latin1_hex, RemoteKind.verb]

-- ---------------------------------------------------------------------------
-- Paths
-- ---------------------------------------------------------------------------

theorem nameUnit_of_deviceUnit (h : deviceUnit u = true) : NameUnit u := by
  unfold deviceUnit at h
  simp only [Bool.or_eq_true, Bool.and_eq_true, decide_eq_true_eq, beq_iff_eq] at h
  have hrange : 0x2d ≤ u ∧ u ≤ 0x7a ∧ u ≠ colon ∧ u ≠ slash := by
    rcases h with ((((⟨hlo, hhi⟩ | ⟨hlo, hhi⟩) | ⟨hlo, hhi⟩) | rfl) | rfl) | rfl
    · refine ⟨UInt16.le_trans (by decide) hlo, UInt16.le_trans hhi (by decide), ?_, ?_⟩
      · rintro rfl
        exact absurd hlo (by decide)
      · rintro rfl
        exact absurd hlo (by decide)
    · refine ⟨UInt16.le_trans (by decide) hlo, hhi, ?_, ?_⟩
      · rintro rfl
        exact absurd hlo (by decide)
      · rintro rfl
        exact absurd hlo (by decide)
    · refine ⟨UInt16.le_trans (by decide) hlo, UInt16.le_trans hhi (by decide), ?_, ?_⟩
      · rintro rfl
        exact absurd hhi (by decide)
      · rintro rfl
        exact absurd hlo (by decide)
    all_goals exact ⟨by decide, by decide, by decide, by decide⟩
  obtain ⟨hlo, hhi, hcolon, hslash⟩ := hrange
  refine ⟨UInt16.le_trans (by decide) hlo, UInt16.le_trans hhi (by decide), ?_, hcolon, hslash⟩
  rintro rfl
  exact absurd hhi (by decide)

/-- A labelled volume's device. -/
theorem suffixed_device (h : suffixed volume = some (name, device)) :
    ∃ dev, device = dev ++ [colon] ∧ 1 ≤ dev.length ∧ dev.length ≤ 30 ∧ ∀ u ∈ dev, NameUnit u := by
  unfold suffixed at h
  split at h
  case h_2 => cases h
  rename_i r _
  dsimp only at h
  split at h
  case h_2 => cases h
  split at h
  case isFalse => cases h
  rename_i hdev
  have hpair := Option.some.inj h
  refine ⟨(r.takeWhile deviceUnit).reverse, (Prod.mk.inj hpair).2.symm, ?_, ?_, fun u hu => ?_⟩
  · rw [List.length_reverse]
    exact hdev.1
  · rw [List.length_reverse]
    exact hdev.2.1
  · exact nameUnit_of_deviceUnit (List.all_eq_true.1 List.all_takeWhile u (List.mem_reverse.1 hu))

/-- An Amiga path is a root, its colon and names between slashes. -/
structure PathForm (path : Units) (root : Units) (names : List Units) : Prop where
  eq : path = root ++ colon :: [slash].intercalate names
  pos : 1 ≤ root.length
  le : root.length ≤ 30
  units : ∀ u ∈ root, NameUnit u
  good : ∀ n ∈ names, GoodPart n

theorem amigaPathOf_form (h : amigaPathOf segments = some p) :
    ∃ root volume names, segments = volume :: names ∧ PathForm p.amigaPath root names := by
  unfold amigaPathOf at h
  split at h
  · cases h
  rename_i volume names
  dsimp only at h
  split at h
  · cases h
  rename_i hnames
  rw [not_or, not_not, List.any_eq_true] at hnames
  obtain ⟨hvolume, hbelow⟩ := hnames
  have hgood : ∀ n ∈ names, GoodPart n := fun n hn =>
    amigaNameProblem_good (by
      by_contra hbad
      exact hbelow ⟨n, hn, decide_eq_true hbad⟩)
  have hp := Option.some.inj h
  cases hsuffix : suffixed volume with
  | none =>
    rw [hsuffix] at hp hvolume
    have hroot := amigaNameProblem_good hvolume
    refine ⟨volume, volume, names, rfl, ?_, hroot.pos, hroot.le, hroot.units, hgood⟩
    rw [← hp]
    exact List.append_assoc ..
  | some pair =>
    obtain ⟨dev, hdev, hpos, hle, hunits⟩ := suffixed_device hsuffix
    rw [hsuffix] at hp
    refine ⟨dev, volume, names, rfl, ?_, hpos, hle, hunits, hgood⟩
    rw [← hp, Option.map_some, Option.getD_some, hdev]
    exact List.append_assoc ..

/-- What Transfer can read: the length fits, the bytes print, and the path is one to
read, or one to write. -/
structure Readable (path : Units) : Prop where
  le : (latin1 path).length ≤ 255
  print : ∀ c ∈ latin1 path, 0x20 ≤ c
  ok : Receive.localPathOk (latin1 path) = true

theorem PathForm.units_path (h : PathForm path root names) (hu : u ∈ path) :
    u = colon ∨ u = slash ∨ NameUnit u := by
  rw [h.eq, List.mem_append, List.mem_cons] at hu
  rcases hu with hu | rfl | hu
  · exact .inr (.inr (h.units u hu))
  · exact .inl rfl
  · rcases mem_intercalate hu with rfl | ⟨n, hn, hmem⟩
    · exact .inr (.inl rfl)
    · exact .inr (.inr ((h.good n hn).units u hmem))

theorem PathForm.plain (h : PathForm path root names) : Plain path := fun u hu => by
  rcases h.units_path hu with rfl | rfl | hname
  · decide
  · decide
  · exact hname.2.1

theorem PathForm.low (h : PathForm path root names) : ∀ u ∈ path, 0x20 ≤ u := fun u hu => by
  rcases h.units_path hu with rfl | rfl | hname
  · decide
  · decide
  · exact hname.1

theorem PathForm.no_control (h : PathForm path root names) :
    ∀ c ∈ latin1 path, Receive.control c = false := by
  intro c hc
  obtain ⟨u, hu, rfl⟩ := List.mem_map.1 hc
  rcases h.units_path hu with rfl | rfl | hname
  · rfl
  · rfl
  · exact control_byte hname

theorem PathForm.readable (h : PathForm path root names) (hlen : path.length ≤ 255) :
    Readable path := by
  refine ⟨by rw [length_latin1]; exact hlen, print_latin1 h.plain h.low, ?_⟩
  have hcolon : colon ∈ path := by
    rw [h.eq]
    exact List.mem_append_right _ (List.mem_cons_self ..)
  have hhead : (latin1 path).head? ≠ some Receive.colon := by
    obtain ⟨u, us, hroot⟩ := List.exists_cons_of_length_pos h.pos
    have hunit := h.units u (hroot ▸ List.mem_cons_self ..)
    rw [h.eq, hroot]
    intro heq
    have hbyte : UInt8.ofNat u.toNat = UInt8.ofNat colon.toNat := Option.some.inj heq
    exact hunit.2.2.2.1 (byte_inj hunit.2.1 (by decide) hbyte)
  have hall : (latin1 path).all (fun c => !Receive.control c) = true := by
    rw [List.all_eq_true]
    intro c hc
    rw [h.no_control c hc]
    rfl
  have hmem : Receive.colon ∈ latin1 path := (mem_latin1 (u := colon) h.plain (by decide)).2 hcolon
  unfold Receive.localPathOk
  rw [hall, Bool.and_true, Bool.and_eq_true, Bool.and_eq_true, bne_iff_ne, bne_iff_ne,
    List.contains_iff_mem]
  exact ⟨⟨List.ne_nil_of_mem hmem, hhead⟩, hmem⟩

/-- A path the server's rules take is one Transfer reads, and one it writes where it is
an object's. -/
theorem Accepted.readable (h : Accepted path object) :
    Readable path ∧ (object = true → Receive.absPathOk (latin1 path) = true) := by
  obtain ⟨hlen, segments, p, hp, rfl, hobject⟩ := h
  obtain ⟨root, volume, names, rfl, hform⟩ := amigaPathOf_form hp
  refine ⟨hform.readable hlen, fun ho => ?_⟩
  have hne : names ≠ [] := by
    rintro rfl
    exact Nat.not_succ_le_self 1 (hobject ho)
  have heq := hform.eq
  rw [heq] at hlen ⊢
  exact absPathOk_join hform.pos hform.le hform.units hne hform.good hlen

-- ---------------------------------------------------------------------------
-- The line read
-- ---------------------------------------------------------------------------

/-- What a row asks for: its path, its argument and its number. -/
def askedPath (r : RequestRow) : List UInt8 := if r.kind = .vols then [] else latin1 r.amigaPath

def askedArg (r : RequestRow) : List UInt8 :=
  match r.kind with
  | .rename => latin1 (r.target.renamed.getD [])
  | .note => latin1 (r.target.comment.getD [])
  | _ => []

def askedNum (r : RequestRow) : Nat :=
  match r.kind with
  | .protect => (r.target.protection.getD 0).toNat
  | .delete => if r.target.one then 1 else 0
  | .mkdir => if r.target.drawerIcon then 1 else 0
  | _ => 0

theorem reqWord_verb (k : RemoteKind) : reqWord (ascii k.verb) = some k.reqKind := by
  cases k <;> decide

theorem word_verb (k : RemoteKind) : Word (ascii k.verb) := by
  cases k <;> exact ⟨by decide, by decide⟩

theorem Rid.byte (h : Rid rid) (hc : c ∈ latin1 rid) :
    (Receive.alnum c || c == 0x2d || c == 0x5f) = true ∧ 0x20 < c := by
  obtain ⟨u, hu, rfl⟩ := List.mem_map.1 hc
  have hunit := h.units u hu
  unfold ridUnit at hunit
  simp only [Bool.or_eq_true, Bool.and_eq_true, decide_eq_true_eq, beq_iff_eq,
    UInt16.le_iff_toNat_le, ← UInt16.toNat_inj] at hunit
  have hle : u.toNat ≤ 0xff := by
    change (((65 ≤ u.toNat ∧ u.toNat ≤ 90 ∨ 97 ≤ u.toNat ∧ u.toNat ≤ 122) ∨
      48 ≤ u.toNat ∧ u.toNat ≤ 57) ∨ u.toNat = 45) ∨ u.toNat = 95 at hunit
    omega
  have hto := byte_toNat (UInt16.le_iff_toNat_le.2 hle : u ≤ 0xff)
  simp only [Receive.alnum, isDigit, Bool.or_eq_true, Bool.and_eq_true, decide_eq_true_eq,
    beq_iff_eq, UInt8.le_iff_toNat_le, UInt8.lt_iff_toNat_lt, ← UInt8.toNat_inj, hto]
  change (((65 ≤ u.toNat ∧ u.toNat ≤ 90 ∨ 97 ≤ u.toNat ∧ u.toNat ≤ 122) ∨
      48 ≤ u.toNat ∧ u.toNat ≤ 57) ∨ u.toNat = 45) ∨ u.toNat = 95 at hunit
  change (((((97 ≤ u.toNat ∧ u.toNat ≤ 122) ∨ 65 ≤ u.toNat ∧ u.toNat ≤ 90) ∨
      48 ≤ u.toNat ∧ u.toNat ≤ 57) ∨ u.toNat = 45) ∨ u.toNat = 95) ∧ 32 < u.toNat
  omega

theorem Rid.idOk (h : Rid rid) : Receive.idOk (latin1 rid) = true := by
  unfold Receive.idOk
  have hall : (latin1 rid).all (fun c => Receive.alnum c || c == 0x2d || c == 0x5f) = true := by
    rw [List.all_eq_true]
    exact fun c hc => (h.byte hc).1
  rw [hall, length_latin1, h.length]
  rfl

theorem Rid.word (h : Rid rid) : Word (latin1 rid) := by
  refine ⟨List.ne_nil_of_length_pos (by rw [length_latin1, h.length]; decide), fun hmem => ?_⟩
  exact absurd (h.byte hmem).2 (by decide)

/-- The fields behind the id: the path by its length, then what is left. -/
theorem lenstr_fields (h : Readable r.amigaPath) :
    lenstr (fields r) (Receive.localMax + 1) false =
      some (latin1 r.amigaPath, (lastField r).getD []) := by
  have hcap : (latin1 r.amigaPath).length ≤ Receive.localMax + 1 - 1 := h.le
  have hmax : (latin1 r.amigaPath).length < 2 ^ 32 := Nat.lt_of_le_of_lt h.le (by decide)
  have hnul := Entry.nul_not_print h.print
  unfold fields
  cases lastField r with
  | none =>
    rw [Option.elim_none, List.append_nil]
    exact Receive.lenstr_counted_end hcap hmax hnul
  | some w => exact Receive.lenstr_counted hcap hmax hnul w

theorem commentOk_spec (h : commentOk c = true) :
    c.length ≤ 79 ∧ (∀ b ∈ latin1 c, 0x20 ≤ b) ∧ Receive.noControl (latin1 c) = true := by
  unfold commentOk at h
  rw [Bool.and_eq_true, decide_eq_true_eq, List.all_eq_true] at h
  obtain ⟨hlen, hall⟩ := h
  have hunit : ∀ u ∈ c, 0x20 ≤ u ∧ u ≤ 0xff ∧ u ≠ 0x7f := by
    intro u hu
    have := hall u hu
    simp only [Bool.or_eq_true, Bool.and_eq_true, decide_eq_true_eq] at this
    rcases this with ⟨hlo, hhi⟩ | ⟨hlo, hhi⟩
    · refine ⟨hlo, UInt16.le_trans hhi (by decide), ?_⟩
      rintro rfl
      exact absurd hhi (by decide)
    · refine ⟨UInt16.le_trans (by decide) hlo, hhi, ?_⟩
      rintro rfl
      exact absurd hlo (by decide)
  refine ⟨hlen, print_latin1 (fun u hu => (hunit u hu).2.1) (fun u hu => (hunit u hu).1), ?_⟩
  unfold Receive.noControl
  rw [List.all_eq_true]
  intro b hb
  obtain ⟨u, hu, rfl⟩ := List.mem_map.1 hb
  obtain ⟨hlo, hhi, hdel⟩ := hunit u hu
  unfold Receive.control
  rw [Bool.not_eq_true', Bool.or_eq_false_iff, decide_eq_false_iff_not, beq_eq_false_iff_ne]
  refine ⟨?_, fun heq => hdel (byte_inj hhi (by decide) heq)⟩
  rw [UInt8.lt_iff_toNat_lt, byte_toNat hhi]
  exact Nat.not_lt.2 (UInt16.le_iff_toNat_le.1 hlo)

variable {φ : Type}

theorem optWord_word (word : String) (h : Word (ascii word)) (b : Bool) :
    Session.optWord ((if b then some (ascii word) else none).getD []) word =
      some (if b then 1 else 0, []) := by
  cases b with
  | false => rfl
  | true =>
    change Session.optWord (ascii word) word = some (1, [])
    unfold Session.optWord
    rw [if_neg h.1, Receive.tok_end h]
    exact if_pos rfl

/-- What stands behind a write's path is read to its argument and its number. -/
theorem writeArgs_lastField {s : Session φ} (h : Legal s.peerV r)
    (hwrite : r.kind.reqKind.isWrite = true) :
    s.writeArgs ((lastField r).getD []) r.kind.reqKind (latin1 r.amigaPath) =
      some (askedArg r, askedNum r, []) := by
  have hvols : r.kind ≠ .vols := by
    intro hkind
    rw [hkind] at hwrite
    cases hwrite
  have habs := (h.path hvols).readable.2 hwrite
  unfold Session.writeArgs askedArg askedNum lastField
  rw [habs]
  cases hkind : r.kind
  case vols | dir | get =>
    rw [hkind] at hwrite
    cases hwrite
  case rename =>
    obtain ⟨hread, hok⟩ := (h.renamed hkind).readable
    have hcap : (latin1 (r.target.renamed.getD [])).length ≤ Receive.localMax + 1 - 1 := hread.le
    have hmax : (latin1 (r.target.renamed.getD [])).length < 2 ^ 32 :=
      Nat.lt_of_le_of_lt hread.le (by decide)
    simp only [RemoteKind.reqKind, Option.getD_some, Bool.not_true, Bool.false_eq_true, if_false,
      Receive.lenstr_counted_end hcap hmax (Entry.nul_not_print hread.print), hok rfl, if_true]
  case protect =>
    have hbits := UInt32.toNat_lt (r.target.protection.getD 0)
    have hword := Receive.word_numeral (b := 16) (by decide) (by decide)
      (r.target.protection.getD 0).toNat
    simp only [RemoteKind.reqKind, Option.getD_some, Bool.not_true, Bool.false_eq_true, if_false,
      Receive.tok_end hword, Option.bind_some, Receive.num_hex hbits, Option.map_some]
  case note =>
    obtain ⟨hlen, hprint, hclean⟩ := commentOk_spec (h.comment hkind)
    have hcap : (latin1 (r.target.comment.getD [])).length ≤ Receive.commentMax + 1 - 1 := by
      rw [length_latin1]
      exact hlen
    have hmax : (latin1 (r.target.comment.getD [])).length < 2 ^ 32 :=
      Nat.lt_of_le_of_lt hcap (by decide)
    simp only [RemoteKind.reqKind, Option.getD_some, Bool.not_true, Bool.false_eq_true, if_false,
      Receive.lenstr_counted_end hcap hmax (Entry.nul_not_print hprint), hclean, if_true]
  case delete =>
    have hone := optWord_word "one" ⟨by decide, by decide⟩ r.target.one
    by_cases hv : 5 ≤ s.peerV
    · simp only [RemoteKind.reqKind, Bool.not_true, Bool.false_eq_true, if_false, if_pos hv, hone,
        Option.map_some]
    · have hoff : r.target.one = false := Bool.eq_false_iff.2 fun hon => hv (h.one hkind hon)
      simp only [RemoteKind.reqKind, Bool.not_true, Bool.false_eq_true, if_false, if_neg hv, hoff,
        Option.getD_none]
  case mkdir =>
    have hicon := optWord_word "icon" ⟨by decide, by decide⟩ r.target.drawerIcon
    by_cases hv : 6 ≤ s.peerV
    · simp only [RemoteKind.reqKind, Bool.not_true, Bool.false_eq_true, if_false, if_pos hv, hicon,
        Option.map_some]
    · have hoff : r.target.drawerIcon = false := Bool.eq_false_iff.2 fun hon => hv (h.icon hkind hon)
      simp only [RemoteKind.reqKind, Bool.not_true, Bool.false_eq_true, if_false, if_neg hv, hoff,
        Option.getD_none]

theorem reqFields_fields {s : Session φ} (h : Legal s.peerV r) :
    s.reqFields (if r.kind = .vols then [] else fields r) r.kind.reqKind =
      some (askedPath r, askedArg r, askedNum r) := by
  by_cases hkind : r.kind = .vols
  · unfold askedPath askedArg askedNum
    rw [hkind]
    rfl
  have hreq : r.kind.reqKind ≠ .vols := by
    revert hkind
    cases r.kind <;> decide
  have hread := (h.path hkind).readable.1
  unfold Session.reqFields askedPath
  rw [if_neg hkind, if_neg hreq, if_neg hkind, lenstr_fields hread]
  dsimp only
  rw [hread.ok, if_neg (by decide)]
  by_cases hwrite : r.kind.reqKind.isWrite = true
  · rw [if_pos hwrite, writeArgs_lastField h hwrite]
  · rw [if_neg hwrite]
    unfold lastField askedArg askedNum
    cases hk : r.kind
    case vols => exact absurd hk hkind
    case dir | get => rfl
    all_goals
      rw [hk] at hwrite
      exact absurd rfl hwrite

-- ---------------------------------------------------------------------------
-- The line fed
-- ---------------------------------------------------------------------------

theorem verb_ne (k : RemoteKind) :
    ∀ w ∈ ["WEBADF", "PING", "LIST", "FILE", "TAKE", "MORE", "DONE", "NO"], ascii k.verb ≠ ascii w := by
  cases k <;> decide

theorem onWord_verb (fs : Receive.Fs φ) (s : Session φ) (k : RemoteKind) (c : List UInt8) :
    s.onWord fs (ascii k.verb) c = s.onRequest c k.reqKind := by
  have h := verb_ne k
  unfold Session.onWord
  rw [if_neg (h "WEBADF" (by simp)), if_neg (h "PING" (by simp)), if_neg (h "LIST" (by simp)),
    if_neg (h "FILE" (by simp)), if_neg (h "TAKE" (by simp)), if_neg (h "MORE" (by simp)),
    if_neg (h "DONE" (by simp)), if_neg (h "NO" (by simp)), reqWord_verb]

/-- The id and what is behind it. -/
theorem tok_id (h : Rid r.id) :
    tok (latin1 r.id ++ if r.kind = .vols then [] else Receive.blank :: fields r) =
      (some (latin1 r.id), if r.kind = .vols then [] else fields r) := by
  by_cases hkind : r.kind = .vols
  · rw [if_pos hkind, if_pos hkind, List.append_nil, Receive.tok_end h.word]
  · rw [if_neg hkind, if_neg hkind, Receive.tok_word h.word]

theorem lastField_print {protocol : Nat} (h : Legal protocol r) :
    ∀ w ∈ lastField r, (∀ c ∈ w, 0x20 ≤ c) ∧ w.length ≤ 259 := by
  have hcounted : ∀ s : List UInt8, (∀ c ∈ s, 0x20 ≤ c) → s.length ≤ 255 →
      (∀ c ∈ Receive.counted s, 0x20 ≤ c) ∧ (Receive.counted s).length ≤ 259 := by
    intro s hs hlen
    have hdigits : (decimal s.length).length ≤ 3 := length_decimal_le (by decide) (by omega)
    refine ⟨Entry.counted_print hs, ?_⟩
    rw [Receive.counted, List.length_append, List.length_cons]
    omega
  intro w hw
  unfold lastField at hw
  cases hkind : r.kind <;> rw [hkind] at hw
  case vols | dir | get => cases hw
  case mkdir =>
    dsimp only at hw
    split at hw <;> cases hw
    exact ⟨by decide, by decide⟩
  case delete =>
    dsimp only at hw
    split at hw <;> cases hw
    exact ⟨by decide, by decide⟩
  case rename =>
    cases hw
    have hread := (h.renamed hkind).readable.1
    exact hcounted _ hread.print hread.le
  case note =>
    cases hw
    obtain ⟨hlen, hprint, -⟩ := commentOk_spec (h.comment hkind)
    exact hcounted _ hprint (by rw [length_latin1]; omega)
  case protect =>
    cases hw
    refine ⟨Entry.numeral_print (by decide) (by decide) _, ?_⟩
    have := length_numeral_le (b := 16) (k := 8) (by decide) (by decide)
      (UInt32.toNat_lt (r.target.protection.getD 0))
    omega

/-- A request's line prints and is shorter than Transfer's. -/
theorem lineOf_fits {protocol : Nat} (h : Legal protocol r) :
    (∀ c ∈ lineOf r, 0x20 ≤ c) ∧ (lineOf r).length ≤ Receive.lineMax := by
  have hblank : (0x20 : UInt8) ≤ Receive.blank := by decide
  have hverb : (∀ c ∈ ascii r.kind.verb, 0x20 ≤ c) ∧ (ascii r.kind.verb).length ≤ 7 := by
    cases r.kind <;> exact ⟨by decide, by decide⟩
  have hid : ∀ c ∈ latin1 r.id, 0x20 ≤ c := fun c hc => UInt8.le_of_lt (h.id.byte hc).2
  have hidlen : (latin1 r.id).length = 22 := by rw [length_latin1, h.id.length]
  unfold lineOf
  by_cases hkind : r.kind = .vols
  · rw [if_pos hkind, List.append_nil]
    refine ⟨Entry.append_print hverb.1 (Entry.cons_print hblank hid), ?_⟩
    rw [List.length_append, List.length_cons, hidlen]
    exact Nat.le_trans (Nat.add_le_add_right hverb.2 _) (by decide)
  have hread := (h.path hkind).readable.1
  have hdigits : (decimal (latin1 r.amigaPath).length).length ≤ 3 :=
    length_decimal_le (by decide) (Nat.lt_of_le_of_lt hread.le (by decide))
  have hfields : (∀ c ∈ fields r, 0x20 ≤ c) ∧ (fields r).length ≤ 519 := by
    have hlast := lastField_print h
    have hpath := Entry.counted_print hread.print
    have hpathlen := hread.le
    unfold fields
    cases hw : lastField r with
    | none =>
      rw [Option.elim_none, List.append_nil, Receive.counted, List.length_append, List.length_cons]
      exact ⟨hpath, by omega⟩
    | some w =>
      obtain ⟨hprint, hlen⟩ := hlast w hw
      rw [Option.elim_some]
      refine ⟨Entry.append_print hpath (Entry.cons_print hblank hprint), ?_⟩
      rw [Receive.counted, List.length_append, List.length_append, List.length_cons, List.length_cons]
      omega
  rw [if_neg hkind]
  refine ⟨Entry.append_print hverb.1 (Entry.cons_print hblank (Entry.append_print hid
    (Entry.cons_print hblank hfields.1))), ?_⟩
  have hmax : Receive.lineMax = 640 := rfl
  rw [List.length_append, List.length_cons, List.length_append, List.length_cons, hidlen, hmax]
  have := hverb.2
  have := hfields.2
  omega

/-- Transfer takes a request at once: no file's bytes come, nothing else waits, and
browsing, for a write writing too, is on. -/
structure Listens (s : Session φ) (k : RemoteKind) : Prop where
  lines : s.inData = false ∧ s.line = [] ∧ s.listExpect = 0 ∧ s.protoErr = false
  browse : s.browseOn = true
  write : k.reqKind.isWrite = true → s.writeOn = true
  free : s.req.waitKind = .none

/-- The row as Transfer keeps it until it answers. -/
def waitFor (s : Session φ) (r : RequestRow) : Session φ :=
  { s with req := { s.req with
    waitKind := r.kind.reqKind, waitId := latin1 r.id, waitPath := askedPath r
    waitArg := askedArg r, waitNum := askedNum r } }

theorem onRequest_row {s : Session φ} (h : Legal s.peerV r) (hl : Listens s r.kind) :
    s.onRequest (latin1 r.id ++ if r.kind = .vols then [] else Receive.blank :: fields r)
      r.kind.reqKind = waitFor s r := by
  have hwrite : (r.kind.reqKind.isWrite && !s.writeOn) = false := by
    cases hk : r.kind.reqKind.isWrite with
    | false => rfl
    | true => rw [hl.write hk]; rfl
  unfold Session.onRequest
  rw [tok_id h.id]
  dsimp only
  rw [h.id.idOk, if_neg (by decide), reqFields_fields h]
  dsimp only
  rw [hwrite, if_neg (by decide), hl.browse, if_neg (by decide), if_neg (not_not.2 hl.free)]
  rfl

/-- The request's line, fed whole. -/
theorem feed_request (fs : Receive.Fs φ) {s : Session φ} (h : Legal s.peerV r)
    (hl : Listens s r.kind) : s.feed fs (latin1 (requestLine r)) = (true, waitFor s r) := by
  obtain ⟨hprint, hlen⟩ := lineOf_fits h
  obtain ⟨hdata, hline, hlist, hproto⟩ := hl.lines
  have hnl : newline ∉ lineOf r := fun hmem => absurd (hprint _ hmem) (by decide)
  have hchomp : Session.chomp (lineOf r) = lineOf r := by
    unfold Session.chomp
    rw [if_neg]
    intro hlast
    exact absurd (hprint _ (List.mem_of_getLast? hlast)) (by decide)
  have hs : { s with line := [] } = s := by
    rw [← hline]
  have hend : ({ s with line := s.line ++ lineOf r }.endLine fs) = waitFor s r := by
    unfold Session.endLine
    dsimp only
    rw [hline, List.nil_append, hchomp, hs]
    unfold Session.onLine
    rw [if_neg (not_not.2 hlist), lineOf, Receive.tok_word (word_verb r.kind)]
    dsimp only
    rw [onWord_verb, onRequest_row h hl]
  have hnoerr : (waitFor s r).protoErr = false := hproto
  rw [latin1_requestLine, Receive.Session.feed_line hdata hnl (by rw [hline]; simpa using hlen), hend,
    hnoerr, if_neg (by decide), Receive.Session.feed_nil]

end WebAdf.Browse
