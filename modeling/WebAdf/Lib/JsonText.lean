import WebAdf.Lib.Ascii

/-!
# JSON texts with their layout

A value as it is written, every blank kept, and the lexemes it is written in.
What stands before a colon is a key; a value's lexemes hold its members' keys, in
the order of the text, and no others.
-/

namespace WebAdf.Lib.JsonText

def isBlank (c : UInt8) : Bool := c = 0x20 ∨ c = 0x09 ∨ c = 0x0a ∨ c = 0x0d

abbrev Space := {s : List UInt8 // ∀ c ∈ s, isBlank c = true}

def isHex (c : UInt8) : Bool := isDigit c || (0x41 ≤ c && c ≤ 0x46) || (0x61 ≤ c && c ≤ 0x66)

-- ---------------------------------------------------------------------------
-- Strings and words
-- ---------------------------------------------------------------------------

/-- A character of a string as it is written; no byte above 0x7f is looked at. -/
inductive Piece
  | plain (c : UInt8) (h : 0x20 ≤ c ∧ c ≠ 0x22 ∧ c ≠ 0x5c)
  | escape (c : UInt8) (h : c ∈ ascii "\"\\/bfnrt")
  | unicode (ds : List UInt8) (hlen : ds.length = 4) (h : ∀ d ∈ ds, isHex d = true)

def Piece.text : Piece → List UInt8
  | .plain c _ => [c]
  | .escape c _ => [0x5c, c]
  | .unicode ds _ _ => 0x5c :: 0x75 :: ds

abbrev Str := List Piece

def Str.text (s : Str) : List UInt8 := s.flatMap Piece.text

def isNumberByte (c : UInt8) : Bool := isDigit c || c ∈ ascii "+-.eE"

/-- The literals, and every number's text (more is let in than JSON's grammar does). -/
inductive Word
  | null
  | true
  | false
  | number (c : UInt8) (s : List UInt8) (hc : isDigit c ∨ c = 0x2d)
      (h : ∀ d ∈ s, isNumberByte d = Bool.true)

def Word.text : Word → List UInt8
  | .null => ascii "null"
  | .true => ascii "true"
  | .false => ascii "false"
  | .number c s _ _ => c :: s

-- ---------------------------------------------------------------------------
-- Lexemes
-- ---------------------------------------------------------------------------

inductive Mark
  | openBrace | closeBrace | openBracket | closeBracket | comma | colon
deriving DecidableEq

def Mark.byte : Mark → UInt8
  | .openBrace => 0x7b
  | .closeBrace => 0x7d
  | .openBracket => 0x5b
  | .closeBracket => 0x5d
  | .comma => 0x2c
  | .colon => 0x3a

inductive Lexeme
  | space (s : Space)
  | word (w : Word)
  | str (s : Str)
  | mark (m : Mark)

def Lexeme.text : Lexeme → List UInt8
  | .space s => s.val
  | .word w => w.text
  | .str s => 0x22 :: (s.text ++ [0x22])
  | .mark m => [m.byte]

def textOf (ls : List Lexeme) : List UInt8 := ls.flatMap Lexeme.text

@[simp] theorem textOf_nil : textOf [] = [] := rfl

@[simp] theorem textOf_cons (l : Lexeme) (ls : List Lexeme) :
    textOf (l :: ls) = l.text ++ textOf ls := rfl

@[simp] theorem textOf_append (ls ms : List Lexeme) :
    textOf (ls ++ ms) = textOf ls ++ textOf ms :=
  List.flatMap_append

def dropBlank : List Lexeme → List Lexeme
  | .space _ :: ls => dropBlank ls
  | ls => ls

theorem dropBlank_not_space (ls : List Lexeme) : dropBlank ls ≠ .space s :: rest := by
  induction ls with
  | nil => nofun
  | cons l ls ih => cases l <;> simp [dropBlank, ih]

/-- No colon is the next thing written. -/
def Clear (ls : List Lexeme) : Prop := (dropBlank ls).head? ≠ some (.mark .colon)

/-- What follows the colon, when one is next. -/
def afterColon (ls : List Lexeme) : Option (List Lexeme) :=
  match dropBlank ls with
  | .mark .colon :: v => some v
  | _ => none

/-- Every string with a colon behind it, and what follows the colon. -/
def keyed : List Lexeme → List (Str × List Lexeme)
  | [] => []
  | .str s :: ls =>
    match afterColon ls with
    | some v => (s, v) :: keyed ls
    | none => keyed ls
  | _ :: ls => keyed ls

/-- Up to the brace that brings the depth to zero, and the rest. -/
def closing : Nat → List Lexeme → Option (List Lexeme × List Lexeme)
  | _, [] => none
  | depth, .mark .openBrace :: ls =>
    (closing (depth + 1) ls).map fun (o, rest) => (.mark .openBrace :: o, rest)
  | depth, .mark .closeBrace :: ls =>
    if depth = 1 then some ([.mark .closeBrace], ls)
    else (closing (depth - 1) ls).map fun (o, rest) => (.mark .closeBrace :: o, rest)
  | depth, l :: ls => (closing depth ls).map fun (o, rest) => (l :: o, rest)

-- ---------------------------------------------------------------------------
-- Values
-- ---------------------------------------------------------------------------

/-- A member's key with the blanks around it, the colon's included. -/
structure Key where
  before : Space
  name : Str
  after : Space
  lead : Space

def Key.lexemes (k : Key) : List Lexeme :=
  [.space k.before, .str k.name, .space k.after, .mark .colon, .space k.lead]

mutual
inductive Value
  | word (w : Word)
  | str (s : Str)
  | emptyArr (inside : Space)
  | arr (items : Items)
  | emptyObj (inside : Space)
  | obj (members : Members)
inductive Items
  | last (before : Space) (v : Value) (after : Space)
  | cons (before : Space) (v : Value) (after : Space) (rest : Items)
inductive Members
  | last (key : Key) (v : Value) (after : Space)
  | cons (key : Key) (v : Value) (after : Space) (rest : Members)
end

mutual
def Value.lexemes : Value → List Lexeme
  | .word w => [.word w]
  | .str s => [.str s]
  | .emptyArr inside => [.mark .openBracket, .space inside, .mark .closeBracket]
  | .arr items => .mark .openBracket :: items.lexemes ++ [.mark .closeBracket]
  | .emptyObj inside => [.mark .openBrace, .space inside, .mark .closeBrace]
  | .obj members => .mark .openBrace :: members.lexemes ++ [.mark .closeBrace]
def Items.lexemes : Items → List Lexeme
  | .last before v after => .space before :: v.lexemes ++ [.space after]
  | .cons before v after rest =>
    .space before :: v.lexemes ++ .space after :: .mark .comma :: rest.lexemes
def Members.lexemes : Members → List Lexeme
  | .last key v after => key.lexemes ++ v.lexemes ++ [.space after]
  | .cons key v after rest =>
    key.lexemes ++ v.lexemes ++ .space after :: .mark .comma :: rest.lexemes
end

def Value.isObject : Value → Bool
  | .emptyObj _ => true
  | .obj _ => true
  | _ => false

/-- A member of an object, at any depth, with the text behind it. -/
structure Member where
  key : Key
  value : Value
  behind : List Lexeme

def Member.lexemes (m : Member) : List Lexeme := m.value.lexemes ++ m.behind

mutual
/-- The members of every object in the value, as their keys follow each other. -/
def Value.members : Value → List Lexeme → List Member
  | .word _, _ => []
  | .str _, _ => []
  | .emptyArr _, _ => []
  | .arr items, behind => items.members (.mark .closeBracket :: behind)
  | .emptyObj _, _ => []
  | .obj members, behind => members.members (.mark .closeBrace :: behind)
def Items.members : Items → List Lexeme → List Member
  | .last _ v after, behind => v.members (.space after :: behind)
  | .cons _ v after rest, behind =>
    v.members (.space after :: .mark .comma :: rest.lexemes ++ behind) ++ rest.members behind
def Members.members : Members → List Lexeme → List Member
  | .last key v after, behind =>
    ⟨key, v, .space after :: behind⟩ :: v.members (.space after :: behind)
  | .cons key v after rest, behind =>
    ⟨key, v, .space after :: .mark .comma :: rest.lexemes ++ behind⟩ ::
      v.members (.space after :: .mark .comma :: rest.lexemes ++ behind) ++ rest.members behind
end

-- ---------------------------------------------------------------------------
-- Keys
-- ---------------------------------------------------------------------------

theorem afterColon_of_clear (h : Clear ls) : afterColon ls = none := by
  rw [afterColon]
  split
  · rename_i heq
    exact absurd (by rw [heq]; rfl) h
  · rfl

theorem afterColon_append (h : Clear t) (ls : List Lexeme) :
    afterColon (ls ++ t) = (afterColon ls).map (· ++ t) := by
  induction ls with
  | nil => exact afterColon_of_clear h
  | cons l ls ih =>
    cases l with
    | space s => exact ih
    | word w => rfl
    | str s => rfl
    | mark m => cases m <;> rfl

theorem keyed_append (h : Clear t) (ls : List Lexeme) :
    keyed (ls ++ t) = (keyed ls).map (fun e => (e.1, e.2 ++ t)) ++ keyed t := by
  induction ls with
  | nil => rfl
  | cons l ls ih =>
    cases l with
    | space s => exact ih
    | word w => exact ih
    | str s =>
      simp only [List.cons_append, keyed, afterColon_append h]
      cases afterColon ls with
      | none => exact ih
      | some v => simp [ih]
    | mark m => exact ih

@[simp] theorem keyed_space : keyed (.space s :: ls) = keyed ls := rfl

@[simp] theorem keyed_mark : keyed (.mark m :: ls) = keyed ls := rfl

@[simp] theorem clear_space : Clear (.space s :: ls) ↔ Clear ls := Iff.rfl

theorem clear_mark (h : m ≠ .colon) : Clear (.mark m :: ls) := by
  intro hc
  cases m <;> simp [dropBlank] at hc h

theorem clear_nil : Clear [] := by
  intro hc
  cases hc

@[simp] theorem keyed_key (k : Key) (ls : List Lexeme) :
    keyed (k.lexemes ++ ls) = (k.name, .space k.lead :: ls) :: keyed ls := rfl

/-- What a member is to the scan. -/
def Member.entry (m : Member) : Str × List Lexeme := (m.key.name, .space m.key.lead :: m.lexemes)

mutual
theorem Value.keyed_lexemes (v : Value) (h : Clear behind) :
    keyed (v.lexemes ++ behind) = (v.members behind).map Member.entry ++ keyed behind := by
  cases v with
  | word w => rfl
  | str s =>
    simp only [Value.lexemes, List.singleton_append, keyed, afterColon_of_clear h, Value.members,
      List.map_nil, List.nil_append]
  | emptyArr inside => rfl
  | arr items =>
    simp only [Value.lexemes, List.cons_append, List.append_assoc, List.nil_append, keyed_mark]
    rw [Items.keyed_lexemes items (clear_mark (by decide))]
    rfl
  | emptyObj inside => rfl
  | obj members =>
    simp only [Value.lexemes, List.cons_append, List.append_assoc, List.nil_append, keyed_mark]
    rw [Members.keyed_lexemes members (clear_mark (by decide))]
    rfl
theorem Items.keyed_lexemes (items : Items) (h : Clear behind) :
    keyed (items.lexemes ++ behind) = (items.members behind).map Member.entry ++ keyed behind := by
  cases items with
  | last before v after =>
    simp only [Items.lexemes, List.cons_append, List.append_assoc, List.nil_append, keyed_space]
    rw [Value.keyed_lexemes v (clear_space.mpr h)]
    rfl
  | cons before v after rest =>
    simp only [Items.lexemes, List.cons_append, List.append_assoc, keyed_space]
    rw [Value.keyed_lexemes v (clear_space.mpr (clear_mark (by decide))), keyed_space, keyed_mark,
      Items.keyed_lexemes rest h, ← List.append_assoc, ← List.map_append]
    rfl
theorem Members.keyed_lexemes (members : Members) (h : Clear behind) :
    keyed (members.lexemes ++ behind) = (members.members behind).map Member.entry ++
      keyed behind := by
  cases members with
  | last key v after =>
    simp only [Members.lexemes, List.cons_append, List.append_assoc, List.nil_append, keyed_key]
    rw [Value.keyed_lexemes v (clear_space.mpr h)]
    rfl
  | cons key v after rest =>
    simp only [Members.lexemes, List.cons_append, List.append_assoc, keyed_key]
    rw [Value.keyed_lexemes v (clear_space.mpr (clear_mark (by decide))), keyed_space, keyed_mark,
      Members.keyed_lexemes rest h]
    simp [Members.members, Member.entry, Member.lexemes]
end

theorem clear_of_append (pre : List Lexeme) (h : Clear (pre ++ ls)) : Clear pre := by
  induction pre with
  | nil => exact clear_nil
  | cons l pre ih =>
    cases l with
    | space s => exact ih h
    | word w => exact h
    | str s => exact h
    | mark m => exact h

theorem length_keyed_append (pre : List Lexeme) (h : Clear t) :
    (keyed (pre ++ t)).length = (keyed pre).length + (keyed t).length := by
  rw [keyed_append h, List.length_append, List.length_map]

theorem Value.length_keyed (v : Value) (h : Clear behind) :
    (keyed v.lexemes).length = (v.members behind).length := by
  have hsum := length_keyed_append v.lexemes h
  rw [v.keyed_lexemes h, List.length_append, List.length_map] at hsum
  omega

-- ---------------------------------------------------------------------------
-- Where a member stands
-- ---------------------------------------------------------------------------

/-- The member's value stands behind the keys of `before` and its own, and its own
members come first among those that follow. -/
def Stands (ls : List Lexeme) (before : List Member) (m : Member) (after : List Member) : Prop :=
  ∃ pre rest, ls = pre ++ m.lexemes ∧ after = m.value.members m.behind ++ rest ∧
    (keyed pre).length = before.length + 1 ∧ Clear m.behind

theorem Stands.prepend (hs : Stands ls before m after) (p : List Lexeme) (ms : List Member)
    (h : Clear ls) (hp : (keyed p).length = ms.length) : Stands (p ++ ls) (ms ++ before) m after := by
  obtain ⟨pre, rest, rfl, rfl, hkeys, hm⟩ := hs
  refine ⟨p ++ pre, rest, by simp, rfl, ?_, hm⟩
  rw [length_keyed_append p (clear_of_append pre h), hkeys, hp, List.length_append]
  omega

theorem Stands.more (hs : Stands ls before m after) (ms : List Member) :
    Stands ls before m (after ++ ms) := by
  obtain ⟨pre, rest, rfl, rfl, hkeys, hm⟩ := hs
  exact ⟨pre, rest ++ ms, rfl, by simp, hkeys, hm⟩

theorem split_member {as bs before : List Member} (h : as ++ bs = before ++ m :: after) :
    (∃ mid, as = before ++ m :: mid ∧ after = mid ++ bs) ∨
      ∃ mid, before = as ++ mid ∧ bs = mid ++ m :: after := by
  rcases List.append_eq_append_iff.mp h with ⟨mid, hb, ha⟩ | ⟨mid, ha, hb⟩
  · exact .inr ⟨mid, hb, ha⟩
  · cases mid with
    | nil => exact .inr ⟨[], by simpa using ha.symm, by simpa using hb.symm⟩
    | cons n mid =>
      simp only [List.cons_append, List.cons.injEq] at hb
      obtain ⟨rfl, rfl⟩ := hb
      exact .inl ⟨mid, ha, rfl⟩

theorem Key.stands (k : Key) (v : Value) (h : Clear behind) (ms : List Member) :
    Stands (k.lexemes ++ v.lexemes ++ behind) [] ⟨k, v, behind⟩ (v.members behind ++ ms) :=
  ⟨k.lexemes, ms, List.append_assoc _ _ _, rfl, rfl, h⟩

theorem Value.clear (v : Value) : Clear (v.lexemes ++ behind) := by
  intro hc
  cases v <;> simp [Value.lexemes, dropBlank] at hc

theorem Items.clear (items : Items) : Clear (items.lexemes ++ behind) := by
  cases items with
  | last lead v trail => simpa [Items.lexemes] using v.clear
  | cons lead v trail rest => simpa [Items.lexemes] using v.clear

theorem Members.clear (members : Members) : Clear (members.lexemes ++ behind) := by
  intro hc
  cases members <;> simp [Members.lexemes, Key.lexemes, dropBlank] at hc

theorem Value.length_keyed_comma (v : Value) (h : Clear behind) (s : Space) :
    (keyed (v.lexemes ++ [.space s, .mark .comma])).length = (v.members behind).length := by
  have hcomma : Clear [.space s, .mark .comma] := clear_mark (by decide)
  rw [length_keyed_append _ hcomma, v.length_keyed h]
  rfl

mutual
theorem Value.stands (v : Value) (h : Clear behind)
    (hm : v.members behind = before ++ m :: after) :
    Stands (v.lexemes ++ behind) before m after := by
  cases v with
  | word w => simp [Value.members] at hm
  | str s => simp [Value.members] at hm
  | emptyArr inside => simp [Value.members] at hm
  | arr items =>
    have hs := Items.stands items (clear_mark (by decide)) hm
    have hin := hs.prepend [.mark .openBracket] [] items.clear rfl
    simpa [Value.lexemes] using hin
  | emptyObj inside => simp [Value.members] at hm
  | obj members =>
    have hs := Members.stands members (clear_mark (by decide)) hm
    have hin := hs.prepend [.mark .openBrace] [] members.clear rfl
    simpa [Value.lexemes] using hin
theorem Items.stands (items : Items) (h : Clear behind)
    (hm : items.members behind = before ++ m :: after) :
    Stands (items.lexemes ++ behind) before m after := by
  cases items with
  | last lead v trail =>
    have hs := Value.stands v (clear_space.mpr h) hm
    have hin := hs.prepend [.space lead] [] v.clear rfl
    simpa [Items.lexemes] using hin
  | cons lead v trail rest =>
    have hnext : Clear (.space trail :: .mark .comma :: rest.lexemes ++ behind) :=
      clear_mark (by decide)
    rcases split_member hm with ⟨mid, hv, rfl⟩ | ⟨mid, rfl, hrest⟩
    · have hin := ((Value.stands v hnext hv).more (rest.members behind)).prepend
        [.space lead] [] v.clear rfl
      simpa [Items.lexemes] using hin
    · have hin := (Items.stands rest h hrest).prepend
        (.space lead :: (v.lexemes ++ [.space trail, .mark .comma])) (v.members _) rest.clear
        (by rw [keyed_space]; exact v.length_keyed_comma hnext trail)
      simpa [Items.lexemes] using hin
theorem Members.stands (members : Members) (h : Clear behind)
    (hm : members.members behind = before ++ m :: after) :
    Stands (members.lexemes ++ behind) before m after := by
  cases members with
  | last key v trail =>
    have hnext : Clear (.space trail :: behind) := h
    cases before with
    | nil =>
      simp only [Members.members, List.nil_append, List.cons.injEq] at hm
      obtain ⟨rfl, rfl⟩ := hm
      simpa [Members.lexemes] using key.stands v hnext []
    | cons n before =>
      simp only [Members.members, List.cons_append, List.cons.injEq] at hm
      obtain ⟨rfl, hv⟩ := hm
      have hin := (Value.stands v hnext hv).prepend key.lexemes [⟨key, v, .space trail :: behind⟩]
        v.clear rfl
      simpa [Members.lexemes] using hin
  | cons key v trail rest =>
    have hnext : Clear (.space trail :: .mark .comma :: rest.lexemes ++ behind) :=
      clear_mark (by decide)
    cases before with
    | nil =>
      simp only [Members.members, List.nil_append, List.cons_append, List.cons.injEq] at hm
      obtain ⟨rfl, rfl⟩ := hm
      simpa [Members.lexemes] using key.stands v hnext (rest.members behind)
    | cons n before =>
      simp only [Members.members, List.cons_append, List.cons.injEq] at hm
      obtain ⟨rfl, hm⟩ := hm
      rcases split_member hm with ⟨mid, hv, rfl⟩ | ⟨mid, rfl, hrest⟩
      · have hin := ((Value.stands v hnext hv).more (rest.members behind)).prepend key.lexemes
          [⟨key, v, .space trail :: .mark .comma :: rest.lexemes ++ behind⟩] v.clear rfl
        simpa [Members.lexemes] using hin
      · have hin := (Members.stands rest h hrest).prepend
          (key.lexemes ++ (v.lexemes ++ [.space trail, .mark .comma]))
          (⟨key, v, .space trail :: .mark .comma :: rest.lexemes ++ behind⟩ :: v.members _)
          rest.clear (congrArg (· + 1) (v.length_keyed_comma hnext trail))
        simpa [Members.lexemes] using hin
end

-- ---------------------------------------------------------------------------
-- Braces
-- ---------------------------------------------------------------------------

mutual
/-- A value inside an object is passed whole. -/
theorem Value.closing_lexemes (v : Value) :
    closing (d + 1) (v.lexemes ++ behind) =
      (closing (d + 1) behind).map fun (o, rest) => (v.lexemes ++ o, rest) := by
  cases v with
  | word w => rfl
  | str s => rfl
  | emptyArr inside =>
    simp [Value.lexemes, closing, Function.comp_def]
  | arr items =>
    simp only [Value.lexemes, List.cons_append, List.append_assoc, List.nil_append, closing]
    rw [Items.closing_lexemes items]
    simp [closing, Function.comp_def]
  | emptyObj inside =>
    simp [Value.lexemes, closing, Function.comp_def]
  | obj members =>
    simp only [Value.lexemes, List.cons_append, List.append_assoc, List.nil_append, closing]
    rw [Members.closing_lexemes members]
    simp [closing, Function.comp_def]
theorem Items.closing_lexemes (items : Items) :
    closing (d + 1) (items.lexemes ++ behind) =
      (closing (d + 1) behind).map fun (o, rest) => (items.lexemes ++ o, rest) := by
  cases items with
  | last before v after =>
    simp only [Items.lexemes, List.cons_append, List.append_assoc, List.nil_append, closing]
    rw [Value.closing_lexemes v]
    simp [closing, Function.comp_def]
  | cons before v after rest =>
    simp only [Items.lexemes, List.cons_append, List.append_assoc, closing]
    rw [Value.closing_lexemes v]
    simp only [closing]
    rw [Items.closing_lexemes rest]
    simp [Function.comp_def]
theorem Members.closing_lexemes (members : Members) :
    closing (d + 1) (members.lexemes ++ behind) =
      (closing (d + 1) behind).map fun (o, rest) => (members.lexemes ++ o, rest) := by
  cases members with
  | last key v after =>
    simp only [Members.lexemes, Key.lexemes, List.cons_append, List.append_assoc, List.nil_append,
      closing]
    rw [Value.closing_lexemes v]
    simp [closing, Function.comp_def]
  | cons key v after rest =>
    simp only [Members.lexemes, Key.lexemes, List.cons_append, List.append_assoc, List.nil_append,
      closing]
    rw [Value.closing_lexemes v]
    simp only [closing]
    rw [Members.closing_lexemes rest]
    simp [Function.comp_def]
end

/-- An object is lifted whole and nothing else with it. -/
theorem Value.closing_object (v : Value) (h : v.isObject = true) :
    closing 0 (v.lexemes ++ behind) = some (v.lexemes, behind) := by
  cases v with
  | word w => cases h
  | str s => cases h
  | emptyArr inside => cases h
  | arr items => cases h
  | emptyObj inside => rfl
  | obj members =>
    simp only [Value.lexemes, List.cons_append, List.append_assoc, List.nil_append, closing]
    rw [Members.closing_lexemes members]
    simp [closing]

-- ---------------------------------------------------------------------------
-- Texts
-- ---------------------------------------------------------------------------

/-- A text: one value with blanks around it. -/
structure Text where
  lead : Space
  value : Value
  trail : Space

namespace Text

def lexemes (t : Text) : List Lexeme := .space t.lead :: (t.value.lexemes ++ [.space t.trail])

def members (t : Text) : List Member := t.value.members [.space t.trail]

def text (t : Text) : List UInt8 := textOf t.lexemes

/-- The first member of that key as it is written. -/
def first (t : Text) (key : List UInt8) : Option Member :=
  t.members.find? (·.key.name.text = key)

/-- The text with blanks for a member's value. -/
def blanked (t : Text) (m : Member) : List UInt8 :=
  t.text.take (t.text.length - (textOf m.lexemes).length) ++
    List.replicate (textOf m.value.lexemes).length 0x20 ++ textOf m.behind

/-- How many bytes stand before the text behind the member's colon. -/
def place (t : Text) (m : Member) : Nat := t.text.length - (textOf m.entry.2).length

end Text

/-- The keys of a text and what stands behind each one's colon. -/
def keyedText (ls : List Lexeme) : List (List UInt8 × List UInt8) :=
  (keyed ls).map fun e => (e.1.text, textOf e.2)

theorem afterColon_suffix (h : afterColon ls = some v) : v <:+ ls := by
  induction ls with
  | nil => cases h
  | cons l ls ih =>
    cases l with
    | space s => exact (ih h).trans (List.suffix_cons _ _)
    | word w => cases h
    | str s => cases h
    | mark m =>
      cases m <;> cases h
      exact List.suffix_cons _ _

theorem keyed_suffix (he : e ∈ keyed ls) : e.2 <:+ ls := by
  induction ls with
  | nil => cases he
  | cons l ls ih =>
    have hnext : e ∈ keyed ls → e.2 <:+ l :: ls := fun h => (ih h).trans (List.suffix_cons _ _)
    cases l with
    | space s => exact hnext he
    | word w => exact hnext he
    | str s =>
      rw [keyed] at he
      split at he
      · rename_i v hv
        rcases List.mem_cons.mp he with rfl | he
        · exact (afterColon_suffix hv).trans (List.suffix_cons _ _)
        · exact hnext he
      · exact hnext he
    | mark m => exact hnext he

theorem Text.keyed_lexemes (t : Text) : keyed t.lexemes = t.members.map Member.entry := by
  rw [lexemes, keyed_space, Value.keyed_lexemes t.value (clear_space.mpr clear_nil)]
  exact List.append_nil _

theorem drop_textOf (pre : List Lexeme) (hlen : (textOf pre).length + k = n) :
    (textOf (pre ++ ls)).drop (n - k) = textOf ls := by
  have hn : n - k = (textOf pre).length := by omega
  rw [textOf_append, hn, List.drop_left]

/-- With as many blanks in the value's place, the keys left are those outside the
value, each where it was. -/
theorem Text.keyedText_gap (t : Text) (hm : t.members = before ++ m :: after) (gap : Space)
    (hgap : gap.val.length = (textOf m.value.lexemes).length) :
    ∃ pre rest, t.lexemes = pre ++ m.lexemes ∧ after = m.value.members m.behind ++ rest ∧
      keyedText (pre ++ .space gap :: m.behind) = (before ++ m :: rest).map fun n =>
        (n.key.name.text, (textOf (pre ++ .space gap :: m.behind)).drop (t.place n)) := by
  have hs := Value.stands t.value (clear_space.mpr clear_nil) hm
  have hs := hs.prepend [.space t.lead] [] t.value.clear rfl
  obtain ⟨pre, rest, hpre, rfl, hlen, hbehind⟩ := hs
  have hpre : t.lexemes = pre ++ m.lexemes := hpre
  refine ⟨pre, rest, hpre, rfl, ?_⟩
  -- the keys of the text, told apart by where they stand
  have hall : (keyed pre).map (fun e => (e.1, e.2 ++ m.lexemes)) ++
      ((m.value.members m.behind).map Member.entry ++ keyed m.behind) =
      (before ++ [m]).map Member.entry ++
        ((m.value.members m.behind).map Member.entry ++ rest.map Member.entry) := by
    have hkeys := t.keyed_lexemes
    have hclear : Clear m.lexemes := m.value.clear
    have hin : keyed m.lexemes = _ := m.value.keyed_lexemes hbehind
    rw [hpre, keyed_append hclear, hin, hm] at hkeys
    simpa using hkeys
  obtain ⟨hbefore, hrest⟩ := List.append_inj hall (by simpa using hlen)
  have hrest := List.append_cancel_left hrest
  -- a key keeps its distance to the end
  have hplace (e : Str × List Lexeme) (he : e ∈ keyed pre) :
      (textOf (pre ++ .space gap :: m.behind)).drop
        (t.text.length - (textOf (e.2 ++ m.lexemes)).length) =
        textOf (e.2 ++ .space gap :: m.behind) := by
    obtain ⟨u, hu⟩ := keyed_suffix he
    rw [← hu, List.append_assoc]
    apply drop_textOf u
    rw [text, hpre, ← hu]
    simp only [textOf_append, List.length_append]
    omega
  have hplace' (e : Str × List Lexeme) (he : e ∈ keyed m.behind) :
      (textOf (pre ++ .space gap :: m.behind)).drop (t.text.length - (textOf e.2).length) =
        textOf e.2 := by
    obtain ⟨u, hu⟩ := keyed_suffix he
    have hsplit : pre ++ .space gap :: m.behind = (pre ++ .space gap :: u) ++ e.2 := by
      rw [← hu]
      simp
    rw [hsplit]
    apply drop_textOf
    rw [text, hpre, Member.lexemes, ← hu]
    simp only [textOf_append, textOf_cons, List.length_append, Lexeme.text, hgap]
    omega
  have hgone : Clear (.space gap :: m.behind) := hbehind
  rw [keyedText, keyed_append hgone, keyed_space, List.map_append, List.map_map]
  have hsplit : before ++ m :: rest = (before ++ [m]) ++ rest := by simp
  rw [hsplit, List.map_append]
  -- both lists are read off the entries
  let seen (e : Str × List Lexeme) : List UInt8 × List UInt8 :=
    (e.1.text, (textOf (pre ++ .space gap :: m.behind)).drop
      (t.text.length - (textOf e.2).length))
  have hread (ns : List Member) : ns.map (fun n => (n.key.name.text,
      (textOf (pre ++ .space gap :: m.behind)).drop (t.place n))) =
      (ns.map Member.entry).map seen := by
    rw [List.map_map]
    rfl
  rw [hread, hread, ← hbefore, ← hrest, List.map_map]
  congr 1
  · apply List.map_congr_left
    intro e he
    exact congrArg (e.1.text, ·) (hplace e he).symm
  · apply List.map_congr_left
    intro e he
    exact congrArg (e.1.text, ·) (hplace' e he).symm

end WebAdf.Lib.JsonText
