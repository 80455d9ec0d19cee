import WebAdf.TrackCache.PsramLaws

/-!
# The tokens a run of publishes makes

A call to publish a disk stores at most two words: the one DF1 lets go by, and
the drive's own. The words of a run grow, so none comes back, and the two
drives stay apart in every state a reader may see, also between a call's two
stores.
-/

namespace WebAdf.TrackCache

-- ---------------------------------------------------------------------------
-- Calls
-- ---------------------------------------------------------------------------

/-- `psram_publish_slot` and `psram_publish_df1`, with the caller's `int`. -/
inductive Publish
  | slot (n : Int)
  | df1 (n : Int)

/-- The slot an `int` names. `SLOT_NONE` is -1, and nothing else below 0 is a slot. -/
def slotArg (n : Int) : Option (Option Nat) :=
  if n = -1 then some none else if n < 0 then none else some (some n.toNat)

namespace Psram

def call (p : Psram) : Publish → Psram
  | .slot n => (slotArg n).elim p p.publishSlot
  | .df1 n => (slotArg n).elim p fun slot => (p.publishDf1 slot).1

/-- The store of DF1's word between `p` and `q`, if one was made. -/
def df1Store (p q : Psram) : List (Nat × Psram) :=
  if q.gGen = p.gGen then [] else [(q.df1Word, q)]

def slotStores (p : Psram) (slot : Option Nat) : List (Nat × Psram) :=
  let q := p.publishSlot slot
  if q.gGen = p.gGen then []
  else df1Store p (p.releaseDf1 slot) ++ [(q.activeWord, q)]

/-- A call's stores to the published words in their order, each with the
machine it leaves. -/
def stores (p : Psram) : Publish → List (Nat × Psram)
  | .slot n => (slotArg n).elim [] p.slotStores
  | .df1 n => (slotArg n).elim [] fun slot => df1Store p (p.publishDf1 slot).1

/-- The drives are kept straight. -/
structure Straight (p : Psram) : Prop where
  apart : ∀ slot, p.df1Slot = some slot → p.activeSlot ≠ some slot
  empty : p.activeSlot = none → p.df1Slot = none ∨ p.df1Slot = some slotNet
  net : p.activeSlot ≠ some slotNet

/-- `psram_image_init`: no word made yet. -/
structure Unpublished (p : Psram) : Prop where
  gen : p.gGen = 0
  active : p.activeWord = 0
  df1 : p.df1Word = 0

/-- The machine after `n` calls and the words seen so far, the first ones of
0 among them. What is not a publish leaves both words. -/
inductive Calls (boot : Psram) : Nat → List Nat → Psram → Prop
  | boot : Calls boot 0 [0] boot
  | other : Calls boot n words p → q.gGen = p.gGen → q.activeWord = p.activeWord →
      q.df1Word = p.df1Word → Calls boot n words q
  | call (c : Publish) : Calls boot n words p →
      Calls boot (n + 1) (words ++ (p.stores c).map Prod.fst) (p.call c)

-- ---------------------------------------------------------------------------
-- One store
-- ---------------------------------------------------------------------------

variable {p q boot : Psram} {slot : Option Nat}

theorem slotOfWord_packWord_none (gen : Nat) : slotOfWord (packWord gen none) = none := by
  exact if_neg (by simp only [packWord]; omega)

theorem slotOfWord_packWord (gen : Nat) {slot : Nat} (h : slot < 4) :
    slotOfWord (packWord gen (some slot)) = some slot := by
  have hset : packWord gen (some slot) / 4 % 2 = 1 := by simp only [packWord]; omega
  have hlow : packWord gen (some slot) % 4 = slot := by simp only [packWord]; omega
  rw [slotOfWord, if_pos hset, hlow]

def makeActiveWord (p : Psram) (slot : Option Nat) : Psram :=
  { p with gGen := p.gGen + 1, activeWord := packWord (p.gGen + 1) slot }

@[simp] theorem makeDf1Word_gGen (p : Psram) (slot : Option Nat) :
    (p.makeDf1Word slot).gGen = p.gGen + 1 := rfl

@[simp] theorem makeDf1Word_df1Word (p : Psram) (slot : Option Nat) :
    (p.makeDf1Word slot).df1Word = packWord (p.gGen + 1) slot := rfl

@[simp] theorem makeDf1Word_activeSlot (p : Psram) (slot : Option Nat) :
    (p.makeDf1Word slot).activeSlot = p.activeSlot := rfl

@[simp] theorem makeActiveWord_gGen (p : Psram) (slot : Option Nat) :
    (p.makeActiveWord slot).gGen = p.gGen + 1 := rfl

@[simp] theorem makeActiveWord_activeWord (p : Psram) (slot : Option Nat) :
    (p.makeActiveWord slot).activeWord = packWord (p.gGen + 1) slot := rfl

@[simp] theorem makeActiveWord_df1Slot (p : Psram) (slot : Option Nat) :
    (p.makeActiveWord slot).df1Slot = p.df1Slot := rfl

/-- The word names the slot, and `SLOT_NONE` is one a word can name. -/
theorem slotOfWord_slot (gen : Nat) (h : ∀ s, slot = some s → s < 4) :
    slotOfWord (packWord gen slot) = slot := by
  cases slot with
  | none => exact slotOfWord_packWord_none gen
  | some s => exact slotOfWord_packWord gen (h s rfl)

theorem makeDf1Word_df1Slot (p : Psram) (h : ∀ s, slot = some s → s < 4) :
    (p.makeDf1Word slot).df1Slot = slot :=
  slotOfWord_slot _ h

theorem makeActiveWord_activeSlot (p : Psram) (h : ∀ s, slot = some s → s < 4) :
    (p.makeActiveWord slot).activeSlot = slot :=
  slotOfWord_slot _ h

theorem Straight.congr (h : p.Straight) (hactive : q.activeWord = p.activeWord)
    (hdf1 : q.df1Word = p.df1Word) : q.Straight := by
  have ha : q.activeSlot = p.activeSlot := congrArg slotOfWord hactive
  have hd : q.df1Slot = p.df1Slot := congrArg slotOfWord hdf1
  refine ⟨fun slot hs => ?_, fun hnone => ?_, ?_⟩
  · rw [ha]
    exact h.apart slot (hd ▸ hs)
  · rw [hd]
    exact h.empty (ha ▸ hnone)
  · rw [ha]
    exact h.net

/-- DF1 lets go. -/
theorem Straight.release (h : p.Straight) : (p.makeDf1Word none).Straight := by
  have hd : (p.makeDf1Word none).df1Slot = none := makeDf1Word_df1Slot p (fun _ hs => by cases hs)
  refine ⟨fun slot hs => ?_, fun _ => .inl hd, h.net⟩
  rw [hd] at hs
  cases hs

theorem Straight.df1Net (h : p.Straight) : (p.makeDf1Word (some slotNet)).Straight := by
  have hd : (p.makeDf1Word (some slotNet)).df1Slot = some slotNet :=
    makeDf1Word_df1Slot p (fun _ hs => by cases hs; decide)
  refine ⟨fun slot hs => ?_, fun _ => .inr hd, h.net⟩
  rw [hd] at hs
  cases hs
  exact h.net

/-- DF1 takes an A/B slot DF0 has not, while DF0 has one. -/
theorem Straight.df1Next {slot : Nat} (h : p.Straight) (hsome : p.activeSlot ≠ none)
    (hne : p.activeSlot ≠ some slot) (hlt : slot < slotCount) :
    (p.makeDf1Word (some slot)).Straight := by
  have hd : (p.makeDf1Word (some slot)).df1Slot = some slot :=
    makeDf1Word_df1Slot p (fun _ hs => by
      cases hs
      exact Nat.lt_trans hlt (by decide))
  refine ⟨fun s hs => ?_, fun hnone => absurd hnone hsome, h.net⟩
  rw [hd] at hs
  cases hs
  exact hne

/-- DF0 takes a slot DF1 stands clear of. -/
theorem Straight.active (hlt : ∀ s, slot = some s → s < slotCount)
    (hapart : ∀ d, p.df1Slot = some d → d = slotNet ∨ slot ≠ none ∧ slot ≠ some d) :
    (p.makeActiveWord slot).Straight := by
  have ha : (p.makeActiveWord slot).activeSlot = slot :=
    makeActiveWord_activeSlot p (fun s hs => Nat.lt_trans (hlt s hs) (by decide))
  refine ⟨fun d hd => ?_, fun hnone => ?_, fun hnet => ?_⟩
  · rw [ha]
    rintro rfl
    rcases hapart d hd with rfl | ⟨-, hne⟩
    · exact absurd (hlt _ rfl) (by decide)
    · exact hne rfl
  · rw [ha] at hnone
    cases hd : p.df1Slot with
    | none => exact .inl hd
    | some d =>
      rcases hapart d hd with rfl | ⟨hne, -⟩
      · exact .inr hd
      · exact absurd hnone hne
  · rw [ha] at hnet
    exact absurd (hlt _ hnet) (by decide)

-- ---------------------------------------------------------------------------
-- One call
-- ---------------------------------------------------------------------------

/-- The stores a call makes from `p`, the last of them to `q`: each word is the
next generation's. -/
inductive Stored : Psram → List (Nat × Psram) → Psram → Prop
  | done (p : Psram) : Stored p [] p
  | next {p q r : Psram} (slot : Option Nat) : q.gGen = p.gGen + 1 → Stored q es r →
      Stored p ((packWord (p.gGen + 1) slot, q) :: es) r

theorem df1Store_makeDf1Word (p : Psram) (slot : Option Nat) :
    df1Store p (p.makeDf1Word slot) = [(packWord (p.gGen + 1) slot, p.makeDf1Word slot)] :=
  if_neg (Nat.succ_ne_self p.gGen)

theorem df1Store_self (p : Psram) : df1Store p p = [] := if_pos rfl

theorem releaseDf1_cases (p : Psram) (slot : Option Nat) :
    p.releaseDf1 slot = p.makeDf1Word none ∨
    p.releaseDf1 slot = p ∧
      ∀ d, p.df1Slot = some d → d = slotNet ∨ slot ≠ none ∧ slot ≠ some d := by
  unfold releaseDf1
  cases hd : p.df1Slot with
  | none => exact .inr ⟨rfl, fun d hd => by cases hd⟩
  | some d1 =>
    dsimp only
    split
    · exact .inl rfl
    · rename_i hstays
      refine .inr ⟨rfl, fun d hd => ?_⟩
      cases hd
      by_cases hnet : d1 = slotNet
      · exact .inl hnet
      · exact .inr (not_or.mp fun h => hstays ⟨hnet, h⟩)

theorem publishSlot_cases (p : Psram) (slot : Option Nat) :
    p.publishSlot slot = p ∨
    (∀ s, slot = some s → s < slotCount) ∧
      p.publishSlot slot = (p.releaseDf1 slot).makeActiveWord slot := by
  unfold publishSlot
  split
  · exact .inl rfl
  · rename_i hok
    refine .inr ⟨fun s hs => ?_, rfl⟩
    subst hs
    simpa using hok

theorem slotStores_spec (p : Psram) (slot : Option Nat) (h : p.Straight) :
    Stored p (p.slotStores slot) (p.publishSlot slot) ∧ ∀ e ∈ p.slotStores slot, e.2.Straight := by
  dsimp only [slotStores]
  rcases publishSlot_cases p slot with hq | ⟨hlt, hq⟩
  · rw [hq, if_pos rfl]
    exact ⟨.done p, fun e he => by cases he⟩
  rw [hq]
  rcases releaseDf1_cases p slot with hr | ⟨hr, hapart⟩
  · have hmoved : ((p.makeDf1Word none).makeActiveWord slot).gGen ≠ p.gGen := by
      simp only [makeActiveWord_gGen, makeDf1Word_gGen]
      omega
    rw [hr, if_neg hmoved, df1Store_makeDf1Word]
    refine ⟨.next none rfl (.next slot rfl (.done _)), ?_⟩
    -- between the two stores DF1 is empty already
    rintro e (_ | ⟨_, _ | ⟨_, he⟩⟩)
    · exact h.release
    · refine .active hlt fun d hd => ?_
      rw [makeDf1Word_df1Slot p (fun _ hs => by cases hs)] at hd
      cases hd
    · cases he
  · have hmoved : (p.makeActiveWord slot).gGen ≠ p.gGen := Nat.succ_ne_self p.gGen
    rw [hr, if_neg hmoved, df1Store_self]
    refine ⟨.next slot rfl (.done _), ?_⟩
    rintro e (_ | ⟨_, he⟩)
    · exact .active hlt hapart
    · cases he

theorem df1Stores_spec (p : Psram) (slot : Option Nat) (h : p.Straight) :
    Stored p (df1Store p (p.publishDf1 slot).1) (p.publishDf1 slot).1 ∧
      ∀ e ∈ df1Store p (p.publishDf1 slot).1, e.2.Straight := by
  have hmade : ∀ s, (p.makeDf1Word s).Straight →
      Stored p (df1Store p (p.makeDf1Word s)) (p.makeDf1Word s) ∧
        ∀ e ∈ df1Store p (p.makeDf1Word s), e.2.Straight := by
    intro s hs
    rw [df1Store_makeDf1Word]
    refine ⟨.next s rfl (.done _), ?_⟩
    rintro e (_ | ⟨_, he⟩)
    · exact hs
    · cases he
  have hrefused : Stored p (df1Store p p) p ∧ ∀ e ∈ df1Store p p, e.2.Straight := by
    rw [df1Store_self]
    exact ⟨.done p, fun e he => by cases he⟩
  cases slot with
  | none => exact hmade none h.release
  | some slot =>
    unfold publishDf1
    dsimp only
    split
    · rename_i hnet
      split
      · exact hmade _ (hnet ▸ h.df1Net)
      · exact hrefused
    · split
      · exact hrefused
      · rename_i hok
        simp only [not_or, not_le, ge_iff_le] at hok
        exact hmade _ (h.df1Next hok.1 hok.2.1 hok.2.2)

theorem stores_spec (p : Psram) (c : Publish) (h : p.Straight) :
    Stored p (p.stores c) (p.call c) ∧ ∀ e ∈ p.stores c, e.2.Straight := by
  cases c with
  | slot n =>
    unfold stores call
    dsimp only
    cases slotArg n with
    | none => exact ⟨.done p, fun e he => by cases he⟩
    | some slot => exact slotStores_spec p slot h
  | df1 n =>
    unfold stores call
    dsimp only
    cases slotArg n with
    | none => exact ⟨.done p, fun e he => by cases he⟩
    | some slot => exact df1Stores_spec p slot h

theorem stores_length (p : Psram) (c : Publish) : (p.stores c).length ≤ 2 := by
  have hdf1 : ∀ q, (df1Store p q).length ≤ 1 := by
    intro q
    unfold df1Store
    split <;> simp
  cases c with
  | slot n =>
    unfold stores
    dsimp only
    cases slotArg n with
    | none => exact Nat.zero_le _
    | some slot =>
      simp only [Option.elim_some, slotStores]
      split
      · exact Nat.zero_le _
      · have := hdf1 (p.releaseDf1 slot)
        simp only [List.length_append, List.length_cons, List.length_nil]
        omega
  | df1 n =>
    unfold stores
    dsimp only
    cases slotArg n with
    | none => exact Nat.zero_le _
    | some slot => exact Nat.le_succ_of_le (hdf1 _)

theorem Stored.gGen (h : Stored p es q) : q.gGen = p.gGen + es.length := by
  induction h with
  | done => rfl
  | next slot hgen _ ih =>
    rw [ih, hgen, List.length_cons]
    omega

theorem Stored.straight (h : Stored p es q) (hp : p.Straight) (hes : ∀ e ∈ es, e.2.Straight) :
    q.Straight := by
  induction h with
  | done => exact hp
  | next slot hgen _ ih =>
    exact ih (hes _ (List.mem_cons_self ..)) fun e he => hes e (List.mem_cons_of_mem _ he)

/-- Each word of a call is past the words of the generations before it. -/
theorem Stored.words (h : Stored p es q) (hgen : q.gGen < 2 ^ 29) :
    (es.map Prod.fst).Pairwise (· < ·) ∧
      ∀ w ∈ es.map Prod.fst, 8 * (p.gGen + 1) ≤ w ∧ w < 8 * (q.gGen + 1) := by
  induction h with
  | done => exact ⟨.nil, fun w hw => by cases hw⟩
  | @next q p es r slot hnext hrest ih =>
    obtain ⟨hup, hwords⟩ := ih hgen
    have hlength := hrest.gGen
    have hle : 8 * (p.gGen + 1) ≤ packWord (p.gGen + 1) slot := le_packWord (by omega) slot
    have hlt := packWord_lt (p.gGen + 1) slot
    refine ⟨.cons (fun w hw => ?_) hup, fun w hw => ?_⟩
    · have := (hwords w hw).1
      dsimp only
      omega
    · rcases List.mem_cons.1 hw with rfl | hw
      · exact ⟨hle, by dsimp only; omega⟩
      · have := hwords w hw
        omega

-- ---------------------------------------------------------------------------
-- Runs
-- ---------------------------------------------------------------------------

/-- The words so far grow, and none is past the generation. -/
structure Grown (n : Nat) (words : List Nat) (p : Psram) : Prop where
  gen : p.gGen ≤ 2 * n
  words : p.gGen < 2 ^ 29 → words.Pairwise (· < ·) ∧ ∀ w ∈ words, w < 8 * (p.gGen + 1)
  straight : p.Straight

theorem Unpublished.straight (h : p.Unpublished) : p.Straight := by
  have ha : p.activeSlot = none := by rw [activeSlot, h.active]; rfl
  have hd : p.df1Slot = none := by rw [df1Slot, h.df1]; rfl
  refine ⟨fun slot hs => ?_, fun _ => .inl hd, ?_⟩
  · rw [hd] at hs
    cases hs
  · rw [ha]
    exact nofun

theorem Calls.grown (hboot : boot.Unpublished) (h : Calls boot n words p) : Grown n words p := by
  induction h with
  | boot =>
    refine ⟨by rw [hboot.gen], fun _ => ⟨List.pairwise_singleton .., fun w hw => ?_⟩,
      hboot.straight⟩
    rw [List.mem_singleton.1 hw]
    omega
  | other _ hgen hactive hdf1 ih =>
    exact ⟨hgen ▸ ih.gen, hgen ▸ ih.words, ih.straight.congr hactive hdf1⟩
  | @call n words p c _ ih =>
    obtain ⟨hstored, hes⟩ := stores_spec p c ih.straight
    have hgen := hstored.gGen
    have hlength := stores_length p c
    have hn := ih.gen
    refine ⟨by omega, fun hlt => ?_, hstored.straight ih.straight hes⟩
    obtain ⟨hup, hwords⟩ := ih.words (by omega)
    obtain ⟨hup', hwords'⟩ := hstored.words hlt
    refine ⟨List.pairwise_append.2 ⟨hup, hup', fun v hv w hw => ?_⟩, fun w hw => ?_⟩
    · have := hwords v hv
      have := hwords' w hw
      omega
    · rcases List.mem_append.1 hw with hw | hw
      · have := hwords w hw
        omega
      · exact (hwords' w hw).2

/-- Fewer than 2^28 calls publish no word twice and keep the drives straight,
also between the two stores of the call under way. -/
theorem tokens_straight (hboot : boot.Unpublished) (h : Calls boot n words p) (hn : n < 2 ^ 28) :
    words.Nodup ∧ p.Straight ∧ ∀ c, ∀ e ∈ p.stores c, e.2.Straight := by
  have hgrown := h.grown hboot
  have hgen := hgrown.gen
  obtain ⟨hup, -⟩ := hgrown.words (by omega)
  exact ⟨hup.imp Nat.ne_of_lt, hgrown.straight, fun c => (stores_spec p c hgrown.straight).2⟩

/-- The machine of a board that has just started. -/
def blank : Psram where
  mem _ _ _ := 0
  bits _ _ := 0
  state _ _ := .absent
  kind _ := .mfm
  havePsram := true
  haveNet := true
  gGen := 0
  activeWord := 0
  df1Word := 0
  df1ReaderAck := 0

/-- DF0 takes A, DF1 takes B, and DF0 takes B from it. -/
theorem tokens_straight_swapped : [0, 12, 21, 24, 37].Nodup ∧ ∃ p : Psram, p.activeSlot = some 1 ∧
    p.df1Slot = none ∧ p.Straight := by
  have hboot : blank.Unpublished := ⟨rfl, rfl, rfl⟩
  have h := tokens_straight hboot
    (((Calls.boot.call (.slot 0)).call (.df1 1)).call (.slot 1)) (by decide)
  exact ⟨h.1, _, by decide, by decide, h.2.1⟩

end Psram

end WebAdf.TrackCache
