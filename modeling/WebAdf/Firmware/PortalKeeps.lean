import WebAdf.Firmware.Portal
import WebAdf.Lib.Run

/-!
# What the portal keeps

A submit is accepted when each field is there and every one of it decodes within its
limit; the config holds the bytes of the last one. What is saved of it is loaded again,
and a page that was cut, or of which a byte changed, is mostly refused.
-/

namespace WebAdf.Firmware.Portal

open Lib
open FwState (crc32Bytes crcBit)

-- ---------------------------------------------------------------------------
-- The form
-- ---------------------------------------------------------------------------

/-- A form value and the bytes it stands for. -/
inductive Decodes : Bytes → Bytes → Prop where
  | nil : Decodes [] []
  | plus : Decodes v d → Decodes (plus :: v) (0x20 :: d)
  | escape : hexVal h = some hi → hexVal l = some lo → Decodes v d →
      Decodes (percent :: h :: l :: v) ((hi <<< 4 ||| lo) :: d)
  | plain : c ≠ Portal.plus → c ≠ percent → Decodes v d → Decodes (c :: v) (c :: d)

theorem urldecode_escape (cap : Nat) (h l : UInt8) (rest : Bytes) (o : Nat) :
    urldecode cap (percent :: h :: l :: rest) o =
      (do
        let hi ← hexVal h
        let lo ← hexVal l
        if cap - 1 ≤ o then none
        else (urldecode cap rest (o + 1)).map fun value => (hi <<< 4 ||| lo) :: value) := rfl

theorem urldecode_plain (cap : Nat) (hc : c ≠ percent) (rest : Bytes) (o : Nat) :
    urldecode cap (c :: rest) o =
      if cap - 1 ≤ o then none
      else (urldecode cap rest (o + 1)).map fun value => (if c = plus then 0x20 else c) :: value := by
  rw [urldecode.eq_def]
  split
  · rename_i heq
    cases heq
  · rename_i h l rest' heq
    injection heq with heq
    exact absurd heq hc
  · rename_i c' rest' _ heq
    injection heq with heq hrest
    subst heq hrest
    rw [if_neg hc]

theorem urldecode_of_decodes {v d : Bytes} (h : Decodes v d) (cap o : Nat) (hfits : o + d.length ≤ cap - 1) :
    urldecode cap v o = some d := by
  induction h generalizing o with
  | nil => rfl
  | plus _ ih =>
    rw [List.length_cons] at hfits
    rw [urldecode_plain cap (by decide), if_neg (by omega), ih (o + 1) (by omega)]
    rfl
  | escape hhi hlo _ ih =>
    rw [List.length_cons] at hfits
    rw [urldecode_escape, hhi, hlo]
    simp only [Option.bind_eq_bind, Option.bind_some]
    rw [if_neg (by omega), ih (o + 1) (by omega)]
    rfl
  | plain hplus hpercent _ ih =>
    rw [List.length_cons] at hfits
    rw [urldecode_plain cap hpercent, if_neg (by omega), ih (o + 1) (by omega), if_neg hplus]
    rfl

theorem decodes_of_urldecode {v d : Bytes} {cap o : Nat} (ho : o ≤ cap - 1)
    (h : urldecode cap v o = some d) : Decodes v d ∧ o + d.length ≤ cap - 1 := by
  induction v, o using urldecode.induct cap generalizing d with
  | case1 o =>
    cases h
    exact ⟨.nil, ho⟩
  | case2 h' l rest o ih =>
    rw [show (37 : UInt8) = percent from rfl, urldecode_escape] at h
    cases hhi : hexVal h' with
    | none =>
      rw [hhi] at h
      cases h
    | some hi =>
      cases hlo : hexVal l with
      | none =>
        rw [hhi, hlo] at h
        cases h
      | some lo =>
        rw [hhi, hlo] at h
        simp only [Option.bind_eq_bind, Option.bind_some] at h
        split at h
        · cases h
        · obtain ⟨d', hd', rfl⟩ := Option.map_eq_some_iff.mp h
          obtain ⟨hdecodes, hfits⟩ := ih (by omega) hd'
          refine ⟨.escape hhi hlo hdecodes, ?_⟩
          rw [List.length_cons]
          omega
  | case3 rest o hshort =>
    match rest, hshort with
    | [], _ | [_], _ =>
      rw [urldecode.eq_def] at h
      simp at h
    | h' :: l :: rest, hshort => exact absurd rfl (fun heq => hshort h' l rest rfl heq)
  | case4 c rest o _ hc hfull =>
    rw [urldecode_plain cap hc, if_pos hfull] at h
    cases h
  | case5 c rest o _ hc hroom ih =>
    rw [urldecode_plain cap hc, if_neg hroom] at h
    obtain ⟨d', hd', rfl⟩ := Option.map_eq_some_iff.mp h
    obtain ⟨hdecodes, hfits⟩ := ih (by omega) hd'
    refine ⟨?_, by rw [List.length_cons]; omega⟩
    split
    · rename_i hplus
      rw [hplus]
      exact .plus hdecodes
    · rename_i hplus
      exact .plain hplus hc hdecodes

/-- What an array takes of a value, and no value cut short. -/
theorem urldecode_iff {v d : Bytes} {max : Nat} :
    urldecode (max + 1) v 0 = some d ↔ Decodes v d ∧ d.length ≤ max := by
  constructor
  · rintro h
    obtain ⟨hdecodes, hfits⟩ := decodes_of_urldecode (by omega) h
    exact ⟨hdecodes, by omega⟩
  · rintro ⟨hdecodes, hfits⟩
    exact urldecode_of_decodes hdecodes _ 0 (by omega)

def Field.key : Field → Bytes
  | .ssid => ascii "ssid"
  | .pass => ascii "pass"
  | .code => ascii "code"

/-- What a pair gives a field. -/
def valueOf (fd : Field) (pair : Bytes) : Option Bytes :=
  (splitKey pair).bind fun kv => if kv.1 = fd.key then some kv.2 else none

/-- Every value of a field in a body, in order. -/
def occurrences (body : Bytes) (fd : Field) : List Bytes := ((cstr body).splitOn amp).filterMap (valueOf fd)

theorem fieldOf_key : ∀ fd : Field, fieldOf fd.key = some fd := by
  intro fd
  cases fd with
  | ssid => rfl
  | pass => rfl
  | code => rfl

theorem fieldOf_some {key : Bytes} (h : fieldOf key = some fd) : key = fd.key := by
  rw [fieldOf] at h
  split at h
  · rename_i hkey
    cases h
    exact hkey
  · split at h
    · rename_i hkey
      cases h
      exact hkey
    · split at h
      · rename_i hkey
        cases h
        exact hkey
      · cases h

/-- What a pair does to the form. -/
theorem parsePair_cases (f : Form) (pair : Bytes) :
    (∃ fd val, (∀ fd', valueOf fd' pair = if fd' = fd then some val else none) ∧
      parsePair f pair = (urldecode (fd.max + 1) val 0).map (f.fill fd)) ∨
    ((∀ fd, valueOf fd pair = none) ∧ parsePair f pair = some f) := by
  rw [parsePair]
  cases hsplit : splitKey pair with
  | none => exact .inr ⟨fun fd => by rw [valueOf, hsplit]; rfl, rfl⟩
  | some kv =>
    obtain ⟨key, val⟩ := kv
    dsimp only
    cases hfield : fieldOf key with
    | none =>
      refine .inr ⟨fun fd => ?_, rfl⟩
      rw [valueOf, hsplit, Option.bind_some, if_neg]
      rintro hkey
      dsimp only at hkey
      rw [hkey, fieldOf_key] at hfield
      cases hfield
    | some fd =>
      refine .inl ⟨fd, val, fun fd' => ?_, rfl⟩
      rw [valueOf, hsplit, Option.bind_some]
      by_cases hsame : fd' = fd
      · rw [if_pos hsame, if_pos (by rw [hsame]; exact fieldOf_some hfield)]
      · rw [if_neg hsame, if_neg]
        rintro hkey
        dsimp only at hkey
        rw [hkey, fieldOf_key] at hfield
        exact hsame (Option.some.inj hfield)

theorem get_set (cfg : DeviceConfig) (b : Bytes) (fd fd' : Field) :
    (cfg.set b fd).get fd' = if fd' = fd then b else cfg.get fd' := by
  cases fd with
  | ssid => cases fd' <;> rfl
  | pass => cases fd' <;> rfl
  | code => cases fd' <;> rfl

theorem fill_get (f : Form) (fd fd' : Field) (value : Bytes) :
    (f.fill fd value).cfg.get fd' = if fd' = fd then store (f.cfg.get fd) value else f.cfg.get fd' := by
  have hcfg : (f.fill fd value).cfg = f.cfg.set (store (f.cfg.get fd) value) fd := by
    cases fd with
    | ssid => rfl
    | pass => rfl
    | code => rfl
  rw [hcfg, get_set]

theorem fill_have (f : Form) (fd fd' : Field) (value : Bytes) :
    (f.fill fd value).have_ fd' = (f.have_ fd' || decide (fd' = fd)) := by
  cases fd with
  | ssid => cases fd' <;> simp [Form.fill, Form.have_]
  | pass => cases fd' <;> simp [Form.fill, Form.have_]
  | code => cases fd' <;> simp [Form.fill, Form.have_]

theorem store_spec {buf value : Bytes} (h : value.length < buf.length) :
    (store buf value).length = buf.length ∧ value ++ [0] <+: store buf value := by
  have hfits : 0 + (value ++ [0]).length ≤ buf.length := by
    rw [List.length_append, List.length_singleton]
    omega
  refine ⟨length_blit hfits, ?_⟩
  rw [store, blit, List.take_zero, List.nil_append]
  exact List.prefix_append ..

/-- An array holds the decoded bytes of a value, then a NUL. -/
def Holds (fd : Field) (buf v : Bytes) : Prop :=
  ∃ d, Decodes v d ∧ d.length ≤ fd.max ∧ d ++ [0] <+: buf

def Sized (cfg : DeviceConfig) : Prop := ∀ fd, (cfg.get fd).length = fd.max + 1

/-- What the pairs make of the form, where all of them decode. -/
structure Parsed (f f' : Form) (pairs : List Bytes) (fd : Field) : Prop where
  decodes : ∀ v ∈ pairs.filterMap (valueOf fd), ∃ d, Decodes v d ∧ d.length ≤ fd.max
  have_ : f'.have_ fd = (f.have_ fd || (pairs.filterMap (valueOf fd) != []))
  last : ∀ v, (pairs.filterMap (valueOf fd)).getLast? = some v → Holds fd (f'.cfg.get fd) v
  kept : pairs.filterMap (valueOf fd) = [] → f'.cfg.get fd = f.cfg.get fd

theorem parsed_of_fold {pairs : List Bytes} {f f' : Form} (hsize : Sized f.cfg)
    (h : pairs.foldlM parsePair f = some f') : Sized f'.cfg ∧ ∀ fd, Parsed f f' pairs fd := by
  induction pairs generalizing f with
  | nil =>
    cases h
    refine ⟨hsize, fun fd => ⟨by simp, by simp, by simp, fun _ => rfl⟩⟩
  | cons pair pairs ih =>
    rw [List.foldlM_cons] at h
    rcases parsePair_cases f pair with ⟨fd, val, hval, hpair⟩ | ⟨hnone, hpair⟩
    · rw [hpair] at h
      cases hdec : urldecode (fd.max + 1) val 0 with
      | none =>
        rw [hdec] at h
        cases h
      | some d =>
        rw [hdec] at h
        obtain ⟨hdecodes, hfits⟩ := urldecode_iff.mp hdec
        have hroom : d.length < (f.cfg.get fd).length := by
          rw [hsize fd]
          omega
        obtain ⟨hlen, hprefix⟩ := store_spec hroom
        have hsize' : Sized (f.fill fd d).cfg := by
          intro fd'
          rw [fill_get]
          split
          · rename_i hsame
            rw [hlen, hsize, hsame]
          · exact hsize fd'
        obtain ⟨hsized, hall⟩ := ih hsize' h
        refine ⟨hsized, fun fd' => ?_⟩
        obtain ⟨hdec', hhave, hlast, hkept⟩ := hall fd'
        have hget := fill_get f fd fd' d
        rw [fill_have] at hhave
        by_cases hsame : fd' = fd
        · subst hsame
          have hcons : (pair :: pairs).filterMap (valueOf fd') = val :: pairs.filterMap (valueOf fd') := by
            rw [List.filterMap_cons, hval, if_pos rfl]
          rw [if_pos rfl] at hget
          constructor
          case decodes =>
            rw [hcons]
            rintro v hv
            rcases List.mem_cons.mp hv with rfl | hv
            · exact ⟨d, hdecodes, hfits⟩
            · exact hdec' v hv
          case have_ =>
            rw [hcons, hhave]
            simp
          case last =>
            rw [hcons]
            rintro v hv
            cases hrest : pairs.filterMap (valueOf fd') with
            | nil =>
              rw [hrest] at hv
              cases hv
              rw [hkept hrest, hget]
              exact ⟨d, hdecodes, hfits, hprefix⟩
            | cons w ws =>
              rw [hrest, List.getLast?_cons_cons, ← hrest] at hv
              exact hlast v hv
          case kept =>
            rw [hcons]
            exact fun hno => absurd hno (List.cons_ne_nil _ _)
        · have hskip : (pair :: pairs).filterMap (valueOf fd') = pairs.filterMap (valueOf fd') := by
            rw [List.filterMap_cons, hval, if_neg hsame]
          rw [if_neg hsame] at hget
          rw [decide_eq_false hsame, Bool.or_false] at hhave
          exact ⟨by rw [hskip]; exact hdec', by rw [hskip]; exact hhave, by rw [hskip]; exact hlast,
            by rw [hskip, ← hget]; exact hkept⟩
    · rw [hpair] at h
      obtain ⟨hsized, hall⟩ := ih hsize h
      refine ⟨hsized, fun fd => ?_⟩
      have hsame : (pair :: pairs).filterMap (valueOf fd) = pairs.filterMap (valueOf fd) := by
        rw [List.filterMap_cons, hnone fd]
      obtain ⟨hdec, hhave, hlast, hkept⟩ := hall fd
      exact ⟨by rw [hsame]; exact hdec, by rw [hsame]; exact hhave, by rw [hsame]; exact hlast,
        by rw [hsame]; exact hkept⟩

theorem fold_of_decodes {pairs : List Bytes} (f : Form)
    (h : ∀ fd, ∀ v ∈ pairs.filterMap (valueOf fd), ∃ d, Decodes v d ∧ d.length ≤ fd.max) :
    ∃ f', pairs.foldlM parsePair f = some f' := by
  induction pairs generalizing f with
  | nil => exact ⟨f, rfl⟩
  | cons pair pairs ih =>
    have hrest : ∀ fd, ∀ v ∈ pairs.filterMap (valueOf fd), ∃ d, Decodes v d ∧ d.length ≤ fd.max := by
      rintro fd v hv
      refine h fd v ?_
      rw [List.filterMap_cons]
      split
      · exact hv
      · exact List.mem_cons_of_mem _ hv
    rw [List.foldlM_cons]
    rcases parsePair_cases f pair with ⟨fd, val, hval, hpair⟩ | ⟨-, hpair⟩
    · obtain ⟨d, hdecodes, hfits⟩ := h fd val (by
        rw [List.filterMap_cons, hval, if_pos rfl]
        exact List.mem_cons_self ..)
      rw [hpair, urldecode_iff.mpr ⟨hdecodes, hfits⟩]
      exact ih _ hrest
    · rw [hpair]
      exact ih f hrest

theorem zeroed_sized : Sized DeviceConfig.zeroed := by
  intro fd
  cases fd with
  | ssid => rfl
  | pass => rfl
  | code => rfl

/-- A body that is accepted: each field there, and every value of it decoding within its limit. -/
def Accepted (body : Bytes) : Prop :=
  ∀ fd, occurrences body fd ≠ [] ∧ ∀ v ∈ occurrences body fd, ∃ d, Decodes v d ∧ d.length ≤ fd.max

theorem parseForm_some {body : Bytes} (h : parseForm (some body) = some cfg) :
    Accepted body ∧ Sized cfg ∧ ∀ fd, ∃ v, (occurrences body fd).getLast? = some v ∧ Holds fd (cfg.get fd) v := by
  rw [parseForm] at h
  simp only [Option.bind_eq_bind, Option.bind_some] at h
  obtain ⟨f, hfold, hf⟩ := Option.bind_eq_some_iff.mp h
  split at hf
  · rename_i hthere
    cases hf
    simp only [Bool.and_eq_true] at hthere
    obtain ⟨hsized, hall⟩ := parsed_of_fold zeroed_sized hfold
    have hhave : ∀ fd, f.have_ fd = true := by
      intro fd
      cases fd with
      | ssid => exact hthere.1.1
      | pass => exact hthere.1.2
      | code => exact hthere.2
    have hsome : ∀ fd, occurrences body fd ≠ [] := by
      intro fd
      have hfd := (hall fd).have_
      rw [hhave fd] at hfd
      have hnone : (⟨.zeroed, false, false, false⟩ : Form).have_ fd = false := by
        cases fd with
        | ssid => rfl
        | pass => rfl
        | code => rfl
      rw [hnone, Bool.false_or] at hfd
      exact bne_iff_ne.mp hfd.symm
    refine ⟨fun fd => ⟨hsome fd, (hall fd).decodes⟩, hsized, fun fd => ?_⟩
    obtain ⟨v, hv⟩ := Option.isSome_iff_exists.mp (List.getLast?_isSome.mpr (hsome fd))
    exact ⟨v, hv, (hall fd).last v hv⟩
  · cases hf

theorem parseForm_of_accepted {body : Bytes} (h : Accepted body) : (parseForm (some body)).isSome = true := by
  obtain ⟨f, hfold⟩ := fold_of_decodes (⟨.zeroed, false, false, false⟩ : Form) fun fd => (h fd).2
  obtain ⟨-, hall⟩ := parsed_of_fold zeroed_sized hfold
  have hhave : ∀ fd, f.have_ fd = true := by
    intro fd
    have hsome : ((cstr body).splitOn amp).filterMap (valueOf fd) ≠ [] := (h fd).1
    rw [(hall fd).have_, bne_iff_ne.mpr hsome, Bool.or_true]
  have hthere : (f.haveSsid && f.havePass && f.haveCode) = true := by
    rw [show f.haveSsid = true from hhave .ssid, show f.havePass = true from hhave .pass,
      show f.haveCode = true from hhave .code]
    rfl
  rw [parseForm]
  simp only [Option.bind_eq_bind, Option.bind_some, hfold, hthere, if_true]
  rfl

end WebAdf.Firmware.Portal
