import WebAdf.Firmware.JsonScan

/-!
# The update offer

An offer as the poll names it, read from its JSON for shape only, and whether it is to be
trusted: the fields, the sequence, the key and the signature over the manifest.
-/

namespace WebAdf.Firmware

open Lib

def fwMaxImageBytes : UInt32 := 2 * 1024 * 1024
def fwKeyIdMax : Nat := 32

structure FwOffer where
  version : Bytes
  sequence : UInt32
  sha256 : Bytes
  sizeBytes : UInt32
  signature : Bytes
  keyId : Bytes
  deriving DecidableEq

-- ---------------------------------------------------------------------------
-- Shape
-- ---------------------------------------------------------------------------

def b64v (c : UInt8) : Option UInt32 :=
  if 0x41 ≤ c ∧ c ≤ 0x5a then some (c - 0x41).toUInt32
  else if 0x61 ≤ c ∧ c ≤ 0x7a then some (c - 0x61 + 26).toUInt32
  else if 0x30 ≤ c ∧ c ≤ 0x39 then some (c - 0x30 + 52).toUInt32
  else if c = 0x2b then some 62
  else if c = 0x2f then some 63
  else none

/-- The values of a quad from its place `k` on, `pad` of them padding before it, and how
many in all. -/
def b64Quad (last : Bool) : Nat → Nat → Bytes → Option (List UInt32 × Nat)
  | _, pad, [] => some ([], pad)
  | k, pad, ch :: q =>
    if ch = 0x3d then
      if !last ∨ k < 2 then none else (b64Quad last (k + 1) (pad + 1) q).map fun (v, pad) => (0 :: v, pad)
    else if pad ≠ 0 then none
    else
      match b64v ch with
      | none => none
      | some x => (b64Quad last (k + 1) pad q).map fun (v, pad) => (x :: v, pad)

def b64Loop (cap : Nat) : Nat → Bytes → Bytes → Option Bytes
  | 0, _, out => some out
  | n + 1, s, out =>
    match b64Quad (n = 0) 0 0 (s.take 4) with
    | none => none
    | some (v, pad) =>
      let w : UInt32 := v.foldl (fun w x => w <<< 6 ||| x) 0
      if pad ≠ 0 ∧ w &&& ((1 <<< UInt32.ofNat (8 * pad)) - 1) ≠ 0 then none
      else
        let bytes := (List.range (3 - pad)).map fun k => (w >>> UInt32.ofNat (16 - 8 * k)).toUInt8
        if out.length + bytes.length > cap then none else b64Loop cap n (s.drop 4) (out ++ bytes)

/-- Strict: whole quads, padding only at the end, no stray bits under it. -/
def b64Decode (s : Bytes) (cap : Nat) : Option Bytes :=
  if s.length = 0 ∨ s.length % 4 ≠ 0 then none else b64Loop cap (s.length / 4) s []

def isHex64 (s : Bytes) : Bool := s.length = 64 && s.all fun c => (0x30 ≤ c && c ≤ 0x39) || (0x61 ≤ c && c ≤ 0x66)

def isAlnum (c : UInt8) : Bool := (0x41 ≤ c && c ≤ 0x5a) || (0x61 ≤ c && c ≤ 0x7a) || (0x30 ≤ c && c ≤ 0x39)

def isPathSafeVersion (s : Bytes) : Bool :=
  s.head? != some 0x2e && s.all (fun c => isAlnum c || c = 0x2e || c = 0x2b || c = 0x2d) && s.any isAlnum

def strictScratchLen : Nat := 128

/-- A string that would be cut off at `cap` is refused. -/
def jsonStrStrict (json key : Bytes) (cap : Nat) : Option Bytes :=
  if cap = 0 ∨ cap > strictScratchLen then none
  else
    match jsonStr json key strictScratchLen with
    | none => none
    | some s => if s.length > cap - 1 then none else some s

def fwOfferParse (j : Bytes) : Option FwOffer := do
  let version ← jsonStrStrict j (ascii "version") 65
  if version = [] ∨ isPathSafeVersion version = false then none
  let sequence ← jsonU32Strict j (ascii "sequence")
  if sequence = 0 then none
  let sha256 ← jsonStrStrict j (ascii "sha256") 65
  if isHex64 sha256 = false then none
  let sizeBytes ← jsonU32Strict j (ascii "sizeBytes")
  if sizeBytes = 0 then none
  let sig ← jsonStrStrict j (ascii "signature") 96
  let signature ← b64Decode sig 64
  if signature.length ≠ 64 then none
  let keyId ← jsonStrStrict j (ascii "keyId") (fwKeyIdMax + 1)
  if keyId = [] then none
  some { version, sequence, sha256, sizeBytes, signature, keyId }

-- ---------------------------------------------------------------------------
-- Trust
-- ---------------------------------------------------------------------------

inductive FwVerdict
  | ok
  | badFields
  | tooBig
  | rollback
  | unknownKey
  | badSignature
  deriving DecidableEq

/-- The bytes a release's signature covers. -/
def FwOffer.manifestText (o : FwOffer) : Bytes :=
  ascii "webadf-fw-v1" ++ 0x0a :: (o.version ++ 0x0a :: (decimal o.sequence.toNat ++ 0x0a ::
    (o.sha256 ++ 0x0a :: decimal o.sizeBytes.toNat)))

def fwManifest (o : FwOffer) (outLen : Nat) : Option Bytes :=
  let (m, n) := snprintf outLen o.manifestText
  if n ≥ outLen then none else some m

/-- The key a board trusts, and the check of a signature by it. -/
structure FwKey where
  keyId : Bytes
  pubkey : Bytes
  ed25519Check : Bytes → Bytes → Bytes → Bool

def fwCheckOfferWithKey (k : FwKey) (o : FwOffer) (installedSequence : UInt32) : FwVerdict :=
  if o.version = [] ∨ o.sha256.length ≠ 64 ∨ o.sequence = 0 ∨ o.sizeBytes = 0 then .badFields
  else if o.sizeBytes > fwMaxImageBytes then .tooBig
  else if o.sequence ≤ installedSequence then .rollback
  else if o.keyId ≠ k.keyId then .unknownKey
  else
    match fwManifest o 192 with
    | none => .badFields
    | some m => if k.ed25519Check o.signature k.pubkey m then .ok else .badSignature

def fwVerdictText : FwVerdict → Bytes
  | .ok => ascii "ok"
  | .badFields => ascii "malformed update instruction"
  | .tooBig => ascii "image larger than 2 MB"
  | .rollback => ascii "not newer than the installed release (anti-rollback)"
  | .unknownKey => ascii "signed by an unknown key"
  | .badSignature => ascii "signature does not verify"

/-- The offer's manifest verifies under the key. -/
def FwKey.Signed (k : FwKey) (o : FwOffer) : Prop :=
  o.keyId = k.keyId ∧ k.ed25519Check o.signature k.pubkey o.manifestText = true

theorem fwCheckOffer_ok (h : fwCheckOfferWithKey k o installed = .ok) :
    k.Signed o ∧ installed < o.sequence ∧ 0 < o.sizeBytes ∧ o.sizeBytes ≤ fwMaxImageBytes := by
  unfold fwCheckOfferWithKey at h
  split at h
  · cases h
  · next hfields =>
    split at h
    · cases h
    · next hsize =>
      split at h
      · cases h
      · next hseq =>
        split at h
        · cases h
        · next hkey =>
          split at h
          · cases h
          · next m hm =>
            split at h
            · next hsig =>
              rw [fwManifest] at hm
              dsimp only at hm
              split at hm
              · cases hm
              · next hfit =>
                rw [snprintf_fits (Nat.lt_of_not_le hfit)] at hm
                cases hm
                rw [not_or, not_or, not_or] at hfields
                refine ⟨⟨not_not.1 hkey, hsig⟩, UInt32.not_le.1 hseq, ?_, UInt32.not_lt.1 hsize⟩
                exact UInt32.pos_iff_ne_zero.2 hfields.2.2.2
            · cases h

-- ---------------------------------------------------------------------------
-- Different offers, different manifests
-- ---------------------------------------------------------------------------

/-- A check passed in a chain of them. -/
theorem checked {c : Prop} [Decidable c] {f : PUnit → Option α} {x : Option α}
    (h : (if c then none.bind f else x) = some a) : ¬ c ∧ x = some a := by
  split at h
  · cases h
  · next hc => exact ⟨hc, h⟩

/-- What parsing checks of the fields the manifest is made of. -/
theorem fwOfferParse_fields (h : fwOfferParse j = some o) :
    isPathSafeVersion o.version = true ∧ isHex64 o.sha256 = true := by
  simp only [fwOfferParse, bind] at h
  obtain ⟨version, -, h⟩ := Option.bind_eq_some_iff.1 h
  obtain ⟨hversion, h⟩ := checked h
  obtain ⟨sequence, -, h⟩ := Option.bind_eq_some_iff.1 h
  obtain ⟨-, h⟩ := checked h
  obtain ⟨sha256, -, h⟩ := Option.bind_eq_some_iff.1 h
  obtain ⟨hsha, h⟩ := checked h
  obtain ⟨sizeBytes, -, h⟩ := Option.bind_eq_some_iff.1 h
  obtain ⟨-, h⟩ := checked h
  obtain ⟨sig, -, h⟩ := Option.bind_eq_some_iff.1 h
  obtain ⟨signature, -, h⟩ := Option.bind_eq_some_iff.1 h
  obtain ⟨-, h⟩ := checked h
  obtain ⟨keyId, -, h⟩ := Option.bind_eq_some_iff.1 h
  obtain ⟨-, h⟩ := checked h
  cases Option.some.inj h
  rw [not_or, Bool.not_eq_false] at hversion
  exact ⟨hversion.2, Bool.not_eq_false _ ▸ hsha⟩

/-- Neither has a line break. -/
theorem fwOfferParse_lines (h : fwOfferParse j = some o) : 0x0a ∉ o.version ∧ 0x0a ∉ o.sha256 := by
  obtain ⟨hversion, hsha⟩ := fwOfferParse_fields h
  simp only [isPathSafeVersion, isHex64, Bool.and_eq_true] at hversion hsha
  refine ⟨fun hmem => ?_, fun hmem => ?_⟩
  · exact absurd (List.all_eq_true.1 hversion.1.2 _ hmem) (by decide)
  · exact absurd (List.all_eq_true.1 hsha.2 _ hmem) (by decide)

theorem decimal_lines (n : Nat) : 0x0a ∉ decimal n := fun hmem =>
  absurd (decimal_digits n _ hmem) (by decide)

theorem decimal_inj {a b : Nat} (h : decimal a = decimal b) : a = b := by
  rw [← ofDecimal_decimal a, h, ofDecimal_decimal]

theorem line_inj {a b x y : Bytes} (ha : 0x0a ∉ a) (hb : 0x0a ∉ b) (h : a ++ 0x0a :: x = b ++ 0x0a :: y) :
    a = b ∧ x = y := by
  have hp : ∀ {s : Bytes}, 0x0a ∉ s → ∀ c ∈ s, (c != 0x0a) = true := fun hs c hc =>
    bne_iff_ne.2 fun he => hs (he ▸ hc)
  obtain ⟨hab, hxy⟩ := append_inj_of_stop (hp ha) (hp hb) (by simp) (by simp) h
  exact ⟨hab, (List.cons.inj hxy).2⟩

/-- Two offers with one manifest are of one release. -/
theorem manifestText_inj (ha : fwOfferParse ja = some a) (hb : fwOfferParse jb = some b)
    (h : a.manifestText = b.manifestText) :
    a.version = b.version ∧ a.sequence = b.sequence ∧ a.sha256 = b.sha256 ∧ a.sizeBytes = b.sizeBytes := by
  obtain ⟨hav, has⟩ := fwOfferParse_lines ha
  obtain ⟨hbv, hbs⟩ := fwOfferParse_lines hb
  have hrest := (List.cons.inj (List.append_cancel_left h)).2
  obtain ⟨hversion, hrest⟩ := line_inj hav hbv hrest
  obtain ⟨hsequence, hrest⟩ := line_inj (decimal_lines _) (decimal_lines _) hrest
  obtain ⟨hsha, hsize⟩ := line_inj has hbs hrest
  exact ⟨hversion, UInt32.toNat.inj (decimal_inj hsequence), hsha, UInt32.toNat.inj (decimal_inj hsize)⟩

end WebAdf.Firmware
