import WebAdf.Poll.Body

/-!
# Whether the answer fits

The board takes a body of at most 1,663 bytes. What is left of them when the
parts without free text are counted is what the title, the label and the tag's
title may need, where a control character or half a pair is six bytes.
-/

namespace WebAdf.Poll

open Lib

-- ---------------------------------------------------------------------------
-- The board's buffer
-- ---------------------------------------------------------------------------

/-- The buffer holds what fits of what came, and says whether that is all. -/
structure BodyBuf.Has (b : BodyBuf) (came : List UInt8) : Prop where
  buf : b.buf = came.take (dcPollBodyBytes - 1)
  truncated : b.truncated = decide (dcPollBodyBytes ≤ came.length)

theorem BodyBuf.Has.sink {b : BodyBuf} (h : b.Has came) (piece : List UInt8) :
    (bodySink b piece).Has (came ++ piece) := by
  have hbuf := h.buf
  have hlen : b.buf.length = min (dcPollBodyBytes - 1) came.length := by
    rw [hbuf, List.length_take]
  have hcap : dcPollBodyBytes = 1664 := rfl
  unfold bodySink
  by_cases hpiece : piece = []
  · rw [if_pos hpiece, hpiece, List.append_nil]
    exact h
  · have hpos := List.length_pos_of_ne_nil hpiece
    rw [if_neg hpiece]
    dsimp only
    by_cases hspace : dcPollBodyBytes - 1 - b.buf.length = 0
    · rw [if_pos hspace]
      refine ⟨?_, ?_⟩
      · dsimp only
        rw [hbuf, List.take_append_of_le_length (by omega)]
      · dsimp only
        rw [List.length_append, eq_comm, decide_eq_true_eq]
        omega
    · rw [if_neg hspace]
      have hall : came.length < dcPollBodyBytes - 1 := by omega
      have hwhole : b.buf = came := hbuf.trans (List.take_of_length_le (by omega))
      refine ⟨?_, ?_⟩
      · dsimp only
        rw [hwhole, List.take_append, List.take_of_length_le (l := came) (by omega)]
      · dsimp only
        rw [h.truncated, List.length_append, hwhole, ← Bool.decide_or]
        refine decide_eq_decide.2 ?_
        omega

theorem received_truncated (pieces : List (List UInt8)) :
    (received pieces).truncated = decide (dcPollBodyBytes ≤ pieces.flatten.length) := by
  have hrun : ∀ (pieces : List (List UInt8)) (b : BodyBuf) (came : List UInt8), b.Has came →
      (pieces.foldl bodySink b).Has (came ++ pieces.flatten) := by
    intro pieces
    induction pieces with
    | nil =>
      intro b came h
      rwa [List.flatten_nil, List.append_nil]
    | cons piece pieces ih =>
      intro b came h
      rw [List.foldl_cons, List.flatten_cons, ← List.append_assoc]
      exact ih _ _ (h.sink piece)
  have hall := hrun pieces ⟨[], false⟩ [] ⟨rfl, rfl⟩
  rw [List.nil_append] at hall
  exact hall.truncated

-- ---------------------------------------------------------------------------
-- The body's bytes
-- ---------------------------------------------------------------------------

def digits (n : Int) : Nat := (decimalUnits n).length

/-- A string or null. -/
def optBytes (value : Option Units) : Nat := (value.map fun s => textBytes s + 2).getD 4

def gameText (d : DesiredRow) : Units := (d.title.getD (units "Unknown")).take dcTitleMax

def labelText (d : DesiredRow) : Units := boardDiskLabel d.label d.sourceFilename

/-- What a tag's title needs. -/
def titleBytes : NfcRow × Int × Option Units × NfcKind → Nat
  | (row, _, diskId, _) => ((nfcTitle row diskId).map textBytes).getD 0

/-- What the texts people and files give need. -/
def textsBytes (r : Reads) (q : Query) (now : Int) : Nat :=
  (if (desiredJson r.desired).isSome then
    textBytes (gameText r.desired) + textBytes (labelText r.desired) else 0) +
  ((nfcPart r q now).map titleBytes).getD 0

/-- What the rest of the desired object needs. -/
def desiredBytes (d : DesiredRow) : Nat :=
  if (desiredJson d).isSome then
    99 + textBytes (d.sha256.getD []) + textBytes (d.diskId.getD []) + textBytes (d.gameId.getD []) +
      digits (d.diskNo.getD 0) + digits (max (d.diskCount.getD 1) 1) +
      (if d.writeProtected.getD true then 4 else 5)
  else 4

def nextBytes : Option NextRow → Nat
  | none => 4
  | some n => 35 + textBytes n.diskId + textBytes n.sha256 + digits n.diskNo

def nextPartBytes (r : Reads) (q : Query) (now : Int) : Nat :=
  if q.netNext r.tick && !q.picksNet then
    8 + nextBytes (some (paulanetNext (driverDiskFor r.tick now)))
  else if (desiredJson r.desired).isSome then 8 + nextBytes r.next
  else 0

/-- What a part needs that only some boards are sent. -/
def sent (ack : Option Units) (n : Nat) : Nat := if (cursor ack).isSome then n else 0

def df1Bytes (r : Reads) (q : Query) (now : Int) : Nat :=
  23 + digits r.df1.v + optBytes
    (if q.picksNet && q.netNext r.tick then some (driverDiskFor r.tick now) else r.df1.sha256)

def xferBytes (t : PollTick) : Nat :=
  14 + digits t.sendVersion +
    (match t.netAmigaIpLast with
      | some ip => if ip = [] then 0 else textBytes ip + 8
      | none => 0)

/-- What a tag's part needs without its title. -/
def nfcBytes (r : Reads) (q : Query) (now : Int) : Nat :=
  match nfcPart r q now with
  | some (row, seq, diskId, kind) =>
    39 + digits seq + optBytes diskId + (if (nfcTitle row diskId).isSome then 2 else 4) +
      (if kind = .next then 14 else 0)
  | none => 0

def updateBytes (r : Reads) : Nat :=
  match updatePart r with
  | some u => 87 + textBytes u.version + digits u.sequence + textBytes u.sha256 + digits u.sizeBytes +
      textBytes u.signature + textBytes u.keyId
  | none => 0

/-- What the body needs besides those texts. -/
def restBytes (r : Reads) (q : Query) (now : Int) : Nat :=
  45 + digits r.desired.version + desiredBytes r.desired + nextPartBytes r q now +
    digits r.tick.instructionVersion + sent q.displayAck (18 + digits r.tick.displayVersion) +
    sent q.driveAck (36 + digits r.tick.secondDriveVersion) + sent q.df1Ack (df1Bytes r q now) +
    sent q.xferAck (xferBytes r.tick) + sent q.reqAck (13 + digits r.tick.reqVersion) +
    nfcBytes r q now + updateBytes r

-- ---------------------------------------------------------------------------
-- Parts
-- ---------------------------------------------------------------------------

/-- The keys of the body, and the words it has for values. -/
theorem keyBytes :
    textBytes (units "version") = 7 ∧ textBytes (units "desired") = 7 ∧
    textBytes (units "next") = 4 ∧ textBytes (units "instructionVersion") = 18 ∧
    textBytes (units "displayVersion") = 14 ∧ textBytes (units "secondDrive") = 11 ∧
    textBytes (units "df1") = 3 ∧ textBytes (units "xfer") = 4 ∧ textBytes (units "req") = 3 ∧
    textBytes (units "nfcWrite") = 8 ∧ textBytes (units "update") = 6 ∧
    textBytes (units "sha256") = 6 ∧ textBytes (units "diskId") = 6 ∧
    textBytes (units "gameId") = 6 ∧ textBytes (units "game") = 4 ∧
    textBytes (units "diskNo") = 6 ∧ textBytes (units "diskCount") = 9 ∧
    textBytes (units "label") = 5 ∧ textBytes (units "writeProtected") = 14 ∧
    textBytes (units "seq") = 3 ∧ textBytes (units "mode") = 4 ∧ textBytes (units "v") = 1 ∧
    textBytes (units "ip") = 2 ∧ textBytes (units "title") = 5 ∧ textBytes (units "kind") = 4 ∧
    textBytes (units "sequence") = 8 ∧ textBytes (units "sizeBytes") = 9 ∧
    textBytes (units "signature") = 9 ∧ textBytes (units "keyId") = 5 ∧
    textBytes (units "off") = 3 ∧ textBytes (units "net") = 3 := by
  decide

theorem size_jsonOf (value : Option Units) : (jsonOf value).size = optBytes value := by
  cases value <;> rfl

theorem size_desired (d : DesiredRow) :
    ((desiredJson d).getD .null).size = desiredBytes d +
      if (desiredJson d).isSome then textBytes (gameText d) + textBytes (labelText d) else 0 := by
  cases hj : desiredJson d with
  | none =>
    unfold desiredBytes
    rw [hj]
    rfl
  | some j =>
    unfold desiredBytes
    rw [hj]
    unfold desiredJson at hj
    split at hj
    · rename_i sha256 gameId diskNo diskId hsha hgame hno hdisk
      split at hj
      · cases hj
      · cases hj
        simp only [Option.getD_some, Option.isSome_some, if_true, size_of_cons, List.map_cons,
          List.map_nil, List.sum_cons, List.sum_nil, memberSize, Json.size_str, Json.size_num, Json.size_bool, keyBytes,
          hsha, hgame, hno, hdisk]
        unfold gameText labelText digits
        omega
    · cases hj

theorem size_next (n : Option NextRow) : (nextJson n).size = nextBytes n := by
  cases n with
  | none => rfl
  | some n =>
    simp only [nextJson, nextBytes, size_of_cons, List.map_cons, List.map_nil, List.sum_cons,
      List.sum_nil, memberSize, Json.size_str, Json.size_num, keyBytes, digits]
    omega

/-- The bytes of the members that are there. -/
def membersSize (l : List (String × Json)) : Nat := (l.map memberSize).sum

theorem membersSize_append (a b : List (String × Json)) :
    membersSize (a ++ b) = membersSize a + membersSize b := by
  unfold membersSize
  rw [List.map_append, List.sum_append]

theorem size_nextPart (r : Reads) (q : Query) (now : Int) :
    membersSize (member "next" (nextPart r q now)) = nextPartBytes r q now := by
  unfold nextPart nextPartBytes
  split
  · simp only [member, membersSize, List.map_cons, List.map_nil, List.sum_cons, List.sum_nil,
      memberSize, size_next, keyBytes]
    omega
  · split
    · simp only [member, membersSize, List.map_cons, List.map_nil, List.sum_cons, List.sum_nil,
        memberSize, size_next, keyBytes]
      omega
    · rfl

theorem size_sent (key : String) (ack : Option Units) (value : Json) :
    membersSize (member key ((cursor ack).map fun _ => value)) =
      sent ack (memberSize (key, value)) := by
  unfold sent
  cases cursor ack with
  | none => rfl
  | some a => exact Nat.add_zero _

theorem size_df1Part (r : Reads) (q : Query) (now : Int) :
    membersSize (member "df1" (df1Part r q now)) = sent q.df1Ack (df1Bytes r q now) := by
  unfold df1Part sent df1Bytes
  split
  · simp only [member, membersSize, size_of_cons, List.map_cons, List.map_nil, List.sum_cons,
      List.sum_nil, memberSize, Json.size_num, size_jsonOf, keyBytes, digits]
    omega
  · rfl

theorem size_xfer (v : Int) (ip : Option Units) :
    (buildXfer v ip).size = 6 + digits v +
      (match ip with
        | some ip => if ip = [] then 0 else textBytes ip + 8
        | none => 0) := by
  unfold buildXfer
  cases ip with
  | none =>
    simp only [size_of_cons, List.map_cons, List.map_nil, List.sum_cons, List.sum_nil, memberSize,
      Json.size_num, keyBytes, digits]
    omega
  | some ip =>
    dsimp only
    split
    · simp only [size_of_cons, List.map_cons, List.map_nil, List.sum_cons, List.sum_nil, memberSize,
        Json.size_num, keyBytes, digits]
      omega
    · simp only [size_of_cons, List.map_cons, List.map_nil, List.sum_cons, List.sum_nil, memberSize,
        Json.size_num, Json.size_str, keyBytes, digits]
      omega

theorem optBytes_texts (value : Option Units) :
    optBytes value = (value.map textBytes).getD 0 + if value.isSome then 2 else 4 := by
  cases value <;> rfl

theorem size_nfcWrite (row : NfcRow) (seq : Int) (diskId : Option Units) (kind : NfcKind) :
    memberSize ("nfcWrite", nfcWriteJson row (seq, diskId, kind)) =
      39 + digits seq + optBytes diskId + (if (nfcTitle row diskId).isSome then 2 else 4) +
        (if kind = .next then 14 else 0) + ((nfcTitle row diskId).map textBytes).getD 0 := by
  unfold nfcWriteJson
  dsimp only
  cases kind with
  | disk =>
    have hkind : ¬ NfcKind.disk = .next := by decide
    rw [if_neg hkind, if_neg hkind, List.append_nil]
    simp only [size_of_cons, List.map_cons, List.map_nil, List.sum_cons, List.sum_nil, memberSize,
      Json.size_num, size_jsonOf, keyBytes, digits, optBytes_texts (nfcTitle row diskId)]
    omega
  | next =>
    rw [if_pos rfl, if_pos rfl]
    simp only [List.cons_append, List.nil_append, size_of_cons, List.map_cons, List.map_nil,
      List.sum_cons, List.sum_nil, memberSize, Json.size_num, Json.size_str, size_jsonOf, keyBytes,
      digits, optBytes_texts (nfcTitle row diskId)]
    omega

theorem size_nfcPart (r : Reads) (q : Query) (now : Int) :
    membersSize (member "nfcWrite" ((nfcPart r q now).map fun (row, say) => nfcWriteJson row say)) =
      nfcBytes r q now + ((nfcPart r q now).map titleBytes).getD 0 := by
  unfold nfcBytes
  cases nfcPart r q now with
  | none => rfl
  | some part =>
    obtain ⟨row, seq, diskId, kind⟩ := part
    exact (Nat.add_zero _).trans (size_nfcWrite row seq diskId kind)

theorem size_updatePart (r : Reads) :
    membersSize (member "update" ((updatePart r).map updateJson)) = updateBytes r := by
  unfold updateBytes
  cases updatePart r with
  | none => rfl
  | some u =>
    simp only [Option.map_some, updateJson, member, membersSize, size_of_cons, List.map_cons,
      List.map_nil, List.sum_cons, List.sum_nil, memberSize, Json.size_num, Json.size_str, keyBytes,
      digits]
    omega

theorem length_mode (m : SecondDriveMode) : textBytes m.text = 3 := by
  cases m <;> decide

theorem size_object {l : List (String × Json)} (h : l ≠ []) :
    (Json.obj (.of l)).size = 1 + membersSize l := by
  cases l with
  | nil => exact absurd rfl h
  | cons m l => exact size_of_cons m l

/-- The body's bytes, texts apart. -/
theorem size_body (r : Reads) (q : Query) (now : Int) :
    (body r q now).size = restBytes r q now + textsBytes r q now := by
  unfold body
  rw [size_object (by simp)]
  simp only [membersSize_append, size_nextPart, size_sent, size_df1Part, size_nfcPart,
    size_updatePart]
  have hsecond : memberSize ("secondDrive", .obj (.of [("seq", .num r.tick.secondDriveVersion),
      ("mode", .str r.tick.secondDrive.text)])) = 36 + digits r.tick.secondDriveVersion := by
    simp only [size_of_cons, List.map_cons, List.map_nil, List.sum_cons, List.sum_nil, memberSize,
      Json.size_num, Json.size_str, keyBytes, length_mode, digits]
    omega
  have hxfer : memberSize ("xfer", buildXfer r.tick.sendVersion r.tick.netAmigaIpLast) =
      xferBytes r.tick := by
    simp only [memberSize, size_xfer, keyBytes, xferBytes]
    omega
  have hreq : memberSize ("req", buildReq r.tick.reqVersion) = 13 + digits r.tick.reqVersion := by
    simp only [buildReq, size_of_cons, List.map_cons, List.map_nil, List.sum_cons, List.sum_nil,
      memberSize, Json.size_num, keyBytes, digits]
    omega
  have hdisplay : memberSize ("displayVersion", .num r.tick.displayVersion) =
      18 + digits r.tick.displayVersion := by
    simp only [memberSize, Json.size_num, keyBytes, digits]
  have hfirst : membersSize [("version", Json.num r.desired.version),
      ("desired", (desiredJson r.desired).getD .null)] =
        22 + digits r.desired.version + ((desiredJson r.desired).getD .null).size := by
    simp only [membersSize, List.map_cons, List.map_nil, List.sum_cons, List.sum_nil, memberSize,
      Json.size_num, keyBytes, digits]
    omega
  have hinstruction : membersSize [("instructionVersion", Json.num r.tick.instructionVersion)] =
      22 + digits r.tick.instructionVersion := by
    simp only [membersSize, List.map_cons, List.map_nil, List.sum_cons, List.sum_nil, memberSize,
      Json.size_num, keyBytes, digits]
    omega
  rw [hsecond, hxfer, hreq, hdisplay, hfirst, hinstruction, size_desired]
  unfold restBytes textsBytes
  omega

theorem length_answer (h : answer r q now = some bytes) :
    bytes.length = restBytes r q now + textsBytes r q now := by
  unfold answer at h
  split at h
  · cases h
    rw [length_utf8_stringify, size_body]
  · cases h

-- ---------------------------------------------------------------------------
-- What the server stores
-- ---------------------------------------------------------------------------

/-- A column of 32 bits. -/
def Int4 (n : Int) : Prop := -2 ^ 31 ≤ n ∧ n < 2 ^ 31

/-- The sizes the server gives what is no free text. -/
structure Usual (r : Reads) : Prop where
  sha256 : ∀ s, r.desired.sha256 = some s → textBytes s ≤ 64
  diskId : ∀ s, r.desired.diskId = some s → textBytes s ≤ 36
  gameId : ∀ s, r.desired.gameId = some s → textBytes s ≤ 36
  diskNo : ∀ n, r.desired.diskNo = some n → Int4 n
  diskCount : ∀ n, r.desired.diskCount = some n → Int4 n
  next : ∀ n, r.next = some n → textBytes n.diskId ≤ 36 ∧ textBytes n.sha256 ≤ 64 ∧ Int4 n.diskNo
  df1 : ∀ s, r.df1.sha256 = some s → textBytes s ≤ 64
  release : ∀ u, r.firmware.release = some u → textBytes u.version ≤ 64 ∧ textBytes u.sha256 ≤ 64 ∧
    textBytes u.signature ≤ 88 ∧ textBytes u.keyId ≤ 64 ∧ Int4 u.sequence ∧ Int4 u.sizeBytes
  nfc : ∀ row, r.nfc = some row → Int4 row.nfcWriteSeq ∧
    ∀ s, row.nfcWriteDiskId = some s → textBytes s ≤ 36
  ip : ∀ s, r.tick.netAmigaIpLast = some s → textBytes s ≤ 15
  cursors : Int4 r.desired.version ∧ Int4 r.tick.instructionVersion ∧ Int4 r.tick.displayVersion ∧
    Int4 r.tick.secondDriveVersion ∧ Int4 r.df1.v ∧ Int4 r.tick.sendVersion ∧ Int4 r.tick.reqVersion

theorem digits_le (h : Int4 n) : digits n ≤ 11 := by
  obtain ⟨hlow, hhigh⟩ := h
  unfold digits
  cases n with
  | ofNat n =>
    have hn : n < 10 ^ 10 := by
      have hcast : (n : Int) < 2 ^ 31 := hhigh
      omega
    have hle := (Nat.length_toDigits_le_iff (b := 10) (by decide) (by decide : 0 < 10)).mpr hn
    simp only [decimalUnits, List.length_map]
    omega
  | negSucc n =>
    have hn : n + 1 < 10 ^ 10 := by omega
    have hle := (Nat.length_toDigits_le_iff (b := 10) (by decide) (by decide : 0 < 10)).mpr hn
    simp only [decimalUnits, List.length_cons, List.length_map]
    omega

/-- The units of a literal are its characters', with nothing to decode. -/
theorem textBytes_ofList (l : List Char) (h : textBytes (l.map fun c => UInt16.ofNat c.toNat) = n) :
    textBytes (units (String.ofList l)) = n := by
  rw [units, String.toList_ofList, h]

theorem older_bytes : ∀ s ∈ paulanetDiskOlder, textBytes s = 64 := by
  simp only [paulanetDiskOlder, List.forall_mem_cons, List.not_mem_nil, false_implies, implies_true, and_true]
  refine ⟨?_, ?_, ?_, ?_, ?_, ?_, ?_, ?_, ?_,
    ?_, ?_, ?_, ?_, ?_, ?_, ?_, ?_, ?_⟩
  all_goals exact textBytes_ofList _ (by decide)

theorem driverDisk_bytes (t : PollTick) (now : Int) : textBytes (driverDiskFor t now) = 64 := by
  have hcurrent : textBytes paulanetDiskSha256 = 64 := textBytes_ofList _ (by decide)
  unfold driverDiskFor
  split
  · split
    · rename_i held
      exact older_bytes _ (List.contains_iff_mem.1 held.1)
    · exact hcurrent
  · exact hcurrent

theorem optBytes_le {value : Option Units} (h : ∀ s, value = some s → textBytes s ≤ n) (hn : 2 ≤ n) :
    optBytes value ≤ n + 2 := by
  cases value with
  | none =>
    change 4 ≤ n + 2
    omega
  | some s => exact Nat.add_le_add_right (h s rfl) 2

theorem getD_bytes {value : Option Units} (h : ∀ s, value = some s → textBytes s ≤ n) :
    textBytes (value.getD []) ≤ n := by
  cases value with
  | none => exact Nat.zero_le n
  | some s => exact h s rfl

section
variable {r : Reads} (h : Usual r)
include h

theorem desiredBytes_le : desiredBytes r.desired ≤ 262 := by
  have hsha := getD_bytes h.sha256
  have hdisk := getD_bytes h.diskId
  have hgame := getD_bytes h.gameId
  have hno : digits (r.desired.diskNo.getD 0) ≤ 11 := by
    cases hn : r.desired.diskNo with
    | none => decide
    | some n => exact digits_le (h.diskNo n hn)
  have hcount : digits (max (r.desired.diskCount.getD 1) 1) ≤ 11 := by
    refine digits_le ?_
    cases hn : r.desired.diskCount with
    | none => exact ⟨by decide, by decide⟩
    | some n =>
      obtain ⟨hlow, hhigh⟩ := h.diskCount n hn
      rw [Option.getD_some]
      exact ⟨by omega, by omega⟩
  unfold desiredBytes
  split
  · split <;> omega
  · omega

theorem nextPartBytes_le (q : Query) (now : Int) : nextPartBytes r q now ≤ 154 := by
  unfold nextPartBytes
  split
  · have hsha := driverDisk_bytes r.tick now
    have hid : textBytes (units "paulanet") = 8 := by decide
    have hno : digits 1 = 1 := by decide
    unfold nextBytes paulanetNext
    dsimp only
    omega
  · split
    · cases hn : r.next with
      | none => exact (by decide : 8 + nextBytes none ≤ 154)
      | some n =>
        obtain ⟨hid, hsha, hno⟩ := h.next n hn
        have hdigits := digits_le hno
        unfold nextBytes
        dsimp only
        omega
    · omega

theorem df1Bytes_le (q : Query) (now : Int) : df1Bytes r q now ≤ 100 := by
  obtain ⟨-, -, -, -, hv, -⟩ := h.cursors
  have hdigits := digits_le hv
  unfold df1Bytes
  split
  · have hsha := driverDisk_bytes r.tick now
    have hopt : optBytes (some (driverDiskFor r.tick now)) = textBytes (driverDiskFor r.tick now) + 2 :=
      rfl
    omega
  · have hopt := optBytes_le h.df1 (by decide)
    omega

theorem xferBytes_le : xferBytes r.tick ≤ 48 := by
  obtain ⟨-, -, -, -, -, hv, -⟩ := h.cursors
  have hdigits := digits_le hv
  unfold xferBytes
  split
  · rename_i ip hip
    have hbytes := h.ip ip hip
    split <;> omega
  · omega

theorem nfcBytes_le (q : Query) (now : Int) : nfcBytes r q now ≤ 106 := by
  unfold nfcBytes
  split
  · rename_i row seq diskId kind hpart
    have hbounds : digits seq ≤ 11 ∧ optBytes diskId ≤ 38 := by
      unfold nfcPart at hpart
      split at hpart
      · rename_i ack row' hack hrow
        split at hpart
        · obtain ⟨say, hsay, heq⟩ := Option.map_eq_some_iff.1 hpart
          obtain ⟨hseq, hid⟩ := h.nfc row' hrow
          have hwrite : say.1 = row'.nfcWriteSeq ∧
              (say.2.1 = none ∨ say.2.1 = row'.nfcWriteDiskId) := by
            unfold nfcWriteForPoll at hsay
            split at hsay
            · cases hsay
            · dsimp only at hsay
              split at hsay
              · cases hsay
                exact ⟨rfl, .inl rfl⟩
              · split at hsay
                · cases hsay
                  exact ⟨rfl, .inl rfl⟩
                · cases hsay
                  exact ⟨rfl, .inr rfl⟩
          cases heq
          obtain ⟨hone, htwo⟩ := hwrite
          dsimp only at hone htwo
          refine ⟨hone ▸ digits_le hseq, ?_⟩
          rcases htwo with hnone | hsame
          · rw [hnone]
            decide
          · rw [hsame]
            exact optBytes_le hid (by decide)
        · cases hpart
      · cases hpart
    obtain ⟨hseq, hid⟩ := hbounds
    split <;> split <;> omega
  · omega

theorem updateBytes_le : updateBytes r ≤ 389 := by
  unfold updateBytes
  split
  · rename_i u hu
    have hrelease : r.firmware.release = some u := by
      unfold updatePart firmwareInstruction at hu
      split at hu
      · split at hu
        · rename_i hfound
          split at hu
          · cases hu
          · cases hu
            exact hfound
        · cases hu
      · cases hu
    obtain ⟨hversion, hsha, hsignature, hkey, hsequence, hsize⟩ := h.release u hrelease
    have hseqDigits := digits_le hsequence
    have hsizeDigits := digits_le hsize
    omega
  · omega

theorem restBytes_le (q : Query) (now : Int) : restBytes r q now ≤ 1226 := by
  obtain ⟨hversion, hinstruction, hdisplay, hdrive, -, -, hreq⟩ := h.cursors
  have hv := digits_le hversion
  have hi := digits_le hinstruction
  have hd := digits_le hdisplay
  have hs := digits_le hdrive
  have hr := digits_le hreq
  have hsent : ∀ ack n, sent ack n ≤ n := by
    intro ack n
    unfold sent
    split <;> omega
  have h₁ := hsent q.displayAck (18 + digits r.tick.displayVersion)
  have h₂ := hsent q.driveAck (36 + digits r.tick.secondDriveVersion)
  have h₃ := hsent q.df1Ack (df1Bytes r q now)
  have h₄ := hsent q.xferAck (xferBytes r.tick)
  have h₅ := hsent q.reqAck (13 + digits r.tick.reqVersion)
  have h₆ := desiredBytes_le h
  have h₇ := nextPartBytes_le h q now
  have h₈ := df1Bytes_le h q now
  have h₉ := xferBytes_le h
  have h₁₀ := nfcBytes_le h q now
  have h₁₁ := updateBytes_le h
  unfold restBytes
  omega

end

-- ---------------------------------------------------------------------------
-- The answer at the board
-- ---------------------------------------------------------------------------

/-- However the answer's bytes come in, the board has all of it. -/
def Taken (r : Reads) (q : Query) (now : Int) : Prop :=
  ∀ bytes, answer r q now = some bytes → ∀ pieces : List (List UInt8), pieces.flatten = bytes →
    (received pieces).truncated = false

theorem taken_of_fits (h : textsBytes r q now + restBytes r q now < dcPollBodyBytes) :
    Taken r q now := by
  intro bytes hbytes pieces hpieces
  have hlen := length_answer hbytes
  rw [received_truncated, hpieces, decide_eq_false_iff_not]
  omega

theorem not_taken (hmoved : moved q r.tick = true)
    (h : dcPollBodyBytes ≤ textsBytes r q now + restBytes r q now) : ¬ Taken r q now := by
  intro htaken
  have hanswer : answer r q now = some (utf8 (body r q now).stringify) := if_pos hmoved
  have hlen := length_answer hanswer
  have hlost := htaken _ hanswer [utf8 (body r q now).stringify] (List.flatten_singleton ..)
  rw [received_truncated, List.flatten_singleton, decide_eq_false_iff_not] at hlost
  omega

/-- A title of control characters. -/
def bells (n : Nat) : Units := List.replicate n 7

def digest : Units := List.replicate 64 0x61

def rowId : Units := List.replicate 36 0x62

/-- A mounted disk, an update and a tag to write, all of titles of control
characters. -/
def loud : Reads where
  tick := {
    version := 5000
    instructionVersion := 12
    instructionAck := 11
    nfcWriteSeq := 9
    displayVersion := 31
    secondDriveVersion := 14
    secondDrive := .df1
    secondDriveReported := none
    secondDriveAppliedVersion := none
    netNextSentVersion := none
    df1Version := 22
    sendVersion := 3400
    reqVersion := 5600
    netAmigaIpLast := some (units "192.168.100.100")
    df1Sha256 := none
    netDriverSeenAt := none }
  desired := {
    version := 5000
    sha256 := some digest
    diskId := some rowId
    gameId := some rowId
    diskNo := some 1
    title := some (bells 60)
    label := some (bells 30)
    sourceFilename := some (units "disk.adf")
    writeProtected := some false
    diskCount := some 13 }
  next := some ⟨rowId, digest, 2⟩
  df1 := ⟨22, some digest⟩
  firmware := {
    want := some (units "1.23.1+gd16a1da")
    release := some {
      version := units "1.23.1+gd16a1da"
      sequence := 97
      sha256 := digest
      sizeBytes := 812345
      signature := List.replicate 88 0x63
      keyId := List.replicate 16 0x64
      signatureFormat := 2 } }
  nfc := some {
    nfcWriteSeq := 9
    nfcWriteDiskId := some rowId
    nfcWriteKind := .disk
    nfcWriteExpiresAt := some 1000
    nfcWriteResultSeq := none
    title := some (bells 60) }

def asking : Query where
  since := some (units "4999")
  nfcAck := some (units "8")
  displayAck := some (units "31")
  driveAck := some (units "14")
  df1Ack := some (units "22")
  netPick := some (units "1")
  xferAck := some (units "3400")
  reqAck := some (units "5600")

theorem usual_loud : Usual loud := by
  have hdigest : textBytes digest = 64 := by decide
  have hid : textBytes rowId = 36 := by decide
  refine ⟨?_, ?_, ?_, ?_, ?_, ?_, ?_, ?_, ?_, ?_, ?_⟩
  · rintro s ⟨⟩
    exact hdigest.le
  · rintro s ⟨⟩
    exact hid.le
  · rintro s ⟨⟩
    exact hid.le
  · rintro n ⟨⟩
    exact ⟨by decide, by decide⟩
  · rintro n ⟨⟩
    exact ⟨by decide, by decide⟩
  · rintro n ⟨⟩
    exact ⟨hid.le, hdigest.le, by decide, by decide⟩
  · rintro s ⟨⟩
    exact hdigest.le
  · rintro u ⟨⟩
    exact ⟨by decide, hdigest.le, by decide, by decide, ⟨by decide, by decide⟩,
      ⟨by decide, by decide⟩⟩
  · rintro row ⟨⟩
    refine ⟨⟨by decide, by decide⟩, ?_⟩
    rintro s ⟨⟩
    exact hid.le
  · rintro s ⟨⟩
    decide
  · exact ⟨⟨by decide, by decide⟩, ⟨by decide, by decide⟩, ⟨by decide, by decide⟩,
      ⟨by decide, by decide⟩, ⟨by decide, by decide⟩, ⟨by decide, by decide⟩,
      ⟨by decide, by decide⟩⟩

end WebAdf.Poll
