import WebAdf.Browse.Answers
import WebAdf.Browse.Requests

/-!
# The browse protocol agrees

A request the server makes is the one Transfer keeps, and what Transfer puts is
what the server reads: line by line, and for a whole listing. The path of an
object, an argument of a later protocol, and a date or a comment beyond the wire
are where the lines alone promise less.
-/

namespace WebAdf.Browse

open Lib Send
open Receive (Dent Fs ReqKind Session Vol)

variable {φ : Type}

theorem text_latin1 (h : Plain s) : text (latin1 s) = s := by
  unfold text latin1
  rw [List.map_map]
  refine (List.map_congr_left fun u hu => ?_).trans (List.map_id s)
  have hto := byte_toNat (h u hu)
  apply UInt16.toNat_inj.1
  change (UInt16.ofNat (UInt8.ofNat u.toNat).toNat).toNat = u.toNat
  rw [unit_toNat, hto]

theorem Rid.plain (h : Rid rid) : Plain rid := by
  intro u hu
  have hunit := h.units u hu
  unfold ridUnit at hunit
  simp only [Bool.or_eq_true, Bool.and_eq_true, decide_eq_true_eq, beq_iff_eq] at hunit
  rcases hunit with (((h | h) | h) | rfl) | rfl
  · exact UInt16.le_trans h.2 (by decide)
  · exact UInt16.le_trans h.2 (by decide)
  · exact UInt16.le_trans h.2 (by decide)
  · decide
  · decide

/-- The codes of Transfer's refusals; a DOS error's is `errCode`'s. -/
def refusals : List String :=
  ["off", "busy", "toolarge", "bad", "io", "readonly", "xvol", "notempty"]

theorem code_refusal : ∀ code ∈ refusals, Code code := by decide

/-- A tag has nine digits at most. -/
theorem upAddFront_tag (fs : Fs φ) (s : Session φ) (path name rid : List UInt8) :
    (s.upAddFront fs path name rid).1 ≤ 999999999 := by
  unfold Session.upAddFront Session.upAddAt
  split
  · exact Nat.zero_le _
  · split
    · exact Nat.zero_le _
    · split
      · exact Nat.zero_le _
      · dsimp only
        split
        · exact Nat.zero_le _
        · dsimp only
          split <;> omega

/-- The GOT of a request's file. -/
def gotLine (fs : Fs φ) (s : Session φ) (path name : List UInt8) : Session φ :=
  s.puts [ascii "GOT ", s.req.id, ascii " ",
    decimal (s.upAddFront fs path name s.req.id).1, ascii "\n"]

/-- Each line Transfer puts while there is room for one, and what the server reads
in it. -/
structure LinesRead (fs : Fs φ) (s : Session φ) : Prop where
  vol : ∀ v : Vol, Receive.nameSendable v.name = true → Receive.deviceSendable v.device = true →
    v.size < 2 ^ 32 → v.free < 2 ^ 32 → Puts s.req.id s (s.volLine v) [volAnswer v]
  ent : ∀ e : Dent, Receive.nameSendable e.name = true → e.size < 2 ^ 32 → e.prot < 2 ^ 32 →
    Puts s.req.id s (s.entLine e) [entAnswer e]
  del : s.req.count ≤ 1000000 → Puts s.req.id s s.putDel [.del s.req.count]
  done : s.req.count ≤ 1000000 → ∀ cut, Puts s.req.id s (s.reqDone fs cut) [.done s.req.count cut]
  got : ∀ path name, Puts s.req.id s (gotLine fs s path name)
    [.got (text (decimal (s.upAddFront fs path name s.req.id).1))]
  refused : ∀ code ∈ refusals, ∀ why, Puts s.req.id s (s.reqFailText fs code why)
    [.err (units code) (text (Receive.clean why 80))]
  failed : ∀ err wantDir, ∃ why, Puts s.req.id s (s.reqFail fs err wantDir)
    [.err (units (Receive.errCode err wantDir)) why]

theorem linesRead (fs : Fs φ) {s : Session φ} (hid : ReqId s.req.id) (hroom : s.hasRoom = true) :
    LinesRead fs s where
  vol _ hname hdevice hsize hfree := (volLine_puts hid hroom hname hdevice hsize hfree).1
  ent _ hname hsize hprot := (entLine_puts hid hroom hname hsize hprot).1
  del hcount := putDel_puts hid hroom hcount
  done hcount cut := reqDone_puts fs hid hroom hcount cut
  got path name := got_puts hid hroom (upAddFront_tag fs s path name s.req.id)
  refused code hcode why := reqFailText_puts fs hid hroom (code_refusal code hcode) why
  failed err wantDir := reqFail_puts fs hid hroom err wantDir

-- ---------------------------------------------------------------------------
-- Agreement
-- ---------------------------------------------------------------------------

/-- Both ends agree: on the request's id, on every request the server makes, on every
line of an answer, and on a volume list's and a drawer's answer as a whole, each
entry that can be sent in its place. -/
theorem lines_agree (fs : Fs φ) :
    (∀ rid, Rid rid → text (latin1 rid) = rid ∧ ReqId (latin1 rid)) ∧
      (∀ (r : RequestRow) (s : Session φ), Legal s.peerV r → Listens s r.kind →
        s.feed fs (latin1 (requestLine r)) = (true, waitFor s r)) ∧
      (∀ s : Session φ, ReqId s.req.id → s.hasRoom = true → LinesRead fs s) ∧
      (∀ (s : Session φ) (k : Nat), Walks s → ∃ n tail, Ending tail ∧
        Puts s.req.id s (s.pumpVols fs k)
          ((sendableVols ((s.vols.drop s.req.i).take n)).map volAnswer ++ tail)) ∧
      (∀ s : Session φ, Fs.Words fs → ReqId s.req.id → s.req.count ≤ Receive.entMax →
        ∃ es d tail, Listed fs s.disk es d ∧ Ending tail ∧
          Puts s.req.id s (s.pumpDir fs) ((sendable es).map entAnswer ++ tail)) :=
  ⟨fun _ hrid => ⟨text_latin1 hrid.plain, reqId_of_idOk hrid.idOk⟩,
    fun _ _ h hl => feed_request fs h hl,
    fun _ hid hroom => linesRead fs hid hroom,
    fun _ k h => pumpVols_puts fs k h,
    fun _ hfs hid hcount => pumpDir_puts fs hfs hid hcount⟩

/-- MKDIR of a volume itself. -/
def mkdirVolume : RequestRow :=
  { id := units "abcdefghijklmnopqrstuv", kind := .mkdir, amigaPath := units "Work:"
    target := { renamed := none, protection := none, comment := none, one := false
                drawerIcon := false } }

/-- The listing of a volume's root. -/
def dirOfWork : RequestRow := { mkdirVolume with kind := .dir }

/-- A session with browsing on, where nothing moves. -/
def browsing : Session Receive.Ram :=
  { disk := {}, upq := some { browse := true }, peerV := 6, trust := .ok }

theorem dirOfWork_read :
    Legal browsing.peerV dirOfWork ∧ Listens browsing dirOfWork.kind ∧
      browsing.feed Receive.Ram.fs (latin1 (requestLine dirOfWork)) =
        (true, waitFor browsing dirOfWork) := by
  have hlegal : Legal browsing.peerV dirOfWork :=
    { id := ⟨by decide, by decide⟩
      path := fun _ => ⟨by decide, [units "Work"], _, rfl, rfl, fun h => by cases h⟩
      renamed := fun h => by cases h
      comment := fun h => by cases h
      one := fun h => by cases h
      icon := fun h => by cases h }
  have hlistens : Listens browsing dirOfWork.kind :=
    { lines := ⟨rfl, rfl, rfl, rfl⟩
      browse := by decide
      write := fun h => by cases h
      free := rfl }
  exact ⟨hlegal, hlistens, (lines_agree Receive.Ram.fs).2.1 dirOfWork browsing hlegal hlistens⟩

/-- The entry as the Amiga has it. -/
def entExact (e : Dent) : AnswerLine :=
  .ent ⟨text e.name, e.isDir, e.size, e.prot, amigaDateIso e.days e.mins e.ticks, text e.comment⟩

/-- A file dated past the wire's digits, with a bell in its comment. -/
def oddFile : Dent :=
  { isDir := false, size := 1, prot := 0, days := 1000000, mins := 0, ticks := 0, isLink := false
    name := ascii "a", comment := [0x07] }

theorem blank_not_r : Receive.blank ∉ ascii "r" := by decide

/-- An entry with a date and a comment beyond the wire is read as another; a write to a
path without a name behind the volume is not read at all. -/
theorem lines_differ :
    (Receive.nameSendable oddFile.name = true ∧
      parseAnswerLine (units "r") (text (answerBytes "ENT" (ascii "r") (entFields oddFile))) =
        some (.ent ⟨units "a", false, 1, 0, units "1978-01-01T00:00:00.000Z", units " "⟩) ∧
      entExact oddFile ≠ .ent ⟨units "a", false, 1, 0, units "1978-01-01T00:00:00.000Z", units " "⟩) ∧
    ((amigaPathOf [units "Work"]).map AmigaPath.amigaPath = some mkdirVolume.amigaPath ∧
      ({ disk := (), peerV := 6 } : Session Unit).reqFields (fields mkdirVolume) .mkdir = none) := by
  have hread := parse_ent (e := oddFile) blank_not_r (by decide) (by decide) (by decide)
  have hdate : amigaDateIso 0 0 0 = units "1978-01-01T00:00:00.000Z" := by decide
  have hanswer : entAnswer oddFile = .ent ⟨units "a", false, 1, 0, amigaDateIso 0 0 0, units " "⟩ := rfl
  rw [hanswer, hdate] at hread
  refine ⟨⟨by decide, hread, fun h => ?_⟩, by decide, by decide⟩
  have hcomment : text oddFile.comment = units " " :=
    (EntryInfo.mk.inj (AnswerLine.ent.inj h)).2.2.2.2.2
  exact absurd hcomment (by decide)

end WebAdf.Browse
