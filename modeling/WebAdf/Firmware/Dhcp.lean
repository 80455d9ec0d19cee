import Mathlib.Data.List.FinRange
import Mathlib.Tactic.Common
import WebAdf.Constants
import WebAdf.Lib.Lru
import WebAdf.Lib.Slice

/-!
# The access point's addresses

`dhcp_handle` of the setup access point: a table of a few leases, the walk over a
request's options and the reply. A read of the request and a write of the reply are
checked, and `none` where one would go past its end.
-/

namespace WebAdf.Firmware.Dhcp

open Lib

abbrev poolSize : Nat := 2

def headerLen : Nat := 240

def bootRequest : UInt8 := 1
def bootReply : UInt8 := 2

def discover : UInt8 := 1
def offer : UInt8 := 2
def request : UInt8 := 3
def ack : UInt8 := 5

def optMsgType : UInt8 := 53
def optSubnetMask : UInt8 := 1
def optRouter : UInt8 := 3
def optDns : UInt8 := 6
def optLeaseTime : UInt8 := 51
def optServerId : UInt8 := 54
def optEnd : UInt8 := 255

def cookie : Bytes := [0x63, 0x82, 0x53, 0x63]

-- ---------------------------------------------------------------------------
-- The leases
-- ---------------------------------------------------------------------------

structure Lease where
  used : Bool
  mac : Bytes
  stamp : UInt32
  lastType : UInt8
  answered : UInt32

/-- The clock is an `unsigned long`, of 32 bits on the board. -/
structure Pool where
  lease : Fin poolSize → Lease
  clock : UInt32

def resetLeases : Pool := ⟨fun _ => ⟨false, List.replicate 6 0, 0, 0, 0⟩, 0⟩

def Pool.set (p : Pool) (i : Fin poolSize) (l : Lease) : Pool :=
  { p with lease := Function.update p.lease i l }

def findLease (p : Pool) (mac : Bytes) : Option (Fin poolSize) :=
  (List.finRange poolSize).find? fun i => (p.lease i).used && (p.lease i).mac == mac

/-- The slot of the smallest stamp, the first of them. -/
def lruSlot (p : Pool) : Fin poolSize :=
  (List.finRange poolSize).tail.foldl
    (fun lru i => if (p.lease i).stamp < (p.lease lru).stamp then i else lru) 0

def leaseFor (p : Pool) (mac : Bytes) : Fin poolSize × Pool :=
  let p := { p with clock := p.clock + 1 }
  match findLease p mac with
  | some i => (i, p.set i { p.lease i with stamp := p.clock })
  | none =>
    match (List.finRange poolSize).find? fun i => !(p.lease i).used with
    | some i => (i, p.set i ⟨true, mac, p.clock, 0, 0⟩)
    | none =>
      let i := lruSlot p
      (i, p.set i { p.lease i with mac := mac, stamp := p.clock, lastType := 0, answered := 0 })

/-- A message answered, for the diagnostics. -/
def Pool.note (p : Pool) (i : Fin poolSize) (msgType : UInt8) : Pool :=
  p.set i { p.lease i with lastType := msgType, answered := (p.lease i).answered + 1 }

-- ---------------------------------------------------------------------------
-- The packet
-- ---------------------------------------------------------------------------

def load (req : Bytes) (off n : Nat) : Option Bytes :=
  if off + n ≤ req.length then some (slice req off n) else none

def store (out : Bytes) (off : Nat) (bs : Bytes) : Option Bytes :=
  if off + bs.length ≤ out.length then some (blit out off bs) else none

/-- The message type from option `i` on, 0 where there is none. -/
def optionMsgType (req : Bytes) (i : Nat) : Option UInt8 :=
  if h : i < req.length then do
    let code ← req[i]?
    if code = optEnd then some 0
    else if code = 0 then optionMsgType req (i + 1)
    else if i + 1 ≥ req.length then some 0
    else
      let optLen ← req[i + 1]?
      if i + 2 + optLen.toNat > req.length then some 0
      else if code = optMsgType ∧ optLen ≥ 1 then req[i + 2]?
      else optionMsgType req (i + 2 + optLen.toNat)
  else some 0
termination_by req.length - i

structure Put where
  out : Bytes
  pos : Nat
  fits : Bool

def putOpt (out : Bytes) (pos : Nat) (code : UInt8) (data : Bytes) : Option Put :=
  if pos + 2 + data.length > out.length then some ⟨out, pos, false⟩
  else do
    let out ← store out pos [code]
    let out ← store out (pos + 1) [UInt8.ofNat data.length]
    let out ← store out (pos + 2) data
    some ⟨out, pos + 2 + data.length, true⟩

/-- Options one after another, up to the first that does not fit. -/
def putOpts (out : Bytes) (pos : Nat) : List (UInt8 × Bytes) → Option Put
  | [] => some ⟨out, pos, true⟩
  | (code, data) :: opts => do
    let put ← putOpt out pos code data
    if put.fits then putOpts put.out put.pos opts else some put

def serverId : Bytes := [192, 168, 4, 1]

def address (slot : Fin poolSize) : Bytes := [192, 168, 4, UInt8.ofNat (16 + slot)]

def replyOptions (msgType : UInt8) : List (UInt8 × Bytes) :=
  [(optMsgType, [if msgType = discover then offer else ack]), (optSubnetMask, [255, 255, 255, 0]),
    (optRouter, serverId), (optDns, serverId), (optLeaseTime, [0x00, 0x00, 0x0e, 0x10]),
    (optServerId, serverId)]

structure Handled where
  pool : Pool
  out : Bytes
  len : Nat

/-- The reply's header: all zeros, then the fields. -/
def putHeader (req out mac yiaddr : Bytes) : Option Bytes := do
  let htype ← load req 1 1
  let hlen ← load req 2 1
  let xid ← load req 4 4
  let out ← store out 0 (List.replicate headerLen 0)
  [(0, [bootReply]), (1, htype), (2, hlen), (4, xid), (16, yiaddr), (28, mac),
    (236, cookie)].foldlM (fun out field => store out field.1 field.2) out

/-- `out` is the buffer, of the reply's whole capacity. -/
def dhcpHandle (p : Pool) (req out : Bytes) : Option Handled :=
  if req.length < headerLen then some ⟨p, out, 0⟩
  else do
    let op ← req[0]?
    if op ≠ bootRequest then some ⟨p, out, 0⟩ else
    let magic ← load req 236 4
    if magic ≠ cookie then some ⟨p, out, 0⟩ else
    let msgType ← optionMsgType req headerLen
    if msgType ≠ discover ∧ msgType ≠ request then some ⟨p, out, 0⟩ else
    let mac ← load req 28 6
    -- the lease is taken before the reply is known to fit
    let slot := (leaseFor p mac).1
    let p := (leaseFor p mac).2
    if out.length < headerLen then some ⟨p, out, 0⟩ else
    let out ← putHeader req out mac (address slot)
    let put ← putOpts out headerLen (replyOptions msgType)
    if !put.fits then some ⟨p, put.out, 0⟩
    else if put.pos + 1 > put.out.length then some ⟨p, put.out, 0⟩
    else
      let out ← store put.out put.pos [optEnd]
      some ⟨p.note slot msgType, out, put.pos + 1⟩

end WebAdf.Firmware.Dhcp

/-!
# An address kept

What the access point answers, packet after packet: no access goes past the request
or the reply, no address is held by two at once, and a client that asks again has its
address while fewer others than there are leases have asked. The last is about the
lease clock, and holds while it has not gone round.
-/

namespace WebAdf.Firmware.Dhcp

open Lib

-- ---------------------------------------------------------------------------
-- Loads and stores
-- ---------------------------------------------------------------------------

theorem load_ok {req : Bytes} (h : off + n ≤ req.length) : load req off n = some (slice req off n) :=
  if_pos h

theorem store_ok {out bs : Bytes} (h : off + bs.length ≤ out.length) :
    store out off bs = some (blit out off bs) := if_pos h

theorem optionMsgType_total (req : Bytes) (i : Nat) : ∃ t, optionMsgType req i = some t := by
  induction hn : req.length - i using Nat.strong_induction_on generalizing i with
  | _ n ih =>
    subst hn
    rw [optionMsgType]
    split
    · rename_i hi
      rw [List.getElem?_eq_getElem hi, Option.bind_eq_bind, Option.bind_some]
      split
      · exact ⟨_, rfl⟩
      split
      · exact ih _ (by omega) _ rfl
      split
      · exact ⟨_, rfl⟩
      · rename_i hlen
        rw [List.getElem?_eq_getElem (by omega), Option.bind_some]
        split
        · exact ⟨_, rfl⟩
        · rename_i hbody
          split
          · rename_i hcode
            have hone := UInt8.le_iff_toNat_le.mp hcode.2
            have hsize : (1 : UInt8).toNat = 1 := rfl
            exact ⟨_, List.getElem?_eq_getElem (by omega)⟩
          · exact ih _ (by omega) _ rfl
    · exact ⟨_, rfl⟩

-- ---------------------------------------------------------------------------
-- The reply
-- ---------------------------------------------------------------------------

def tlv (o : UInt8 × Bytes) : Bytes := o.1 :: UInt8.ofNat o.2.length :: o.2

def optionList (opts : List (UInt8 × Bytes)) : Bytes := opts.flatMap tlv

theorem length_tlv (o : UInt8 × Bytes) : (tlv o).length = 2 + o.2.length := by
  rw [tlv, List.length_cons, List.length_cons]
  omega

theorem putOpt_fits (h : pos + 2 + data.length ≤ out.length) :
    putOpt out pos code data = some ⟨blit out pos (tlv (code, data)), pos + 2 + data.length, true⟩ := by
  rw [putOpt, if_neg (by omega), store_ok (by simp only [List.length_singleton]; omega)]
  have h1 : (blit out pos [code]).length = out.length :=
    length_blit (by simp only [List.length_singleton]; omega)
  have hcode : blit (blit out pos [code]) (pos + 1) [UInt8.ofNat data.length] =
      blit out pos ([code] ++ [UInt8.ofNat data.length]) :=
    blit_append (by simp only [List.length_singleton]; omega) rfl
  rw [Option.bind_eq_bind, Option.bind_some,
    store_ok (by simp only [List.length_singleton]; omega), Option.bind_some, hcode]
  have h2 : (blit out pos ([code] ++ [UInt8.ofNat data.length])).length = out.length :=
    length_blit (by simp only [List.length_append, List.length_singleton]; omega)
  rw [store_ok (by omega), Option.bind_some,
    blit_append (by simp only [List.length_append, List.length_singleton]; omega) (by rfl)]
  rfl

theorem putOpt_refused (h : out.length < pos + 2 + data.length) :
    putOpt out pos code data = some ⟨out, pos, false⟩ := if_pos (by omega)

theorem putOpts_fits (h : pos + (optionList opts).length ≤ out.length) :
    putOpts out pos opts = some ⟨blit out pos (optionList opts), pos + (optionList opts).length, true⟩ := by
  induction opts generalizing out pos with
  | nil =>
    rw [putOpts]
    simp [optionList, blit]
  | cons o opts ih =>
    obtain ⟨code, data⟩ := o
    have hlen := length_tlv (code, data)
    have hmore : optionList ((code, data) :: opts) = tlv (code, data) ++ optionList opts := rfl
    rw [hmore, List.length_append] at h ⊢
    dsimp only at hlen
    rw [putOpts, putOpt_fits (by omega), Option.bind_eq_bind, Option.bind_some]
    dsimp only
    rw [if_pos rfl, ih (by rw [length_blit (by omega)]; omega),
      blit_append (by omega) (by omega), hlen]
    congr 2
    omega

theorem putOpts_refused (hpos : pos ≤ out.length)
    (h : out.length < pos + (optionList opts).length) :
    ∃ out' pos', putOpts out pos opts = some ⟨out', pos', false⟩ ∧ out'.length = out.length := by
  induction opts generalizing out pos with
  | nil => exact absurd h (Nat.not_lt_of_le hpos)
  | cons o opts ih =>
    obtain ⟨code, data⟩ := o
    have hlen := length_tlv (code, data)
    have hmore : optionList ((code, data) :: opts) = tlv (code, data) ++ optionList opts := rfl
    rw [hmore, List.length_append] at h
    dsimp only at hlen
    rw [putOpts]
    by_cases hfits : pos + 2 + data.length ≤ out.length
    · have hsame : (blit out pos (tlv (code, data))).length = out.length := length_blit (by omega)
      rw [putOpt_fits hfits, Option.bind_eq_bind, Option.bind_some]
      dsimp only
      rw [if_pos rfl, ← hsame]
      exact ih (by omega) (by omega)
    · rw [putOpt_refused (by omega), Option.bind_eq_bind, Option.bind_some]
      exact ⟨_, _, rfl, rfl⟩

theorem blit_blit {xs ys zs : Bytes} (h : off + zs.length ≤ ys.length) (hx : ys.length ≤ xs.length) :
    blit (blit xs 0 ys) off zs = blit xs 0 (blit ys off zs) := by
  have hout : blit xs 0 ys = ys ++ xs.drop ys.length := by simp [blit]
  have hlen := length_blit h
  rw [hout]
  simp only [blit, List.take_zero, List.nil_append, Nat.zero_add] at hlen ⊢
  rw [hlen, List.take_append_of_le_length (by omega), List.drop_append_of_le_length (by omega)]
  simp only [List.append_assoc]

theorem length_blits {xs : Bytes} {ws : List (Nat × Bytes)}
    (h : ∀ w ∈ ws, w.1 + w.2.length ≤ xs.length) :
    (ws.foldl (fun xs w => blit xs w.1 w.2) xs).length = xs.length := by
  induction ws generalizing xs with
  | nil => rfl
  | cons w ws ih =>
    rw [List.forall_mem_cons] at h
    have hlen := length_blit h.1
    rw [List.foldl_cons, ih (by rw [hlen]; exact h.2), hlen]

/-- Fields stored in a block at the front of a buffer. -/
theorem stores_front {xs ys : Bytes} {ws : List (Nat × Bytes)} (hx : ys.length ≤ xs.length)
    (h : ∀ w ∈ ws, w.1 + w.2.length ≤ ys.length) :
    ws.foldlM (fun out w => store out w.1 w.2) (blit xs 0 ys) =
      some (blit xs 0 (ws.foldl (fun ys w => blit ys w.1 w.2) ys)) := by
  induction ws generalizing ys with
  | nil => rfl
  | cons w ws ih =>
    rw [List.forall_mem_cons] at h
    have hlen := length_blit h.1
    have hout : (blit xs 0 ys).length = xs.length := length_blit (by omega)
    rw [List.foldlM_cons, store_ok (by omega), Option.bind_eq_bind, Option.bind_some,
      blit_blit h.1 hx, ih (by omega) (by rw [hlen]; exact h.2), List.foldl_cons]

def headerFields (req mac yiaddr : Bytes) : List (Nat × Bytes) :=
  [(0, [bootReply]), (1, slice req 1 1), (2, slice req 2 1), (4, slice req 4 4), (16, yiaddr),
    (28, mac), (236, cookie)]

/-- The header of a reply. -/
def replyHeader (req mac yiaddr : Bytes) : Bytes :=
  (headerFields req mac yiaddr).foldl (fun xs w => blit xs w.1 w.2) (List.replicate headerLen 0)

theorem headerFields_fit (hreq : headerLen ≤ req.length) (hmac : mac.length = 6)
    (hyi : yiaddr.length = 4) :
    ∀ w ∈ headerFields req mac yiaddr, w.1 + w.2.length ≤ (List.replicate headerLen (0 : UInt8)).length := by
  have hcookie : cookie.length = 4 := rfl
  have hmin : headerLen = 240 := rfl
  rw [List.length_replicate]
  simp only [headerFields, List.forall_mem_cons, List.not_mem_nil, false_implies, implies_true, and_true,
    length_slice, List.length_singleton, hmac, hyi, hcookie]
  omega

theorem length_replyHeader (hreq : headerLen ≤ req.length) (hmac : mac.length = 6)
    (hyi : yiaddr.length = 4) : (replyHeader req mac yiaddr).length = headerLen := by
  rw [replyHeader, length_blits (headerFields_fit hreq hmac hyi), List.length_replicate]

theorem putHeader_ok (hreq : headerLen ≤ req.length) (hout : headerLen ≤ out.length)
    (hmac : mac.length = 6) (hyi : yiaddr.length = 4) :
    putHeader req out mac yiaddr = some (blit out 0 (replyHeader req mac yiaddr)) := by
  have hmin : headerLen = 240 := rfl
  rw [putHeader, load_ok (by omega), load_ok (by omega), load_ok (by omega),
    store_ok (by rw [List.length_replicate]; omega)]
  exact stores_front (by rw [List.length_replicate]; omega) (headerFields_fit hreq hmac hyi)

theorem replyHeader_address (hreq : headerLen ≤ req.length) (hmac : mac.length = 6)
    (hyi : yiaddr.length = 4) : slice (replyHeader req mac yiaddr) 16 4 = yiaddr := by
  have hcookie : cookie.length = 4 := rfl
  have hmin : headerLen = 240 := rfl
  have hfit := headerFields_fit hreq hmac hyi
  have hlen : ∀ ws ⊆ headerFields req mac yiaddr,
      (ws.foldl (fun xs w => blit xs w.1 w.2) (List.replicate headerLen (0 : UInt8))).length = headerLen := by
    rintro ws hws
    rw [length_blits fun w hw => hfit w (hws hw), List.length_replicate]
  have h4 := hlen _ (List.take_subset 4 _)
  have hsplit : replyHeader req mac yiaddr =
      blit (blit (blit (((headerFields req mac yiaddr).take 4).foldl (fun xs w => blit xs w.1 w.2)
        (List.replicate headerLen 0)) 16 yiaddr) 28 mac) 236 cookie := rfl
  generalize ((headerFields req mac yiaddr).take 4).foldl _ _ = front at h4 hsplit
  have h5 : (blit front 16 yiaddr).length = front.length := length_blit (by omega)
  have h6 : (blit (blit front 16 yiaddr) 28 mac).length = (blit front 16 yiaddr).length :=
    length_blit (by omega)
  have hself : slice (blit front 16 yiaddr) 16 yiaddr.length = yiaddr := slice_blit_self (by omega)
  rw [hsplit, slice_blit_disjoint (by omega) (by omega), slice_blit_disjoint (by omega) (by omega)]
  rwa [hyi] at hself

-- ---------------------------------------------------------------------------
-- What a request gets
-- ---------------------------------------------------------------------------

/-- The message type and the MAC of a request that is answered. -/
def asks (req : Bytes) : Option (UInt8 × Bytes) :=
  if req.length < headerLen ∨ req[0]? ≠ some bootRequest ∨ slice req 236 4 ≠ cookie then none
  else match optionMsgType req headerLen with
    | some t => if t = discover ∨ t = request then some (t, slice req 28 6) else none
    | none => none

/-- A whole reply: the header, every option and the end. -/
def reply (req mac : Bytes) (slot : Fin poolSize) (t : UInt8) : Bytes :=
  replyHeader req mac (address slot) ++ optionList (replyOptions t) ++ [optEnd]

inductive Answer (p : Pool) (req out : Bytes) : Handled → Prop where
  | ignored (h : asks req = none) : Answer p req out ⟨p, out, 0⟩
  | unfit (h : asks req = some (t, mac)) (hlong : out.length < (reply req mac (leaseFor p mac).1 t).length)
      (hout : out'.length = out.length) : Answer p req out ⟨(leaseFor p mac).2, out', 0⟩
  | replied (h : asks req = some (t, mac)) (hfits : (reply req mac (leaseFor p mac).1 t).length ≤ out.length) :
      Answer p req out ⟨(leaseFor p mac).2.note (leaseFor p mac).1 t,
        blit out 0 (reply req mac (leaseFor p mac).1 t), (reply req mac (leaseFor p mac).1 t).length⟩

theorem asks_mac (h : asks req = some (t, mac)) :
    headerLen ≤ req.length ∧ mac.length = 6 ∧ mac = slice req 28 6 := by
  have hmin : headerLen = 240 := rfl
  rw [asks] at h
  split at h
  · cases h
  · rename_i hok
    rw [not_or] at hok
    split at h
    · split at h
      · obtain ⟨-, rfl⟩ := Prod.mk.inj (Option.some.inj h)
        refine ⟨by omega, ?_, rfl⟩
        rw [length_slice]
        omega
      · cases h
    · cases h

theorem length_reply (h : asks req = some (t, mac)) (slot : Fin poolSize) (t' : UInt8) :
    (reply req mac slot t').length = headerLen + (optionList (replyOptions t')).length + 1 := by
  obtain ⟨hreq, hmac, -⟩ := asks_mac h
  rw [reply, List.length_append, List.length_append, length_replyHeader hreq hmac rfl,
    List.length_singleton]

/-- Every packet is handled within its bounds, and answered or not. -/
theorem dhcpHandle_answer (p : Pool) (req out : Bytes) :
    ∃ r, dhcpHandle p req out = some r ∧ Answer p req out r ∧ r.out.length = out.length := by
  have hmin : headerLen = 240 := rfl
  rw [dhcpHandle]
  by_cases hshort : req.length < headerLen
  · rw [if_pos hshort]
    exact ⟨_, rfl, .ignored (if_pos (.inl hshort)), rfl⟩
  rw [if_neg hshort, List.getElem?_eq_getElem (by omega), Option.bind_eq_bind, Option.bind_some]
  have hget : req[0]? = some req[0] := List.getElem?_eq_getElem _
  split
  · rename_i hop
    refine ⟨_, rfl, .ignored (if_pos (.inr (.inl ?_))), rfl⟩
    rw [hget]
    exact fun h => hop (Option.some.inj h)
  rename_i hop
  rw [load_ok (by omega), Option.bind_eq_bind, Option.bind_some]
  split
  · rename_i hmagic
    exact ⟨_, rfl, .ignored (if_pos (.inr (.inr hmagic))), rfl⟩
  rename_i hmagic
  obtain ⟨t, ht⟩ := optionMsgType_total req headerLen
  have hasks : asks req = if t = discover ∨ t = request then some (t, slice req 28 6) else none := by
    rw [asks, if_neg (by
      rw [not_or, not_or]
      exact ⟨hshort, by rw [hget]; exact fun h => h (congrArg some (not_not.mp hop)), hmagic⟩), ht]
  rw [ht, Option.bind_some]
  split
  · rename_i htype
    refine ⟨_, rfl, .ignored ?_, rfl⟩
    rw [hasks, if_neg (by rw [not_or]; exact htype)]
  rename_i htype
  rw [if_pos (by
    by_cases h : t = discover
    · exact .inl h
    · exact .inr (not_not.mp fun h' => htype ⟨h, h'⟩))] at hasks
  rw [load_ok (by omega), Option.bind_eq_bind, Option.bind_some]
  dsimp only
  have hlen := length_reply hasks (leaseFor p (slice req 28 6)).1 t
  obtain ⟨hreq, hmac, -⟩ := asks_mac hasks
  split
  · exact ⟨_, rfl, .unfit hasks (by omega) rfl, rfl⟩
  have hheader : (replyHeader req (slice req 28 6) (address (leaseFor p (slice req 28 6)).1)).length =
      headerLen := length_replyHeader hreq hmac rfl
  rw [putHeader_ok hreq (by omega) hmac rfl, Option.bind_some]
  have hfront : (blit out 0
      (replyHeader req (slice req 28 6) (address (leaseFor p (slice req 28 6)).1))).length =
      out.length := length_blit (by omega)
  by_cases hopts : headerLen + (optionList (replyOptions t)).length ≤ out.length
  · rw [putOpts_fits (by omega), Option.bind_some, blit_append (by omega) (by omega)]
    dsimp only
    have hboth : (blit out 0
        (replyHeader req (slice req 28 6) (address (leaseFor p (slice req 28 6)).1) ++
          optionList (replyOptions t))).length = out.length :=
      length_blit (by rw [List.length_append]; omega)
    rw [if_neg (by decide)]
    split
    · exact ⟨_, rfl, .unfit hasks (by omega) hboth, hboth⟩
    · rw [store_ok (by rw [List.length_singleton]; omega), Option.bind_some,
        blit_append (by rw [List.length_append]; omega) (by rw [List.length_append]; omega)]
      have hfits : (reply req (slice req 28 6) (leaseFor p (slice req 28 6)).1 t).length ≤
          out.length := by omega
      have hans := Answer.replied hasks hfits
      rw [hlen] at hans
      have hwhole : (blit out 0
          (reply req (slice req 28 6) (leaseFor p (slice req 28 6)).1 t)).length = out.length :=
        length_blit (by omega)
      exact ⟨_, rfl, hans, hwhole⟩
  · have hrefused : ∃ out' pos', putOpts (blit out 0
        (replyHeader req (slice req 28 6) (address (leaseFor p (slice req 28 6)).1))) headerLen
        (replyOptions t) = some ⟨out', pos', false⟩ ∧ out'.length = (blit out 0
          (replyHeader req (slice req 28 6) (address (leaseFor p (slice req 28 6)).1))).length :=
      putOpts_refused (by omega) (by omega)
    obtain ⟨out', pos', hput, hout'⟩ := hrefused
    rw [hput, Option.bind_some]
    dsimp only
    rw [if_pos (by decide)]
    exact ⟨_, rfl, .unfit hasks (by omega) (by omega), by dsimp only; omega⟩

-- ---------------------------------------------------------------------------
-- The table as slots
-- ---------------------------------------------------------------------------

def Pool.slots (p : Pool) : Slots poolSize Bytes where
  key i := if (p.lease i).used then some (p.lease i).mac else none
  stamp i := (p.lease i).stamp.toNat
  clock := p.clock.toNat

theorem key_eq_some {p : Pool} : p.slots.key i = some mac ↔ (p.lease i).used = true ∧ (p.lease i).mac = mac := by
  rw [Pool.slots]
  dsimp only
  split
  · rename_i h
    simp [h]
  · rename_i h
    simp [h]

theorem key_eq_none {p : Pool} : p.slots.key i = none ↔ (p.lease i).used = false := by
  rw [Pool.slots]
  dsimp only
  split
  · rename_i h
    simp [h]
  · rename_i h
    simp [h]

theorem lruSlot_oldest (p : Pool) (j : Fin poolSize) :
    (p.lease (lruSlot p)).stamp ≤ (p.lease j).stamp := by
  have hrun : ∀ (is seen : List (Fin poolSize)) (lru : Fin poolSize),
      (∀ i ∈ seen, (p.lease lru).stamp ≤ (p.lease i).stamp) →
      ∀ i ∈ seen ++ is, (p.lease (is.foldl
        (fun lru i => if (p.lease i).stamp < (p.lease lru).stamp then i else lru) lru)).stamp ≤
          (p.lease i).stamp := by
    intro is
    induction is with
    | nil =>
      rintro seen lru h i hi
      rw [List.append_nil] at hi
      exact h i hi
    | cons k is ih =>
      rintro seen lru h i hi
      rw [List.foldl_cons]
      refine ih (seen ++ [k]) _ (fun i' hi' => ?_) i (by simpa using hi)
      split
      · rename_i hlt
        obtain hi' | hi' := List.mem_append.mp hi'
        · exact UInt32.le_trans (UInt32.le_of_lt hlt) (h i' hi')
        · rw [List.mem_singleton.mp hi']
          exact UInt32.le_refl _
      · rename_i hge
        obtain hi' | hi' := List.mem_append.mp hi'
        · exact h i' hi'
        · rw [List.mem_singleton.mp hi']
          exact UInt32.not_lt.mp hge
  have hall : ([0] : List (Fin poolSize)) ++ (List.finRange poolSize).tail = List.finRange poolSize := rfl
  refine hrun (List.finRange poolSize).tail [0] 0 (fun i hi => ?_) j ?_
  · rw [List.mem_singleton.mp hi]
    exact UInt32.le_refl _
  · rw [hall]
    exact List.mem_finRange j

/-- The slot `leaseFor` gives, and what it leaves there. -/
theorem leaseFor_gives (p : Pool) (mac : Bytes) :
    p.slots.Gives mac (leaseFor p mac).1 ∧
      (leaseFor p mac).2.slots.key = Function.update p.slots.key (leaseFor p mac).1 (some mac) ∧
      (leaseFor p mac).2.clock = p.clock + 1 ∧
      ∀ j, ((leaseFor p mac).2.lease j).stamp =
        if j = (leaseFor p mac).1 then p.clock + 1 else (p.lease j).stamp := by
  have hset : ∀ (q : Pool) (i : Fin poolSize) (l : Lease), l.used = true → l.mac = mac →
      l.stamp = p.clock + 1 → q.lease = p.lease →
      (q.set i l).slots.key = Function.update p.slots.key i (some mac) ∧
        ∀ j, ((q.set i l).lease j).stamp = if j = i then p.clock + 1 else (p.lease j).stamp := by
    rintro q i l hused hmac hstamp hq
    have hother : ∀ j, j ≠ i → (q.set i l).lease j = p.lease j := by
      rintro j hj
      rw [Pool.set, ← hq]
      exact Function.update_of_ne hj ..
    have hself : (q.set i l).lease i = l := Function.update_self ..
    refine ⟨funext fun j => ?_, fun j => ?_⟩
    · by_cases hj : j = i
      · subst hj
        rw [Function.update_self, key_eq_some, hself]
        exact ⟨hused, hmac⟩
      · rw [Function.update_of_ne hj]
        simp only [Pool.slots, hother j hj]
    · split
      · rename_i hj
        rw [hj, hself, hstamp]
      · rename_i hj
        rw [hother j hj]
  rw [leaseFor]
  dsimp only
  cases hfind : findLease { p with clock := p.clock + 1 } mac with
  | some i =>
    have hown := List.find?_some hfind
    rw [Bool.and_eq_true, beq_iff_eq] at hown
    obtain ⟨hkey, hstamp⟩ := hset { p with clock := p.clock + 1 } i
      { p.lease i with stamp := p.clock + 1 } hown.1 hown.2 rfl rfl
    exact ⟨.own (key_eq_some.mpr hown), hkey, rfl, hstamp⟩
  | none =>
    have hnew : ∀ j, p.slots.key j ≠ some mac := by
      rintro j hkey
      have hnone := List.find?_eq_none.mp hfind j (List.mem_finRange j)
      obtain ⟨hused, hmac⟩ := key_eq_some.mp hkey
      simp [hused, hmac] at hnone
    cases hfree : (List.finRange poolSize).find? fun i => !(p.lease i).used with
    | some i =>
      have hempty := List.find?_some hfree
      rw [Bool.not_eq_true'] at hempty
      obtain ⟨hkey, hstamp⟩ := hset { p with clock := p.clock + 1 } i
        ⟨true, mac, p.clock + 1, 0, 0⟩ rfl rfl rfl rfl
      exact ⟨.free hnew (key_eq_none.mpr hempty), hkey, rfl, hstamp⟩
    | none =>
      have hused : ∀ j, (p.lease j).used = true := by
        rintro j
        have hnone := List.find?_eq_none.mp hfree j (List.mem_finRange j)
        simpa using hnone
      obtain ⟨hkey, hstamp⟩ := hset { p with clock := p.clock + 1 }
        (lruSlot { p with clock := p.clock + 1 })
        { p.lease (lruSlot { p with clock := p.clock + 1 }) with
          mac := mac, stamp := p.clock + 1, lastType := 0, answered := 0 } (hused _) rfl rfl rfl
      refine ⟨.oldest hnew (fun j => ?_) fun j => ?_, hkey, rfl, hstamp⟩
      · rw [Ne, key_eq_none, hused j]
        exact Bool.noConfusion
      · exact UInt32.le_iff_toNat_le.mp (lruSlot_oldest { p with clock := p.clock + 1 } j)

theorem leaseFor_slots (mac : Bytes) (h : p.clock.toNat + 1 < 2 ^ 32) :
    (leaseFor p mac).2.slots = p.slots.give mac (leaseFor p mac).1 := by
  obtain ⟨-, hkey, hclock, hstamp⟩ := leaseFor_gives p mac
  have hnext : (p.clock + 1).toNat = p.clock.toNat + 1 := by
    rw [UInt32.toNat_add, UInt32.toNat_one]
    exact Nat.mod_eq_of_lt h
  rw [Slots.give, ← hkey]
  simp only [Pool.slots, hclock, hnext, Slots.mk.injEq, true_and, and_true]
  funext j
  rw [hstamp, Function.update_apply]
  split
  · exact hnext
  · rfl

/-- Notes for the diagnostics leave the table's slots. -/
theorem note_slots (p : Pool) (i : Fin poolSize) (t : UInt8) : (p.note i t).slots = p.slots := by
  have hlease : ∀ j, ((p.note i t).lease j).used = (p.lease j).used ∧
      ((p.note i t).lease j).mac = (p.lease j).mac ∧ ((p.note i t).lease j).stamp = (p.lease j).stamp := by
    rintro j
    rw [Pool.note, Pool.set]
    by_cases h : j = i
    · subst h
      simp
    · simp [h]
  simp only [Pool.slots, Slots.mk.injEq]
  refine ⟨funext fun j => ?_, funext fun j => ?_, rfl⟩
  · rw [(hlease j).1, (hlease j).2.1]
  · rw [(hlease j).2.2]

theorem Answer.slots (h : Answer p req out r) :
    (asks req = none ∧ r.pool = p) ∨
      ∃ t mac, asks req = some (t, mac) ∧ r.pool.slots = (leaseFor p mac).2.slots := by
  cases h with
  | ignored h => exact .inl ⟨h, rfl⟩
  | unfit h _ _ => exact .inr ⟨_, _, h, rfl⟩
  | replied h _ => exact .inr ⟨_, _, h, note_slots ..⟩

-- ---------------------------------------------------------------------------
-- Packet after packet
-- ---------------------------------------------------------------------------

/-- Packets handled one after another, each a request and the buffer for its reply. -/
def serve (p : Pool) : List (Bytes × Bytes) → Option Pool
  | [] => some p
  | (req, out) :: packets => do
    let r ← dhcpHandle p req out
    serve r.pool packets

/-- The MACs that were given or renewed a lease, in order. -/
def leased (packets : List (Bytes × Bytes)) : List Bytes :=
  packets.filterMap fun packet => (asks packet.1).map Prod.snd

theorem serve_append (h : serve p packets = some q) (more : List (Bytes × Bytes)) :
    serve p (packets ++ more) = serve q more := by
  induction packets generalizing p with
  | nil => rw [← Option.some.inj h, List.nil_append]
  | cons packet packets ih =>
    obtain ⟨r, hr, -⟩ := dhcpHandle_answer p packet.1 packet.2
    rw [serve, hr] at h
    rw [List.cons_append, serve, hr]
    exact ih h

/-- No packet makes the walk or the reply go out of bounds. -/
theorem serve_total (p : Pool) (packets : List (Bytes × Bytes)) : ∃ q, serve p packets = some q := by
  induction packets generalizing p with
  | nil => exact ⟨p, rfl⟩
  | cons packet packets ih =>
    obtain ⟨r, hr, -⟩ := dhcpHandle_answer p packet.1 packet.2
    rw [serve, hr]
    exact ih r.pool

theorem leased_append (xs ys : List (Bytes × Bytes)) : leased (xs ++ ys) = leased xs ++ leased ys :=
  List.filterMap_append

/-- One more packet served. -/
theorem serve_snoc (h : serve p packets = some q) (hs : serve p (packets ++ [packet]) = some q') :
    ∃ r, dhcpHandle q packet.1 packet.2 = some r ∧ Answer q packet.1 packet.2 r ∧ q' = r.pool := by
  obtain ⟨r, hr, hans, -⟩ := dhcpHandle_answer q packet.1 packet.2
  rw [serve_append h, serve, hr] at hs
  exact ⟨r, hr, hans, (Option.some.inj hs).symm⟩

/-- An address has one holder, whatever the clock does. -/
theorem serve_apart (hp : Slots.Apart p.slots.key) (h : serve p packets = some q) :
    Slots.Apart q.slots.key := by
  induction packets using List.reverseRecOn generalizing q with
  | nil => rwa [← Option.some.inj h]
  | append_singleton packets packet ih =>
    obtain ⟨q₁, hq₁⟩ := serve_total p packets
    obtain ⟨r, -, hans, rfl⟩ := serve_snoc hq₁ h
    obtain ⟨-, hsame⟩ | ⟨t, mac, -, hsame⟩ := hans.slots
    · rw [hsame]
      exact ih hq₁
    · obtain ⟨hgives, hkey, -, -⟩ := leaseFor_gives q₁ mac
      rw [hsame, hkey]
      exact hgives.apart (ih hq₁)

/-- While the clock does not go round, a run is keys asking for slots. -/
theorem serve_asks (h : serve p packets = some q)
    (hclock : p.clock.toNat + (leased packets).length < 2 ^ 32) :
    Slots.Asks p.slots (leased packets) q.slots ∧
      q.clock.toNat = p.clock.toNat + (leased packets).length := by
  induction packets using List.reverseRecOn generalizing q with
  | nil =>
    obtain rfl := Option.some.inj h
    exact ⟨.nil, rfl⟩
  | append_singleton packets packet ih =>
    rw [leased_append, List.length_append] at hclock
    obtain ⟨q₁, hq₁⟩ := serve_total p packets
    obtain ⟨hasks, htime⟩ := ih hq₁ (by omega)
    obtain ⟨r, -, hans, rfl⟩ := serve_snoc hq₁ h
    rw [leased_append]
    obtain ⟨hnone, hsame⟩ | ⟨t, mac, hsome, hsame⟩ := hans.slots
    · have hlast : leased [packet] = [] := by simp [leased, hnone]
      rw [hlast, List.append_nil, hsame]
      exact ⟨hasks, htime⟩
    · have hlast : leased [packet] = [mac] := by simp [leased, hsome]
      rw [hlast, List.length_singleton] at hclock
      have hgive := leaseFor_slots mac (p := q₁) (by omega)
      rw [hlast, List.length_append, List.length_singleton, hsame, hgive]
      refine ⟨.snoc hasks (leaseFor_gives q₁ mac).1, ?_⟩
      have hnow := congrArg Slots.clock (hsame.trans hgive)
      change r.pool.clock.toNat = q₁.clock.toNat + 1 at hnow
      omega

theorem reset_ok : resetLeases.slots.Ok := by
  refine ⟨fun i j a hi _ => ?_, fun _ => Nat.le_refl _⟩
  cases hi

/-- A client that asks again has its slot, when fewer others than there are leases were
given or renewed one since and the clock has not gone round. -/
theorem slot_kept (h : serve resetLeases before = some p) (hasks : asks packet.1 = some (t, mac))
    (hq : serve resetLeases (before ++ packet :: between) = some q)
    (hclock : (leased (before ++ packet :: between)).length < 2 ^ 32)
    (hfew : ((leased between).toFinset.erase mac).card < poolSize) :
    (leaseFor q mac).1 = (leaseFor p mac).1 := by
  have hzero : resetLeases.clock.toNat = 0 := rfl
  have hcons : leased (packet :: between) = mac :: leased between := by simp [leased, hasks]
  rw [leased_append, hcons, List.length_append, List.length_cons] at hclock
  obtain ⟨hrun, htime⟩ := serve_asks h (by omega)
  obtain ⟨r, hr, hans, -⟩ := dhcpHandle_answer p packet.1 packet.2
  rw [serve_append h, serve, hr] at hq
  obtain ⟨hnone, -⟩ | ⟨t', mac', hsome, hsame⟩ := hans.slots
  · rw [hasks] at hnone
    cases hnone
  rw [hasks] at hsome
  obtain ⟨-, rfl⟩ := Prod.mk.inj (Option.some.inj hsome)
  have hgives := (leaseFor_gives p mac).1
  have hgive := leaseFor_slots mac (p := p) (by omega)
  have hnow := congrArg Slots.clock (hsame.trans hgive)
  change r.pool.clock.toNat = p.clock.toNat + 1 at hnow
  obtain ⟨hlater, -⟩ := serve_asks (p := r.pool) hq (by omega)
  rw [hsame, hgive] at hlater
  have hok := reset_ok.asks hrun
  have hkept := hok.kept hgives hlater hfew
  exact (leaseFor_gives q mac).1.same ((hok.give hgives).asks hlater).apart hkept

/-- The access point's table after any packets: every packet is handled within its
bounds, an address has one holder and a reply is for it and whole, and a client that
asks again has its address. -/
theorem table_consistent (packets : List (Bytes × Bytes)) :
    ∃ p, serve resetLeases packets = some p ∧
      (∀ i j, (p.lease i).used = true → (p.lease j).used = true →
        (p.lease i).mac = (p.lease j).mac → i = j) ∧
      (∀ req out, ∃ r, dhcpHandle p req out = some r ∧ r.out.length = out.length ∧
        r.len ≤ out.length ∧
        (r.len ≠ 0 → ∃ t mac slot, asks req = some (t, mac) ∧ slot = (leaseFor p mac).1 ∧
          (r.pool.lease slot).used = true ∧ (r.pool.lease slot).mac = mac ∧
          slice r.out 16 4 = address slot ∧
          r.out.take r.len =
            replyHeader req mac (address slot) ++ optionList (replyOptions t) ++ [optEnd])) ∧
      ∀ before packet between t mac, packets = before ++ packet :: between →
        asks packet.1 = some (t, mac) → (leased packets).length < 2 ^ 32 →
          ((leased between).toFinset.erase mac).card < poolSize →
            ∃ q, serve resetLeases before = some q ∧ (leaseFor p mac).1 = (leaseFor q mac).1 := by
  obtain ⟨p, hp⟩ := serve_total resetLeases packets
  refine ⟨p, hp, fun i j hi hj hmac => ?_, fun req out => ?_, ?_⟩
  · have hapart := serve_apart reset_ok.apart hp
    exact hapart i j (p.lease j).mac (key_eq_some.mpr ⟨hi, hmac⟩) (key_eq_some.mpr ⟨hj, rfl⟩)
  · obtain ⟨r, hr, hans, hlen⟩ := dhcpHandle_answer p req out
    cases hans with
    | ignored _ => exact ⟨_, hr, hlen, Nat.zero_le _, fun h => absurd rfl h⟩
    | unfit _ _ _ => exact ⟨_, hr, hlen, Nat.zero_le _, fun h => absurd rfl h⟩
    | @replied t mac hasks hfits =>
      refine ⟨_, hr, hlen, hfits, fun _ => ⟨t, mac, _, hasks, rfl, ?_⟩⟩
      obtain ⟨hreq, hmac, -⟩ := asks_mac hasks
      obtain ⟨-, hkey, -, -⟩ := leaseFor_gives p mac
      have hslot : ((leaseFor p mac).2.note (leaseFor p mac).1 t).slots.key (leaseFor p mac).1 =
          some mac := by
        rw [note_slots, hkey, Function.update_self]
      obtain ⟨hused, hheld⟩ := key_eq_some.mp hslot
      have hout : blit out 0 (reply req mac (leaseFor p mac).1 t) =
          reply req mac (leaseFor p mac).1 t ++ out.drop (reply req mac (leaseFor p mac).1 t).length := by
        simp [blit]
      refine ⟨hused, hheld, ?_, ?_⟩
      · have hhead : (replyHeader req mac (address (leaseFor p mac).1)).length = headerLen :=
          length_replyHeader hreq hmac rfl
        have hmin : headerLen = 240 := rfl
        dsimp only
        rw [hout, reply, List.append_assoc, List.append_assoc, slice_append_left (by omega)]
        exact replyHeader_address hreq hmac rfl
      · dsimp only
        rw [hout, List.take_left]
        rfl
  · rintro before packet between t mac rfl hasks hclock hfew
    obtain ⟨q, hq⟩ := serve_total resetLeases before
    exact ⟨q, hq, slot_kept hq hasks hp hclock hfew⟩

-- ---------------------------------------------------------------------------
-- The clock gone round
-- ---------------------------------------------------------------------------

/-- A request that is answered, whatever the clock. -/
theorem serve_one (h : asks packet.1 = some (t, mac)) (p : Pool) :
    ∃ q, serve p [packet] = some q ∧ p.slots.Gives mac (leaseFor p mac).1 ∧
      q.slots.key = Function.update p.slots.key (leaseFor p mac).1 (some mac) ∧
      q.slots.stamp =
        Function.update p.slots.stamp (leaseFor p mac).1 ((p.slots.clock + 1) % 2 ^ 32) ∧
      q.slots.clock = (p.slots.clock + 1) % 2 ^ 32 := by
  obtain ⟨r, hr, hans, -⟩ := dhcpHandle_answer p packet.1 packet.2
  obtain ⟨hnone, -⟩ | ⟨t', mac', hsome, hsame⟩ := hans.slots
  · rw [h] at hnone
    cases hnone
  rw [h] at hsome
  obtain ⟨-, rfl⟩ := Prod.mk.inj (Option.some.inj hsome)
  obtain ⟨hgives, hkey, hclock, hstamp⟩ := leaseFor_gives p mac
  have hnext : (p.clock + 1).toNat = (p.slots.clock + 1) % 2 ^ 32 := by
    rw [UInt32.toNat_add, UInt32.toNat_one]
    rfl
  refine ⟨r.pool, ?_, hgives, by rw [hsame, hkey], ?_, ?_⟩
  · rw [serve, hr]
    rfl
  · rw [hsame]
    funext j
    rw [Function.update_apply, ← hnext]
    change ((leaseFor p mac).2.lease j).stamp.toNat = _
    rw [hstamp]
    split
    · rfl
    · rfl
  · rw [hsame, ← hnext]
    change (leaseFor p mac).2.clock.toNat = _
    rw [hclock]

/-- A client that renews `k + 1` times. -/
theorem serve_renew (h : asks packet.1 = some (t, mac)) (hapart : Slots.Apart p.slots.key)
    (hkey : p.slots.key i = some mac) (k : Nat) :
    ∃ q, serve p (List.replicate (k + 1) packet) = some q ∧ q.slots.key = p.slots.key ∧
      q.slots.stamp = Function.update p.slots.stamp i ((p.slots.clock + (k + 1)) % 2 ^ 32) ∧
      q.slots.clock = (p.slots.clock + (k + 1)) % 2 ^ 32 := by
  have hself : Function.update p.slots.key i (some mac) = p.slots.key := by
    rw [← hkey, Function.update_eq_self]
  induction k with
  | zero =>
    obtain ⟨q, hq, hgives, hqkey, hstamp, hclock⟩ := serve_one h p
    rw [hgives.same hapart hkey] at hqkey hstamp
    exact ⟨q, hq, hqkey.trans hself, hstamp, hclock⟩
  | succ k ih =>
    obtain ⟨q, hq, hqkey, hstamp, hclock⟩ := ih
    obtain ⟨q', hq', hgives, hqkey', hstamp', hclock'⟩ := serve_one h q
    rw [hgives.same (by rwa [hqkey]) (by rwa [hqkey])] at hqkey' hstamp'
    have hnow : (q.slots.clock + 1) % 2 ^ 32 = (p.slots.clock + (k + 1 + 1)) % 2 ^ 32 := by
      rw [hclock]
      omega
    refine ⟨q', ?_, ?_, ?_, ?_⟩
    · rw [List.replicate_succ', serve_append hq]
      exact hq'
    · rw [hqkey', hqkey, hself]
    · rw [hstamp', hnow, hstamp, Function.update_idem]
    · rw [hclock', hnow]

theorem optionMsgType_first {req : Bytes} (hcode : req[i]? = some optMsgType)
    (hlen : req[i + 1]? = some 1) (ht : req[i + 2]? = some t) : optionMsgType req i = some t := by
  obtain ⟨hi, -⟩ := List.getElem?_eq_some_iff.mp ht
  have hone : (1 : UInt8).toNat = 1 := rfl
  rw [optionMsgType, dif_pos (by omega), hcode, Option.bind_eq_bind, Option.bind_some,
    if_neg (by decide), if_neg (by decide), if_neg (by omega), hlen, Option.bind_some,
    if_neg (by omega), if_pos (by decide), ht]

/-- A DISCOVER, and a buffer for its reply. -/
def discoverFrom (mac : Bytes) : Bytes × Bytes :=
  ([1, 1, 6, 0] ++ List.replicate 24 0 ++ mac ++ List.replicate 202 0 ++ cookie ++ [53, 1, 1, 255],
    List.replicate 548 0)

theorem asks_discoverFrom (h : mac.length = 6) :
    asks (discoverFrom mac).1 = some (discover, mac) := by
  obtain ⟨a, b, c, d, e, f, rfl⟩ : ∃ a b c d e f, mac = [a, b, c, d, e, f] := by
    match mac, h with
    | [a, b, c, d, e, f], _ => exact ⟨a, b, c, d, e, f, rfl⟩
  have hmin : headerLen = 240 := rfl
  have hmagic : slice (discoverFrom [a, b, c, d, e, f]).1 236 4 = cookie := rfl
  have hmac : slice (discoverFrom [a, b, c, d, e, f]).1 28 6 = [a, b, c, d, e, f] := rfl
  have hlen : (discoverFrom [a, b, c, d, e, f]).1.length = 244 := rfl
  have ht : optionMsgType (discoverFrom [a, b, c, d, e, f]).1 240 = some discover :=
    optionMsgType_first rfl rfl rfl
  rw [asks, if_neg (by
    rw [not_or, not_or]
    exact ⟨by omega, fun h => h rfl, fun h => h hmagic⟩), hmin, ht]
  dsimp only
  rw [if_pos (.inl rfl), hmac]

def clientX : Bytes := [2, 0, 0, 0, 0, 1]
def clientY : Bytes := [2, 0, 0, 0, 0, 2]
def clientZ : Bytes := [2, 0, 0, 0, 0, 3]

/-- A slot given when both others are taken is the one of the smaller stamp. -/
theorem gives_smaller {s : Slots poolSize Bytes} (hg : s.Gives mac k) (hij : i ≠ j)
    (hi : s.key i = some m) (hj : s.key j = some m') (hm : mac ≠ m) (hm' : mac ≠ m')
    (hlt : s.stamp j < s.stamp i) : k = j := by
  have hpair : ∀ i j l : Fin 2, i ≠ j → l = i ∨ l = j := by decide
  have hboth := fun l => hpair i j l hij
  have hkey : ∀ l, s.key l = some m ∨ s.key l = some m' := by
    rintro l
    obtain rfl | rfl := hboth l
    · exact .inl hi
    · exact .inr hj
  obtain rfl | rfl := hboth k
  · cases hg with
    | own h => exact absurd (Option.some.inj (h.symm.trans hi)) hm
    | free _ h => rw [hi] at h; cases h
    | oldest _ _ h => exact absurd (h j) (Nat.not_le_of_lt hlt)
  · rfl

/-- The first client, then the second for a while: each has its own slot. -/
theorem two_clients (hz : asks z.1 = some (tz, mz)) (hx : asks x.1 = some (tx, mx)) (hne : mx ≠ mz)
    (k : Nat) :
    ∃ p i j, serve resetLeases (z :: List.replicate (k + 2) x) = some p ∧ i ≠ j ∧
      p.slots.key i = some mz ∧ p.slots.key j = some mx ∧ p.slots.stamp i = 1 ∧
      p.slots.clock = (k + 3) % 2 ^ 32 := by
  obtain ⟨p₁, hp₁, -, hkey₁, hstamp₁, hclock₁⟩ := serve_one hz resetLeases
  obtain ⟨p₂, hp₂, hgives, hkey₂, hstamp₂, hclock₂⟩ := serve_one hx p₁
  generalize (leaseFor resetLeases mz).1 = i at hkey₁ hstamp₁
  generalize (leaseFor p₁ mx).1 = j at hgives hkey₂ hstamp₂
  have hi : p₁.slots.key i = some mz := by rw [hkey₁, Function.update_self]
  have hfree : ∀ l, l ≠ i → p₁.slots.key l = none := by
    rintro l hl
    rw [hkey₁, Function.update_of_ne hl]
    rfl
  have hij : i ≠ j := by
    rintro rfl
    cases hgives with
    | own h => exact hne (Option.some.inj (h.symm.trans hi))
    | free _ h => rw [hi] at h; cases h
    | oldest _ hfull _ =>
      have hother : ∀ i : Fin 2, ∃ l, l ≠ i := by decide
      obtain ⟨l, hl⟩ := hother i
      exact hfull l (hfree l hl)
  have hboth : serve resetLeases [z, x] = some p₂ := by
    have happ := serve_append hp₁ [x]
    rw [hp₂] at happ
    exact happ
  have hj : p₂.slots.key j = some mx := by rw [hkey₂, Function.update_self]
  obtain ⟨p, hp, hkey, hstamp, hclock⟩ := serve_renew hx (serve_apart reset_ok.apart hboth) hj k
  have hzero : resetLeases.slots.clock = 0 := rfl
  refine ⟨p, i, j, ?_, hij, ?_, by rw [hkey, hj], ?_, ?_⟩
  · have happ := serve_append hboth (List.replicate (k + 1) x)
    rw [hp] at happ
    exact happ
  · rw [hkey, hkey₂, Function.update_of_ne hij, hi]
  · rw [hstamp, Function.update_of_ne hij, hstamp₂, Function.update_of_ne hij, hstamp₁,
      Function.update_self, hzero]
    norm_num
  · rw [hclock, hclock₂, hclock₁, hzero]
    omega

/-- One client asks until the clock has gone round: its lease is the oldest of all then,
and after one other client it is given another address. -/
theorem address_lost :
    ∃ p q, serve resetLeases
        (discoverFrom clientZ :: List.replicate (2 ^ 32 - 2) (discoverFrom clientX)) = some p ∧
      serve p [discoverFrom clientX, discoverFrom clientY, discoverFrom clientY] = some q ∧
      asks (discoverFrom clientX).1 = some (discover, clientX) ∧
      ((leased [discoverFrom clientY, discoverFrom clientY]).toFinset.erase clientX).card < poolSize ∧
      (leaseFor q clientX).1 ≠ (leaseFor p clientX).1 := by
  have hx : asks (discoverFrom clientX).1 = some (discover, clientX) := asks_discoverFrom rfl
  have hy : asks (discoverFrom clientY).1 = some (discover, clientY) := asks_discoverFrom rfl
  have hz : asks (discoverFrom clientZ).1 = some (discover, clientZ) := asks_discoverFrom rfl
  have hyz : clientY ≠ clientZ := by decide
  have hyx : clientY ≠ clientX := by decide
  have hxz : clientX ≠ clientZ := by decide
  obtain ⟨p, i, j, hp, hij, hi, hj, hold, hclock⟩ := two_clients hz hx hxz (2 ^ 32 - 4)
  have hcount : 2 ^ 32 - 4 + 2 = 2 ^ 32 - 2 := by norm_num
  rw [hcount] at hp
  have hapart := serve_apart reset_ok.apart hp
  -- the clock goes round
  obtain ⟨p₁, hp₁, hg₁, hkey₁, hstamp₁, hclock₁⟩ := serve_one hx p
  rw [hg₁.same hapart hj] at hkey₁ hstamp₁
  have hzero : (p.slots.clock + 1) % 2 ^ 32 = 0 := by rw [hclock]; norm_num
  rw [hzero] at hstamp₁ hclock₁
  have hi₁ : p₁.slots.key i = some clientZ := by rw [hkey₁, Function.update_of_ne hij, hi]
  have hj₁ : p₁.slots.key j = some clientX := by rw [hkey₁, Function.update_self]
  have hsi₁ : p₁.slots.stamp i = 1 := by rw [hstamp₁, Function.update_of_ne hij, hold]
  have hsj₁ : p₁.slots.stamp j = 0 := by rw [hstamp₁, Function.update_self]
  -- another client takes its slot, and asks once more
  obtain ⟨p₂, hp₂, hg₂, hkey₂, hstamp₂, hclock₂⟩ := serve_one hy p₁
  rw [gives_smaller hg₂ hij hi₁ hj₁ hyz hyx (by omega)] at hkey₂ hstamp₂
  have hi₂ : p₂.slots.key i = some clientZ := by rw [hkey₂, Function.update_of_ne hij, hi₁]
  have hj₂ : p₂.slots.key j = some clientY := by rw [hkey₂, Function.update_self]
  have hsi₂ : p₂.slots.stamp i = 1 := by rw [hstamp₂, Function.update_of_ne hij, hsi₁]
  have hap₁ := serve_apart hapart hp₁
  have hap₂ := serve_apart hap₁ hp₂
  obtain ⟨p₃, hp₃, hg₃, hkey₃, hstamp₃, hclock₃⟩ := serve_one hy p₂
  rw [hg₃.same hap₂ hj₂] at hkey₃ hstamp₃
  have hi₃ : p₃.slots.key i = some clientZ := by rw [hkey₃, Function.update_of_ne hij, hi₂]
  have hj₃ : p₃.slots.key j = some clientY := by rw [hkey₃, Function.update_self]
  have hsi₃ : p₃.slots.stamp i = 1 := by rw [hstamp₃, Function.update_of_ne hij, hsi₂]
  have hsj₃ : p₃.slots.stamp j = 2 := by
    rw [hstamp₃, Function.update_self, hclock₂, hclock₁]
    norm_num
  refine ⟨p, p₃, hp, ?_, hx, ?_, ?_⟩
  · have h12 := serve_append hp₁ [discoverFrom clientY, discoverFrom clientY]
    have h23 := serve_append hp₂ [discoverFrom clientY]
    rw [hp₃] at h23
    exact h12.trans h23
  · have hleased : leased [discoverFrom clientY, discoverFrom clientY] = [clientY, clientY] := by
      simp [leased, hy]
    rw [hleased]
    decide
  · rw [gives_smaller (leaseFor_gives p₃ clientX).1 (Ne.symm hij) hj₃ hi₃ (Ne.symm hyx) hxz (by omega),
      (leaseFor_gives p clientX).1.same hapart hj]
    exact hij

end WebAdf.Firmware.Dhcp
