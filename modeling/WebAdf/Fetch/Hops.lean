import WebAdf.Fetch.Judged

/-!
# Fetching a pasted URL

`fetchUrlSafely` between its awaits: each hop is vetted, connected to and read,
and what the resolver and the upstream do comes in from outside, in any order
and as often as it likes. The log keeps what was asked, what was answered and
every request handed to the transport.
-/

namespace WebAdf.Fetch

open Lib

-- ---------------------------------------------------------------------------
-- URLs
-- ---------------------------------------------------------------------------

/-- What the URL parser makes of a text. `port` is none where the text names none
or the scheme's own. -/
structure Url where
  protocol : Units
  username : Units
  password : Units
  hostname : Units
  port : Option Nat
  path : Units
  hash : Units
  deriving DecidableEq

/-- The URL parser, its serialiser and `Number` of a header, where it is finite. -/
structure Web where
  parse : Units → Option Url → Option Url
  href : Url → Units
  number : Units → Option Rat

inductive UrlFetchCode
  | invalidUrl
  | unsupportedScheme
  | credentialsNotAllowed
  | portNotAllowed
  | addressNotAllowed
  | unreachable
  | tooManyRedirects
  | upstreamStatus
  | tooLarge
  | timeout
  deriving DecidableEq, Repr

structure UrlFetchLimits where
  maxBytes : Nat
  maxRedirects : Nat
  maxUrlLength : Nat

def urlFetchLimits : UrlFetchLimits := ⟨20 * 1024 * 1024, 3, 2048⟩

/-- White space and line ends of the language. -/
def isSpace (u : UInt16) : Bool :=
  (0x09 ≤ u && u ≤ 0x0d) || u == 0x20 || u == 0xa0 || u == 0x1680 || (0x2000 ≤ u && u ≤ 0x200a) || u == 0x2028 ||
    u == 0x2029 || u == 0x202f || u == 0x205f || u == 0x3000 || u == 0xfeff

def trimmed (s : Units) : Units := (s.dropWhile isSpace).rdropWhile isSpace

def allowedPorts : List Nat := [80, 443]

/-- Everything that can be decided from the URL text alone. -/
def vetUrl (w : Web) (maxUrlLength : Nat) (raw : Units) : Except UrlFetchCode Url :=
  if raw.length = 0 ∨ raw.length > maxUrlLength then .error .invalidUrl
  else match w.parse (trimmed raw) none with
    | none => .error .invalidUrl
    | some url =>
      if url.protocol ≠ units "http:" ∧ url.protocol ≠ units "https:" then .error .unsupportedScheme
      else if url.username ≠ [] ∨ url.password ≠ [] then .error .credentialsNotAllowed
      else if url.port.any (!allowedPorts.contains ·) then .error .portNotAllowed
      else if url.hostname = [] then .error .invalidUrl
      else .ok { url with hash := [] }

def bareHost (url : Url) : Units := bare url.hostname

def lowerUnit (u : UInt16) : UInt16 := if 0x41 ≤ u && u ≤ 0x5a then u + 0x20 else u

def isLocalhost (host : Units) : Bool :=
  let lowered := host.map lowerUnit
  let lower := if lowered.getLast? = some dot then lowered.dropLast else lowered
  lower == units "localhost" || (units ".localhost").isSuffixOf lower

-- ---------------------------------------------------------------------------
-- The fetch
-- ---------------------------------------------------------------------------

structure ResolvedAddress where
  address : Units
  family : Nat
  deriving DecidableEq

structure TransportRequest where
  url : Url
  address : Units
  family : Nat
  addresses : List ResolvedAddress

structure TransportResponse where
  status : Nat
  location : Option Units
  contentLength : Option Units
  contentDisposition : Option Units

inductive UrlFetchResult
  | ok (bytes : Bytes) (finalUrl : Url) (contentDisposition : Option Units)
  | failed (code : UrlFetchCode) (status : Option Nat)

inductive FetchEvent
  | asked (host : Units)
  | answered (addrs : List ResolvedAddress)
  | connected (request : TransportRequest)

/-- Where the function waits. -/
inductive FetchAt
  | resolving (url : Url) (hop : Nat)
  | connecting (url : Url) (hop : Nat)
  | reading (url : Url) (contentDisposition : Option Units) (chunks : List Bytes) (total : Nat)
  | done (result : UrlFetchResult)

structure UrlFetch where
  stage : FetchAt
  timedOut : Bool
  log : List FetchEvent

/-- What comes in: the timer, the resolver's answer or failure, the transport's, the
body's next piece, end or failure, and the deadline winning a race. -/
inductive FetchInput
  | timer
  | answer (addrs : Option (List ResolvedAddress))
  | response (r : Option TransportResponse)
  | chunk (c : Bytes)
  | finished
  | bodyError
  | deadline

namespace UrlFetch

def finish (f : UrlFetch) (result : UrlFetchResult) : UrlFetch := { f with stage := .done result }

def fail (f : UrlFetch) (code : UrlFetchCode) : UrlFetch := f.finish (.failed code none)

/-- The outer `catch`. -/
def caught (f : UrlFetch) : UrlFetch := f.fail (if f.timedOut then .timeout else .unreachable)

def connect (f : UrlFetch) (url : Url) (hop : Nat) (addr : ResolvedAddress) (all : List ResolvedAddress) : UrlFetch :=
  { f with stage := .connecting url hop, log := f.log ++ [.connected ⟨url, addr.address, addr.family, all⟩] }

/-- `vetHost` up to the resolver, and through it where the host is a literal. -/
def enterHop (f : UrlFetch) (url : Url) (hop : Nat) : UrlFetch :=
  let host := bareHost url
  if isIP host ≠ 0 then
    if isPublicAddress host then f.connect url hop ⟨host, isIP host⟩ [⟨host, isIP host⟩]
    else f.fail .addressNotAllowed
  else if isLocalhost host then f.fail .addressNotAllowed
  else { f with stage := .resolving url hop, log := f.log ++ [.asked host] }

/-- The rest of `vetHost`. -/
def answer (f : UrlFetch) (url : Url) (hop : Nat) : Option (List ResolvedAddress) → UrlFetch
  | none => f.fail .unreachable
  | some addrs =>
    let f : UrlFetch := { f with log := f.log ++ [.answered addrs] }
    match addrs with
    | [] => f.fail .unreachable
    | addr :: _ =>
      if addrs.all fun a => isPublicAddress a.address then f.connect url hop addr addrs
      else f.fail .addressNotAllowed

def redirects : List Nat := [301, 302, 303, 307, 308]

def redirect (w : Web) (limits : UrlFetchLimits) (f : UrlFetch) (url : Url) (hop : Nat) (location : Option Units) : UrlFetch :=
  match location with
  | none | some [] => f.finish (.failed .upstreamStatus (some 502))
  | some location =>
    if hop ≥ limits.maxRedirects then f.fail .tooManyRedirects
    else match w.parse location (some url) with
      | none => f.fail .invalidUrl
      | some next =>
        match vetUrl w limits.maxUrlLength (w.href next) with
        | .error code => f.fail code
        | .ok url => f.enterHop url (hop + 1)

def respond (w : Web) (limits : UrlFetchLimits) (f : UrlFetch) (url : Url) (hop : Nat) (r : TransportResponse) : UrlFetch :=
  if redirects.contains r.status then redirect w limits f url hop r.location
  else if r.status ≠ 200 then f.finish (.failed .upstreamStatus (some r.status))
  else if (r.contentLength.bind w.number).any fun claimed => claimed > (limits.maxBytes : Rat) then f.fail .tooLarge
  else { f with stage := .reading url r.contentDisposition [] 0 }

def step (w : Web) (limits : UrlFetchLimits) (f : UrlFetch) (i : FetchInput) : UrlFetch :=
  match f.stage, i with
  | _, .timer => { f with timedOut := true }
  | .resolving url hop, .answer addrs => f.answer url hop addrs
  | .connecting url hop, .response (some r) => respond w limits f url hop r
  | .connecting _ _, .response none => f.caught
  | .reading url contentDisposition chunks total, .chunk c =>
    if total + c.length > limits.maxBytes then f.fail .tooLarge
    else { f with stage := .reading url contentDisposition (chunks ++ [c]) (total + c.length) }
  | .reading url contentDisposition chunks _, .finished => f.finish (.ok chunks.flatten url contentDisposition)
  | .reading _ _ _ _, .bodyError => f.caught
  | .done _, _ => f
  -- the race is lost only once the timer has fired
  | _, .deadline => if f.timedOut then f.caught else f
  | _, _ => f

def run (w : Web) (limits : UrlFetchLimits) (f : UrlFetch) (inputs : List FetchInput) : UrlFetch :=
  inputs.foldl (step w limits) f

end UrlFetch

/-- The function up to its first await. -/
def fetchUrlSafely (w : Web) (limits : UrlFetchLimits) (raw : Units) : UrlFetch :=
  let f : UrlFetch := ⟨.done (.failed .invalidUrl none), false, []⟩
  match vetUrl w limits.maxUrlLength raw with
  | .error code => f.fail code
  | .ok url => f.enterHop url 0

-- ---------------------------------------------------------------------------
-- What is handed to the transport
-- ---------------------------------------------------------------------------

/-- The port that a connection for the URL goes to. -/
def Url.effectivePort (url : Url) : Nat := url.port.getD (if url.protocol = units "https:" then 443 else 80)

structure Url.Allowed (url : Url) : Prop where
  scheme : url.protocol = units "http:" ∨ url.protocol = units "https:"
  username : url.username = []
  password : url.password = []
  port : url.effectivePort = 80 ∨ url.effectivePort = 443

/-- A request whose addresses are the host itself or the whole answer to asking for
it just before, and are public each. -/
structure TransportRequest.Vouched (r : TransportRequest) (before : List FetchEvent) : Prop where
  first : r.addresses.head? = some ⟨r.address, r.family⟩
  publicEach : ∀ a ∈ r.addresses, isPublicAddress a.address = true
  source : (isIP (bareHost r.url) ≠ 0 ∧ r.addresses = [⟨bareHost r.url, isIP (bareHost r.url)⟩]) ∨
    ∃ earlier, before = earlier ++ [.asked (bareHost r.url), .answered r.addresses]

def FetchEvent.Ok (before : List FetchEvent) : FetchEvent → Prop
  | .connected r => r.url.Allowed ∧ r.Vouched before
  | _ => True

def Logged (log : List FetchEvent) : Prop := ∀ before e after, log = before ++ e :: after → e.Ok before

def FetchEvent.isConnected : FetchEvent → Bool
  | .connected _ => true
  | _ => false

def connections (log : List FetchEvent) : Nat := log.countP (·.isConnected)

theorem vetUrl_allowed (h : vetUrl w limit raw = .ok url) : url.Allowed := by
  rw [vetUrl] at h
  split at h
  · cases h
  · split at h
    · cases h
    · rename_i parsed _
      split at h
      · cases h
      · rename_i hscheme
        split at h
        · cases h
        · rename_i hcred
          split at h
          · cases h
          · rename_i hport
            split at h
            · cases h
            · rw [not_or, not_not, not_not] at hcred
              cases h
              refine ⟨?_, hcred.1, hcred.2, ?_⟩
              · by_contra hno
                rw [not_or] at hno
                exact hscheme hno
              · rw [Url.effectivePort]
                cases hp : parsed.port with
                | none =>
                  rw [Option.getD_none]
                  split
                  · exact .inr rfl
                  · exact .inl rfl
                | some p =>
                  rw [hp] at hport
                  simpa [allowedPorts, or_iff_not_imp_left] using hport

theorem Logged.concat (h : Logged log) (he : e.Ok log) : Logged (log ++ [e]) := by
  intro before x after heq
  rcases List.eq_nil_or_concat' after with rfl | ⟨rest, last, rfl⟩
  · obtain ⟨rfl, hlast⟩ := List.append_inj' heq rfl
    rw [List.singleton_inj] at hlast
    exact hlast ▸ he
  · rw [← List.cons_append, ← List.append_assoc] at heq
    exact h before x rest (List.append_inj' heq rfl).1

theorem connections_concat (log : List FetchEvent) (e : FetchEvent) :
    connections (log ++ [e]) = connections log + if e.isConnected then 1 else 0 := by
  rw [connections, List.countP_append, List.countP_singleton, connections]

-- ---------------------------------------------------------------------------
-- The invariant
-- ---------------------------------------------------------------------------

/-- What holds where the function waits. -/
def FetchAt.Ok (limits : UrlFetchLimits) (log : List FetchEvent) : FetchAt → Prop
  | .resolving url hop => url.Allowed ∧ hop ≤ limits.maxRedirects ∧ connections log = hop ∧
      ∃ earlier, log = earlier ++ [.asked (bareHost url)]
  | .connecting url hop => url.Allowed ∧ hop ≤ limits.maxRedirects ∧ connections log = hop + 1
  | .reading _ _ chunks total => total = chunks.flatten.length ∧ total ≤ limits.maxBytes
  | .done (.ok bytes _ _) => bytes.length ≤ limits.maxBytes
  | .done (.failed _ _) => True

structure UrlFetch.Inv (limits : UrlFetchLimits) (f : UrlFetch) : Prop where
  logged : Logged f.log
  count : connections f.log ≤ limits.maxRedirects + 1
  ok : f.stage.Ok limits f.log

namespace UrlFetch

variable {limits : UrlFetchLimits} {f : UrlFetch} {url : Url} {hop : Nat}

theorem Inv.fail (h : f.Inv limits) (code : UrlFetchCode) : (f.fail code).Inv limits := ⟨h.logged, h.count, trivial⟩

theorem Inv.refused (h : f.Inv limits) (code : UrlFetchCode) (status : Option Nat) :
    (f.finish (.failed code status)).Inv limits := ⟨h.logged, h.count, trivial⟩

theorem Inv.caught (h : f.Inv limits) : f.caught.Inv limits := h.fail _

theorem Inv.connect (hlog : Logged f.log) (hcount : connections f.log = hop) (hhop : hop ≤ limits.maxRedirects)
    (hurl : url.Allowed) (hv : TransportRequest.Vouched ⟨url, addr.address, addr.family, all⟩ f.log) :
    (f.connect url hop addr all).Inv limits := by
  have hconn : connections (f.connect url hop addr all).log = hop + 1 := by
    rw [UrlFetch.connect, connections_concat, hcount]
    rfl
  exact ⟨hlog.concat ⟨hurl, hv⟩, by rw [hconn]; omega, hurl, hhop, hconn⟩

theorem Inv.enterHop (hlog : Logged f.log) (hcount : connections f.log = hop) (hhop : hop ≤ limits.maxRedirects)
    (hurl : url.Allowed) : (f.enterHop url hop).Inv limits := by
  have hfail : ∀ code, (f.fail code).Inv limits := fun code => ⟨hlog, by rw [UrlFetch.fail, finish, hcount]; omega, trivial⟩
  rw [UrlFetch.enterHop]
  split
  · rename_i hip
    split
    · rename_i hpub
      refine Inv.connect hlog hcount hhop hurl ⟨rfl, ?_, .inl ⟨hip, rfl⟩⟩
      intro a ha
      rw [List.mem_singleton.1 ha]
      exact hpub
    · exact hfail _
  · split
    · exact hfail _
    · have hconn : connections (f.log ++ [.asked (bareHost url)]) = hop := by
        rw [connections_concat, hcount]
        rfl
      exact ⟨hlog.concat trivial, by rw [hconn]; omega, hurl, hhop, hconn, f.log, rfl⟩

theorem Inv.answer (h : f.Inv limits) (hat : f.stage = .resolving url hop) (addrs : Option (List ResolvedAddress)) :
    (f.answer url hop addrs).Inv limits := by
  have hok := h.ok
  rw [hat] at hok
  obtain ⟨hurl, hhop, hcount, earlier, hearlier⟩ := hok
  cases addrs with
  | none => exact h.fail _
  | some addrs =>
    have hlog : Logged (f.log ++ [.answered addrs]) := h.logged.concat trivial
    have hconn : connections (f.log ++ [.answered addrs]) = hop := by
      rw [connections_concat, hcount]
      rfl
    have hfail : ∀ code, Inv limits (({ f with log := f.log ++ [.answered addrs] } : UrlFetch).fail code) := fun code =>
      ⟨hlog, by rw [UrlFetch.fail, finish, hconn]; omega, trivial⟩
    rw [UrlFetch.answer.eq_def]
    cases addrs with
    | nil => exact hfail _
    | cons addr rest =>
      simp only
      split
      · rename_i hall
        refine Inv.connect hlog hconn hhop hurl ⟨rfl, List.all_eq_true.1 hall, .inr ⟨earlier, ?_⟩⟩
        rw [hearlier, List.append_assoc]
        rfl
      · exact hfail _

theorem Inv.redirect (w : Web) (h : f.Inv limits) (hat : f.stage = .connecting url hop) (location : Option Units) :
    (redirect w limits f url hop location).Inv limits := by
  have hok := h.ok
  rw [hat] at hok
  obtain ⟨-, -, hcount⟩ := hok
  rw [UrlFetch.redirect.eq_def]
  split
  · exact h.refused _ _
  · exact h.refused _ _
  · split
    · exact h.fail _
    · rename_i hmore
      split
      · exact h.fail _
      · split
        · exact h.fail _
        · rename_i next hvet
          exact Inv.enterHop h.logged hcount (by omega) (vetUrl_allowed hvet)

theorem Inv.respond (w : Web) (h : f.Inv limits) (hat : f.stage = .connecting url hop) (r : TransportResponse) :
    (respond w limits f url hop r).Inv limits := by
  rw [UrlFetch.respond.eq_def]
  split
  · exact h.redirect w hat _
  · split
    · exact h.refused _ _
    · split
      · exact h.fail _
      · exact ⟨h.logged, h.count, rfl, Nat.zero_le _⟩

/-- One input. -/
theorem Inv.step (w : Web) (h : f.Inv limits) (i : FetchInput) : (step w limits f i).Inv limits := by
  have hok := h.ok
  rw [UrlFetch.step.eq_def]
  split
  · exact ⟨h.logged, h.count, h.ok⟩
  · rename_i hat
    exact h.answer hat _
  · rename_i hat
    exact h.respond w hat _
  · exact h.caught
  · rename_i url cd chunks total c hat
    rw [hat] at hok
    split
    · exact h.fail _
    · refine ⟨h.logged, h.count, ?_, by omega⟩
      rw [List.flatten_append, List.flatten_singleton, List.length_append, hok.1]
  · rename_i url cd chunks total hat
    rw [hat] at hok
    refine ⟨h.logged, h.count, ?_⟩
    show chunks.flatten.length ≤ limits.maxBytes
    rw [← hok.1]
    exact hok.2
  · exact h.caught
  · exact h
  · split
    · exact h.caught
    · exact h
  · exact h

theorem Inv.run (w : Web) (h : f.Inv limits) (inputs : List FetchInput) : (run w limits f inputs).Inv limits := by
  induction inputs generalizing f with
  | nil => exact h
  | cons i inputs ih => exact ih (h.step w i)

theorem Inv.start (w : Web) (limits : UrlFetchLimits) (raw : Units) : (fetchUrlSafely w limits raw).Inv limits := by
  have hlog : Logged [] := by
    intro before e after h
    cases List.append_eq_nil_iff.1 h.symm |>.2
  rw [fetchUrlSafely]
  cases hvet : vetUrl w limits.maxUrlLength raw with
  | error code => exact ⟨hlog, Nat.zero_le _, trivial⟩
  | ok url => exact Inv.enterHop hlog rfl (Nat.zero_le _) (vetUrl_allowed hvet)

end UrlFetch

-- ---------------------------------------------------------------------------
-- Only public addresses
-- ---------------------------------------------------------------------------

theorem fetch_public (w : Web) (limits : UrlFetchLimits) (raw : Units) (inputs : List FetchInput) :
    let f := UrlFetch.run w limits (fetchUrlSafely w limits raw) inputs
    (∀ before r after, f.log = before ++ .connected r :: after → r.url.Allowed ∧ r.Vouched before ∧
      ∀ a ∈ r.addresses, ∃ v, Denotes (bare a.address) v ∧ v.Public) ∧
    connections f.log ≤ limits.maxRedirects + 1 ∧
    (∀ bytes url contentDisposition, f.stage = .done (.ok bytes url contentDisposition) → bytes.length ≤ limits.maxBytes) ∧
    (∀ s a, Denotes s a → (isPublicAddress s = true ↔ a.Public)) ∧
    ∀ s, isIP s ≠ 0 → (∃ a, Denotes s a) ∨ ((∃ a, Zoned s a) ∧ isPublicAddress s = false) := by
  have hinv := (UrlFetch.Inv.start w limits raw).run w inputs
  refine ⟨fun before r after hlog => ?_, hinv.count, fun bytes url cd hat => ?_, fun s a h => isPublicAddress_iff h,
    fun s h => ?_⟩
  · obtain ⟨hurl, hv⟩ := hinv.logged before _ after hlog
    exact ⟨hurl, hv, fun a ha => isPublicAddress_denotes (hv.publicEach a ha)⟩
  · have hok := hinv.ok
    rw [hat] at hok
    exact hok
  · obtain h | ⟨a, ha⟩ := isIP_accepts h
    · exact .inl h
    · exact .inr ⟨⟨a, ha⟩, isPublicAddress_zoned ha⟩

def sampleText : V6Text :=
  .gapped [⟨units "2606", by decide⟩, ⟨units "4700", by decide⟩, ⟨units "4700", by decide⟩] [⟨units "1111", by decide⟩]
    none (by decide)

/-- A zone id behind a public address is refused though `isIP` accepts the text. -/
theorem zoned_refused : isIP (units "2606:4700:4700::1111%eth0") = 6 ∧
    Zoned (units "2606:4700:4700::1111%eth0") (.v6 sampleText.value) ∧ (Address.v6 sampleText.value).Public ∧
    isPublicAddress (units "2606:4700:4700::1111%eth0") = false := by
  have htext : units "2606:4700:4700::1111%eth0" = sampleText.text ++ percent :: units "eth0" := by decide
  have hzoned : Zoned (units "2606:4700:4700::1111%eth0") (.v6 sampleText.value) :=
    htext ▸ .mk sampleText (by decide) (by decide)
  exact ⟨by decide, hzoned, (isPublicAddress_iff (.v6 sampleText)).1 (by decide),
    isPublicAddress_zoned hzoned⟩

end WebAdf.Fetch
