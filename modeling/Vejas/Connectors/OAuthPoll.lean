import Vejas.Connectors.Salesforce
import Vejas.Connectors.Wire
import Vejas.Lib.Percent
import Vejas.Lib.Trace
import Vejas.Runtime.Stamps

/-! `oauth-poll`: a token from one endpoint, pages from the others, link by link. Whatever the
endpoints answer, a page is published after the one that links to it, and a token that is
refused is renewed at once. The whole of what the poller sends and ships is one log, and what
it may look like is said without the cache, the clocks and the looks at the unit. -/

namespace Vejas.Connectors.OAuthPoll
open Json Rust Vjs Fallible

structure Expand where
  name : String
  list : String
  detail : String
  key : String
  asField : String
  listField : String

structure Setup where
  tokenUrl : String
  clientId : String
  clientSecret : String
  scope : String
  base : String
  endpoints : List String
  expands : List Expand
  subject : String
  interval : Nat
  maxPages : Nat
  nextField : String

def parseExpand (e : Value) : Except String Expand :=
  match e.text "name", e.text "list", e.text "detail", e.text "key", e.text "as" with
  | some name, some list, some detail, some key, some asField =>
    .ok ⟨name, list, detail, key, asField, (e.text "list_field").getD "value"⟩
  | _, _, _, _, _ => .error "every EXPAND entry needs name, list, detail, key and as"

def parseExpands (cfg : Value) : Except String (List Expand) :=
  match cfg.get "EXPAND" with
  | none => .ok []
  | some raw =>
    match raw.asArray with
    | none => .error "EXPAND must be a list of \x7bname, list, detail, key, as\x7d docs"
    | some entries => entries.mapM parseExpand

def wanted (cfg : Value) (key : String) : Except String String :=
  match cfg.text key with
  | some s => .ok s
  | none => .error (key ++ " required")

def listed (cfg : Value) (key : String) : List String :=
  (((cfg.get key).bind Value.asArray).getD []).filterMap Value.asStr

def setup (cfg : Value) (subjectOf : String → String) : Except String Setup := do
  let tokenUrl ← wanted cfg "TOKEN_URL"
  let clientId ← wanted cfg "CLIENT_ID"
  let clientSecret ← wanted cfg "CLIENT_SECRET"
  let base ← wanted cfg "BASE_URL"
  let endpoints := listed cfg "ENDPOINTS"
  let expands ← parseExpands cfg
  if endpoints.isEmpty && expands.isEmpty then .error "ENDPOINTS or EXPAND required"
  else
    let subject ← wanted cfg "SUBJECT"
    pure {
      tokenUrl, clientId, clientSecret, base, endpoints, expands
      scope := (cfg.text "SCOPE").getD ""
      subject := subjectOf subject
      interval := max (((cfg.index "INTERVAL_SECS").asU64).getD 300) 1
      maxPages := max (((cfg.index "MAX_PAGES").asU64).getD 10) 1
      nextField := (cfg.text "NEXT_LINK_FIELD").getD "@odata.nextLink" }

def urlencode : String → String := Salesforce.enc

def joinUrl (base endpoint : String) : String :=
  if startsWith endpoint "http://" || startsWith endpoint "https://" then endpoint
  else onChars (fun cs => (cs.reverse.dropWhile (· == '/')).reverse) base ++ "/" ++ onChars (·.dropWhile (· == '/')) endpoint

def nextUrl (base : String) (body : Value) (field : String) : Option String :=
  ((body.text field).filter (· != "")).map (joinUrl base)

def fillTemplate (template key value : String) : String := replace template ("\x7b" ++ key ++ "\x7d") value

def tokenForm (c : Setup) : String :=
  "grant_type=client_credentials&client_id=" ++ urlencode c.clientId ++ "&client_secret=" ++ urlencode c.clientSecret ++
    if c.scope = "" then "" else "&scope=" ++ urlencode c.scope

abbrev Answer := Except String (Nat × Bytes)

structure Page where
  logical : String
  url : String
  fetchedAt : String
  body : Value

def Page.envelope (p : Page) : Value :=
  .obj [("endpoint", .string p.logical), ("fetched_at", .string p.fetchedAt), ("body", p.body)]

inductive Event
  | token (form : String) (res : Answer)
  | get (url token : String) (res : Answer)
  | publish (page : Page) (res : Except String Unit)

/-- What comes from outside: the answers to what is logged n-th, the clock at its n-th reading and
whether the unit is still wanted at the n-th look. -/
structure Outside where
  http : Nat → Answer
  publish : Nat → Except String Unit
  now : Nat → UInt64
  instant : Nat → Nat
  alive : Nat → Bool
  jsonError : Bytes → String

structure Poller where
  cached : Option (String × Nat)
  log : List Event
  readings : Nat
  looks : Nat

inductive Exit
  | stopped
  | failed (e : String)
  | panicked

abbrev Poll (α : Type) := Fallible Exit Poller α

def isOk (code : Nat) : Bool := decide (200 ≤ code) && decide (code < 300)

variable (o : Outside) (c : Setup)

def look : Poll Unit := fun p =>
  (if o.alive p.looks then .ok () else .error .stopped, { p with looks := p.looks + 1 })

def request (exchange : Answer → Event) : Poll Answer := fun p =>
  (.ok (o.http p.log.length), { p with log := p.log ++ [exchange (o.http p.log.length)] })

def readToken : Answer → Except String (String × Nat)
  | .error e => .error e
  | .ok (code, body) =>
    if isOk code then
      match fromSlice body with
      | none => .error ("token endpoint: bad JSON: " ++ o.jsonError body)
      | some v =>
        match v.text "access_token" with
        | none => .error "token endpoint: no access_token in response"
        | some tok => .ok (tok, max (((v.index "expires_in").asU64).getD 300 - 60) 30)
    else .error ("token endpoint HTTP " ++ toString code ++ ": " ++ trim (textOf (body.take 300)))

def keep (tok : String) (ttl : Nat) : Poll Unit := fun p =>
  -- a deadline past what an `Instant` holds panics, and the cache goes with the run
  (if o.instant p.readings + ttl < 2 ^ 63 then .ok () else .error .panicked,
    { p with cached := some (tok, o.instant p.readings + ttl), readings := p.readings + 1 })

def invalidate : Poll Unit := .modify fun p => { p with cached := none }

def freshToken : Poll (Except String String) := do
  match readToken o (← request o (.token (tokenForm c))) with
  | .error e => pure (.error e)
  | .ok (tok, ttl) =>
    keep o tok ttl
    pure (.ok tok)

def held : Poll (Option String) := fun p =>
  match p.cached with
  | none => (.ok none, p)
  | some (tok, deadline) =>
    (.ok (if o.instant p.readings < deadline then some tok else none), { p with readings := p.readings + 1 })

def bearer : Poll (Except String String) := do
  match ← held o with
  | some tok => pure (.ok tok)
  | none => freshToken o c

def withToken (token : Poll (Except String String)) (f : String → Poll Answer) : Poll Answer := do
  match ← token with
  | .error e => pure (.error e)
  | .ok tok => f tok

def retry (url : String) (first : Answer) : Poll Answer :=
  match first with
  | .ok (401, _) => do
    invalidate
    withToken (bearer o c) fun tok => request o (.get url tok)
  | other => pure other

def authedGet (url : String) : Poll Answer :=
  withToken (bearer o c) fun tok => do
    let first ← request o (.get url tok)
    retry o c url first

def publishPage (logical url : String) (body : Value) : Poll Unit := fun p =>
  match Stamps.iso8601Utc (o.now p.log.length) with
  | none => (.error .panicked, p)
  | some fetchedAt =>
    (match o.publish p.log.length with
      | .ok () => .ok ()
      | .error e => .error (.failed ("publish: " ++ e)),
      { p with log := p.log ++ [.publish ⟨logical, url, fetchedAt, body⟩ (o.publish p.log.length)] })

def asRecord (spec : Expand) : Value → Value
  | .string id => .obj [(spec.key, .string id)]
  | v => v

def parsed : Answer → Option Value
  | .error _ => none
  | .ok (code, body) => if isOk code then fromSlice body else none

def detailOf (ans : Answer) : Value := (parsed ans).getD .null

def withField (item : Value) (field : String) (v : Value) : Value :=
  match item with
  | .object fields => .object (Map.insert field v fields)
  | other => other

def enrichItem (spec : Expand) (item : Value) : Poll Value :=
  match (asRecord spec item).text spec.key with
  | none => pure (asRecord spec item)
  | some id => do
    let detail ← authedGet o c (joinUrl c.base (fillTemplate spec.detail spec.key id))
    pure (withField (asRecord spec item) spec.asField (detailOf detail))

def enrichAll (spec : Expand) : List Value → Poll (List Value)
  | [] => pure []
  | item :: items => do
    look o
    let item ← enrichItem o c spec item
    let items ← enrichAll spec items
    pure (item :: items)

def enrich (spec : Expand) (body : Value) : Poll Value :=
  match (body.get spec.listField).bind Value.asArray with
  | none => pure body
  | some items => do
    let items ← enrichAll o c spec items
    pure (withField body spec.listField (.array items))

def readPage (ready : Value → Poll Value) (ans : Answer) : Poll (Option Value) :=
  match parsed ans with
  | none => pure none
  | some raw => do
    let body ← ready raw
    pure (some body)

def fetchPage (ready : Value → Poll Value) (url : String) : Poll (Option Value) := do
  look o
  let ans ← authedGet o c url
  readPage ready ans

def pagesFrom (logical : String) (ready : Value → Poll Value) : Nat → String → Poll Unit
  | 0, _ => pure ()
  | n + 1, url => do
    match ← fetchPage o c ready url with
    | none => pure ()
    | some body =>
      publishPage o logical url body
      match nextUrl c.base body c.nextField with
      | none => pure ()
      | some next => pagesFrom logical ready n next

def eachEndpoint : List String → Poll Unit
  | [] => pure ()
  | ep :: eps => do
    pagesFrom o c ep pure c.maxPages (joinUrl c.base ep)
    eachEndpoint eps

def eachExpand : List Expand → Poll Unit
  | [] => pure ()
  | spec :: specs => do
    pagesFrom o c spec.name (enrich o c spec) c.maxPages (joinUrl c.base spec.list)
    eachExpand specs

def tick : Poll Unit := do
  match ← bearer o c with
  | .error e => .throw (.failed e)
  | .ok _ =>
    eachEndpoint o c c.endpoints
    eachExpand o c c.expands

def wait : Nat → Poll Unit
  | 0 => pure ()
  | n + 1 => do
    look o
    wait n

def ticks : Nat → Poll Unit
  | 0 => pure ()
  | n + 1 => do
    ticks n
    wait o (if n = 0 then 1 else 4 * c.interval)
    tick o c

def Poller.start : Poller := ⟨none, [], 0, 0⟩

inductive Source
  | endpoint (path : String)
  | expand (spec : Expand)

def Source.logical : Source → String
  | .endpoint path => path
  | .expand spec => spec.name

def Source.path : Source → String
  | .endpoint path => path
  | .expand spec => spec.list

def Setup.sources (c : Setup) : List Source := c.endpoints.map .endpoint ++ c.expands.map .expand

def Event.shipped : Event → Bool
  | .publish _ (.ok ()) => true
  | _ => false

def Quiet (evs : List Event) : Prop := ∀ ev ∈ evs, ev.shipped = false

def Tokens (evs : List Event) : Prop := evs = [] ∨ ∃ res, evs = [.token (tokenForm c) res]

/-- What a GET comes to: a token that is refused is renewed at once, and the answer to the second try counts. -/
inductive Asked (url : String) : Answer → List Event → Prop
  | answered {ans pre} (tok : String) : Tokens c pre → (∀ body, ans ≠ .ok (401, body)) → Asked url ans (pre ++ [.get url tok ans])
  | renewed {ans pre res tok' ttl} (tok : String) (body : Bytes) : Tokens c pre → readToken o res = .ok (tok', ttl) →
      Asked url ans (pre ++ [.get url tok (.ok (401, body)), .token (tokenForm c) res, .get url tok' ans])
  | unrenewed {pre res e} (tok : String) (body : Bytes) : Tokens c pre → readToken o res = .error e →
      Asked url (.error e) (pre ++ [.get url tok (.ok (401, body)), .token (tokenForm c) res])
  | tokenless {res e} : readToken o res = .error e → Asked url (.error e) [.token (tokenForm c) res]

inductive Detail (spec : Expand) (item : Value) : Value → List Event → Prop
  | plain : (asRecord spec item).text spec.key = none → Detail spec item (asRecord spec item) []
  | joined {id ans evs} : (asRecord spec item).text spec.key = some id →
      Asked o c (joinUrl c.base (fillTemplate spec.detail spec.key id)) ans evs →
      Detail spec item (withField (asRecord spec item) spec.asField (detailOf ans)) evs

inductive Details (spec : Expand) : List Value → List Value → List Event → Prop
  | done : Details spec [] [] []
  | item {item items item' items' evs more} : Detail o c spec item item' evs → Details spec items items' more →
      Details spec (item :: items) (item' :: items') (evs ++ more)

inductive Ready : Source → Value → Value → List Event → Prop
  | endpoint (path : String) (raw : Value) : Ready (.endpoint path) raw raw []
  | listless {spec raw} : (raw.get spec.listField).bind Value.asArray = none → Ready (.expand spec) raw raw []
  | listed {spec raw items items' evs} : (raw.get spec.listField).bind Value.asArray = some items →
      Details o c spec items items' evs → Ready (.expand spec) raw (withField raw spec.listField (.array items')) evs

inductive Got (src : Source) (url : String) : Option Value → List Event → Prop
  | nothing {ans evs} : Asked o c url ans evs → parsed ans = none → Got src url none evs
  | page {ans evs raw more body} : Asked o c url ans evs → parsed ans = some raw → Ready o c src raw body more →
      Got src url (some body) (evs ++ more)

/-- Page after page, each under the url that the one before names as its next; a whole walk ends with a
page that names none, with one that cannot be had, or with the last that is allowed. -/
inductive Walk (src : Source) (whole : Bool) : Nat → String → List Event → Prop
  | full (url : String) : Walk src whole 0 url []
  | ended {n url evs} : Got o c src url none evs → Walk src whole (n + 1) url evs
  | last {n url body evs secs t} : Got o c src url (some body) evs → nextUrl c.base body c.nextField = none →
      Stamps.iso8601Utc secs = some t →
      Walk src whole (n + 1) url (evs ++ [.publish ⟨src.logical, url, t, body⟩ (.ok ())])
  | next {n url body evs secs t url' rest} : Got o c src url (some body) evs → nextUrl c.base body c.nextField = some url' →
      Stamps.iso8601Utc secs = some t → Walk src whole n url' rest →
      Walk src whole (n + 1) url (evs ++ .publish ⟨src.logical, url, t, body⟩ (.ok ()) :: rest)
  | broken {n url evs} : whole = false → Quiet evs → Walk src whole n url evs

inductive Round (whole : Bool) : List Source → List Event → Prop
  | done : Round whole [] []
  | visit {src srcs evs rest} : Walk o c src true c.maxPages (joinUrl c.base src.path) evs → Round whole srcs rest →
      Round whole (src :: srcs) (evs ++ rest)
  | broken {src srcs evs} : whole = false → Walk o c src false c.maxPages (joinUrl c.base src.path) evs →
      Round whole (src :: srcs) evs

/-- A look at the token, and then a round; or it broke before anything got through. -/
def Ticked (whole : Bool) (evs : List Event) : Prop :=
  (∃ pre round, evs = pre ++ round ∧ Tokens c pre ∧ Round o c whole c.sources round) ∨
    (whole = false ∧ Quiet evs)

theorem quiet_nil : Quiet [] := fun _ h => absurd h List.not_mem_nil

theorem quiet_append {evs more : List Event} (h : Quiet evs) (h' : Quiet more) : Quiet (evs ++ more) := by
  intro ev hev
  rcases List.mem_append.mp hev with hmem | hmem
  · exact h ev hmem
  · exact h' ev hmem

theorem quiet_one {ev : Event} (hev : ev.shipped = false) : Quiet [ev] := List.forall_mem_singleton.mpr hev

def Result {α : Type} (Q : α → List Event → Prop) : Except Exit α → List Event → Prop
  | .ok a, evs => Q a evs
  | .error _, evs => Quiet evs

abbrev Appends {α : Type} (m : Poll α) (Q : α → List Event → Prop) : Prop := Logs Poller.log m (Result Q)

section
variable {α β : Type} {m : Poll α} {f : α → Poll β} {Q : α → List Event → Prop}

theorem Appends.pure {a : α} (h : Q a []) : Appends (Pure.pure a) Q := Logs.pure h

theorem Appends.bind {R : α → β → List Event → Prop} {S : β → List Event → Prop} (hm : Appends m Q)
    (hquiet : ∀ a evs, Q a evs → Quiet evs) (hf : ∀ a, Appends (f a) (R a))
    (hok : ∀ a evs b rest, Q a evs → R a b rest → S b (evs ++ rest)) : Appends (m >>= f) S := by
  apply Logs.bind hm hf
  · intro e evs h
    exact h
  · intro a evs r rest h h'
    cases r with
    | ok b => exact hok a evs b rest h h'
    | error e => exact quiet_append (hquiet a evs h) h'

end

theorem look_appends : Appends (look o) fun _ evs => evs = [] := by
  apply Logs.silent
  · intro p
    rfl
  · intro p
    unfold look
    dsimp only
    split
    · rfl
    · exact quiet_nil

theorem request_appends (exchange : Answer → Event) :
    Appends (request o exchange) fun res evs => evs = [exchange res] :=
  Logs.event fun _ => ⟨_, rfl, rfl⟩

def Granted : Except String String → List Event → Prop
  | .ok tok, evs => ∃ res ttl, evs = [.token (tokenForm c) res] ∧ readToken o res = .ok (tok, ttl)
  | .error e, evs => ∃ res, evs = [.token (tokenForm c) res] ∧ readToken o res = .error e

def Borne : Except String String → List Event → Prop
  | .ok _, evs => Tokens c evs
  | .error e, evs => Granted o c (.error e) evs

theorem Granted.tokens {o c res evs} (h : Granted o c res evs) : Tokens c evs := by
  cases res with
  | ok tok =>
    obtain ⟨res, -, rfl, -⟩ := h
    exact .inr ⟨res, rfl⟩
  | error e =>
    obtain ⟨res, rfl, -⟩ := h
    exact .inr ⟨res, rfl⟩

theorem Borne.tokens {o c res evs} (h : Borne o c res evs) : Tokens c evs := by
  cases res with
  | ok tok => exact h
  | error e =>
    have hgranted : Granted o c (.error e) evs := h
    exact hgranted.tokens

theorem Tokens.quiet {c evs} (h : Tokens c evs) : Quiet evs := by
  rcases h with rfl | ⟨res, rfl⟩
  · exact quiet_nil
  · exact quiet_one rfl

theorem keep_appends (tok : String) (ttl : Nat) : Appends (keep o tok ttl) fun _ evs => evs = [] := by
  apply Logs.silent
  · intro p
    rfl
  · intro p
    unfold keep
    dsimp only
    split
    · rfl
    · exact quiet_nil

theorem freshToken_appends : Appends (freshToken o c) (Granted o c) := by
  unfold freshToken
  apply Appends.bind (request_appends o _) (R := fun res tok evs => Granted o c tok ([.token (tokenForm c) res] ++ evs))
  · rintro res _ rfl
    exact quiet_one rfl
  · intro res
    cases hread : readToken o res with
    | error e => exact Appends.pure ⟨res, rfl, hread⟩
    | ok granted =>
      obtain ⟨tok, ttl⟩ := granted
      apply Appends.bind (keep_appends o tok ttl) (R := fun _ tok' evs => tok' = .ok tok ∧ evs = [])
      · rintro _ _ rfl
        exact quiet_nil
      · intro _
        exact Appends.pure ⟨rfl, rfl⟩
      · rintro _ _ _ _ rfl ⟨rfl, rfl⟩
        exact ⟨res, ttl, rfl, hread⟩
  · rintro res _ tok evs rfl h
    exact h

theorem held_appends : Appends (held o) fun _ evs => evs = [] := by
  apply Logs.silent
  · intro p
    unfold held
    split <;> rfl
  · intro p
    unfold held
    split <;> rfl

theorem bearer_appends : Appends (bearer o c) (Borne o c) := by
  unfold bearer
  apply Appends.bind (held_appends o) (R := fun _ => Borne o c)
  · rintro _ _ rfl
    exact quiet_nil
  · intro tok
    cases tok with
    | some tok => exact Appends.pure (.inl rfl)
    | none =>
      refine (freshToken_appends o c).mono fun r evs h => ?_
      cases r with
      | error e => exact h
      | ok res =>
        cases res with
        | ok tok =>
          have hgranted : Granted o c (.ok tok) evs := h
          exact hgranted.tokens
        | error e => exact h
  · rintro _ _ res evs rfl h
    exact h

theorem Asked.quiet {o c url ans evs} (h : Asked o c url ans evs) : Quiet evs := by
  cases h with
  | answered tok h _ => exact quiet_append h.quiet (quiet_one rfl)
  | renewed tok body h _ => exact quiet_append h.quiet (quiet_append (quiet_one rfl) (quiet_append (quiet_one rfl) (quiet_one rfl)))
  | unrenewed tok body h _ => exact quiet_append h.quiet (quiet_append (quiet_one rfl) (quiet_one rfl))
  | tokenless _ => exact quiet_one rfl

theorem invalidate_appends : Appends invalidate fun _ evs => evs = [] := Logs.silent (fun _ => rfl) fun _ => rfl

theorem withToken_appends {m : Poll (Except String String)} {f : String → Poll Answer}
    {T : Except String String → List Event → Prop} {F : String → Answer → List Event → Prop} {S : Answer → List Event → Prop}
    (hm : Appends m T) (hquiet : ∀ res evs, T res evs → Quiet evs) (hf : ∀ tok, Appends (f tok) (F tok))
    (herror : ∀ e evs, T (.error e) evs → S (.error e) evs)
    (hok : ∀ tok evs ans rest, T (.ok tok) evs → F tok ans rest → S ans (evs ++ rest)) : Appends (withToken m f) S := by
  apply Appends.bind hm hquiet (R := fun res ans rest => ∀ evs, T res evs → S ans (evs ++ rest))
  · intro res
    cases res with
    | error e =>
      apply Appends.pure
      intro evs h
      rw [List.append_nil]
      exact herror e evs h
    | ok tok =>
      refine (hf tok).mono fun r rest h => ?_
      cases r with
      | ok ans => exact fun evs ht => hok tok evs ans rest ht h
      | error e => exact h
  · intro res evs ans rest h h'
    exact h' evs h

theorem renew_eq (f : String → Poll Answer) :
    (invalidate >>= fun _ => withToken (bearer o c) f) = (invalidate >>= fun _ => withToken (freshToken o c) f) := rfl

theorem retry_appends (url : String) (first : Answer) : Appends (retry o c url first)
    fun ans evs => ∀ tok pre, Tokens c pre → Asked o c url ans (pre ++ .get url tok first :: evs) := by
  unfold retry
  split
  next body =>
    rw [renew_eq]
    apply Appends.bind invalidate_appends (R := fun _ ans evs =>
      ∀ tok pre, Tokens c pre → Asked o c url ans (pre ++ .get url tok (.ok (401, body)) :: evs))
    · rintro _ _ rfl
      exact quiet_nil
    · intro _
      apply withToken_appends (freshToken_appends o c) (fun _ _ h => h.tokens.quiet) fun tok => request_appends o (.get url tok)
      · rintro e _ ⟨res, rfl, hread⟩ tok pre hpre
        exact .unrenewed tok body hpre hread
      · rintro tok' _ ans _ ⟨res, ttl, rfl, hread⟩ rfl tok pre hpre
        exact .renewed tok body hpre hread
    · rintro _ _ ans evs rfl h
      exact h
  next hother =>
    apply Appends.pure
    intro tok pre hpre
    exact .answered tok hpre fun body h => hother body h

theorem authedGet_appends (url : String) : Appends (authedGet o c url) (Asked o c url) := by
  apply withToken_appends (bearer_appends o c) (fun _ _ h => h.tokens.quiet)
    (F := fun tok ans evs => ∀ pre, Tokens c pre → Asked o c url ans (pre ++ evs))
  · intro tok
    apply Appends.bind (request_appends o _) (fun _ _ h => h ▸ quiet_one rfl) (retry_appends o c url)
    rintro first _ ans evs rfl h pre hpre
    exact h tok pre hpre
  · rintro e _ ⟨res, rfl, hread⟩
    exact .tokenless hread
  · intro tok evs ans rest h h'
    exact h' evs h

theorem look_bind {α : Type} {m : Poll α} {Q : α → List Event → Prop} (h : Appends m Q) :
    Appends (look o >>= fun _ => m) Q := by
  apply Appends.bind (look_appends o) (R := fun _ => Q)
  · rintro _ _ rfl
    exact quiet_nil
  · intro _
    exact h
  · rintro _ _ _ _ rfl hq
    exact hq

theorem Detail.quiet {o c spec item item' evs} (h : Detail o c spec item item' evs) : Quiet evs := by
  cases h with
  | plain => exact quiet_nil
  | joined _ hasked => exact hasked.quiet

theorem Details.quiet {o c spec items items' evs} (h : Details o c spec items items' evs) : Quiet evs := by
  induction h with
  | done => exact quiet_nil
  | item hitem _ ih => exact quiet_append hitem.quiet ih

theorem Ready.quiet {o c src raw body evs} (h : Ready o c src raw body evs) : Quiet evs := by
  cases h with
  | endpoint => exact quiet_nil
  | listless _ => exact quiet_nil
  | listed _ hdetails => exact hdetails.quiet

theorem Got.quiet {o c src url got evs} (h : Got o c src url got evs) : Quiet evs := by
  cases h with
  | nothing hasked _ => exact hasked.quiet
  | page hasked _ hready => exact quiet_append hasked.quiet hready.quiet

theorem enrichItem_appends (spec : Expand) (item : Value) : Appends (enrichItem o c spec item) (Detail o c spec item) := by
  unfold enrichItem
  split
  next hnone => exact Appends.pure (.plain hnone)
  next id hid =>
    apply Appends.bind (authedGet_appends o c _) (fun _ _ => Asked.quiet) (R := fun ans item' evs =>
      item' = withField (asRecord spec item) spec.asField (detailOf ans) ∧ evs = [])
    · intro ans
      exact Appends.pure ⟨rfl, rfl⟩
    · rintro ans evs _ _ hasked ⟨rfl, rfl⟩
      rw [List.append_nil]
      exact .joined hid hasked

theorem enrichAll_appends (spec : Expand) (items : List Value) : Appends (enrichAll o c spec items) (Details o c spec items) := by
  induction items with
  | nil => exact Appends.pure .done
  | cons item items ih =>
    apply look_bind
    apply Appends.bind (enrichItem_appends o c spec item) (fun _ _ => Detail.quiet)
      (R := fun item' all evs => ∃ items', all = item' :: items' ∧ Details o c spec items items' evs)
    · intro item'
      apply Appends.bind ih (fun _ _ => Details.quiet) (R := fun items' all evs => all = item' :: items' ∧ evs = [])
      · intro items'
        exact Appends.pure ⟨rfl, rfl⟩
      · rintro items' evs _ _ h ⟨rfl, rfl⟩
        rw [List.append_nil]
        exact ⟨items', rfl, h⟩
    · rintro item' evs _ more hitem ⟨items', rfl, h⟩
      exact .item hitem h

theorem enrich_appends (spec : Expand) (raw : Value) : Appends (enrich o c spec raw) (Ready o c (.expand spec) raw) := by
  unfold enrich
  split
  next hnone => exact Appends.pure (.listless hnone)
  next items hitems =>
    apply Appends.bind (enrichAll_appends o c spec items) (fun _ _ => Details.quiet) (R := fun items' body evs =>
      body = withField raw spec.listField (.array items') ∧ evs = [])
    · intro items'
      exact Appends.pure ⟨rfl, rfl⟩
    · rintro items' evs _ _ h ⟨rfl, rfl⟩
      rw [List.append_nil]
      exact .listed hitems h

def Readies (src : Source) (ready : Value → Poll Value) : Prop := ∀ raw, Appends (ready raw) (Ready o c src raw)

theorem publishPage_appends (logical url : String) (body : Value) : Appends (publishPage o logical url body)
    fun _ evs => ∃ secs t, Stamps.iso8601Utc secs = some t ∧ evs = [.publish ⟨logical, url, t, body⟩ (.ok ())] := by
  intro p
  unfold publishPage
  split
  next => exact ⟨[], (List.append_nil _).symm, quiet_nil⟩
  next t ht =>
    refine ⟨_, rfl, ?_⟩
    cases o.publish p.log.length with
    | ok u => exact ⟨_, t, ht, rfl⟩
    | error e => exact quiet_one rfl

def Continues (src : Source) (n : Nat) (url : String) (got : Option Value) (r : Except Exit Unit) (rest : List Event) : Prop :=
  ∀ evs, Got o c src url got evs → Walk o c src r.isOk (n + 1) url (evs ++ rest)

section
variable {o c} {src : Source} {ready : Value → Poll Value}

theorem readPage_appends (hready : Readies o c src ready) (ans : Answer) : Appends (readPage ready ans) fun got evs =>
    ∀ url pre, Asked o c url ans pre → Got o c src url got (pre ++ evs) := by
  unfold readPage
  split
  next hnone =>
    apply Appends.pure
    intro url pre hasked
    rw [List.append_nil]
    exact .nothing hasked hnone
  next raw hraw =>
    apply Appends.bind (hready raw) (fun _ _ => Ready.quiet) (R := fun body got evs => got = some body ∧ evs = [])
    · intro body
      exact Appends.pure ⟨rfl, rfl⟩
    · rintro body evs _ _ h ⟨rfl, rfl⟩ url pre hasked
      rw [List.append_nil]
      exact .page hasked hraw h

theorem fetchPage_appends (hready : Readies o c src ready) (url : String) : Appends (fetchPage o c ready url) (Got o c src url) := by
  apply look_bind
  apply Appends.bind (authedGet_appends o c url) (fun _ _ => Asked.quiet) (readPage_appends hready)
  intro ans evs got rest hasked h
  exact h url evs hasked

theorem pagesFrom_walks (hready : Readies o c src ready) (n : Nat) (url : String) : Logs Poller.log (pagesFrom o c src.logical ready n url)
    fun r evs => Walk o c src r.isOk n url evs := by
  induction n generalizing url with
  | zero => exact Logs.pure (.full url)
  | succ n ih =>
    unfold pagesFrom
    apply Logs.bind (fetchPage_appends hready url) (R := Continues o c src n url)
    · intro got
      cases got with
      | none =>
        apply Logs.pure
        intro evs hgot
        rw [List.append_nil]
        exact .ended hgot
      | some body =>
        apply Logs.bind (publishPage_appends o src.logical url body) (R := fun _ r rest => ∀ evs secs t,
          Got o c src url (some body) evs → Stamps.iso8601Utc secs = some t →
          Walk o c src r.isOk (n + 1) url (evs ++ .publish ⟨src.logical, url, t, body⟩ (.ok ()) :: rest))
        · intro _
          cases hnext : nextUrl c.base body c.nextField with
          | none =>
            apply Logs.pure
            intro evs secs t hgot ht
            exact .last hgot hnext ht
          | some url' =>
            refine (ih url').mono fun r rest h evs secs t hgot ht => ?_
            exact .next hgot hnext ht h
        · intro e evs h pre hgot
          exact .broken rfl (quiet_append hgot.quiet h)
        · rintro _ _ r rest ⟨secs, t, ht, rfl⟩ h evs hgot
          exact h evs secs t hgot ht
    · intro e evs h
      exact .broken rfl h
    · intro got evs r rest hgot h
      exact h evs hgot

end

theorem Round.append {o c whole srcs srcs' evs rest} (h : Round o c true srcs evs) (h' : Round o c whole srcs' rest) :
    Round o c whole (srcs ++ srcs') (evs ++ rest) := by
  induction h with
  | done => exact h'
  | visit hwalk _ ih =>
    rw [List.append_assoc]
    exact .visit hwalk ih
  | broken hwhole _ => cases hwhole

theorem Round.cut {o c srcs srcs' evs} (h : Round o c false srcs evs) (hdone : Round o c false srcs' []) :
    Round o c false (srcs ++ srcs') evs := by
  induction h with
  | done => exact hdone
  | visit hwalk _ ih => exact .visit hwalk ih
  | broken hwhole hwalk => exact .broken hwhole hwalk

theorem Round.untouched (srcs : List Source) : Round o c false srcs [] := by
  cases srcs with
  | nil => exact .done
  | cons src srcs => exact .broken rfl (.broken rfl quiet_nil)

theorem visit_rounds {src : Source} {srcs : List Source} {m k : Poll Unit}
    (hm : Logs Poller.log m fun r evs => Walk o c src r.isOk c.maxPages (joinUrl c.base src.path) evs)
    (hk : Logs Poller.log k fun r evs => Round o c r.isOk srcs evs) :
    Logs Poller.log (m >>= fun _ => k) fun r evs => Round o c r.isOk (src :: srcs) evs := by
  apply Logs.bind hm (fun _ => hk)
  · intro e evs h
    exact .broken rfl h
  · intro _ evs r rest h h'
    exact .visit h h'

theorem eachEndpoint_rounds (eps : List String) : Logs Poller.log (eachEndpoint o c eps)
    fun r evs => Round o c r.isOk (eps.map .endpoint) evs := by
  induction eps with
  | nil => exact Logs.pure .done
  | cons ep eps ih =>
    apply visit_rounds o c _ ih
    have hready : Readies o c (.endpoint ep) pure := fun raw => Appends.pure (.endpoint ep raw)
    exact pagesFrom_walks hready _ _

theorem eachExpand_rounds (specs : List Expand) : Logs Poller.log (eachExpand o c specs)
    fun r evs => Round o c r.isOk (specs.map .expand) evs := by
  induction specs with
  | nil => exact Logs.pure .done
  | cons spec specs ih =>
    apply visit_rounds o c _ ih
    have hready : Readies o c (.expand spec) (enrich o c spec) := enrich_appends o c spec
    exact pagesFrom_walks hready _ _

theorem tick_ticked : Logs Poller.log (tick o c) fun r evs => Ticked o c r.isOk evs := by
  unfold tick
  apply Logs.bind (bearer_appends o c) (R := fun res r rest => ∀ evs, Borne o c res evs → Ticked o c r.isOk (evs ++ rest))
  · intro res
    cases res with
    | error e =>
      apply Logs.throw
      intro evs h
      rw [List.append_nil]
      exact .inr ⟨rfl, h.tokens.quiet⟩
    | ok tok =>
      have hround : Logs Poller.log (eachEndpoint o c c.endpoints >>= fun _ => eachExpand o c c.expands)
          fun r evs => Round o c r.isOk c.sources evs := by
        apply Logs.bind (eachEndpoint_rounds o c c.endpoints) (fun _ => eachExpand_rounds o c c.expands)
        · intro e evs h
          exact h.cut (.untouched o c _)
        · intro _ evs r rest h h'
          exact Round.append h h'
      refine hround.mono fun r rest h evs hborne => .inl ⟨evs, rest, rfl, hborne.tokens, h⟩
  · intro e evs h
    exact .inr ⟨rfl, h⟩
  · intro res evs r rest h h'
    exact h' evs h

theorem wait_appends (n : Nat) : Appends (wait o n) fun _ evs => evs = [] := by
  induction n with
  | zero => exact Appends.pure rfl
  | succ n ih => exact look_bind o ih

/-- Whole ticks, and what there is of the one that broke. -/
def Ran (n : Nat) (r : Except Exit Unit) (evs : List Event) : Prop :=
  ∃ (rounds : List (List Event)) (cut : List Event), evs = rounds.flatten ++ cut ∧ (∀ round ∈ rounds, Ticked o c true round) ∧ Ticked o c false cut ∧
    (r.isOk = true → rounds.length = n ∧ cut = [])

theorem ticks_ran (n : Nat) : Logs Poller.log (ticks o c n) (Ran o c n) := by
  have hnone : Ticked o c false [] := .inr ⟨rfl, quiet_nil⟩
  have hno : ∀ round ∈ ([] : List (List Event)), Ticked o c true round := fun _ h => absurd h List.not_mem_nil
  induction n with
  | zero => exact Logs.pure ⟨[], [], rfl, hno, hnone, fun _ => ⟨rfl, rfl⟩⟩
  | succ n ih =>
    have hround : ∀ k, Logs Poller.log (wait o k >>= fun _ => tick o c) fun r evs => Ticked o c r.isOk evs := by
      intro k
      apply Logs.bind (wait_appends o k) (fun _ => tick_ticked o c)
      · intro e evs h
        exact .inr ⟨rfl, h⟩
      · rintro _ _ r rest rfl h
        exact h
    apply Logs.bind ih (fun _ => hround _)
    · rintro e evs ⟨rounds, cut, rfl, hrounds, hcut, -⟩
      exact ⟨rounds, cut, rfl, hrounds, hcut, fun h => by cases h⟩
    · rintro _ evs r round ⟨rounds, cut, rfl, hrounds, -, hwhole⟩ h
      obtain ⟨hlength, rfl⟩ := hwhole rfl
      rw [List.append_nil]
      cases r with
      | error e => exact ⟨rounds, round, rfl, hrounds, h, fun h => by cases h⟩
      | ok u =>
        refine ⟨rounds ++ [round], [], ?_, ?_, hnone, fun _ => ⟨?_, rfl⟩⟩
        · rw [List.flatten_append, List.flatten_singleton, List.append_nil]
        · intro round' hmem
          rcases List.mem_append.mp hmem with hmem | hmem
          · exact hrounds round' hmem
          · rw [List.mem_singleton.mp hmem]
            exact h
        · rw [List.length_append, hlength]
          rfl

/-- What the poller does in any number of ticks, whatever it is answered: each visits the sources one after
the other, and walks from the first page of each along the links the pages name, at most `MAX_PAGES` of
them; nothing else gets through. -/
theorem pages_follow_links (n : Nat) : Ran o c n (ticks o c n Poller.start).1 (ticks o c n Poller.start).2.log := by
  obtain ⟨evs, hlog, hran⟩ := ticks_ran o c n Poller.start
  rw [hlog]
  exact hran

section
variable {o c} {cfg : Value} {subjectOf : String → String} {src : Source} {srcs : List Source} {url : String} {evs : List Event}
  {whole : Bool} {n : Nat}

theorem setup_sources (h : setup cfg subjectOf = .ok c) : c.sources ≠ [] ∧ 0 < c.maxPages := by
  unfold setup at h
  obtain ⟨tokenUrl, -, h⟩ := Vjs.of_bind_ok h
  obtain ⟨clientId, -, h⟩ := Vjs.of_bind_ok h
  obtain ⟨clientSecret, -, h⟩ := Vjs.of_bind_ok h
  obtain ⟨base, -, h⟩ := Vjs.of_bind_ok h
  obtain ⟨expands, -, h⟩ := Vjs.of_bind_ok h
  split at h
  · cases h
  next hsome =>
    obtain ⟨subject, -, h⟩ := Vjs.of_bind_ok h
    cases h
    refine ⟨fun hnone => hsome ?_, Nat.lt_of_lt_of_le Nat.one_pos (Nat.le_max_right _ 1)⟩
    obtain ⟨hendpoints, hexpands⟩ := List.append_eq_nil_iff.mp hnone
    exact Bool.and_eq_true_iff.mpr ⟨List.isEmpty_iff.mpr (List.map_eq_nil_iff.mp hendpoints),
      List.isEmpty_iff.mpr (List.map_eq_nil_iff.mp hexpands)⟩

theorem Asked.ne_nil {ans : Answer} (h : Asked o c url ans evs) : evs ≠ [] := by
  cases h <;> simp

theorem Got.ne_nil {got : Option Value} (h : Got o c src url got evs) : evs ≠ [] := by
  cases h with
  | nothing h _ => exact h.ne_nil
  | page h _ _ => exact fun heq => h.ne_nil (List.append_eq_nil_iff.mp heq).1

theorem Walk.ne_nil (h : Walk o c src true (n + 1) url evs) : evs ≠ [] := by
  cases h with
  | ended h => exact h.ne_nil
  | last h _ _ => simp
  | next h _ _ _ => simp
  | broken h _ => cases h

/-- No tick of a poller that a manifest sets up comes to its end without a request. -/
theorem manifest_polls (h : setup cfg subjectOf = .ok c) (hticked : Ticked o c true evs) : evs ≠ [] := by
  obtain ⟨hsources, hpages⟩ := setup_sources h
  obtain ⟨n, hn⟩ := Nat.exists_eq_succ_of_ne_zero (Nat.ne_of_gt hpages)
  rcases hticked with ⟨pre, round, rfl, -, hround⟩ | ⟨hwhole, -⟩
  · generalize c.sources = srcs at hround hsources
    cases hround with
    | done => exact absurd rfl hsources
    | visit hwalk hrest =>
      rw [hn] at hwalk
      have hne := hwalk.ne_nil
      simp [hne]
    | broken hwhole _ => cases hwhole
  · cases hwhole

def Named (srcs : List Source) (evs : List Event) : Prop :=
  ∀ page, Event.publish page (.ok ()) ∈ evs → ∃ src ∈ srcs, page.envelope.get "endpoint" = some (.string src.logical)

theorem Named.append {more : List Event} (h : Named srcs evs) (h' : Named srcs more) : Named srcs (evs ++ more) := by
  intro page hpage
  rcases List.mem_append.mp hpage with hmem | hmem
  · exact h page hmem
  · exact h' page hmem

theorem Named.of_quiet (h : Quiet evs) : Named srcs evs := by
  intro page hpage
  have hshipped := h _ hpage
  cases hshipped

theorem Named.published {t : String} {body : Value} : Named [src] [.publish ⟨src.logical, url, t, body⟩ (.ok ())] := by
  intro page hpage
  cases List.mem_singleton.mp hpage
  exact ⟨src, List.mem_singleton_self src, Map.get?_ofEntries (by simp) List.mem_cons_self⟩

theorem Named.mono {srcs' : List Source} (h : Named srcs evs) (hsub : ∀ src ∈ srcs, src ∈ srcs') : Named srcs' evs := by
  intro page hpage
  obtain ⟨src, hsrc, hname⟩ := h page hpage
  exact ⟨src, hsub src hsrc, hname⟩

theorem Named.head (h : Named [src] evs) : Named (src :: srcs) evs :=
  h.mono fun _ hsrc => List.mem_singleton.mp hsrc ▸ List.mem_cons_self

theorem Walk.named (h : Walk o c src whole n url evs) : Named [src] evs := by
  induction h with
  | full url => exact .of_quiet quiet_nil
  | ended h => exact .of_quiet h.quiet
  | last h _ _ => exact .append (.of_quiet h.quiet) .published
  | next h _ _ _ ih => exact .append (.of_quiet h.quiet) (Named.published.append ih)
  | broken _ h => exact .of_quiet h

theorem Round.named (h : Round o c whole srcs evs) : Named srcs evs := by
  induction h with
  | done => exact .of_quiet quiet_nil
  | visit hwalk _ ih => exact hwalk.named.head.append (ih.mono fun src hsrc => List.mem_cons_of_mem _ hsrc)
  | broken _ hwalk => exact hwalk.named.head

theorem Ticked.named (h : Ticked o c whole evs) : Named c.sources evs := by
  rcases h with ⟨pre, round, rfl, htokens, hround⟩ | ⟨-, hquiet⟩
  · exact .append (.of_quiet htokens.quiet) hround.named
  · exact .of_quiet hquiet

/-- Whatever the poller is answered, a message it brings onto the bus names the endpoint or the expansion it is from. -/
theorem shipped_named (n : Nat) : Named c.sources (ticks o c n Poller.start).2.log := by
  obtain ⟨evs, hlog, rounds, cut, rfl, hrounds, hcut, -⟩ := ticks_ran o c n Poller.start
  rw [hlog]
  refine Named.append (.of_quiet quiet_nil) (Named.append (fun page hpage => ?_) hcut.named)
  obtain ⟨round, hround, hmem⟩ := List.mem_flatten.mp hpage
  exact (hrounds round hround).named page hmem

end

def twoPages : Outside where
  http n := ([.ok (200, bytesOf "\x7b\"access_token\":\"a\"\x7d"), .ok (401, []), .ok (200, bytesOf "\x7b\"access_token\":\"b\"\x7d"),
    .ok (200, bytesOf "\x7b\"next\":\"users?page=2\"\x7d")] : List Answer).getD n (.ok (200, bytesOf "[]"))
  publish _ := .ok ()
  now _ := 0
  instant _ := 0
  alive _ := true
  jsonError _ := ""

def users : Setup := ⟨"https://idp/token", "id", "secret", "", "https://api/", ["users"], [], "vx.users", 1, 10, "next"⟩

example : (ticks twoPages users 1 Poller.start).2.log.map Event.shipped = [false, false, false, false, true, false, true] := by
  decide +kernel

end Vejas.Connectors.OAuthPoll
