import Vejas.Connectors.OAuthPoll
import Vejas.Rust.Split

/-! The tokens of `oauth-poll`: which one a GET carries, and what the form says that asks for one. -/

namespace Vejas.Connectors.OAuthPoll
open Json Rust Vjs Fallible

variable (o : Outside) (c : Setup)

def issued : Event → Option String
  | .token _ res => (readToken o res).toOption.map Prod.fst
  | _ => none

def lastIssued (log : List Event) : Option String := (log.filterMap (issued o)).getLast?

/-- Every GET carries the token that was given out last before it. -/
def Current (log : List Event) : Prop :=
  ∀ pre url tok res post, log = pre ++ .get url tok res :: post → lastIssued o pre = some tok

structure Held (p : Poller) : Prop where
  current : Current o p.log
  cached : ∀ tok deadline, p.cached = some (tok, deadline) → lastIssued o p.log = some tok

abbrev Keeps {α : Type} (m : Poll α) : Prop := Maintains (Held o) (fun _ => Held o) m

section
variable {o c} {α : Type} {m : Poll α} {p : Poller} {log : List Event} {x : Event}

theorem issued_token (form : String) (res : Answer) : issued o (.token form res) = (readToken o res).toOption.map Prod.fst := rfl

theorem lastIssued_append (hev : issued o x = none) : lastIssued o (log ++ [x]) = lastIssued o log := by
  unfold lastIssued
  rw [List.filterMap_append, List.filterMap_cons_none hev, List.filterMap_nil, List.append_nil]

theorem lastIssued_token {form : String} {res : Answer} {tok : String} {ttl : Nat} (h : readToken o res = .ok (tok, ttl)) :
    lastIssued o (log ++ [.token form res]) = some tok := by
  have hev : issued o (.token form res) = some tok := by
    rw [issued_token, h]
    rfl
  unfold lastIssued
  rw [List.filterMap_append, List.filterMap_cons_some hev, List.filterMap_nil, List.getLast?_concat]

theorem Current.append (h : Current o log) (hev : ∀ url tok res, x = .get url tok res → lastIssued o log = some tok) :
    Current o (log ++ [x]) := by
  intro pre url tok res post heq
  rcases List.eq_nil_or_concat' post with rfl | ⟨front, last, rfl⟩
  · obtain ⟨rfl, hlast⟩ := List.append_inj' heq rfl
    exact hev url tok res (List.singleton_inj.mp hlast)
  · rw [← List.cons_append, ← List.append_assoc] at heq
    obtain ⟨rfl, -⟩ := List.append_inj' heq rfl
    exact h pre url tok res front rfl

theorem Held.append {p' : Poller} (h : Held o p) (hissued : issued o x = none)
    (hget : ∀ url tok res, x = .get url tok res → lastIssued o p.log = some tok)
    (hlog : p'.log = p.log ++ [x]) (hcached : p'.cached = p.cached) : Held o p' := by
  constructor
  · rw [hlog]
    exact h.current.append hget
  · intro tok deadline hp
    rw [hlog, lastIssued_append hissued]
    rw [hcached] at hp
    exact h.cached tok deadline hp

theorem Held.same {p' : Poller} (h : Held o p) (hlog : p'.log = p.log) (hcached : p'.cached = p.cached) : Held o p' := by
  constructor
  · rw [hlog]
    exact h.current
  · rw [hlog, hcached]
    exact h.cached

theorem keeps_of (h : ∀ p, Held o p → Held o (m p).2) : Keeps o m := by
  intro p hp
  have hm := h p hp
  rcases hmp : m p with ⟨_ | a, p'⟩
  · rwa [hmp] at hm
  · rwa [hmp] at hm

theorem Keeps.held (h : Keeps o m) (hp : Held o p) : Held o (m p).2 := by
  rcases hmp : m p with ⟨_ | a, p'⟩
  · exact h.error hp hmp
  · exact h.ok hp hmp

theorem closed_keeps : Closed (fun {α} (m : Poll α) => Keeps o m) := closed_maintains fun _ _ h => h

def Bears (o : Outside) (m : Poll (Except String String)) : Prop :=
  ∀ p, Held o p → Held o (m p).2 ∧ ∀ tok, (m p).1 = .ok (.ok tok) → lastIssued o (m p).2.log = some tok

theorem bears_kept {tok : String} {ttl : Nat} (hcurrent : Current o p.log) (hlast : lastIssued o p.log = some tok) :
    Held o ((keep o tok ttl >>= fun _ => pure (.ok tok) : Poll (Except String String)) p).2 ∧ ∀ tok',
      ((keep o tok ttl >>= fun _ => pure (.ok tok) : Poll (Except String String)) p).1 = .ok (.ok tok') →
        lastIssued o ((keep o tok ttl >>= fun _ => pure (.ok tok) : Poll (Except String String)) p).2.log = some tok' := by
  have hkept : Held o (keep o tok ttl p).2 := by
    refine ⟨hcurrent, fun tok' deadline h => ?_⟩
    cases h
    exact hlast
  by_cases hfits : o.instant p.readings + ttl < 2 ^ 63
  · have hrun : keep o tok ttl p = (.ok (), (keep o tok ttl p).2) := Prod.ext (if_pos hfits) rfl
    rw [bind_ok hrun]
    refine ⟨hkept, fun tok' h => ?_⟩
    cases h
    exact hlast
  · have hrun : keep o tok ttl p = (.error .panicked, (keep o tok ttl p).2) := Prod.ext (if_neg hfits) rfl
    rw [bind_error hrun]
    exact ⟨hkept, fun tok' h => by cases h⟩

theorem bears_freshToken : Bears o (freshToken o c) := by
  intro p hp
  have hget : ∀ url tok res, Event.token (tokenForm c) (o.http p.log.length) = .get url tok res → lastIssued o p.log = some tok :=
    fun _ _ _ h => by cases h
  unfold freshToken
  rw [bind_ok (m := request o (.token (tokenForm c))) rfl]
  cases hread : readToken o (o.http p.log.length) with
  | error e =>
    have hissued : issued o (.token (tokenForm c) (o.http p.log.length)) = none := by
      rw [issued_token, hread]
      rfl
    exact ⟨hp.append hissued hget rfl rfl, fun tok h => by cases h⟩
  | ok granted =>
    obtain ⟨tok, ttl⟩ := granted
    exact bears_kept (hp.current.append hget) (lastIssued_token hread)

theorem bears_bearer : Bears o (bearer o c) := by
  intro p hp
  unfold bearer
  cases hcached : p.cached with
  | none =>
    have hheld : held o p = (.ok none, p) := by
      unfold held
      rw [hcached]
    rw [bind_ok hheld]
    exact bears_freshToken p hp
  | some entry =>
    obtain ⟨tok, deadline⟩ := entry
    have hheld : held o p = (.ok (if o.instant p.readings < deadline then some tok else none),
        { p with readings := p.readings + 1 }) := by
      unfold held
      rw [hcached]
    rw [bind_ok hheld]
    have hp' : Held o { p with readings := p.readings + 1 } := hp.same rfl rfl
    by_cases hdue : o.instant p.readings < deadline
    · rw [if_pos hdue]
      refine ⟨hp', fun tok' h => ?_⟩
      cases h
      exact hp.cached tok deadline hcached
    · rw [if_neg hdue]
      exact bears_freshToken _ hp'

theorem Bears.withToken {m : Poll (Except String String)} {f : String → Poll Answer} (hm : Bears o m)
    (hf : ∀ tok p, Held o p → lastIssued o p.log = some tok → Held o (f tok p).2) : Keeps o (withToken m f) := by
  apply keeps_of
  intro p hp
  obtain ⟨hheld, htok⟩ := hm p hp
  unfold OAuthPoll.withToken
  rcases hmp : m p with ⟨_ | res, p'⟩
  · rw [bind_error hmp]
    rwa [hmp] at hheld
  · rw [hmp] at hheld htok
    rw [bind_ok hmp]
    cases res with
    | error e => exact hheld
    | ok tok => exact hf tok p' hheld (htok tok rfl)

theorem held_get (url tok : String) (hp : Held o p) (hlast : lastIssued o p.log = some tok) :
    Held o (request o (.get url tok) p).2 := by
  refine hp.append (x := .get url tok (o.http p.log.length)) rfl ?_ rfl rfl
  intro url' tok' res h
  cases h
  exact hlast

theorem keeps_retry (url : String) (first : Answer) : Keeps o (retry o c url first) := by
  unfold retry
  split
  · apply closed_keeps.bind
    · apply Maintains.modify
      exact fun p hp => ⟨hp.current, fun tok deadline h => by cases h⟩
    · intro _
      exact bears_bearer.withToken fun tok p hp hlast => held_get url tok hp hlast
  · exact closed_keeps.pure _

theorem keeps_authedGet (url : String) : Keeps o (authedGet o c url) := by
  apply bears_bearer.withToken
  intro tok p hp hlast
  rw [bind_ok (m := request o (.get url tok)) rfl]
  exact (keeps_retry url _).held (held_get url tok hp hlast)

theorem keeps_look : Keeps o (look o) := keeps_of fun _ hp => hp.same rfl rfl

theorem keeps_publishPage (logical url : String) (body : Value) : Keeps o (publishPage o logical url body) := by
  apply keeps_of
  intro p hp
  unfold publishPage
  split
  next => exact hp
  next t _ =>
    refine hp.append (x := .publish ⟨logical, url, t, body⟩ (o.publish p.log.length)) rfl ?_ rfl rfl
    exact fun _ _ _ h => by cases h

theorem keeps_enrich (spec : Expand) (raw : Value) : Keeps o (enrich o c spec raw) := by
  have hitem : ∀ item, Keeps o (enrichItem o c spec item) := by
    intro item
    unfold enrichItem
    split
    · exact closed_keeps.pure _
    · exact closed_keeps.bind (keeps_authedGet _) fun _ => closed_keeps.pure _
  have hitems : ∀ items, Keeps o (enrichAll o c spec items) := by
    intro items
    induction items with
    | nil => exact closed_keeps.pure _
    | cons item items ih =>
      apply closed_keeps.bind keeps_look
      intro _
      apply closed_keeps.bind (hitem item)
      intro _
      exact closed_keeps.bind ih fun _ => closed_keeps.pure _
  unfold enrich
  split
  · exact closed_keeps.pure _
  · exact closed_keeps.bind (hitems _) fun _ => closed_keeps.pure _

theorem keeps_pagesFrom {logical : String} {ready : Value → Poll Value} (hready : ∀ raw, Keeps o (ready raw)) (n : Nat) (url : String) :
    Keeps o (pagesFrom o c logical ready n url) := by
  have hpage : ∀ ans, Keeps o (readPage ready ans) := by
    intro ans
    unfold readPage
    split
    · exact closed_keeps.pure _
    · exact closed_keeps.bind (hready _) fun _ => closed_keeps.pure _
  induction n generalizing url with
  | zero => exact closed_keeps.pure _
  | succ n ih =>
    unfold pagesFrom
    apply closed_keeps.bind
    · apply closed_keeps.bind keeps_look
      intro _
      exact closed_keeps.bind (keeps_authedGet url) hpage
    · intro got
      cases got with
      | none => exact closed_keeps.pure _
      | some body =>
        apply closed_keeps.bind (keeps_publishPage _ _ _)
        intro _
        cases nextUrl c.base body c.nextField with
        | none => exact closed_keeps.pure _
        | some next => exact ih next

theorem keeps_tick : Keeps o (tick o c) := by
  have hendpoints : ∀ eps, Keeps o (eachEndpoint o c eps) := by
    intro eps
    induction eps with
    | nil => exact closed_keeps.pure _
    | cons ep eps ih => exact closed_keeps.bind (keeps_pagesFrom (fun _ => closed_keeps.pure _) _ _) fun _ => ih
  have hexpands : ∀ specs, Keeps o (eachExpand o c specs) := by
    intro specs
    induction specs with
    | nil => exact closed_keeps.pure _
    | cons spec specs ih => exact closed_keeps.bind (keeps_pagesFrom (keeps_enrich spec) _ _) fun _ => ih
  unfold tick
  apply closed_keeps.bind (keeps_of fun p hp => (bears_bearer p hp).1)
  intro res
  cases res with
  | error e => exact closed_keeps.throw _
  | ok tok => exact closed_keeps.bind (hendpoints _) fun _ => hexpands _

theorem keeps_ticks (n : Nat) : Keeps o (ticks o c n) := by
  have hwait : ∀ k, Keeps o (wait o k) := by
    intro k
    induction k with
    | zero => exact closed_keeps.pure _
    | succ k ih => exact closed_keeps.bind keeps_look fun _ => ih
  induction n with
  | zero => exact closed_keeps.pure _
  | succ n ih =>
    apply closed_keeps.bind ih
    intro _
    exact closed_keeps.bind (hwait _) fun _ => keeps_tick

end

/-- In any number of ticks, whatever is answered and whatever the clock shows, no GET goes out with a
token other than the one that was given out last. -/
theorem tokens_current (n : Nat) : Current o (ticks o c n Poller.start).2.log := by
  have hstart : Held o Poller.start := by
    refine ⟨fun pre url tok res post h => ?_, fun tok deadline h => by cases h⟩
    cases List.append_ne_nil_of_right_ne_nil pre (List.cons_ne_nil _ post) h.symm
  exact ((keeps_ticks n).held hstart).current

def unreserved (b : UInt8) : Bool :=
  isAsciiAlphanumeric (Char.ofNat b.toNat) || ['-', '_', '.', '~'].contains (Char.ofNat b.toNat)

def plusToSpace (cs : List Char) : List Char := cs.map fun c => if c = '+' then ' ' else c

def readField (field : String) : Option (Bytes × Bytes) := do
  let (name, value) ← splitOnceChars '=' field.toList
  let name ← Percent.decode (plusToSpace name)
  let value ← Percent.decode (plusToSpace value)
  pure (name, value)

def readForm (form : String) : Option (List (Bytes × Bytes)) := (split form "&").mapM readField

def Setup.fields (c : Setup) : List (String × String) :=
  [("grant_type", "client_credentials"), ("client_id", c.clientId), ("client_secret", c.clientSecret)] ++
    if c.scope = "" then [] else [("scope", c.scope)]

theorem every_byte {P : UInt8 → Prop} (h : ∀ n : Fin 256, P (UInt8.ofNat n.val)) (b : UInt8) : P b := by
  have hb := h ⟨b.toNat, b.toNat_lt⟩
  rwa [show UInt8.ofNat b.toNat = b from UInt8.ofNat_toNat] at hb

theorem toUpper_digitChar {d : Nat} (h : d < 16) : d.digitChar.toUpper = Percent.digit d := by
  have hall : ∀ d : Fin 16, d.val.digitChar.toUpper = Percent.digit d.val := by decide
  exact hall ⟨d, h⟩

theorem percent_escape (b : UInt8) : (Salesforce.percent b).toList = Percent.escape b := by
  have hb := b.toNat_lt
  have hmod : b.toNat % 16 < 16 := Nat.mod_lt _ (by decide)
  unfold Salesforce.percent Percent.escape
  rw [String.toList_append, String.toList_ofList, String.toList_ofList]
  rcases Nat.lt_or_ge b.toNat 16 with hlow | hhigh
  · rw [Nat.toDigits_of_lt_base hlow, List.map_singleton, toUpper_digitChar hlow, Nat.div_eq_of_lt hlow, Nat.mod_eq_of_lt hlow]
    rfl
  · have hdiv : b.toNat / 16 < 16 := by omega
    rw [Nat.toDigits_of_base_le (by decide) hhigh, Nat.toDigits_of_lt_base hdiv, List.map_append, List.map_singleton,
      List.map_singleton, toUpper_digitChar hdiv, toUpper_digitChar hmod]
    rfl

theorem plain_unreserved : Percent.Plain unreserved := by
  unfold Percent.Plain
  apply every_byte
  decide +kernel

theorem unreserved_ne (b : UInt8) (h : unreserved b = true) : ['&', '=', '+'].contains (Char.ofNat b.toNat) = false := by
  revert b
  apply every_byte
  decide +kernel

theorem toList_urlencode (s : String) : (urlencode s).toList = Percent.encode unreserved (bytesOf s) := by
  unfold urlencode Salesforce.enc Percent.encode
  rw [String.toList_join, List.flatMap_map]
  apply List.flatMap_congr
  intro b _
  unfold Percent.one
  dsimp only
  split
  next hb =>
    have hsafe : unreserved b = true := hb
    rw [if_pos hsafe]
    exact String.toList_singleton _
  next hb =>
    have hsafe : ¬ unreserved b = true := hb
    rw [if_neg hsafe, percent_escape]

theorem notMem_urlencode {c : Char} (hc : c ∈ ['&', '=', '+']) (s : String) : c ∉ (urlencode s).toList := by
  rw [toList_urlencode]
  have hpercent : c ≠ '%' := by
    rintro rfl
    simp at hc
  have hdigit : Percent.value c = none := by
    rcases List.mem_cons.mp hc with rfl | hc
    · decide
    · rcases List.mem_cons.mp hc with rfl | hc
      · decide
      · rw [List.mem_singleton.mp hc]
        decide
  apply Percent.notMem_encode hpercent hdigit
  rintro b hb rfl
  have hno := unreserved_ne b hb
  rw [List.contains_iff_mem.mpr hc] at hno
  cases hno

theorem plusToSpace_eq {cs : List Char} (h : '+' ∉ cs) : plusToSpace cs = cs := by
  unfold plusToSpace
  conv_rhs => rw [← List.map_id cs]
  apply List.map_congr_left
  intro c hc
  have hne : c ≠ '+' := fun heq => h (heq ▸ hc)
  exact if_neg hne

def Literal (name : String) : Prop :=
  '&' ∉ name.toList ∧ '=' ∉ name.toList ∧ Percent.decode (plusToSpace name.toList) = some (bytesOf name)

theorem readField_field {name : String} (h : Literal name) (s : String) :
    readField (name ++ "=" ++ urlencode s) = some (bytesOf name, bytesOf s) := by
  have hcut : splitOnceChars '=' (name ++ "=" ++ urlencode s).toList = some (name.toList, (urlencode s).toList) := by
    rw [String.toList_append, String.toList_append, List.append_assoc]
    exact splitOnceChars_append h.2.1 _
  have hplus : plusToSpace (urlencode s).toList = (urlencode s).toList := plusToSpace_eq (notMem_urlencode (by decide) s)
  have hread : Percent.decode (urlencode s).toList = some (bytesOf s) := by
    rw [toList_urlencode]
    exact Percent.decode_encode plain_unreserved _
  unfold readField
  rw [hcut]
  simp only [Option.bind_eq_bind, Option.bind_some, h.2.2, hplus, hread]
  rfl

theorem mapM_readField {fields : List (String × String)} (h : ∀ p ∈ fields, Literal p.1) :
    (fields.map fun p => p.1 ++ "=" ++ urlencode p.2).mapM readField = some (fields.map fun p => (bytesOf p.1, bytesOf p.2)) := by
  induction fields with
  | nil => rfl
  | cons p fields ih =>
    have hp := readField_field (h p List.mem_cons_self) p.2
    have htail := ih fun q hq => h q (List.mem_cons_of_mem _ hq)
    rw [List.map_cons, List.mapM_cons, hp, htail]
    rfl

theorem tokenForm_eq (c : Setup) : tokenForm c = join "&" (c.fields.map fun p => p.1 ++ "=" ++ urlencode p.2) := by
  have hgrant : urlencode "client_credentials" = "client_credentials" := by decide +kernel
  have hstart : "grant_type=client_credentials&client_id=" = "grant_type" ++ "=" ++ "client_credentials" ++ "&" ++ ("client_id" ++ "=") := by
    decide
  have hsecret : "&client_secret=" = "&" ++ ("client_secret" ++ "=") := by decide
  have hscope : "&scope=" = "&" ++ ("scope" ++ "=") := by decide
  unfold tokenForm Setup.fields
  rw [hstart, hsecret, hscope]
  split
  · simp only [List.append_nil, List.map_cons, List.map_nil, join_cons, join_singleton, hgrant, String.append_assoc, String.append_empty]
  · simp only [List.cons_append, List.nil_append, List.map_cons, List.map_nil, join_cons, join_singleton, hgrant, String.append_assoc]

/-- Whatever stands in the id, the secret and the scope, the token endpoint reads just these back. -/
theorem tokenForm_reads (c : Setup) : readForm (tokenForm c) = some (c.fields.map fun p => (bytesOf p.1, bytesOf p.2)) := by
  have hliteral : ∀ p ∈ c.fields, Literal p.1 := by
    have hnames : ∀ name ∈ ["grant_type", "client_id", "client_secret", "scope"], Literal name := by
      unfold Literal
      decide +kernel
    intro p hp
    apply hnames
    unfold Setup.fields at hp
    split at hp
    · simp only [List.append_nil, List.mem_cons, List.not_mem_nil, or_false] at hp
      rcases hp with rfl | rfl | rfl <;> simp
    · simp only [List.mem_append, List.mem_cons, List.not_mem_nil, or_false, or_assoc] at hp
      rcases hp with rfl | rfl | rfl | rfl <;> simp
  unfold readForm
  rw [tokenForm_eq, split_join (c := '&') rfl]
  · exact mapM_readField hliteral
  · unfold Setup.fields
    exact List.cons_ne_nil _ _
  · intro part hpart
    obtain ⟨p, hp, rfl⟩ := List.mem_map.mp hpart
    rw [String.toList_append, String.toList_append]
    intro hmem
    rcases List.mem_append.mp hmem with hmem | hmem
    · rcases List.mem_append.mp hmem with hmem | hmem
      · exact (hliteral p hp).1 hmem
      · revert hmem
        decide
    · exact notMem_urlencode (by decide) _ hmem

end Vejas.Connectors.OAuthPoll
