import Vejas.Http.Permits

/-! Governed mode and clusters: whatever a request or a tool call asks for, and whatever the functions
behind the gates do. -/

namespace Vejas.Http
open Json Rust Vjs Governance Fallible

variable {σ δ : Type}

/-- What may happen to the world without the human: messages on subjects that are free, sources edited in
memory, stale overlays gone, and records of proposals that say of no decision. -/
def ByAgent [External] : Effect → Prop
  | .publish subject _ => reserved subject = false
  | .rewrite _ => True
  | .delete .versions _ => True
  | .put .proposals _ text => ∃ v, Undecided v ∧ text = v.render
  | _ => False

/-- The files, the secrets and the dead letters are what they were, no version has come in, and no
proposal has been decided. -/
structure Unharmed [External] (e e' : Estate σ δ) : Prop where
  files : e'.world.files = e.world.files
  links : e'.world.canonicalize = e.world.canonicalize
  secrets : e'.secrets = e.secrets
  letters : e'.letters = e.letters
  versions : ∀ key, e'.world.versions.get? key = e.world.versions.get? key ∨ e'.world.versions.get? key = none
  proposals : ∀ id text, e'.world.proposals.get? id = some text →
    e.world.proposals.get? id = some text ∨ ∃ v, Undecided v ∧ text = v.render

/-- No flow of the project, whatever it is run on, emits on a subject that the server keeps to itself. -/
def FreeEmits [External] (cfg : Settings) (site : Site) (w : World) : Prop :=
  ∀ file path src prog input ctx, FlowFile cfg w file path src → parse src = .ok prog →
    (run prog input (.withSecrets (engineFiles w) cfg.root (pkgOfPath path) site.secrets)).1 = .ok ctx →
    ∀ m ∈ ctx.emits, reserved m.1 = false

section
variable [External]

theorem Unharmed.refl (e : Estate σ δ) : Unharmed e e := ⟨rfl, rfl, rfl, rfl, fun _ => .inl rfl, fun _ _ h => .inl h⟩

theorem Unharmed.trans {e e' e'' : Estate σ δ} (h : Unharmed e e') (h' : Unharmed e' e'') : Unharmed e e'' where
  files := h'.files.trans h.files
  links := h'.links.trans h.links
  secrets := h'.secrets.trans h.secrets
  letters := h'.letters.trans h.letters
  versions := by
    intro key
    rcases h'.versions key with hsame | hgone
    · rw [hsame]
      exact h.versions key
    · exact .inr hgone
  proposals := by
    intro id text htext
    rcases h'.proposals id text htext with hold | hnew
    · exact h.proposals id text hold
    · exact .inr hnew

theorem FreeEmits.of_unharmed {cfg : Settings} {site : Site} {e e' : Estate σ δ} (hfree : FreeEmits cfg site e.world)
    (h : Unharmed e e') : FreeEmits cfg site e'.world := by
  intro file path src prog input ctx hfile hparse hrun
  have hengine : engineFiles e'.world = engineFiles e.world := by
    unfold engineFiles
    rw [h.files]
  have hguard : guardPath e'.world cfg.root file = guardPath e.world cfg.root file := by
    unfold guardPath
    rw [h.links]
  rw [hengine] at hrun
  exact hfree file path src prog input ctx ⟨hguard.symm.trans hfile.guard, h.files ▸ hfile.read⟩ hparse hrun

omit [External] in
theorem get?_delete_or (kv : Kv) (key other : String) : (kv.delete key).get? other = kv.get? other ∨ (kv.delete key).get? other = none := by
  by_cases h : other = key
  · rw [h]
    exact .inr (get?_delete kv key)
  · refine .inl ?_
    unfold Kv.get? Kv.delete
    rw [List.find?_filter]
    congr 2
    funext p
    by_cases hp : p.1 = other
    · simp [hp, h]
    · simp [hp]

theorem unharmed_effect (e : Estate σ δ) (seq : UInt64) {effect : Effect} (h : ByAgent effect) :
    Unharmed e { e with seq, world := e.world.after effect } := by
  unfold ByAgent at h
  split at h
  · exact ⟨rfl, rfl, rfl, rfl, fun _ => .inl rfl, fun _ _ h => .inl h⟩
  · exact ⟨rfl, rfl, rfl, rfl, fun _ => .inl rfl, fun _ _ h => .inl h⟩
  next key => exact ⟨rfl, rfl, rfl, rfl, fun other => get?_delete_or _ key other, fun _ _ h => .inl h⟩
  next id text =>
    refine ⟨rfl, rfl, rfl, rfl, fun _ => .inl rfl, fun other text' htext => ?_⟩
    change (e.world.proposals.put id text).get? other = some text' at htext
    by_cases hother : other = id
    · rw [hother, get?_put] at htext
      obtain ⟨v, hv, hrender⟩ := h
      exact .inr ⟨v, hv, (Option.some.inj htext).symm.trans hrender⟩
    · rw [get?_put_of_ne _ _ hother] at htext
      exact .inl htext
  · cases h

theorem unharmed_world (e : Estate σ δ) (seq : UInt64) (w : World) (h : Relation.ReflTransGen (Takes ByAgent) e.world w) :
    Unharmed e { e with seq, world := w } := by
  induction h with
  | refl => exact ⟨rfl, rfl, rfl, rfl, fun _ => .inl rfl, fun _ _ h => .inl h⟩
  | tail _ hstep ih =>
    obtain ⟨effect, heffect, rfl⟩ := hstep
    exact ih.trans (unharmed_effect _ seq heffect)

theorem unharmed_settle [Server δ] (e : Estate σ δ) (i : Instance) (h : Relation.ReflTransGen (Takes ByAgent) e.world i.world) :
    Unharmed e (e.settle i) := by
  rw [settle_free (fun _ _ hfree => hfree) h]
  exact unharmed_world e i.seq i.world h

omit [External] in
theorem reserved_audit (unit : String) : reserved ("vxaudit." ++ keyOf unit) = false := by
  unfold reserved startsWith
  rw [String.toList_append]
  rfl

/-- What is behind no gate and is no part of the handler leaves all as it is: the command of a manifest, the
supervisor, and who answers on the subject of the SAP requests. -/
structure Harmless (works : Works σ δ) : Prop where
  probe : ∀ file, Moves Unharmed (works.probeConnector file)
  reload : Moves Unharmed works.reload
  sapRpc : ∀ op, Moves Unharmed (works.sapRpcRequest op)

def Guarded (cfg : Settings) (site : Site) (e e' : Estate σ δ) : Prop := FreeEmits cfg site e.world → Unharmed e e'

theorem permits_governed [Server δ] {cfg : Settings} {works : Works σ δ} (site : Site) (hreq : works.requireApproval = true)
    (hroot : reserved (cfg.subjRoot ++ ".proposals.events") = false) (hharm : Harmless works) :
    Permits cfg works false ByAgent (Guarded cfg site) where
  refl e _ := .refl e
  trans h h' hfree := (h hfree).trans (h' (hfree.of_unharmed (h hfree)))
  world e i h _ := unharmed_settle e i h
  routine := ⟨fun unit _ => reserved_audit unit, fun _ => hroot, fun _ => trivial, fun _ => trivial⟩
  queues := fun _ v hv => ⟨v, hv, rfl⟩
  promotes := fun h => absurd (hreq.symm.trans h) (by decide)
  writes := fun h => absurd (hreq.symm.trans h) (by decide)
  decides := fun h => absurd h (by decide)
  setSecret := fun h => absurd (hreq.symm.trans h) (by decide)
  provision := fun h => absurd (hreq.symm.trans h) (by decide)
  generateFlow := fun h => absurd (hreq.symm.trans h) (by decide)
  generateConnector := fun h => absurd (hreq.symm.trans h) (by decide)
  rollback := fun h => absurd (hreq.symm.trans h) (by decide)
  golden := fun h => absurd (hreq.symm.trans h) (by decide)
  dlqReplay := fun h => h.elim (fun h => absurd (hreq.symm.trans h) (by decide)) fun h => absurd h (by decide)
  dlqPurge := fun h => h.elim (fun h => absurd (hreq.symm.trans h) (by decide)) fun h => absurd h (by decide)
  probe file e _ := hharm.probe file e
  reload e _ := hharm.reload e
  sapRpc op e _ := hharm.sapRpc op e

theorem guarded_serveApi [Server δ] (cfg : Settings) (site : Site) (env : Answers) (r : Request) (rel : String) :
    Moves (Guarded cfg site) (Http.inWorld (serveApi cfg site env r rel) : Reach σ δ Response) := by
  intro e hfree
  refine unharmed_settle e _ (takes_serveApi env r rel fun file input ctx hrun m hm _ => ?_)
  obtain ⟨path, src, prog, hfile, hparse, hctx⟩ := runFlowCtx_ok hrun
  exact hfree file path src prog input ctx hfile hparse hctx m hm

structure Visit (σ δ : Type) where
  cfg : Settings
  works : Works σ δ
  surface : Surface
  turn : Nat → Turn
  request : Request

def Visit.pay [Server δ] (v : Visit σ δ) (e : Estate σ δ) : Estate σ δ := (serve v.cfg v.works v.surface v.turn v.request e).2

/-- In governed mode, whatever comes in without the human's credential, over any route and any tool, one
by one or in batches, with or without the write token, and whatever the functions behind the gates would do. -/
theorem governed_unharmed [Server δ] (e : Estate σ δ) (visits : List (Visit σ δ)) (hgov : ∀ v ∈ visits, v.works.requireApproval = true)
    (hagent : ∀ v ∈ visits, ¬ CarriesApproval v.cfg v.request) (hflows : ∀ v ∈ visits, FreeEmits v.cfg v.surface.site e.world)
    (hroot : ∀ v ∈ visits, reserved (v.cfg.subjRoot ++ ".proposals.events") = false) (hharm : ∀ v ∈ visits, Harmless v.works) :
    Unharmed e (visits.foldl (fun e v => v.pay e) e) := by
  induction visits generalizing e with
  | nil => exact .refl e
  | cons v visits ih =>
    have hopen : approvalAuthorized v.cfg v.request = false := by
      have hno := hagent v List.mem_cons_self
      rwa [← approvalAuthorized_iff, Bool.not_eq_true] at hno
    have hpermits := permits_governed v.surface.site (hgov v List.mem_cons_self) (hroot v List.mem_cons_self) (hharm v List.mem_cons_self)
    rw [← hopen] at hpermits
    have hone : Unharmed e (v.pay e) :=
      hpermits.serve (fun env rel => guarded_serveApi v.cfg v.surface.site env v.request rel) v.turn e (hflows v List.mem_cons_self)
    have hlater := fun (u : Visit σ δ) (hu : u ∈ visits) => List.mem_cons_of_mem v hu
    refine hone.trans (ih _ (fun u hu => hgov u (hlater u hu)) (fun u hu => hagent u (hlater u hu)) ?_
      (fun u hu => hroot u (hlater u hu)) fun u hu => hharm u (hlater u hu))
    exact fun u hu => (hflows u (hlater u hu)).of_unharmed hone

def SameFiles (e e' : Estate σ δ) : Prop := e'.world.files = e.world.files

/-- The secret store and the dead letters are no files of the project, and what is behind no gate and is no part
of the handler writes none: the command of a manifest that is probed, the supervisor, and who answers SAP. -/
structure Elsewhere (works : Works σ δ) : Prop where
  probe : ∀ file, Moves SameFiles (works.probeConnector file)
  reload : Moves SameFiles works.reload
  sapRpc : ∀ op, Moves SameFiles (works.sapRpcRequest op)
  setSecret : ∀ r v, Moves SameFiles (works.setSecret r v)
  dlqReplay : ∀ n u a, Moves SameFiles (works.dlqReplay n u a)
  dlqPurge : ∀ n u a, Moves SameFiles (works.dlqPurge n u a)

omit [External] in
theorem files_after {w : World} {effect : Effect} (h : ∀ path text, effect ≠ .write path text) : (w.after effect).files = w.files := by
  cases effect with
  | publish subject payload => rfl
  | write path text => exact absurd rfl (h path text)
  | put bucket key value => cases bucket <;> rfl
  | delete bucket key => cases bucket <;> rfl
  | rewrite src => rfl

theorem permits_clustered [Server δ] {cfg : Settings} {works : Works σ δ} (approved : Bool) (hcl : cfg.clustered = true)
    (helse : Elsewhere works) : Permits cfg works approved (fun effect => ∀ path text, effect ≠ .write path text) SameFiles where
  refl _ := rfl
  trans h h' := h'.trans h
  world e i h := by
    show (e.settle i).world.files = e.world.files
    rw [files_settle]
    generalize i.world = w at h
    induction h with
    | refl => rfl
    | tail _ hstep ih =>
      obtain ⟨effect, heffect, rfl⟩ := hstep
      exact (files_after heffect).trans ih
  routine := ⟨fun _ _ _ _ h => (by cases h), fun _ _ _ h => (by cases h), fun _ _ _ h => (by cases h), fun _ _ _ h => by cases h⟩
  queues _ _ _ _ _ h := by cases h
  promotes _ _ _ _ _ h := by cases h
  writes _ h := absurd (hcl.symm.trans h) (by decide)
  decides _ := ⟨fun _ _ _ _ h => (by cases h), fun _ _ _ _ h => (by cases h), fun h => absurd (hcl.symm.trans h) (by decide)⟩
  setSecret _ _ := helse.setSecret
  provision _ h := absurd (hcl.symm.trans h) (by decide)
  generateFlow _ h := absurd (hcl.symm.trans h) (by decide)
  generateConnector _ h := absurd (hcl.symm.trans h) (by decide)
  rollback _ h := absurd (hcl.symm.trans h) (by decide)
  golden _ h := absurd (hcl.symm.trans h) (by decide)
  dlqReplay _ := helse.dlqReplay
  dlqPurge _ := helse.dlqPurge
  probe := helse.probe
  reload := helse.reload
  sapRpc := helse.sapRpc

/-- In a cluster no request writes a file of the instance it comes to, whatever credentials it carries: a
promote is a version, and the rest is refused. -/
theorem clustered_files_kept [Server δ] (e : Estate σ δ) (visits : List (Visit σ δ)) (hcl : ∀ v ∈ visits, v.cfg.clustered = true)
    (helse : ∀ v ∈ visits, Elsewhere v.works) : (visits.foldl (fun e v => v.pay e) e).world.files = e.world.files := by
  induction visits generalizing e with
  | nil => rfl
  | cons v visits ih =>
    have hpermits := permits_clustered (approvalAuthorized v.cfg v.request) (hcl v List.mem_cons_self) (helse v List.mem_cons_self)
    have hapi : ∀ env rel, Moves SameFiles (Http.inWorld (serveApi v.cfg v.surface.site env v.request rel) : Reach σ δ Response) :=
      fun env rel e => hpermits.world e _ (takes_serveApi env v.request rel fun _ _ _ _ _ _ _ _ _ h => by cases h)
    have hone : (v.pay e).world.files = e.world.files := hpermits.serve hapi v.turn e
    have hrest := ih (v.pay e) (fun u hu => hcl u (List.mem_cons_of_mem v hu)) fun u hu => helse u (List.mem_cons_of_mem v hu)
    exact hrest.trans hone

end

def purges (requireApproval : Bool) : List (Visit Unit (List String)) :=
  let asked (url body : String) : Visit Unit (List String) := ⟨settingsOf false, openWorks requireApproval, plainSurface, everyTurn,
    ⟨.post, url, [("Authorization", "Bearer agent")], body⟩⟩
  [asked "/dlq/purge" "\x7b\x7d", asked "/mcp" ("[\x7b\"method\":\"tools/call\",\"params\":" ++ "\x7b\"name\":\"vejas_dlq_purge\"\x7d\x7d]")]

theorem harmless_open (requireApproval : Bool) : @Harmless _ _ ascii (openWorks requireApproval) :=
  @Harmless.mk _ _ ascii _ (fun _ e => @Unharmed.refl _ _ ascii e) (@Unharmed.refl _ _ ascii) fun _ e => @Unharmed.refl _ _ ascii e

theorem free_movedOn : @FreeEmits ascii (settingsOf false) plainSurface.site movedOn := by
  intro file path src prog input ctx hfile hparse hrun m hm
  have hread := hfile.read
  change (if path = "/p/flows/a.vjs" then Except.ok (minFlow "10") else .error "not found") = .ok src at hread
  have hsrc : minFlow "10" = src := by
    split at hread
    · exact Except.ok.inj hread
    · cases hread
  have hquiet : (@parse ascii (minFlow "10")).toOption.map (·.writesBus) = some false := by decide +kernel
  rw [hsrc, hparse] at hquiet
  rw [(@run_quiet ascii prog (Option.some.inj hquiet) input _).1 ctx hrun] at hm
  cases hm

theorem governed_unharmed_purge :
    ((purges true).foldl (fun e v => @Visit.pay _ _ ascii _ v e) oneLetter).letters = oneLetter.letters ∧
    ∀ v ∈ purges false, (@Visit.pay _ _ ascii _ v oneLetter).letters = [] := by
  have hgov : ∀ v ∈ purges true, v.works.requireApproval = true := by
    intro v hv
    rcases List.mem_pair.mp hv with rfl | rfl <;> rfl
  have hagent : ∀ v ∈ purges true, ¬ CarriesApproval v.cfg v.request := by
    intro v hv happroved
    rw [← approvalAuthorized_iff] at happroved
    rcases List.mem_pair.mp hv with rfl | rfl <;> exact absurd happroved (by decide +kernel)
  have hflows : ∀ v ∈ purges true, @FreeEmits ascii v.cfg v.surface.site oneLetter.world := by
    intro v hv
    rcases List.mem_pair.mp hv with rfl | rfl <;> exact free_movedOn
  have hroot : ∀ v ∈ purges true, reserved (v.cfg.subjRoot ++ ".proposals.events") = false := by
    intro v hv
    rcases List.mem_pair.mp hv with rfl | rfl <;> decide
  have hharm : ∀ v ∈ purges true, @Harmless _ _ ascii v.works := by
    have hopen := harmless_open true
    intro v hv
    rcases List.mem_pair.mp hv with rfl | rfl <;> exact hopen
  obtain ⟨-, -, -, hletters, -, -⟩ := @governed_unharmed _ _ ascii _ oneLetter (purges true) hgov hagent hflows hroot hharm
  refine ⟨hletters, fun v hv => ?_⟩
  rcases List.mem_pair.mp hv with rfl | rfl <;> decide +kernel

def fileSet (clustered : Bool) : Visit Unit (List String) := ⟨settingsOf clustered, openWorks false, plainSurface, everyTurn,
  ⟨.post, "/file/set", [("X-Approval-Token", "human")], "\x7b\"path\":\"flows/a.vjs\",\"content\":\"\"\x7d"⟩⟩

theorem clustered_files_kept_set :
    ([fileSet true].foldl (fun e v => @Visit.pay _ _ ascii _ v e) oneLetter).world.files = oneLetter.world.files ∧
    ((@Visit.pay _ _ ascii _ (fileSet false) oneLetter).world.files "/p/flows/a.vjs").toOption = some "" := by
  have helse : Elsewhere (openWorks false) := 
    ⟨fun _ _ => rfl, fun _ => rfl, fun _ _ => rfl, fun _ _ _ => rfl, fun _ _ _ _ => rfl, fun _ _ _ _ => rfl⟩
  have hcl : ∀ v ∈ [fileSet true], v.cfg.clustered = true := by
    intro v hv
    rw [List.mem_singleton.mp hv]
    rfl
  have hkept := @clustered_files_kept _ _ ascii _ oneLetter [fileSet true] hcl fun v hv => by
    rw [List.mem_singleton.mp hv]
    exact helse
  refine ⟨hkept, ?_⟩
  decide +kernel

end Vejas.Http
