import Mathlib.Data.List.Perm.Basic
import Vejas.Governance.Overlays
import Vejas.Lib.Transition
import Vejas.Rust.Split

/-! Proposals submitted from many processes at once: the id of a submission is the second of its
clock and a counter of its process, and the record is put without asking what is there. -/

namespace Vejas.Governance
open Json Rust Vjs Fallible

structure Instance where
  seq : UInt64
  world : World

def onWorld {α : Type} (m : Gov α) : Fallible Fault Instance α := fun s =>
  let (r, w) := m s.world
  (r, { s with world := w })

def newId (ts : Nat) (seq : UInt64) : String := join "-" ["p", toString ts, toString seq.toNat]

def drawId (ts : Nat) : Fallible Fault Instance String := fun s =>
  (.ok (newId ts s.seq), { s with seq := s.seq + 1 })

structure Draft where
  id : String
  kind : String
  payload : Value
  author : String
  baseline : String
  evidence : Value

def Draft.record (d : Draft) (ts : Nat) : Value := .obj [
  ("id", .string d.id), ("kind", .string d.kind), ("payload", d.payload), ("author", .string d.author),
  ("created_at", .ofNat ts), ("baseline", .string d.baseline), ("evidence", d.evidence),
  ("status", .string "pending")]

section
variable [External]

def submit (fates : Fates) (d : Draft) (ts : Nat) : Gov Value := do
  perform (fates .putProposal) fun w => w.putProposal d.id (d.record ts).render
  pure (d.record ts)

def draft (cfg : Settings) (fates : Fates) (kind : String) (payload : Value) (author : String)
    (evidence : Value) : Fallible Fault Instance Draft := do
  if kind != "set_literal" && kind != "version" then
    onWorld (fail "kind must be set_literal or version")
  else
    let file ← onWorld (required payload "file" "payload.file required")
    onWorld (connect fates)
    let baseline ← onWorld (effectiveSourceHash cfg fates file)
    if !(fates .openProposals).isOk then onWorld (fail "proposal store unavailable")
    else
      let id ← drawId cfg.now
      pure ⟨id, kind, payload, author, baseline, evidence⟩

def submitProposal (cfg : Settings) (created sent : Nat) (fates : Fates) (kind : String) (payload : Value)
    (author : String) (evidence : Value) : Fallible Fault Instance Value := do
  let d ← draft cfg fates kind payload author evidence
  let record ← onWorld (submit fates d created)
  onWorld (emitProposalEvent { cfg with now := sent } fates "submitted" record)
  pure record

/-- The processes with their counters, the calls on their way, and what was answered. `issued` are
the clock readings and counter values drawn so far; `updates` are the calls of `set_status` that
have read a record and not put it back yet. -/
structure Board where
  seq : Nat → UInt64
  world : World
  issued : List (Nat × UInt64)
  drafts : List Draft
  updates : List (String × Value)
  accepted : List (String × Value)

inductive BoardAct
  /-- a process starts, or starts again -/
  | start (p : Nat)
  | draft (p : Nat) (cfg : Settings) (fates : Fates) (kind : String) (payload : Value) (author : String)
      (evidence : Value)
  | submit (i : Nat) (fates : Fates) (ts : Nat)
  | read (fates : Fates) (id : String)
  | update (i : Nat) (cfg : Settings) (fates : Fates) (status : String) (decidedBy : Option String)
  /-- whatever else happens outside the bucket of the proposals -/
  | elsewhere (w : World)

namespace Board

def begin (s : Board) (p : Nat) (cfg : Settings) (r : Except Fault Draft) (after : Instance) : Board :=
  match r with
  | .ok d => { s with
      seq := Function.update s.seq p after.seq
      world := after.world
      issued := (cfg.now, s.seq p) :: s.issued
      drafts := s.drafts ++ [d] }
  | .error _ => { s with seq := Function.update s.seq p after.seq, world := after.world }

def answer (s : Board) (i : Nat) (id : String) (r : Except Fault Value) (w : World) : Board :=
  match r with
  | .ok record => { s with world := w, drafts := s.drafts.eraseIdx i, accepted := s.accepted ++ [(id, record)] }
  | .error _ => { s with world := w, drafts := s.drafts.eraseIdx i }

def step (s : Board) : BoardAct → Option Board
  | .start p => some { s with seq := Function.update s.seq p 1 }
  | .draft p cfg fates kind payload author evidence =>
    let (r, after) := Governance.draft cfg fates kind payload author evidence ⟨s.seq p, s.world⟩
    some (s.begin p cfg r after)
  | .submit i fates ts =>
    match s.drafts[i]? with
    | none => none
    | some d =>
      let (r, w) := Governance.submit fates d ts s.world
      some (s.answer i d.id r w)
  | .read fates id =>
    match getProposal fates id s.world with
    | (.ok (some stored), _) => some { s with updates := s.updates ++ [(id, stored)] }
    | _ => some s
  | .update i cfg fates status decidedBy =>
    match s.updates[i]? with
    | none => none
    | some (id, stored) =>
      let (_, w) := perform (fates .putProposal)
        (fun w => w.putProposal id (withStatus cfg status decidedBy stored).render) s.world
      some { s with world := w, updates := s.updates.eraseIdx i }
  | .elsewhere w => some { s with world := { w with proposals := s.world.proposals } }

def Start (s : Board) : Prop :=
  (∀ p, s.seq p = 1) ∧ s.world.proposals = [] ∧ s.issued = [] ∧ s.drafts = [] ∧ s.updates = [] ∧ s.accepted = []

/-- No process has drawn this counter value in this second. -/
def Fresh (s : Board) : BoardAct → Prop
  | .draft p cfg .. => (cfg.now, s.seq p) ∉ s.issued
  | _ => True

end Board

/-- The text of a submitted record, or what decisions have made of it. -/
inductive Stands (record : Value) : String → Prop
  | submitted : Stands record record.render
  | decided {text : String} {stored : Value} (cfg : Settings) (status : String) (decidedBy : Option String)
      (h : Stands record text) (hread : fromStr text = some stored) :
      Stands record (withStatus cfg status decidedBy stored).render

structure Board.Holds (s : Board) : Prop where
  distinct : (s.accepted.map (·.1)).Nodup
  stands : ∀ a ∈ s.accepted, ∃ text, s.world.proposals.get? a.1 = some text ∧ Stands a.2 text

omit [External] in
theorem leaves_onWorld {α γ : Type} {f : World → γ} {m : Gov α} (h : Leaves f m) :
    Leaves (fun s : Instance => (s.seq, f s.world)) (onWorld m) := fun s => congrArg (Prod.mk s.seq) (h s.world)

omit [External] in
theorem leaves_proposals_draft (cfg : Settings) (fates : Fates) (kind : String) (payload : Value)
    (author : String) (evidence : Value) :
    Leaves (fun s : Instance => s.world.proposals) (draft cfg fates kind payload author evidence) := by
  have hclosed : Closed (fun {α} (m : Fallible Fault Instance α) => Leaves (fun s => s.world.proposals) m) :=
    closed_leaves _
  have hworld : ∀ {α : Type} {m : Gov α}, Leaves (·.proposals) m →
      Leaves (fun s : Instance => s.world.proposals) (onWorld m) :=
    fun h s => congrArg Prod.snd (leaves_onWorld h s)
  have hfail : ∀ {α : Type} (msg : String), Leaves (fun s : Instance => s.world.proposals)
      (onWorld (fail msg : Gov α)) := fun msg s => rfl
  unfold draft
  split
  · exact hfail _
  · refine hclosed.bind (hworld (leaves_required _ payload _ _)) fun file => ?_
    refine hclosed.bind (hworld (leaves_connect _ fates)) fun _ => ?_
    refine hclosed.bind (hworld (leaves_effectiveSourceHash (fun _ _ => rfl) cfg fates file)) fun baseline => ?_
    split
    · exact hfail _
    · exact hclosed.bind (fun _ => rfl) fun id => hclosed.pure _

omit [External] in
theorem seq_onWorld {α : Type} {m : Gov α} {s s' : Instance} {r : Except Fault α} (h : onWorld m s = (r, s')) :
    s'.seq = s.seq := by
  rw [← show (onWorld m s).2.seq = s.seq from rfl, h]

omit [External] in
theorem onWorld_run {α : Type} {m : Gov α} {s s' : Instance} {r : Except Fault α} (h : onWorld m s = (r, s')) :
    m s.world = (r, s'.world) := by
  rcases hm : m s.world with ⟨r', w⟩
  unfold onWorld at h
  rw [hm] at h
  cases h
  rfl

omit [External] in
theorem draft_ok {cfg : Settings} {fates : Fates} {kind : String} {payload : Value} {author : String}
    {evidence : Value} {s s' : Instance} {d : Draft}
    (h : draft cfg fates kind payload author evidence s = (.ok d, s')) : d.id = newId cfg.now s.seq := by
  unfold draft at h
  split at h
  · cases h
  · obtain ⟨file, s₁, h₁, h⟩ := of_bind_ok h
    obtain ⟨_, s₂, h₂, h⟩ := of_bind_ok h
    obtain ⟨baseline, s₃, h₃, h⟩ := of_bind_ok h
    split at h
    · cases h
    · have hseq : s₃.seq = s.seq := (seq_onWorld h₃).trans ((seq_onWorld h₂).trans (seq_onWorld h₁))
      rw [← hseq]
      cases h
      rfl

omit [External] in
theorem newId_inj {ts ts' : Nat} {seq seq' : UInt64} (h : newId ts seq = newId ts' seq') : ts = ts' ∧ seq = seq' := by
  have hdigits : ∀ n : Nat, '-' ∉ (toString n).toList := by
    intro n hmem
    rw [Nat.toString_eq_repr, Nat.repr, String.toList_ofList] at hmem
    have hd : Char.isDigit '-' = true := @Nat.isDigit_of_mem_toDigits 10 n _ (by decide) (by decide) hmem
    cases hd
  have hback : ∀ (ts : Nat) (seq : UInt64), split (newId ts seq) "-" = ["p", toString ts, toString seq.toNat] := by
    intro ts seq
    apply split_join rfl (List.cons_ne_nil _ _)
    intro p hp
    simp only [List.mem_cons, List.not_mem_nil, or_false] at hp
    rcases hp with rfl | rfl | rfl
    · decide
    · exact hdigits ts
    · exact hdigits seq.toNat
  have hparts := (hback ts seq).symm.trans ((congrArg (split · "-") h).trans (hback ts' seq'))
  simp only [List.cons.injEq, true_and, and_true] at hparts
  have hnat : ∀ {m n : Nat}, toString m = toString n → m = n := by
    intro m n hmn
    rw [← Nat.ofDigitChars_ten_toDigits (n := m), ← Nat.ofDigitChars_ten_toDigits (n := n)]
    have htext := congrArg String.toList hmn
    simp only [Nat.toString_eq_repr, Nat.repr, String.toList_ofList] at htext
    rw [htext]
  exact ⟨hnat hparts.1, UInt64.toNat_inj.mp (hnat hparts.2)⟩

omit [External] in
theorem get?_put_of_ne (kv : Kv) {key other : String} (value : String) (h : other ≠ key) :
    (kv.put key value).get? other = kv.get? other := by
  have hfilter : ∀ p : String × String, decide ((p.1 != key) = true ∧ (p.1 == other) = true) = (p.1 == other) := by
    intro p
    by_cases hp : p.1 = other
    · simp [hp, h]
    · simp [hp]
  simp only [Kv.get?, Kv.put, Kv.delete, List.find?_append, List.find?_filter, hfilter]
  simp [Ne.symm h]

omit [External] in
theorem perform_put (fate : Fate) (id text : String) (w : World) :
    (perform fate (fun w => w.putProposal id text) w).2.proposals = w.proposals ∨
      (perform fate (fun w => w.putProposal id text) w).2.proposals = w.proposals.put id text := by
  cases fate with
  | ok => exact .inr rfl
  | failed e => exact .inl rfl
  | lost e => exact .inr rfl

theorem submit_ok {fates : Fates} {d : Draft} {ts : Nat} {w w' : World} {record : Value}
    (h : submit fates d ts w = (.ok record, w')) :
    record = d.record ts ∧ w'.proposals = w.proposals.put d.id record.render := by
  obtain ⟨_, w₁, hput, hrest⟩ := of_bind_ok h
  cases hrest
  refine ⟨rfl, ?_⟩
  cases hfate : fates .putProposal with
  | ok =>
    rw [hfate] at hput
    cases hput
    rfl
  | failed e =>
    rw [hfate] at hput
    cases hput
  | lost e =>
    rw [hfate] at hput
    cases hput

theorem submit_proposals (fates : Fates) (d : Draft) (ts : Nat) (w : World) :
    (submit fates d ts w).2.proposals = w.proposals ∨
      (submit fates d ts w).2.proposals = w.proposals.put d.id (d.record ts).render := by
  have hstate : (submit fates d ts w).2 = (perform (fates .putProposal)
      (fun w => w.putProposal d.id (d.record ts).render) w).2 := bind_state (fun _ _ => rfl) w
  rw [hstate]
  exact perform_put _ _ _ _

namespace Board

def Issued (s : Board) (id : String) : Prop := ∃ p ∈ s.issued, id = newId p.1 p.2

structure Sound (s : Board) : Prop where
  distinct : (s.drafts.map (·.id) ++ s.accepted.map (·.1)).Nodup
  drawn : ∀ d ∈ s.drafts, s.Issued d.id
  stored : ∀ id text, s.world.proposals.get? id = some text → s.Issued id
  unwritten : ∀ d ∈ s.drafts, s.world.proposals.get? d.id = none
  found : ∀ u ∈ s.updates, s.world.proposals.get? u.1 ≠ none
  stands : ∀ a ∈ s.accepted, ∃ text, s.world.proposals.get? a.1 = some text ∧ Stands a.2 text
  read : ∀ u ∈ s.updates, ∀ a ∈ s.accepted, a.1 = u.1 → ∃ text, Stands a.2 text ∧ fromStr text = some u.2

variable {s s' : Board}

theorem Sound.holds (h : s.Sound) : s.Holds := ⟨(List.nodup_append.mp h.distinct).2.1, h.stands⟩

theorem Start.sound (h : s.Start) : s.Sound := by
  obtain ⟨-, hworld, -, hdrafts, hupdates, haccepted⟩ := h
  constructor <;> simp [hworld, hdrafts, hupdates, haccepted, Kv.get?]

theorem Sound.elsewhere (h : s.Sound) (seq : Nat → UInt64) {w : World} (hw : w.proposals = s.world.proposals) :
    ({ s with seq := seq, world := w } : Board).Sound where
  distinct := h.distinct
  drawn := h.drawn
  stored id text ht := h.stored id text (hw ▸ ht)
  unwritten d hd := hw ▸ h.unwritten d hd
  found u hu := hw ▸ h.found u hu
  stands a ha := hw ▸ h.stands a ha
  read := h.read

theorem Sound.draft (h : s.Sound) {ts : Nat} {seq : UInt64} (hfresh : (ts, seq) ∉ s.issued) {d : Draft}
    (hd : d.id = newId ts seq) :
    ({ s with issued := (ts, seq) :: s.issued, drafts := s.drafts ++ [d] } : Board).Sound := by
  have hnew : ¬ s.Issued d.id := by
    rintro ⟨p, hp, heq⟩
    obtain ⟨rfl, rfl⟩ := newId_inj (hd.symm.trans heq)
    exact hfresh hp
  have hmore : ∀ {id}, s.Issued id →
      ({ s with issued := (ts, seq) :: s.issued, drafts := s.drafts ++ [d] } : Board).Issued id :=
    fun ⟨p, hp, heq⟩ => ⟨p, List.mem_cons_of_mem _ hp, heq⟩
  have hmine : ({ s with issued := (ts, seq) :: s.issued, drafts := s.drafts ++ [d] } : Board).Issued d.id :=
    ⟨(ts, seq), List.mem_cons_self .., hd⟩
  constructor
  · have hout : d.id ∉ s.drafts.map (·.id) ++ s.accepted.map (·.1) := by
      intro hmem
      rcases List.mem_append.mp hmem with hin | hin
      · obtain ⟨d', hd', heq⟩ := List.mem_map.mp hin
        exact hnew (heq ▸ h.drawn d' hd')
      · obtain ⟨a, ha, heq⟩ := List.mem_map.mp hin
        obtain ⟨text, htext, -⟩ := h.stands a ha
        exact hnew (heq ▸ h.stored _ _ htext)
    have hperm : (d.id :: (s.drafts.map (·.id) ++ s.accepted.map (·.1))).Perm
        ((s.drafts ++ [d]).map (·.id) ++ s.accepted.map (·.1)) := by
      rw [List.map_append, List.map_singleton, List.append_assoc]
      exact List.perm_middle.symm
    exact hperm.nodup (List.nodup_cons.mpr ⟨hout, h.distinct⟩)
  · intro d' hd'
    rcases List.mem_append.mp hd' with hin | hin
    · exact hmore (h.drawn d' hin)
    · rw [List.mem_singleton.mp hin]
      exact hmine
  · intro id text ht
    exact hmore (h.stored id text ht)
  · intro d' hd'
    rcases List.mem_append.mp hd' with hin | hin
    · exact h.unwritten d' hin
    · rw [List.mem_singleton.mp hin]
      cases hget : s.world.proposals.get? d.id with
      | none => rfl
      | some text => exact absurd (h.stored _ _ hget) hnew
  · exact h.found
  · exact h.stands
  · exact h.read

theorem Sound.own (h : s.Sound) {i : Nat} {d : Draft} (hd : s.drafts[i]? = some d) :
    (d.id :: ((s.drafts.eraseIdx i).map (·.id) ++ s.accepted.map (·.1))).Nodup := by
  obtain ⟨hi, rfl⟩ := List.getElem?_eq_some_iff.mp hd
  have hperm := ((List.getElem_cons_eraseIdx_perm hi).map (·.id)).append_right (s.accepted.map (·.1))
  exact hperm.symm.nodup h.distinct

theorem Sound.discard (h : s.Sound) {i : Nat} {d : Draft} (hd : s.drafts[i]? = some d) {w : World} {text : String}
    (hw : w.proposals = s.world.proposals ∨ w.proposals = s.world.proposals.put d.id text) :
    ({ s with world := w, drafts := s.drafts.eraseIdx i } : Board).Sound := by
  have hmem := List.mem_of_getElem? hd
  obtain ⟨hout, hrest⟩ := List.nodup_cons.mp (h.own hd)
  have hsame : ∀ id, id ≠ d.id → w.proposals.get? id = s.world.proposals.get? id := by
    intro id hne
    rcases hw with hw | hw
    · rw [hw]
    · rw [hw, get?_put_of_ne _ _ hne]
  constructor
  · exact hrest
  · exact fun d' hd' => h.drawn d' (List.mem_of_mem_eraseIdx hd')
  · intro id text' ht
    by_cases hid : id = d.id
    · rw [hid]
      exact h.drawn d hmem
    · exact h.stored id text' (hsame id hid ▸ ht)
  · intro d' hd'
    have hne : d'.id ≠ d.id := by
      intro heq
      exact hout (List.mem_append_left _ (heq ▸ List.mem_map_of_mem hd'))
    exact (hsame _ hne).trans (h.unwritten d' (List.mem_of_mem_eraseIdx hd'))
  · intro u hu
    have hne : u.1 ≠ d.id := fun heq => h.found u hu (heq ▸ h.unwritten d hmem)
    rw [hsame _ hne]
    exact h.found u hu
  · intro a ha
    have hne : a.1 ≠ d.id := by
      intro heq
      exact hout (List.mem_append_right _ (heq ▸ List.mem_map_of_mem ha))
    rw [hsame _ hne]
    exact h.stands a ha
  · exact h.read

theorem Sound.accept (h : s.Sound) {i : Nat} {d : Draft} (hd : s.drafts[i]? = some d) {w : World} {record : Value}
    (hw : w.proposals = s.world.proposals.put d.id record.render) :
    ({ s with world := w, drafts := s.drafts.eraseIdx i, accepted := s.accepted ++ [(d.id, record)] } : Board).Sound := by
  have hrest := h.discard hd (.inr hw)
  have hperm : (d.id :: ((s.drafts.eraseIdx i).map (·.id) ++ s.accepted.map (·.1))).Perm
      ((s.drafts.eraseIdx i).map (·.id) ++ (s.accepted ++ [(d.id, record)]).map (·.1)) := by
    rw [List.map_append, List.map_singleton, ← List.append_assoc]
    exact (List.perm_append_singleton _ _).symm
  constructor
  · exact hperm.nodup (h.own hd)
  · exact hrest.drawn
  · exact hrest.stored
  · exact hrest.unwritten
  · exact hrest.found
  · intro a ha
    rcases List.mem_append.mp ha with hin | hin
    · exact hrest.stands a hin
    · rw [List.mem_singleton.mp hin]
      exact ⟨record.render, by rw [hw, get?_put], .submitted⟩
  · intro u hu a ha heq
    rcases List.mem_append.mp ha with hin | hin
    · exact h.read u hu a hin heq
    · -- nothing was under this id before
      rw [List.mem_singleton.mp hin] at heq
      exact absurd (heq ▸ h.unwritten d (List.mem_of_getElem? hd)) (h.found u hu)

theorem Sound.fetch (h : s.Sound) {id text : String} {stored : Value}
    (hget : s.world.proposals.get? id = some text) (hread : fromStr text = some stored) :
    ({ s with updates := s.updates ++ [(id, stored)] } : Board).Sound := by
  constructor
  · exact h.distinct
  · exact h.drawn
  · exact h.stored
  · exact h.unwritten
  · intro u hu
    rcases List.mem_append.mp hu with hin | hin
    · exact h.found u hin
    · rw [List.mem_singleton.mp hin, hget]
      exact Option.some_ne_none _
  · exact h.stands
  · intro u hu a ha heq
    rcases List.mem_append.mp hu with hin | hin
    · exact h.read u hin a ha heq
    · rw [List.mem_singleton.mp hin] at heq ⊢
      obtain ⟨text', htext, hstands⟩ := h.stands a ha
      rw [heq, hget] at htext
      rw [← Option.some.inj htext] at hstands
      exact ⟨text, hstands, hread⟩

theorem Sound.settle (h : s.Sound) {i : Nat} {id : String} {stored : Value} (hu : s.updates[i]? = some (id, stored))
    (cfg : Settings) (status : String) (decidedBy : Option String) {w : World}
    (hw : w.proposals = s.world.proposals ∨
      w.proposals = s.world.proposals.put id (withStatus cfg status decidedBy stored).render) :
    ({ s with world := w, updates := s.updates.eraseIdx i } : Board).Sound := by
  have hmem := List.mem_of_getElem? hu
  have hfound := h.found _ hmem
  have hsome : ∀ other, w.proposals.get? other = none ↔ s.world.proposals.get? other = none := by
    intro other
    rcases hw with hw | hw
    · rw [hw]
    · rw [hw]
      by_cases hid : other = id
      · rw [hid, get?_put]
        exact iff_of_false (Option.some_ne_none _) hfound
      · rw [get?_put_of_ne _ _ hid]
  constructor
  · exact h.distinct
  · exact h.drawn
  · intro other text ht
    cases hget : s.world.proposals.get? other with
    | none => exact absurd ((hsome other).mpr hget) (ht ▸ Option.some_ne_none _)
    | some text' => exact h.stored other text' hget
  · exact fun d hd => (hsome _).mpr (h.unwritten d hd)
  · exact fun u hu => (hsome _).not.mpr (h.found u (List.mem_of_mem_eraseIdx hu))
  · intro a ha
    rcases hw with hw | hw
    · rw [hw]
      exact h.stands a ha
    · rw [hw]
      by_cases hid : a.1 = id
      · obtain ⟨text, hstands, hread⟩ := h.read _ hmem a ha hid
        exact ⟨_, by rw [hid, get?_put], .decided cfg status decidedBy hstands hread⟩
      · rw [get?_put_of_ne _ _ hid]
        exact h.stands a ha
  · exact fun u hu => h.read u (List.mem_of_mem_eraseIdx hu)

theorem step_sound {a : BoardAct} (h : s.Sound) (hfresh : s.Fresh a) (hstep : s.step a = some s') : s'.Sound := by
  cases a with
  | start p =>
    cases hstep
    exact h.elsewhere _ rfl
  | draft p cfg fates kind payload author evidence =>
    have hsame := leaves_proposals_draft cfg fates kind payload author evidence ⟨s.seq p, s.world⟩
    simp only [step] at hstep
    rcases hrun : Governance.draft cfg fates kind payload author evidence ⟨s.seq p, s.world⟩ with ⟨_ | d, after⟩
    · rw [hrun] at hsame hstep
      cases hstep
      exact h.elsewhere _ hsame
    · rw [hrun] at hsame hstep
      cases hstep
      have hnew : (cfg.now, s.seq p) ∉ s.issued := hfresh
      have hid := draft_ok hrun
      have hseq := h.elsewhere (Function.update s.seq p after.seq) hsame
      exact hseq.draft hnew hid
  | submit i fates ts =>
    simp only [step] at hstep
    cases hd : s.drafts[i]? with
    | none =>
      rw [hd] at hstep
      cases hstep
    | some d =>
      rw [hd] at hstep
      have hput := submit_proposals fates d ts s.world
      rcases hrun : Governance.submit fates d ts s.world with ⟨_ | record, w⟩
      · rw [hrun] at hput
        simp only [hrun] at hstep
        cases hstep
        exact h.discard hd hput
      · simp only [hrun] at hstep
        cases hstep
        obtain ⟨-, hw⟩ := submit_ok hrun
        exact h.accept hd hw
  | read fates id =>
    simp only [step, getProposal, reads_run] at hstep
    cases hfate : (fates .getProposal).isOk with
    | false =>
      rw [hfate] at hstep
      cases hstep
      exact h
    | true =>
      rw [hfate] at hstep
      cases hread : proposalOf s.world.proposals id with
      | none =>
        simp only [if_true, hread] at hstep
        cases hstep
        exact h
      | some stored =>
        simp only [if_true, hread] at hstep
        cases hstep
        obtain ⟨text, hget, hval⟩ := Option.bind_eq_some_iff.mp hread
        exact h.fetch hget hval
  | update i cfg fates status decidedBy =>
    simp only [step] at hstep
    cases hu : s.updates[i]? with
    | none =>
      rw [hu] at hstep
      cases hstep
    | some u =>
      rw [hu] at hstep
      cases hstep
      exact h.settle hu cfg status decidedBy (perform_put _ _ _ _)
  | elsewhere w =>
    cases hstep
    exact h.elsewhere s.seq rfl

end Board

theorem run_of_submitProposal {s : Board} {p : Nat} {cfg : Settings} {created sent : Nat} {fates : Fates}
    {kind author : String} {payload evidence record : Value} {after : Instance}
    (h : submitProposal cfg created sent fates kind payload author evidence ⟨s.seq p, s.world⟩ =
      (.ok record, after)) :
    ∃ s', Transition.run Board.step s
        [.draft p cfg fates kind payload author evidence, .submit s.drafts.length fates created] = some s' ∧
      s'.accepted = s.accepted ++ [(newId cfg.now (s.seq p), record)] ∧ s'.drafts = s.drafts ∧
      s'.seq p = after.seq ∧ s'.world.proposals = after.world.proposals := by
  obtain ⟨d, s₁, hdraft, h⟩ := of_bind_ok h
  obtain ⟨stored, s₂, hsubmit, h⟩ := of_bind_ok h
  obtain ⟨_, s₃, hevent, h⟩ := of_bind_ok h
  cases h
  have hid := draft_ok hdraft
  have hquiet : Leaves (fun w : World => w.proposals)
      (emitProposalEvent { cfg with now := sent } fates "submitted" record) :=
    leaves_ignore (leaves_perform fun _ => rfl)
  have hafter : (after.seq, after.world.proposals) = (s₂.seq, s₂.world.proposals) := by
    have hkeep := leaves_onWorld hquiet s₂
    rwa [hevent] at hkeep
  obtain ⟨hseq, hproposals⟩ := Prod.mk.inj hafter
  have hrun := onWorld_run hsubmit
  have hget : (s.drafts ++ [d])[s.drafts.length]? = some d := List.getElem?_concat_length
  have herase : (s.drafts ++ [d]).eraseIdx s.drafts.length = s.drafts := by
    rw [List.eraseIdx_append_of_length_le (Nat.le_refl _), Nat.sub_self]
    exact List.append_nil _
  refine ⟨⟨Function.update s.seq p s₁.seq, s₂.world, (cfg.now, s.seq p) :: s.issued, s.drafts, s.updates,
    s.accepted ++ [(newId cfg.now (s.seq p), record)]⟩, ?_, rfl, rfl, ?_, hproposals.symm⟩
  · simp only [Transition.run, Board.step, hdraft, Board.begin, Option.bind_some, hget, hrun, Board.answer, herase, hid]
  · rw [hseq, seq_onWorld hsubmit]
    exact Function.update_self ..

/-- Where no process draws a counter value in a second in which it was drawn before, every
submission that was answered has an id of its own and is found under it. -/
theorem submissions_stand {s : Board} (h : (Transition.ofStep Board.step Board.Start).ReachableUnder Board.Fresh s) :
    s.Holds := by
  have hsound : s.Sound := h.invariant (fun _ hs => Board.Start.sound hs) fun _ _ _ hs hc hstep =>
    Board.step_sound hs hc hstep
  exact hsound.holds

instance (s : Board) : ∀ a : BoardAct, Decidable (s.Fresh a)
  | .draft p cfg .. => inferInstanceAs (Decidable ((cfg.now, s.seq p) ∉ s.issued))
  | .start .. | .submit .. | .read .. | .update .. | .elsewhere .. => inferInstanceAs (Decidable True)

end

def freshBoard : Board where
  seq _ := 1
  world := {
    files := fun p => if p = "/p/flows/a.vjs" then .ok "" else .error "not found"
    canonicalize := some
    versions := []
    proposals := []
    log := [] }
  issued := []
  drafts := []
  updates := []
  accepted := []

def raise (p ts : Nat) (author : String) : BoardAct :=
  .draft p { settingsOf true with now := ts } (fun _ => .ok) "set_literal"
    (.obj [("file", .string "flows/a.vjs"), ("name", .string "MIN"), ("value", .ofNat 30)]) author .null

def twoSeconds : List BoardAct :=
  [raise 0 1 "ana", raise 1 2 "bob", .submit 1 (fun _ => .ok) 2, .submit 0 (fun _ => .ok) 2]

theorem submissions_stand_two_seconds :
    ∃ s, Transition.run (@Board.step ascii) freshBoard twoSeconds = some s ∧
      s.accepted.map (·.1) = ["p-2-1", "p-1-1"] ∧ @Board.Holds ascii s := by
  have hrun : (Transition.run (@Board.step ascii) freshBoard twoSeconds).map (fun s => s.accepted.map (·.1)) =
      some ["p-2-1", "p-1-1"] := by decide +kernel
  obtain ⟨s, hs, hids⟩ := Option.map_eq_some_iff.mp hrun
  have hfresh : Transition.Meets Board.Fresh (@Board.step ascii) freshBoard twoSeconds := by decide +kernel
  have hstart : Board.Start freshBoard := ⟨fun _ => rfl, rfl, rfl, rfl, rfl, rfl⟩
  exact ⟨s, hs, hids, @submissions_stand ascii s (Transition.ReachableUnder.run twoSeconds (.init hstart) hfresh hs)⟩

def oneSecond : List BoardAct := [raise 0 1 "ana", .submit 0 (fun _ => .ok) 1, raise 1 1 "bob"]

/-- Two processes that submit in one second: both are answered, with one id, and the bucket has
the record of the second. -/
theorem submission_overwrites :
    (∃ (s : Board) (first second : String × Value),
      (Transition.ofStep (@Board.step ascii) Board.Start).Reachable s ∧ s.accepted = [first, second] ∧
      first.1 = second.1 ∧ first.2.text "author" = some "ana" ∧ second.2.text "author" = some "bob" ∧
      s.world.proposals.get? first.1 = some (@Value.render ascii second.2)) ∧
    ¬ ∀ s, (Transition.ofStep (@Board.step ascii) Board.Start).Reachable s → @Board.Holds ascii s := by
  have hrun : (Transition.run (@Board.step ascii) freshBoard oneSecond).map
      (fun s => (s.drafts.map fun d => (d.id, (d.record 1).text "author"),
        s.accepted.map fun a => (a.1, a.2.text "author"))) =
      some ([("p-1-1", some "bob")], [("p-1-1", some "ana")]) := by decide +kernel
  obtain ⟨s, hs, hend⟩ := Option.map_eq_some_iff.mp hrun
  obtain ⟨hdrafts, haccepted⟩ := Prod.mk.inj hend
  obtain ⟨d, hd, hbob⟩ := List.map_eq_singleton_iff.mp hdrafts
  obtain ⟨a, ha, hana⟩ := List.map_eq_singleton_iff.mp haccepted
  obtain ⟨hdid, hdauthor⟩ := Prod.mk.inj hbob
  obtain ⟨haid, haauthor⟩ := Prod.mk.inj hana
  have hsame : a.1 = d.id := haid.trans hdid.symm
  have hstart : Board.Start freshBoard := ⟨fun _ => rfl, rfl, rfl, rfl, rfl, rfl⟩
  have hlast : @Board.step ascii s (.submit 0 (fun _ => .ok) 1) = some { s with
      world := s.world.putProposal d.id (@Value.render ascii (d.record 1))
      drafts := []
      accepted := [a, (d.id, d.record 1)] } := by
    simp only [Board.step, hd, List.getElem?_cons_zero]
    show some (Board.answer s 0 d.id (.ok (d.record 1)) _) = _
    simp only [Board.answer, hd, ha]
    rfl
  have hbefore : (Transition.ofStep (@Board.step ascii) Board.Start).Reachable s :=
    Transition.Reachable.run oneSecond (.init hstart) hs
  have hreach := hbefore.step trivial hlast
  refine ⟨⟨_, a, (d.id, d.record 1), hreach, rfl, hsame, haauthor, hdauthor, ?_⟩, fun hall => ?_⟩
  · rw [hsame]
    exact get?_put ..
  · have hnodup := @Board.Holds.distinct ascii _ (hall _ hreach)
    rw [List.map_cons, List.map_singleton, hsame] at hnodup
    exact absurd (List.mem_singleton_self d.id) (List.nodup_cons.mp hnodup).1

end Vejas.Governance
