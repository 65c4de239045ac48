import Vejas.Governance.Evidence

/-! The listing of the proposals writes: it expires a proposal whose baseline has moved, and it
deletes a stale overlay it comes across. -/

namespace Vejas.Governance
open Json Rust Vjs Fallible

theorem hashContent_ne_empty (s : String) : hashContent s ≠ "" := by
  intro h
  have hlen := congrArg (fun t => t.toList.length) h
  simp only [hashContent, String.toList_append, String.toList_ofList, List.length_append,
    List.length_replicate, String.toList_empty, List.length_nil] at hlen
  rw [← String.length_toList] at hlen
  omega

theorem effectiveSourceHash_unread {cfg : Settings} {file : String} {w : World}
    (h : ¬ ∃ path text, FlowFile cfg w file path text) (fates : Fates) :
    ∃ e, effectiveSourceHash cfg fates file w = (.error (.err e), w) := by
  unfold effectiveSourceHash
  cases hg : guardPath w cfg.root file with
  | none =>
    have hrun : guarded cfg file w = (.error (.err "path not allowed"), w) := by
      unfold guarded
      rw [hg]
    exact ⟨_, bind_error hrun⟩
  | some path =>
    have hrun : guarded cfg file w = (.ok path, w) := by
      unfold guarded
      rw [hg]
    rw [bind_ok hrun]
    cases hr : w.files path with
    | ok text => exact absurd ⟨path, text, hg, hr⟩ h
    | error e =>
      have hread : readFile path w = (.error (.err e), w) := by
        unfold readFile
        rw [reads_run, hr]
        rfl
      exact ⟨e, bind_error hread⟩

theorem effectiveSourceHash_read {cfg : Settings} {file path text : String} {w : World}
    (h : FlowFile cfg w file path text) (fates : Fates) :
    effectiveSourceHash cfg fates file w =
      (.ok (hashContent (effectiveSource (sees fates) w.versions (flowProcName path) text)),
        (resolveSource (fates .openVersions).isOk fates (flowProcName path) text w).2) := by
  have hg : guarded cfg file w = (.ok path, w) := by
    unfold guarded
    rw [h.guard]
  have hr : readFile path w = (.ok text, w) := by
    unfold readFile
    rw [reads_run, h.read]
    rfl
  obtain ⟨o, w', hres, -⟩ := resolveSource_run (fates .openVersions).isOk fates
    (flowProcName path) text w
  unfold effectiveSourceHash
  rw [bind_ok hg, bind_ok hr, bind_ok hres, hres]
  rfl

/-- A pending proposal on a flow file that carries a stale overlay, or whose source, with or
without the overlay, no longer hashes to the baseline of the proposal. -/
def Moved (cfg : Settings) (w : World) (p : Value) : Prop :=
  (p.index "status").asStr = some "pending" ∧
  ∃ file path text, (p.index "payload").text "file" = some file ∧ FlowFile cfg w file path text ∧
    (StaleOverlay w.versions (flowProcName path) text ∨
      proposalOf w.proposals ((p.text "id").getD "") ≠ none ∧
      ∃ seen, hashContent (effectiveSource seen w.versions (flowProcName path) text) ≠
        (p.text "baseline").getD "")

theorem attempt_ok {α : Type} {m : Gov α} {w w' : World} {a : α} (h : m w = (.ok a, w')) :
    attempt m w = (.ok (some a), w') := by
  unfold attempt
  rw [h]

theorem attempt_err {α : Type} {m : Gov α} {w w' : World} {e : String}
    (h : m w = (.error (.err e), w')) : attempt m w = (.ok none, w') := by
  unfold attempt
  rw [h]

def Fates.idle : Fates := fun _ => .failed ""

def DecisionFates.idle : DecisionFates := ⟨Fates.idle, Fates.idle, Fates.idle, Fates.idle⟩

theorem Resolved.proposals {flow baseline : String} {w w' : World} (h : Resolved flow baseline w w') :
    w'.proposals = w.proposals := by
  rcases h with rfl | ⟨-, rfl⟩ <;> rfl

theorem Resolved.log_le {flow baseline : String} {w w' : World} (h : Resolved flow baseline w w') :
    w.log.length ≤ w'.log.length := by
  rcases h with rfl | ⟨-, rfl⟩
  · exact Nat.le_refl _
  · exact Nat.le_succ w.log.length

theorem ne_of_log {w w' : World} (h : w.log.length < w'.log.length) : w' ≠ w := by
  rintro rfl
  exact Nat.lt_irrefl _ h

def Fates.ok : Fates := fun _ => .ok

theorem resolveSource_evicts {flow baseline : String} {w : World}
    (h : StaleOverlay w.versions flow baseline) :
    (resolveSource true Fates.ok flow baseline w).2 = w.deleteVersion (keyOf flow) := by
  obtain ⟨ov, hov, hstale⟩ := h
  have hget : getVersion Fates.ok flow w = (.ok (some ov), w) := by
    rw [← hov]
    rfl
  unfold resolveSource
  simp only [Bool.not_true, Bool.false_eq_true, if_false]
  rw [bind_ok hget]
  dsimp only
  rw [hstale]
  rfl

theorem stored_of_listed {own : Fates} {reads : String → Bool} {proposals : Kv} {p : Value}
    (h : p ∈ listProposals own reads proposals) : ∃ key, proposalOf proposals key = some p := by
  unfold listProposals at h
  rw [List.mem_mergeSort] at h
  split at h
  · obtain ⟨key, -, hkey⟩ := List.mem_filterMap.mp h
    split at hkey
    · exact ⟨key, hkey⟩
    · cases hkey
  · cases h

theorem listed_of_stored {proposals : Kv} {key : String} {p : Value}
    (h : proposalOf proposals key = some p) : p ∈ listProposals Fates.ok (fun _ => true) proposals := by
  have hkey : key ∈ proposals.map (·.1) := by
    unfold proposalOf Kv.get? at h
    obtain ⟨text, htext, -⟩ := Option.bind_eq_some_iff.mp h
    obtain ⟨entry, hentry, -⟩ := Option.map_eq_some_iff.mp htext
    refine List.mem_map.mpr ⟨entry, List.mem_of_find?_eq_some hentry, ?_⟩
    have hkey := List.find?_some hentry
    exact beq_iff_eq.mp hkey
  unfold listProposals
  rw [List.mem_mergeSort]
  exact List.mem_filterMap.mpr ⟨key, hkey, h⟩

section
variable [External]

theorem setStatus_absent {cfg : Settings} {fates : Fates} {id status : String}
    {decidedBy : Option String} {w : World}
    (h : (fates .getProposal).isOk = false ∨ proposalOf w.proposals id = none) :
    setStatus cfg fates id status decidedBy w = (.error (.err "proposal not found"), w) := by
  have hget : getProposal fates id w = (.ok none, w) := by
    unfold getProposal
    rw [reads_run]
    rcases h with h | h
    · rw [h]
      rfl
    · rw [h, ite_self]
  unfold setStatus
  rw [bind_ok hget]
  rfl

theorem expire_absent {cfg : Settings} {fates : Fates} {p : Value} {w : World}
    (h : (fates .getProposal).isOk = false ∨
      proposalOf w.proposals ((p.text "id").getD "") = none) (current : String) :
    expire cfg fates p current w = (.ok p, w) := by
  unfold expire
  rw [bind_ok (attempt_err (setStatus_absent h))]
  rfl

theorem reconcile_pending {cfg : Settings} {fates : DecisionFates} {p : Value} {file : String}
    (hst : (p.index "status").asStr = some "pending")
    (hf : (p.index "payload").text "file" = some file) :
    reconcile cfg fates p = (do
      let current := (← attempt (effectiveSourceHash cfg fates.check file)).getD ""
      if current == "" || current == (p.text "baseline").getD "" then pure p
      else expire cfg fates.status p current) := by
  unfold reconcile
  rw [hst, hf]
  rfl

theorem reconcile_other {cfg : Settings} {fates : DecisionFates} {p : Value}
    (h : ∀ file, (p.index "status").asStr = some "pending" →
      (p.index "payload").text "file" ≠ some file) : reconcile cfg fates p = pure p := by
  unfold reconcile
  split
  next file hst hf => exact absurd hf (h file hst)
  · rfl

theorem reconcile_unread {cfg : Settings} {fates : DecisionFates} {p : Value} {file : String}
    {w : World} (hst : (p.index "status").asStr = some "pending")
    (hf : (p.index "payload").text "file" = some file)
    (h : ¬ ∃ path text, FlowFile cfg w file path text) :
    reconcile cfg fates p w = (.ok p, w) := by
  obtain ⟨e, he⟩ := effectiveSourceHash_unread h fates.check
  rw [reconcile_pending hst hf, bind_ok (attempt_err he)]
  rfl

theorem reconcile_read {cfg : Settings} (fates : DecisionFates) {p : Value}
    {file path text : String} {w w' : World} (hst : (p.index "status").asStr = some "pending")
    (hf : (p.index "payload").text "file" = some file) (hfile : FlowFile cfg w file path text)
    (hw' : (resolveSource (fates.check .openVersions).isOk fates.check (flowProcName path) text w).2 =
      w') :
    reconcile cfg fates p w =
      let current := hashContent (effectiveSource (sees fates.check) w.versions (flowProcName path) text)
      if current = (p.text "baseline").getD "" then (.ok p, w')
      else expire cfg fates.status p current w' := by
  have hhash := effectiveSourceHash_read hfile fates.check
  rw [hw'] at hhash
  rw [reconcile_pending hst hf, bind_ok (attempt_ok hhash)]
  generalize hcur : hashContent _ = current
  have hne : current ≠ "" := by
    rw [← hcur]
    exact hashContent_ne_empty _
  show (if current == "" || current == (p.text "baseline").getD "" then (pure p : Gov Value)
    else expire cfg fates.status p current) w' = _
  by_cases heq : current = (p.text "baseline").getD ""
  · have hcond : (current == "" || current == (p.text "baseline").getD "") = true := by simp [← heq]
    rw [if_pos hcond, if_pos heq]
    rfl
  · have hcond : ¬ (current == "" || current == (p.text "baseline").getD "") = true := by
      simp [hne, heq]
    rw [if_neg hcond, if_neg heq]

theorem reconcile_keeps {cfg : Settings} {p : Value} {w : World} (h : ¬ Moved cfg w p)
    (fates : DecisionFates) : reconcile cfg fates p w = (.ok p, w) := by
  by_cases hp : (p.index "status").asStr = some "pending" ∧
      ∃ file, (p.index "payload").text "file" = some file
  · obtain ⟨hst, file, hf⟩ := hp
    by_cases hread : ∃ path text, FlowFile cfg w file path text
    · obtain ⟨path, text, hfile⟩ := hread
      have hstays : ¬ StaleOverlay w.versions (flowProcName path) text := fun hs =>
        h ⟨hst, file, path, text, hf, hfile, .inl hs⟩
      obtain ⟨o, w', hres, hw'⟩ := resolveSource_run (fates.check .openVersions).isOk fates.check
        (flowProcName path) text w
      obtain rfl : w' = w := hw'.resolve_right fun hs => hstays hs.1
      rw [reconcile_read fates hst hf hfile (by rw [hres])]
      dsimp only
      split
      · rfl
      next hne =>
        refine expire_absent (.inr (Classical.byContradiction fun hsome => ?_)) _
        exact h ⟨hst, file, path, text, hf, hfile, .inr ⟨hsome, _, hne⟩⟩
    · exact reconcile_unread hst hf hread
  · rw [reconcile_other fun file hst hf => hp ⟨hst, file, hf⟩]
    rfl

theorem reconcile_idle (cfg : Settings) (p : Value) (w : World) :
    reconcile cfg .idle p w = (.ok p, w) := by
  by_cases hp : (p.index "status").asStr = some "pending" ∧
      ∃ file, (p.index "payload").text "file" = some file
  · obtain ⟨hst, file, hf⟩ := hp
    by_cases hread : ∃ path text, FlowFile cfg w file path text
    · obtain ⟨path, text, hfile⟩ := hread
      rw [reconcile_read .idle hst hf hfile rfl]
      dsimp only
      split
      · rfl
      · exact expire_absent (.inl rfl) _
    · exact reconcile_unread hst hf hread
  · rw [reconcile_other fun file hst hf => hp ⟨hst, file, hf⟩]
    rfl

theorem expire_puts {cfg : Settings} {p stored : Value} {w : World}
    (h : proposalOf w.proposals ((p.text "id").getD "") = some stored) (current : String) :
    (expire cfg Fates.ok p current w).2.log.length = w.log.length + 3 := by
  have hget : getProposal Fates.ok ((p.text "id").getD "") w = (.ok (some stored), w) := by
    rw [← h]
    rfl
  have hset : ∃ w', setStatus cfg Fates.ok ((p.text "id").getD "") "expired" none w =
      (.ok (withStatus cfg "expired" none stored), w') ∧ w'.log.length = w.log.length + 1 := by
    unfold setStatus
    rw [bind_ok hget]
    exact ⟨_, rfl, rfl⟩
  obtain ⟨w', hset, hlen⟩ := hset
  unfold expire
  rw [bind_ok (attempt_ok hset)]
  show w'.log.length + 2 = w.log.length + 3
  rw [hlen]

theorem reconcile_changes {cfg : Settings} {p : Value} {w : World} (h : Moved cfg w p) :
    ∃ fates, (reconcile cfg fates p w).2 ≠ w := by
  obtain ⟨hst, file, path, text, hf, hfile, hstale | ⟨hstored, seen, hne⟩⟩ := h
  · refine ⟨⟨.idle, .ok, .idle, .idle⟩, ?_⟩
    rw [reconcile_read ⟨.idle, .ok, .idle, .idle⟩ hst hf hfile (resolveSource_evicts hstale)]
    dsimp only
    have hdeleted : w.deleteVersion (keyOf (flowProcName path)) ≠ w :=
      ne_of_log (Nat.lt_succ_self w.log.length)
    split
    · exact hdeleted
    · rw [expire_absent (.inl rfl)]
      exact hdeleted
  · -- the calls see the overlay exactly as `seen` says
    let check : Fates := fun _ => if seen then .ok else .failed ""
    have hsees : sees check = seen := by cases seen <;> rfl
    obtain ⟨o, w', hres, hw'⟩ := resolveSource_run (check .openVersions).isOk check
      (flowProcName path) text w
    obtain ⟨stored, hstored⟩ := Option.ne_none_iff_exists'.mp hstored
    have hput : proposalOf w'.proposals ((p.text "id").getD "") = some stored := by
      rw [hw'.proposals]
      exact hstored
    refine ⟨⟨.idle, check, .idle, .ok⟩, ?_⟩
    rw [reconcile_read ⟨.idle, check, .idle, .ok⟩ hst hf hfile (by rw [hres])]
    dsimp only
    rw [hsees, if_neg hne]
    refine ne_of_log ?_
    rw [expire_puts hput]
    exact Nat.lt_add_right 2 (Nat.lt_succ_of_le hw'.log_le)

theorem reconcileAll_keeps {cfg : Settings} {fates : Nat → DecisionFates} {ps : List Value}
    {w : World} (h : ∀ p ∈ ps, ¬ Moved cfg w p) (n : Nat) :
    (reconcileAll cfg fates n ps w).2 = w := by
  induction ps generalizing n with
  | nil => rfl
  | cons p ps ih =>
    unfold reconcileAll
    rw [bind_ok (reconcile_keeps (h p List.mem_cons_self) (fates n))]
    rw [bind_state fun _ => (closed_leaves _).pure _]
    exact ih (fun q hq => h q (List.mem_cons_of_mem p hq)) (n + 1)

theorem reconcileAll_idle {cfg : Settings} {fates : Nat → DecisionFates} (ps : List Value) {n : Nat}
    (h : ∀ i, n ≤ i → fates i = .idle) : Leaves (fun w : World => w) (reconcileAll cfg fates n ps) := by
  induction ps generalizing n with
  | nil => exact fun _ => rfl
  | cons p ps ih =>
    intro w
    unfold reconcileAll
    rw [h n (Nat.le_refl n), bind_ok (reconcile_idle cfg p w)]
    rw [bind_state fun _ => (closed_leaves _).pure _]
    exact ih (fun i hi => h i (Nat.le_of_succ_le hi)) w

theorem reconcileAll_single {cfg : Settings} {fates : Nat → DecisionFates} {pre post : List Value}
    {p : Value} {n : Nat} (h : ∀ i, i ≠ n + pre.length → fates i = .idle) (w : World) :
    (reconcileAll cfg fates n (pre ++ p :: post) w).2 =
      (reconcile cfg (fates (n + pre.length)) p w).2 := by
  -- when only the calls for one proposal go through, the listing does what these do
  induction pre generalizing n with
  | nil =>
    show (reconcileAll cfg fates n (p :: post) w).2 = (reconcile cfg (fates n) p w).2
    have hrest : Leaves (fun w : World => w) (reconcileAll cfg fates (n + 1) post) :=
      reconcileAll_idle post fun i hi => h i (by show i ≠ n; omega)
    unfold reconcileAll
    exact bind_state (fun _ => (closed_leaves _).bind hrest fun _ => (closed_leaves _).pure _) w
  | cons q pre ih =>
    have hidle : fates n = .idle := h n (by rw [List.length_cons]; omega)
    have hlen : n + (q :: pre).length = n + 1 + pre.length := by rw [List.length_cons]; omega
    rw [List.cons_append, hlen]
    unfold reconcileAll
    rw [hidle, bind_ok (reconcile_idle cfg q w)]
    rw [bind_state fun _ => (closed_leaves _).pure _]
    exact ih fun i hi => h i (by rw [hlen]; exact hi)

theorem reconcileAndList_keeps_iff (cfg : Settings) (w : World) :
    (∀ own reads fates, (reconcileAndList cfg own reads fates w).2 = w) ↔
      ∀ key p, proposalOf w.proposals key = some p → ¬ Moved cfg w p := by
  constructor
  · intro h key p hp hmoved
    obtain ⟨fates, hfates⟩ := reconcile_changes hmoved
    obtain ⟨pre, post, hlist⟩ := List.append_of_mem (listed_of_stored hp)
    let each : Nat → DecisionFates := fun i => if i = pre.length then fates else .idle
    have heach : (reconcileAll cfg each 0 (pre ++ p :: post) w).2 = (reconcile cfg fates p w).2 := by
      rw [reconcileAll_single (fun i hi => if_neg (by rwa [Nat.zero_add] at hi)) w]
      rw [Nat.zero_add, if_pos rfl]
    refine hfates (heach.symm.trans ?_)
    rw [← hlist]
    exact h Fates.ok (fun _ => true) each
  · intro h own reads fates
    refine bind_keeps (leaves_openQueue (fun w => w) own w) fun _ _ => ?_
    show (reconcileAll cfg fates 0 (listProposals own reads w.proposals) w).2 = w
    refine reconcileAll_keeps (fun p hp => ?_) 0
    obtain ⟨key, hkey⟩ := stored_of_listed hp
    exact h key p hkey

end

end Vejas.Governance
