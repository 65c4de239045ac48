import Mathlib.Data.Prod.Lex
import Mathlib.Order.WellFounded
import Vejas.Governance.Submissions

/-! Hot reload: the version bucket is the authority, a watch on it is the notification. A key that
changes restarts the unit behind it, and the unit reads the bucket when it starts. Changes of the
bucket, of the watch and of the units interleave as they like. -/

namespace Vejas.Runtime.HotReload
open Json Rust Vjs Governance

/-- What an attempt of a flow's supervisor has come to. `read` is whether it got to see the bucket. -/
inductive Phase
  | down
  | reading (baseline : String)
  | evicting (baseline : String)
  | running (source : String) (read : Bool)
  | gone

structure Runner where
  name : String
  stop : Bool
  phase : Phase

/-- Where the watch thread is: between two keys, or inside `restart_unit`. -/
inductive Watcher
  | waiting
  | found (name : String)
  | scanned (name : String)
  | stopped (name : String)

/-- An instance. `seen` are the keys that the bucket has a message of, a delete included, in the order
of their last ones; `notes` what the watch has still to give, if it is open. -/
structure Node where
  versions : Kv
  seen : List String
  notes : Option (List String)
  watcher : Watcher
  runners : List Runner
  registry : String → Option Nat

inductive Turn
  | begin
  | get (ok : Bool)
  | evict (done : Bool)
  | fail
  | exit

inductive Event
  | put (key text : String)
  | delete (key : String)
  | watch
  | drop
  | take (target : Option String)
  | scan
  | halt
  | start
  -- the sections of any other `reload` or `restart_unit`
  | stopUnit (name : String)
  | startUnit (name : String)
  | runner (i : Nat) (t : Turn)

def Watcher.target : Watcher → Option String
  | .waiting => none
  | .found n | .scanned n | .stopped n => some n

namespace Node

def changed (s : Node) (key : String) (versions : Kv) : Node :=
  { s with versions, seen := s.seen.erase key ++ [key], notes := s.notes.map (· ++ [key]) }

def onRunner (s : Node) (i : Nat) (f : Runner → Runner) : Node := { s with runners := s.runners.modify i f }

def setPhase (s : Node) (i : Nat) (p : Phase) : Node := s.onRunner i fun r => { r with phase := p }

def stopNamed (s : Node) (name : String) : Node :=
  match s.registry name with
  | none => s
  | some i => s.onRunner i fun r => { r with stop := true }

def startNamed (s : Node) (name : String) : Node where
  versions := s.versions
  seen := s.seen
  notes := s.notes
  watcher := s.watcher
  runners := s.runners ++ [⟨name, false, .down⟩]
  registry n := if n = name then some s.runners.length else s.registry n

end Node

def resolved (ov : Option Value) (baseline : String) (read : Bool) : Phase :=
  match ov with
  | none => .running baseline read
  | some ov => if forkedFrom ov baseline then .running ((ov.text "source").getD baseline) read else .evicting baseline

variable (files : String → String) (names : List String)

def turn (s : Node) (i : Nat) (r : Runner) : Turn → Option Node
  | .begin =>
    match r.phase with
    | .down => if r.stop then none else some (s.setPhase i (.reading (files r.name)))
    | _ => none
  | .get ok =>
    match r.phase with
    | .reading baseline =>
      some (s.setPhase i (resolved (if ok then overlayOf s.versions r.name else none) baseline ok))
    | _ => none
  | .evict done =>
    match r.phase with
    | .evicting baseline =>
      let s' := if done then s.changed (keyOf r.name) (s.versions.delete (keyOf r.name)) else s
      some (s'.setPhase i (.running baseline true))
    | _ => none
  | .fail =>
    match r.phase with
    | .gone => none
    | _ => some (s.setPhase i .down)
  | .exit =>
    match r.phase with
    | .down => if r.stop then some (s.setPhase i .gone) else none
    | .running _ _ => if r.stop then some (s.setPhase i .gone) else none
    | _ => none

def Node.answers (s : Node) (key n : String) : Bool := (s.registry n).isSome && keyOf n == key

def step (s : Node) : Event → Option Node
  | .put key text => some (s.changed key (s.versions.put key text))
  | .delete key => some (s.changed key (s.versions.delete key))
  | .watch =>
    match s.watcher, s.notes with
    | .waiting, none => some { s with notes := some s.seen }
    | _, _ => none
  | .drop => some { s with notes := none }
  | .take target =>
    match s.watcher, s.notes with
    | .waiting, some (key :: keys) =>
      match target with
      | none => if names.any (s.answers key) then none else some { s with notes := some keys }
      | some n => if s.answers key n then some { s with notes := some keys, watcher := .found n } else none
    | _, _ => none
  | .scan =>
    match s.watcher with
    | .found n => some { s with watcher := if names.contains n then .scanned n else .waiting }
    | _ => none
  | .halt =>
    match s.watcher with
    | .scanned n => some { s.stopNamed n with watcher := .stopped n }
    | _ => none
  | .start =>
    match s.watcher with
    | .stopped n => some { s.startNamed n with watcher := .waiting }
    | _ => none
  | .stopUnit n => some (s.stopNamed n)
  | .startUnit n => if names.contains n then some (s.startNamed n) else none
  | .runner i t =>
    match s.runners[i]? with
    | none => none
    | some r => turn files s i r t

def fresh (s : Node) : Prop :=
  (∀ key, key ∉ s.seen → s.versions.get? key = none) ∧ s.notes = none ∧ s.watcher = .waiting ∧ s.runners = [] ∧
    ∀ n, s.registry n = none

def system : Transition Node Event := .ofStep (step files names) fresh

def inForce (versions : Kv) (n : String) : String := effectiveSource true versions n (files n)

def Current (versions : Kv) (n : String) : Phase → Prop
  | .running src true => src = inForce files versions n
  | .evicting _ => inForce files versions n = files n
  | _ => True

/-- The watch is to open again, or it has a note of the key, or the unit is being restarted. -/
def Due (s : Node) (n : String) : Prop :=
  (∀ keys, s.notes = some keys → keyOf n ∈ keys) ∨ s.watcher.target = some n

def Based (r : Runner) : Prop :=
  match r.phase with
  | .reading baseline => baseline = files r.name
  | .evicting baseline => baseline = files r.name
  | .gone => r.stop = true
  | _ => True

structure Sound (s : Node) : Prop where
  registered : ∀ n i, s.registry n = some i → n ∈ names ∧ ∃ r, s.runners[i]? = some r ∧ r.name = n
  target : ∀ n, s.watcher.target = some n → n ∈ names
  unseen : ∀ key, key ∉ s.seen → s.versions.get? key = none
  based : ∀ (i : Nat) r, s.runners[i]? = some r → Based files r
  current : ∀ n i r, s.registry n = some i → s.runners[i]? = some r →
    Current files s.versions n r.phase ∨ (keyOf n ∈ s.seen ∧ Due s n)

variable {files names} {s s' : Node}

theorem get?_delete_of_ne (kv : Kv) {key other : String} (h : other ≠ key) : (kv.delete key).get? other = kv.get? other := by
  have hfilter : ∀ p : String × String, decide ((p.1 != key) = true ∧ (p.1 == other) = true) = (p.1 == other) := by
    intro p
    by_cases hp : p.1 = other
    · simp [hp, h]
    · simp [hp]
  simp only [Kv.get?, Kv.delete, List.find?_filter, hfilter]

theorem inForce_congr {v v' : Kv} {n : String} (h : v.get? (keyOf n) = v'.get? (keyOf n)) :
    inForce files v n = inForce files v' n := by
  unfold inForce effectiveSource overlayOf
  rw [h]

theorem Current.congr {v v' : Kv} {n : String} {p : Phase} (h : v.get? (keyOf n) = v'.get? (keyOf n))
    (hc : Current files v n p) : Current files v' n p := by
  unfold Current at hc ⊢
  rw [← inForce_congr h]
  exact hc

theorem mem_seen {seen : List String} {key k : String} : k ∈ seen.erase key ++ [key] ↔ k ∈ seen ∨ k = key := by
  rw [List.mem_append, List.mem_singleton]
  by_cases hk : k = key
  · simp [hk]
  · rw [List.mem_erase_of_ne hk]

theorem Due.changed {n key : String} {versions : Kv} (h : Due s n ∨ keyOf n = key) : Due (s.changed key versions) n := by
  rcases h with (hdue | htarget) | hkey
  · left
    intro keys hkeys
    obtain ⟨ks, hks, rfl⟩ := Option.map_eq_some_iff.mp hkeys
    exact List.mem_append_left _ (hdue ks hks)
  · exact .inr htarget
  · left
    intro keys hkeys
    obtain ⟨ks, hks, rfl⟩ := Option.map_eq_some_iff.mp hkeys
    exact List.mem_append_right _ (List.mem_singleton.mpr hkey)

theorem Sound.changed (h : Sound files names s) {key : String} {versions : Kv}
    (hother : ∀ k, k ≠ key → versions.get? k = s.versions.get? k) : Sound files names (s.changed key versions) where
  registered := h.registered
  target := h.target
  unseen := by
    intro k hk
    have hno := fun hin => hk (mem_seen.mpr hin)
    exact (hother k fun heq => hno (.inr heq)).trans (h.unseen k fun hin => hno (.inl hin))
  based := h.based
  current := by
    intro n i r hn hr
    by_cases hkey : keyOf n = key
    · exact .inr ⟨mem_seen.mpr (.inr hkey), Due.changed (.inr hkey)⟩
    · rcases h.current n i r hn hr with hc | ⟨hseen, hdue⟩
      · exact .inl (hc.congr (hother _ hkey).symm)
      · exact .inr ⟨mem_seen.mpr (.inl hseen), Due.changed (.inl hdue)⟩

theorem getElem?_onRunner {i j : Nat} {f : Runner → Runner} {r' : Runner} (h : (s.onRunner i f).runners[j]? = some r') :
    ∃ r, s.runners[j]? = some r ∧ r' = if i = j then f r else r := by
  unfold Node.onRunner at h
  rw [List.getElem?_modify] at h
  obtain ⟨r, hr, rfl⟩ := Option.map_eq_some_iff.mp h
  exact ⟨r, hr, rfl⟩

theorem Sound.onRunner (h : Sound files names s) {i : Nat} {f : Runner → Runner} (hname : ∀ r, (f r).name = r.name)
    (hbased : ∀ r, s.runners[i]? = some r → Based files (f r))
    (hcurrent : ∀ n r, s.registry n = some i → s.runners[i]? = some r → Current files s.versions n r.phase →
      Current files s.versions n (f r).phase) : Sound files names (s.onRunner i f) where
  registered := by
    intro n j hn
    obtain ⟨hmem, r, hr, hname'⟩ := h.registered n j hn
    refine ⟨hmem, if i = j then f r else r, ?_, ?_⟩
    · unfold Node.onRunner
      rw [List.getElem?_modify, hr]
      rfl
    · split
      · exact (hname r).trans hname'
      · exact hname'
  target := h.target
  unseen := h.unseen
  based := by
    intro j r' hr'
    obtain ⟨r, hr, rfl⟩ := getElem?_onRunner hr'
    split
    next heq => exact hbased r (heq ▸ hr)
    next => exact h.based j r hr
  current := by
    intro n j r' hn hr'
    obtain ⟨r, hr, rfl⟩ := getElem?_onRunner hr'
    rcases h.current n j r hn hr with hc | hdue
    · left
      split
      next heq =>
        subst heq
        exact hcurrent n r hn hr hc
      next => exact hc
    · exact .inr hdue

theorem Based.stopped {r : Runner} (h : Based files r) : Based files { r with stop := true } := by
  obtain ⟨n, stop, phase⟩ := r
  cases phase with
  | gone => rfl
  | _ => exact h

theorem Sound.stopNamed (h : Sound files names s) (n : String) : Sound files names (s.stopNamed n) := by
  unfold Node.stopNamed
  split
  · exact h
  next i _ => exact h.onRunner (fun _ => rfl) (fun r hr => (h.based i r hr).stopped) fun _ _ _ _ hc => hc

theorem Sound.startNamed (h : Sound files names s) {n : String} (hn : n ∈ names) : Sound files names (s.startNamed n) where
  registered := by
    intro m i hm
    unfold Node.startNamed at hm ⊢
    dsimp only at hm ⊢
    split at hm
    next heq =>
      cases hm
      exact ⟨heq ▸ hn, ⟨n, false, .down⟩, List.getElem?_concat_length, heq.symm⟩
    next =>
      obtain ⟨hmem, r, hr, hname⟩ := h.registered m i hm
      exact ⟨hmem, r, by rw [List.getElem?_append_left (List.getElem?_eq_some_iff.mp hr).1, hr], hname⟩
  target := h.target
  unseen := h.unseen
  based := by
    intro i r hr
    rcases Nat.lt_or_ge i s.runners.length with hlt | hge
    · exact h.based i r (by rwa [Node.startNamed, List.getElem?_append_left hlt] at hr)
    · rw [Node.startNamed, List.getElem?_append_right hge] at hr
      obtain ⟨hi, hr⟩ := List.getElem?_eq_some_iff.mp hr
      rw [List.getElem_singleton] at hr
      rw [← hr]
      trivial
  current := by
    intro m i r hm hr
    unfold Node.startNamed at hm hr
    dsimp only at hm hr
    split at hm
    next =>
      cases hm
      rw [List.getElem?_concat_length] at hr
      cases hr
      exact .inl trivial
    next =>
      obtain ⟨-, r', hr', -⟩ := h.registered m i hm
      rw [List.getElem?_append_left (List.getElem?_eq_some_iff.mp hr').1] at hr
      exact h.current m i r hm hr

theorem current_resolved (v : Kv) (n : String) : Current files v n (resolved (overlayOf v n) (files n) true) := by
  unfold resolved
  cases hov : overlayOf v n with
  | none =>
    show files n = inForce files v n
    unfold inForce effectiveSource
    simp [hov]
  | some ov =>
    dsimp only
    split
    next hfork =>
      show (ov.text "source").getD (files n) = inForce files v n
      unfold inForce effectiveSource
      simp [hov, hfork]
    next hstale =>
      show inForce files v n = files n
      unfold inForce effectiveSource
      simp [hov, hstale]

theorem based_resolved (ov : Option Value) (n : String) (stop read : Bool) :
    Based files ⟨n, stop, resolved ov (files n) read⟩ := by
  unfold resolved
  cases ov with
  | none => trivial
  | some ov =>
    dsimp only
    split
    · trivial
    · rfl

theorem Sound.setPhase (h : Sound files names s) {i : Nat} {r : Runner} {p : Phase} (hr : s.runners[i]? = some r)
    (hbased : Based files { r with phase := p })
    (hcurrent : Current files s.versions r.name r.phase → Current files s.versions r.name p) :
    Sound files names (s.setPhase i p) := by
  refine h.onRunner (fun _ => rfl) (fun r' hr' => ?_) fun n r' hn hr' hc => ?_
  · rw [hr] at hr'
    cases hr'
    exact hbased
  · obtain ⟨-, k, hk, hname⟩ := h.registered n i hn
    rw [hr] at hr' hk
    cases hr'
    cases hk
    rw [← hname] at hc ⊢
    exact hcurrent hc

theorem Sound.turn (h : Sound files names s) {i : Nat} {r : Runner} {t : Turn} (hr : s.runners[i]? = some r)
    (ht : turn files s i r t = some s') : Sound files names s' := by
  have hb := h.based i r hr
  unfold Based at hb
  cases t with
  | begin =>
    unfold HotReload.turn at ht
    dsimp only at ht
    split at ht
    next =>
      split at ht
      · cases ht
      · cases ht
        exact h.setPhase hr rfl fun _ => trivial
    next => cases ht
  | get ok =>
    unfold HotReload.turn at ht
    dsimp only at ht
    split at ht
    next baseline hphase =>
      cases ht
      rw [hphase] at hb
      have hb : baseline = files r.name := hb
      subst hb
      refine h.setPhase hr (based_resolved _ _ _ _) fun _ => ?_
      cases ok with
      | true => exact current_resolved s.versions r.name
      | false => trivial
    next => cases ht
  | evict done =>
    unfold HotReload.turn at ht
    dsimp only at ht
    split at ht
    next baseline hphase =>
      cases ht
      rw [hphase] at hb
      have hb : baseline = files r.name := hb
      have hcur : ∀ v, Current files v r.name r.phase → Current files v r.name (.running baseline true) := by
        intro v hc
        rw [hphase] at hc
        exact hb.trans (Eq.symm hc)
      cases done with
      | true =>
        have hch := h.changed fun k (hk : k ≠ keyOf r.name) => get?_delete_of_ne s.versions hk
        exact hch.setPhase hr trivial (hcur _)
      | false => exact h.setPhase hr trivial (hcur _)
    next => cases ht
  | fail =>
    unfold HotReload.turn at ht
    dsimp only at ht
    split at ht
    · cases ht
    · cases ht
      exact h.setPhase hr trivial fun _ => trivial
  | exit =>
    unfold HotReload.turn at ht
    dsimp only at ht
    split at ht
    next =>
      split at ht
      next hstop =>
        cases ht
        exact h.setPhase hr hstop fun _ => trivial
      · cases ht
    next =>
      split at ht
      next hstop =>
        cases ht
        exact h.setPhase hr hstop fun _ => trivial
      · cases ht
    next => cases ht

def KeysApart (names : List String) : Prop := ∀ n ∈ names, ∀ m ∈ names, keyOf n = keyOf m → n = m

theorem Sound.watched (h : Sound files names s) {notes : Option (List String)} {watcher : Watcher}
    (htarget : ∀ n, watcher.target = some n → n ∈ names)
    (hdue : ∀ n i, s.registry n = some i → keyOf n ∈ s.seen → Due s n → Due { s with notes, watcher } n) :
    Sound files names { s with notes, watcher } where
  registered := h.registered
  target := htarget
  unseen := h.unseen
  based := h.based
  current := by
    intro n i r hn hr
    rcases h.current n i r hn hr with hc | ⟨hseen, hd⟩
    · exact .inl hc
    · exact .inr ⟨hseen, hdue n i hn hseen hd⟩

theorem Sound.take (h : Sound files names s) (hkeys : KeysApart names) {target : Option String}
    (ht : step files names s (.take target) = some s') : Sound files names s' := by
  unfold step at ht
  dsimp only at ht
  split at ht
  next key keys hwait hnotes =>
    have hrest : ∀ n watcher, keyOf n ≠ key → Due s n → Due { s with notes := some keys, watcher } n := by
      intro n watcher hne hd
      left
      intro ks hks
      cases hks
      rcases hd with hd | hd
      · exact (List.mem_cons.mp (hd _ hnotes)).resolve_left hne
      · rw [hwait] at hd
        cases hd
    cases target with
    | none =>
      dsimp only at ht
      split at ht
      · cases ht
      next hnone =>
        cases ht
        refine h.watched h.target fun n i hn _ hd => hrest n _ (fun hkey => hnone ?_) hd
        refine List.any_eq_true.mpr ⟨n, (h.registered n i hn).1, ?_⟩
        simp [Node.answers, hn, hkey]
    | some m =>
      dsimp only at ht
      split at ht
      next hans =>
        cases ht
        simp only [Node.answers, Bool.and_eq_true, Option.isSome_iff_exists, beq_iff_eq] at hans
        obtain ⟨⟨j, hj⟩, hkey⟩ := hans
        have hm := (h.registered m j hj).1
        refine h.watched (fun n hn => Option.some.inj hn ▸ hm) fun n i hn _ hd => ?_
        by_cases hsame : keyOf n = key
        · rw [hkeys n (h.registered n i hn).1 m hm (hsame.trans hkey.symm)]
          exact .inr rfl
        · exact hrest n _ hsame hd
      · cases ht
  · cases ht

theorem Sound.step (h : Sound files names s) (hkeys : KeysApart names) {e : Event} (he : step files names s e = some s') :
    Sound files names s' := by
  cases e with
  | put key text =>
    cases he
    exact h.changed fun k hk => get?_put_of_ne s.versions text hk
  | delete key =>
    cases he
    exact h.changed fun k hk => get?_delete_of_ne s.versions hk
  | watch =>
    unfold HotReload.step at he
    dsimp only at he
    split at he
    next =>
      cases he
      refine h.watched h.target fun n _ _ hseen _ => .inl fun keys hk => ?_
      cases hk
      exact hseen
    next => cases he
  | drop =>
    cases he
    exact h.watched h.target fun _ _ _ _ _ => .inl fun _ hk => by cases hk
  | take target => exact h.take hkeys he
  | scan =>
    unfold HotReload.step at he
    dsimp only at he
    split at he
    next m hw =>
      cases he
      have hm : m ∈ names := h.target m (by rw [hw]; rfl)
      rw [List.contains_iff_mem.mpr hm, if_pos rfl]
      refine h.watched (fun n hn => Option.some.inj hn ▸ hm) fun n _ _ _ hd => ?_
      unfold Due at hd ⊢
      rw [hw] at hd
      exact hd
    next => cases he
  | halt =>
    unfold HotReload.step at he
    dsimp only at he
    split at he
    next m hw =>
      cases he
      have hm : m ∈ names := h.target m (by rw [hw]; rfl)
      have hkept : (s.stopNamed m).watcher = s.watcher := by
        unfold Node.stopNamed
        split <;> rfl
      refine (h.stopNamed m).watched (fun n hn => Option.some.inj hn ▸ hm) fun n _ _ _ hd => ?_
      unfold Due at hd ⊢
      rw [hkept, hw] at hd
      exact hd
    next => cases he
  | start =>
    unfold HotReload.step at he
    dsimp only at he
    split at he
    next m hw =>
      cases he
      have hm : m ∈ names := h.target m (by rw [hw]; rfl)
      have hs := h.startNamed hm
      refine ⟨hs.registered, fun _ hn => (by cases hn), hs.unseen, hs.based, fun n i r hn hr => ?_⟩
      by_cases hnm : n = m
      · left
        subst hnm
        unfold Node.startNamed at hn hr
        dsimp only at hn hr
        rw [if_pos rfl] at hn
        cases hn
        rw [List.getElem?_concat_length] at hr
        cases hr
        trivial
      · refine (hs.current n i r hn hr).imp id fun ⟨hseen, hd⟩ => ⟨hseen, .inl ?_⟩
        refine hd.resolve_right fun ht => hnm ?_
        have ht : s.watcher.target = some n := ht
        rw [hw] at ht
        exact (Option.some.inj ht).symm
    next => cases he
  | stopUnit n =>
    cases he
    exact h.stopNamed n
  | startUnit n =>
    unfold HotReload.step at he
    dsimp only at he
    split at he
    next hn =>
      cases he
      exact h.startNamed (List.contains_iff_mem.mp hn)
    next => cases he
  | runner i t =>
    unfold HotReload.step at he
    dsimp only at he
    split at he
    · cases he
    next r hr => exact h.turn hr he

theorem sound_fresh (h : fresh s) : Sound files names s := by
  obtain ⟨hunseen, -, hwait, hnone, hreg⟩ := h
  refine ⟨fun n i hn => ?_, fun n hn => ?_, hunseen, fun i r hr => ?_, fun n i r hn => ?_⟩
  · rw [hreg n] at hn
    cases hn
  · rw [hwait] at hn
    cases hn
  · rw [hnone] at hr
    cases hr
  · rw [hreg n] at hn
    cases hn

theorem sound_reachable (hkeys : KeysApart names) (h : (system files names).Reachable s) : Sound files names s :=
  Transition.Reachable.invariant (fun _ => sound_fresh) (fun _ _ _ hs he => hs.step hkeys he) h

theorem Sound.in_force (h : Sound files names s) (hnotes : s.notes = some []) (hwait : s.watcher = .waiting)
    {n src : String} {i : Nat} {r : Runner} (hn : s.registry n = some i) (hr : s.runners[i]? = some r)
    (hrun : r.phase = .running src true) : src = inForce files s.versions n := by
  rcases h.current n i r hn hr with hc | ⟨-, hd | hd⟩
  · rw [hrun] at hc
    exact hc
  · cases hd [] hnotes
  · rw [hwait] at hd
    cases hd

/-- Once the watch has nothing left to give and no restart is on its way, every registered unit that
saw the bucket when it started runs the source in force, whatever happened before. -/
theorem settled_in_force (hkeys : KeysApart names) (h : (system files names).Reachable s) (hnotes : s.notes = some [])
    (hwait : s.watcher = .waiting) {n src : String} {i : Nat} {r : Runner} (hn : s.registry n = some i)
    (hr : s.runners[i]? = some r) (hrun : r.phase = .running src true) :
    src = effectiveSource true s.versions n (files n) :=
  (sound_reachable hkeys h).in_force hnotes hwait hn hr hrun

def orders : String → String := fun _ => "source \"vx.orders\"\n"

def calm : Node := ⟨[], [], none, .waiting, [], fun _ => none⟩

def promoted (text : String) : List Event :=
  [.watch, .startUnit "flow:orders", .runner 0 .begin, .runner 0 (.get true), .put "flow_orders" text,
    .take (some "flow:orders"), .scan, .halt, .start, .runner 1 .begin, .runner 1 (.get true)]

def newSource : String := "source \"vx.new\"\n"

def newVersion : String :=
  @Value.render ascii (versionRecord "flow:orders" newSource (hashContent (orders "flow:orders")) "ops" 1700000000)

def reloaded (text : String) : Runner :=
  ⟨"flow:orders", false, resolved (overlayOf (Kv.put [] "flow_orders" text) "flow:orders") (orders "flow:orders") true⟩

def restarted (text : String) : Node where
  versions := Kv.put [] "flow_orders" text
  seen := ["flow_orders"]
  notes := some []
  watcher := .waiting
  runners := [⟨"flow:orders", true, .running (orders "flow:orders") true⟩, reloaded text]
  registry := ((calm.startNamed "flow:orders").startNamed "flow:orders").registry

theorem run_promoted (text : String) : Transition.run (step orders ["flow:orders"]) calm (promoted text) = some (restarted text) := rfl

theorem reloaded_phase : (reloaded newVersion).phase = .running newSource true := by
  have hread : fromStr newVersion =
      some (versionRecord "flow:orders" newSource (hashContent (orders "flow:orders")) "ops" 1700000000) :=
    @versionRecord_reads ascii _ _ _ _ _
  unfold reloaded resolved overlayOf
  rw [show keyOf "flow:orders" = "flow_orders" by decide, get?_put, Option.bind_some, hread]
  dsimp only
  rw [if_pos (versionRecord_forked _ _ _ _ _), (versionRecord_text _ _ _ _ _).1, Option.getD_some]

theorem settled_in_force_promoted :
    Transition.run (step orders ["flow:orders"]) calm (promoted newVersion) = some (restarted newVersion) ∧
    newSource = effectiveSource true (restarted newVersion).versions "flow:orders" (orders "flow:orders") := by
  refine ⟨run_promoted newVersion, ?_⟩
  have hreach : (system orders ["flow:orders"]).Reachable (restarted newVersion) :=
    Transition.Reachable.run (promoted newVersion) (s := calm) (.init ⟨fun _ _ => rfl, rfl, rfl, rfl, fun _ => rfl⟩)
      (run_promoted newVersion)
  exact settled_in_force (by unfold KeysApart; decide) hreach rfl rfl (i := 1) rfl rfl reloaded_phase

def Inner : Event → Prop
  | .take _ | .scan | .halt | .start => True
  | .runner _ .fail => False
  | .runner _ _ => True
  | _ => False

def Follows (files : String → String) (names : List String) (s' s : Node) : Prop :=
  ∃ e, Inner e ∧ step files names s e = some s'

def total (w : Runner → Nat) (rs : List Runner) : Nat := rs.foldr (fun r n => w r + n) 0

def Phase.left : Phase → Nat
  | .down => 4
  | .reading _ => 3
  | .evicting _ => 2
  | .running _ _ => 1
  | .gone => 0

def Watcher.left : Watcher → Nat
  | .waiting => 0
  | .found _ => 7
  | .scanned _ => 6
  | .stopped _ => 5

def vain (versions : Kv) (r : Runner) : Nat :=
  match r.phase with
  | .evicting _ => if versions.get? (keyOf r.name) = none then 1 else 0
  | _ => 0

def work (s : Node) : Nat := 8 * (s.notes.getD []).length + s.watcher.left + total (fun r => r.phase.left) s.runners

/-- A delete removes a version or was in vain; between deletes there is less and less to do. -/
def measure (s : Node) : ℕ ×ₗ ℕ ×ₗ ℕ := toLex (s.versions.length, toLex (total (vain s.versions) s.runners, work s))

theorem total_modify (w : Runner → Nat) (f : Runner → Runner) {rs : List Runner} {i : Nat} {r : Runner}
    (h : rs[i]? = some r) : total w (rs.modify i f) + w r = total w rs + w (f r) := by
  induction rs generalizing i with
  | nil => cases h
  | cons a rs ih =>
    cases i with
    | zero =>
      cases h
      show w (f r) + total w rs + w r = w r + total w rs + w (f r)
      omega
    | succ i =>
      have hrec := ih (i := i) h
      show w a + total w (rs.modify i f) + w r = w a + total w rs + w (f r)
      omega

theorem total_append (w : Runner → Nat) (rs : List Runner) (r : Runner) : total w (rs ++ [r]) = total w rs + w r := by
  induction rs with
  | nil => exact Nat.add_comm _ _
  | cons a rs ih =>
    show w a + total w (rs ++ [r]) = w a + total w rs + w r
    rw [ih, Nat.add_assoc]

theorem total_stopNamed (w : Runner → Nat) (hw : ∀ r, w { r with stop := true } = w r) (s : Node) (n : String) :
    total w (s.stopNamed n).runners = total w s.runners := by
  unfold Node.stopNamed
  split
  · rfl
  next i _ =>
    unfold Node.onRunner
    dsimp only
    cases hr : s.runners[i]? with
    | none => rw [List.modify_eq_self (List.getElem?_eq_none_iff.mp hr)]
    | some r =>
      have hsum := total_modify w (fun r => { r with stop := true }) hr
      rw [hw] at hsum
      exact Nat.add_right_cancel hsum

theorem length_delete_lt {kv : Kv} {key text : String} (h : kv.get? key = some text) : (kv.delete key).length < kv.length := by
  obtain ⟨p, hp, -⟩ := Option.map_eq_some_iff.mp h
  refine List.length_filter_lt_length_iff_exists.mpr ⟨p, List.mem_of_find?_eq_some hp, ?_⟩
  have hkey := List.find?_some hp
  simpa using hkey

theorem delete_of_none {kv : Kv} {key : String} (h : kv.get? key = none) : kv.delete key = kv := by
  refine List.filter_eq_self.mpr fun p hp => ?_
  have hnone := List.find?_eq_none.mp (Option.map_eq_none_iff.mp h) p hp
  simpa using hnone

theorem measure_lt_of_work (hv : s'.versions = s.versions)
    (hvain : total (vain s.versions) s'.runners ≤ total (vain s.versions) s.runners) (hwork : work s' < work s) :
    measure s' < measure s := by
  unfold measure
  rw [hv]
  refine Prod.Lex.toLex_lt_toLex.mpr (.inr ⟨rfl, Prod.Lex.toLex_lt_toLex.mpr ?_⟩)
  exact (Nat.lt_or_eq_of_le hvain).imp id fun heq => ⟨heq, hwork⟩

theorem setPhase_descends {i : Nat} {r : Runner} {p : Phase} (hr : s.runners[i]? = some r)
    (hvain : vain s.versions { r with phase := p } = 0) (hleft : p.left < r.phase.left) :
    measure (s.setPhase i p) < measure s := by
  have hv := total_modify (vain s.versions) (fun r => { r with phase := p }) hr
  have hl := total_modify (fun r => r.phase.left) (fun r => { r with phase := p }) hr
  rw [hvain] at hv
  refine measure_lt_of_work rfl (Nat.le.intro hv) ?_
  unfold work Node.setPhase Node.onRunner
  dsimp only at hl ⊢
  omega

theorem evict_descends {i : Nat} {r : Runner} {baseline : String} (hr : s.runners[i]? = some r)
    (hphase : r.phase = .evicting baseline) :
    measure ((s.changed (keyOf r.name) (s.versions.delete (keyOf r.name))).setPhase i (.running baseline true)) < measure s := by
  unfold measure
  rw [Prod.Lex.toLex_lt_toLex]
  cases hget : s.versions.get? (keyOf r.name) with
  | some text => exact .inl (length_delete_lt hget)
  | none =>
    right
    have hsame := delete_of_none hget
    refine ⟨congrArg List.length hsame, Prod.Lex.toLex_lt_toLex.mpr (.inl ?_)⟩
    have hv := total_modify (vain s.versions) (fun r => { r with phase := .running baseline true }) hr
    have hone : vain s.versions r = 1 := by
      unfold vain
      rw [hphase]
      exact if_pos hget
    have hzero : vain s.versions { r with phase := .running baseline true } = 0 := rfl
    show total (vain (s.versions.delete (keyOf r.name))) (s.runners.modify i _) < total (vain s.versions) s.runners
    rw [hsame]
    omega

theorem evicting_of_resolved {v : Kv} {n baseline b : String} {ok : Bool}
    (h : resolved (if ok then overlayOf v n else none) baseline ok = .evicting b) : v.get? (keyOf n) ≠ none := by
  intro hnone
  have hov : (if ok then overlayOf v n else none) = none := by
    unfold overlayOf
    rw [hnone]
    cases ok <;> rfl
  rw [hov] at h
  cases h

theorem resolved_left (ov : Option Value) (baseline : String) (read : Bool) : (resolved ov baseline read).left < 3 := by
  unfold resolved
  cases ov with
  | none => exact Nat.lt_of_sub_eq_succ rfl
  | some ov =>
    dsimp only
    split
    · exact Nat.lt_of_sub_eq_succ rfl
    · exact Nat.lt_of_sub_eq_succ rfl

theorem turn_descends {i : Nat} {r : Runner} {t : Turn} (hr : s.runners[i]? = some r) (hfail : t ≠ .fail)
    (ht : turn files s i r t = some s') : measure s' < measure s := by
  cases t with
  | begin =>
    unfold turn at ht
    dsimp only at ht
    split at ht
    next hphase =>
      split at ht
      · cases ht
      · cases ht
        refine setPhase_descends hr rfl ?_
        rw [hphase]
        exact Nat.lt_succ_self 3
    next => cases ht
  | get ok =>
    unfold turn at ht
    dsimp only at ht
    split at ht
    next baseline hphase =>
      cases ht
      refine setPhase_descends hr ?_ ?_
      · unfold vain
        split
        next b hb => exact if_neg (evicting_of_resolved hb)
        next => rfl
      · rw [hphase]
        exact resolved_left _ _ _
    next => cases ht
  | evict done =>
    unfold turn at ht
    dsimp only at ht
    split at ht
    next baseline hphase =>
      cases ht
      cases done with
      | true => exact evict_descends hr hphase
      | false =>
        refine setPhase_descends hr rfl ?_
        rw [hphase]
        exact Nat.lt_succ_self 1
    next => cases ht
  | fail => exact absurd rfl hfail
  | exit =>
    unfold turn at ht
    dsimp only at ht
    split at ht
    next hphase =>
      split at ht
      · cases ht
        refine setPhase_descends hr rfl ?_
        rw [hphase]
        exact Nat.succ_pos 3
      · cases ht
    next hphase =>
      split at ht
      · cases ht
        refine setPhase_descends hr rfl ?_
        rw [hphase]
        exact Nat.succ_pos 0
      · cases ht
    next => cases ht

theorem inner_descends {e : Event} (hin : Inner e) (he : step files names s e = some s') : measure s' < measure s := by
  cases e with
  | take target =>
    unfold step at he
    dsimp only at he
    split at he
    next key keys hwait hnotes =>
      have hold : work s = 8 * (keys.length + 1) + 0 + total (fun r => r.phase.left) s.runners := by
        unfold work
        rw [hwait, hnotes]
        rfl
      cases target with
      | none =>
        dsimp only at he
        split at he
        · cases he
        · cases he
          refine measure_lt_of_work rfl (Nat.le_refl _) ?_
          rw [hold]
          unfold work
          rw [hwait]
          show 8 * keys.length + 0 + total (fun r => r.phase.left) s.runners < _
          omega
      | some n =>
        dsimp only at he
        split at he
        · cases he
          refine measure_lt_of_work rfl (Nat.le_refl _) ?_
          rw [hold]
          show 8 * keys.length + 7 + total (fun r => r.phase.left) s.runners < _
          omega
        · cases he
    next => cases he
  | scan =>
    unfold step at he
    dsimp only at he
    split at he
    next n hw =>
      cases he
      refine measure_lt_of_work rfl (Nat.le_refl _) ?_
      have hless : (if names.contains n then Watcher.scanned n else .waiting).left < 7 := by
        split
        · exact Nat.lt_succ_self 6
        · exact Nat.succ_pos 6
      unfold work
      rw [hw]
      dsimp only
      show _ < 8 * _ + 7 + _
      omega
    next => cases he
  | halt =>
    unfold step at he
    dsimp only at he
    split at he
    next n hw =>
      cases he
      have hv := total_stopNamed (vain s.versions) (fun _ => rfl) s n
      have hl := total_stopNamed (fun r => r.phase.left) (fun _ => rfl) s n
      have hsame : (s.stopNamed n).versions = s.versions ∧ (s.stopNamed n).notes = s.notes := by
        unfold Node.stopNamed
        split <;> exact ⟨rfl, rfl⟩
      refine measure_lt_of_work hsame.1 (Nat.le_of_eq hv) ?_
      unfold work
      rw [hw]
      dsimp only
      rw [hl, hsame.2]
      show 8 * _ + 5 + _ < 8 * _ + 6 + _
      omega
    next => cases he
  | start =>
    unfold step at he
    dsimp only at he
    split at he
    next n hw =>
      cases he
      refine measure_lt_of_work rfl (Nat.le_of_eq ?_) ?_
      · exact total_append _ _ _
      · have hl := total_append (fun r => r.phase.left) s.runners ⟨n, false, .down⟩
        unfold work
        rw [hw]
        show 8 * _ + 0 + total _ (s.runners ++ [_]) < 8 * _ + 5 + _
        rw [hl]
        show 8 * (s.notes.getD []).length + 0 + (_ + 4) < 8 * (s.notes.getD []).length + 5 + _
        omega
    next => cases he
  | runner i t =>
    unfold step at he
    dsimp only at he
    split at he
    · cases he
    next r hr =>
      refine turn_descends hr ?_ he
      rintro rfl
      exact hin
  | _ => exact absurd hin id

theorem follows_wf (files : String → String) (names : List String) : WellFounded (Follows files names) :=
  Subrelation.wf (fun ⟨_, hin, he⟩ => inner_descends hin he) (InvImage.wf measure wellFounded_lt)

def Settled (files : String → String) (names : List String) (s : Node) : Prop := ∀ s', ¬ Follows files names s' s

theorem Settled.turn {i : Nat} {r : Runner} {t : Turn} (h : Settled files names s) (hr : s.runners[i]? = some r)
    (hfail : Inner (.runner i t)) : turn files s i r t = none := by
  refine Option.eq_none_iff_forall_ne_some.mpr fun s' ht => h s' ⟨.runner i t, hfail, ?_⟩
  unfold HotReload.step
  dsimp only
  rw [hr]
  exact ht

theorem Settled.running {i : Nat} {r : Runner} (h : Settled files names s) (hs : Sound files names s)
    (hr : s.runners[i]? = some r) (hlive : r.stop = false) : ∃ src read, r.phase = .running src read := by
  cases hphase : r.phase with
  | running src read => exact ⟨src, read, rfl⟩
  | down =>
    have hnone := h.turn (t := .begin) hr trivial
    simp [HotReload.turn, hphase, hlive] at hnone
  | reading baseline =>
    have hnone := h.turn (t := .get true) hr trivial
    simp [HotReload.turn, hphase] at hnone
  | evicting baseline =>
    have hnone := h.turn (t := .evict true) hr trivial
    simp [HotReload.turn, hphase] at hnone
  | gone =>
    have hb := hs.based i r hr
    unfold Based at hb
    rw [hphase] at hb
    exact absurd (hlive.symm.trans hb) Bool.false_ne_true

theorem Settled.watch (h : Settled files names s) {keys : List String} (hopen : s.notes = some keys) :
    keys = [] ∧ s.watcher = .waiting := by
  cases hw : s.watcher with
  | found n =>
    refine absurd ⟨.scan, trivial, ?_⟩ (h { s with watcher := if names.contains n then .scanned n else .waiting })
    simp [HotReload.step, hw]
  | scanned n =>
    refine absurd ⟨.halt, trivial, ?_⟩ (h { s.stopNamed n with watcher := .stopped n })
    simp [HotReload.step, hw]
  | stopped n =>
    refine absurd ⟨.start, trivial, ?_⟩ (h { s.startNamed n with watcher := .waiting })
    simp [HotReload.step, hw]
  | waiting =>
    refine ⟨?_, rfl⟩
    cases keys with
    | nil => rfl
    | cons key keys =>
      by_cases hany : names.any (s.answers key) = true
      · obtain ⟨n, -, hn⟩ := List.any_eq_true.mp hany
        refine absurd ⟨.take (some n), trivial, ?_⟩ (h { s with notes := some keys, watcher := .found n })
        simp [HotReload.step, hw, hopen, hn]
      · refine absurd ⟨.take none, trivial, ?_⟩ (h { s with notes := some keys })
        simp only [HotReload.step, hw, hopen]
        exact if_neg hany

/-- Every registered unit that is not to stop runs, on the source in force if it saw the bucket when
it started. -/
def RunsInForce (files : String → String) (s : Node) : Prop :=
  ∀ n i r, s.registry n = some i → s.runners[i]? = some r → r.stop = false →
    ∃ src read, r.phase = .running src read ∧ (read = true → src = effectiveSource true s.versions n (files n))

/-- With the watch open, the watch thread and the supervisors do not go on for ever; and where they
have nothing left to do, every unit runs what is in force. -/
theorem settles (hkeys : KeysApart names) : WellFounded (Follows files names) ∧
    ∀ s, (system files names).Reachable s → s.notes ≠ none → Settled files names s → RunsInForce files s := by
  refine ⟨follows_wf files names, fun s h hopen hset n i r hn hr hlive => ?_⟩
  have hs := sound_reachable hkeys h
  obtain ⟨keys, hnotes⟩ := Option.ne_none_iff_exists'.mp hopen
  obtain ⟨rfl, hwait⟩ := hset.watch hnotes
  obtain ⟨src, read, hrun⟩ := hset.running hs hr hlive
  refine ⟨src, read, hrun, fun hread => ?_⟩
  subst hread
  exact hs.in_force hnotes hwait hn hr hrun

theorem settles_two : WellFounded (Follows orders ["flow:orders", "flow:a:orders"]) ∧
    ∀ s, (system orders ["flow:orders", "flow:a:orders"]).Reachable s → s.notes ≠ none →
      Settled orders ["flow:orders", "flow:a:orders"] s → RunsInForce orders s :=
  settles (by unfold KeysApart; decide)

end Vejas.Runtime.HotReload
