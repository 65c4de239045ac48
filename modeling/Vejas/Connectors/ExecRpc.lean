import Vejas.Bus.Link
import Vejas.Connectors.Wire
import Vejas.Lib.Transition

/-! The driver `exec-rpc`: every request is written to a child as a line, and the next line the
child prints is the answer. Driver and child are two loops over two pipes that agree by counting
lines alone. -/

namespace Vejas.ExecRpc
open Rust Bus Vjs Connectors

structure Child (σ : Type) where
  start : σ
  ready : String
  answer : σ → Bytes → σ × String

def newline : UInt8 := byte '\n'

/-- `BufRead::lines` takes a carriage return before the line break off too. -/
def chomp (line : Bytes) : Bytes := if line.getLast? = some (byte '\r') then line.dropLast else line

def blank (line : Bytes) : Bool := trim (textOf (chomp line)) == ""

namespace Child
variable {σ : Type} (c : Child σ)

def replies (s : σ) : List Payload → List String
  | [] => []
  | q :: qs => (c.answer s (chomp q)).2 :: replies (c.answer s (chomp q)).1 qs

def after (s : σ) : List Payload → σ
  | [] => s
  | q :: qs => after (c.answer s (chomp q)).1 qs

theorem replies_concat (s : σ) (qs : List Payload) (q : Payload) :
    c.replies s (qs ++ [q]) = c.replies s qs ++ [(c.answer (c.after s qs) (chomp q)).2] := by
  induction qs generalizing s with
  | nil => rfl
  | cons p qs ih => rw [List.cons_append, replies, replies, after, ih, List.cons_append]

theorem after_concat (s : σ) (qs : List Payload) (q : Payload) :
    c.after s (qs ++ [q]) = (c.answer (c.after s qs) (chomp q)).1 := by
  induction qs generalizing s with
  | nil => rfl
  | cons p qs ih => rw [List.cons_append, after, after, ih]

theorem length_replies (s : σ) (qs : List Payload) : (c.replies s qs).length = qs.length := by
  induction qs generalizing s with
  | nil => rfl
  | cons q qs ih => rw [replies, List.length_cons, List.length_cons, ih]

end Child

inductive Pc
  | starting
  | idle
  | waiting
  | stopped
  deriving DecidableEq

/-- The driver, the child and the pipes between them. `inbox` are the requests to come, `asked`
those written to the child, `written` all bytes written to it, and `answers` what was answered;
`ended` tells whether the child left its loop. -/
structure Rpc (σ : Type) where
  pc : Pc
  inbox : List Payload
  stdin : Bytes
  stdout : List String
  child : σ
  ended : Bool
  asked : List Payload
  written : Bytes
  answers : List String

inductive Event
  | ready
  | request
  | child
  | reply
  /-- the driver finds the pipes of an ended child closed -/
  | closed
  | stop
  deriving DecidableEq

namespace Rpc
variable {σ : Type}

def start (c : Child σ) (inbox : List Payload) : Rpc σ :=
  ⟨.starting, inbox, [], [c.ready], c.start, false, [], [], []⟩

def childReads (c : Child σ) (s : Rpc σ) : Option (Rpc σ) :=
  match s.ended, s.stdin.dropWhile (· != newline) with
  | false, _ :: rest =>
    let line := s.stdin.takeWhile (· != newline)
    if !isUtf8 line then some { s with stdin := rest, ended := true }
    else if blank line then some { s with stdin := rest }
    else
      let (child, out) := c.answer s.child (chomp line)
      some { s with stdin := rest, child, stdout := s.stdout ++ [out] }
  | _, _ => none

def step (c : Child σ) (s : Rpc σ) : Event → Option (Rpc σ)
  | .child => s.childReads c
  | .ready =>
    match s.pc, s.stdout with
    | .starting, _ :: rest => some { s with pc := .idle, stdout := rest }
    | _, _ => none
  | .request =>
    match s.pc, s.inbox with
    | .idle, q :: inbox => some { s with
        pc := .waiting
        inbox
        stdin := s.stdin ++ q ++ [newline]
        asked := s.asked ++ [q]
        written := s.written ++ q ++ [newline] }
    | _, _ => none
  | .reply =>
    match s.pc, s.stdout with
    | .waiting, line :: rest => some { s with
        pc := .idle
        stdout := rest
        answers := s.answers ++ [trim (line ++ "\n")] }
    | _, _ => none
  | .closed =>
    match s.pc, s.ended, s.stdout with
    | .idle, true, _ => some { s with pc := .stopped }
    | .waiting, true, [] => some { s with pc := .stopped }
    | _, _, _ => none
  | .stop =>
    match s.pc with
    | .idle => some { s with pc := .stopped }
    | _ => none

def system (c : Child σ) (inbox : List Payload) : Transition (Rpc σ) Event :=
  .ofStep (step c) (· = start c inbox)

def Answerable (c : Child σ) (s : Rpc σ) : Prop :=
  ∃ es s', (∀ e ∈ es, e = .child ∨ e = .reply) ∧ Transition.run (step c) s es = some s' ∧
    s'.answers.length = s.asked.length

/-- Answers are the child's own to the requests in their order, each request was one line, none is
left unanswered for good, and between two requests no reply is unread or still to come. -/
structure Paired (c : Child σ) (s : Rpc σ) : Prop where
  answers : s.answers <+: (c.replies c.start s.asked).map trim
  oneLine : s.written.count newline = s.asked.length
  answered : s.pc = .waiting → s.Answerable c
  settled : s.pc = .idle → s.answers.length = s.asked.length ∧ s.stdin = [] ∧ s.stdout = []

end Rpc

def oneLine (q : Payload) : Bool := !q.contains newline && isUtf8 q && !blank q

theorem oneLine_iff (q : Payload) :
    oneLine q = true ↔ newline ∉ q ∧ isUtf8 q = true ∧ blank q = false := by
  simp [oneLine, and_assoc]

theorem trimEnd_newline (cs : List Char) : trimEnd (cs ++ ['\n']) = trimEnd cs := by
  have hws : isWhitespace '\n' = true := by decide
  unfold trimEnd
  rw [List.reverse_append, List.reverse_singleton, List.singleton_append, List.dropWhile_cons_of_pos hws]

theorem trim_newline (r : String) : trim (r ++ "\n") = trim r := by
  unfold trim onChars
  rw [String.toList_append]
  show String.ofList (trimEnd ((r.toList ++ ['\n']).dropWhile isWhitespace)) =
    String.ofList (trimEnd (r.toList.dropWhile isWhitespace))
  rw [List.dropWhile_append]
  cases hrest : r.toList.dropWhile isWhitespace with
  | nil =>
    have hws : isWhitespace '\n' = true := by decide
    rw [List.isEmpty_nil, if_pos rfl, List.dropWhile_cons_of_pos hws, List.dropWhile_nil]
  | cons c cs =>
    rw [List.isEmpty_cons, if_neg nofun, trimEnd_newline]

namespace Rpc
variable {σ : Type} {c : Child σ} {s s' : Rpc σ}

theorem takeWhile_line {q : Payload} (h : newline ∉ q) (rest : Bytes) :
    (q ++ newline :: rest).takeWhile (· != newline) = q ∧
      (q ++ newline :: rest).dropWhile (· != newline) = newline :: rest := by
  have hq : ∀ b ∈ q, (b != newline) = true := by
    intro b hb
    refine bne_iff_ne.mpr fun he => h ?_
    rw [← he]
    exact hb
  constructor
  · rw [List.takeWhile_append_of_pos hq, List.takeWhile_cons_of_neg (by simp), List.append_nil]
  · rw [List.dropWhile_append_of_pos hq, List.dropWhile_cons_of_neg (by simp)]

theorem childReads_oneLine {q : Payload} (h : oneLine q = true) (hup : s.ended = false)
    (hin : s.stdin = q ++ [newline]) :
    s.childReads c = some { s with
      stdin := []
      child := (c.answer s.child (chomp q)).1
      stdout := s.stdout ++ [(c.answer s.child (chomp q)).2] } := by
  obtain ⟨hline, hutf, hblank⟩ := (oneLine_iff q).mp h
  obtain ⟨htake, hdrop⟩ := takeWhile_line hline []
  unfold childReads
  rw [hup, hin, hdrop, htake]
  dsimp only
  rw [if_neg (by simp [hutf]), if_neg (by simp [hblank])]

theorem childReads_nil (h : s.stdin = []) : s.childReads c = none := by
  unfold childReads
  rw [h, List.dropWhile_nil]
  split
  next heq => cases heq
  next => rfl

def At (c : Child σ) (s : Rpc σ) : Prop :=
  match s.pc with
  | .starting => s.stdin = [] ∧ s.stdout = [c.ready] ∧ s.asked = [] ∧ s.answers = [] ∧ s.child = c.start
  | .waiting => ∃ qs q, s.asked = qs ++ [q] ∧ oneLine q = true ∧
      s.answers = (c.replies c.start qs).map trim ∧
      ((s.stdin = q ++ [newline] ∧ s.stdout = [] ∧ s.child = c.after c.start qs) ∨
        (s.stdin = [] ∧ s.stdout = [(c.answer (c.after c.start qs) (chomp q)).2] ∧
          s.child = c.after c.start s.asked))
  | _ => s.stdin = [] ∧ s.stdout = [] ∧ s.answers = (c.replies c.start s.asked).map trim ∧
      s.child = c.after c.start s.asked

structure Inv (c : Child σ) (s : Rpc σ) : Prop where
  inbox : ∀ q ∈ s.inbox, oneLine q = true
  written : s.written.count newline = s.asked.length
  up : s.ended = false
  place : s.At c

theorem inv_start {inbox : List Payload} (h : ∀ q ∈ inbox, oneLine q = true) : (start c inbox).Inv c :=
  ⟨h, rfl, rfl, rfl, rfl, rfl, rfl, rfl⟩

theorem inv_step {a : Event} (h : s.Inv c) (hs : s.step c a = some s') : s'.Inv c := by
  obtain ⟨hinbox, hwritten, hup, hat⟩ := h
  unfold At at hat
  cases a with
  | child =>
    have hs : s.childReads c = some s' := hs
    cases hpc : s.pc with
    | waiting =>
      rw [hpc] at hat
      obtain ⟨qs, q, hasked, hq, hanswers, ⟨hin, hout, hchild⟩ | ⟨hin, -⟩⟩ := hat
      · rw [childReads_oneLine hq hup hin] at hs
        cases hs
        refine ⟨hinbox, hwritten, hup, ?_⟩
        unfold At
        dsimp only
        rw [hpc]
        refine ⟨qs, q, hasked, hq, hanswers, .inr ⟨rfl, ?_, ?_⟩⟩
        · rw [hout, hchild]
          rfl
        · rw [hchild, hasked, Child.after_concat]
      · rw [childReads_nil hin] at hs
        cases hs
    | _ =>
      rw [hpc] at hat
      rw [childReads_nil hat.1] at hs
      cases hs
  | ready =>
    unfold step at hs
    dsimp only at hs
    split at hs
    next line rest hpc hout =>
      cases hs
      rw [hpc] at hat
      obtain ⟨hin, hready, hasked, hanswers, hchild⟩ := hat
      rw [hready] at hout
      cases hout
      refine ⟨hinbox, hwritten, hup, hin, rfl, ?_, ?_⟩
      · show s.answers = (c.replies c.start s.asked).map trim
        rw [hanswers, hasked]
        rfl
      · show s.child = c.after c.start s.asked
        rw [hchild, hasked]
        rfl
    next => cases hs
  | request =>
    unfold step at hs
    dsimp only at hs
    split at hs
    next q inbox hpc hin =>
      cases hs
      rw [hpc] at hat
      obtain ⟨hstdin, hout, hanswers, hchild⟩ := hat
      have hq : oneLine q = true := hinbox q (by rw [hin]; exact List.mem_cons_self ..)
      refine ⟨fun p hp => hinbox p (by rw [hin]; exact List.mem_cons_of_mem _ hp), ?_, hup, ?_⟩
      · have hnone : q.count newline = 0 := List.count_eq_zero.mpr ((oneLine_iff q).mp hq).1
        simp [List.count_append, hwritten, hnone]
      · refine ⟨s.asked, q, rfl, hq, hanswers, .inl ⟨?_, hout, hchild⟩⟩
        show s.stdin ++ q ++ [newline] = _
        rw [hstdin]
        rfl
    next => cases hs
  | reply =>
    unfold step at hs
    dsimp only at hs
    split at hs
    next line rest hpc hout =>
      cases hs
      rw [hpc] at hat
      obtain ⟨qs, q, hasked, hq, hanswers, ⟨-, hnone, -⟩ | ⟨hin, hone, hchild⟩⟩ := hat
      · rw [hout] at hnone
        cases hnone
      · rw [hone] at hout
        cases hout
        refine ⟨hinbox, hwritten, hup, hin, rfl, ?_, hchild⟩
        show s.answers ++ [trim (_ ++ "\n")] = (c.replies c.start s.asked).map trim
        rw [hasked, Child.replies_concat, hanswers, trim_newline, List.map_append]
        rfl
    next => cases hs
  | closed =>
    unfold step at hs
    dsimp only at hs
    rw [hup] at hs
    split at hs
    next heq => cases heq
    next heq _ => cases heq
    next => cases hs
  | stop =>
    unfold step at hs
    dsimp only at hs
    split at hs
    next hpc =>
      cases hs
      rw [hpc] at hat
      exact ⟨hinbox, hwritten, hup, hat⟩
    next => cases hs

theorem Inv.answerable (h : s.Inv c) (hpc : s.pc = .waiting) : s.Answerable c := by
  have hat := h.place
  unfold At at hat
  rw [hpc] at hat
  obtain ⟨qs, q, hasked, hq, hanswers, ⟨hin, hout, hchild⟩ | ⟨hin, hone, hchild⟩⟩ := hat
  · have hread := childReads_oneLine (c := c) hq h.up hin
    have hrun : Transition.run (step c) s [.child, .reply] = some { s with
        pc := .idle
        stdin := []
        child := (c.answer s.child (chomp q)).1
        stdout := []
        answers := s.answers ++ [trim ((c.answer s.child (chomp q)).2 ++ "\n")] } := by
      simp [Transition.run, step, hread, hpc, hout]
    refine ⟨_, _, by simp, hrun, ?_⟩
    simp [hanswers, hasked, Child.length_replies]
  · have hrun : Transition.run (step c) s [.reply] = some { s with
        pc := .idle
        stdout := []
        answers := s.answers ++ [trim ((c.answer (c.after c.start qs) (chomp q)).2 ++ "\n")] } := by
      simp [Transition.run, step, hpc, hone]
    refine ⟨_, _, by simp, hrun, ?_⟩
    simp [hanswers, hasked, Child.length_replies]

theorem Inv.paired (h : s.Inv c) : s.Paired c := by
  have hat := h.place
  unfold At at hat
  refine ⟨?_, h.written, h.answerable, fun hpc => ?_⟩
  · cases hpc : s.pc with
    | starting =>
      rw [hpc] at hat
      rw [hat.2.2.2.1]
      exact List.nil_prefix
    | waiting =>
      rw [hpc] at hat
      obtain ⟨qs, q, hasked, -, hanswers, -⟩ := hat
      rw [hasked, Child.replies_concat, hanswers, List.map_append]
      exact List.prefix_append _ _
    | idle =>
      rw [hpc] at hat
      exact hat.2.2.1 ▸ List.prefix_rfl
    | stopped =>
      rw [hpc] at hat
      exact hat.2.2.1 ▸ List.prefix_rfl
  · rw [hpc] at hat
    obtain ⟨hin, hout, hanswers, -⟩ := hat
    refine ⟨?_, hin, hout⟩
    rw [hanswers, List.length_map, Child.length_replies]

theorem paired_of_oneLine {inbox : List Payload} (h : ∀ q ∈ inbox, oneLine q = true)
    (hs : (system c inbox).Reachable s) : s.Paired c := by
  have hinv : s.Inv c := by
    refine Transition.Reachable.invariant (I := Inv c) ?_ (fun _ _ _ hi hs => inv_step hi hs) hs
    rintro _ rfl
    exact inv_start h
  exact hinv.paired

structure Rests (s : Rpc σ) : Prop where
  pc : s.pc = .idle
  up : s.ended = false
  stdin : s.stdin = []
  stdout : s.stdout = []
  answers : s.answers.length = s.asked.length
  written : s.written.count newline = s.asked.length

theorem serves {inbox : List Payload} : ∀ (good : List Payload) {rest : List Payload} {s : Rpc σ},
    (∀ q ∈ good, oneLine q = true) → (system c inbox).Reachable s → s.Rests → s.inbox = good ++ rest →
      ∃ s', (system c inbox).Reachable s' ∧ s'.Rests ∧ s'.inbox = rest
  | [], rest, s, _, hs, hr, hin => ⟨s, hs, hr, hin⟩
  | q :: good, rest, s, hgood, hs, hr, hin => by
    have hq := hgood q (List.mem_cons_self ..)
    have hnone : q.count newline = 0 := List.count_eq_zero.mpr ((oneLine_iff q).mp hq).1
    have hread := childReads_oneLine (c := c) (s := { s with
      pc := .waiting
      inbox := good ++ rest
      stdin := q ++ [newline]
      asked := s.asked ++ [q]
      written := s.written ++ q ++ [newline] }) hq hr.up rfl
    have hrun : Transition.run (step c) s [.request, .child, .reply] = some { s with
        pc := .idle
        inbox := good ++ rest
        stdin := []
        stdout := []
        child := (c.answer s.child (chomp q)).1
        asked := s.asked ++ [q]
        written := s.written ++ q ++ [newline]
        answers := s.answers ++ [trim ((c.answer s.child (chomp q)).2 ++ "\n")] } := by
      simp [Transition.run, step, hr.pc, hin, hr.stdin, hr.stdout] at hread ⊢
      simp [hread]
    have hreach := Transition.Reachable.run _ hs hrun
    refine serves good (fun p hp => hgood p (List.mem_cons_of_mem _ hp)) hreach ?_ rfl
    exact ⟨rfl, hr.up, rfl, rfl, by simp [hr.answers], by simp [List.count_append, hr.written, hnone]⟩

theorem childReads_silent {q : Payload} (hline : newline ∉ q) (hsilent : isUtf8 q = false ∨ blank q = true)
    (hup : s.ended = false) (hin : s.stdin = q ++ [newline]) :
    ∃ ended, s.childReads c = some { s with stdin := [], ended } := by
  obtain ⟨htake, hdrop⟩ := takeWhile_line hline []
  unfold childReads
  rw [hup, hin, hdrop, htake]
  dsimp only
  cases hutf : isUtf8 q with
  | false => exact ⟨true, rfl⟩
  | true =>
    have hblank : blank q = true := hsilent.resolve_left (by rw [hutf]; nofun)
    exact ⟨false, by rw [hblank]; rfl⟩

theorem reply_none (hout : s.stdout = []) : s.step c .reply = none := by
  unfold step
  dsimp only
  rw [hout]
  split
  next heq => cases heq
  next => rfl

theorem stuck (hread : s.childReads c = none) (hout : s.stdout = [])
    (hlt : s.answers.length < s.asked.length) : ¬ s.Answerable c := by
  rintro ⟨es, s', hes, hrun, hall⟩
  cases es with
  | nil =>
    cases hrun
    omega
  | cons e es =>
    obtain ⟨s₁, hstep, -⟩ := Option.bind_eq_some_iff.mp hrun
    rcases hes e (List.mem_cons_self ..) with rfl | rfl
    · have hstep : s.childReads c = some s₁ := hstep
      rw [hread] at hstep
      cases hstep
    · rw [reply_none hout] at hstep
      cases hstep

theorem not_answerable_silent {q : Payload} (hline : newline ∉ q)
    (hsilent : isUtf8 q = false ∨ blank q = true) (hup : s.ended = false)
    (hin : s.stdin = q ++ [newline]) (hout : s.stdout = []) (hlt : s.answers.length < s.asked.length) :
    ¬ s.Answerable c := by
  rintro ⟨es, s', hes, hrun, hall⟩
  cases es with
  | nil =>
    cases hrun
    omega
  | cons e es =>
    obtain ⟨s₁, hstep, hrest⟩ := Option.bind_eq_some_iff.mp hrun
    rcases hes e (List.mem_cons_self ..) with rfl | rfl
    · have hstep : s.childReads c = some s₁ := hstep
      obtain ⟨ended, hread⟩ := childReads_silent (c := c) hline hsilent hup hin
      rw [hread] at hstep
      cases hstep
      have hnone := childReads_nil (c := c) (s := { s with stdin := [], ended }) rfl
      refine stuck (c := c) hnone hout hlt ⟨es, s', ?_, hrest, hall⟩
      exact fun e he => hes e (List.mem_cons_of_mem _ he)
    · rw [reply_none hout] at hstep
      cases hstep

theorem request_step {q : Payload} {rest : List Payload} (hr : s.Rests) (hin : s.inbox = q :: rest) :
    s.step c .request = some { s with
      pc := .waiting
      inbox := rest
      stdin := q ++ [newline]
      asked := s.asked ++ [q]
      written := s.written ++ q ++ [newline] } := by
  simp [step, hr.pc, hin, hr.stdin]

theorem oneLine_of_paired {q : Payload} {rest : List Payload} (hr : s.Rests) (hin : s.inbox = q :: rest)
    (h : ∀ s', s.step c .request = some s' → s'.Paired c) : oneLine q = true := by
  have hpaired := h _ (request_step hr hin)
  rw [oneLine_iff]
  have hline : newline ∉ q := by
    have hcount := hpaired.oneLine
    simp only [List.count_append, List.length_append, hr.written, List.length_singleton] at hcount
    have hone : List.count newline [newline] = 1 := by decide
    exact List.count_eq_zero.mp (by omega)
  refine ⟨hline, ?_⟩
  by_contra hspoken
  have hsilent : isUtf8 q = false ∨ blank q = true := by
    cases hutf : isUtf8 q with
    | false => exact .inl rfl
    | true => exact .inr (by simpa [hutf] using hspoken)
  refine absurd (hpaired.answered rfl) (not_answerable_silent hline hsilent hr.up rfl hr.stdout ?_)
  simp [hr.answers]

end Rpc

theorem rests_first {σ : Type} (c : Child σ) (inbox : List Payload) :
    ∃ s, (Rpc.system c inbox).Reachable s ∧ s.Rests ∧ s.inbox = inbox := by
  refine ⟨_, Transition.Reachable.run [.ready] (.init rfl) rfl, ?_, rfl⟩
  exact ⟨rfl, rfl, rfl, rfl, rfl, rfl⟩

/-- Driver and child stay paired over a list of requests, in every run and at every moment of it,
exactly if each request is one line of text that is not blank. -/
theorem paired_iff {σ : Type} (c : Child σ) (inbox : List Payload) :
    (∀ s, (Rpc.system c inbox).Reachable s → s.Paired c) ↔ ∀ q ∈ inbox, oneLine q = true := by
  constructor
  · intro h
    -- by induction on how many of the requests are known to be one line
    have hprefix : ∀ n, ∀ q ∈ inbox.take n, oneLine q = true := by
      intro n
      induction n with
      | zero => simp
      | succ n ih =>
        cases hn : inbox[n]? with
        | none =>
          rw [List.take_add_one, hn]
          simpa using ih
        | some q =>
          rw [List.take_add_one, hn]
          have hsplit : inbox = inbox.take n ++ q :: inbox.drop (n + 1) := by
            obtain ⟨hlt, hget⟩ := List.getElem?_eq_some_iff.mp hn
            rw [← hget, ← List.drop_eq_getElem_cons hlt, List.take_append_drop]
          obtain ⟨s₀, hs₀, hr₀, hin₀⟩ := rests_first c inbox
          obtain ⟨s, hs, hr, hin⟩ := Rpc.serves (inbox.take n) ih hs₀ hr₀ (hin₀.trans hsplit)
          have hq : oneLine q = true :=
            Rpc.oneLine_of_paired hr hin fun s' hstep => h s' (.step hs trivial hstep)
          intro p hp
          rcases List.mem_append.mp hp with hp | hp
          · exact ih p hp
          · rw [List.mem_singleton.mp hp]
            exact hq
    intro q hq
    refine hprefix inbox.length q ?_
    rwa [List.take_length]
  · exact fun h s hs => Rpc.paired_of_oneLine h hs

def echo : Child Unit := ⟨(), "ready", fun _ line => ((), textOf line)⟩

def shiftedRun : List Event := [.ready, .request, .child, .child, .reply, .request, .reply]

/-- A request of two lines: its second reply is given to the request after it. -/
theorem two_lines_shift_replies : ∃ s,
    Transition.run (Rpc.step echo) (.start echo [bytesOf "a\nb", bytesOf "c"]) shiftedRun = some s ∧
    (Rpc.system echo [bytesOf "a\nb", bytesOf "c"]).Reachable s ∧
    s.asked = [bytesOf "a\nb", bytesOf "c"] ∧ s.answers = ["a", "b"] ∧ ¬ s.Paired echo := by
  refine ⟨_, rfl, Transition.Reachable.run shiftedRun (.init rfl) rfl, rfl, by decide, ?_⟩
  intro h
  exact absurd h.oneLine (by decide)

end Vejas.ExecRpc
