import Vejas.Lib.Transition

/-! A file that is replaced as a whole: the new content goes to a file beside it, piece by piece, and
then takes its name. Where the name cannot be taken over, the file is emptied and written in place.
The writer may fail or crash between any two pieces. -/

namespace Replacing
variable {β : Type}

inductive Phase (β : Type)
  | idle
  | opening (new : List β)
  | filling (new rest : List β)
  | placing (new : List β)
  | inPlace (new rest : List β)
  | ended (taken : Bool)
  deriving DecidableEq

/-- `last` is what the file was last replaced by, or what it held in the beginning. -/
structure State (β : Type) where
  file : Option (List β)
  side : Option (List β)
  phase : Phase β
  last : Option (List β)
  deriving DecidableEq

inductive Rename
  | ok
  | busy
  | failed
  deriving DecidableEq

inductive Move (β : Type)
  | begin (new : List β)
  | opens (ok : Bool)
  | write (n : Nat)
  | rename (r : Rename)
  | close
  | fail
  | leave
  | crash
  deriving DecidableEq

def step (s : State β) : Move β → Option (State β)
  | .begin new =>
    match s.phase with
    | .idle => some { s with phase := .opening new }
    | _ => none
  | .opens ok =>
    match s.phase with
    | .opening new => some (if ok then { s with side := some [], phase := .filling new new } else { s with phase := .ended false })
    | .placing new => some (if ok then { s with file := some [], phase := .inPlace new new } else { s with phase := .ended false })
    | _ => none
  | .write n =>
    match s.phase with
    | .filling new rest => some { s with side := s.side.map (· ++ rest.take n), phase := .filling new (rest.drop n) }
    | .inPlace new rest => some { s with file := s.file.map (· ++ rest.take n), phase := .inPlace new (rest.drop n) }
    | _ => none
  | .rename r =>
    match s.phase with
    | .filling new [] =>
      match r with
      | .ok => some { file := s.side, side := none, phase := .ended true, last := some new }
      | .busy => some { s with side := none, phase := .placing new }
      | .failed => some { s with side := none, phase := .ended false }
    | _ => none
  | .close =>
    match s.phase with
    | .inPlace new [] => some { s with phase := .ended true, last := some new }
    | _ => none
  | .fail =>
    match s.phase with
    | .filling _ _ => some { s with phase := .ended false }
    | .inPlace _ _ => some { s with phase := .ended false }
    | _ => none
  | .leave =>
    match s.phase with
    | .ended _ => some { s with phase := .idle }
    | _ => none
  | .crash => some { s with phase := .idle }

def Phase.exposed : Phase β → Bool
  | .inPlace _ _ => true
  | _ => false

def Phase.new : Phase β → Option (List β)
  | .opening new => some new
  | .filling new _ => some new
  | .placing new => some new
  | .inPlace new _ => some new
  | .idle => none
  | .ended _ => none

/-- No failure and no crash while the file itself is being written. -/
def Careful (s : State β) : Move β → Prop
  | .fail => s.phase.exposed = false
  | .crash => s.phase.exposed = false
  | _ => True

instance (s : State β) (m : Move β) : Decidable (Careful s m) :=
  match m with
  | .fail => inferInstanceAs (Decidable (_ = _))
  | .crash => inferInstanceAs (Decidable (_ = _))
  | .begin _ => .isTrue trivial
  | .opens _ => .isTrue trivial
  | .write _ => .isTrue trivial
  | .rename _ => .isTrue trivial
  | .close => .isTrue trivial
  | .leave => .isTrue trivial

structure Whole (s : State β) : Prop where
  intact : s.phase.exposed = false → s.file = s.last
  filling : ∀ new rest, s.phase = .filling new rest → ∃ written, s.side = some written ∧ written ++ rest = new
  inPlace : ∀ new rest, s.phase = .inPlace new rest → ∃ written, s.file = some written ∧ written ++ rest = new

variable {s s' : State β} {m : Move β}

theorem Whole.still {p : Phase β} {side : Option (List β)} (h : s.file = s.last) (hp : p.exposed = false)
    (hfill : ∀ new rest, p ≠ .filling new rest) : Whole { s with side, phase := p } where
  intact _ := h
  filling new rest heq := absurd heq (hfill new rest)
  inPlace new rest heq := by
    rw [show p = .inPlace new rest from heq] at hp
    cases hp

theorem Whole.step (h : Whole s) (hc : Careful s m) (hs : step s m = some s') : Whole s' := by
  cases m with
  | begin new =>
    unfold Replacing.step at hs
    dsimp only at hs
    split at hs
    next hphase =>
      cases hs
      exact Whole.still (h.intact (by rw [hphase]; rfl)) rfl fun _ _ h => by cases h
    next => cases hs
  | opens ok =>
    unfold Replacing.step at hs
    dsimp only at hs
    split at hs
    next new hphase =>
      have hfile := h.intact (by rw [hphase]; rfl)
      cases ok with
      | true =>
        cases hs
        exact ⟨fun _ => hfile, fun _ _ heq => (by cases heq; exact ⟨[], rfl, rfl⟩), fun _ _ heq => by cases heq⟩
      | false =>
        cases hs
        exact Whole.still hfile rfl fun _ _ h => by cases h
    next new hphase =>
      cases ok with
      | true =>
        cases hs
        exact ⟨fun h => (by cases h), fun _ _ heq => (by cases heq), fun _ _ heq => by cases heq; exact ⟨[], rfl, rfl⟩⟩
      | false =>
        cases hs
        exact Whole.still (h.intact (by rw [hphase]; rfl)) rfl fun _ _ h => by cases h
    next => cases hs
  | write n =>
    unfold Replacing.step at hs
    dsimp only at hs
    split at hs
    next new rest hphase =>
      cases hs
      obtain ⟨written, hside, hall⟩ := h.filling new rest hphase
      refine ⟨fun _ => h.intact (by rw [hphase]; rfl), fun _ _ heq => ?_, fun _ _ heq => by cases heq⟩
      cases heq
      refine ⟨written ++ rest.take n, congrArg (Option.map _) hside, ?_⟩
      rw [List.append_assoc, List.take_append_drop, hall]
    next new rest hphase =>
      cases hs
      obtain ⟨written, hfile, hall⟩ := h.inPlace new rest hphase
      refine ⟨fun h => (by cases h), fun _ _ heq => (by cases heq), fun _ _ heq => ?_⟩
      cases heq
      refine ⟨written ++ rest.take n, congrArg (Option.map _) hfile, ?_⟩
      rw [List.append_assoc, List.take_append_drop, hall]
    next => cases hs
  | rename r =>
    unfold Replacing.step at hs
    dsimp only at hs
    split at hs
    next new hphase =>
      have hfile := h.intact (by rw [hphase]; rfl)
      cases r with
      | ok =>
        cases hs
        obtain ⟨written, hside, hall⟩ := h.filling new [] hphase
        refine ⟨fun _ => ?_, fun _ _ heq => (by cases heq), fun _ _ heq => by cases heq⟩
        rw [List.append_nil] at hall
        rw [← hall]
        exact hside
      | busy =>
        cases hs
        exact Whole.still hfile rfl fun _ _ h => by cases h
      | failed =>
        cases hs
        exact Whole.still hfile rfl fun _ _ h => by cases h
    next => cases hs
  | close =>
    unfold Replacing.step at hs
    dsimp only at hs
    split at hs
    next new hphase =>
      cases hs
      obtain ⟨written, hfile, hall⟩ := h.inPlace new [] hphase
      refine ⟨fun _ => ?_, fun _ _ heq => (by cases heq), fun _ _ heq => by cases heq⟩
      rw [List.append_nil] at hall
      rw [← hall]
      exact hfile
    next => cases hs
  | fail =>
    have hfile := h.intact hc
    unfold Replacing.step at hs
    dsimp only at hs
    split at hs
    · cases hs
      exact Whole.still hfile rfl fun _ _ h => by cases h
    · cases hs
      exact Whole.still hfile rfl fun _ _ h => by cases h
    · cases hs
  | leave =>
    unfold Replacing.step at hs
    dsimp only at hs
    split at hs
    next hphase =>
      cases hs
      exact Whole.still (h.intact (by rw [hphase]; rfl)) rfl fun _ _ h => by cases h
    next => cases hs
  | crash =>
    cases hs
    exact Whole.still (h.intact hc) rfl fun _ _ h => by cases h

inductive Progress (s s' : State β) : Prop
  | going : s'.last = s.last → s.phase.new.isSome → s'.phase.new = s.phase.new → Progress s s'
  | failed : s'.last = s.last → s.phase.new.isSome → s'.phase = .ended false → Progress s s'
  | stopped : s'.last = s.last → s'.phase = .idle → Progress s s'
  | taken {new : List β} : s.phase.new = some new → s'.last = some new → s'.phase = .ended true → Progress s s'

theorem step_progress (hs : step s m = some s') (hbegin : ∀ new, m ≠ .begin new) (hleave : m ≠ .leave) : Progress s s' := by
  cases m with
  | begin new => exact absurd rfl (hbegin new)
  | leave => exact absurd rfl hleave
  | crash =>
    cases hs
    exact .stopped rfl rfl
  | opens ok =>
    unfold step at hs
    dsimp only at hs
    split at hs
    next new hphase =>
      have hnew : s.phase.new = some new := by rw [hphase]; rfl
      cases ok with
      | true =>
        cases hs
        exact .going rfl (by rw [hnew]; rfl) hnew.symm
      | false =>
        cases hs
        exact .failed rfl (by rw [hnew]; rfl) rfl
    next new hphase =>
      have hnew : s.phase.new = some new := by rw [hphase]; rfl
      cases ok with
      | true =>
        cases hs
        exact .going rfl (by rw [hnew]; rfl) hnew.symm
      | false =>
        cases hs
        exact .failed rfl (by rw [hnew]; rfl) rfl
    next => cases hs
  | write n =>
    unfold step at hs
    dsimp only at hs
    split at hs
    next new rest hphase =>
      cases hs
      have hnew : s.phase.new = some new := by rw [hphase]; rfl
      exact .going rfl (by rw [hnew]; rfl) hnew.symm
    next new rest hphase =>
      cases hs
      have hnew : s.phase.new = some new := by rw [hphase]; rfl
      exact .going rfl (by rw [hnew]; rfl) hnew.symm
    next => cases hs
  | rename r =>
    unfold step at hs
    dsimp only at hs
    split at hs
    next new hphase =>
      have hnew : s.phase.new = some new := by rw [hphase]; rfl
      cases r with
      | ok =>
        cases hs
        exact .taken hnew rfl rfl
      | busy =>
        cases hs
        exact .going rfl (by rw [hnew]; rfl) hnew.symm
      | failed =>
        cases hs
        exact .failed rfl (by rw [hnew]; rfl) rfl
    next => cases hs
  | close =>
    unfold step at hs
    dsimp only at hs
    split at hs
    next new hphase =>
      cases hs
      exact .taken (by rw [hphase]; rfl) rfl rfl
    next => cases hs
  | fail =>
    unfold step at hs
    dsimp only at hs
    split at hs
    next hphase =>
      cases hs
      exact .failed rfl (by rw [hphase]; rfl) rfl
    next hphase =>
      cases hs
      exact .failed rfl (by rw [hphase]; rfl) rfl
    next => cases hs

theorem step_begin {new : List β} (hs : step s (.begin new) = some s') : s.phase = .idle ∧ s' = { s with phase := .opening new } := by
  unfold step at hs
  dsimp only at hs
  split at hs
  next hphase =>
    cases hs
    exact ⟨hphase, rfl⟩
  next => cases hs

theorem step_leave (hs : step s .leave = some s') : (∃ b, s.phase = .ended b) ∧ s' = { s with phase := .idle } := by
  unfold step at hs
  dsimp only at hs
  split at hs
  next b hphase =>
    cases hs
    exact ⟨⟨b, hphase⟩, rfl⟩
  next => cases hs

end Replacing
