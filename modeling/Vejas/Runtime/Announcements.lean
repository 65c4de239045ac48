import Mathlib.Algebra.Ring.Nat
import Mathlib.Data.List.Nodup
import Vejas.Json.Value

/-! Dead letters are announced on the bus, at most one event for each unit in a window of time. -/

namespace Vejas.Runtime
open Json

/-- Dead letters of one unit not announced yet, and the last one's coordinates. -/
structure DlqAnnouncement where
  lastSent : Nat := 0
  count : Nat := 0
  subject : String := ""
  attempts : Int64 := 0
  version : String := ""
  deriving DecidableEq

structure DlqEvent where
  ts : Nat
  unit : String
  subject : String
  attempts : Int64
  version : String
  count : Nat
  deriving DecidableEq

def DlqEvent.json (e : DlqEvent) : Value := .obj [
  ("transition", .string "dead-lettered"), ("ts", .ofNat e.ts), ("unit", .string e.unit),
  ("subject", .string e.subject), ("attempts", .number (.ofI64 e.attempts)), ("version", .string e.version),
  ("count", .ofNat e.count)]

abbrev Announcements := List (String × DlqAnnouncement)

namespace Announcements

def upsert (unit : String) (f : DlqAnnouncement → DlqAnnouncement) : Announcements → Announcements
  | [] => [(unit, f {})]
  | (k, a) :: pending => if k = unit then (k, f a) :: pending else (k, a) :: upsert unit f pending

def letter (pending : Announcements) (unit subject : String) (attempts : Int64) (version : String) : Announcements :=
  pending.upsert unit fun a => { a with count := a.count + 1, subject, attempts, version }

def isDue (now gap : Nat) (a : DlqAnnouncement) : Bool := 0 < a.count && gap ≤ now - a.lastSent

def takeDueDlqEvents (pending : Announcements) (now gap : Nat) : List DlqEvent × Announcements :=
  ((pending.filter fun p => isDue now gap p.2).map fun (unit, a) =>
      ⟨now, unit, a.subject, a.attempts, a.version, a.count⟩,
    pending.map fun (unit, a) => (unit, if isDue now gap a then { a with lastSent := now, count := 0 } else a))

/-- What is handed to the bus. A letter of a reader of these events is not announced. -/
def announceDeadLetter (pending : Announcements) (root unit subject : String) (attempts : Int64) (version : String)
    (now gap : Nat) : List Value × Announcements :=
  if subject = root ++ ".dlq.events" then ([], pending)
  else
    let (due, pending) := (pending.letter unit subject attempts version).takeDueDlqEvents now gap
    (due.map DlqEvent.json, pending)

end Announcements

structure Desk where
  pending : Announcements := []
  returned : List DlqEvent := []

inductive DeskAct
  | letter (unit subject : String) (attempts : Int64) (version : String)
  | take (now : Nat)

namespace Desk

def step (gap : Nat) (s : Desk) : DeskAct → Desk
  | .letter unit subject attempts version => { s with pending := s.pending.letter unit subject attempts version }
  | .take now =>
    let (due, pending) := s.pending.takeDueDlqEvents now gap
    ⟨pending, s.returned ++ due⟩

def run (gap : Nat) (s : Desk) (acts : List DeskAct) : Desk := acts.foldl (step gap) s

def announced (s : Desk) (unit : String) : Nat := ((s.returned.filter (·.unit = unit)).map (·.count)).sum

def held (s : Desk) (unit : String) : Nat := ((s.pending.filter (·.1 = unit)).map (·.2.count)).sum

end Desk

def recorded (unit : String) (acts : List DeskAct) : Nat :=
  acts.countP fun
    | .letter u .. => u = unit
    | .take _ => false

def clocks (acts : List DeskAct) : List Nat :=
  acts.filterMap fun
    | .letter .. => none
    | .take now => some now

namespace Announcements

theorem sum_upsert (pending : Announcements) (unit : String) {f : DlqAnnouncement → DlqAnnouncement} (hf : ∀ a, (f a).count = a.count + 1)
    (u : String) : (((pending.upsert unit f).filter (·.1 = u)).map (·.2.count)).sum =
      ((pending.filter (·.1 = u)).map (·.2.count)).sum + if unit = u then 1 else 0 := by
  induction pending with
  | nil =>
    by_cases hu : unit = u
    · simp [upsert, hu, hf]
    · simp [upsert, hu]
  | cons p pending ih =>
    obtain ⟨k, a⟩ := p
    by_cases hk : k = unit
    · subst hk
      by_cases hu : k = u
      · simp [upsert, hu, hf]
        omega
      · simp [upsert, hu]
    · by_cases hu : k = u
      · subst hu
        simp [upsert, hk] at ih ⊢
        omega
      · simpa [upsert, hk, hu] using ih

theorem sum_takeDue (pending : Announcements) (now gap : Nat) (u : String) :
    (((pending.takeDueDlqEvents now gap).1.filter (·.unit = u)).map (·.count)).sum +
      (((pending.takeDueDlqEvents now gap).2.filter (·.1 = u)).map (·.2.count)).sum =
      ((pending.filter (·.1 = u)).map (·.2.count)).sum := by
  induction pending with
  | nil => rfl
  | cons p pending ih =>
    obtain ⟨k, a⟩ := p
    simp only [takeDueDlqEvents, List.map_cons, List.filter_cons] at ih ⊢
    by_cases hu : k = u <;> by_cases hdue : isDue now gap a = true <;> simp [hu, hdue] at ih ⊢ <;> omega

variable {pending : Announcements}

theorem count_takeDue {now gap : Nat} {e : DlqEvent} (h : e ∈ (pending.takeDueDlqEvents now gap).1) : e.count ≠ 0 := by
  obtain ⟨p, hp, rfl⟩ := List.mem_map.mp h
  have hdue := (List.mem_filter.mp hp).2
  simp only [isDue, Bool.and_eq_true, decide_eq_true_eq] at hdue
  exact Nat.ne_of_gt hdue.1

theorem keys_takeDue (now gap : Nat) : (pending.takeDueDlqEvents now gap).2.map (·.1) = pending.map (·.1) := by
  unfold takeDueDlqEvents
  rw [List.map_map]
  rfl

theorem mem_upsert {unit : String} {f : DlqAnnouncement → DlqAnnouncement} {p : String × DlqAnnouncement}
    (h : p ∈ pending.upsert unit f) : p ∈ pending ∨ p.1 = unit ∧ (p.2 = f {} ∨ ∃ a, (unit, a) ∈ pending ∧ p.2 = f a) := by
  induction pending with
  | nil =>
    rw [upsert, List.mem_singleton] at h
    subst h
    exact .inr ⟨rfl, .inl rfl⟩
  | cons q pending ih =>
    obtain ⟨k, a⟩ := q
    rw [upsert] at h
    by_cases hk : k = unit
    · rw [if_pos hk] at h
      rcases List.mem_cons.mp h with rfl | h
      · exact .inr ⟨hk, .inr ⟨a, hk ▸ List.mem_cons_self .., rfl⟩⟩
      · exact .inl (List.mem_cons_of_mem _ h)
    · rw [if_neg hk] at h
      rcases List.mem_cons.mp h with rfl | h
      · exact .inl (List.mem_cons_self ..)
      · rcases ih h with h | ⟨hunit, h | ⟨b, hb, h⟩⟩
        · exact .inl (List.mem_cons_of_mem _ h)
        · exact .inr ⟨hunit, .inl h⟩
        · exact .inr ⟨hunit, .inr ⟨b, List.mem_cons_of_mem _ hb, h⟩⟩

theorem nodup_upsert (h : (pending.map (·.1)).Nodup) (unit : String) (f : DlqAnnouncement → DlqAnnouncement) :
    ((pending.upsert unit f).map (·.1)).Nodup := by
  induction pending with
  | nil => exact List.nodup_singleton _
  | cons q pending ih =>
    obtain ⟨k, a⟩ := q
    obtain ⟨hk, hrest⟩ := List.nodup_cons.mp h
    rw [upsert]
    by_cases hunit : k = unit
    · rw [if_pos hunit]
      exact h
    · rw [if_neg hunit, List.map_cons]
      refine List.nodup_cons.mpr ⟨fun hmem => ?_, ih hrest⟩
      obtain ⟨p, hp, heq⟩ := List.mem_map.mp hmem
      rcases mem_upsert hp with hin | ⟨heq', -⟩
      · exact hk (List.mem_map.mpr ⟨p, hin, heq⟩)
      · exact hunit (heq.symm.trans heq')

theorem upsert_keeps (unit : String) {f : DlqAnnouncement → DlqAnnouncement} (hf : ∀ a, (f a).lastSent = a.lastSent)
    {k : String} {a : DlqAnnouncement} (h : (k, a) ∈ pending) :
    ∃ b, (k, b) ∈ pending.upsert unit f ∧ b.lastSent = a.lastSent := by
  induction pending with
  | nil => cases h
  | cons q pending ih =>
    obtain ⟨k', a'⟩ := q
    rw [upsert]
    by_cases hk : k' = unit
    · rw [if_pos hk]
      rcases List.mem_cons.mp h with heq | h
      · obtain ⟨rfl, rfl⟩ := Prod.mk.inj heq
        exact ⟨f a, List.mem_cons_self .., hf a⟩
      · exact ⟨a, List.mem_cons_of_mem _ h, rfl⟩
    · rw [if_neg hk]
      rcases List.mem_cons.mp h with heq | h
      · obtain ⟨rfl, rfl⟩ := Prod.mk.inj heq
        exact ⟨a, List.mem_cons_self .., rfl⟩
      · obtain ⟨b, hb, hsent⟩ := ih h
        exact ⟨b, List.mem_cons_of_mem _ hb, hsent⟩

theorem mem_takeDue {now gap : Nat} {e : DlqEvent} (h : e ∈ (pending.takeDueDlqEvents now gap).1) :
    e.ts = now ∧ ∃ a, (e.unit, a) ∈ pending ∧ gap ≤ now - a.lastSent ∧
      (e.unit, { a with lastSent := now, count := 0 }) ∈ (pending.takeDueDlqEvents now gap).2 := by
  obtain ⟨p, hp, rfl⟩ := List.mem_map.mp h
  obtain ⟨hmem, hdue⟩ := List.mem_filter.mp hp
  refine ⟨rfl, p.2, hmem, ?_, ?_⟩
  · simp only [isDue, Bool.and_eq_true, decide_eq_true_eq] at hdue
    exact hdue.2
  · exact List.mem_map.mpr ⟨p, hmem, by simp only [hdue, if_true]⟩

theorem lastSent_takeDue {now gap : Nat} {p : String × DlqAnnouncement}
    (h : p ∈ (pending.takeDueDlqEvents now gap).2) :
    ∃ a, (p.1, a) ∈ pending ∧ (p.2.lastSent = a.lastSent ∨ p.2.lastSent = now) := by
  obtain ⟨q, hq, rfl⟩ := List.mem_map.mp h
  refine ⟨q.2, hq, ?_⟩
  by_cases hdue : isDue now gap q.2 = true
  · exact .inr (by simp only [hdue, if_true])
  · exact .inl (by simp only [if_neg hdue])

theorem takeDue_keeps (now gap : Nat) {k : String} {a : DlqAnnouncement} (h : (k, a) ∈ pending) :
    ∃ b, (k, b) ∈ (pending.takeDueDlqEvents now gap).2 ∧ (b.lastSent = a.lastSent ∨ b.lastSent = now) := by
  refine ⟨_, List.mem_map.mpr ⟨(k, a), h, rfl⟩, ?_⟩
  by_cases hdue : isDue now gap a = true
  · exact .inr (by simp only [hdue, if_true])
  · exact .inl (by simp only [if_neg hdue])

theorem units_takeDue (h : (pending.map (·.1)).Nodup) (now gap : Nat) :
    ((pending.takeDueDlqEvents now gap).1.map (·.unit)).Nodup := by
  have hunits : (pending.takeDueDlqEvents now gap).1.map (·.unit) =
      (pending.filter fun p => isDue now gap p.2).map (·.1) := by
    unfold takeDueDlqEvents
    rw [List.map_map]
    rfl
  rw [hunits]
  exact h.sublist (List.filter_sublist.map _)

end Announcements

namespace Desk
open Announcements

variable {gap : Nat} {s : Desk}

theorem run_append (s : Desk) (acts more : List DeskAct) : run gap s (acts ++ more) = run gap (run gap s acts) more :=
  List.foldl_append

theorem announce_run (gap : Nat) (s : Desk) (root unit subject : String) (attempts : Int64) (version : String)
    (now : Nat) (h : subject ≠ root ++ ".dlq.events") :
    s.pending.announceDeadLetter root unit subject attempts version now gap =
      let s' := run gap s [.letter unit subject attempts version, .take now]
      ((s'.returned.drop s.returned.length).map DlqEvent.json, s'.pending) := by
  simp [announceDeadLetter, h, run, step]

theorem step_conserves (gap : Nat) (s : Desk) (a : DeskAct) (unit : String) :
    (step gap s a).announced unit + (step gap s a).held unit = s.announced unit + s.held unit + recorded unit [a] := by
  cases a with
  | letter u subject attempts version =>
    have hsum := sum_upsert s.pending u
      (f := fun a => { a with count := a.count + 1, subject, attempts, version }) (fun _ => rfl) unit
    simp only [step, letter, announced, held, recorded, hsum, List.countP_singleton, decide_eq_true_eq]
    omega
  | take now =>
    have hsum := sum_takeDue s.pending now gap unit
    simp only [step, announced, held, recorded, List.filter_append, List.map_append, List.sum_append,
      List.countP_singleton, Bool.false_eq_true, if_false]
    omega

theorem run_conserves (gap : Nat) (s : Desk) (acts : List DeskAct) (unit : String) :
    (run gap s acts).announced unit + (run gap s acts).held unit =
      s.announced unit + s.held unit + recorded unit acts := by
  induction acts generalizing s with
  | nil => rfl
  | cons a acts ih =>
    have hstep := step_conserves gap s a unit
    have hrest := ih (step gap s a)
    simp only [run, List.foldl_cons] at hrest ⊢
    have happend : recorded unit ([a] ++ acts) = recorded unit [a] + recorded unit acts := List.countP_append
    rw [hrest, hstep, Nat.add_assoc, ← happend]
    rfl

theorem run_counts (h : ∀ e ∈ s.returned, e.count ≠ 0) (acts : List DeskAct) :
    ∀ e ∈ (run gap s acts).returned, e.count ≠ 0 := by
  induction acts generalizing s with
  | nil => exact h
  | cons a acts ih =>
    apply ih
    cases a with
    | letter => exact h
    | take now =>
      intro e he
      rcases List.mem_append.mp he with he | he
      · exact h e he
      · exact count_takeDue he

/-- At the clock reading `now`: no event is later than the last one of its unit, and that is not
in the future. -/
structure Spaced (gap now : Nat) (s : Desk) : Prop where
  units : (s.pending.map (·.1)).Nodup
  past : ∀ p ∈ s.pending, p.2.lastSent ≤ now
  sent : ∀ e ∈ s.returned, ∃ a, (e.unit, a) ∈ s.pending ∧ e.ts ≤ a.lastSent
  apart : s.returned.Pairwise fun e f => e.unit = f.unit → e.ts + gap ≤ f.ts

theorem Spaced.letter {now : Nat} (h : Spaced gap now s) (unit subject : String) (attempts : Int64)
    (version : String) : Spaced gap now (step gap s (.letter unit subject attempts version)) where
  units := nodup_upsert h.units _ _
  past p hp := by
    rcases mem_upsert hp with hp | ⟨-, heq | ⟨a, ha, heq⟩⟩
    · exact h.past p hp
    · rw [heq]
      exact Nat.zero_le _
    · rw [heq]
      exact h.past _ ha
  sent e he := by
    obtain ⟨a, ha, hle⟩ := h.sent e he
    obtain ⟨b, hb, hsent⟩ := upsert_keeps unit
      (f := fun a => { a with count := a.count + 1, subject, attempts, version }) (fun _ => rfl) ha
    exact ⟨b, hb, hsent ▸ hle⟩
  apart := h.apart

theorem Spaced.take {now later : Nat} (h : Spaced gap now s) (hle : now ≤ later) :
    Spaced gap later (step gap s (.take later)) where
  units := by
    show ((s.pending.takeDueDlqEvents later gap).2.map (·.1)).Nodup
    rw [keys_takeDue]
    exact h.units
  past p hp := by
    obtain ⟨a, ha, heq | heq⟩ := lastSent_takeDue hp
    · rw [heq]
      exact Nat.le_trans (h.past _ ha) hle
    · exact Nat.le_of_eq heq
  sent e he := by
    rcases List.mem_append.mp he with he | he
    · obtain ⟨a, ha, hts⟩ := h.sent e he
      obtain ⟨b, hb, heq | heq⟩ := takeDue_keeps later gap ha
      · exact ⟨b, hb, heq ▸ hts⟩
      · exact ⟨b, hb, heq ▸ Nat.le_trans hts (Nat.le_trans (h.past _ ha) hle)⟩
    · obtain ⟨hts, a, -, -, hin⟩ := mem_takeDue he
      exact ⟨_, hin, Nat.le_of_eq hts⟩
  apart := by
    refine List.pairwise_append.mpr ⟨h.apart, ?_, ?_⟩
    · -- one take returns at most one event of a unit
      have hunits := List.pairwise_map.mp (units_takeDue h.units later gap)
      exact hunits.imp fun hne heq => absurd heq hne
    · intro e he f hf heq
      obtain ⟨a, ha, hts⟩ := h.sent e he
      obtain ⟨hfts, b, hb, hgap, -⟩ := mem_takeDue hf
      have hab : a = b := by
        have hkeys := List.inj_on_of_nodup_map h.units ha hb heq
        exact (Prod.mk.inj hkeys).2
      subst hab
      have hpast := h.past _ ha
      dsimp only at hpast
      omega

theorem run_spaced {now : Nat} (h : Spaced gap now s) (acts : List DeskAct)
    (hclock : (now :: clocks acts).Pairwise (· ≤ ·)) : ∃ later, Spaced gap later (run gap s acts) := by
  induction acts generalizing s now with
  | nil => exact ⟨now, h⟩
  | cons a acts ih =>
    cases a with
    | letter unit subject attempts version => exact ih (h.letter unit subject attempts version) hclock
    | take later =>
      have hle : now ≤ later := List.rel_of_pairwise_cons hclock (List.mem_cons_self ..)
      exact ih (h.take hle) hclock.of_cons

end Desk

/-- Every letter is in an event or still held, no event is empty, and with a clock that does not
go back the events of a unit are `gap` apart. -/
theorem dead_letter_news_conserved (gap : Nat) (acts : List DeskAct) :
    (∀ unit, (Desk.run gap {} acts).announced unit + (Desk.run gap {} acts).held unit = recorded unit acts) ∧
    (∀ e ∈ (Desk.run gap {} acts).returned, e.count ≠ 0) ∧
    ((clocks acts).Pairwise (· ≤ ·) →
      (Desk.run gap {} acts).returned.Pairwise fun e f => e.unit = f.unit → e.ts + gap ≤ f.ts) := by
  refine ⟨fun unit => ?_, ?_, fun hclock => ?_⟩
  · have h := Desk.run_conserves gap {} acts unit
    simpa [Desk.announced, Desk.held] using h
  · exact Desk.run_counts (fun e he => absurd he List.not_mem_nil) acts
  · have hstart : Desk.Spaced gap 0 {} := by constructor <;> simp
    obtain ⟨later, h⟩ := Desk.run_spaced hstart acts
      (List.pairwise_cons.mpr ⟨fun _ _ => Nat.zero_le _, hclock⟩)
    exact h.apart

def burst : List DeskAct :=
  let died := DeskAct.letter "flow:a" "vx.in" 3 ""
  [died, .take 1000, died, died, died, .take 1030, .take 1060, .take 2000]

theorem dead_letter_news_conserved_burst :
    (Desk.run 60 {} burst).returned.map (fun e => (e.ts, e.count)) = [(1000, 1), (1060, 3)] ∧
    (Desk.run 60 {} burst).returned.Pairwise fun e f => e.unit = f.unit → e.ts + 60 ≤ f.ts :=
  ⟨by decide, (dead_letter_news_conserved 60 burst).2.2 (by decide)⟩

end Vejas.Runtime
