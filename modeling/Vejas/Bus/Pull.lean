import Vejas.Vjs.Lexer

/-! Pull rounds: what one pull request brings off the inbox of a consumer. -/

namespace Vejas.Bus
open Rust Vjs

structure Message where
  subject : String
  data : Bytes
  streamSeq : Option Nat
  deriving DecidableEq

inductive Arrival
  | message (m : Message)
  | status (m : Message) (code : Nat) (shown description : String)

inductive Pulled
  | message (m : Message)
  | nothing
  | finished
  | gone (why : String)

def classify : Arrival → Pulled
  | .message m => .message m
  | .status m code shown description =>
    if code = 200 then .message m
    else if code = 404 then .nothing
    else if code = 408 then .finished
    else if code = 409 ∧ !contains description "Deleted" then .finished
    else .gone ("consumer gone: " ++ shown ++ " " ++ description)

def pullBatch : Nat := 64

/-- A pull consumer: what its inbox will give, `none` where the wait runs out; the fault a round
ended with; and what comes of the requests to come. -/
structure Puller where
  inbox : List (Option Arrival)
  fault : Option String
  requests : List (Except String Unit)

def takeRound : Nat → List (Option Arrival) → List Message × List (Option Arrival) × Option String
  | 0, inbox => ([], inbox, none)
  | _ + 1, [] => ([], [], none)
  | _ + 1, none :: inbox => ([], inbox, none)
  | more + 1, some a :: inbox =>
    match classify a with
    | .message m =>
      let (ms, rest, fault) := takeRound more inbox
      (m :: ms, rest, fault)
    -- a 404 is another request's: the wait goes on
    | .nothing => takeRound (more + 1) inbox
    | .finished => ([], inbox, none)
    | .gone why => ([], inbox, some why)

def fetchRound (p : Puller) : Except String (List Message) × Puller :=
  match p.fault with
  | some fault => (.error fault, { p with fault := none })
  | none =>
    match p.requests.headD (.ok ()) with
    | .error e => (.error e, { p with requests := p.requests.tail })
    | .ok () =>
      let (ms, rest, fault) := takeRound pullBatch p.inbox
      (.ok ms, ⟨rest, fault, p.requests.tail⟩)

inductive Delivers : Puller → List (List Message) → Prop
  | done {p p' : Puller} (h : fetchRound p = (.ok [], p')) : Delivers p []
  | round {p p' : Puller} {batch : List Message} {rounds : List (List Message)}
      (h : fetchRound p = (.ok batch, p')) (hne : batch ≠ []) (hrest : Delivers p' rounds) : Delivers p (batch :: rounds)

theorem takeRound_length (more : Nat) (inbox : List (Option Arrival)) :
    (takeRound more inbox).1.length ≤ more ∧
      (takeRound more inbox).1.length + (takeRound more inbox).2.1.length ≤ inbox.length := by
  induction inbox generalizing more with
  | nil =>
    cases more with
    | zero => exact ⟨Nat.le_refl _, Nat.le_refl _⟩
    | succ more => exact ⟨Nat.zero_le _, Nat.le_refl _⟩
  | cons next inbox ih =>
    cases more with
    | zero => exact ⟨Nat.le_refl _, Nat.le_of_eq (Nat.zero_add _)⟩
    | succ more =>
      cases next with
      | none =>
        refine ⟨Nat.zero_le _, ?_⟩
        change 0 + inbox.length ≤ inbox.length + 1
        omega
      | some a =>
        unfold takeRound
        cases classify a with
        | message m =>
          obtain ⟨hmore, hlen⟩ := ih more
          change (takeRound more inbox).1.length + 1 ≤ more + 1 ∧
            (takeRound more inbox).1.length + 1 + (takeRound more inbox).2.1.length ≤ inbox.length + 1
          omega
        | nothing =>
          obtain ⟨hmore, hlen⟩ := ih (more + 1)
          exact ⟨hmore, Nat.le_succ_of_le hlen⟩
        | finished =>
          change 0 ≤ more + 1 ∧ 0 + inbox.length ≤ inbox.length + 1
          omega
        | gone why =>
          change 0 ≤ more + 1 ∧ 0 + inbox.length ≤ inbox.length + 1
          omega

theorem fetchRound_length {p p' : Puller} {batch : List Message} (h : fetchRound p = (.ok batch, p')) :
    batch.length ≤ pullBatch ∧ batch.length + p'.inbox.length ≤ p.inbox.length := by
  unfold fetchRound at h
  split at h
  · cases h
  · split at h
    · cases h
    · cases h
      exact takeRound_length pullBatch p.inbox

theorem Delivers.length_le {p : Puller} {rounds : List (List Message)} (h : Delivers p rounds) :
    rounds.length ≤ p.inbox.length := by
  induction h with
  | done h => exact Nat.zero_le _
  | round h hne hrest ih =>
    have hpos := List.length_pos_iff.mpr hne
    have hlen := (fetchRound_length h).2
    rw [List.length_cons]
    omega

theorem Delivers.rounds_le {p : Puller} {rounds : List (List Message)} (h : Delivers p rounds) :
    ∀ b ∈ rounds, b ≠ [] ∧ b.length ≤ pullBatch := by
  induction h with
  | done h =>
    intro b hb
    cases hb
  | round h hne hrest ih =>
    intro b hb
    rcases List.mem_cons.mp hb with rfl | hb
    · exact ⟨hne, (fetchRound_length h).1⟩
    · exact ih b hb

theorem takeRound_messages (ms : List Message) (more : Nat) (rest : List (Option Arrival)) :
    takeRound (ms.length + more) (ms.map (fun m => some (.message m)) ++ rest) =
      (ms ++ (takeRound more rest).1, (takeRound more rest).2.1, (takeRound more rest).2.2) := by
  induction ms with
  | nil =>
    rw [List.length_nil, Nat.zero_add]
    rfl
  | cons m ms ih =>
    rw [List.length_cons, Nat.add_right_comm, List.map_cons, List.cons_append, takeRound]
    dsimp only [classify]
    rw [ih]
    rfl

theorem fetchRound_full {ms : List Message} (hlen : ms.length = pullBatch) (rest : List (Option Arrival)) :
    fetchRound ⟨ms.map (fun m => some (.message m)) ++ rest, none, []⟩ = (.ok ms, ⟨rest, none, []⟩) := by
  have htake := takeRound_messages ms 0 rest
  rw [Nat.add_zero, hlen, takeRound, List.append_nil] at htake
  unfold fetchRound
  dsimp only [List.headD_nil]
  rw [htake]
  rfl

end Vejas.Bus
