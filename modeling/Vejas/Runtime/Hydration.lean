import Vejas.Bus.Pull
import Vejas.Connectors.Wire
import Vejas.Json.Reading
import Vejas.Lib.Rounds
import Vejas.Runtime.Units

/-! Hydration: the last events of a subject, read back from the persisted stream by a consumer of
its own that starts a window before the end of the stream. -/

namespace Vejas.Runtime
open Rust Json Vjs Bus Connectors

structure JetStream where
  lastSeq : Except String Nat
  pullEphemeral : (filter : String) → (startSeq : Nat) → Except String Puller

abbrev Row := Nat × String × Value

def keepOf (n : Nat) : Nat := max 1 (min n 5000)

def windowOf (n : Nat) : Nat := min (max (keepOf n * 8) 256) 200000

def startOf (last n : Nat) : Nat := max (last - windowOf n) 1

def row (m : Message) : Option Row := (fromSlice m.data).map fun v => (m.streamSeq.getD 0, m.subject, v)

def pushRow (keep : Nat) (ring : List Row) (m : Message) : List Row :=
  match row m with
  | some r => (ring ++ [r]).rtake keep
  | none => ring

/-- The scan of `hydrate_recent`: it ends with an empty round, or after the round that meets the
window. -/
def hydrateLoop (window keep : Nat) : Nat → Puller → List Row → Nat → Except String (List Row)
  | 0, _, ring, _ => .ok ring
  | fuel + 1, p, ring, scanned =>
    match fetchRound p with
    | (.error e, _) => .error e
    | (.ok batch, p) =>
      if batch = [] then .ok ring
      else
        let ring := batch.foldl (pushRow keep) ring
        if window ≤ scanned + batch.length then .ok ring
        else hydrateLoop window keep fuel p ring (scanned + batch.length)

def hydrateRecent (js : JetStream) (subject : String) (n : Nat) : Except String (List Row) :=
  let last := js.lastSeq.toOption.getD 0
  if last = 0 then .ok []
  else do
    let p ← js.pullEphemeral subject (startOf last n)
    hydrateLoop (windowOf n) (keepOf n) (p.inbox.length + 1) p [] 0

def auditRoot : String := "vxaudit"

def auditRecent (js : JetStream) (unit : String) (n : Nat) : Except String (List Value) := do
  let rows ← hydrateRecent js (auditRoot ++ "." ++ dlqUnitToken unit) n
  pure (rows.map (·.2.2))

structure Stored where
  seq : Nat
  subject : String
  data : Bytes

def Stored.deliver (m : Stored) : Message := ⟨m.subject, m.data, some m.seq⟩

/-- A persisted stream: messages in the order of their sequences, up to its last one. -/
structure Persisted where
  messages : List Stored
  last : Nat
  ordered : messages.Pairwise fun a b => a.seq < b.seq
  within : ∀ m ∈ messages, 1 ≤ m.seq ∧ m.seq ≤ last

namespace Persisted

def since (st : Persisted) (hit : String → Bool) (start : Nat) : List Stored :=
  st.messages.filter fun m => hit m.subject && decide (start ≤ m.seq)

def inWindow (st : Persisted) (hit : String → Bool) (n : Nat) : List Stored :=
  st.since hit (st.last - windowOf n + 1)

def rows (ms : List Stored) : List Row := ms.filterMap fun m => row m.deliver

end Persisted

/-- The stream is `st`, and the consumer on it delivers what `hit` takes, from its start on, in
these rounds. -/
structure Served (js : JetStream) (st : Persisted) (hit : String → Bool) (subject : String) (n : Nat)
    (rounds : List (List Message)) : Prop where
  state : js.lastSeq = .ok st.last
  pulls : ∃ p, js.pullEphemeral subject (startOf st.last n) = .ok p ∧ Delivers p rounds
  matching : rounds.flatten = (st.since hit (startOf st.last n)).map Stored.deliver

theorem pushRow_some {m : Message} {r : Row} (h : row m = some r) (keep : Nat) (ring : List Row) :
    pushRow keep ring m = (ring ++ [r]).rtake keep := by
  unfold pushRow
  rw [h]

theorem pushRow_none {m : Message} (h : row m = none) (keep : Nat) (ring : List Row) : pushRow keep ring m = ring := by
  unfold pushRow
  rw [h]

theorem foldl_pushRow (keep : Nat) (l : List Row) (ms : List Message) :
    ms.foldl (pushRow keep) (l.rtake keep) = (l ++ ms.filterMap row).rtake keep := by
  induction ms generalizing l with
  | nil => rw [List.filterMap_nil, List.append_nil, List.foldl_nil]
  | cons m ms ih =>
    rw [List.foldl_cons]
    cases hrow : row m with
    | none => rw [pushRow_none hrow, List.filterMap_cons_none hrow, ih]
    | some r =>
      rw [pushRow_some hrow, List.filterMap_cons_some hrow, Rounds.rtake_append_rtake, ih, List.append_assoc,
        List.singleton_append]

theorem hydrateLoop_eq {window keep fuel seen : Nat} {p : Puller} {rounds : List (List Message)} (h : Delivers p rounds)
    (hfuel : rounds.length < fuel) (l : List Row) :
    hydrateLoop window keep fuel p (l.rtake keep) seen =
      .ok ((l ++ (Rounds.scanned window seen rounds).flatten.filterMap row).rtake keep) := by
  induction h generalizing fuel seen l with
  | done h =>
    obtain ⟨fuel, rfl⟩ := Nat.exists_eq_succ_of_ne_zero (Nat.ne_zero_of_lt hfuel)
    unfold hydrateLoop
    rw [h]
    dsimp only
    rw [if_pos rfl, Rounds.scanned, List.flatten_nil, List.filterMap_nil, List.append_nil]
  | @round p p' batch rounds h hne hrest ih =>
    obtain ⟨fuel, rfl⟩ := Nat.exists_eq_succ_of_ne_zero (Nat.ne_zero_of_lt hfuel)
    have hrounds : rounds.length < fuel := Nat.lt_of_succ_lt_succ hfuel
    unfold hydrateLoop Rounds.scanned
    rw [h]
    dsimp only
    rw [if_neg hne, foldl_pushRow, List.flatten_cons, List.filterMap_append, ← List.append_assoc]
    split
    · rw [List.flatten_nil, List.filterMap_nil, List.append_nil]
    · exact ih hrounds _

theorem hydrateRecent_eq {js : JetStream} {st : Persisted} {hit : String → Bool} {subject : String} {n : Nat}
    {rounds : List (List Message)} (h : Served js st hit subject n rounds) (hlast : st.last ≠ 0) :
    hydrateRecent js subject n =
      .ok (((Rounds.scanned (windowOf n) 0 rounds).flatten.filterMap row).rtake (keepOf n)) := by
  obtain ⟨p, hp, hdelivers⟩ := h.pulls
  unfold hydrateRecent
  rw [h.state]
  dsimp only [Except.toOption, Option.getD_some]
  rw [if_neg hlast, hp]
  have hloop := @hydrateLoop_eq (windowOf n) (keepOf n) _ 0 p rounds hdelivers (Nat.lt_succ_of_le hdelivers.length_le) []
  rw [List.rtake_nil, List.nil_append] at hloop
  exact hloop

namespace Persisted
variable (st : Persisted) (hit : String → Bool) (n : Nat)

theorem windowOf_pos : 0 < windowOf n := by
  unfold windowOf
  omega

theorem keepOf_pos : 0 < keepOf n := by
  unfold keepOf
  omega

/-- The message just before the window, if it matches. -/
def AtEdge (m : Stored) : Prop := m ∈ st.messages ∧ hit m.subject = true ∧ m.seq + windowOf n = st.last

theorem since_start :
    (st.since hit (startOf st.last n) = st.inWindow hit n ∧ ∀ m, ¬ st.AtEdge hit n m) ∨
      ∃ x, st.AtEdge hit n x ∧ st.since hit (startOf st.last n) = x :: st.inWindow hit n ∧
        ∀ m, st.AtEdge hit n m → m = x := by
  have hwindow := windowOf_pos n
  unfold inWindow startOf
  by_cases hlong : windowOf n < st.last
  · have hmax : max (st.last - windowOf n) 1 = st.last - windowOf n := by omega
    have hedge : ∀ m, st.AtEdge hit n m → m ∈ st.since hit (st.last - windowOf n) ∧
        m ∉ st.since hit (st.last - windowOf n + 1) := by
      rintro m ⟨hm, hp, hseq⟩
      refine ⟨List.mem_filter.mpr ⟨hm, ?_⟩, fun hin => ?_⟩
      · rw [hp, decide_eq_true (by omega)]
        rfl
      · have hge := (Bool.and_eq_true_iff.mp (List.mem_filter.mp hin).2).2
        have hge := of_decide_eq_true hge
        omega
    rw [hmax]
    rcases Rounds.filter_from st.ordered (fun m => hit m.subject) (st.last - windowOf n) with
      hfrom | ⟨x, hx, hp, hseq, hfrom⟩
    · have hsame : st.since hit (st.last - windowOf n) = st.since hit (st.last - windowOf n + 1) := hfrom
      refine .inl ⟨hsame, fun m hm => ?_⟩
      obtain ⟨hin, hout⟩ := hedge m hm
      exact hout (hsame ▸ hin)
    · have hcons : st.since hit (st.last - windowOf n) = x :: st.since hit (st.last - windowOf n + 1) := hfrom
      refine .inr ⟨x, ⟨hx, hp, by omega⟩, hcons, fun m hm => ?_⟩
      obtain ⟨hin, hout⟩ := hedge m hm
      rw [hcons] at hin
      exact (List.mem_cons.mp hin).resolve_right hout
  · -- the stream is no longer than the window
    left
    have hmax : max (st.last - windowOf n) 1 = st.last - windowOf n + 1 := by omega
    rw [hmax]
    refine ⟨rfl, ?_⟩
    rintro m ⟨hm, -, hseq⟩
    have hone := (st.within m hm).1
    omega

theorem length_inWindow : (st.inWindow hit n).length ≤ windowOf n := by
  have hord : (st.inWindow hit n).Pairwise fun a b => a.seq < b.seq := st.ordered.filter _
  have hbetween : ∀ m ∈ st.inWindow hit n, st.last - windowOf n + 1 ≤ m.seq ∧ m.seq ≤ st.last := by
    intro m hm
    obtain ⟨hm, hin⟩ := List.mem_filter.mp hm
    exact ⟨of_decide_eq_true (Bool.and_eq_true_iff.mp hin).2, (st.within m hm).2⟩
  have hlen := Rounds.length_le_of_between hord hbetween
  omega

theorem rows_cons_none {m : Stored} (h : row m.deliver = none) (ms : List Stored) : rows (m :: ms) = rows ms :=
  List.filterMap_cons_none h

theorem rows_cons_some {m : Stored} {r : Row} (h : row m.deliver = some r) (ms : List Stored) :
    rows (m :: ms) = r :: rows ms := List.filterMap_cons_some h

theorem rows_append (ms ms' : List Stored) : rows (ms ++ ms') = rows ms ++ rows ms' := List.filterMap_append ..

theorem rows_deliver (ms : List Stored) : (ms.map Stored.deliver).filterMap row = rows ms := List.filterMap_map ..

theorem row_seq {m : Stored} {r : Row} (h : row m.deliver = some r) : r.1 = m.seq := by
  obtain ⟨v, -, rfl⟩ := Option.map_eq_some_iff.mp h
  rfl

theorem rtake_rows_since :
    (rows (st.since hit (startOf st.last n))).rtake (keepOf n) = (rows (st.inWindow hit n)).rtake (keepOf n) ↔
      ∀ m, st.AtEdge hit n m → (row m.deliver).isSome = true → keepOf n ≤ (rows (st.inWindow hit n)).length := by
  rcases st.since_start hit n with ⟨hsame, hnone⟩ | ⟨x, hx, hcons, hunique⟩
  · rw [hsame]
    exact iff_of_true rfl fun m hm => absurd hm (hnone m)
  · rw [hcons]
    cases hrow : row x.deliver with
    | none =>
      rw [rows_cons_none hrow]
      refine iff_of_true rfl fun m hm hsome => ?_
      rw [hunique m hm, hrow] at hsome
      cases hsome
    | some r =>
      rw [rows_cons_some hrow, Rounds.rtake_cons_eq_iff]
      constructor
      · intro h m _ _
        exact h
      · intro h
        exact h x hx (by rw [hrow]; rfl)

theorem rtake_rows_ne {ms : List Stored} {m : Stored} {r : Row} (hms : st.since hit (startOf st.last n) = ms ++ [m])
    (hlong : ms ≠ []) (hrow : row m.deliver = some r) :
    (rows ms).rtake (keepOf n) ≠ (rows (st.inWindow hit n)).rtake (keepOf n) := by
  have hlast : ∃ front, st.inWindow hit n = front ++ [m] := by
    rcases st.since_start hit n with ⟨hsame, -⟩ | ⟨x, -, hcons, -⟩
    · exact ⟨ms, hsame.symm.trans hms⟩
    · obtain ⟨y, front, rfl⟩ := List.exists_cons_of_ne_nil hlong
      rw [hcons] at hms
      exact ⟨front, (List.cons.inj hms).2⟩
  obtain ⟨front, hfront⟩ := hlast
  intro heq
  have hin : r ∈ (rows (st.inWindow hit n)).rtake (keepOf n) := by
    rw [hfront, rows_append, rows_cons_some hrow]
    exact Rounds.mem_rtake_concat (keepOf_pos n) _ _
  rw [← heq] at hin
  obtain ⟨m', hm', hrow'⟩ := List.mem_filterMap.mp (Rounds.mem_of_mem_rtake hin)
  have hord : (ms ++ [m]).Pairwise fun a b => a.seq < b.seq := by
    rw [← hms]
    exact st.ordered.filter _
  have hlt := (List.pairwise_append.mp hord).2.2 m' hm' m (List.mem_singleton_self m)
  rw [← row_seq hrow, row_seq hrow'] at hlt
  exact Nat.lt_irrefl _ hlt

theorem rtake_rows_dropLast (hlong : 1 < (st.since hit (startOf st.last n)).length) :
    (rows (st.since hit (startOf st.last n)).dropLast).rtake (keepOf n) = (rows (st.inWindow hit n)).rtake (keepOf n) ↔
      (∀ m, st.AtEdge hit n m → (row m.deliver).isSome = true → keepOf n ≤ (rows (st.inWindow hit n)).length) ∧
        ∀ m, (st.since hit (startOf st.last n)).getLast? = some m → ¬ (row m.deliver).isSome = true := by
  rcases List.eq_nil_or_concat (st.since hit (startOf st.last n)) with hnil | ⟨ms, m, hms⟩
  · rw [hnil] at hlong
    exact absurd hlong (Nat.not_lt_zero _)
  · rw [List.concat_eq_append] at hms
    have hne : ms ≠ [] := by
      rintro rfl
      rw [hms] at hlong
      exact Nat.lt_irrefl 1 hlong
    have hlast : (st.since hit (startOf st.last n)).getLast? = some m := by
      rw [hms]
      exact List.getLast?_concat
    have hdrop : (st.since hit (startOf st.last n)).dropLast = ms := by
      rw [hms]
      exact List.dropLast_concat
    rw [hdrop, hlast]
    cases hrow : row m.deliver with
    | none =>
      have hrows : rows ms = rows (st.since hit (startOf st.last n)) := by
        rw [hms, rows_append, rows_cons_none hrow]
        exact (List.append_nil _).symm
      rw [hrows, rtake_rows_since]
      refine ⟨fun hedge => ⟨hedge, fun m' hm' => ?_⟩, fun hboth => hboth.1⟩
      rw [← Option.some.inj hm', hrow]
      exact Bool.false_ne_true
    | some r =>
      refine iff_of_false (st.rtake_rows_ne hit n hms hne hrow) fun hboth => hboth.2 m rfl ?_
      rw [hrow]
      rfl

theorem since_of_last_zero (hlast : st.last = 0) (start : Nat) : st.since hit start = [] := by
  refine List.filter_eq_nil_iff.mpr fun m hm => ?_
  have hseq := st.within m hm
  omega

end Persisted

section
variable {js : JetStream} {st : Persisted} {hit : String → Bool} {subject : String} {n : Nat} {rounds : List (List Message)}
open Persisted

theorem Served.length_since (h : Served js st hit subject n rounds) :
    rounds.flatten.length = (st.since hit (startOf st.last n)).length := by
  rw [h.matching, List.length_map]

theorem Served.long_of_short (h : Served js st hit subject n rounds)
    (hbudget : ¬ rounds.dropLast.flatten.length < windowOf n) : 1 < (st.since hit (startOf st.last n)).length := by
  obtain ⟨p, -, hdelivers⟩ := h.pulls
  have hwindow := windowOf_pos n
  have hlong := Rounds.length_dropLast_lt (fun b hb => (hdelivers.rounds_le b hb).1) hwindow hbudget
  rw [h.length_since] at hlong
  omega

theorem hydrateRecent_short (h : Served js st hit subject n rounds) (hlast : st.last ≠ 0)
    (hbudget : ¬ rounds.dropLast.flatten.length < windowOf n) :
    hydrateRecent js subject n = .ok ((rows (st.since hit (startOf st.last n)).dropLast).rtake (keepOf n)) := by
  obtain ⟨p, -, hdelivers⟩ := h.pulls
  have hlen : rounds.flatten.length ≤ windowOf n + 1 := by
    have hwindow := st.length_inWindow hit n
    rw [h.length_since]
    rcases st.since_start hit n with ⟨hsame, -⟩ | ⟨x, -, hcons, -⟩
    · rw [hsame]
      omega
    · rw [hcons, List.length_cons]
      omega
  rw [hydrateRecent_eq h hlast,
    Rounds.scanned_eq_dropLast (fun b hb => (hdelivers.rounds_le b hb).1) (windowOf_pos n) (by omega) (by omega),
    h.matching, ← List.map_dropLast, rows_deliver]

end

open Persisted in
/-- Hydration returns the last events of the window exactly when an event just before the window is
crowded out by those in it, and the rounds before the one that brings the newest match, if that is
an event, do not use up the window. -/
theorem hydrates_newest_iff {js : JetStream} {st : Persisted} {hit : String → Bool} {subject : String} {n : Nat}
    {rounds : List (List Message)} (h : Served js st hit subject n rounds) :
    hydrateRecent js subject n = .ok ((rows (st.inWindow hit n)).rtake (keepOf n)) ↔
      (∀ m, st.AtEdge hit n m → (row m.deliver).isSome = true → keepOf n ≤ (rows (st.inWindow hit n)).length) ∧
        ∀ m, (st.since hit (startOf st.last n)).getLast? = some m → (row m.deliver).isSome = true →
          rounds.dropLast.flatten.length < windowOf n := by
  by_cases hlast : st.last = 0
  · have hempty : hydrateRecent js subject n = .ok [] := by
      unfold hydrateRecent
      rw [h.state, hlast]
      rfl
    refine iff_of_true ?_ ⟨fun m hm => ?_, fun m hm => ?_⟩
    · rw [hempty, inWindow, since_of_last_zero st hit hlast, rows, List.filterMap_nil, List.rtake_nil]
    · have hseq := hm.2.2
      have hwindow := windowOf_pos n
      omega
    · rw [since_of_last_zero st hit hlast] at hm
      cases hm
  · by_cases hbudget : rounds.dropLast.flatten.length < windowOf n
    · rw [hydrateRecent_eq h hlast, Except.ok.injEq, Rounds.scanned_eq_self (by omega), h.matching, rows_deliver,
        rtake_rows_since]
      exact ⟨fun hedge => ⟨hedge, fun _ _ _ => hbudget⟩, fun hboth => hboth.1⟩
    · rw [hydrateRecent_short h hlast hbudget, Except.ok.injEq, rtake_rows_dropLast st hit n (h.long_of_short hbudget)]
      exact and_congr_right' (forall_congr' fun m => forall_congr' fun _ => ⟨fun hno hyes => absurd hyes hno,
        fun hyes hsome => hbudget (hyes hsome)⟩)

def tick (k : Nat) : Stored := ⟨k, "vx.in", bytesOf "true"⟩

theorem row_tick (k : Nat) : row (tick k).deliver = some (k, "vx.in", .bool true) := by
  have htrue : fromStr "true" = some (.bool true) := @fromStr_render ascii 0 (.bool true) (.bool 0 true) (by decide)
  have hdata : fromSlice (tick k).deliver.data = some (.bool true) := (fromSlice_bytesOf "true").trans htrue
  unfold row
  rw [hdata]
  rfl

def ticks (count : Nat) : Persisted where
  messages := (List.range' 1 count).map tick
  last := count
  ordered := List.pairwise_map.mpr (List.pairwise_lt_range' ..)
  within m hm := by
    obtain ⟨k, hk, rfl⟩ := List.mem_map.mp hm
    have hmem := List.mem_range'_1.mp hk
    change 1 ≤ k ∧ k ≤ count
    omega

def tickRound (start count : Nat) : List Message := (List.range' start count).map fun k => (tick k).deliver

def inboxOf (ms : List Message) : List (Option Arrival) := ms.map fun m => some (.message m)

def tickStream (count : Nat) : JetStream :=
  ⟨.ok count, fun _ start => .ok ⟨inboxOf (tickRound start (count + 1 - start)), none, []⟩⟩

theorem since_ticks (count start : Nat) (h : start ≤ 1) : (ticks count).since (· == "vx.in") start = (ticks count).messages := by
  refine List.filter_eq_self.mpr fun m hm => ?_
  have hseq := ((ticks count).within m hm).1
  obtain ⟨k, -, rfl⟩ := List.mem_map.mp hm
  rw [decide_eq_true (by omega : start ≤ (tick k).seq)]
  rfl

theorem deliver_ticks (count : Nat) : (ticks count).messages.map Stored.deliver = tickRound 1 count := by
  unfold ticks tickRound
  rw [List.map_map]
  rfl

theorem tickRound_append (start a b : Nat) : tickRound start (a + b) = tickRound start a ++ tickRound (start + a) b := by
  unfold tickRound
  rw [← List.map_append, List.range'_append_1]

theorem served_two_ticks : Served (tickStream 2) (ticks 2) (· == "vx.in") "vx.in" 10 [tickRound 1 2] where
  state := rfl
  pulls := by
    have htwo : Delivers ⟨inboxOf (tickRound 1 2), none, []⟩ [tickRound 1 2] :=
      .round rfl (List.cons_ne_nil _ _) (.done rfl)
    have hstart : startOf (ticks 2).last 10 = 1 := by decide
    rw [hstart]
    exact ⟨_, rfl, htwo⟩
  matching := by
    rw [since_ticks 2 _ (by decide), deliver_ticks]
    exact List.flatten_singleton

theorem hydrates_newest_two_ticks :
    Served (tickStream 2) (ticks 2) (· == "vx.in") "vx.in" 10 [tickRound 1 2] ∧
      hydrateRecent (tickStream 2) "vx.in" 10 =
        .ok ((Persisted.rows ((ticks 2).inWindow (· == "vx.in") 10)).rtake (keepOf 10)) := by
  refine ⟨served_two_ticks, (hydrates_newest_iff served_two_ticks).mpr ⟨fun m hm => ?_, fun _ _ _ => by decide⟩⟩
  have hseq : m.seq + 256 = 2 := hm.2.2
  omega

theorem delivers_ticks {start count : Nat} {rounds : List (List Message)}
    (h : Delivers ⟨inboxOf (tickRound (start + 64) count), none, []⟩ rounds) :
    Delivers ⟨inboxOf (tickRound start (64 + count)), none, []⟩ (tickRound start 64 :: rounds) := by
  have hlen : (tickRound start 64).length = pullBatch := by
    rw [tickRound, List.length_map, List.length_range']
    rfl
  have hround := fetchRound_full hlen (inboxOf (tickRound (start + 64) count))
  refine .round ?_ (fun hnil => ?_) h
  · rw [tickRound_append, inboxOf, List.map_append]
    exact hround
  · rw [hnil] at hlen
    cases hlen

def tickRounds : List (List Message) :=
  [tickRound 1 64, tickRound 65 64, tickRound 129 64, tickRound 193 64, tickRound 257 1]

theorem flatten_tickRounds : tickRounds.flatten = tickRound 1 257 := by
  have hsplit : tickRound 1 (64 + (64 + (64 + (64 + 1)))) = tickRounds.flatten := by
    rw [tickRound_append, tickRound_append, tickRound_append, tickRound_append, tickRounds, List.flatten_cons, List.flatten_cons,
      List.flatten_cons, List.flatten_cons, List.flatten_singleton]
  exact hsplit.symm

theorem startOf_ticks : startOf (ticks 257).last 10 = 1 := by decide

theorem served_ticks : Served (tickStream 257) (ticks 257) (· == "vx.in") "vx.in" 10 tickRounds where
  state := rfl
  pulls := by
    have hone : Delivers ⟨inboxOf (tickRound 257 1), none, []⟩ [tickRound 257 1] :=
      .round rfl (List.cons_ne_nil _ _) (.done rfl)
    rw [startOf_ticks]
    exact ⟨_, rfl, delivers_ticks (delivers_ticks (delivers_ticks (delivers_ticks hone)))⟩
  matching := by
    rw [startOf_ticks, since_ticks 257 1 (Nat.le_refl 1), flatten_tickRounds]
    exact (deliver_ticks 257).symm

/-- Of 257 events, the newest is not among the ten returned. -/
theorem hydration_misses_newest :
    Served (tickStream 257) (ticks 257) (· == "vx.in") "vx.in" 10 tickRounds ∧
      hydrateRecent (tickStream 257) "vx.in" 10 ≠
        .ok ((Persisted.rows ((ticks 257).inWindow (· == "vx.in") 10)).rtake (keepOf 10)) := by
  refine ⟨served_ticks, fun heq => ?_⟩
  have hbudget : ¬ tickRounds.dropLast.flatten.length < windowOf 10 := by
    have hdrop : tickRounds.dropLast = [tickRound 1 64, tickRound 65 64, tickRound 129 64, tickRound 193 64] := rfl
    rw [hdrop]
    simp only [List.flatten_cons, List.flatten_nil, List.length_append, List.length_nil, tickRound, List.length_map,
      List.length_range']
    decide
  have hlast : (ticks 257).since (· == "vx.in") (startOf (ticks 257).last 10) = (List.range' 1 256).map tick ++ [tick 257] := by
    rw [startOf_ticks, since_ticks 257 1 (Nat.le_refl 1)]
    have hsplit : List.range' 1 (256 + 1) = List.range' 1 256 ++ [257] := List.range'_1_concat ..
    change (List.range' 1 (256 + 1)).map tick = _
    rw [hsplit, List.map_append]
    rfl
  rw [hydrateRecent_short served_ticks (by decide) hbudget, hlast, List.dropLast_concat] at heq
  exact Persisted.rtake_rows_ne (ticks 257) _ 10 hlast (by simp) (row_tick 257) (Except.ok.inj heq)

end Vejas.Runtime
