import Vejas.Connectors.Wire
import Vejas.Json.Reading
import Vejas.Lib.Ledger
import Vejas.Lib.Transition

/-! The driver `exec-stream-source`: each JSON line a child prints is published, and the offset
after the last one published is written to the offset store from time to time. The next child gets
the stored offset to resume at, if one is stored and the store answers. -/

namespace Vejas.ExecStream
open Rust Json Vjs Connectors

structure Config where
  offsetField : String
  offsetStart : String
  /-- Whether `OFFSET_KV` is set and its store was opened. -/
  stored : Bool

def offsetOf (cfg : Config) (rec : Value) : Option Int64 :=
  match rec.get cfg.offsetField with
  | some (.number n) => n.asI64
  | _ => none

def record (line : String) : Option Value :=
  if trim line = "" then none else fromStr (trim line)

def lineOffset (cfg : Config) (line : String) : Option Int64 := (record line).bind (offsetOf cfg)

/-- What the current child has done: the offsets it printed, those taken from the channel, and of
these the ones whose publish failed. -/
structure Child where
  printed : List Int64
  seen : List Int64
  failed : List Int64

inductive Entry
  | printed (off : Int64)
  | published (off : Int64)
  | wrote (c : Int64)
  deriving DecidableEq

inductive Pc
  | top
  | spawning
  | loopTop
  | cadence
  | receiving
  | draining
  | waiting
  | sleeping
  | returned (r : Except String Unit)

/-- A driver, over its runs. `pending` is the offset after the last record published, `committed` the
one last written; `reading` tells whether the reader still takes lines. -/
structure Stream where
  pc : Pc
  store : Option String
  resume : Option String
  pending : Option Int64
  committed : Option Int64
  channel : List String
  reading : Bool
  now : Child
  log : List Entry

inductive Received
  | line (published : Bool)
  | timeout
  | disconnected

inductive Event
  | alive (b : Bool)
  | spawn (read : Bool) (r : Except String Unit)
  | print (line : Bytes)
  | cadence (due : Bool) (put : Bool)
  | recv (r : Received)
  | flush (put : Bool)
  | joined (alive : Bool)
  | woken
  /-- `supervise_connector` runs the driver again -/
  | rerun

def Child.fresh : Child := ⟨[], [], []⟩

namespace Stream

def start (store : Option String) : Stream := ⟨.top, store, none, none, none, [], false, .fresh, []⟩

def offsetGet (s : Stream) (read : Bool) : Option String :=
  if read then (s.store.map trim).filter (· ≠ "") else none

def offsetPut (s : Stream) (c : Int64) (put : Bool) : Stream :=
  { s with
    store := if put then some (toString c.toInt) else s.store
    log := .wrote c :: s.log }

def commit (cfg : Config) (s : Stream) (put : Bool) : Stream :=
  match s.pending with
  | some c =>
    if cfg.stored ∧ s.pending ≠ s.committed then { s.offsetPut c put with committed := some c } else s
  | none => s

def print (cfg : Config) (s : Stream) (line : Bytes) : Stream :=
  if isUtf8 line then
    { s with
      channel := if s.reading then s.channel ++ [textOf line] else s.channel
      now := { s.now with printed := s.now.printed ++ (lineOffset cfg (textOf line)).toList }
      log := ((lineOffset cfg (textOf line)).map .printed).toList ++ s.log }
  else { s with reading := false }

def handle (cfg : Config) (s : Stream) (line : String) (published : Bool) : Stream :=
  match record line with
  | none => s
  | some rec =>
    match offsetOf cfg rec with
    | none => s
    | some off =>
      let now := { s.now with seen := s.now.seen ++ [off] }
      if published then
        { s with
          now
          log := .published off :: s.log
          pending := if cfg.stored then some (off + 1) else s.pending }
      else { s with now := { now with failed := now.failed ++ [off] } }

def step (cfg : Config) (s : Stream) : Event → Option Stream
  | .alive b =>
    match s.pc with
    | .top => some { s with pc := if b then .spawning else .returned (.ok ()) }
    -- a stop kills the child
    | .loopTop => some { s with pc := if b then .cadence else .draining }
    | _ => none
  | .spawn read r =>
    match s.pc with
    | .spawning =>
      match r with
      | .error e => some { s with pc := .returned (.error e) }
      | .ok () => some { s with
          pc := .loopTop
          resume := if cfg.stored then some ((s.offsetGet read).getD cfg.offsetStart) else none
          pending := none
          committed := none
          channel := []
          reading := true
          now := .fresh }
    | _ => none
  | .print line =>
    match s.pc with
    | .top => none
    | .spawning => none
    | .sleeping => none
    | .returned _ => none
    | _ => some (s.print cfg line)
  | .cadence due put =>
    match s.pc with
    | .cadence => some { (if due then s.commit cfg put else s) with pc := .receiving }
    | _ => none
  | .recv r =>
    match s.pc, r, s.channel with
    | .receiving, .line published, line :: rest =>
      some { ({ s with channel := rest }.handle cfg line published) with pc := .loopTop }
    | .receiving, .timeout, _ => some { s with pc := .loopTop }
    | .receiving, .disconnected, [] => some { s with pc := .draining }
    | _, _, _ => none
  | .flush put =>
    match s.pc with
    | .draining => some { s.commit cfg put with pc := .waiting, committed := s.committed }
    | _ => none
  | .joined alive =>
    match s.pc with
    | .waiting => some { s with pc := if alive then .sleeping else .returned (.ok ()) }
    | _ => none
  | .woken =>
    match s.pc with
    | .sleeping => some { s with pc := .top }
    | _ => none
  | .rerun =>
    match s.pc with
    | .returned _ => some { s with pc := .top }
    | _ => none

def system (cfg : Config) (store : Option String) : Transition Stream Event :=
  .ofStep (step cfg) (· = start store)

def Increasing (cfg : Config) (s : Stream) : Event → Prop
  | .print line => ∀ off, isUtf8 line = true → lineOffset cfg (textOf line) = some off →
      ∀ o ∈ s.now.printed, o < off
  | _ => True

/-- When a record is published: the records of the same child that were not are on the bus from an
earlier child, and what earlier children printed below it is on the bus or was printed again. -/
def Steady (cfg : Config) (s : Stream) : Event → Prop
  | .recv (.line true) => cfg.stored = true → ∀ line rest off, s.channel = line :: rest →
      lineOffset cfg line = some off →
      (∀ o ∈ s.now.failed, .published o ∈ s.log) ∧
        ∀ o, .printed o ∈ s.log → o < off → .published o ∈ s.log ∨ o ∈ s.now.printed
  | _ => True

end Stream

def Covers (log : List Entry) (c : Int64) : Prop := ∀ o, .printed o ∈ log → o < c → .published o ∈ log

def Due (log : List Entry) : Entry → Prop
  | .wrote c => Covers log c
  | _ => True

theorem succ_le_of_lt {o o' : Int64} (h : o < o') : ¬ o' < o + 1 := by
  rw [Int64.lt_iff_toInt_lt] at h ⊢
  have hlo := o.le_toInt
  have hhi := o'.toInt_lt
  rw [Int64.toInt_add]
  have hone : (1 : Int64).toInt = 1 := by decide
  rw [hone, Int.bmod_eq_of_le (by omega) (by omega)]
  omega

theorem Covers.print {log : List Entry} {c off : Int64} (h : Covers log c) (hge : ¬ off < c) :
    Covers (.printed off :: log) c := by
  intro o ho hlt
  rcases List.mem_cons.mp ho with heq | ho
  · cases heq
    exact absurd hlt hge
  · exact List.mem_cons_of_mem _ (h o ho hlt)

theorem Covers.write {log : List Entry} {c : Int64} (h : Covers log c) {e : Entry}
    (he : ∀ off, e ≠ .printed off) : Covers (e :: log) c := by
  intro o ho hlt
  rcases List.mem_cons.mp ho with heq | ho
  · exact absurd heq.symm (he o)
  · exact List.mem_cons_of_mem _ (h o ho hlt)

def Entry.offset? : Entry → Option Int64
  | .printed off => some off
  | _ => none

theorem mem_printed {log : List Entry} {off : Int64} : off ∈ log.filterMap Entry.offset? ↔ .printed off ∈ log := by
  rw [List.mem_filterMap]
  constructor
  · rintro ⟨e, he, hoff⟩
    cases e with
    | printed o =>
      cases hoff
      exact he
    | published o => cases hoff
    | wrote c => cases hoff
  · exact fun h => ⟨_, h, rfl⟩

-- the quantifiers are over what stands in the lists, not over all offsets
instance decidableCovers (log : List Entry) (c : Int64) : Decidable (Covers log c) :=
  decidable_of_iff ((log.filterMap Entry.offset?).all (fun o => decide (o < c → .published o ∈ log)) = true) (by
    simp only [List.all_eq_true, decide_eq_true_eq]
    exact ⟨fun h o ho => h o (mem_printed.mpr ho), fun h o ho => h o (mem_printed.mp ho)⟩)

namespace Stream

instance decidableIncreasing (cfg : Config) (s : Stream) : ∀ e, Decidable (s.Increasing cfg e)
  | .print line => decidable_of_iff
      (isUtf8 line = true → ((lineOffset cfg (textOf line)).all fun off => s.now.printed.all fun o => decide (o < off)) = true) (by
      simp only [Option.all_eq_true, List.all_eq_true, decide_eq_true_eq]
      exact ⟨fun h off hutf hoff => h hutf off hoff, fun h hutf off hoff => h off hutf hoff⟩)
  | .alive _ | .spawn .. | .cadence .. | .recv _ | .flush _ | .joined _ | .woken | .rerun => isTrue trivial

instance decidableSteady (cfg : Config) (s : Stream) : ∀ e, Decidable (s.Steady cfg e)
  | .recv (.line true) => decidable_of_iff
      (cfg.stored = true → ((s.channel.head?.bind (lineOffset cfg)).all fun off =>
        s.now.failed.all (fun o => decide (.published o ∈ s.log)) && (s.log.filterMap Entry.offset?).all fun o =>
          decide (o < off → .published o ∈ s.log ∨ o ∈ s.now.printed)) = true) (by
      simp only [Option.all_eq_true, List.all_eq_true, Bool.and_eq_true, decide_eq_true_eq]
      constructor
      · intro h hst line rest off hline hoff
        obtain ⟨hfailed, hprinted⟩ := h hst off (by rw [hline]; exact hoff)
        exact ⟨hfailed, fun o ho => hprinted o (mem_printed.mpr ho)⟩
      · intro h hst off hoff
        obtain ⟨line, hline, hoff⟩ := Option.bind_eq_some_iff.mp hoff
        obtain ⟨rest, hrest⟩ := List.head?_eq_some_iff.mp hline
        obtain ⟨hfailed, hprinted⟩ := h hst line rest off hrest hoff
        exact ⟨hfailed, fun o ho => hprinted o (mem_printed.mp ho)⟩)
  | .recv (.line false) | .recv .timeout | .recv .disconnected => isTrue trivial
  | .alive _ | .spawn .. | .print _ | .cadence .. | .flush _ | .joined _ | .woken | .rerun => isTrue trivial

/-- Of what the child printed, part was taken, part waits in the channel and the rest will not be
read; every record taken was published or not; and the offset to be written next stands after a
record of this child, with all below it on the bus. -/
structure Inv (cfg : Config) (s : Stream) : Prop where
  order : s.now.printed.Pairwise (· < ·)
  parts : ∃ lost, s.now.printed = s.now.seen ++ s.channel.filterMap (lineOffset cfg) ++ lost ∧
    (s.reading = true → lost = [])
  seen : ∀ o ∈ s.now.seen, .published o ∈ s.log ∨ o ∈ s.now.failed
  pending : ∀ c, s.pending = some c → (∃ o ∈ s.now.printed, c = o + 1) ∧ Covers s.log c
  earned : Ledger.Earned Due s.log

variable {cfg : Config} {s s' : Stream}

theorem Inv.moved (h : s.Inv cfg) (pc : Pc) : Inv cfg { s with pc := pc } := { h with }

theorem inv_start (store : Option String) : (start store).Inv cfg where
  order := .nil
  parts := ⟨[], rfl, fun _ => rfl⟩
  seen := nofun
  pending := nofun
  earned := trivial

theorem Inv.print (h : s.Inv cfg) {line : Bytes} (hinc : s.Increasing cfg (.print line)) :
    (s.print cfg line).Inv cfg := by
  unfold Stream.print
  split
  next hutf =>
    cases hoff : lineOffset cfg (textOf line) with
    | none =>
      rw [Option.toList_none, List.append_nil]
      refine { h with parts := ?_ }
      obtain ⟨lost, hparts, hread⟩ := h.parts
      refine ⟨lost, ?_, hread⟩
      dsimp only
      split
      · rw [List.filterMap_append, List.filterMap_cons_none hoff, List.filterMap_nil, List.append_nil]
        exact hparts
      · exact hparts
    | some off =>
      have hlast := hinc off hutf hoff
      rw [Option.toList_some]
      refine ⟨?_, ?_, fun o ho => ?_, fun c hc => ?_, ⟨trivial, h.earned⟩⟩
      · refine List.pairwise_append.mpr ⟨h.order, List.pairwise_singleton .., ?_⟩
        intro o ho o' ho'
        rw [List.mem_singleton.mp ho']
        exact hlast o ho
      · obtain ⟨lost, hparts, hread⟩ := h.parts
        dsimp only
        cases hr : s.reading with
        | true =>
          refine ⟨[], ?_, fun _ => rfl⟩
          rw [if_pos rfl, List.filterMap_append, List.filterMap_cons_some hoff, List.filterMap_nil,
            hparts, hread hr]
          simp
        | false =>
          refine ⟨lost ++ [off], ?_, nofun⟩
          rw [if_neg nofun, hparts]
          simp
      · exact (h.seen o ho).imp_left (List.mem_cons_of_mem _)
      · -- the new record is above the one the offset stands after
        obtain ⟨⟨o, ho, rfl⟩, hcov⟩ := h.pending c hc
        exact ⟨⟨o, List.mem_append_left _ ho, rfl⟩, hcov.print (succ_le_of_lt (hlast o ho))⟩
  next =>
    obtain ⟨lost, hparts, -⟩ := h.parts
    exact { h with parts := ⟨lost, hparts, nofun⟩ }

theorem Inv.offsetPut (h : s.Inv cfg) {c : Int64} (hc : s.pending = some c) (put : Bool) :
    (s.offsetPut c put).Inv cfg := by
  refine ⟨h.order, h.parts, fun o ho => ?_, fun d hd => ?_, ⟨(h.pending c hc).2, h.earned⟩⟩
  · exact (h.seen o ho).imp_left (List.mem_cons_of_mem _)
  · obtain ⟨hlast, hcov⟩ := h.pending d hd
    exact ⟨hlast, hcov.write nofun⟩

theorem Inv.commit (h : s.Inv cfg) (put : Bool) : (s.commit cfg put).Inv cfg := by
  unfold Stream.commit
  split
  next c hc =>
    split
    · exact { h.offsetPut hc put with }
    · exact h
  next => exact h

theorem Inv.handle (h : s.Inv cfg) {line : String} {rest : List String} {published : Bool}
    (hch : s.channel = line :: rest) (hsteady : s.Steady cfg (.recv (.line published))) :
    ({ s with channel := rest }.handle cfg line published).Inv cfg := by
  obtain ⟨lost, hparts, hread⟩ := h.parts
  rw [hch] at hparts
  have hquiet : lineOffset cfg line = none → Inv cfg { s with channel := rest } := by
    intro hnone
    rw [List.filterMap_cons_none hnone] at hparts
    exact { h with parts := ⟨lost, hparts, hread⟩ }
  unfold Stream.handle
  split
  next hrec => exact hquiet (by rw [lineOffset, hrec]; rfl)
  next rec hrec =>
    split
    next hnone => exact hquiet (by rw [lineOffset, hrec]; exact hnone)
    next off hsome =>
      have hoff : lineOffset cfg line = some off := by
        rw [lineOffset, hrec]
        exact hsome
      rw [List.filterMap_cons_some hoff] at hparts
      have hparts' : s.now.printed = (s.now.seen ++ [off]) ++ rest.filterMap (lineOffset cfg) ++ lost := by
        rw [hparts]
        simp
      have hmem : off ∈ s.now.printed := by
        rw [hparts]
        simp
      cases published with
      | false =>
        refine ⟨h.order, ⟨lost, hparts', hread⟩, fun o ho => ?_, h.pending, h.earned⟩
        rcases List.mem_append.mp ho with ho | ho
        · exact (h.seen o ho).imp_right (List.mem_append_left _)
        · exact .inr (List.mem_append_right _ ho)
      | true =>
        have hcovers : cfg.stored = true → Covers (.published off :: s.log) (off + 1) := by
          intro hstored o ho hlt
          obtain ⟨hfailed, hearlier⟩ := hsteady hstored line rest off hch hoff
          rcases List.mem_cons.mp ho with heq | ho
          · cases heq
          rcases eq_or_ne o off with rfl | hne
          · exact List.mem_cons_self
          have hbelow : o < off :=
            Int64.lt_of_le_of_ne (Int64.not_lt.mp fun hgt => succ_le_of_lt hgt hlt) hne
          refine List.mem_cons_of_mem _ ((hearlier o ho hbelow).elim id fun hprinted => ?_)
          -- printed by this child below `off`, it was taken before
          have horder := h.order
          rw [hparts', List.append_assoc] at horder hprinted
          rcases List.mem_append.mp hprinted with ho | ho
          · rcases List.mem_append.mp ho with ho | ho
            · exact (h.seen o ho).elim id (hfailed o)
            · exact absurd (List.mem_singleton.mp ho) hne
          · have hgt := (List.pairwise_append.mp horder).2.2 off (by simp) o ho
            exact absurd hbelow (Int64.lt_asymm hgt)
        refine ⟨h.order, ⟨lost, hparts', hread⟩, fun o ho => ?_, fun c hc => ?_, ⟨trivial, h.earned⟩⟩
        · rcases List.mem_append.mp ho with ho | ho
          · exact (h.seen o ho).imp_left (List.mem_cons_of_mem _)
          · rw [List.mem_singleton.mp ho]
            exact .inl List.mem_cons_self
        · have hc : (if cfg.stored = true then some (off + 1) else s.pending) = some c := hc
          split at hc
          next hstored =>
            cases hc
            exact ⟨⟨off, hmem, rfl⟩, hcovers hstored⟩
          next =>
            obtain ⟨hlast, hcov⟩ := h.pending c hc
            exact ⟨hlast, hcov.write nofun⟩

theorem inv_step {a : Event} (h : s.Inv cfg) (hinc : s.Increasing cfg a) (hsteady : s.Steady cfg a)
    (hs : s.step cfg a = some s') : s'.Inv cfg := by
  unfold step at hs
  cases a with
  | print line =>
    dsimp only at hs
    split at hs
    all_goals cases hs
    all_goals exact h.print hinc
  | alive b =>
    dsimp only at hs
    split at hs
    all_goals cases hs
    all_goals exact h.moved _
  | spawn read r =>
    dsimp only at hs
    split at hs
    · cases r with
      | error e =>
        cases hs
        exact h.moved _
      | ok u =>
        cases hs
        exact ⟨.nil, ⟨[], rfl, fun _ => rfl⟩, nofun, nofun, h.earned⟩
    · cases hs
  | cadence due put =>
    dsimp only at hs
    split at hs
    · cases hs
      cases due with
      | true => exact { h.commit put with }
      | false => exact h.moved _
    · cases hs
  | recv r =>
    dsimp only at hs
    split at hs
    next published line rest hpc hch =>
      cases hs
      exact (h.handle hch hsteady).moved _
    next =>
      cases hs
      exact h.moved _
    next =>
      cases hs
      exact h.moved _
    next => cases hs
  | flush put =>
    dsimp only at hs
    split at hs
    · cases hs
      exact { h.commit put with }
    · cases hs
  | joined alive =>
    dsimp only at hs
    split at hs
    · cases hs
      exact h.moved _
    · cases hs
  | woken =>
    dsimp only at hs
    split at hs
    · cases hs
      exact h.moved _
    · cases hs
  | rerun =>
    dsimp only at hs
    split at hs
    · cases hs
      exact h.moved _
    · cases hs

/-- Where every publish is steady, each offset the driver writes, over all its children, has every
record printed below it, by whichever child, on the bus. -/
theorem offset_covers_published {store : Option String}
    (h : (system cfg store).ReachableUnder (fun s a => s.Increasing cfg a ∧ s.Steady cfg a) s) :
    ∀ c pre post, s.log = post ++ .wrote c :: pre → Covers pre c := by
  have hinv : s.Inv cfg := by
    refine Transition.ReachableUnder.invariant (I := Inv cfg) ?_
      (fun _ _ _ hi hc hs => inv_step hi hc.1 hc.2 hs) h
    rintro _ rfl
    exact inv_start store
  exact fun c pre post hlog => hinv.earned.due_below hlog

end Stream

def kafka : Config := ⟨"offset", "end", true⟩

def offsetRecord (n : UInt64) : Value := .object [("offset", .number (.posInt n))]

def offsetLine (n : UInt64) : String := @Value.render ascii (offsetRecord n)

def oneChild (a b : String) (published : Bool) : List Event :=
  [.alive true, .spawn true (.ok ()), .print (bytesOf a), .print (bytesOf b),
    .alive true, .cadence false true, .recv (.line published),
    .alive true, .cadence false true, .recv (.line true),
    .alive true, .cadence true true, .recv .disconnected, .flush true]

def failingChild (a : String) : List Event :=
  [.alive true, .spawn true (.ok ()), .print (bytesOf a),
    .alive true, .cadence false true, .recv (.line false),
    .alive true, .cadence false true, .recv .disconnected, .flush true, .joined true, .woken]

def nextChild (b : String) : List Event :=
  [.alive true, .spawn true (.ok ()), .print (bytesOf b),
    .alive true, .cadence false true, .recv (.line true), .alive true, .cadence true true]

theorem offset_covers_published_oneChild :
    ∃ s, Transition.run (Stream.step kafka) (.start none) (oneChild (offsetLine 5) (offsetLine 6) true) = some s ∧
      s.log = .wrote 7 :: s.log.tail ∧ Covers s.log.tail 7 := by
  have hlog : (Transition.run (Stream.step kafka) (.start none) (oneChild (offsetLine 5) (offsetLine 6) true)).map (·.log) =
      some [.wrote 7, .published 6, .published 5, .printed 6, .printed 5] := by decide +kernel
  obtain ⟨s, hrun, hl⟩ := Option.map_eq_some_iff.mp hlog
  have hmeets : Transition.Meets (fun s e => s.Increasing kafka e ∧ s.Steady kafka e) (Stream.step kafka) (.start none)
      (oneChild (offsetLine 5) (offsetLine 6) true) := by decide +kernel
  have hreach : (Stream.system kafka none).ReachableUnder
      (fun s e => s.Increasing kafka e ∧ s.Steady kafka e) s := .run _ (.init rfl) hmeets hrun
  have htail : s.log = [] ++ .wrote 7 :: s.log.tail := by
    rw [hl]
    rfl
  exact ⟨s, hrun, htail, Stream.offset_covers_published hreach 7 _ [] htail⟩

/-- Records 5 and 6; 5 fails to be published, 6 does not, and the driver writes the offset after 6:
with both from one child, and with 5 the only record of a child that ended with nothing stored, so
that the next one was started at `OFFSET_START`. -/
theorem failed_record_is_skipped :
    (∃ s, Transition.run (Stream.step kafka) (.start none) (oneChild (offsetLine 5) (offsetLine 6) false) = some s ∧
      (Stream.system kafka none).ReachableUnder (fun s e => s.Increasing kafka e) s ∧
      s.log = .wrote 7 :: s.log.tail ∧ ¬ Covers s.log.tail 7) ∧
    ∃ s, Transition.run (Stream.step kafka) (.start none)
        (failingChild (offsetLine 5) ++ nextChild (offsetLine 6)) = some s ∧
      (Stream.system kafka none).ReachableUnder (fun s e => s.Increasing kafka e) s ∧
      s.resume = some "end" ∧ s.log = .wrote 7 :: s.log.tail ∧ ¬ Covers s.log.tail 7 := by
  have hrising : ∀ es s, Transition.Meets (fun s e => s.Increasing kafka e) (Stream.step kafka) (.start none) es →
      Transition.run (Stream.step kafka) (.start none) es = some s →
        (Stream.system kafka none).ReachableUnder (fun s e => s.Increasing kafka e) s :=
    fun es _ hmeets hrun => .run es (.init rfl) hmeets hrun
  constructor
  · have hlog : (Transition.run (Stream.step kafka) (.start none) (oneChild (offsetLine 5) (offsetLine 6) false)).map (·.log) =
        some [.wrote 7, .published 6, .printed 6, .printed 5] := by decide +kernel
    obtain ⟨s, hrun, hl⟩ := Option.map_eq_some_iff.mp hlog
    refine ⟨s, hrun, hrising _ s (by decide +kernel) hrun, by rw [hl]; rfl, ?_⟩
    rw [hl]
    decide
  · have hlog : (Transition.run (Stream.step kafka) (.start none) (failingChild (offsetLine 5) ++ nextChild (offsetLine 6))).map
        (fun s => (s.resume, s.log)) = some (some "end", [.wrote 7, .published 6, .printed 6, .printed 5]) := by decide +kernel
    obtain ⟨s, hrun, hfields⟩ := Option.map_eq_some_iff.mp hlog
    have hl : s.log = [.wrote 7, .published 6, .printed 6, .printed 5] := congrArg Prod.snd hfields
    refine ⟨s, hrun, hrising _ s (by decide +kernel) hrun, congrArg Prod.fst hfields, by rw [hl]; rfl, ?_⟩
    rw [hl]
    decide

end Vejas.ExecStream
