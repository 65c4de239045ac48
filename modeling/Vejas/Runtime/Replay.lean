import Vejas.Lib.Rounds
import Vejas.Runtime.DeadLetters

/-! Bulk replay: the dead letters of a unit, or all of them, go back to the bus one by one, and each
leaves the queue once its publish is through. -/

namespace Vejas.Runtime
open Rust Json Vjs Http Connectors

inductive ReplayAct
  | publish (t : Target) (r : Except String Unit)
  | delete (seq : Nat) (gone : Bool)

/-- What comes of the calls of a replay: the publish of the how manieth letter, and whether the
deletion after it takes effect. -/
structure Calls where
  publish : Nat → Except String Unit
  delete : Nat → Bool

def replayLoop (calls : Calls) : Nat → List Target → List ReplayAct
  | _, [] => []
  | i, t :: ts =>
    if t.subject = "" ∨ t.seq = 0 then replayLoop calls (i + 1) ts
    else
      match calls.publish i with
      | .ok () => .publish t (.ok ()) :: .delete t.seq (calls.delete i) :: replayLoop calls (i + 1) ts
      | .error e => .publish t (.error e) :: replayLoop calls (i + 1) ts

def ReplayAct.replayed : ReplayAct → Bool
  | .publish _ (.ok ()) => true
  | _ => false

def ReplayAct.failure : ReplayAct → Option String
  | .publish t (.error e) => some ("seq " ++ toString t.seq ++ ": " ++ e)
  | _ => none

def dlqReplay (dlq : DlqStream) (calls : Calls) (seq : Option Nat) (unit : Option String) :
    Option Value × List ReplayAct :=
  match replayTargets dlq seq unit with
  | none => (none, [])
  | some ts =>
    let acts := replayLoop calls 0 ts
    (some (.obj [("replayed", .ofNat (acts.countP (·.replayed))),
      ("errors", .array ((acts.filterMap (·.failure)).map .string))]), acts)

def Target.sendable (t : Target) : Bool := t.subject != "" && t.seq != 0

def ofUnit (unit : Option String) (env : Value) : Bool :=
  match unit with
  | some u => (env.index "unit").asStr == some u
  | none => true

def chosen (unit : Option String) (envs : List Value) : List Target :=
  ((envs.filter (ofUnit unit)).map takeTarget).filter Target.sendable

def lettersIn (dlq : DlqStream) (first last : Nat) : List Value :=
  (List.range' first (last + 1 - first)).flatMap (deadLetter dlq)

def ReplayAct.attempt : ReplayAct → Option Target
  | .publish t _ => some t
  | .delete .. => none

def attempts (acts : List ReplayAct) : List Target := acts.filterMap (·.attempt)

def ReplayAct.removes (k : Nat) : ReplayAct → Bool
  | .delete seq gone => gone && seq == k
  | .publish .. => false

def leftOver (dlq : DlqStream) (acts : List ReplayAct) (k : Nat) : Option (Nat × String) :=
  if acts.any (·.removes k) then none else dlq.message k

/-- A bulk replay of these letters: they are published in the order of the queue, none twice; a
letter is deleted only once its own publish is through; and a letter that is not among them, or
whose publish failed, stays. -/
structure InOrder (dlq : DlqStream) (letters : List Target) (acts : List ReplayAct) : Prop where
  order : attempts acts = letters
  increasing : (attempts acts).Pairwise fun a b => a.seq < b.seq
  deletes : ∀ before k gone after, acts = before ++ .delete k gone :: after →
    ∃ t, t.seq = k ∧ .publish t (.ok ()) ∈ before
  keeps : ∀ k, (∀ t, t.seq = k → .publish t (.ok ()) ∉ acts) → leftOver dlq acts k = dlq.message k

structure Stocked (dlq : DlqStream) (first last count : Nat) : Prop where
  connects : dlq.connect = .ok ()
  state : dlq.state = .ok (first, last, count)
  numbered : Numbered dlq
  within : ∀ k m, dlq.message k = some m → 1 ≤ k ∧ first ≤ k ∧ k ≤ last ∧ count ≠ 0
  bounds : count ≠ 0 → first ≤ last

theorem attempts_replayLoop (calls : Calls) (i : Nat) (ts : List Target) :
    attempts (replayLoop calls i ts) = ts.filter Target.sendable := by
  induction ts generalizing i with
  | nil => rfl
  | cons t ts ih =>
    unfold replayLoop
    by_cases hskip : t.subject = "" ∨ t.seq = 0
    · have hnot : ¬ t.sendable = true := by
        unfold Target.sendable
        rw [Bool.and_eq_true, bne_iff_ne, bne_iff_ne]
        rintro ⟨hsubject, hseq⟩
        exact hskip.elim hsubject hseq
      rw [if_pos hskip, List.filter_cons_of_neg hnot]
      exact ih (i + 1)
    · have hsend : t.sendable = true := by
        rw [not_or] at hskip
        unfold Target.sendable
        rw [Bool.and_eq_true, bne_iff_ne, bne_iff_ne]
        exact hskip
      rw [if_neg hskip, List.filter_cons_of_pos hsend, ← ih (i + 1)]
      cases calls.publish i with
      | ok u => rfl
      | error e => rfl

theorem replayLoop_deletes (calls : Calls) {i : Nat} {ts : List Target} {before after : List ReplayAct} {k : Nat} {gone : Bool}
    (h : replayLoop calls i ts = before ++ .delete k gone :: after) : ∃ t, t.seq = k ∧ .publish t (.ok ()) ∈ before := by
  induction ts generalizing i before with
  | nil => cases (List.append_eq_nil_iff.mp h.symm).2
  | cons t ts ih =>
    unfold replayLoop at h
    split at h
    · exact ih h
    · split at h
      · cases before with
        | nil => cases h
        | cons a before =>
          obtain ⟨rfl, hrest⟩ := List.cons.inj h
          cases before with
          | nil =>
            cases hrest
            exact ⟨t, rfl, List.mem_cons_self ..⟩
          | cons d before =>
            obtain ⟨t', hseq, hmem⟩ := ih (List.cons.inj hrest).2
            exact ⟨t', hseq, List.mem_cons_of_mem _ (List.mem_cons_of_mem _ hmem)⟩
      · cases before with
        | nil => cases h
        | cons a before =>
          obtain ⟨t', hseq, hmem⟩ := ih (List.cons.inj h).2
          exact ⟨t', hseq, List.mem_cons_of_mem _ hmem⟩

theorem replayLoop_keeps (dlq : DlqStream) (calls : Calls) (i : Nat) (ts : List Target) {k : Nat}
    (h : ∀ t, t.seq = k → .publish t (.ok ()) ∉ replayLoop calls i ts) :
    leftOver dlq (replayLoop calls i ts) k = dlq.message k := by
  unfold leftOver
  refine if_neg fun hany => ?_
  obtain ⟨a, ha, hremoves⟩ := List.any_eq_true.mp hany
  obtain ⟨before, after, hsplit⟩ := List.append_of_mem ha
  cases a with
  | publish t r => cases hremoves
  | delete seq gone =>
    have hk : seq = k := beq_iff_eq.mp (Bool.and_eq_true_iff.mp hremoves).2
    obtain ⟨t, hseq, hmem⟩ := replayLoop_deletes calls hsplit
    refine h t (hseq.trans hk) ?_
    rw [hsplit]
    exact List.mem_append_left _ hmem

theorem length_deadLetter (dlq : DlqStream) (k : Nat) : (deadLetter dlq k).length ≤ 1 := by
  unfold deadLetter
  split
  · exact Nat.le_refl 1
  · exact Nat.le_refl 1
  · exact Nat.zero_le 1

theorem reverse_deadLetter (dlq : DlqStream) (k : Nat) : (deadLetter dlq k).reverse = deadLetter dlq k := by
  unfold deadLetter
  split
  · rfl
  · rfl
  · rfl

theorem lettersIn_succ (dlq : DlqStream) {first last : Nat} (h : first ≤ last + 1) :
    lettersIn dlq first (last + 1) = lettersIn dlq first last ++ deadLetter dlq (last + 1) := by
  have hcount : last + 1 + 1 - first = last + 1 - first + 1 := by omega
  have hlast : first + (last + 1 - first) = last + 1 := by omega
  unfold lettersIn
  rw [hcount, List.range'_1_concat, hlast, List.flatMap_append, List.flatMap_singleton]

theorem dlqFrom_eq (dlq : DlqStream) {first limit seq : Nat} {out : List Value} (hfirst : first ≤ seq)
    (hout : out.length < limit) :
    dlqFrom dlq first limit seq out = out ++ (lettersIn dlq first seq).reverse.take (limit - out.length) := by
  induction seq generalizing out with
  | zero =>
    have hzero : first = 0 := Nat.le_zero.mp hfirst
    have hletters : lettersIn dlq 0 0 = deadLetter dlq 0 := List.flatMap_singleton ..
    have hlen := length_deadLetter dlq 0
    rw [dlqFrom, hzero, hletters, reverse_deadLetter, List.take_of_length_le (by omega)]
  | succ seq ih =>
    have hlen := length_deadLetter dlq (seq + 1)
    rw [lettersIn_succ dlq hfirst, List.reverse_append, reverse_deadLetter, List.take_append,
      List.take_of_length_le (l := deadLetter dlq (seq + 1)) (by omega), ← List.append_assoc, dlqFrom]
    split
    next hstop =>
      rw [List.length_append] at hstop
      by_cases heq : seq + 1 ≤ first
      · have hnone : lettersIn dlq first seq = [] := by
          unfold lettersIn
          rw [Nat.sub_eq_zero_of_le heq]
          rfl
        rw [hnone, List.reverse_nil, List.take_nil, List.append_nil]
      · rw [Nat.sub_eq_zero_of_le (by omega), List.take_zero, List.append_nil]
    next hgo =>
      rw [not_or, List.length_append] at hgo
      have hrest : limit - out.length - (deadLetter dlq (seq + 1)).length = limit - (out ++ deadLetter dlq (seq + 1)).length := by
        rw [List.length_append]
        omega
      rw [hrest]
      exact ih (by omega) (by rw [List.length_append]; omega)

theorem deadLetter_none {dlq : DlqStream} {k : Nat} (h : dlq.message k = none) : deadLetter dlq k = [] := by
  unfold deadLetter
  rw [h]
  rfl

theorem dlqList_eq {dlq : DlqStream} {first last count : Nat} (h : Stocked dlq first last count) {limit : Nat}
    (hlimit : 0 < limit) : dlqList dlq limit = .ok ((lettersIn dlq first last).reverse.take limit) := by
  have hrun : dlqList dlq limit =
      if last = 0 ∨ count = 0 then .ok [] else .ok (dlqFrom dlq first limit last []) := by
    unfold dlqList
    rw [h.connects, h.state]
    change (if last = 0 ∨ count = 0 then pure [] else pure _ : Except String (List Value)) = _
    split
    · rfl
    · rfl
  rw [hrun]
  by_cases hempty : last = 0 ∨ count = 0
  · have hnone : lettersIn dlq first last = [] := by
      refine List.flatMap_eq_nil_iff.mpr fun k _ => deadLetter_none ?_
      cases hm : dlq.message k with
      | none => rfl
      | some m =>
        obtain ⟨hone, -, hlast, hcount⟩ := h.within k m hm
        rcases hempty with hzero | hzero
        · omega
        · exact absurd hzero hcount
    rw [if_pos hempty, hnone, List.reverse_nil, List.take_nil]
  · rw [if_neg hempty, dlqFrom_eq dlq (h.bounds fun hzero => hempty (.inr hzero)) hlimit]
    rfl

def bulkLimit : Nat := 100000

theorem chosen_reverse (unit : Option String) (envs : List Value) : chosen unit envs.reverse = (chosen unit envs).reverse := by
  unfold chosen
  rw [List.filter_reverse, List.map_reverse, List.filter_reverse]

theorem chosen_append (unit : Option String) (envs envs' : List Value) :
    chosen unit (envs ++ envs') = chosen unit envs ++ chosen unit envs' := by
  unfold chosen
  rw [List.filter_append, List.map_append, List.filter_append]

theorem attempts_dlqReplay {dlq : DlqStream} {first last count : Nat} (h : Stocked dlq first last count) (calls : Calls)
    (unit : Option String) :
    ∃ i ts, (dlqReplay dlq calls none unit).2 = replayLoop calls i ts ∧
      attempts (dlqReplay dlq calls none unit).2 = (chosen unit ((lettersIn dlq first last).rtake bulkLimit)).reverse := by
  have hlist : dlqList dlq 100000 = _ := dlqList_eq h (by decide)
  have htargets : replayTargets dlq none unit =
      some ((((lettersIn dlq first last).reverse.take bulkLimit).filter (ofUnit unit)).map takeTarget) := by
    unfold replayTargets
    rw [h.connects]
    dsimp only
    rw [hlist]
    rfl
  have hacts : (dlqReplay dlq calls none unit).2 =
      replayLoop calls 0 ((((lettersIn dlq first last).reverse.take bulkLimit).filter (ofUnit unit)).map takeTarget) := by
    unfold dlqReplay
    rw [htargets]
  refine ⟨0, _, hacts, ?_⟩
  rw [hacts, attempts_replayLoop, List.rtake_eq_reverse_take_reverse, ← chosen_reverse, List.reverse_reverse]
  rfl

theorem chosen_increasing {dlq : DlqStream} (hn : Numbered dlq) (first last : Nat) (unit : Option String) :
    (chosen unit (lettersIn dlq first last)).Pairwise fun a b => a.seq < b.seq := by
  have hletters : (lettersIn dlq first last).Pairwise fun x y =>
      (takeTarget x).seq ≠ 0 → (takeTarget y).seq ≠ 0 → (takeTarget x).seq < (takeTarget y).seq := by
    refine List.pairwise_flatMap.mpr ⟨fun k _ => ?_, ?_⟩
    · unfold deadLetter
      split
      · exact List.pairwise_singleton ..
      · exact List.pairwise_singleton ..
      · exact List.Pairwise.nil
    · refine (List.pairwise_lt_range' ..).imp fun {k j} hlt x hx y hy hxs hys => ?_
      rw [(takeTarget_seq hn hx).resolve_right hxs, (takeTarget_seq hn hy).resolve_right hys]
      exact hlt
  have hsend : ∀ t : Target, t.sendable = true → t.seq ≠ 0 := by
    intro t ht
    exact bne_iff_ne.mp (Bool.and_eq_true_iff.mp ht).2
  unfold chosen
  refine List.pairwise_filter.mpr (List.pairwise_map.mpr ?_)
  exact (hletters.filter _).imp fun hlt hx hy => hlt (hsend _ hx) (hsend _ hy)

theorem length_le_one_of_reverse {ts : List Target} (hinc : ts.Pairwise fun a b => a.seq < b.seq)
    (hrev : ts.reverse = ts) : ts.length ≤ 1 := by
  cases ts with
  | nil => exact Nat.zero_le 1
  | cons t ts =>
    rcases List.eq_nil_or_concat ts with rfl | ⟨front, u, rfl⟩
    · exact Nat.le_refl 1
    · rw [List.concat_eq_append] at hinc hrev
      have hlt := (List.pairwise_cons.mp hinc).1 u (List.mem_append_right _ (List.mem_singleton_self u))
      rw [List.reverse_cons, List.reverse_append] at hrev
      have hhead : u = t := (List.cons.inj hrev).1
      rw [hhead] at hlt
      exact absurd hlt (Nat.lt_irrefl _)

theorem chosen_split (unit : Option String) (envs : List Value) :
    chosen unit envs = chosen unit (envs.rdrop bulkLimit) ++ chosen unit (envs.rtake bulkLimit) := by
  rw [← chosen_append]
  exact congrArg _ (List.take_append_drop ..).symm

section
variable {dlq : DlqStream} {first last count : Nat} (h : Stocked dlq first last count) (calls : Calls) (unit : Option String)
include h

theorem length_le_one_of_inOrder
    (hord : InOrder dlq (chosen unit (lettersIn dlq first last)) (dlqReplay dlq calls none unit).2) :
    (chosen unit (lettersIn dlq first last)).length ≤ 1 ∧ chosen unit ((lettersIn dlq first last).rdrop bulkLimit) = [] := by
  obtain ⟨i, ts, hacts, hattempts⟩ := attempts_dlqReplay h calls unit
  have hinc := chosen_increasing h.numbered first last unit
  have hsplit := chosen_split unit (lettersIn dlq first last)
  have heq := hattempts.symm.trans hord.order
  have hold : chosen unit ((lettersIn dlq first last).rdrop bulkLimit) = [] := by
    have hlen := congrArg List.length heq
    rw [List.length_reverse, hsplit, List.length_append] at hlen
    exact List.length_eq_zero_iff.mp (by omega)
  rw [hold, List.nil_append] at hsplit
  rw [← hsplit] at heq
  exact ⟨length_le_one_of_reverse hinc heq, hold⟩

/-- A bulk replay goes in order exactly when it has no more than one letter to send, and no such
letter is older than the newest hundred thousand. -/
theorem replay_in_order_iff :
    InOrder dlq (chosen unit (lettersIn dlq first last)) (dlqReplay dlq calls none unit).2 ↔
      (chosen unit (lettersIn dlq first last)).length ≤ 1 ∧
        chosen unit ((lettersIn dlq first last).rdrop bulkLimit) = [] := by
  refine ⟨length_le_one_of_inOrder h calls unit, ?_⟩
  rintro ⟨hone, hold⟩
  obtain ⟨i, ts, hacts, hattempts⟩ := attempts_dlqReplay h calls unit
  have hinc := chosen_increasing h.numbered first last unit
  have hsplit := chosen_split unit (lettersIn dlq first last)
  have hrev : (chosen unit (lettersIn dlq first last)).reverse = chosen unit (lettersIn dlq first last) := by
    cases hts : chosen unit (lettersIn dlq first last) with
    | nil => rfl
    | cons t ts =>
      rw [hts, List.length_cons] at hone
      rw [List.length_eq_zero_iff.mp (by omega : ts.length = 0)]
      rfl
  rw [hold, List.nil_append] at hsplit
  rw [← hsplit, hrev] at hattempts
  refine ⟨hattempts, hattempts ▸ hinc, fun before k gone after hsplit => ?_, fun k hk => ?_⟩
  · rw [hacts] at hsplit
    exact replayLoop_deletes calls hsplit
  · rw [hacts] at hk ⊢
    exact replayLoop_keeps dlq calls i ts hk

end

def everyCall : Calls := ⟨fun _ => .ok (), fun _ => true⟩

theorem stocked_oneLetter [External] (p : Poison) : Stocked (oneLetter p) 1 1 1 where
  connects := rfl
  state := rfl
  numbered k m h := by
    simp only [oneLetter, Option.ite_none_right_eq_some, Option.some.injEq] at h
    obtain ⟨rfl, rfl⟩ := h
    exact ⟨rfl, by decide⟩
  within k m h := by
    simp only [oneLetter, Option.ite_none_right_eq_some] at h
    omega
  bounds _ := Nat.le_refl 1

theorem replay_in_order_one_letter :
    Stocked (@oneLetter ascii (poison .flow)) 1 1 1 ∧
      InOrder (@oneLetter ascii (poison .flow)) (chosen none (lettersIn (@oneLetter ascii (poison .flow)) 1 1))
        (dlqReplay (@oneLetter ascii (poison .flow)) everyCall none none).2 := by
  have hstocked := @stocked_oneLetter ascii (poison .flow)
  have hletters : lettersIn (@oneLetter ascii (poison .flow)) 1 1 = deadLetter (@oneLetter ascii (poison .flow)) 1 :=
    List.flatMap_singleton ..
  have hlen := length_deadLetter (@oneLetter ascii (poison .flow)) 1
  refine ⟨hstocked, (replay_in_order_iff hstocked everyCall none).mpr ?_⟩
  rw [hletters]
  constructor
  · unfold chosen
    refine Nat.le_trans (List.length_filter_le ..) ?_
    rw [List.length_map]
    exact Nat.le_trans (List.length_filter_le ..) hlen
  · have hdrop : (deadLetter (@oneLetter ascii (poison .flow)) 1).rdrop bulkLimit = [] := by
      unfold List.rdrop
      rw [Nat.sub_eq_zero_of_le (Nat.le_trans hlen (by decide)), List.take_zero]
    rw [hdrop]
    rfl

def twoLetters [External] (p : Poison) : DlqStream where
  connect := .ok ()
  state := .ok (1, 2, 2)
  message k := if k = 1 ∨ k = 2 then some (k, p.envelope.render) else none

theorem stocked_twoLetters [External] (p : Poison) : Stocked (twoLetters p) 1 2 2 where
  connects := rfl
  state := rfl
  numbered k m h := by
    simp only [twoLetters, Option.ite_none_right_eq_some, Option.some.injEq] at h
    obtain ⟨hk, rfl⟩ := h
    exact ⟨rfl, by rcases hk with rfl | rfl <;> decide⟩
  within k m h := by
    simp only [twoLetters, Option.ite_none_right_eq_some] at h
    omega
  bounds _ := by decide

theorem chosen_twoLetters [External] {p : Poison} (hs : p.named ≠ "") :
    (chosen none (lettersIn (twoLetters p) 1 2)).length = 2 := by
  obtain ⟨env₁, hd₁, ht₁⟩ := @deadLetter_envelope _ (twoLetters p) 1 p rfl
  obtain ⟨env₂, hd₂, ht₂⟩ := @deadLetter_envelope _ (twoLetters p) 2 p rfl
  have hletters : lettersIn (twoLetters p) 1 2 = [env₁, env₂] := by
    change [1, 2].flatMap (deadLetter (twoLetters p)) = _
    rw [List.flatMap_cons, List.flatMap_singleton, hd₁, hd₂]
    rfl
  have hchosen : chosen none [env₁, env₂] = [takeTarget env₁, takeTarget env₂].filter Target.sendable := rfl
  rw [hletters, hchosen, ht₁, ht₂]
  simp [Target.sendable, hs]

/-- Of two letters, the second goes back before the first. -/
theorem replay_newest_first :
    Stocked (@twoLetters ascii (poison .flow)) 1 2 2 ∧
      ¬ InOrder (@twoLetters ascii (poison .flow)) (chosen none (lettersIn (@twoLetters ascii (poison .flow)) 1 2))
        (dlqReplay (@twoLetters ascii (poison .flow)) everyCall none none).2 := by
  have hstocked := @stocked_twoLetters ascii (poison .flow)
  refine ⟨hstocked, fun hord => ?_⟩
  have hlen := (length_le_one_of_inOrder hstocked everyCall none hord).1
  rw [@chosen_twoLetters ascii (poison .flow) (by decide)] at hlen
  exact absurd hlen (by decide)

end Vejas.Runtime
