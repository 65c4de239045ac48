import Mathlib.Data.List.TakeWhile
import Vejas.Connectors.Wire
import Vejas.Json.Pretty
import Vejas.Lib.Replacing
import Vejas.Rust.Path

/-! The secrets file: one JSON object, read on every get and replaced as a whole on every set. Sets
come one after another; any of them may fail or crash on the way, and gets go on meanwhile. -/

namespace Vejas.Runtime.SecretsFile
open Rust Json Vjs Connectors Replacing

def load (path : String) (fault : Option String) (file : Option Bytes) : Except String Map :=
  match fault, file with
  | some e, _ => .error e
  | none, none => .ok []
  | none, some b =>
    if !isUtf8 b then .error "stream did not contain valid UTF-8"
    else if trim (textOf b) = "" then .ok []
    else match (fromStr (textOf b)).bind Value.asObject with
      | some m => .ok m
      | none => .error ("secrets file " ++ path ++ " is not a JSON object")

def get [External] (path : String) (fault : Option String) (file : Option Bytes) (reference : String) : Except String String :=
  match load path fault file with
  | .error e => .error e
  | .ok m =>
    match ((Map.get? m reference).bind Value.asStr).filter (· ≠ "") with
    | some s => .ok s
    | none => .error ("secret " ++ debugStr reference ++ " not set (panel Secrets card, or " ++ path ++ ")")

structure Entry where
  number : Nat
  reference : String
  value : String
  deriving DecidableEq

/-- The sets of a process, numbered: the one under way, those that took effect, newest first, and the
answers that were given. -/
structure Sets where
  disk : State UInt8
  entry : Entry
  taken : List Entry
  answers : List (Nat × Bool)

inductive Event
  | set (reference value : String) (fault : Option String)
  | io (m : Move UInt8)

section
variable [External] (path : String)

def rendered (m : Map) (e : Entry) : Bytes := bytesOf ((Value.object (Map.insert e.reference (.string e.value) m)).pretty 0)

def Sets.step (s : Sets) : Event → Option Sets
  | .set reference value fault =>
    let entry := ⟨s.entry.number + 1, reference, value⟩
    match s.disk.phase, load path fault s.disk.file with
    | .idle, .error _ => some { s with entry, answers := (entry.number, false) :: s.answers }
    | .idle, .ok m => (Replacing.step s.disk (.begin (rendered m entry))).map fun disk => { s with disk, entry }
    | _, _ => none
  | .io (.begin _) => none
  | .io .leave =>
    match s.disk.phase with
    | .ended taken =>
      (Replacing.step s.disk .leave).map fun disk => { s with disk, answers := (s.entry.number, taken) :: s.answers }
    | _ => none
  | .io m =>
    (Replacing.step s.disk m).map fun disk =>
      { s with disk, taken := if disk.phase = .ended true then s.entry :: s.taken else s.taken }

/-- The file reads as `init`, and nothing is under way. A set writes to the path with the extension tmp: that is another
file only if the path has not this extension itself. -/
def holding (init : Map) (s : Sets) : Prop :=
  Rust.extension path ≠ some "tmp" ∧ s.disk.phase = .idle ∧ s.disk.last = s.disk.file ∧ load path none s.disk.file = .ok init ∧
    s.entry.number = 0 ∧ s.taken = [] ∧ s.answers = []

def system (init : Map) : Transition Sets Event := .ofStep (Sets.step path) (holding path init)

end

/-- The file itself is not being written when a set fails or the process crashes. -/
def Safe (s : Sets) : Event → Prop
  | .set _ _ _ => True
  | .io m => Replacing.Careful s.disk m

def view (init : Map) (taken : List Entry) : Map := taken.foldr (fun (e : Entry) m => Map.insert e.reference (.string e.value) m) init

def secretOf (init : Map) (taken : List Entry) (reference : String) : Option String :=
  (match taken.find? fun (e : Entry) => e.reference = reference with
    | some e => some e.value
    | none => (Map.get? init reference).bind Value.asStr).filter (· ≠ "")

theorem get?_view (init : Map) (taken : List Entry) (reference : String) :
    Map.get? (view init taken) reference =
      match taken.find? fun (e : Entry) => e.reference = reference with
      | some e => some (.string e.value)
      | none => Map.get? init reference := by
  induction taken with
  | nil => rfl
  | cons e taken ih =>
    show Map.get? (Map.insert e.reference (.string e.value) (view init taken)) reference = _
    rw [Map.get?_insert, List.find?_cons]
    by_cases h : e.reference = reference
    · rw [if_pos h, decide_eq_true h]
    · rw [if_neg h, decide_eq_false h, ih]

theorem exact_insert {depth : Nat} {m : Map} (h : Exact (depth + 1) (.object m)) (reference value : String) :
    Exact (depth + 1) (.object (Map.insert reference (.string value) m)) := by
  cases h with
  | object hfields hordered =>
    refine .object (fun p hp => ?_) (Map.Ordered.insert hordered reference (.string value))
    rcases Map.mem_insert hp with rfl | hp
    · exact .string _ _
    · exact hfields p hp

theorem exact_view {depth : Nat} {init : Map} (h : Exact (depth + 1) (.object init)) (taken : List Entry) :
    Exact (depth + 1) (.object (view init taken)) := by
  induction taken with
  | nil => exact h
  | cons e taken ih => exact exact_insert ih e.reference e.value

theorem trim_ne_empty {c : Char} (cs : List Char) (hc : isWhitespace c = false) : trim (String.ofList (c :: cs)) ≠ "" := by
  intro h
  have hlist : trimEnd ((c :: cs).dropWhile isWhitespace) = [] := by
    have hchars := congrArg String.toList h
    unfold trim onChars at hchars
    rwa [String.toList_ofList, String.toList_ofList] at hchars
  rw [List.dropWhile_cons_of_neg (by rw [hc]; exact Bool.false_ne_true)] at hlist
  have hnil := List.reverse_eq_nil_iff.mp hlist
  have hall := List.dropWhile_eq_nil_iff.mp hnil c (List.mem_reverse.mpr List.mem_cons_self)
  rw [hc] at hall
  cases hall

section
variable [External] {path : String}

theorem load_rendered {depth : Nat} {m : Map} (hm : Exact (depth + 1) (.object m)) (hdepth : depth + 1 < 128) (e : Entry) :
    load path none (some (rendered m e)) = .ok (Map.insert e.reference (.string e.value) m) := by
  have hexact := exact_insert hm e.reference e.value
  have hne : Map.insert e.reference (.string e.value) m ≠ [] := by
    intro hnil
    have hget := Map.get?_insert m e.reference e.reference (.string e.value)
    rw [hnil, if_pos rfl] at hget
    cases hget
  obtain ⟨f, fs, hcons⟩ := List.exists_cons_of_ne_nil hne
  have htrim : trim ((Value.object (Map.insert e.reference (.string e.value) m)).pretty 0) ≠ "" := by
    rw [hcons]
    have hchars := prettyChars_object 0 f fs
    unfold prettyChars at hchars
    rw [← String.ofList_toList (s := Value.pretty 0 _), hchars]
    exact trim_ne_empty _ (by decide)
  unfold load rendered
  dsimp only
  rw [isUtf8_bytesOf, textOf_bytesOf, if_neg htrim, fromStr_pretty hexact hdepth]
  rfl

theorem get_toOption (fault : Option String) {file : Option Bytes} {m : Map} (h : load path fault file = .ok m) (reference : String) :
    (get path fault file reference).toOption = ((Map.get? m reference).bind Value.asStr).filter (· ≠ "") := by
  unfold get
  rw [h]
  dsimp only
  cases ((Map.get? m reference).bind Value.asStr).filter (· ≠ "") with
  | none => rfl
  | some s => rfl

omit [External] in
theorem filter_view (init : Map) (taken : List Entry) (reference : String) :
    ((Map.get? (view init taken) reference).bind Value.asStr).filter (· ≠ "") = secretOf init taken reference := by
  unfold secretOf
  rw [get?_view]
  congr 1
  split <;> rfl

structure Kept (path : String) (init : Map) (s : Sets) : Prop where
  whole : Whole s.disk
  held : load path none s.disk.last = .ok (view init s.taken)
  pending : ∀ new, s.disk.phase.new = some new →
    new = rendered (view init s.taken) s.entry ∧ ∀ e ∈ s.taken, e.number ≠ s.entry.number
  ended : ∀ b, s.disk.phase = .ended b → (b = true ↔ ∃ e ∈ s.taken, e.number = s.entry.number)
  numbered : (s.taken.map (·.number)).Pairwise (· > ·) ∧ ∀ e ∈ s.taken, e.number ≤ s.entry.number
  answered : ∀ a ∈ s.answers, a.1 ≤ s.entry.number ∧ (s.disk.phase ≠ .idle → a.1 ≠ s.entry.number) ∧
    (a.2 = true ↔ ∃ e ∈ s.taken, e.number = a.1)

variable {init : Map} {s s' : Sets}

theorem kept_holding (h : holding path init s) : Kept path init s := by
  obtain ⟨-, hidle, hlast, hload, -, htaken, hanswers⟩ := h
  refine ⟨⟨fun _ => hlast.symm, fun _ _ heq => ?_, fun _ _ heq => ?_⟩, ?_, fun _ heq => ?_, fun _ heq => ?_, ?_, ?_⟩
  · rw [hidle] at heq
    cases heq
  · rw [hidle] at heq
    cases heq
  · rw [hlast, htaken]
    exact hload
  · rw [hidle] at heq
    cases heq
  · rw [hidle] at heq
    cases heq
  · rw [htaken]
    exact ⟨List.Pairwise.nil, fun _ he => by cases he⟩
  · rw [hanswers]
    exact fun _ ha => by cases ha

theorem Kept.set (h : Kept path init s) {reference value : String} {fault : Option String}
    (hs : s.step path (.set reference value fault) = some s') : Kept path init s' := by
  have hnew : ∀ e ∈ s.taken, e.number ≠ s.entry.number + 1 := fun e he heq =>
    Nat.not_succ_le_self _ (heq ▸ h.numbered.2 e he)
  have hle : ∀ e ∈ s.taken, e.number ≤ s.entry.number + 1 := fun e he => (h.numbered.2 e he).trans (Nat.le_succ _)
  unfold Sets.step at hs
  dsimp only at hs
  split at hs
  next hidle _ =>
    cases hs
    refine ⟨h.whole, h.held, fun new heq => ?_, fun b heq => ?_, ⟨h.numbered.1, hle⟩, fun a ha => ?_⟩
    · rw [hidle] at heq
      cases heq
    · rw [hidle] at heq
      cases heq
    · refine ⟨?_, fun hne => absurd hidle hne, ?_⟩
      · rcases List.mem_cons.mp ha with rfl | ha
        · exact Nat.le_refl _
        · exact (h.answered a ha).1.trans (Nat.le_succ _)
      · rcases List.mem_cons.mp ha with rfl | ha
        · refine iff_of_false Bool.false_ne_true ?_
          rintro ⟨e, he, heq⟩
          exact hnew e he heq
        · exact (h.answered a ha).2.2
  next m hidle hload =>
    obtain ⟨disk, hdisk, rfl⟩ := Option.map_eq_some_iff.mp hs
    have hwhole := h.whole.step (m := .begin _) trivial hdisk
    obtain ⟨-, rfl⟩ := step_begin hdisk
    have hm : m = view init s.taken := by
      have hfile := h.whole.intact (by rw [hidle]; rfl)
      cases fault with
      | some e => cases hload
      | none =>
        rw [hfile, h.held] at hload
        exact (Except.ok.inj hload).symm
    refine ⟨hwhole, h.held, fun new heq => ?_, fun b heq => (by cases heq), ⟨h.numbered.1, hle⟩, fun a ha => ?_⟩
    · cases heq
      rw [hm]
      exact ⟨rfl, hnew⟩
    · have ha' := (h.answered a ha).1
      exact ⟨ha'.trans (Nat.le_succ _), fun _ heq => Nat.not_succ_le_self _ (heq ▸ ha'), (h.answered a ha).2.2⟩
  next => cases hs

theorem step_io {m : Move UInt8} (hs : s.step path (.io m) = some s') :
    (m = .leave ∧ ∃ b, s.disk.phase = .ended b ∧
      s' = { s with disk := { s.disk with phase := .idle }, answers := (s.entry.number, b) :: s.answers }) ∨
    ∃ disk, Progress s.disk disk ∧ Replacing.step s.disk m = some disk ∧
      s' = { s with disk, taken := if disk.phase = .ended true then s.entry :: s.taken else s.taken } := by
  have hgo : (∀ new, m ≠ .begin new) → m ≠ .leave →
      ((Replacing.step s.disk m).map fun disk =>
        { s with disk, taken := if disk.phase = .ended true then s.entry :: s.taken else s.taken }) = some s' →
      ∃ disk, Progress s.disk disk ∧ Replacing.step s.disk m = some disk ∧
        s' = { s with disk, taken := if disk.phase = .ended true then s.entry :: s.taken else s.taken } := by
    intro hbegin hleave hmap
    obtain ⟨disk, hdisk, rfl⟩ := Option.map_eq_some_iff.mp hmap
    exact ⟨disk, step_progress hdisk hbegin hleave, hdisk, rfl⟩
  cases m with
  | begin new => cases hs
  | leave =>
    left
    unfold Sets.step at hs
    dsimp only at hs
    split at hs
    next b hphase =>
      obtain ⟨disk, hdisk, rfl⟩ := Option.map_eq_some_iff.mp hs
      obtain ⟨-, rfl⟩ := step_leave hdisk
      exact ⟨rfl, b, hphase, rfl⟩
    next => cases hs
  | opens ok => exact .inr (hgo (fun _ h => by cases h) (fun h => by cases h) hs)
  | write n => exact .inr (hgo (fun _ h => by cases h) (fun h => by cases h) hs)
  | rename r => exact .inr (hgo (fun _ h => by cases h) (fun h => by cases h) hs)
  | close => exact .inr (hgo (fun _ h => by cases h) (fun h => by cases h) hs)
  | fail => exact .inr (hgo (fun _ h => by cases h) (fun h => by cases h) hs)
  | crash => exact .inr (hgo (fun _ h => by cases h) (fun h => by cases h) hs)

theorem Kept.leave (h : Kept path init s) {b : Bool} (hphase : s.disk.phase = .ended b) (hwhole : Whole { s.disk with phase := .idle }) :
    Kept path init { s with disk := { s.disk with phase := .idle }, answers := (s.entry.number, b) :: s.answers } := by
  refine ⟨hwhole, h.held, fun _ heq => (by cases heq), fun _ heq => (by cases heq), h.numbered, fun a ha => ?_⟩
  refine ⟨?_, fun hne => absurd rfl hne, ?_⟩
  · rcases List.mem_cons.mp ha with rfl | ha
    · exact Nat.le_refl _
    · exact (h.answered a ha).1
  · rcases List.mem_cons.mp ha with rfl | ha
    · exact h.ended b hphase
    · exact (h.answered a ha).2.2

theorem Kept.progress {depth : Nat} (hexact : Exact (depth + 1) (.object init)) (hdepth : depth + 1 < 128)
    (h : Kept path init s) {disk : State UInt8} (hp : Progress s.disk disk) (hwhole : Whole disk) :
    Kept path init { s with disk, taken := if disk.phase = .ended true then s.entry :: s.taken else s.taken } := by
  have hbusy : s.disk.phase.new.isSome → s.disk.phase ≠ .idle := by
    intro hsome hidle
    rw [hidle] at hsome
    cases hsome
  cases hp with
  | going hlast hsome hnew =>
    have hnot : disk.phase ≠ .ended true := fun heq => by
      rw [heq] at hnew
      rw [← hnew] at hsome
      cases hsome
    rw [if_neg hnot]
    refine ⟨hwhole, hlast ▸ h.held, fun new heq => h.pending new (hnew ▸ heq), fun b heq => ?_, h.numbered, fun a ha => ?_⟩
    · rw [heq] at hnew
      rw [← hnew] at hsome
      cases hsome
    · exact ⟨(h.answered a ha).1, fun _ => (h.answered a ha).2.1 (hbusy hsome), (h.answered a ha).2.2⟩
  | failed hlast hsome hover =>
    obtain ⟨new, hnew⟩ := Option.isSome_iff_exists.mp hsome
    rw [if_neg (by rw [hover]; exact fun heq => by cases heq)]
    refine ⟨hwhole, hlast ▸ h.held, fun new heq => ?_, fun b heq => ?_, h.numbered, fun a ha => ?_⟩
    · rw [hover] at heq
      cases heq
    · rw [hover] at heq
      cases heq
      refine iff_of_false Bool.false_ne_true ?_
      rintro ⟨e, he, heq⟩
      exact (h.pending new hnew).2 e he heq
    · exact ⟨(h.answered a ha).1, fun _ => (h.answered a ha).2.1 (hbusy hsome), (h.answered a ha).2.2⟩
  | stopped hlast hidle =>
    rw [if_neg (by rw [hidle]; exact fun heq => by cases heq)]
    refine ⟨hwhole, hlast ▸ h.held, fun new heq => ?_, fun b heq => ?_, h.numbered, fun a ha => ?_⟩
    · rw [hidle] at heq
      cases heq
    · rw [hidle] at heq
      cases heq
    · exact ⟨(h.answered a ha).1, fun hne => absurd hidle hne, (h.answered a ha).2.2⟩
  | taken hnew hlast hover =>
    rename_i new
    obtain ⟨hrendered, hfresh⟩ := h.pending new hnew
    have hsome : s.disk.phase.new.isSome := by rw [hnew]; rfl
    rw [if_pos hover]
    refine ⟨hwhole, ?_, fun new heq => ?_, fun b heq => ?_, ⟨?_, fun e he => ?_⟩, fun a ha => ?_⟩
    · rw [hlast, hrendered]
      exact load_rendered (exact_view hexact s.taken) hdepth s.entry
    · rw [hover] at heq
      cases heq
    · rw [hover] at heq
      cases heq
      exact iff_of_true rfl ⟨s.entry, List.mem_cons_self, rfl⟩
    · refine List.pairwise_cons.mpr ⟨fun k hk => ?_, h.numbered.1⟩
      obtain ⟨e, he, rfl⟩ := List.mem_map.mp hk
      exact Nat.lt_of_le_of_ne (h.numbered.2 e he) (hfresh e he)
    · rcases List.mem_cons.mp he with rfl | he
      · exact Nat.le_refl _
      · exact h.numbered.2 e he
    · obtain ⟨hle, hne, hiff⟩ := h.answered a ha
      refine ⟨hle, fun _ => hne (hbusy hsome), hiff.trans ⟨fun ⟨e, he, heq⟩ => ⟨e, List.mem_cons_of_mem _ he, heq⟩, ?_⟩⟩
      rintro ⟨e, he, heq⟩
      rcases List.mem_cons.mp he with rfl | he
      · exact absurd heq.symm (hne (hbusy hsome))
      · exact ⟨e, he, heq⟩

/-- As long as no set fails or crashes while the file itself is written, a get answers with the value
last set or the one there was in the beginning; the sets that were answered with success are those
that took effect. -/
theorem secrets_kept {depth : Nat} (hexact : Exact (depth + 1) (.object init)) (hdepth : depth + 1 < 128)
    (h : (system path init).ReachableUnder Safe s) :
    (s.disk.phase.exposed = false →
      ∀ reference, (get path none s.disk.file reference).toOption = secretOf init s.taken reference) ∧
    (s.taken.map (·.number)).Pairwise (· > ·) ∧
    ∀ a ∈ s.answers, a.2 = true ↔ ∃ e ∈ s.taken, e.number = a.1 := by
  have hk : Kept path init s := by
    refine Transition.ReachableUnder.invariant (fun _ => kept_holding) (fun s e s' hk hc hs => ?_) h
    cases e with
    | set reference value fault => exact hk.set hs
    | io m =>
      rcases step_io hs with ⟨rfl, b, hphase, rfl⟩ | ⟨disk, hp, hdisk, rfl⟩
      · refine hk.leave hphase (hk.whole.step (m := .leave) trivial ?_)
        unfold Replacing.step
        dsimp only
        rw [hphase]
      · exact hk.progress hexact hdepth hp (hk.whole.step hc hdisk)
  refine ⟨fun hexposed reference => ?_, hk.numbered.1, fun a ha => (hk.answered a ha).2.2⟩
  rw [hk.whole.intact hexposed, get_toOption none hk.held, filter_view]

end

def noFile : Sets := ⟨⟨none, none, .idle, none⟩, ⟨0, "", ""⟩, [], []⟩

def crashed : List Event :=
  [.set "crm/token" "v1" none, .io (.opens true), .io (.write 40), .io (.rename .ok), .io .leave,
    .set "crm/token" "v2" none, .io (.opens true), .io (.write 5), .io .crash]

instance decidableSafe (s : Sets) (e : Event) : Decidable (Safe s e) :=
  match e with
  | .set _ _ _ => .isTrue trivial
  | .io m => inferInstanceAs (Decidable (Replacing.Careful s.disk m))

theorem secrets_kept_crashed : ∃ s, Transition.run (@Sets.step ascii "secrets.json") noFile crashed = some s ∧
    (@get ascii "secrets.json" none s.disk.file "crm/token").toOption = some "v1" := by
  have hrun : (Transition.run (@Sets.step ascii "secrets.json") noFile crashed).map (fun s => (s.disk.phase.exposed, s.taken)) =
      some (false, [⟨1, "crm/token", "v1"⟩]) := by decide +kernel
  obtain ⟨s, hs, hstate⟩ := Option.map_eq_some_iff.mp hrun
  have hmeets : Transition.Meets Safe (@Sets.step ascii "secrets.json") noFile crashed := by decide +kernel
  have hreach : (@system ascii "secrets.json" []).ReachableUnder Safe s :=
    Transition.ReachableUnder.run crashed (.init ⟨by decide, rfl, rfl, rfl, rfl, rfl, rfl⟩) hmeets hs
  obtain ⟨hexposed, htaken⟩ := Prod.mk.inj hstate
  have hempty : Exact 1 (.object []) := .object (fun _ h => by cases h) List.Pairwise.nil
  refine ⟨s, hs, ((@secrets_kept ascii "secrets.json" [] s 0 hempty (by decide) hreach).1 hexposed "crm/token").trans ?_⟩
  rw [htaken]
  rfl

end Vejas.Runtime.SecretsFile
