import Mathlib.Data.List.Infix

/-! Directories, files and symbolic links, and the walk of a path among them. A place is the list of
names from the root down to it. A walk follows every link it meets, up to a number of them; a walk
that may create ends at a last name that is missing. -/

namespace Links
variable {ν : Type}

inductive Step (ν : Type)
  | stay
  | up
  | into (name : ν)

inductive Node (ν : Type)
  | dir
  | file
  | link (absolute : Bool) (target : List (Step ν))

def Node.isLink : Option (Node ν) → Bool
  | some (.link _ _) => true
  | _ => false

abbrev Layout (ν : Type) := List ν → Option (Node ν)

def isDir (L : Layout ν) (place : List ν) : Bool :=
  match L place with
  | some .dir => true
  | _ => false

def through (L : Layout ν) (create : Bool) (links : Nat) (follow : List ν → List (Step ν) → Option (List ν × Nat)) :
    List ν → List (Step ν) → Option (List ν × Nat)
  | place, [] => some (place, links)
  | place, step :: rest =>
    if isDir L place then
      match step with
      | .stay => through L create links follow place rest
      | .up => through L create links follow place.dropLast rest
      | .into name =>
        match L (place ++ [name]) with
        | some (.link absolute target) => follow (if absolute then [] else place) (target ++ rest)
        | some _ => through L create links follow (place ++ [name]) rest
        | none => if create && rest.isEmpty then some (place ++ [name], links) else none
    else none

/-- Where the steps lead, and how many links are left. -/
def walk (L : Layout ν) (create : Bool) : Nat → List ν → List (Step ν) → Option (List ν × Nat)
  | 0 => through L create 0 fun _ _ => none
  | links + 1 => through L create (links + 1) (walk L create links)

variable {L : Layout ν} {create : Bool}

def afterLink (L : Layout ν) (create : Bool) : Nat → List ν → List (Step ν) → Option (List ν × Nat)
  | 0, _, _ => none
  | links + 1, place, steps => walk L create links place steps

theorem walk_eq (links : Nat) : walk L create links = through L create links (afterLink L create links) := by
  cases links <;> rfl

@[simp] theorem walk_nil (links : Nat) (place : List ν) : walk L create links place [] = some (place, links) := by
  cases links <;> rfl

theorem walk_cons (links : Nat) (place : List ν) (step : Step ν) (rest : List (Step ν)) :
    walk L create links place (step :: rest) =
      if isDir L place then
        match step with
        | .stay => walk L create links place rest
        | .up => walk L create links place.dropLast rest
        | .into name =>
          match L (place ++ [name]) with
          | some (.link absolute target) => afterLink L create links (if absolute then [] else place) (target ++ rest)
          | some _ => walk L create links (place ++ [name]) rest
          | none => if create && rest.isEmpty then some (place ++ [name], links) else none
      else none := by
  rw [walk_eq, through.eq_def]

theorem walk_of_not_dir (links : Nat) {place : List ν} (h : isDir L place = false) (step : Step ν) (rest : List (Step ν)) :
    walk L create links place (step :: rest) = none := by
  rw [walk_cons, h, if_neg Bool.false_ne_true]

variable {place : List ν} {rest : List (Step ν)}

theorem walk_stay (links : Nat) (h : isDir L place = true) :
    walk L create links place (.stay :: rest) = walk L create links place rest := by
  rw [walk_cons, if_pos h]

theorem walk_up (links : Nat) (h : isDir L place = true) :
    walk L create links place (.up :: rest) = walk L create links place.dropLast rest := by
  rw [walk_cons, if_pos h]

theorem walk_link (links : Nat) (h : isDir L place = true) {name : ν} {absolute : Bool} {target : List (Step ν)}
    (hlink : L (place ++ [name]) = some (.link absolute target)) :
    walk L create links place (.into name :: rest) =
      afterLink L create links (if absolute then [] else place) (target ++ rest) := by
  rw [walk_cons, if_pos h]
  dsimp only
  rw [hlink]

theorem walk_into (links : Nat) (h : isDir L place = true) {name : ν} {node : Node ν} (hnode : L (place ++ [name]) = some node)
    (hlink : Node.isLink (some node) = false) :
    walk L create links place (.into name :: rest) = walk L create links (place ++ [name]) rest := by
  rw [walk_cons, if_pos h]
  dsimp only
  rw [hnode]
  cases node with
  | link absolute target => cases hlink
  | dir => rfl
  | file => rfl

theorem walk_missing (links : Nat) (h : isDir L place = true) {name : ν} (hnone : L (place ++ [name]) = none) :
    walk L create links place (.into name :: rest) =
      if create && rest.isEmpty then some (place ++ [name], links) else none := by
  rw [walk_cons, if_pos h]
  dsimp only
  rw [hnone]

/-- Induction along a walk: by the number of links left, and for each by the steps. -/
theorem walk_induct (L : Layout ν) {motive : Nat → List ν → List (Step ν) → Prop}
    (nil : ∀ links place, motive links place [])
    (blocked : ∀ links place step rest, isDir L place = false → motive links place (step :: rest))
    (stay : ∀ links place rest, isDir L place = true → motive links place rest → motive links place (.stay :: rest))
    (up : ∀ links place rest, isDir L place = true → motive links place.dropLast rest → motive links place (.up :: rest))
    (link : ∀ links place name rest absolute target, isDir L place = true →
      L (place ++ [name]) = some (.link absolute target) →
      (∀ fewer, links = fewer + 1 → motive fewer (if absolute then [] else place) (target ++ rest)) →
      motive links place (.into name :: rest))
    (into : ∀ links place name rest node, isDir L place = true → L (place ++ [name]) = some node →
      Node.isLink (some node) = false → motive links (place ++ [name]) rest → motive links place (.into name :: rest))
    (missing : ∀ links place name rest, isDir L place = true → L (place ++ [name]) = none →
      motive links place (.into name :: rest))
    (links : Nat) (place : List ν) (steps : List (Step ν)) : motive links place steps := by
  have hsteps : ∀ links, (∀ fewer, links = fewer + 1 → ∀ place steps, motive fewer place steps) →
      ∀ place steps, motive links place steps := by
    intro links hfewer place steps
    induction steps generalizing place with
    | nil => exact nil links place
    | cons step rest ih =>
      cases hdir : isDir L place with
      | false => exact blocked links place step rest hdir
      | true =>
        cases step with
        | stay => exact stay links place rest hdir (ih place)
        | up => exact up links place rest hdir (ih _)
        | into name =>
          cases hnode : L (place ++ [name]) with
          | none => exact missing links place name rest hdir hnode
          | some node =>
            cases node with
            | link absolute target =>
              exact link links place name rest absolute target hdir hnode fun fewer h => hfewer fewer h _ _
            | dir => exact into links place name rest .dir hdir hnode rfl (ih _)
            | file => exact into links place name rest .file hdir hnode rfl (ih _)
  induction links generalizing place steps with
  | zero => exact hsteps 0 (fun _ h => by cases h) place steps
  | succ links ih => exact hsteps (links + 1) (fun fewer h => by cases h; exact ih) place steps

theorem walk_append (links : Nat) (place : List ν) (front : List (Step ν)) {back : List (Step ν)} (hback : back ≠ []) :
    walk L create links place (front ++ back) =
      (walk L false links place front).bind fun r => walk L create r.2 r.1 back := by
  induction links, place, front using walk_induct L with
  | nil links place => rw [List.nil_append, walk_nil, Option.bind_some]
  | blocked links place step rest hdir =>
    rw [List.cons_append, walk_of_not_dir links hdir, walk_of_not_dir links hdir, Option.bind_none]
  | stay links place rest hdir ih => rw [List.cons_append, walk_stay links hdir, walk_stay links hdir, ih]
  | up links place rest hdir ih => rw [List.cons_append, walk_up links hdir, walk_up links hdir, ih]
  | link links place name rest absolute target hdir hlink ih =>
    rw [List.cons_append, walk_link links hdir hlink, walk_link links hdir hlink, ← List.append_assoc]
    cases links with
    | zero => rfl
    | succ links => exact ih links rfl
  | into links place name rest node hdir hnode hlink ih =>
    rw [List.cons_append, walk_into links hdir hnode hlink, walk_into links hdir hnode hlink, ih]
  | missing links place name rest hdir hnone =>
    have hempty : (rest ++ back).isEmpty = false := by simp [hback]
    rw [List.cons_append, walk_missing links hdir hnone, walk_missing links hdir hnone, hempty, Bool.and_false,
      if_neg Bool.false_ne_true, Bool.false_and, if_neg Bool.false_ne_true, Option.bind_none]

theorem walk_false_append (links : Nat) (place : List ν) (front back : List (Step ν)) :
    walk L false links place (front ++ back) =
      (walk L false links place front).bind fun r => walk L false r.2 r.1 back := by
  cases back with
  | nil =>
    rw [List.append_nil]
    cases walk L false links place front with
    | none => rfl
    | some r => exact (walk_nil r.2 r.1).symm
  | cons step back => exact walk_append links place front (List.cons_ne_nil _ _)

theorem walk_create {links : Nat} {place : List ν} {steps : List (Step ν)} {r : List ν × Nat}
    (h : walk L false links place steps = some r) : walk L create links place steps = some r := by
  induction links, place, steps using walk_induct L with
  | nil links place =>
    rw [walk_nil] at h ⊢
    exact h
  | blocked links place step rest hdir =>
    rw [walk_of_not_dir links hdir] at h
    cases h
  | stay links place rest hdir ih =>
    rw [walk_stay links hdir] at h ⊢
    exact ih h
  | up links place rest hdir ih =>
    rw [walk_up links hdir] at h ⊢
    exact ih h
  | link links place name rest absolute target hdir hlink ih =>
    rw [walk_link links hdir hlink] at h ⊢
    cases links with
    | zero => cases h
    | succ links => exact ih links rfl h
  | into links place name rest node hdir hnode hlink ih =>
    rw [walk_into links hdir hnode hlink] at h ⊢
    exact ih h
  | missing links place name rest hdir hnone =>
    rw [walk_missing links hdir hnone, Bool.false_and, if_neg Bool.false_ne_true] at h
    cases h

theorem forall_name_of_walk {p : ν → Prop} (hlinks : ∀ q absolute target, L q = some (.link absolute target) →
      ∀ name, Step.into name ∈ target → p name) {links : Nat} {place : List ν} {steps : List (Step ν)} {r : List ν × Nat}
    (hplace : ∀ name ∈ place, p name) (hsteps : ∀ name, Step.into name ∈ steps → p name)
    (h : walk L create links place steps = some r) : ∀ name ∈ r.1, p name := by
  have hsnoc : ∀ {place : List ν} {name : ν}, (∀ n ∈ place, p n) → p name → ∀ n ∈ place ++ [name], p n := by
    intro place name hplace hname n hn
    rcases List.mem_append.mp hn with hn | hn
    · exact hplace n hn
    · rw [List.mem_singleton.mp hn]
      exact hname
  induction links, place, steps using walk_induct L with
  | nil links place =>
    rw [walk_nil] at h
    cases h
    exact hplace
  | blocked links place step rest hdir =>
    rw [walk_of_not_dir links hdir] at h
    cases h
  | stay links place rest hdir ih =>
    rw [walk_stay links hdir] at h
    exact ih hplace (fun name hn => hsteps name (List.mem_cons_of_mem _ hn)) h
  | up links place rest hdir ih =>
    rw [walk_up links hdir] at h
    exact ih (fun name hn => hplace name (List.mem_of_mem_dropLast hn))
      (fun name hn => hsteps name (List.mem_cons_of_mem _ hn)) h
  | link links place name rest absolute target hdir hlink ih =>
    rw [walk_link links hdir hlink] at h
    cases links with
    | zero => cases h
    | succ links =>
      refine ih links rfl ?_ (fun n hn => ?_) h
      · cases absolute with
        | true => exact fun n hn => by cases hn
        | false => exact hplace
      · rcases List.mem_append.mp hn with hn | hn
        · exact hlinks _ absolute target hlink n hn
        · exact hsteps n (List.mem_cons_of_mem _ hn)
  | into links place name rest node hdir hnode hlink ih =>
    rw [walk_into links hdir hnode hlink] at h
    exact ih (hsnoc hplace (hsteps name (List.mem_cons_self ..))) (fun n hn => hsteps n (List.mem_cons_of_mem _ hn)) h
  | missing links place name rest hdir hnone =>
    rw [walk_missing links hdir hnone] at h
    split at h
    · cases h
      exact hsnoc hplace (hsteps name (List.mem_cons_self ..))
    · cases h

theorem walk_last {links : Nat} {place : List ν} {name : ν} {r : List ν × Nat} (hlink : Node.isLink (L (place ++ [name])) = false)
    (h : walk L create links place [.into name] = some r) : r.1 = place ++ [name] := by
  cases hdir : isDir L place with
  | false =>
    rw [walk_of_not_dir links hdir] at h
    cases h
  | true =>
    cases hnode : L (place ++ [name]) with
    | none =>
      rw [walk_missing links hdir hnode] at h
      split at h
      · cases h
        rfl
      · cases h
    | some node =>
      rw [hnode] at hlink
      rw [walk_into links hdir hnode hlink, walk_nil] at h
      cases h
      rfl

def namesOf (steps : List (Step ν)) : List ν := steps.filterMap fun
  | .into name => some name
  | _ => none

theorem walk_plain {links : Nat} {place : List ν} {steps : List (Step ν)} {r : List ν × Nat} (hup : Step.up ∉ steps)
    (hplain : ∀ q, q ≠ [] → q <+: namesOf steps → Node.isLink (L (place ++ q)) = false)
    (h : walk L create links place steps = some r) : r.1 = place ++ namesOf steps := by
  induction steps generalizing place with
  | nil =>
    rw [walk_nil] at h
    cases h
    exact (List.append_nil _).symm
  | cons step rest ih =>
    have hup' : Step.up ∉ rest := fun hm => hup (List.mem_cons_of_mem _ hm)
    cases hdir : isDir L place with
    | false =>
      rw [walk_of_not_dir links hdir] at h
      cases h
    | true =>
      cases step with
      | up => exact absurd (List.mem_cons_self ..) hup
      | stay =>
        rw [walk_stay links hdir] at h
        exact ih hup' hplain h
      | into name =>
        have hnames : namesOf (.into name :: rest) = name :: namesOf rest := rfl
        have hlink := hplain [name] (List.cons_ne_nil _ _) ⟨namesOf rest, rfl⟩
        cases hnode : L (place ++ [name]) with
        | none =>
          rw [walk_missing links hdir hnode] at h
          split at h
          next hlast =>
            cases h
            have hrest : rest = [] := by
              rw [Bool.and_eq_true, List.isEmpty_iff] at hlast
              exact hlast.2
            rw [hrest]
            rfl
          · cases h
        | some node =>
          rw [hnode] at hlink
          rw [walk_into links hdir hnode hlink] at h
          rw [hnames, ← List.singleton_append, ← List.append_assoc]
          refine ih hup' (fun q hq hpre => ?_) h
          rw [List.append_assoc]
          exact hplain ([name] ++ q) (by simp) (by rw [hnames]; exact (List.prefix_append_right_inj [name]).mpr hpre)

end Links
