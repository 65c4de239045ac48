import Vejas.Json.Reading

/-! Documents written over several lines, as `to_string_pretty` does, read back as well. -/

namespace Vejas.Json
open Rust

def indent (level : Nat) : String := String.ofList (List.replicate (2 * level) ' ')

section
variable [External]

mutual

def Value.pretty (level : Nat) : Value → String
  | .array (v :: vs) =>
    "[\n" ++ join ",\n" (Value.prettyItems (level + 1) (v :: vs)) ++ "\n" ++ indent level ++ "]"
  | .object (f :: fs) =>
    "\x7b\n" ++ join ",\n" (Value.prettyFields (level + 1) (f :: fs)) ++ "\n" ++ indent level ++ "\x7d"
  | .array [] => Value.render (.array [])
  | .object [] => Value.render (.object [])
  | .null => Value.render .null
  | .bool b => Value.render (.bool b)
  | .number n => Value.render (.number n)
  | .string s => Value.render (.string s)

def Value.prettyItems (level : Nat) : List Value → List String
  | [] => []
  | v :: vs => (indent level ++ Value.pretty level v) :: Value.prettyItems level vs

def Value.prettyFields (level : Nat) : List (String × Value) → List String
  | [] => []
  | (k, v) :: fs => (indent level ++ renderStr k ++ ": " ++ Value.pretty level v) :: Value.prettyFields level fs

end

def lineBreak (level : Nat) : List Char := '\n' :: List.replicate (2 * level) ' '

def prettyChars (level : Nat) (v : Value) : List Char := (v.pretty level).toList

def prettyItemChars (level : Nat) : List Value → List Char
  | [] => []
  | [v] => lineBreak level ++ prettyChars level v
  | v :: w :: vs => lineBreak level ++ (prettyChars level v ++ ',' :: prettyItemChars level (w :: vs))

def prettyFieldChars (level : Nat) : List (String × Value) → List Char
  | [] => []
  | [(k, v)] => lineBreak level ++ ((renderStr k).toList ++ ':' :: ' ' :: prettyChars level v)
  | (k, v) :: p :: ps =>
    lineBreak level ++ ((renderStr k).toList ++ ':' :: ' ' :: (prettyChars level v ++ ',' :: prettyFieldChars level (p :: ps)))

attribute [local simp] Value.pretty Value.prettyItems Value.prettyFields prettyItemChars prettyFieldChars

theorem prettyChars_array (level : Nat) (v : Value) (vs : List Value) : prettyChars level (.array (v :: vs)) =
    '[' :: (prettyItemChars (level + 1) (v :: vs) ++ (lineBreak level ++ [']'])) := by
  have hitems : ∀ v vs, '\n' :: (join ",\n" (Value.prettyItems (level + 1) (v :: vs))).toList =
      prettyItemChars (level + 1) (v :: vs) := by
    intro v vs
    induction vs generalizing v with
    | nil => simp [join, indent, lineBreak, prettyChars]
    | cons w vs ih =>
      have ih' := ih w
      simp only [Value.prettyItems] at ih' ⊢
      simp only [join, String.toList_append, prettyItemChars]
      rw [← ih']
      simp [indent, lineBreak, prettyChars]
  rw [← hitems]
  simp [prettyChars, indent, lineBreak]

theorem prettyChars_object (level : Nat) (f : String × Value) (fs : List (String × Value)) :
    prettyChars level (.object (f :: fs)) =
      '\x7b' :: (prettyFieldChars (level + 1) (f :: fs) ++ (lineBreak level ++ ['\x7d'])) := by
  have hfields : ∀ f fs, '\n' :: (join ",\n" (Value.prettyFields (level + 1) (f :: fs))).toList =
      prettyFieldChars (level + 1) (f :: fs) := by
    intro f fs
    induction fs generalizing f with
    | nil =>
      obtain ⟨k, v⟩ := f
      simp [join, indent, lineBreak, prettyChars]
    | cons p ps ih =>
      obtain ⟨k, v⟩ := f
      obtain ⟨l, w⟩ := p
      have ih' := ih (l, w)
      simp only [Value.prettyFields] at ih' ⊢
      simp only [join, String.toList_append, prettyFieldChars]
      rw [← ih']
      simp [indent, lineBreak, prettyChars]
  rw [← hfields]
  simp [prettyChars, indent, lineBreak]

omit [External] in
theorem skipBlank_lineBreak (level : Nat) (cs : List Char) : skipBlank (lineBreak level ++ cs) = skipBlank cs := by
  have hspaces : ∀ n, skipBlank (List.replicate n ' ' ++ cs) = skipBlank cs := by
    intro n
    induction n with
    | zero => rfl
    | succ n ih => exact ih
  exact hspaces (2 * level)

omit [External] in
theorem readValue_lineBreak (fuel room level : Nat) (cs : List Char) :
    readValue fuel room (lineBreak level ++ cs) = readValue fuel room cs := by
  cases fuel with
  | zero => rfl
  | succ fuel => rw [readValue, skipBlank_lineBreak, readValue]

omit [External] in
theorem readItems_lineBreak (fuel room level : Nat) (cs : List Char) :
    readItems fuel room (lineBreak level ++ cs) = readItems fuel room cs := by
  cases fuel with
  | zero => rfl
  | succ fuel => rw [readItems, readValue_lineBreak, readItems]

omit [External] in
theorem readFields_lineBreak (fuel room level : Nat) (m : Map) (cs : List Char) :
    readFields fuel room m (lineBreak level ++ cs) = readFields fuel room m cs := by
  cases fuel with
  | zero => rfl
  | succ fuel => rw [readFields, skipBlank_lineBreak, readFields]

omit [External] in
theorem stops_lineBreak (level : Nat) (cs : List Char) : Stops (lineBreak level ++ cs) :=
  ⟨by decide, by decide, by decide, by decide⟩

theorem opens_prettyChars (level : Nat) {depth : Nat} {v : Value} (h : Exact depth v) (rest : List Char) :
    Opens (prettyChars level v ++ rest) := by
  cases h with
  | null => exact opens_chars (.null 0) rest
  | bool d b => exact opens_chars (.bool 0 b) rest
  | posInt d n => exact opens_chars (.posInt 0 n) rest
  | negInt d n hn => exact opens_chars (.negInt 0 n hn) rest
  | string d s => exact opens_chars (.string 0 s) rest
  | @array d vs h =>
    cases vs with
    | nil => exact opens_chars (.array h) rest
    | cons v vs =>
      rw [prettyChars_array]
      exact ⟨by decide, by decide, by decide⟩
  | @object d fs h ho =>
    cases fs with
    | nil => exact opens_chars (.object h ho) rest
    | cons f fs =>
      rw [prettyChars_object]
      exact ⟨by decide, by decide, by decide⟩

def PrettyReadsBack (depth : Nat) (v : Value) : Prop :=
  ∀ (level fuel room : Nat) (rest : List Char), depth < room → 2 * (prettyChars level v).length ≤ fuel → Stops rest →
    readValue fuel room (prettyChars level v ++ rest) = some (v, rest)

theorem readItems_pretty {depth : Nat} (level : Nat) : ∀ (vs : List Value), vs ≠ [] →
    (∀ v ∈ vs, PrettyReadsBack depth v) →
    ∀ (fuel room outer : Nat) (rest : List Char), depth < room → 2 * (prettyItemChars level vs).length + 1 ≤ fuel →
      readItems fuel room (prettyItemChars level vs ++ (lineBreak outer ++ ']' :: rest)) = some (vs, rest)
  | [], hne, _, _, _, _, _, _, _ => absurd rfl hne
  | [v], _, h, fuel, room, outer, rest, hroom, hfuel => by
    obtain ⟨fuel, rfl⟩ : ∃ k, fuel = k + 1 := ⟨fuel - 1, by omega⟩
    simp only [prettyItemChars, List.length_append] at hfuel
    have hv := h v List.mem_cons_self level fuel room (lineBreak outer ++ ']' :: rest) hroom (by omega) (stops_lineBreak _ _)
    rw [prettyItemChars, List.append_assoc, readItems_lineBreak, readItems, hv, Option.bind_eq_bind, Option.bind_some]
    dsimp only
    rw [skipBlank_lineBreak, skipBlank_cons _ (by decide)]
    rfl
  | v :: w :: vs, _, h, fuel, room, outer, rest, hroom, hfuel => by
    obtain ⟨fuel, rfl⟩ : ∃ k, fuel = k + 1 := ⟨fuel - 1, by omega⟩
    simp only [prettyItemChars, List.length_append, List.length_cons] at hfuel
    have hv := h v List.mem_cons_self level fuel room
      (',' :: (prettyItemChars level (w :: vs) ++ (lineBreak outer ++ ']' :: rest))) hroom (by omega) (stops_of _ (.inl rfl))
    have hrest := readItems_pretty level (w :: vs) (List.cons_ne_nil _ _)
      (fun u hu => h u (List.mem_cons_of_mem _ hu)) fuel room outer rest hroom (by omega)
    rw [prettyItemChars, List.append_assoc, readItems_lineBreak, readItems, List.append_assoc, List.cons_append, hv,
      Option.bind_eq_bind, Option.bind_some]
    dsimp only
    rw [skipBlank_cons _ (by decide)]
    simp only [hrest]
    rfl

theorem readField {fuel room level : Nat} {tail : List Char} {k : String} {v : Value} (m : Map)
    (hk : k.toList.length < fuel) (hv : readValue fuel room (prettyChars level v ++ tail) = some (v, tail)) :
    readFields (fuel + 1) room m ((renderStr k).toList ++ ':' :: ' ' :: (prettyChars level v ++ tail)) =
      match skipBlank tail with
      | ',' :: cs => readFields fuel room (Map.insert k v m) cs
      | '\x7d' :: cs => some (Map.insert k v m, cs)
      | _ => none := by
  have hkey := readStr_escaped k.toList [] (':' :: ' ' :: (prettyChars level v ++ tail)) fuel hk
  have hspace : readValue fuel room (' ' :: (prettyChars level v ++ tail)) = readValue fuel room (prettyChars level v ++ tail) := by
    cases fuel with
    | zero => rfl
    | succ fuel =>
      rw [readValue, readValue]
      rfl
  simp only [List.reverse_nil, List.nil_append, String.ofList_toList] at hkey
  rw [renderStr_toList, List.cons_append, List.append_assoc, readFields, skipBlank_cons _ (by decide)]
  simp only [List.cons_append, List.nil_append, hkey]
  rw [Option.bind_eq_bind, Option.bind_some]
  simp only [skipBlank_cons _ (show ':' ≠ ' ' ∧ ':' ≠ '\n' ∧ ':' ≠ '\t' ∧ ':' ≠ '\r' by decide), hspace, hv]
  rfl

theorem readFields_pretty {depth : Nat} (level : Nat) : ∀ (fs : List (String × Value)), fs ≠ [] →
    (∀ p ∈ fs, PrettyReadsBack depth p.2) →
    ∀ (m : Map) (fuel room outer : Nat) (rest : List Char), depth < room → Map.Ordered (m ++ fs) →
      2 * (prettyFieldChars level fs).length + 1 ≤ fuel →
      readFields fuel room m (prettyFieldChars level fs ++ (lineBreak outer ++ '\x7d' :: rest)) = some (m ++ fs, rest)
  | [], hne, _, _, _, _, _, _, _, _, _ => absurd rfl hne
  | (k, v) :: fs, _, h, m, fuel, room, outer, rest, hroom, hord, hfuel => by
    obtain ⟨fuel, rfl⟩ : ∃ k, fuel = k + 1 := ⟨fuel - 1, by omega⟩
    have hlast : Map.insert k v m = m ++ [(k, v)] := by
      refine Map.insert_last fun p hp => ?_
      exact (List.pairwise_append.mp hord).2.2 p hp (k, v) List.mem_cons_self
    have hkey := length_escaped k.toList
    cases fs with
    | nil =>
      simp only [prettyFieldChars, renderStr_toList, List.length_append, List.length_cons] at hfuel
      have hv := h (k, v) List.mem_cons_self level fuel room (lineBreak outer ++ '\x7d' :: rest) hroom
        (show 2 * (prettyChars level v).length ≤ fuel by omega) (stops_lineBreak _ _)
      simp only [prettyFieldChars, List.append_assoc, List.cons_append]
      rw [readFields_lineBreak, readField m (by omega) hv, skipBlank_lineBreak, skipBlank_cons _ (by decide)]
      simp only [hlast]
    | cons p ps =>
      simp only [prettyFieldChars, renderStr_toList, List.length_append, List.length_cons] at hfuel
      have hv := h (k, v) List.mem_cons_self level fuel room
        (',' :: (prettyFieldChars level (p :: ps) ++ (lineBreak outer ++ '\x7d' :: rest))) hroom
        (show 2 * (prettyChars level v).length ≤ fuel by omega) (stops_of _ (.inl rfl))
      have hord' : Map.Ordered ((m ++ [(k, v)]) ++ p :: ps) := by
        rw [List.append_assoc]
        exact hord
      have hrest := readFields_pretty level (p :: ps) (List.cons_ne_nil _ _)
        (fun q hq => h q (List.mem_cons_of_mem _ hq)) (m ++ [(k, v)]) fuel room outer rest hroom hord' (by omega)
      simp only [prettyFieldChars, List.append_assoc, List.cons_append]
      rw [readFields_lineBreak, readField m (by omega) hv, skipBlank_cons _ (by decide)]
      simp only [hlast, hrest, List.append_assoc]
      rfl

theorem prettyItemChars_cons (level : Nat) (v : Value) (vs : List Value) :
    ∃ more, prettyItemChars level (v :: vs) = lineBreak level ++ (prettyChars level v ++ more) := by
  cases vs with
  | nil => exact ⟨[], by rw [prettyItemChars, List.append_nil]⟩
  | cons w vs => exact ⟨_, rfl⟩

theorem prettyFieldChars_cons (level : Nat) (f : String × Value) (fs : List (String × Value)) :
    ∃ more, prettyFieldChars level (f :: fs) = lineBreak level ++ '"' :: more := by
  obtain ⟨k, v⟩ := f
  cases fs with
  | nil => exact ⟨_, by rw [prettyFieldChars, renderStr_toList, List.cons_append]⟩
  | cons p ps => exact ⟨_, by rw [prettyFieldChars, renderStr_toList, List.cons_append]⟩

theorem prettyReadsBack {depth : Nat} {v : Value} (h : Exact depth v) : PrettyReadsBack depth v := by
  induction h with
  | null d => exact fun _ => readsBack (.null d)
  | bool d b => exact fun _ => readsBack (.bool d b)
  | posInt d n => exact fun _ => readsBack (.posInt d n)
  | negInt d n hn => exact fun _ => readsBack (.negInt d n hn)
  | string d s => exact fun _ => readsBack (.string d s)
  | @array d vs h ih =>
    cases vs with
    | nil => exact fun _ => readsBack (.array h)
    | cons v vs =>
      intro level fuel room rest hroom hfuel _
      rw [prettyChars_array] at hfuel ⊢
      simp only [List.length_cons, List.length_append] at hfuel
      obtain ⟨fuel, rfl⟩ : ∃ k, fuel = k + 1 := ⟨fuel - 1, by omega⟩
      have hdeep : ¬ room ≤ 1 := by omega
      have hdig : isAsciiDigit '[' = false := by decide
      have hitems := readItems_pretty (level + 1) (v :: vs) (List.cons_ne_nil _ _) ih fuel (room - 1) level rest
        (by omega) (by omega)
      rw [List.cons_append, List.append_assoc, List.append_assoc, List.cons_append, List.nil_append, readValue,
        skipBlank_cons _ (by decide)]
      obtain ⟨more, hmore⟩ := prettyItemChars_cons (level + 1) v vs
      have hopens := opens_prettyChars (level + 1) (h v List.mem_cons_self) (more ++ (lineBreak level ++ ']' :: rest))
      rw [hmore, List.append_assoc, List.append_assoc] at hitems ⊢
      cases htext : prettyChars (level + 1) v ++ (more ++ (lineBreak level ++ ']' :: rest)) with
      | nil =>
        rw [htext] at hopens
        exact absurd hopens id
      | cons c cs =>
        rw [htext] at hitems hopens
        rw [readItems_lineBreak] at hitems
        simp only [Char.reduceEq, if_false, if_true, hdig, Bool.false_eq_true, if_neg hdeep, skipBlank_lineBreak,
          skipBlank_cons _ hopens.1]
        split
        next heq => exact absurd (List.cons.inj heq).1 hopens.2.1
        · rw [hitems]
          rfl
  | @object d fs h ho ih =>
    cases fs with
    | nil => exact fun _ => readsBack (.object h ho)
    | cons f fs =>
      intro level fuel room rest hroom hfuel _
      rw [prettyChars_object] at hfuel ⊢
      simp only [List.length_cons, List.length_append] at hfuel
      obtain ⟨fuel, rfl⟩ : ∃ k, fuel = k + 1 := ⟨fuel - 1, by omega⟩
      have hdeep : ¬ room ≤ 1 := by omega
      have hdig : isAsciiDigit '\x7b' = false := by decide
      have hfields := readFields_pretty (level + 1) (f :: fs) (List.cons_ne_nil _ _) ih [] fuel (room - 1) level rest
        (by omega) ho (by omega)
      rw [List.cons_append, List.append_assoc, List.append_assoc, List.cons_append, List.nil_append, readValue,
        skipBlank_cons _ (by decide)]
      obtain ⟨more, hmore⟩ := prettyFieldChars_cons (level + 1) f fs
      rw [hmore, List.append_assoc, List.cons_append] at hfields ⊢
      rw [readFields_lineBreak] at hfields
      simp only [Char.reduceEq, if_false, if_true, hdig, Bool.false_eq_true, if_neg hdeep, skipBlank_lineBreak,
        skipBlank_cons _ (show '"' ≠ ' ' ∧ '"' ≠ '\n' ∧ '"' ≠ '\t' ∧ '"' ≠ '\r' by decide)]
      split
      next heq => exact absurd (List.cons.inj heq).1 (by decide)
      · rw [hfields]
        rfl

theorem fromStr_pretty {depth : Nat} {v : Value} (h : Exact depth v) (hd : depth < 128) : fromStr (v.pretty 0) = some v := by
  have hread := prettyReadsBack h 0 (2 * (prettyChars 0 v).length + 2) 128 [] hd (by omega) trivial
  rw [List.append_nil] at hread
  unfold fromStr
  rw [show (v.pretty 0).toList = prettyChars 0 v from rfl, hread]
  rfl

end

end Vejas.Json
