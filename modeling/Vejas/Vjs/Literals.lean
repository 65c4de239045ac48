import Vejas.Vjs.Keeping

/-! The literals of constants: a grammar of their own, the value of each, and how the parser reads them. -/

namespace Vejas.Vjs
open Json Rust

/-- A literal as it is written. -/
inductive Datum
  | num (x : Float)
  | neg (x : Float)
  | str (s : String)
  | bool (b : Bool)
  | null
  | array (ds : List Datum)
  | doc (fs : List (String × Datum))

mutual

def Datum.value : Datum → Option Value
  | .num x => some (Vjs.num x)
  | .neg x => some (Vjs.num (-x))
  | .str s => some (.string s)
  | .bool b => some (.bool b)
  | .null => some .null
  | .array ds => (valuesOf ds).map .array
  | .doc fs => if (fs.map (·.1)).Nodup then (entriesOf fs).map .obj else none

def valuesOf : List Datum → Option (List Value)
  | [] => some []
  | d :: ds => d.value.bind fun v => (valuesOf ds).map (v :: ·)

def entriesOf : List (String × Datum) → Option (List (String × Value))
  | [] => some []
  | (key, d) :: fs => d.value.bind fun v => (entriesOf fs).map ((key, v) :: ·)

end

inductive DatumPhrase
  | one (d : Datum)
  | items (ds : List Datum)
  | fields (fs : List (String × Datum))

/-- The tokens put down the literal. -/
inductive Puts : DatumPhrase → List Tok → Prop
  | num (x : Float) : Puts (.one (.num x)) [.num x]
  | neg (x : Float) : Puts (.one (.neg x)) [.sym .minus, .num x]
  | str (s : String) : Puts (.one (.str s)) [.str s]
  | yes : Puts (.one (.bool true)) [.sym .true]
  | no : Puts (.one (.bool false)) [.sym .false]
  | null : Puts (.one .null) [.sym .null]
  | array {ds : List Datum} {blank ts : List Tok} (hb : Blank blank) (h : Puts (.items ds) ts) :
      Puts (.one (.array ds)) (.sym .lBrack :: (blank ++ (ts ++ [.sym .rBrack])))
  | doc {fs : List (String × Datum)} {blank ts : List Tok} (hb : Blank blank) (h : Puts (.fields fs) ts) :
      Puts (.one (.doc fs)) (.sym .lBrace :: (blank ++ (ts ++ [.sym .rBrace])))
  | noItems : Puts (.items []) []
  | item {d : Datum} {ds : List Datum} {ts sep us : List Tok} (hd : Puts (.one d) ts) (hsep : Separator sep)
      (h : Puts (.items ds) us) : Puts (.items (d :: ds)) (ts ++ (sep ++ us))
  | noFields : Puts (.fields []) []
  | keyed {key : String} {t : Tok} {d : Datum} {fs : List (String × Datum)} {ts sep us : List Tok}
      (ht : t.word? = some key) (hd : Puts (.one d) ts) (hsep : Separator sep) (h : Puts (.fields fs) us) :
      Puts (.fields ((key, d) :: fs)) (t :: .sym .colon :: (ts ++ (sep ++ us)))

def DatumPhrase.Rendered : DatumPhrase → List Tok → Prop
  | .one _, ts => ∃ e, Renders (.expr e) ts
  | .items _, ts => ∃ es, Renders (.items es) ts
  | .fields _, ts => ∃ fs, Renders (.fields fs) ts

theorem Puts.renders {φ : DatumPhrase} {ts : List Tok} (h : Puts φ ts) : φ.Rendered ts := by
  induction h with
  | num x => exact ⟨_, .num x⟩
  | neg x => exact ⟨_, .unary .neg (.num x)⟩
  | str s => exact ⟨_, .str s⟩
  | yes => exact ⟨_, .bool true⟩
  | no => exact ⟨_, .bool false⟩
  | null => exact ⟨_, .null⟩
  | array hb h ih =>
    obtain ⟨es, hes⟩ := ih
    exact ⟨_, .array hb hes⟩
  | doc hb h ih =>
    obtain ⟨fs, hfs⟩ := ih
    exact ⟨_, .doc hb hfs⟩
  | noItems => exact ⟨_, .noItems⟩
  | item hd hsep h ihd ih =>
    obtain ⟨e, he⟩ := ihd
    obtain ⟨es, hes⟩ := ih
    exact ⟨_, .item he hsep hes⟩
  | noFields => exact ⟨_, .noFields⟩
  | keyed ht hd hsep h ihd ih =>
    obtain ⟨e, he⟩ := ihd
    obtain ⟨fs, hfs⟩ := ih
    exact ⟨_, .keyed ht he hsep hfs⟩

section
variable [External] {p : Input}

mutual

theorem puts_literal : ∀ fuel i, Yields (literalValue p fuel) i fun _ j => ∃ ts d, Stand p i ts j ∧ Puts (.one d) ts
  | 0, _ => by
    intro a j hrun
    cases hrun
  | fuel + 1, i => by
    unfold literalValue
    refine Yields.next fun t ht => ?_
    split
    · exact Yields.pos (yields_pure ⟨_, _, stand_one ht rfl, .str _⟩)
    · exact Yields.pos (yields_pure ⟨_, _, stand_one ht rfl, .num _⟩)
    · exact Yields.pos (yields_pure ⟨_, _, stand_one ht rfl, .yes⟩)
    · exact Yields.pos (yields_pure ⟨_, _, stand_one ht rfl, .no⟩)
    · exact Yields.pos (yields_pure ⟨_, _, stand_one ht rfl, .null⟩)
    · refine Yields.next fun u hu => ?_
      split
      · exact Yields.pos (yields_pure ⟨_, _, stand_cons ht rfl (stand_one hu rfl), .neg _⟩)
      · exact yields_fail _
    · refine taken_newlines.bind fun _ j hj => (puts_items fuel j).bind fun vs k hk => Yields.pos (yields_pure ?_)
      obtain ⟨blank, hblank, hj⟩ := hj
      obtain ⟨ts, ds, hts, hput⟩ := hk
      exact ⟨_, _, stand_cons ht rfl (hj.append hts), .array hblank hput⟩
    · refine taken_newlines.bind fun _ j hj => (puts_fields fuel [] [] j).bind fun r k hk => Yields.pos (yields_pure ?_)
      obtain ⟨blank, hblank, hj⟩ := hj
      obtain ⟨ts, fs, hts, hput⟩ := hk
      exact ⟨_, _, stand_cons ht rfl (hj.append hts), .doc hblank hput⟩
    · exact yields_fail _

theorem puts_items : ∀ fuel i, Yields (literalItems p fuel) i fun _ j =>
    ∃ ts ds, Stand p i (ts ++ [.sym .rBrack]) j ∧ Puts (.items ds) ts
  | 0, _ => by
    intro a j hrun
    cases hrun
  | fuel + 1, i => by
    unfold literalItems
    refine Yields.accept (fun hclose => yields_pure ⟨[], [], stand_one hclose rfl, .noItems⟩) fun _ => ?_
    refine (puts_literal fuel i).bind fun l j hl => taken_itemEnd.bind fun _ k hk => ?_
    refine (puts_items fuel k).bind fun vs m hm => yields_pure ?_
    obtain ⟨ts, d, hts, hput⟩ := hl
    obtain ⟨sep, hsep, hk⟩ := hk
    obtain ⟨us, ds, hus, hput'⟩ := hm
    refine ⟨ts ++ (sep ++ us), d :: ds, ?_, .item hput hsep hput'⟩
    rw [List.append_assoc, List.append_assoc]
    exact hts.append (hk.append hus)

theorem puts_fields : ∀ fuel map spans i, Yields (literalFields p fuel map spans) i fun _ j =>
    ∃ ts fs, Stand p i (ts ++ [.sym .rBrace]) j ∧ Puts (.fields fs) ts
  | 0, _, _, _ => by
    intro a j hrun
    cases hrun
  | fuel + 1, map, spans, i => by
    rw [literalFields]
    refine Yields.accept (fun hclose => yields_pure ⟨[], [], stand_one hclose rfl, .noFields⟩) fun _ => ?_
    refine taken_word.bind fun key j hj => (taken_eat rfl).bind fun _ k hk => Yields.pos ?_
    refine (puts_literal fuel k).bind fun l m hm => Yields.pos (taken_itemEnd.bind fun _ n hn => ?_)
    intro r o hrun
    obtain ⟨us, fs, hus, hput'⟩ := puts_fields fuel _ _ n r o hrun
    obtain ⟨t, ht, hj⟩ := hj
    obtain ⟨ts, d, hts, hput⟩ := hm
    obtain ⟨sep, hsep, hn⟩ := hn
    refine ⟨_, (key, d) :: fs, ?_, .keyed ht hput hsep hput'⟩
    have hall := hj.append (hk.append (hts.append (hn.append hus)))
    simpa using hall

end

end

/-- Where there is fuel enough, `m` comes from `i` to `j` and finds something with `Q`. -/
def Arrives {α : Type} (m : Parse α) (i j : Nat) (Q : α → Prop) : Prop :=
  m i = .error .outOfFuel ∨ ∃ a, m i = .ok (a, j) ∧ Q a

section
variable {α β : Type} {p : Input} {i j k : Nat} {Q : α → Prop} {R : β → Prop}

theorem Arrives.bind {m : Parse α} {f : α → Parse β} (h : Arrives m i j Q) (hf : ∀ a, Q a → Arrives (f a) j k R) :
    Arrives (m >>= f) i k R := by
  rcases h with hfuel | ⟨a, hrun, ha⟩
  · exact .inl (bind_stops hfuel)
  · unfold Arrives
    rw [bind_run hrun]
    exact hf a ha

theorem Arrives.after {m : Parse α} {f : α → Parse β} {a : α} (h : m i = .ok (a, j)) (hf : Arrives (f a) j k R) :
    Arrives (m >>= f) i k R := by
  unfold Arrives
  rwa [bind_run h]

theorem arrives_pure {a : α} (h : Q a) : Arrives (pure a) i i Q := .inr ⟨a, rfl, h⟩

theorem skip_blank {blank : List Tok} (hb : Blank blank) (h : Stand p i blank j) (hend : (p.tokAt j).is .newline = false) :
    p.skipNewlines i = .ok ((), j) := by
  induction h with
  | nil i => exact skipNewlines_run hend
  | @cons i j t ts ht tail ih =>
    have hrest := ih (fun u hu => hb u (List.mem_cons_of_mem t hu)) hend
    rw [skipNewlines_iff] at hrest ⊢
    refine ⟨Nat.le_of_succ_le hrest.1, fun x hx => ?_, hrest.2.2⟩
    cases x with
    | zero => exact ⟨t, ht, by rw [hb t List.mem_cons_self]; rfl⟩
    | succ x =>
      have hlater := hrest.2.1 x (by omega)
      rwa [Nat.add_assoc, Nat.add_comm 1 x] at hlater

theorem itemEnd_run {sep : List Tok} (hsep : Separator sep) (h : Stand p i sep j) (hnewline : (p.tokAt j).is .newline = false)
    (hcomma : (p.tokAt j).is .comma = false) : p.itemEnd i = .ok ((), j) := by
  unfold Input.itemEnd
  rcases hsep with hblank | ⟨us, vs, hus, hvs, rfl⟩
  · rw [bind_run (skip_blank hblank h hnewline), bind_run (accept_false hcomma)]
    rfl
  · obtain ⟨k, hfirst, hrest⟩ := h.split
    obtain ⟨htok, hlast⟩ := hrest.uncons
    have hskip := skip_blank hus hfirst (by rw [htok]; rfl)
    rw [bind_run hskip, bind_run (accept_true (by rw [htok]; rfl)), if_pos rfl]
    exact skip_blank hvs hlast hnewline

theorem stand_nil (h : Stand p i [] j) : i = j := by
  cases h
  rfl

theorem stand_head {t : Tok} {ts : List Tok} (h : Stand p i (t :: ts) j) : p.tokAt i = t := h.uncons.1

end

theorem Puts.opens {d : Datum} {ts : List Tok} (h : Puts (.one d) ts) : ∃ t us, ts = t :: us ∧ t.opens = true := by
  cases h <;> exact ⟨_, _, rfl, rfl⟩

theorem opens_word {t : Tok} {w : String} (h : t.word? = some w) : t.opens = true := by
  have hword : t.word?.isSome = true := by rw [h]; rfl
  cases t with
  | sym c => cases c <;> first | rfl | (exact absurd hword (by decide))
  | _ => rfl

def Begun (p : Input) (i : Nat) : Prop := (p.tokAt i).is .newline = false ∧ (p.tokAt i).is .comma = false

section
variable {p : Input} {i j : Nat}

theorem begun_of_opens {t : Tok} (h : p.tokAt i = t) (ht : t.opens = true) : Begun p i := by
  unfold Begun
  rw [h]
  exact ⟨(Tok.opens_iff.mp ht).1, (Tok.opens_iff.mp ht).2.2.2⟩

theorem Puts.items_begun {ds : List Datum} {ts : List Tok} (h : Puts (.items ds) ts) (hs : Stand p i (ts ++ [.sym .rBrack]) j) :
    Begun p i := by
  cases h with
  | noItems => exact ⟨by rw [stand_head hs]; rfl, by rw [stand_head hs]; rfl⟩
  | item hd hsep h =>
    obtain ⟨t, us, rfl, ht⟩ := hd.opens
    exact begun_of_opens (stand_head hs) ht

theorem Puts.fields_begun {fs : List (String × Datum)} {ts : List Tok} (h : Puts (.fields fs) ts)
    (hs : Stand p i (ts ++ [.sym .rBrace]) j) : Begun p i := by
  cases h with
  | noFields => exact ⟨by rw [stand_head hs]; rfl, by rw [stand_head hs]; rfl⟩
  | keyed ht hd hsep h => exact begun_of_opens (stand_head hs) (opens_word ht)

end

section
variable [External] {p : Input}

theorem word_run {i : Nat} {t : Tok} {w what : String} (h : p.tokAt i = t) (ht : t.word? = some w) :
    p.word what i = .ok (w, i + 1) := by
  unfold Input.word
  rw [bind_run (peek_run h)]
  cases t with
  | sym c =>
    have ht : (keywords.find? fun k => k.2 == c).map (·.1) = some w := ht
    dsimp only
    rw [ht]
    rfl
  | ident n =>
    cases ht
    rfl
  | str n =>
    cases ht
    rfl
  | num x => cases ht
  | fStr parts => cases ht

def DatumPhrase.Read (p : Input) : DatumPhrase → List Tok → Prop
  | .one d, ts => ∀ fuel i j, Stand p i ts j → Arrives (literalValue p fuel) i j fun l => ∀ v, d.value = some v → l.1 = v
  | .items ds, ts => ∀ fuel i j, Stand p i (ts ++ [.sym .rBrack]) j →
      Arrives (literalItems p fuel) i j fun vs => ∀ ws, valuesOf ds = some ws → vs = ws
  | .fields fs, ts => ∀ fuel map spans i j, Stand p i (ts ++ [.sym .rBrace]) j →
      Arrives (literalFields p fuel map spans) i j fun r => ∀ es, entriesOf fs = some es → r.1 = Map.extend es map

theorem literal_token {t : Tok} {v : Value} {d : Datum} (h : Reads [t] v) (hd : d.value = some v) :
    DatumPhrase.Read p (.one d) [t] := by
  intro fuel i j hs
  cases fuel with
  | zero => exact .inl rfl
  | succ fuel =>
    have hafter := stand_after hs
    obtain ⟨spans, stop, hrun⟩ := h.run hafter (Nat.le_add_left 1 fuel)
    obtain ⟨-, hs⟩ := hs.uncons
    cases hs
    exact .inr ⟨_, hrun, fun v' hv' => Option.some.inj (hd.symm.trans hv')⟩

theorem Puts.read {φ : DatumPhrase} {ts : List Tok} (h : Puts φ ts) : φ.Read p ts := by
  induction h with
  | num x => exact literal_token (reads_num x) rfl
  | neg x =>
    intro fuel i j hs
    obtain ⟨hminus, hs⟩ := hs.uncons
    obtain ⟨htok, hs⟩ := hs.uncons
    cases hs
    cases fuel with
    | zero => exact .inl rfl
    | succ fuel =>
      unfold literalValue
      refine .after (next_run hminus) ?_
      exact .after (next_run htok) (.after pos_run (arrives_pure fun v hv => Option.some.inj hv))
  | str s => exact literal_token (reads_str s) rfl
  | yes => exact literal_token (reads_bool true) rfl
  | no => exact literal_token (reads_bool false) rfl
  | null => exact literal_token reads_null rfl
  | @array ds blank ts hb h ih =>
    intro fuel i j hs
    obtain ⟨htok, hs⟩ := hs.uncons
    obtain ⟨k, hblank, hs⟩ := hs.split
    cases fuel with
    | zero => exact .inl rfl
    | succ fuel =>
      unfold literalValue
      refine .after (next_run htok) (.after (skip_blank hb hblank (h.items_begun hs).1) ?_)
      refine (ih fuel k j hs).bind fun vs hvs => .after pos_run (arrives_pure fun v hv => ?_)
      obtain ⟨ws, hws, rfl⟩ := Option.map_eq_some_iff.mp hv
      exact congrArg Value.array (hvs ws hws)
  | @doc fs blank ts hb h ih =>
    intro fuel i j hs
    obtain ⟨htok, hs⟩ := hs.uncons
    obtain ⟨k, hblank, hs⟩ := hs.split
    cases fuel with
    | zero => exact .inl rfl
    | succ fuel =>
      unfold literalValue
      refine .after (next_run htok) (.after (skip_blank hb hblank (h.fields_begun hs).1) ?_)
      refine (ih fuel [] [] k j hs).bind fun r hr => .after pos_run (arrives_pure fun v hv => ?_)
      unfold Datum.value at hv
      split at hv
      · obtain ⟨es, hes, rfl⟩ := Option.map_eq_some_iff.mp hv
        exact congrArg Value.object (hr es hes)
      · cases hv
  | noItems =>
    intro fuel i j hs
    obtain ⟨hclose, hs⟩ := hs.uncons
    cases hs
    cases fuel with
    | zero => exact .inl rfl
    | succ fuel =>
      unfold literalItems
      exact .after (accept_true (by rw [hclose]; rfl)) (arrives_pure fun ws hws => Option.some.inj hws)
  | @item d ds ts sep us hd hsep h ihd ih =>
    intro fuel i j hs
    obtain ⟨t, ts', hts, ht⟩ := hd.opens
    have hopen : (p.tokAt i).is .rBrack = false := by
      rw [hts] at hs
      rw [stand_head hs]
      exact (Tok.opens_iff.mp ht).2.1
    rw [List.append_assoc, List.append_assoc] at hs
    obtain ⟨k, hone, hs⟩ := hs.split
    obtain ⟨l, hsepd, hs⟩ := hs.split
    obtain ⟨hnewline, hcomma⟩ := h.items_begun hs
    cases fuel with
    | zero => exact .inl rfl
    | succ fuel =>
      unfold literalItems
      refine .after (accept_false hopen) ((ihd fuel i k hone).bind fun r hr => ?_)
      refine .after (itemEnd_run hsep hsepd hnewline hcomma) ((ih fuel l j hs).bind fun vs hvs => arrives_pure fun ws hws => ?_)
      obtain ⟨v, hv, hws⟩ := Option.bind_eq_some_iff.mp hws
      obtain ⟨vs', hvs', rfl⟩ := Option.map_eq_some_iff.mp hws
      rw [hr v hv, hvs vs' hvs']
  | noFields =>
    intro fuel map spans i j hs
    obtain ⟨hclose, hs⟩ := hs.uncons
    cases hs
    cases fuel with
    | zero => exact .inl rfl
    | succ fuel =>
      rw [literalFields]
      refine .after (accept_true (by rw [hclose]; rfl)) (arrives_pure fun es hes => ?_)
      rw [← Option.some.inj hes]
      rfl
  | @keyed key t d fs ts sep us ht hd hsep h ihd ih =>
    intro fuel map spans i j hs
    obtain ⟨hkey, hs⟩ := hs.uncons
    obtain ⟨hcolon, hs⟩ := hs.uncons
    have hs : Stand p (i + 1 + 1) ((ts ++ (sep ++ us)) ++ [.sym .rBrace]) j := hs
    rw [List.append_assoc, List.append_assoc] at hs
    obtain ⟨k, hone, hs⟩ := hs.split
    obtain ⟨l, hsepd, hs⟩ := hs.split
    obtain ⟨hnewline, hcomma⟩ := h.fields_begun hs
    have hopen : (p.tokAt i).is .rBrace = false := by
      rw [hkey]
      exact (Tok.opens_iff.mp (opens_word ht)).2.2.1
    cases fuel with
    | zero => exact .inl rfl
    | succ fuel =>
      rw [literalFields]
      refine .after (accept_false hopen) (.after (word_run hkey ht) (.after (eat_run hcolon) (.after pos_run ?_)))
      refine (ihd fuel _ k hone).bind fun r hr => .after pos_run (.after (itemEnd_run hsep hsepd hnewline hcomma) ?_)
      obtain hstop | ⟨r', hrun, hr'⟩ := ih fuel (map.insert key r.1) (spans ++ [(key, (p.posAt (i + 1 + 1), p.posAt k))]) l j hs
      · exact .inl hstop
      · refine .inr ⟨r', hrun, fun es hes => ?_⟩
        obtain ⟨v, hv, hes⟩ := Option.bind_eq_some_iff.mp hes
        obtain ⟨es', hes', rfl⟩ := Option.map_eq_some_iff.mp hes
        rw [hr' es' hes', hr v hv]
        rfl

def DatumPhrase.Sole (p : Input) : DatumPhrase → List Tok → Prop
  | .one d, ts => ∀ i j d' ts' j', Stand p i ts j → Puts (.one d') ts' → Stand p i ts' j' → d = d' ∧ j = j'
  | .items ds, ts => ∀ i j ds' ts' j', Stand p i (ts ++ [.sym .rBrack]) j → Puts (.items ds') ts' →
      Stand p i (ts' ++ [.sym .rBrack]) j' → ds = ds' ∧ j = j'
  | .fields fs, ts => ∀ i j fs' ts' j', Stand p i (ts ++ [.sym .rBrace]) j → Puts (.fields fs') ts' →
      Stand p i (ts' ++ [.sym .rBrace]) j' → fs = fs' ∧ j = j'

omit [External] in
theorem sole_token {t : Tok} {d : Datum} (h : ∀ d' us, Puts (.one d') (t :: us) → d' = d ∧ us = []) :
    DatumPhrase.Sole p (.one d) [t] := by
  intro i j d' ts' j' hs hput hs'
  obtain ⟨u, us, rfl, -⟩ := hput.opens
  obtain ⟨htok, hs⟩ := hs.uncons
  obtain ⟨htok', hrest⟩ := hs'.uncons
  obtain rfl : t = u := htok.symm.trans htok'
  obtain ⟨rfl, rfl⟩ := h d' us hput
  exact ⟨rfl, (stand_nil hs).symm.trans (stand_nil hrest)⟩

omit [External] in
theorem Separator.sole {i j j' : Nat} {sep sep' : List Tok} (hsep : Separator sep) (hsep' : Separator sep') (hs : Stand p i sep j)
    (hs' : Stand p i sep' j') (hbegun : Begun p j) (hbegun' : Begun p j') : j = j' := by
  have hrun := itemEnd_run hsep hs hbegun.1 hbegun.2
  rw [itemEnd_run hsep' hs' hbegun'.1 hbegun'.2] at hrun
  cases hrun
  rfl

omit [External] in
theorem Blank.sole {i j j' : Nat} {blank blank' : List Tok} (hb : Blank blank) (hb' : Blank blank') (hs : Stand p i blank j)
    (hs' : Stand p i blank' j') (hbegun : Begun p j) (hbegun' : Begun p j') : j = j' := by
  have hrun := skip_blank hb hs hbegun.1
  rw [skip_blank hb' hs' hbegun'.1] at hrun
  cases hrun
  rfl

omit [External] in
theorem Puts.sole {φ : DatumPhrase} {ts : List Tok} (h : Puts φ ts) : φ.Sole p ts := by
  induction h with
  | num x =>
    refine sole_token fun d' us hput => ?_
    cases hput
    exact ⟨rfl, rfl⟩
  | neg x =>
    intro i j d' ts' j' hs hput hs'
    have hfirst := stand_head hs
    cases hput with
    | neg y =>
      obtain ⟨-, hs⟩ := hs.uncons
      obtain ⟨-, hs'⟩ := hs'.uncons
      obtain ⟨htok, hs⟩ := hs.uncons
      obtain ⟨htok', hrest⟩ := hs'.uncons
      obtain rfl : x = y := Tok.num.inj (htok.symm.trans htok')
      exact ⟨rfl, (stand_nil hs).symm.trans (stand_nil hrest)⟩
    | _ => cases hfirst.symm.trans (stand_head hs')
  | str s =>
    refine sole_token fun d' us hput => ?_
    cases hput
    exact ⟨rfl, rfl⟩
  | yes =>
    refine sole_token fun d' us hput => ?_
    cases hput
    exact ⟨rfl, rfl⟩
  | no =>
    refine sole_token fun d' us hput => ?_
    cases hput
    exact ⟨rfl, rfl⟩
  | null =>
    refine sole_token fun d' us hput => ?_
    cases hput
    exact ⟨rfl, rfl⟩
  | @array ds blank ts hb h ih =>
    intro i j d' ts' j' hs hput hs'
    have hfirst := stand_head hs
    cases hput with
    | array hb' h' =>
      obtain ⟨-, hs⟩ := hs.uncons
      obtain ⟨-, hs'⟩ := hs'.uncons
      obtain ⟨k, hblank, hs⟩ := hs.split
      obtain ⟨k', hblank', hs'⟩ := hs'.split
      obtain rfl := hb.sole hb' hblank hblank' (h.items_begun hs) (h'.items_begun hs')
      obtain ⟨rfl, rfl⟩ := ih k j _ _ j' hs h' hs'
      exact ⟨rfl, rfl⟩
    | _ => cases hfirst.symm.trans (stand_head hs')
  | @doc fs blank ts hb h ih =>
    intro i j d' ts' j' hs hput hs'
    have hfirst := stand_head hs
    cases hput with
    | doc hb' h' =>
      obtain ⟨-, hs⟩ := hs.uncons
      obtain ⟨-, hs'⟩ := hs'.uncons
      obtain ⟨k, hblank, hs⟩ := hs.split
      obtain ⟨k', hblank', hs'⟩ := hs'.split
      obtain rfl := hb.sole hb' hblank hblank' (h.fields_begun hs) (h'.fields_begun hs')
      obtain ⟨rfl, rfl⟩ := ih k j _ _ j' hs h' hs'
      exact ⟨rfl, rfl⟩
    | _ => cases hfirst.symm.trans (stand_head hs')
  | noItems =>
    intro i j ds' ts' j' hs hput hs'
    obtain ⟨hclose, hs⟩ := hs.uncons
    cases hs
    cases hput with
    | noItems =>
      obtain ⟨-, hs'⟩ := hs'.uncons
      cases hs'
      exact ⟨rfl, rfl⟩
    | item hd hsep h =>
      obtain ⟨t, us, rfl, ht⟩ := hd.opens
      obtain rfl := hclose.symm.trans (stand_head hs')
      cases ht
  | @item d ds ts sep us hd hsep h ihd ih =>
    intro i j ds' ts' j' hs hput hs'
    cases hput with
    | noItems =>
      obtain ⟨t, us, rfl, ht⟩ := hd.opens
      obtain rfl := (stand_head hs).symm.trans (stand_head hs')
      cases ht
    | item hd' hsep' h' =>
      rw [List.append_assoc, List.append_assoc] at hs hs'
      obtain ⟨k, hone, hs⟩ := hs.split
      obtain ⟨k', hone', hs'⟩ := hs'.split
      obtain ⟨rfl, rfl⟩ := ihd i k _ _ k' hone hd' hone'
      obtain ⟨l, hsepd, hs⟩ := hs.split
      obtain ⟨l', hsepd', hs'⟩ := hs'.split
      obtain rfl := hsep.sole hsep' hsepd hsepd' (h.items_begun hs) (h'.items_begun hs')
      obtain ⟨rfl, rfl⟩ := ih l j _ _ j' hs h' hs'
      exact ⟨rfl, rfl⟩
  | noFields =>
    intro i j fs' ts' j' hs hput hs'
    obtain ⟨hclose, hs⟩ := hs.uncons
    cases hs
    cases hput with
    | noFields =>
      obtain ⟨-, hs'⟩ := hs'.uncons
      cases hs'
      exact ⟨rfl, rfl⟩
    | keyed ht hd hsep h =>
      obtain rfl := hclose.symm.trans (stand_head hs')
      cases ht
  | @keyed key t d fs ts sep us ht hd hsep h ihd ih =>
    intro i j fs' ts' j' hs hput hs'
    cases hput with
    | noFields =>
      obtain rfl := (stand_head hs).symm.trans (stand_head hs')
      cases ht
    | @keyed key' t' d' fs' ts' sep' us' ht' hd' hsep' h' =>
      obtain rfl : t = t' := (stand_head hs).symm.trans (stand_head hs')
      obtain rfl : key = key' := Option.some.inj (ht.symm.trans ht')
      obtain ⟨-, hs⟩ := hs.uncons
      obtain ⟨-, hs'⟩ := hs'.uncons
      obtain ⟨-, hs⟩ := hs.uncons
      obtain ⟨-, hs'⟩ := hs'.uncons
      have hs : Stand p (i + 1 + 1) ((ts ++ (sep ++ us)) ++ [.sym .rBrace]) j := hs
      have hs' : Stand p (i + 1 + 1) ((ts' ++ (sep' ++ us')) ++ [.sym .rBrace]) j' := hs'
      rw [List.append_assoc, List.append_assoc] at hs hs'
      obtain ⟨k, hone, hs⟩ := hs.split
      obtain ⟨k', hone', hs'⟩ := hs'.split
      obtain ⟨rfl, rfl⟩ := ihd _ k _ _ k' hone hd' hone'
      obtain ⟨l, hsepd, hs⟩ := hs.split
      obtain ⟨l', hsepd', hs'⟩ := hs'.split
      obtain rfl := hsep.sole hsep' hsepd hsepd' (h.fields_begun hs) (h'.fields_begun hs')
      obtain ⟨rfl, rfl⟩ := ih l j _ _ j' hs h' hs'
      exact ⟨rfl, rfl⟩

end

end Vejas.Vjs
