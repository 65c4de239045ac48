import Vejas.Vjs.Literals
import Vejas.Vjs.Marks

/-! The parser drops nothing of a program: the text falls into directives, constants and statements, and
what it yields is exactly these. -/

namespace Vejas.Vjs
open Json Rust

/-- What stands on its own in a text: a directive with where it stands, or a statement. -/
inductive Item
  | directive (i : Nat) (s : Sym) (w : String)
  | stmt (s : Stmt)

structure ConstantAt (p : Input) (i : Nat) (name : String) (d : Datum) (j : Nat) : Prop where
  named : p.tokAt i = .ident name
  constant : isConstantName name = true
  equals : p.tokAt (i + 1) = .sym .eq
  literal : ∃ ts, Stand p (i + 2) ts j ∧ Puts (.one d) ts
  line : p.tokAt j = .sym .newline

/-- The tokens from one place to another are the item. A constant is an assignment of the value of its literal. -/
inductive Piece (p : Input) : Nat → Item → Nat → Prop
  | directive {i : Nat} {s : Sym} {w : String} (hs : s ∈ directiveSyms) (htok : p.tokAt i = .sym s)
      (hw : p.tokAt (i + 1) = .str w) : Piece p i (.directive i s w) (i + 2)
  | constant {i j : Nat} {name : String} {d : Datum} {v : Value} (h : ConstantAt p i name d j) (hv : d.value = some v) :
      Piece p i (.stmt (.assign [name] (.lit v))) j
  | stmt {i j : Nat} {s : Stmt} {ts : List Tok} (h : Stand p i ts j) (hr : Renders (.stmt s) ts)
      (hno : ∀ name d k, ¬ ConstantAt p i name d k) : Piece p i (.stmt s) j

/-- From `i` on the text falls into the items and blank lines. -/
inductive Falls (p : Input) : Nat → List Item → Prop
  | done {i : Nat} (h : p.toks.length - 1 ≤ i) : Falls p i []
  | blank {i : Nat} {items : List Item} (h : p.tokAt? i = some (.sym .newline)) (rest : Falls p (i + 1) items) : Falls p i items
  | piece {i j : Nat} {item : Item} {items : List Item} (h : Piece p i item j) (rest : Falls p j items) : Falls p i (item :: items)

def stmtsOf (items : List Item) : List Stmt := items.filterMap fun item =>
  match item with
  | .stmt s => some s
  | .directive .. => none

def directivesOf (s : Sym) (items : List Item) : List (Nat × String) := items.filterMap fun item =>
  match item with
  | .directive i s' w => if s' = s then some (i, w) else none
  | .stmt _ => none

def Program.said (prog : Program) : Sym → Option String
  | .source => prog.source
  | .tool => prog.tool
  | .api => prog.api
  | .driver => prog.driver
  | _ => none

def Draft.said (d : Draft) : Sym → Option String
  | .source => d.source
  | .tool => d.tool
  | .api => d.api
  | .driver => d.driver
  | _ => none

/-- The program is what the text falls into: its statements in their order, and each directive. -/
def Faithful (p : Input) (prog : Program) : Prop :=
  ∃ items, Falls p 0 items ∧ prog.stmts = stmtsOf items ∧
    ∀ s ∈ directiveSyms, (prog.said s).toList = (directivesOf s items).map (·.2)

def Top (p : Input) (i : Nat) : Prop := Scan.run Scan.top ((p.toks.take i).map (·.1)) = some Scan.top

structure DirectiveAt (p : Input) (s : Sym) (i : Nat) : Prop where
  top : Top p i
  keyword : p.tokAt i = .sym s
  text : ∃ w, p.tokAt (i + 1) = .str w

/-- No kind of directive stands twice, and no table of a constant names a key twice. -/
structure Once (p : Input) : Prop where
  directives : ∀ s ∈ directiveSyms, ∀ i j, DirectiveAt p s i → DirectiveAt p s j → i = j
  tables : ∀ i name d j, Top p i → ConstantAt p i name d j → d.value.isSome = true

section
variable {p : Input} {i j : Nat} {ts : List Tok}

theorem stand_take (h : Stand p i ts j) : (p.toks.take j).map (·.1) = (p.toks.take i).map (·.1) ++ ts := by
  induction h with
  | nil i => exact (List.append_nil _).symm
  | @cons i j t ts h tail ih =>
    unfold Input.tokAt? at h
    obtain ⟨s, hs, rfl⟩ := Option.map_eq_some_iff.mp h
    rw [ih, List.take_add_one, hs, List.map_append, List.append_assoc]
    rfl

theorem stand_le (h : Stand p i ts j) : i ≤ j := by
  induction h with
  | nil i => exact Nat.le_refl i
  | cons h tail ih => exact Nat.le_of_succ_le ih

theorem Scan.Still.append {s : Scan} {ts us : List Tok} (h : s.Still ts) (h' : s.Still us) : s.Still (ts ++ us) := by
  unfold Scan.Still
  rwa [Scan.run_append h]

theorem Top.along (htop : Top p i) (h : Stand p i ts j) (hstill : Scan.top.Still ts) : Top p j := by
  unfold Top
  rw [stand_take h, Scan.run_append htop]
  exact hstill

theorem Top.between (htop : Top p i) (h : Stand p i ts j) (htop' : Top p j) : Scan.top.run ts = some Scan.top := by
  unfold Top at htop'
  rwa [stand_take h, Scan.run_append htop] at htop'

theorem Stand.around {k : Nat} (h : Stand p i ts j) (hi : i ≤ k) (hj : k < j) : ∃ pre t post, ts = pre ++ t :: post ∧
    Stand p i pre k ∧ p.tokAt k = t ∧ Stand p (k + 1) post j := by
  induction h with
  | nil i => exact absurd hi (Nat.not_le.mpr hj)
  | @cons i j t ts ht tail ih =>
    rcases Nat.eq_or_lt_of_le hi with rfl | hlt
    · exact ⟨[], t, ts, rfl, .nil _, stand_head (.cons ht tail), tail⟩
    · obtain ⟨pre, u, post, rfl, hpre, hu, hpost⟩ := ih hlt hj
      exact ⟨t :: pre, u, post, rfl, .cons ht hpre, hu, hpost⟩

end

section
variable {p : Input} {i j k : Nat}

theorem Renders.stmt_head {s : Stmt} {ts : List Tok} (h : Renders (.stmt s) ts) :
    ∃ t us, ts = t :: us ∧ Inert t ∧ ∀ c ∈ directiveSyms, t ≠ .sym c := by
  have hsym : ∀ c : Sym, c ≠ .eq ∧ c ∉ directiveSyms → Inert (.sym c) ∧ ∀ c' ∈ directiveSyms, Tok.sym c ≠ .sym c' := by
    rintro c ⟨hc, hdir⟩
    refine ⟨inert_sym hc, fun c' hc' heq => ?_⟩
    cases heq
    exact hdir hc'
  cases h with
  | emit h h' => exact ⟨_, _, rfl, hsym _ (by decide)⟩
  | respond h h' => exact ⟨_, _, rfl, hsym _ (by decide)⟩
  | invokeMerge h => exact ⟨_, _, rfl, hsym _ (by decide)⟩
  | assign first h h' =>
    refine ⟨_, _, rfl, ?_, fun c _ heq => by cases heq⟩
    rintro t (⟨s, -, w, -, hw⟩ | ⟨n, -, heq⟩)
    · cases hw
    · cases heq
  | loop x h h' => exact ⟨_, _, rfl, hsym _ (by decide)⟩
  | ite h =>
    obtain ⟨us, rfl, -⟩ := h.scans upward_true
    exact ⟨_, _, rfl, hsym _ (by decide)⟩

theorem Renders.unmarked {s : Stmt} {ts : List Tok} (hr : Renders (.stmt s) ts) (h : Stand p i ts j) (hinert : Inert (p.tokAt j))
    (htop : Top p i) (htop' : Top p k) (hi : i < k) (hj : k < j) : ¬ Marks (p.tokAt k) (p.tokAt (k + 1)) := by
  obtain ⟨first, rest, rfl, hquiet⟩ := hr.quiet
  obtain ⟨pre, t, post, hsplit, hpre, ht, hpost⟩ := h.around (Nat.le_of_lt hi) hj
  cases pre with
  | nil => exact absurd (stand_nil hpre) (Nat.ne_of_lt hi)
  | cons u pre =>
    obtain ⟨rfl, hrest⟩ := List.cons.inj hsplit
    have hrest : rest = pre ++ t :: post := hrest
    obtain ⟨s', hstep, hrun⟩ := Scan.of_run_cons (htop.between hpre htop')
    have hend : Unmarked [p.tokAt j] := by
      intro v hv
      cases hv
      exact hinert
    have hlast : Scan.top.Quiet [p.tokAt j] := ⟨fun _ v hv => (by cases hv), fun _ _ => trivial⟩
    have hall := hquiet _ hend hlast s' hstep
    rw [hrest, List.append_assoc] at hall
    rw [ht]
    cases post with
    | nil =>
      rw [stand_nil hpost]
      exact hall.at hrun
    | cons v post =>
      rw [stand_head hpost]
      exact hall.at hrun

theorem ConstantAt.stands {name : String} {d : Datum} (h : ConstantAt p i name d j) :
    ∃ e ts, Stand p i ts j ∧ Renders (.stmt (.assign [name] e)) ts := by
  obtain ⟨ts, hts, hput⟩ := h.literal
  obtain ⟨e, he⟩ := hput.renders
  exact ⟨e, _, stand_cons h.named rfl (stand_cons h.equals rfl hts), .assign name .noPath he⟩

theorem Piece.tokens {item : Item} (h : Piece p i item j) :
    ∃ ts, Stand p i ts j ∧ (∀ elses, Scan.Still ⟨0, false, elses⟩ ts) ∧ Singles ts := by
  cases h with
  | @directive s w hs htok hw =>
    have hcalm : (Tok.sym s).calm = true ∧ (Tok.sym s).is .newline = false := by
      revert hs
      cases s <;> decide
    refine ⟨_, stand_cons htok hcalm.2 (stand_one hw rfl), fun elses => ?_, .cons rfl (.cons rfl singles_nil)⟩
    exact (Scan.Stays.cons hcalm.1 (Scan.stays_one rfl)).still
  | constant h hv =>
    obtain ⟨e, ts, hts, hr⟩ := h.stands
    exact ⟨ts, hts, fun elses => (hr.scans upward_true elses).still, hr.single⟩
  | stmt h hr hno => exact ⟨_, h, fun elses => (hr.scans upward_true elses).still, hr.single⟩

theorem Piece.top {item : Item} (h : Piece p i item j) (htop : Top p i) : Top p j := by
  obtain ⟨ts, hts, hstill, -⟩ := h.tokens
  exact htop.along hts (hstill [])

theorem Piece.inert {item : Item} (h : Piece p i item j) : Inert (p.tokAt i) := by
  cases h with
  | @directive s w hs htok hw =>
    rw [htok]
    refine inert_sym ?_
    rintro rfl
    exact absurd hs (by decide)
  | constant h hv =>
    obtain ⟨e, ts, hts, hr⟩ := h.stands
    obtain ⟨t, us, rfl, ht, -⟩ := hr.stmt_head
    rwa [stand_head hts]
  | stmt h hr hno =>
    obtain ⟨t, us, rfl, ht, -⟩ := hr.stmt_head
    rwa [stand_head h]

theorem Piece.unmarked {item : Item} (h : Piece p i item j) (hinert : Inert (p.tokAt j)) (htop : Top p i) (htop' : Top p k)
    (hi : i < k) (hj : k < j) : ¬ Marks (p.tokAt k) (p.tokAt (k + 1)) := by
  cases h with
  | @directive s w hs htok hw =>
    have hk : k = i + 1 := by omega
    rw [hk, hw]
    rintro (⟨s, -, w, hs, -⟩ | ⟨n, hn, -⟩)
    · cases hs
    · cases hn
  | constant h hv =>
    obtain ⟨e, ts, hts, hr⟩ := h.stands
    exact hr.unmarked hts hinert htop htop' hi hj
  | stmt h hr hno => exact hr.unmarked h hinert htop htop' hi hj

theorem Piece.of_directive {item : Item} {s : Sym} (h : Piece p i item j) (hs : s ∈ directiveSyms) (htok : p.tokAt i = .sym s) :
    ∃ w, item = .directive i s w := by
  cases h with
  | @directive s' w hs' htok' hw =>
    cases htok.symm.trans htok'
    exact ⟨w, rfl⟩
  | constant h hv => cases h.named.symm.trans htok
  | stmt h hr hno =>
    obtain ⟨t, us, rfl, -, ht⟩ := hr.stmt_head
    exact absurd ((stand_head h).symm.trans htok) (ht s hs)

end

def Lined (p : Input) : Prop := ∃ toks n, p.toks = toks ++ [(Tok.sym .newline, n)]

section
variable {p : Input} {i j k : Nat} {items : List Item}

theorem tokAt_of_tokAt? {t : Tok} (h : p.tokAt? i = some t) : p.tokAt i = t := by
  unfold Input.tokAt
  rw [h]
  rfl

theorem tokAt_last (hlined : Lined p) (h : p.toks.length - 1 ≤ i) : p.tokAt i = .sym .newline := by
  obtain ⟨toks, n, htoks⟩ := hlined
  rw [htoks, List.length_append, List.length_singleton, Nat.add_sub_cancel] at h
  unfold Input.tokAt Input.tokAt?
  rw [htoks, List.getElem?_append_right h]
  cases i - toks.length with
  | zero => rfl
  | succ m => rfl

theorem Falls.inert (h : Falls p i items) (hlined : Lined p) : Inert (p.tokAt i) := by
  cases h with
  | done h =>
    rw [tokAt_last hlined h]
    exact inert_sym (by decide)
  | blank h rest =>
    rw [tokAt_of_tokAt? h]
    exact inert_sym (by decide)
  | piece h rest => exact h.inert

theorem stand_newline (h : p.tokAt? i = some (.sym .newline)) : Stand p i [.sym .newline] (i + 1) := .cons h (.nil _)

theorem Falls.starts (h : Falls p i items) (hlined : Lined p) (htop : Top p i) (hi : i ≤ k) (htop' : Top p k)
    (hmark : Marks (p.tokAt k) (p.tokAt (k + 1))) : ∃ item j, Piece p k item j ∧ item ∈ items := by
  have hline : p.tokAt k ≠ .sym .newline := by
    intro hk
    rw [hk] at hmark
    exact not_marks_sym (by decide) _ hmark
  induction h with
  | done h => exact absurd (tokAt_last hlined (Nat.le_trans h hi)) hline
  | @blank i items h rest ih =>
    rcases Nat.eq_or_lt_of_le hi with rfl | hlt
    · exact absurd (tokAt_of_tokAt? h) hline
    · exact ih (htop.along (stand_newline h) (Scan.stays_one rfl).still) hlt
  | @piece i j item items h rest ih =>
    rcases Nat.eq_or_lt_of_le hi with rfl | hlt
    · exact ⟨item, j, h, List.mem_cons_self⟩
    · rcases Nat.lt_or_ge k j with hkj | hjk
      · exact absurd hmark (h.unmarked (rest.inert hlined) htop htop' hlt hkj)
      · obtain ⟨item', j', hpiece, hmem⟩ := ih (h.top htop) hjk
        exact ⟨item', j', hpiece, List.mem_cons_of_mem item hmem⟩

theorem Falls.tokens (h : Falls p i items) (hlined : Lined p) : Scan.top.Still (p.after i) ∧ Singles (p.after i) := by
  induction h with
  | @done i h =>
    have hblank : Blank (p.after i) := by
      obtain ⟨toks, n, htoks⟩ := hlined
      intro t ht
      unfold Input.after at ht
      obtain ⟨s, hs, rfl⟩ := List.mem_map.mp ht
      rw [htoks, List.length_append, List.length_singleton, Nat.add_sub_cancel] at h
      rw [htoks, List.drop_append, List.drop_eq_nil_of_le h, List.nil_append] at hs
      rw [List.mem_singleton.mp (List.mem_of_mem_drop hs)]
    exact ⟨(Scan.stays_blank hblank).still, .blank hblank⟩
  | blank h rest ih =>
    have hline : Scan.top.Still [.sym .newline] := (Scan.stays_one rfl).still
    rw [stand_after (stand_newline h)]
    exact ⟨hline.append ih.1, .cons rfl ih.2⟩
  | piece h rest ih =>
    obtain ⟨ts, hts, hstill, hsingle⟩ := h.tokens
    rw [stand_after hts]
    exact ⟨(hstill []).append ih.1, hsingle.append ih.2⟩

theorem top_start : Top p 0 := rfl

theorem mem_directivesOf {s : Sym} {w : String} (h : Item.directive i s w ∈ items) : (i, w) ∈ directivesOf s items :=
  List.mem_filterMap.mpr ⟨_, h, if_pos rfl⟩

theorem DirectiveAt.marks {s : Sym} (hs : s ∈ directiveSyms) (h : DirectiveAt p s i) : Marks (p.tokAt i) (p.tokAt (i + 1)) := by
  obtain ⟨w, hw⟩ := h.text
  exact .inl ⟨s, hs, w, h.keyword, hw⟩

theorem Faithful.once {prog : Program} (h : Faithful p prog) (hlined : Lined p) : Once p := by
  obtain ⟨items, hfalls, -, hsaid⟩ := h
  refine ⟨fun s hs i j hi hj => ?_, fun i name d j htop hconst => ?_⟩
  · have hmem : ∀ k, DirectiveAt p s k → ∃ w, (k, w) ∈ directivesOf s items := by
      intro k hk
      obtain ⟨item, l, hpiece, hitem⟩ := hfalls.starts hlined top_start (Nat.zero_le k) hk.top (hk.marks hs)
      obtain ⟨w, rfl⟩ := hpiece.of_directive hs hk.keyword
      exact ⟨w, mem_directivesOf hitem⟩
    obtain ⟨w, hw⟩ := hmem i hi
    obtain ⟨w', hw'⟩ := hmem j hj
    have hone := hsaid s hs
    cases hsome : prog.said s with
    | none =>
      rw [hsome] at hone
      rw [List.map_eq_nil_iff.mp hone.symm] at hw
      cases hw
    | some x =>
      rw [hsome] at hone
      obtain ⟨a, ha, -⟩ := List.map_eq_singleton_iff.mp hone.symm
      rw [ha, List.mem_singleton] at hw hw'
      exact congrArg Prod.fst (hw.trans hw'.symm)
  · have hmark : Marks (p.tokAt i) (p.tokAt (i + 1)) := .inr ⟨name, hconst.named, hconst.equals⟩
    obtain ⟨item, k, hpiece, -⟩ := hfalls.starts hlined top_start (Nat.zero_le i) htop hmark
    cases hpiece with
    | directive hs htok hw => cases htok.symm.trans hconst.named
    | constant h hv =>
      obtain ⟨ts, hts, hput⟩ := hconst.literal
      obtain ⟨us, hus, hput'⟩ := h.literal
      obtain ⟨rfl, -⟩ := hput'.sole _ _ _ _ _ hus hput hts
      rw [hv]
      rfl
    | stmt h hr hno => exact absurd hconst (hno name d j)

end

section
variable [External] {p : Input} {i j k : Nat}

omit [External] in
theorem kept_directive {msg : String} : Yields (directive p msg) i fun w j => j = i + 2 ∧ p.tokAt (i + 1) = .str w := by
  unfold directive
  refine Yields.advance (Yields.next fun t ht => ?_)
  split
  · exact yields_pure ⟨rfl, ht⟩
  · exact yields_fail _

omit [External] in
theorem tokAt?_sym {c : Sym} (h : p.tokAt i = .sym c) (hc : c ≠ .newline) : p.tokAt? i = some (.sym c) := by
  unfold Input.tokAt at h
  cases htok : p.tokAt? i with
  | none =>
    rw [htok] at h
    cases h
    exact absurd rfl hc
  | some t =>
    rw [htok] at h
    exact congrArg some h

theorem ConstantAt.read {name : String} {d : Datum} (h : ConstantAt p i name d j) (fuel : Nat) :
    Arrives (literalValue p fuel) (i + 2) j fun l => ∀ v, d.value = some v → l.1 = v := by
  obtain ⟨ts, hts, hput⟩ := h.literal
  exact hput.read fuel (i + 2) j hts

theorem kept_surfaceEntry {fuel : Nat} : Yields (surfaceEntry p fuel) i fun r j =>
    (r = none ∧ j = i ∧ ∀ name d k, ¬ ConstantAt p i name d k) ∨
      ∃ e d, r = some e ∧ ConstantAt p i e.name d j ∧ ∀ v, d.value = some v → e.value = v := by
  intro r j hrun
  unfold surfaceEntry at hrun
  split at hrun
  next name htok heq =>
    have heq : p.tokAt (i + 1) = .sym .eq := tokAt_of_tokAt? heq
    split at hrun
    next hname =>
      unfold tryLiteral at hrun
      cases hl : literalValue p fuel (i + 2) with
      | error f =>
        rw [hl] at hrun
        cases f with
        | err msg =>
          cases hrun
          refine .inl ⟨rfl, rfl, fun name d k hconst => ?_⟩
          rcases hconst.read fuel with hstop | ⟨l, hread, -⟩
          · cases hl.symm.trans hstop
          · cases hl.symm.trans hread
        | panic => cases hrun
        | outOfFuel => cases hrun
      | ok r =>
        obtain ⟨l, k⟩ := r
        obtain ⟨ts, d, hts, hput⟩ := puts_literal fuel (i + 2) l k hl
        rw [hl] at hrun
        dsimp only at hrun
        cases hnl : (p.tokAt k).is .newline with
        | false =>
          rw [hnl] at hrun
          cases hrun
          refine .inl ⟨rfl, rfl, fun name d k' hconst => ?_⟩
          rcases hconst.read fuel with hstop | ⟨l', hread, -⟩
          · cases hl.symm.trans hstop
          · cases hl.symm.trans hread
            rw [hconst.line] at hnl
            cases hnl
        | true =>
          rw [hnl] at hrun
          cases hrun
          have hconst : ConstantAt p i name d j := ⟨htok, hname, heq, ⟨ts, hts, hput⟩, Tok.eq_of_is hnl⟩
          refine .inr ⟨_, d, rfl, hconst, fun v hv => ?_⟩
          rcases hconst.read fuel with hstop | ⟨l', hread, hvalue⟩
          · cases hl.symm.trans hstop
          · cases hl.symm.trans hread
            exact hvalue v hv
    next hname =>
      cases hrun
      refine .inl ⟨rfl, rfl, fun name' d k hconst => ?_⟩
      cases htok.symm.trans hconst.named
      exact hname hconst.constant
  next hno =>
    cases hrun
    exact .inl ⟨rfl, rfl, fun name d k hconst => hno name hconst.named (tokAt?_sym hconst.equals (by decide))⟩

structure Draft.Adds (d d' : Draft) (items : List Item) : Prop where
  stmts : d'.stmts = d.stmts ++ stmtsOf items
  said : ∀ s ∈ directiveSyms, d'.said s = ((directivesOf s items).map (·.2)).getLast?.or (d.said s)

omit [External] in
theorem Draft.Adds.nil (d : Draft) : d.Adds d [] := ⟨(List.append_nil _).symm, fun _ _ => rfl⟩

omit [External] in
theorem Draft.Adds.trans {d d' d'' : Draft} {items items' : List Item} (h : d.Adds d' items) (h' : d'.Adds d'' items') :
    d.Adds d'' (items ++ items') := by
  have hstmts : stmtsOf (items ++ items') = stmtsOf items ++ stmtsOf items' := List.filterMap_append
  have hdir : ∀ s, directivesOf s (items ++ items') = directivesOf s items ++ directivesOf s items' :=
    fun s => List.filterMap_append
  constructor
  · rw [h'.stmts, h.stmts, hstmts, List.append_assoc]
  · intro s hs
    rw [h'.said s hs, h.said s hs, hdir, List.map_append, List.getLast?_append, Option.or_assoc]

omit [External] in
theorem Draft.Adds.stmt (d : Draft) (s : Stmt) (surface : List SurfaceEntry) :
    d.Adds { d with stmts := d.stmts ++ [s], surface := surface } [.stmt s] := by
  refine ⟨rfl, fun c hc => ?_⟩
  cases c <;> rfl

theorem kept_topLevel (hp : toksSingle p.toks = true) (htables : ∀ i name d j, Top p i → ConstantAt p i name d j → d.value.isSome = true)
    (d : Draft) (fuel i : Nat) : Yields (topLevel p d fuel) i fun d' j => ∃ item ts, d.Adds d' [item] ∧ Stand p i ts j ∧
      ∀ r, Top p i → Scan.top.run ts = some r → Piece p i item j := by
  have hpiece : ∀ {item j}, Piece p i item j → ∃ ts, Stand p i ts j ∧ ∀ r, Top p i → Scan.top.run ts = some r → Piece p i item j := by
    intro item j h
    obtain ⟨ts, hts, -, -⟩ := h.tokens
    exact ⟨ts, hts, fun _ _ _ => h⟩
  have hdirective : ∀ {s : Sym} {msg : String} {f : String → Draft}, s ∈ directiveSyms → p.tokAt i = .sym s →
      (∀ w, d.Adds (f w) [.directive i s w]) → Yields (directive p msg >>= fun w => pure (f w)) i fun d' j =>
        ∃ item ts, d.Adds d' [item] ∧ Stand p i ts j ∧ ∀ r, Top p i → Scan.top.run ts = some r → Piece p i item j := by
    intro s msg f hs htok hf
    refine kept_directive.bind fun w j hw => yields_pure ?_
    obtain ⟨rfl, hw⟩ := hw
    obtain ⟨ts, hts, hscan⟩ := hpiece (.directive hs htok hw)
    exact ⟨_, ts, hf w, hts, hscan⟩
  unfold topLevel
  refine Yields.peek fun t ht => ?_
  split
  · exact hdirective (by decide) ht fun w => ⟨(List.append_nil _).symm, fun c _ => by cases c <;> rfl⟩
  · exact hdirective (by decide) ht fun w => ⟨(List.append_nil _).symm, fun c _ => by cases c <;> rfl⟩
  · exact hdirective (by decide) ht fun w => ⟨(List.append_nil _).symm, fun c _ => by cases c <;> rfl⟩
  · exact hdirective (by decide) ht fun w => ⟨(List.append_nil _).symm, fun c _ => by cases c <;> rfl⟩
  · refine kept_surfaceEntry.bind fun r j hr => ?_
    rcases hr with ⟨rfl, rfl, hno⟩ | ⟨e, v, rfl, hconst, hvalue⟩
    · refine (kept_stmt hp fuel j).bind fun s k hs => yields_pure ?_
      obtain ⟨ts, hts, hs⟩ := hs
      exact ⟨_, ts, .stmt d s d.surface, hts, fun r _ hrun => .stmt hts (hs [] r hrun) hno⟩
    · obtain ⟨_, ts, hts, -⟩ := hconst.stands
      refine yields_pure ⟨_, ts, .stmt d _ _, hts, fun r htop _ => ?_⟩
      obtain ⟨w, hw⟩ := Option.isSome_iff_exists.mp (htables i e.name v j htop hconst)
      rw [hvalue w hw]
      exact .constant hconst hw

omit [External] in
theorem falls_blank {ts : List Tok} {items : List Item} (hblank : Blank ts) (h : Stand p i ts j) (rest : Falls p j items) :
    Falls p i items := by
  induction h with
  | nil i => exact rest
  | cons h tail ih =>
    rw [hblank _ List.mem_cons_self] at h
    exact .blank h (ih (fun t ht => hblank t (List.mem_cons_of_mem _ ht)) rest)

theorem kept_items (hp : toksSingle p.toks = true) (htables : ∀ i name d j, Top p i → ConstantAt p i name d j → d.value.isSome = true) :
    ∀ fuel (d : Draft) i, Yields (items p fuel d) i fun d' _ =>
      ∃ items, d.Adds d' items ∧ ∀ r, Top p i → Scan.top.run (p.after i) = some r → Falls p i items
  | 0, _, _ => by
    intro a j hrun
    cases hrun
  | fuel + 1, d, i => by
    rw [items]
    refine taken_newlines.bind fun _ j hj => ?_
    obtain ⟨blank, hblank, hj⟩ := hj
    have hstill : Scan.top.Still blank := (Scan.stays_blank hblank).still
    intro d' k hrun
    obtain ⟨last, j', hlast, hrun⟩ := of_parse_bind hrun
    cases hlast
    split at hrun
    next hend =>
      cases hrun
      exact ⟨[], .nil d, fun _ _ _ => falls_blank hblank hj (.done (of_decide_eq_true hend))⟩
    next =>
      obtain ⟨d₁, l, hone, hrun⟩ := of_parse_bind hrun
      obtain ⟨item, ts, hadds, hts, hpiece⟩ := kept_topLevel hp htables d fuel j d₁ l hone
      obtain ⟨items, hadds', hrest⟩ := kept_items hp htables fuel d₁ l d' k hrun
      refine ⟨item :: items, hadds.trans hadds', fun r htop hscan => ?_⟩
      rw [stand_after hj, stand_after hts] at hscan
      have hscan := hstill.rest hscan
      obtain ⟨s', hts', hlater⟩ := Scan.of_run_append hscan
      have htop' := htop.along hj hstill
      have hfirst := hpiece s' htop' hts'
      have hsame : s' = Scan.top := Option.some.inj (hts'.symm.trans (htop'.between hts (hfirst.top htop')))
      rw [hsame] at hlater
      exact falls_blank hblank hj (.piece hfirst (hrest r (hfirst.top htop') hlater))

omit [External] in
theorem Falls.directives {s : Sym} {items : List Item} (h : Falls p i items) (htop : Top p i) :
    (∀ x ∈ directivesOf s items, i ≤ x.1 ∧ DirectiveAt p s x.1) ∧ (directivesOf s items).Pairwise (·.1 < ·.1) := by
  induction h with
  | done h => exact ⟨fun x hx => absurd hx List.not_mem_nil, .nil⟩
  | blank h rest ih =>
    obtain ⟨hmem, hpair⟩ := ih (htop.along (stand_newline h) (Scan.stays_one rfl).still)
    exact ⟨fun x hx => ⟨Nat.le_of_succ_le (hmem x hx).1, (hmem x hx).2⟩, hpair⟩
  | @piece i j item items h rest ih =>
    obtain ⟨hmem, hpair⟩ := ih (h.top htop)
    obtain ⟨ts, hts, -, -⟩ := h.tokens
    have hlater : ∀ x ∈ directivesOf s items, i ≤ x.1 ∧ DirectiveAt p s x.1 :=
      fun x hx => ⟨Nat.le_trans (stand_le hts) (hmem x hx).1, (hmem x hx).2⟩
    cases h with
    | @directive c w hc htok hw =>
      by_cases hcs : c = s
      · have hcons : directivesOf s (.directive i c w :: items) = (i, w) :: directivesOf s items :=
          List.filterMap_cons_some (if_pos hcs)
        rw [hcons]
        subst hcs
        refine ⟨fun x hx => ?_, List.pairwise_cons.mpr ⟨fun x hx => ?_, hpair⟩⟩
        · rcases List.mem_cons.mp hx with rfl | hx
          · exact ⟨Nat.le_refl i, htop, htok, w, hw⟩
          · exact hlater x hx
        · have hnext := (hmem x hx).1
          exact Nat.lt_of_lt_of_le (Nat.lt_add_of_pos_right (by decide)) hnext
      · have hcons : directivesOf s (.directive i c w :: items) = directivesOf s items :=
          List.filterMap_cons_none (if_neg hcs)
        rw [hcons]
        exact ⟨hlater, hpair⟩
    | constant h hv => exact ⟨hlater, hpair⟩
    | stmt h hr hno => exact ⟨hlater, hpair⟩

omit [External] in
theorem Once.one {s : Sym} {items : List Item} (hs : s ∈ directiveSyms) (honce : Once p) (h : Falls p 0 items) :
    (((directivesOf s items).map (·.2)).getLast?).toList = (directivesOf s items).map (·.2) := by
  obtain ⟨hmem, hpair⟩ := h.directives (s := s) top_start
  cases hall : directivesOf s items with
  | nil => rfl
  | cons x xs =>
    cases xs with
    | nil => rfl
    | cons y ys =>
      rw [hall] at hmem hpair
      have hx := (hmem x List.mem_cons_self).2
      have hy := (hmem y (List.mem_cons_of_mem x List.mem_cons_self)).2
      have hlt := (List.pairwise_cons.mp hpair).1 y List.mem_cons_self
      exact absurd (honce.directives s hs _ _ hx hy) (Nat.ne_of_lt hlt)

theorem lined_of_lex {src : Bytes} {toks : List Spanned} (hlex : lex src = .ok toks) : Lined ⟨toks, src⟩ := by
  obtain ⟨ts, rfl, -⟩ := lex_iff.mp hlex
  exact ⟨ts, _, rfl⟩

omit [External] in
theorem said_finish (d : Draft) (s : Sym) : d.finish.said s = d.said s := by
  cases s <;> rfl

theorem Faithful.orderly {src : String} {toks : List Spanned} {prog : Program} (hlex : lex (bytesOf src) = .ok toks)
    (h : Faithful ⟨toks, bytesOf src⟩ prog) :
    Vjs.orderly toks = true ∧ toksSingle toks = true ∧ Once ⟨toks, bytesOf src⟩ := by
  have hlined := lined_of_lex hlex
  have honce := h.once hlined
  obtain ⟨items, hfalls, -, -⟩ := h
  obtain ⟨hstill, hsingle⟩ := hfalls.tokens hlined
  have hafter : Input.after ⟨toks, bytesOf src⟩ 0 = toks.map (·.1) := rfl
  rw [hafter] at hstill hsingle
  exact ⟨Option.isSome_iff_exists.mpr ⟨_, hstill⟩, toksSingle_iff.mpr hsingle, honce⟩

/-- An accepted text says nothing that its program lacks exactly if no `if` of it has a clause after its `else`,
no hole goes on after its expression, and neither a directive nor a key of a constant's table stands twice. -/
theorem parser_drops_nothing_iff {src : String} {toks : List Spanned} {prog : Program}
    (hlex : lex (bytesOf src) = .ok toks) (hparse : parse src = .ok prog) :
    Faithful ⟨toks, bytesOf src⟩ prog ↔ orderly toks = true ∧ toksSingle toks = true ∧ Once ⟨toks, bytesOf src⟩ := by
  constructor
  · exact fun h => h.orderly hlex
  · rintro ⟨horder, hsingle, honce⟩
    obtain ⟨toks', hlex', hparse⟩ := of_bind_ok hparse
    obtain rfl : toks = toks' := Except.ok.inj (hlex.symm.trans hlex')
    obtain ⟨r, hitems, hprog⟩ := of_bind_ok hparse
    obtain ⟨items, hadds, hkeep⟩ := kept_items (p := ⟨toks, bytesOf src⟩) hsingle honce.tables _ _ 0 r.1 r.2 hitems
    obtain ⟨s, hscan⟩ := Option.isSome_iff_exists.mp horder
    have hfalls := hkeep s top_start hscan
    have hprog : prog = r.1.finish := by
      cases hprog
      rfl
    rw [hprog]
    refine ⟨items, hfalls, hadds.stmts, fun c hc => ?_⟩
    have hsaid : r.1.said c = ((directivesOf c items).map (·.2)).getLast? := by
      rw [hadds.said c hc]
      cases c <;> exact Option.or_none
    rw [said_finish, hsaid]
    exact honce.one hc hfalls

end

def Tok.ordinary : Tok → Bool
  | .sym s => s ∉ directiveSyms
  | .ident name => !isConstantName name
  | _ => true

theorem Once.of_ordinary {p : Input} (h : (p.toks.map (·.1)).all Tok.ordinary = true) : Once p := by
  have hpeek : ∀ {i t}, p.tokAt i = t → t.is .newline = false → t.ordinary = true :=
    fun htok hline => List.all_eq_true.mp h _ (mem_of_peeked htok hline)
  refine ⟨fun s hs i j hi _ => ?_, fun i name d j _ hconst => ?_⟩
  · have hline : (Tok.sym s).is .newline = false ∧ (Tok.sym s).ordinary = false := by
      revert hs
      cases s <;> decide
    exact absurd (hpeek hi.keyword hline.1) (by rw [hline.2]; decide)
  · have hordinary : (!isConstantName name) = true := hpeek hconst.named rfl
    rw [hconst.constant] at hordinary
    cases hordinary

theorem parser_drops_nothing_greeting :
    ∃ toks prog, @lex ascii (bytesOf "if a:b=f\"\x7bc\x7d\"else:end") = .ok toks ∧
      @parse ascii "if a:b=f\"\x7bc\x7d\"else:end" = .ok prog ∧
      Faithful ⟨toks, bytesOf "if a:b=f\"\x7bc\x7d\"else:end"⟩ prog := by
  refine ⟨_, _, rfl, rfl, ?_⟩
  refine (@parser_drops_nothing_iff ascii "if a:b=f\"\x7bc\x7d\"else:end" _ _ rfl rfl).mpr ⟨by decide +kernel, by decide +kernel, ?_⟩
  exact .of_ordinary (by decide +kernel)

def Drops (src : String) : Prop :=
  ∃ toks prog, @lex ascii (bytesOf src) = .ok toks ∧ @parse ascii src = .ok prog ∧ ¬ Faithful ⟨toks, bytesOf src⟩ prog

/-- The first `else` is read and dropped, with the statement in it; so are the first of two subjects and of two keys,
and what follows the expression of a hole. -/
theorem parser_drops_first_else : Drops "if a:else:b=1 else:end" ∧ Drops "source \"vx.a\"\nsource \"vx.b\"" ∧
    Drops "X=\x7bx:true,x:false\x7d" ∧ Drops "a=f\"\x7bb c\x7d\"" := by
  refine ⟨⟨_, _, rfl, rfl, fun h => ?_⟩, ⟨_, _, rfl, rfl, fun h => ?_⟩, ⟨_, _, rfl, rfl, fun h => ?_⟩, ⟨_, _, rfl, rfl, fun h => ?_⟩⟩
  · exact absurd (@Faithful.orderly ascii _ _ _ rfl h).1 (by decide +kernel)
  · have honce := (@Faithful.orderly ascii _ _ _ rfl h).2.2
    have hsame := honce.directives .source (by decide) 0 3 ⟨rfl, rfl, _, rfl⟩ ⟨rfl, rfl, _, rfl⟩
    cases hsame
  · have honce := (@Faithful.orderly ascii _ _ _ rfl h).2.2
    have hput : Puts (.one (.doc [("x", .bool true), ("x", .bool false)]))
        [.sym .lBrace, .ident "x", .sym .colon, .sym .true, .sym .comma, .ident "x", .sym .colon, .sym .false, .sym .rBrace] :=
      @Puts.doc _ [] _ blank_nil
        (.keyed rfl .yes (.inr ⟨[], [], blank_nil, blank_nil, rfl⟩)
          (.keyed rfl .no (.inl blank_nil) .noFields))
    have hvalue := honce.tables 0 "X" _ 11 rfl ⟨rfl, by decide, rfl, ⟨_, stand_cons rfl rfl (stand_cons rfl rfl
      (stand_cons rfl rfl (stand_cons rfl rfl (stand_cons rfl rfl (stand_cons rfl rfl (stand_cons rfl rfl
        (stand_cons rfl rfl (stand_one rfl rfl)))))))), hput⟩, rfl⟩
    cases hvalue
  · exact absurd (@Faithful.orderly ascii _ _ _ rfl h).2.1 (by decide +kernel)

end Vejas.Vjs
