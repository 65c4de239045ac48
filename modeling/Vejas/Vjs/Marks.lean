import Vejas.Vjs.Rendering

/-! Where a directive or a constant can start: at the top level of a text, only where a statement does. -/

namespace Vejas.Vjs
open Json Rust

def Scan.top : Scan := ⟨0, false, []⟩

def Scan.Off (s : Scan) : Prop := s.depth ≠ 0 ∨ s.elses ≠ []

theorem upward_off : Upward Scan.Off where
  name := id
  bracket _ := .inl (Nat.succ_ne_zero _)
  block _ := .inr (List.cons_ne_nil _ _)
  orElse _ := .inr (List.cons_ne_nil _ _)

theorem Scan.Off.ne_top {s : Scan} (h : s.Off) : s ≠ Scan.top := by
  rintro rfl
  rcases h with h | h
  · exact h rfl
  · exact h rfl

def directiveSyms : List Sym := [.source, .tool, .driver, .api]

/-- The first two tokens of a directive, or of an assignment to a name. -/
def Marks (t u : Tok) : Prop :=
  (∃ s ∈ directiveSyms, ∃ w, t = .sym s ∧ u = .str w) ∨ ∃ n, t = .ident n ∧ u = .sym .eq

def Inert (u : Tok) : Prop := ∀ t, ¬ Marks t u

def Scan.Quiet : Scan → List Tok → Prop
  | _, [] => True
  | s, t :: ts => (s = Scan.top → ∀ u ∈ ts.head?, ¬ Marks t u) ∧ ∀ s', s.step t = some s' → s'.Quiet ts

def Unmarked (us : List Tok) : Prop := ∀ u ∈ us.head?, Inert u

theorem inert_sym {c : Sym} (h : c ≠ .eq) : Inert (.sym c) := by
  rintro t (⟨s, -, w, -, hw⟩ | ⟨n, -, heq⟩)
  · cases hw
  · cases heq
    exact h rfl

theorem unmarked_sym {c : Sym} {us : List Tok} (h : c ≠ .eq) : Unmarked (.sym c :: us) := by
  intro u hu
  cases hu
  exact inert_sym h

theorem not_marks_sym {c : Sym} (h : c ∉ directiveSyms) (u : Tok) : ¬ Marks (.sym c) u := by
  rintro (⟨s, hs, w, ht, -⟩ | ⟨n, ht, -⟩)
  · cases ht
    exact h hs
  · cases ht

section
variable {s r : Scan} {t : Tok} {ts us : List Tok}

theorem Scan.quiet_cons (hstep : s.step t = some r) (hmark : s = Scan.top → ∀ u ∈ ts.head?, ¬ Marks t u) (h : r.Quiet ts) :
    s.Quiet (t :: ts) := by
  refine ⟨hmark, fun s' hs' => ?_⟩
  obtain rfl : r = s' := Option.some.inj (hstep.symm.trans hs')
  exact h

theorem Scan.Trail.quiet (h : Scan.Trail Scan.Off s ts r) (hus : r.Quiet us) : s.Quiet (ts ++ us) := by
  induction h with
  | nil s => exact hus
  | cons hs ht rest ih => exact Scan.quiet_cons ht (fun htop => absurd htop hs.ne_top) (ih hus)

theorem Scan.quiet_calm (ht : t.calm = true) (hmark : ∀ u ∈ ts.head?, ¬ Marks t u) (h : Scan.top.Quiet ts) :
    Scan.top.Quiet (t :: ts) := Scan.quiet_cons (Scan.step_calm ht) (fun _ => hmark) h

theorem Scan.quiet_sym {c : Sym} (hc : c.calm = true) (hdir : c ∉ directiveSyms) (h : Scan.top.Quiet ts) :
    Scan.top.Quiet (.sym c :: ts) := Scan.quiet_calm hc (fun u _ => not_marks_sym hdir u) h

theorem Scan.quiet_between {a b : Sym} (hab : (a, b) ∈ [(Sym.lParen, Sym.rParen), (.lBrack, .rBrack), (.lBrace, .rBrace)])
    (h : Scan.Stays Scan.Off ⟨1, false, []⟩ ts) (hus : Scan.top.Quiet us) :
    Scan.top.Quiet (.sym a :: (ts ++ [.sym b]) ++ us) := by
  have hoff : Scan.Off ⟨1, false, []⟩ := .inl (by decide)
  have hopen : Scan.step Scan.top (.sym a) = some ⟨1, false, []⟩ ∧ a ∉ directiveSyms := by
    simp only [List.mem_cons, List.not_mem_nil, or_false, Prod.mk.injEq] at hab
    rcases hab with ⟨rfl, -⟩ | ⟨rfl, -⟩ | ⟨rfl, -⟩ <;> exact ⟨rfl, by decide⟩
  have hclose : Scan.step ⟨1, false, []⟩ (.sym b) = some Scan.top := by
    simp only [List.mem_cons, List.not_mem_nil, or_false, Prod.mk.injEq] at hab
    rcases hab with ⟨-, rfl⟩ | ⟨-, rfl⟩ | ⟨-, rfl⟩ <;> rfl
  refine Scan.quiet_cons hopen.1 (fun _ u _ => not_marks_sym hopen.2 u) ?_
  exact ((h hoff).append (.cons hoff hclose (.nil _))).quiet hus

theorem Scan.Quiet.at {pre post : List Tok} {u : Tok} (h : s.Quiet (pre ++ t :: u :: post)) (hrun : s.run pre = some Scan.top) :
    ¬ Marks t u := by
  induction pre generalizing s with
  | nil =>
    obtain rfl : s = Scan.top := Option.some.inj hrun
    exact h.1 rfl u rfl
  | cons v pre ih =>
    obtain ⟨s', hstep, hrun⟩ := Scan.of_run_cons hrun
    exact ih (h.2 s' hstep) hrun

end

def Phrase.Quiet : Phrase → List Tok → Prop
  | .expr _, ts | .service _ _, ts => ∀ us, Unmarked us → Scan.top.Quiet us → Scan.top.Quiet (ts ++ us)
  | .path _, ts => ∀ us, Scan.top.Quiet us → Scan.top.Quiet (ts ++ us)
  | .stmt _, ts => ∃ t rest, ts = t :: rest ∧ ∀ us, Unmarked us → Scan.top.Quiet us →
      ∀ s, Scan.top.step t = some s → s.Quiet (rest ++ us)
  | _, _ => True

theorem Scan.quiet_ident {name : String} {ts : List Tok} (hends : Unmarked ts) (h : Scan.top.Quiet ts) :
    Scan.top.Quiet (.ident name :: ts) := Scan.quiet_calm rfl (fun u hu => hends u hu _) h

theorem Renders.quiet {φ : Phrase} {ts : List Tok} (h : Renders φ ts) : φ.Quiet ts := by
  have hone : ∀ {t : Tok}, t.calm = true → ∀ us, Unmarked us → Scan.top.Quiet us → Scan.top.Quiet ([t] ++ us) :=
    fun ht us hends hus => Scan.quiet_calm ht (fun u hu => hends u hu _) hus
  induction h with
  | num x => exact hone rfl
  | str s => exact hone rfl
  | bool b => exact hone (by cases b <;> rfl)
  | null => exact hone rfl
  | fString h ih => exact hone rfl
  | unary op h ih => exact fun us hends hus => Scan.quiet_sym (by cases op <;> rfl) (by cases op <;> decide) (ih us hends hus)
  | directive h =>
    refine hone ?_
    simp only [List.mem_cons, List.not_mem_nil, or_false, Prod.mk.injEq] at h
    rcases h with ⟨-, rfl⟩ | ⟨-, rfl⟩ | ⟨-, rfl⟩ | ⟨-, rfl⟩ <;> rfl
  | var name => exact hone rfl
  | invoke h ih => exact fun us hends hus => Scan.quiet_sym rfl (by decide) (ih us hends hus)
  | parens h ih => exact fun us _ hus => Scan.quiet_between (by decide) (h.scans upward_off 1 []) hus
  | array hb h ih =>
    intro us _ hus
    rw [← List.append_assoc]
    exact Scan.quiet_between (by decide) ((Scan.stays_blank hb).append (h.scans upward_off 1 [])) hus
  | doc hb h ih =>
    intro us _ hus
    rw [← List.append_assoc]
    exact Scan.quiet_between (by decide) ((Scan.stays_blank hb).append (h.scans upward_off 0 [])) hus
  | call name h ih =>
    exact fun us _ hus => Scan.quiet_ident (unmarked_sym (by decide)) (Scan.quiet_between (by decide) (h.scans upward_off 1 []) hus)
  | @field safe b name ts t h ht ih =>
    intro us hends hus
    rw [List.append_assoc]
    refine ih _ (unmarked_sym (by cases safe <;> decide)) ?_
    have hdot : Scan.top.step (.sym (if safe then .qDot else .dot)) = some ⟨0, true, []⟩ := by cases safe <;> rfl
    refine Scan.quiet_cons hdot (fun _ u _ => not_marks_sym (by cases safe <;> decide) u) ?_
    exact Scan.quiet_cons (Scan.step_word ht (.inr rfl)) (fun htop => by cases htop) hus
  | projection h ih =>
    intro us hends hus
    rw [List.append_assoc]
    refine ih _ (unmarked_sym (by decide)) ?_
    exact @Scan.quiet_between [] us .lBrack .rBrack (by decide) Scan.stays_nil hus
  | index h h' ih ih' =>
    intro us hends hus
    rw [List.append_assoc]
    exact ih _ (unmarked_sym (by decide)) (Scan.quiet_between (by decide) (h'.scans upward_off 1 []) hus)
  | filter h h' ih ih' =>
    intro us hends hus
    rw [List.append_assoc]
    exact ih _ (unmarked_sym (by decide)) (Scan.quiet_between (by decide) (h'.scans upward_off 1 []) hus)
  | bin op h h' ih ih' =>
    intro us hends hus
    rw [List.append_assoc]
    refine ih _ (unmarked_sym (by cases op <;> decide)) ?_
    exact Scan.quiet_sym (calm_op op) (by cases op <;> decide) (ih' us hends hus)
  | service name h ih =>
    exact fun us _ hus => Scan.quiet_ident (unmarked_sym (by decide)) (Scan.quiet_between (by decide) (h.scans upward_off 0 []) hus)
  | qualified pkg svc h ih =>
    intro us _ hus
    refine Scan.quiet_ident (unmarked_sym (by decide)) (Scan.quiet_sym rfl (by decide) ?_)
    exact Scan.quiet_ident (unmarked_sym (by decide)) (Scan.quiet_between (by decide) (h.scans upward_off 0 []) hus)
  | noPath => exact fun us hus => hus
  | step ht h ih =>
    intro us hus
    refine Scan.quiet_cons (show Scan.top.step (.sym .dot) = some ⟨0, true, []⟩ from rfl) (fun _ u _ => not_marks_sym (by decide) u) ?_
    exact Scan.quiet_cons (Scan.step_word ht (.inr rfl)) (fun htop => by cases htop) (ih us hus)
  | emit h h' ih ih' =>
    refine ⟨_, _, rfl, fun us hends hus s hstep => ?_⟩
    cases hstep
    rw [List.append_assoc]
    exact ih _ (unmarked_sym (by decide)) (Scan.quiet_sym rfl (by decide) (ih' us hends hus))
  | respond h h' ih ih' =>
    refine ⟨_, _, rfl, fun us hends hus s hstep => ?_⟩
    cases hstep
    rw [List.append_assoc]
    exact ih _ (unmarked_sym (by decide)) (Scan.quiet_sym rfl (by decide) (ih' us hends hus))
  | invokeMerge h ih =>
    refine ⟨_, _, rfl, fun us hends hus s hstep => ?_⟩
    cases hstep
    exact ih us hends hus
  | assign first h h' ih ih' =>
    refine ⟨_, _, rfl, fun us hends hus s hstep => ?_⟩
    cases hstep
    rw [List.append_assoc]
    exact ih _ (Scan.quiet_sym rfl (by decide) (ih' us hends hus))
  | @loop x iter body ts us h h' ih ih' =>
    refine ⟨_, _, rfl, fun vs _ hvs s hstep => ?_⟩
    cases hstep
    have hoff : Scan.Off ⟨0, false, [false]⟩ := .inr (List.cons_ne_nil _ _)
    have hbody : Scan.Stays Scan.Off ⟨0, false, [false]⟩ (.ident x :: .sym .in :: (ts ++ .sym .colon :: us)) :=
      .cons rfl (.cons rfl ((h.scans upward_off 0 [false]).append (.cons rfl (h'.scans upward_off [false]))))
    have hsplit : Tok.ident x :: .sym .in :: (ts ++ .sym .colon :: (us ++ [.sym .end])) =
        (.ident x :: .sym .in :: (ts ++ .sym .colon :: us)) ++ [.sym .end] := by simp
    rw [hsplit]
    exact ((hbody hoff).append (Scan.trail_end hoff)).quiet hvs
  | @ite arms otherwise ts h ih =>
    obtain ⟨us, rfl, hclauses⟩ := h.scans upward_off
    refine ⟨_, _, rfl, fun vs _ hvs s hstep => ?_⟩
    cases hstep
    have hoff : ∀ b, Scan.Off ⟨0, false, [b]⟩ := fun b => .inr (List.cons_ne_nil _ _)
    exact ((hclauses [] (hoff _)).append (Scan.trail_end (hoff _))).quiet hvs
  | _ => trivial

end Vejas.Vjs
