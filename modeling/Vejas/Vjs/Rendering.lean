import Vejas.Vjs.Locality
import Vejas.Vjs.Printing

/-! How expressions and statements are written down: every token of a text belongs to what it says.
An `if` is written as its arms, its `else` and `end`, and a hole as one expression. Two scans of the
tokens know nothing of the parser: one finds the clauses that come after an `else`, the other what
follows the expression of a hole. -/

namespace Vejas.Vjs
open Json Rust

def Tok.word? : Tok → Option String
  | .ident s => some s
  | .str s => some s
  | .sym s => (keywords.find? fun k => k.2 == s).map (·.1)
  | _ => none

def Blank (ts : List Tok) : Prop := ∀ t ∈ ts, t = .sym .newline

theorem blank_nil : Blank [] := fun _ ht => absurd ht List.not_mem_nil

/-- What may stand after an item: blank lines and one comma at most. -/
def Separator (ts : List Tok) : Prop :=
  Blank ts ∨ ∃ us vs, Blank us ∧ Blank vs ∧ ts = us ++ .sym .comma :: vs

inductive Phrase
  | expr (e : Expr)
  | parts (ps : List FStringPart) (raw : List FPart)
  | items (es : List Expr)
  | fields (fs : List (String × Expr))
  | service (name : String) (args : List (String × Expr))
  | path (ws : List String)
  | stmt (s : Stmt)
  | block (ss : List Stmt)
  | clauses (arms : List (Expr × Span × List Stmt)) (otherwise : Option (List Stmt))

/-- The tokens render the phrase. The clauses of an `if` are rendered without its `end`. -/
inductive Renders : Phrase → List Tok → Prop
  | num (x : Float) : Renders (.expr (.lit (Vjs.num x))) [.num x]
  | str (s : String) : Renders (.expr (.lit (.string s))) [.str s]
  | bool (b : Bool) : Renders (.expr (.lit (.bool b))) [.sym (if b then .true else .false)]
  | null : Renders (.expr (.lit .null)) [.sym .null]
  | fString {ps : List FStringPart} {raw : List FPart} (h : Renders (.parts ps raw) []) :
      Renders (.expr (.fString ps)) [.fStr raw]
  | unary (op : UnOp) {e : Expr} {ts : List Tok} (h : Renders (.expr e) ts) :
      Renders (.expr (.unary op e)) (.sym op.sym :: ts)
  | directive {w : String} {s : Sym} (h : (w, s) ∈ [("source", Sym.source), ("tool", .tool), ("driver", .driver), ("api", .api)]) :
      Renders (.expr (.var w)) [.sym s]
  | var (name : String) : Renders (.expr (.var name)) [.ident name]
  | invoke {name : String} {args : List (String × Expr)} {ts : List Tok} (h : Renders (.service name args) ts) :
      Renders (.expr (.invoke name args)) (.sym .invoke :: ts)
  | parens {e : Expr} {ts : List Tok} (h : Renders (.expr e) ts) :
      Renders (.expr e) (.sym .lParen :: (ts ++ [.sym .rParen]))
  | array {es : List Expr} {blank ts : List Tok} (hb : Blank blank) (h : Renders (.items es) ts) :
      Renders (.expr (.array es)) (.sym .lBrack :: (blank ++ (ts ++ [.sym .rBrack])))
  | doc {fs : List (String × Expr)} {blank ts : List Tok} (hb : Blank blank) (h : Renders (.fields fs) ts) :
      Renders (.expr (.doc fs)) (.sym .lBrace :: (blank ++ (ts ++ [.sym .rBrace])))
  | call (name : String) {es : List Expr} {ts : List Tok} (h : Renders (.items es) ts) :
      Renders (.expr (.call name es)) (.ident name :: .sym .lParen :: (ts ++ [.sym .rParen]))
  | field (safe : Bool) {b : Expr} {name : String} {ts : List Tok} {t : Tok} (h : Renders (.expr b) ts)
      (ht : t.word? = some name) :
      Renders (.expr (.field b name safe)) (ts ++ [.sym (if safe then .qDot else .dot), t])
  | projection {b : Expr} {ts : List Tok} (h : Renders (.expr b) ts) :
      Renders (.expr (.projection b)) (ts ++ [.sym .lBrack, .sym .rBrack])
  | index {b k : Expr} {ts us : List Tok} (h : Renders (.expr b) ts) (h' : Renders (.expr k) us) :
      Renders (.expr (.index b k)) (ts ++ .sym .lBrack :: (us ++ [.sym .rBrack]))
  | filter {b c : Expr} {ts us : List Tok} (h : Renders (.expr b) ts) (h' : Renders (.expr c) us) :
      Renders (.expr (.filter b c)) (ts ++ .sym .lBrack :: (us ++ [.sym .rBrack]))
  | bin (op : BinOp) {l r : Expr} {ts us : List Tok} (h : Renders (.expr l) ts) (h' : Renders (.expr r) us) :
      Renders (.expr (.bin op l r)) (ts ++ .sym op.sym :: us)
  | noParts : Renders (.parts [] []) []
  | litPart (s : String) {ps : List FStringPart} {raw : List FPart} (h : Renders (.parts ps raw) []) :
      Renders (.parts (.lit s :: ps) (.lit s :: raw)) []
  | hole {e : Expr} {ts blank : List Tok} {toks : List Spanned} {ps : List FStringPart} {raw : List FPart}
      (he : Renders (.expr e) ts) (hb : Blank blank) (htoks : toks.map (·.1) = ts ++ blank)
      (h : Renders (.parts ps raw) []) : Renders (.parts (.expr e :: ps) (.expr toks :: raw)) []
  | noItems : Renders (.items []) []
  | item {e : Expr} {es : List Expr} {ts sep us : List Tok} (he : Renders (.expr e) ts) (hsep : Separator sep)
      (h : Renders (.items es) us) : Renders (.items (e :: es)) (ts ++ (sep ++ us))
  | noFields : Renders (.fields []) []
  | keyed {key : String} {t : Tok} {e : Expr} {fs : List (String × Expr)} {ts sep us : List Tok}
      (ht : t.word? = some key) (he : Renders (.expr e) ts) (hsep : Separator sep) (h : Renders (.fields fs) us) :
      Renders (.fields ((key, e) :: fs)) (t :: .sym .colon :: (ts ++ (sep ++ us)))
  | service (name : String) {args : List (String × Expr)} {ts : List Tok} (h : Renders (.fields args) ts) :
      Renders (.service name args) (.ident name :: .sym .lParen :: (ts ++ [.sym .rParen]))
  | qualified (pkg svc : String) {args : List (String × Expr)} {ts : List Tok} (h : Renders (.fields args) ts) :
      Renders (.service (pkg ++ ":" ++ svc) args)
        (.ident pkg :: .sym .colon :: .ident svc :: .sym .lParen :: (ts ++ [.sym .rParen]))
  | noPath : Renders (.path []) []
  | step {w : String} {t : Tok} {ws : List String} {ts : List Tok} (ht : t.word? = some w) (h : Renders (.path ws) ts) :
      Renders (.path (w :: ws)) (.sym .dot :: t :: ts)
  | emit {s e : Expr} {ts us : List Tok} (h : Renders (.expr s) ts) (h' : Renders (.expr e) us) :
      Renders (.stmt (.emit s e)) (.sym .emit :: (ts ++ .sym .comma :: us))
  | respond {s e : Expr} {ts us : List Tok} (h : Renders (.expr s) ts) (h' : Renders (.expr e) us) :
      Renders (.stmt (.respond s e)) (.sym .respond :: (ts ++ .sym .comma :: us))
  | invokeMerge {name : String} {args : List (String × Expr)} {ts : List Tok} (h : Renders (.service name args) ts) :
      Renders (.stmt (.invokeMerge name args)) (.sym .invoke :: ts)
  | assign (first : String) {tail : List String} {e : Expr} {ts us : List Tok} (h : Renders (.path tail) ts)
      (h' : Renders (.expr e) us) : Renders (.stmt (.assign (first :: tail) e)) (.ident first :: (ts ++ .sym .eq :: us))
  | loop (x : String) {iter : Expr} {body : List Stmt} {ts us : List Tok} (h : Renders (.expr iter) ts)
      (h' : Renders (.block body) us) :
      Renders (.stmt (.loop x iter body))
        (.sym .for :: .ident x :: .sym .in :: (ts ++ .sym .colon :: (us ++ [.sym .end])))
  | ite {arms : List (Expr × Span × List Stmt)} {otherwise : Option (List Stmt)} {ts : List Tok}
      (h : Renders (.clauses arms otherwise) ts) : Renders (.stmt (.ite arms otherwise)) (ts ++ [.sym .end])
  | noStmts {blank : List Tok} (hb : Blank blank) : Renders (.block []) blank
  | next {s : Stmt} {ss : List Stmt} {blank ts us : List Tok} (hb : Blank blank) (hs : Renders (.stmt s) ts)
      (h : Renders (.block ss) us) : Renders (.block (s :: ss)) (blank ++ (ts ++ us))
  | first (span : Span) {c : Expr} {body : List Stmt} {ts us : List Tok} (h : Renders (.expr c) ts)
      (h' : Renders (.block body) us) :
      Renders (.clauses [(c, span, body)] none) (.sym .if :: (ts ++ .sym .colon :: us))
  | elif (span : Span) {arms : List (Expr × Span × List Stmt)} {c : Expr} {body : List Stmt} {ts us vs : List Tok}
      (harms : Renders (.clauses arms none) ts) (h : Renders (.expr c) us) (h' : Renders (.block body) vs) :
      Renders (.clauses (arms ++ [(c, span, body)]) none) (ts ++ .sym .elif :: (us ++ .sym .colon :: vs))
  | orElse {arms : List (Expr × Span × List Stmt)} {body : List Stmt} {ts us : List Tok}
      (harms : Renders (.clauses arms none) ts) (h : Renders (.block body) us) :
      Renders (.clauses arms (some body)) (ts ++ .sym .else :: .sym .colon :: us)

/-- Where a scan of the tokens of a program is: how many brackets are open, whether a dot came last,
and for each open `if` and `for`, the innermost first, whether its `else` has come. -/
structure Scan where
  depth : Nat
  dot : Bool
  elses : List Bool

def Scan.clause (s : Scan) : Sym → Option Scan
  | .if | .for => some { s with elses := false :: s.elses }
  | .elif => if s.elses.headD false then none else some s
  | .else => if s.elses.headD false then none else some { s with elses := true :: s.elses.tail }
  | .end => some { s with elses := s.elses.tail }
  | _ => some s

def Scan.step (s : Scan) : Tok → Option Scan
  | .sym .dot | .sym .qDot => some { s with dot := true }
  | .sym .lParen | .sym .lBrack | .sym .lBrace => some { s with depth := s.depth + 1, dot := false }
  | .sym .rParen | .sym .rBrack | .sym .rBrace => some { s with depth := s.depth - 1, dot := false }
  | .sym c => if s.depth = 0 ∧ s.dot = false then s.clause c else some { s with dot := false }
  | _ => some { s with dot := false }

def Scan.run (s : Scan) (ts : List Tok) : Option Scan := ts.foldlM Scan.step s

def orderly (toks : List Spanned) : Bool := (Scan.run ⟨0, false, []⟩ (toks.map (·.1))).isSome

theorem Scan.run_append {s s' : Scan} {ts us : List Tok} (h : s.run ts = some s') : s.run (ts ++ us) = s'.run us := by
  unfold Scan.run at h ⊢
  rw [List.foldlM_append, h]
  rfl

theorem Scan.run_cons {s s' : Scan} {t : Tok} {ts : List Tok} (h : s.step t = some s') : s.run (t :: ts) = s'.run ts := by
  unfold Scan.run
  rw [List.foldlM_cons, h]
  rfl

theorem Scan.of_run_append {s r : Scan} {ts us : List Tok} (h : s.run (ts ++ us) = some r) :
    ∃ s', s.run ts = some s' ∧ s'.run us = some r := by
  unfold Scan.run at h ⊢
  rw [List.foldlM_append] at h
  exact Option.bind_eq_some_iff.mp h

theorem Scan.of_run_cons {s r : Scan} {t : Tok} {ts : List Tok} (h : s.run (t :: ts) = some r) :
    ∃ s', s.step t = some s' ∧ s'.run ts = some r := by
  unfold Scan.run at h ⊢
  rw [List.foldlM_cons] at h
  exact Option.bind_eq_some_iff.mp h

def Sym.calm (c : Sym) : Bool :=
  !([.dot, .qDot, .lParen, .lBrack, .lBrace, .rParen, .rBrack, .rBrace, .if, .for, .elif, .else, .end] : List Sym).elem c

def Tok.calm : Tok → Bool
  | .sym c => c.calm
  | _ => true

section
variable {d : Nat} {elses : List Bool}

theorem Scan.step_calm {t : Tok} (h : t.calm = true) : Scan.step ⟨d, false, elses⟩ t = some ⟨d, false, elses⟩ := by
  cases t with
  | sym c =>
    have h : c.calm = true := h
    cases c <;> first | (exact absurd h (by decide)) | (show (if _ then some _ else some _) = _; split <;> rfl)
  | _ => rfl

theorem Scan.step_word {s : Scan} {t : Tok} {w : String} (h : t.word? = some w) (hs : s.depth ≠ 0 ∨ s.dot = true) :
    s.step t = some ⟨s.depth, false, s.elses⟩ := by
  have hinner : ¬ (s.depth = 0 ∧ s.dot = false) := by
    rintro ⟨hdepth, hdot⟩
    rcases hs with hs | hs
    · exact hs hdepth
    · rw [hdot] at hs
      cases hs
  cases t with
  | sym c =>
    have hword : (Tok.word? (.sym c)).isSome = true := by rw [h]; rfl
    cases c <;> first | (exact absurd hword (by decide)) | (exact if_neg hinner)
  | fStr parts => cases h
  | num x => cases h
  | _ => rfl

inductive Scan.Trail (N : Scan → Prop) : Scan → List Tok → Scan → Prop
  | nil (s : Scan) : Trail N s [] s
  | cons {s s' r : Scan} {t : Tok} {ts : List Tok} (hs : N s) (ht : s.step t = some s') (rest : Trail N s' ts r) :
      Trail N s (t :: ts) r

variable {N : Scan → Prop}

theorem Scan.Trail.append {s s' r : Scan} {ts us : List Tok} (h : Scan.Trail N s ts s') (h' : Scan.Trail N s' us r) :
    Scan.Trail N s (ts ++ us) r := by
  induction h with
  | nil s => exact h'
  | cons hs ht rest ih => exact .cons hs ht (ih h')

theorem Scan.Trail.run {s r : Scan} {ts : List Tok} (h : Scan.Trail N s ts r) : s.run ts = some r := by
  induction h with
  | nil s => rfl
  | cons hs ht rest ih => rwa [Scan.run_cons ht]

def Scan.Stays (N : Scan → Prop) (s : Scan) (ts : List Tok) : Prop := N s → Scan.Trail N s ts s

structure Upward (N : Scan → Prop) : Prop where
  name : ∀ {d : Nat} {elses : List Bool}, N ⟨d, false, elses⟩ → N ⟨d, true, elses⟩
  bracket : ∀ {d : Nat} {elses : List Bool}, N ⟨d, false, elses⟩ → N ⟨d + 1, false, elses⟩
  block : ∀ {d : Nat} {elses : List Bool}, N ⟨d, false, elses⟩ → N ⟨d, false, false :: elses⟩
  orElse : ∀ {d : Nat} {elses : List Bool}, N ⟨d, false, false :: elses⟩ → N ⟨d, false, true :: elses⟩

theorem Scan.Stays.append {s : Scan} {ts us : List Tok} (h : Scan.Stays N s ts) (h' : Scan.Stays N s us) :
    Scan.Stays N s (ts ++ us) := fun hs => (h hs).append (h' hs)

theorem Scan.Stays.cons {t : Tok} {ts : List Tok} (ht : t.calm = true) (h : Scan.Stays N ⟨d, false, elses⟩ ts) :
    Scan.Stays N ⟨d, false, elses⟩ (t :: ts) := fun hs => .cons hs (Scan.step_calm ht) (h hs)

theorem Scan.stays_nil {s : Scan} : Scan.Stays N s [] := fun _ => .nil s

theorem Scan.stays_one {t : Tok} (ht : t.calm = true) : Scan.Stays N ⟨d, false, elses⟩ [t] := .cons ht Scan.stays_nil

theorem Scan.stays_all {ts : List Tok} (h : ∀ t ∈ ts, t.calm = true) : Scan.Stays N ⟨d, false, elses⟩ ts := by
  induction ts with
  | nil => exact Scan.stays_nil
  | cons t ts ih => exact .cons (h t (List.mem_cons_self ..)) (ih fun u hu => h u (List.mem_cons_of_mem t hu))

theorem Scan.stays_blank {ts : List Tok} (h : Blank ts) : Scan.Stays N ⟨d, false, elses⟩ ts := by
  refine Scan.stays_all fun t ht => ?_
  rw [h t ht]
  rfl

theorem Scan.stays_separator {ts : List Tok} (h : Separator ts) : Scan.Stays N ⟨d, false, elses⟩ ts := by
  rcases h with h | ⟨us, vs, hus, hvs, rfl⟩
  · exact Scan.stays_blank h
  · exact (Scan.stays_blank hus).append (.cons rfl (Scan.stays_blank hvs))

theorem Scan.Stays.between (hup : Upward N) {ts : List Tok} {a b : Sym}
    (ha : (a, b) ∈ [(Sym.lParen, Sym.rParen), (.lBrack, .rBrack), (.lBrace, .rBrace)])
    (h : Scan.Stays N ⟨d + 1, false, elses⟩ ts) : Scan.Stays N ⟨d, false, elses⟩ (.sym a :: (ts ++ [.sym b])) := by
  have hopen : Scan.step ⟨d, false, elses⟩ (.sym a) = some ⟨d + 1, false, elses⟩ := by
    simp only [List.mem_cons, List.not_mem_nil, or_false, Prod.mk.injEq] at ha
    rcases ha with ⟨rfl, -⟩ | ⟨rfl, -⟩ | ⟨rfl, -⟩ <;> rfl
  have hclose : Scan.step ⟨d + 1, false, elses⟩ (.sym b) = some ⟨d, false, elses⟩ := by
    simp only [List.mem_cons, List.not_mem_nil, or_false, Prod.mk.injEq] at ha
    rcases ha with ⟨-, rfl⟩ | ⟨-, rfl⟩ | ⟨-, rfl⟩ <;> rfl
  intro hs
  have hinner := hup.bracket hs
  exact .cons hs hopen ((h hinner).append (.cons hinner hclose (.nil _)))

theorem Scan.stays_field (hup : Upward N) {t : Tok} {w : String} {s : Sym} (hs : s = .dot ∨ s = .qDot) (ht : t.word? = some w) :
    Scan.Stays N ⟨d, false, elses⟩ [.sym s, t] := by
  have hdot : Scan.step ⟨d, false, elses⟩ (.sym s) = some ⟨d, true, elses⟩ := by
    rcases hs with rfl | rfl <;> rfl
  exact fun hN => .cons hN hdot (.cons (hup.name hN) (Scan.step_word ht (.inr rfl)) (.nil _))

end

def Phrase.Scans (N : Scan → Prop) : Phrase → List Tok → Prop
  | .parts _ _, _ => True
  | .fields _, ts => ∀ d elses, Scan.Stays N ⟨d + 1, false, elses⟩ ts
  | .stmt _, ts | .block _, ts => ∀ elses, Scan.Stays N ⟨0, false, elses⟩ ts
  | .clauses _ otherwise, ts => ∃ us, ts = .sym .if :: us ∧ ∀ elses, N ⟨0, false, false :: elses⟩ →
      Scan.Trail N ⟨0, false, false :: elses⟩ us ⟨0, false, otherwise.isSome :: elses⟩
  | _, ts => ∀ d elses, Scan.Stays N ⟨d, false, elses⟩ ts

theorem calm_op (op : BinOp) : op.sym.calm = true := by
  cases op <;> rfl

section
variable {N : Scan → Prop}

theorem Scan.trail_end {b : Bool} {elses : List Bool} (hN : N ⟨0, false, b :: elses⟩) :
    Scan.Trail N ⟨0, false, b :: elses⟩ [.sym .end] ⟨0, false, elses⟩ := .cons hN rfl (.nil _)

theorem Renders.scans (hup : Upward N) {φ : Phrase} {ts : List Tok} (h : Renders φ ts) : φ.Scans N ts := by
  induction h with
  | num x => exact fun d elses => Scan.stays_one rfl
  | str s => exact fun d elses => Scan.stays_one rfl
  | bool b => exact fun d elses => Scan.stays_one (by cases b <;> rfl)
  | null => exact fun d elses => Scan.stays_one rfl
  | fString h ih => exact fun d elses => Scan.stays_one rfl
  | unary op h ih => exact fun d elses => .cons (by cases op <;> rfl) (ih d elses)
  | directive h =>
    intro d elses
    refine Scan.stays_one ?_
    simp only [List.mem_cons, List.not_mem_nil, or_false, Prod.mk.injEq] at h
    rcases h with ⟨-, rfl⟩ | ⟨-, rfl⟩ | ⟨-, rfl⟩ | ⟨-, rfl⟩ <;> rfl
  | var name => exact fun d elses => Scan.stays_one rfl
  | invoke h ih => exact fun d elses => .cons rfl (ih d elses)
  | parens h ih => exact fun d elses => .between hup (by decide) (ih (d + 1) elses)
  | array hb h ih =>
    intro d elses
    rw [← List.append_assoc]
    exact .between hup (by decide) ((Scan.stays_blank hb).append (ih (d + 1) elses))
  | doc hb h ih =>
    intro d elses
    rw [← List.append_assoc]
    exact .between hup (by decide) ((Scan.stays_blank hb).append (ih d elses))
  | call name h ih => exact fun d elses => .cons rfl (.between hup (by decide) (ih (d + 1) elses))
  | field safe h ht ih =>
    exact fun d elses => (ih d elses).append (Scan.stays_field hup (by cases safe <;> simp) ht)
  | projection h ih =>
    exact fun d elses => (ih d elses).append (@Scan.Stays.between d elses N hup [] _ _ (by decide) Scan.stays_nil)
  | index h h' ih ih' => exact fun d elses => (ih d elses).append (.between hup (by decide) (ih' (d + 1) elses))
  | filter h h' ih ih' => exact fun d elses => (ih d elses).append (.between hup (by decide) (ih' (d + 1) elses))
  | bin op h h' ih ih' => exact fun d elses => (ih d elses).append (.cons (calm_op op) (ih' d elses))
  | noParts => trivial
  | litPart s h ih => trivial
  | hole he hb htoks h ihe ih => trivial
  | noItems => exact fun d elses => Scan.stays_nil
  | item he hsep h ihe ih => exact fun d elses => (ihe d elses).append ((Scan.stays_separator hsep).append (ih d elses))
  | noFields => exact fun d elses => Scan.stays_nil
  | @keyed key t e fs ts sep us ht he hsep h ihe ih =>
    intro d elses hN
    have htail : Scan.Stays N ⟨d + 1, false, elses⟩ (.sym .colon :: (ts ++ (sep ++ us))) :=
      .cons rfl ((ihe (d + 1) elses).append ((Scan.stays_separator hsep).append (ih d elses)))
    exact .cons hN (Scan.step_word ht (.inl (Nat.succ_ne_zero d))) (htail hN)
  | service name h ih => exact fun d elses => .cons rfl (.between hup (by decide) (ih d elses))
  | qualified pkg svc h ih =>
    exact fun d elses => .cons rfl (.cons rfl (.cons rfl (.between hup (by decide) (ih d elses))))
  | noPath => exact fun d elses => Scan.stays_nil
  | step ht h ih => exact fun d elses => (Scan.stays_field hup (.inl rfl) ht).append (ih d elses)
  | emit h h' ih ih' => exact fun elses => .cons rfl ((ih 0 elses).append (.cons rfl (ih' 0 elses)))
  | respond h h' ih ih' => exact fun elses => .cons rfl ((ih 0 elses).append (.cons rfl (ih' 0 elses)))
  | invokeMerge h ih => exact fun elses => .cons rfl (ih 0 elses)
  | assign first h h' ih ih' => exact fun elses => .cons rfl ((ih 0 elses).append (.cons rfl (ih' 0 elses)))
  | @loop x iter body ts us h h' ih ih' =>
    intro elses hN
    have hopen : Scan.step ⟨0, false, elses⟩ (.sym .for) = some ⟨0, false, false :: elses⟩ := rfl
    have hinner : N ⟨0, false, false :: elses⟩ := hup.block hN
    have hbody : Scan.Stays N ⟨0, false, false :: elses⟩ (.ident x :: .sym .in :: (ts ++ .sym .colon :: us)) :=
      .cons rfl (.cons rfl ((ih 0 (false :: elses)).append (.cons rfl (ih' (false :: elses)))))
    have hsplit : Tok.ident x :: .sym .in :: (ts ++ .sym .colon :: (us ++ [.sym .end])) =
        (.ident x :: .sym .in :: (ts ++ .sym .colon :: us)) ++ [.sym .end] := by simp
    rw [hsplit]
    exact .cons hN hopen ((hbody hinner).append (Scan.trail_end hinner))
  | @ite arms otherwise ts h ih =>
    intro elses hN
    obtain ⟨us, rfl, hclauses⟩ := ih
    have hinner : N ⟨0, false, otherwise.isSome :: elses⟩ := by
      cases otherwise with
      | none => exact hup.block hN
      | some body => exact hup.orElse (hup.block hN)
    exact .cons hN rfl ((hclauses elses (hup.block hN)).append (Scan.trail_end hinner))
  | noStmts hb => exact fun elses => Scan.stays_blank hb
  | next hb hs h ihs ih => exact fun elses => (Scan.stays_blank hb).append ((ihs elses).append (ih elses))
  | @first span c body ts us h h' ih ih' =>
    refine ⟨_, rfl, fun elses hN => ?_⟩
    have hbody : Scan.Stays N ⟨0, false, false :: elses⟩ (ts ++ .sym .colon :: us) := (ih 0 (false :: elses)).append (.cons rfl (ih' (false :: elses)))
    exact hbody hN
  | @elif span arms c body ts us vs harms h h' iharms ih ih' =>
    obtain ⟨_, rfl, hclauses⟩ := iharms
    refine ⟨_, rfl, fun elses hN => (hclauses elses hN).append ?_⟩
    have hbody : Scan.Stays N ⟨0, false, false :: elses⟩ (us ++ .sym .colon :: vs) := (ih 0 (false :: elses)).append (.cons rfl (ih' (false :: elses)))
    exact .cons hN rfl (hbody hN)
  | @orElse arms body ts us harms h iharms ih =>
    obtain ⟨_, rfl, hclauses⟩ := iharms
    refine ⟨_, rfl, fun elses hN => (hclauses elses hN).append ?_⟩
    have hbody : Scan.Stays N ⟨0, false, true :: elses⟩ (.sym .colon :: us) := .cons rfl (ih (true :: elses))
    exact .cons hN rfl (hbody (hup.orElse hN))

end

def Scan.Still (s : Scan) (ts : List Tok) : Prop := s.run ts = some s

theorem upward_true : Upward fun _ => True := ⟨id, id, id, id⟩

theorem Scan.Stays.still {s : Scan} {ts : List Tok} (h : Scan.Stays (fun _ => True) s ts) : s.Still ts := (h trivial).run

/-- What a hole needs next, outside brackets: an operand, the name of a field or of a service, the
arguments of a service, or what goes on after an operand; only a name can be called. -/
inductive Need
  | operand
  | field
  | service
  | args
  | more (callable : Bool)

structure Place where
  depth : Nat
  need : Need

def Place.outer (need : Need) (t : Tok) : Option Place :=
  match need, t with
  | .operand, .ident _ => some ⟨0, .more true⟩
  | .operand, .sym .not | .operand, .sym .minus => some ⟨0, .operand⟩
  | .operand, .sym .invoke => some ⟨0, .service⟩
  | .operand, .sym .lParen | .operand, .sym .lBrack | .operand, .sym .lBrace => some ⟨1, .more false⟩
  | .operand, _ => some ⟨0, .more false⟩
  | .field, _ => some ⟨0, .more false⟩
  | .service, _ => some ⟨0, .args⟩
  | .args, .sym .lParen => some ⟨1, .more false⟩
  | .args, _ => some ⟨0, .service⟩
  | .more _, .sym .dot | .more _, .sym .qDot => some ⟨0, .field⟩
  | .more _, .sym .lBrack => some ⟨1, .more false⟩
  | .more true, .sym .lParen => some ⟨1, .more false⟩
  | .more _, t => (binaryOp t).map fun _ => ⟨0, .operand⟩

def Place.step (s : Place) (t : Tok) : Option Place :=
  if s.depth = 0 then Place.outer s.need t
  else if t.is .lParen || t.is .lBrack || t.is .lBrace then some { s with depth := s.depth + 1 }
  else if t.is .rParen || t.is .rBrack || t.is .rBrace then some { s with depth := s.depth - 1 }
  else some s

def Place.run (s : Place) (ts : List Tok) : Option Place := ts.foldlM Place.step s

def Place.single : Place → List Tok → Bool
  | _, [] => true
  | s, t :: ts => (t :: ts).all (·.is .newline) || (s.step t).any (·.single ts)

mutual

def Tok.holesSingle : Tok → Bool
  | .fStr parts => partsSingle parts
  | _ => true

def partsSingle : List FPart → Bool
  | [] => true
  | .lit _ :: ps => partsSingle ps
  | .expr toks :: ps => Place.single ⟨0, .operand⟩ (toks.map (·.1)) && toksSingle toks && partsSingle ps

def toksSingle : List (Tok × Nat) → Bool
  | [] => true
  | (t, _) :: ts => t.holesSingle && toksSingle ts

end

theorem Place.run_append {s s' : Place} {ts us : List Tok} (h : s.run ts = some s') : s.run (ts ++ us) = s'.run us := by
  unfold Place.run at h ⊢
  rw [List.foldlM_append, h]
  rfl

theorem Place.run_cons {s s' : Place} {t : Tok} {ts : List Tok} (h : s.step t = some s') : s.run (t :: ts) = s'.run ts := by
  unfold Place.run
  rw [List.foldlM_cons, h]
  rfl

def Tok.isBracket (t : Tok) : Bool :=
  t.is .lParen || t.is .lBrack || t.is .lBrace || (t.is .rParen || t.is .rBrack || t.is .rBrace)

def Inside (ts : List Tok) : Prop := ∀ d need, Place.run ⟨d + 1, need⟩ ts = some ⟨d + 1, need⟩

theorem inside_nil : Inside [] := fun _ _ => rfl

theorem Inside.append {ts us : List Tok} (h : Inside ts) (h' : Inside us) : Inside (ts ++ us) := by
  intro d need
  rw [Place.run_append (h d need)]
  exact h' d need

theorem Inside.cons {t : Tok} {ts : List Tok} (ht : t.isBracket = false) (h : Inside ts) : Inside (t :: ts) := by
  intro d need
  have hsplit : _ ∧ _ := Bool.or_eq_false_iff.mp ht
  have hstep : Place.step ⟨d + 1, need⟩ t = some ⟨d + 1, need⟩ := by
    unfold Place.step
    rw [if_neg (Nat.succ_ne_zero d), if_neg (by rw [hsplit.1]; decide), if_neg (by rw [hsplit.2]; decide)]
  rw [Place.run_cons hstep]
  exact h d need

theorem Inside.all {ts : List Tok} (h : ∀ t ∈ ts, t.isBracket = false) : Inside ts := by
  induction ts with
  | nil => exact inside_nil
  | cons t ts ih => exact .cons (h t (List.mem_cons_self ..)) (ih fun u hu => h u (List.mem_cons_of_mem t hu))

theorem Inside.blank {ts : List Tok} (h : Blank ts) : Inside ts := by
  refine .all fun t ht => ?_
  rw [h t ht]
  rfl

theorem Inside.separator {ts : List Tok} (h : Separator ts) : Inside ts := by
  rcases h with h | ⟨us, vs, hus, hvs, rfl⟩
  · exact .blank h
  · exact (Inside.blank hus).append (.cons rfl (.blank hvs))

theorem isBracket_word {t : Tok} {w : String} (h : t.word? = some w) : t.isBracket = false := by
  have hword : t.word?.isSome = true := by rw [h]; rfl
  cases t with
  | sym c => cases c <;> first | rfl | (exact absurd hword (by decide))
  | _ => rfl

section
variable {a b : Sym} (hab : (a, b) ∈ [(Sym.lParen, Sym.rParen), (.lBrack, .rBrack), (.lBrace, .rBrace)])
include hab

theorem Place.step_close (d : Nat) (need : Need) : Place.step ⟨d + 1, need⟩ (.sym b) = some ⟨d, need⟩ := by
  simp only [List.mem_cons, List.not_mem_nil, or_false, Prod.mk.injEq] at hab
  rcases hab with ⟨-, rfl⟩ | ⟨-, rfl⟩ | ⟨-, rfl⟩ <;> rfl

theorem Inside.between {ts : List Tok} (h : Inside ts) : Inside (.sym a :: (ts ++ [.sym b])) := by
  intro d need
  have hopen : Place.step ⟨d + 1, need⟩ (.sym a) = some ⟨d + 2, need⟩ := by
    simp only [List.mem_cons, List.not_mem_nil, or_false, Prod.mk.injEq] at hab
    rcases hab with ⟨rfl, -⟩ | ⟨rfl, -⟩ | ⟨rfl, -⟩ <;> rfl
  rw [Place.run_cons hopen, Place.run_append (h (d + 1) need), Place.run_cons (Place.step_close hab (d + 1) need)]
  rfl

theorem Place.run_between {need : Need} {ts : List Tok} (hopen : Place.outer need (.sym a) = some ⟨1, .more false⟩)
    (h : Inside ts) : Place.run ⟨0, need⟩ (.sym a :: (ts ++ [.sym b])) = some ⟨0, .more false⟩ := by
  have hstep : Place.step ⟨0, need⟩ (.sym a) = some ⟨1, .more false⟩ := hopen
  rw [Place.run_cons hstep, Place.run_append (h 0 (.more false)), Place.run_cons (Place.step_close hab 0 (.more false))]
  rfl

end

def Phrase.Places : Phrase → List Tok → Prop
  | .expr _, ts => Inside ts ∧ ∃ c, Place.run ⟨0, .operand⟩ ts = some ⟨0, .more c⟩
  | .service _ _, ts => Inside ts ∧ Place.run ⟨0, .service⟩ ts = some ⟨0, .more false⟩
  | .items _, ts | .fields _, ts => Inside ts
  | _, _ => True

theorem Renders.places {φ : Phrase} {ts : List Tok} (h : Renders φ ts) : φ.Places ts := by
  induction h with
  | num x => exact ⟨.cons rfl inside_nil, false, rfl⟩
  | str s => exact ⟨.cons rfl inside_nil, false, rfl⟩
  | bool b => cases b <;> exact ⟨.cons rfl inside_nil, false, rfl⟩
  | null => exact ⟨.cons rfl inside_nil, false, rfl⟩
  | fString h ih => exact ⟨.cons rfl inside_nil, false, rfl⟩
  | unary op h ih =>
    obtain ⟨hinside, c, hrun⟩ := ih
    refine ⟨.cons (by cases op <;> rfl) hinside, c, ?_⟩
    rw [Place.run_cons (show Place.step ⟨0, .operand⟩ (.sym op.sym) = some ⟨0, .operand⟩ by cases op <;> rfl)]
    exact hrun
  | directive h =>
    simp only [List.mem_cons, List.not_mem_nil, or_false, Prod.mk.injEq] at h
    rcases h with ⟨-, rfl⟩ | ⟨-, rfl⟩ | ⟨-, rfl⟩ | ⟨-, rfl⟩ <;> exact ⟨.cons rfl inside_nil, false, rfl⟩
  | var name => exact ⟨.cons rfl inside_nil, true, rfl⟩
  | invoke h ih => exact ⟨.cons rfl ih.1, false, (Place.run_cons rfl).trans ih.2⟩
  | parens h ih => exact ⟨.between (by decide) ih.1, false, Place.run_between (by decide) rfl ih.1⟩
  | array hb h ih =>
    rw [← List.append_assoc]
    have hinside := (Inside.blank hb).append ih
    exact ⟨.between (by decide) hinside, false, Place.run_between (by decide) rfl hinside⟩
  | doc hb h ih =>
    rw [← List.append_assoc]
    have hinside := (Inside.blank hb).append ih
    exact ⟨.between (by decide) hinside, false, Place.run_between (by decide) rfl hinside⟩
  | call name h ih =>
    refine ⟨.cons rfl (.between (by decide) ih), false, ?_⟩
    exact (Place.run_cons rfl).trans (Place.run_between (by decide) rfl ih)
  | @field safe b name ts t h ht ih =>
    obtain ⟨hinside, c, hrun⟩ := ih
    have hdot : Place.step ⟨0, .more c⟩ (.sym (if safe then .qDot else .dot)) = some ⟨0, .field⟩ := by
      cases safe <;> rfl
    refine ⟨hinside.append (.cons (by cases safe <;> rfl) (.cons (isBracket_word ht) inside_nil)), false, ?_⟩
    rw [Place.run_append hrun, Place.run_cons hdot]
    rfl
  | projection h ih =>
    obtain ⟨hinside, c, hrun⟩ := ih
    refine ⟨hinside.append (.between (by decide) inside_nil), false, ?_⟩
    rw [Place.run_append hrun]
    exact Place.run_between (by decide) rfl inside_nil
  | index h h' ih ih' =>
    obtain ⟨hinside, c, hrun⟩ := ih
    refine ⟨hinside.append (.between (by decide) ih'.1), false, ?_⟩
    rw [Place.run_append hrun]
    exact Place.run_between (by decide) rfl ih'.1
  | filter h h' ih ih' =>
    obtain ⟨hinside, c, hrun⟩ := ih
    refine ⟨hinside.append (.between (by decide) ih'.1), false, ?_⟩
    rw [Place.run_append hrun]
    exact Place.run_between (by decide) rfl ih'.1
  | bin op h h' ih ih' =>
    obtain ⟨hinside, c, hrun⟩ := ih
    obtain ⟨hinside', c', hrun'⟩ := ih'
    refine ⟨hinside.append (.cons (by cases op <;> rfl) hinside'), c', ?_⟩
    rw [Place.run_append hrun, Place.run_cons (show Place.step ⟨0, .more c⟩ (.sym op.sym) = some ⟨0, .operand⟩ by
      cases op <;> cases c <;> rfl)]
    exact hrun'
  | noItems => exact inside_nil
  | item he hsep h ihe ih => exact ihe.1.append ((Inside.separator hsep).append ih)
  | noFields => exact inside_nil
  | keyed ht he hsep h ihe ih =>
    exact .cons (isBracket_word ht) (.cons rfl (ihe.1.append ((Inside.separator hsep).append ih)))
  | service name h ih =>
    refine ⟨.cons rfl (.between (by decide) ih), ?_⟩
    exact (Place.run_cons rfl).trans (Place.run_between (by decide) rfl ih)
  | qualified pkg svc h ih =>
    refine ⟨.cons rfl (.cons rfl (.cons rfl (.between (by decide) ih))), ?_⟩
    exact (Place.run_cons rfl).trans ((Place.run_cons rfl).trans ((Place.run_cons rfl).trans
      (Place.run_between (by decide) rfl ih)))
  | _ => trivial

theorem Blank.all {ts : List Tok} (h : Blank ts) : ts.all (·.is .newline) = true := by
  refine List.all_eq_true.mpr fun t ht => ?_
  rw [h t ht]
  rfl

theorem Place.of_run_cons {s r : Place} {t : Tok} {ts : List Tok} (h : s.run (t :: ts) = some r) :
    ∃ s', s.step t = some s' ∧ s'.run ts = some r := by
  unfold Place.run at h ⊢
  rw [List.foldlM_cons] at h
  exact Option.bind_eq_some_iff.mp h

theorem Place.single_of_run {s r : Place} {ts blank : List Tok} (h : s.run ts = some r) (hb : Blank blank) :
    s.single (ts ++ blank) = true := by
  induction ts generalizing s with
  | nil =>
    cases blank with
    | nil => rfl
    | cons t blank =>
      show ((t :: blank).all _ || _) = true
      rw [hb.all]
      rfl
  | cons t ts ih =>
    obtain ⟨s', hstep, h⟩ := Place.of_run_cons h
    have htail : s'.single (ts ++ blank) = true := ih h
    show ((t :: (ts ++ blank)).all _ || (s.step t).any (·.single (ts ++ blank))) = true
    rw [hstep, Option.any_some, htail, Bool.or_true]

theorem Place.blank_of_single {s r : Place} {ts rest : List Tok} (h : s.run ts = some r)
    (hend : ∀ t, rest.head? = some t → r.step t = none) (hs : s.single (ts ++ rest) = true) : Blank rest := by
  induction ts generalizing s with
  | nil =>
    have hsr : s = r := Option.some.inj h
    subst hsr
    cases rest with
    | nil => exact fun _ ht => absurd ht List.not_mem_nil
    | cons t rest =>
      have hs : ((t :: rest).all _ || (s.step t).any _) = true := hs
      rw [hend t rfl, Option.any_none, Bool.or_false, List.all_eq_true] at hs
      exact fun u hu => Tok.eq_of_is (hs u hu)
  | cons t ts ih =>
    obtain ⟨s', hstep, h⟩ := Place.of_run_cons h
    have hs : ((t :: (ts ++ rest)).all _ || (s.step t).any _) = true := hs
    rw [hstep, Option.any_some, Bool.or_eq_true] at hs
    rcases hs with hs | hs
    · intro u hu
      exact Tok.eq_of_is (List.all_eq_true.mp hs u (List.mem_cons_of_mem t (List.mem_append_right ts hu)))
    · exact ih h hs

theorem toksSingle_iff {toks : List Spanned} : toksSingle toks = true ↔ ∀ t ∈ toks.map (·.1), t.holesSingle = true := by
  induction toks with
  | nil => exact ⟨fun _ t ht => absurd ht List.not_mem_nil, fun _ => rfl⟩
  | cons t toks ih => rw [toksSingle, Bool.and_eq_true, ih, List.map_cons, List.forall_mem_cons]

theorem holesSingle_word {t : Tok} {w : String} (h : t.word? = some w) : t.holesSingle = true := by
  cases t with
  | fStr parts => cases h
  | _ => rfl

def Singles (ts : List Tok) : Prop := ∀ t ∈ ts, t.holesSingle = true

theorem singles_nil : Singles [] := fun _ ht => absurd ht List.not_mem_nil

theorem Singles.cons {t : Tok} {ts : List Tok} (ht : t.holesSingle = true) (h : Singles ts) : Singles (t :: ts) :=
  List.forall_mem_cons.mpr ⟨ht, h⟩

theorem Singles.append {ts us : List Tok} (h : Singles ts) (h' : Singles us) : Singles (ts ++ us) :=
  List.forall_mem_append.mpr ⟨h, h'⟩

theorem Singles.blank {ts : List Tok} (h : Blank ts) : Singles ts := by
  intro t ht
  rw [h t ht]
  rfl

theorem Singles.separator {ts : List Tok} (h : Separator ts) : Singles ts := by
  rcases h with h | ⟨us, vs, hus, hvs, rfl⟩
  · exact .blank h
  · exact (Singles.blank hus).append (.cons rfl (.blank hvs))

theorem Singles.between {a b : Sym} {ts : List Tok} (h : Singles ts) : Singles (.sym a :: (ts ++ [.sym b])) :=
  .cons rfl (h.append (.cons rfl singles_nil))

def Phrase.Single : Phrase → List Tok → Prop
  | .parts _ raw, _ => partsSingle raw = true
  | _, ts => Singles ts

theorem Renders.single {φ : Phrase} {ts : List Tok} (h : Renders φ ts) : φ.Single ts := by
  induction h with
  | num x => exact .cons rfl singles_nil
  | str s => exact .cons rfl singles_nil
  | bool b => exact .cons rfl singles_nil
  | null => exact .cons rfl singles_nil
  | fString h ih => exact .cons ih singles_nil
  | unary op h ih => exact .cons rfl ih
  | directive h => exact .cons rfl singles_nil
  | var name => exact .cons rfl singles_nil
  | invoke h ih => exact .cons rfl ih
  | parens h ih => exact ih.between
  | array hb h ih =>
    rw [← List.append_assoc]
    exact ((Singles.blank hb).append ih).between
  | doc hb h ih =>
    rw [← List.append_assoc]
    exact ((Singles.blank hb).append ih).between
  | call name h ih => exact .cons rfl ih.between
  | field safe h ht ih => exact ih.append (.cons rfl (.cons (holesSingle_word ht) singles_nil))
  | projection h ih => exact ih.append (.between singles_nil)
  | index h h' ih ih' => exact ih.append ih'.between
  | filter h h' ih ih' => exact ih.append ih'.between
  | bin op h h' ih ih' => exact ih.append (.cons rfl ih')
  | noParts => rfl
  | litPart s h ih => exact ih
  | @hole e ts blank toks ps raw he hb htoks h ihe ih =>
    obtain ⟨c, hrun⟩ := he.places.2
    have hone : Place.single ⟨0, .operand⟩ (toks.map (·.1)) = true := by
      rw [htoks]
      exact Place.single_of_run hrun hb
    have hall : toksSingle toks = true := by
      rw [toksSingle_iff, htoks]
      exact Singles.append ihe (.blank hb)
    have hparts : partsSingle raw = true := ih
    show partsSingle (.expr toks :: raw) = true
    rw [partsSingle, hone, hall, hparts]
    rfl
  | noItems => exact singles_nil
  | item he hsep h ihe ih => exact Singles.append ihe (.append (.separator hsep) ih)
  | noFields => exact singles_nil
  | keyed ht he hsep h ihe ih =>
    exact .cons (holesSingle_word ht) (.cons rfl (Singles.append ihe (.append (.separator hsep) ih)))
  | service name h ih => exact .cons rfl ih.between
  | qualified pkg svc h ih => exact .cons rfl (.cons rfl (.cons rfl ih.between))
  | noPath => exact singles_nil
  | step ht h ih => exact .cons rfl (.cons (holesSingle_word ht) ih)
  | emit h h' ih ih' => exact .cons rfl (Singles.append ih (.cons rfl ih'))
  | respond h h' ih ih' => exact .cons rfl (Singles.append ih (.cons rfl ih'))
  | invokeMerge h ih => exact .cons rfl ih
  | assign first h h' ih ih' => exact .cons rfl (Singles.append ih (.cons rfl ih'))
  | loop x h h' ih ih' =>
    exact .cons rfl (.cons rfl (.cons rfl (Singles.append ih (.cons rfl (Singles.append ih' (.cons rfl singles_nil))))))
  | ite h ih => exact Singles.append ih (.cons rfl singles_nil)
  | noStmts hb => exact .blank hb
  | next hb hs h ihs ih => exact Singles.append (.blank hb) (Singles.append ihs ih)
  | first span h h' ih ih' => exact .cons rfl (Singles.append ih (.cons rfl ih'))
  | elif span harms h h' iharms ih ih' =>
    exact Singles.append iharms (.cons rfl (Singles.append ih (.cons rfl ih')))
  | orElse harms h iharms ih => exact Singles.append iharms (.cons rfl (.cons rfl ih))

end Vejas.Vjs
