import Vejas.Vjs.Escapes

/-! Placeholders filled in before a text is lexed. What comes of the lexemes of the text, where every
placeholder stands inside a literal or a comment. -/

namespace Vejas.Vjs
open Rust Filling

section
variable {k v : Bytes} (hk : ∀ b ∈ k, isWordByte b = true) (hv : Plain v)
include hk

include hv

end

inductive Kind
  | ident | str | fStr | num
  | sym (s : Sym)
  deriving DecidableEq

def Tok.kind : Tok → Kind
  | .ident _ => .ident
  | .str _ => .str
  | .fStr _ => .fStr
  | .num _ => .num
  | .sym s => .sym s

def Tok.holes : Tok → List (List Spanned)
  | .fStr parts => holesOf parts
  | _ => []

/-- To so many levels of holes in holes: a token of the same kind, and every hole of the first is one of
the second's, in their order, with tokens within that one's. -/
def Within : Nat → Tok → Tok → Prop
  | 0, t, u => t.kind = u.kind
  | depth + 1, t, u => t.kind = u.kind ∧
    List.SublistForall₂ (List.Forall₂ fun a b => Within depth a.1 b.1) t.holes u.holes

theorem Within.kind {depth : Nat} {t u : Tok} (h : Within depth t u) : t.kind = u.kind := by
  cases depth with
  | zero => exact h
  | succ depth => exact h.1

theorem forall₂_trans {α β γ : Type} {R : α → β → Prop} {S : β → γ → Prop} {T : α → γ → Prop}
    (h : ∀ a b c, R a b → S b c → T a c) {as : List α} {bs : List β} {cs : List γ} (hab : List.Forall₂ R as bs)
    (hbc : List.Forall₂ S bs cs) : List.Forall₂ T as cs := by
  induction hab generalizing cs with
  | nil =>
    cases hbc
    exact .nil
  | cons hr _ ih =>
    cases hbc with
    | cons hs htail => exact .cons (h _ _ _ hr hs) (ih htail)

theorem Within.refl (depth : Nat) (t : Tok) : Within depth t t := by
  induction depth generalizing t with
  | zero => exact rfl
  | succ depth ih =>
    have hrefl : Std.Refl (List.Forall₂ fun a b : Spanned => Within depth a.1 b.1) :=
      ⟨fun toks => List.forall₂_same.mpr fun a _ => ih a.1⟩
    exact ⟨rfl, Std.Refl.refl _⟩

theorem Within.trans {depth : Nat} {t u x : Tok} (h : Within depth t u) (h' : Within depth u x) : Within depth t x := by
  induction depth generalizing t u x with
  | zero => exact Eq.trans h h'
  | succ depth ih =>
    have htrans : IsTrans (List Spanned) (List.Forall₂ fun a b : Spanned => Within depth a.1 b.1) :=
      ⟨fun _ _ _ => forall₂_trans fun a b c => @ih a.1 b.1 c.1⟩
    exact ⟨h.1.trans h'.1, IsTrans.trans _ _ _ h.2 h'.2⟩

def Like (ts us : List Tok) : Prop := ∀ depth, List.Forall₂ (Within depth) ts us

section
variable [External]

mutual

inductive ShutF : List Bytes → Bytes → Prop
  | close {keys : List Bytes} : ShutF keys [byte '"']
  | plain {keys : List Bytes} {c : UInt8} {w : Bytes} (hc : c ≠ byte '"' ∧ c ≠ byte '\x7b' ∧ c ≠ byte '\\')
      (h : ShutF keys w) : ShutF keys (c :: w)
  | escape {keys : List Bytes} {e : UInt8} {w : Bytes} (he : ¬ Exposed keys fEnds (e :: w)) (h : ShutF keys w) :
      ShutF keys (byte '\\' :: e :: w)
  | double {keys : List Bytes} {w : Bytes} (h : ShutF keys w) : ShutF keys (byte '\x7b' :: byte '\x7b' :: w)
  | hole {keys : List Bytes} {inner w : Bytes} (hh : Hole inner w) (hi : Fenced keys inner) (h : ShutF keys w) :
      ShutF keys (byte '\x7b' :: (inner ++ byte '\x7d' :: w))

/-- A text that lexes, with its strings and f-strings shut. -/
inductive Fenced : List Bytes → Bytes → Prop
  | of {keys : List Bytes} {cs : List Chunk} (hcut : Cut cs)
      (hstr : ∀ w s, (byte '"' :: w, some (Tok.str s)) ∈ cs → Shut keys w)
      (hf : ∀ w ps, (byte 'f' :: byte '"' :: w, some (Tok.fStr ps)) ∈ cs → ShutF keys w) : Fenced keys (spelled cs)

end

theorem ShutF.ne_nil {keys : List Bytes} {w : Bytes} (h : ShutF keys w) : w ≠ [] := by
  cases h with
  | close => exact List.cons_ne_nil _ _
  | plain => exact List.cons_ne_nil _ _
  | escape => exact List.cons_ne_nil _ _
  | double => exact List.cons_ne_nil _ _
  | hole => exact List.cons_ne_nil _ _

theorem ShutF.tail {keys : List Bytes} {c : UInt8} {w : Bytes} (h : ShutF keys (c :: w))
    (hc : c ≠ byte '"' ∧ c ≠ byte '\x7b' ∧ c ≠ byte '\\') : ShutF keys w := by
  generalize hv : c :: w = v at h
  cases h with
  | close => exact absurd (List.cons.inj hv).1 hc.1
  | plain _ h =>
    rw [(List.cons.inj hv).2]
    exact h
  | escape => exact absurd (List.cons.inj hv).1 hc.2.2
  | double => exact absurd (List.cons.inj hv).1 hc.2.1
  | hole => exact absurd (List.cons.inj hv).1 hc.2.1

section
variable {k v : Bytes} (hv : Plain v) {keys : List Bytes}
include hv

end

variable {k v : Bytes} (hk : ∀ b ∈ k, isWordByte b = true) (hv : Plain v) {keys : List Bytes}
include hk

include hv

end

theorem Whole.append {v w : Bytes} (hv : Whole v) (hw : Whole w) : Whole (v ++ w) := by
  obtain ⟨cs, rfl⟩ := hv
  obtain ⟨ds, rfl⟩ := hw
  exact ⟨cs ++ ds, (utf8_append cs ds).symm⟩

section
variable [External] {k v : Bytes} (hvw : Whole v)
include hvw

end

section
variable [External] {k v : Bytes} (hk : ∀ b ∈ k, isWordByte b = true)
include hk

def Closed (keys : List Bytes) (c : Chunk) : Prop :=
  (∀ w s, c = (byte '"' :: w, some (.str s)) → Shut keys w) ∧
  ∀ w ps, c = (byte 'f' :: byte '"' :: w, some (.fStr ps)) → ShutF keys w

omit hk in
theorem Fenced.closed {keys : List Bytes} {src : Bytes} (h : Fenced keys src) :
    ∃ cs, Cut cs ∧ spelled cs = src ∧ ∀ c ∈ cs, Closed keys c := by
  cases h with
  | of hcut hstr hf => exact ⟨_, hcut, rfl, fun c hc => ⟨fun w s h => hstr w s (h ▸ hc), fun w ps h => hf w ps (h ▸ hc)⟩⟩

variable (hv : Plain v) (hvw : Whole v) {keys : List Bytes}
include hv hvw

end

section
variable [External]

def Stays (keys : List Bytes) (c d : Chunk) : Prop :=
  (∀ depth, Option.Rel (Within depth) d.2 c.2) ∧ ((∀ k ∈ keys, ¬ mark k <:+: c.1) → d = c)

section
variable {k v : Bytes} (hk : ∀ b ∈ k, isWordByte b = true) (hv : Plain v) (hvw : Whole v) {keys : List Bytes}
include hk hv hvw

end

end

end Vejas.Vjs
