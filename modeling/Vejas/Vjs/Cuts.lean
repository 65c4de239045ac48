import Mathlib.Data.List.Forall2
import Vejas.Vjs.Holes
import Vejas.Vjs.Lossy

/-! A text as the list of its lexemes, and what may stand between the quotes of a literal. -/

namespace Vejas.Vjs
open Rust

section
variable [External]

abbrev Chunk := Bytes × Option Tok

def spelled (cs : List Chunk) : Bytes := cs.flatMap (·.1)

def leaves (cs : List Chunk) : List Tok := cs.filterMap (·.2)

inductive Cut : List Chunk → Prop
  | nil : Cut []
  | cons {w : Bytes} {t : Option Tok} {cs : List Chunk} (h : Lexeme w t (spelled cs)) (tail : Cut cs) :
      Cut ((w, t) :: cs)

end

inductive Quoted : Bytes → Prop
  | close : Quoted [byte '"']
  | plain {c : UInt8} {w : Bytes} (hc : c ≠ byte '"' ∧ c ≠ byte '\\') (h : Quoted w) : Quoted (c :: w)
  | escape (e : UInt8) {w : Bytes} (h : Quoted w) : Quoted (byte '\\' :: e :: w)

theorem quoted_of_stringBody {i : Nat} {acc w s : Bytes} (h : stringBody i acc w = some (s, i + w.length)) :
    Quoted w := by
  fun_induction stringBody i acc w with
  | case1 => cases h
  | case2 i acc cs =>
    have hlen := congrArg Prod.snd (Option.some.inj h)
    rw [List.length_cons] at hlen
    have hnil : cs = [] := List.length_eq_zero_iff.mp (by omega)
    rw [hnil]
    exact .close
  | case3 i acc e cs _ ih =>
    refine .escape e (ih ?_)
    rw [h, List.length_cons, List.length_cons]
    congr 2
    omega
  | case4 => cases h
  | case5 i acc c cs hquote hslash ih =>
    refine .plain ⟨hquote, hslash⟩ (ih ?_)
    rw [h, List.length_cons]
    congr 2
    omega

section
variable [External]

def FPart.hole? : FPart → Option (List Spanned)
  | .lit _ => none
  | .expr toks => some toks

def holesOf (parts : List FPart) : List (List Spanned) := parts.filterMap FPart.hole?

/-- What follows the quote that opens an f-string, up to the one that closes it, with the tokens of its
holes. A closing brace counts for itself, whether another follows or not. -/
inductive Woven : Bytes → List (List Spanned) → Prop
  | close : Woven [byte '"'] []
  | plain {c : UInt8} {w : Bytes} {hs : List (List Spanned)}
      (hc : c ≠ byte '"' ∧ c ≠ byte '\x7b' ∧ c ≠ byte '\\') (h : Woven w hs) : Woven (c :: w) hs
  | escape (e : UInt8) {w : Bytes} {hs : List (List Spanned)} (h : Woven w hs) : Woven (byte '\\' :: e :: w) hs
  | double {w : Bytes} {hs : List (List Spanned)} (h : Woven w hs) : Woven (byte '\x7b' :: byte '\x7b' :: w) hs
  | hole {inner w : Bytes} {toks : List Spanned} {hs : List (List Spanned)} (hh : Hole inner w)
      (hlex : lex inner = .ok toks) (h : Woven w hs) : Woven (byte '\x7b' :: (inner ++ byte '\x7d' :: w)) (toks :: hs)

theorem Woven.tail {c : UInt8} {w : Bytes} {hs : List (List Spanned)} (h : Woven (c :: w) hs)
    (hc : c ≠ byte '"' ∧ c ≠ byte '\x7b' ∧ c ≠ byte '\\') : Woven w hs := by
  generalize hv : c :: w = v at h
  cases h with
  | close => exact absurd (List.cons.inj hv).1 hc.1
  | plain _ h =>
    rw [(List.cons.inj hv).2]
    exact h
  | escape => exact absurd (List.cons.inj hv).1 hc.2.2
  | double => exact absurd (List.cons.inj hv).1 hc.2.1
  | hole => exact absurd (List.cons.inj hv).1 hc.2.1

omit [External] in
theorem Quoted.last {w : Bytes} (h : Quoted w) : ∃ w', w = w' ++ [byte '"'] := by
  induction h with
  | close => exact ⟨[], rfl⟩
  | @plain c _ _ _ ih =>
    obtain ⟨w', rfl⟩ := ih
    exact ⟨c :: w', rfl⟩
  | escape e _ ih =>
    obtain ⟨w', rfl⟩ := ih
    exact ⟨byte '\\' :: e :: w', rfl⟩

theorem Woven.last {w : Bytes} {hs : List (List Spanned)} (h : Woven w hs) : ∃ w', w = w' ++ [byte '"'] := by
  induction h with
  | close => exact ⟨[], rfl⟩
  | @plain c _ _ _ _ ih =>
    obtain ⟨w', rfl⟩ := ih
    exact ⟨c :: w', rfl⟩
  | escape e _ ih =>
    obtain ⟨w', rfl⟩ := ih
    exact ⟨byte '\\' :: e :: w', rfl⟩
  | double _ ih =>
    obtain ⟨w', rfl⟩ := ih
    exact ⟨byte '\x7b' :: byte '\x7b' :: w', rfl⟩
  | @hole inner _ _ _ _ _ _ ih =>
    obtain ⟨w', rfl⟩ := ih
    exact ⟨byte '\x7b' :: (inner ++ byte '\x7d' :: w'), by simp⟩

theorem Lexeme.quoted {w r : Bytes} {s : String} (h : Lexeme (byte '"' :: w) (some (.str s)) r) : Quoted w := by
  generalize hx : byte '"' :: w = x at h
  generalize ht : some (Tok.str s) = t at h
  cases h with
  | string _ hs =>
    obtain rfl := (List.cons.inj hx).2
    exact quoted_of_stringBody hs
  | word hc =>
    rw [← (List.cons.inj hx).1] at hc
    exact absurd hc (by decide)
  | _ => cases ht

end

end Vejas.Vjs
