import Vejas.Rust.F64

/-! Rust's `str` methods over the characters of a `String`, and `{:?}` of text.
The Unicode property and case tables are a parameter. -/

namespace Vejas.Rust

/-- What the program takes from outside its repository: the Unicode tables of
the standard library and the float printer of its JSON crate. -/
class External where
  isPrintable : Char → Bool
  isGraphemeExtended : Char → Bool
  isCased : Char → Bool
  isCaseIgnorable : Char → Bool
  toUpper : Char → List Char
  toLower : Char → List Char
  formatFinite : Float → String

def isWhitespace (c : Char) : Bool :=
  let n := c.toNat
  (9 ≤ n && n ≤ 13) || n == 32 || n == 0x85 || n == 0xA0 || n == 0x1680 ||
    (0x2000 ≤ n && n ≤ 0x200A) || n == 0x2028 || n == 0x2029 || n == 0x202F || n == 0x205F ||
    n == 0x3000

def isControl (c : Char) : Bool := c.toNat ≤ 0x1F || (0x7F ≤ c.toNat && c.toNat ≤ 0x9F)

def isAsciiAlphanumeric (c : Char) : Bool :=
  ('0' ≤ c && c ≤ '9') || ('a' ≤ c && c ≤ 'z') || ('A' ≤ c && c ≤ 'Z')

def isAsciiUppercase (c : Char) : Bool := 'A' ≤ c && c ≤ 'Z'

def isAsciiDigit (c : Char) : Bool := '0' ≤ c && c ≤ '9'

def charsLt : List Char → List Char → Bool
  | [], [] => false
  | [], _ :: _ => true
  | _ :: _, [] => false
  | a :: as, b :: bs => a.toNat < b.toNat || (a == b && charsLt as bs)

theorem charsLt_cons (a b : Char) (as bs : List Char) :
    charsLt (a :: as) (b :: bs) = (decide (a.toNat < b.toNat) || (a == b && charsLt as bs)) := rfl

def strLt (s t : String) : Bool := charsLt s.toList t.toList

def onChars (f : List Char → List Char) (s : String) : String := String.ofList (f s.toList)

def trimEnd (cs : List Char) : List Char := (cs.reverse.dropWhile isWhitespace).reverse

def trim : String → String := onChars fun cs => trimEnd (cs.dropWhile isWhitespace)

def splitGo (sep : List Char) : Nat → List Char → List Char → List (List Char)
  | _, acc, [] => [acc.reverse]
  | skip + 1, acc, _ :: cs => splitGo sep skip acc cs
  | 0, acc, c :: cs =>
    if sep.isPrefixOf (c :: cs) then acc.reverse :: splitGo sep (sep.length - 1) [] cs
    else splitGo sep 0 (c :: acc) cs

theorem splitGo_nil (sep : List Char) (skip : Nat) (acc : List Char) : splitGo sep skip acc [] = [acc.reverse] := by
  cases skip <;> rfl

theorem splitGo_succ (sep : List Char) (skip : Nat) (acc : List Char) (c : Char) (cs : List Char) :
    splitGo sep (skip + 1) acc (c :: cs) = splitGo sep skip acc cs := rfl

theorem splitGo_cons (sep acc : List Char) (c : Char) (cs : List Char) :
    splitGo sep 0 acc (c :: cs) =
      if sep.isPrefixOf (c :: cs) then acc.reverse :: splitGo sep (sep.length - 1) [] cs
      else splitGo sep 0 (c :: acc) cs := rfl

def split (s sep : String) : List String :=
  -- `s.split(sep)`; the empty separator cuts around every character
  if sep.toList.isEmpty then "" :: s.toList.map (fun c => String.ofList [c]) ++ [""]
  else (splitGo sep.toList 0 [] s.toList).map String.ofList

def join (sep : String) : List String → String
  | [] => ""
  | [s] => s
  | s :: t :: ss => s ++ sep ++ join sep (t :: ss)

def replace (s old new : String) : String := join new (split s old)

def containsChars (needle : List Char) : List Char → Bool
  | [] => needle.isEmpty
  | c :: cs => needle.isPrefixOf (c :: cs) || containsChars needle cs

def contains (s needle : String) : Bool := containsChars needle.toList s.toList

def splitOnceChars (sep : Char) : List Char → Option (List Char × List Char)
  | [] => none
  | c :: cs => if c = sep then some ([], cs) else (splitOnceChars sep cs).map fun p => (c :: p.1, p.2)

theorem splitOnceChars_append {sep : Char} {a : List Char} (ha : sep ∉ a) (b : List Char) :
    splitOnceChars sep (a ++ sep :: b) = some (a, b) := by
  induction a with
  | nil => simp [splitOnceChars]
  | cons c cs ih =>
    have hc : c ≠ sep := fun h => ha (by simp [h])
    have hcs : sep ∉ cs := fun h => ha (by simp [h])
    simp [splitOnceChars, hc, ih hcs]

theorem splitOnceChars_some {sep : Char} {cs as bs : List Char} (h : splitOnceChars sep cs = some (as, bs)) :
    cs = as ++ sep :: bs ∧ sep ∉ as := by
  induction cs generalizing as with
  | nil => cases h
  | cons c cs ih =>
    unfold splitOnceChars at h
    split at h
    next hc =>
      cases h
      exact ⟨by rw [hc]; rfl, List.not_mem_nil⟩
    next hc =>
      obtain ⟨p, hp, heq⟩ := Option.map_eq_some_iff.mp h
      cases heq
      obtain ⟨hcs, hsep⟩ := ih hp
      refine ⟨by rw [hcs]; rfl, fun hm => ?_⟩
      rcases List.mem_cons.mp hm with heq | hm
      · exact hc heq.symm
      · exact hsep hm

theorem splitOnceChars_none {sep : Char} {cs : List Char} (h : splitOnceChars sep cs = none) : sep ∉ cs := by
  induction cs with
  | nil => exact List.not_mem_nil
  | cons c cs ih =>
    unfold splitOnceChars at h
    split at h
    · cases h
    next hc =>
      intro hm
      rcases List.mem_cons.mp hm with heq | hm
      · exact hc heq.symm
      · exact ih (Option.map_eq_none_iff.mp h) hm

def splitOnce (s : String) (sep : Char) : Option (String × String) :=
  (splitOnceChars sep s.toList).map fun p => (String.ofList p.1, String.ofList p.2)

def rsplitOnce (s : String) (sep : Char) : Option (String × String) :=
  (splitOnceChars sep s.toList.reverse).map fun p =>
    (String.ofList p.2.reverse, String.ofList p.1.reverse)

def wordsGo : List Char → List Char → List (List Char)
  | acc, [] => if acc.isEmpty then [] else [acc.reverse]
  | acc, c :: cs =>
    if !isWhitespace c then wordsGo (c :: acc) cs
    else if acc.isEmpty then wordsGo [] cs
    else acc.reverse :: wordsGo [] cs

def splitWhitespace (s : String) : List String := (wordsGo [] s.toList).map String.ofList

def trimMatches (c : Char) : String → String :=
  onChars fun cs => ((cs.dropWhile (· == c)).reverse.dropWhile (· == c)).reverse

def parseU64 (s : String) : Option Nat :=
  let digits := match s.toList with
    | '+' :: cs => cs
    | cs => cs
  if digits.isEmpty || !digits.all isAsciiDigit then none
  else
    let n := digits.foldl (fun n c => 10 * n + (c.toNat - '0'.toNat)) 0
    if n < 2 ^ 64 then some n else none

def startsWith (s pre : String) : Bool := pre.toList.isPrefixOf s.toList

def stripStart (s pre : String) : Option String :=
  if startsWith s pre then some (String.ofList (s.toList.drop pre.toList.length)) else none

theorem stripStart_eq_some_iff (s pre t : String) : stripStart s pre = some t ↔ s = pre ++ t := by
  unfold stripStart startsWith
  split
  next hpre =>
    obtain ⟨rest, hrest⟩ := List.isPrefixOf_iff_prefix.mp hpre
    have hs : s = pre ++ String.ofList rest := by
      rw [← String.toList_inj, String.toList_append, String.toList_ofList, hrest]
    rw [← hrest, List.drop_left, Option.some.injEq, hs]
    refine ⟨fun h => by rw [h], fun h => ?_⟩
    rw [← String.toList_inj, String.toList_append, String.toList_append] at h
    exact String.toList_inj.mp (List.append_cancel_left h)
  next hpre =>
    refine iff_of_false (by simp) fun h => hpre ?_
    rw [h, String.toList_append]
    exact List.isPrefixOf_iff_prefix.mpr (List.prefix_append _ _)

def endsWith (s suffix : String) : Bool := suffix.toList.isSuffixOf s.toList

def trimStartMatches (pre : List Char) : Nat → List Char → List Char
  | 0, cs => cs
  | n + 1, cs => if pre.isPrefixOf cs then trimStartMatches pre n (cs.drop pre.length) else cs

def hexDigits (n : Nat) : String := String.ofList (Nat.toDigits 16 n)

section
variable [External]

def escapeDebug (quote c : Char) : String :=
  if c = '\x00' then "\\0"
  else if c = '\t' then "\\t"
  else if c = '\r' then "\\r"
  else if c = '\n' then "\\n"
  else if c = '\\' then "\\\\"
  else if c = quote then String.ofList ['\\', c]
  else if !External.isGraphemeExtended c && External.isPrintable c then String.ofList [c]
  else "\\u\x7b" ++ hexDigits c.toNat ++ "\x7d"

def debugStr (s : String) : String :=
  s.toList.foldl (fun out c => out ++ escapeDebug '"' c) "\"" ++ "\""

def debugChar (c : Char) : String := "'" ++ escapeDebug '\'' c ++ "'"

def toUppercase (s : String) : String := onChars (·.flatMap External.toUpper) s

/-- A capital sigma is final after a cased letter and not before one, case-ignorable
characters aside. -/
def finalSigma (before after : List Char) : Bool :=
  let cased (cs : List Char) :=
    ((cs.dropWhile External.isCaseIgnorable).head?.map External.isCased).getD false
  cased before && !cased after

def lowercaseGo : List Char → List Char → List Char
  | _, [] => []
  | before, c :: cs =>
    (if c = 'Σ' then [if finalSigma before cs then 'ς' else 'σ'] else External.toLower c) ++
      lowercaseGo (c :: before) cs

def toLowercase (s : String) : String := onChars (lowercaseGo []) s

end

@[reducible] def ascii : External where
  isPrintable c := 32 ≤ c.toNat && c.toNat < 127
  isGraphemeExtended _ := false
  isCased c := c.isAlpha
  isCaseIgnorable c := c == '\'' || c == '.' || c == ':' || c == '^' || c == '\x60'
  toUpper c := [c.toUpper]
  toLower c := [c.toLower]
  formatFinite := F64.debug

example : split "a,b,,c" "," = ["a", "b", "", "c"] ∧ split "ab" "" = ["", "a", "b", ""] ∧
    replace "aaa" "aa" "x" = "xa" ∧ trim " \tx y\n" = "x y" := by decide

end Vejas.Rust
