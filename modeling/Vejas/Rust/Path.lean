import Vejas.Rust.Str

/-! Rust's `Path` on a Unix system, over the text of a path: empty segments and `.` are no
components, but a leading `.` of a relative path is. -/

namespace Vejas.Rust

def segments (p : String) : List String := split p "/"

def isTrivial (seg : String) : Bool := seg == "" || seg == "."

def isAbsolute (p : String) : Bool := startsWith p "/"

def anchor (p : String) : List String :=
  if isAbsolute p then ["/"]
  else if (segments p).head? == some "." then ["."]
  else []

def components (p : String) : List String := anchor p ++ (segments p).filter (!isTrivial ·)

def joinPath (a b : String) : String :=
  if startsWith b "/" ∨ a = "" then b
  else if a.toList.getLast? = some '/' then a ++ b
  else a ++ "/" ++ b

def pathStartsWith (p base : String) : Bool := (components base).isPrefixOf (components p)

def trimSegments (segs : List String) : List String := (segs.reverse.dropWhile isTrivial).reverse

def stripSegments : List String → List String → Option (List String)
  | [], segs => some (trimSegments (segs.dropWhile isTrivial))
  | b :: base, segs =>
    match segs.dropWhile isTrivial with
    | s :: rest => if s = b then stripSegments base rest else none
    | [] => none

def stripPath (p base : String) : Option String :=
  if components base = [] then some (join "/" (trimSegments (segments p)))
  else if anchor p = anchor base then
    (stripSegments ((segments base).filter (!isTrivial ·)) (segments p)).map (join "/")
  else none

def fileName (p : String) : Option String :=
  match ((segments p).filter (!isTrivial ·)).getLast? with
  | some ".." => none
  | name => name

def parent (p : String) : Option String :=
  match (trimSegments (segments p)).reverse with
  | [] => none
  | _ :: up =>
    let rest := trimSegments up.reverse
    some (if rest.isEmpty && isAbsolute p then "/" else join "/" rest)

def fileStem (p : String) : Option String :=
  (fileName p).map fun name =>
    match (split name ".").reverse with
    | _ :: front@(_ :: _) => if front = [""] then name else join "." front.reverse
    | _ => name

def extension (p : String) : Option String :=
  (fileName p).bind fun name =>
    match (split name ".").reverse with
    | last :: front@(_ :: _) => if front = [""] then none else some last
    | _ => none

def componentsLt : List String → List String → Bool
  | [], [] => false
  | [], _ :: _ => true
  | _ :: _, [] => false
  | a :: as, b :: bs => strLt a b || (a == b && componentsLt as bs)

def pathLt (p q : String) : Bool := componentsLt (components p) (components q)

end Vejas.Rust
