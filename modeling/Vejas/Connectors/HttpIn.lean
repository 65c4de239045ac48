import Vejas.Connectors.Wire
import Vejas.Http.Request
import Vejas.Lib.Framing
import Vejas.Vjs.Builtins

/-! The driver `http-in`: requests read from a connection that is kept alive, and the JSON bodies of
those to `/ingest/` published. -/

namespace Vejas.HttpIn
open Rust Json Vjs Connectors Framing

def headerEnd : Bytes → Option Nat
  | [] => none
  | b :: bs => if [13, 10, 13, 10] <+: b :: bs then some 4 else (headerEnd bs).map (· + 1)

def lineOf : List Char → List Char
  | '\r' :: acc => acc.reverse
  | acc => acc.reverse

/-- `str::lines`; a carriage return is dropped only before a line feed. -/
def linesGo : List Char → List Char → List (List Char)
  | acc, [] => if acc.isEmpty then [] else [acc.reverse]
  | acc, c :: cs =>
    if c = '\n' then lineOf acc :: linesGo [] cs
    else linesGo (c :: acc) cs

def lines (s : String) : List String := (linesGo [] s.toList).map String.ofList

def contentLength (head : String) : Nat :=
  ((lines head).findSome? fun line =>
    (stripStart (Http.toAsciiLowercase line) "content-length:").map fun v => (parseU64 (trim v)).getD 0).getD 0

/-- Whether the reader stops after a read that left it with `buf`: the request is complete, by a sum of
two `usize`, or the buffer is over its limit. -/
def stops (buf : Bytes) : Bool :=
  (match headerEnd buf with
  | some he => (he + contentLength (textOf (buf.take he))) % 2 ^ 64 ≤ buf.length
  | none => false) || 1048576 < buf.length

inductive Read
  | ok (b : Bytes)
  | err
  | late

/-- A request as it is handed on: what was read, where its header ends, and whether it was the last. -/
structure Frame where
  buf : Bytes
  headerEnd : Nat
  eof : Bool
  deriving DecidableEq

def Frame.ofHeader (buf : Bytes) (eof : Bool) : Option Nat → List Frame
  | some he => [⟨buf, he, eof⟩]
  | none => []

/-- The two loops of `handle_http_in`: the requests handed on, in order. -/
def frames (buf : Bytes) (header : Option Nat) : List Read → List Frame
  | [] => []
  | .ok (b :: bs) :: rs =>
    let buf := buf ++ b :: bs
    let header := header <|> HttpIn.headerEnd buf
    if (match header with
        | some he => decide ((he + contentLength (textOf (buf.take he))) % 2 ^ 64 ≤ buf.length)
        | none => false) || 1048576 < buf.length then
      -- without a header the connection is over
      match header with
      | some he => ⟨buf, he, false⟩ :: frames [] none rs
      | none => []
    else frames buf header rs
  | _ :: _ => Frame.ofHeader buf true header

structure Config where
  subjRoot : String
  allow : List String

def suffixAllowed (suffix : String) (allow : List String) : Bool :=
  allow.any fun e => suffix == e || startsWith suffix (e ++ ".")

namespace Frame

def line (f : Frame) : String := (split (textOf f.buf) "\r\n").headD ""

def body (f : Frame) : Bytes := f.buf.drop f.headerEnd

end Frame

def route [External] (cfg : Config) (line : String) (body : Bytes) : Except (String × String) String :=
  let parts := split line " "
  let method := parts.headD ""
  let path := parts.tail.headD ""
  if method = "GET" ∧ path = "/healthz" then .error ("200 OK", "\x7b\"ok\":true\x7d")
  else if method ≠ "POST" ∨ startsWith path "/ingest/" = false then
    .error ("404 Not Found", "\x7b\"error\":\"POST /ingest/<subject-suffix>\"\x7d")
  else
    let suffix := trimMatches '/' (onChars (fun cs => trimStartMatches "/ingest/".toList cs.length cs) path)
    if suffix = "" then .error ("400 Bad Request", "\x7b\"error\":\"missing subject suffix\"\x7d")
    else if validSubject suffix = false then
      .error ("400 Bad Request", "\x7b\"error\":\"invalid subject suffix\"\x7d")
    else if fromSlice body = none then .error ("400 Bad Request", "\x7b\"error\":\"body must be JSON\"\x7d")
    else if cfg.allow ≠ [] ∧ suffixAllowed suffix cfg.allow = false then
      .error ("403 Forbidden", "\x7b\"error\":\"subject " ++ debugStr suffix ++ " not permitted by ALLOW\"\x7d")
    else .ok (cfg.subjRoot ++ "." ++ suffix)

def published [External] (cfg : Config) (line : String) (body : Bytes) : Option (String × Bytes) :=
  match route cfg line body with
  | .error _ => none
  | .ok subject => some (subject, body)

def respond [External] (cfg : Config) (publish : String → Bytes → Except String Unit) (line : String)
    (body : Bytes) : String :=
  let (code, json) := match route cfg line body with
    | .error answer => answer
    | .ok subject =>
      match publish subject body with
      | .ok () => ("202 Accepted", "\x7b\"published\":\"" ++ subject ++ "\"\x7d")
      | .error e => ("502 Bad Gateway", "\x7b\"error\":\"" ++ e ++ "\"\x7d")
  "HTTP/1.1 " ++ code ++ "\r\nContent-Type: application/json\r\nContent-Length: " ++
    toString (bytesOf json).length ++ "\r\nConnection: keep-alive\r\n\r\n" ++ json

def handed (reads : List Read) : List (String × Bytes) :=
  (frames [] none reads).map fun f => (f.line, f.body)

def handleHttpIn [External] (cfg : Config) (publish : Nat → String → Bytes → Except String Unit)
    (reads : List Read) : List String :=
  (handed reads).zipIdx.map fun p => respond cfg (publish p.2) p.1.1 p.1.2

theorem headerEnd_le {buf : Bytes} {he : Nat} (h : headerEnd buf = some he) : 4 ≤ he ∧ he ≤ buf.length := by
  induction buf generalizing he with
  | nil => cases h
  | cons b bs ih =>
    rw [headerEnd] at h
    split at h
    next hp =>
      cases h
      exact ⟨Nat.le_refl 4, hp.length_le⟩
    next =>
      obtain ⟨k, hk, rfl⟩ := Option.map_eq_some_iff.mp h
      have := ih hk
      rw [List.length_cons]
      omega

theorem headerEnd_append {buf : Bytes} {he : Nat} (h : headerEnd buf = some he) (more : Bytes) :
    headerEnd (buf ++ more) = some he := by
  induction buf generalizing he with
  | nil => cases h
  | cons b bs ih =>
    rw [headerEnd] at h
    rw [List.cons_append, headerEnd, ← List.cons_append]
    split at h
    next hp => rw [if_pos (hp.trans ⟨more, rfl⟩), h]
    next hp =>
      obtain ⟨k, hk, rfl⟩ := Option.map_eq_some_iff.mp h
      have hlen : 4 ≤ (b :: bs).length := by
        have := headerEnd_le hk
        rw [List.length_cons]
        omega
      have hp' : ¬ [13, 10, 13, 10] <+: b :: bs ++ more := fun hpre =>
        hp (List.prefix_of_prefix_length_le hpre ⟨more, rfl⟩ hlen)
      rw [if_neg hp', ih hk]
      rfl

theorem frames_ok {b : Bytes} (hb : b ≠ []) (buf : Bytes) (rs : List Read) :
    frames buf (headerEnd buf) (.ok b :: rs) =
      if stops (buf ++ b) then
        match headerEnd (buf ++ b) with
        | some he => ⟨buf ++ b, he, false⟩ :: frames [] none rs
        | none => []
      else frames (buf ++ b) (headerEnd (buf ++ b)) rs := by
  have horElse : (headerEnd buf <|> headerEnd (buf ++ b)) = headerEnd (buf ++ b) := by
    cases h : headerEnd buf with
    | none => rfl
    | some he => exact (headerEnd_append h b).symm
  cases b with
  | nil => exact absurd rfl hb
  | cons b bs =>
    rw [frames, horElse]
    rfl

theorem frames_first (buf : Bytes) {q : List Bytes} (hne : ∀ c ∈ q, c ≠ [])
    (h : First (fun b => stops (buf ++ b)) q) (rs : List Read) :
    frames buf (headerEnd buf) (q.map .ok ++ rs) =
      match headerEnd (buf ++ q.flatten) with
      | some he => ⟨buf ++ q.flatten, he, false⟩ :: frames [] none rs
      | none => [] := by
  induction q generalizing buf with
  | nil => exact absurd rfl h.ne_nil
  | cons c q ih =>
    rw [List.map_cons, List.cons_append, frames_ok (hne c (List.mem_cons_self ..))]
    cases hc : stops (buf ++ c) with
    | true =>
      rw [h.eq_single hc, if_pos rfl]
      simp
    | false =>
      rw [if_neg nofun, ih _ (fun d hd => hne d (List.mem_cons_of_mem _ hd)) ?_]
      · simp
      · have ht := h.tail hc
        simpa only [List.append_assoc] using ht

theorem frames_never (buf : Bytes) {q : List Bytes} (hne : ∀ c ∈ q, c ≠ [])
    (h : Never (fun b => stops (buf ++ b)) q) (rs : List Read) :
    frames buf (headerEnd buf) (q.map .ok ++ rs) =
      frames (buf ++ q.flatten) (headerEnd (buf ++ q.flatten)) rs := by
  induction q generalizing buf with
  | nil => simp
  | cons c q ih =>
    obtain ⟨hc, hq⟩ := never_cons_iff.mp h
    rw [List.map_cons, List.cons_append, frames_ok (hne c (List.mem_cons_self ..)), hc, if_neg nofun,
      ih _ (fun d hd => hne d (List.mem_cons_of_mem _ hd)) (by simpa only [List.append_assoc] using hq)]
    simp

def crlf : List Char := ['\r', '\n']

/-- A request line, fields and among them one `Content-Length`. Every line is a text: heads with bytes that are
not UTF-8 are not among these. -/
structure Head where
  line : String
  before : List String
  name : String
  pad : List Char
  digits : List Char
  pad' : List Char
  after : List String
  named : Http.toAsciiLowercase name = "content-length"
  blank : ∀ c ∈ pad ++ pad', c = ' ' ∨ c = '\t'
  digits_ne : digits ≠ []
  decimal : digits.all isAsciiDigit = true
  plain : ∀ l ∈ line :: (before ++ after), l ≠ "" ∧ '\r' ∉ l.toList ∧ '\n' ∉ l.toList
  others : ∀ l ∈ line :: (before ++ after), startsWith (Http.toAsciiLowercase l) "content-length:" = false

namespace Head

def field (h : Head) : String := String.ofList (h.name.toList ++ ':' :: (h.pad ++ h.digits ++ h.pad'))

def lines (h : Head) : List String := h.line :: (h.before ++ h.field :: h.after)

def chars (h : Head) : List Char := h.lines.flatMap (fun l => l.toList ++ crlf) ++ crlf

def bytes (h : Head) : Bytes := utf8 h.chars

def declared (h : Head) : Nat := h.digits.foldl (fun n c => 10 * n + (c.toNat - '0'.toNat)) 0

theorem name_plain (h : Head) : '\r' ∉ h.name.toList ∧ '\n' ∉ h.name.toList := by
  have hlow : h.name.toList.map Char.toLower = "content-length".toList := by
    have := congrArg String.toList h.named
    simpa [Http.toAsciiLowercase, onChars] using this
  have hno : ∀ c ∈ h.name.toList, c.toLower ∈ "content-length".toList := by
    intro c hc
    rw [← hlow]
    exact List.mem_map_of_mem hc
  constructor
  · intro hc
    exact absurd (hno _ hc) (by decide)
  · intro hc
    exact absurd (hno _ hc) (by decide)

theorem field_plain (h : Head) : h.field ≠ "" ∧ '\r' ∉ h.field.toList ∧ '\n' ∉ h.field.toList := by
  have hdig : ∀ c ∈ h.digits, isAsciiDigit c = true := List.all_eq_true.mp h.decimal
  have hrest : ∀ c ∈ ':' :: (h.pad ++ h.digits ++ h.pad'), c ≠ '\r' ∧ c ≠ '\n' := by
    intro c hc
    rcases List.mem_cons.mp hc with rfl | hc
    · decide
    · simp only [List.append_assoc, List.mem_append] at hc
      rcases hc with hc | hc | hc
      · rcases h.blank c (List.mem_append_left _ hc) with rfl | rfl <;> decide
      · constructor <;> (rintro rfl; exact absurd (hdig _ hc) (by decide))
      · rcases h.blank c (List.mem_append_right _ hc) with rfl | rfl <;> decide
  unfold field
  rw [String.toList_ofList]
  refine ⟨?_, ?_, ?_⟩
  · intro heq
    have := congrArg String.toList heq
    simp at this
  · intro hc
    exact (List.mem_append.mp hc).elim h.name_plain.1 fun hc => (hrest _ hc).1 rfl
  · intro hc
    exact (List.mem_append.mp hc).elim h.name_plain.2 fun hc => (hrest _ hc).2 rfl

theorem lines_plain (h : Head) : ∀ l ∈ h.lines, l ≠ "" ∧ '\r' ∉ l.toList ∧ '\n' ∉ l.toList := by
  intro l hl
  simp only [lines, List.mem_cons, List.mem_append] at hl
  rcases hl with rfl | hl | rfl | hl
  · exact h.plain _ (List.mem_cons_self ..)
  · exact h.plain l (List.mem_cons_of_mem _ (List.mem_append_left _ hl))
  · exact h.field_plain
  · exact h.plain l (List.mem_cons_of_mem _ (List.mem_append_right _ hl))

end Head

theorem headerEnd_skip {xs : Bytes} (h : ∀ b ∈ xs, b ≠ 13) (ys : Bytes) :
    headerEnd (xs ++ ys) = (headerEnd ys).map (· + xs.length) := by
  induction xs with
  | nil => simp
  | cons x xs ih =>
    have hp : ¬ [13, 10, 13, 10] <+: x :: (xs ++ ys) := by
      intro hp
      exact h x (List.mem_cons_self ..) (List.cons_prefix_cons.mp hp).1.symm
    rw [List.cons_append, headerEnd, if_neg hp, ih fun b hb => h b (List.mem_cons_of_mem _ hb), Option.map_map]
    rfl

theorem utf8_no_cr {cs : List Char} (h : '\r' ∉ cs) : ∀ b ∈ utf8 cs, b ≠ 13 := by
  rintro _ hb rfl
  exact h (mem_utf8_ascii hb (by decide))

theorem headerEnd_lines {ls : List String} (hne : ls ≠ []) (h : ∀ l ∈ ls, l ≠ "" ∧ '\r' ∉ l.toList ∧ '\n' ∉ l.toList)
    (more : Bytes) :
    headerEnd (utf8 (ls.flatMap (fun l => l.toList ++ crlf) ++ crlf) ++ more) =
      some (utf8 (ls.flatMap (fun l => l.toList ++ crlf) ++ crlf)).length := by
  have hcrlf : utf8 crlf = [13, 10] := by decide
  induction ls with
  | nil => exact absurd rfl hne
  | cons l ls ih =>
    obtain ⟨-, hcr, -⟩ := h l (List.mem_cons_self ..)
    rw [List.flatMap_cons, List.append_assoc, List.append_assoc, utf8_append, utf8_append, hcrlf, List.append_assoc,
      headerEnd_skip (utf8_no_cr hcr)]
    cases ls with
    | nil =>
      rw [List.flatMap_nil, List.nil_append, hcrlf]
      simp [headerEnd, Nat.add_comm]
    | cons l' ls =>
      have hls := ih nofun fun x hx => h x (List.mem_cons_of_mem _ hx)
      -- the next line has a byte before its end
      obtain ⟨b, bs, hb, hne13⟩ : ∃ b bs, utf8 l'.toList = b :: bs ∧ b ≠ 13 := by
        obtain ⟨hempty, hcr', -⟩ := h l' (List.mem_cons_of_mem _ (List.mem_cons_self ..))
        cases hu : utf8 l'.toList with
        | nil =>
          have : bytesOf l' = bytesOf "" := by
            rw [bytesOf_eq_utf8, hu]
            rfl
          exact absurd (Http.bytesOf_inj this) hempty
        | cons b bs => exact ⟨b, bs, rfl, utf8_no_cr hcr' b (hu ▸ List.mem_cons_self ..)⟩
      generalize htail : utf8 ((l' :: ls).flatMap (fun l => l.toList ++ crlf) ++ crlf) = tail at hls ⊢
      obtain ⟨t, rfl⟩ : ∃ t, tail = b :: t := by
        rw [← htail, List.flatMap_cons, List.append_assoc, List.append_assoc, utf8_append, hb]
        exact ⟨_, rfl⟩
      have hone : ¬ [13, 10, 13, 10] <+: (13 : UInt8) :: 10 :: b :: (t ++ more) := by
        intro hp
        have := (List.cons_prefix_cons.mp (List.cons_prefix_cons.mp (List.cons_prefix_cons.mp hp).2).2).1
        exact hne13 this.symm
      have htwo : ¬ [13, 10, 13, 10] <+: (10 : UInt8) :: b :: (t ++ more) := by
        intro hp
        exact absurd (List.cons_prefix_cons.mp hp).1 (by decide)
      rw [List.cons_append] at hls
      have hstep : headerEnd ([13, 10] ++ b :: t ++ more) = some ((b :: t).length + 2) := by
        show headerEnd (13 :: 10 :: b :: (t ++ more)) = _
        rw [headerEnd, if_neg hone, headerEnd, if_neg htwo, hls]
        rfl
      rw [hstep]
      simp only [Option.map_some, List.length_append, List.length_cons, List.length_nil]
      congr 1
      omega

theorem linesGo_line {l : List Char} (h : '\n' ∉ l) (acc rest : List Char) :
    linesGo acc (l ++ crlf ++ rest) = (acc.reverse ++ l) :: linesGo [] rest := by
  induction l generalizing acc with
  | nil =>
    simp only [crlf, List.nil_append, List.cons_append, linesGo]
    rw [if_neg (by decide)]
    simp [lineOf]
  | cons c l ih =>
    have hc : c ≠ '\n' := fun heq => h (heq ▸ List.mem_cons_self ..)
    rw [List.cons_append, List.cons_append, linesGo, if_neg hc, ih fun hm => h (List.mem_cons_of_mem _ hm)]
    simp

theorem linesGo_lines {ls : List String} (h : ∀ l ∈ ls, '\n' ∉ l.toList) (rest : List Char) :
    linesGo [] (ls.flatMap (fun l => l.toList ++ crlf) ++ rest) = ls.map String.toList ++ linesGo [] rest := by
  induction ls with
  | nil => rfl
  | cons l ls ih =>
    rw [List.flatMap_cons, List.append_assoc, linesGo_line (h l (List.mem_cons_self ..)),
      ih fun x hx => h x (List.mem_cons_of_mem _ hx)]
    rfl

theorem splitGo_line {l : List Char} (h : '\r' ∉ l) (acc rest : List Char) :
    (splitGo crlf 0 acc (l ++ crlf ++ rest)).headD [] = acc.reverse ++ l := by
  induction l generalizing acc with
  | nil => simp [crlf, splitGo_cons]
  | cons c l ih =>
    have hc : crlf.isPrefixOf (c :: (l ++ crlf ++ rest)) = false := by
      have : '\r' ≠ c := fun heq => h (heq ▸ List.mem_cons_self ..)
      simp [crlf, List.isPrefixOf, this]
    rw [List.cons_append, List.cons_append, splitGo_cons, hc, if_neg nofun, ih fun hm => h (List.mem_cons_of_mem _ hm)]
    simp

theorem isWhitespace_blank {c : Char} (h : c = ' ' ∨ c = '\t') : isWhitespace c = true ∧ c.toLower = c := by
  rcases h with rfl | rfl <;> decide

theorem isAsciiDigit_plain {c : Char} (h : isAsciiDigit c = true) : isWhitespace c = false ∧ c.toLower = c := by
  have hr : 48 ≤ c.toNat ∧ c.toNat ≤ 57 := by
    simp only [isAsciiDigit, Bool.and_eq_true, decide_eq_true_eq] at h
    exact ⟨h.1, h.2⟩
  constructor
  · unfold isWhitespace
    simp only [Bool.or_eq_false_iff, Bool.and_eq_false_iff, decide_eq_false_iff_not, beq_eq_false_iff_ne]
    omega
  · unfold Char.toLower
    rw [dif_neg]
    intro hu
    have hlo : 65 ≤ c.toNat := hu.1
    omega

theorem parseU64_digits {ds : List Char} (hne : ds ≠ []) (hall : ds.all isAsciiDigit = true) :
    parseU64 (String.ofList ds) =
      if ds.foldl (fun n c => 10 * n + (c.toNat - '0'.toNat)) 0 < 2 ^ 64 then
        some (ds.foldl (fun n c => 10 * n + (c.toNat - '0'.toNat)) 0) else none := by
  unfold parseU64
  rw [String.toList_ofList]
  split
  next cs =>
    -- a plus sign is no digit
    rw [List.all_cons] at hall
    cases hall
  next =>
    dsimp only
    rw [hall]
    simp [hne]

theorem dropWhile_blank {pad cs : List Char} (h : ∀ c ∈ pad, isWhitespace c = true) :
    (pad ++ cs).dropWhile isWhitespace = cs.dropWhile isWhitespace := by
  induction pad with
  | nil => rfl
  | cons c pad ih =>
    rw [List.cons_append, List.dropWhile_cons_of_pos (h c (List.mem_cons_self ..))]
    exact ih fun x hx => h x (List.mem_cons_of_mem _ hx)

theorem dropWhile_solid {cs : List Char} (h : ∀ c ∈ cs, isWhitespace c = false) (hne : cs ≠ []) (rest : List Char) :
    (cs ++ rest).dropWhile isWhitespace = cs ++ rest := by
  cases cs with
  | nil => exact absurd rfl hne
  | cons c cs =>
    have hc := h c (List.mem_cons_self ..)
    rw [List.cons_append, List.dropWhile_cons_of_neg (by rw [hc]; nofun)]

theorem trim_padded {pad cs pad' : List Char} (h : ∀ c ∈ pad ++ pad', isWhitespace c = true)
    (hcs : ∀ c ∈ cs, isWhitespace c = false) (hne : cs ≠ []) :
    trim (String.ofList (pad ++ cs ++ pad')) = String.ofList cs := by
  have hpad : ∀ c ∈ pad, isWhitespace c = true := fun c hc => h c (List.mem_append_left _ hc)
  have hpad' : ∀ c ∈ pad'.reverse, isWhitespace c = true := fun c hc =>
    h c (List.mem_append_right _ (List.mem_reverse.mp hc))
  have hrev : ∀ c ∈ cs.reverse, isWhitespace c = false := fun c hc => hcs c (List.mem_reverse.mp hc)
  unfold trim onChars trimEnd
  dsimp only
  rw [String.toList_ofList, List.append_assoc, dropWhile_blank hpad, dropWhile_solid hcs hne, List.reverse_append,
    dropWhile_blank hpad', ← List.append_nil cs.reverse, dropWhile_solid hrev (by simpa using hne), List.append_nil,
    List.reverse_reverse]

namespace Head

theorem headerEnd_eq (h : Head) (more : Bytes) : headerEnd (h.bytes ++ more) = some h.bytes.length := by
  have hne : h.lines ≠ [] := nofun
  exact headerEnd_lines hne h.lines_plain more

theorem stripStart_other {l : String} (h : startsWith (Http.toAsciiLowercase l) "content-length:" = false) :
    stripStart (Http.toAsciiLowercase l) "content-length:" = none := by
  rw [stripStart, h]
  rfl

theorem stripStart_field (h : Head) :
    stripStart (Http.toAsciiLowercase h.field) "content-length:" =
      some (String.ofList (h.pad ++ h.digits ++ h.pad')) := by
  have hsame : ∀ c ∈ h.pad ++ h.digits ++ h.pad', c.toLower = c := by
    intro c hc
    simp only [List.append_assoc, List.mem_append] at hc
    rcases hc with hc | hc | hc
    · exact (isWhitespace_blank (h.blank c (List.mem_append_left _ hc))).2
    · exact (isAsciiDigit_plain (List.all_eq_true.mp h.decimal c hc)).2
    · exact (isWhitespace_blank (h.blank c (List.mem_append_right _ hc))).2
  have hname : h.name.toList.map Char.toLower = "content-length".toList := by
    have := congrArg String.toList h.named
    simpa [Http.toAsciiLowercase, onChars] using this
  have hlow : Http.toAsciiLowercase h.field = "content-length:" ++ String.ofList (h.pad ++ h.digits ++ h.pad') := by
    apply String.toList_injective
    unfold Http.toAsciiLowercase onChars field
    dsimp only
    rw [String.toList_ofList, String.toList_ofList, List.map_append, hname, List.map_cons, List.map_congr_left hsame]
    simp
  rw [stripStart_eq_some_iff]
  exact hlow

theorem parse_digits (h : Head) : (parseU64 (trim (String.ofList (h.pad ++ h.digits ++ h.pad')))).getD 0 =
    if h.declared < 2 ^ 64 then h.declared else 0 := by
  have hsolid : ∀ c ∈ h.digits, isWhitespace c = false := fun c hc =>
    (isAsciiDigit_plain (List.all_eq_true.mp h.decimal c hc)).1
  rw [trim_padded (fun c hc => (isWhitespace_blank (h.blank c hc)).1) hsolid h.digits_ne,
    parseU64_digits h.digits_ne h.decimal]
  show (if h.declared < 2 ^ 64 then some h.declared else none).getD 0 = _
  split <;> rfl

theorem contentLength_eq (h : Head) :
    contentLength (textOf h.bytes) = if h.declared < 2 ^ 64 then h.declared else 0 := by
  unfold contentLength
  have hlines : HttpIn.lines (textOf h.bytes) = h.lines ++ [""] := by
    unfold HttpIn.lines bytes
    rw [textOf_utf8, String.toList_ofList, chars, linesGo_lines fun l hl => (h.lines_plain l hl).2.2]
    simp [linesGo, crlf, lineOf]
  have hbefore : ∀ l ∈ h.line :: h.before, l ∈ h.line :: (h.before ++ h.after) := by
    intro l hl
    rcases List.mem_cons.mp hl with rfl | hl
    · exact List.mem_cons_self ..
    · exact List.mem_cons_of_mem _ (List.mem_append_left _ hl)
  have hsplit : h.lines ++ [""] = (h.line :: h.before) ++ h.field :: (h.after ++ [""]) := by simp [lines]
  rw [hlines, hsplit, List.findSome?_append]
  have hnone : (h.line :: h.before).findSome? (fun line =>
      (stripStart (Http.toAsciiLowercase line) "content-length:").map fun v => (parseU64 (trim v)).getD 0) = none := by
    rw [List.findSome?_eq_none_iff]
    intro l hl
    rw [stripStart_other (h.others l (hbefore l hl))]
    rfl
  rw [hnone, List.findSome?_cons, h.stripStart_field]
  simp only [Option.map_some, Option.none_or, Option.getD_some]
  exact h.parse_digits

theorem line_eq (h : Head) (more : Bytes) : (split (textOf (h.bytes ++ more)) "\r\n").headD "" = h.line := by
  have hchars : h.chars = h.line.toList ++ crlf ++
      ((h.before ++ h.field :: h.after).flatMap (fun l => l.toList ++ crlf) ++ crlf) := by
    simp [chars, lines]
  have hcr := (h.plain h.line (List.mem_cons_self ..)).2.1
  unfold split textOf bytes
  rw [if_neg (by decide), String.toList_ofList, decodeLossy_utf8, hchars, List.append_assoc]
  have hhead := splitGo_line hcr [] ((h.before ++ h.field :: h.after).flatMap (fun l => l.toList ++ crlf) ++
    crlf ++ decodeLossy more)
  have hmap : ∀ ls : List (List Char), (ls.map String.ofList).headD "" = String.ofList (ls.headD []) := by
    intro ls
    cases ls <;> rfl
  rw [hmap, String.toList_ofList]
  change String.ofList ((splitGo crlf 0 [] _).headD []) = _
  rw [hhead, List.reverse_nil, List.nil_append, String.ofList_toList]

end Head

end Vejas.HttpIn
