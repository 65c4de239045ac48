import Mathlib.Data.List.TakeWhile
import Vejas.Governance.World
import Vejas.Lib.Links
import Vejas.Rust.Split

/-! Where a guarded path leads on a disk with symbolic links. The guard checks the text of a path and
then the real path; what is opened is what the path leads to, or where a new file would be made. -/

namespace Vejas.Governance
open Rust

def EntryName (name : String) : Prop := isTrivial name = false ∧ name ≠ ".." ∧ '/' ∉ name.toList

/-- Directories, files and links, the directory the process is in, and how many links it may follow
on the way to a file. -/
structure Disk where
  node : Links.Layout String
  cwd : List String
  links : Nat
  cwd_names : ∀ name ∈ cwd, EntryName name
  link_names : ∀ q absolute target, node q = some (.link absolute target) → ∀ name, .into name ∈ target → EntryName name

def stepOf (seg : String) : Links.Step String :=
  if isTrivial seg then .stay else if seg = ".." then .up else .into seg

def stepsOf (path : String) : List (Links.Step String) := (segments path).map stepOf

def placeText (place : List String) : String := "/" ++ join "/" place

namespace Disk

def start (d : Disk) (path : String) : List String := if isAbsolute path then [] else d.cwd

def resolve (d : Disk) (create : Bool) (path : String) : Option (List String) :=
  if path = "" then none
  else (Links.walk d.node create d.links (d.start path) (stepsOf path)).map (·.1)

def canonicalize (d : Disk) (path : String) : Option String := (d.resolve false path).map placeText

/-- The last name of the path is that of a link that leads nowhere. -/
def Dangling (d : Disk) (path : String) : Prop :=
  d.resolve false path = none ∧ ∃ place k name,
    Links.walk d.node false d.links (d.start path) ((segments path).dropLast.map stepOf) = some (place, k) ∧
      (segments path).getLast? = some name ∧ Links.Node.isLink (d.node (place ++ [name])) = true

def LinkFree (d : Disk) (place : List String) (path : String) : Prop :=
  ∀ q, q ≠ [] → q <+: Links.namesOf (stepsOf path) → Links.Node.isLink (d.node (place ++ q)) = false

end Disk

def projectDirs : List String := ["flows", "services", "connectors", "packages"]

theorem EntryName.ne_empty {name : String} (h : EntryName name) : name ≠ "" := by
  rintro rfl
  exact absurd h.1 (by decide)

theorem segments_ne_nil (path : String) : segments path ≠ [] := split_ne_nil (by decide) path

theorem notMem_segments {path seg : String} (h : seg ∈ segments path) : '/' ∉ seg.toList := notMem_of_mem_split rfl h

theorem segments_slash (a b : String) : segments (a ++ "/" ++ b) = segments a ++ segments b := split_append rfl a b

theorem join_segments (path : String) : join "/" (segments path) = path := join_split rfl path

theorem segments_join {segs : List String} (hne : segs ≠ []) (h : ∀ s ∈ segs, '/' ∉ s.toList) : segments (join "/" segs) = segs :=
  split_join rfl hne h

theorem isAbsolute_append (a b : String) (h : a ≠ "") : isAbsolute (a ++ b) = isAbsolute a := by
  have hne : a.toList ≠ [] := fun hnil => h (String.toList_eq_nil_iff.mp hnil)
  obtain ⟨c, cs, hcs⟩ := List.exists_cons_of_ne_nil hne
  unfold isAbsolute startsWith
  rw [String.toList_append, hcs, List.cons_append]
  rfl

theorem components_placeText {place : List String} (h : ∀ name ∈ place, EntryName name) :
    components (placeText place) = "/" :: place := by
  have hanchor : anchor (placeText place) = ["/"] := by
    unfold anchor placeText
    rw [if_pos]
    rw [isAbsolute_append _ _ (by decide)]
    rfl
  have hfilter : place.filter (!isTrivial ·) = place := by
    rw [List.filter_eq_self]
    intro name hname
    rw [(h name hname).1]
    rfl
  unfold components
  rw [hanchor]
  unfold placeText
  cases hplace : place with
  | nil => rfl
  | cons name names =>
    rw [← hplace]
    have hne : place ≠ [] := by rw [hplace]; exact List.cons_ne_nil _ _
    have hsegs : segments ("/" ++ join "/" place) = "" :: place := by
      have hcut := segments_slash "" (join "/" place)
      rw [segments_join hne fun s hs => (h s hs).2.2] at hcut
      exact hcut
    rw [hsegs, List.filter_cons_of_neg (by decide), hfilter]
    rfl

theorem pathStartsWith_placeText {place base : List String} (h : ∀ name ∈ place, EntryName name)
    (hbase : ∀ name ∈ base, EntryName name) (hstarts : pathStartsWith (placeText place) (placeText base) = true) :
    base <+: place := by
  unfold pathStartsWith at hstarts
  rw [components_placeText h, components_placeText hbase, List.isPrefixOf_iff_prefix] at hstarts
  exact (List.prefix_cons_inj "/").mp hstarts

theorem placeText_append {place : List String} {name : String} (h : ∀ n ∈ place, EntryName n) (hname : EntryName name) :
    joinPath (placeText place) name = placeText (place ++ [name]) := by
  have hslash : ¬ (startsWith name "/" = true ∨ placeText place = "") := by
    rintro (hs | he)
    · obtain ⟨t, ht⟩ := List.isPrefixOf_iff_prefix.mp hs
      exact hname.2.2 (by rw [← ht]; exact List.mem_cons_self ..)
    · have hlen := congrArg (·.toList.length) he
      unfold placeText at hlen
      rw [String.toList_append, List.length_append] at hlen
      exact absurd hlen (by rw [show "/".toList.length = 1 from rfl, show "".toList.length = 0 from rfl]; omega)
  unfold joinPath
  rw [if_neg hslash]
  unfold placeText
  cases hplace : place with
  | nil => rfl
  | cons m ms =>
    rw [← hplace]
    have hne : place ≠ [] := by rw [hplace]; exact List.cons_ne_nil _ _
    obtain ⟨-, ds, d, hds, hd⟩ := @join_ends "/" '/' place hne fun n hn => ⟨(h n hn).ne_empty, (h n hn).2.2⟩
    have hlast : ("/" ++ join "/" place).toList.getLast? ≠ some '/' := by
      rw [String.toList_append, hds, ← List.append_assoc, List.getLast?_concat]
      exact fun heq => hd (Option.some.inj heq)
    rw [if_neg hlast, join_append "/" hne (List.cons_ne_nil _ _), join_singleton]
    simp only [String.append_assoc]

namespace Disk
variable {d : Disk}

theorem resolve_some {create : Bool} {path : String} {place : List String} (h : d.resolve create path = some place) :
    path ≠ "" ∧ ∃ k, Links.walk d.node create d.links (d.start path) (stepsOf path) = some (place, k) := by
  unfold resolve at h
  split at h
  · cases h
  next hne =>
    obtain ⟨⟨place', k⟩, hwalk, rfl⟩ := Option.map_eq_some_iff.mp h
    exact ⟨hne, k, hwalk⟩

theorem name_of_step {path name : String} (h : Links.Step.into name ∈ stepsOf path) : EntryName name := by
  obtain ⟨seg, hseg, heq⟩ := List.mem_map.mp h
  unfold stepOf at heq
  split at heq
  · cases heq
  next htrivial =>
    split at heq
    · cases heq
    next hup =>
      cases heq
      exact ⟨by simpa using htrivial, hup, notMem_segments hseg⟩

theorem names_of_resolve {create : Bool} {path : String} {place : List String} (h : d.resolve create path = some place) :
    ∀ name ∈ place, EntryName name := by
  obtain ⟨-, k, hwalk⟩ := resolve_some h
  refine Links.forall_name_of_walk d.link_names (fun name hname => ?_) (fun name hname => name_of_step hname) hwalk
  unfold start at hname
  split at hname
  · cases hname
  · exact d.cwd_names name hname

theorem walk_joinPath {root rest : String} {base : List String} (hbase : d.resolve false root = some base)
    (hrest : startsWith rest "/" = false) :
    joinPath root rest ≠ "" ∧ d.start (joinPath root rest) = d.start root ∧ ∃ dirs k,
      segments (joinPath root rest) = dirs ++ segments rest ∧
        Links.walk d.node false d.links (d.start root) (dirs.map stepOf) = some (base, k) := by
  obtain ⟨hne, k, hwalk⟩ := resolve_some hbase
  have hcond : ¬ (startsWith rest "/" = true ∨ root = "") := by
    rintro (h | h)
    · rw [hrest] at h
      cases h
    · exact hne h
  have hstart : ∀ more, d.start (root ++ more) = d.start root := by
    intro more
    unfold start
    rw [isAbsolute_append root more hne]
  have happend : ∀ more, root ++ more ≠ "" := by
    intro more h
    have hnil := congrArg String.toList h
    rw [String.toList_append] at hnil
    exact hne (String.toList_eq_nil_iff.mp (List.append_eq_nil_iff.mp hnil).1)
  unfold joinPath
  rw [if_neg hcond]
  split
  next hslash =>
    -- the root ends in a slash: its last segment is empty
    obtain ⟨x, hx⟩ : ∃ x, root = x ++ "/" := by
      refine ⟨String.ofList root.toList.dropLast, ?_⟩
      rw [← String.toList_inj, String.toList_append, String.toList_ofList]
      exact (List.dropLast_append_getLast? _ hslash).symm
    have hsegs : segments root = segments x ++ [""] := by
      have hcut := segments_slash x ""
      rw [String.append_empty, ← hx] at hcut
      exact hcut
    refine ⟨happend rest, hstart rest, segments x, ?_⟩
    rw [stepsOf, hsegs, List.map_append, show [""].map stepOf = [Links.Step.stay] from rfl,
      Links.walk_append _ _ _ (List.cons_ne_nil _ _)] at hwalk
    obtain ⟨⟨place, k'⟩, hfront, hstay⟩ := Option.bind_eq_some_iff.mp hwalk
    have hplace : (place, k') = (base, k) := by
      cases hdir : Links.isDir d.node place with
      | false =>
        rw [Links.walk_of_not_dir _ hdir] at hstay
        cases hstay
      | true =>
        rw [Links.walk_stay _ hdir, Links.walk_nil] at hstay
        exact Option.some.inj hstay
    rw [hplace] at hfront
    refine ⟨k, ?_, hfront⟩
    rw [hx]
    exact segments_slash x rest
  next =>
    rw [String.append_assoc]
    refine ⟨happend _, hstart _, segments root, k, ?_, hwalk⟩
    rw [← String.append_assoc]
    exact segments_slash root rest

theorem resolve_joinPath {root rest : String} {base : List String} (hbase : d.resolve false root = some base)
    (hrest : startsWith rest "/" = false) {create : Bool} {real : List String}
    (h : d.resolve create (joinPath root rest) = some real) :
    ∃ k k', Links.walk d.node create k base (stepsOf rest) = some (real, k') := by
  obtain ⟨-, hstart, dirs, k, hsegs, hdirs⟩ := walk_joinPath hbase hrest
  obtain ⟨-, k', hwalk⟩ := resolve_some h
  have hne : (segments rest).map stepOf ≠ [] := by
    rw [Ne, List.map_eq_nil_iff]
    exact segments_ne_nil rest
  rw [hstart, stepsOf, hsegs, List.map_append, Links.walk_append _ _ _ hne, hdirs, Option.bind_some] at hwalk
  exact ⟨k, k', hwalk⟩

theorem trimSegments_snoc (segs : List String) {name : String} (h : isTrivial name = false) :
    trimSegments (segs ++ [name]) = segs ++ [name] := by
  unfold trimSegments
  rw [List.reverse_append, List.reverse_singleton, List.singleton_append, List.dropWhile_cons_of_neg (by simp [h]),
    List.reverse_cons, List.reverse_reverse]

theorem trimSegments_append (segs : List String) : ∃ cut, segs = trimSegments segs ++ cut ∧ ∀ s ∈ cut, isTrivial s = true := by
  refine ⟨(segs.reverse.takeWhile isTrivial).reverse, ?_, fun s hs => ?_⟩
  · unfold trimSegments
    rw [← List.reverse_append, List.takeWhile_append_dropWhile, List.reverse_reverse]
  · exact List.mem_takeWhile_imp (List.mem_reverse.mp hs)

theorem walk_trivial {segs : List String} (h : ∀ s ∈ segs, isTrivial s = true) {k : Nat} {place : List String}
    {r : List String × Nat} (hwalk : Links.walk d.node false k place (segs.map stepOf) = some r) : r = (place, k) := by
  induction segs with
  | nil =>
    rw [List.map_nil, Links.walk_nil] at hwalk
    exact (Option.some.inj hwalk).symm
  | cons s segs ih =>
    have hs : stepOf s = .stay := by
      unfold stepOf
      rw [if_pos (h s (List.mem_cons_self ..))]
    rw [List.map_cons, hs] at hwalk
    cases hdir : Links.isDir d.node place with
    | false =>
      rw [Links.walk_of_not_dir _ hdir] at hwalk
      cases hwalk
    | true =>
      rw [Links.walk_stay _ hdir] at hwalk
      exact ih (fun t ht => h t (List.mem_cons_of_mem _ ht)) hwalk

theorem parent_eq {path : String} {front : List String} {name : String} (hsegs : segments path = front ++ [name])
    (hname : isTrivial name = false) : parent path =
      some (if (trimSegments front).isEmpty && isAbsolute path then "/" else join "/" (trimSegments front)) := by
  unfold parent
  rw [hsegs, trimSegments_snoc front hname, List.reverse_append, List.reverse_singleton, List.singleton_append]
  dsimp only
  rw [List.reverse_reverse]

theorem resolve_parent {path : String} {front : List String} {name : String} (hsegs : segments path = front ++ [name])
    (hname : isTrivial name = false) {up : String} (hup : parent path = some up) {place : List String}
    (hplace : d.resolve false up = some place) {r : List String × Nat}
    (hwalk : Links.walk d.node false d.links (d.start path) (front.map stepOf) = some r) : r.1 = place := by
  obtain ⟨hne, k, hwalk'⟩ := resolve_some hplace
  obtain ⟨cut, hcut, htrivial⟩ := trimSegments_append front
  rw [parent_eq hsegs hname, Option.some.injEq] at hup
  split at hup
  next hroot =>
    -- nothing but the root stands before the name
    obtain ⟨hempty, habs⟩ := Bool.and_eq_true_iff.mp hroot
    rw [List.isEmpty_iff.mp hempty, List.nil_append] at hcut
    rw [hcut] at hwalk
    rw [walk_trivial htrivial hwalk, start, if_pos habs]
    subst hup
    have hback := @walk_trivial d ["", ""] (by decide) _ _ _ hwalk'
    exact (Prod.mk.inj hback).1.symm
  next hroot =>
    have htrim : trimSegments front ≠ [] := by
      intro hnil
      rw [hnil] at hup
      exact hne hup.symm
    have hslash : ∀ s ∈ trimSegments front, '/' ∉ s.toList := by
      intro s hs
      refine @notMem_segments path s ?_
      rw [hsegs, hcut]
      exact List.mem_append_left _ (List.mem_append_left _ hs)
    have hupsegs : segments up = trimSegments front := by rw [← hup, segments_join htrim hslash]
    have hstart : d.start path = d.start up := by
      have hpath : path = up ++ ("/" ++ join "/" (cut ++ [name])) := by
        rw [← join_segments path, hsegs, hcut, List.append_assoc, join_append "/" (hcut ▸ htrim) (by simp), ← hup,
          String.append_assoc]
      unfold start
      rw [hpath, isAbsolute_append up _ hne]
    rw [hcut, List.map_append, Links.walk_false_append, hstart] at hwalk
    rw [stepsOf, hupsegs] at hwalk'
    rw [hwalk', Option.bind_some] at hwalk
    rw [walk_trivial htrivial hwalk]

end Disk

def relOf (root rel : String) : String :=
  let rel := onChars (fun cs => trimStartMatches "./".toList cs.length cs) rel
  (stripPath rel root).getD rel

/-- What the guard has checked of a path it lets through. -/
structure Checked (w : World) (root rel p : String) (canonRoot resolved : String) : Prop where
  no_dots : contains rel ".." = false
  dir : projectDirs.any (startsWith (relOf root rel)) = true
  ext : endsWith (relOf root rel) ".vjs" = true ∨ endsWith (relOf root rel) ".json" = true
  path : p = joinPath root (relOf root rel)
  root : w.canonicalize root = some canonRoot
  resolves : w.canonicalize p = some resolved ∨ w.canonicalize p = none ∧
    ∃ up upText name, parent p = some up ∧ w.canonicalize up = some upText ∧ fileName p = some name ∧
      resolved = joinPath upText name
  inside : pathStartsWith resolved canonRoot = true

theorem checked_of_guardPath {w : World} {root rel p : String} (h : guardPath w root rel = some p) :
    ∃ canonRoot resolved, Checked w root rel p canonRoot resolved := by
  unfold guardPath at h
  split at h
  · cases h
  next hdots =>
  dsimp only at h
  have hrel : (stripPath (onChars (fun cs => trimStartMatches "./".toList cs.length cs) rel) root).getD
      (onChars (fun cs => trimStartMatches "./".toList cs.length cs) rel) = relOf root rel := rfl
  rw [hrel] at h
  generalize hrest : relOf root rel = rest at h
  split at h
  · cases h
  next hdir =>
  split at h
  · cases h
  next hext =>
  obtain ⟨canonRoot, hroot, h⟩ := Option.bind_eq_some_iff.mp h
  have hchecked : ∀ resolved, (w.canonicalize (joinPath root rest) = some resolved ∨
        w.canonicalize (joinPath root rest) = none ∧ ∃ up upText name, parent (joinPath root rest) = some up ∧
          w.canonicalize up = some upText ∧ fileName (joinPath root rest) = some name ∧ resolved = joinPath upText name) →
      (if pathStartsWith resolved canonRoot = true then some (joinPath root rest) else none) = some p →
        Checked w root rel p canonRoot resolved := by
    intro resolved hresolves h
    split at h
    next hin =>
      cases h
      rw [Bool.not_eq_true', Bool.not_eq_false] at hdir
      rw [Bool.not_eq_true', Bool.not_eq_false, Bool.or_eq_true] at hext
      refine ⟨by rwa [Bool.not_eq_true] at hdots, ?_, ?_, ?_, hroot, hresolves, hin⟩
      · rw [hrest]
        exact hdir
      · rw [hrest]
        exact hext
      · rw [hrest]
    · cases h
  split at h
  next c hc => exact ⟨canonRoot, c, hchecked c (.inl hc) h⟩
  next hnone =>
    obtain ⟨upText, hup, h⟩ := Option.bind_eq_some_iff.mp h
    obtain ⟨resolved, hname, h⟩ := Option.bind_eq_some_iff.mp h
    obtain ⟨up, hparent, hup⟩ := Option.bind_eq_some_iff.mp hup
    obtain ⟨name, hfile, rfl⟩ := Option.map_eq_some_iff.mp hname
    exact ⟨canonRoot, _, hchecked _ (.inr ⟨hnone, up, upText, name, hparent, hup, hfile, rfl⟩) h⟩

theorem mem_of_mem_trimSegments {segs : List String} {seg : String} (h : seg ∈ trimSegments segs) : seg ∈ segs := by
  unfold trimSegments at h
  exact List.mem_reverse.mp (List.dropWhile_subset _ (List.mem_reverse.mp h))

theorem mem_of_stripSegments {base segs rest : List String} (h : stripSegments base segs = some rest) {seg : String}
    (hseg : seg ∈ rest) : seg ∈ segs := by
  induction base generalizing segs with
  | nil =>
    rw [stripSegments] at h
    cases h
    exact List.dropWhile_subset _ (mem_of_mem_trimSegments hseg)
  | cons b base ih =>
    rw [stripSegments] at h
    split at h
    next s more hdrop =>
      split at h
      · have hmem := ih h
        refine List.dropWhile_subset isTrivial ?_
        rw [hdrop]
        exact List.mem_cons_of_mem _ hmem
      · cases h
    · cases h

theorem stripPath_segments {path base rest : String} (h : stripPath path base = some rest) :
    ∃ segs, rest = join "/" segs ∧ ∀ s ∈ segs, s ∈ segments path := by
  unfold stripPath at h
  split at h
  · cases h
    exact ⟨_, rfl, fun s hs => mem_of_mem_trimSegments hs⟩
  · split at h
    · obtain ⟨segs, hsegs, rfl⟩ := Option.map_eq_some_iff.mp h
      exact ⟨segs, rfl, fun s hs => mem_of_stripSegments hsegs hs⟩
    · cases h

theorem trimStartMatches_suffix (pre : List Char) (n : Nat) (cs : List Char) : trimStartMatches pre n cs <:+ cs := by
  induction n generalizing cs with
  | zero => exact List.suffix_refl _
  | succ n ih =>
    rw [trimStartMatches]
    split
    · exact (ih _).trans (List.drop_suffix _ _)
    · exact List.suffix_refl _

theorem infix_of_mem_segments_relOf {root rel seg : String} (h : seg ∈ segments (relOf root rel)) (hne : seg ≠ "") :
    seg.toList <:+: rel.toList := by
  have hmem : seg ∈ segments (onChars (fun cs => trimStartMatches "./".toList cs.length cs) rel) := by
    unfold relOf at h
    dsimp only at h
    cases hstrip : stripPath (onChars (fun cs => trimStartMatches "./".toList cs.length cs) rel) root with
    | none =>
      rw [hstrip] at h
      exact h
    | some rest =>
      rw [hstrip, Option.getD_some] at h
      obtain ⟨segs, rfl, hsub⟩ := stripPath_segments hstrip
      by_cases hnil : segs = []
      · rw [hnil] at h
        exact absurd (List.mem_singleton.mp h) hne
      · rw [segments_join hnil fun s hs => notMem_segments (hsub s hs)] at h
        exact hsub seg h
  have hin := @infix_join "/" seg _ hmem
  rw [join_segments] at hin
  refine hin.trans (List.IsSuffix.isInfix ?_)
  unfold onChars
  rw [String.toList_ofList]
  exact trimStartMatches_suffix _ _ _

theorem up_notMem_of_no_dots {root rel : String} (h : contains rel ".." = false) : Links.Step.up ∉ stepsOf (relOf root rel) := by
  intro hup
  obtain ⟨seg, hseg, heq⟩ := List.mem_map.mp hup
  have hdots : seg = ".." := by
    unfold stepOf at heq
    split at heq
    · cases heq
    · split at heq
      next hd => exact hd
      · cases heq
  have hin := infix_of_mem_segments_relOf hseg (by rw [hdots]; decide)
  rw [hdots] at hin
  unfold contains at h
  rw [(containsChars_iff _ _).mpr hin] at h
  cases h

theorem last_segment {path suffix : String} (h : endsWith path suffix = true) (hslash : '/' ∉ suffix.toList) :
    ∃ front name, segments path = front ++ [name] ∧ endsWith name suffix = true := by
  have hsegs := (List.dropLast_append_getLast (segments_ne_nil path)).symm
  refine ⟨_, _, hsegs, List.isSuffixOf_iff_suffix.mpr ?_⟩
  generalize (segments path).dropLast = front at hsegs
  generalize (segments path).getLast (segments_ne_nil path) = name at hsegs
  have hpath := join_segments path
  have hsuffix : suffix.toList <:+ path.toList := List.isSuffixOf_iff_suffix.mp h
  rw [hsegs] at hpath
  by_cases hnil : front = []
  · rw [hnil, List.nil_append, join_singleton] at hpath
    rw [hpath]
    exact hsuffix
  · rw [join_append "/" hnil (List.cons_ne_nil _ _), join_singleton] at hpath
    have hname : '/' :: name.toList <:+ path.toList := by
      rw [← hpath, String.toList_append, String.toList_append, List.append_assoc]
      exact ⟨(join "/" front).toList, rfl⟩
    rcases List.suffix_or_suffix_of_suffix hsuffix hname with hs | hs
    · rcases List.suffix_cons_iff.mp hs with heq | hs
      · exact absurd (by rw [heq]; exact List.mem_cons_self ..) hslash
      · exact hs
    · exact absurd (hs.subset (List.mem_cons_self ..)) hslash

theorem entryName_of_endsWith {name suffix : String} (h : endsWith name suffix = true) (hlen : 3 ≤ suffix.toList.length)
    (hslash : '/' ∉ name.toList) : EntryName name := by
  have hle : 3 ≤ name.toList.length := Nat.le_trans hlen (List.isSuffixOf_iff_suffix.mp h).length_le
  have hne : ∀ short : String, short.toList.length < 3 → name ≠ short := by
    rintro short hshort rfl
    omega
  refine ⟨?_, hne ".." (by decide), hslash⟩
  unfold isTrivial
  rw [Bool.or_eq_false_iff]
  exact ⟨beq_false_of_ne (hne "" (by decide)), beq_false_of_ne (hne "." (by decide))⟩

theorem Checked.last_name {w : World} {root rel p canonRoot resolved : String} (h : Checked w root rel p canonRoot resolved) :
    ∃ front name, segments (relOf root rel) = front ++ [name] ∧ EntryName name := by
  rcases h.ext with hext | hext
  · obtain ⟨front, name, hsegs, hname⟩ := last_segment hext (by decide)
    exact ⟨front, name, hsegs, entryName_of_endsWith hname (by decide) (notMem_segments (by rw [hsegs]; simp))⟩
  · obtain ⟨front, name, hsegs, hname⟩ := last_segment hext (by decide)
    exact ⟨front, name, hsegs, entryName_of_endsWith hname (by decide) (notMem_segments (by rw [hsegs]; simp))⟩

theorem Checked.relative {w : World} {root rel p canonRoot resolved : String} (h : Checked w root rel p canonRoot resolved) :
    startsWith (relOf root rel) "/" = false := by
  rw [← Bool.not_eq_true]
  intro hslash
  obtain ⟨t, ht⟩ := List.isPrefixOf_iff_prefix.mp hslash
  obtain ⟨dir, hdir, hstarts⟩ := List.any_eq_true.mp h.dir
  obtain ⟨u, hu⟩ := List.isPrefixOf_iff_prefix.mp hstarts
  rw [← ht] at hu
  -- none of the four names begins with a slash
  simp only [projectDirs, List.mem_cons, List.not_mem_nil, or_false] at hdir
  rcases hdir with rfl | rfl | rfl | rfl
  · exact absurd (List.cons.inj hu).1 (by decide)
  · exact absurd (List.cons.inj hu).1 (by decide)
  · exact absurd (List.cons.inj hu).1 (by decide)
  · exact absurd (List.cons.inj hu).1 (by decide)

theorem placeText_resolved {d : Disk} {path text : String} (h : d.canonicalize path = some text) :
    ∃ place, d.resolve false path = some place ∧ text = placeText place := by
  obtain ⟨place, hplace, rfl⟩ := Option.map_eq_some_iff.mp h
  exact ⟨place, hplace, rfl⟩

theorem Checked.inside_root {d : Disk} {w : World} (hw : w.canonicalize = d.canonicalize) {root rel p canonRoot resolved : String}
    (h : Checked w root rel p canonRoot resolved) {base : List String} (hbase : d.resolve false root = some base)
    {real : List String} (hreal : d.resolve true p = some real) (hdangling : ¬ d.Dangling p) : base <+: real := by
  have hbaseNames := Disk.names_of_resolve hbase
  have hroot : canonRoot = placeText base := by
    have hr := h.root
    rw [hw, Disk.canonicalize, hbase] at hr
    exact (Option.some.inj hr).symm
  have hinside := h.inside
  rw [hroot] at hinside
  rcases h.resolves with hexists | ⟨hnone, up, upText, name', hparent, hup, hfile, hresolved⟩
  · rw [hw] at hexists
    obtain ⟨place, hplace, rfl⟩ := placeText_resolved hexists
    obtain ⟨-, k, hwalk⟩ := Disk.resolve_some hplace
    have hsame : place = real := by
      obtain ⟨-, k', hwalk'⟩ := Disk.resolve_some hreal
      rw [Links.walk_create hwalk] at hwalk'
      exact (Prod.mk.inj (Option.some.inj hwalk')).1
    rw [← hsame]
    exact pathStartsWith_placeText (Disk.names_of_resolve hplace) hbaseNames hinside
  · rw [hw] at hup hnone
    obtain ⟨place, hplace, rfl⟩ := placeText_resolved hup
    obtain ⟨front, name, hsegs, hname⟩ := h.last_name
    obtain ⟨-, -, dirs, k, hpsegs, -⟩ := Disk.walk_joinPath hbase h.relative
    rw [← h.path, hsegs, ← List.append_assoc] at hpsegs
    obtain rfl : name' = name := Option.some.inj (hfile.symm.trans (fileName_eq hpsegs hname.1 hname.2.1))
    have hstep : stepOf name' = .into name' := by
      unfold stepOf
      rw [hname.1, if_neg Bool.false_ne_true, if_neg hname.2.1]
    -- the walk of the path is that of its directory, and then the name
    obtain ⟨-, k', hwalk⟩ := Disk.resolve_some hreal
    rw [stepsOf, hpsegs, List.map_append, List.map_singleton, hstep, Links.walk_append _ _ _ (List.cons_ne_nil _ _)] at hwalk
    obtain ⟨⟨at', k''⟩, hdirs, hlast⟩ := Option.bind_eq_some_iff.mp hwalk
    have hat : at' = place := Disk.resolve_parent hpsegs hname.1 hparent hplace hdirs
    have hlink : Links.Node.isLink (d.node (place ++ [name'])) = false := by
      rw [← Bool.not_eq_true]
      intro hlink
      refine hdangling ⟨Option.map_eq_none_iff.mp hnone, place, k'', name', ?_, ?_, hlink⟩
      · rw [hpsegs, List.dropLast_concat, ← hat]
        exact hdirs
      · rw [hpsegs, List.getLast?_concat]
    dsimp only at hlast
    rw [hat] at hlast
    have hend : real = place ++ [name'] := Links.walk_last hlink hlast
    rw [hresolved, placeText_append (Disk.names_of_resolve hplace) hname] at hinside
    rw [hend]
    refine pathStartsWith_placeText (fun n hn => ?_) hbaseNames hinside
    rcases List.mem_append.mp hn with hn | hn
    · exact Disk.names_of_resolve hplace n hn
    · rw [List.mem_singleton.mp hn]
      exact hname

/-- A guarded path leads into the real root, unless it is a link that leads nowhere; without a link on
the way it leads into the directory of the project it names. -/
theorem guarded_confined (d : Disk) (w : World) {root rel p : String}
    (h : guardPath { w with canonicalize := d.canonicalize } root rel = some p) :
    ∃ base, d.resolve false root = some base ∧ ∀ real, d.resolve true p = some real →
      (¬ d.Dangling p → base <+: real) ∧
        (d.LinkFree base (relOf root rel) → ∀ dir ∈ projectDirs,
          (Links.namesOf (stepsOf (relOf root rel))).head? = some dir → base ++ [dir] <+: real) := by
  obtain ⟨canonRoot, resolved, hchecked⟩ := checked_of_guardPath h
  obtain ⟨base, hbase, -⟩ := placeText_resolved hchecked.root
  refine ⟨base, hbase, fun real hreal => ⟨hchecked.inside_root rfl hbase hreal, fun hplain dir _ hdir => ?_⟩⟩
  rw [hchecked.path] at hreal
  obtain ⟨k, k', hwalk⟩ := Disk.resolve_joinPath hbase hchecked.relative hreal
  have hend : real = base ++ Links.namesOf (stepsOf (relOf root rel)) :=
    Links.walk_plain (up_notMem_of_no_dots hchecked.no_dots) hplain hwalk
  obtain ⟨names, hnames⟩ : ∃ names, Links.namesOf (stepsOf (relOf root rel)) = dir :: names :=
    List.head?_eq_some_iff.mp hdir
  rw [hend, hnames]
  exact (List.prefix_append_right_inj base).mpr ⟨names, rfl⟩

def linkedDisk : Disk where
  node q :=
    if q ∈ [[], ["p"], ["p", "flows"], ["p", "templates"]] then some .dir
    else if q = ["p", "templates", "t.vjs"] then some .file
    else if q = ["p", "flows", "t.vjs"] then some (.link true [.into "p", .into "templates", .into "t.vjs"])
    else none
  cwd := []
  links := 40
  cwd_names _ h := by cases h
  link_names q absolute target h name hname := by
    split at h
    · cases h
    · split at h
      · cases h
      · split at h
        · cases h
          simp only [List.mem_cons, Links.Step.into.injEq, List.not_mem_nil, or_false] at hname
          rcases hname with rfl | rfl | rfl
          · exact ⟨by decide, by decide, by decide⟩
          · exact ⟨by decide, by decide, by decide⟩
          · exact ⟨by decide, by decide, by decide⟩
        · cases h

def bareWorld : World := ⟨fun _ => .error "", fun _ => none, [], [], []⟩

theorem guarded_confined_new_flow :
    guardPath { bareWorld with canonicalize := linkedDisk.canonicalize } "/p" "flows/new.vjs" = some "/p/flows/new.vjs" ∧
    linkedDisk.resolve true "/p/flows/new.vjs" = some ["p", "flows", "new.vjs"] ∧
    ∃ base, linkedDisk.resolve false "/p" = some base ∧ base <+: ["p", "flows", "new.vjs"] := by
  have hguard : guardPath { bareWorld with canonicalize := linkedDisk.canonicalize } "/p" "flows/new.vjs" =
      some "/p/flows/new.vjs" := by decide +kernel
  have hreal : linkedDisk.resolve true "/p/flows/new.vjs" = some ["p", "flows", "new.vjs"] := by decide +kernel
  obtain ⟨base, hbase, hin⟩ := guarded_confined linkedDisk bareWorld hguard
  refine ⟨hguard, hreal, base, hbase, (hin _ hreal).1 ?_⟩
  rintro ⟨-, place, k, name, hdirs, hname, hlink⟩
  have hflows : Links.walk linkedDisk.node false linkedDisk.links (linkedDisk.start "/p/flows/new.vjs")
      ((segments "/p/flows/new.vjs").dropLast.map stepOf) = some (["p", "flows"], 40) := by decide +kernel
  have hlast : (segments "/p/flows/new.vjs").getLast? = some "new.vjs" := by decide +kernel
  cases hflows.symm.trans hdirs
  cases hlast.symm.trans hname
  cases hlink

/-- The guard lets a link through that leads from the flows to a template. -/
theorem guarded_link_leaves_flows :
    guardPath { bareWorld with canonicalize := linkedDisk.canonicalize } "/p" "flows/t.vjs" = some "/p/flows/t.vjs" ∧
    linkedDisk.resolve false "/p" = some ["p"] ∧
    linkedDisk.resolve true "/p/flows/t.vjs" = some ["p", "templates", "t.vjs"] ∧
    ¬ ∃ dir ∈ projectDirs, ["p"] ++ [dir] <+: ["p", "templates", "t.vjs"] := by
  refine ⟨by decide +kernel, by decide +kernel, by decide +kernel, by decide⟩

end Vejas.Governance
