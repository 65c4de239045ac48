import Mathlib.Data.List.TakeWhile
import Vejas.Runtime.Units
import Vejas.Rust.Split
import Vejas.Vjs.Lossy

/-! The name of a flow, read from the path of its file, beside the name the scan gives its unit. The
scan goes by the directories it walks; the path is searched for `packages/`, its root included. -/

namespace Vejas.Runtime
open Rust Vjs Governance

def slash : UInt8 := byte '/'

def pushName (path name : Bytes) : Bytes :=
  if path = [] then name else if path.getLast? = some slash then path ++ name else path ++ slash :: name

def Spec.display (root : Bytes) (s : Spec) : String := textOf (s.path.foldl pushName root)

/-- The path of every flow file gives the name and the package of its unit. -/
def OneName (root : Bytes) (specs : List Spec) : Prop := ∀ s ∈ specs, s.kind = .flow →
  flowProcName (s.display root) = s.name ∧ pkgOfPath (s.display root) = s.pkg

def IsName (name : Bytes) : Prop := name ≠ [] ∧ slash ∉ name

structure Tree.Named (tree : Tree) : Prop where
  units : ∀ kind, ∀ e ∈ (tree.units kind).getD [], IsName e.name
  packages : ∀ p ∈ tree.packages.getD [], IsName p.name ∧ ∀ kind, ∀ e ∈ (p.units kind).getD [], IsName e.name

def rootSegs (root : Bytes) : List String :=
  if root = [] then [] else segments (textOf (if root.getLast? = some slash then root.dropLast else root))

def endsPackages (seg : String) : Bool := endsWith seg "packages"

def dropPackages (seg : String) : String :=
  if endsPackages seg then onChars (fun cs => cs.take (cs.length - "packages".toList.length)) seg else seg

def Readable (root : Bytes) (u : UnitFile) : Prop :=
  match (rootSegs root).dropWhile (!endsPackages ·) with
  | [] => ∀ p, u.pkg = some p → endsPackages (textOf p) = false
  | [_] => False
  | _ :: next :: _ => dropPackages next = u.pkgName

def readPkg : List String → String
  | [] => "default"
  | [_] => "default"
  | s :: t :: rest =>
    if endsPackages s then if rest.isEmpty then t else dropPackages t
    else readPkg (t :: rest)

def packagesSlash : List Char := "packages/".toList

theorem packagesSlash_eq : packagesSlash = "packages".toList ++ ['/'] := rfl

theorem endsPackages_iff {seg : String} : endsPackages seg = true ↔ ∃ front, seg.toList = front ++ "packages".toList := by
  unfold endsPackages endsWith
  rw [List.isSuffixOf_iff_suffix]
  exact ⟨fun ⟨t, ht⟩ => ⟨t, ht.symm⟩, fun ⟨t, ht⟩ => ⟨t, ht.symm⟩⟩

theorem dropPackages_toList {seg : String} {front : List Char} (h : seg.toList = front ++ "packages".toList) :
    (dropPackages seg).toList = front := by
  unfold dropPackages onChars
  rw [if_pos (endsPackages_iff.mpr ⟨front, h⟩), String.toList_ofList]
  dsimp only
  rw [h, List.length_append, Nat.add_sub_cancel, List.take_left]

theorem eq_packages_of_starts {y b : List Char} (hy : '/' ∉ y) (h : packagesSlash <+: y ++ '/' :: b) : y = "packages".toList := by
  obtain ⟨rest, hrest⟩ := h
  rw [packagesSlash_eq, List.append_assoc, List.singleton_append] at hrest
  have hcut := @splitOnceChars_append '/' "packages".toList (by decide) rest
  rw [hrest, splitOnceChars_append hy] at hcut
  exact (Prod.mk.inj (Option.some.inj hcut)).1

theorem clear_segment {seg b : List Char} (hseg : '/' ∉ seg) (h : ¬ "packages".toList <:+ seg) :
    Clear packagesSlash (seg ++ ['/']) b := by
  intro x y hxy hy hpre
  -- the part of the segment from where the separator would start
  obtain ⟨z, rfl, hz⟩ : ∃ z, y = z ++ ['/'] ∧ z <:+ seg := by
    rcases List.append_eq_append_iff.mp hxy with ⟨z, hx, hz⟩ | ⟨z, hseg', rfl⟩
    · cases z with
      | nil => exact ⟨[], hz.symm, List.nil_suffix⟩
      | cons c z =>
        rw [List.cons_append] at hz
        have hnil := List.append_eq_nil_iff.mp (List.cons.inj hz).2.symm
        exact absurd hnil.2 hy
    · exact ⟨z, rfl, ⟨x, hseg'.symm⟩⟩
  rw [List.append_assoc, List.singleton_append] at hpre
  have heq := eq_packages_of_starts (fun hmem => hseg (hz.subset hmem)) hpre
  rw [heq] at hz
  exact h hz

theorem clear_front {front b : List Char} (h : '/' ∉ front) : Clear packagesSlash front (packagesSlash ++ b) := by
  intro x y hxy hy hpre
  have hslash : '/' ∉ y ++ "packages".toList := by
    intro hmem
    rcases List.mem_append.mp hmem with hmem | hmem
    · exact h (by rw [hxy]; exact List.mem_append_right _ hmem)
    · exact absurd hmem (by decide)
  rw [packagesSlash_eq, List.append_assoc, List.singleton_append, ← List.append_assoc, ← packagesSlash_eq] at hpre
  have hlen := congrArg List.length (eq_packages_of_starts hslash hpre)
  rw [List.length_append] at hlen
  exact hy (List.length_eq_zero_iff.mp (by omega))

theorem clear_last {seg : List Char} (h : '/' ∉ seg) : Clear packagesSlash seg [] := by
  intro x y hxy hy hpre
  have hmem : '/' ∈ y ++ [] := hpre.subset (by decide)
  rw [List.append_nil] at hmem
  exact h (by rw [hxy]; exact List.mem_append_right _ hmem)

def firstDir (cs : List Char) : String :=
  (split (String.ofList ((splitGo packagesSlash 0 [] cs).headD [])) "/").headD ""

theorem headD_split_of_notMem {seg : String} (h : '/' ∉ seg.toList) : (split seg "/").headD "" = seg := by
  have hjoin := @split_join "/" '/' rfl [seg] (List.cons_ne_nil _ _) fun p hp => by rwa [List.mem_singleton.mp hp]
  rw [join_singleton] at hjoin
  rw [hjoin]
  rfl

theorem firstDir_last {seg : String} (h : '/' ∉ seg.toList) : firstDir seg.toList = seg := by
  unfold firstDir
  rw [splitGo_none (clear_last h), List.headD_cons, String.ofList_toList]
  exact headD_split_of_notMem h

theorem firstDir_more {seg : String} (h : '/' ∉ seg.toList) (more : List Char) :
    firstDir (seg.toList ++ '/' :: more) = dropPackages seg := by
  unfold firstDir
  by_cases hends : endsPackages seg = true
  · obtain ⟨front, hfront⟩ := endsPackages_iff.mp hends
    have hslash : '/' ∉ front := fun hm => h (by rw [hfront]; exact List.mem_append_left _ hm)
    have hcut : seg.toList ++ '/' :: more = front ++ (packagesSlash ++ more) := by
      rw [hfront, packagesSlash_eq, List.append_assoc, List.append_assoc, List.singleton_append]
    have hdrop : String.ofList front = dropPackages seg := by
      rw [← dropPackages_toList hfront, String.ofList_toList]
    rw [hcut, splitGo_first (by decide) (clear_front hslash), List.headD_cons, hdrop]
    refine headD_split_of_notMem ?_
    rw [dropPackages_toList hfront]
    exact hslash
  · have hnot : ¬ "packages".toList <:+ seg.toList := fun hs => hends (List.isSuffixOf_iff_suffix.mpr hs)
    have hcut : seg.toList ++ '/' :: more = seg.toList ++ ['/'] ++ more := by
      rw [List.append_assoc, List.singleton_append]
    obtain ⟨rest, pieces, hhead⟩ := splitGo_head packagesSlash 0 ((seg.toList ++ ['/']).reverse ++ []) more
    rw [hcut, splitGo_clear (clear_segment h hnot), hhead, List.append_nil, List.reverse_reverse, List.headD_cons]
    have hpiece : String.ofList (seg.toList ++ ['/'] ++ rest) = seg ++ "/" ++ String.ofList rest := by
      rw [← String.toList_inj, String.toList_ofList, String.toList_append, String.toList_append, String.toList_ofList,
        String.toList_ofList]
    rw [hpiece, split_append rfl, dropPackages, if_neg hends]
    have hone := headD_split_of_notMem h
    cases hsplit : split seg "/" with
    | nil => exact absurd hsplit (split_ne_nil (by decide) seg)
    | cons d ds =>
      rw [hsplit] at hone
      exact hone

theorem pkgOfPath_cut {path : String} {before rest : List Char}
    (h : splitGo packagesSlash 0 [] path.toList = before :: splitGo packagesSlash 0 [] rest) :
    pkgOfPath path = firstDir rest := by
  unfold pkgOfPath firstDir
  have hsplit : split path "packages/" = (before :: splitGo packagesSlash 0 [] rest).map String.ofList := by
    rw [split_eq _ (by decide)]
    exact congrArg _ h
  obtain ⟨more, pieces, hhead⟩ := splitGo_head packagesSlash 0 [] rest
  rw [hsplit, hhead]
  rfl

theorem toList_join_cons (s t : String) (rest : List String) :
    (join "/" (s :: t :: rest)).toList = s.toList ++ '/' :: (join "/" (t :: rest)).toList := by
  rw [join_cons, String.toList_append, String.toList_append, List.append_assoc]
  rfl

theorem splitGo_join {segs : List String} (h : ∀ s ∈ segs, '/' ∉ s.toList) (acc : List Char) :
    (∃ piece, splitGo packagesSlash 0 acc (join "/" segs).toList = [piece]) ∧ readPkg segs = "default" ∨
      ∃ before rest, splitGo packagesSlash 0 acc (join "/" segs).toList = before :: splitGo packagesSlash 0 [] rest ∧
        firstDir rest = readPkg segs := by
  induction segs generalizing acc with
  | nil => exact .inl ⟨⟨_, rfl⟩, rfl⟩
  | cons s segs ih =>
    have hs := h s (List.mem_cons_self ..)
    cases segs with
    | nil =>
      have hcut := splitGo_clear (clear_last hs) acc
      rw [List.append_nil, splitGo_nil] at hcut
      exact .inl ⟨⟨_, hcut⟩, rfl⟩
    | cons t rest =>
      have ht := h t (List.mem_cons_of_mem _ (List.mem_cons_self ..))
      rw [toList_join_cons, readPkg]
      by_cases hends : endsPackages s = true
      · obtain ⟨front, hfront⟩ := endsPackages_iff.mp hends
        have hslash : '/' ∉ front := fun hm => hs (by rw [hfront]; exact List.mem_append_left _ hm)
        refine .inr ⟨(front.reverse ++ acc).reverse, (join "/" (t :: rest)).toList, ?_, ?_⟩
        · have hcut : s.toList ++ '/' :: (join "/" (t :: rest)).toList =
              front ++ (packagesSlash ++ (join "/" (t :: rest)).toList) := by
            rw [hfront, packagesSlash_eq, List.append_assoc, List.append_assoc, List.singleton_append]
          rw [hcut, splitGo_clear (clear_front hslash), splitGo_sep (by decide)]
        · rw [if_pos hends]
          cases rest with
          | nil => exact firstDir_last ht
          | cons t' rest =>
            rw [toList_join_cons, firstDir_more ht]
            rfl
      · have hnot : ¬ "packages".toList <:+ s.toList := fun hsuf => hends (List.isSuffixOf_iff_suffix.mpr hsuf)
        have hcut : s.toList ++ '/' :: (join "/" (t :: rest)).toList = s.toList ++ ['/'] ++ (join "/" (t :: rest)).toList := by
          rw [List.append_assoc, List.singleton_append]
        rw [hcut, splitGo_clear (clear_segment hs hnot), if_neg hends]
        exact ih (fun r hr => h r (List.mem_cons_of_mem _ hr)) _

theorem pkgOfPath_join {segs : List String} (h : ∀ s ∈ segs, '/' ∉ s.toList) : pkgOfPath (join "/" segs) = readPkg segs := by
  rcases splitGo_join h [] with ⟨⟨piece, hpiece⟩, hdefault⟩ | ⟨before, rest, hcut, hfirst⟩
  · have hsplit : split (join "/" segs) "packages/" = [String.ofList piece] := by
      rw [split_eq _ (by decide)]
      exact congrArg _ hpiece
    unfold pkgOfPath
    rw [hsplit, hdefault]
  · rw [pkgOfPath_cut hcut, hfirst]

theorem readPkg_append {front : List String} (h : ∀ s ∈ front, endsPackages s = false) (t : String) (rest : List String) :
    readPkg (front ++ t :: rest) = readPkg (t :: rest) := by
  induction front with
  | nil => rfl
  | cons s front ih =>
    have hs : ¬ endsPackages s = true := by
      rw [h s (List.mem_cons_self ..)]
      exact Bool.false_ne_true
    have hrest := ih fun r hr => h r (List.mem_cons_of_mem _ hr)
    cases front with
    | nil => rw [List.singleton_append, readPkg, if_neg hs]
    | cons s' front =>
      rw [List.cons_append, List.cons_append, readPkg, if_neg hs]
      exact hrest

theorem dropPackages_eq_self_iff (seg : String) : dropPackages seg = seg ↔ endsPackages seg = false := by
  constructor
  · intro h
    rw [← Bool.not_eq_true]
    intro hends
    obtain ⟨front, hfront⟩ := endsPackages_iff.mp hends
    have hlen := congrArg List.length (dropPackages_toList hfront)
    rw [h, hfront, List.length_append] at hlen
    exact absurd hlen (by rw [show "packages".toList.length = 8 from rfl]; omega)
  · intro h
    unfold dropPackages
    rw [h, if_neg Bool.false_ne_true]

theorem textOf_ne_empty {b : Bytes} (h : b ≠ []) : textOf b ≠ "" := by
  obtain ⟨a, rest, rfl⟩ := List.exists_cons_of_ne_nil h
  intro hempty
  have hnil : decodeLossy (a :: rest) = [] := by
    have := congrArg String.toList hempty
    unfold textOf at this
    rwa [String.toList_ofList] at this
  rw [decodeLossy.eq_def] at hnil
  grind

def segsOf (root : Bytes) (u : UnitFile) : List String := rootSegs root ++ u.path.map textOf

theorem path_flow {u : UnitFile} (h : u.kind = .flow) :
    u.pkg = none ∧ u.path.map textOf = ["flows", textOf u.file] ∨
      ∃ p, u.pkg = some p ∧ u.path.map textOf = ["packages", textOf p, "flows", textOf u.file] := by
  obtain ⟨pkg, kind, file⟩ := u
  cases h
  cases pkg with
  | none => exact .inl ⟨rfl, by simp [UnitFile.path, Kind.dir, textOf_bytesOf]⟩
  | some p => exact .inr ⟨p, rfl, by simp [UnitFile.path, packageDir, Kind.dir, textOf_bytesOf]⟩

theorem readPkg_root (dirs : List String) (t t' : String) (rest : List String) :
    (dirs.dropWhile (!endsPackages ·) = [] → readPkg (dirs ++ t :: t' :: rest) = readPkg (t :: t' :: rest)) ∧
      (∀ d, dirs.dropWhile (!endsPackages ·) = [d] → readPkg (dirs ++ t :: t' :: rest) = dropPackages t) ∧
      ∀ d next more, dirs.dropWhile (!endsPackages ·) = d :: next :: more →
        readPkg (dirs ++ t :: t' :: rest) = dropPackages next := by
  have hsplit := List.takeWhile_append_dropWhile (p := (!endsPackages ·)) (l := dirs)
  have hfront : ∀ s ∈ dirs.takeWhile (!endsPackages ·), endsPackages s = false := by
    intro s hs
    simpa using List.mem_takeWhile_imp hs
  have hends : ∀ d more, dirs.dropWhile (!endsPackages ·) = d :: more → endsPackages d = true := by
    intro d more h
    have hd := List.head?_dropWhile_not (!endsPackages ·) dirs
    rw [h] at hd
    simpa using hd
  refine ⟨fun h => ?_, fun d h => ?_, fun d next more h => ?_⟩
  · rw [← hsplit, h, List.append_nil, readPkg_append hfront]
  · rw [← hsplit, h, List.append_assoc, List.singleton_append, readPkg_append hfront, readPkg, if_pos (hends d _ h)]
    rfl
  · rw [← hsplit, h, List.append_assoc, List.cons_append, List.cons_append, readPkg_append hfront, readPkg,
      if_pos (hends d _ h)]
    cases more <;> rfl

theorem readPkg_iff_readable {root : Bytes} {u : UnitFile} (hkind : u.kind = .flow) (hpkg : ∀ p, u.pkg = some p → p ≠ []) :
    readPkg (segsOf root u) = u.pkgName ↔ Readable root u := by
  unfold segsOf Readable
  rcases path_flow hkind with ⟨hnone, hpath⟩ | ⟨p, hsome, hpath⟩
  · have hname : u.pkgName = "default" := by rw [UnitFile.pkgName, hnone]; rfl
    rw [hpath, hname]
    obtain ⟨hbelow, hlast, hinside⟩ := readPkg_root (rootSegs root) "flows" (textOf u.file) []
    split
    next hdrop =>
      rw [hbelow hdrop, hnone]
      exact iff_of_true rfl fun p hp => by cases hp
    next d hdrop =>
      rw [hlast d hdrop]
      exact iff_of_false (by decide) id
    next d next more hdrop => rw [hinside d next more hdrop]
  · have hname : u.pkgName = textOf p := by rw [UnitFile.pkgName, hsome]; rfl
    rw [hpath, hname]
    obtain ⟨hbelow, hlast, hinside⟩ := readPkg_root (rootSegs root) "packages" (textOf p) ["flows", textOf u.file]
    split
    next hdrop =>
      have hread : readPkg ["packages", textOf p, "flows", textOf u.file] = dropPackages (textOf p) := rfl
      rw [hbelow hdrop, hread, dropPackages_eq_self_iff, hsome]
      exact ⟨fun h q hq => by cases hq; exact h, fun h => h p rfl⟩
    next d hdrop =>
      rw [hlast d hdrop]
      exact iff_of_false (fun h => textOf_ne_empty (hpkg p hsome) (h.symm.trans (by decide))) id
    next d next more hdrop => rw [hinside d next more hdrop]

theorem textOf_slash (x n : Bytes) : textOf (x ++ slash :: n) = textOf x ++ "/" ++ textOf n := by
  rw [← String.toList_inj, textOf_append_ascii x (by decide), String.toList_append, String.toList_append, List.append_assoc]
  rfl

theorem IsName.notMem_text {n : Bytes} (h : IsName n) : '/' ∉ (textOf n).toList := by
  intro hmem
  unfold textOf at hmem
  rw [String.toList_ofList] at hmem
  exact h.2 (mem_of_mem_decodeLossy hmem (by decide) (by decide))

theorem IsName.getLast?_append {n : Bytes} (h : IsName n) (x : Bytes) : (x ++ n).getLast? ≠ some slash := by
  rw [List.getLast?_append_of_ne_nil x h.1]
  intro hlast
  exact h.2 (List.mem_of_getLast? hlast)

theorem segments_of_notMem {seg : String} (h : '/' ∉ seg.toList) : segments seg = [seg] := by
  have hjoin := @split_join "/" '/' rfl [seg] (List.cons_ne_nil _ _) fun p hp => by rwa [List.mem_singleton.mp hp]
  rwa [join_singleton] at hjoin

theorem segments_textOf_slash (x : Bytes) {n : Bytes} (h : IsName n) :
    segments (textOf (x ++ slash :: n)) = segments (textOf x) ++ [textOf n] := by
  rw [textOf_slash]
  unfold segments
  rw [split_append rfl]
  exact congrArg _ (segments_of_notMem h.notMem_text)

theorem rootSegs_pushName (path : Bytes) {n : Bytes} (h : IsName n) :
    rootSegs (pushName path n) = rootSegs path ++ [textOf n] := by
  unfold pushName
  split
  next hnil =>
    have hlast : n.getLast? ≠ some slash := h.getLast?_append []
    rw [hnil, rootSegs, rootSegs, if_neg h.1, if_neg hlast, if_pos rfl, List.nil_append]
    exact segments_of_notMem h.notMem_text
  next hne =>
    split
    next hslash =>
      obtain ⟨x, rfl⟩ : ∃ x, path = x ++ [slash] := ⟨path.dropLast, (List.dropLast_append_getLast? _ hslash).symm⟩
      have hlast := h.getLast?_append (x ++ [slash])
      rw [rootSegs, rootSegs, if_neg hlast, if_neg (by simp), if_neg hne, if_pos hslash, List.dropLast_concat,
        List.append_assoc, List.singleton_append, segments_textOf_slash x h]
    next hslash =>
      have hlast := h.getLast?_append (path ++ [slash])
      rw [List.append_assoc, List.singleton_append] at hlast
      rw [rootSegs, rootSegs, if_neg hlast, if_neg (by simp), if_neg hne, if_neg hslash, segments_textOf_slash path h]

theorem rootSegs_foldl (names : List Bytes) (h : ∀ n ∈ names, IsName n) (root : Bytes) :
    rootSegs (names.foldl pushName root) = rootSegs root ++ names.map textOf := by
  induction names generalizing root with
  | nil => rw [List.foldl_nil, List.map_nil, List.append_nil]
  | cons n names ih =>
    rw [List.foldl_cons, ih (fun m hm => h m (List.mem_cons_of_mem _ hm)), rootSegs_pushName root (h n (List.mem_cons_self ..)),
      List.append_assoc, List.singleton_append, List.map_cons]

theorem pushName_last (path : Bytes) {n : Bytes} (h : IsName n) : pushName path n ≠ [] ∧ (pushName path n).getLast? ≠ some slash := by
  unfold pushName
  split
  · exact ⟨h.1, h.getLast?_append []⟩
  · split
    · exact ⟨by simp [h.1], h.getLast?_append path⟩
    · have hlast := h.getLast?_append (path ++ [slash])
      rw [List.append_assoc, List.singleton_append] at hlast
      exact ⟨by simp, hlast⟩

theorem textOf_foldl (names : List Bytes) {n : Bytes} (h : ∀ m ∈ names ++ [n], IsName m) (root : Bytes) :
    textOf ((names ++ [n]).foldl pushName root) = join "/" (rootSegs root ++ (names ++ [n]).map textOf) := by
  rw [← rootSegs_foldl _ h, List.foldl_append, List.foldl_cons, List.foldl_nil]
  obtain ⟨hne, hlast⟩ := pushName_last (names.foldl pushName root) (h n (List.mem_append_right _ (List.mem_singleton_self n)))
  rw [rootSegs, if_neg hne, if_neg hlast]
  exact (join_split rfl _).symm

theorem notMem_rootSegs (root : Bytes) : ∀ s ∈ rootSegs root, '/' ∉ s.toList := by
  intro s hs
  unfold rootSegs at hs
  split at hs
  · cases hs
  · exact notMem_of_mem_split rfl hs

theorem fileName_join {segs : List String} {file : String} (h : ∀ s ∈ segs ++ [file], '/' ∉ s.toList)
    (hvjs : endsWith file ".vjs" = true) : fileName (join "/" (segs ++ [file])) = some file := by
  have hlen : 4 ≤ file.toList.length := (List.isSuffixOf_iff_suffix.mp hvjs).length_le
  have hreal : isTrivial file = false := by
    rw [← Bool.not_eq_true]
    intro htrivial
    rcases Bool.or_eq_true_iff.mp htrivial with hempty | hdot
    · rw [beq_iff_eq.mp hempty] at hlen
      exact absurd hlen (by decide)
    · rw [beq_iff_eq.mp hdot] at hlen
      exact absurd hlen (by decide)
  refine fileName_eq (split_join rfl (by simp) h) hreal ?_
  rintro rfl
  exact absurd hlen (by decide)

theorem split_dot_eq_singleton_iff (x : String) : split x "." = [""] ↔ x = "" := by
  constructor
  · intro h
    rw [← @join_split "." '.' rfl x, h]
    rfl
  · rintro rfl
    rfl

theorem fileStem_vjs {path x : String} (h : fileName path = some (x ++ ".vjs")) :
    fileStem path = some (if x = "" then ".vjs" else x) := by
  have hsplit : split (x ++ ".vjs") "." = split x "." ++ ["vjs"] := by
    rw [show x ++ ".vjs" = x ++ "." ++ "vjs" from by rw [String.append_assoc]; rfl, split_append rfl]
    rfl
  unfold fileStem
  rw [h, Option.map_some, hsplit, List.reverse_append, List.reverse_singleton, List.singleton_append]
  cases hrev : (split x ".").reverse with
  | nil => exact absurd (List.reverse_eq_nil_iff.mp hrev) (split_ne_nil (by decide) x)
  | cons f fs =>
    have hfront : f :: fs = [""] ↔ x = "" := by
      rw [← hrev, ← split_dot_eq_singleton_iff, List.reverse_eq_iff]
      rfl
    dsimp only
    rw [← hrev, List.reverse_reverse, join_split rfl, hrev]
    by_cases hx : x = ""
    · rw [if_pos (hfront.mpr hx), if_pos hx, hx]
      rfl
    · rw [if_neg fun he => hx (hfront.mp he), if_neg hx]

theorem length_trimStartMatches_le (pre : List Char) (n : Nat) (cs : List Char) :
    (trimStartMatches pre n cs).length ≤ cs.length := by
  induction n generalizing cs with
  | zero => exact Nat.le_refl _
  | succ n ih =>
    rw [trimStartMatches]
    split
    · exact Nat.le_trans (ih _) (by rw [List.length_drop]; exact Nat.sub_le _ _)
    · exact Nat.le_refl _

theorem trimStartMatches_append (pre : List Char) (n : Nat) (cs : List Char) :
    trimStartMatches pre (n + 1) (pre ++ cs) = trimStartMatches pre n cs := by
  rw [trimStartMatches, if_pos (List.isPrefixOf_iff_prefix.mpr (List.prefix_append _ _)), List.drop_left]

theorem trimEndMatches_vjs (x : String) : trimEndMatches ".vjs" (x ++ ".vjs") = x ↔ endsWith x ".vjs" = false := by
  have hlen : (x ++ ".vjs").toList.length = x.toList.length + 3 + 1 := by
    rw [String.toList_append, List.length_append]
    rfl
  have htrim : (trimEndMatches ".vjs" (x ++ ".vjs")).toList =
      (trimStartMatches ".vjs".toList.reverse (x.toList.length + 3) x.toList.reverse).reverse := by
    unfold trimEndMatches onChars
    rw [String.toList_ofList]
    dsimp only
    rw [hlen, String.toList_append, List.reverse_append, trimStartMatches_append]
  rw [← String.toList_inj, htrim]
  constructor
  · intro h
    rw [← Bool.not_eq_true]
    intro hends
    obtain ⟨front, hfront⟩ := List.isSuffixOf_iff_suffix.mp hends
    have hle := length_trimStartMatches_le ".vjs".toList.reverse (x.toList.length + 2) front.reverse
    have heq := congrArg List.length h
    rw [← hfront, List.reverse_append, trimStartMatches_append, List.length_reverse, List.length_append] at heq
    rw [← hfront, List.length_append, List.length_reverse] at hle
    rw [show ".vjs".toList.length = 4 from rfl] at heq hle
    omega
  · intro h
    rw [trimStartMatches, if_neg, List.reverse_reverse]
    rw [List.isPrefixOf_iff_prefix, List.reverse_prefix, ← List.isSuffixOf_iff_suffix]
    intro hends
    unfold endsWith at h
    rw [h] at hends
    cases hends

theorem endsWith_twice (x : String) : endsWith (x ++ ".vjs") ".vjs.vjs" = endsWith x ".vjs" := by
  unfold endsWith
  rw [Bool.eq_iff_iff, List.isSuffixOf_iff_suffix, List.isSuffixOf_iff_suffix, String.toList_append,
    show ".vjs.vjs".toList = ".vjs".toList ++ ".vjs".toList from rfl]
  constructor
  · rintro ⟨front, hfront⟩
    rw [← List.append_assoc] at hfront
    exact ⟨front, List.append_cancel_right hfront⟩
  · rintro ⟨front, hfront⟩
    exact ⟨front, by rw [← List.append_assoc, hfront]⟩

theorem stem_eq_iff {path file : String} (h : fileName path = some file) (hvjs : endsWith file ".vjs" = true) :
    (fileStem path).getD "" = trimEndMatches ".vjs" file ↔ file ≠ ".vjs" ∧ endsWith file ".vjs.vjs" = false := by
  obtain ⟨front, hfront⟩ := List.isSuffixOf_iff_suffix.mp hvjs
  obtain ⟨x, rfl⟩ : ∃ x, file = x ++ ".vjs" :=
    ⟨String.ofList front, by rw [← String.toList_inj, String.toList_append, String.toList_ofList, hfront]⟩
  rw [fileStem_vjs h, Option.getD_some]
  by_cases hx : x = ""
  · rw [if_pos hx, hx]
    exact iff_of_false (by decide) fun hne => hne.1 rfl
  · have hne : x ++ ".vjs" ≠ ".vjs" := by
      intro heq
      have hlen := congrArg (·.toList.length) heq
      rw [String.toList_append, List.length_append, Nat.add_eq_right, List.length_eq_zero_iff] at hlen
      exact hx (String.toList_eq_nil_iff.mp hlen)
    rw [if_neg hx, eq_comm, trimEndMatches_vjs, endsWith_twice]
    exact ⟨fun hends => ⟨hne, hends⟩, And.right⟩

theorem names_eq_iff {path file : String} {pkg : String} :
    flowProcName path = unitName pkg .flow file ∧ pkgOfPath path = pkg ↔
      (fileStem path).getD "" = trimEndMatches ".vjs" file ∧ pkgOfPath path = pkg := by
  refine and_congr_left fun hpkg => ?_
  unfold flowProcName unitName
  rw [hpkg]
  dsimp only [Kind.label, Kind.ext]
  split
  · exact ⟨fun h => String.append_right_inj _ |>.mp h, fun h => by rw [h]; rfl⟩
  · exact ⟨fun h => String.append_right_inj _ |>.mp h, fun h => by rw [h]; rfl⟩

section
variable [External] {tree : Tree} {specs : List Spec}

theorem Tree.Named.path {u : UnitFile} (h : tree.Named) (hu : tree.Serves u) :
    (∀ n ∈ u.path, IsName n) ∧ (∀ p, u.pkg = some p → p ≠ []) ∧ ∃ fname, toStr u.file = some fname ∧ isUnit u.kind fname = true := by
  have hdir : IsName (bytesOf u.kind.dir) := by cases u.kind <;> exact ⟨by decide, by decide⟩
  obtain ⟨pkg, kind, file⟩ := u
  cases pkg with
  | none =>
    obtain ⟨⟨entry, hentry, rfl⟩, hname⟩ := hu
    refine ⟨fun n hn => ?_, fun p hp => (by cases hp), hname⟩
    rcases List.mem_cons.mp hn with rfl | hn
    · exact hdir
    · rw [List.mem_singleton.mp hn]
      exact h.units kind entry hentry
  | some name =>
    obtain ⟨p, hp, rfl, -, -, ⟨entry, hentry, rfl⟩, hname⟩ := hu
    obtain ⟨hpkg, hentries⟩ := h.packages p hp
    refine ⟨fun n hn => ?_, fun q hq => (by cases hq; exact hpkg.1), hname⟩
    rcases List.mem_cons.mp hn with rfl | hn
    · exact ⟨by decide, by decide⟩
    rcases List.mem_cons.mp hn with rfl | hn
    · exact hpkg
    rcases List.mem_cons.mp hn with rfl | hn
    · exact hdir
    · rw [List.mem_singleton.mp hn]
      exact hentries kind entry hentry

theorem pkg_of_behind (h : scanAll tree = .ok specs) {s : Spec} (hs : s ∈ specs) {u : UnitFile} (hu : u.Behind s) :
    s.pkg = u.pkgName := by
  rcases (mem_scanAll h s).mp hs with hroot | ⟨p, -, -, -, hpkg⟩
  · obtain ⟨kind, entry, -, -, rfl⟩ := (mem_scanKinds_iff none tree.units s).mp hroot
    rw [← UnitFile.path_inj hu.2.1]
    rfl
  · obtain ⟨kind, entry, -, -, rfl⟩ := (mem_scanKinds_iff (some p.name) p.units s).mp hpkg
    rw [← UnitFile.path_inj hu.2.1]
    rfl

theorem named_iff (hnamed : tree.Named) {u : UnitFile} (hu : tree.Serves u) (hkind : u.kind = .flow) (root : Bytes) :
    flowProcName (textOf (u.path.foldl pushName root)) = u.name ∧ pkgOfPath (textOf (u.path.foldl pushName root)) = u.pkgName ↔
      Readable root u ∧ textOf u.file ≠ ".vjs" ∧ endsWith (textOf u.file) ".vjs.vjs" = false := by
  obtain ⟨hnames, hpkg, fname, hfname, hunit⟩ := hnamed.path hu
  have hvjs : endsWith (textOf u.file) ".vjs" = true := by
    rw [← toStr_some hfname]
    rw [hkind, isUnit, Bool.and_eq_true] at hunit
    exact hunit.2
  obtain ⟨dirs, hdirs⟩ : ∃ dirs, u.path = dirs ++ [u.file] :=
    ⟨(u.pkg.map packageDir).getD [] ++ [bytesOf u.kind.dir], by rw [UnitFile.path, List.append_assoc]; rfl⟩
  have htext : textOf (u.path.foldl pushName root) = join "/" (segsOf root u) := by
    rw [segsOf, hdirs]
    rw [hdirs] at hnames
    exact textOf_foldl dirs hnames root
  have hslash : ∀ s ∈ segsOf root u, '/' ∉ s.toList := by
    intro s hs
    rcases List.mem_append.mp hs with hs | hs
    · exact notMem_rootSegs root s hs
    · obtain ⟨n, hn, rfl⟩ := List.mem_map.mp hs
      exact (hnames n hn).notMem_text
  have hfile : fileName (join "/" (segsOf root u)) = some (textOf u.file) := by
    have hsegs : segsOf root u = rootSegs root ++ dirs.map textOf ++ [textOf u.file] := by
      rw [segsOf, hdirs, List.map_append, List.append_assoc]
      rfl
    rw [hsegs] at hslash ⊢
    exact fileName_join hslash hvjs
  have hname : u.name = unitName u.pkgName .flow (textOf u.file) := by rw [UnitFile.name, hkind]
  rw [htext, hname, names_eq_iff, stem_eq_iff hfile hvjs, pkgOfPath_join hslash, readPkg_iff_readable hkind hpkg, and_comm]

/-- Every flow file has one name exactly if, for each, what the search for `packages/` finds is its
package and the file is no bare or double extension. -/
theorem one_name_iff (h : scanAll tree = .ok specs) (hnamed : tree.Named) (root : Bytes) :
    OneName root specs ↔ ∀ u, tree.Serves u → u.kind = .flow →
      Readable root u ∧ textOf u.file ≠ ".vjs" ∧ endsWith (textOf u.file) ".vjs.vjs" = false := by
  obtain ⟨hfrom, hall⟩ := scanAll_serves h
  constructor
  · intro hone u hu hkind
    obtain ⟨s, hs, hbehind⟩ := hall u hu
    have heq := hone s hs (hbehind.2.2.trans hkind)
    rw [Spec.display, hbehind.1, hbehind.2.1, pkg_of_behind h hs hbehind] at heq
    exact (named_iff hnamed hu hkind root).mp heq
  · intro hcond s hs hkind
    obtain ⟨u, hu, hbehind⟩ := hfrom s hs
    have hkind' : u.kind = .flow := hbehind.2.2.symm.trans hkind
    rw [Spec.display, hbehind.1, hbehind.2.1, pkg_of_behind h hs hbehind]
    exact (named_iff hnamed hu hkind' root).mpr (hcond u hu hkind')

end

theorem named_project {file : String} (h : IsName (bytesOf file)) : (project file).Named := by
  refine ⟨fun kind e he => ?_, fun p hp => ?_⟩
  · cases kind with
    | flow =>
      cases List.mem_singleton.mp he
      exact h
    | connector => cases he
    | detect => cases he
  · cases List.mem_singleton.mp hp
    refine ⟨⟨by decide, by decide⟩, fun kind e he => ?_⟩
    cases kind with
    | flow =>
      cases List.mem_singleton.mp he
      exact ⟨by decide, by decide⟩
    | connector => cases he
    | detect => cases he

theorem one_name_orders :
    ∃ specs, @scanAll ascii (project "orders.vjs") = .ok specs ∧ OneName (bytesOf "/srv/app") specs := by
  have hnamed : (project "orders.vjs").Named := named_project ⟨by decide, by decide⟩
  refine ⟨_, rfl, (@one_name_iff ascii (project "orders.vjs") _ rfl hnamed _).mpr fun u hu _ => ?_⟩
  have hroot : (rootSegs (bytesOf "/srv/app")).dropWhile (!endsPackages ·) = [] := by decide +kernel
  unfold Readable
  rw [hroot]
  obtain rfl | rfl := project_serves hu
  · exact ⟨fun p hp => (by cases hp), by decide +kernel, by decide +kernel⟩
  · exact ⟨fun p hp => (by cases hp; decide +kernel), by decide +kernel, by decide +kernel⟩

/-- Under a root that is itself in a directory `packages`, a flow of the root is taken for one of a
package. -/
theorem one_name_lost_below_packages :
    ∃ specs, @scanAll ascii (project "orders.vjs") = .ok specs ∧ ¬ OneName (bytesOf "/srv/packages/shop") specs := by
  refine ⟨_, rfl, fun hone => ?_⟩
  obtain ⟨-, hall⟩ := @scanAll_serves ascii (project "orders.vjs") _ rfl
  obtain ⟨s, hs, hname, hpath, hkind⟩ := hall ⟨none, .flow, bytesOf "orders.vjs"⟩
    ⟨⟨_, List.mem_singleton_self _, rfl⟩, "orders.vjs", by decide +kernel, by decide +kernel⟩
  have heq := (hone s hs hkind).1
  rw [Spec.display, hpath, hname] at heq
  exact absurd heq (by decide +kernel)

end Vejas.Runtime
