import Mathlib.Data.Bool.AllAny
import Vejas.Governance.World
import Vejas.Vjs.Parser

/-! The unit files of a project tree and the names made from them: the unit's own, its durable
consumer, its version key and its token. All of them squash to one mark, and they are different
exactly while the marks are. -/

namespace Vejas.Runtime
open Rust Vjs Governance

inductive Kind
  | flow
  | connector
  | detect
  deriving DecidableEq

def Kind.label : Kind → String
  | flow => "flow"
  | connector => "connector"
  | detect => "detect"

def Kind.ext : Kind → String
  | flow => ".vjs"
  | connector => ".vjs"
  | detect => ".vpl"

def Kind.dir : Kind → String
  | flow => "flows"
  | connector => "connectors"
  | detect => "detects"

structure Entry where
  name : Bytes
  mtime : Nat

abbrev Listings := Kind → Option (List Entry)

structure Package where
  name : Bytes
  isDir : Bool
  manifest : Option String
  units : Listings

structure Tree where
  units : Listings
  packages : Option (List Package)

/-- `path` holds the components below the project root. -/
structure Spec where
  name : String
  mtime : Nat
  path : List Bytes
  pkg : String
  kind : Kind

def toStr (b : Bytes) : Option String :=
  if bytesOf (textOf b) = b then some (textOf b) else none

def trimEndMatches (ext : String) : String → String :=
  onChars fun cs => (trimStartMatches ext.toList.reverse cs.length cs.reverse).reverse

def unitName (pkg : String) (kind : Kind) (fname : String) : String :=
  let stem := trimEndMatches kind.ext fname
  if pkg = "default" then kind.label ++ ":" ++ stem
  else kind.label ++ ":" ++ pkg ++ ":" ++ stem

def isUnit (kind : Kind) (fname : String) : Bool := !startsWith fname "_" && endsWith fname kind.ext

def scanUnits (dir : List Bytes) (listings : Listings) (pkg : String) (kind : Kind) : List Spec :=
  ((listings kind).getD []).filterMap fun entry =>
    match toStr entry.name with
    | none => none
    | some fname =>
      if isUnit kind fname then
        some ⟨unitName pkg kind fname, entry.mtime, dir ++ [bytesOf kind.dir, entry.name], pkg, kind⟩
      else none

def scanKinds (dir : List Bytes) (listings : Listings) (pkg : String) : List Spec :=
  scanUnits dir listings pkg .flow ++ scanUnits dir listings pkg .connector ++
    scanUnits dir listings pkg .detect

section
variable [External]

def packageEnabled (p : Package) : Except Fault Bool :=
  match p.manifest with
  | none => .ok true
  | some src =>
    match parse src with
    | .ok prog =>
      match prog.surface.find? (·.name == "ENABLED") with
      | some e => .ok (e.value.asBool.getD true)
      | none => .ok true
    | .error (.err _) => .ok true
    -- a panic of the parser ends the scan
    | .error f => .error f

def packageDir (name : Bytes) : List Bytes := [bytesOf "packages", name]

def scanPackage (p : Package) : Except Fault (List Spec) :=
  if !p.isDir then .ok []
  else do
    if ← packageEnabled p then .ok (scanKinds (packageDir p.name) p.units (textOf p.name))
    else .ok []

def scanPackages : List Package → Except Fault (List Spec)
  | [] => .ok []
  | p :: ps => do
    let here ← scanPackage p
    let rest ← scanPackages ps
    .ok (here ++ rest)

def scanAll (tree : Tree) : Except Fault (List Spec) := do
  let inPackages ← scanPackages (tree.packages.getD [])
  .ok ((scanKinds [] tree.units "default" ++ inPackages).mergeSort fun a b => !strLt b.name a.name)

end

def replaceAny (chars : List Char) (s : String) : String :=
  onChars (·.map fun c => if chars.contains c then '_' else c) s

def Spec.durable (s : Spec) : String :=
  match s.kind with
  | .flow | .detect => replaceAny [':', '.'] s.name
  | .connector => replaceAny [':', '.', '-'] s.name

def dlqUnitToken (unit : String) : String := keyOf unit

/-- Different files have different names, and different names have different durables, keys and
tokens. -/
def Distinct (specs : List Spec) : Prop :=
  (∀ s ∈ specs, ∀ t ∈ specs, s.path ≠ t.path → s.name ≠ t.name) ∧
  ∀ s ∈ specs, ∀ t ∈ specs, s.name ≠ t.name →
    s.durable ≠ t.durable ∧ keyOf s.name ≠ keyOf t.name ∧
      dlqUnitToken s.name ≠ dlqUnitToken t.name

structure UnitFile where
  pkg : Option Bytes
  kind : Kind
  file : Bytes
  deriving DecidableEq

def squash (c : Char) : Char := if isAsciiAlphanumeric c || c == '_' then c else '_'

/-- Package and stem, with `_` for all but ASCII letters and digits; the root and a package called
`default` leave no trace. -/
def UnitFile.mark (u : UnitFile) : List Char :=
  let stem := (trimEndMatches u.kind.ext (textOf u.file)).toList.map squash
  match u.pkg with
  | none => stem
  | some p => if textOf p = "default" then stem else (textOf p).toList.map squash ++ '_' :: stem

def Listings.Lists (listings : Listings) (kind : Kind) (file : Bytes) : Prop :=
  (∃ entry ∈ (listings kind).getD [], entry.name = file) ∧
    ∃ fname, toStr file = some fname ∧ isUnit kind fname = true

section
variable [External]

/-- The tree has the file in a directory that is scanned. -/
def Tree.Serves (tree : Tree) (u : UnitFile) : Prop :=
  match u.pkg with
  | none => tree.units.Lists u.kind u.file
  | some name => ∃ p ∈ tree.packages.getD [], p.name = name ∧ p.isDir = true ∧
      packageEnabled p = .ok true ∧ p.units.Lists u.kind u.file

end

theorem keyOf_toList (name : String) : (keyOf name).toList = name.toList.map squash :=
  String.toList_ofList

theorem squash_replaced (chars : List Char) (h : ∀ c ∈ chars, squash c = '_') (c : Char) :
    squash (if chars.contains c then '_' else c) = squash c := by
  split
  · rename_i hc
    rw [h c (List.contains_iff_mem.mp hc)]
    rfl
  · rfl

theorem keyOf_replaceAny {chars : List Char} (h : ∀ c ∈ chars, squash c = '_') (s : String) :
    keyOf (replaceAny chars s) = keyOf s := by
  apply String.toList_injective
  rw [keyOf_toList, keyOf_toList]
  unfold replaceAny onChars
  rw [String.toList_ofList, List.map_map]
  exact List.map_congr_left fun c _ => squash_replaced chars h c

theorem keyOf_durable (s : Spec) : keyOf s.durable = keyOf s.name := by
  unfold Spec.durable
  cases s.kind with
  | flow => exact keyOf_replaceAny (List.all_iff_forall_prop.mp (by decide)) s.name
  | connector => exact keyOf_replaceAny (List.all_iff_forall_prop.mp (by decide)) s.name
  | detect => exact keyOf_replaceAny (List.all_iff_forall_prop.mp (by decide)) s.name

theorem distinct_iff {specs : List Spec}
    (hpath : ∀ s ∈ specs, ∀ t ∈ specs, s.path = t.path → s.name = t.name) :
    Distinct specs ↔ ∀ s ∈ specs, ∀ t ∈ specs, keyOf s.name = keyOf t.name → s.path = t.path := by
  constructor
  · rintro ⟨hnames, hkeys⟩ s hs t ht hkey
    have hname : s.name = t.name :=
      Decidable.byContradiction fun hne => (hkeys s hs t ht hne).2.1 hkey
    exact Decidable.byContradiction fun hne => hnames s hs t ht hne hname
  · intro h
    refine ⟨fun s hs t ht hne hname => hne (h s hs t ht (congrArg keyOf hname)), ?_⟩
    intro s hs t ht hne
    have hkey : keyOf s.name ≠ keyOf t.name := fun hkey => hne (hpath s hs t ht (h s hs t ht hkey))
    refine ⟨fun hdurable => hkey ?_, hkey, hkey⟩
    rw [← keyOf_durable s, ← keyOf_durable t, hdurable]

namespace UnitFile

def pkgName (u : UnitFile) : String := (u.pkg.map textOf).getD "default"

def name (u : UnitFile) : String := unitName u.pkgName u.kind (textOf u.file)

def path (u : UnitFile) : List Bytes :=
  (u.pkg.map packageDir).getD [] ++ [bytesOf u.kind.dir, u.file]

def Behind (u : UnitFile) (s : Spec) : Prop := s.name = u.name ∧ s.path = u.path ∧ s.kind = u.kind

theorem dir_inj {k l : Kind} (h : bytesOf k.dir = bytesOf l.dir) : k = l := by
  revert h
  cases k <;> cases l <;> decide

theorem path_inj {u v : UnitFile} (h : u.path = v.path) : u = v := by
  obtain ⟨p, k, f⟩ := u
  obtain ⟨q, l, g⟩ := v
  unfold path packageDir at h
  cases p with
  | none =>
    cases q with
    | none =>
      simp only [Option.map_none, Option.getD_none, List.nil_append, List.cons.injEq, and_true] at h
      rw [dir_inj h.1, h.2]
    | some q => simp at h
  | some p =>
    cases q with
    | none => simp at h
    | some q =>
      simp only [Option.map_some, Option.getD_some, List.cons_append, List.nil_append,
        List.cons.injEq, and_true, true_and] at h
      rw [h.1, dir_inj h.2.1, h.2.2]

theorem squash_colon : List.map squash ":".toList = ['_'] := by decide

theorem keyOf_name (u : UnitFile) :
    (keyOf u.name).toList = u.kind.label.toList.map squash ++ '_' :: u.mark := by
  rw [keyOf_toList]
  unfold name unitName mark pkgName
  cases u.pkg with
  | none =>
    simp only [Option.map_none, Option.getD_none, if_true, String.toList_append, List.map_append,
      squash_colon, List.append_assoc, List.singleton_append]
  | some p =>
    simp only [Option.map_some, Option.getD_some]
    split
    · simp only [String.toList_append, List.map_append, squash_colon, List.append_assoc,
        List.singleton_append]
    · simp only [String.toList_append, List.map_append, squash_colon, List.append_assoc,
        List.singleton_append]

theorem head?_label_append (k : Kind) (cs : List Char) :
    (k.label.toList.map squash ++ cs).head? = (k.label.toList.map squash).head? := by
  rw [List.head?_append]
  cases k <;> rfl

theorem label_head_inj {k l : Kind}
    (h : (k.label.toList.map squash).head? = (l.label.toList.map squash).head?) : k = l := by
  revert h
  cases k <;> cases l <;> decide

theorem keyOf_name_iff (u v : UnitFile) :
    keyOf u.name = keyOf v.name ↔ u.kind = v.kind ∧ u.mark = v.mark := by
  rw [← String.toList_inj, keyOf_name, keyOf_name]
  constructor
  · intro h
    have hkind : u.kind = v.kind := by
      apply label_head_inj
      rw [← head?_label_append u.kind, h, head?_label_append]
    rw [hkind] at h
    exact ⟨hkind, List.tail_eq_of_cons_eq (List.append_cancel_left h)⟩
  · rintro ⟨hkind, hmark⟩
    rw [hkind, hmark]

end UnitFile

theorem toStr_some {b : Bytes} {s : String} (h : toStr b = some s) : s = textOf b := by
  unfold toStr at h
  split at h
  · exact (Option.some.inj h).symm
  · cases h

theorem mem_scanUnits (dir : List Bytes) (listings : Listings) (pkg : String) (kind : Kind) (s : Spec) :
    s ∈ scanUnits dir listings pkg kind ↔ ∃ entry ∈ (listings kind).getD [],
      listings.Lists kind entry.name ∧ s = ⟨unitName pkg kind (textOf entry.name), entry.mtime,
        dir ++ [bytesOf kind.dir, entry.name], pkg, kind⟩ := by
  unfold scanUnits
  rw [List.mem_filterMap]
  refine exists_congr fun entry => and_congr_right fun hmem => ?_
  unfold Listings.Lists
  cases hstr : toStr entry.name with
  | none => simp
  | some fname =>
    rw [← toStr_some hstr]
    dsimp only
    split
    · rename_i hunit
      constructor
      · intro h
        exact ⟨⟨⟨entry, hmem, rfl⟩, fname, rfl, hunit⟩, (Option.some.inj h).symm⟩
      · rintro ⟨-, rfl⟩
        rfl
    · rename_i hunit
      constructor
      · intro h
        cases h
      · rintro ⟨⟨-, f, hf, hu⟩, -⟩
        cases hf
        exact absurd hu hunit

theorem mem_scanKinds (dir : List Bytes) (listings : Listings) (pkg : String) (s : Spec) :
    s ∈ scanKinds dir listings pkg ↔ ∃ kind, s ∈ scanUnits dir listings pkg kind := by
  unfold scanKinds
  rw [List.mem_append, List.mem_append]
  constructor
  · rintro ((h | h) | h)
    · exact ⟨_, h⟩
    · exact ⟨_, h⟩
    · exact ⟨_, h⟩
  · rintro ⟨kind, h⟩
    cases kind with
    | flow => exact .inl (.inl h)
    | connector => exact .inl (.inr h)
    | detect => exact .inr h

theorem mem_scanKinds_iff (pkg : Option Bytes) (listings : Listings) (s : Spec) :
    s ∈ scanKinds ((pkg.map packageDir).getD []) listings ((pkg.map textOf).getD "default") ↔
      ∃ kind, ∃ entry ∈ (listings kind).getD [], listings.Lists kind entry.name ∧
        s = ⟨(UnitFile.mk pkg kind entry.name).name, entry.mtime,
          (UnitFile.mk pkg kind entry.name).path, (pkg.map textOf).getD "default", kind⟩ := by
  rw [mem_scanKinds]
  exact exists_congr fun kind => mem_scanUnits _ _ _ kind s

section
variable [External]

theorem mem_scanPackage {p : Package} {specs : List Spec} (h : scanPackage p = .ok specs) (s : Spec) :
    s ∈ specs ↔ p.isDir = true ∧ packageEnabled p = .ok true ∧
      s ∈ scanKinds (packageDir p.name) p.units (textOf p.name) := by
  unfold scanPackage at h
  cases hdir : p.isDir with
  | false =>
    rw [hdir] at h
    cases h
    simp
  | true =>
    rw [hdir] at h
    cases hen : packageEnabled p with
    | error f =>
      rw [hen] at h
      cases h
    | ok b =>
      rw [hen] at h
      cases b with
      | false =>
        cases h
        simp
      | true =>
        cases h
        simp

theorem mem_scanPackages {ps : List Package} {specs : List Spec} (h : scanPackages ps = .ok specs)
    (s : Spec) :
    s ∈ specs ↔ ∃ p ∈ ps, p.isDir = true ∧ packageEnabled p = .ok true ∧
      s ∈ scanKinds (packageDir p.name) p.units (textOf p.name) := by
  induction ps generalizing specs with
  | nil =>
    cases h
    simp
  | cons p ps ih =>
    unfold scanPackages at h
    cases hhere : scanPackage p with
    | error f =>
      rw [hhere] at h
      cases h
    | ok here =>
      rw [hhere] at h
      cases hrest : scanPackages ps with
      | error f =>
        rw [hrest] at h
        cases h
      | ok rest =>
        rw [hrest] at h
        cases h
        rw [List.mem_append, mem_scanPackage hhere, ih hrest]
        simp

theorem mem_scanAll {tree : Tree} {specs : List Spec} (h : scanAll tree = .ok specs) (s : Spec) :
    s ∈ specs ↔ s ∈ scanKinds [] tree.units "default" ∨ ∃ p ∈ tree.packages.getD [],
      p.isDir = true ∧ packageEnabled p = .ok true ∧
        s ∈ scanKinds (packageDir p.name) p.units (textOf p.name) := by
  unfold scanAll at h
  cases hpkgs : scanPackages (tree.packages.getD []) with
  | error f =>
    rw [hpkgs] at h
    cases h
  | ok inPackages =>
    rw [hpkgs] at h
    cases h
    rw [List.mem_mergeSort, List.mem_append, mem_scanPackages hpkgs]

/-- A scan returns the files of the tree that are served, and nothing else. -/
theorem scanAll_serves {tree : Tree} {specs : List Spec} (h : scanAll tree = .ok specs) :
    (∀ s ∈ specs, ∃ u, tree.Serves u ∧ u.Behind s) ∧
      ∀ u, tree.Serves u → ∃ s ∈ specs, u.Behind s := by
  constructor
  · intro s hs
    obtain hroot | ⟨p, hp, hdir, hen, hpkg⟩ := (mem_scanAll h s).mp hs
    · obtain ⟨kind, entry, -, hlists, rfl⟩ := (mem_scanKinds_iff none tree.units s).mp hroot
      exact ⟨⟨none, kind, entry.name⟩, hlists, rfl, rfl, rfl⟩
    · obtain ⟨kind, entry, -, hlists, rfl⟩ := (mem_scanKinds_iff (some p.name) p.units s).mp hpkg
      exact ⟨⟨some p.name, kind, entry.name⟩, ⟨p, hp, rfl, hdir, hen, hlists⟩, rfl, rfl, rfl⟩
  · rintro ⟨pkg, kind, file⟩ hserves
    cases pkg with
    | none =>
      obtain ⟨⟨entry, hentry, rfl⟩, hname⟩ := hserves
      refine ⟨_, (mem_scanAll h _).mpr (.inl ((mem_scanKinds_iff none tree.units _).mpr
        ⟨kind, entry, hentry, ⟨⟨entry, hentry, rfl⟩, hname⟩, rfl⟩)), rfl, rfl, rfl⟩
    | some name =>
      obtain ⟨p, hp, rfl, hdir, hen, ⟨entry, hentry, rfl⟩, hname⟩ := hserves
      refine ⟨_, (mem_scanAll h _).mpr (.inr ⟨p, hp, hdir, hen,
        (mem_scanKinds_iff (some p.name) p.units _).mpr
          ⟨kind, entry, hentry, ⟨⟨entry, hentry, rfl⟩, hname⟩, rfl⟩⟩), rfl, rfl, rfl⟩

/-- Units are kept apart exactly if no two files of one kind have the same mark. -/
theorem units_distinct_iff {tree : Tree} {specs : List Spec} (h : scanAll tree = .ok specs) :
    Distinct specs ↔ ∀ u v, tree.Serves u → tree.Serves v → u.kind = v.kind → u.mark = v.mark →
      u = v := by
  obtain ⟨hfrom, hall⟩ := scanAll_serves h
  have hpath : ∀ s ∈ specs, ∀ t ∈ specs, s.path = t.path → s.name = t.name := by
    intro s hs t ht heq
    obtain ⟨u, -, hu⟩ := hfrom s hs
    obtain ⟨v, -, hv⟩ := hfrom t ht
    rw [hu.2.1, hv.2.1] at heq
    rw [hu.1, hv.1, UnitFile.path_inj heq]
  rw [distinct_iff hpath]
  constructor
  · intro hspecs u v hu hv hkind hmark
    obtain ⟨s, hs, hbs⟩ := hall u hu
    obtain ⟨t, ht, hbt⟩ := hall v hv
    have hkey : keyOf s.name = keyOf t.name := by
      rw [hbs.1, hbt.1]
      exact (UnitFile.keyOf_name_iff u v).mpr ⟨hkind, hmark⟩
    have heq := hspecs s hs t ht hkey
    rw [hbs.2.1, hbt.2.1] at heq
    exact UnitFile.path_inj heq
  · intro hfiles s hs t ht hkey
    obtain ⟨u, hu, hbs⟩ := hfrom s hs
    obtain ⟨v, hv, hbt⟩ := hfrom t ht
    rw [hbs.1, hbt.1] at hkey
    obtain ⟨hkind, hmark⟩ := (UnitFile.keyOf_name_iff u v).mp hkey
    rw [hbs.2.1, hbt.2.1, hfiles u v hu hv hkind hmark]

end

def project (root : String) : Tree where
  units
    | .flow => some [⟨bytesOf root, 0⟩]
    | _ => none
  packages := some [⟨bytesOf "a", true, none, fun
    | .flow => some [⟨bytesOf "b.vjs", 0⟩]
    | _ => none⟩]

theorem project_serves {root : String} {u : UnitFile} (h : @Tree.Serves ascii (project root) u) :
    u = ⟨none, .flow, bytesOf root⟩ ∨ u = ⟨some (bytesOf "a"), .flow, bytesOf "b.vjs"⟩ := by
  obtain ⟨pkg, kind, file⟩ := u
  cases pkg with
  | none =>
    obtain ⟨⟨entry, hentry, rfl⟩, -⟩ := h
    cases kind with
    | flow =>
      cases List.mem_singleton.mp hentry
      exact .inl rfl
    | connector => cases hentry
    | detect => cases hentry
  | some name =>
    obtain ⟨p, hp, rfl, -, -, ⟨entry, hentry, rfl⟩, -⟩ := h
    cases List.mem_singleton.mp hp
    cases kind with
    | flow =>
      cases List.mem_singleton.mp hentry
      exact .inr rfl
    | connector => cases hentry
    | detect => cases hentry

theorem units_distinct_orders :
    ∃ specs, @scanAll ascii (project "orders.vjs") = .ok specs ∧ Distinct specs := by
  refine ⟨_, rfl, (@units_distinct_iff ascii (project "orders.vjs") _ rfl).mpr fun u v hu hv _ hmark => ?_⟩
  have hne : UnitFile.mark ⟨none, .flow, bytesOf "orders.vjs"⟩ ≠
      UnitFile.mark ⟨some (bytesOf "a"), .flow, bytesOf "b.vjs"⟩ := by decide +kernel
  obtain rfl | rfl := project_serves hu
  · obtain rfl | rfl := project_serves hv
    · rfl
    · exact absurd hmark hne
  · obtain rfl | rfl := project_serves hv
    · exact absurd hmark.symm hne
    · rfl

/-- `flows/a_b.vjs` and `packages/a/flows/b.vjs` share a durable, a version key and a token. -/
theorem units_share_a_key :
    ∃ specs, @scanAll ascii (project "a_b.vjs") = .ok specs ∧ ¬ Distinct specs := by
  refine ⟨_, rfl, fun hdistinct => ?_⟩
  obtain ⟨-, hall⟩ := @scanAll_serves ascii (project "a_b.vjs") _ rfl
  obtain ⟨s, hs, hname, -⟩ := hall ⟨none, .flow, bytesOf "a_b.vjs"⟩
    ⟨⟨_, List.mem_singleton_self _, rfl⟩, "a_b.vjs", by decide +kernel, by decide +kernel⟩
  obtain ⟨t, ht, hname', -⟩ := hall ⟨some (bytesOf "a"), .flow, bytesOf "b.vjs"⟩
    ⟨_, List.mem_singleton_self _, rfl, rfl, rfl, ⟨_, List.mem_singleton_self _, rfl⟩, "b.vjs",
      by decide +kernel, by decide +kernel⟩
  have hne : s.name ≠ t.name := by
    rw [hname, hname']
    decide +kernel
  have hkey : keyOf s.name = keyOf t.name := by
    rw [hname, hname']
    decide +kernel
  exact (hdistinct.2 s hs t ht hne).2.1 hkey

end Vejas.Runtime
