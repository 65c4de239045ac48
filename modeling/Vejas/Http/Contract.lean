import Mathlib
import Vejas.Http.Gate
import Vejas.Json.Reading
import Vejas.Rust.Split

/-! The document of the API beside the routes that answer. The document keeps the last flow of an
operation; a request goes to the first flow whose template it matches. -/

namespace Vejas.Http
open Json Rust Vjs Governance Fallible

def Fits (value : String) : Prop := value ≠ "" ∧ '/' ∉ value.toList

def Seg.fill (values : String → String) : Seg → String
  | lit l => l
  | param p => values p

def Seg.binding (values : String → String) : Seg → Option (String × String)
  | lit _ => none
  | param p => some (p, values p)

def template (path : String) : List Seg := (segsOf path).map segOf

def pathOf (segs : List Seg) : String := "/" ++ join "/" (segs.map Seg.asStr)

def filled (values : String → String) (segs : List Seg) : String := "/" ++ join "/" (segs.map (Seg.fill values))

def bindings (values : String → String) (segs : List Seg) : List (String × String) :=
  segs.filterMap (Seg.binding values)

def demands : List Seg → List Seg → Option (List (String × String))
  | [], [] => some []
  | .lit l :: segs, .lit l' :: segs' => if l = l' then demands segs segs' else none
  | .lit l :: segs, .param p :: segs' => (demands segs segs').map ((p, l) :: ·)
  | .param _ :: segs, _ :: segs' => demands segs segs'
  | _, _ => none

def overlaps (segs segs' : List Seg) : Bool :=
  (demands segs segs').any fun ds => ds.all fun d => ds.all fun d' => d.1 != d'.1 || d.2 == d'.2

def sameOperation (r i : ApiRoute) : Bool := i.method == r.method && i.segs == r.segs

/-- Before the first flow of an operation no other template takes its requests, and the first flow
of it has the name of the last. -/
def Unambiguous (routes : List ApiRoute) : Prop := ∀ r ∈ routes,
  (∀ i ∈ routes.takeWhile (!sameOperation r ·), i.method = r.method → overlaps i.segs r.segs = false) ∧
    (routes.filter (sameOperation r)).head?.map (·.opId) = (routes.filter (sameOperation r)).getLast?.map (·.opId)

def operationId (doc : Value) (path method : String) : Option String := do
  let paths ← doc.get "paths"
  let item ← paths.get path
  let op ← item.get method
  op.text "operationId"

section
variable [External]

/-- The file is a flow of this name, and declares this operation. -/
def FlowOf (site : Site) (root : String) (w : World) (file name method : String) (segs : List Seg) : Prop :=
  ∃ pkg prog, (file, pkg) ∈ vjsFiles site root ∧ (programAt file w).1 = .ok (some prog) ∧ stemOf file = name ∧
    prog.api.bind parseApiSpec = some (method, segs)

def loaded (site : Site) (root : String) (w : World) : List ApiRoute := (apiRoutes site root w).1.toOption.getD []

def Documents (cfg : Settings) (site : Site) (proc : Process) (w : World) (path method name : String) : Prop :=
  ∃ doc, (openapiJson cfg site proc w).1 = .ok doc ∧ operationId doc path method = some name

/-- The document describes what is served: an operation goes to the flow it names, with the
parameters of the path, and what is routed is documented. -/
structure Describes (cfg : Settings) (site : Site) (proc : Process) (w : World) : Prop where
  served : ∀ path method name, Documents cfg site proc w path method name →
    ∀ values : String → String, (∀ p, Fits (values p)) →
      ∃ file, (matchApiRoute cfg site (toAsciiUppercase method) (filled values (template path)) w).1 =
          .ok (some (file, bindings values (template path))) ∧
        FlowOf site cfg.root w file name (toAsciiUppercase method) (template path)
  documented : ∀ method rel file bound, (matchApiRoute cfg site method rel w).1 = .ok (some (file, bound)) →
    ∃ path name, Documents cfg site proc w path (toAsciiLowercase method) name ∧
      matchSegs (template path) (segsOf rel) = some bound

end

def Spelled (segs : List Seg) : Prop := ∀ s ∈ segs, Fits s.asStr ∧ segOf s.asStr = s

theorem between_braces {cs : List Char} (hstart : ['{'] <+: cs) (hend : ['}'] <:+ cs) :
    ['{'] ++ (cs.drop 1).dropLast ++ ['}'] = cs := by
  obtain ⟨rest, rfl⟩ := hstart
  obtain ⟨front, hfront⟩ := hend
  cases front with
  | nil => exact absurd (List.cons.inj hfront).1 (by decide)
  | cons c front =>
    have hrest : rest = front ++ ['}'] := (List.cons.inj hfront).2.symm
    have hmid : ((['{'] ++ rest).drop 1).dropLast = front := by
      rw [hrest]
      exact List.dropLast_concat ..
    rw [hmid, hrest, List.append_assoc]

theorem asStr_segOf (s : String) : (segOf s).asStr = s := by
  unfold segOf
  split
  next h =>
    obtain ⟨hstart, hend⟩ := Bool.and_eq_true_iff.mp h
    have hmid : (onChars (fun cs => (cs.drop 1).dropLast) s).toList = (s.toList.drop 1).dropLast := String.toList_ofList
    rw [← String.toList_inj, Seg.asStr, String.toList_append, String.toList_append, hmid]
    exact between_braces (List.isPrefixOf_iff_prefix.mp hstart) (List.isSuffixOf_iff_suffix.mp hend)
  next => rfl

theorem fits_of_mem_segsOf {path part : String} (h : part ∈ segsOf path) : Fits part := by
  obtain ⟨hsplit, hne⟩ := List.mem_filter.mp h
  exact ⟨by simpa using hne, notMem_of_mem_split rfl hsplit⟩

theorem spelled_template (path : String) : Spelled (template path) := by
  intro s hs
  obtain ⟨part, hpart, rfl⟩ := List.mem_map.mp hs
  rw [asStr_segOf]
  exact ⟨fits_of_mem_segsOf hpart, rfl⟩

theorem segsOf_join {parts : List String} (h : ∀ p ∈ parts, Fits p) : segsOf ("/" ++ join "/" parts) = parts := by
  cases hparts : parts with
  | nil => rfl
  | cons p ps =>
    rw [← hparts]
    have hne : parts ≠ [] := by rw [hparts]; exact List.cons_ne_nil _ _
    obtain ⟨⟨c, cs, hfront, hc⟩, ds, d, hback, hd⟩ := join_ends "/" hne h
    have htrim : trimMatches '/' ("/" ++ join "/" parts) = join "/" parts := by
      have hslash : ("/" ++ join "/" parts).toList = '/' :: (join "/" parts).toList := by
        rw [String.toList_append]
        rfl
      unfold trimMatches onChars
      dsimp only
      rw [hslash, List.dropWhile_cons_of_pos (by simp), hfront, List.dropWhile_cons_of_neg (by simpa using hc),
        ← hfront, hback, List.reverse_append, List.reverse_singleton, List.singleton_append,
        List.dropWhile_cons_of_neg (by simpa using hd), ← List.singleton_append, ← List.reverse_singleton,
        ← List.reverse_append, List.reverse_reverse, ← hback, String.ofList_toList]
    unfold segsOf
    rw [htrim, split_join rfl hne fun p hp => (h p hp).2, List.filter_eq_self]
    intro p hp
    simpa using (h p hp).1

theorem template_pathOf {segs : List Seg} (h : Spelled segs) : template (pathOf segs) = segs := by
  have hparts : ∀ p ∈ segs.map Seg.asStr, Fits p := by
    intro p hp
    obtain ⟨s, hs, rfl⟩ := List.mem_map.mp hp
    exact (h s hs).1
  unfold template pathOf
  rw [segsOf_join hparts, List.map_map]
  calc segs.map (segOf ∘ Seg.asStr) = segs.map id := List.map_congr_left fun s hs => (h s hs).2
    _ = segs := List.map_id segs

theorem Spelled.fits_fill {segs : List Seg} (h : Spelled segs) {values : String → String} (hv : ∀ p, Fits (values p)) :
    ∀ part ∈ segs.map (Seg.fill values), Fits part := by
  intro part hpart
  obtain ⟨s, hs, rfl⟩ := List.mem_map.mp hpart
  cases s with
  | lit l => exact (h _ hs).1
  | param p => exact hv p

theorem segsOf_filled {segs : List Seg} (h : Spelled segs) {values : String → String} (hv : ∀ p, Fits (values p)) :
    segsOf (filled values segs) = segs.map (Seg.fill values) :=
  segsOf_join (h.fits_fill hv)

theorem matchSegs_fill (values : String → String) (segs : List Seg) :
    matchSegs segs (segs.map (Seg.fill values)) = some (bindings values segs) := by
  induction segs with
  | nil => rfl
  | cons s segs ih =>
    cases s with
    | lit l => rw [List.map_cons, Seg.fill, matchSegs, if_pos rfl, ih, bindings, bindings, List.filterMap_cons_none rfl]
    | param p =>
      rw [List.map_cons, Seg.fill, matchSegs, ih]
      rfl

theorem matchSegs_isSome_iff (values : String → String) (segs segs' : List Seg) :
    (matchSegs segs (segs'.map (Seg.fill values))).isSome = true ↔
      ∃ ds, demands segs segs' = some ds ∧ ∀ d ∈ ds, values d.1 = d.2 := by
  induction segs generalizing segs' with
  | nil =>
    cases segs' with
    | nil => simp [matchSegs, demands]
    | cons s' segs' => simp [matchSegs, demands]
  | cons s segs ih =>
    cases segs' with
    | nil => cases s <;> simp [matchSegs, demands]
    | cons s' segs' =>
      cases s with
      | param p =>
        rw [List.map_cons, matchSegs, Option.isSome_map, ih, demands]
      | lit l =>
        rw [List.map_cons, matchSegs]
        cases s' with
        | lit l' =>
          rw [Seg.fill, demands]
          split
          · exact ih segs'
          · simp
        | param p =>
          rw [Seg.fill, demands]
          constructor
          · intro h
            split at h
            next hl =>
              obtain ⟨ds, hds, hv⟩ := (ih segs').mp h
              refine ⟨(p, l) :: ds, by rw [hds, Option.map_some], fun d hd => ?_⟩
              rcases List.mem_cons.mp hd with rfl | hd
              · exact hl.symm
              · exact hv d hd
            · cases h
          · rintro ⟨ds, hds, hv⟩
            obtain ⟨ds', hds', rfl⟩ := Option.map_eq_some_iff.mp hds
            rw [if_pos (hv (p, l) (List.mem_cons_self ..)).symm]
            exact (ih segs').mpr ⟨ds', hds', fun d hd => hv d (List.mem_cons_of_mem _ hd)⟩

theorem lit_of_demands {segs segs' : List Seg} {ds : List (String × String)} (h : demands segs segs' = some ds)
    {d : String × String} (hd : d ∈ ds) : Seg.lit d.2 ∈ segs := by
  induction segs, segs' using demands.induct generalizing ds with
  | case1 =>
    cases h
    cases hd
  | case2 l segs segs' ih =>
    rw [demands, if_pos rfl] at h
    exact List.mem_cons_of_mem _ (ih h hd)
  | case3 l segs l' segs' hne =>
    rw [demands, if_neg hne] at h
    cases h
  | case4 l segs p segs' ih =>
    rw [demands] at h
    obtain ⟨ds', hds', rfl⟩ := Option.map_eq_some_iff.mp h
    rcases List.mem_cons.mp hd with rfl | hd
    · exact List.mem_cons_self ..
    · exact List.mem_cons_of_mem _ (ih hds' hd)
  | case5 p segs s' segs' ih =>
    rw [demands] at h
    exact List.mem_cons_of_mem _ (ih h hd)
  | case6 segs segs' h₁ h₂ h₃ h₄ =>
    rw [demands] at h <;> first | cases h | assumption

theorem overlaps_iff (segs segs' : List Seg) : overlaps segs segs' = true ↔
    ∃ ds, demands segs segs' = some ds ∧ ∀ d ∈ ds, ∀ d' ∈ ds, d.1 = d'.1 → d.2 = d'.2 := by
  unfold overlaps
  rw [Option.any_eq_true]
  refine exists_congr fun ds => and_congr_right fun _ => ?_
  rw [List.all_eq_true]
  refine forall₂_congr fun d _ => ?_
  rw [List.all_eq_true]
  refine forall₂_congr fun d' _ => ?_
  rw [Bool.or_eq_true, bne_iff_ne, beq_iff_eq, or_iff_not_imp_left, not_not]

def meeting (ds : List (String × String)) (p : String) : String := ((ds.find? (·.1 == p)).map (·.2)).getD "x"

theorem fits_x : Fits "x" := ⟨by decide, by decide⟩

theorem fits_meeting {ds : List (String × String)} (h : ∀ d ∈ ds, Fits d.2) (p : String) : Fits (meeting ds p) := by
  unfold meeting
  cases hfind : ds.find? (·.1 == p) with
  | none => exact fits_x
  | some d => exact h d (List.mem_of_find?_eq_some hfind)

theorem meeting_eq {ds : List (String × String)} (h : ∀ d ∈ ds, ∀ d' ∈ ds, d.1 = d'.1 → d.2 = d'.2)
    {d : String × String} (hd : d ∈ ds) : meeting ds d.1 = d.2 := by
  unfold meeting
  cases hfind : ds.find? (·.1 == d.1) with
  | none => exact absurd (List.find?_eq_none.mp hfind d hd) (by simp)
  | some d' =>
    have hkey : d'.1 = d.1 := by simpa using List.find?_some hfind
    exact h d' (List.mem_of_find?_eq_some hfind) d hd hkey

theorem overlaps_iff_exists_values {segs : List Seg} (h : Spelled segs) (segs' : List Seg) : overlaps segs segs' = true ↔
    ∃ values : String → String, (∀ p, Fits (values p)) ∧ (matchSegs segs (segs'.map (Seg.fill values))).isSome = true := by
  rw [overlaps_iff]
  constructor
  · rintro ⟨ds, hds, hone⟩
    refine ⟨meeting ds, fits_meeting fun d hd => (h _ (lit_of_demands hds hd)).1, ?_⟩
    exact (matchSegs_isSome_iff _ _ _).mpr ⟨ds, hds, fun d hd => meeting_eq hone hd⟩
  · rintro ⟨values, -, hmatch⟩
    obtain ⟨ds, hds, hv⟩ := (matchSegs_isSome_iff _ _ _).mp hmatch
    exact ⟨ds, hds, fun d hd d' hd' hkey => by rw [← hv d hd, ← hv d' hd', hkey]⟩

def entryAt (paths : Map) (path method : String) : Option Value :=
  ((Map.get? paths path).bind Value.asObject).bind (Map.get? · method)

def writesEntry (path method : String) (r : ApiRoute) : Bool :=
  pathOf r.segs == path && toAsciiLowercase r.method == method

theorem entryAt_addOperation (paths : Map) (r : ApiRoute) (path method : String) :
    entryAt (addOperation paths r) path method =
      if writesEntry path method r then some (operation r) else entryAt paths path method := by
  have hadd : addOperation paths r = paths.insert (pathOf r.segs)
      (.object ((((Map.get? paths (pathOf r.segs)).bind Value.asObject).getD []).insert (toAsciiLowercase r.method)
        (operation r))) := rfl
  unfold entryAt writesEntry
  rw [hadd, Map.get?_insert]
  by_cases hpath : pathOf r.segs = path
  · rw [if_pos hpath, Option.bind_some, Value.asObject, Option.bind_some, Map.get?_insert, hpath]
    by_cases hmethod : toAsciiLowercase r.method = method
    · simp [hmethod]
    · cases (Map.get? paths path).bind Value.asObject with
      | none => simp [hmethod, Map.get?]
      | some item => simp [hmethod]
  · simp [hpath]

theorem entryAt_foldl (routes : List ApiRoute) (paths : Map) (path method : String) :
    entryAt (routes.foldl addOperation paths) path method =
      ((routes.filter (writesEntry path method)).getLast?.map operation).or (entryAt paths path method) := by
  induction routes generalizing paths with
  | nil => rfl
  | cons r routes ih =>
    rw [List.foldl_cons, ih, entryAt_addOperation, List.filter_cons]
    split
    · rw [List.getLast?_cons]
      cases (routes.filter (writesEntry path method)).getLast? with
      | none => rfl
      | some z => rfl
    · rfl

theorem text_operation (r : ApiRoute) : (operation r).text "operationId" = some r.opId := by
  have hget : (operation r).get "operationId" = some (.string r.opId) := by
    unfold operation
    dsimp only
    split <;> split <;>
      simp [Value.obj, Value.get, Value.asObject, Map.ofEntries, Map.extend, Map.get?_insert]
  unfold Value.text Value.index
  rw [hget]
  rfl

theorem operationId_eq {doc : Value} {paths : Map} (h : doc.get "paths" = some (.object paths)) (path method : String) :
    operationId doc path method = (entryAt paths path method).bind (·.text "operationId") := by
  unfold operationId entryAt
  rw [h]
  cases hitem : Map.get? paths path with
  | none => simp [Value.get, Value.asObject, hitem]
  | some item => simp [Value.get, Value.asObject, hitem]

def routed (routes : List ApiRoute) (method : String) (parts : List String) : Option (String × List (String × String)) :=
  routes.findSome? fun route =>
    if route.method = method then (matchSegs route.segs parts).map (route.file, ·) else none

theorem routed_some {routes : List ApiRoute} {method file : String} {parts : List String} {bound : List (String × String)}
    (h : routed routes method parts = some (file, bound)) :
    ∃ before x after, routes = before ++ x :: after ∧ x.method = method ∧ x.file = file ∧
      matchSegs x.segs parts = some bound ∧ ∀ i ∈ before, i.method = method → matchSegs i.segs parts = none := by
  obtain ⟨before, x, after, hroutes, hx, hbefore⟩ := List.findSome?_eq_some_iff.mp h
  split at hx
  next hmethod =>
    obtain ⟨bs, hbs, heq⟩ := Option.map_eq_some_iff.mp hx
    cases heq
    refine ⟨before, x, after, hroutes, hmethod, rfl, hbs, fun i hi him => ?_⟩
    have hnone := hbefore i hi
    rw [if_pos him] at hnone
    exact Option.map_eq_none_iff.mp hnone
  · cases hx

theorem sameOperation_iff {r i : ApiRoute} : sameOperation r i = true ↔ i.method = r.method ∧ i.segs = r.segs := by
  unfold sameOperation
  rw [Bool.and_eq_true, beq_iff_eq, beq_iff_eq]

theorem routed_first {routes : List ApiRoute} {r : ApiRoute} (hr : r ∈ routes) {parts : List String}
    {bound : List (String × String)} (hmatch : matchSegs r.segs parts = some bound)
    (hbefore : ∀ i ∈ routes.takeWhile (!sameOperation r ·), i.method = r.method → matchSegs i.segs parts = none) :
    ∃ first, (routes.filter (sameOperation r)).head? = some first ∧ routed routes r.method parts = some (first.file, bound) := by
  induction routes with
  | nil => cases hr
  | cons a routes ih =>
    cases hsame : sameOperation r a with
    | true =>
      obtain ⟨hmethod, hsegs⟩ := sameOperation_iff.mp hsame
      refine ⟨a, by rw [List.filter_cons_of_pos hsame, List.head?_cons], ?_⟩
      rw [routed, List.findSome?_cons, if_pos hmethod, hsegs, hmatch]
      rfl
    | false =>
      have hne : r ≠ a := by
        rintro rfl
        rw [sameOperation_iff.mpr ⟨rfl, rfl⟩] at hsame
        cases hsame
      rw [List.takeWhile_cons_of_pos (by rw [hsame]; rfl)] at hbefore
      obtain ⟨first, hfirst, hrouted⟩ := ih (List.mem_of_ne_of_mem hne hr) fun i hi => hbefore i (List.mem_cons_of_mem _ hi)
      refine ⟨first, by rw [List.filter_cons_of_neg (by rw [hsame]; exact Bool.false_ne_true), hfirst], ?_⟩
      have hskip : (if a.method = r.method then (matchSegs a.segs parts).map (a.file, ·) else none) = none := by
        split
        next hmethod => rw [hbefore a (List.mem_cons_self ..) hmethod, Option.map_none]
        · rfl
      rw [routed, List.findSome?_cons, hskip]
      exact hrouted

theorem mem_before_of_mem_takeWhile {α : Type} {p : α → Bool} {before after : List α} {x i : α} (hx : p x = false)
    (h : i ∈ (before ++ x :: after).takeWhile p) : i ∈ before := by
  induction before with
  | nil =>
    rw [List.nil_append, List.takeWhile_cons_of_neg (by rw [hx]; exact Bool.false_ne_true)] at h
    cases h
  | cons a before ih =>
    rw [List.cons_append] at h
    cases ha : p a with
    | false =>
      rw [List.takeWhile_cons_of_neg (by rw [ha]; exact Bool.false_ne_true)] at h
      cases h
    | true =>
      rw [List.takeWhile_cons_of_pos ha] at h
      rcases List.mem_cons.mp h with rfl | h
      · exact List.mem_cons_self ..
      · exact List.mem_cons_of_mem _ (ih h)

theorem toAsciiUppercase_lowercase (s : String) :
    toAsciiUppercase (toAsciiLowercase (toAsciiUppercase s)) = toAsciiUppercase s := by
  simp [toAsciiUppercase, toAsciiLowercase, onChars, Function.comp_def]

section
variable [External] {cfg : Settings} {site : Site} {proc : Process} {w : World}

theorem mem_scan {α : Type} {visit : String → String → Program → List α} {files : List (String × String)} {out : List α}
    {w' : World} (h : scan visit files w = (.ok out, w')) {a : α} (ha : a ∈ out) :
    ∃ path pkg prog, (path, pkg) ∈ files ∧ (programAt path w).1 = .ok (some prog) ∧ a ∈ visit path pkg prog := by
  induction files generalizing out w' with
  | nil =>
    cases h
    cases ha
  | cons file files ih =>
    obtain ⟨prog, w₁, hprog, h⟩ := of_bind_ok h
    have hw₁ : w₁ = w := by
      have hro := readOnly_programAt file.1 w
      rw [hprog] at hro
      exact hro
    rw [hw₁] at h hprog
    obtain ⟨rest, w₂, hrest, h⟩ := of_bind_ok h
    cases h
    rcases List.mem_append.mp ha with ha | ha
    · cases prog with
      | none => cases ha
      | some prog => exact ⟨file.1, file.2, prog, List.mem_cons_self .., by rw [hprog], ha⟩
    · obtain ⟨path, pkg, prog, hmem, hread, hvisit⟩ := ih hrest ha
      exact ⟨path, pkg, prog, List.mem_cons_of_mem _ hmem, hread, hvisit⟩

theorem apiRoutes_cases (site : Site) (root : String) (w : World) :
    apiRoutes site root w = (.ok (loaded site root w), w) ∨
      (∃ e, apiRoutes site root w = (.error e, w)) ∧ loaded site root w = [] := by
  have hro : (apiRoutes site root w).2 = w := readOnly_scan apiRoute (vjsFiles site root) w
  unfold loaded
  cases hrun : apiRoutes site root w with
  | mk result w' =>
    rw [hrun] at hro
    cases result with
    | ok routes => exact .inl (by rw [← hro]; rfl)
    | error e => exact .inr ⟨⟨e, by rw [← hro]⟩, rfl⟩

theorem flowOf_mem {r : ApiRoute} (h : r ∈ loaded site cfg.root w) :
    FlowOf site cfg.root w r.file r.opId r.method r.segs := by
  rcases apiRoutes_cases site cfg.root w with hrun | ⟨-, hnil⟩
  · obtain ⟨path, pkg, prog, hmem, hread, hr⟩ := mem_scan hrun h
    unfold apiRoute at hr
    split at hr
    · cases hr
    next method segs hspec =>
      cases List.mem_singleton.mp hr
      exact ⟨pkg, prog, hmem, hread, rfl, hspec⟩
  · rw [hnil] at h
    cases h

theorem FlowOf.unique {file name name' method method' : String} {segs segs' : List Seg}
    (h : FlowOf site cfg.root w file name method segs) (h' : FlowOf site cfg.root w file name' method' segs') :
    name = name' ∧ method = method' ∧ segs = segs' := by
  obtain ⟨pkg, prog, -, hread, hname, hspec⟩ := h
  obtain ⟨pkg', prog', -, hread', hname', hspec'⟩ := h'
  rw [hread] at hread'
  cases hread'
  rw [hspec] at hspec'
  cases hspec'
  exact ⟨hname.symm.trans hname', rfl, rfl⟩

theorem FlowOf.spelled {file name method : String} {segs : List Seg} (h : FlowOf site cfg.root w file name method segs) :
    Spelled segs ∧ toAsciiUppercase (toAsciiLowercase method) = method := by
  obtain ⟨pkg, prog, -, -, -, hspec⟩ := h
  obtain ⟨spec, -, hparse⟩ := Option.bind_eq_some_iff.mp hspec
  unfold parseApiSpec at hparse
  split at hparse
  next m path rest hwords =>
    cases hparse
    exact ⟨spelled_template path, toAsciiUppercase_lowercase m⟩
  · cases hparse

theorem writesEntry_eq_sameOperation {r i : ApiRoute} (hr : r ∈ loaded site cfg.root w) (hi : i ∈ loaded site cfg.root w) :
    writesEntry (pathOf r.segs) (toAsciiLowercase r.method) i = sameOperation r i := by
  obtain ⟨hrsegs, hrmethod⟩ := (flowOf_mem hr).spelled
  obtain ⟨hisegs, himethod⟩ := (flowOf_mem hi).spelled
  rw [Bool.eq_iff_iff, sameOperation_iff, writesEntry, Bool.and_eq_true, beq_iff_eq, beq_iff_eq]
  constructor
  · rintro ⟨hpath, hmethod⟩
    refine ⟨?_, ?_⟩
    · rw [← himethod, hmethod, hrmethod]
    · rw [← template_pathOf hisegs, hpath, template_pathOf hrsegs]
  · rintro ⟨hmethod, hsegs⟩
    rw [hmethod, hsegs]
    exact ⟨rfl, rfl⟩

theorem openapiJson_paths {routes : List ApiRoute} (h : apiRoutes site cfg.root w = (.ok routes, w)) :
    ∃ doc, (openapiJson cfg site proc w).1 = .ok doc ∧
      doc.get "paths" = some (.object (routes.foldl addOperation [])) := by
  unfold openapiJson
  rw [bind_ok h]
  refine ⟨_, rfl, ?_⟩
  simp [Value.obj, Value.get, Value.asObject, Map.ofEntries, Map.extend, Map.get?_insert]

theorem documents_iff (path method name : String) : Documents cfg site proc w path method name ↔
    ((loaded site cfg.root w).filter (writesEntry path method)).getLast?.map (·.opId) = some name := by
  rcases apiRoutes_cases site cfg.root w with hrun | ⟨⟨e, hrun⟩, hnil⟩
  · obtain ⟨doc, hdoc, hpaths⟩ := @openapiJson_paths _ cfg site proc w _ hrun
    have hlast : operationId doc path method =
        ((loaded site cfg.root w).filter (writesEntry path method)).getLast?.map (·.opId) := by
      rw [operationId_eq hpaths, entryAt_foldl]
      cases ((loaded site cfg.root w).filter (writesEntry path method)).getLast? with
      | none => rfl
      | some z => exact text_operation z
    rw [← hlast]
    constructor
    · rintro ⟨doc', hdoc', hname⟩
      rw [hdoc] at hdoc'
      cases hdoc'
      exact hname
    · exact fun hname => ⟨doc, hdoc, hname⟩
  · rw [hnil]
    refine iff_of_false ?_ (by simp)
    rintro ⟨doc, hdoc, -⟩
    unfold openapiJson at hdoc
    rw [bind_error hrun] at hdoc
    cases hdoc

theorem matchApiRoute_iff (method rel : String) (found : String × List (String × String)) :
    (matchApiRoute cfg site method rel w).1 = .ok (some found) ↔
      routed (loaded site cfg.root w) method (segsOf rel) = some found := by
  unfold matchApiRoute
  rcases apiRoutes_cases site cfg.root w with hrun | ⟨⟨e, hrun⟩, hnil⟩
  · rw [bind_ok hrun, pure_run, Except.ok.injEq]
    rfl
  · rw [bind_error hrun, hnil]
    exact iff_of_false (by simp) (by simp [routed])

theorem exists_documents {r : ApiRoute} (hr : r ∈ loaded site cfg.root w) :
    ∃ name, ((loaded site cfg.root w).filter (sameOperation r)).getLast?.map (·.opId) = some name ∧
      Documents cfg site proc w (pathOf r.segs) (toAsciiLowercase r.method) name := by
  have hfilter : (loaded site cfg.root w).filter (writesEntry (pathOf r.segs) (toAsciiLowercase r.method)) =
      (loaded site cfg.root w).filter (sameOperation r) :=
    List.filter_congr fun i hi => writesEntry_eq_sameOperation hr hi
  have hmem : r ∈ (loaded site cfg.root w).filter (sameOperation r) :=
    List.mem_filter.mpr ⟨hr, sameOperation_iff.mpr ⟨rfl, rfl⟩⟩
  have hlast := List.getLast?_eq_some_getLast (List.ne_nil_of_mem hmem)
  refine ⟨_, by rw [hlast, Option.map_some], (documents_iff ..).mpr ?_⟩
  rw [hfilter, hlast, Option.map_some]

theorem describes_of_unambiguous (h : Unambiguous (loaded site cfg.root w)) : Describes cfg site proc w := by
  refine ⟨fun path method name hdoc values hvalues => ?_, fun method rel file bound hrouted => ?_⟩
  · obtain ⟨z, hz, rfl⟩ := Option.map_eq_some_iff.mp ((documents_iff ..).mp hdoc)
    obtain ⟨hmem, hentry⟩ := List.mem_filter.mp (List.mem_of_getLast? hz)
    rw [writesEntry, Bool.and_eq_true, beq_iff_eq, beq_iff_eq] at hentry
    obtain ⟨rfl, rfl⟩ := hentry
    obtain ⟨hsegs, hmethod⟩ := (flowOf_mem hmem).spelled
    rw [template_pathOf hsegs, hmethod]
    obtain ⟨hbefore, hnames⟩ := h z hmem
    -- a template before it that matched the request would overlap
    have hnone : ∀ i ∈ (loaded site cfg.root w).takeWhile (!sameOperation z ·), i.method = z.method →
        matchSegs i.segs (z.segs.map (Seg.fill values)) = none := by
      intro i hi him
      have hspelled := (flowOf_mem ((List.takeWhile_subset _) hi)).spelled.1
      rw [Option.eq_none_iff_forall_ne_some]
      intro bound hmatch
      have hover := (overlaps_iff_exists_values hspelled z.segs).mpr ⟨values, hvalues, by rw [hmatch]; rfl⟩
      rw [hbefore i hi him] at hover
      cases hover
    obtain ⟨first, hfirst, hrouted⟩ := routed_first hmem (matchSegs_fill values z.segs) hnone
    rw [List.filter_congr fun i hi => writesEntry_eq_sameOperation hmem hi] at hz
    rw [hfirst, hz, Option.map_some, Option.map_some, Option.some.injEq] at hnames
    obtain ⟨hfmem, hfsame⟩ := List.mem_filter.mp (List.mem_of_head? hfirst)
    obtain ⟨hfmethod, hfsegs⟩ := sameOperation_iff.mp hfsame
    refine ⟨first.file, (matchApiRoute_iff ..).mpr ?_, ?_⟩
    · rw [segsOf_filled hsegs hvalues, hrouted]
    · rw [← hnames, ← hfmethod, ← hfsegs]
      exact flowOf_mem hfmem
  · obtain ⟨before, x, after, hroutes, rfl, -, hmatch, -⟩ := routed_some ((matchApiRoute_iff ..).mp hrouted)
    have hmem : x ∈ loaded site cfg.root w := by
      rw [hroutes]
      exact List.mem_append_right _ (List.mem_cons_self ..)
    obtain ⟨name, -, hdoc⟩ := exists_documents hmem
    exact ⟨pathOf x.segs, name, hdoc, by rw [template_pathOf (flowOf_mem hmem).spelled.1, hmatch]⟩

theorem unambiguous_of_describes (h : Describes cfg site proc w) : Unambiguous (loaded site cfg.root w) := by
  intro r hr
  obtain ⟨hsegs, hmethod⟩ := (flowOf_mem hr).spelled
  obtain ⟨name, hlast, hdoc⟩ := exists_documents hr
  -- every request of the operation goes to a flow of the operation, under the documented name
  have hserved : ∀ values : String → String, (∀ p, Fits (values p)) →
      ∃ file, routed (loaded site cfg.root w) r.method (r.segs.map (Seg.fill values)) = some (file, bindings values r.segs) ∧
        FlowOf site cfg.root w file name r.method r.segs := by
    intro values hvalues
    obtain ⟨file, hrouted, hflow⟩ := h.served _ _ _ hdoc values hvalues
    rw [template_pathOf hsegs, hmethod] at hrouted hflow
    have hrouted := (matchApiRoute_iff ..).mp hrouted
    rw [segsOf_filled hsegs hvalues] at hrouted
    exact ⟨file, hrouted, hflow⟩
  have hbefore : ∀ values : String → String, (∀ p, Fits (values p)) →
      ∀ i ∈ (loaded site cfg.root w).takeWhile (!sameOperation r ·), i.method = r.method →
        matchSegs i.segs (r.segs.map (Seg.fill values)) = none := by
    intro values hvalues i hi him
    obtain ⟨file, hrouted, hflow⟩ := hserved values hvalues
    obtain ⟨before, x, after, hroutes, hxmethod, rfl, -, hnone⟩ := routed_some hrouted
    have hmem : x ∈ loaded site cfg.root w := by
      rw [hroutes]
      exact List.mem_append_right _ (List.mem_cons_self ..)
    have hsame : (!sameOperation r x) = false := by
      rw [sameOperation_iff.mpr ⟨hxmethod, ((flowOf_mem hmem).unique hflow).2.2⟩]
      rfl
    rw [hroutes] at hi
    exact hnone i (mem_before_of_mem_takeWhile hsame hi) him
  refine ⟨fun i hi him => ?_, ?_⟩
  · have hspelled := (flowOf_mem ((List.takeWhile_subset _) hi)).spelled.1
    rw [← Bool.not_eq_true]
    intro hover
    obtain ⟨values, hvalues, hmatch⟩ := (overlaps_iff_exists_values hspelled r.segs).mp hover
    rw [hbefore values hvalues i hi him] at hmatch
    cases hmatch
  · obtain ⟨file, hrouted, hflow⟩ := hserved (fun _ => "x") fun _ => fits_x
    obtain ⟨first, hfirst, hrouted'⟩ := routed_first hr (matchSegs_fill _ r.segs) (hbefore _ fun _ => fits_x)
    rw [hrouted, Option.some.injEq, Prod.mk.injEq] at hrouted'
    rw [hrouted'.1] at hflow
    have hmem := (List.mem_filter.mp (List.mem_of_head? hfirst)).1
    rw [hlast, hfirst, Option.map_some, ((flowOf_mem hmem).unique hflow).1]

/-- The document describes what is served exactly if, for every operation, no flow before its first
takes a request of it, and its first flow has the name of its last. -/
theorem describes_iff_unambiguous (cfg : Settings) (site : Site) (proc : Process) (w : World) :
    Describes cfg site proc w ↔ Unambiguous (loaded site cfg.root w) :=
  ⟨unambiguous_of_describes, describes_of_unambiguous⟩

end

def twinSite : Site := { plainSurface.site with
  readDir := fun dir => if dir = "/p/flows" then some ["a.vjs", "b.vjs"] else none }

def twinFiles : World := { overlaid with files := fun _ => .ok "api \"GET /x\"\n" }

theorem vjsFiles_twinSite : vjsFiles twinSite "/p" = [("/p/flows/a.vjs", "default"), ("/p/flows/b.vjs", "default")] := by
  unfold vjsFiles sorted
  rw [List.mergeSort_of_pairwise (by decide)]
  decide +kernel

def twinRoute (name : String) : ApiRoute where
  method := "GET"
  segs := [.lit "x"]
  file := "/p/flows/" ++ name ++ ".vjs"
  summary := name
  opId := name
  reqSchema := none
  respSchema := none

theorem loaded_twinSite : @loaded ascii twinSite "/p" twinFiles = [twinRoute "a", twinRoute "b"] := by
  unfold loaded apiRoutes
  rw [vjsFiles_twinSite]
  rfl

/-- The document names the last of them, and a request goes to the first. -/
theorem twin_flows_misdescribed : ¬ @Describes ascii (settingsOf false) twinSite plainSurface.proc twinFiles := by
  intro h
  have hnames := (@unambiguous_of_describes ascii (settingsOf false) _ _ _ h (twinRoute "a") (by
    rw [show (settingsOf false).root = "/p" from rfl, loaded_twinSite]
    exact List.mem_cons_self ..)).2
  rw [show (settingsOf false).root = "/p" from rfl, loaded_twinSite] at hnames
  exact absurd hnames (by decide)

end Vejas.Http
