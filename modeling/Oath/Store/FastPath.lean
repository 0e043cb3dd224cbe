import Oath.Library.Delimited
import Oath.Store.FullLink

/-! The link of a graph whose manifest is already there. The manifest says where the packages of a
graph are, and leaves out which directory of the store each of them comes from. -/

namespace Oath.Store
open Contracts Registry Resolve Unix

/-! ## The records of the manifest -/

section Manifest
variable {graph graph' : DepGraph}

def edgeFields (kind key : String) (row : String × String) : List String :=
  [kind, key, row.1, row.2]

def nodeRecords (row : String × DepNode) : List (List String) :=
  ["pkg", row.1, row.2.name, row.2.aliasName.getD "", row.2.version] ::
    (row.2.dependencies.rows.map (edgeFields "dep" row.1) ++
      row.2.resolvedPeers.rows.map (edgeFields "peer" row.1))

def graphRecords (graph : DepGraph) : List (List String) :=
  ((graph.roots.mergeSort fun a b => a ≤ b).map fun root => ["root", root]) ++
    graph.nodes.rows.flatMap nodeRecords

/-- No field holds one of the two marks. -/
def PlainGraph (graph : DepGraph) : Prop :=
  ∀ fields ∈ graphRecords graph, ∀ field ∈ fields, '\t' ∉ field.toList ∧ '\n' ∉ field.toList

instance : DecidablePred PlainGraph := fun graph =>
  inferInstanceAs (Decidable (∀ fields ∈ graphRecords graph, ∀ field ∈ fields,
    '\t' ∉ field.toList ∧ '\n' ∉ field.toList))

def manifestLine (fields : List String) : List Char :=
  Delimited.record '\t' '\n' (fields.map String.toList)

theorem rootLine_toList (root : String) : (rootLine root).toList = manifestLine ["root", root] := by
  simp [rootLine, manifestLine, Delimited.record]

theorem edgeLine_toList (kind key : String) (row : String × String) :
    (edgeLine kind key row).toList = manifestLine (edgeFields kind key row) := by
  simp [edgeLine, edgeFields, manifestLine, Delimited.record]

theorem nodeLines_toList (row : String × DepNode) :
    (nodeLines row).toList = (nodeRecords row).flatMap manifestLine := by
  have hedges (kind : String) (rows : List (String × String)) :
      (String.join (rows.map (edgeLine kind row.1))).toList =
        (rows.map (edgeFields kind row.1)).flatMap manifestLine := by
    rw [String.toList_join, List.flatMap_map, List.flatMap_map]
    exact List.flatMap_congr fun edge _ => edgeLine_toList kind row.1 edge
  rw [nodeLines, String.toList_append, String.toList_append, hedges, hedges, nodeRecords,
    List.flatMap_cons, List.flatMap_append, List.append_assoc]
  congr 1
  simp [manifestLine, Delimited.record]

theorem linkManifest_toList (graph : DepGraph) :
    (linkManifest graph).toList = (graphRecords graph).flatMap manifestLine := by
  rw [linkManifest, String.toList_append, String.toList_join, String.toList_join, graphRecords,
    List.flatMap_append, List.flatMap_map, List.flatMap_map, List.flatMap_map, List.flatMap_assoc]
  congr 1
  · exact List.flatMap_congr fun root _ => rootLine_toList root
  · exact List.flatMap_congr fun row _ => nodeLines_toList row

theorem plainRecords (hplain : PlainGraph graph) :
    ∀ fields ∈ (graphRecords graph).map (List.map String.toList),
      Delimited.PlainRecord '\t' '\n' fields := by
  intro fields hfields
  obtain ⟨texts, htexts, rfl⟩ := List.mem_map.mp hfields
  have hne : texts ≠ [] := by
    rcases List.mem_append.mp htexts with hroot | hnode
    · obtain ⟨root, -, rfl⟩ := List.mem_map.mp hroot
      exact List.cons_ne_nil _ _
    · obtain ⟨row, -, hrecord⟩ := List.mem_flatMap.mp hnode
      rcases List.mem_cons.mp hrecord with rfl | hedge
      · exact List.cons_ne_nil _ _
      · rcases List.mem_append.mp hedge with hdependency | hpeer
        · obtain ⟨edge, -, rfl⟩ := List.mem_map.mp hdependency
          exact List.cons_ne_nil _ _
        · obtain ⟨edge, -, rfl⟩ := List.mem_map.mp hpeer
          exact List.cons_ne_nil _ _
  refine ⟨fun hnil => hne (List.map_eq_nil_iff.mp hnil), ?_, ?_⟩
  · intro field hfield
    obtain ⟨text, htext, rfl⟩ := List.mem_map.mp hfield
    exact (hplain texts htexts text htext).1
  · intro field hfield
    obtain ⟨text, htext, rfl⟩ := List.mem_map.mp hfield
    exact (hplain texts htexts text htext).2

/-- The manifest of a graph without marks has its records. -/
theorem records_of_manifest (hplain : PlainGraph graph) (hplain' : PlainGraph graph')
    (h : linkManifest graph = linkManifest graph') : graphRecords graph = graphRecords graph' := by
  have hrecords (graph : DepGraph) : (linkManifest graph).toList =
      ((graphRecords graph).map (List.map String.toList)).flatMap
        (Delimited.record '\t' '\n') := by
    rw [linkManifest_toList, List.flatMap_map]
    rfl
  have htext := congrArg String.toList h
  rw [hrecords, hrecords] at htext
  have hsame := Delimited.records_inj (by decide) (plainRecords hplain) (plainRecords hplain') htext
  have hinjective : Function.Injective (List.map String.toList) :=
    List.map_injective_iff.mpr fun _ _ heq => String.toList_inj.mp heq
  exact List.map_injective_iff.mpr hinjective hsame

/-- What a record of a package says of it. -/
def packageRecord? : List String → Option (String × String × String × String)
  | ["pkg", key, name, aliasName, version] => some (key, name, aliasName, version)
  | _ => none

def packageFields (row : String × DepNode) : String × String × String × String :=
  (row.1, row.2.name, row.2.aliasName.getD "", row.2.version)

theorem key_of_fields {row row' : String × DepNode} (h : packageFields row = packageFields row') :
    row.1 = row'.1 := (Prod.mk.inj h).1

theorem packages_of_records (graph : DepGraph) :
    (graphRecords graph).filterMap packageRecord? = graph.nodes.rows.map packageFields := by
  have hroots (roots : List String) :
      (roots.map fun root => ["root", root]).filterMap packageRecord? = [] := by
    rw [List.filterMap_map]
    exact List.filterMap_eq_nil_iff.mpr fun root _ => rfl
  have hnode (row : String × DepNode) :
      (nodeRecords row).filterMap packageRecord? = [packageFields row] := by
    have hedges : (row.2.dependencies.rows.map (edgeFields "dep" row.1) ++
        row.2.resolvedPeers.rows.map (edgeFields "peer" row.1)).filterMap packageRecord? = [] := by
      rw [List.filterMap_append, List.filterMap_map, List.filterMap_map]
      refine List.append_eq_nil_iff.mpr ⟨?_, ?_⟩
      · exact List.filterMap_eq_nil_iff.mpr fun edge _ => rfl
      · exact List.filterMap_eq_nil_iff.mpr fun edge _ => rfl
    have hhead : packageRecord? ["pkg", row.1, row.2.name, row.2.aliasName.getD "",
        row.2.version] = some (packageFields row) := rfl
    rw [nodeRecords, List.filterMap_cons_some hhead, hedges]
  rw [graphRecords, List.filterMap_append, hroots, List.nil_append, List.filterMap_flatMap]
  simp only [hnode]
  rw [← List.map_eq_flatMap]

/-- Two graphs of one manifest have the same keys, and the same packages under each. -/
theorem node_of_manifest (hplain : PlainGraph graph) (hplain' : PlainGraph graph')
    (h : linkManifest graph = linkManifest graph') {row : String × DepNode}
    (hrow : row ∈ graph.nodes.rows) :
    ∃ row' ∈ graph'.nodes.rows, packageFields row' = packageFields row := by
  have hpackages := congrArg (List.filterMap packageRecord?) (records_of_manifest hplain hplain' h)
  rw [packages_of_records, packages_of_records] at hpackages
  exact List.mem_map.mp (hpackages ▸ List.mem_map_of_mem hrow)

end Manifest

/-! ## The packages of a tree -/

section Trees
variable {graph graph' : DepGraph} {env : LinkEnvironment} {first : LinkedFiles}
  {held : List Name → Option Content} {place rest : List Name} {content : Content}

/-- What a tree has at the place of a package, but for the modules of the package. -/
def HasPackage (graph : DepGraph) (held : List Name → Option Content) (place rest : List Name)
    (content : Content) : Prop :=
  (∃ row ∈ graph.nodes.rows, homeOf row = place) ∧ rest.head? ≠ some nodeModules ∧
    held (place ++ rest) = some content

/-- What the store has for the package of a place. -/
def Offers (graph : DepGraph) (env : LinkEnvironment) (fs : LinkedFiles) (place rest : List Name)
    (content : Content) : Prop :=
  ∃ row ∈ graph.nodes.rows, homeOf row = place ∧ rest.head? ≠ some nodeModules ∧
    fs.content? (env.storedAt row ++ rest) = some content

/-- Two graphs place the same packages. -/
def SamePackages (graph graph' : DepGraph) (env : LinkEnvironment) (fs : LinkedFiles) : Prop :=
  ∀ place rest content, Offers graph env fs place rest content ↔
    Offers graph' env fs place rest content

/-- The store has the same for the nodes that two graphs have under one key. -/
def SameSources (graph graph' : DepGraph) (env : LinkEnvironment) (fs : LinkedFiles) : Prop :=
  ∀ key node node', graph.nodes.find? key = some node → graph'.nodes.find? key = some node' →
    ∀ rest, rest.head? ≠ some nodeModules →
      fs.content? (env.storedAt (key, node) ++ rest) =
        fs.content? (env.storedAt (key, node') ++ rest)

theorem hasPackage_iff (h : Packed graph env first held) :
    HasPackage graph held place rest content ↔ Offers graph env first place rest content := by
  constructor
  · rintro ⟨⟨row, hrow, rfl⟩, hrest, hheld⟩
    rw [h.packages row rest hrow hrest] at hheld
    exact ⟨row, hrow, rfl, hrest, hheld⟩
  · rintro ⟨row, hrow, rfl, hrest, hstored⟩
    rw [← h.packages row rest hrow hrest] at hstored
    exact ⟨⟨row, hrow, rfl⟩, hrest, hstored⟩

/-- An alias that is not empty is told from none. -/
theorem installName_of_fields {row row' : String × DepNode}
    (hvalid : validateInstallName (installNameOf row.2) = .ok ())
    (hvalid' : validateInstallName (installNameOf row'.2) = .ok ())
    (h : packageFields row = packageFields row') : installNameOf row.2 = installNameOf row'.2 := by
  have hempty : validateInstallName "" ≠ .ok () := by decide
  have hname : row.2.name = row'.2.name := congrArg (fun fields => fields.2.1) h
  have halias : row.2.aliasName.getD "" = row'.2.aliasName.getD "" :=
    congrArg (fun fields => fields.2.2.1) h
  unfold installNameOf at hvalid hvalid' ⊢
  cases hold : row.2.aliasName with
  | none =>
    rw [hold] at halias
    cases hnew : row'.2.aliasName with
    | none => exact hname
    | some other =>
      rw [hnew] at halias hvalid'
      obtain rfl : "" = other := halias
      exact absurd hvalid' hempty
  | some text =>
    rw [hold] at halias hvalid
    cases hnew : row'.2.aliasName with
    | none =>
      rw [hnew] at halias
      obtain rfl : text = "" := halias
      exact absurd hvalid hempty
    | some other =>
      rw [hnew] at halias
      exact halias

theorem homeOf_of_fields {row row' : String × DepNode} (hnamed : Named graph)
    (hnamed' : Named graph') (hrow : row ∈ graph.nodes.rows) (hrow' : row' ∈ graph'.nodes.rows)
    (h : packageFields row = packageFields row') : homeOf row = homeOf row' := by
  have hkey : row.1 = row'.1 := key_of_fields h
  have hname := installName_of_fields (hnamed.valid row hrow) (hnamed'.valid row' hrow') h
  unfold homeOf pathOf
  rw [hkey, hname]

theorem offers_of_sources (hplain : PlainGraph graph) (hplain' : PlainGraph graph')
    (hnamed : Named graph) (hnamed' : Named graph')
    (hmanifest : linkManifest graph = linkManifest graph')
    (h : SameSources graph graph' env first) (hoffers : Offers graph env first place rest content) :
    Offers graph' env first place rest content := by
  obtain ⟨row, hrow, rfl, hrest, hstored⟩ := hoffers
  obtain ⟨row', hrow', hfields⟩ := node_of_manifest hplain hplain' hmanifest hrow
  have hhome := homeOf_of_fields hnamed' hnamed hrow' hrow hfields
  obtain ⟨key', node'⟩ := row'
  obtain rfl : key' = row.1 := key_of_fields hfields
  have hsame := h row.1 row.2 node' (OrderedMap.find?_eq_some.mpr hrow)
    (OrderedMap.find?_eq_some.mpr hrow') rest hrest
  exact ⟨_, hrow', hhome, hrest, hsame.symm.trans hstored⟩

theorem SameSources.symm (h : SameSources graph graph' env first) :
    SameSources graph' graph env first :=
  fun key node node' hnode hnode' rest hrest => (h key node' node hnode' hnode rest hrest).symm

/-- Of graphs without marks that have one manifest, only the sources can differ. -/
theorem samePackages_iff (hplain : PlainGraph graph) (hplain' : PlainGraph graph')
    (hnamed : Named graph) (hnamed' : Named graph')
    (hmanifest : linkManifest graph = linkManifest graph') :
    SamePackages graph graph' env first ↔ SameSources graph graph' env first := by
  constructor
  · intro h key node node' hnode hnode' rest hrest
    have hrow := OrderedMap.find?_eq_some.mp hnode
    have hrow' := OrderedMap.find?_eq_some.mp hnode'
    obtain ⟨other, hother, hfields⟩ := node_of_manifest hplain hplain' hmanifest hrow
    have hkey : other.1 = key := key_of_fields hfields
    obtain rfl : other = (key, node') := eq_of_key hother hrow' hkey
    have hhome := homeOf_of_fields hnamed' hnamed hother hrow hfields
    apply Option.ext
    intro content
    constructor
    · intro hstored
      obtain ⟨row', hrow'', hplace, -, hsame⟩ :=
        (h _ rest content).mp ⟨(key, node), hrow, rfl, hrest, hstored⟩
      obtain ⟨rfl, -⟩ := hnamed'.same_of_eq hrow'' hrow' (hplace.trans hhome.symm)
      exact hsame
    · intro hstored
      obtain ⟨row', hrow'', hplace, -, hsame⟩ :=
        (h _ rest content).mpr ⟨(key, node'), hrow', rfl, hrest, hstored⟩
      obtain ⟨rfl, -⟩ := hnamed.same_of_eq hrow'' hrow (hplace.trans hhome)
      exact hsame
  · intro h place rest content
    exact ⟨offers_of_sources hplain hplain' hnamed hnamed' hmanifest h,
      offers_of_sources hplain' hplain hnamed' hnamed hmanifest.symm h.symm⟩

end Trees

/-! ## The second link -/

section Again
variable {graph graph' : DepGraph} {env : LinkEnvironment} {order : GraphOrder graph}
  {order' : GraphOrder graph'} {k k₁ k₂ k₃ : Kernel} {result result' full : LinkResult}

theorem Provided.stored {node : DepNode} {fs fs' : LinkedFiles} (h : Provided env node fs)
    (hsame : Unchanged env fs fs') (key : String) (rest : List Name) :
    fs'.content? (env.storedAt (key, node) ++ rest) =
      fs.content? (env.storedAt (key, node) ++ rest) := hsame _ (h.apart.apart rest)

theorem offers_kept {fs fs' : LinkedFiles}
    (hstored : ∀ row ∈ graph.nodes.rows, Provided env row.2 fs) (hsame : Unchanged env fs fs')
    {place rest : List Name} {content : Content} :
    Offers graph env fs' place rest content ↔ Offers graph env fs place rest content := by
  constructor
  · rintro ⟨row, hrow, hplace, hrest, hheld⟩
    rw [(hstored row hrow).stored hsame] at hheld
    exact ⟨row, hrow, hplace, hrest, hheld⟩
  · rintro ⟨row, hrow, hplace, hrest, hheld⟩
    rw [← (hstored row hrow).stored hsame] at hheld
    exact ⟨row, hrow, hplace, hrest, hheld⟩

/-- A link that finds the manifest of another graph agrees with a full one exactly when the two
graphs place the same packages. When nothing holds a mark of the manifest, that is when the store
has the same for both under each key. -/
theorem linkAll_again_iff (hrooted : Rooted k.files) (hlinkable : Linkable graph)
    (hlinkable' : Linkable graph')
    (hstored : ∀ row ∈ graph.nodes.rows, Provided env row.2 k.files)
    (hstored' : ∀ row ∈ graph'.nodes.rows, Provided env row.2 k.files)
    (hfresh : ∀ k', recoverLinkTransaction env k = .ok () k' →
      isUpToDate env graph k'.files = false)
    (hmanifest : linkManifest graph' = linkManifest graph)
    (hfirst : linkAll env order k = .ok result k₁)
    (hagain : linkAll env order' k₁ = .ok result' k₂)
    (hfull : fullLink env order' k₁ = .ok full k₃) :
    ((∀ place rest content,
        HasPackage graph (fun relative => k₂.files.content? (env.liveRoot ++ relative)) place rest
            content ↔
          HasPackage graph' (fun relative => k₃.files.content? (env.liveRoot ++ relative)) place
            rest content) ↔
      SamePackages graph graph' env k.files) ∧
    (PlainGraph graph → PlainGraph graph' →
      (SamePackages graph graph' env k.files ↔ SameSources graph graph' env k.files)) := by
  obtain ⟨hnamed, hrooted₁, hsame, hpacked⟩ :=
    fullLink_packed hrooted hlinkable hstored (fullLink_of_linkAll hfresh hfirst)
  obtain ⟨hnamed', -, -, hpacked'⟩ := fullLink_packed hrooted₁ hlinkable'
    (fun row hrow => (hstored' row hrow).kept hsame) hfull
  have hrecord : Records env (linkManifest graph') k₁.files := by
    rw [hmanifest]
    exact hpacked.manifest
  have hlive : (fun relative => k₂.files.content? (env.liveRoot ++ relative)) =
      fun relative => k₁.files.content? (env.liveRoot ++ relative) := by
    funext relative
    exact linkAll_recorded hrooted₁ hrecord hagain relative
  constructor
  · rw [hlive]
    refine forall_congr' fun place => forall_congr' fun rest => forall_congr' fun content => ?_
    rw [hasPackage_iff hpacked, hasPackage_iff hpacked', offers_kept hstored' hsame]
  · intro hplain hplain'
    exact samePackages_iff hplain hplain' hnamed hnamed' hmanifest.symm

end Again

/-! ## A package that comes from another place -/

section Sole

def soleNode (resolved : String) : DepNode := { leafOf "x" .empty with resolved }

/-- One package, from the place that is given. -/
def soleGraph (resolved : String) : DepGraph where
  nodes := ⟨[("x@1.0.0", soleNode resolved)], List.pairwise_singleton _ _⟩
  roots := ["x@1.0.0"]

def soleVariant (resolved : String) (rest : List String) : Location :=
  textPlace (["store", ".variants", "x", "1.0.0",
    pairDigest (asBytes ("resolved=" ++ resolved ++ "\nintegrity="))] ++ rest)

def soleRows : List (Location × Entry) :=
  [([], .directory), (textPlace ["repo"], .directory), (textPlace ["store"], .directory),
    (textPlace ["store", ".variants"], .directory),
    (textPlace ["store", ".variants", "x"], .directory),
    (textPlace ["store", ".variants", "x", "1.0.0"], .directory),
    (soleVariant "x" [], .directory), (soleVariant "x" ["index.js"], .file 0),
    (soleVariant "y" [], .directory), (soleVariant "y" ["index.js"], .file 1)]

def soleText (inode : ℕ) : List UInt8 :=
  if inode = 0 then asBytes "module.exports = 1\n" else asBytes "module.exports = 2\n"

def soleKernel : Kernel where
  files := ⟨⟨soleRows, by decide⟩, soleText⟩
  effects := []
  calls := 0

/-- The file of the package in the live tree. -/
def soleFile : Location := pairHome "x" ++ textPlace ["index.js"]

def soleHas (inode : ℕ) (fs : LinkedFiles) : Bool :=
  fs.content? soleFile = some (.file (soleText inode))

def linkTwice : Link LinkResult := do
  let _ ← linkAll pairEnvironment (rowOrder (soleGraph "x"))
  linkAll pairEnvironment (rowOrder (soleGraph "y"))

def linkThenFull : Link LinkResult := do
  let _ ← linkAll pairEnvironment (rowOrder (soleGraph "x"))
  fullLink pairEnvironment (rowOrder (soleGraph "y"))

/-- The runs of the two links. -/
theorem sole_runs :
    ∃ result k₁ result' k₂ full k₃,
      linkAll pairEnvironment (rowOrder (soleGraph "x")) soleKernel = .ok result k₁ ∧
        linkAll pairEnvironment (rowOrder (soleGraph "y")) k₁ = .ok result' k₂ ∧
        fullLink pairEnvironment (rowOrder (soleGraph "y")) k₁ = .ok full k₃ ∧
        soleHas 0 k₂.files = true ∧ soleHas 1 k₃.files = true := by
  have htwice : leaves (soleHas 0) (linkTwice soleKernel) = true := by decide +kernel
  have hthen : leaves (soleHas 1) (linkThenFull soleKernel) = true := by decide +kernel
  obtain ⟨result', k₂, hagain, hold⟩ := leaves_eq_true htwice
  obtain ⟨full, k₃, hfull, hnew⟩ := leaves_eq_true hthen
  obtain ⟨result, k₁, hfirst, hagain⟩ := EStateM.bind_eq_ok.mp hagain
  obtain ⟨other, k₁', hfirst', hfull⟩ := EStateM.bind_eq_ok.mp hfull
  rw [hfirst] at hfirst'
  injection hfirst' with hresult hkernel
  subst hkernel
  exact ⟨result, k₁, result', k₂, full, k₃, hfirst, hagain, hfull, hold, hnew⟩

theorem sole_linkable (resolved : String) : Linkable (soleGraph resolved) where
  keys := by
    rintro ⟨hempty, -⟩
    have hkey : "" ∈ ["x@1.0.0"] := hempty
    exact absurd hkey (by decide)
  modules := by
    intro row hrow
    obtain rfl := List.mem_singleton.mp hrow
    have hpath : nodeModules ∉ nameParts "x" := by decide
    exact hpath
  executables := by
    intro row hrow
    obtain rfl := List.mem_singleton.mp hrow
    have hname : "x" ≠ ".bin" := by decide
    exact hname
  dependencies := by
    intro row dependency hrow hdependency
    obtain rfl := List.mem_singleton.mp hrow
    exact absurd hdependency List.not_mem_nil

theorem sole_plain : ∀ resolved ∈ ["x", "y"], PlainGraph (soleGraph resolved) := by
  decide +kernel

theorem sole_provided : ∀ resolved ∈ ["x", "y"], ∀ row ∈ (soleGraph resolved).nodes.rows,
    Provided pairEnvironment row.2 soleKernel.files := by
  intro resolved hresolved row hrow
  obtain rfl := List.mem_singleton.mp hrow
  have hplace : ∀ resolved ∈ ["x", "y"], placeOf (pairEnvironment.graphSource
      (soleNode resolved)) = soleVariant resolved [] := by decide
  have hdir : ∀ resolved ∈ ["x", "y"], soleKernel.files.entryAt? (placeOf
      (pairEnvironment.graphSource (soleNode resolved))) = some .directory := by decide
  have hfree : ∀ loc, ¬IsLink soleKernel.files loc := not_isLink_of_rows (by decide)
  refine ⟨⟨fun loc _ => hfree loc, fun rest target hlink => ?_, fun rest => ?_⟩,
    hdir resolved hresolved⟩
  · exact hfree _ ⟨target, content?_eq_symlink.mp hlink⟩
  · apply notMem_trees
    rw [hplace resolved hresolved]
    exact repo_not_store

theorem sole_fresh (k : Kernel)
    (hrecover : recoverLinkTransaction pairEnvironment soleKernel = .ok () k) :
    isUpToDate pairEnvironment (soleGraph "x") k.files = false := by
  have hfresh : leaves (fun fs => !isUpToDate pairEnvironment (soleGraph "x") fs)
      (recoverLinkTransaction pairEnvironment soleKernel) = true := by decide +kernel
  rw [hrecover] at hfresh
  simpa [leaves] using hfresh

theorem sole_manifest : linkManifest (soleGraph "y") = linkManifest (soleGraph "x") := rfl

theorem linkAll_again_iff_sole :
    ∃ result k₁ result' k₂ full k₃,
      linkAll pairEnvironment (rowOrder (soleGraph "x")) soleKernel = .ok result k₁ ∧
        linkAll pairEnvironment (rowOrder (soleGraph "y")) k₁ = .ok result' k₂ ∧
        fullLink pairEnvironment (rowOrder (soleGraph "y")) k₁ = .ok full k₃ ∧
        ((∀ place rest content,
            HasPackage (soleGraph "x") (fun relative =>
                k₂.files.content? (pairEnvironment.liveRoot ++ relative)) place rest content ↔
              HasPackage (soleGraph "y") (fun relative =>
                k₃.files.content? (pairEnvironment.liveRoot ++ relative)) place rest content) ↔
          SamePackages (soleGraph "x") (soleGraph "y") pairEnvironment soleKernel.files) ∧
        (PlainGraph (soleGraph "x") → PlainGraph (soleGraph "y") →
          (SamePackages (soleGraph "x") (soleGraph "y") pairEnvironment soleKernel.files ↔
            SameSources (soleGraph "x") (soleGraph "y") pairEnvironment soleKernel.files)) := by
  obtain ⟨result, k₁, result', k₂, full, k₃, hfirst, hagain, hfull, -⟩ := sole_runs
  refine ⟨result, k₁, result', k₂, full, k₃, hfirst, hagain, hfull, ?_⟩
  exact linkAll_again_iff (rooted_of_rows (by decide +kernel)) (sole_linkable "x")
    (sole_linkable "y") (sole_provided "x" (by decide)) (sole_provided "y" (by decide)) sole_fresh
    sole_manifest hfirst hagain hfull

/-- The live tree keeps the file of the first graph, where a full link has that of the second. -/
theorem linkAll_stale :
    linkManifest (soleGraph "y") = linkManifest (soleGraph "x") ∧
      PlainGraph (soleGraph "x") ∧ PlainGraph (soleGraph "y") ∧
      ∃ result k₁ result' k₂ full k₃,
        linkAll pairEnvironment (rowOrder (soleGraph "x")) soleKernel = .ok result k₁ ∧
          linkAll pairEnvironment (rowOrder (soleGraph "y")) k₁ = .ok result' k₂ ∧
          fullLink pairEnvironment (rowOrder (soleGraph "y")) k₁ = .ok full k₃ ∧
          k₂.files.content? soleFile = some (.file (asBytes "module.exports = 1\n")) ∧
          k₃.files.content? soleFile = some (.file (asBytes "module.exports = 2\n")) ∧
          ¬∀ place rest content,
            HasPackage (soleGraph "x") (fun relative =>
                k₂.files.content? (pairEnvironment.liveRoot ++ relative)) place rest content ↔
              HasPackage (soleGraph "y") (fun relative =>
                k₃.files.content? (pairEnvironment.liveRoot ++ relative)) place rest content := by
  refine ⟨sole_manifest, sole_plain "x" (by decide), sole_plain "y" (by decide), ?_⟩
  obtain ⟨result, k₁, result', k₂, full, k₃, hfirst, hagain, hfull, hold, hnew⟩ := sole_runs
  have hfile := of_decide_eq_true hold
  have hfile' := of_decide_eq_true hnew
  refine ⟨result, k₁, result', k₂, full, k₃, hfirst, hagain, hfull, hfile, hfile', fun hsame => ?_⟩
  have hplace : soleFile = pairEnvironment.liveRoot ++
      (homeOf ("x@1.0.0", soleNode "x") ++ [asBytes "index.js"]) := by decide
  rw [hplace] at hfile hfile'
  obtain ⟨-, -, hother⟩ := (hsame _ [asBytes "index.js"] _).mp
    ⟨⟨("x@1.0.0", soleNode "x"), List.mem_singleton_self _, rfl⟩, by decide, hfile⟩
  have hcontents : Content.file (soleText 1) = .file (soleText 0) :=
    Option.some.inj (hfile'.symm.trans hother)
  exact absurd hcontents (by decide)

end Sole

end Oath.Store
