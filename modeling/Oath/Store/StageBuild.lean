import Oath.Resolve.PersistedPlan
import Oath.Store.LinkerRules

/-! The building of the stage: which links are there when a node is placed. -/

namespace Oath.Store
open Contracts Registry Resolve Unix

/-! ## Plans that lead through no link -/

/-- No place at which a link may be made is gone through for a later node, or on the way to the
record of the plan. -/
structure Contained (plan : PlacementPlan) : Prop where
  nodes (before after : List PlacementNode) (node : PlacementNode) :
    plan.nodes = before ++ node :: after → ∀ earlier ∈ before, ∀ place ∈ linkPlaces earlier,
      place ∉ walkedPlaces node
  planFile (node : PlacementNode) : node ∈ plan.nodes → ∀ place ∈ linkPlaces node,
    ¬place <+: [oathName, planName]

theorem forM_ok {α : Type} {f : α → Except String Unit} {items : List α}
    (h : items.forM f = .ok ()) : ∀ item ∈ items, f item = .ok () := by
  induction items with
  | nil => exact fun _ hnone => by cases hnone
  | cons item rest ih =>
    obtain ⟨_, hitem, hrest⟩ := Except.bind_eq_ok.mp h
    intro other hother
    rcases List.mem_cons.mp hother with rfl | hmem
    · exact hitem
    · exact ih hrest other hmem

/-! ## The phases -/

section Build
variable {env : LinkEnvironment} {I : LinkedFiles → Prop} {k k' : Kernel}

/-- Before the first node there is no link in the stage. -/
structure Bare (I : LinkedFiles → Prop) (env : LinkEnvironment) (fs : LinkedFiles) : Prop where
  rooted : Rooted fs
  inv : I fs
  links : LinksAt env ∅ fs

theorem Bare.next {ε α : Type} {A : Limits} {x : EStateM ε Kernel α} {a : α}
    (h : Bare I env k.files) (hmakes : Makes (Within A) x k) (hx : x k = .ok a k')
    (hI : ∀ fs effect, I fs → Within A fs effect → I (effect.apply fs)) (hlinks : A.links = ∅) :
    Bare I env k'.files where
  rooted := rooted_kept hmakes hx h.rooted
  inv := hmakes.inv_ok hx hI h.inv
  links := by
    apply hmakes.inv_ok hx (fun fs effect hbefore hwithin => ?_) h.links
    apply linksAt_of_within hbefore hwithin _ le_rfl
    intro relative hmem
    rw [hlinks] at hmem
    exact hmem.elim

theorem Bare.free {fs : LinkedFiles} (h : Bare I env fs) (names : List Name) :
    LinkFree fs (wholeWay env.project (stageName :: names)) :=
  h.links.wholeWay fun _ _ => Set.notMem_empty _

theorem bare_of_absent (hrooted : Rooted k.files) (hinv : I k.files)
    (hnone : k.files.entryAt? (env.staged []) = none) : Bare I env k.files := by
  refine ⟨hrooted, hinv, fun relative hlink => ?_⟩
  obtain ⟨target, htarget⟩ := hlink
  have hgone := hrooted.none_below hnone relative
  rw [staged_append, List.nil_append] at hgone
  rw [hgone] at htarget
  cases htarget

def oathLimits (env : LinkEnvironment) : Limits :=
  dirsOnly {loc | ∃ init, init <+: [oathName] ∧ loc = env.staged init}

theorem makes_oathDir (hbare : Bare I env k.files) :
    Makes (Within (oathLimits env)) (createDirAll env.faults (env.stage.join oathName)) k := by
  have hpath : env.stage.join oathName = .ofNames env.project [stageName, oathName] := rfl
  rw [hpath]
  apply makes_createDirAll ((hbare.free [oathName]).mono (way_subset _ _))
  exact fun loc hloc => mem_wholeWay_staged.mp hloc

/-- The places of the links of some nodes. -/
def placedBy (nodes : List PlacementNode) : Set (List Name) :=
  {place | ∃ node ∈ nodes, place ∈ linkPlaces node}

theorem nodeLimits_links {node : PlacementNode} {names relative : List Name}
    {dirs files : Set (List Name)} (hnames : namesOf node.location = some names)
    (h : env.staged relative ∈ (nodeLimits env node names dirs files).links) :
    relative ∈ linkPlaces node := by
  unfold nodeLimits at h
  refine ⟨names, hnames, ?_⟩
  cases hlink : node.link with
  | true =>
    rw [hlink] at h
    exact staged_injective env h
  | false =>
    rw [hlink] at h
    rcases h with hnone | ⟨bin, hbin⟩
    · exact hnone.elim
    · exact ⟨bin, staged_injective env hbin⟩

theorem linksAt_next {ε α : Type} {B : Limits} {before : List PlacementNode} {node : PlacementNode}
    {x : EStateM ε Kernel α} {a : α} (hlinks : LinksAt env (placedBy before) k.files)
    (hmakes : Makes (Within B) x k) (hx : x k = .ok a k')
    (hB : ∀ relative, env.staged relative ∈ B.links → relative ∈ linkPlaces node) :
    LinksAt env (placedBy (before ++ [node])) k'.files := by
  have hmore : LinksAt env (placedBy (before ++ [node])) k.files := by
    intro relative hlink
    obtain ⟨earlier, hearlier, hplace⟩ := hlinks relative hlink
    exact ⟨earlier, List.mem_append_left _ hearlier, hplace⟩
  apply hmakes.inv_ok hx (fun fs effect hbefore hwithin => ?_) hmore
  apply linksAt_of_within hbefore hwithin _ le_rfl
  exact fun relative hmem => ⟨node, by simp, hB relative hmem⟩

end Build

end Oath.Store
