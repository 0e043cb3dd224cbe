import Mathlib.Data.List.Infix

/-! The lookup of a module by name: the `node_modules` directories of a directory and of those
above it, the nearest first. -/

namespace ModuleLookup

def nodeModules : String := "node_modules"

/-- A directory of modules is not searched for one of its own. -/
def searchPath (dir : List String) : List (List String) :=
  dir.inits.reverse.filter fun above => above.getLast? ≠ some nodeModules

/-- Where a module of this name stands for the files of a directory. -/
def place (dir : List String) (name : String) : String :=
  dir.foldr (fun part below => part ++ "/" ++ below) (nodeModules ++ "/" ++ name)

theorem nodeModules_infix_place (dir : List String) (name : String) :
    nodeModules.toList <:+: (place dir name).toList := by
  induction dir with
  | nil =>
    have hplace : (place [] name).toList = nodeModules.toList ++ ("/".toList ++ name.toList) := by
      simp [place, String.toList_append]
    rw [hplace]
    exact (List.prefix_append _ _).isInfix
  | cons part dir ih =>
    have hplace : (place (part :: dir) name).toList =
        (part.toList ++ "/".toList) ++ (place dir name).toList := by
      simp [place, String.toList_append]
    rw [hplace]
    exact ih.trans (List.suffix_append _ _).isInfix

variable {α β : Type} (present : String → α → Prop)

/-- The first module of the name on the search path. -/
def Resolves (dir : List String) (name : String) (found : α) : Prop :=
  ∃ before above after, searchPath dir = before ++ above :: after ∧
    present (place above name) found ∧ ∀ nearer ∈ before, ∀ other, ¬present (place nearer name) other

variable {present} {dir : List String} {name : String}

theorem Resolves.exists_place {found : α} (h : Resolves present dir name found) :
    ∃ above, present (place above name) found := by
  obtain ⟨_, above, _, -, hfound, -⟩ := h
  exact ⟨above, hfound⟩

/-- The same is found where no other places have a module and the one that was found stays. -/
theorem Resolves.transfer {present' : String → β → Prop} {found : α} {found' : β}
    (h : Resolves present dir name found)
    (hother : ∀ above other', present' (place above name) other' →
      ∃ other, present (place above name) other)
    (hstays : ∀ above, present (place above name) found → present' (place above name) found') :
    Resolves present' dir name found' := by
  obtain ⟨before, above, after, hpath, hfound, hbefore⟩ := h
  refine ⟨before, above, after, hpath, hstays _ hfound, fun nearer hnearer other' hpresent => ?_⟩
  obtain ⟨other, hmore⟩ := hother nearer other' hpresent
  exact hbefore nearer hnearer other hmore

end ModuleLookup
