import Oath.Library.FileLookup

/-! Relative paths as texts: a path that is put together of components is cut into these components
again, and what it is joined to is gone through first. -/

namespace Unix

/-- The component as it is written. -/
def Component.text : Component → List UInt8
  | .rootDir => [slash]
  | .curDir => [dot]
  | .parentDir => [dot, dot]
  | .normal name => name

/-- What is absolute stands for itself; else there is one slash between the two. -/
def joinText (base path : List UInt8) : List UInt8 :=
  if isAbsolute path then path
  else if base = [] ∨ base.getLast? = some slash then base ++ path
  else base ++ slash :: path

def ofComponents (parts : List Component) : List UInt8 :=
  parts.foldl (fun path part => joinText path part.text) []

/-- The parent of a path, unless the path is empty or ends in the root. -/
def parent? (parts : List Component) : Option (List Component) :=
  match parts.getLast? with
  | none => none
  | some .rootDir => none
  | some _ => some parts.dropLast

/-- An absolute path without `..`. -/
def Normalized (path : List UInt8) : Prop :=
  ∃ names : List Name, components path = .rootDir :: names.map .normal

/-- The components of a path, every `..` taken back. -/
def normalize (path : List UInt8) : List Component :=
  .rootDir :: (resolve [] (components path)).map .normal

/-- What stands between two slashes and is no component of its own kind. -/
structure IsNormal (name : Name) : Prop where
  component : component? name = some (.normal name)
  noSlash : slash ∉ name

/-! ## Names -/

section Names
variable {path : List UInt8} {piece name : Name} {names : List Name}

theorem slash_notMem_pieces (h : piece ∈ pieces path) : slash ∉ piece := by
  induction path generalizing piece with
  | nil =>
    rw [List.mem_singleton.mp h]
    exact List.not_mem_nil
  | cons b bs ih =>
    rw [pieces] at h
    split_ifs at h with hb
    · rcases List.mem_cons.mp h with rfl | hrest
      · exact List.not_mem_nil
      · exact ih hrest
    · cases hbs : pieces bs with
      | nil => exact absurd hbs (pieces_ne_nil bs)
      | cons first rest =>
        rw [hbs] at h
        rcases List.mem_cons.mp h with rfl | hrest
        · have hfirst := ih (hbs ▸ List.mem_cons_self)
          exact fun hmem => (List.mem_cons.mp hmem).elim (fun heq => hb heq.symm) hfirst
        · exact ih (hbs ▸ List.mem_cons_of_mem _ hrest)

theorem isNormal_of_mem (h : .normal name ∈ components path) : IsNormal name := by
  have hbody : .normal name ∈ (pieces path).filterMap component? := by
    unfold components at h
    dsimp only at h
    split_ifs at h
    · exact (List.mem_cons.mp h).resolve_left (by simp)
    · exact (List.mem_cons.mp h).resolve_left (by simp)
    · exact h
  obtain ⟨piece, hpiece, hcomponent⟩ := List.mem_filterMap.mp hbody
  have hsame : piece = name := by
    unfold component? at hcomponent
    split_ifs at hcomponent with _ hparent
    · cases hcomponent
    · exact Component.normal.inj (Option.some.inj hcomponent)
  subst hsame
  exact ⟨hcomponent, slash_notMem_pieces hpiece⟩

end Names

/-! ## Texts of components -/

section Texts

/-- A way up and then down to a place. -/
def upThenDown (up : ℕ) (names : List Name) : List Component :=
  List.replicate up .parentDir ++ names.map .normal

/-- A component that a piece of a path stands for. -/
def IsPart (part : Component) : Prop := component? part.text = some part ∧ slash ∉ part.text

theorem IsNormal.isPart {name : Name} (h : IsNormal name) : IsPart (.normal name) :=
  ⟨h.component, h.noSlash⟩

theorem isPart_parentDir : IsPart .parentDir := ⟨rfl, by decide⟩

theorem isPart_upThenDown {up : ℕ} {names : List Name} (h : ∀ name ∈ names, IsNormal name) :
    ∀ part ∈ upThenDown up names, IsPart part := by
  intro part hpart
  rcases List.mem_append.mp hpart with hup | hdown
  · exact List.eq_of_mem_replicate hup ▸ isPart_parentDir
  · obtain ⟨name, hname, rfl⟩ := List.mem_map.mp hdown
    exact (h name hname).isPart

variable {part : Component} {parts : List Component}

theorem IsPart.text_ne_nil (h : IsPart part) : part.text ≠ [] := by
  intro hnil
  have hcomponent := h.1
  rw [hnil] at hcomponent
  cases hcomponent

theorem IsPart.not_isAbsolute (h : IsPart part) : isAbsolute part.text = false := by
  unfold isAbsolute
  cases htext : part.text with
  | nil => rfl
  | cons b bs =>
    have hb : b ≠ slash := fun heq => h.2 (htext ▸ heq ▸ List.mem_cons_self)
    simp [hb]

theorem getLast?_text_ne (h : IsPart part) (front : List UInt8) :
    (front ++ part.text).getLast? ≠ some slash := by
  rw [List.getLast?_append_of_ne_nil _ h.text_ne_nil]
  intro hlast
  exact h.2 (List.mem_of_getLast? hlast)

/-- Behind a text that does not end in a slash every component comes with one. -/
theorem foldl_joinText (h : ∀ part ∈ parts, IsPart part) {base : List UInt8} (hne : base ≠ [])
    (hlast : base.getLast? ≠ some slash) :
    parts.foldl (fun path part => joinText path part.text) base =
      base ++ parts.flatMap fun part => slash :: part.text := by
  induction parts generalizing base with
  | nil => exact (List.append_nil base).symm
  | cons part parts ih =>
    rw [List.forall_mem_cons] at h
    have hjoin : joinText base part.text = base ++ slash :: part.text := by
      rw [joinText, h.1.not_isAbsolute, if_neg Bool.false_ne_true, if_neg (not_or.mpr ⟨hne, hlast⟩)]
    have hend : (base ++ slash :: part.text).getLast? ≠ some slash := by
      rw [← List.singleton_append, ← List.append_assoc]
      exact getLast?_text_ne h.1 _
    rw [List.foldl_cons, hjoin, ih h.2 (List.append_ne_nil_of_left_ne_nil hne _) hend,
      List.flatMap_cons, List.append_assoc]

theorem ofComponents_cons (h : ∀ other ∈ part :: parts, IsPart other) :
    ofComponents (part :: parts) = part.text ++ parts.flatMap fun part => slash :: part.text := by
  rw [List.forall_mem_cons] at h
  have hfirst : joinText [] part.text = part.text := by
    rw [joinText, h.1.not_isAbsolute, if_neg Bool.false_ne_true, if_pos (Or.inl rfl),
      List.nil_append]
  have hlast : part.text.getLast? ≠ some slash := fun hlast => h.1.2 (List.mem_of_getLast? hlast)
  unfold ofComponents
  rw [List.foldl_cons, hfirst, foldl_joinText h.2 h.1.text_ne_nil hlast]

theorem pieces_flatMap (h : ∀ other ∈ part :: parts, IsPart other) :
    pieces (part.text ++ parts.flatMap fun part => slash :: part.text) =
      (part :: parts).map Component.text := by
  induction parts generalizing part with
  | nil =>
    rw [List.flatMap_nil, List.append_nil]
    exact pieces_name (h part List.mem_cons_self).2
  | cons next parts ih =>
    have hpart := h part List.mem_cons_self
    have hrest : ∀ other ∈ next :: parts, IsPart other := fun other hmem =>
      h other (List.mem_cons_of_mem _ hmem)
    rw [List.flatMap_cons, List.cons_append, pieces_append_slash, pieces_name hpart.2, ih hrest]
    rfl

theorem filterMap_text (h : ∀ part ∈ parts, IsPart part) :
    (parts.map Component.text).filterMap component? = parts := by
  rw [List.filterMap_map]
  have hall : ∀ part ∈ parts, (component? ∘ Component.text) part = some part := fun part hmem =>
    (h part hmem).1
  rw [List.filterMap_congr hall, List.filterMap_some]

theorem isAbsolute_ofComponents (h : ∀ part ∈ parts, IsPart part) :
    isAbsolute (ofComponents parts) = false := by
  cases parts with
  | nil => rfl
  | cons part parts =>
    have hpart := h part List.mem_cons_self
    have habsolute := hpart.not_isAbsolute
    rw [ofComponents_cons h]
    unfold isAbsolute at habsolute ⊢
    rw [List.head?_append_of_ne_nil _ hpart.text_ne_nil]
    exact habsolute

/-- A path of such components is cut into them again. -/
theorem components_ofComponents (h : ∀ part ∈ parts, IsPart part) :
    components (ofComponents parts) = parts := by
  cases parts with
  | nil => rfl
  | cons part parts =>
    have hpart := h part List.mem_cons_self
    have hpieces : pieces (ofComponents (part :: parts)) = (part :: parts).map Component.text := by
      rw [ofComponents_cons h, pieces_flatMap h]
    have hdot : part.text ≠ [dot] := by
      intro heq
      have hcomponent := hpart.1
      rw [heq] at hcomponent
      cases hcomponent
    unfold components
    dsimp only
    rw [isAbsolute_ofComponents h, if_neg Bool.false_ne_true, hpieces, filterMap_text h,
      List.map_cons, List.head?_cons, if_neg fun heq => hdot (Option.some.inj heq)]

end Texts

/-! ## Joined paths -/

section Joined
variable {base path : List UInt8}

/-- The components without the `.` at the start. -/
theorem resolve_components (loc : Location) (h : isAbsolute path = false) :
    resolve loc (components path) = resolve loc ((pieces path).filterMap component?) := by
  unfold components
  dsimp only
  rw [h, if_neg Bool.false_ne_true]
  split_ifs
  · rfl
  · rfl

theorem isAbsolute_append (h : isAbsolute base) (rest : List UInt8) :
    isAbsolute (base ++ rest) := by
  cases base with
  | nil => cases h
  | cons b bs => exact h

/-- A path that is joined to an absolute one is gone through from there. -/
theorem resolve_joinText (hbase : isAbsolute base) (hpath : isAbsolute path = false) :
    resolve [] (components (joinText base path)) = resolve (resolve [] (components base))
      (components path) := by
  have habsolute {text : List UInt8} (h : isAbsolute text) :
      components text = .rootDir :: (pieces text).filterMap component? := by
    unfold components
    dsimp only
    rw [if_pos h]
  have hne : base ≠ [] := by
    rintro rfl
    cases hbase
  rw [resolve_components _ hpath]
  unfold joinText
  rw [hpath, if_neg Bool.false_ne_true]
  split_ifs with hend
  · obtain ⟨front, rfl⟩ := List.getLast?_eq_some_iff.mp (hend.resolve_left hne)
    have hsplit : front ++ [slash] ++ path = front ++ slash :: path := List.append_assoc ..
    have hfront : pieces (front ++ [slash]) = pieces front ++ [[]] := pieces_append_slash front []
    rw [habsolute (isAbsolute_append hbase path), habsolute hbase, hsplit, pieces_append_slash,
      hfront, List.filterMap_append, List.filterMap_append, resolve_cons, resolve_cons,
      resolve_append, resolve_append]
    rfl
  · rw [habsolute (isAbsolute_append hbase _), habsolute hbase, pieces_append_slash,
      List.filterMap_append, resolve_cons, resolve_cons, resolve_append]

end Joined

/-! ## The way back -/

theorem resolve_replicate (loc : Location) (up : ℕ) :
    resolve loc (List.replicate up .parentDir) = loc.take (loc.length - up) := by
  induction up generalizing loc with
  | zero => exact (List.take_length).symm
  | succ up ih =>
    rw [List.replicate_succ, resolve_cons, ih]
    change loc.dropLast.take (loc.dropLast.length - up) = _
    rw [List.length_dropLast, List.dropLast_eq_take, List.take_take, Nat.sub_sub, Nat.add_comm 1 up]
    congr 1
    omega

theorem commonNames_le (source dest : List Name) : commonNames source dest ≤ source.length := by
  fun_induction commonNames source dest with
  | case1 as b bs ih => exact Nat.succ_le_succ ih
  | case2 => exact Nat.zero_le _
  | case3 => exact Nat.zero_le _

/-- The way from one place to another leads there. -/
theorem resolve_relativeParts (source dest : List Name) :
    resolve source (relativeParts source dest) = dest := by
  have hparts : resolve source (upThenDown (source.length - commonNames source dest)
      (dest.drop (commonNames source dest))) = dest := by
    have hle := commonNames_le source dest
    unfold upThenDown
    rw [resolve_append, resolve_replicate, resolve_normal, Nat.sub_sub_self hle, take_commonNames,
      List.take_append_drop]
  unfold relativeParts
  dsimp only
  split_ifs with hempty
  · rw [List.isEmpty_iff] at hempty
    unfold upThenDown at hparts
    rw [hempty] at hparts
    exact hparts
  · exact hparts

end Unix
