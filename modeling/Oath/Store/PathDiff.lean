import Oath.Library.RelativePaths
import Oath.Store.GraphTree

/-! The relative path from a link to its target, as a text. Joined to the directory of the link it
leads to the target. -/

namespace Oath.Store
open Registry Unix

/-- The directory that the path of a link is relative to. -/
def linkDir (source : List UInt8) : List Component :=
  (parent? (components source)).getD (components source)

def relativeComponents (fromDir target : List Component) : List Component :=
  List.replicate (fromDir.length - commonLength fromDir target) .parentDir ++
    target.drop (commonLength fromDir target)

/-- `pathdiff_relative` -/
def pathdiffText (source target : List UInt8) : List UInt8 :=
  let rel := ofComponents (relativeComponents (linkDir source) (components target))
  if rel = [] then [dot] else rel

/-! ## Common directories -/

section Common
variable {fromDir target : List Component}

theorem commonLength_append (front : List Component) :
    commonLength (front ++ fromDir) (front ++ target) =
      front.length + commonLength fromDir target := by
  induction front with
  | nil => exact (Nat.zero_add _).symm
  | cons part front ih =>
    rw [List.cons_append, List.cons_append, commonLength, if_pos rfl, ih, List.length_cons]
    omega

/-- What both paths begin with does not matter. -/
theorem relativeComponents_append (front : List Component) :
    relativeComponents (front ++ fromDir) (front ++ target) =
      relativeComponents fromDir target := by
  unfold relativeComponents
  rw [commonLength_append, List.length_append, Nat.add_sub_add_left, List.drop_append,
    List.drop_eq_nil_of_le (Nat.le_add_right _ _), Nat.add_sub_cancel_left, List.nil_append]

/-- The links of the linker are those of the whole paths. -/
theorem pathdiffRelative_eq_relativeComponents {link target : Path}
    (hbase : link.base = target.base) :
    pathdiffRelative link target =
      let relative := relativeComponents (.rootDir :: link.base.map .normal ++ link.parent.parts)
        (.rootDir :: target.base.map .normal ++ target.parts)
      if relative.isEmpty then [.curDir] else relative := by
  rw [hbase, relativeComponents_append]
  rfl

theorem relativeComponents_map (source dest : List Name) :
    relativeComponents (.rootDir :: source.map .normal) (.rootDir :: dest.map .normal) =
      upThenDown (source.length - commonNames source dest)
        (dest.drop (commonNames source dest)) := by
  have hroot : relativeComponents ([.rootDir] ++ source.map .normal)
      ([.rootDir] ++ dest.map .normal) =
        relativeComponents (source.map .normal) (dest.map .normal) := relativeComponents_append _
  refine hroot.trans ?_
  unfold relativeComponents upThenDown
  rw [commonLength_map, List.length_map, List.map_drop]

end Common

/-! ## The text -/

section Text
variable {source target dir : List UInt8} {dirNames names : List Name}

theorem linkDir_eq (h : components source = .rootDir :: names.map .normal) :
    linkDir source = .rootDir :: names.dropLast.map .normal := by
  unfold linkDir parent?
  rw [h]
  rcases List.eq_nil_or_concat names with rfl | ⟨front, last, rfl⟩
  · rfl
  · have hlast : (Component.rootDir :: (front ++ [last]).map Component.normal).getLast? =
        some (.normal last) := by
      rw [List.map_append, ← List.cons_append]
      exact List.getLast?_concat
    have hinit : (Component.rootDir :: (front ++ [last]).map Component.normal).dropLast =
        .rootDir :: front.map .normal := by
      rw [List.map_append, ← List.cons_append]
      exact List.dropLast_concat
    rw [List.concat_eq_append, hlast, List.dropLast_concat]
    exact hinit

theorem components_pathdiffText (hdir : linkDir source = .rootDir :: dirNames.map .normal)
    (htarget : components target = .rootDir :: names.map .normal) :
    isAbsolute (pathdiffText source target) = false ∧
      components (pathdiffText source target) = relativeParts dirNames names := by
  have hnames : ∀ name ∈ names.drop (commonNames dirNames names), IsNormal name := by
    intro name hname
    refine isNormal_of_mem (htarget ▸ List.mem_cons_of_mem _ (List.mem_map_of_mem ?_))
    exact List.mem_of_mem_drop hname
  have hparts : ∀ part ∈ upThenDown (dirNames.length - commonNames dirNames names)
      (names.drop (commonNames dirNames names)), IsPart part := isPart_upThenDown hnames
  unfold pathdiffText relativeParts
  dsimp only
  rw [hdir, htarget, relativeComponents_map]
  generalize hrel : upThenDown (dirNames.length - commonNames dirNames names)
    (names.drop (commonNames dirNames names)) = parts at hparts
  unfold upThenDown at hrel
  rw [hrel]
  cases parts with
  | nil => exact ⟨rfl, rfl⟩
  | cons part parts =>
    have hne : ofComponents (part :: parts) ≠ [] := by
      rw [ofComponents_cons hparts]
      exact List.append_ne_nil_of_left_ne_nil (hparts part List.mem_cons_self).text_ne_nil _
    rw [if_neg hne, if_neg (by simp)]
    exact ⟨isAbsolute_ofComponents hparts, components_ofComponents hparts⟩

/-- The relative path is never absolute, and joined to the directory of the link it leads to the
target. -/
theorem pathdiffText_joins (hsource : Normalized source) (htarget : Normalized target)
    (hdir : components dir = linkDir source) :
    isAbsolute (pathdiffText source target) = false ∧
      normalize (joinText dir (pathdiffText source target)) = components target := by
  obtain ⟨sourceNames, hsource⟩ := hsource
  obtain ⟨names, htarget⟩ := htarget
  have hlink := linkDir_eq hsource
  obtain ⟨hrelative, hparts⟩ := components_pathdiffText hlink htarget
  have habsolute : isAbsolute dir := by
    by_contra hnot
    rw [Bool.not_eq_true] at hnot
    have hhead := congrArg List.head? (hdir.trans hlink)
    unfold components at hhead
    dsimp only at hhead
    rw [hnot, if_neg Bool.false_ne_true] at hhead
    split_ifs at hhead
    · cases hhead
    · have hmem := List.mem_of_mem_head? (Option.mem_def.mpr hhead)
      obtain ⟨piece, -, hpiece⟩ := List.mem_filterMap.mp hmem
      unfold component? at hpiece
      split_ifs at hpiece <;> cases hpiece
  have hbase : resolve [] (components dir) = sourceNames.dropLast := by
    rw [hdir, hlink, resolve_cons]
    exact resolve_normal [] _
  refine ⟨hrelative, ?_⟩
  unfold Unix.normalize
  rw [resolve_joinText habsolute hrelative, hbase, hparts, resolve_relativeParts, htarget]

/-- A link to an executable of the package beside it. -/
theorem pathdiffText_joins_bin :
    isAbsolute (pathdiffText (asBytes "/p/.bin/tool") (asBytes "/p/tool/cli.js")) = false ∧
      normalize (joinText (asBytes "/p/.bin")
        (pathdiffText (asBytes "/p/.bin/tool") (asBytes "/p/tool/cli.js"))) =
          components (asBytes "/p/tool/cli.js") :=
  pathdiffText_joins ⟨[asBytes "p", asBytes ".bin", asBytes "tool"], by decide⟩
    ⟨[asBytes "p", asBytes "tool", asBytes "cli.js"], by decide⟩ (by decide)

end Text

end Oath.Store
