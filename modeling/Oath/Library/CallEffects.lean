import Mathlib.Data.Set.Basic
import Oath.Library.SystemCalls

/-! What a run may do to the files: every effect of it obeys a rule in the state it meets, and
invariants follow from the rule. -/

namespace Unix

def applyAll (fs : LinkedFiles) (effects : List Effect) : LinkedFiles :=
  effects.foldl Effect.apply fs

/-- Each effect obeys the rule in the files that it meets. -/
def Obey (Q : LinkedFiles → Effect → Prop) : LinkedFiles → List Effect → Prop
  | _, [] => True
  | fs, effect :: rest => Q fs effect ∧ Obey Q (effect.apply fs) rest

section Obey
variable {Q R : LinkedFiles → Effect → Prop} {I : LinkedFiles → Prop} {fs : LinkedFiles}

theorem obey_append {before after : List Effect} :
    Obey Q fs (before ++ after) ↔ Obey Q fs before ∧ Obey Q (applyAll fs before) after := by
  induction before generalizing fs with
  | nil => exact ⟨fun h => ⟨trivial, h⟩, fun h => h.2⟩
  | cons effect rest ih =>
    have hrest := @ih (effect.apply fs)
    exact (and_congr Iff.rfl hrest).trans and_assoc.symm

theorem applyAll_append (fs : LinkedFiles) (before after : List Effect) :
    applyAll fs (before ++ after) = applyAll (applyAll fs before) after := List.foldl_append

theorem Obey.mono {effects : List Effect} (h : Obey Q fs effects)
    (himp : ∀ fs effect, Q fs effect → R fs effect) : Obey R fs effects := by
  induction effects generalizing fs with
  | nil => trivial
  | cons effect rest ih => exact ⟨himp _ _ h.1, ih h.2⟩

theorem Obey.inv {effects : List Effect} (h : Obey Q fs effects)
    (hclosed : ∀ fs effect, I fs → Q fs effect → I (effect.apply fs)) (hI : I fs) :
    I (applyAll fs effects) := by
  induction effects generalizing fs with
  | nil => exact hI
  | cons effect rest ih => exact ih h.2 (hclosed _ _ hI h.1)

end Obey

/-! ## Runs -/

/-- The run makes effects that obey the rule, whether it fails or not. -/
def Makes {ε α : Type} (Q : LinkedFiles → Effect → Prop) (x : EStateM ε Kernel α) (k : Kernel) :
    Prop :=
  ∃ effects, (x k).state.effects = k.effects ++ effects ∧
    (x k).state.files = applyAll k.files effects ∧ Obey Q k.files effects

section Makes
variable {ε ε' α β : Type} {Q R : LinkedFiles → Effect → Prop} {I : LinkedFiles → Prop}
  {k k' : Kernel}

theorem makes_of_state {x : EStateM ε Kernel α} (heffects : (x k).state.effects = k.effects)
    (hfiles : (x k).state.files = k.files) : Makes Q x k :=
  ⟨[], by rw [heffects, List.append_nil], hfiles, trivial⟩

theorem makes_pure (a : α) : Makes Q (pure a : EStateM ε Kernel α) k := makes_of_state rfl rfl

theorem makes_throw (e : ε) : Makes Q (throw e : EStateM ε Kernel α) k := makes_of_state rfl rfl

theorem makes_read (f : LinkedFiles → α) : Makes Q (read f : EStateM ε Kernel α) k :=
  makes_of_state rfl rfl

theorem readOk_state (f : LinkedFiles → Except FileError α) : (readOk f k).state = k := by
  unfold readOk
  cases f k.files <;> rfl

theorem makes_readOk (f : LinkedFiles → Except FileError α) : Makes Q (readOk f) k :=
  makes_of_state (by rw [readOk_state]) (by rw [readOk_state])

theorem read_eq_ok {f : LinkedFiles → α} {a : α} :
    (read f : EStateM ε Kernel α) k = .ok a k' ↔ a = f k.files ∧ k' = k := by
  unfold read
  rw [EStateM.Result.ok.injEq, eq_comm, @eq_comm _ k' k]

theorem readOk_eq_ok {f : LinkedFiles → Except FileError α} {a : α} :
    readOk f k = .ok a k' ↔ f k.files = .ok a ∧ k' = k := by
  unfold readOk
  cases f k.files with
  | ok b => simp [eq_comm]
  | error e => simp

theorem Makes.mono {x : EStateM ε Kernel α} (h : Makes Q x k)
    (himp : ∀ fs effect, Q fs effect → R fs effect) : Makes R x k := by
  obtain ⟨effects, heffects, hfiles, hobey⟩ := h
  exact ⟨effects, heffects, hfiles, hobey.mono himp⟩

theorem makes_bind {x : EStateM ε Kernel α} {f : α → EStateM ε Kernel β} (hx : Makes Q x k)
    (hf : ∀ a k', x k = .ok a k' → Makes Q (f a) k') : Makes Q (x >>= f) k := by
  obtain ⟨effects, heffects, hfiles, hobey⟩ := hx
  show ∃ _, (EStateM.bind x f k).state.effects = _ ∧ (EStateM.bind x f k).state.files = _ ∧ _
  unfold EStateM.bind
  cases h : x k with
  | error e k' =>
    rw [h] at heffects hfiles
    exact ⟨effects, heffects, hfiles, hobey⟩
  | ok a k' =>
    rw [h] at heffects hfiles
    obtain ⟨more, hmore, hmoreFiles, hmoreObey⟩ := hf a k' h
    have hafter : k'.files = applyAll k.files effects := hfiles
    refine ⟨effects ++ more, ?_, ?_, ?_⟩
    · have hbefore : k'.effects = k.effects ++ effects := heffects
      rw [← List.append_assoc, ← hbefore]
      exact hmore
    · rw [applyAll_append, ← hafter]
      exact hmoreFiles
    · rw [obey_append, ← hafter]
      exact ⟨hobey, hmoreObey⟩

theorem makes_withErrors {f : ε → ε'} {x : EStateM ε Kernel α} (h : Makes Q x k) :
    Makes Q (withErrors f x) k := by
  have hstate : (withErrors f x k).state = (x k).state := by
    unfold withErrors
    cases x k <;> rfl
  unfold Makes
  rw [hstate]
  exact h

theorem withErrors_eq_ok {f : ε → ε'} {x : EStateM ε Kernel α} {a : α} :
    withErrors f x k = .ok a k' ↔ x k = .ok a k' := by
  unfold withErrors
  cases x k <;> simp

theorem makes_attempt {x : EStateM ε Kernel α} (h : Makes Q x k) :
    Makes Q (attempt x : EStateM ε' Kernel (Except ε α)) k := by
  have hstate : ((attempt x : EStateM ε' Kernel _) k).state = (x k).state := by
    unfold attempt
    cases x k <;> rfl
  unfold Makes
  rw [hstate]
  exact h

theorem attempt_eq_ok {x : EStateM ε Kernel α} {a : α} :
    (attempt x : EStateM ε' Kernel (Except ε α)) k = .ok (.ok a) k' ↔ x k = .ok a k' := by
  unfold attempt
  cases x k <;> simp

theorem attempt_eq_error {x : EStateM ε Kernel α} {e : ε} :
    (attempt x : EStateM ε' Kernel (Except ε α)) k = .ok (.error e) k' ↔ x k = .error e k' := by
  unfold attempt
  cases x k <;> simp

theorem makes_perform {faults : Faults} {call : LinkedFiles → Except FileError Effect}
    (h : ∀ effect, call k.files = .ok effect → Q k.files effect) :
    Makes Q (perform faults call) k := by
  unfold Makes perform
  cases hcall : call k.files with
  | error e => exact ⟨[], (List.append_nil _).symm, rfl, trivial⟩
  | ok effect =>
    dsimp only
    cases faults k.calls effect with
    | some e => exact ⟨[], (List.append_nil _).symm, rfl, trivial⟩
    | none => exact ⟨[effect], rfl, rfl, h effect hcall, trivial⟩

theorem perform_eq_ok {faults : Faults} {call : LinkedFiles → Except FileError Effect}
    (h : perform faults call k = .ok () k') : ∃ effect, call k.files = .ok effect ∧
      k'.files = effect.apply k.files ∧ k'.effects = k.effects ++ [effect] := by
  unfold perform at h
  cases hcall : call k.files with
  | error e =>
    rw [hcall] at h
    cases h
  | ok effect =>
    rw [hcall] at h
    dsimp only at h
    cases hfault : faults k.calls effect with
    | some e =>
      rw [hfault] at h
      cases h
    | none =>
      rw [hfault] at h
      obtain ⟨-, rfl⟩ := EStateM.Result.ok.inj h
      exact ⟨effect, rfl, rfl, rfl⟩

theorem perform_eq_error {faults : Faults} {call : LinkedFiles → Except FileError Effect}
    {e : FileError} (h : perform faults call k = .error e k') :
    k'.files = k.files ∧ k'.effects = k.effects := by
  unfold perform at h
  cases hcall : call k.files with
  | error e =>
    rw [hcall] at h
    obtain ⟨-, rfl⟩ := EStateM.Result.error.inj h
    exact ⟨rfl, rfl⟩
  | ok effect =>
    rw [hcall] at h
    dsimp only at h
    cases hfault : faults k.calls effect with
    | some e =>
      rw [hfault] at h
      obtain ⟨-, rfl⟩ := EStateM.Result.error.inj h
      exact ⟨rfl, rfl⟩
    | none =>
      rw [hfault] at h
      cases h

theorem Makes.inv {x : EStateM ε Kernel α} (h : Makes Q x k)
    (hclosed : ∀ fs effect, I fs → Q fs effect → I (effect.apply fs)) (hI : I k.files) :
    I (x k).state.files := by
  obtain ⟨effects, -, hfiles, hobey⟩ := h
  rw [hfiles]
  exact hobey.inv hclosed hI

theorem Makes.of_ok {x : EStateM ε Kernel α} {a : α} (h : Makes Q x k) (hx : x k = .ok a k') :
    ∃ effects, k'.effects = k.effects ++ effects ∧ k'.files = applyAll k.files effects ∧
      Obey Q k.files effects := by
  unfold Makes at h
  rw [hx] at h
  exact h

theorem Makes.inv_ok {x : EStateM ε Kernel α} {a : α} (h : Makes Q x k) (hx : x k = .ok a k')
    (hclosed : ∀ fs effect, I fs → Q fs effect → I (effect.apply fs)) (hI : I k.files) :
    I k'.files := by
  have hstate := h.inv hclosed hI
  rw [hx] at hstate
  exact hstate

/-- A computation on one item after another, with an invariant that may speak of the items
that are still to come. -/
theorem makes_forM {f : β → EStateM ε Kernel Unit} {J : List β → LinkedFiles → Prop}
    {items : List β} (hJ : J items k.files)
    (hstep : ∀ item rest k, J (item :: rest) k.files →
      Makes Q (f item) k ∧ ∀ k', f item k = .ok () k' → J rest k'.files) :
    Makes Q (items.forM f) k := by
  induction items generalizing k with
  | nil => exact makes_pure ()
  | cons item rest ih =>
    obtain ⟨hmakes, hnext⟩ := hstep item rest k hJ
    exact makes_bind hmakes fun _ k' hk' => ih (hnext k' hk')

end Makes

/-! ## Rules by place -/

/-- The places at which a run may make directories, files and symbolic links, and remove. -/
structure Limits where
  dirs : Set Location
  files : Set Location
  links : Set Location
  removed : Set Location

def IsLink (fs : LinkedFiles) (loc : Location) : Prop :=
  ∃ target, fs.entryAt? loc = some (.symlink target)

def IsFile (fs : LinkedFiles) (loc : Location) : Prop :=
  ∃ inode, fs.entryAt? loc = some (.file inode)

def Vacant (fs : LinkedFiles) (loc : Location) : Prop :=
  fs.entryAt? loc = none ∧ loc ≠ [] ∧ fs.entryAt? loc.dropLast = some .directory

/-- No other place shares the file. -/
def Alone (fs : LinkedFiles) (loc : Location) (inode : ℕ) : Prop :=
  ∀ loc', fs.entryAt? loc' = some (.file inode) → loc' = loc

/-- New entries are made where there was none, only files without another name are written
and directories are removed empty. -/
def Within (A : Limits) (fs : LinkedFiles) : Effect → Prop
  | .makeDir loc => loc ∈ A.dirs ∧ Vacant fs loc
  | .createFile loc => loc ∈ A.files ∧ Vacant fs loc
  | .write loc inode _ => loc ∈ A.files ∧ fs.entryAt? loc = some (.file inode) ∧ Alone fs loc inode
  | .hardLink source loc => loc ∈ A.files ∧ Vacant fs loc ∧ IsFile fs source
  | .symlink loc _ => loc ∈ A.links ∧ Vacant fs loc
  | .remove loc => loc ∈ A.removed ∧ ∀ name, fs.entryAt? (loc ++ [name]) = none
  | .rename _ _ => False

instance : LE Limits :=
  ⟨fun A B => A.dirs ⊆ B.dirs ∧ A.files ⊆ B.files ∧ A.links ⊆ B.links ∧ A.removed ⊆ B.removed⟩

theorem Within.mono {A B : Limits} (h : A ≤ B) (fs : LinkedFiles) (effect : Effect)
    (hwithin : Within A fs effect) : Within B fs effect := by
  obtain ⟨hdirs, hfiles, hlinks, hremoved⟩ := h
  cases effect with
  | makeDir loc => exact ⟨hdirs hwithin.1, hwithin.2⟩
  | createFile loc => exact ⟨hfiles hwithin.1, hwithin.2⟩
  | write loc inode bytes => exact ⟨hfiles hwithin.1, hwithin.2⟩
  | hardLink source loc => exact ⟨hfiles hwithin.1, hwithin.2⟩
  | symlink loc target => exact ⟨hlinks hwithin.1, hwithin.2⟩
  | remove loc => exact ⟨hremoved hwithin.1, hwithin.2⟩
  | rename source dest => exact hwithin

def Limits.union (A B : Limits) : Limits :=
  ⟨A.dirs ∪ B.dirs, A.files ∪ B.files, A.links ∪ B.links, A.removed ∪ B.removed⟩

theorem Limits.le_union_left (A B : Limits) : A ≤ A.union B :=
  ⟨Set.subset_union_left, Set.subset_union_left, Set.subset_union_left, Set.subset_union_left⟩

theorem Limits.le_union_right (A B : Limits) : B ≤ A.union B :=
  ⟨Set.subset_union_right, Set.subset_union_right, Set.subset_union_right, Set.subset_union_right⟩

/-- All that is changed. -/
def Limits.all (A : Limits) : Set Location := A.dirs ∪ A.files ∪ A.links ∪ A.removed

/-- Every entry is in a directory. -/
def Rooted (fs : LinkedFiles) : Prop :=
  ∀ loc name, fs.entryAt? (loc ++ [name]) ≠ none → fs.entryAt? loc = some .directory

theorem rooted_of_rows {fs : LinkedFiles}
    (h : ∀ row ∈ fs.entries.rows, row.1 ≠ [] → fs.entryAt? row.1.dropLast = some .directory) :
    Rooted fs := by
  intro loc name hchild
  obtain ⟨row, hrow, hkey⟩ := List.mem_map.mp ((LinkedFiles.mem_keys fs).mpr hchild)
  have hne : row.1 ≠ [] := by
    rw [hkey]
    exact List.append_ne_nil_of_right_ne_nil _ (List.cons_ne_nil _ _)
  have hparent := h row hrow hne
  rwa [hkey, List.dropLast_concat] at hparent

theorem not_isLink_of_rows {fs : LinkedFiles}
    (h : ∀ row ∈ fs.entries.rows, row.2 = .directory ∨ (LinkedFiles.Entry.inode? row.2).isSome)
    (loc : Location) : ¬IsLink fs loc := by
  rintro ⟨target, hlink⟩
  obtain ⟨row, hrow, hentry⟩ := Option.map_eq_some_iff.mp hlink
  rcases h row (Table.mem_of_find? hrow) with hdir | hfile
  · rw [hentry] at hdir
    cases hdir
  · rw [hentry] at hfile
    cases hfile

theorem Rooted.below {fs : LinkedFiles} (h : Rooted fs) {loc : Location}
    (hloc : fs.entryAt? loc ≠ some .directory) (name : Name) (rest : List Name) :
    fs.entryAt? (loc ++ name :: rest) = none := by
  induction rest using List.reverseRecOn with
  | nil =>
    by_contra hchild
    exact hloc (h loc name hchild)
  | append_singleton rest last ih =>
    by_contra hchild
    have hparent : fs.entryAt? (loc ++ name :: rest) = some .directory := by
      apply h _ last
      rwa [List.append_assoc]
    rw [ih] at hparent
    cases hparent

theorem Rooted.none_below {fs : LinkedFiles} (h : Rooted fs) {loc : Location}
    (hloc : fs.entryAt? loc = none) (rest : List Name) : fs.entryAt? (loc ++ rest) = none := by
  cases rest with
  | nil => rwa [List.append_nil]
  | cons name rest =>
    apply h.below
    rw [hloc]
    exact fun heq => by cases heq

section Within
variable {A : Limits} {fs : LinkedFiles} {effect : Effect} {loc : Location}

theorem apply_hardLink {source : Location} {entry : Entry} (h : fs.entryAt? source = some entry) :
    (Effect.hardLink source loc).apply fs = fs.set loc entry := by
  simp only [Effect.apply, h]

/-- What can become of a place in one effect. -/
theorem Within.entryAt?_apply (h : Within A fs effect) (loc : Location) :
    (effect.apply fs).entryAt? loc = fs.entryAt? loc ∨
      (fs.entryAt? loc = none ∧ Vacant fs loc ∧
        ((loc ∈ A.dirs ∧ (effect.apply fs).entryAt? loc = some .directory) ∨
          (loc ∈ A.files ∧ IsFile (effect.apply fs) loc) ∨
            (loc ∈ A.links ∧ IsLink (effect.apply fs) loc))) ∨
        (effect = .remove loc ∧ loc ∈ A.removed ∧ (∀ name, fs.entryAt? (loc ++ [name]) = none) ∧
          (effect.apply fs).entryAt? loc = none) := by
  cases effect with
  | makeDir place =>
    obtain ⟨hmem, hvacant⟩ := h
    by_cases heq : place = loc
    · subst heq
      exact Or.inr (Or.inl ⟨hvacant.1, hvacant, Or.inl ⟨hmem, by simp [Effect.apply]⟩⟩)
    · exact Or.inl (by simp [Effect.apply, heq])
  | createFile place =>
    obtain ⟨hmem, hvacant⟩ := h
    have hset : ∀ loc', ((Effect.createFile place).apply fs).entryAt? loc' =
        (fs.set place (.file fs.freshInode)).entryAt? loc' := fun _ => rfl
    by_cases heq : place = loc
    · subst heq
      refine Or.inr (Or.inl ⟨hvacant.1, hvacant, Or.inr (Or.inl ⟨hmem, fs.freshInode, ?_⟩)⟩)
      rw [hset, LinkedFiles.entryAt?_set, if_pos rfl]
    · refine Or.inl ?_
      rw [hset, LinkedFiles.entryAt?_set, if_neg heq]
  | write place inode bytes => exact Or.inl rfl
  | hardLink source place =>
    obtain ⟨hmem, hvacant, inode, hsource⟩ := h
    rw [apply_hardLink hsource]
    by_cases heq : place = loc
    · subst heq
      refine Or.inr (Or.inl ⟨hvacant.1, hvacant, Or.inr (Or.inl ⟨hmem, inode, ?_⟩)⟩)
      rw [LinkedFiles.entryAt?_set, if_pos rfl]
    · exact Or.inl (by simp [heq])
  | symlink place target =>
    obtain ⟨hmem, hvacant⟩ := h
    by_cases heq : place = loc
    · subst heq
      refine Or.inr (Or.inl ⟨hvacant.1, hvacant, Or.inr (Or.inr ⟨hmem, target, ?_⟩)⟩)
      simp [Effect.apply]
    · exact Or.inl (by simp [Effect.apply, heq])
  | remove place =>
    obtain ⟨hmem, hempty⟩ := h
    by_cases heq : place = loc
    · subst heq
      exact Or.inr (Or.inr ⟨rfl, hmem, hempty, by simp [Effect.apply]⟩)
    · exact Or.inl (by simp [Effect.apply, heq])
  | rename source dest => exact h.elim

/-- A place stays free unless something may be made there. -/
theorem Within.stays_none (h : Within A fs effect) (hnone : fs.entryAt? loc = none)
    (hdirs : loc ∉ A.dirs) (hfiles : loc ∉ A.files) (hlinks : loc ∉ A.links) :
    (effect.apply fs).entryAt? loc = none := by
  rcases h.entryAt?_apply loc with hsame | ⟨-, -, hnew⟩ | ⟨-, -, -, hremoved⟩
  · rw [hsame, hnone]
  · rcases hnew with ⟨hmem, -⟩ | ⟨hmem, -⟩ | ⟨hmem, -⟩
    · exact absurd hmem hdirs
    · exact absurd hmem hfiles
    · exact absurd hmem hlinks
  · exact hremoved

theorem Within.isLink (h : Within A fs effect) (hlink : IsLink (effect.apply fs) loc) :
    IsLink fs loc ∨ loc ∈ A.links := by
  obtain ⟨target, htarget⟩ := hlink
  rcases h.entryAt?_apply loc with hsame | ⟨-, -, hnew⟩ | ⟨-, -, -, hremoved⟩
  · exact Or.inl ⟨target, hsame ▸ htarget⟩
  · rcases hnew with ⟨-, hdir⟩ | ⟨-, inode, hfile⟩ | ⟨hmem, -⟩
    · rw [hdir] at htarget
      cases htarget
    · rw [hfile] at htarget
      cases htarget
    · exact Or.inr hmem
  · rw [hremoved] at htarget
    cases htarget

theorem Within.isFile (h : Within A fs effect) (hfile : IsFile (effect.apply fs) loc) :
    IsFile fs loc ∨ loc ∈ A.files := by
  obtain ⟨inode, hinode⟩ := hfile
  rcases h.entryAt?_apply loc with hsame | ⟨-, -, hnew⟩ | ⟨-, -, -, hremoved⟩
  · exact Or.inl ⟨inode, hsame ▸ hinode⟩
  · rcases hnew with ⟨-, hdir⟩ | ⟨hmem, -⟩ | ⟨-, target, hlink⟩
    · rw [hdir] at hinode
      cases hinode
    · exact Or.inr hmem
    · rw [hlink] at hinode
      cases hinode
  · rw [hremoved] at hinode
    cases hinode

theorem rooted_of_within (hrooted : Rooted fs) (h : Within A fs effect) :
    Rooted (effect.apply fs) := by
  intro loc name hchild
  -- the entry was there before or is new in a directory
  have hdir : fs.entryAt? loc = some .directory := by
    rcases h.entryAt?_apply (loc ++ [name]) with hsame | ⟨-, hvacant, -⟩ | ⟨-, -, -, hgone⟩
    · rw [hsame] at hchild
      exact hrooted loc name hchild
    · have hparent := hvacant.2.2
      rwa [List.dropLast_concat] at hparent
    · exact absurd hgone hchild
  rcases h.entryAt?_apply loc with hsame | ⟨hnone, -⟩ | ⟨rfl, -, hempty, -⟩
  · rw [hsame, hdir]
  · rw [hdir] at hnone
    cases hnone
  · -- a directory that goes has no entry, and gets none by going
    exfalso
    apply hchild
    have hne : loc ≠ loc ++ [name] := by simp
    show (fs.unset loc).entryAt? _ = none
    rw [LinkedFiles.entryAt?_unset, if_neg hne]
    exact hempty name

end Within

end Unix
