import Mathlib.Data.List.TakeWhile

/-! Lists of things with keys. One may drop what repeats the key of its neighbour, or what repeats
the key of anything before it; both keep of every key the first one. -/

namespace KeyedLists
variable {α κ : Type*} [DecidableEq κ] {key : α → κ} {k : κ} {a : α} {l : List α} {last : Option κ}

/-- Of neighbours with one key only the first is kept; `last` is the key in front of the list. -/
def dropRepeats (key : α → κ) : Option κ → List α → List α
  | _, [] => []
  | last, a :: rest =>
    if last = some (key a) then dropRepeats key last rest
    else a :: dropRepeats key (some (key a)) rest

/-- Added at the end, unless something with its key is there. -/
def push (key : α → κ) (acc : List α) (a : α) : List α :=
  if acc.any fun b => key b = key a then acc else acc ++ [a]

def keepFirst (key : α → κ) (l : List α) : List α := l.foldl (push key) []

/-- What has the key stands in one place. -/
def Together (key : α → κ) (k : κ) (l : List α) : Prop :=
  ∀ front a middle b back, l = front ++ a :: (middle ++ b :: back) → key a = k → key b = k →
    ∀ c ∈ middle, key c = k

/-! ## Neighbours -/

theorem dropRepeats_append (front back : List α) : dropRepeats key last (front ++ back) =
    dropRepeats key last front ++ dropRepeats key ((front.getLast?.map key).or last) back := by
  induction front generalizing last with
  | nil => rfl
  | cons a front ih =>
    have hlast : ((a :: front).getLast?.map key).or last =
        (front.getLast?.map key).or (some (key a)) := by
      rw [List.getLast?_cons]
      cases front.getLast? <;> rfl
    rw [hlast, List.cons_append, dropRepeats, dropRepeats]
    split_ifs with hsame
    · rw [ih, hsame]
    · rw [ih, List.cons_append]

theorem mem_of_mem_dropRepeats (h : a ∈ dropRepeats key last l) : a ∈ l := by
  induction l generalizing last with
  | nil => exact absurd h List.not_mem_nil
  | cons b l ih =>
    rw [dropRepeats] at h
    split_ifs at h
    · exact List.mem_cons_of_mem b (ih h)
    · rcases List.mem_cons.mp h with rfl | hmem
      · exact List.mem_cons_self
      · exact List.mem_cons_of_mem b (ih hmem)

/-- A key goes only when it is the one in front of the list. -/
theorem exists_mem_dropRepeats (h : a ∈ l) (hlast : last ≠ some (key a)) :
    ∃ b ∈ dropRepeats key last l, key b = key a := by
  induction l generalizing last with
  | nil => exact absurd h List.not_mem_nil
  | cons b l ih =>
    rw [dropRepeats]
    split_ifs with hsame
    · have hmem : a ∈ l := by
        refine (List.mem_cons.mp h).resolve_left fun heq => ?_
        exact hlast (heq ▸ hsame)
      exact ih hmem hlast
    · by_cases hkey : key b = key a
      · exact ⟨b, List.mem_cons_self, hkey⟩
      · have hmem : a ∈ l :=
          (List.mem_cons.mp h).resolve_left fun heq => hkey (congrArg key heq.symm)
        obtain ⟨c, hc, hck⟩ := ih hmem fun heq => hkey (Option.some.inj heq)
        exact ⟨c, List.mem_cons_of_mem b hc, hck⟩

theorem filter_dropRepeats_nil (h : ∀ b ∈ l, key b ≠ k) :
    (dropRepeats key last l).filter (fun b => key b = k) = [] := by
  refine List.filter_eq_nil_iff.mpr fun b hb => ?_
  rw [decide_eq_true_eq]
  exact h b (mem_of_mem_dropRepeats hb)

/-- Neighbours with one key leave the first. -/
theorem dropRepeats_run (h : ∀ b ∈ l, key b = key a) :
    dropRepeats key (some (key a)) l = [] := by
  induction l with
  | nil => rfl
  | cons b l ih =>
    rw [dropRepeats, if_pos (congrArg some (h b List.mem_cons_self).symm)]
    exact ih fun c hc => h c (List.mem_cons_of_mem b hc)

/-- Behind the first of the key the others of it come at once. -/
theorem Together.split {front back : List α} (h : Together key k (front ++ a :: back))
    (ha : key a = k) : ∃ run rest, back = run ++ rest ∧ (∀ b ∈ run, key b = k) ∧
      ∀ b ∈ rest, key b ≠ k := by
  refine ⟨back.takeWhile fun b => key b = k, back.dropWhile fun b => key b = k,
    List.takeWhile_append_dropWhile.symm, fun b hb => ?_, fun b hb hbk => ?_⟩
  · simpa using List.mem_takeWhile_imp hb
  · cases hdrop : back.dropWhile fun b => key b = k with
    | nil =>
      rw [hdrop] at hb
      exact absurd hb List.not_mem_nil
    | cons c rest =>
      have hc : key c ≠ k := by
        have hhead := List.head?_dropWhile_not (fun b => decide (key b = k)) back
        rw [hdrop, List.head?_cons] at hhead
        simpa using hhead
      rw [hdrop] at hb
      have hrest : b ∈ rest := (List.mem_cons.mp hb).resolve_left fun heq => hc (heq ▸ hbk)
      obtain ⟨between, after, rfl⟩ := List.append_of_mem hrest
      have hback : back = (back.takeWhile fun b => key b = k) ++ (c :: between) ++ b :: after := by
        have hwhole := List.takeWhile_append_dropWhile (p := fun b => key b = k) (l := back)
        rw [hdrop] at hwhole
        rw [List.append_assoc]
        exact hwhole.symm
      refine hc (h front a _ b after (congrArg (fun l => front ++ a :: l) hback) ha hbk c ?_)
      exact List.mem_append_right _ List.mem_cons_self

omit [DecidableEq κ] in
theorem not_some_key_of_forall {front : List α} (h : ∀ b ∈ front, key b ≠ k) :
    (front.getLast?.map key).or none ≠ some k := by
  rw [Option.or_none]
  intro heq
  obtain ⟨b, hb, hbk⟩ := Option.map_eq_some_iff.mp heq
  exact h b (List.mem_of_getLast? hb) hbk

/-- A key that stands in one place is kept once, with the first that has it. -/
theorem filter_dropRepeats (h : Together key k l) :
    (dropRepeats key none l).filter (fun b => key b = k) =
      (l.find? fun b => key b = k).toList := by
  cases hfind : l.find? fun b => key b = k with
  | none =>
    refine filter_dropRepeats_nil fun b hb => ?_
    simpa using List.find?_eq_none.mp hfind b hb
  | some a =>
    obtain ⟨ha, front, back, rfl, hfront⟩ := List.find?_eq_some_iff_append.mp hfind
    have hak : key a = k := by simpa using ha
    have hbefore : ∀ b ∈ front, key b ≠ k := fun b hb => by simpa using hfront b hb
    obtain ⟨run, rest, rfl, hrun, hrest⟩ := h.split hak
    have hfirst : dropRepeats key ((front.getLast?.map key).or none) (a :: run) = [a] := by
      rw [dropRepeats, if_neg (hak ▸ not_some_key_of_forall hbefore),
        dropRepeats_run fun b hb => (hrun b hb).trans hak.symm]
    have hself : [a].filter (fun b => key b = k) = [a] := by
      rw [List.filter_cons_of_pos (by simpa using hak)]
      rfl
    rw [dropRepeats_append, ← List.cons_append, dropRepeats_append, hfirst, List.filter_append,
      List.filter_append, filter_dropRepeats_nil hbefore, filter_dropRepeats_nil hrest, hself]
    rfl

/-- What counts stands among neighbours with a key of their own: of these the first is counted. -/
theorem countP_dropRepeats {p : α → Bool} {front run back : List α}
    (hfront : ∀ b ∈ front, key b ≠ k ∧ p b = false) (hrun : ∀ b ∈ run, key b = k)
    (hback : ∀ b ∈ back, p b = false) :
    (dropRepeats key none (front ++ (run ++ back))).countP p = run.head?.toList.countP p := by
  have hquiet {quiet : List α} {last : Option κ} (h : ∀ b ∈ quiet, p b = false) :
      (dropRepeats key last quiet).countP p = 0 := by
    refine List.countP_eq_zero.mpr fun b hb => ?_
    rw [h b (mem_of_mem_dropRepeats hb)]
    exact Bool.false_ne_true
  have hkept : dropRepeats key ((front.getLast?.map key).or none) run = run.head?.toList := by
    cases run with
    | nil => rfl
    | cons a run =>
      have hak : key a = k := hrun a List.mem_cons_self
      have hlast := not_some_key_of_forall fun b hb => (hfront b hb).1
      rw [dropRepeats, if_neg (hak ▸ hlast), dropRepeats_run fun b hb =>
        (hrun b (List.mem_cons_of_mem a hb)).trans hak.symm]
      rfl
  rw [dropRepeats_append, dropRepeats_append, hkept, List.countP_append, List.countP_append,
    hquiet fun b hb => (hfront b hb).2, hquiet hback, Nat.zero_add, Nat.add_zero]

/-- A key that is kept once stands in one place. -/
theorem together_of_filter (h : (dropRepeats key none l).filter (fun b => key b = k) = [a]) :
    Together key k l := by
  rintro front b middle c back rfl hb hc d hd
  by_contra hdk
  obtain ⟨between, after, rfl⟩ := List.append_of_mem hd
  have hlist : front ++ b :: (between ++ d :: after ++ c :: back) =
      (front ++ b :: between ++ [d]) ++ (after ++ c :: back) := by simp
  have hlast : ((front ++ b :: between ++ [d]).getLast?.map key).or none = some (key d) := by
    rw [List.getLast?_append, List.getLast?_singleton]
    rfl
  rw [hlist, dropRepeats_append, hlast, List.filter_append] at h
  have hfirst : ∃ x ∈ dropRepeats key none (front ++ b :: between ++ [d]), key x = key b := by
    refine exists_mem_dropRepeats ?_ fun heq => by cases heq
    simp
  have hsecond : ∃ x ∈ dropRepeats key (some (key d)) (after ++ c :: back), key x = key c := by
    refine exists_mem_dropRepeats ?_ fun heq => hdk ?_
    · simp
    · exact (Option.some.inj heq).trans hc
  have hlength := congrArg List.length h
  rw [List.length_append, List.length_singleton] at hlength
  have hone : 0 < ((dropRepeats key none (front ++ b :: between ++ [d])).filter
      (fun b => key b = k)).length := by
    obtain ⟨x, hx, hxk⟩ := hfirst
    exact List.length_pos_of_mem (List.mem_filter.mpr ⟨hx, by simpa using hxk.trans hb⟩)
  have htwo : 0 < ((dropRepeats key (some (key d)) (after ++ c :: back)).filter
      (fun b => key b = k)).length := by
    obtain ⟨x, hx, hxk⟩ := hsecond
    exact List.length_pos_of_mem (List.mem_filter.mpr ⟨hx, by simpa using hxk.trans hc⟩)
  omega

omit [DecidableEq κ] in
/-- What does not have the key may stand in front. -/
theorem together_append_iff {front : List α} (h : ∀ b ∈ front, key b ≠ k) :
    Together key k (front ++ l) ↔ Together key k l := by
  constructor
  · rintro htogether before a middle b back rfl
    refine htogether (front ++ before) a middle b back ?_
    rw [List.append_assoc]
  · intro htogether before a middle b back heq ha
    rcases List.append_eq_append_iff.mp heq with ⟨between, rfl, hl⟩ | ⟨between, rfl, hl⟩
    · exact htogether between a middle b back hl ha
    · cases between with
      | nil => exact htogether [] a middle b back hl.symm ha
      | cons c between =>
        obtain ⟨rfl, -⟩ := List.cons.inj hl
        have hmem : a ∈ before ++ a :: between :=
          List.mem_append_right before List.mem_cons_self
        exact absurd ha (h a hmem)

theorem find?_append_of_ne {front : List α} (h : ∀ b ∈ front, key b ≠ k) :
    (front ++ l).find? (fun b => key b = k) = l.find? fun b => key b = k := by
  have hnone : front.find? (fun b => key b = k) = none :=
    List.find?_eq_none.mpr fun b hb => by simpa using h b hb
  rw [List.find?_append, hnone, Option.none_or]

/-! ## The first of each key -/

theorem mem_of_mem_push {acc : List α} {b : α} (h : b ∈ push key acc a) : b ∈ acc ∨ b = a := by
  unfold push at h
  split_ifs at h
  · exact Or.inl h
  · exact (List.mem_append.mp h).imp_right List.mem_singleton.mp

theorem mem_of_mem_foldl_push {acc : List α} (h : a ∈ l.foldl (push key) acc) :
    a ∈ acc ∨ a ∈ l := by
  induction l generalizing acc with
  | nil => exact Or.inl h
  | cons b l ih =>
    rcases ih h with hpush | hl
    · refine (mem_of_mem_push hpush).imp_right fun heq => ?_
      rw [heq]
      exact List.mem_cons_self
    · exact Or.inr (List.mem_cons_of_mem b hl)

theorem mem_of_mem_keepFirst (h : a ∈ keepFirst key l) : a ∈ l :=
  (mem_of_mem_foldl_push h).resolve_left List.not_mem_nil

/-- Only which keys are the same matters. -/
theorem foldl_push_congr {κ' : Type*} [DecidableEq κ'] {key' : α → κ'} {acc : List α}
    (h : ∀ a ∈ acc ++ l, ∀ b ∈ acc ++ l, key a = key b ↔ key' a = key' b) :
    l.foldl (push key) acc = l.foldl (push key') acc := by
  induction l generalizing acc with
  | nil => rfl
  | cons b l ih =>
    have hb : b ∈ acc ++ b :: l := List.mem_append_right acc List.mem_cons_self
    have hpush : push key acc b = push key' acc b := by
      have hany : (acc.any fun a => key a = key b) = acc.any fun a => key' a = key' b := by
        rw [Bool.eq_iff_iff, List.any_eq_true, List.any_eq_true]
        refine exists_congr fun a => and_congr_right fun ha => ?_
        rw [decide_eq_true_eq, decide_eq_true_eq]
        exact h a (List.mem_append_left _ ha) b hb
      unfold push
      rw [hany]
    rw [List.foldl_cons, List.foldl_cons, hpush]
    have hsubset : ∀ a ∈ push key' acc b ++ l, a ∈ acc ++ b :: l := by
      intro a ha
      rcases List.mem_append.mp ha with hin | hl
      · rcases mem_of_mem_push hin with hacc | rfl
        · exact List.mem_append_left _ hacc
        · exact hb
      · exact List.mem_append_right acc (List.mem_cons_of_mem b hl)
    exact ih fun a ha c hc => h a (hsubset a ha) c (hsubset c hc)

theorem keepFirst_congr {κ' : Type*} [DecidableEq κ'] {key' : α → κ'}
    (h : ∀ a ∈ l, ∀ b ∈ l, key a = key b ↔ key' a = key' b) :
    keepFirst key l = keepFirst key' l := foldl_push_congr h

theorem find?_push (acc : List α) : (push key acc a).find? (fun b => key b = k) =
    (acc.find? fun b => key b = k).or (if key a = k then some a else none) := by
  unfold push
  split_ifs with hany hkey hkey
  · obtain ⟨b, hb, hbk⟩ := List.any_eq_true.mp hany
    have hsome : (acc.find? fun b => key b = k).isSome :=
      List.find?_isSome.mpr ⟨b, hb, by simpa [← hkey] using hbk⟩
    obtain ⟨c, hc⟩ := Option.isSome_iff_exists.mp hsome
    rw [hc]
    rfl
  · rw [Option.or_none]
  · rw [List.find?_append, List.find?_cons_of_pos (by simpa using hkey)]
  · rw [List.find?_append, List.find?_cons_of_neg (by simpa using hkey)]
    rfl

/-- The first of a key stays the first. -/
theorem find?_keepFirst : (keepFirst key l).find? (fun b => key b = k) =
    l.find? fun b => key b = k := by
  have hfold : ∀ acc, (l.foldl (push key) acc).find? (fun b => key b = k) =
      (acc.find? fun b => key b = k).or (l.find? fun b => key b = k) := by
    induction l with
    | nil => exact fun acc => (Option.or_none).symm
    | cons a l ih =>
      intro acc
      rw [List.foldl_cons, ih, find?_push, Option.or_assoc]
      congr 1
      split_ifs with hkey
      · rw [List.find?_cons_of_pos (by simpa using hkey)]
        rfl
      · rw [List.find?_cons_of_neg (by simpa using hkey)]
        rfl
  exact hfold []

theorem find?_append_keepFirst (front : List α) :
    (front ++ keepFirst key l).find? (fun b => key b = k) =
      (front ++ l).find? fun b => key b = k := by
  rw [List.find?_append, List.find?_append, find?_keepFirst]

end KeyedLists
