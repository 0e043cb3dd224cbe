import Mathlib.Algebra.BigOperators.Group.List.Basic
import Mathlib.Algebra.GroupWithZero.Nat
import Mathlib.Algebra.Order.BigOperators.Group.List
import Mathlib.Algebra.Order.Group.Nat

/-! A search with a queue that starts from several lists, one after the other. It finds a nearest
goal; what else it depends on is the order within the lists. -/

namespace LayeredSearch

variable {α β : Type*}

section Search
variable [DecidableEq α] (expand : α → List α) (goal : α → Option β)

def search : ℕ → List α → List α → Option β
  | 0, _, _ => none
  | _ + 1, [], _ => none
  | fuel + 1, a :: queue, visited =>
    if a ∈ visited then search fuel queue visited
    else match goal a with
      | some b => some b
      | none => search fuel (queue ++ (expand a).filter (· ∉ a :: visited)) (a :: visited)

/-- What is still to be added to the queue at most. -/
def budget (places visited : List α) : ℕ :=
  (places.map fun a => if a ∈ visited then 0 else (expand a).length).sum

theorem budget_cons_le (places visited : List α) (a : α) :
    budget expand places (a :: visited) ≤ budget expand places visited := by
  apply List.sum_le_sum
  intro c _
  by_cases hc : c ∈ visited
  · rw [if_pos hc, if_pos (List.mem_cons_of_mem _ hc)]
  · rw [if_neg hc]
    split_ifs
    · exact Nat.zero_le _
    · exact le_rfl

theorem expand_le_budget {places visited : List α} {a : α} (ha : a ∈ places)
    (hnew : a ∉ visited) :
    (expand a).length + budget expand places (a :: visited) ≤
      budget expand places visited := by
  induction places with
  | nil => cases ha
  | cons c rest ih =>
    have hsplit (visited : List α) : budget expand (c :: rest) visited =
        (if c ∈ visited then 0 else (expand c).length) + budget expand rest visited := by
      unfold budget
      rw [List.map_cons, List.sum_cons]
    rw [hsplit, hsplit]
    by_cases hca : c = a
    · subst hca
      have hrest := budget_cons_le expand rest visited c
      rw [if_pos List.mem_cons_self, if_neg hnew]
      omega
    · have hrest := ih (List.mem_of_ne_of_mem (Ne.symm hca) ha)
      have hsame : c ∈ a :: visited ↔ c ∈ visited := by
        rw [List.mem_cons]
        exact or_iff_right hca
      simp only [hsame]
      omega

end Search

/-! ## Layers -/

section Layers
variable (expand : α → List α) (goal : α → Option β)

/-- How far away something is found: at the place of its list among the starts, and as many places
behind what leads to it as there are such lists. A goal leads nowhere. -/
inductive Layer (starts : List (List α)) : ℕ → α → Prop
  | start (n : ℕ) (as : List α) (a : α) : starts[n]? = some as → a ∈ as → Layer starts n a
  | next (n : ℕ) (a b : α) : Layer starts n a → goal a = none → b ∈ expand a →
      Layer starts (n + starts.length) b

/-- A goal before which there is none. -/
def Nearest (starts : List (List α)) (b : β) : Prop :=
  ∃ n a, Layer expand goal starts n a ∧ goal a = some b ∧
    ∀ m < n, ∀ c, Layer expand goal starts m c → goal c = none

/-- Of the goals in the first layer that has one, all give the same. -/
def Agrees (starts : List (List α)) : Prop :=
  ∀ n, (∀ m < n, ∀ c, Layer expand goal starts m c → goal c = none) →
    ∀ a a' b b', Layer expand goal starts n a → Layer expand goal starts n a' →
      goal a = some b → goal a' = some b' → b = b'

variable {expand goal}

theorem Agrees.unique {starts : List (List α)} (h : Agrees expand goal starts) {b b' : β}
    (hb : Nearest expand goal starts b) (hb' : Nearest expand goal starts b') : b = b' := by
  obtain ⟨n, a, hlayer, hgoal, hnone⟩ := hb
  obtain ⟨n', a', hlayer', hgoal', hnone'⟩ := hb'
  rcases lt_trichotomy n n' with hlt | rfl | hlt
  · rw [hnone' n hlt a hlayer] at hgoal
    cases hgoal
  · exact h n hnone a a' b b' hlayer hlayer' hgoal hgoal'
  · rw [hnone n' hlt a' hlayer'] at hgoal'
    cases hgoal'

/-- Only what the lists hold counts. -/
theorem Layer.congr {expand' : α → List α} {starts starts' : List (List α)}
    (hstarts : List.Forall₂ (fun as as' => ∀ a, a ∈ as ↔ a ∈ as') starts starts')
    (hexpand : ∀ a b, b ∈ expand a ↔ b ∈ expand' a) {n : ℕ} {a : α}
    (h : Layer expand goal starts n a) : Layer expand' goal starts' n a := by
  induction h with
  | start n as a hstart hmem =>
    obtain ⟨hn, rfl⟩ := List.getElem?_eq_some_iff.mp hstart
    have hn' : n < starts'.length := hstarts.length_eq ▸ hn
    exact .start n _ a (List.getElem?_eq_getElem hn') ((hstarts.get hn hn' a).mp hmem)
  | next n a b _ hgoal hmem ih =>
    rw [hstarts.length_eq]
    exact .next n a b ih hgoal ((hexpand a b).mp hmem)

end Layers

/-! ## The queue -/

section Queue
variable (expand : α → List α) (goal : α → Option β) (starts : List (List α))

/-- Found at most so far away, and looked at or waiting. -/
def Seen (queue visited : List (α × ℕ)) (n : ℕ) (a : α) : Prop :=
  ∃ m ≤ n, (a, m) ∈ visited ∨ (a, m) ∈ queue

/-- What holds of a queue in which everything has the number of its layer. -/
structure QueueInv (queue visited : List (α × ℕ)) : Prop where
  layer (entry : α × ℕ) : entry ∈ queue → Layer expand goal starts entry.2 entry.1
  sorted : queue.Pairwise fun x y => x.2 ≤ y.2
  spread (x y : α × ℕ) : x ∈ queue → y ∈ queue → y.2 ≤ x.2 + starts.length
  before (v x : α × ℕ) : v ∈ visited → x ∈ queue → v.2 ≤ x.2
  clear (v : α × ℕ) : v ∈ visited → goal v.1 = none
  begins (n : ℕ) (as : List α) (a : α) : starts[n]? = some as → a ∈ as → Seen queue visited n a
  closed (v : α × ℕ) (b : α) : v ∈ visited → b ∈ expand v.1 →
    Seen queue visited (v.2 + starts.length) b

variable {expand goal starts} {queue visited : List (α × ℕ)} {a : α} {l n : ℕ}

/-- What is nearer than all that waits has been looked at. -/
theorem QueueInv.lookedAt (h : QueueInv expand goal starts queue visited)
    (hfront : ∀ x ∈ queue, n < x.2) (hlayer : Layer expand goal starts n a) :
    ∃ m ≤ n, (a, m) ∈ visited := by
  have hold {n : ℕ} {a : α} (hfront : ∀ x ∈ queue, n < x.2) (hseen : Seen queue visited n a) :
      ∃ m ≤ n, (a, m) ∈ visited := by
    obtain ⟨m, hm, hvisited | hqueue⟩ := hseen
    · exact ⟨m, hm, hvisited⟩
    · exact absurd (hfront _ hqueue) (not_lt.mpr hm)
  induction hlayer with
  | start n as a hstart hmem => exact hold hfront (h.begins n as a hstart hmem)
  | next n a b _ hgoal hmem ih =>
    obtain ⟨m, hm, hvisited⟩ := ih fun x hx => lt_of_le_of_lt (Nat.le_add_right _ _) (hfront x hx)
    obtain ⟨m', hm', hseen⟩ := h.closed (a, m) b hvisited hmem
    exact hold hfront ⟨m', hm'.trans (Nat.add_le_add_right hm _), hseen⟩

theorem QueueInv.front (h : QueueInv expand goal starts ((a, l) :: queue) visited) :
    ∀ x ∈ queue, l ≤ x.2 := (List.pairwise_cons.mp h.sorted).1

/-- The first of the queue has been looked at before. -/
theorem QueueInv.skip (h : QueueInv expand goal starts ((a, l) :: queue) visited) {l' : ℕ}
    (hold : (a, l') ∈ visited) : QueueInv expand goal starts queue visited := by
  have hseen {n : ℕ} {b : α} (hseen : Seen ((a, l) :: queue) visited n b) :
      Seen queue visited n b := by
    obtain ⟨m, hm, hvisited | hqueue⟩ := hseen
    · exact ⟨m, hm, Or.inl hvisited⟩
    · rcases List.mem_cons.mp hqueue with heq | hrest
      · obtain ⟨rfl, rfl⟩ := Prod.mk.inj heq
        exact ⟨l', (h.before _ _ hold List.mem_cons_self).trans hm, Or.inl hold⟩
      · exact ⟨m, hm, Or.inr hrest⟩
  exact {
    layer := fun entry hentry => h.layer entry (List.mem_cons_of_mem _ hentry)
    sorted := (List.pairwise_cons.mp h.sorted).2
    spread := fun x y hx hy => h.spread x y (List.mem_cons_of_mem _ hx) (List.mem_cons_of_mem _ hy)
    before := fun v x hv hx => h.before v x hv (List.mem_cons_of_mem _ hx)
    clear := h.clear
    begins := fun n as b hstart hmem => hseen (h.begins n as b hstart hmem)
    closed := fun v b hv hb => hseen (h.closed v b hv hb) }

variable [DecidableEq α]

/-- What the first of the queue leads to, with its layer. -/
def added (expand : α → List α) (width : ℕ) (visited : List (α × ℕ)) (a : α) (l : ℕ) :
    List (α × ℕ) :=
  ((expand a).filter (· ∉ a :: visited.map Prod.fst)).map (·, l + width)

omit [DecidableEq α] in
theorem snd_of_mem_map {items : List α} {entry : α × ℕ} (h : entry ∈ items.map (·, n)) :
    entry.1 ∈ items ∧ entry.2 = n := by
  obtain ⟨item, hitem, rfl⟩ := List.mem_map.mp h
  exact ⟨hitem, rfl⟩

theorem mem_added {width : ℕ} {entry : α × ℕ} (h : entry ∈ added expand width visited a l) :
    entry.1 ∈ expand a ∧ entry.2 = l + width := by
  obtain ⟨hmem, hlabel⟩ := snd_of_mem_map h
  exact ⟨(List.mem_filter.mp hmem).1, hlabel⟩

theorem QueueInv.visit (h : QueueInv expand goal starts ((a, l) :: queue) visited)
    (hgoal : goal a = none) :
    QueueInv expand goal starts (queue ++ added expand starts.length visited a l)
      ((a, l) :: visited) := by
  have hhead : (a, l) ∈ (a, l) :: queue := List.mem_cons_self
  have hseen {n : ℕ} {b : α} (hseen : Seen ((a, l) :: queue) visited n b) :
      Seen (queue ++ added expand starts.length visited a l) ((a, l) :: visited) n b := by
    obtain ⟨m, hm, hvisited | hqueue⟩ := hseen
    · exact ⟨m, hm, Or.inl (List.mem_cons_of_mem _ hvisited)⟩
    · rcases List.mem_cons.mp hqueue with heq | hrest
      · exact ⟨m, hm, Or.inl (heq ▸ List.mem_cons_self)⟩
      · exact ⟨m, hm, Or.inr (List.mem_append_left _ hrest)⟩
  constructor
  · intro entry hentry
    rcases List.mem_append.mp hentry with hold | hnew
    · exact h.layer entry (List.mem_cons_of_mem _ hold)
    · obtain ⟨hmem, hlabel⟩ := mem_added hnew
      rw [hlabel]
      exact .next l a entry.1 (h.layer _ hhead) hgoal hmem
  · refine List.pairwise_append.mpr ⟨(List.pairwise_cons.mp h.sorted).2, ?_, ?_⟩
    · refine List.pairwise_map.mpr (List.pairwise_of_forall fun x y => le_rfl)
    · intro x hx y hy
      rw [(mem_added hy).2]
      exact h.spread _ x hhead (List.mem_cons_of_mem _ hx)
  · intro x y hx hy
    have hlower : l ≤ x.2 := by
      rcases List.mem_append.mp hx with hold | hnew
      · exact h.front x hold
      · rw [(mem_added hnew).2]
        exact Nat.le_add_right _ _
    have hupper : y.2 ≤ l + starts.length := by
      rcases List.mem_append.mp hy with hold | hnew
      · exact h.spread _ y hhead (List.mem_cons_of_mem _ hold)
      · exact le_of_eq (mem_added hnew).2
    omega
  · intro v x hv hx
    have hupper : v.2 ≤ l := by
      rcases List.mem_cons.mp hv with rfl | hold
      · exact le_rfl
      · exact h.before v _ hold hhead
    have hlower : l ≤ x.2 := by
      rcases List.mem_append.mp hx with hold | hnew
      · exact h.front x hold
      · rw [(mem_added hnew).2]
        exact Nat.le_add_right _ _
    exact hupper.trans hlower
  · intro v hv
    rcases List.mem_cons.mp hv with rfl | hold
    · exact hgoal
    · exact h.clear v hold
  · exact fun n as b hstart hmem => hseen (h.begins n as b hstart hmem)
  · intro v b hv hb
    rcases List.mem_cons.mp hv with rfl | hold
    · by_cases hknown : b ∈ a :: visited.map Prod.fst
      · rcases List.mem_cons.mp hknown with rfl | hmem
        · exact ⟨l, Nat.le_add_right _ _, Or.inl List.mem_cons_self⟩
        · obtain ⟨⟨b, m⟩, hvisited, rfl⟩ := List.mem_map.mp hmem
          have hm : m ≤ l := h.before _ _ hvisited hhead
          exact ⟨m, hm.trans (Nat.le_add_right _ _), Or.inl (List.mem_cons_of_mem _ hvisited)⟩
      · refine ⟨l + starts.length, le_rfl, Or.inr (List.mem_append_right _ ?_)⟩
        exact List.mem_map.mpr ⟨b, List.mem_filter.mpr ⟨hb, decide_eq_true hknown⟩, rfl⟩
    · exact hseen (h.closed v b hold hb)

end Queue

/-! ## The search -/

section Run
variable [DecidableEq α] {expand : α → List α} {goal : α → Option β} {starts : List (List α)}
  {places : List α}

/-- What a search has found is a nearest goal; when it finds none there is none. -/
def Finds (expand : α → List α) (goal : α → Option β) (starts : List (List α)) : Option β → Prop
  | some b => Nearest expand goal starts b
  | none => ∀ n a, Layer expand goal starts n a → goal a = none

omit [DecidableEq α] in
theorem finds_nil {visited : List (α × ℕ)} (h : QueueInv expand goal starts [] visited) :
    Finds expand goal starts none := by
  intro n a hlayer
  obtain ⟨m, -, hvisited⟩ := h.lookedAt (fun x hx => absurd hx List.not_mem_nil) hlayer
  exact h.clear (a, m) hvisited

omit [DecidableEq α] in
theorem finds_goal {queue visited : List (α × ℕ)} {a : α} {l : ℕ} {b : β}
    (h : QueueInv expand goal starts ((a, l) :: queue) visited) (hgoal : goal a = some b) :
    Finds expand goal starts (some b) := by
  refine ⟨l, a, h.layer _ List.mem_cons_self, hgoal, fun m hm c hlayer => ?_⟩
  have hfront : ∀ x ∈ (a, l) :: queue, m < x.2 := by
    intro x hx
    rcases List.mem_cons.mp hx with rfl | hrest
    · exact hm
    · exact lt_of_lt_of_le hm (h.front x hrest)
  obtain ⟨m', -, hvisited⟩ := h.lookedAt hfront hlayer
  exact h.clear (c, m') hvisited

theorem search_finds (hplaces : ∀ a, a ∉ places → expand a = []) {fuel : ℕ}
    {queue visited : List (α × ℕ)} (h : QueueInv expand goal starts queue visited)
    (hfuel : queue.length + budget expand places (visited.map Prod.fst) ≤ fuel) :
    Finds expand goal starts
      (search expand goal fuel (queue.map Prod.fst) (visited.map Prod.fst)) := by
  induction fuel generalizing queue visited with
  | zero =>
    obtain rfl : queue = [] := List.length_eq_zero_iff.mp (by omega)
    exact finds_nil h
  | succ fuel ih =>
    cases queue with
    | nil => exact finds_nil h
    | cons entry queue =>
      obtain ⟨a, l⟩ := entry
      rw [List.length_cons] at hfuel
      rw [List.map_cons, search]
      by_cases hold : a ∈ visited.map Prod.fst
      · rw [if_pos hold]
        obtain ⟨⟨_, l'⟩, hvisited, rfl⟩ := List.mem_map.mp hold
        exact ih (h.skip hvisited) (by omega)
      · rw [if_neg hold]
        cases hgoal : goal a with
        | some b => exact finds_goal h hgoal
        | none =>
          dsimp only
          have hadded : (queue ++ added expand starts.length visited a l).map Prod.fst =
              queue.map Prod.fst ++
                (expand a).filter (· ∉ a :: visited.map Prod.fst) := by
            rw [List.map_append, added, List.map_map]
            congr 1
            exact List.map_id _
          have hnext := ih (h.visit hgoal) ?_
          · rw [hadded] at hnext
            exact hnext
          · have hlength : (added expand starts.length visited a l).length ≤
                (expand a).length := by
              rw [added, List.length_map]
              exact List.length_filter_le _ _
            have hbudget : (expand a).length +
                budget expand places (a :: visited.map Prod.fst) ≤
                  budget expand places (visited.map Prod.fst) := by
              by_cases ha : a ∈ places
              · exact expand_le_budget expand ha hold
              · rw [hplaces a ha, List.length_nil, Nat.zero_add]
                exact budget_cons_le expand places _ a
            rw [List.length_append, List.map_cons]
            dsimp only
            omega

/-! ## The starts -/

def labelled : ℕ → List (List α) → List (α × ℕ)
  | _, [] => []
  | n, as :: starts => as.map (·, n) ++ labelled (n + 1) starts

omit [DecidableEq α] in
theorem map_fst_labelled (n : ℕ) (starts : List (List α)) :
    (labelled n starts).map Prod.fst = starts.flatten := by
  induction starts generalizing n with
  | nil => rfl
  | cons as starts ih =>
    rw [labelled, List.map_append, ih, List.map_map, List.flatten_cons]
    congr 1
    exact List.map_id _

omit [DecidableEq α] in
theorem mem_labelled {n : ℕ} {entry : α × ℕ} (h : entry ∈ labelled n starts) :
    n ≤ entry.2 ∧ entry.2 < n + starts.length ∧
      ∃ as, starts[entry.2 - n]? = some as ∧ entry.1 ∈ as := by
  induction starts generalizing n with
  | nil => cases h
  | cons as starts ih =>
    rcases List.mem_append.mp h with hhere | hlater
    · obtain ⟨hmem, hlabel⟩ := snd_of_mem_map hhere
      rw [hlabel, Nat.sub_self, List.length_cons]
      exact ⟨le_rfl, by omega, as, rfl, hmem⟩
    · obtain ⟨hlower, hupper, others, hstart, hmem⟩ := ih hlater
      rw [List.length_cons]
      refine ⟨by omega, by omega, others, ?_, hmem⟩
      have hsub : entry.2 - n = entry.2 - (n + 1) + 1 := by omega
      rw [hsub, List.getElem?_cons_succ]
      exact hstart

omit [DecidableEq α] in
theorem mem_labelled_of_start {n m : ℕ} {as : List α} {a : α} (hstart : starts[m]? = some as)
    (hmem : a ∈ as) : (a, n + m) ∈ labelled n starts := by
  induction starts generalizing n m with
  | nil => cases hstart
  | cons others starts ih =>
    cases m with
    | zero =>
      obtain rfl := Option.some.inj hstart
      exact List.mem_append_left _ (List.mem_map.mpr ⟨a, hmem, rfl⟩)
    | succ m =>
      have hlater := ih (n := n + 1) hstart
      have hsum : n + 1 + m = n + (m + 1) := by omega
      rw [hsum] at hlater
      exact List.mem_append_right _ hlater

omit [DecidableEq α] in
theorem labelled_sorted (n : ℕ) (starts : List (List α)) :
    (labelled n starts).Pairwise fun x y => x.2 ≤ y.2 := by
  induction starts generalizing n with
  | nil => exact List.Pairwise.nil
  | cons as starts ih =>
    refine List.pairwise_append.mpr ⟨?_, ih (n + 1), fun x hx y hy => ?_⟩
    · exact List.pairwise_map.mpr (List.pairwise_of_forall fun x y => le_rfl)
    · rw [(snd_of_mem_map hx).2]
      have hlower := (mem_labelled hy).1
      omega

omit [DecidableEq α] in
theorem queueInv_labelled : QueueInv expand goal starts (labelled 0 starts) [] where
  layer := by
    intro entry hentry
    obtain ⟨-, -, as, hstart, hmem⟩ := mem_labelled hentry
    rw [Nat.sub_zero] at hstart
    exact .start entry.2 as entry.1 hstart hmem
  sorted := labelled_sorted 0 starts
  spread := by
    intro x y _ hy
    have hupper := (mem_labelled hy).2.1
    omega
  before := fun _ _ hnone => absurd hnone List.not_mem_nil
  clear := fun _ hnone => absurd hnone List.not_mem_nil
  begins := by
    intro n as a hstart hmem
    have hlabelled := mem_labelled_of_start (n := 0) hstart hmem
    rw [Nat.zero_add] at hlabelled
    exact ⟨n, le_rfl, Or.inr hlabelled⟩
  closed := fun _ _ hnone => absurd hnone List.not_mem_nil

/-- How many steps are enough from the starts. -/
def enough (expand : α → List α) (starts : List (List α)) (places : List α) : ℕ :=
  starts.flatten.length + (places.map fun a => (expand a).length).sum

theorem search_starts (hplaces : ∀ a, a ∉ places → expand a = []) :
    Finds expand goal starts
      (search expand goal (enough expand starts places) starts.flatten []) := by
  have hqueue := map_fst_labelled 0 starts
  have hlength := congrArg List.length hqueue
  rw [List.length_map] at hlength
  have hfuel : (labelled 0 starts).length + budget expand places (([] : List (α × ℕ)).map
      Prod.fst) ≤ enough expand starts places := by
    rw [hlength]
    exact le_rfl
  have hinv : QueueInv expand goal starts (labelled 0 starts) [] := queueInv_labelled
  have hfinds := search_finds hplaces hinv hfuel
  rw [hqueue] at hfinds
  exact hfinds

/-- Two searches that differ only in the order of what their lists hold find the same, where the
nearest goals agree. -/
theorem search_congr {expand' : α → List α} {starts' : List (List α)} {places' : List α}
    (hstarts : List.Forall₂ (fun as as' => ∀ a, a ∈ as ↔ a ∈ as') starts starts')
    (hexpand : ∀ a b, b ∈ expand a ↔ b ∈ expand' a) (hplaces : ∀ a, a ∉ places → expand a = [])
    (hplaces' : ∀ a, a ∉ places' → expand' a = []) (hagrees : Agrees expand goal starts) :
    search expand goal (enough expand starts places) starts.flatten [] =
      search expand' goal (enough expand' starts' places') starts'.flatten [] := by
  have hfinds : Finds expand goal starts (search expand goal (enough expand starts places)
      starts.flatten []) := search_starts hplaces
  have hfinds' : Finds expand' goal starts' (search expand' goal (enough expand' starts' places')
      starts'.flatten []) := search_starts hplaces'
  have hback : List.Forall₂ (fun as as' => ∀ a, a ∈ as ↔ a ∈ as') starts' starts :=
    hstarts.flip.imp fun _ _ h a => (h a).symm
  have hlayer {n : ℕ} {a : α} : Layer expand' goal starts' n a → Layer expand goal starts n a :=
    Layer.congr hback fun a b => (hexpand a b).symm
  have hlayer' {n : ℕ} {a : α} : Layer expand goal starts n a → Layer expand' goal starts' n a :=
    Layer.congr hstarts hexpand
  have hnearest {b : β} (h : Nearest expand' goal starts' b) : Nearest expand goal starts b := by
    obtain ⟨n, a, hfound, hgoal, hnone⟩ := h
    exact ⟨n, a, hlayer hfound, hgoal, fun m hm c hc => hnone m hm c (hlayer' hc)⟩
  cases hleft : search expand goal (enough expand starts places) starts.flatten [] with
  | none =>
    rw [hleft] at hfinds
    cases hright : search expand' goal (enough expand' starts' places') starts'.flatten [] with
    | none => rfl
    | some b =>
      rw [hright] at hfinds'
      obtain ⟨n, a, hfound, hgoal, -⟩ := hfinds'
      rw [hfinds n a (hlayer hfound)] at hgoal
      cases hgoal
  | some b =>
    rw [hleft] at hfinds
    cases hright : search expand' goal (enough expand' starts' places') starts'.flatten [] with
    | none =>
      rw [hright] at hfinds'
      obtain ⟨n, a, hfound, hgoal, -⟩ := hfinds
      rw [hfinds' n a (hlayer' hfound)] at hgoal
      cases hgoal
    | some b' =>
      rw [hright] at hfinds'
      exact congrArg some (hagrees.unique hfinds (hnearest hfinds'))

end Run

end LayeredSearch
