import Mathlib.Data.Set.BooleanAlgebra
import Mathlib.Order.CompletePartialOrder
import Oath.Library.Interleaving
import Oath.Library.Service

/-! Transactions on one database at the same time, statement after statement. A statement sees what
is committed when it runs and what its own transaction has written. What it locks stays locked until
its transaction ends, and others that need it wait. -/

/-- What a statement locks, what it answers and what it writes, by what it sees. -/
structure Statement (δ κ β : Type) where
  locks : δ → List κ
  run : δ → Except String (β × (δ → δ))

inductive Transaction (δ κ α : Type) : Type 1
  | clock (next : ℕ → Transaction δ κ α)
  | statement {β : Type} (s : Statement δ κ β) (next : β → Transaction δ κ α)
  | commit (a : α)
  | rollback (answer : Except String α)

namespace Transaction

/-- A transaction up to its next step, with the times it was shown and what it has written; or its
end: what it committed, if it did, and what its caller was told. -/
inductive Session (δ κ α : Type) : Type 1
  | running (times : List ℕ) (writes : δ → δ) (rest : Transaction δ κ α)
  | ended (times : List ℕ) (committed : Option α) (answer : Except String α)

structure Server (ι δ κ : Type) where
  committed : δ
  holder : κ → Option ι
  time : ℕ

inductive Action
  | next (fault : Fault)
  | setClock (time : ℕ)
deriving DecidableEq, Repr

variable {ι δ κ α : Type}

/-! ## Locks -/

section Locks
variable [DecidableEq ι]

namespace Server

def free (server : Server ι δ κ) (i : ι) (k : κ) : Bool :=
  server.holder k = none ∨ server.holder k = some i

theorem free_iff {server : Server ι δ κ} {i : ι} {k : κ} :
    server.free i k ↔ server.holder k = none ∨ server.holder k = some i := by
  unfold free
  exact decide_eq_true_iff

def lock [DecidableEq κ] (server : Server ι δ κ) (i : ι) (locks : List κ) : Server ι δ κ :=
  { server with holder := fun k => if k ∈ locks then some i else server.holder k }

def release (server : Server ι δ κ) (i : ι) : Server ι δ κ :=
  { server with holder := fun k => if server.holder k = some i then none else server.holder k }

def commit (server : Server ι δ κ) (i : ι) (writes : δ → δ) : Server ι δ κ :=
  { server.release i with committed := writes server.committed }

def locksOf (server : Server ι δ κ) (i : ι) : Set κ := {k | server.holder k = some i}

theorem locksOf_lock [DecidableEq κ] (server : Server ι δ κ) (i : ι) (locks : List κ) :
    (server.lock i locks).locksOf i = server.locksOf i ∪ {k | k ∈ locks} := by
  ext k
  show (if k ∈ locks then some i else server.holder k) = some i ↔
    server.holder k = some i ∨ k ∈ locks
  split_ifs with hk
  · exact ⟨fun _ => Or.inr hk, fun _ => rfl⟩
  · exact ⟨Or.inl, fun h => h.resolve_right hk⟩

/-- What others hold is not free. -/
theorem locksOf_lock_of_ne [DecidableEq κ] {server : Server ι δ κ} {i j : ι} (hne : i ≠ j)
    {locks : List κ} (hfree : locks.all (server.free j)) :
    (server.lock j locks).locksOf i = server.locksOf i := by
  ext k
  show (if k ∈ locks then some j else server.holder k) = some i ↔ server.holder k = some i
  split_ifs with hk
  · have hholder := free_iff.mp (List.all_eq_true.mp hfree k hk)
    constructor
    · intro h
      exact absurd (Option.some.inj h).symm hne
    · intro h
      rcases hholder with hnone | hown
      · rw [hnone] at h
        cases h
      · rw [hown] at h
        exact h
  · exact Iff.rfl

theorem locksOf_release_of_ne (server : Server ι δ κ) {i j : ι} (hne : i ≠ j) :
    (server.release j).locksOf i = server.locksOf i := by
  ext k
  show (if server.holder k = some j then none else server.holder k) = some i ↔
    server.holder k = some i
  split_ifs with hk
  · rw [hk]
    constructor
    · intro h
      cases h
    · intro h
      exact absurd (Option.some.inj h).symm hne
  · exact Iff.rfl

theorem disjoint_locksOf (server : Server ι δ κ) {i j : ι} (hne : i ≠ j) :
    Disjoint (server.locksOf i) (server.locksOf j) := by
  rw [Set.disjoint_left]
  intro k hi hj
  have hsame : some i = some j := hi.symm.trans hj
  exact hne (Option.some.inj hsame)

end Server

/-! ## Steps -/

variable [DecidableEq κ]

/-- A statement whose locks others hold is not possible now. One that fails ends its transaction. -/
def afterStatement {β : Type} (i : ι) (server : Server ι δ κ) (times : List ℕ) (writes : δ → δ)
    (s : Statement δ κ β) (next : β → Transaction δ κ α) :
    Option (Server ι δ κ × Session δ κ α) :=
  let seen := writes server.committed
  if (s.locks seen).all (server.free i) then
    match s.run seen with
    | .ok (b, write) => some (server.lock i (s.locks seen), .running times (write ∘ writes) (next b))
    | .error message => some (server.release i, .ended times none (.error message))
  else none

/-- A session that loses its server ends without a commit, unless only the answer to the commit was
lost. -/
def step (i : ι) (fault : Fault) (server : Server ι δ κ) :
    Session δ κ α → Option (Server ι δ κ × Session δ κ α)
  | .running times writes (.clock next) =>
    some (server, .running (times ++ [server.time]) writes (next server.time))
  | .running times writes (.statement s next) =>
    match fault with
    | .none => afterStatement i server times writes s next
    | .lost message | .unacknowledged message =>
      some (server.release i, .ended times none (.error message))
  | .running times writes (.commit a) =>
    match fault with
    | .none => some (server.commit i writes, .ended times (some a) (.ok a))
    | .lost message => some (server.release i, .ended times none (.error message))
    | .unacknowledged message =>
      some (server.commit i writes, .ended times (some a) (.error message))
  | .running times _ (.rollback answer) =>
    match fault with
    | .none => some (server.release i, .ended times none answer)
    | .lost message | .unacknowledged message =>
      some (server.release i, .ended times none (.error message))
  | .ended .. => none

def sessions : Threads ι Action (Server ι δ κ) (Session δ κ α) where
  step i action server session :=
    match action with
    | .next fault => step i fault server session
    | .setClock time => some ({ server with time }, session)

/-- What a step of a session can do. -/
inductive Moves (i : ι) (server : Server ι δ κ) :
    Session δ κ α → Server ι δ κ → Session δ κ α → Prop
  | clock (times writes next) : Moves i server (.running times writes (.clock next)) server
      (.running (times ++ [server.time]) writes (next server.time))
  | statement {β : Type} (times writes) (s : Statement δ κ β) (next b write)
      (hfree : (s.locks (writes server.committed)).all (server.free i))
      (hrun : s.run (writes server.committed) = .ok (b, write)) :
      Moves i server (.running times writes (.statement s next))
        (server.lock i (s.locks (writes server.committed)))
        (.running times (write ∘ writes) (next b))
  | commit (times writes a answer) : Moves i server (.running times writes (.commit a))
      (server.commit i writes) (.ended times (some a) answer)
  | ends (times writes rest answer) : Moves i server (.running times writes rest)
      (server.release i) (.ended times none answer)

theorem step_moves {i : ι} {fault : Fault} {server server' : Server ι δ κ}
    {session session' : Session δ κ α}
    (h : step i fault server session = some (server', session')) :
    Moves i server session server' session' := by
  cases session with
  | ended times committed answer => cases h
  | running times writes rest =>
    cases rest with
    | clock next =>
      obtain ⟨rfl, rfl⟩ := Prod.mk.inj (Option.some.inj h)
      exact .clock ..
    | commit a =>
      cases fault with
      | none =>
        obtain ⟨rfl, rfl⟩ := Prod.mk.inj (Option.some.inj h)
        exact .commit ..
      | lost message =>
        obtain ⟨rfl, rfl⟩ := Prod.mk.inj (Option.some.inj h)
        exact .ends ..
      | unacknowledged message =>
        obtain ⟨rfl, rfl⟩ := Prod.mk.inj (Option.some.inj h)
        exact .commit ..
    | rollback answer =>
      cases fault with
      | none =>
        obtain ⟨rfl, rfl⟩ := Prod.mk.inj (Option.some.inj h)
        exact .ends ..
      | lost message =>
        obtain ⟨rfl, rfl⟩ := Prod.mk.inj (Option.some.inj h)
        exact .ends ..
      | unacknowledged message =>
        obtain ⟨rfl, rfl⟩ := Prod.mk.inj (Option.some.inj h)
        exact .ends ..
    | statement s next =>
      cases fault with
      | lost message =>
        obtain ⟨rfl, rfl⟩ := Prod.mk.inj (Option.some.inj h)
        exact .ends ..
      | unacknowledged message =>
        obtain ⟨rfl, rfl⟩ := Prod.mk.inj (Option.some.inj h)
        exact .ends ..
      | none =>
        have hafter : afterStatement i server times writes s next = some (server', session') := h
        unfold afterStatement at hafter
        dsimp only at hafter
        split_ifs at hafter with hfree
        cases hrun : s.run (writes server.committed) with
        | error message =>
          rw [hrun] at hafter
          obtain ⟨rfl, rfl⟩ := Prod.mk.inj (Option.some.inj hafter)
          exact .ends ..
        | ok result =>
          obtain ⟨b, write⟩ := result
          rw [hrun] at hafter
          obtain ⟨rfl, rfl⟩ := Prod.mk.inj (Option.some.inj hafter)
          exact .statement _ _ _ _ _ _ hfree hrun

end Locks

/-! ## What a commit may do under its locks -/

/-- What is kept of what is committed, what a commit under these locks may change, and what is known
after it for good. -/
structure Discipline (ι δ κ α : Type) where
  good : δ → Prop
  may : ι → α → Set κ → δ → δ → Prop
  after : ι → List ℕ → α → δ → Prop

namespace Discipline
variable {d : Discipline ι δ κ α}

/-- What commits of others cannot change while these locks are held. -/
def Stable (d : Discipline ι δ κ α) (held : Set κ) (A : δ → Prop) : Prop :=
  ∀ i a others db db', Disjoint others held → d.good db → d.may i a others db db' → A db → A db'

theorem stable_true (held : Set κ) : d.Stable held fun _ => True :=
  fun _ _ _ _ _ _ _ _ _ => trivial

theorem Stable.mono {held held' : Set κ} {A : δ → Prop} (h : d.Stable held A)
    (hsub : held ⊆ held') : d.Stable held' A :=
  fun i a others db db' hdisjoint => h i a others db db' (hdisjoint.mono_right hsub)

/-- The transaction commits only what it may, by what it has seen under its locks: `A` is what it
knows of what is committed. -/
def Keeps (d : Discipline ι δ κ α) (i : ι) :
    Transaction δ κ α → List ℕ → (δ → δ) → Set κ → (δ → Prop) → Prop
  | .clock next, times, writes, held, A => ∀ t, Keeps d i (next t) (times ++ [t]) writes held A
  | .statement s next, times, writes, held, A =>
    ∀ db, d.good db → A db → ∀ b write, s.run (writes db) = .ok (b, write) →
      ∃ A', d.Stable (held ∪ {k | k ∈ s.locks (writes db)}) A' ∧ A' db ∧
        Keeps d i (next b) times (write ∘ writes) (held ∪ {k | k ∈ s.locks (writes db)}) A'
  | .commit a, times, writes, held, A =>
    ∀ db, d.good db → A db → d.may i a held db (writes db) ∧ d.good (writes db) ∧
      d.after i times a (writes db)
  | .rollback _, _, _, _, _ => True

/-- A statement that teaches nothing new. -/
theorem keeps_statement {i : ι} {β : Type} {s : Statement δ κ β} {next : β → Transaction δ κ α}
    {times : List ℕ} {writes : δ → δ} {held : Set κ} {A : δ → Prop} (hstable : d.Stable held A)
    (h : ∀ db b write, s.run (writes db) = .ok (b, write) →
      ∀ held', held ⊆ held' → d.Keeps i (next b) times (write ∘ writes) held' A) :
    d.Keeps i (.statement s next) times writes held A := by
  intro db _ hA b write hrun
  have hsub : held ⊆ held ∪ {k | k ∈ s.locks (writes db)} := Set.subset_union_left
  exact ⟨A, hstable.mono hsub, hA, h db b write hrun _ hsub⟩

/-- What is known of a session. -/
def Holds [DecidableEq ι] (d : Discipline ι δ κ α) (i : ι) (server : Server ι δ κ) :
    Session δ κ α → Prop
  | .running times writes rest =>
    ∃ A, d.Stable (server.locksOf i) A ∧ A server.committed ∧
      d.Keeps i rest times writes (server.locksOf i) A
  | .ended times (some a) _ => d.after i times a server.committed
  | .ended _ none _ => True

section Runs
variable [DecidableEq ι] [DecidableEq κ] {i j : ι} {server server' : Server ι δ κ}
  {session session' mine : Session δ κ α}

theorem Holds.own (h : d.Holds i server session) (hgood : d.good server.committed)
    (hmoves : Moves i server session server' session') :
    d.good server'.committed ∧ d.Holds i server' session' := by
  cases hmoves with
  | clock times writes next =>
    obtain ⟨A, hstable, hA, hkeeps⟩ := h
    exact ⟨hgood, A, hstable, hA, hkeeps server.time⟩
  | statement times writes s next b write hfree hrun =>
    obtain ⟨A, hstable, hA, hkeeps⟩ := h
    obtain ⟨A', hstable', hA', hkeeps'⟩ := hkeeps server.committed hgood hA b write hrun
    rw [← Server.locksOf_lock] at hstable' hkeeps'
    exact ⟨hgood, A', hstable', hA', hkeeps'⟩
  | commit times writes a answer =>
    obtain ⟨A, hstable, hA, hkeeps⟩ := h
    exact (hkeeps server.committed hgood hA).2
  | ends times writes rest answer => exact ⟨hgood, trivial⟩

/-- The step of another session changes only what its locks allow. -/
theorem Holds.other (hafter : ∀ i times a, d.Stable ∅ (d.after i times a)) (hne : i ≠ j)
    (hj : d.Holds j server session) (hgood : d.good server.committed)
    (hmoves : Moves j server session server' session') (h : d.Holds i server mine) :
    d.Holds i server' mine := by
  have hkept : ∀ A : δ → Prop, d.Stable (server.locksOf i) A → A server.committed →
      A server'.committed := by
    intro A hstable hA
    cases hmoves with
    | clock times writes next => exact hA
    | statement times writes s next b write hfree hrun => exact hA
    | ends times writes rest answer => exact hA
    | commit times writes a answer =>
      obtain ⟨B, -, hB, hkeeps⟩ := hj
      obtain ⟨hmay, -⟩ := hkeeps server.committed hgood hB
      exact hstable _ _ _ _ _ (server.disjoint_locksOf (Ne.symm hne)) hgood hmay hA
  have hlocks : server'.locksOf i = server.locksOf i := by
    cases hmoves with
    | clock times writes next => rfl
    | statement times writes s next b write hfree hrun => exact Server.locksOf_lock_of_ne hne hfree
    | ends times writes rest answer => exact server.locksOf_release_of_ne hne
    | commit times writes a answer => exact server.locksOf_release_of_ne hne
  cases mine with
  | running times writes rest =>
    obtain ⟨A, hstable, hA, hkeeps⟩ := h
    refine ⟨A, ?_, hkept A hstable hA, ?_⟩
    · rw [hlocks]
      exact hstable
    · rw [hlocks]
      exact hkeeps
  | ended times committed answer =>
    cases committed with
    | none => trivial
    | some a =>
      have hstable : d.Stable (server.locksOf i) (d.after i times a) :=
        (hafter i times a).mono (Set.empty_subset _)
      exact hkept _ hstable h

theorem fire_holds (hafter : ∀ i times a, d.Stable ∅ (d.after i times a))
    {s s' : Threads.State ι (Server ι δ κ) (Session δ κ α)} {event : ι × Action}
    (h : d.good s.shared.committed ∧ ∀ i, d.Holds i s.shared (s.locals i))
    (hfire : sessions.fire s event = some s') :
    d.good s'.shared.committed ∧ ∀ i, d.Holds i s'.shared (s'.locals i) := by
  obtain ⟨server, session, hstep, rfl⟩ := Threads.fire_eq_some.mp hfire
  obtain ⟨j, action⟩ := event
  cases action with
  | setClock time =>
    obtain ⟨rfl, rfl⟩ := Prod.mk.inj (Option.some.inj hstep)
    rw [Function.update_eq_self]
    exact h
  | next fault =>
    have hmoves := step_moves hstep
    obtain ⟨hgood, hown⟩ := (h.2 j).own h.1 hmoves
    refine ⟨hgood, fun i => ?_⟩
    dsimp only
    by_cases hsame : i = j
    · rw [hsame, Function.update_self]
      exact hown
    · rw [Function.update_of_ne hsame]
      exact Holds.other hafter hsame (h.2 j) h.1 hmoves (h.2 i)

/-- Sessions that commit only what they may keep what is good, in any order of their steps. -/
theorem run_holds (hafter : ∀ i times a, d.Stable ∅ (d.after i times a))
    {s s' : Threads.State ι (Server ι δ κ) (Session δ κ α)} {events : List (ι × Action)}
    (h : d.good s.shared.committed ∧ ∀ i, d.Holds i s.shared (s.locals i))
    (hrun : sessions.run s events = some s') :
    d.good s'.shared.committed ∧ ∀ i, d.Holds i s'.shared (s'.locals i) :=
  Threads.run_invariant (fun _ _ _ hs hfire => fire_holds hafter hs hfire) h hrun

/-! ## What a run commits -/

/-- The session has ended with this commit. -/
def Committed (a : α) (session : Session δ κ α) : Prop :=
  ∃ times answer, session = .ended times (some a) answer

theorem Holds.after {a : α} (h : d.Holds i server session) (hcommitted : Committed a session) :
    ∃ times, d.after i times a server.committed := by
  obtain ⟨times, answer, rfl⟩ := hcommitted
  exact ⟨times, h⟩

/-- A session has just ended with a commit. -/
theorem Holds.may {a : α} (h : d.Holds i server session) (hgood : d.good server.committed)
    (hmoves : Moves i server session server' session') (hcommitted : Committed a session') :
    ∃ held, d.may i a held server.committed server'.committed := by
  obtain ⟨times, answer, rfl⟩ := hcommitted
  cases hmoves with
  | commit _ writes _ _ =>
    obtain ⟨A, -, hA, hkeeps⟩ := h
    exact ⟨_, (hkeeps server.committed hgood hA).1⟩

/-- What is committed changes only by a commit. -/
theorem committed_of_moves (hmoves : Moves i server session server' session') :
    server'.committed = server.committed ∨ ∃ a, Committed a session' := by
  cases hmoves with
  | clock times writes next => exact Or.inl rfl
  | statement times writes s next b write hfree hrun => exact Or.inl rfl
  | ends times writes rest answer => exact Or.inl rfl
  | commit times writes a answer => exact Or.inr ⟨a, times, answer, rfl⟩

/-- What has been committed stays so. -/
theorem run_committed {s s' : Threads.State ι (Server ι δ κ) (Session δ κ α)}
    {events : List (ι × Action)} {a : α} (h : Committed a (s.locals i))
    (hrun : sessions.run s events = some s') : Committed a (s'.locals i) := by
  refine Threads.run_invariant (I := fun s => Committed a (s.locals i)) ?_ h hrun
  intro s event s' hs hfire
  obtain ⟨server, session, hstep, rfl⟩ := Threads.fire_eq_some.mp hfire
  obtain ⟨j, action⟩ := event
  dsimp only
  by_cases hsame : i = j
  · obtain ⟨times, answer, hended⟩ := hs
    rw [hsame] at hended ⊢
    rw [Function.update_self]
    dsimp only at hstep
    rw [hended] at hstep
    cases action with
    | next fault => cases hstep
    | setClock time =>
      obtain ⟨-, rfl⟩ := Prod.mk.inj (Option.some.inj hstep)
      exact ⟨times, answer, rfl⟩
  · rw [Function.update_of_ne hsame]
    exact hs

/-- Where what is known after one commit rules out the other, no run has both. -/
theorem run_exclusive (hafter : ∀ i times a, d.Stable ∅ (d.after i times a))
    (Conflict : ι → α → ι → α → Prop) (hsymm : ∀ i a j b, Conflict i a j b → Conflict j b i a)
    (hexclude : ∀ i a j b times held db db', Conflict i a j b → d.after i times a db →
      ¬ d.may j b held db db')
    {s s' : Threads.State ι (Server ι δ κ) (Session δ κ α)} {events : List (ι × Action)}
    (h : d.good s.shared.committed ∧ ∀ i, d.Holds i s.shared (s.locals i))
    (hnone : ∀ i a, ¬ Committed a (s.locals i)) (hrun : sessions.run s events = some s')
    {i j : ι} {a b : α} (hne : i ≠ j) (hi : Committed a (s'.locals i))
    (hj : Committed b (s'.locals j)) : ¬ Conflict i a j b := by
  let I := fun s : Threads.State ι (Server ι δ κ) (Session δ κ α) =>
    (d.good s.shared.committed ∧ ∀ i, d.Holds i s.shared (s.locals i)) ∧
      ∀ i j a b, i ≠ j → Committed a (s.locals i) → Committed b (s.locals j) → ¬ Conflict i a j b
  have hstart : I s := ⟨h, fun i _ a _ _ hi _ => absurd hi (hnone i a)⟩
  refine (Threads.run_invariant (I := I) ?_ hstart hrun).2 i j a b hne hi hj
  intro s event s' hs hfire
  refine ⟨fire_holds hafter hs.1 hfire, ?_⟩
  obtain ⟨server, session, hstep, rfl⟩ := Threads.fire_eq_some.mp hfire
  obtain ⟨k, action⟩ := event
  cases action with
  | setClock time =>
    obtain ⟨rfl, rfl⟩ := Prod.mk.inj (Option.some.inj hstep)
    rw [Function.update_eq_self]
    exact hs.2
  | next fault =>
    have hmoves := step_moves hstep
    -- the session that moves commits against one that has committed before
    have hmoved : ∀ l x y, l ≠ k → Committed x session → Committed y (s.locals l) →
        ¬ Conflict l y k x := by
      intro l x y hl hx hy hconflict
      obtain ⟨times, hlater⟩ := (hs.1.2 l).after hy
      obtain ⟨held, hmay⟩ := (hs.1.2 k).may hs.1.1 hmoves hx
      exact hexclude l y k x times held _ _ hconflict hlater hmay
    intro i j a b hne hi hj
    dsimp only at hi hj
    by_cases hik : i = k
    · have hjk : j ≠ k := fun heq => hne (hik.trans heq.symm)
      rw [hik, Function.update_self] at hi
      rw [Function.update_of_ne hjk] at hj
      intro hconflict
      rw [hik] at hconflict
      exact hmoved j a b hjk hi hj (hsymm k a j b hconflict)
    · rw [Function.update_of_ne hik] at hi
      by_cases hjk : j = k
      · rw [hjk, Function.update_self] at hj
        rw [hjk]
        exact hmoved i b a hik hj hi
      · rw [Function.update_of_ne hjk] at hj
        exact hs.2 i j a b hne hi hj

end Runs

end Discipline

/-! ## From the start -/

/-- Every transaction at its beginning. -/
def start (db : δ) (time : ℕ) (transactions : ι → Transaction δ κ α) :
    Threads.State ι (Server ι δ κ) (Session δ κ α) where
  shared := { committed := db, holder := fun _ => none, time }
  locals i := .running [] id (transactions i)

theorem Discipline.start_holds [DecidableEq ι] {d : Discipline ι δ κ α} {db : δ} (time : ℕ)
    {transactions : ι → Transaction δ κ α} (hgood : d.good db)
    (h : ∀ i held, d.Keeps i (transactions i) [] id held fun _ => True) :
    d.good (start db time transactions).shared.committed ∧
      ∀ i, d.Holds i (start db time transactions).shared ((start db time transactions).locals i) :=
  ⟨hgood, fun i => ⟨fun _ => True, d.stable_true _, trivial, h i _⟩⟩

/-! ## With nothing in between -/

/-- What the transaction does when it is the only one. -/
def alone (time : ℕ) (db : δ) : Transaction δ κ α → (δ → δ) → Except String (α × δ)
  | .clock next, writes => alone time db (next time) writes
  | .statement s next, writes => do
    let (b, write) ← s.run (writes db)
    alone time db (next b) (write ∘ writes)
  | .commit a, writes => .ok (a, writes db)
  | .rollback answer, _ => do
    let a ← answer
    .ok (a, db)

theorem alone_statement {time : ℕ} {db : δ} {β : Type} {s : Statement δ κ β}
    {next : β → Transaction δ κ α} {writes write : δ → δ} {b : β}
    (h : s.run (writes db) = .ok (b, write)) :
    (Transaction.statement s next).alone time db writes =
      (next b).alone time db (write ∘ writes) := by
  rw [alone, h]
  rfl

theorem exists_run_alone [DecidableEq ι] [DecidableEq κ] {i : ι} {rest : Transaction δ κ α}
    {times : List ℕ} {writes : δ → δ} {a : α} {db' : δ}
    {s : Threads.State ι (Server ι δ κ) (Session δ κ α)}
    (hlocal : s.locals i = .running times writes rest) (hfree : ∀ k, s.shared.free i k)
    (h : rest.alone s.shared.time s.shared.committed writes = .ok (a, db')) :
    ∃ events s', sessions.run s events = some s' ∧ s'.shared.committed = db' ∧
      ∃ times' committed, s'.locals i = .ended times' committed (.ok a) := by
  induction rest generalizing s times writes with
  | clock next ih =>
    have hfire : sessions.fire s (i, .next .none) = some ⟨s.shared, Function.update s.locals i
        (.running (times ++ [s.shared.time]) writes (next s.shared.time))⟩ :=
      Threads.fire_of_step hlocal rfl
    obtain ⟨events, s', hrun, hend⟩ := ih s.shared.time
      (s := ⟨s.shared, Function.update s.locals i
        (.running (times ++ [s.shared.time]) writes (next s.shared.time))⟩)
      (Function.update_self ..) hfree h
    exact ⟨_ :: events, s', Threads.run_cons_eq_some.mpr ⟨_, hfire, hrun⟩, hend⟩
  | statement statement next ih =>
    obtain ⟨⟨b, write⟩, hanswer, hrest⟩ := Except.bind_eq_ok.mp h
    have hall : (statement.locks (writes s.shared.committed)).all (s.shared.free i) :=
      List.all_eq_true.mpr fun k _ => hfree k
    have hstep : sessions.step i (.next .none) s.shared
        (.running times writes (.statement statement next)) =
        some (s.shared.lock i (statement.locks (writes s.shared.committed)),
          .running times (write ∘ writes) (next b)) := by
      show afterStatement i s.shared times writes statement next = _
      unfold afterStatement
      dsimp only
      rw [if_pos hall, hanswer]
    have hfire := Threads.fire_of_step hlocal hstep
    have hlocked : ∀ k, (s.shared.lock i (statement.locks (writes s.shared.committed))).free i k := by
      intro k
      rw [Server.free_iff]
      show (if _ then some i else s.shared.holder k) = none ∨
        (if _ then some i else s.shared.holder k) = some i
      split_ifs
      · exact Or.inr rfl
      · exact Server.free_iff.mp (hfree k)
    obtain ⟨events, s', hrun, hend⟩ := ih b
      (s := ⟨s.shared.lock i (statement.locks (writes s.shared.committed)),
        Function.update s.locals i (.running times (write ∘ writes) (next b))⟩)
      (Function.update_self ..) hlocked hrest
    exact ⟨_ :: events, s', Threads.run_cons_eq_some.mpr ⟨_, hfire, hrun⟩, hend⟩
  | commit value =>
    obtain ⟨rfl, rfl⟩ := Prod.mk.inj (Except.ok.inj h)
    have hfire := Threads.fire_of_step hlocal
      (show sessions.step i (.next .none) s.shared (.running times writes (.commit value)) =
        some (s.shared.commit i writes, .ended times (some value) (.ok value)) from rfl)
    exact ⟨[_], _, Threads.run_cons_eq_some.mpr ⟨_, hfire, Threads.run_nil⟩, rfl, times,
      some value, Function.update_self ..⟩
  | rollback answer =>
    obtain ⟨value, rfl, hvalue⟩ := Except.bind_eq_ok.mp h
    obtain ⟨rfl, rfl⟩ := Prod.mk.inj (Except.ok.inj hvalue)
    have hfire := Threads.fire_of_step hlocal
      (show sessions.step i (.next .none) s.shared (.running times writes (.rollback (.ok value))) =
        some (s.shared.release i, .ended times none (.ok value)) from rfl)
    exact ⟨[_], _, Threads.run_cons_eq_some.mpr ⟨_, hfire, Threads.run_nil⟩, rfl, times, none,
      Function.update_self ..⟩

end Transaction
