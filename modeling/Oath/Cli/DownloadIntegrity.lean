import Oath.Cli.Download
import Oath.Registry.Decision

/-! Whether what the downloads put into the store matches its declared integrity. -/

namespace Oath.Cli
open Fetch Registry Resolve Unix

section Soundness
variable {env : DownloadEnvironment} {s s' : Downloads}

/-! ## Sound store entries -/

/-- The bytes match the declared integrity, and those of a git node are a whole archive that
was sent for its specification. -/
structure SoundBytes (env : DownloadEnvironment) (served : List ServedArchive) (node : DepNode)
    (tarball : List UInt8) : Prop where
  integrity (sri : String) : node.integrity = some sri → Matches env.hashes tarball sri
  git : routeOf node.resolved = .git →
    ∃ v ∈ served, v.resolved = node.resolved ∧ v.archive = tarball

structure SoundEntry (env : DownloadEnvironment) (served : List ServedArchive)
    (entry : StoreEntry) : Prop where
  bytes : SoundBytes env served entry.node entry.tarball
  extracted : extractTree env entry.tarball = .ok entry.tree

/-! ## Runs in which nothing goes wrong unseen -/

/-- Between the look into the cache and the last byte of the archive in it. -/
def Phase.UnderWay : Phase → Prop
  | .missing => True
  | .fetched _ => True
  | .writing _ _ => True
  | _ => False

def Phase.IsWriting : Phase → Prop
  | .writing _ _ => True
  | _ => False

/-- What a step needs beyond the code: no write of a cached archive is cut short, no task meets
the unfinished archive of another or one for another specification of the same file name, and
bytes that the code does not verify match the integrity of their node. -/
def Undisturbed (env : DownloadEnvironment) (s : Downloads) : Action → Prop
  | .abort id => ∀ task, s.tasks id = some task → ¬task.phase.IsWriting
  | .checkCache id => ∀ task, s.tasks id = some task →
      (∀ other task', other ≠ id → s.tasks other = some task' → task'.phase.UnderWay →
        cacheFile env task'.node ≠ cacheFile env task.node) ∧
      ∀ v ∈ s.served, v.file = cacheFile env task.node → v.resolved = task.node.resolved
  | .copyCache id => ∀ task tarball sri, s.tasks id = some task →
      s.cache (cacheFile env task.node) = some tarball → task.node.integrity = some sri →
        Matches env.hashes tarball sri
  | .packLocal id tarball => ∀ task sri, s.tasks id = some task →
      task.node.integrity = some sri → Matches env.hashes tarball sri
  | _ => True

inductive UndisturbedRun (env : DownloadEnvironment) : Downloads → List Action → Downloads → Prop
  | nil (s : Downloads) : UndisturbedRun env s [] s
  | cons {s s' s'' action rest} (hstep : Step env s action s') (h : Undisturbed env s action)
      (hrest : UndisturbedRun env s' rest s'') : UndisturbedRun env s (action :: rest) s''

theorem UndisturbedRun.exists_cons {action : Action} {rest : List Action} {P : Downloads → Prop}
    (hstep : Step env s action s') (h : Undisturbed env s action)
    (hrest : ∃ s'', UndisturbedRun env s' rest s'' ∧ P s'') :
    ∃ s'', UndisturbedRun env s (action :: rest) s'' ∧ P s'' := by
  obtain ⟨s'', hrun, hP⟩ := hrest
  exact ⟨s'', .cons hstep h hrun, hP⟩

/-! ## The invariant -/

/-- What the phase of a task says of the cache. -/
def TaskOk (env : DownloadEnvironment) (s : Downloads) (task : Task) : Prop :=
  match task.phase with
  | .started => True
  | .missing => s.cache (cacheFile env task.node) = none
  | .fetched archive => s.cache (cacheFile env task.node) = none ∧
      ⟨cacheFile env task.node, task.node.resolved, archive⟩ ∈ s.served
  | .writing archive written => s.cache (cacheFile env task.node) = some (archive.take written) ∧
      ⟨cacheFile env task.node, task.node.resolved, archive⟩ ∈ s.served ∧ written ≤ archive.length
  | .cached => ∃ v ∈ s.served, v.resolved = task.node.resolved ∧
      s.cache (cacheFile env task.node) = some v.archive
  | .downloaded tarball => SoundBytes env s.served task.node tarball

/-- One task has an archive under way while another uses the same file of the cache. -/
def Clash (env : DownloadEnvironment) (task other : Task) : Prop :=
  task.phase.UnderWay ∧ (other.phase.UnderWay ∨ other.phase = .cached) ∧
    cacheFile env task.node = cacheFile env other.node

/-- A cached file is whole or in the hands of its writer. -/
def FileOk (env : DownloadEnvironment) (s : Downloads) (file : String) (content : List UInt8) :
    Prop :=
  (∃ v ∈ s.served, v.file = file ∧ v.archive = content) ∨
    ∃ id task, s.tasks id = some task ∧ task.phase.IsWriting ∧ cacheFile env task.node = file

structure Inv (env : DownloadEnvironment) (s : Downloads) : Prop where
  tasks (id : ℕ) (task : Task) : s.tasks id = some task → TaskOk env s task
  alone (i j : ℕ) (task other : Task) : i ≠ j → s.tasks i = some task →
    s.tasks j = some other → ¬Clash env task other
  files (file : String) (content : List UInt8) : s.cache file = some content →
    FileOk env s file content
  entries (entry : StoreEntry) : entry ∈ s.entries → SoundEntry env s.served entry

/-! ### What stays when the state changes -/

theorem SoundBytes.mono {served more : List ServedArchive} {node : DepNode}
    {tarball : List UInt8} (h : SoundBytes env served node tarball) (hmore : served ⊆ more) :
    SoundBytes env more node tarball := by
  refine ⟨h.integrity, fun hroute => ?_⟩
  obtain ⟨v, hv, hsame⟩ := h.git hroute
  exact ⟨v, hmore hv, hsame⟩

/-- A task that does not look at a changed file is as well off as before. -/
theorem TaskOk.mono {task : Task} (h : TaskOk env s task) (hserved : s.served ⊆ s'.served)
    (hcache : (task.phase.UnderWay ∨ task.phase = .cached) →
      s'.cache (cacheFile env task.node) = s.cache (cacheFile env task.node)) :
    TaskOk env s' task := by
  obtain ⟨node, phase⟩ := task
  cases phase with
  | started => trivial
  | missing => exact (hcache (Or.inl trivial)).trans h
  | fetched archive => exact ⟨(hcache (Or.inl trivial)).trans h.1, hserved h.2⟩
  | writing archive written =>
    exact ⟨(hcache (Or.inl trivial)).trans h.1, hserved h.2.1, h.2.2⟩
  | cached =>
    obtain ⟨v, hv, hresolved, hcontent⟩ := h
    exact ⟨v, hserved hv, hresolved, (hcache (Or.inr rfl)).trans hcontent⟩
  | downloaded tarball => exact SoundBytes.mono h hserved

theorem SoundEntry.mono {served more : List ServedArchive} {entry : StoreEntry}
    (h : SoundEntry env served entry) (hmore : served ⊆ more) : SoundEntry env more entry := by
  exact ⟨h.bytes.mono hmore, h.extracted⟩

theorem update_eq_some {tasks : ℕ → Option Task} {id i : ℕ} {task : Option Task} {t : Task}
    (h : Function.update tasks id task i = some t) :
    (i = id ∧ task = some t) ∨ (i ≠ id ∧ tasks i = some t) := by
  by_cases hi : i = id
  · subst hi
    rw [Function.update_self] at h
    exact Or.inl ⟨rfl, h⟩
  · rw [Function.update_of_ne hi] at h
    exact Or.inr ⟨hi, h⟩

/-- A step changes one task; all that is left to see is that the task and the files are in
order and clash with nobody. -/
theorem Inv.of_task {id : ℕ} {task' : Option Task} (h : Inv env s)
    (htasks : s'.tasks = Function.update s.tasks id task') (hserved : s.served ⊆ s'.served)
    (hentries : ∀ entry ∈ s'.entries, SoundEntry env s'.served entry)
    (hothers : ∀ i task, i ≠ id → s.tasks i = some task →
      (task.phase.UnderWay ∨ task.phase = .cached) →
        s'.cache (cacheFile env task.node) = s.cache (cacheFile env task.node))
    (hok : ∀ t, task' = some t → TaskOk env s' t)
    (halone : ∀ t i other, task' = some t → i ≠ id → s.tasks i = some other →
      ¬Clash env t other ∧ ¬Clash env other t)
    (hfiles : ∀ file content, s'.cache file = some content → FileOk env s' file content) :
    Inv env s' where
  tasks i t ht := by
    rw [htasks] at ht
    rcases update_eq_some ht with ⟨-, hnew⟩ | ⟨hi, hold⟩
    · exact hok t hnew
    · exact (h.tasks i t hold).mono hserved (hothers i t hi hold)
  alone i j t other hne ht hother := by
    rw [htasks] at ht hother
    rcases update_eq_some ht with ⟨rfl, hnew⟩ | ⟨hi, hold⟩
    · rcases update_eq_some hother with ⟨hj, -⟩ | ⟨hj, holdOther⟩
      · exact absurd hj.symm hne
      · exact (halone t j other hnew hj holdOther).1
    · rcases update_eq_some hother with ⟨rfl, hnew⟩ | ⟨hj, holdOther⟩
      · exact (halone other i t hnew hi hold).2
      · exact h.alone i j t other hne hold holdOther
  files := hfiles
  entries := hentries

/-- A file that nobody touches stays in order as long as its writer does. -/
theorem FileOk.mono {id : ℕ} {task' : Option Task} {file : String} {content : List UInt8}
    (h : FileOk env s file content) (htasks : s'.tasks = Function.update s.tasks id task')
    (hserved : s.served ⊆ s'.served)
    (hwriter : ∀ task, s.tasks id = some task → task.phase.IsWriting →
      cacheFile env task.node ≠ file) : FileOk env s' file content := by
  rcases h with ⟨v, hv, hsame⟩ | ⟨i, task, htask, hwriting, hfile⟩
  · exact Or.inl ⟨v, hserved hv, hsame⟩
  · refine Or.inr ⟨i, task, ?_, hwriting, hfile⟩
    rw [htasks, Function.update_of_ne _ _ _]
    · exact htask
    · rintro rfl
      exact hwriter task htask hwriting hfile

/-- The step of a task that leaves the cache alone and is not writing. -/
theorem Inv.of_reader {id : ℕ} {task : Task} {task' : Option Task} (h : Inv env s)
    (htask : s.tasks id = some task) (hreader : ¬task.phase.IsWriting)
    (htasks : s'.tasks = Function.update s.tasks id task') (hcache : s'.cache = s.cache)
    (hserved : s.served ⊆ s'.served)
    (hentries : ∀ entry ∈ s'.entries, SoundEntry env s'.served entry)
    (hok : ∀ t, task' = some t → TaskOk env s' t)
    (halone : ∀ t i other, task' = some t → i ≠ id → s.tasks i = some other →
      ¬Clash env t other ∧ ¬Clash env other t) : Inv env s' := by
  refine h.of_task htasks hserved hentries (fun i other _ _ _ => by rw [hcache]) hok halone ?_
  intro file content hcontent
  rw [hcache] at hcontent
  refine (h.files file content hcontent).mono htasks hserved fun other hother hwriting => ?_
  obtain rfl := Option.some.inj (htask.symm.trans hother)
  exact absurd hwriting hreader

/-- A task that no longer looks at the cache clashes with nobody. -/
theorem not_clash_of_done {task other : Task} (hunder : ¬task.phase.UnderWay)
    (hcached : task.phase ≠ .cached) : ¬Clash env task other ∧ ¬Clash env other task :=
  ⟨fun h => hunder h.1, fun h => h.2.1.elim hunder hcached⟩

/-- A task clashes no more than before when it was under way all along. -/
theorem Inv.not_clash {id i : ℕ} {task other : Task} {phase : Phase} (h : Inv env s)
    (htask : s.tasks id = some task) (hunder : task.phase.UnderWay) (hi : i ≠ id)
    (hother : s.tasks i = some other) :
    ¬Clash env ⟨task.node, phase⟩ other ∧ ¬Clash env other ⟨task.node, phase⟩ := by
  have halone := h.alone id i task other hi.symm htask hother
  constructor
  · rintro ⟨-, hused, hfile⟩
    exact halone ⟨hunder, hused, hfile⟩
  · rintro ⟨hotherUnder, -, hfile⟩
    exact halone ⟨hunder, Or.inl hotherUnder, hfile.symm⟩

/-! ### The steps -/

theorem writeChunk_take {archive : List UInt8} {written count : ℕ} (h : written ≤ archive.length) :
    writeChunk (archive.take written) archive written count = archive.take (written + count) := by
  have hlength : (archive.take written).length = written := by simp [h]
  have hrest : ∀ more, (archive.take written).drop (written + more) = [] := fun more =>
    List.drop_eq_nil_of_le (by omega)
  unfold writeChunk writeAt
  rw [List.take_take, min_self, hlength, Nat.sub_self, List.replicate_zero, List.append_nil,
    hrest, List.append_nil, List.take_add]

theorem Inv.spawn {id : ℕ} {node : DepNode} (h : Inv env s) (hfree : s.tasks id = none) :
    Inv env (s.setTask id (some ⟨node, .started⟩)) := by
  refine h.of_task rfl (List.Subset.refl _) h.entries (fun i task _ _ _ => rfl) ?_ ?_ ?_
  · rintro t heq
    obtain rfl := Option.some.inj heq
    trivial
  · rintro t i other heq - -
    obtain rfl := Option.some.inj heq
    exact not_clash_of_done not_false (by simp)
  · intro file content hcontent
    refine (h.files file content hcontent).mono rfl (List.Subset.refl _) fun task htask => ?_
    rw [hfree] at htask
    cases htask

/-- A task that gets its bytes, from wherever, needs them sound. -/
theorem Inv.download {id : ℕ} {node : DepNode} {phase : Phase} {tarball : List UInt8}
    (h : Inv env s) (htask : s.tasks id = some ⟨node, phase⟩) (hreader : ¬phase.IsWriting)
    (hsound : SoundBytes env s.served node tarball) :
    Inv env (s.setTask id (some ⟨node, .downloaded tarball⟩)) := by
  refine h.of_reader htask hreader rfl rfl (List.Subset.refl _) h.entries ?_ ?_
  · rintro t heq
    obtain rfl := Option.some.inj heq
    exact hsound
  · rintro t i other heq - -
    obtain rfl := Option.some.inj heq
    exact not_clash_of_done not_false (by simp)

theorem Inv.finish {id : ℕ} {task : Task} (h : Inv env s) (htask : s.tasks id = some task)
    (hreader : ¬task.phase.IsWriting) : Inv env (s.setTask id none) :=
  h.of_reader htask hreader rfl rfl (List.Subset.refl _) h.entries (fun _ heq => by cases heq)
    fun _ _ _ heq => by cases heq

theorem Inv.foundCache {id : ℕ} {node : DepNode} {content : List UInt8} (h : Inv env s)
    (htask : s.tasks id = some ⟨node, .started⟩)
    (hfound : s.cache (cacheFile env node) = some content)
    (hundisturbed : Undisturbed env s (.checkCache id)) :
    Inv env (s.setTask id (some ⟨node, .cached⟩)) := by
  obtain ⟨hnobody, hsame⟩ := hundisturbed _ htask
  refine h.of_reader htask not_false rfl rfl (List.Subset.refl _) h.entries ?_ ?_
  · rintro t heq
    obtain rfl := Option.some.inj heq
    rcases h.files _ _ hfound with ⟨v, hv, hfile, hcontent⟩ | ⟨i, writer, hwriter, hwriting, hfile⟩
    · exact ⟨v, hv, hsame v hv hfile, by rw [hcontent]; exact hfound⟩
    · have hunder : writer.phase.UnderWay := by
        obtain ⟨_, phase⟩ := writer
        cases phase <;> simp_all [Phase.IsWriting, Phase.UnderWay]
      have hi : i ≠ id := by
        rintro rfl
        obtain rfl := Option.some.inj (htask.symm.trans hwriter)
        exact hwriting
      exact absurd hfile (hnobody i writer hi hwriter hunder)
  · rintro t i other heq hi hother
    obtain rfl := Option.some.inj heq
    refine ⟨fun hclash => hclash.1, fun hclash => ?_⟩
    exact hnobody i other hi hother hclash.1 hclash.2.2

theorem Inv.missedCache {id : ℕ} {node : DepNode} (h : Inv env s)
    (htask : s.tasks id = some ⟨node, .started⟩) (hmissing : s.cache (cacheFile env node) = none)
    (hundisturbed : Undisturbed env s (.checkCache id)) :
    Inv env (s.setTask id (some ⟨node, .missing⟩)) := by
  obtain ⟨hnobody, -⟩ := hundisturbed _ htask
  refine h.of_reader htask not_false rfl rfl (List.Subset.refl _) h.entries ?_ ?_
  · rintro t heq
    obtain rfl := Option.some.inj heq
    exact hmissing
  · rintro t i other heq hi hother
    obtain rfl := Option.some.inj heq
    constructor
    · rintro ⟨-, hunder | hcached, hfile⟩
      · exact hnobody i other hi hother hunder hfile.symm
      · -- what is cached is there
        have hok := h.tasks i other hother
        unfold TaskOk at hok
        rw [hcached] at hok
        obtain ⟨v, -, -, hcontent⟩ := hok
        rw [← hfile] at hcontent
        cases hmissing.symm.trans hcontent
    · exact fun hclash => hnobody i other hi hother hclash.1 hclash.2.2

theorem Inv.fetchGit {id : ℕ} {node : DepNode} {archive : List UInt8} (h : Inv env s)
    (htask : s.tasks id = some ⟨node, .missing⟩) :
    Inv env ((s.setTask id (some ⟨node, .fetched archive⟩)).serve
      ⟨cacheFile env node, node.resolved, archive⟩) := by
  refine h.of_reader htask not_false rfl rfl (List.subset_cons_self _ _) ?_ ?_ ?_
  · exact fun entry hentry => (h.entries entry hentry).mono (List.subset_cons_self _ _)
  · rintro t heq
    obtain rfl := Option.some.inj heq
    exact ⟨h.tasks id _ htask, List.mem_cons_self⟩
  · rintro t i other heq hi hother
    obtain rfl := Option.some.inj heq
    exact h.not_clash htask trivial hi hother

/-- A write to the cached file of a task under way disturbs no other. -/
theorem Inv.setCache {id : ℕ} {task : Task} {phase : Phase} {content : List UInt8} (h : Inv env s)
    (htask : s.tasks id = some task) (hunder : task.phase.UnderWay)
    (hok : TaskOk env ((s.setTask id (some ⟨task.node, phase⟩)).setCache
      (cacheFile env task.node) content) ⟨task.node, phase⟩)
    (hfile : FileOk env ((s.setTask id (some ⟨task.node, phase⟩)).setCache
      (cacheFile env task.node) content) (cacheFile env task.node) content) :
    Inv env ((s.setTask id (some ⟨task.node, phase⟩)).setCache (cacheFile env task.node)
      content) := by
  refine h.of_task rfl (List.Subset.refl _) h.entries ?_ ?_ ?_ ?_
  · intro i other hi hother hused
    refine Function.update_of_ne (fun heq => ?_) _ _
    exact h.alone id i task other hi.symm htask hother ⟨hunder, hused, heq.symm⟩
  · rintro t heq
    obtain rfl := Option.some.inj heq
    exact hok
  · rintro t i other heq hi hother
    obtain rfl := Option.some.inj heq
    exact h.not_clash htask hunder hi hother
  · intro file content' hcontent
    by_cases hsame : file = cacheFile env task.node
    · subst hsame
      rw [Downloads.setCache_cache_self] at hcontent
      obtain rfl := Option.some.inj hcontent
      exact hfile
    · have hold : s.cache file = some content' :=
        (Downloads.setCache_cache_of_ne _ hsame content).symm.trans hcontent
      refine (h.files file content' hold).mono rfl (List.Subset.refl _) fun other hother _ => ?_
      obtain rfl := Option.some.inj (htask.symm.trans hother)
      exact fun heq => hsame heq.symm

theorem Inv.createCache {id : ℕ} {node : DepNode} {archive : List UInt8} (h : Inv env s)
    (htask : s.tasks id = some ⟨node, .fetched archive⟩) :
    Inv env ((s.setTask id (some ⟨node, .writing archive 0⟩)).setCache (cacheFile env node)
      []) := by
  obtain ⟨-, hserved⟩ := h.tasks id _ htask
  refine h.setCache htask trivial ⟨Function.update_self _ _ _, hserved, Nat.zero_le _⟩ ?_
  exact Or.inr ⟨id, _, Function.update_self _ _ _, trivial, rfl⟩

theorem Inv.writeCache {id count : ℕ} {node : DepNode} {archive : List UInt8} {written : ℕ}
    (h : Inv env s) (htask : s.tasks id = some ⟨node, .writing archive written⟩) :
    Inv env ((s.setTask id (some ⟨node, nextPhase archive (written + count)⟩)).setCache
      (cacheFile env node)
      (writeChunk ((s.cache (cacheFile env node)).getD []) archive written count)) := by
  obtain ⟨hcache, hserved, hwritten⟩ := h.tasks id _ htask
  have hcontent : writeChunk ((s.cache (cacheFile env node)).getD []) archive written count =
      archive.take (written + count) := by
    rw [hcache]
    exact writeChunk_take hwritten
  rw [hcontent]
  unfold nextPhase
  split_ifs with hdone
  · have hwhole : archive.take (written + count) = archive := List.take_of_length_le hdone
    refine h.setCache htask trivial ⟨_, hserved, rfl, ?_⟩ (Or.inl ⟨_, hserved, rfl, hwhole.symm⟩)
    exact (Function.update_self _ _ _).trans (congrArg some hwhole)
  · refine h.setCache htask trivial
      ⟨Function.update_self _ _ _, hserved, Nat.le_of_lt (Nat.not_le.mp hdone)⟩ ?_
    exact Or.inr ⟨id, _, Function.update_self _ _ _, trivial, rfl⟩

theorem Inv.copyCache {id : ℕ} {node : DepNode} {tarball : List UInt8} (h : Inv env s)
    (htask : s.tasks id = some ⟨node, .cached⟩)
    (hcache : s.cache (cacheFile env node) = some tarball)
    (hundisturbed : Undisturbed env s (.copyCache id)) :
    Inv env (s.setTask id (some ⟨node, .downloaded tarball⟩)) := by
  refine h.download htask not_false ⟨fun sri hsri => hundisturbed _ _ sri htask hcache hsri,
    fun _ => ?_⟩
  obtain ⟨v, hv, hresolved, hcontent⟩ := h.tasks id _ htask
  exact ⟨v, hv, hresolved, Option.some.inj (hcontent.symm.trans hcache)⟩

theorem Inv.store {id : ℕ} {node : DepNode} {tarball : List UInt8} {tree : FileSystem}
    (h : Inv env s) (htask : s.tasks id = some ⟨node, .downloaded tarball⟩)
    (hextract : extractTree env tarball = .ok tree) :
    Inv env { s.setTask id none with entries := ⟨node, tarball, tree⟩ :: s.entries } := by
  refine h.of_reader htask not_false rfl rfl (List.Subset.refl _) ?_ (fun _ heq => by cases heq)
    fun _ _ _ heq => by cases heq
  intro entry hentry
  rcases List.mem_cons.mp hentry with rfl | hold
  · exact ⟨h.tasks id _ htask, hextract⟩
  · exact h.entries entry hold

theorem inv_step {action : Action} (h : Inv env s) (hundisturbed : Undisturbed env s action)
    (hstep : Step env s action s') : Inv env s' := by
  cases hstep with
  | spawn node hfree => exact h.spawn hfree
  | fetchRegistry htask hroute hfetch =>
    refine h.download htask not_false ⟨fun sri hsri => ?_, fun hgit => ?_⟩
    · rw [hsri] at hfetch
      exact fetchTarballToFile_matches hfetch
    · cases hroute.symm.trans hgit
  | packLocal htask hroute hsize =>
    refine h.download htask not_false ⟨fun sri hsri => ?_, fun hgit => ?_⟩
    · exact hundisturbed _ sri htask hsri
    · cases hroute.symm.trans hgit
  | foundCache htask hroute hfound => exact h.foundCache htask hfound hundisturbed
  | missedCache htask hroute hmissing => exact h.missedCache htask hmissing hundisturbed
  | fetchGit archive htask hsize => exact h.fetchGit htask
  | createCache htask => exact h.createCache htask
  | writeCache count htask => exact h.writeCache htask
  | copyCache htask hcache hsize => exact h.copyCache htask hcache hundisturbed
  | store htask hextract => exact h.store htask hextract
  | keep htask hextract => exact h.finish htask not_false
  | abort htask => exact h.finish htask (hundisturbed _ htask)

theorem inv_run {actions : List Action} (h : Inv env s)
    (hrun : UndisturbedRun env s actions s') : Inv env s' := by
  induction hrun with
  | nil => exact h
  | cons hstep hundisturbed _ ih => exact ih (inv_step h hundisturbed hstep)

/-- Before any task, with a cache of whole archives and nothing created yet. -/
structure Idle (s : Downloads) : Prop where
  tasks : ∀ id, s.tasks id = none
  files (file : String) (content : List UInt8) : s.cache file = some content →
    ∃ v ∈ s.served, v.file = file ∧ v.archive = content
  entries : s.entries = []

theorem Idle.inv (h : Idle s) : Inv env s where
  tasks id task htask := by
    rw [h.tasks id] at htask
    cases htask
  alone i j task other _ htask := by
    rw [h.tasks i] at htask
    cases htask
  files file content hcontent := Or.inl (h.files file content hcontent)
  entries entry hentry := by
    rw [h.entries] at hentry
    cases hentry

/-- In every run that nothing disturbs, each store entry that was created comes from bytes that
match the declared integrity, and that of a git node from a whole archive. -/
theorem downloads_sound {actions : List Action} (hidle : Idle s)
    (hrun : UndisturbedRun env s actions s') :
    ∀ entry ∈ s'.entries, SoundEntry env s'.served entry :=
  (inv_run hidle.inv hrun).entries

end Soundness

/-! ## A git dependency -/

/-- The stream has its checksum at its end, so its last byte is not missed. -/
def addonDecode : DecodeTarball := fun data =>
  if data = addonTarball ∨ data = addonTarball.dropLast then .ok (addonEntries.map .ok)
  else .error "failed to read entire block"

def addonDownloads : DownloadEnvironment where
  hashes := ⟨fun _ => [], Sha2.sha256, fun _ => []⟩
  sha := .fips180
  limits := {}
  decode := addonDecode
  temp := (FileSystem.mk Table.empty).set [] (.directory 0o755)
  dest := [asBytes "out"]

def gitNode (integrity : String) : DepNode where
  name := "demo"
  aliasName := none
  version := "1.0.0"
  resolved := "github:acme/demo"
  integrity := some integrity
  dependencies := .empty
  hasInstallScript := false
  dev := false
  optional := false
  peerDependencies := .empty
  optionalPeers := .empty
  resolvedPeers := .empty

def addonIntegrity : String := "sha256-74lEDlNiBT655u1nVPse11PBiGodzWroVKpRsvgy6Ew="

/-- The digest of no bytes at all. -/
def emptyIntegrity : String := "sha256-47DEQpj8HBSa+/TImW+5JCeuQeRkm5NMpJWZG3hSuFU="

theorem addon_matches : Matches addonDownloads.hashes addonTarball addonIntegrity := by
  have hverified : (verifyIntegrity addonDownloads.hashes addonTarball addonIntegrity).isOk =
      true := by decide +kernel
  cases h : verifyIntegrity addonDownloads.hashes addonTarball addonIntegrity with
  | ok => exact verifyIntegrity_ok.mp h
  | error message =>
    rw [h] at hverified
    cases hverified

theorem addon_not_matches : ¬Matches addonDownloads.hashes addonTarball emptyIntegrity := by
  intro hmatches
  have hverified : (verifyIntegrity addonDownloads.hashes addonTarball emptyIntegrity).isOk =
      false := by decide +kernel
  rw [verifyIntegrity_ok.mpr hmatches] at hverified
  cases hverified

theorem extractTree_addon {tarball : List UInt8}
    (h : tarball = addonTarball ∨ tarball = addonTarball.dropLast) :
    ∃ tree, extractTree addonDownloads tarball = .ok tree := by
  have hextracts : (extractTree addonDownloads tarball).isOk = true := by
    rcases h with rfl | rfl <;> decide +kernel
  cases htree : extractTree addonDownloads tarball with
  | ok tree => exact ⟨tree, rfl⟩
  | error message =>
    rw [htree] at hextracts
    cases hextracts

def idleDownloads : Downloads := ⟨fun _ => none, fun _ => none, [], []⟩

theorem idleDownloads_idle : Idle idleDownloads where
  tasks _ := rfl
  files _ _ h := by cases h
  entries := rfl

theorem gitNode_route (integrity : String) : routeOf (gitNode integrity).resolved = .git := by
  have hroute : routeOf "github:acme/demo" = .git := by decide
  exact hroute

theorem checkArchiveSize_addon {tarball : List UInt8} (h : tarball.length ≤ 160) :
    checkArchiveSize addonDownloads.limits tarball.length = .ok () := by
  have hlimit : addonDownloads.limits.maxArchiveBytes = 512 * 1024 * 1024 := rfl
  exact if_neg (by omega)

theorem length_addonTarball : addonTarball.length = 160 := by decide +kernel

theorem nextPhase_addon : nextPhase addonTarball (0 + 160) = .cached :=
  if_pos (by rw [length_addonTarball])

theorem writeChunk_addon (count : ℕ) :
    writeChunk [] addonTarball 0 count = addonTarball.take count := by
  have hchunk : writeChunk (addonTarball.take 0) addonTarball 0 count =
      addonTarball.take (0 + count) := writeChunk_take (Nat.zero_le addonTarball.length)
  rwa [List.take_zero, Nat.zero_add] at hchunk

theorem downloads_sound_git : ∃ s' : Downloads,
    (∃ entry ∈ s'.entries, entry.tarball = addonTarball) ∧
    ∀ entry ∈ s'.entries, SoundEntry addonDownloads s'.served entry := by
  obtain ⟨tree, htree⟩ := extractTree_addon (Or.inl rfl)
  have hsize := checkArchiveSize_addon (Nat.le_of_eq length_addonTarball)
  obtain ⟨s', hrun, hentry⟩ : ∃ s', UndisturbedRun addonDownloads idleDownloads
      [.spawn 0 (gitNode addonIntegrity), .checkCache 0, .fetchGit 0 addonTarball, .createCache 0,
        .writeCache 0 160, .copyCache 0, .store 0 false] s' ∧
      ⟨gitNode addonIntegrity, addonTarball, tree⟩ ∈ s'.entries := by
    refine UndisturbedRun.exists_cons (.spawn _ rfl) trivial ?_
    refine UndisturbedRun.exists_cons (.missedCache (Downloads.setTask_tasks_self _ _ _)
      (gitNode_route _) rfl) ?_ ?_
    · intro task _
      refine ⟨fun other task' hne hother => ?_, fun v hv => by cases hv⟩
      rw [Downloads.setTask_tasks_of_ne _ hne] at hother
      cases hother
    refine UndisturbedRun.exists_cons (.fetchGit _ (Downloads.setTask_tasks_self _ _ _) hsize)
      trivial ?_
    refine UndisturbedRun.exists_cons (.createCache
      ((Downloads.serve_tasks _ _ 0).trans (Downloads.setTask_tasks_self _ _ _))) trivial ?_
    refine UndisturbedRun.exists_cons (.writeCache 160
      ((Downloads.setCache_tasks _ _ _ 0).trans (Downloads.setTask_tasks_self _ _ _))) trivial ?_
    rw [nextPhase_addon, Downloads.setCache_cache_self, Option.getD_some, writeChunk_addon,
      List.take_of_length_le (Nat.le_of_eq length_addonTarball)]
    refine UndisturbedRun.exists_cons (.copyCache
      ((Downloads.setCache_tasks _ _ _ 0).trans (Downloads.setTask_tasks_self _ _ _))
      (Downloads.setCache_cache_self _ _ _) hsize) ?_ ?_
    · intro task tarball sri htask hcache hsri
      rw [Downloads.setCache_tasks, Downloads.setTask_tasks_self] at htask
      obtain rfl := Option.some.inj htask
      rw [Downloads.setCache_cache_self] at hcache
      obtain rfl := Option.some.inj hcache
      obtain rfl := Option.some.inj hsri
      exact addon_matches
    refine UndisturbedRun.exists_cons (.store (Downloads.setTask_tasks_self _ _ _) htree) trivial ?_
    exact ⟨_, .nil _, List.mem_cons_self⟩
  exact ⟨s', ⟨_, hentry, rfl⟩, downloads_sound idleDownloads_idle hrun⟩

/-- The cached file after a write of which `count` bytes were made, and its use by a new task. -/
theorem interrupted_run {count : ℕ} {tree : FileSystem} (hcount : count ≤ 160)
    (htree : extractTree addonDownloads (addonTarball.take count) = .ok tree) :
    ∃ s', Run addonDownloads idleDownloads [.spawn 0 (gitNode emptyIntegrity), .checkCache 0,
        .fetchGit 0 addonTarball, .createCache 0, .writeCache 0 count, .abort 0,
        .spawn 0 (gitNode emptyIntegrity), .checkCache 0, .copyCache 0, .store 0 false] s' ∧
      s'.entries = [⟨gitNode emptyIntegrity, addonTarball.take count, tree⟩] ∧
      ∀ v ∈ s'.served, v.archive = addonTarball := by
  have hsize := checkArchiveSize_addon (Nat.le_of_eq length_addonTarball)
  have hsizeWritten : checkArchiveSize addonDownloads.limits (addonTarball.take count).length =
      .ok () := checkArchiveSize_addon ((List.length_take_le _ _).trans hcount)
  refine Run.exists_cons (.spawn _ rfl) ?_
  refine Run.exists_cons (.missedCache (Downloads.setTask_tasks_self _ _ _) (gitNode_route _)
    rfl) ?_
  refine Run.exists_cons (.fetchGit _ (Downloads.setTask_tasks_self _ _ _) hsize) ?_
  refine Run.exists_cons (.createCache
    ((Downloads.serve_tasks _ _ 0).trans (Downloads.setTask_tasks_self _ _ _))) ?_
  refine Run.exists_cons (.writeCache count
    ((Downloads.setCache_tasks _ _ _ 0).trans (Downloads.setTask_tasks_self _ _ _))) ?_
  rw [Downloads.setCache_cache_self, Option.getD_some, writeChunk_addon]
  refine Run.exists_cons (.abort
    ((Downloads.setCache_tasks _ _ _ 0).trans (Downloads.setTask_tasks_self _ _ _))) ?_
  refine Run.exists_cons (.spawn _ (Downloads.setTask_tasks_self _ _ _)) ?_
  have hcache : ∀ (s : Downloads) (file : String) (a b : Option Task),
      (((s.setCache file (addonTarball.take count)).setTask 0 a).setTask 0 b).cache file =
        some (addonTarball.take count) := by
    intro s file a b
    rw [Downloads.setTask_cache, Downloads.setTask_cache, Downloads.setCache_cache_self]
  refine Run.exists_cons (.foundCache (Downloads.setTask_tasks_self _ _ _) (gitNode_route _)
    (hcache _ _ _ _)) ?_
  refine Run.exists_cons (.copyCache (Downloads.setTask_tasks_self _ _ _)
    ((Downloads.setTask_cache _ _ _ _).trans (hcache _ _ _ _)) hsizeWritten) ?_
  refine Run.exists_cons (.store (Downloads.setTask_tasks_self _ _ _) htree) ?_
  refine ⟨_, .nil _, rfl, fun v hv => ?_⟩
  obtain rfl := List.mem_singleton.mp hv
  rfl

/-- An archive that does not match is stored, and so is one of which a byte is missing after a
write that was cut short. -/
theorem downloads_store_unverified :
    (∃ actions s', Run addonDownloads idleDownloads actions s' ∧ ∃ entry ∈ s'.entries,
      ∃ sri, entry.node.integrity = some sri ∧
        ¬Matches addonDownloads.hashes entry.tarball sri) ∧
    ∃ actions s', Run addonDownloads idleDownloads actions s' ∧ ∃ entry ∈ s'.entries,
      routeOf entry.node.resolved = .git ∧ ∀ v ∈ s'.served, v.archive ≠ entry.tarball := by
  constructor
  · have hwhole : addonTarball.take 160 = addonTarball :=
      List.take_of_length_le (Nat.le_of_eq length_addonTarball)
    obtain ⟨tree, htree⟩ := extractTree_addon (Or.inl hwhole)
    obtain ⟨s', hrun, hentries, -⟩ := interrupted_run le_rfl htree
    refine ⟨_, s', hrun, _, by rw [hentries]; exact List.mem_singleton_self _, _, rfl, ?_⟩
    rw [hwhole]
    exact addon_not_matches
  · have hshort : addonTarball.take 159 = addonTarball.dropLast := by
      rw [List.dropLast_eq_take, length_addonTarball]
    obtain ⟨tree, htree⟩ := extractTree_addon (Or.inr hshort)
    obtain ⟨s', hrun, hentries, hserved⟩ := interrupted_run (by decide) htree
    refine ⟨_, s', hrun, _, by rw [hentries]; exact List.mem_singleton_self _, gitNode_route _, ?_⟩
    intro v hv hsame
    rw [hserved v hv] at hsame
    have hlength := congrArg List.length hsame
    rw [length_addonTarball, List.length_take, length_addonTarball] at hlength
    cases hlength

end Oath.Cli
