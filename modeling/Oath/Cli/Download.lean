import Mathlib.Logic.Function.Basic
import Oath.Fetch.Integrity
import Oath.Resolve.Placement
import Oath.Store.EntryLayout

/-! The downloads of missing packages: tasks that run side by side, in any number of processes,
over the cache of git archives that outlives them. -/

namespace Oath.Cli
open Fetch Registry Resolve Store Unix

/-! ## Where a package comes from -/

inductive Route
  | file
  | git
  | registry
deriving DecidableEq, Repr

def isGitSpec (spec : String) : Bool :=
  ["github:", "gitlab:", "bitbucket:", "git+https://", "git+ssh://", "ssh://", "git://"].any
    (beginsWith spec)

def routeOf (resolved : String) : Route :=
  if beginsWith resolved "file:" then .file
  else if isGitSpec resolved then .git
  else .registry

def safeCacheComponent (input : String) : String := safePathComponent input

@[irreducible] def gitCacheFileName (sha : Sha256) (name version resolvedUrl : String) : String :=
  safeCacheComponent (replaceSlashes name) ++ "-" ++ safeCacheComponent version ++ "-" ++
    hexSha256 sha (asBytes resolvedUrl) ++ ".tgz"

/-! ## States and steps -/

structure DownloadEnvironment where
  hashes : Hashes
  sha : Sha256
  limits : TarballLimits
  decode : DecodeTarball
  /-- The files before an extraction, and the new directory for it. -/
  temp : FileSystem
  dest : Location

/-- How far the task of a node has come. -/
inductive Phase
  | started
  /-- There was no archive in the cache. -/
  | missing
  | fetched (archive : List UInt8)
  | writing (archive : List UInt8) (written : ℕ)
  /-- There is an archive in the cache. -/
  | cached
  | downloaded (tarball : List UInt8)

structure Task where
  node : DepNode
  phase : Phase

/-- An archive that a git host has sent for a specification, with its file in the cache. -/
structure ServedArchive where
  file : String
  resolved : String
  archive : List UInt8

/-- An entry with the bytes from which it was extracted. -/
structure StoreEntry where
  node : DepNode
  tarball : List UInt8
  tree : FileSystem

structure Downloads where
  cache : String → Option (List UInt8)
  tasks : ℕ → Option Task
  served : List ServedArchive
  /-- The store entries that were created. -/
  entries : List StoreEntry

def Downloads.setTask (s : Downloads) (id : ℕ) (task : Option Task) : Downloads :=
  { s with tasks := Function.update s.tasks id task }

@[simp] theorem Downloads.setTask_tasks_self (s : Downloads) (id : ℕ) (task : Option Task) :
    (s.setTask id task).tasks id = task := by
  unfold Downloads.setTask
  exact Function.update_self _ _ _

@[simp] theorem Downloads.setTask_tasks_of_ne (s : Downloads) {id other : ℕ} (h : other ≠ id)
    (task : Option Task) : (s.setTask id task).tasks other = s.tasks other := by
  unfold Downloads.setTask
  exact Function.update_of_ne h _ _

@[simp] theorem Downloads.setTask_cache (s : Downloads) (id : ℕ) (task : Option Task)
    (file : String) : (s.setTask id task).cache file = s.cache file := rfl

def Downloads.setCache (s : Downloads) (file : String) (content : List UInt8) : Downloads :=
  { s with cache := Function.update s.cache file (some content) }

@[simp] theorem Downloads.setCache_tasks (s : Downloads) (file : String) (content : List UInt8)
    (id : ℕ) : (s.setCache file content).tasks id = s.tasks id := rfl

@[simp] theorem Downloads.setCache_cache_self (s : Downloads) (file : String)
    (content : List UInt8) : (s.setCache file content).cache file = some content :=
  Function.update_self _ _ _

@[simp] theorem Downloads.setCache_cache_of_ne (s : Downloads) {file other : String}
    (h : other ≠ file) (content : List UInt8) :
    (s.setCache file content).cache other = s.cache other := Function.update_of_ne h _ _

def Downloads.serve (s : Downloads) (archive : ServedArchive) : Downloads :=
  { s with served := archive :: s.served }

@[simp] theorem Downloads.serve_tasks (s : Downloads) (archive : ServedArchive) (id : ℕ) :
    (s.serve archive).tasks id = s.tasks id := rfl

def cacheFile (env : DownloadEnvironment) (node : DepNode) : String :=
  gitCacheFileName env.sha node.name node.version node.resolved

/-- A write at an offset; a gap before it fills up with zeros. -/
def writeAt (content : List UInt8) (offset : ℕ) (data : List UInt8) : List UInt8 :=
  content.take offset ++ List.replicate (offset - content.length) 0 ++ data ++
    content.drop (offset + data.length)

/-- `fs::write` hands its data over in pieces of any size. -/
def writeChunk (content archive : List UInt8) (written count : ℕ) : List UInt8 :=
  writeAt content written ((archive.drop written).take count)

def nextPhase (archive : List UInt8) (written : ℕ) : Phase :=
  if archive.length ≤ written then .cached else .writing archive written

def extractTree (env : DownloadEnvironment) (tarball : List UInt8) : Except String FileSystem :=
  match extractTarball env.decode tarball env.dest env.limits env.temp with
  | .ok () tree => .ok tree
  | .error message _ => .error message

inductive Action
  | spawn (id : ℕ) (node : DepNode)
  | fetchRegistry (id : ℕ) (attempts : List Attempt)
  | packLocal (id : ℕ) (tarball : List UInt8)
  | checkCache (id : ℕ)
  | fetchGit (id : ℕ) (archive : List UInt8)
  | createCache (id : ℕ)
  | writeCache (id : ℕ) (count : ℕ)
  | copyCache (id : ℕ)
  /-- Nothing is created when there is a verified entry already. -/
  | store (id : ℕ) (verified : Bool)
  /-- The task ends, be it by an error, with its process or in a crash of the machine. -/
  | abort (id : ℕ)

inductive Step (env : DownloadEnvironment) : Downloads → Action → Downloads → Prop
  | spawn {s id} (node : DepNode) (hfree : s.tasks id = none) :
      Step env s (.spawn id node) (s.setTask id (some ⟨node, .started⟩))
  | fetchRegistry {s id node attempts tarball} (htask : s.tasks id = some ⟨node, .started⟩)
      (hroute : routeOf node.resolved = .registry)
      (hfetch : fetchTarballToFile env.hashes env.limits node.integrity attempts = .ok tarball) :
      Step env s (.fetchRegistry id attempts) (s.setTask id (some ⟨node, .downloaded tarball⟩))
  | packLocal {s id node tarball} (htask : s.tasks id = some ⟨node, .started⟩)
      (hroute : routeOf node.resolved = .file)
      (hsize : checkArchiveSize env.limits tarball.length = .ok ()) :
      Step env s (.packLocal id tarball) (s.setTask id (some ⟨node, .downloaded tarball⟩))
  | foundCache {s id node content} (htask : s.tasks id = some ⟨node, .started⟩)
      (hroute : routeOf node.resolved = .git)
      (hfound : s.cache (cacheFile env node) = some content) :
      Step env s (.checkCache id) (s.setTask id (some ⟨node, .cached⟩))
  | missedCache {s id node} (htask : s.tasks id = some ⟨node, .started⟩)
      (hroute : routeOf node.resolved = .git) (hmissing : s.cache (cacheFile env node) = none) :
      Step env s (.checkCache id) (s.setTask id (some ⟨node, .missing⟩))
  | fetchGit {s id node} (archive : List UInt8) (htask : s.tasks id = some ⟨node, .missing⟩)
      (hsize : checkArchiveSize env.limits archive.length = .ok ()) :
      Step env s (.fetchGit id archive)
        ((s.setTask id (some ⟨node, .fetched archive⟩)).serve
          ⟨cacheFile env node, node.resolved, archive⟩)
  | createCache {s id node archive} (htask : s.tasks id = some ⟨node, .fetched archive⟩) :
      Step env s (.createCache id)
        ((s.setTask id (some ⟨node, .writing archive 0⟩)).setCache (cacheFile env node) [])
  | writeCache {s id node archive written} (count : ℕ)
      (htask : s.tasks id = some ⟨node, .writing archive written⟩) :
      Step env s (.writeCache id count)
        ((s.setTask id (some ⟨node, nextPhase archive (written + count)⟩)).setCache
          (cacheFile env node)
          (writeChunk ((s.cache (cacheFile env node)).getD []) archive written count))
  | copyCache {s id node tarball} (htask : s.tasks id = some ⟨node, .cached⟩)
      (hcache : s.cache (cacheFile env node) = some tarball)
      (hsize : checkArchiveSize env.limits tarball.length = .ok ()) :
      Step env s (.copyCache id) (s.setTask id (some ⟨node, .downloaded tarball⟩))
  | store {s id node tarball tree} (htask : s.tasks id = some ⟨node, .downloaded tarball⟩)
      (hextract : extractTree env tarball = .ok tree) :
      Step env s (.store id false)
        { s.setTask id none with entries := ⟨node, tarball, tree⟩ :: s.entries }
  | keep {s id node tarball tree} (htask : s.tasks id = some ⟨node, .downloaded tarball⟩)
      (hextract : extractTree env tarball = .ok tree) :
      Step env s (.store id true) (s.setTask id none)
  | abort {s id task} (htask : s.tasks id = some task) :
      Step env s (.abort id) (s.setTask id none)

/-- A run: its steps one after another. -/
inductive Run (env : DownloadEnvironment) : Downloads → List Action → Downloads → Prop
  | nil (s : Downloads) : Run env s [] s
  | cons {s s' s'' action rest} (hstep : Step env s action s') (hrest : Run env s' rest s'') :
      Run env s (action :: rest) s''

/-- A run to a state of some kind, put together from its first step. -/
theorem Run.exists_cons {env : DownloadEnvironment} {s s' : Downloads} {action : Action}
    {rest : List Action} {P : Downloads → Prop} (hstep : Step env s action s')
    (hrest : ∃ s'', Run env s' rest s'' ∧ P s'') :
    ∃ s'', Run env s (action :: rest) s'' ∧ P s'' := by
  obtain ⟨s'', hrun, h⟩ := hrest
  exact ⟨s'', .cons hstep hrun, h⟩

end Oath.Cli
