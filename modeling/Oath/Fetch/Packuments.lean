import Oath.Fetch.Npmrc
import Oath.Fetch.Tarball

/-! The client's packuments: a cache directory with a body and an etag for each package, and
the map of etags of the running process before it. -/

namespace Oath.Fetch
open Registry

/-- A header value: there is no white space around it. -/
structure ETag where
  text : String
  trimmed : trimChars text.toList = text.toList

theorem ETag.ext {a b : ETag} (h : a.text = b.text) : a = b := by
  cases a
  cases b
  cases h
  rfl

structure Response where
  status : ℕ
  statusText : String
  etag : Option ETag
  body : List UInt8

def Response.isSuccess (resp : Response) : Bool := 200 ≤ resp.status ∧ resp.status < 300

structure CacheFile where
  bytes : List UInt8
  modified : ℕ

/-- A body that a registry has returned for a package, with what came with it. -/
structure Answer where
  registry : String
  name : String
  body : List UInt8
  etag : Option ETag
  time : ℕ

/-- The cache directory, the running client and the clock. The answers so far are no part of
the program: they are what its results are compared with. -/
structure ClientState where
  files : OrderedMap String CacheFile := .empty
  config : RegistryConfig
  etagCache : OrderedMap String ETag := .empty
  now : ℕ := 0
  answers : List Answer := []

def cacheTtlSecs : ℕ := 300

def safeName (name : String) : String :=
  String.ofList (name.toList.flatMap fun c => if c = '/' then ['_', '_'] else [c])

def cachePath (name : String) : String := safeName name ++ ".json"

def etagPath (name : String) : String := safeName name ++ ".etag"

/-- `read_to_string` and `trim`. -/
def readTrimmed (bytes : List UInt8) : Option (List Char) :=
  if Utf8.isValid bytes then some (trimChars (Utf8.lossy bytes)) else none

section Fetch
variable {P : Type} (parse : List UInt8 → Except String P) (s : ClientState) (name : String)

/-- A file dated in the future counts as new. -/
def freshCached : Option P :=
  (s.files.find? (cachePath name)).bind fun file =>
    if s.now - file.modified < cacheTtlSecs then (parse file.bytes).toOption else none

/-- The etag that goes with the request: that of the process, or else that of the directory. -/
def ifNoneMatch : Option (List Char) :=
  match s.etagCache.find? name with
  | some etag => some etag.text.toList
  | none => (s.files.find? (etagPath name)).bind fun file => readTrimmed file.bytes

def loadCachedPackument : Except String P :=
  match s.files.find? (cachePath name) with
  | none => .error "cache miss after 304"
  | some file => (parse file.bytes).mapError fun _ => "corrupt cache entry"

/-- What a fetch returns, remembers and writes, in this order. -/
structure Fetched (P : Type) where
  result : Except String P
  etagCache : OrderedMap String ETag
  writes : List (String × List UInt8) := []
  answer : Option Answer := none

def fetchPackument (outcome : Except String Response) : Fetched P :=
  match freshCached parse s name with
  | some packument => { result := .ok packument, etagCache := s.etagCache }
  | none =>
    match outcome with
    | .error _ => { result := .error "registry request failed", etagCache := s.etagCache }
    | .ok resp =>
      if resp.status = 304 then
        { result := loadCachedPackument parse s name, etagCache := s.etagCache }
      else if resp.status = 404 then
        { result := .error ("package not found: " ++ name), etagCache := s.etagCache }
      else if !resp.isSuccess then
        { result := .error ("registry returned " ++ resp.statusText ++ ": " ++
            displayPath resp.body)
          etagCache := s.etagCache }
      else
        { result := (parse resp.body).mapError fun _ => "failed to parse packument"
          etagCache := match resp.etag with
            | some etag => s.etagCache.insert name etag
            | none => s.etagCache
          writes := (resp.etag.map fun etag => (etagPath name, asBytes etag.text)).toList ++
            [(cachePath name, resp.body)]
          answer := some ⟨s.config.registryFor name, name, resp.body, resp.etag, s.now⟩ }

end Fetch

/-! ## Runs -/

inductive Event
  | fetch (name : String) (outcome : Except String Response)
  /-- A fetch during which the process dies after so many writes. -/
  | crash (name : String) (outcome : Except String Response) (writes : ℕ)
  /-- A new process, which reads its configuration again. -/
  | restart (config : RegistryConfig)
  | wait (seconds : ℕ)

def store (files : OrderedMap String CacheFile) (now : ℕ) (writes : List (String × List UInt8)) :
    OrderedMap String CacheFile :=
  writes.foldl (fun files write => files.insert write.1 ⟨write.2, now⟩) files

def ClientState.step {P : Type} (parse : List UInt8 → Except String P) (s : ClientState) :
    Event → ClientState
  | .fetch name outcome =>
    let fetched := fetchPackument parse s name outcome
    { s with
      files := store s.files s.now fetched.writes
      etagCache := fetched.etagCache
      answers := fetched.answer.toList ++ s.answers }
  | .crash name outcome writes =>
    let fetched := fetchPackument parse s name outcome
    { s with
      files := store s.files s.now (fetched.writes.take writes)
      etagCache := .empty
      answers := fetched.answer.toList ++ s.answers }
  | .restart config => { s with config, etagCache := .empty }
  | .wait seconds => { s with now := s.now + seconds }

end Oath.Fetch
