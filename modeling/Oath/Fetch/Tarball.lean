import Oath.Library.Outcome
import Oath.Library.Utf8
import Oath.Registry.Archive

/-! The client's extraction of a package tarball: the path of every entry is rebuilt from
its components, the leading one is dropped and the files are written below `dest`. The calls it makes
are shown whatever the system answers: where files and directories are made, how many entries are taken
up and how many bytes are handed over for writing, also when an error ends it. -/

namespace Oath.Fetch
open Unix Registry

structure TarballLimits where
  maxArchiveBytes : ℕ := 512 * 1024 * 1024
  maxUnpackedBytes : ℕ := 2 * 1024 * 1024 * 1024
  maxEntries : ℕ := 200_000
  maxPathBytes : ℕ := 4096
  maxPathComponents : ℕ := 64

def displayPath (path : List UInt8) : String := String.ofList (Utf8.lossy path)

def displayLocation (loc : Location) : String :=
  displayPath (loc.flatMap fun name => slash :: name)

/-- The components of a path that may be used: no `..` and no root. -/
def safeParts : List Component → Option (List Name)
  | [] => some []
  | .normal part :: rest => (safeParts rest).map (part :: ·)
  | .curDir :: rest => safeParts rest
  | .parentDir :: _ => none
  | .rootDir :: _ => none

/-- The path below the leading directory; `none` for that directory itself. -/
def sanitizeTarPath (path : List UInt8) (limits : TarballLimits) :
    Except String (Option (List Name)) :=
  let pathStr := displayPath path
  if !Utf8.isValid path then .error ("tar path is not valid UTF-8: " ++ pathStr)
  else if limits.maxPathBytes < path.length then
    .error ("tar path length " ++ toString path.length ++ " exceeds limit " ++
      toString limits.maxPathBytes ++ ": " ++ pathStr)
  else match safeParts (components path) with
    | none => .error ("unsafe tar path: " ++ pathStr)
    | some parts =>
      let relative := parts.drop 1
      if relative.isEmpty then .ok none
      else if limits.maxPathComponents < relative.length then
        .error ("tar path component count " ++ toString relative.length ++ " exceeds limit " ++
          toString limits.maxPathComponents ++ ": " ++ pathStr)
      else .ok (some relative)

def gitignore : Name := asBytes ".gitignore"
def npmignore : Name := asBytes ".npmignore"

/-- npm's name for a packaged `.gitignore`. -/
def normalizeIgnore (relative : List Name) : List Name :=
  if relative.getLast? = some gitignore then relative.dropLast ++ [npmignore] else relative

def fail {α : Type} (message : String) : EStateM String FileSystem α := throw message

/-- `std::fs::create_dir_all` below a directory that is there, with a context for errors. -/
def createDirAll (base : Location) (names : List Name) : EStateM String FileSystem Unit :=
  fun fs =>
    match FileSystem.createDirAll base (names.map .normal) fs with
    | (.ok (), fs') => .ok () fs'
    | (.error _, fs') => .error ("failed to create dir: " ++ displayLocation (base ++ names)) fs'

/-- `File::create`, `copy` of the entry's data and, for an executable, `chmod`. What could
be read before an error is in the file. -/
def writeEntry (parent : Location) (name : Name) (e : TarEntry) :
    EStateM String FileSystem Unit := fun fs =>
  let fullPath := parent ++ [name]
  match fs.writeAt parent name e.data.bytes with
  | .error _ => .error ("failed to create: " ++ displayLocation fullPath) fs
  | .ok fs' =>
    match e.data.error with
    | some _ => .error ("failed to write: " ++ displayLocation fullPath) fs'
    | none =>
      if e.mode.getD 0o644 &&& 0o111 = 0 then .ok () fs'
      else .ok () (fs'.set fullPath (.file 0o755 e.data.bytes))

/-- One entry, with the unpacked size so far. -/
def extractEntry (dest : Location) (limits : TarballLimits) (e : TarEntry) (unpacked : ℕ) :
    EStateM String FileSystem ℕ :=
  match sanitizeTarPath e.path limits with
  | .error message => fail message
  | .ok none => pure unpacked
  | .ok (some relative) =>
    let relative := normalizeIgnore relative
    match e.entryType with
    | .directory => pure unpacked
    | .regular =>
      let unpacked := unpacked + e.size.toNat
      if u64Max < unpacked then fail "tarball unpacked size overflow"
      else if limits.maxUnpackedBytes < unpacked then
        fail ("tarball unpacked size " ++ toString unpacked ++ " exceeds limit " ++
          toString limits.maxUnpackedBytes)
      else do
        createDirAll dest relative.dropLast
        writeEntry (dest ++ relative.dropLast) (relative.getLastD []) e
        pure unpacked
    | .other _ => fail ("unsupported tar entry type for " ++ displayPath e.path)

def extractLoop (dest : Location) (limits : TarballLimits) :
    List (Except String TarEntry) → ℕ → ℕ → EStateM String FileSystem Unit
  | [], _, _ => pure ()
  | entry :: rest, count, unpacked =>
    let count := count + 1
    if limits.maxEntries < count then
      fail ("tarball entry count " ++ toString count ++ " exceeds limit " ++
        toString limits.maxEntries)
    else match entry with
      | .error _ => fail "corrupt tar entry"
      | .ok e => do
        let unpacked ← extractEntry dest limits e unpacked
        extractLoop dest limits rest count unpacked

def extractArchive (decode : DecodeTarball) (data : List UInt8) (dest : Location)
    (limits : TarballLimits) : EStateM String FileSystem Unit := do
  createDirAll [] dest
  match decode data with
  | .error _ => fail "failed to read tar entries"
  | .ok entries => extractLoop dest limits entries 0 0

def extractTarball (decode : DecodeTarball) (data : List UInt8) (dest : Location)
    (limits : TarballLimits) : EStateM String FileSystem Unit :=
  if limits.maxArchiveBytes < data.length then
    fail ("tarball compressed size " ++ toString data.length ++ " exceeds limit " ++
      toString limits.maxArchiveBytes)
  else extractArchive decode data dest limits

end Oath.Fetch

/-! ## The calls -/

namespace Oath.Fetch.Calls
open Unix Registry Traces

inductive Request
  | createDir (path : List Component)
  | isDir (path : List Component)
  | createFile (path : List Component)
  | write (path : List Component) (bytes : List UInt8)
  | setPermissions (path : List Component) (mode : ℕ)
  /-- A symbolic or hard link, a pipe or a device. -/
  | makeOther (path : List Component)
deriving DecidableEq

inductive Reply
  | done
  | notFound
  | failed
deriving DecidableEq

inductive Event
  | entry (item : Except String TarEntry)
  | call (request : Request) (reply : Reply)

/-- The system with its files. It may be changed from elsewhere at any time. -/
abbrev System := List Event → Request → Reply

abbrev Action (α : Type) := EStateM String (List Event) α

def Component.bytes : Component → List UInt8
  | .rootDir => []
  | .curDir => [dot]
  | .parentDir => [dot, dot]
  | .normal name => name

def showPath (path : List Component) : String :=
  if path = [.rootDir] then "/" else displayPath ([slash].intercalate (path.map Component.bytes))

section Calls
variable (system : System)

def call (request : Request) : Action Reply :=
  ask (fun log => system log request) (.call request)

def isDir (path : List Component) : Action Bool := do
  let reply ← call system (.isDir path)
  pure (reply == .done)

/-- The second attempt, when what is above has been made. -/
def createAgain (path : List Component) : Action Bool := do
  let reply ← call system (.createDir path)
  if reply = .done then pure true else isDir system path

/-- `create_dir_all` of the path with these components from the end. -/
def createDirs : List Component → Action Bool
  | [] => pure true
  | part :: up => do
    let path := (part :: up).reverse
    match ← call system (.createDir path) with
    | .done => pure true
    | .failed => isDir system path
    | .notFound =>
      if part = .rootDir then pure false
      else do
        if ← createDirs up then createAgain system path else pure false

def createDirAll (path : List Component) : Action Unit := do
  if ← createDirs system path.reverse then pure ()
  else throw ("failed to create dir: " ++ showPath path)

def setExecutable (path : List Component) (e : TarEntry) : Action Unit :=
  if e.mode.getD 0o644 &&& 0o111 = 0 then pure ()
  else do
    if (← call system (.setPermissions path 0o755)) = .done then pure ()
    else throw ("failed to set permissions on: " ++ showPath path)

/-- What can be read of the entry before an error is written. -/
def copyEntry (path : List Component) (e : TarEntry) : Action Unit := do
  if (← call system (.write path e.data.bytes)) = .done ∧ e.data.error = none then
    setExecutable system path e
  else throw ("failed to write: " ++ showPath path)

def writeEntry (path : List Component) (e : TarEntry) : Action Unit := do
  if (← call system (.createFile path)) = .done then copyEntry system path e
  else throw ("failed to create: " ++ showPath path)

/-- The path below the destination. -/
def fullPath (dest : List Component) (relative : List Name) : List Component :=
  dest ++ (normalizeIgnore relative).map .normal

def extractRegular (dest : List Component) (limits : TarballLimits) (e : TarEntry)
    (relative : List Name) (unpacked : ℕ) : Action ℕ :=
  let unpacked := unpacked + e.size.toNat
  if u64Max < unpacked then throw "tarball unpacked size overflow"
  else if limits.maxUnpackedBytes < unpacked then
    throw ("tarball unpacked size " ++ toString unpacked ++ " exceeds limit " ++
      toString limits.maxUnpackedBytes)
  else do
    createDirAll system (fullPath dest relative).dropLast
    writeEntry system (fullPath dest relative) e
    pure unpacked

def extractEntry (dest : List Component) (limits : TarballLimits) (e : TarEntry) (unpacked : ℕ) :
    Action ℕ :=
  match sanitizeTarPath e.path limits with
  | .error message => throw message
  | .ok none => pure unpacked
  | .ok (some relative) =>
    match e.entryType with
    | .directory => pure unpacked
    | .regular => extractRegular system dest limits e relative unpacked
    | .other _ => throw ("unsupported tar entry type for " ++ displayPath e.path)

def extractItem (dest : List Component) (limits : TarballLimits) (item : Except String TarEntry)
    (unpacked : ℕ) : Action ℕ :=
  match item with
  | .error _ => throw "corrupt tar entry"
  | .ok e => extractEntry system dest limits e unpacked

def extractLoop (dest : List Component) (limits : TarballLimits) :
    List (Except String TarEntry) → ℕ → ℕ → Action Unit
  | [], _, _ => pure ()
  | item :: rest, count, unpacked =>
    let count := count + 1
    if u64Max < count then throw "tarball entry count overflow"
    else if limits.maxEntries < count then
      throw ("tarball entry count " ++ toString count ++ " exceeds limit " ++
        toString limits.maxEntries)
    else do
      emit (.entry item)
      let unpacked ← extractItem system dest limits item unpacked
      extractLoop dest limits rest count unpacked

def extractArchive (decode : DecodeTarball) (data : List UInt8) (dest : List Component)
    (limits : TarballLimits) : Action Unit := do
  createDirAll system dest
  match decode data with
  | .error _ => throw "failed to read tar entries"
  | .ok items => extractLoop system dest limits items 0 0

end Calls

end Oath.Fetch.Calls
