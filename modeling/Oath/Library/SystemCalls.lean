import Oath.Library.LinkedFiles
import Oath.Library.Outcome

/-! System calls, any of which can fail, and the record of the changes they make. What a crash
leaves behind is what some of the first changes have made of the files. -/

namespace Unix

structure Kernel where
  files : LinkedFiles
  effects : List Effect
  /-- How many calls that change files there have been. -/
  calls : ℕ

/-- What becomes of a call, by its number and the change that it is to make. -/
abbrev Faults := ℕ → Effect → Option FileError

abbrev Syscall (α : Type) := EStateM FileError Kernel α

def read {ε α : Type} (f : LinkedFiles → α) : EStateM ε Kernel α := fun k => .ok (f k.files) k

def readOk {α : Type} (f : LinkedFiles → Except FileError α) : Syscall α := fun k =>
  match f k.files with
  | .ok a => .ok a k
  | .error e => .error e k

/-- A computation with its errors shown in another form. -/
def withErrors {ε ε' α : Type} (f : ε → ε') (x : EStateM ε Kernel α) : EStateM ε' Kernel α :=
  fun k =>
    match x k with
    | .ok a k' => .ok a k'
    | .error e k' => .error (f e) k'

/-- A computation whose error is looked at. -/
def attempt {ε ε' α : Type} (x : EStateM ε Kernel α) : EStateM ε' Kernel (Except ε α) := fun k =>
  match x k with
  | .ok a k' => .ok (.ok a) k'
  | .error e k' => .ok (.error e) k'

section Calls
variable (faults : Faults)

/-- One change, if its call is in order. -/
def perform (call : LinkedFiles → Except FileError Effect) : Syscall Unit := fun k =>
  match call k.files with
  | .error e => .error e { k with calls := k.calls + 1 }
  | .ok effect =>
    match faults k.calls effect with
    | some e => .error e { k with calls := k.calls + 1 }
    | none => .ok () ⟨effect.apply k.files, k.effects ++ [effect], k.calls + 1⟩

/-- A new entry needs a directory that has none of its name. -/
def vacant (fs : LinkedFiles) (loc : Location) : Except FileError Unit :=
  if (fs.entryAt? loc).isSome then .error .alreadyExists
  else if loc ≠ [] ∧ fs.entryAt? loc.dropLast = some .directory then .ok ()
  else .error .notFound

def mkdir (p : Path) : Syscall Unit := perform faults fun fs => do
  let loc ← fs.find false p
  vacant fs loc
  .ok (.makeDir loc)

def symlink (target : List Component) (p : Path) : Syscall Unit := perform faults fun fs => do
  let loc ← fs.find false p
  vacant fs loc
  .ok (.symlink loc target)

def hardLink (source : Location) (p : Path) : Syscall Unit := perform faults fun fs => do
  let loc ← fs.find false p
  vacant fs loc
  match fs.entryAt? source with
  | some (.file _) => .ok (.hardLink source loc)
  | _ => .error .notFound

def unlink (p : Path) : Syscall Unit := perform faults fun fs => do
  let loc ← fs.find false p
  match fs.entryAt? loc with
  | some .directory => .error .isADirectory
  | some _ => .ok (.remove loc)
  | none => .error .notFound

def unlinkAt (loc : Location) : Syscall Unit := perform faults fun fs =>
  match fs.entryAt? loc with
  | some .directory => .error .isADirectory
  | some _ => .ok (.remove loc)
  | none => .error .notFound

def rmdirAt (loc : Location) : Syscall Unit := perform faults fun fs =>
  match fs.entryAt? loc with
  | some .directory => if fs.readDir loc = [] then .ok (.remove loc) else .error .notEmpty
  | some _ => .error .notADirectory
  | none => .error .notFound

/-- A directory only replaces an empty one, and nothing but a directory another entry. -/
def renamed (fs : LinkedFiles) (source dest : Location) : Except FileError Effect :=
  match fs.entryAt? source, fs.entryAt? dest with
  | none, _ => .error .notFound
  | some .directory, some .directory =>
    if source <+: dest then .error (.other "Invalid argument (os error 22)")
    else if fs.readDir dest = [] then .ok (.rename source dest) else .error .notEmpty
  | some .directory, some _ => .error .notADirectory
  | some _, some .directory => .error .isADirectory
  | some _, some _ => .ok (.rename source dest)
  | some entry, none =>
    if entry = .directory ∧ source <+: dest then
      .error (.other "Invalid argument (os error 22)")
    else if dest ≠ [] ∧ fs.entryAt? dest.dropLast = some .directory then .ok (.rename source dest)
    else .error .notFound

def rename (source dest : Path) : Syscall Unit := perform faults fun fs => do
  let source ← fs.find false source
  let dest ← fs.find false dest
  renamed fs source dest

/-! ## Calls of the standard library -/

/-- The names of a path from its last one. Above the base there is nothing to be made. -/
def createDirs (base : Location) : List Component → Syscall Unit
  | [] => pure ()
  | part :: up => do
    let p : Path := ⟨base, (part :: up).reverse⟩
    match ← attempt (mkdir faults p) with
    | .ok () => pure ()
    | .error .notFound => do
      createDirs base up
      match ← attempt (mkdir faults p) with
      | .ok () => pure ()
      | .error e => if ← read (·.isDir p) then pure () else throw e
    | .error e => if ← read (·.isDir p) then pure () else throw e

/-- `std::fs::create_dir_all`. -/
def createDirAll (p : Path) : Syscall Unit := createDirs faults p.base p.parts.reverse

/-- What is below a directory, each directory after its entries. -/
def removeTree : ℕ → Location → Syscall Unit
  | 0, _ => throw .nameTooLong
  | depth + 1, loc => do
    let names ← read (·.readDir loc)
    names.forM fun name => do
      match ← read (·.entryAt? (loc ++ [name])) with
      | some .directory => removeTree depth (loc ++ [name])
      | _ => unlinkAt faults (loc ++ [name])
    rmdirAt faults loc

/-- More than the names of any place. -/
def depth (fs : LinkedFiles) : ℕ :=
  (fs.entries.rows.map fun row => row.1.length).foldr max 0 + 1

/-- `std::fs::remove_dir_all` does not follow a symbolic link. -/
def removeDirAll (p : Path) : Syscall Unit := do
  let loc ← readOk (·.find false p)
  match ← read (·.entryAt? loc) with
  | some (.symlink _) => unlinkAt faults loc
  | some .directory => removeTree faults (← read depth) loc
  | some (.file _) => throw .notADirectory
  | none => throw .notFound

/-- The file that a path leads to is made or loses its data. -/
def openTruncated (p : Path) : Syscall Unit := perform faults fun fs => do
  let loc ← fs.find true p
  match fs.entryAt? loc with
  | some (.file inode) => .ok (.write loc inode [])
  | some _ => .error .isADirectory
  | none => do
    vacant fs loc
    .ok (.createFile loc)

/-- The data arrive byte by byte. A kernel that takes more at once goes through fewer states. -/
def writeBytes (loc : Location) (inode : ℕ) (bytes : List UInt8) : Syscall Unit :=
  (List.range bytes.length).forM fun n =>
    perform faults fun _ => .ok (.write loc inode (bytes.take (n + 1)))

def fileAt (fs : LinkedFiles) (p : Path) : Except FileError (Location × ℕ) := do
  let loc ← fs.find true p
  match fs.entryAt? loc with
  | some (.file inode) => .ok (loc, inode)
  | _ => .error .notFound

/-- `std::fs::write`. -/
def writeFile (p : Path) (bytes : List UInt8) : Syscall Unit := do
  openTruncated faults p
  let opened ← readOk (fileAt · p)
  writeBytes faults opened.1 opened.2 bytes

/-- `std::fs::copy`; the permissions are left out. -/
def copyFile (source : Location) (p : Path) : Syscall Unit := do
  match ← read (·.entryAt? source) with
  | some (.file inode) => writeFile faults p (← read fun fs => fs.data inode)
  | _ => throw .notFound

end Calls

end Unix
