import Oath.Analyze.Scanner

/-! The behavioural facts of one source file: a visitor over its syntax tree. The parser is
a parameter. Of a tree the kinds of node the visitor looks at are kept apart; every other
statement, expression, pattern, class or type is known by what the walk visits below it. -/

namespace Oath.Analyze
open Unix

inductive Node
  | identifier (name : String)
  | stringLiteral (value : String)
  | templateLiteral (quasis : List String) (expressions : List Node)
  | staticMember (object : Node) (property : String)
  | call (callee : Node) (typeArguments arguments : List Node)
  | new (callee : Node) (typeArguments arguments : List Node)
  | await (argument : Node)
  | spread (argument : Node)
  | other (children : List Node)

structure Program where
  directives : List String := []
  body : List Node

inductive SourceType
  | ts
  | mjs
  | cjs
deriving DecidableEq, Repr

/-! ## What is looked for -/

def endsWith (text : List Char) (ending : String) : Bool := ending.toList <:+ text

def startsWithStr (text : List Char) (start : String) : Bool := start.toList <+: text

/-- The whole environment: `process.env`. -/
def isProcessEnv : Node → Bool
  | .staticMember (.identifier name) property => property = "env" ∧ name = "process"
  | _ => false

/-- The dotted name of a callee, two levels deep. -/
def calleeName : Node → Option (List Char)
  | .identifier name => some name.toList
  | .staticMember (.identifier object) property => some (object.toList ++ '.' :: property.toList)
  | .staticMember _ property => some property.toList
  | _ => none

def sensitiveNames : List String := ["TOKEN", "SECRET", "PASSWORD", "PASSWD", "APIKEY", "API_KEY"]

def sensitiveEndings : List String :=
  ["_TOKEN", "_SECRET", "_PASSWORD", "_PASSWD", "_APIKEY", "_API_KEY"]

def sensitiveParts : List String := ["CLIENT_SECRET", "PRIVATE_KEY", "ACCESS_KEY", "CREDENTIAL"]

def isSensitiveEnvName (name : List Char) : Bool :=
  sensitiveNames.any (·.toList = name) || sensitiveEndings.any (endsWith name) ||
    sensitiveParts.any (containsStr name)

def credPathFragments : List String := [
  ".ssh/id_rsa", ".ssh/id_ed25519", ".aws/credentials", ".aws/config", ".npmrc", "/etc/shadow",
  "id_rsa", "Library/Keychains", "Login Data", "/.config/gcloud", ".docker/config.json",
  "wallet.dat", ".bash_history"]

def containsShellDownload (text : String) : Bool := shellDownloads.any (containsStr text.toList)

def argumentContainsShellDownload : Node → Bool
  | .stringLiteral value => containsShellDownload value
  | .templateLiteral quasis _ => quasis.any containsShellDownload
  | _ => false

/-- An argument that is spread is no expression. -/
def argAsExpr : Node → Option Node
  | .spread _ => none
  | argument => some argument

/-- The argument decodes data. -/
def argIsDecode : Node → Bool
  | .call callee _ _ =>
    match calleeName callee with
    | some name => name = "atob".toList || endsWith name ".from" || name = "Buffer.from".toList ||
        endsWith name "fromCharCode" || name = "unescape".toList
    | none => false
  | _ => false

def argIsFetchlike : Node → Bool
  | .call callee _ _ =>
    match calleeName callee with
    | some name =>
      let n := name.map Char.toLower
      n = "fetch".toList || endsWith n ".get" || containsStr n "request" || containsStr n "download"
    | none => false
  | .await _ => true
  | _ => false

/-! ## The visitor -/

def checkString (text : String) (b : Behavior) : Behavior :=
  { b with
    credPath := b.credPath || credPathFragments.any (containsStr text.toList)
    suspiciousHost := b.suspiciousHost ||
      suspiciousHosts.any (containsStr (text.toList.map Char.toLower))
    wormMarker := b.wormMarker || wormMarkers.any (containsStr text.toList) }

def networkModules : List String := [
  "http", "https", "net", "dgram", "dns", "tls", "node:http", "node:https", "node:net",
  "node:dns"]

/-- `require` of a module named by a string. -/
def requiredModule (name : List Char) (arguments : List Node) (b : Behavior) : Behavior :=
  if name = "require".toList then
    match arguments.head? with
    | some (.stringLiteral value) =>
      if value ∈ networkModules then { b with net := true }
      else if value ∈ ["child_process", "node:child_process"] then { b with subprocess := true }
      else if value ∈ ["fs", "node:fs", "fs/promises"] then { b with fs := true }
      else if value ∈ ["vm", "node:vm"] then { b with codeExec := true }
      else b
    | _ => b
  else b

def isCodeExec (name : List Char) : Bool :=
  name = "eval".toList || endsWith name ".runInContext" || endsWith name ".runInNewContext" ||
    endsWith name "._compile" || name = "Function".toList

/-- Only the first argument of a sink is looked at. -/
def codeExecSink (name : List Char) (arguments : List Node) (b : Behavior) : Behavior :=
  if isCodeExec name then
    match arguments.head?.bind argAsExpr with
    | some argument =>
      { b with
        codeExec := true
        decodeIntoExec := b.decodeIntoExec || argIsDecode argument
        fetchIntoExec := b.fetchIntoExec || argIsFetchlike argument }
    | none => { b with codeExec := true }
  else b

def networkSink (name : List Char) (b : Behavior) : Behavior :=
  let n := name.map Char.toLower
  if (n = "fetch".toList || startsWithStr n "axios" || endsWith n ".request" || endsWith n ".get" ||
      endsWith n ".post" || endsWith n ".connect" || endsWith n ".write" && b.net) &&
      (n = "fetch".toList || startsWithStr n "axios" || endsWith n ".request" ||
        endsWith n ".connect") then
    { b with net := true }
  else b

def subprocessEndings : List String :=
  [".exec", ".execSync", ".spawn", ".spawnSync", ".fork", ".execFile"]

def subprocessSink (name : List Char) (arguments : List Node) (b : Behavior) : Behavior :=
  if subprocessEndings.any (endsWith name) then
    { b with
      subprocess := true
      shellDownload := b.shellDownload || arguments.any argumentContainsShellDownload }
  else b

def decodePrimitive (name : List Char) (b : Behavior) : Behavior :=
  if name = "atob".toList || name = "Buffer.from".toList || endsWith name "fromCharCode" then
    { b with decode := true }
  else b

def envArguments (arguments : List Node) (b : Behavior) : Behavior :=
  { b with
    envWhole := b.envWhole || arguments.any fun argument =>
      (argAsExpr argument).any isProcessEnv }

def visitCallExpression (callee : Node) (arguments : List Node) (b : Behavior) : Behavior :=
  match calleeName callee with
  | none => b
  | some name =>
    envArguments arguments <| decodePrimitive name <| subprocessSink name arguments <|
      networkSink name <| codeExecSink name arguments <| requiredModule name arguments b

def visitMemberExpression (object : Node) (property : String) (b : Behavior) : Behavior :=
  { b with
    envRead := b.envRead || isProcessEnv object || isProcessEnv (.staticMember object property)
    sensitiveEnv := b.sensitiveEnv ||
      isProcessEnv object && isSensitiveEnvName (property.toList.map Char.toUpper) }

def visitTemplateLiteral (quasis : List String) (b : Behavior) : Behavior :=
  quasis.foldl (fun b quasi => checkString quasi b) b

mutual

/-- What is seen at a node comes first, then the walk goes on below it. -/
def visit : Node → Behavior → Behavior
  | .identifier _, b => b
  | .stringLiteral value, b => checkString value b
  | .templateLiteral quasis expressions, b => visitAll expressions (visitTemplateLiteral quasis b)
  | .staticMember object property, b => visit object (visitMemberExpression object property b)
  | .call callee typeArguments arguments, b =>
    visitAll arguments (visitAll typeArguments (visit callee
      (visitCallExpression callee arguments b)))
  | .new callee typeArguments arguments, b =>
    visitAll arguments (visitAll typeArguments (visit callee b))
  | .await argument, b => visit argument b
  | .spread argument, b => visit argument b
  | .other children, b => visitAll children b

def visitAll : List Node → Behavior → Behavior
  | [], b => b
  | node :: rest, b => visitAll rest (visit node b)

end

def visitProgram (program : Program) (b : Behavior) : Behavior :=
  visitAll program.body (program.directives.foldl (fun b text => checkString text b) b)

/-! ## One file -/

def splitLines : List UInt8 → List (List UInt8)
  | [] => [[]]
  | byte :: rest =>
    match splitLines rest with
    | [] => [[byte]]
    | line :: lines => if byte = newline then [] :: line :: lines else (byte :: line) :: lines

/-- `str::lines` takes a carriage return away only before the newline that ends its line. -/
def lineLengths : List (List UInt8) → List ℕ
  | [] => []
  | [last] => [last.length]
  | line :: rest =>
    (if line.getLast? = some 13 then line.length - 1 else line.length) :: lineLengths rest

def isMinified (source : List UInt8) : Bool :=
  (lineLengths (splitLines source)).any (1000 < ·)

def inferSourceType (path : List Char) : SourceType :=
  if endsWith path ".ts" || endsWith path ".tsx" then .ts
  else if endsWith path ".mjs" then .mjs
  else .cjs

def analyzeFile (parse : List UInt8 → SourceType → Program) (source : List UInt8)
    (path : List Char) : Behavior :=
  let program := parse source (inferSourceType path)
  if program.body.isEmpty then {}
  else
    let b := visitProgram program {}
    if isMinified source then b
    else { b with handCodeExec := b.codeExec, handDecode := b.decode }

/-! ## Where a decode feeds an execution -/

def Node.children : Node → List Node
  | .identifier _ | .stringLiteral _ => []
  | .templateLiteral _ expressions => expressions
  | .staticMember object _ => [object]
  | .call callee typeArguments arguments | .new callee typeArguments arguments =>
    callee :: (typeArguments ++ arguments)
  | .await argument | .spread argument => [argument]
  | .other children => children

/-- A node that occurs in a tree, at any depth. -/
inductive Node.Occurs (site : Node) : Node → Prop
  | here : Occurs site site
  | inside {node child : Node} : child ∈ node.children → Occurs site child → Occurs site node

def Program.Occurs (site : Node) (program : Program) : Prop :=
  ∃ statement ∈ program.body, Node.Occurs site statement

/-- A call the visitor sees as decoded data that is executed. -/
def Node.decodesIntoExec : Node → Bool
  | .call callee _ arguments =>
    (calleeName callee).any isCodeExec && (arguments.head?.bind argAsExpr).any argIsDecode
  | _ => false

@[simp] theorem checkString_decodeIntoExec (text : String) (b : Behavior) :
    (checkString text b).decodeIntoExec = b.decodeIntoExec := rfl

@[simp] theorem foldl_checkString_decodeIntoExec (texts : List String) (b : Behavior) :
    (texts.foldl (fun b text => checkString text b) b).decodeIntoExec = b.decodeIntoExec := by
  induction texts generalizing b with
  | nil => rfl
  | cons text rest ih => rw [List.foldl_cons, ih, checkString_decodeIntoExec]

theorem requiredModule_decodeIntoExec (name : List Char) (arguments : List Node) (b : Behavior) :
    (requiredModule name arguments b).decodeIntoExec = b.decodeIntoExec := by
  unfold requiredModule
  split_ifs with hname
  · split
    · split_ifs <;> rfl
    · rfl
  · rfl

theorem codeExecSink_decodeIntoExec (name : List Char) (arguments : List Node) (b : Behavior) :
    (codeExecSink name arguments b).decodeIntoExec =
      (b.decodeIntoExec ||
        (isCodeExec name && (arguments.head?.bind argAsExpr).any argIsDecode)) := by
  unfold codeExecSink
  split_ifs with hsink
  · cases arguments.head?.bind argAsExpr <;> simp [hsink]
  · simp [hsink]

theorem visitCallExpression_decodeIntoExec (callee : Node) (types arguments : List Node)
    (b : Behavior) :
    (visitCallExpression callee arguments b).decodeIntoExec =
      (b.decodeIntoExec || (Node.call callee types arguments).decodesIntoExec) := by
  unfold visitCallExpression Node.decodesIntoExec
  cases hname : calleeName callee with
  | none => simp [hname]
  | some name =>
    have hnetwork : ∀ b : Behavior, (networkSink name b).decodeIntoExec = b.decodeIntoExec := by
      intro b
      unfold networkSink
      dsimp only
      split_ifs <;> rfl
    have hsubprocess : ∀ b : Behavior,
        (subprocessSink name arguments b).decodeIntoExec = b.decodeIntoExec := by
      intro b
      unfold subprocessSink
      split_ifs <;> rfl
    have hdecode : ∀ b : Behavior, (decodePrimitive name b).decodeIntoExec = b.decodeIntoExec := by
      intro b
      unfold decodePrimitive
      split_ifs <;> rfl
    show (decodePrimitive name _).decodeIntoExec = _
    rw [hdecode, hsubprocess, hnetwork, codeExecSink_decodeIntoExec, requiredModule_decodeIntoExec]
    dsimp only
    rw [hname, Option.any_some]

theorem visitTemplateLiteral_decodeIntoExec (quasis : List String) (b : Behavior) :
    (visitTemplateLiteral quasis b).decodeIntoExec = b.decodeIntoExec :=
  foldl_checkString_decodeIntoExec quasis b

theorem Node.occurs_iff (site node : Node) :
    Occurs site node ↔ node = site ∨ ∃ child ∈ node.children, Occurs site child := by
  constructor
  · intro h
    cases h with
    | here => exact Or.inl rfl
    | inside hchild hsite => exact Or.inr ⟨_, hchild, hsite⟩
  · rintro (rfl | ⟨child, hchild, hsite⟩)
    · exact .here
    · exact .inside hchild hsite

/-- Some node that occurs in the tree is such a call. -/
def Node.Detected (node : Node) : Prop := ∃ site, Occurs site node ∧ site.decodesIntoExec

theorem Node.detected_iff (node : Node) :
    node.Detected ↔ node.decodesIntoExec ∨ ∃ child ∈ node.children, child.Detected := by
  constructor
  · rintro ⟨site, hsite, hdecodes⟩
    rcases (occurs_iff site node).mp hsite with rfl | ⟨child, hchild, hbelow⟩
    · exact Or.inl hdecodes
    · exact Or.inr ⟨child, hchild, site, hbelow, hdecodes⟩
  · rintro (hdecodes | ⟨child, hchild, site, hsite, hdecodes⟩)
    · exact ⟨node, .here, hdecodes⟩
    · exact ⟨site, .inside hchild hsite, hdecodes⟩

mutual

/-- The walk misses no node: the flag is set exactly when such a call occurs. -/
theorem visit_decodeIntoExec (node : Node) (b : Behavior) :
    (visit node b).decodeIntoExec ↔ b.decodeIntoExec ∨ node.Detected := by
  rw [Node.detected_iff]
  cases node with
  | identifier name => simp [visit, Node.decodesIntoExec, Node.children]
  | stringLiteral value => simp [visit, Node.decodesIntoExec, Node.children]
  | templateLiteral quasis expressions =>
    rw [visit, visitAll_decodeIntoExec, visitTemplateLiteral_decodeIntoExec]
    simp [Node.decodesIntoExec, Node.children]
  | staticMember object property =>
    rw [visit, visit_decodeIntoExec object]
    simp [visitMemberExpression, Node.decodesIntoExec, Node.children]
  | call callee types arguments =>
    rw [visit, visitAll_decodeIntoExec, visitAll_decodeIntoExec, visit_decodeIntoExec callee,
      visitCallExpression_decodeIntoExec callee types]
    simp only [Bool.or_eq_true, Node.children, List.mem_cons, List.mem_append,
      or_and_right, exists_or, exists_eq_left, or_assoc]
  | new callee types arguments =>
    rw [visit, visitAll_decodeIntoExec, visitAll_decodeIntoExec, visit_decodeIntoExec callee]
    simp only [Node.decodesIntoExec, Bool.false_eq_true, false_or, Node.children, List.mem_cons,
      List.mem_append, or_and_right, exists_or, exists_eq_left, or_assoc]
  | await argument =>
    rw [visit, visit_decodeIntoExec argument]
    simp [Node.decodesIntoExec, Node.children]
  | spread argument =>
    rw [visit, visit_decodeIntoExec argument]
    simp [Node.decodesIntoExec, Node.children]
  | other children =>
    rw [visit, visitAll_decodeIntoExec]
    simp [Node.decodesIntoExec, Node.children]

theorem visitAll_decodeIntoExec (nodes : List Node) (b : Behavior) :
    (visitAll nodes b).decodeIntoExec ↔ b.decodeIntoExec ∨ ∃ node ∈ nodes, node.Detected := by
  cases nodes with
  | nil => simp [visitAll]
  | cons node rest =>
    rw [visitAll, visitAll_decodeIntoExec rest, visit_decodeIntoExec node]
    simp [or_assoc]

end

end Oath.Analyze
