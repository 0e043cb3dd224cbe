import Oath.Core.Policy
import Oath.Library.OrderedMap

/-! What `.npmrc` says about registries and tokens, and which registry and which token a
request of the client gets from it: the last token that is given for the host of its URL. Ports and paths
of the keys do not count. -/

namespace Oath.Fetch
open Core

structure NpmrcConfig where
  defaultRegistry : Option String := none
  scopedRegistries : OrderedMap String String := .empty
  /-- By host. -/
  tokens : OrderedMap String String := .empty

/-! ## Lines -/

def beginsWith (text : List Char) (start : String) : Bool := start.toList.isPrefixOf text

def stripSuffix? (ending : String) (text : List Char) : Option (List Char) :=
  if ending.toList.isSuffixOf text then some (text.take (text.length - ending.length)) else none

/-- `str::split_once`. -/
def splitOnce (sep : Char) (text : List Char) : Option (List Char × List Char) :=
  match text.dropWhile (· ≠ sep) with
  | [] => none
  | _ :: rest => some (text.takeWhile (· ≠ sep), rest)

def trimChars (text : List Char) : List Char :=
  ((text.dropWhile isWhitespace).reverse.dropWhile isWhitespace).reverse

/-- The carriage return that `str::lines` takes away is white space, and every line is
trimmed; so is the empty line after a last newline. -/
def lines (content : String) : List (List Char) := content.toList.splitOn '\n'

/-! ## References to the environment -/

/-- What stands before and after the first opening of a reference. -/
def findReference : List Char → Option (List Char × List Char)
  | [] => none
  | '$' :: '\x7b' :: rest => some ([], rest)
  | c :: rest => (findReference rest).map fun found => (c :: found.1, found.2)

/-- One reference replaced by its value, which is read again for more of them. -/
def expandStep (env : List Char → List Char) (out : List Char) : Option (List Char) :=
  match findReference out with
  | none => none
  | some (before, after) =>
    match splitOnce '\x7d' after with
    | none => none
    | some (var, rest) => some (before ++ env var ++ rest)

/-- The loop ends when no reference is left; a value that refers to itself keeps it going. -/
def expandEnv (env : List Char → List Char) : ℕ → List Char → Option (List Char)
  | 0, _ => none
  | fuel + 1, out =>
    match expandStep env out with
    | none => some out
    | some next => expandEnv env fuel next

/-! ## Files -/

/-- `trim_end_matches('/')`. -/
def normalizeRegistry (url : List Char) : String :=
  String.ofList (url.reverse.dropWhile (· = '/')).reverse

/-- The host of a key such as `//host:port/path/`. -/
def hostFromNpmrcKey (key : List Char) : Option String :=
  let host := ((key.dropWhile (· = '/')).takeWhile (· ≠ '/')).takeWhile (· ≠ ':')
  if host.isEmpty then none else some (String.ofList host)

section Parse
variable (env : List Char → List Char) (fuel : ℕ)

/-- The key and the expanded value of a line that is no comment. -/
def entryOf? (line : List Char) : Option (Option (List Char × List Char)) :=
  let line := trimChars line
  if line.isEmpty || line.head? = some '#' || line.head? = some ';' then some none
  else match splitOnce '=' line with
    | none => some none
    | some (key, value) =>
      (expandEnv env fuel (trimChars value)).map fun value => some (trimChars key, value)

def mergeEntry (cfg : NpmrcConfig) (key value : List Char) : NpmrcConfig :=
  if value.isEmpty && !beginsWith key "//" then cfg
  else if key = "registry".toList then { cfg with defaultRegistry := normalizeRegistry value }
  else match stripSuffix? ":registry" key with
    | some scope =>
      if beginsWith scope "@" then
        { cfg with
          scopedRegistries :=
            cfg.scopedRegistries.insert (String.ofList scope) (normalizeRegistry value) }
      else cfg
    | none =>
      match (stripSuffix? ":_authToken" key).bind hostFromNpmrcKey with
      | some host =>
        if value.isEmpty then cfg
        else { cfg with tokens := cfg.tokens.insert host (String.ofList value) }
      | none => cfg

def mergeLine (cfg : NpmrcConfig) (line : List Char) : Option NpmrcConfig :=
  (entryOf? env fuel line).map fun
    | some (key, value) => mergeEntry cfg key value
    | none => cfg

/-- A file that cannot be read as text says nothing. -/
def mergeFile (cfg : NpmrcConfig) (content : Option String) : Option NpmrcConfig :=
  match content with
  | none => some cfg
  | some content => (lines content).foldlM (mergeLine env fuel) cfg

def NpmrcConfig.load (home project : Option String) (override : Option String) :
    Option NpmrcConfig := do
  let cfg ← mergeFile env fuel {} home
  let cfg ← mergeFile env fuel cfg project
  match override with
  | some registry =>
    if registry.isEmpty then some cfg
    else some { cfg with defaultRegistry := normalizeRegistry registry.toList }
  | none => some cfg

end Parse

/-! ## The client -/

structure RegistryConfig where
  registryUrl : String := "https://registry.npmjs.org"
  scopedRegistries : OrderedMap String String := .empty
  tokens : OrderedMap String String := .empty
  /-- A single token for the host of the default registry. -/
  token : Option String := none

def RegistryConfig.fromNpmrc (npmrc : NpmrcConfig) : RegistryConfig where
  registryUrl := npmrc.defaultRegistry.getD "https://registry.npmjs.org"
  scopedRegistries := npmrc.scopedRegistries
  tokens := npmrc.tokens

/-- The host of a URL, as the URL parser sees it. -/
abbrev HostOf := String → Option String

/-- The configuration of a new client. -/
def RegistryConfig.ofClient (hostOf : HostOf) (config : RegistryConfig) : RegistryConfig :=
  match config.token, hostOf config.registryUrl with
  | some token, some host => { config with tokens := config.tokens.insertNew host token }
  | _, _ => config

namespace RegistryConfig

def registryFor (config : RegistryConfig) (name : String) : String :=
  if beginsWith name.toList "@" then
    (config.scopedRegistries.find? (String.ofList (name.toList.takeWhile (· ≠ '/')))).getD
      config.registryUrl
  else config.registryUrl

def packageUrl (config : RegistryConfig) (name : String) : String :=
  config.registryFor name ++ "/" ++ name

def tokenForUrl (hostOf : HostOf) (config : RegistryConfig) (url : String) : Option String :=
  (hostOf url).bind config.tokens.find?

end RegistryConfig

/-! ## Which token a request gets -/

section Tokens
variable (env : List Char → List Char) (fuel : ℕ)

/-- The host and the token that a line gives. -/
def tokenOf (line : List Char) : Option (String × String) :=
  match entryOf? env fuel line with
  | some (some (key, value)) =>
    if value.isEmpty then none
    else ((stripSuffix? ":_authToken" key).bind hostFromNpmrcKey).map (·, String.ofList value)
  | _ => none

def fileLines (content : Option String) : List (List Char) := (content.map lines).getD []

theorem getLast?_of_stripSuffix? {ending : String} {c : Char} {text rest : List Char}
    (hlast : ending.toList.getLast? = some c) (h : stripSuffix? ending text = some rest) :
    text.getLast? = some c := by
  unfold stripSuffix? at h
  split_ifs at h with hsuffix
  obtain ⟨front, rfl⟩ := List.isSuffixOf_iff_suffix.mp hsuffix
  rw [List.getLast?_append, hlast, Option.some_or]

/-- Only a line with a token changes the tokens. -/
theorem mergeEntry_tokens (cfg : NpmrcConfig) (key value : List Char) :
    (mergeEntry cfg key value).tokens =
      if value.isEmpty then cfg.tokens
      else match (stripSuffix? ":_authToken" key).bind hostFromNpmrcKey with
        | some host => cfg.tokens.insert host (String.ofList value)
        | none => cfg.tokens := by
  have hnot : ∀ {last : Char}, key.getLast? = some last → last ≠ 'n' →
      stripSuffix? ":_authToken" key = none := by
    intro last hkey hlast
    by_contra hsome
    obtain ⟨rest, hrest⟩ := Option.ne_none_iff_exists'.mp hsome
    have htoken := getLast?_of_stripSuffix? (c := 'n') (by decide) hrest
    rw [hkey] at htoken
    exact hlast (Option.some.inj htoken)
  unfold mergeEntry
  by_cases hempty : value.isEmpty
  · simp only [hempty, if_true, Bool.true_and]
    split_ifs
    · rfl
    · rfl
    · split
      · split_ifs <;> rfl
      · split <;> rfl
  · simp only [hempty, Bool.false_and, Bool.false_eq_true, if_false]
    split_ifs with hregistry
    · have hkey : key.getLast? = some 'y' := by
        rw [hregistry]
        decide
      rw [hnot hkey (by decide), Option.bind_none]
    · split
      · next scope hscope =>
        have hkey := getLast?_of_stripSuffix? (c := 'y') (by decide) hscope
        rw [hnot hkey (by decide), Option.bind_none]
        split_ifs <;> rfl
      · cases (stripSuffix? ":_authToken" key).bind hostFromNpmrcKey with
        | some host => rfl
        | none => rfl

theorem mergeLine_tokens {cfg cfg' : NpmrcConfig} {line : List Char}
    (h : mergeLine env fuel cfg line = some cfg') :
    cfg'.tokens = ((tokenOf env fuel line).toList).foldl (fun m row => m.insert row.1 row.2)
      cfg.tokens := by
  unfold mergeLine at h
  unfold tokenOf
  cases hentry : entryOf? env fuel line with
  | none =>
    rw [hentry] at h
    cases h
  | some found =>
    rw [hentry] at h
    obtain rfl := Option.some.inj h
    cases found with
    | none => rfl
    | some pair =>
      obtain ⟨key, value⟩ := pair
      dsimp only
      rw [mergeEntry_tokens]
      split_ifs
      · rfl
      · cases (stripSuffix? ":_authToken" key).bind hostFromNpmrcKey <;> rfl

theorem foldlM_mergeLine_tokens {rows : List (List Char)} {cfg cfg' : NpmrcConfig}
    (h : rows.foldlM (mergeLine env fuel) cfg = some cfg') :
    cfg'.tokens = (rows.filterMap (tokenOf env fuel)).foldl (fun m row => m.insert row.1 row.2)
      cfg.tokens := by
  induction rows generalizing cfg with
  | nil =>
    obtain rfl := Option.some.inj h
    rfl
  | cons line rest ih =>
    rw [List.foldlM_cons] at h
    obtain ⟨next, hline, hrest⟩ := Option.bind_eq_some_iff.mp h
    rw [ih hrest, mergeLine_tokens env fuel hline]
    cases htoken : tokenOf env fuel line <;> simp [htoken]

theorem mergeFile_tokens {content : Option String} {cfg cfg' : NpmrcConfig}
    (h : mergeFile env fuel cfg content = some cfg') :
    cfg'.tokens = ((fileLines content).filterMap (tokenOf env fuel)).foldl
      (fun m row => m.insert row.1 row.2) cfg.tokens := by
  cases content with
  | none =>
    obtain rfl := Option.some.inj h
    rfl
  | some content => exact foldlM_mergeLine_tokens env fuel h

/-- The tokens of the files, in the order of their lines. -/
def tokenLines (home project : Option String) : List (String × String) :=
  (fileLines home ++ fileLines project).filterMap (tokenOf env fuel)

theorem load_tokens {home project override : Option String} {cfg : NpmrcConfig}
    (h : NpmrcConfig.load env fuel home project override = some cfg) (host : String) :
    cfg.tokens.find? host =
      ((tokenLines env fuel home project).reverse.find? fun row => row.1 = host).map Prod.snd := by
  obtain ⟨first, hhome, h⟩ := Option.bind_eq_some_iff.mp h
  obtain ⟨second, hproject, h⟩ := Option.bind_eq_some_iff.mp h
  have htokens : cfg.tokens = second.tokens := by
    cases override with
    | none =>
      obtain rfl := Option.some.inj h
      rfl
    | some registry =>
      dsimp only at h
      split_ifs at h <;> obtain rfl := Option.some.inj h <;> rfl
  rw [htokens, mergeFile_tokens env fuel hproject, mergeFile_tokens env fuel hhome,
    ← List.foldl_append, ← List.filterMap_append, OrderedMap.find?_foldl_insert,
    OrderedMap.find?_empty, Option.or_none]
  rfl

/-- A request gets the token of the last line whose key has the host of its URL, and no
token where no key has it. -/
theorem token_of_host (hostOf : HostOf) {home project override : Option String}
    {cfg : NpmrcConfig} (h : NpmrcConfig.load env fuel home project override = some cfg)
    (url : String) :
    ((RegistryConfig.fromNpmrc cfg).ofClient hostOf).tokenForUrl hostOf url =
      (hostOf url).bind fun host =>
        ((tokenLines env fuel home project).reverse.find? fun row => row.1 = host).map
          Prod.snd := by
  have hclient : ((RegistryConfig.fromNpmrc cfg).ofClient hostOf).tokens = cfg.tokens := rfl
  unfold RegistryConfig.tokenForUrl
  rw [hclient]
  cases hostOf url with
  | none => rfl
  | some host => exact load_tokens env fuel h host

end Tokens

/-! ## Ports and paths -/

/-- A URL as the rule of npm looks at it. -/
structure UrlParts where
  host : String
  port : Option ℕ
  path : String

/-- The form in which keys are compared with a URL. -/
def UrlParts.nerfDart (url : UrlParts) : List Char :=
  ("//" ++ url.host ++ ((url.port.map fun port => ":" ++ toString port).getD "") ++
    url.path).toList

/-- The key of a token line, as it stands, with its value. -/
def keyedToken (env : List Char → List Char) (fuel : ℕ) (line : List Char) :
    Option (List Char × String) :=
  match entryOf? env fuel line with
  | some (some (key, value)) =>
    (stripSuffix? ":_authToken" key).map (·, String.ofList value)
  | _ => none

/-- The keys that cover a URL: host, port and path are a beginning of it. -/
def covering (env : List Char → List Char) (fuel : ℕ) (content : String) (url : UrlParts) :
    List (List Char × String) :=
  ((lines content).filterMap (keyedToken env fuel)).filter fun row =>
    row.1.isPrefixOf url.nerfDart

namespace Demo

def npmrc : String := "//packages.example:8081/private/:_authToken=secret\n"

def parts : UrlParts := ⟨"packages.example", some 9090, "/left-pad"⟩

def hostOf : HostOf := fun url =>
  if url = "http://packages.example:9090/left-pad" then some "packages.example"
  else if url = "https://registry.npmjs.org" then some "registry.npmjs.org"
  else none

def config : NpmrcConfig where
  tokens := OrderedMap.empty.insert "packages.example" "secret"

theorem load_npmrc :
    NpmrcConfig.load (fun _ => []) 1 none (some npmrc) none = some config := by
  rfl

def sent : Option String :=
  (NpmrcConfig.load (fun _ => []) 1 none (some npmrc) none).bind fun cfg =>
    ((RegistryConfig.fromNpmrc cfg).ofClient hostOf).tokenForUrl hostOf
      "http://packages.example:9090/left-pad"

end Demo

/-- The token of one port and path of a host goes to another port and path. -/
theorem token_crosses_ports :
    covering (fun _ => []) 1 Demo.npmrc Demo.parts = [] ∧ Demo.sent = some "secret" := by
  decide +kernel

open Demo in
theorem token_of_host_ports :
    ((RegistryConfig.fromNpmrc config).ofClient hostOf).tokenForUrl hostOf
      "http://packages.example:9090/left-pad" = some "secret" :=
  (token_of_host (fun _ => []) 1 hostOf load_npmrc _).trans (by decide +kernel)

end Oath.Fetch
