import Batiste.Json

/-! `ScopedHandler` of `packages/scope`, the paths its file matcher allows, and the tools of the
code server with their path arguments.  The glob engine is a parameter. -/
namespace Batiste
namespace Scope

/-- The default deny-list of `secret-paths.ts`. -/
def secretPathPatterns : List String :=
  ["**/.env", "**/.env.*", "**/*.env", "**/*.env.*", "**/.envrc", "**/.env.local",
    "**/.env.production", "**/.env.development", "**/.env.*.local",
    "**/.ssh/**", "**/id_rsa", "**/id_rsa.pub", "**/id_ed25519", "**/id_ed25519.pub",
    "**/id_ecdsa", "**/id_ecdsa.pub", "**/id_dsa", "**/*.pem", "**/*.key", "**/*.p12",
    "**/*.pfx", "**/*.jks", "**/.gnupg/**", "**/authorized_keys", "**/known_hosts",
    "**/.aws/credentials", "**/.aws/config", "**/.boto", "**/.azure/**", "**/.config/gcloud/**",
    "**/.config/doctl/**", "**/.kube/config", "**/.docker/config.json", "**/credentials",
    "**/credentials.json",
    "**/*.secret", "**/*.secrets", "**/secrets.json", "**/secrets.yaml", "**/secrets.yml",
    "**/.netrc", "**/.pgpass", "**/.my.cnf", "**/.htpasswd", "**/service-account*.json",
    "**/service_account*.json",
    "/etc/shadow", "/etc/gshadow", "/etc/passwd-", "/etc/sudoers", "/etc/sudoers.d/**",
    "**/.idea/workspace.xml", "**/.vscode/settings.json",
    "**/Library/Keychains/**", "**/login.keychain*", "**/System.keychain*",
    "**/.cargo/credentials", "**/.cargo/credentials.toml", "**/.npmrc", "**/.yarnrc",
    "**/.yarnrc.yml", "**/.gem/credentials", "**/.pypirc", "**/.pip/pip.conf",
    "**/.git-credentials", "**/.git/config"]

def maxPathLength : ℕ := 4096

structure AccessPolicy where
  name : String
  allowedPaths : List String
  deniedPaths : List String
  maxDepth : ℕ

def mergeDeniedPaths (operatorPatterns : List String) : List String :=
  operatorPatterns ++ secretPathPatterns

/-- `text.length`: the number of UTF-16 units. -/
def utf16Length (text : String) : ℕ :=
  (text.toList.map fun c => if c.toNat < 0x10000 then 1 else 2).sum

/-- `micromatch.isMatch` with `dot: true`. -/
abbrev GlobEngine := String → List String → Bool

variable (isMatch : GlobEngine) (policy : AccessPolicy)

def isAllowed (filePath : String) : Bool :=
  if utf16Length filePath = 0 ∨ utf16Length filePath > maxPathLength then false
  else if filePath.toList.contains (Char.ofNat 0) then false
  else
    let normalised :=
      if ['.', '/'].isPrefixOf filePath.toList then String.ofList (filePath.toList.drop 2)
      else filePath
    if isMatch normalised (mergeDeniedPaths policy.deniedPaths) then false
    else if policy.allowedPaths = [] then false
    else isMatch normalised policy.allowedPaths

def arrayKeys : List String := ["paths", "entryPoints", "files"]

def stringKeys : List String :=
  ["path", "filePath", "testFilePath", "implementationFilePath", "workingDir"]

/-- `isAllowed` of an item: what is not a string is denied. -/
def allowsItem : Json → Bool
  | .string text => isAllowed isMatch policy text
  | _ => false

def filterItems : Json → Json
  | .array items => .array (items.filter (allowsItem isMatch policy))
  | value => value

/-- The first of the keys whose value is a path outside the policy. -/
def deniedPath (args : Dict Json) : List String → Option String
  | [] => none
  | key :: keys =>
    match args.get? key with
    | some (.string text) => if isAllowed isMatch policy text then deniedPath args keys else some text
    | _ => deniedPath args keys

def limitDepth : Json → Json
  | .number depth => .number (min depth policy.maxDepth)
  | value => value

def filterArgs (args : Dict Json) : Except String (Dict Json) :=
  let filtered := arrayKeys.foldl (fun d key => d.mapKey key (filterItems isMatch policy)) args
  match deniedPath isMatch policy filtered stringKeys with
  | some text =>
    .error ("File '" ++ text ++ "' is outside the access policy '" ++ policy.name ++ "'")
  | none => .ok (filtered.mapKey "maxDepth" (limitDepth policy))

/-- The filter of `files`: what is not a string stays. -/
def keepsFile : Json → Bool
  | .string text => isAllowed isMatch policy text
  | _ => true

/-- The filter of `definitions` and `references`. -/
def keepsEntry : Json → Bool
  | .object fields =>
    match Dict.get? fields "file" with
    | some (.string text) => isAllowed isMatch policy text
    | _ => true
  | _ => true

def filterArray (keeps : Json → Bool) : Json → Json
  | .array items => .array (items.filter keeps)
  | value => value

def isNull : Json → Bool
  | .null => true
  | _ => false

/-- The filter reads a field of each item, which throws on `null`. -/
def hasNullItem : Option Json → Bool
  | some (.array items) => items.any isNull
  | _ => false

def readError : String := "Cannot read properties of null (reading 'file')"

def filterEntries (key : String) (fields : Dict Json) : Except String (Dict Json) :=
  if hasNullItem (fields.get? key) then .error readError
  else .ok (fields.mapKey key (filterArray (keepsEntry isMatch policy)))

def filterResult : Json → Except String Json
  | .object fields =>
    let files := Dict.mapKey fields "files" (filterArray (keepsFile isMatch policy))
    (filterEntries isMatch policy "definitions" files).bind fun definitions =>
      (filterEntries isMatch policy "references" definitions).map .object
  | result => .ok result

/-- A call: the arguments the inner handler ran with, if it ran, and the answer. -/
structure Call where
  ran : Option (Dict Json)
  answer : Except String Json

/-- `reply` is what the inner handler returns or throws. -/
def handleTool (args : Dict Json) (reply : Except String Json) : Call :=
  match filterArgs isMatch policy args with
  | .error message => { ran := none, answer := .error message }
  | .ok filtered => { ran := some filtered, answer := reply.bind (filterResult isMatch policy) }

/-! The tools of the code server. -/

inductive ToolName
  | analyzeDependency | validateCode | executeSandbox | manageTask | runTdd | findSymbol
  | orchestrateAgents | indexCodebase | summarizeCodebase | autoFix | contextBudget
  | vaultValidate | vaultIndex
deriving DecidableEq

def listAt (args : Dict Json) (key : String) : List String :=
  match args.get? key with
  | some (.array items) => items.filterMap fun item =>
      match item with
      | .string text => some text
      | _ => none
  | _ => []

def textAt (args : Dict Json) (key : String) : List String :=
  match args.get? key with
  | some (.string text) => [text]
  | _ => []

/-- `task.files` of `orchestrate_agents`. -/
def taskFiles (args : Dict Json) : List String :=
  match args.get? "task" with
  | some (.object fields) => listAt fields "files"
  | _ => []

/-- The arguments of each tool that hold file or directory paths, by its input schema. -/
def ToolName.pathArguments (args : Dict Json) : ToolName → List String
  | .analyzeDependency => listAt args "entryPoints"
  | .validateCode => listAt args "paths"
  | .executeSandbox => textAt args "workingDir"
  | .manageTask => []
  | .runTdd => textAt args "testFilePath" ++ textAt args "implementationFilePath"
  | .findSymbol => listAt args "entryPoints"
  | .orchestrateAgents => taskFiles args
  | .indexCodebase => listAt args "paths"
  | .summarizeCodebase => textAt args "scope"
  | .autoFix => listAt args "paths"
  | .contextBudget => []
  | .vaultValidate => textAt args "path" ++ textAt args "repoRoot"
  | .vaultIndex => textAt args "path"

end Scope
end Batiste
