import SemanticIndex.Files.FileTree
import SemanticIndex.Config.Setting
import SemanticIndex.Toml.Parse

namespace SemanticIndex

structure Config.Project where
  name : String := "unnamed-project"
  deriving DecidableEq, Repr, Inhabited

structure Config.Indexing where
  glob : String := "**/*.php"
  exclude : List String := [".git/", "node_modules/", ".phpls/"]
  watch : Bool := false
  concurrency : Nat := 8
  deriving DecidableEq, Repr, Inhabited

structure Config.Cache where
  enabled : Bool := true
  path : String := ".phpls/index.db"
  deriving DecidableEq, Repr, Inhabited

structure Config.Query where
  completionLimit : Nat := 100
  deriving DecidableEq, Repr, Inhabited

structure Config.Logging where
  level : String := "info"
  format : String := "compact"
  deriving DecidableEq, Repr, Inhabited

structure Config where
  project : Config.Project := {}
  indexing : Config.Indexing := {}
  cache : Config.Cache := {}
  query : Config.Query := {}
  logging : Config.Logging := {}
  deriving DecidableEq, Repr, Inhabited

namespace Config

def fileName : String := ".phpls.toml"

def Project.ofSetting? (s : Setting) : Option Project :=
  match s.members? ["name"] with
  | some [name] => do
      let base : Project := {}
      some ⟨← Setting.read Setting.text? base.name name⟩
  | _ => none

def Indexing.ofSetting? (s : Setting) : Option Indexing :=
  match s.members? ["include", "exclude", "watch", "concurrency"] with
  | some [glob, exclude, watch, concurrency] => do
      let base : Indexing := {}
      some ⟨← Setting.read Setting.text? base.glob glob,
        ← Setting.read Setting.texts? base.exclude exclude,
        ← Setting.read Setting.flag? base.watch watch,
        ← Setting.read Setting.count? base.concurrency concurrency⟩
  | _ => none

def Cache.ofSetting? (s : Setting) : Option Cache :=
  match s.members? ["enabled", "path"] with
  | some [enabled, path] => do
      let base : Cache := {}
      some ⟨← Setting.read Setting.flag? base.enabled enabled,
        ← Setting.read Setting.text? base.path path⟩
  | _ => none

def Query.ofSetting? (s : Setting) : Option Query :=
  match s.members? ["completion_limit"] with
  | some [limit] => do
      let base : Query := {}
      some ⟨← Setting.read Setting.count? base.completionLimit limit⟩
  | _ => none

def Logging.ofSetting? (s : Setting) : Option Logging :=
  match s.members? ["level", "format"] with
  | some [level, format] => do
      let base : Logging := {}
      some ⟨← Setting.read Setting.text? base.level level,
        ← Setting.read Setting.text? base.format format⟩
  | _ => none

def ofSetting? (s : Setting) : Option Config :=
  match s.members? ["project", "indexing", "cache", "query", "logging"] with
  | some [project, indexing, cache, query, logging] => do
      some ⟨← Setting.read Project.ofSetting? {} project,
        ← Setting.read Indexing.ofSetting? {} indexing,
        ← Setting.read Cache.ofSetting? {} cache,
        ← Setting.read Query.ofSetting? {} query,
        ← Setting.read Logging.ofSetting? {} logging⟩
  | _ => none

inductive Defect where
  | emptyName
  | emptyGlob
  | zeroConcurrency
  | emptyCachePath
  | zeroCompletionLimit
  | unknownLevel (level : String)
  | unknownFormat (format : String)
  deriving DecidableEq, Repr

def Defect.message : Defect → String
  | .emptyName => "Project name cannot be empty"
  | .emptyGlob => "Include glob cannot be empty"
  | .zeroConcurrency => "Indexing concurrency must be greater than 0"
  | .emptyCachePath => "Cache path cannot be empty when the cache is enabled"
  | .zeroCompletionLimit => "Completion limit must be greater than 0"
  | .unknownLevel level => "Invalid log level: " ++ level
  | .unknownFormat format => "Invalid log format: " ++ format

def levels : List String := ["error", "warn", "info", "debug", "trace"]

def formats : List String := ["compact", "pretty", "full"]

def defect? (c : Config) : Option Defect :=
  if c.project.name.isEmpty then some .emptyName
  else if c.indexing.glob.isEmpty then some .emptyGlob
  else if c.indexing.concurrency == 0 then some .zeroConcurrency
  else if c.cache.enabled && c.cache.path.isEmpty then some .emptyCachePath
  else if c.query.completionLimit == 0 then some .zeroCompletionLimit
  else if !levels.contains c.logging.level then some (.unknownLevel c.logging.level)
  else if !formats.contains c.logging.format then some (.unknownFormat c.logging.format)
  else none

inductive Refusal where
  | malformed
  | defective (defect : Defect)
  deriving DecidableEq, Repr

def accept (read : Option Config) : Except Refusal Config :=
  match read with
  | none => .error .malformed
  | some c =>
      match c.defect? with
      | some d => .error (.defective d)
      | none => .ok c

def ofJson (j : Json) : Except Refusal Config :=
  accept (ofSetting? (.ofJson j))

def ofToml (text : String) : Except Refusal Config :=
  accept ((Toml.ofText? text).bind fun members => ofSetting? (.table (Setting.ofTomlMembers members)))

def ofProject (t : FileTree) (directory : String) : Config :=
  match t.readText? (Path.join directory fileName) with
  | none => {}
  | some text =>
      match ofToml text with
      | .ok c => c
      | .error _ => {}

def cachePath (c : Config) (directory : String) : String :=
  Path.join directory c.cache.path

end Config

end SemanticIndex
