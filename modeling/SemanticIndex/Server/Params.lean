import SemanticIndex.Json.Fields
import SemanticIndex.Server.Call

namespace SemanticIndex.Server

open Json

def url? (j : Json) : Option Url := j.string?.bind Url.ofString?

def uri? (j : Json) : Option String := (url? j).map Url.render

def position? (j : Json) : Option Position :=
  match j.fields? ["line", "character"] with
  | some [line, character] => do some ⟨← required word32? line, ← required word32? character⟩
  | _ => none

def range? (j : Json) : Option Range :=
  match j.fields? ["start", "end"] with
  | some [start, stop] => do some ⟨← required position? start, ← required position? stop⟩
  | _ => none

def document? (j : Json) : Option String :=
  match j.fields? ["uri"] with
  | some [uri] => required uri? uri
  | _ => none

def isToken (j : Json) : Bool := j.int32?.isSome || j.string?.isSome

def token? (j : Json) : Option Unit := if isToken j then some () else none

def withTokens (tokens names : List String) (j : Json) : Option (List (Option Json)) := do
  let found ← j.named? tokens
  let _ ← found.mapM (optional token?)
  j.named? names

def workToken : String := "workDoneToken"

def partialToken : String := "partialResultToken"

def cursorOf? : List (Option Json) → Option Cursor
  | [document, position] => do some ⟨← required document? document, ← required position? position⟩
  | _ => none

def Cursor.ofJson? (j : Json) : Option Cursor :=
  (j.fields? ["textDocument", "position"]).bind cursorOf?

def cursorWith? (tokens : List String) (j : Json) : Option Cursor :=
  (withTokens tokens ["textDocument", "position"] j).bind cursorOf?

def includeDeclaration? (j : Json) : Option Bool :=
  match j.fields? ["includeDeclaration"] with
  | some [flag] => required bool? flag
  | _ => none

def ReferenceSearch.ofJson? (j : Json) : Option ReferenceSearch := do
  let cursor ← cursorWith? [workToken, partialToken] j
  some ⟨cursor, ← required includeDeclaration? (j.get? "context")⟩

def trigger? (j : Json) : Option Unit :=
  match j.fields? ["triggerKind", "triggerCharacter"] with
  | some [kind, character] => do
      let _ ← required int32? kind
      let _ ← optional string? character
      some ()
  | _ => none

def completionCursor? (j : Json) : Option Cursor := do
  let cursor ← cursorWith? [workToken, partialToken] j
  let _ ← optional trigger? (j.get? "context")
  some cursor

def symbolsDocument? (j : Json) : Option String :=
  match withTokens [workToken, partialToken] ["textDocument"] j with
  | some [document] => required document? document
  | _ => none

def opened? (j : Json) : Option Revision :=
  match j.fields? ["uri", "languageId", "version", "text"] with
  | some [uri, language, version, text] => do
      let _ ← required string? language
      some ⟨← required uri? uri, ← required int32? version, ← required string? text⟩
  | _ => none

def Revision.ofOpening? (j : Json) : Option Revision :=
  match j.fields? ["textDocument"] with
  | some [document] => required opened? document
  | _ => none

def versioned? (j : Json) : Option (String × Int) :=
  match j.fields? ["uri", "version"] with
  | some [uri, version] => do some (← required uri? uri, ← required int32? version)
  | _ => none

def change? (j : Json) : Option String :=
  match j.fields? ["range", "rangeLength", "text"] with
  | some [range, length, text] => do
      let _ ← optional range? range
      let _ ← optional word32? length
      required string? text
  | _ => none

def changes? (j : Json) : Option (List String) := j.array?.bind fun items => items.mapM change?

def Changes.ofJson? (j : Json) : Option Changes :=
  match j.fields? ["textDocument", "contentChanges"] with
  | some [document, changes] => do
      let (uri, version) ← required versioned? document
      some ⟨uri, version, ← required changes? changes⟩
  | _ => none

def closed? (j : Json) : Option String :=
  match j.fields? ["textDocument"] with
  | some [document] => required document? document
  | _ => none

def FileChange.ofJson? (j : Json) : Option FileChange :=
  match j.fields? ["uri", "type"] with
  | some [uri, kind] => do some ⟨← required uri? uri, ← required int32? kind⟩
  | _ => none

def fileChanges? (j : Json) : Option (List FileChange) :=
  match j.fields? ["changes"] with
  | some [changes] =>
      required (fun c => c.array?.bind fun items => items.mapM FileChange.ofJson?) changes
  | _ => none

def folder? (j : Json) : Option Url :=
  match j.fields? ["uri", "name"] with
  | some [uri, name] => do
      let _ ← required string? name
      required url? uri
  | _ => none

def folders? (j : Json) : Option (List Url) := j.array?.bind fun items => items.mapM folder?

def trace? (j : Json) : Option String :=
  j.string?.filter fun s => ["off", "messages", "verbose"].contains s

def clientInfo? (j : Json) : Option Unit :=
  match j.fields? ["name", "version"] with
  | some [name, version] => do
      let _ ← required string? name
      let _ ← optional string? version
      some ()
  | _ => none

def section? : Json → Option Unit
  | .object _ => some ()
  | .array _ => some ()
  | _ => none

def capabilities? (j : Json) : Option Unit := do
  let sections ← j.named? ["workspace", "textDocument", "notebookDocument", "window", "general"]
  let _ ← sections.mapM (optional section?)
  some ()

def Client.ofJson? (j : Json) : Option Client :=
  match withTokens [workToken] ["processId", "rootPath", "rootUri", "capabilities", "trace",
      "workspaceFolders", "clientInfo", "locale"] j with
  | some [process, path, root, capabilities, trace, folders, info, locale] => do
      let _ ← optional word32? process
      let _ ← optional string? path
      let root ← optional url? root
      let _ ← required capabilities? capabilities
      let _ ← optional trace? trace
      let folders ← optional folders? folders
      let _ ← optional clientInfo? info
      let _ ← optional string? locale
      some ⟨root, folders⟩
  | _ => none

def orMalformed (reader : Json → Option α) (params : Json) : Except String α :=
  (reader params).elim (.error "Malformed parameters") .ok

def Readers.standard : Readers where
  client := orMalformed Client.ofJson?
  symbols := orMalformed symbolsDocument?
  definition := orMalformed (cursorWith? [workToken, partialToken])
  references := orMalformed ReferenceSearch.ofJson?
  hover := orMalformed (cursorWith? [workToken])
  completion := orMalformed completionCursor?
  symbolDefinition := orMalformed Cursor.ofJson?
  opened := orMalformed Revision.ofOpening?
  changed := orMalformed Changes.ofJson?
  closed := orMalformed closed?
  fileChanges := orMalformed fileChanges?

end SemanticIndex.Server
