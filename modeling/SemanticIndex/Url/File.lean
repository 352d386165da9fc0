import SemanticIndex.Files.Path
import SemanticIndex.Url.Parse

namespace SemanticIndex

open Text

namespace Url

def isLocal (u : Url) : Bool :=
  match u.authority.bind Authority.host with
  | none => true
  | some host => host == .domain "localhost"

def closeDrive (path : List Char) : List Char :=
  if path.length > 2 && isDrive (path.drop (path.length - 2)) then path ++ ['/'] else path

def path? (u : Url) : Option String :=
  if u.isLocal && startsWith ['/'] u.path.toList then
    some (String.ofList (closeDrive (decodeLossy (percentDecode u.path.toList))))
  else none

end Url

def pathOfUri? (uri : String) : Option String :=
  (Url.ofString? uri).bind Url.path?

def uriOfPath? (path : String) : Option String :=
  if Path.isAbsolute path then
    let parts := (Path.literal path).map (Url.percentEncode Url.componentSet)
    some ("file:///" ++ String.ofList (List.intercalate ['/'] parts))
  else none

end SemanticIndex
