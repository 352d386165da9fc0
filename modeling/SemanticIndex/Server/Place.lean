import SemanticIndex.Json.Value
import SemanticIndex.Record.Basic
import SemanticIndex.Url.Parse

namespace SemanticIndex.Server

def positionJson (p : Position) : Json :=
  .object [("line", .nat p.line.toNat), ("character", .nat p.character.toNat)]

def rangeJson (r : Range) : Json :=
  .object [("start", positionJson r.start), ("end", positionJson r.stop)]

def placeJson (uri : String) (range : Range) : Json :=
  .object [("uri", .string uri), ("range", rangeJson range)]

def place? (uri : String) (range : Range) : Option Json :=
  (Url.ofString? uri).map fun u => placeJson u.render range

end SemanticIndex.Server
