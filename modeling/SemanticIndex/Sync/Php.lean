import SemanticIndex.Text.Lowercase
import SemanticIndex.Text.Search
import SemanticIndex.Tree.Lowering

namespace SemanticIndex

abbrev Grammar := String → Parse

namespace Php

def extensions : List String := [".php", ".phtml", ".inc"]

def accepts (uri : String) : Bool :=
  let cs := (Text.lower uri).toList
  extensions.any fun e => Text.endsWith e.toList cs

def parse {ε : Type} (grammar : Grammar) (uri text : String) : Except ε Tree :=
  .ok ((grammar text).toTree uri text)

end Php

end SemanticIndex
