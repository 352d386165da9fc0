import SemanticIndex.Json.Value
import SemanticIndex.Tree.Concrete

namespace SemanticIndex

structure ParsedText where
  text : String
  parse : Parse

namespace ParsedText

def natOf (j : Json) : Nat := (j.int?.getD 0).toNat

def shapeOf (row : Json) : Nat × Shape :=
  match row with
  | .array (depth :: kind :: flags :: start :: stop :: field) =>
      (natOf depth,
       { kind := kind.string?.getD ""
         named := natOf flags % 2 = 1
         missing := natOf flags / 2 % 2 = 1
         start := natOf start
         stop := natOf stop
         field := field.head?.bind Json.string? })
  | _ => (0, ⟨"", true, false, 0, 0, none⟩)

def bareRoot (text : String) : Concrete :=
  .node ⟨"program", true, false, 0, text.utf8ByteSize, none⟩ []

def ofJson (j : Json) : ParsedText :=
  let text := ((j.get? "text").bind Json.string?).getD ""
  let rows := ((j.get? "cst").bind Json.array?).getD []
  let root := (Concrete.ofPreorder (rows.map shapeOf)).head?
  ⟨text, ⟨root.getD (bareRoot text), ((j.get? "err").bind Json.bool?).getD false⟩⟩

end ParsedText

def grammarOf (known : List ParsedText) (text : String) : Parse :=
  match known.find? (·.text == text) with
  | some p => p.parse
  | none => ⟨ParsedText.bareRoot text, false⟩

end SemanticIndex
