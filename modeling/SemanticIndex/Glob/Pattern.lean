import SemanticIndex.Glob.Lexeme

namespace SemanticIndex.Glob

inductive Part where
  | char (c : Char)
  | one
  | many
  | leading
  | between
  | trailing
  | set (s : CharSet)
  | choice (branches : List (List Part))
  deriving Repr

structure Pending where
  before : List Part
  branches : List (List Part)

structure Reading where
  braces : List Pending
  parts : List Part
  last : Option Char

namespace Reading

def start : Reading := ⟨[], [], none⟩

def push (r : Reading) (part : Part) (last : Char) : Reading :=
  ⟨r.braces, part :: r.parts, some last⟩

def pushStars (r : Reading) : Reading :=
  ⟨r.braces, .many :: .many :: r.parts, some '*'⟩

def pushRun (r : Reading) (run : Part) (last : Char) : Reading :=
  match r.parts with
  | .leading :: rest => ⟨r.braces, .leading :: rest, some last⟩
  | .trailing :: rest => ⟨r.braces, .trailing :: rest, some last⟩
  | _ :: rest => ⟨r.braces, run :: rest, some last⟩
  | [] => ⟨r.braces, [run], some last⟩

def startsComponent (r : Reading) : Bool :=
  r.last == some '/' || (!r.braces.isEmpty && (r.last == some ',' || r.last == some '\x7b'))

end Reading

def endsBranch (nested : Bool) : List Lexeme → Bool
  | [] => true
  | .comma :: _ => nested
  | .closing :: _ => nested
  | _ => false

def parts? (r : Reading) : List Lexeme → Option (List Part)
  | [] => if r.braces.isEmpty then some r.parts.reverse else none
  | .plain c :: rest => parts? (r.push (.char c) c) rest
  | .escaped c :: rest => parts? (r.push (.char c) c) rest
  | .set s :: rest => parts? (r.push (.set s) ']') rest
  | .question :: rest => parts? (r.push .one '?') rest
  | .opening :: rest => parts? ⟨⟨r.parts, []⟩ :: r.braces, [], some '\x7b'⟩ rest
  | .comma :: rest =>
      match r.braces with
      | [] => parts? (r.push (.char ',') ',') rest
      | p :: outer => parts? ⟨⟨p.before, r.parts.reverse :: p.branches⟩ :: outer, [], some ','⟩ rest
  | .closing :: rest =>
      match r.braces with
      | [] => none
      | p :: outer =>
          let choice := Part.choice (r.parts.reverse :: p.branches).reverse
          parts? ⟨outer, choice :: p.before, some '\x7d'⟩ rest
  | .star :: .star :: .plain '/' :: rest =>
      if r.parts.isEmpty then parts? (r.push .leading '/') rest
      else if r.startsComponent then parts? (r.pushRun .between '/') rest
      else parts? (r.pushStars.push (.char '/') '/') rest
  | .star :: .star :: rest =>
      if r.parts.isEmpty then
        parts? (if rest.isEmpty then r.push .leading '*' else r.pushStars) rest
      else if r.startsComponent && endsBranch (!r.braces.isEmpty) rest then
        parts? (r.pushRun .trailing '*') rest
      else parts? r.pushStars rest
  | .star :: rest => parts? (r.push .many '*') rest

end SemanticIndex.Glob

namespace SemanticIndex

structure Glob where
  parts : List Glob.Part

def Glob.ofString? (text : String) : Option Glob :=
  (Glob.lex? .outside text.toList).bind fun lexemes => (Glob.parts? .start lexemes).map Glob.mk

def Glob.invalidMessage (text : String) : String := "Invalid glob: " ++ text

end SemanticIndex
