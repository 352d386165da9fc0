import SemanticIndex.Command.Basic

namespace SemanticIndex.Command

inductive Invocation where
  | serve (project : Option String)
  | run (project : String) (command : Command)
  deriving DecidableEq, Repr

structure Arguments where
  project : Option String
  format : Option String
  flags : List String
  rest : List String
  deriving DecidableEq, Repr

def Arguments.ofList? : List String → Option Arguments
  | [] => some ⟨none, none, [], []⟩
  | [a] =>
      if ["-p", "--project", "-f", "--format"].contains a then none
      else if Text.startsWith ['-'] a.toList then some ⟨none, none, [a], []⟩
      else some ⟨none, none, [], [a]⟩
  | a :: b :: more =>
      if a == "-p" || a == "--project" then
        (ofList? more).map fun args => { args with project := args.project.or (some b) }
      else if a == "-f" || a == "--format" then
        (ofList? more).map fun args => { args with format := args.format.or (some b) }
      else if Text.startsWith ['-'] a.toList then
        (ofList? (b :: more)).map fun args => { args with flags := a :: args.flags }
      else (ofList? (b :: more)).map fun args => { args with rest := a :: args.rest }

def Arguments.has (args : Arguments) (short long : String) : Bool :=
  args.flags.contains short || args.flags.contains long

def Invocation.ofList? (list : List String) : Option Invocation := do
  let args ← Arguments.ofList? list
  let project := args.project.getD "/"
  match args.rest with
  | [] => some (.serve args.project)
  | ["serve"] => some (.serve args.project)
  | ["index"] => some (.run project (.index (args.has "-r" "--rebuild")))
  | ["stats"] => some (.run project (.stats (args.has "-v" "--verbose")))
  | ["query", kind, target] => some (.run project (.query kind target (args.format.getD "text")))
  | [directory] => some (.serve (some directory))
  | _ => none

end SemanticIndex.Command
