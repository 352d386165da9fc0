import SemanticIndex.Command.Args
import SemanticIndex.Command.Run
import SemanticIndex.Command.World
import SemanticIndex.Json.Text
import SemanticIndex.Server.Lifecycle

open SemanticIndex

namespace SemanticIndex.Main

def codeOf : Rpc.Ending → UInt32
  | .exit code => code.toUInt32
  | .unreadable => 1

partial def serve (h : Rpc.Handler ServerHost) (c : Rpc.Connection ServerHost)
    (input output : IO.FS.Stream) : IO UInt32 := do
  match c.ending with
  | some ending => return codeOf ending
  | none =>
      let line ← input.getLine
      if line.isEmpty then return codeOf c.close
      let (replies, c) := c.line h line.toList
      for r in replies do
        output.putStrLn r.toJson.render
      output.flush
      serve h c input output

def worldAt (path : String) : IO World := do
  let text ← IO.FS.readFile path
  return World.ofJson ((Json.parse? text).getD .null)

def runIn (w : World) : Command.Invocation → IO UInt32
  | .serve project => do
      let defaults := match project with
        | some directory => Config.ofProject w.disk directory
        | none => {}
      serve (Server.handler w.grammar default) (.start ⟨.start defaults, w.disk⟩)
        (← IO.getStdin) (← IO.getStdout)
  | .run project command => do
      let setup : Command.Setup := ⟨w.grammar, default, 0⟩
      let disk := match command with
        | .index _ => w.disk
        | _ => (Command.run setup w.disk project (.index false)).2
      let (transcript, _) := Command.run setup disk project command
      for line in transcript.lines do
        IO.println line
      match transcript.failure with
      | some f => do
          IO.eprintln ("Error: " ++ f.message)
          return 1
      | none => return 0

end SemanticIndex.Main

def main (args : List String) : IO UInt32 := do
  match args with
  | [] => SemanticIndex.Main.runIn ⟨.empty, []⟩ (.serve none)
  | path :: rest =>
      match SemanticIndex.Command.Invocation.ofList? rest with
      | some invocation => SemanticIndex.Main.runIn (← SemanticIndex.Main.worldAt path) invocation
      | none => do
          IO.eprintln "usage: FILE [serve | index | stats | query KIND NAME] [--project DIR]"
          return 2
