import SemanticIndex.Url.Host

namespace SemanticIndex

open Text

structure Url.Authority where
  credentials : String
  host : Option Url.Host
  port : Option Nat
  deriving DecidableEq, Repr

structure Url where
  scheme : String
  authority : Option Url.Authority
  path : String
  query : Option String
  fragment : Option String
  deriving DecidableEq, Repr

namespace Url

inductive Family where
  | file
  | known (port : Nat)
  | unknown
  deriving DecidableEq, Repr

def Family.ofScheme (scheme : String) : Family :=
  match scheme with
  | "file" => .file
  | "http" => .known 80
  | "https" => .known 443
  | "ws" => .known 80
  | "wss" => .known 443
  | "ftp" => .known 21
  | _ => .unknown

def Family.isSpecial : Family → Bool
  | .unknown => false
  | _ => true

def Authority.text (a : Authority) : String :=
  "//" ++ a.credentials ++ ((a.host.map Host.text).getD "")
    ++ ((a.port.map fun p => ":" ++ toString p).getD "")

def render (u : Url) : String :=
  let guard := if u.authority.isNone && startsWith ['/', '/'] u.path.toList then "/." else ""
  u.scheme ++ ":" ++ ((u.authority.map Authority.text).getD "") ++ guard ++ u.path
    ++ ((u.query.map ("?" ++ ·)).getD "") ++ ((u.fragment.map ("#" ++ ·)).getD "")

end Url

end SemanticIndex
