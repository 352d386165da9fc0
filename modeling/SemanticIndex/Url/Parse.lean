import SemanticIndex.Url.Segments

namespace SemanticIndex.Url

open Text

def clean (text : String) : List Char :=
  let ignored (c : Char) := c.toNat ≤ 32
  let core := ((text.toList.dropWhile ignored).reverse.dropWhile ignored).reverse
  core.filter fun c => c != '\t' && c != '\n' && c != '\r'

def isSchemeChar (c : Char) : Bool :=
  c.isAlphanum || c == '+' || c == '-' || c == '.'

def scheme? (cs : List Char) : Option (String × List Char) :=
  match splitOnce? ':' cs with
  | some (front, rest) =>
      if (front.head?.any Char.isAlpha) && front.all isSchemeChar then
        some (String.ofList (front.map Char.toLower), rest)
      else none
  | none => none

def cutTail (cs : List Char) : List Char × List Char :=
  cs.span fun c => c != '?' && c != '#'

def queryOf (special : Bool) (tail : List Char) : Option String :=
  (after? ['?'] tail).map fun rest =>
    String.ofList (percentEncode (if special then specialQuerySet else querySet)
      (rest.takeWhile (· != '#')))

def fragmentOf (tail : List Char) : Option String :=
  (splitOnce? '#' tail).map fun (_, rest) => String.ofList (percentEncode fragmentSet rest)

def cutAuthority (special : Bool) (cs : List Char) : List Char × List Char :=
  cs.span fun c => c != '/' && c != '?' && c != '#' && !(special && c == '\\')

def splitUser (authority : List Char) : Option (List Char) × List Char :=
  let host := afterLast '@' authority
  if authority.contains '@' then (some (authority.take (authority.length - host.length - 1)), host)
  else (none, authority)

def credentialsText (user : List Char) : String :=
  let (name, password) := (splitOnce? ':' user).getD (user, [])
  if name.isEmpty && password.isEmpty then ""
  else
    String.ofList (percentEncode userSet name
      ++ (if password.isEmpty then [] else ':' :: percentEncode userSet password) ++ ['@'])

def cutHost : (inside : Bool) → List Char → List Char × List Char
  | _, [] => ([], [])
  | inside, c :: cs =>
      if c = ':' ∧ !inside then ([], c :: cs)
      else
        let inside := if c = '[' then true else if c = ']' then false else inside
        let (host, rest) := cutHost inside cs
        (c :: host, rest)

def port? (family : Family) (text : List Char) : Option (Option Nat × List Char) :=
  match text with
  | ':' :: cs =>
      let (digits, rest) := cs.span Char.isDigit
      match number? 10 digits with
      | none => none
      | some n =>
          if 65535 < n || (!rest.isEmpty && rest.head? != some '\\') then none
          else if digits.isEmpty || family == .known n then some (none, rest)
          else some (some n, rest)
  | _ => some (none, text)

def host? (family : Family) (text : List Char) (portFollows : Bool) : Option (Option Host) :=
  if text.isEmpty then if family.isSpecial || portFollows then none else some none
  else if family.isSpecial then (Host.ofText? text).map some
  else (Host.ofUnknownText? text).map some

def authority? (family : Family) (cs : List Char) : Option (Authority × List Char) :=
  let (text, rest) := cutAuthority family.isSpecial cs
  let (user, text) := splitUser text
  if user == some [] && text.isEmpty && !rest.isEmpty then none
  else
    let credentials := (user.map credentialsText).getD ""
    let (hostText, portText) := cutHost false text
    match host? family hostText (startsWith [':'] portText), port? family portText with
    | some host, some (port, left) =>
        if host.isNone && credentials != "" then none
        else some (⟨credentials, host, port⟩, left ++ rest)
    | _, _ => none

def finish (scheme : String) (family : Family) (authority : Option Authority) (path : String)
    (tail : List Char) : Url :=
  ⟨scheme, authority, path, queryOf family.isSpecial tail, fragmentOf tail⟩

def fileHost? (text : List Char) : Option (Option Host) :=
  if text.isEmpty then some none
  else
    (Host.ofText? text).map fun host =>
      if host == .domain "localhost" then none else some host

def fileUrl (host : Option Host) (cs : List Char) : Url :=
  let (text, tail) := cutTail cs
  let (path, drive) := readPath .file text
  finish "file" .file (some ⟨"", if drive then none else host, none⟩) path tail

def ofFile? (cs : List Char) : Option Url :=
  match replaceChar '\\' '/' (cs.take 2) with
  | ['/', '/'] =>
      let (hostText, rest) := cutAuthority true (cs.drop 2)
      if isDrive hostText then some (fileUrl none (cs.drop 2))
      else (fileHost? hostText).map fun host => fileUrl host rest
  | _ => some (fileUrl none cs)

def isSlash (c : Char) : Bool := c == '/' || c == '\\'

def ofKnown? (scheme : String) (family : Family) (cs : List Char) : Option Url :=
  (authority? family (cs.dropWhile isSlash)).map fun (authority, rest) =>
    let (text, tail) := cutTail rest
    finish scheme family (some authority) (readPath family text).1 tail

def ofUnknown? (scheme : String) (cs : List Char) : Option Url :=
  match after? ['/', '/'] cs with
  | some cs =>
      (authority? .unknown cs).map fun (authority, rest) =>
        let (text, tail) := cutTail rest
        finish scheme .unknown (some authority)
          (if text.isEmpty then "" else (readPath .unknown text).1) tail
  | none =>
      let (text, tail) := cutTail cs
      some (finish scheme .unknown none
        (if startsWith ['/'] text then (readPath .unknown text).1
         else String.ofList (percentEncode controlSet text)) tail)

def ofString? (text : String) : Option Url :=
  (scheme? (clean text)).bind fun (scheme, rest) =>
    match Family.ofScheme scheme with
    | .file => ofFile? rest
    | .known port => ofKnown? scheme (.known port) rest
    | .unknown => ofUnknown? scheme rest

end SemanticIndex.Url
