import SemanticIndex.Glob.Pattern
import SemanticIndex.Text.Utf8

namespace SemanticIndex.Glob

def slash : UInt8 := 47

def rests : List UInt8 → List (List UInt8)
  | [] => [[]]
  | b :: bs => (b :: bs) :: rests bs

def restsOfComponent : List UInt8 → List (List UInt8)
  | [] => [[]]
  | b :: bs => (b :: bs) :: (if b == slash then [] else restsOfComponent bs)

def restsOfSlash : List UInt8 → List (List UInt8)
  | [] => []
  | b :: bs => if b == slash then bs :: restsOfSlash bs else restsOfSlash bs

def afterBytes : List UInt8 → List UInt8 → List (List UInt8)
  | [], bs => [bs]
  | _ :: _, [] => []
  | w :: ws, b :: bs => if w == b then afterBytes ws bs else []

def afterOne (ok : UInt8 → Bool) : List UInt8 → List (List UInt8)
  | [] => []
  | b :: bs => if b != slash && ok b then [bs] else []

def byteRanges (low high : Char) : List (UInt8 × UInt8) :=
  let front := Text.encode low.toString
  if low = high then front.map fun b => (b, b)
  else
    let back := Text.encode high.toString
    (front.dropLast.map fun b => (b, b))
      ++ [(front.getLastD 0, back.headD 0)]
      ++ (back.drop 1).map fun b => (b, b)

def CharSet.holds (s : CharSet) (b : UInt8) : Bool :=
  let hit := (s.ranges.flatMap fun (low, high) => byteRanges low high).any fun (l, h) => l ≤ b && b ≤ h
  hit != s.negated

mutual

def Part.isVoid : Part → Bool
  | .choice branches => allVoid branches
  | _ => false

def branchVoid : List Part → Bool
  | [] => true
  | part :: parts => part.isVoid && branchVoid parts

def allVoid : List (List Part) → Bool
  | [] => true
  | branch :: branches => branchVoid branch && allVoid branches

end

mutual

def Part.leaves : Part → List UInt8 → List (List UInt8)
  | .char c, bs => afterBytes (Text.encode c.toString) bs
  | .one, bs => afterOne (fun _ => true) bs
  | .many, bs => restsOfComponent bs
  | .leading, bs => bs :: restsOfSlash bs
  | .between, bs =>
      match bs with
      | [] => []
      | b :: bs => if b == slash then bs :: restsOfSlash bs else []
  | .trailing, bs =>
      match bs with
      | [] => []
      | b :: bs => if b == slash then rests bs else []
  | .set s, bs => afterOne s.holds bs
  | .choice branches, bs => if allVoid branches then [bs] else leavesAny branches bs

def leavesAll : List Part → List (List UInt8) → List (List UInt8)
  | [], texts => texts
  | part :: parts, texts => leavesAll parts (texts.flatMap part.leaves).eraseDups

def leavesAny : List (List Part) → List UInt8 → List (List UInt8)
  | [], _ => []
  | branch :: branches, bs =>
      (if branchVoid branch then [] else leavesAll branch [bs]) ++ leavesAny branches bs

end

end SemanticIndex.Glob

namespace SemanticIndex

def Glob.accepts (g : Glob) (path : String) : Bool :=
  match g.parts with
  | [.leading] => true
  | parts => (Glob.leavesAll parts [Text.encode path]).any List.isEmpty

end SemanticIndex
