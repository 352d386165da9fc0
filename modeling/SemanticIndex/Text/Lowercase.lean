import SemanticIndex.Text.CaseTable

namespace SemanticIndex.Text

def CaseRun.covers (r : CaseRun) (n : Nat) : Bool :=
  r.low ≤ n && n ≤ r.high && (n - r.low) % r.step == 0

def lowerSimple (c : Char) : Char :=
  if c.toNat < 0x80 then c.toLower
  else
    match caseRuns.find? (·.covers c.toNat) with
    | none => c
    | some r => Char.ofNat (c.toNat + r.shift).toNat

def inRanges (table : List (Nat × Nat)) (c : Char) : Bool :=
  table.any fun (low, high) => low ≤ c.toNat && c.toNat ≤ high

def meetsCased (cs : List Char) : Bool :=
  match cs.dropWhile (inRanges caseIgnorable) with
  | [] => false
  | c :: _ => inRanges caseBearing c

def lowerFrom (before : List Char) : List Char → List Char
  | [] => []
  | c :: cs =>
      let small :=
        if c = 'Σ' then [if meetsCased before && !meetsCased cs then 'ς' else 'σ']
        else if c = 'İ' then ['i', '\u0307']
        else [lowerSimple c]
      small ++ lowerFrom (c :: before) cs

def lower (text : String) : String :=
  String.ofList (lowerFrom [] text.toList)

end SemanticIndex.Text
