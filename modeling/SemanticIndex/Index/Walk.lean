namespace SemanticIndex.Index

def walk (next : String → List String) : (fuel : Nat) → (seen queue : List String) → List String
  | 0, _, _ => []
  | _ + 1, _, [] => []
  | fuel + 1, seen, name :: queue =>
      if seen.contains name then walk next fuel seen queue
      else name :: walk next fuel (name :: seen) (queue ++ next name)

end SemanticIndex.Index
