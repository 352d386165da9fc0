namespace SemanticIndex.Server

def dropRepeats (same : α → α → Bool) : List α → List α
  | [] => []
  | a :: rest => a :: dropRepeats same (rest.dropWhile (same a))
termination_by l => l.length
decreasing_by
  simp only [List.length_cons]
  have := (List.dropWhile_sublist (l := rest) (same a)).length_le
  omega

def sortByText (key : α → String) (items : List α) : List α :=
  items.mergeSort fun a b => !decide (key b < key a)

end SemanticIndex.Server
