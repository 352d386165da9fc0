import Mathlib.Data.List.TakeWhile
import SemanticIndex.Proofs.Index.Liveness
import SemanticIndex.Proofs.Index.SearchOrder
import SemanticIndex.Server.Lookup

namespace SemanticIndex

namespace IndexState

variable {s : IndexState} {f : File} {r : Reference} {d : Definition} {fqn : String}

namespace Consistent

end Consistent

theorem definition?_of_lookup? {candidates : List String} (h : s.lookup? candidates = some d) :
    s.definition? d.fqn = some d := by
  rw [lookup?_eq] at h
  obtain ⟨name, -, hd⟩ := List.exists_of_findSome?_eq_some h
  obtain ⟨rfl, -⟩ := definition?_spec hd
  exact hd

namespace Consistent

end Consistent

end IndexState

namespace Server

variable {α ε : Type}

end Server

end SemanticIndex
