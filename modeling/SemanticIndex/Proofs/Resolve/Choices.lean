import Mathlib.Logic.Function.Basic
import Mathlib.Tactic.SplitIfs
import SemanticIndex.Resolve.Referenced

namespace SemanticIndex

inductive Choices : List String → Prop where
  | none : Choices []
  | one (name : String) : Choices [name]
  | two {name fallback : String} (h : name ≠ fallback) : Choices [name, fallback]

namespace Choices

variable {names : List String}

theorem of_option (name : Option String) : Choices name.toList := by
  cases name with
  | none => exact .none
  | some name => exact .one name

theorem map (h : Choices names) {f : String → String} (hf : Function.Injective f) :
    Choices (names.map f) := by
  cases h with
  | none => exact .none
  | one name => exact .one (f name)
  | two hne => exact .two (hf.ne hne)

end Choices

namespace NameContext

variable {context : NameContext} {name : String}

theorem qualify_ne_self (h : context.space.isEmpty = false) : context.qualify name ≠ name := by
  intro he
  have hlength := congrArg String.length he
  rw [qualify, Fqn.qualify, if_neg (by simp [h]), String.length_append, String.length_append]
    at hlength
  have hone : "\\".length = 1 := by decide
  omega

theorem choices_resolvePlain (context : NameContext) (raw : String)
    (imports : List (String × String)) (fold : String → String) :
    Choices (context.resolvePlain raw imports fold) := by
  unfold resolvePlain
  generalize Text.trim raw.toList = cs
  dsimp only
  split
  · exact .none
  · split
    · exact .one _
    · split
      · exact .one _
      · split
        · exact .of_option _
        · split
          · exact .one _
          · split
            · exact .one _
            · next hspace => exact .two (qualify_ne_self (by simpa using hspace))

theorem choices_resolveConstant (context : NameContext) (raw : String) :
    Choices (context.resolveConstant raw) := by
  unfold resolveConstant
  split
  · exact .none
  · exact choices_resolvePlain ..

theorem choices_resolveFunction (context : NameContext) (raw : String) :
    Choices (context.resolveFunction raw) :=
  (choices_resolvePlain ..).map fun _ _ h => String.append_left_inj _ |>.mp h

end NameContext

namespace Resolve

variable (t : Tree) (n : Nat) (context : NameContext)

theorem choices_nameUsage : Choices (nameUsage t n context) := by
  have hclass : Choices (context.resolveClass (t.text n)).toList := .of_option _
  have hconstant := context.choices_resolveConstant (t.text n)
  cases hp : t.parent n with
  | none =>
    simp only [nameUsage, hp]
    exact .none
  | some p =>
    simp only [nameUsage, hp]
    generalize (context.resolveClass (t.text n)).toList = asClass at hclass ⊢
    generalize context.resolveConstant (t.text n) = asConstant at hconstant ⊢
    cases t.kind p <;> dsimp only <;> split_ifs <;> first | assumption | exact .none

theorem choices_scopedMember (kind : NodeKind) (member : String → String → String) :
    Choices (scopedMember t n context kind member) := by
  unfold scopedMember
  dsimp only
  split
  · exact .one _
  · exact .none

theorem choices_ownMember (member : String → String → String) :
    Choices (ownMember t n context member) := by
  unfold ownMember
  dsimp only
  split
  · exact .one _
  · exact .none

theorem choices_classConstant : Choices (classConstant t n context) := by
  unfold classConstant
  repeat' split
  case h_1 => exact .one _
  all_goals exact .none

theorem choices_referencedIn : Choices (referencedIn t n context) := by
  unfold referencedIn
  split
  case h_1 | h_2 => exact choices_nameUsage t n context
  case h_3 =>
    split
    · exact context.choices_resolveFunction _
    · exact .none
  case h_4 | h_6 => exact choices_scopedMember t n context _ _
  case h_5 => exact choices_classConstant t n context
  case h_7 | h_8 => exact choices_ownMember t n context _
  case h_9 =>
    split
    · exact .one _
    · exact .one _
    · exact .none
  case h_10 => exact .none

end Resolve

end SemanticIndex
