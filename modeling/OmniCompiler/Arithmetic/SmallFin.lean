import Mathlib.Algebra.GroupWithZero.Nat

/-!
# Small finite types

Coordinates and ranks of concrete nodes are literals of `Fin`. The instances that such a literal
needs are constants here.
-/
namespace OmniCompiler.SmallFin

scoped instance (priority := 2000) neZero_one : NeZero 1 := ⟨by decide⟩

scoped instance (priority := 2000) neZero_two : NeZero 2 := ⟨by decide⟩

scoped instance (priority := 2000) neZero_three : NeZero 3 := ⟨by decide⟩

scoped instance (priority := 2000) neZero_four : NeZero 4 := ⟨by decide⟩

end OmniCompiler.SmallFin
