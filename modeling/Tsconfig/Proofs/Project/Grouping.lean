import Tsconfig.Project

/-!
Grouping is a partition. The configs take turns: each takes the files that are roots of it, in their
order, and leaves the others to the configs behind it.
-/
namespace Tsconfig.Project

section Turns
variable {skipped : List (String × ConfigError)} {first : String × ResolvedConfig}
  {configs : List (String × ResolvedConfig)} {file : String}

end Turns

section Overlapping

end Overlapping

end Tsconfig.Project
