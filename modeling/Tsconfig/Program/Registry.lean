import Tsconfig.Program.Basic

/-! Programs that are kept under ids until they are given back. The ids come from a counter of
sixty-four bits, so that none is handed out twice before the counter starts over. -/
namespace Tsconfig

/-- An id under which no program is kept. -/
structure UnknownProgram where
  id : String
  deriving DecidableEq, Repr

def UnknownProgram.message (error : UnknownProgram) : String :=
  s!"Failed to find program {error.id}"

/-- Programs by id, and the number whose numeral is the next id. -/
structure Registry where
  programs : OrderedMap Program := ∅
  next : UInt64 := 0

namespace Registry

def nextId (registry : Registry) : String := registry.next.toNat.repr

/-- Keep a program under a new id. -/
def insert (registry : Registry) (program : Program) : String × Registry :=
  (registry.nextId, ⟨registry.programs.insert registry.nextId program, registry.next + 1⟩)

/-- Build the program of the config that is asked for by `config` and keep it. -/
def create (registry : Registry) (host : Host) (finder : ReferenceFinder) (config : String) :
    Except ConfigError (String × Registry) := do
  return registry.insert (.build host finder (← ResolvedConfig.resolve host config))

def get (registry : Registry) (id : String) : Except UnknownProgram Program :=
  match registry.programs.get? id with
  | some program => .ok program
  | none => .error ⟨id⟩

/-- Without a program; ids that are not known are passed over. -/
def erase (registry : Registry) (id : String) : Registry :=
  { registry with programs := registry.programs.erase id }

/-- Without any program. Ids that were handed out are not handed out again. -/
def clear (registry : Registry) : Registry := { registry with programs := ∅ }

def size (registry : Registry) : Nat := registry.programs.size

end Registry
end Tsconfig
