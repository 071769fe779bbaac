import Rollcall.Node

namespace Rollcall

abbrev Filter := List Node → List Node

namespace Filter

def version (v : String) : Filter := fun ns => ns.filter fun n => n.version = v

def metadata (key value : String) : Filter :=
  fun ns => ns.filter fun n => n.metadata.get? key = some value

/-- Applies filters in turn, for as long as a node is left. -/
def applyAll : List Filter → List Node → List Node
  | [], ns => ns
  | f :: fs, ns => if ns = [] then [] else applyAll fs (f ns)

end Filter

end Rollcall
