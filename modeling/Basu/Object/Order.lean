import Basu.Object.Laws

/-! The whole walk: the passes over the paths, and what holds of every walk of
`bus_process_object`. -/

namespace Basu
open Lib
open Function

def consultOrder (path : Str) : List (Str × Bool) :=
  (path, false) :: (objectPathPrefixes path).map fun p => (p, true)

section
variable {env : WalkEnv} {wb : WalkBus} {m : ObjectCall} {w : Walk}

end

end Basu
