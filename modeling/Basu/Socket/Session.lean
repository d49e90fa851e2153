import Basu.Socket.Peers
import Basu.Socket.Read

/-! From authentication to messages: what an end that runs makes of what the other one sends. -/

namespace Basu
open Lib

end Basu
