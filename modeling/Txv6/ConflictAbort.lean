import Txv6.Locks
import Mathlib.Data.List.FinRange

/-! # After a conflict abort

`tx_abort_now` runs the abort hooks of the workset and jumps, and nothing on this way
touches the transaction itself: its status stays `TX_ACTIVE` and its workset keeps the
entries whose shadow pages have just been freed.
-/
namespace Txv6
open Lib Lib.Prog

end Txv6
