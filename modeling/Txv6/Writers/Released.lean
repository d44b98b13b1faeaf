import Txv6.Writers.Steps
import Txv6.Image

/-! # When ownership is released

`xobj.writer` is set by `txshadow` and cleared only when `iget` recycles an inode slot. So
the writers in the objects are active transactions exactly as long as no transaction with
something in its workset comes to an end.
-/
namespace Txv6
open Lib Lib.Prog

/-! ## Every call takes owner steps -/

namespace OwnerStep

end OwnerStep

/-! ## Runs -/

end Txv6
