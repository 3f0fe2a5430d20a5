import Xv6.Lib.Bytes
import Xv6.Param

/-! Disk blocks. -/

namespace Xv6
open Lib

abbrev Block : Type := Bytes BSIZE

abbrev Disk : Type := Nat → Block

end Xv6
