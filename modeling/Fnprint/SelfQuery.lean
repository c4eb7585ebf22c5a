import Fnprint.LowSignal
import Fnprint.RoundTrip
import Fnprint.SelfDiff

/-!
# A binary against its own corpus

The target of a query has no group and the rows of a corpus have the name of
their binary.  As long as there is one binary the name makes no difference to
the alignment, so an index queried against the file it was written to pairs
every usable function with itself.
-/

namespace Fnprint

open Binary64 StableSort KeyMap

/-! ## One group or another -/

section Group

variable {a n : List Node} {g : String}

end Group

/-! ## The query -/

section OwnCorpus

variable {a : List IndexedFunc} {binary : String} {recs : List FuncRec}

end OwnCorpus

end Fnprint
