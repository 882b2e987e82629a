import Gengo.Host.Sources

/-!
# Globs

The patterns that say which files a bundle has. The matcher tries every place where a star may end,
and takes `**/` for any text at all, also for one that stops in the middle of a name.
-/

namespace Gengo.Bundles

open List
open Bytecode (Bytes)
open Host (slash)

/-- The byte `*`. -/
def star : UInt8 :=
  42

section

variable {astray : ℕ} {pattern path : Bytes}

end

end Gengo.Bundles
