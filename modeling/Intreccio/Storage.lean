import Intreccio.Foundation.Program
import Intreccio.Value

/-! The storage interface (`internal/storage`): an ordered byte store, and the transactions
that the catalog and the graph layer are written against.
-/

namespace Intreccio

open Kv Words

abbrev Store := OrderedMap Bytes Bytes

/-- A function of the source that takes a `storage.Txn`. -/
abbrev Txn := Program Bytes Bytes Err

def under (stem : Bytes) (key : Bytes) : Bool := stem.isPrefixOf key

/-- A key is not below a prefix that it has. -/
theorem stem_le {stem key : Bytes} (inside : under stem key = true) : stem ≤ key := by
  obtain ⟨more, rfl⟩ := List.isPrefixOf_iff_prefix.mp inside
  exact le_append stem more

/-- `txn.Scan(prefix)`, read to its end. -/
def scan (stem : Bytes) : Txn (List (Bytes × Bytes)) := Program.entries (under stem)

end Intreccio
