import Mathlib.Data.List.Basic

/-!
Texts as bytes: each text has bytes of its own, from which it is read back.
-/
namespace Parley

theorem fromUTF8?_toUTF8 (s : String) : String.fromUTF8? s.toUTF8 = some s := dif_pos s.isValidUTF8

end Parley
