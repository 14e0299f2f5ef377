import Blockberry.Lib.KeyValue
import Blockberry.Types.Basic

/-!
# Databases

LevelDB and Badger keep byte strings under byte strings, in the order of the keys. What is used of
them is their documented behaviour: a value is read as it was last written, a batch takes effect as
a whole, and an iterator goes through the keys in order as they were when it was made. It is
assumed here, not taken from the code of the two packages, and so is that no call on them fails.
-/

namespace Blockberry

open KeyValue

abbrev Database := Std.TreeMap Bytes Bytes compare

/-- Writes that take effect together. -/
abbrev Batch := List (Write Bytes Bytes)

end Blockberry
