import Mathlib.Data.List.Basic

/-!
# Shared data of the packages

Byte slices are lists of bytes. A nil slice and an empty one are told apart, by
an `Option`, only where the code compares the slice with nil.
-/

namespace Blockberry

abbrev Bytes := List UInt8

/-- A `peer.ID`; the empty string stands for no peer. -/
abbrev PeerID := String

end Blockberry
