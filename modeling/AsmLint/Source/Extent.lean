import AsmLint.Text.Utf8

/-! Stretches of a text, given by where they start and where they stop. The unit is characters
unless a name says bytes. -/

namespace AsmLint

structure Extent where
  start : Nat
  stop : Nat
deriving DecidableEq, Repr

namespace Extent

def length (extent : Extent) : Nat := extent.stop - extent.start

def slice (extent : Extent) (text : List Char) : List Char :=
  (text.drop extent.start).take extent.length

def toBytes (extent : Extent) (text : List Char) : Extent :=
  ⟨byteOffset text extent.start, byteOffset text extent.stop⟩

end Extent

def insideAny (extents : List Extent) (start length : Nat) : Bool :=
  extents.any fun extent => extent.start ≤ start && start + length ≤ extent.stop

end AsmLint
