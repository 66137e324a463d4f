import Codegen86.Word
/-!
# Stack frames

A frame grows by words below the saved base pointer: the first slot is at offset `-1`, the next at
`-2`.  Slots are never given back.  Sizes are 32-bit.
-/

set_option autoImplicit false

namespace Codegen86

/-- The size of a frame in words. -/
structure Frame where
  words : UInt32 := 0
  deriving DecidableEq, Repr

namespace Frame

/-- Bytes in a word. -/
def wordBytes : Nat := 8

/-- Reserve one word and return its offset from the base pointer. -/
def reserve (f : Frame) : Word × Frame :=
  let words := f.words + 1
  (-Word.ofNat words.toNat, { words })

/-- Reserve a slot for a local variable, which has to fit a word. -/
def reserveBytes? (f : Frame) (bytes : Nat) : Option (Word × Frame) :=
  if wordBytes < bytes then none else some f.reserve

/-- The immediate that reserves the frame. -/
def size (f : Frame) : Word := Word.ofNat f.words.toNat

end Frame

end Codegen86
