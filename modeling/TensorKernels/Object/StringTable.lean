import TensorKernels.Object.Bytes

/-!
String tables. The table starts with a zero byte and holds each distinct string once, followed by a
zero byte. A string that ends another one is not stored again but found inside it: strings are
stored by falling order of their reversed bytes, which puts every string directly behind those it
ends.
-/

namespace TensorKernels.Object

structure StringTable where
  bytes : List UInt8
  offsets : List (List UInt8 × Nat)
  deriving DecidableEq, Repr

namespace StringTable

def bytesLE : List UInt8 → List UInt8 → Bool
  | [], _ => true
  | _ :: _, [] => false
  | a :: as, b :: bs => a < b || (a == b && bytesLE as bs)

def storedBefore (s t : List UInt8) : Bool := bytesLE t.reverse s.reverse

structure Builder where
  table : StringTable
  last : List UInt8

/-- Adds a string, or finds it at the end of the one stored last. -/
def Builder.add (b : Builder) (s : List UInt8) : Builder :=
  let position := b.table.bytes.length
  if s.isSuffixOf b.last then
    { b with table.offsets := b.table.offsets ++ [(s, position - s.length - 1)] }
  else
    ⟨⟨b.table.bytes ++ s ++ [0], b.table.offsets ++ [(s, position)]⟩, s⟩

def ofStrings (strings : List (List UInt8)) : StringTable :=
  ((strings.eraseDups.mergeSort storedBefore).foldl Builder.add ⟨⟨[0], []⟩, []⟩).table

def offset (t : StringTable) (s : List UInt8) : Nat := (t.offsets.lookup s).getD 0

def size (t : StringTable) : Nat := t.bytes.length

end StringTable

end TensorKernels.Object
