import TensorKernels.Machine.BitField

/-!
Code on its way to executable memory. Words are appended to a pending sequence; mapping a buffer
moves the pending words into executable memory in place of what was mapped before. While words are
pending they are the buffer's contents, otherwise the mapped code is.
-/

namespace TensorKernels

structure CodeBuffer where
  pending : Array Word := #[]
  mapped : Option (Array Word) := none
  deriving DecidableEq, Repr

namespace CodeBuffer

def append (b : CodeBuffer) (w : Word) : CodeBuffer := { b with pending := b.pending.push w }

def extend (b : CodeBuffer) (ws : Array Word) : CodeBuffer := { b with pending := b.pending ++ ws }

def map (b : CodeBuffer) : CodeBuffer :=
  if b.pending.isEmpty then b else ⟨#[], some b.pending⟩

def words (b : CodeBuffer) : Array Word :=
  if b.pending.isEmpty then b.mapped.getD #[] else b.pending

def size (b : CodeBuffer) : Nat := b.words.size

def isEmpty (b : CodeBuffer) : Bool := b.size == 0

def isMapped (b : CodeBuffer) : Bool := b.mapped.isSome

/-- Whether the mapped code can be called through a type of the given number of machine words, which
has to be the size of an address. -/
def callableAs (b : CodeBuffer) (typeWords : Nat) : Bool := b.isMapped && typeWords == 1

def ofWords (ws : Array Word) : CodeBuffer := (CodeBuffer.extend {} ws).map

@[simp] theorem words_ofWords (ws : Array Word) : (ofWords ws).words = ws := by
  by_cases h : ws = #[] <;> simp [ofWords, extend, map, words, h]

theorem isMapped_ofWords (ws : Array Word) : (ofWords ws).isMapped = !ws.isEmpty := by
  by_cases h : ws = #[] <;> simp [ofWords, extend, map, isMapped, h]

def wordBytes (w : Word) : List UInt8 :=
  [0, 8, 16, 24].map fun shift => UInt8.ofNat ((w.toNat >>> shift) % 256)

@[simp] theorem length_wordBytes (w : Word) : (wordBytes w).length = 4 := rfl

def bytes (b : CodeBuffer) : List UInt8 := b.words.toList.flatMap wordBytes

theorem length_bytes (b : CodeBuffer) : b.bytes.length = 4 * b.size := by
  rw [size, ← Array.length_toList, bytes]
  induction b.words.toList with
  | nil => rfl
  | cons w ws ih => simp [ih, Nat.mul_add, Nat.add_comm]

end CodeBuffer

end TensorKernels
