/-!
Little-endian numbers and alignment, as object files use them.
-/

namespace TensorKernels.Object

def littleEndian (count n : Nat) : List UInt8 :=
  match count with
  | 0 => []
  | count + 1 => UInt8.ofNat (n % 256) :: littleEndian count (n / 256)

@[simp] theorem length_littleEndian (count n : Nat) : (littleEndian count n).length = count := by
  induction count generalizing n with
  | zero => rfl
  | succ count ih => simp [littleEndian, ih]

def half (n : Nat) : List UInt8 := littleEndian 2 n

def word (n : Nat) : List UInt8 := littleEndian 4 n

def giant (n : Nat) : List UInt8 := littleEndian 8 n

def zeros (count : Nat) : List UInt8 := List.replicate count 0

def align (alignment position : Nat) : Nat :=
  (position + (alignment - 1)) / alignment * alignment

end TensorKernels.Object
