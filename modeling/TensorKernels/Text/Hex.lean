import TensorKernels.Machine.BitField

/-!
Hexadecimal text in lower case: fixed-width words and the shortest form of a number.
-/

namespace TensorKernels.Text

def hexDigit (n : Nat) : Char := Nat.digitChar (n % 16)

def hexFixed (width n : Nat) : String :=
  String.ofList ((List.range width).map fun i => hexDigit (n >>> (4 * (width - 1 - i))))

def hex (n : Nat) : String := String.ofList (Nat.toDigits 16 n)

def hexWord (w : Word) : String := hexFixed 8 w.toNat

end TensorKernels.Text
