import TensorKernels.Overflow

/-!
Instruction words and the bit fields inside them. `place` masks a value to the field and moves it
into position, `extract` reads it back. Both are total; the checked forms refuse a field whose
position lies outside the word, naming the shift or subtraction that fails first.
-/

namespace TensorKernels

abbrev Word := BitVec 32

/-- The bits `lsb, …, lsb + width - 1` of a word. -/
structure BitField where
  lsb : Nat
  width : Nat
  deriving DecidableEq, Repr

namespace BitField

def mask (f : BitField) : Word :=
  if 32 ≤ f.width then BitVec.allOnes 32 else (1#32 <<< f.width) - 1#32

def place (f : BitField) (v : Word) : Word := (v &&& f.mask) <<< f.lsb

def extract (f : BitField) (w : Word) : Word := (w >>> f.lsb) &&& f.mask

/-- The field as a two's complement value: its top bit is moved to bit 31 and the word is shifted
back arithmetically. -/
def extractSigned (f : BitField) (w : Word) : Int :=
  ((f.extract w <<< (32 - f.width)).sshiftRight (32 - f.width)).toInt

def put (f : BitField) (n : Nat) : Word := f.place (BitVec.ofNat 32 n)

def putInt (f : BitField) (z : Int) : Word := f.place (BitVec.ofInt 32 z)

def placeChecked (f : BitField) (v : Word) : Except Overflow Word :=
  if f.lsb < 32 then .ok (f.place v) else .error .shiftLeft

def extractChecked (f : BitField) (w : Word) : Except Overflow Word :=
  if f.lsb < 32 then .ok (f.extract w) else .error .shiftRight

def extractSignedChecked (f : BitField) (w : Word) : Except Overflow Int := do
  let _ ← f.extractChecked w
  if 32 < f.width then .error .sub
  else if f.width = 0 then .error .shiftLeft
  else .ok (f.extractSigned w)

def rd : BitField := ⟨0, 5⟩
def rt : BitField := ⟨0, 5⟩
def rn : BitField := ⟨5, 5⟩
def rt2 : BitField := ⟨10, 5⟩
def ra : BitField := ⟨10, 5⟩
def rm : BitField := ⟨16, 5⟩
def sf : BitField := ⟨31, 1⟩
def q : BitField := ⟨30, 1⟩
def sz : BitField := ⟨22, 1⟩
def shift : BitField := ⟨22, 2⟩
def sh : BitField := ⟨22, 1⟩
def n : BitField := ⟨22, 1⟩
def imm6 : BitField := ⟨10, 6⟩
def immr : BitField := ⟨16, 6⟩
def imms : BitField := ⟨10, 6⟩
def imm7 : BitField := ⟨15, 7⟩
def imm9 : BitField := ⟨12, 9⟩
def imm12 : BitField := ⟨10, 12⟩
def imm16 : BitField := ⟨5, 16⟩
def hw : BitField := ⟨21, 2⟩
def imm19 : BitField := ⟨5, 19⟩
def imm26 : BitField := ⟨0, 26⟩
def load : BitField := ⟨22, 1⟩
def pairMode : BitField := ⟨23, 2⟩
def singleMode : BitField := ⟨10, 2⟩
def laneS : BitField := ⟨12, 1⟩
def elemL : BitField := ⟨21, 1⟩
def elemH : BitField := ⟨11, 1⟩
def post : BitField := ⟨23, 1⟩

end BitField

end TensorKernels
