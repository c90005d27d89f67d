/-!
Counts are 64-bit: sizes, strides, offsets and totals are natural numbers below `Count.limit`, and
an operation whose exact result does not fit is refused with the operation that overflowed. The
first overflow in evaluation order is the one reported, so callers bind operands in order.
-/

namespace TensorKernels

inductive Overflow
  | add
  | sub
  | mul
  | shiftLeft
  | shiftRight
  deriving DecidableEq, Repr

def Overflow.message : Overflow → String
  | .add => "attempt to add with overflow"
  | .sub => "attempt to subtract with overflow"
  | .mul => "attempt to multiply with overflow"
  | .shiftLeft => "attempt to shift left with overflow"
  | .shiftRight => "attempt to shift right with overflow"

namespace Count

def limit : Nat := 0x10000000000000000

def add (a b : Nat) : Except Overflow Nat :=
  if a + b < limit then .ok (a + b) else .error .add

def mul (a b : Nat) : Except Overflow Nat :=
  if a * b < limit then .ok (a * b) else .error .mul

def product (factors : List Nat) : Except Overflow Nat :=
  factors.foldlM mul 1

theorem checked_eq_ok_iff {n c : Nat} {overflow : Overflow} :
    (if n < limit then Except.ok n else .error overflow) = .ok c ↔ n = c ∧ c < limit := by
  split
  · constructor
    · intro h
      cases h
      exact ⟨rfl, by assumption⟩
    · rintro ⟨rfl, _⟩
      rfl
  · constructor
    · intro h
      cases h
    · rintro ⟨rfl, h⟩
      contradiction

theorem add_eq_ok_iff {a b c : Nat} : add a b = .ok c ↔ a + b = c ∧ c < limit := checked_eq_ok_iff

theorem mul_eq_ok_iff {a b c : Nat} : mul a b = .ok c ↔ a * b = c ∧ c < limit := checked_eq_ok_iff

/-- Elements spanned by an access pattern: `inner` contiguous elements repeated over the
`(count, stride)` axes. Nothing is spanned when a count is zero, and a span that does not fit a
count is `none`. -/
def span (inner : Nat) (axes : List (Nat × Nat)) : Option Nat :=
  if inner = 0 ∨ axes.any (fun axis => axis.1 == 0) then some 0
  else axes.foldlM (fun acc axis =>
    let reach := (axis.1 - 1) * axis.2
    if reach < limit ∧ reach + acc < limit then some (reach + acc) else none) inner

end Count

end TensorKernels
