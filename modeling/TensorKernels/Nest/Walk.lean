import TensorKernels.Nest.Plan

/-!
The walk of a plan over its outer loops. Every visit is one call of the main kernel: where its block
starts in each operand, and whether it makes the first or the last contribution to its output
block, which the reduction loops decide. The shared loops may be flattened into one index, each
value of which is a task that walks the loops that remain.
-/

namespace TensorKernels

structure Visit where
  base : Offsets
  first : Bool
  last : Bool
  deriving DecidableEq, Repr

namespace Loop

def opens (l : Loop) (i : Nat) : Bool := l.role != .k || i == 0

def closes (l : Loop) (i : Nat) : Bool := l.role != .k || i + 1 == l.size

end Loop

namespace Walk

def visits : List Loop → Visit → Except Overflow (List Visit)
  | [], v => .ok [v]
  | l :: inner, v => do
    let parts ← (List.range l.size).mapM fun i => do
      let base ← v.base.advance i l.strides
      visits inner ⟨base, v.first && l.opens i, v.last && l.closes i⟩
    return parts.flatten

/-- The base of a task: the flat index is read as one digit a loop, the last loop fastest. The loops
are given from the last to the first. -/
def decode : List Loop → Nat → Offsets → Except Overflow Offsets
  | [], _, base => .ok base
  | l :: outer, rest, base => do
    decode outer (rest / l.size) (← base.advance (rest % l.size) l.strides)

end Walk

namespace Plan

def outerLoops (p : Plan) : List Loop := p.contraction.loops.take p.kernelStart

def sharedLoops (p : Plan) : List Loop := p.contraction.loops.take p.sharedCount

def taskLoops (p : Plan) : List Loop := p.outerLoops.drop p.sharedCount

def walk (p : Plan) : Except Overflow (List Visit) :=
  Walk.visits p.outerLoops ⟨.zero, true, true⟩

def taskCount (p : Plan) : Except Overflow Nat := Count.product (p.sharedLoops.map (·.size))

def task (p : Plan) (flat : Nat) : Except Overflow (List Visit) := do
  let base ← Walk.decode p.sharedLoops.reverse flat .zero
  Walk.visits p.taskLoops ⟨base, true, true⟩

def tasks (p : Plan) : Except Overflow (List (List Visit)) := do
  (List.range (← p.taskCount)).mapM p.task

end Plan

end TensorKernels
