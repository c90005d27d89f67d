import TensorKernels.Nest.Contraction

/-!
Normal form of a contraction: the loops the kernel absorbs are found if none is marked, those too
long for a kernel are cut, neighbours that walk the same elements as one loop are merged, and the
loops are ordered so that shared loops lead, sequential loops follow and the kernel's loops close
the list. On request one loop is distributed over tasks.
-/

namespace TensorKernels

namespace Loop

def maxKernelExtent : Nat := 64

def pieceLength (size : Nat) : Nat → Option Nat
  | 0 => none
  | limit + 1 =>
    if limit = 0 then none
    else if size % (limit + 1) = 0 then some (limit + 1)
    else pieceLength size limit

/-- A kernel's row or reduction loop that is too long becomes a sequential loop over pieces of the
largest length that divides it. -/
def cut (l : Loop) : Except Overflow (List Loop) :=
  if l.isKernel && (l.role == .m || l.role == .k) && maxKernelExtent < l.size then
    match pieceLength l.size (min maxKernelExtent l.size) with
    | none => .ok [l]
    | some inner => do
      let strides ← l.strides.scale inner
      return [{ l with exec := .seq, size := l.size / inner, strides }, { l with size := inner }]
  else .ok [l]

def covers (outer inner size : Nat) : Except Overflow Bool := do
  return outer == (← Count.mul inner size)

/-- Whether `outer` directly around `inner` walks the same elements as one loop. Strides are
compared until two differ. -/
def coalesces (outer inner : Loop) : Except Overflow Bool := do
  if outer.isKernel || outer.role != inner.role || outer.exec != inner.exec then return false
  if !(← covers outer.strides.in0 inner.strides.in0 inner.size) then return false
  if !(← covers outer.strides.in1 inner.strides.in1 inner.size) then return false
  covers outer.strides.out inner.strides.out inner.size

end Loop

namespace Contraction

def cutLong : List Loop → Except Overflow (List Loop)
  | [] => .ok []
  | l :: rest => do
    let parts ← l.cut
    return parts ++ (← cutLong rest)

/-- Merges neighbours from the outermost loop inward; a merged loop is tried again with its next
neighbour. -/
def coalesce : List Loop → Except Overflow (List Loop)
  | outer :: inner :: rest => do
    if ← outer.coalesces inner then
      let size ← Count.mul inner.size outer.size
      coalesce ({ inner with size } :: rest)
    else
      return outer :: (← coalesce (inner :: rest))
  | loops => .ok loops
  termination_by loops => loops.length

def findLoop (loops : List Loop) (skip : List Nat) (p : Loop → Bool) : Option Nat :=
  (loops.zipIdx.find? fun entry => !skip.contains entry.2 && p entry.1).map (·.2)

def minLoop (loops : List Loop) (skip : List Nat) (p : Loop → Bool) (key : Loop → Nat) :
    Option Nat :=
  ((loops.zipIdx.filter fun entry => !skip.contains entry.2 && p entry.1).foldl (fun best entry =>
    match best with
    | none => some entry
    | some least => if key entry.1 < key least.1 then some entry else best) none).map (·.2)

def need (which : PrimitiveLoop) : Option Nat → Except Error Nat
  | some i => .ok i
  | none => refuse (.noPrimitiveLoop which)

def productPositions (c : Contraction) : Except Error (List Nat) := do
  let loops := c.loops
  let m ← need .m <| findLoop loops [] fun l =>
    l.role == .m && l.strides.in0 == 1 && l.strides.out == 1
  let k ← need .k <| findLoop loops [] fun l => l.role == .k && l.strides.in1 == 1
  let n ← need .n <| minLoop loops [] (fun l => l.role == .n && l.strides.out != 0) (·.strides.out)
  if c.main = .brgemm then
    let batch ← need .batchReduce <|
      minLoop loops [m, n, k] (fun l => l.role == .k) (·.strides.in1)
    return [m, n, k, batch]
  else return [m, n, k]

def elementwisePositions (c : Contraction) : Except Error (List Nat) := do
  let loops := c.loops
  let unitIn (l : Loop) : Bool := l.strides.in0 == 1
  let unitOut (l : Loop) : Bool := l.strides.out == 1
  let column (m : Nat) : Option Nat :=
    minLoop loops [m] (fun l => l.strides.out != 0) (·.strides.out)
  match c.main with
  | .transpose =>
    let m ← need .inputContiguous (findLoop loops [] unitIn)
    let n ← need .outputContiguous (findLoop loops [m] unitOut)
    return [m, n]
  | .zero =>
    let m ← need .outputContiguous (findLoop loops [] unitOut)
    let n ← need .column (column m)
    return [m, n]
  | _ =>
    let m ← need .contiguous (findLoop loops [] fun l => unitIn l && unitOut l)
    let n ← need .column (column m)
    return [m, n]

def markKernel (loops : List Loop) (positions : List Nat) : List Loop :=
  loops.mapIdx fun i l => if positions.contains i then { l with exec := .prim } else l

def chooseKernelLoops (c : Contraction) : Except Error (List Loop) :=
  if c.loops.any Loop.isKernel then .ok c.loops
  else do
    let positions ← if c.main.isProduct then productPositions c else elementwisePositions c
    return markKernel c.loops positions

def outerBefore (a b : Loop) : Bool :=
  let sharedA : Bool := a.exec == .shared
  let sharedB : Bool := b.exec == .shared
  if sharedA != sharedB then sharedA
  else if a.strides.out != b.strides.out then b.strides.out < a.strides.out
  else b.strides.in0 ≤ a.strides.in0

def kernelRank (main : Primitive) (l : Loop) : Nat :=
  if main.isProduct then
    match l.role with
    | .k => if l.strides.in1 = 1 then 3 else 0
    | .m => 1
    | .n => 2
    | .c => 4
  else
    let leading : Bool :=
      match main with
      | .zero => l.strides.out == 1
      | .transpose => l.strides.in0 == 1
      | _ => l.strides.in0 == 1 && l.strides.out == 1
    if leading then 0 else 1

def arrange (main : Primitive) (loops : List Loop) : List Loop :=
  (loops.filter fun l => !l.isKernel).mergeSort outerBefore ++
    (loops.filter Loop.isKernel).mergeSort fun a b => kernelRank main a ≤ kernelRank main b

def distributable (l : Loop) : Bool := l.exec == .seq && l.role != .k && l.strides.out != 0

/-- Distributes the outermost loop that can be shared, moving it ahead of the sequential ones. -/
def distribute (loops : List Loop) : List Loop :=
  let before := loops.takeWhile fun l => !distributable l
  match loops.dropWhile fun l => !distributable l with
  | [] => loops
  | l :: after =>
    before.takeWhile (fun b => b.exec != .seq) ++ { l with exec := .shared } ::
      (before.dropWhile (fun b => b.exec != .seq) ++ after)

def normalize (c : Contraction) (parallel : Bool) : Except Error Contraction := do
  let marked ← c.chooseKernelLoops
  let short ← cutLong marked
  let merged ← coalesce short
  let ordered := arrange c.main merged
  return { c with loops := if parallel then distribute ordered else ordered }

end Contraction

end TensorKernels
