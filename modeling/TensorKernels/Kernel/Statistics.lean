import TensorKernels.Overflow

/-!
An account of generated kernels: how many, per family and in all, their words, labels and resolved
branches, and the first of the largest. Families are kept in the order in which they first appear.
-/

namespace TensorKernels

structure Statistics where
  kernels : Nat := 0
  words : Nat := 0
  labels : Nat := 0
  branches : Nat := 0
  counts : List (String × Nat) := []
  largest : Nat := 0
  largestFamily : String := ""
  deriving DecidableEq, Repr

namespace Statistics

def addCount (family : String) (count : Nat) :
    List (String × Nat) → Except Overflow (List (String × Nat))
  | [] => .ok [(family, count)]
  | (name, n) :: rest =>
    if name = family then do
      return (name, ← Count.add n count) :: rest
    else do
      return (name, n) :: (← addCount family count rest)

/-- Adds one kernel. It becomes the largest one only if it has more words than that. -/
def record (s : Statistics) (family : String) (words labels branches : Nat) :
    Except Overflow Statistics := do
  let kernels ← Count.add s.kernels 1
  let totalWords ← Count.add s.words words
  let totalLabels ← Count.add s.labels labels
  let totalBranches ← Count.add s.branches branches
  let counts ← addCount family 1 s.counts
  return { kernels, words := totalWords, labels := totalLabels, branches := totalBranches, counts
           largest := if s.largest < words then words else s.largest
           largestFamily := if s.largest < words then family else s.largestFamily }

/-- Folds another account into this one. Of two largest kernels of the same size the one recorded
here stays. -/
def merge (s other : Statistics) : Except Overflow Statistics := do
  let kernels ← Count.add s.kernels other.kernels
  let words ← Count.add s.words other.words
  let labels ← Count.add s.labels other.labels
  let branches ← Count.add s.branches other.branches
  let counts ← other.counts.foldlM (fun counts entry => addCount entry.1 entry.2 counts) s.counts
  return { kernels, words, labels, branches, counts
           largest := if s.largest < other.largest then other.largest else s.largest
           largestFamily :=
             if s.largest < other.largest then other.largestFamily else s.largestFamily }


def breakdown (s : Statistics) : List (String × Nat) :=
  s.counts.mergeSort fun a b => b.2 < a.2 || (b.2 == a.2 && a.1 ≤ b.1)

def lines (s : Statistics) (bytes : Nat) : List String :=
  ["Kernel Generation Statistics:",
    "  Kernels generated: " ++ toString s.kernels,
    "  Total code size: " ++ toString s.words ++ " words (" ++ toString bytes ++ " bytes)",
    "  Labels created: " ++ toString s.labels,
    "  Fixups resolved: " ++ toString s.branches] ++
  (if 0 < s.largest then
    ["  Largest kernel: " ++ s.largestFamily ++ " (" ++ toString s.largest ++ " words)"]
  else []) ++
  (if s.counts.isEmpty then []
  else "  Kernel breakdown:" ::
    s.breakdown.map fun entry => "    " ++ entry.1 ++ ": " ++ toString entry.2)

def text (s : Statistics) : Except Overflow String := do
  let bytes ← Count.mul s.words 4
  return String.join ((s.lines bytes).map (· ++ "\n"))

end Statistics

end TensorKernels
