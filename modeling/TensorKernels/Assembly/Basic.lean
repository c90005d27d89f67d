import TensorKernels.Assembly.Sequence

/-!
Assembly of one kernel: the words emitted so far, a table of labels, and the branches still to be
resolved. A branch to a label is emitted with displacement zero; `link` replaces it by the
branch whose displacement leads from its own position to the last placement of its label, or
refuses with the first branch, in emission order, that has no target or cannot reach it.
-/

namespace TensorKernels

inductive BranchForm
  | always
  | cbz (rt : GeneralReg)
  | cbnz (rt : GeneralReg)
  deriving DecidableEq, Repr

namespace BranchForm

def instr : BranchForm → Int → Instr
  | .always, d => .b d
  | .cbz rt, d => .cbz rt d
  | .cbnz rt, d => .cbnz rt d

def rangeBits : BranchForm → Nat
  | .always => BitField.imm26.width
  | .cbz _ | .cbnz _ => BitField.imm19.width

def Reaches (form : BranchForm) (d : Int) : Prop :=
  -((1 <<< (form.rangeBits - 1) : Nat) : Int) ≤ d ∧ d < (1 <<< (form.rangeBits - 1) : Nat)

instance (form : BranchForm) (d : Int) : Decidable (form.Reaches d) :=
  inferInstanceAs (Decidable (_ ∧ _))

end BranchForm

structure Branch where
  site : Nat
  label : Nat
  form : BranchForm
  deriving DecidableEq, Repr

inductive BranchError
  | unbound (site : Nat)
  | outOfRange (displacement : Int) (site : Nat)
  deriving DecidableEq, Repr

def BranchError.reason : BranchError → String
  | .unbound site => "branch at word " ++ toString site ++ " targets an unbound label"
  | .outOfRange displacement site =>
      "branch displacement " ++ toString displacement ++ " at word " ++ toString site ++
        " out of range"

structure MachineCode where
  words : Array Word
  labels : Nat
  branches : Nat
  deriving DecidableEq, Repr

structure Assembly where
  words : Array Word := #[]
  labels : Array (Option Nat) := #[]
  branches : Array Branch := #[]
  deriving DecidableEq, Repr

namespace Assembly

def empty : Assembly := {}

def here (a : Assembly) : Nat := a.words.size

def emitWord (a : Assembly) (w : Word) : Assembly := { a with words := a.words.push w }

def emit (a : Assembly) (i : Instr) : Assembly := a.emitWord i.encode

def emitAll (a : Assembly) (is : List Instr) : Assembly := is.foldl emit a

theorem words_emitAll (a : Assembly) (is : List Instr) :
    (a.emitAll is).words = a.words ++ (is.map Instr.encode).toArray := by
  induction is generalizing a with
  | nil => simp [emitAll]
  | cons i is ih =>
    have step : a.emitAll (i :: is) = (a.emit i).emitAll is := rfl
    rw [step, ih]
    apply Array.ext'
    simp [emit, emitWord]

@[simp] theorem labels_emitAll (a : Assembly) (is : List Instr) :
    (a.emitAll is).labels = a.labels := by
  induction is generalizing a with
  | nil => rfl
  | cons i is ih => exact ih (a.emit i)

@[simp] theorem branches_emitAll (a : Assembly) (is : List Instr) :
    (a.emitAll is).branches = a.branches := by
  induction is generalizing a with
  | nil => rfl
  | cons i is ih => exact ih (a.emit i)

@[simp] theorem here_emitAll (a : Assembly) (is : List Instr) :
    (a.emitAll is).here = a.here + is.length := by
  simp [here, words_emitAll]

def nextLabel (a : Assembly) : Nat := a.labels.size

def newLabel (a : Assembly) : Assembly := { a with labels := a.labels.push none }

/-- Binds a label to the current position. Placing it again moves it; a label that was never
created is ignored. -/
def bindLabel (a : Assembly) (label : Nat) : Assembly :=
  { a with labels := a.labels.setIfInBounds label (some a.here) }

def branchTo (a : Assembly) (form : BranchForm) (label : Nat) : Assembly :=
  { a with
    words := a.words.push (form.instr 0).encode
    branches := a.branches.push ⟨a.here, label, form⟩ }

/-- Runs `body` `trips` times with the trip count in `counter`. One trip is the body alone and no
trips are no code; otherwise the counter is decremented after the body and tested against zero. -/
def loop (a : Assembly) (counter : GeneralReg) (trips : Nat) (body : Assembly → Assembly) :
    Assembly :=
  match trips with
  | 0 => a
  | 1 => body a
  | trips =>
    let head := a.emitAll (Sequence.loadConstant counter trips)
    let label := head.nextLabel
    ((body (head.newLabel.bindLabel label)).emit (.subImm counter counter 1 false)).branchTo
      (.cbnz counter) label

def target? (a : Assembly) (label : Nat) : Option Nat := a.labels[label]?.join

def displacement (a : Assembly) (br : Branch) : Except BranchError Int :=
  match a.target? br.label with
  | none => .error (.unbound br.site)
  | some target =>
    let d : Int := (target : Int) - (br.site : Int)
    if br.form.Reaches d then .ok d else .error (.outOfRange d br.site)

def patch (a : Assembly) (words : Array Word) (br : Branch) : Except BranchError (Array Word) := do
  let d ← a.displacement br
  return words.setIfInBounds br.site (br.form.instr d).encode

def link (a : Assembly) : Except BranchError MachineCode := do
  let words ← a.branches.foldlM a.patch a.words
  return ⟨words, a.labels.size, a.branches.size⟩

end Assembly

end TensorKernels
