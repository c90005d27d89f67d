import TensorKernels.Assembly.Basic
import TensorKernels.Files.Failure
import TensorKernels.Kernel.Strides
import TensorKernels.Nest.Kind

/-!
Every reason for which a request is refused, and its wording. A bad parameter carries its cause;
arithmetic that does not fit a word, a name that cannot be stored and a file that cannot be written
are reported apart from it, and so is a call of generated code on a host that cannot run it.
-/

namespace TensorKernels

inductive PrimitiveLoop
  | m
  | k
  | n
  | batchReduce
  | inputContiguous
  | outputContiguous
  | column
  | contiguous
  deriving DecidableEq, Repr

def PrimitiveLoop.text : PrimitiveLoop → String
  | .m => "M"
  | .k => "K"
  | .n => "N"
  | .batchReduce => "batch-reduce"
  | .inputContiguous => "input-contiguous"
  | .outputContiguous => "output-contiguous"
  | .column => "column"
  | .contiguous => "contiguous"

inductive GemmExtent
  | m
  | n
  | k
  | batch
  deriving DecidableEq, Repr

def GemmExtent.text : GemmExtent → String
  | .m => "m"
  | .n => "n"
  | .k => "k"
  | .batch => "batch"

inductive GemmOperand
  | a
  | b
  | c
  deriving DecidableEq, Repr

def GemmOperand.text : GemmOperand → String
  | .a => "A"
  | .b => "B"
  | .c => "C"

inductive LoopEntry
  | size
  | stride (operand : Operand)
  deriving DecidableEq, Repr

def LoopEntry.text : LoopEntry → String
  | .size => "size"
  | .stride operand => operand.text ++ " stride"

inductive Cause
  | branch (error : BranchError)
  | emptyKernel (name : String)
  | transposedGemm
  | gemmType (dtype : DataType)
  | gemmSize (extent : GemmExtent) (value : Nat)
  | gemmLeading (strides : Strides) (m n k : Nat)
  | gemmOperand (operand : GemmOperand) (holds : Nat) (needs : Option Nat)
  | elementwiseType (dtype : DataType)
  | elementwiseSize (m n : Nat)
  | unknownOp (name : String)
  | outputLeading (ld rows : Nat)
  | outputTooShort (holds : Nat) (needs : Option Nat)
  | inputLeading (ld rows : Nat)
  | inputTooShort (holds : Nat) (needs : Option Nat)
  | inputMissing (op : Elementwise.Op)
  | strideTooWide (name : String) (value : Nat)
  | arrayLengths (dimTypes : Nat) (others : List Nat)
  | negativeEntry (entry : LoopEntry) (loop : Nat) (value : Int)
  | noPrimitiveLoop (loop : PrimitiveLoop)
  | nestType (dtype : DataType)
  | noMain
  | touchKind (touch : Touch) (kind : Primitive)
  | touchWithoutGemm (touch : Touch) (main : Primitive)
  | emptyLoop (loop : Nat)
  | primitiveNotTrailing
  | sharedAfterSequential (loop : Nat)
  | sharedOverlapping (loop : Nat)
  | primitiveC (loop : Nat)
  | repeatedPrimitive (role : Role)
  | missingMN
  | reductionCount (main : Primitive) (want got : Nat)
  | strayStride (loop : Nat) (role : Role)
  | strideOfM
  | strideOfK
  | elementwiseLoopCount (main : Primitive)
  | transposeStrides
  | leadingStride
  | extentTooLarge
  | operandTooShort (operand : Operand) (holds needs : Nat)
  | overlappingTasks
  deriving DecidableEq, Repr

def Cause.reason : Cause → String
  | .branch error => error.reason
  | .emptyKernel name => "kernel " ++ name ++ " has no code"
  | .transposedGemm => "transposed GEMM operands are not supported"
  | .gemmType dtype => "GEMM dtype " ++ dtype.text ++ " is not supported"
  | .gemmSize extent value =>
      "GEMM size " ++ extent.text ++ " = " ++ toString value ++ " is out of range"
  | .gemmLeading strides m n k =>
      "leading dimensions " ++ strides.text "GemmStrides" ++ " too small for " ++ toString m ++
        "x" ++ toString n ++ "x" ++ toString k
  | .gemmOperand operand holds needs =>
      "operand " ++ operand.text ++ " holds " ++ toString holds ++ " elements, kernel addresses " ++
        Text.optional needs
  | .elementwiseType dtype => "unary dtype " ++ dtype.text ++ " is not supported"
  | .elementwiseSize m n => "unary size " ++ toString m ++ "x" ++ toString n ++ " is out of range"
  | .unknownOp name => "unknown unary operation " ++ Text.quoted name
  | .outputLeading ld rows =>
      "ld_b = " ++ toString ld ++ " is smaller than " ++ toString rows ++ " output rows"
  | .outputTooShort holds needs =>
      "output holds " ++ toString holds ++ " elements, kernel writes " ++ Text.optional needs
  | .inputLeading ld rows =>
      "ld_a = " ++ toString ld ++ " is smaller than " ++ toString rows ++ " rows"
  | .inputTooShort holds needs =>
      "input holds " ++ toString holds ++ " elements, kernel reads " ++ Text.optional needs
  | .inputMissing op => op.name ++ " kernel needs an input"
  | .strideTooWide name value => name ++ " = " ++ toString value ++ " does not fit an i64"
  | .arrayLengths dimTypes others =>
      "dimension arrays differ in length: " ++ toString dimTypes ++ " dim types vs " ++
        Text.list others
  | .negativeEntry entry loop value =>
      entry.text ++ " of loop " ++ toString loop ++ " is " ++ toString value
  | .noPrimitiveLoop loop => "no loop qualifies as the primitive " ++ loop.text ++ " loop"
  | .nestType dtype => "dtype " ++ dtype.text ++ " is not supported"
  | .noMain => "a main primitive is required"
  | .touchKind touch kind =>
      touch.text ++ "-touch primitive " ++ kind.text ++ " is not a unary kernel"
  | .touchWithoutGemm touch main =>
      touch.text ++ "-touch kernels need a GEMM main primitive, not " ++ main.text
  | .emptyLoop loop => "loop " ++ toString loop ++ " has size zero"
  | .primitiveNotTrailing => "primitive loops must form the trailing run"
  | .sharedAfterSequential loop =>
      "shared loop " ++ toString loop ++ " follows a sequential loop"
  | .sharedOverlapping loop =>
      "shared loop " ++ toString loop ++ " does not address distinct output blocks"
  | .primitiveC loop => "primitive loop " ++ toString loop ++ " is a C loop"
  | .repeatedPrimitive role => "primitive run has more than one " ++ role.text ++ " loop"
  | .missingMN => "primitive run needs one M and one N loop"
  | .reductionCount main want got =>
      main.text ++ " needs " ++ toString want ++ " primitive K loops, got " ++ toString got
  | .strayStride loop role =>
      "loop " ++ toString loop ++ " of type " ++ role.text ++
        " has a stride in an operand it does not index"
  | .strideOfM => "primitive M loop must have unit stride in in0 and out"
  | .strideOfK => "primitive K loop must have unit stride in in1"
  | .elementwiseLoopCount main => main.text ++ " needs exactly two primitive loops"
  | .transposeStrides =>
      "transpose needs one loop contiguous in in0 and the other contiguous in out"
  | .leadingStride => "first primitive loop must be contiguous in the operands"
  | .extentTooLarge => "operand extent overflows"
  | .operandTooShort operand holds needs =>
      "operand " ++ operand.text ++ " holds " ++ toString holds ++
        " elements, contraction addresses " ++ toString needs
  | .overlappingTasks => "output blocks of the shared loops may overlap"

inductive Error
  | badParameter (cause : Cause)
  | unsupportedHost (arch : String)
  | file (path : String) (failure : FileFailure)
  | overflow (operation : Overflow)
  | nulInName
  deriving DecidableEq, Repr

namespace Error

def message : Error → String
  | .badParameter cause => "Bad parameter: " ++ cause.reason
  | .unsupportedHost arch => "Generated AArch64 code cannot run on a " ++ arch ++ " host"
  | .file path failure => "I/O error on " ++ path ++ ": " ++ failure.numbered
  | .overflow operation => operation.message
  | .nulInName => "assertion failed: !string.contains(&0)"

def text : Error → String
  | .badParameter cause => Text.record "BadParameter" [("reason", Text.quoted cause.reason)]
  | .unsupportedHost arch => Text.record "UnsupportedHost" [("arch", Text.quoted arch)]
  | .file path failure =>
      Text.record "Io" [("path", Text.quoted path), ("source", failure.text)]
  | .overflow operation => operation.message
  | .nulInName => "assertion failed: !string.contains(&0)"

end Error

def refuse {α : Type} (cause : Cause) : Except Error α := .error (.badParameter cause)

def require (condition : Bool) (cause : Cause) : Except Error Unit :=
  if condition then .ok () else refuse cause

theorem require_eq_ok_iff {condition : Bool} {cause : Cause} :
    require condition cause = .ok () ↔ condition = true := by
  cases condition <;> simp [require, refuse]

instance : MonadLift (Except Overflow) (Except Error) := ⟨Except.mapError Error.overflow⟩

end TensorKernels
