import TensorKernels.Elementwise.Kernel
import TensorKernels.Gemm.Kernel

/-!
Arguments of the command line. A request names one kernel and where its code goes. Options may come
in any order and each at most once; a value follows its option or is attached to it, and one that
follows may not look like an option itself. A call for help counts as soon as it is reached: what
comes before it has to be well formed, what comes after it is not read.
-/

namespace TensorKernels.CommandLine

structure Destination where
  path : Option String
  elf : Bool
  deriving DecidableEq, Repr

inductive Request
  | gemm (shape : Gemm.Shape) (destination : Destination)
  | elementwise (op : Elementwise.Op) (m n : Nat) (destination : Destination)
  deriving DecidableEq, Repr

inductive Topic
  | tool
  | gemm
  | elementwise
  | help
  deriving DecidableEq, Repr

inductive Command
  | dump (request : Request)
  | help (topic : Topic)
  | version
  deriving DecidableEq, Repr

inductive OptionName
  | m
  | n
  | k
  | batch
  | op
  | out
  | elf
  | help
  deriving DecidableEq, Repr

def readCount? (text : String) : Option Nat :=
  let digits :=
    match text.toList with
    | '+' :: rest => rest
    | chars => chars
  if digits.isEmpty || digits.any (fun c => !c.isDigit) then none
  else
    let value := digits.foldl (fun n c => 10 * n + (c.toNat - '0'.toNat)) 0
    if value < Count.limit then some value else none

namespace OptionName

def long : OptionName → String
  | .m => "m"
  | .n => "n"
  | .k => "k"
  | .batch => "batch"
  | .op => "op"
  | .out => "out"
  | .elf => "elf"
  | .help => "help"

def ofLong? (name : String) : Option OptionName :=
  [m, n, k, batch, op, out, elf, help].find? (·.long == name)

def takesValue : OptionName → Bool
  | .elf | .help => false
  | _ => true

def accepts : OptionName → String → Bool
  | .m, text | .n, text | .k, text | .batch, text => (readCount? text).isSome
  | .op, text => (Elementwise.Op.ofName? text).isSome
  | .out, text => !text.isEmpty
  | .elf, _ | .help, _ => true

end OptionName

def gemmOptions : List OptionName := [.m, .n, .k, .batch, .out, .elf, .help]

def elementwiseOptions : List OptionName := [.op, .m, .n, .out, .elf, .help]

inductive Token
  | option (name : OptionName) (value : Option String)
  | done
  | plain
  | unknown
  deriving DecidableEq, Repr

def splitValue (chars : List Char) : String × Option String :=
  let name := chars.takeWhile (· != '=')
  match chars.dropWhile (· != '=') with
  | [] => (String.ofList name, none)
  | _ :: value => (String.ofList name, some (String.ofList value))

def Token.ofString (arg : String) : Token :=
  match arg.toList with
  | ['-', '-'] => .done
  | '-' :: '-' :: rest =>
    let (name, value) := splitValue rest
    match OptionName.ofLong? name with
    | some name => .option name value
    | none => .unknown
  | ['-'] => .plain
  | ['-', 'o'] => .option .out none
  | '-' :: 'o' :: '=' :: rest => .option .out (some (String.ofList rest))
  | '-' :: 'o' :: rest => .option .out (some (String.ofList rest))
  | '-' :: 'h' :: _ => .option .help none
  | '-' :: _ => .unknown
  | _ => .plain

abbrev Settings := List (OptionName × String)

inductive Reading
  | settings (settings : Settings)
  | help
  deriving DecidableEq, Repr

def readOptions (allowed : List OptionName) : List String → Settings → Option Reading
  | [], settings => some (.settings settings)
  | arg :: rest, settings =>
    match Token.ofString arg with
    | .done => if rest.isEmpty then some (.settings settings) else none
    | .plain | .unknown => none
    | .option name value =>
      if !allowed.contains name || settings.any (·.1 == name) then none
      else if !name.takesValue then
        if value.isSome then none
        else if name = .help then some .help
        else readOptions allowed rest ((name, "") :: settings)
      else
        match value, rest with
        | some value, rest =>
          if name.accepts value then readOptions allowed rest ((name, value) :: settings) else none
        | none, [] => none
        | none, value :: rest =>
          if Token.ofString value = .plain && name.accepts value then
            readOptions allowed rest ((name, value) :: settings)
          else none
  termination_by args => args.length

namespace Settings

def count? (s : Settings) (name : OptionName) : Option Nat := do
  readCount? (← s.lookup name)

def batch? (s : Settings) : Option Nat :=
  match s.lookup OptionName.batch with
  | none => some 1
  | some text => readCount? text

def destination (s : Settings) : Destination :=
  ⟨s.lookup OptionName.out, (s.lookup OptionName.elf).isSome⟩

def gemm? (s : Settings) : Option Request := do
  let m ← s.count? .m
  let n ← s.count? .n
  let k ← s.count? .k
  let batch ← s.batch?
  return .gemm { m, n, k, batch } s.destination

def elementwise? (s : Settings) : Option Request := do
  let op ← Elementwise.Op.ofName? (← s.lookup OptionName.op)
  let m ← s.count? .m
  let n ← s.count? .n
  return .elementwise op m n s.destination

end Settings

def readCommand (topic : Topic) (allowed : List OptionName)
    (request? : Settings → Option Request) (args : List String) : Option Command := do
  match ← readOptions allowed args [] with
  | .help => return .help topic
  | .settings settings => return .dump (← request? settings)

def Topic.ofName? : String → Option Topic
  | "gemm" => some .gemm
  | "unary" => some .elementwise
  | "help" => some .help
  | _ => none

/-- The command that the arguments make, if they are well formed. -/
def parse : List String → Option Command
  | "gemm" :: args => readCommand .gemm gemmOptions Settings.gemm? args
  | "unary" :: args => readCommand .elementwise elementwiseOptions Settings.elementwise? args
  | ["help"] => some (.help .tool)
  | ["help", name] => (Topic.ofName? name).map .help
  | arg :: _ =>
    if arg = "--version" || arg.startsWith "-V" then some .version
    else if Token.ofString arg = .option .help none then some (.help .tool)
    else none
  | [] => none

end TensorKernels.CommandLine
