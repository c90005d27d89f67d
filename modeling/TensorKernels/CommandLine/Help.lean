import TensorKernels.CommandLine.Arguments

/-!
Help texts. Each names its topic, shows how it is called and lists commands or options in two
columns, the first as wide as its widest entry.
-/

namespace TensorKernels.CommandLine

def toolName : String := "kernel_dump"

def versionLine : String := toolName ++ " 0.1.0"

def columns (entries : List (String × String)) : List String :=
  let width := (entries.map (·.1.length)).foldl max 0
  entries.map fun entry =>
    let padding := String.ofList (List.replicate (width - entry.1.length) ' ')
    "  " ++ entry.1 ++ padding ++ "  " ++ entry.2

namespace OptionName

def about : OptionName → String
  | .m | .n | .k => ""
  | .batch => "Number of reduced (A, B) pairs [default: 1]"
  | .op => "zero, identity, relu or transpose"
  | .out => "File to write the code to"
  | .elf => "Write an ELF relocatable instead of raw words"
  | .help => "Print help"

def isRequired : OptionName → Bool
  | .m | .n | .k | .op => true
  | _ => false

def form (name : OptionName) : String :=
  "--" ++ name.long ++ if name.takesValue then " <" ++ name.long.toUpper ++ ">" else ""

def letter? : OptionName → Option Char
  | .out => some 'o'
  | .help => some 'h'
  | _ => none

def entry (name : OptionName) : String × String :=
  let letter :=
    match name.letter? with
    | some c => "-" ++ String.singleton c ++ ", "
    | none => "    "
  (letter ++ name.form, name.about)

end OptionName

namespace Topic

def about : Topic → String
  | .tool => "Generate a tenjit kernel and dump its code"
  | .gemm => "Batch-reduce GEMM kernel: C += sum over batch of A * B"
  | .elementwise => "Elementwise kernel: B := op(A)"
  | .help => "Print this message or the help of the given subcommand(s)"

def heading (topic : Topic) (call : List String) : List String :=
  [topic.about, "", "Usage: " ++ " ".intercalate (toolName :: call), ""]

def kernelHelp (topic : Topic) (command : String) (options : List OptionName) : List String :=
  let required := (options.filter (·.isRequired)).map (·.form)
  topic.heading (command :: "[OPTIONS]" :: required) ++ "Options:" ::
    columns (options.map (·.entry))

def lines : Topic → List String
  | .gemm => kernelHelp .gemm "gemm" gemmOptions
  | .elementwise => kernelHelp .elementwise "unary" elementwiseOptions
  | .tool =>
    heading .tool ["<COMMAND>"] ++ "Commands:" ::
      columns [("gemm", about .gemm), ("unary", about .elementwise), ("help", about .help)] ++
      "" :: "Options:" :: columns [("-h, --help", "Print help"), ("-V, --version", "Print version")]
  | .help =>
    heading .help ["help", "[COMMAND]..."] ++ "Arguments:" ::
      columns [("[COMMAND]...", "Print help for the subcommand(s)")]

end Topic

end TensorKernels.CommandLine
