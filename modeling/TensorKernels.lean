import TensorKernels.Assembly.Basic
import TensorKernels.Assembly.Buffer
import TensorKernels.Assembly.Code
import TensorKernels.Assembly.Sequence
import TensorKernels.CommandLine.Arguments
import TensorKernels.CommandLine.Dump
import TensorKernels.CommandLine.Help
import TensorKernels.CommandLine.Run
import TensorKernels.Elementwise.Code
import TensorKernels.Elementwise.Kernel
import TensorKernels.Elementwise.Tiling
import TensorKernels.Error
import TensorKernels.Files.Failure
import TensorKernels.Gemm.Code
import TensorKernels.Gemm.Kernel
import TensorKernels.Gemm.Shape
import TensorKernels.Gemm.Tiling
import TensorKernels.Kernel.Basic
import TensorKernels.Kernel.Column
import TensorKernels.Kernel.Kind
import TensorKernels.Kernel.Statistics
import TensorKernels.Kernel.Strides
import TensorKernels.Kernel.Tile
import TensorKernels.Machine.BitField
import TensorKernels.Machine.Instr
import TensorKernels.Machine.Register
import TensorKernels.Main
import TensorKernels.Nest.Compiled
import TensorKernels.Nest.Contraction
import TensorKernels.Nest.Kind
import TensorKernels.Nest.Loop
import TensorKernels.Nest.Normalize
import TensorKernels.Nest.Plan
import TensorKernels.Nest.Walk
import TensorKernels.Object.Bytes
import TensorKernels.Object.Elf
import TensorKernels.Object.StringTable
import TensorKernels.Overflow
import TensorKernels.Proofs.Assembly.Exec
import TensorKernels.Proofs.Assembly.Frame
import TensorKernels.Proofs.Assembly.Lower
import TensorKernels.Proofs.Assembly.Sequence
import TensorKernels.Proofs.Gemm.Blocks
import TensorKernels.Proofs.Gemm.Kernel
import TensorKernels.Proofs.Gemm.Operands
import TensorKernels.Proofs.Gemm.Reduction
import TensorKernels.Proofs.Gemm.Tiling
import TensorKernels.Proofs.Kernel.Column
import TensorKernels.Proofs.Machine.Decode
import TensorKernels.Proofs.Machine.Field
import TensorKernels.Proofs.Machine.Memory
import TensorKernels.Proofs.Machine.Run
import TensorKernels.Proofs.Machine.State
import TensorKernels.Proofs.Nest.Arrangement
import TensorKernels.Proofs.Nest.Canonical
import TensorKernels.Proofs.Nest.Distinct
import TensorKernels.Proofs.Nest.Normalize
import TensorKernels.Proofs.Nest.Offsets
import TensorKernels.Proofs.Nest.Parallel
import TensorKernels.Proofs.Nest.Plan
import TensorKernels.Proofs.Nest.Nesting
import TensorKernels.Proofs.Nest.Regroup
import TensorKernels.Proofs.Nest.Tasks
import TensorKernels.Proofs.Nest.Walk
import TensorKernels.Proofs.Result
import TensorKernels.Text.Hex
import TensorKernels.Text.Hidden
import TensorKernels.Text.Quoted
import TensorKernels.Text.Record
import TensorKernels.Proofs.Nest.Extents
import TensorKernels.Proofs.Nest.Contributions
import TensorKernels.Proofs.Nest.Overlap
import TensorKernels.Proofs.Nest.Renormalize
import TensorKernels.Proofs.Nest.Choose
import TensorKernels.Proofs.Nest.Bounds
import TensorKernels.Proofs.Assembly.Loads
import TensorKernels.Proofs.Elementwise.Operands
import TensorKernels.Proofs.Elementwise.Tile
import TensorKernels.Proofs.Elementwise.Kernel
import TensorKernels.Proofs.Assembly.Link
import TensorKernels.Proofs.Machine.Writes
import TensorKernels.Proofs.Assembly.Instructions
import TensorKernels.Proofs.Elementwise.Transpose
import TensorKernels.Proofs.Assembly.CallStandard
import TensorKernels.Proofs.Assembly.Closed
import TensorKernels.Proofs.Kernel.Statistics
import TensorKernels.Proofs.Kernel.Generation
import TensorKernels.Proofs.Machine.Spelling
import TensorKernels.Proofs.Nest.Acceptance
import TensorKernels.Proofs.Nest.Exchange
import TensorKernels.Proofs.Object.Reader
import TensorKernels.Proofs.Object.StringTable
import TensorKernels.Proofs.Object.ReadBack
import TensorKernels.Proofs.Nest.TaskCount
import TensorKernels.Proofs.Nest.Coalesce
import TensorKernels.Proofs.Assembly.Constant
import TensorKernels.Proofs.Assembly.CountedLoop
import TensorKernels.Proofs.Assembly.Addition
import TensorKernels.Proofs.Kernel.Call
import TensorKernels.Proofs.Kernel.Account
import TensorKernels.Proofs.Kernel.Footprint
import TensorKernels.Proofs.Kernel.Registers
import TensorKernels.Proofs.Machine.Placement
