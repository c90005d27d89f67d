import TensorKernels.Assembly.Code
import TensorKernels.Kernel.Tile

/-!
Transfers of one column of single precision values between memory and SIMD registers. Four rows go
into a register; the rows left over are a single, a pair, or a pair and one more lane whose address
is formed in a register of its own. A partial register is zero above the loaded lanes.
-/

namespace TensorKernels.Column

/-- Transfers `rows` values at `[base]`, from the register `first` on. The register `laneAddr` is
written when three rows are left over. -/
def transfer (dir : Transfer) (first : VectorReg) (rows : Nat) (base laneAddr : GeneralReg) :
    List Instr :=
  let groups := rows / vectorLanes
  let tail := first.offset groups
  let offset : Int := 16 * (groups : Int)
  (List.range groups).map (fun g =>
    .transferV dir .q (first.offset g) base (16 * (g : Int)) .offset) ++
  match rows % vectorLanes with
  | 0 => []
  | 1 => [.transferV dir .s tail base offset .offset]
  | 2 => [.transferV dir .d tail base offset .offset]
  | _ =>
    .transferV dir .d tail base offset .offset ::
      (Sequence.addConstant laneAddr base (offset + 8) GeneralReg.zero ++
        [.transferLane dir tail 2 laneAddr false])

def transferAll (dir : Transfer) (firsts : List VectorReg) (rows : Nat)
    (cursor stride laneAddr : GeneralReg) : List Instr :=
  match firsts with
  | [] => []
  | [first] => transfer dir first rows cursor laneAddr
  | first :: rest =>
    transfer dir first rows cursor laneAddr ++ .addReg cursor cursor stride .lsl 0 ::
      transferAll dir rest rows cursor stride laneAddr

end TensorKernels.Column
