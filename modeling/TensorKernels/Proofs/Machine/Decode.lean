import TensorKernels.Machine.Instr
import TensorKernels.Proofs.Machine.Field

/-!
The instruction that a word stands for. A form is a set of fixed bits and a way to read the operands
from the other ones. No word has the fixed bits of two forms, and every instruction with operands in
range is read back from its encoding, up to the operand widths that have no bit of their own and the
two pairs of instructions that are spelled differently and encoded alike.
-/

namespace TensorKernels

inductive Form
  | mov
  | movz
  | movk
  | addImm
  | subImm
  | addReg
  | subReg
  | ubfm
  | madd
  | cbz
  | cbnz
  | b
  | ret
  | nop
  | transfer
  | transferIndexed
  | transferV (size : AccessSize)
  | transferVIndexed (size : AccessSize)
  | transferPair
  | transferLane
  | transferLanePost
  | fmlaElem
  | fmax
  | moviWide
  | movi
  deriving DecidableEq, Repr

namespace Form

def fixed : Form → Word
  | .mov => 0x7FE0FFE0#32
  | .movz | .movk | .addImm | .subImm | .ubfm => 0x7F800000#32
  | .addReg | .subReg => 0x7F200000#32
  | .madd => 0x7FE08000#32
  | .cbz | .cbnz => 0x7F000000#32
  | .b => 0xFC000000#32
  | .ret | .nop => 0xFFFFFFFF#32
  | .transfer => 0xBF800000#32
  | .transferIndexed => 0xBFA00400#32
  | .transferV _ => 0xFF800000#32
  | .transferVIndexed _ => 0xFFA00400#32
  | .transferPair => 0x3E000000#32
  | .transferLane | .transferLanePost => 0xBFBFEC00#32
  | .fmlaElem => 0xBFC0F400#32
  | .fmax => 0xBFA0FC00#32
  | .moviWide => 0xFFFFFFE0#32
  | .movi => 0xBFFFFFE0#32

def opcode : Form → Word
  | .mov => 0x2A0003E0#32
  | .movz => 0x52800000#32
  | .movk => 0x72800000#32
  | .addImm => 0x11000000#32
  | .subImm => 0x51000000#32
  | .addReg => 0x0B000000#32
  | .subReg => 0x4B000000#32
  | .ubfm => 0x53000000#32
  | .madd => 0x1B000000#32
  | .cbz => 0x34000000#32
  | .cbnz => 0x35000000#32
  | .b => 0x14000000#32
  | .ret => 0xD65F03C0#32
  | .nop => 0xD503201F#32
  | .transfer => 0xB9000000#32
  | .transferIndexed => 0xB8000400#32
  | .transferV .s => 0xBD000000#32
  | .transferV .d => 0xFD000000#32
  | .transferV .q => 0x3D800000#32
  | .transferVIndexed .s => 0xBC000400#32
  | .transferVIndexed .d => 0xFC000400#32
  | .transferVIndexed .q => 0x3C800400#32
  | .transferPair => 0x2C000000#32
  | .transferLane => 0x0D008000#32
  | .transferLanePost => 0x0D9F8000#32
  | .fmlaElem => 0x0F801000#32
  | .fmax => 0x0E20F400#32
  | .moviWide => 0x6F00E400#32
  | .movi => 0x0F000400#32

def all : List Form :=
  [.mov, .movz, .movk, .addImm, .subImm, .addReg, .subReg, .ubfm, .madd, .cbz, .cbnz, .b, .ret, .nop,
    .transfer, .transferIndexed, .transferV .s, .transferV .d, .transferV .q, .transferVIndexed .s,
    .transferVIndexed .d, .transferVIndexed .q, .transferPair, .transferLane, .transferLanePost,
    .fmlaElem, .fmax, .moviWide, .movi]

theorem mem_all (f : Form) : f ∈ all := by
  cases f with
  | transferV size | transferVIndexed size => cases size <;> decide
  | _ => decide

def Matches (f : Form) (w : Word) : Prop := w &&& f.fixed = f.opcode

instance (f : Form) (w : Word) : Decidable (f.Matches w) := inferInstanceAs (Decidable (_ = _))

/-- Two forms differ in a bit that is fixed in both. -/
theorem opcode_and_fixed_ne :
    ∀ f ∈ all, ∀ g ∈ all, f ≠ g → f.opcode &&& g.fixed ≠ g.opcode &&& f.fixed := by
  decide +kernel

theorem Matches.unique {f g : Form} {w : Word} (hf : f.Matches w) (hg : g.Matches w) : f = g := by
  by_contra hne
  apply opcode_and_fixed_ne f (mem_all f) g (mem_all g) hne
  rw [← hf, ← hg, BitVec.and_assoc, BitVec.and_assoc, BitVec.and_comm f.fixed]

/-! Reading operands. -/

def number (f : BitField) (w : Word) : ℕ := (f.extract w).toNat

def generalAt (f : BitField) (width : Width) (w : Word) : GeneralReg :=
  ⟨Fin.ofNat 32 (number f w), width⟩

def vectorAt (f : BitField) (w : Word) : VectorReg := VectorReg.ofNat (number f w)

def widthAt (f : BitField) (w : Word) : Width := if number f w = 0 then .w32 else .x64

def directionAt (w : Word) : Transfer := if number BitField.load w = 0 then .store else .load

def beforeBit : BitField := ⟨11, 1⟩

def indexAt (w : Word) : AddressMode := if number beforeBit w = 0 then .postIndex else .preIndex

def pairModeAt (w : Word) : Option AddressMode :=
  match number BitField.pairMode w with
  | 1 => some .postIndex
  | 2 => some .offset
  | 3 => some .preIndex
  | _ => none

def pairSizeBits : BitField := ⟨30, 2⟩

def pairSizeAt (w : Word) : Option AccessSize :=
  match number pairSizeBits w with
  | 0 => some .s
  | 1 => some .d
  | 2 => some .q
  | _ => none

def shiftAt (w : Word) : Option Shift :=
  match number BitField.shift w with
  | 0 => some .lsl
  | 1 => some .lsr
  | 2 => some .asr
  | _ => none

def arrangementAt (w : Word) : Arrangement := if number BitField.q w = 0 then .s2 else .s4

def shiftImmAt (w : Word) : Option Instr :=
  let width := widthAt BitField.sf w
  let rd := generalAt BitField.rd width w
  let rn := generalAt BitField.rn width w
  let immr := number BitField.immr w
  let imms := number BitField.imms w
  if widthAt BitField.n w ≠ width then none
  else if imms = width.bits - 1 then some (.lsrImm rd rn immr)
  else if imms + 1 = immr then some (.lslImm rd rn (width.bits - immr))
  else none

/-! Forms that differ only in the operation. -/

def wideAt (make : GeneralReg → ℕ → ℕ → Instr) (w : Word) : Instr :=
  make (generalAt BitField.rd (widthAt BitField.sf w) w) (number BitField.imm16 w)
    (number BitField.hw w)

def immediateAt (make : GeneralReg → GeneralReg → ℕ → Bool → Instr) (w : Word) : Instr :=
  let width := widthAt BitField.sf w
  make (generalAt BitField.rd width w) (generalAt BitField.rn width w) (number BitField.imm12 w)
    (number BitField.sh w != 0)

def shiftedAt (make : GeneralReg → GeneralReg → GeneralReg → Shift → ℕ → Instr) (w : Word) :
    Option Instr :=
  let width := widthAt BitField.sf w
  (shiftAt w).map fun shift =>
    make (generalAt BitField.rd width w) (generalAt BitField.rn width w)
      (generalAt BitField.rm width w) shift (number BitField.imm6 w)

def compareAt (make : GeneralReg → Int → Instr) (w : Word) : Instr :=
  make (generalAt BitField.rt (widthAt BitField.sf w) w) (BitField.imm19.extractSigned w)

def laneAt (post : Bool) (w : Word) : Instr :=
  .transferLane (directionAt w) (vectorAt BitField.rt w)
    (2 * number BitField.q w + number BitField.laneS w) (generalAt BitField.rn .x64 w) post

def read : Form → Word → Option Instr
  | .mov, w =>
      let width := widthAt BitField.sf w
      some (.mov (generalAt BitField.rd width w) (generalAt BitField.rm width w))
  | .movz, w => some (wideAt .movz w)
  | .movk, w => some (wideAt .movk w)
  | .addImm, w => some (immediateAt .addImm w)
  | .subImm, w => some (immediateAt .subImm w)
  | .addReg, w => shiftedAt .addReg w
  | .subReg, w => shiftedAt .subReg w
  | .ubfm, w => shiftImmAt w
  | .madd, w =>
      let width := widthAt BitField.sf w
      some (.madd (generalAt BitField.rd width w) (generalAt BitField.rn width w)
        (generalAt BitField.rm width w) (generalAt BitField.ra width w))
  | .cbz, w => some (compareAt .cbz w)
  | .cbnz, w => some (compareAt .cbnz w)
  | .b, w => some (.b (BitField.imm26.extractSigned w))
  | .ret, _ => some .ret
  | .nop, _ => some .nop
  | .transfer, w =>
      let rt := generalAt BitField.rt (widthAt BitField.q w) w
      some (.transfer (directionAt w) rt (generalAt BitField.rn .x64 w)
        (number BitField.imm12 w * 2 ^ (2 + rt.sf) : ℕ) .offset)
  | .transferIndexed, w =>
      some (.transfer (directionAt w) (generalAt BitField.rt (widthAt BitField.q w) w)
        (generalAt BitField.rn .x64 w) (BitField.imm9.extractSigned w) (indexAt w))
  | .transferV size, w =>
      some (.transferV (directionAt w) size (vectorAt BitField.rt w) (generalAt BitField.rn .x64 w)
        (number BitField.imm12 w * 2 ^ size.scale : ℕ) .offset)
  | .transferVIndexed size, w =>
      some (.transferV (directionAt w) size (vectorAt BitField.rt w) (generalAt BitField.rn .x64 w)
        (BitField.imm9.extractSigned w) (indexAt w))
  | .transferPair, w =>
      (pairSizeAt w).bind fun size =>
        (pairModeAt w).map fun mode =>
          .transferPair (directionAt w) size (vectorAt BitField.rt w) (vectorAt BitField.rt2 w)
            (generalAt BitField.rn .x64 w) (BitField.imm7.extractSigned w * 2 ^ size.scale) mode
  | .transferLane, w => some (laneAt false w)
  | .transferLanePost, w => some (laneAt true w)
  | .fmlaElem, w =>
      some (.fmlaElem (arrangementAt w) (vectorAt BitField.rd w) (vectorAt BitField.rn w)
        (vectorAt BitField.rm w) (2 * number BitField.elemH w + number BitField.elemL w))
  | .fmax, w =>
      let operands := (vectorAt BitField.rd w, vectorAt BitField.rn w, vectorAt BitField.rm w)
      if number BitField.sz w = 0 then
        some (.fmax (arrangementAt w) operands.1 operands.2.1 operands.2.2)
      else if number BitField.q w = 1 then some (.fmax .d2 operands.1 operands.2.1 operands.2.2)
      else none
  | .moviWide, w => some (.moviZero .d2 (vectorAt BitField.rd w))
  | .movi, w => some (.moviZero (arrangementAt w) (vectorAt BitField.rd w))

end Form

/-- The instruction that a word stands for, if it is one of a known form. -/
def decode (w : Word) : Option Instr := (Form.all.find? fun f => f.Matches w).bind fun f => f.read w

def Form.Encodes (f : Form) (opcode : Word) (fields : List BitField) : Prop :=
  BitField.Layout opcode fields ∧ opcode &&& f.fixed = f.opcode ∧
    ∀ g ∈ fields, g.mask <<< g.lsb &&& f.fixed = 0#32

instance (f : Form) (opcode : Word) (fields : List BitField) : Decidable (f.Encodes opcode fields) :=
  inferInstanceAs (Decidable (_ ∧ _ ∧ _))

theorem decode_of_matches {f : Form} {w : Word} (h : f.Matches w) : decode w = f.read w := by
  have hfind : Form.all.find? (fun g => g.Matches w) = some f := by
    cases hg : Form.all.find? (fun g => g.Matches w) with
    | none =>
      have hnone := List.find?_eq_none.1 hg f (Form.mem_all f)
      exact absurd h (by simpa using hnone)
    | some g =>
      have hm : g.Matches w := by simpa using List.find?_some hg
      rw [hm.unique h]
  rw [decode, hfind, Option.bind_some]

theorem decode_join (f : Form) (opcode : Word) (fields : List BitField) (values : List Word)
    (h : f.Encodes opcode fields) {i : Instr}
    (hread : ∀ w, BitField.HasAll w fields values → f.read w = some i) :
    decode (BitField.join opcode fields values) = some i := by
  have hmatch : f.Matches (BitField.join opcode fields values) := by
    rw [Form.Matches, BitField.join_and h.2.2, h.2.1]
  rw [decode_of_matches hmatch, hread _ (BitField.hasAll_join h.1 values)]

namespace Instr

def OffsetFits (scale : ℕ) (offset : Int) : AddressMode → Prop
  | .offset => ∃ n : ℕ, n < 2 ^ 12 ∧ offset = (n * 2 ^ scale : ℕ)
  | .preIndex | .postIndex => -2 ^ 8 ≤ offset ∧ offset < 2 ^ 8

/-- Whether every operand fits its field. -/
def InRange : Instr → Prop
  | .movz _ imm hw | .movk _ imm hw => imm < 2 ^ 16 ∧ hw < 4
  | .addImm _ _ imm _ | .subImm _ _ imm _ => imm < 2 ^ 12
  | .addReg rd _ _ _ amount | .subReg rd _ _ _ amount | .lslImm rd _ amount
  | .lsrImm rd _ amount => amount < rd.bits
  | .cbz _ d | .cbnz _ d => -2 ^ 18 ≤ d ∧ d < 2 ^ 18
  | .b d => -2 ^ 25 ≤ d ∧ d < 2 ^ 25
  | .transfer _ rt _ offset mode => OffsetFits (2 + rt.sf) offset mode
  | .transferV _ size _ _ offset mode => OffsetFits size.scale offset mode
  | .transferPair _ size _ _ _ offset _ =>
      ∃ n : Int, -2 ^ 6 ≤ n ∧ n < 2 ^ 6 ∧ offset = n * 2 ^ size.scale
  | .transferLane _ _ lane _ _ => lane < 4
  | .fmlaElem arr _ _ _ lane => arr ≠ .d2 ∧ lane < 4
  | _ => True

/-- The instruction with the operand widths that its word determines, and the one spelling where
two are encoded alike. -/
def canonical : Instr → Instr
  | .mov rd rm => .mov rd ⟨rm.id, rd.width⟩
  | .addImm rd rn imm lsl12 => .addImm rd ⟨rn.id, rd.width⟩ imm lsl12
  | .subImm rd rn imm lsl12 => .subImm rd ⟨rn.id, rd.width⟩ imm lsl12
  | .addReg rd rn rm shift amount =>
      .addReg rd ⟨rn.id, rd.width⟩ ⟨rm.id, rd.width⟩ shift amount
  | .subReg rd rn rm shift amount =>
      .subReg rd ⟨rn.id, rd.width⟩ ⟨rm.id, rd.width⟩ shift amount
  | .lslImm rd rn 0 => .lsrImm rd ⟨rn.id, rd.width⟩ 0
  | .lslImm rd rn amount => .lslImm rd ⟨rn.id, rd.width⟩ amount
  | .lsrImm rd rn amount => .lsrImm rd ⟨rn.id, rd.width⟩ amount
  | .madd rd rn rm ra => .madd rd ⟨rn.id, rd.width⟩ ⟨rm.id, rd.width⟩ ⟨ra.id, rd.width⟩
  | .mul rd rn rm => .madd rd ⟨rn.id, rd.width⟩ ⟨rm.id, rd.width⟩ ⟨31, rd.width⟩
  | .transfer dir rt rn offset mode => .transfer dir rt ⟨rn.id, .x64⟩ offset mode
  | .transferV dir size rt rn offset mode => .transferV dir size rt ⟨rn.id, .x64⟩ offset mode
  | .transferPair dir size rt rt2 rn offset mode =>
      .transferPair dir size rt rt2 ⟨rn.id, .x64⟩ offset mode
  | .transferLane dir rt lane rn post => .transferLane dir rt lane ⟨rn.id, .x64⟩ post
  | i => i

end Instr

/-! Operands are read back from the fields they were placed in. -/

section Operands

open BitField Form

theorem GeneralReg.sf_lt (r : GeneralReg) : r.sf < 2 := by
  obtain ⟨id, width⟩ := r
  cases width <;> simp [GeneralReg.sf]

theorem GeneralReg.bits_le (r : GeneralReg) : r.bits ≤ 2 ^ 6 := by
  obtain ⟨id, width⟩ := r
  cases width <;> simp [GeneralReg.bits, Width.bits]

theorem GeneralReg.bits_pos (r : GeneralReg) : 0 < r.bits := by
  obtain ⟨id, width⟩ := r
  cases width <;> simp [GeneralReg.bits, Width.bits]

variable {w : Word} {f : BitField}

theorem BitField.Has.general {r : Fin 32} (h : Has w f (.ofNat 32 r.val)) (hf : f.InWord)
    (hw : f.width = 5) (width : Width) : generalAt f width w = ⟨r, width⟩ := by
  have hr := h.toNat_eq hf (by rw [hw]; exact r.isLt)
  rw [generalAt, number, hr, GeneralReg.mk.injEq]
  exact ⟨Fin.ext (Nat.mod_eq_of_lt r.isLt), rfl⟩

theorem BitField.Has.vector {r : VectorReg} (h : Has w f (.ofNat 32 r.id.val)) (hf : f.InWord)
    (hw : f.width = 5) : vectorAt f w = r := by
  have hr := h.toNat_eq hf (by rw [hw]; exact r.id.isLt)
  rw [vectorAt, number, hr]
  exact congrArg VectorReg.mk (Fin.ext (Nat.mod_eq_of_lt r.id.isLt))

theorem BitField.Has.width {r : GeneralReg} (h : Has w f (.ofNat 32 r.sf)) (hf : f.InWord)
    (hw : f.width = 1) : widthAt f w = r.width := by
  rw [widthAt, number, h.toNat_eq hf (by rw [hw]; exact r.sf_lt)]
  obtain ⟨id, width⟩ := r
  cases width <;> rfl

theorem BitField.Has.flag {b : Bool} (h : Has w f (.ofNat 32 b.toNat)) (hf : f.InWord)
    (hw : f.width = 1) : (number f w != 0) = b := by
  rw [number, h.toNat_eq hf (by rw [hw]; exact b.toNat_lt)]
  cases b <;> rfl

theorem BitField.Has.direction {dir : Transfer} (h : Has w load (.ofNat 32 dir.bit)) :
    directionAt w = dir := by
  rw [directionAt, number, h.toNat_eq_mod (by decide)]
  cases dir <;> rfl

theorem BitField.Has.shift {shift : Shift} (h : Has w BitField.shift (.ofNat 32 shift.code)) :
    shiftAt w = some shift := by
  rw [shiftAt, number, h.toNat_eq_mod (by decide)]
  cases shift <;> rfl

theorem BitField.Has.arrangement {arr : Arrangement} (h : Has w q (.ofNat 32 arr.q))
    (harr : arr ≠ .d2) : arrangementAt w = arr := by
  rw [arrangementAt, number, h.toNat_eq_mod (by decide)]
  cases arr with
  | d2 => exact absurd rfl harr
  | s2 | s4 => rfl

theorem BitField.Has.pairMode {mode : AddressMode}
    (h : Has w BitField.pairMode (.ofNat 32 mode.pairBits)) : pairModeAt w = some mode := by
  rw [pairModeAt, number, h.toNat_eq_mod (by decide)]
  cases mode <;> rfl

theorem BitField.Has.pairSize {size : AccessSize}
    (h : Has w pairSizeBits (.ofNat 32 (size.scale - 2))) : pairSizeAt w = some size := by
  rw [pairSizeAt, number, h.toNat_eq_mod (by decide)]
  cases size <;> rfl

def AddressMode.before : AddressMode → ℕ
  | .preIndex => 1
  | _ => 0

theorem BitField.Has.index {mode : AddressMode} (h : Has w beforeBit (.ofNat 32 mode.before))
    (hmode : mode ≠ .offset) : indexAt w = mode := by
  rw [indexAt, number, h.toNat_eq_mod (by decide)]
  cases mode with
  | offset => exact absurd rfl hmode
  | preIndex | postIndex => rfl

theorem BitField.Has.lane {high low : BitField} {lane : ℕ}
    (hhigh : Has w high (.ofNat 32 (lane >>> 1))) (hlow : Has w low (.ofNat 32 lane))
    (hh : high.InWord) (hl : low.InWord) (whigh : high.width = 1) (wlow : low.width = 1)
    (h : lane < 4) : 2 * number high w + number low w = lane := by
  rw [number, number, hhigh.toNat_eq_mod hh, hlow.toNat_eq_mod hl, whigh, wlow,
    Nat.shiftRight_eq_div_pow]
  omega

end Operands

namespace Instr

open BitField Form

/-! Data processing. -/

theorem decode_mov (rd rm : GeneralReg) :
    decode (mov rd rm).encode = some (.mov rd ⟨rm.id, rd.width⟩) := by
  refine decode_join .mov 0x2A0003E0#32 [sf, BitField.rm, BitField.rd]
    [.ofNat 32 rd.sf, .ofNat 32 rm.id, .ofNat 32 rd.id] (by decide) ?_
  rintro w ⟨hsf, hrm, hrd, -⟩
  rw [Form.read, hsf.width (by decide) rfl, hrm.general (by decide) rfl, hrd.general (by decide) rfl]

theorem decode_wide (f : Form) {opcode : Word} {make : GeneralReg → ℕ → ℕ → Instr}
    (h : f.Encodes opcode [sf, BitField.hw, imm16, BitField.rd])
    (hread : ∀ w, f.read w = some (wideAt make w)) (rd : GeneralReg) {imm hw : ℕ}
    (himm : imm < 2 ^ 16) (hhw : hw < 4) :
    decode (opcode ||| sf.put rd.sf ||| BitField.hw.put hw ||| imm16.put imm |||
      putGeneral BitField.rd rd) = some (make rd imm hw) := by
  refine decode_join f opcode _ [.ofNat 32 rd.sf, .ofNat 32 hw, .ofNat 32 imm, .ofNat 32 rd.id] h ?_
  rintro w ⟨hsf, hhw', himm', hrd, -⟩
  rw [hread, wideAt, hsf.width (by decide) rfl, hrd.general (by decide) rfl, number, number,
    himm'.toNat_eq (by decide) himm, hhw'.toNat_eq (by decide) hhw]

theorem decode_immediate (f : Form) {opcode : Word}
    {make : GeneralReg → GeneralReg → ℕ → Bool → Instr}
    (h : f.Encodes opcode [sf, sh, imm12, BitField.rn, BitField.rd])
    (hread : ∀ w, f.read w = some (immediateAt make w)) (rd rn : GeneralReg) {imm : ℕ}
    (himm : imm < 2 ^ 12) (lsl12 : Bool) :
    decode (encodeAddImm opcode rd rn imm lsl12) = some (make rd ⟨rn.id, rd.width⟩ imm lsl12) := by
  refine decode_join f opcode _ [.ofNat 32 rd.sf, .ofNat 32 lsl12.toNat, .ofNat 32 imm,
    .ofNat 32 rn.id, .ofNat 32 rd.id] h ?_
  rintro w ⟨hsf, hsh, himm', hrn, hrd, -⟩
  rw [hread, immediateAt, hsf.width (by decide) rfl, hrd.general (by decide) rfl,
    hrn.general (by decide) rfl, hsh.flag (by decide) rfl, number, himm'.toNat_eq (by decide) himm]

theorem decode_shifted (f : Form) {opcode : Word}
    {make : GeneralReg → GeneralReg → GeneralReg → Shift → ℕ → Instr}
    (h : f.Encodes opcode [sf, BitField.shift, BitField.rm, imm6, BitField.rn, BitField.rd])
    (hread : ∀ w, f.read w = shiftedAt make w) (rd rn rm : GeneralReg) (shift : Shift) {amount : ℕ}
    (hamount : amount < rd.bits) :
    decode (encodeAddReg opcode rd rn rm shift amount) =
      some (make rd ⟨rn.id, rd.width⟩ ⟨rm.id, rd.width⟩ shift amount) := by
  refine decode_join f opcode _ [.ofNat 32 rd.sf, .ofNat 32 shift.code, .ofNat 32 rm.id,
    .ofNat 32 amount, .ofNat 32 rn.id, .ofNat 32 rd.id] h ?_
  rintro w ⟨hsf, hshift, hrm, hamount', hrn, hrd, -⟩
  rw [hread, shiftedAt, hshift.shift, Option.map_some, hsf.width (by decide) rfl,
    hrd.general (by decide) rfl, hrn.general (by decide) rfl, hrm.general (by decide) rfl, number,
    hamount'.toNat_eq (by decide) (lt_of_lt_of_le hamount rd.bits_le)]

theorem decode_ubfm (rd rn : GeneralReg) {immr imms : ℕ} {i : Instr} (hr : immr < 2 ^ 6)
    (hs : imms < 2 ^ 6)
    (hi : (if imms = rd.bits - 1 then some (.lsrImm rd ⟨rn.id, rd.width⟩ immr)
      else if imms + 1 = immr then some (.lslImm rd ⟨rn.id, rd.width⟩ (rd.bits - immr))
      else none) = some i) :
    decode (encodeUbfm rd rn immr imms) = some i := by
  refine decode_join .ubfm 0x53000000#32
    [sf, BitField.n, BitField.immr, BitField.imms, BitField.rn, BitField.rd]
    [.ofNat 32 rd.sf, .ofNat 32 rd.sf, .ofNat 32 immr, .ofNat 32 imms, .ofNat 32 rn.id,
      .ofNat 32 rd.id] (by decide) ?_
  rintro w ⟨hsf, hn, hr', hs', hrn, hrd, -⟩
  rw [← hi, Form.read, shiftImmAt, hsf.width (by decide) rfl, hn.width (by decide) rfl,
    hrd.general (by decide) rfl, hrn.general (by decide) rfl, number, number,
    hr'.toNat_eq (by decide) hr, hs'.toNat_eq (by decide) hs]
  exact if_neg (not_not_intro rfl)

theorem decode_lslImm (rd rn : GeneralReg) {amount : ℕ} (h : amount < rd.bits) :
    decode (lslImm rd rn amount).encode = some (lslImm rd rn amount).canonical := by
  have hbits := rd.bits_le
  simp only [encode, Nat.mod_eq_of_lt h]
  cases amount with
  | zero =>
    rw [Nat.sub_zero, Nat.sub_zero, Nat.mod_self]
    exact decode_ubfm rd rn (by decide) (by omega) (if_pos rfl)
  | succ amount =>
    rw [Nat.mod_eq_of_lt (by omega)]
    refine decode_ubfm rd rn (by omega) (by omega) ?_
    rw [if_neg (by omega), if_pos (by omega), Nat.sub_sub_self h.le]
    rfl

theorem decode_lsrImm (rd rn : GeneralReg) {amount : ℕ} (h : amount < rd.bits) :
    decode (lsrImm rd rn amount).encode = some (.lsrImm rd ⟨rn.id, rd.width⟩ amount) := by
  have hbits := rd.bits_le
  exact decode_ubfm rd rn (by omega) (by omega) (if_pos rfl)

theorem decode_madd (rd rn rm ra : GeneralReg) :
    decode (encodeMadd rd rn rm ra) =
      some (.madd rd ⟨rn.id, rd.width⟩ ⟨rm.id, rd.width⟩ ⟨ra.id, rd.width⟩) := by
  refine decode_join .madd 0x1B000000#32 [sf, BitField.rm, BitField.ra, BitField.rn, BitField.rd]
    [.ofNat 32 rd.sf, .ofNat 32 rm.id, .ofNat 32 ra.id, .ofNat 32 rn.id, .ofNat 32 rd.id]
    (by decide) ?_
  rintro w ⟨hsf, hrm, hra, hrn, hrd, -⟩
  rw [Form.read, hsf.width (by decide) rfl, hrd.general (by decide) rfl, hrn.general (by decide) rfl,
    hrm.general (by decide) rfl, hra.general (by decide) rfl]

/-! Branches. -/

theorem decode_compare (f : Form) {opcode : Word} {make : GeneralReg → Int → Instr}
    (h : f.Encodes opcode [sf, imm19, BitField.rt])
    (hread : ∀ w, f.read w = some (compareAt make w)) (rt : GeneralReg) {d : Int}
    (hlo : -2 ^ 18 ≤ d) (hhi : d < 2 ^ 18) :
    decode (encodeCompareBranch opcode rt d) = some (make rt d) := by
  refine decode_join f opcode _ [.ofNat 32 rt.sf, .ofInt 32 d, .ofNat 32 rt.id] h ?_
  rintro w ⟨hsf, hd, hrt, -⟩
  rw [hread, compareAt, hsf.width (by decide) rfl, hrt.general (by decide) rfl,
    hd.extractSigned_eq (by decide) (by decide) hlo hhi]

theorem decode_b {d : Int} (hlo : -2 ^ 25 ≤ d) (hhi : d < 2 ^ 25) :
    decode (b d).encode = some (.b d) := by
  refine decode_join .b 0x14000000#32 [imm26] [.ofInt 32 d] (by decide) ?_
  rintro w ⟨hd, -⟩
  rw [Form.read, hd.extractSigned_eq (by decide) (by decide) hlo hhi]

/-! Vector arithmetic. -/

theorem decode_fmlaElem {arr : Arrangement} (harr : arr ≠ .d2) (rd rn rm : VectorReg) {lane : ℕ}
    (hlane : lane < 4) :
    decode (fmlaElem arr rd rn rm lane).encode = some (.fmlaElem arr rd rn rm lane) := by
  refine decode_join .fmlaElem 0x0F801000#32
    [q, elemL, BitField.rm, elemH, BitField.rn, BitField.rd]
    [.ofNat 32 arr.q, .ofNat 32 lane, .ofNat 32 rm.id, .ofNat 32 (lane >>> 1), .ofNat 32 rn.id,
      .ofNat 32 rd.id] (by decide) ?_
  rintro w ⟨hq, hlow, hrm, hhigh, hrn, hrd, -⟩
  rw [Form.read, hq.arrangement harr, hrd.vector (by decide) rfl, hrn.vector (by decide) rfl,
    hrm.vector (by decide) rfl, hhigh.lane hlow (by decide) (by decide) rfl rfl hlane]

theorem decode_fmax (arr : Arrangement) (rd rn rm : VectorReg) :
    decode (fmax arr rd rn rm).encode = some (.fmax arr rd rn rm) := by
  refine decode_join .fmax 0x0E20F400#32 [q, sz, BitField.rm, BitField.rn, BitField.rd]
    [.ofNat 32 arr.q, .ofNat 32 arr.sz, .ofNat 32 rm.id, .ofNat 32 rn.id, .ofNat 32 rd.id]
    (by decide) ?_
  rintro w ⟨hq, hsz, hrm, hrn, hrd, -⟩
  rw [Form.read, hrd.vector (by decide) rfl, hrn.vector (by decide) rfl, hrm.vector (by decide) rfl,
    arrangementAt, number, number, hq.toNat_eq_mod (by decide), hsz.toNat_eq_mod (by decide)]
  cases arr <;> rfl

theorem decode_moviZero (arr : Arrangement) (rd : VectorReg) :
    decode (moviZero arr rd).encode = some (.moviZero arr rd) := by
  by_cases harr : arr = .d2
  · subst harr
    refine decode_join .moviWide 0x6F00E400#32 [BitField.rd] [.ofNat 32 rd.id] (by decide) ?_
    rintro w ⟨hrd, -⟩
    rw [Form.read, hrd.vector (by decide) rfl]
  · have hencode : (moviZero arr rd).encode =
        join 0x0F000400#32 [q, BitField.rd] [.ofNat 32 arr.q, .ofNat 32 rd.id] := by
      cases arr with
      | d2 => exact absurd rfl harr
      | s2 | s4 => rfl
    rw [hencode]
    refine decode_join .movi _ _ _ (by decide) ?_
    rintro w ⟨hq, hrd, -⟩
    rw [Form.read, hq.arrangement harr, hrd.vector (by decide) rfl]

/-! Transfers of one register. The address part holds bits of the opcode, and for a general register
the width stands before it. -/

theorem shiftRight_scaled (n : Int) (scale : ℕ) : (n * 2 ^ scale) >>> scale = n := by
  rw [Int.shiftRight_eq_div_pow]
  exact_mod_cast Int.mul_ediv_cancel n (by exact_mod_cast (Nat.two_pow_pos scale).ne')

theorem OffsetFits.of_indexed {scale : ℕ} {offset : Int} {mode : AddressMode}
    (h : OffsetFits scale offset mode) (hmode : mode ≠ .offset) :
    -2 ^ 8 ≤ offset ∧ offset < 2 ^ 8 := by
  cases mode with
  | offset => exact absurd rfl hmode
  | preIndex | postIndex => exact h

theorem or_encodeAddress_offset (opcode v : Word) (scale n : ℕ) :
    opcode ||| load.place v ||| encodeAddress scale ((n * 2 ^ scale : ℕ) : Int) .offset =
      join (opcode ||| 0x01000000#32) [load, imm12] [v, .ofNat 32 n] := by
  have hor (a b c d : Word) : a ||| b ||| (c ||| d) = a ||| c ||| b ||| d := by ac_rfl
  rw [Nat.cast_mul, Nat.cast_pow, Nat.cast_ofNat, encodeAddress, shiftRight_scaled, putInt,
    BitVec.ofInt_natCast, hor]
  rfl

theorem or_encodeAddress_indexed (opcode v : Word) (scale : ℕ) (offset : Int) {mode : AddressMode}
    (hmode : mode ≠ .offset) :
    opcode ||| load.place v ||| encodeAddress scale offset mode =
      join (opcode ||| 0x00000400#32) [load, beforeBit, imm9]
        [v, .ofNat 32 mode.before, .ofInt 32 offset] := by
  have hor (a b c d e : Word) : a ||| b ||| (c ||| d ||| e) = a ||| c ||| b ||| d ||| e := by ac_rfl
  have haddress : encodeAddress scale offset mode = 0x00000400#32 |||
      beforeBit.place (.ofNat 32 mode.before) ||| imm9.place (.ofInt 32 offset) := by
    cases mode with
    | offset => exact absurd rfl hmode
    | preIndex | postIndex => rfl
  rw [haddress, hor]
  rfl

theorem size_bits (r : GeneralReg) (opcode v : Word) :
    BitVec.ofNat 32 (2 + r.sf) <<< 30 ||| opcode ||| v =
      0x80000000#32 ||| opcode ||| v ||| q.place (.ofNat 32 r.sf) := by
  have hor (a b c d : Word) : a ||| b ||| c ||| d = a ||| c ||| d ||| b := by ac_rfl
  have hsize : BitVec.ofNat 32 (2 + r.sf) <<< 30 = 0x80000000#32 ||| q.place (.ofNat 32 r.sf) := by
    obtain ⟨id, width⟩ := r
    cases width with
    | w32 => exact (by decide : 2#32 <<< 30 = 0x80000000#32 ||| q.place 0#32)
    | x64 => exact (by decide : 3#32 <<< 30 = 0x80000000#32 ||| q.place 1#32)
  rw [hsize, hor]

theorem decode_transfer (dir : Transfer) (rt rn : GeneralReg) {offset : Int} {mode : AddressMode}
    (h : OffsetFits (2 + rt.sf) offset mode) :
    decode (encodeTransfer dir rt rn offset mode) =
      some (.transfer dir rt ⟨rn.id, .x64⟩ offset mode) := by
  rw [encodeTransfer, BitField.put]
  by_cases hmode : mode = .offset
  · subst hmode
    obtain ⟨n, hn, rfl⟩ := h
    rw [or_encodeAddress_offset, size_bits]
    refine decode_join .transfer (0x80000000#32 ||| 0x38000000#32 ||| 0x01000000#32)
      [q, load, imm12, BitField.rn, BitField.rt] [.ofNat 32 rt.sf, .ofNat 32 dir.bit, .ofNat 32 n,
        .ofNat 32 rn.id, .ofNat 32 rt.id] (by decide) ?_
    rintro w ⟨hq, hload, hn', hrn, hrt, -⟩
    rw [Form.read, hq.width (by decide) rfl, hload.direction, hrn.general (by decide) rfl,
      hrt.general (by decide) rfl, number, hn'.toNat_eq (by decide) hn]
  · obtain ⟨hlo, hhi⟩ := h.of_indexed hmode
    rw [or_encodeAddress_indexed _ _ _ _ hmode, size_bits]
    refine decode_join .transferIndexed (0x80000000#32 ||| 0x38000000#32 ||| 0x00000400#32)
      [q, load, beforeBit, imm9, BitField.rn, BitField.rt] [.ofNat 32 rt.sf, .ofNat 32 dir.bit,
        .ofNat 32 mode.before, .ofInt 32 offset, .ofNat 32 rn.id, .ofNat 32 rt.id] (by decide) ?_
    rintro w ⟨hq, hload, hbefore, hoffset, hrn, hrt, -⟩
    rw [Form.read, hq.width (by decide) rfl, hload.direction, hrn.general (by decide) rfl,
      hrt.general (by decide) rfl, hbefore.index hmode,
      hoffset.extractSigned_eq (by decide) (by decide) hlo hhi]

theorem decode_transferV (dir : Transfer) (size : AccessSize) (rt : VectorReg) (rn : GeneralReg)
    {offset : Int} {mode : AddressMode} (h : OffsetFits size.scale offset mode) :
    decode (encodeTransferV dir size rt rn offset mode) =
      some (.transferV dir size rt ⟨rn.id, .x64⟩ offset mode) := by
  rw [encodeTransferV, BitField.put]
  by_cases hmode : mode = .offset
  · subst hmode
    obtain ⟨n, hn, rfl⟩ := h
    rw [or_encodeAddress_offset]
    refine decode_join (.transferV size) (accessBits size ||| 0x3C000000#32 ||| 0x01000000#32)
      [load, imm12, BitField.rn, BitField.rt] [.ofNat 32 dir.bit, .ofNat 32 n, .ofNat 32 rn.id,
        .ofNat 32 rt.id] (by cases size <;> decide) ?_
    rintro w ⟨hload, hn', hrn, hrt, -⟩
    rw [Form.read, hload.direction, hrt.vector (by decide) rfl, hrn.general (by decide) rfl, number,
      hn'.toNat_eq (by decide) hn]
  · obtain ⟨hlo, hhi⟩ := h.of_indexed hmode
    rw [or_encodeAddress_indexed _ _ _ _ hmode]
    refine decode_join (.transferVIndexed size) (accessBits size ||| 0x3C000000#32 ||| 0x00000400#32)
      [load, beforeBit, imm9, BitField.rn, BitField.rt] [.ofNat 32 dir.bit, .ofNat 32 mode.before,
        .ofInt 32 offset, .ofNat 32 rn.id, .ofNat 32 rt.id] (by cases size <;> decide) ?_
    rintro w ⟨hload, hbefore, hoffset, hrn, hrt, -⟩
    rw [Form.read, hload.direction, hrt.vector (by decide) rfl, hrn.general (by decide) rfl,
      hbefore.index hmode, hoffset.extractSigned_eq (by decide) (by decide) hlo hhi]

/-! Transfers of two registers and of one lane. -/

theorem decode_transferPair (dir : Transfer) (size : AccessSize) (rt rt2 : VectorReg)
    (rn : GeneralReg) {n : Int} (hlo : -2 ^ 6 ≤ n) (hhi : n < 2 ^ 6) (mode : AddressMode) :
    decode (encodeTransferPair dir size rt rt2 rn (n * 2 ^ size.scale) mode) =
      some (.transferPair dir size rt rt2 ⟨rn.id, .x64⟩ (n * 2 ^ size.scale) mode) := by
  have hsize : BitVec.ofNat 32 (size.scale - 2) <<< 30 =
      pairSizeBits.place (.ofNat 32 (size.scale - 2)) := by
    cases size <;> decide
  rw [encodeTransferPair, shiftRight_scaled, hsize]
  refine decode_join .transferPair 0x2C000000#32
    [pairSizeBits, BitField.pairMode, load, imm7, BitField.rt2, BitField.rn, BitField.rt]
    [.ofNat 32 (size.scale - 2), .ofNat 32 mode.pairBits, .ofNat 32 dir.bit, .ofInt 32 n,
      .ofNat 32 rt2.id, .ofNat 32 rn.id, .ofNat 32 rt.id] (by decide) ?_
  rintro w ⟨hpair, hmode, hload, hn, hrt2, hrn, hrt, -⟩
  rw [Form.read, hpair.pairSize, hmode.pairMode, Option.bind_some, Option.map_some, hload.direction,
    hrt.vector (by decide) rfl, hrt2.vector (by decide) rfl, hrn.general (by decide) rfl,
    hn.extractSigned_eq (by decide) (by decide) hlo hhi]

theorem decode_lane (f : Form) {post : Bool} (hread : ∀ w, f.read w = some (laneAt post w))
    (h : f.Encodes (0x0D008000#32 ||| BitField.post.put post.toNat |||
      BitField.rm.put (if post then 31 else 0)) [q, load, laneS, BitField.rn, BitField.rt])
    (dir : Transfer) (rt : VectorReg) {lane : ℕ} (hlane : lane < 4) (rn : GeneralReg) :
    decode (encodeTransferLane dir rt lane rn post) =
      some (.transferLane dir rt lane ⟨rn.id, .x64⟩ post) := by
  have hor (a b c d e : Word) : a ||| b ||| c ||| d ||| e = a ||| c ||| e ||| b ||| d := by ac_rfl
  rw [encodeTransferLane, hor 0x0D008000#32]
  refine decode_join f _ [q, load, laneS, BitField.rn, BitField.rt] [.ofNat 32 (lane >>> 1),
    .ofNat 32 dir.bit, .ofNat 32 lane, .ofNat 32 rn.id, .ofNat 32 rt.id] h ?_
  rintro w ⟨hhigh, hload, hlow, hrn, hrt, -⟩
  rw [hread, laneAt, hload.direction, hrt.vector (by decide) rfl, hrn.general (by decide) rfl,
    hhigh.lane hlow (by decide) (by decide) rfl rfl hlane]

theorem decode_transferLane (dir : Transfer) (rt : VectorReg) {lane : ℕ} (hlane : lane < 4)
    (rn : GeneralReg) (post : Bool) :
    decode (encodeTransferLane dir rt lane rn post) =
      some (.transferLane dir rt lane ⟨rn.id, .x64⟩ post) := by
  cases post with
  | false => exact decode_lane .transferLane (fun _ => rfl) (by decide) dir rt hlane rn
  | true => exact decode_lane .transferLanePost (fun _ => rfl) (by decide) dir rt hlane rn

/-- Every instruction whose operands fit is read back from its word. -/
theorem decode_encode {i : Instr} (h : i.InRange) : decode i.encode = some i.canonical := by
  cases i with
  | mov rd rm => exact decode_mov rd rm
  | movz rd imm hw => exact decode_wide .movz (by decide) (fun _ => rfl) rd h.1 h.2
  | movk rd imm hw => exact decode_wide .movk (by decide) (fun _ => rfl) rd h.1 h.2
  | addImm rd rn imm lsl12 => exact decode_immediate .addImm (by decide) (fun _ => rfl) rd rn h lsl12
  | subImm rd rn imm lsl12 => exact decode_immediate .subImm (by decide) (fun _ => rfl) rd rn h lsl12
  | addReg rd rn rm shift amount =>
    exact decode_shifted .addReg (by decide) (fun _ => rfl) rd rn rm shift h
  | subReg rd rn rm shift amount =>
    exact decode_shifted .subReg (by decide) (fun _ => rfl) rd rn rm shift h
  | lslImm rd rn amount => exact decode_lslImm rd rn h
  | lsrImm rd rn amount => exact decode_lsrImm rd rn h
  | madd rd rn rm ra => exact decode_madd rd rn rm ra
  | mul rd rn rm => exact decode_madd rd rn rm GeneralReg.zero
  | cbz rt d => exact decode_compare .cbz (by decide) (fun _ => rfl) rt h.1 h.2
  | cbnz rt d => exact decode_compare .cbnz (by decide) (fun _ => rfl) rt h.1 h.2
  | b d => exact decode_b h.1 h.2
  | ret => exact decode_join .ret 0xD65F03C0#32 [] [] (by decide) fun _ _ => rfl
  | nop => exact decode_join .nop 0xD503201F#32 [] [] (by decide) fun _ _ => rfl
  | transfer dir rt rn offset mode => exact decode_transfer dir rt rn h
  | transferV dir size rt rn offset mode => exact decode_transferV dir size rt rn h
  | transferPair dir size rt rt2 rn offset mode =>
    obtain ⟨n, hlo, hhi, rfl⟩ := h
    exact decode_transferPair dir size rt rt2 rn hlo hhi mode
  | transferLane dir rt lane rn post => exact decode_transferLane dir rt h rn post
  | fmlaElem arr rd rn rm lane => exact decode_fmlaElem h.1 rd rn rm h.2
  | fmax arr rd rn rm => exact decode_fmax arr rd rn rm
  | moviZero arr rd => exact decode_moviZero arr rd

end Instr

end TensorKernels
