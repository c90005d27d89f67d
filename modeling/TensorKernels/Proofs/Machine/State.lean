import TensorKernels.Machine.Instr
import TensorKernels.Proofs.Machine.Memory

/-!
What an instruction does to the registers and the memory. Single precision arithmetic is left open:
a lane is a value of any type that 32-bit patterns stand for, and the multiply-add and maximum of
lanes are any functions. Control flow is not part of an instruction's effect; see `Run`.
-/

namespace TensorKernels

/-- The registers and the memory. Entry 31 of the general registers is the stack pointer. -/
@[ext] structure State (F : Type) where
  general : Fin 32 → BitVec 64
  vector : Fin 32 → Fin 4 → F
  memory : Memory

variable {F : Type}

/-- A 64-bit register other than number 31. -/
def GeneralReg.IsX (r : GeneralReg) : Prop := r.width = .x64 ∧ r.id ≠ 31

instance (r : GeneralReg) : Decidable r.IsX := inferInstanceAs (Decidable (_ ∧ _))

theorem GeneralReg.IsX.bits_eq {r : GeneralReg} (h : r.IsX) : r.bits = 64 := by
  rw [GeneralReg.bits, h.1, Width.bits]

theorem GeneralReg.IsX.id_ne {r q : GeneralReg} (hr : r.IsX) (hq : q.IsX) (hne : r ≠ q) :
    r.id ≠ q.id := by
  intro hid
  have hwidth : r.width = q.width := hr.1.trans hq.1.symm
  obtain ⟨id, width⟩ := r
  obtain ⟨id', width'⟩ := q
  subst hid hwidth
  exact hne rfl

def Width.keep : Width → BitVec 64 → BitVec 64
  | .w32, v => (v.setWidth 32).setWidth 64
  | .x64, v => v

def Shift.apply (shift : Shift) (w : Width) (v : BitVec 64) (amount : ℕ) : BitVec 64 :=
  match shift, w with
  | .lsl, _ => v <<< amount
  | .lsr, _ => v >>> amount
  | .asr, .x64 => v.sshiftRight amount
  | .asr, .w32 => ((v.setWidth 32).sshiftRight amount).setWidth 64

def AddressMode.address (mode : AddressMode) (base : Address) (offset : Int) : Address :=
  match mode with
  | .postIndex => base
  | .offset | .preIndex => base + (offset : BitVec 64)

namespace State

def read (s : State F) (w : Width) (r : Fin 32) : BitVec 64 :=
  if r = 31 then 0 else w.keep (s.general r)

def readBase (s : State F) (w : Width) (r : Fin 32) : BitVec 64 := w.keep (s.general r)

def set (s : State F) (r : Fin 32) (v : BitVec 64) : State F :=
  { s with general := Function.update s.general r v }

@[simp] theorem general_set (s : State F) (r : Fin 32) (v : BitVec 64) :
    (s.set r v).general = Function.update s.general r v := rfl

theorem general_set_apply (s : State F) (r q : Fin 32) (v : BitVec 64) :
    (s.set r v).general q = if q = r then v else s.general q := by
  rw [general_set, Function.update_apply]

theorem general_set_same (s : State F) (r : Fin 32) (v : BitVec 64) :
    (s.set r v).general r = v := by
  rw [general_set, Function.update_self]

theorem general_set_of_ne (s : State F) {r r' : Fin 32} (h : r' ≠ r) (v : BitVec 64) :
    (s.set r v).general r' = s.general r' := by
  rw [general_set, Function.update_of_ne h]

@[simp] theorem vector_set (s : State F) (r : Fin 32) (v : BitVec 64) :
    (s.set r v).vector = s.vector := rfl

@[simp] theorem memory_set (s : State F) (r : Fin 32) (v : BitVec 64) :
    (s.set r v).memory = s.memory := rfl

@[simp] theorem set_general_self (s : State F) (r : Fin 32) : s.set r (s.general r) = s := by
  simp [set]

@[simp] theorem set_set (s : State F) (r : Fin 32) (v v' : BitVec 64) :
    (s.set r v).set r v' = s.set r v' := by
  simp [set]

def write (s : State F) (w : Width) (r : Fin 32) (v : BitVec 64) : State F :=
  if r = 31 then s else s.set r (w.keep v)

theorem read_x64 (s : State F) {r : Fin 32} (h : r ≠ 31) : s.read .x64 r = s.general r := if_neg h

theorem write_x64 (s : State F) {r : Fin 32} (h : r ≠ 31) (v : BitVec 64) :
    s.write .x64 r v = s.set r v := if_neg h

def writeBase (s : State F) (w : Width) (r : Fin 32) (v : BitVec 64) : State F :=
  s.set r (w.keep v)

def setVector (s : State F) (r : Fin 32) (v : Fin 4 → F) : State F :=
  { s with vector := Function.update s.vector r v }

@[simp] theorem general_setVector (s : State F) (r : Fin 32) (v : Fin 4 → F) :
    (s.setVector r v).general = s.general := rfl

@[simp] theorem vector_setVector (s : State F) (r : Fin 32) (v : Fin 4 → F) :
    (s.setVector r v).vector = Function.update s.vector r v := rfl

@[simp] theorem memory_setVector (s : State F) (r : Fin 32) (v : Fin 4 → F) :
    (s.setVector r v).memory = s.memory := rfl

def writeBack (s : State F) (mode : AddressMode) (r : Fin 32) (offset : Int) : State F :=
  match mode with
  | .offset => s
  | .preIndex | .postIndex => s.set r (s.general r + (offset : BitVec 64))

def lanesOf (s : State F) (r : Fin 32) (i : ℕ) : F := s.vector r (Fin.ofNat 4 i)

def moveGeneral (s : State F) (dir : Transfer) (w : Width) (r : Fin 32) (a : Address) : State F :=
  match dir, w with
  | .load, .w32 => s.write .w32 r ((s.memory.word a).setWidth 64)
  | .load, .x64 => s.write .x64 r (s.memory.word (a + 4) ++ s.memory.word a)
  | .store, .w32 => { s with memory := s.memory.fill a 1 fun _ => (s.read .w32 r).setWidth 32 }
  | .store, .x64 =>
    { s with memory := s.memory.fill a 2 fun i => (s.read .x64 r).extractLsb' (32 * i) 32 }

theorem general_write_of_ne (s : State F) (w : Width) {r r' : Fin 32} (h : r ≠ r')
    (v : BitVec 64) : (s.write w r v).general r' = s.general r' := by
  rw [write]
  split_ifs
  · rfl
  · exact Function.update_of_ne h.symm _ _

theorem general_writeBack_of_not (s : State F) {mode : AddressMode} {r r' : Fin 32}
    (h : ¬(mode ≠ .offset ∧ r = r')) (offset : Int) :
    (s.writeBack mode r offset).general r' = s.general r' := by
  cases mode with
  | offset => rfl
  | preIndex | postIndex =>
    exact Function.update_of_ne (fun e => h ⟨by decide, e.symm⟩) _ _

theorem general_moveGeneral_of_not (s : State F) {dir : Transfer} {r r' : Fin 32}
    (h : ¬(dir = .load ∧ r = r')) (w : Width) (a : Address) :
    (s.moveGeneral dir w r a).general r' = s.general r' := by
  cases dir with
  | load => cases w <;> exact general_write_of_ne s _ (fun e => h ⟨rfl, e⟩) _
  | store => cases w <;> rfl

end State

/-- Single precision values, which 32 bits in memory stand for, with a multiply-add and a maximum. -/
class Lane (F : Type) where
  toBits : F → BitVec 32
  ofBits : BitVec 32 → F
  ofBits_toBits : ∀ v, ofBits (toBits v) = v
  /-- `fma acc x y` adds the product of `x` and `y` to `acc`. -/
  fma : F → F → F → F
  max : F → F → F

variable [Lane F]

def Lane.zero : F := Lane.ofBits 0

namespace Memory

def lane (m : Memory) (a : Address) : F := Lane.ofBits (m.word a)

theorem lane_congr {m m' : Memory} {a : Address} {changed : Set Address}
    (h : ∀ y ∉ changed, m y = m' y) (ha : Disjoint (region a 4) changed) :
    m.lane a = (m'.lane a : F) := by
  rw [lane, lane, word_congr fun y hy => h y (Set.disjoint_left.1 ha hy)]

def lanes (m : Memory) (a : Address) (n : ℕ) : Fin 4 → F := fun l =>
  if l.val < n then m.lane (a + (4 * l.val : ℕ)) else Lane.zero

theorem lanes_congr {m m' : Memory} {a : Address} {n : ℕ} (hn : 4 * n ≤ 2 ^ 64)
    (h : ∀ y ∈ region a (4 * n), m y = m' y) : m.lanes a n = (m'.lanes a n : Fin 4 → F) := by
  funext l
  rw [lanes, lanes]
  split_ifs with hl
  · refine congrArg Lane.ofBits (word_congr fun y hy => h y ?_)
    exact region_subset_of_le (by omega) hn hy
  · rfl

def fillLanes (m : Memory) (a : Address) (n : ℕ) (f : ℕ → F) : Memory :=
  m.fill a n fun i => Lane.toBits (f i)

theorem lane_fillLanes {m : Memory} {a : Address} {n i : ℕ} {f : ℕ → F} (hi : i < n)
    (hn : 4 * n ≤ 2 ^ 64) : (m.fillLanes a n f).lane (a + (4 * i : ℕ)) = f i := by
  rw [lane, fillLanes, word_fill hi hn, Lane.ofBits_toBits]

@[simp] theorem fillLanes_zero (m : Memory) (a : Address) (f : ℕ → F) : m.fillLanes a 0 f = m :=
  fill_zero ..

theorem fillLanes_congr {m : Memory} {a : Address} {n : ℕ} {f g : ℕ → F}
    (h : ∀ i < n, f i = g i) : m.fillLanes a n f = m.fillLanes a n g :=
  fill_congr fun i hi => congrArg Lane.toBits (h i hi)

theorem fillLanes_of_notMem {m : Memory} {a x : Address} {n : ℕ} {f : ℕ → F}
    (h : x ∉ region a (4 * n)) : m.fillLanes a n f x = m x := fill_of_notMem h

theorem fillLanes_fillLanes {m : Memory} {a : Address} {n k : ℕ} {f g : ℕ → F}
    (h : 4 * (n + k) ≤ 2 ^ 64) :
    (m.fillLanes a n f).fillLanes (a + (4 * n : ℕ)) k g =
      m.fillLanes a (n + k) fun i => if i < n then f i else g (i - n) := by
  rw [fillLanes, fillLanes, fill_fill h, fillLanes]
  refine fill_congr fun i _ => ?_
  split_ifs <;> rfl

end Memory

def AccessSize.lanes : AccessSize → ℕ
  | .s => 1
  | .d => 2
  | .q => 4

def Arrangement.lanes : Arrangement → ℕ
  | .s2 => 2
  | .s4 | .d2 => 4

namespace State

def moveVector (s : State F) (dir : Transfer) (n : ℕ) (r : Fin 32) (a : Address) : State F :=
  match dir with
  | .load => s.setVector r (s.memory.lanes a n)
  | .store => { s with memory := s.memory.fillLanes a n (s.lanesOf r) }

def moveLane (s : State F) (dir : Transfer) (l : Fin 4) (r : Fin 32) (a : Address) : State F :=
  match dir with
  | .load => s.setVector r (Function.update (s.vector r) l (s.memory.lane a))
  | .store => { s with memory := s.memory.fillLanes a 1 fun _ => s.vector r l }

@[simp] theorem general_moveVector (s : State F) (dir : Transfer) (n : ℕ) (r : Fin 32)
    (a : Address) : (s.moveVector dir n r a).general = s.general := by
  cases dir <;> rfl

@[simp] theorem general_moveLane (s : State F) (dir : Transfer) (l : Fin 4) (r : Fin 32)
    (a : Address) : (s.moveLane dir l r a).general = s.general := by
  cases dir <;> rfl

end State

namespace Instr

open State

def effect : Instr → State F → State F
  | .mov rd rm, s => s.write rd.width rd.id (s.read rd.width rm.id)
  | .movz rd imm hw, s => s.write rd.width rd.id ((imm : BitVec 64) <<< (16 * hw))
  | .movk rd imm hw, s =>
      s.write rd.width rd.id
        (s.read rd.width rd.id &&& ~~~(0xFFFF#64 <<< (16 * hw)) ||| (imm : BitVec 64) <<< (16 * hw))
  | .addImm rd rn imm lsl12, s =>
      s.writeBase rd.width rd.id
        (s.readBase rd.width rn.id + (imm : BitVec 64) <<< (if lsl12 then 12 else 0))
  | .subImm rd rn imm lsl12, s =>
      s.writeBase rd.width rd.id
        (s.readBase rd.width rn.id - (imm : BitVec 64) <<< (if lsl12 then 12 else 0))
  | .addReg rd rn rm shift amount, s =>
      s.write rd.width rd.id
        (s.read rd.width rn.id + shift.apply rd.width (s.read rd.width rm.id) amount)
  | .subReg rd rn rm shift amount, s =>
      s.write rd.width rd.id
        (s.read rd.width rn.id - shift.apply rd.width (s.read rd.width rm.id) amount)
  | .lslImm rd rn amount, s => s.write rd.width rd.id (s.read rd.width rn.id <<< amount)
  | .lsrImm rd rn amount, s => s.write rd.width rd.id (s.read rd.width rn.id >>> amount)
  | .madd rd rn rm ra, s =>
      s.write rd.width rd.id
        (s.read rd.width ra.id + s.read rd.width rn.id * s.read rd.width rm.id)
  | .mul rd rn rm, s =>
      s.write rd.width rd.id (s.read rd.width rn.id * s.read rd.width rm.id)
  | .cbz _ _, s | .cbnz _ _, s | .b _, s | .ret, s | .nop, s => s
  | .transfer dir rt rn offset mode, s =>
      (s.moveGeneral dir rt.width rt.id (mode.address (s.general rn.id) offset)).writeBack mode rn.id
        offset
  | .transferV dir size rt rn offset mode, s =>
      (s.moveVector dir size.lanes rt.id (mode.address (s.general rn.id) offset)).writeBack mode
        rn.id offset
  | .transferPair dir size rt rt2 rn offset mode, s =>
      let a := mode.address (s.general rn.id) offset
      ((s.moveVector dir size.lanes rt.id a).moveVector dir size.lanes rt2.id
        (a + (4 * size.lanes : ℕ))).writeBack mode rn.id offset
  | .transferLane dir rt lane rn post, s =>
      (s.moveLane dir (Fin.ofNat 4 lane) rt.id (s.general rn.id)).writeBack
        (if post then .postIndex else .offset) rn.id 4
  | .fmlaElem arr rd rn rm lane, s =>
      s.setVector rd.id fun l =>
        if l.val < arr.lanes then
          Lane.fma (s.vector rd.id l) (s.vector rn.id l) (s.vector rm.id (Fin.ofNat 4 lane))
        else Lane.zero
  | .fmax arr rd rn rm, s =>
      s.setVector rd.id fun l =>
        if l.val < arr.lanes then Lane.max (s.vector rn.id l) (s.vector rm.id l) else Lane.zero
  | .moviZero _ rd, s => s.setVector rd.id fun _ => Lane.zero

/-! The effects on X registers other than number 31. -/

section X

variable {rd rn rm ra : GeneralReg} (s : State F)

theorem effect_mov (hd : rd.IsX) (hm : rm.IsX) :
    (mov rd rm).effect s = s.set rd.id (s.general rm.id) := by
  rw [effect, hd.1, write_x64 _ hd.2, read_x64 _ hm.2]

theorem effect_addImm (hd : rd.IsX) (imm : ℕ) (lsl12 : Bool) :
    (addImm rd rn imm lsl12).effect s =
      s.set rd.id (s.general rn.id + (imm : BitVec 64) <<< (if lsl12 then 12 else 0)) := by
  rw [effect, hd.1, writeBase, readBase, Width.keep, Width.keep]

theorem effect_subImm (hd : rd.IsX) (imm : ℕ) (lsl12 : Bool) :
    (subImm rd rn imm lsl12).effect s =
      s.set rd.id (s.general rn.id - (imm : BitVec 64) <<< (if lsl12 then 12 else 0)) := by
  rw [effect, hd.1, writeBase, readBase, Width.keep, Width.keep]

theorem effect_addReg (hd : rd.IsX) (hn : rn.IsX) (hm : rm.IsX) (amount : ℕ) :
    (addReg rd rn rm .lsl amount).effect s =
      s.set rd.id (s.general rn.id + (s.general rm.id) <<< amount) := by
  rw [effect, hd.1, write_x64 _ hd.2, read_x64 _ hn.2, read_x64 _ hm.2, Shift.apply]

theorem effect_subReg (hd : rd.IsX) (hn : rn.IsX) (hm : rm.IsX) (amount : ℕ) :
    (subReg rd rn rm .lsl amount).effect s =
      s.set rd.id (s.general rn.id - (s.general rm.id) <<< amount) := by
  rw [effect, hd.1, write_x64 _ hd.2, read_x64 _ hn.2, read_x64 _ hm.2, Shift.apply]

theorem effect_lslImm (hd : rd.IsX) (hn : rn.IsX) (amount : ℕ) :
    (lslImm rd rn amount).effect s = s.set rd.id (s.general rn.id <<< amount) := by
  rw [effect, hd.1, write_x64 _ hd.2, read_x64 _ hn.2]

theorem effect_madd (hd : rd.IsX) (hn : rn.IsX) (hm : rm.IsX) (ha : ra.IsX) :
    (madd rd rn rm ra).effect s =
      s.set rd.id (s.general ra.id + s.general rn.id * s.general rm.id) := by
  rw [effect, hd.1, write_x64 _ hd.2, read_x64 _ hn.2, read_x64 _ hm.2, read_x64 _ ha.2]

theorem effect_mul (hd : rd.IsX) (hn : rn.IsX) (hm : rm.IsX) :
    (mul rd rn rm).effect s = s.set rd.id (s.general rn.id * s.general rm.id) := by
  rw [effect, hd.1, write_x64 _ hd.2, read_x64 _ hn.2, read_x64 _ hm.2]

end X

def WritesGeneral (r : Fin 32) : Instr → Prop
  | .mov rd _ | .movz rd _ _ | .movk rd _ _ | .addImm rd _ _ _ | .subImm rd _ _ _
  | .addReg rd _ _ _ _ | .subReg rd _ _ _ _ | .lslImm rd _ _ | .lsrImm rd _ _ | .madd rd _ _ _
  | .mul rd _ _ => rd.id = r
  | .transfer dir rt rn _ mode => dir = .load ∧ rt.id = r ∨ mode ≠ .offset ∧ rn.id = r
  | .transferV _ _ _ rn _ mode | .transferPair _ _ _ _ rn _ mode => mode ≠ .offset ∧ rn.id = r
  | .transferLane _ _ _ rn post => post = true ∧ rn.id = r
  | _ => False

end Instr

theorem Instr.general_effect {i : Instr} {r : Fin 32} (h : ¬i.WritesGeneral r) (s : State F) :
    (i.effect s).general r = s.general r := by
  cases i with
  | mov | movz | movk | addReg | subReg | lslImm | lsrImm | madd | mul =>
    exact s.general_write_of_ne _ h _
  | addImm | subImm => exact Function.update_of_ne (Ne.symm h) _ _
  | cbz | cbnz | b | ret | nop | fmlaElem | fmax | moviZero => rfl
  | transfer dir rt rn offset mode =>
    rw [WritesGeneral, not_or] at h
    exact (State.general_writeBack_of_not _ h.2 _).trans (s.general_moveGeneral_of_not h.1 _ _)
  | transferV dir size rt rn offset mode =>
    exact (State.general_writeBack_of_not _ h _).trans (by rw [State.general_moveVector])
  | transferPair dir size rt rt2 rn offset mode =>
    exact (State.general_writeBack_of_not _ h _).trans (by simp only [State.general_moveVector])
  | transferLane dir rt lane rn post =>
    refine (State.general_writeBack_of_not _ ?_ _).trans (by rw [State.general_moveLane])
    rintro ⟨hp, e⟩
    exact h ⟨by cases post <;> simp_all, e⟩

end TensorKernels
