import TensorKernels.Assembly.Sequence
import TensorKernels.Proofs.Machine.Run

/-!
What the short sequences compute. Each one changes its destination and at most its scratch register,
and every instruction in it has its operands in range.
-/

namespace TensorKernels.Sequence

open Instr

variable {F : Type} [Lane F]

theorem keep_of_lt {w : Width} {v : BitVec 64} (h : v.toNat < 2 ^ w.bits) : w.keep v = v := by
  cases w with
  | x64 => rfl
  | w32 =>
    apply BitVec.eq_of_toNat_eq
    have hlow : v.toNat % 2 ^ 32 = v.toNat := Nat.mod_eq_of_lt h
    rw [Width.keep, BitVec.toNat_setWidth, BitVec.toNat_setWidth, hlow, Nat.mod_eq_of_lt v.isLt]

theorem toNat_natCast_of_lt {n : ℕ} (h : n < 2 ^ 64) : (n : BitVec 64).toNat = n := by
  rw [BitVec.natCast_eq_ofNat, BitVec.toNat_ofNat, Nat.mod_eq_of_lt h]

theorem shiftLeft_eq_mul (x : BitVec 64) (k : ℕ) : x <<< k = x * ((2 ^ k : ℕ) : BitVec 64) := by
  apply BitVec.eq_of_toNat_eq
  rw [BitVec.toNat_shiftLeft, BitVec.toNat_mul, BitVec.natCast_eq_ofNat, BitVec.toNat_ofNat,
    Nat.mul_mod_mod, Nat.shiftLeft_eq]

theorem shiftLeft_eq_natCast (imm k : ℕ) :
    (imm : BitVec 64) <<< k = ((imm * 2 ^ k : ℕ) : BitVec 64) := by
  rw [shiftLeft_eq_mul, ← Nat.cast_mul]

theorem halfword_fits {v imm hw bits : ℕ} (hv : v < 2 ^ (16 * hw)) (himm : imm < 2 ^ 16)
    (hhw : 16 * (hw + 1) ≤ bits) : v + imm * 2 ^ (16 * hw) < 2 ^ bits := by
  have hle : 2 ^ 16 * 2 ^ (16 * hw) ≤ 2 ^ bits := by
    rw [← Nat.pow_add]
    exact Nat.pow_le_pow_right (by decide) (by omega)
  have hnext : (imm + 1) * 2 ^ (16 * hw) ≤ 2 ^ 16 * 2 ^ (16 * hw) := Nat.mul_le_mul_right _ himm
  rw [Nat.add_mul] at hnext
  omega

theorem insert_halfword {v imm hw : ℕ} (hv : v < 2 ^ (16 * hw)) (himm : imm < 2 ^ 16)
    (hhw : hw < 4) :
    (v : BitVec 64) &&& ~~~(0xFFFF#64 <<< (16 * hw)) ||| (imm : BitVec 64) <<< (16 * hw) =
      ((v + imm * 2 ^ (16 * hw) : ℕ) : BitVec 64) := by
  have hsum : v + imm * 2 ^ (16 * hw) < 2 ^ 64 := halfword_fits hv himm (by omega)
  have hval : (v : BitVec 64).toNat = v := toNat_natCast_of_lt (by omega)
  -- the bits that are cleared lie above the value, so clearing them changes nothing
  have hclear : (v : BitVec 64) &&& ~~~(0xFFFF#64 <<< (16 * hw)) = v := by
    apply BitVec.eq_of_getLsbD_eq
    intro i hi
    rcases Nat.lt_or_ge i (16 * hw) with hbelow | habove
    · simp only [BitVec.getLsbD_and, BitVec.getLsbD_not, BitVec.getLsbD_shiftLeft, hi, hbelow]
      simp
    · have hbit : (v : BitVec 64).getLsbD i = false := by
        rw [BitVec.getLsbD, hval]
        exact Nat.testBit_lt_two_pow (lt_of_lt_of_le hv (Nat.pow_le_pow_right (by decide) habove))
      rw [BitVec.getLsbD_and, hbit, Bool.false_and]
  apply BitVec.eq_of_toNat_eq
  rw [hclear, shiftLeft_eq_natCast, BitVec.toNat_or, hval, toNat_natCast_of_lt (by omega),
    toNat_natCast_of_lt hsum, ← Nat.shiftLeft_eq, Nat.or_comm, ← Nat.shiftLeft_add_eq_or_of_lt hv,
    Nat.add_comm]

section Halfword

variable {rd : GeneralReg} {imm hw v : ℕ} {s : State F}

omit [Lane F] in
theorem write_of_lt (hid : rd.id ≠ 31) (h : v < 2 ^ rd.bits) :
    s.write rd.width rd.id (v : BitVec 64) = s.set rd.id v := by
  have hbits : 2 ^ rd.bits ≤ 2 ^ 64 := Nat.pow_le_pow_right (by decide) rd.bits_le
  rw [State.write, if_neg hid, keep_of_lt (by rwa [toNat_natCast_of_lt (by omega)])]

theorem effect_movz (hid : rd.id ≠ 31) (himm : imm < 2 ^ 16) (hhw : 16 * (hw + 1) ≤ rd.bits) :
    (movz rd imm hw).effect s = s.set rd.id ((imm * 2 ^ (16 * hw) : ℕ) : BitVec 64) := by
  have hfit := halfword_fits (Nat.two_pow_pos (16 * hw)) himm hhw
  rw [Nat.zero_add] at hfit
  rw [effect, shiftLeft_eq_natCast, write_of_lt hid hfit]

theorem effect_movk (hid : rd.id ≠ 31) (hv : v < 2 ^ (16 * hw)) (himm : imm < 2 ^ 16)
    (hhw : 16 * (hw + 1) ≤ rd.bits) (hs : s.general rd.id = v) :
    (movk rd imm hw).effect s = s.set rd.id ((v + imm * 2 ^ (16 * hw) : ℕ) : BitVec 64) := by
  have hbits := rd.bits_le
  have hfit := halfword_fits hv himm hhw
  have hread : s.read rd.width rd.id = v := by
    have hlow : v < 2 ^ rd.bits := by omega
    have hbits' : 2 ^ rd.bits ≤ 2 ^ 64 := Nat.pow_le_pow_right (by decide) rd.bits_le
    rw [State.read, if_neg hid, hs, keep_of_lt (by rwa [toNat_natCast_of_lt (by omega)])]
  rw [effect, hread, insert_halfword hv himm (by omega), write_of_lt hid hfit]

end Halfword

def loads (rd : GeneralReg) : List (ℕ × ℕ) → List Instr
  | [] => []
  | (hw, imm) :: rest => .movz rd imm hw :: rest.map fun part => .movk rd part.2 part.1

theorem loads_append {rd : GeneralReg} {parts : List (ℕ × ℕ)} (h : parts ≠ []) (part : ℕ × ℕ) :
    loads rd (parts ++ [part]) = loads rd parts ++ [.movk rd part.2 part.1] := by
  cases parts with
  | nil => exact absurd rfl h
  | cons first rest => simp [loads]

def nonzeroParts (value k : ℕ) : List (ℕ × ℕ) :=
  ((List.range k).map fun hw => (hw, (value >>> (16 * hw)) % 65536)).filter fun part => part.2 != 0

theorem loadConstant_eq_loads {rd : GeneralReg} {value : ℕ} (h : value ≠ 0) :
    loadConstant rd value = loads rd (nonzeroParts value (rd.bits / 16)) := by
  rw [loadConstant, if_neg h, halfwords, nonzeroParts]
  split <;> rename_i hparts <;> rw [hparts] <;> rfl

theorem nonzeroParts_succ (value k : ℕ) :
    nonzeroParts value (k + 1) = nonzeroParts value k ++
      if value / 2 ^ (16 * k) % 65536 = 0 then [] else [(k, value / 2 ^ (16 * k) % 65536)] := by
  rw [nonzeroParts, List.range_succ, List.map_append, List.filter_append, nonzeroParts,
    List.map_singleton, Nat.shiftRight_eq_div_pow]
  congr 1
  split_ifs with h <;> simp [h]

theorem mod_two_pow_succ (value k : ℕ) :
    value % 2 ^ (16 * (k + 1)) =
      value % 2 ^ (16 * k) + value / 2 ^ (16 * k) % 65536 * 2 ^ (16 * k) := by
  rw [Nat.mul_add, Nat.pow_add, Nat.mod_mul, Nat.mul_comm (2 ^ (16 * k))]

theorem sixteen_mul_bits (rd : GeneralReg) : 16 * (rd.bits / 16) = rd.bits := by
  rw [GeneralReg.bits]
  cases rd.width <;> decide

theorem effects_loads {rd : GeneralReg} (hid : rd.id ≠ 31) (value : ℕ) {k : ℕ}
    (hk : 16 * k ≤ rd.bits) (s : State F) :
    (nonzeroParts value k = [] → value % 2 ^ (16 * k) = 0) ∧
      (nonzeroParts value k ≠ [] →
        effects (loads rd (nonzeroParts value k)) s =
          s.set rd.id ((value % 2 ^ (16 * k) : ℕ) : BitVec 64)) := by
  -- half-words are inserted from the lowest up, so each one is above what has been loaded
  induction k with
  | zero => exact ⟨fun _ => Nat.mod_one _, fun h => absurd rfl h⟩
  | succ k ih =>
    obtain ⟨hnone, hsome⟩ := ih (by omega)
    have himm : value / 2 ^ (16 * k) % 65536 < 2 ^ 16 := Nat.mod_lt _ (by decide)
    rw [nonzeroParts_succ, mod_two_pow_succ]
    by_cases hpart : value / 2 ^ (16 * k) % 65536 = 0
    · rw [if_pos hpart, hpart, List.append_nil, Nat.zero_mul, Nat.add_zero]
      exact ⟨hnone, hsome⟩
    · rw [if_neg hpart]
      refine ⟨fun h => absurd h (by simp), fun _ => ?_⟩
      by_cases hfirst : nonzeroParts value k = []
      · rw [hfirst, hnone hfirst, List.nil_append, Nat.zero_add]
        exact effect_movz hid himm hk
      · have hv : value % 2 ^ (16 * k) < 2 ^ (16 * k) := Nat.mod_lt _ (Nat.two_pow_pos _)
        rw [loads_append hfirst, effects_append, hsome hfirst, effects_cons, effects_nil,
          effect_movk hid hv himm hk (Function.update_self ..), State.set_set]

/-- A register keeps the low bits of the constant. A nonzero constant needs one of them to be set,
since otherwise nothing is loaded. -/
theorem effects_loadConstant_mod {rd : GeneralReg} (hid : rd.id ≠ 31) {value : ℕ}
    (hv : value % 2 ^ rd.bits = 0 → value = 0) (s : State F) :
    effects (loadConstant rd value) s = s.set rd.id ((value % 2 ^ rd.bits : ℕ) : BitVec 64) := by
  have hbits := sixteen_mul_bits rd
  have hpos := rd.bits_pos
  by_cases hzero : value = 0
  · have hmovz : (movz rd 0 0).effect s = s.set rd.id ((0 * 2 ^ (16 * 0) : ℕ) : BitVec 64) :=
      effect_movz hid (by decide) (by omega)
    rw [loadConstant, if_pos hzero, hzero, effects_cons, effects_nil, hmovz, Nat.zero_mul,
      Nat.zero_mod]
  · obtain ⟨hnone, hsome⟩ := effects_loads hid value (k := rd.bits / 16) hbits.le s
    rw [hbits] at hnone hsome
    rw [loadConstant_eq_loads hzero, hsome fun h => hzero (hv (hnone h))]

theorem effects_loadConstant {rd : GeneralReg} (hd : rd.IsX) {value : ℕ} (hv : value < 2 ^ 64)
    (s : State F) : effects (loadConstant rd value) s = s.set rd.id (value : BitVec 64) := by
  have hmod : value % 2 ^ rd.bits = value := by
    rw [hd.bits_eq]
    exact Nat.mod_eq_of_lt hv
  rw [effects_loadConstant_mod hd.2 (fun h => hmod ▸ h), hmod]

theorem effects_copy {rd rn : GeneralReg} (hd : rd.IsX) (hn : rn.IsX) (s : State F) :
    effects (copy rd rn) s = s.set rd.id (s.general rn.id) := by
  rw [copy]
  split_ifs with h
  · rw [h, State.set_general_self, effects_nil]
  · exact effect_mov s hd hn

theorem add_intCast_of_nonneg {value : Int} (h : ¬value < 0) (x : BitVec 64) :
    x + (value : BitVec 64) = x + (value.natAbs : BitVec 64) := by
  rw [← Int.cast_natCast, Int.natAbs_of_nonneg (not_lt.1 h)]

theorem add_intCast_of_neg {value : Int} (h : value < 0) (x : BitVec 64) :
    x + (value : BitVec 64) = x - (value.natAbs : BitVec 64) := by
  rw [← Int.cast_natCast, Int.ofNat_natAbs_of_nonpos h.le, Int.cast_neg, sub_neg_eq_add]

def FitsImmediate (magnitude : ℕ) : Prop :=
  magnitude < 0x1000 ∨ magnitude % 0x1000 = 0 ∧ magnitude < 0x1000000

section Add

variable {rd rn scratch : GeneralReg} (hd : rd.IsX) (hn : rn.IsX) (s : State F)
include hd hn

theorem effects_addConstant_immediate {value : Int} (hv : FitsImmediate value.natAbs) :
    effects (addConstant rd rn value scratch) s =
      s.set rd.id (s.general rn.id + (value : BitVec 64)) := by
  have hpages (h : value.natAbs % 0x1000 = 0) :
      ((value.natAbs / 0x1000 : ℕ) : BitVec 64) <<< 12 = (value.natAbs : BitVec 64) := by
    have hcancel : value.natAbs / 0x1000 * 2 ^ 12 = value.natAbs :=
      Nat.div_mul_cancel (Nat.dvd_of_mod_eq_zero h)
    rw [shiftLeft_eq_natCast, hcancel]
  simp only [addConstant]
  split_ifs with hzero hsmall hneg hpage hneg
  · rw [effects_copy hd hn, Int.natAbs_eq_zero.1 hzero, Int.cast_zero, add_zero]
  · rw [effects_cons, effects_nil, effect_subImm s hd, add_intCast_of_neg hneg]
    simp
  · rw [effects_cons, effects_nil, effect_addImm s hd, add_intCast_of_nonneg hneg]
    simp
  · rw [effects_cons, effects_nil, effect_subImm s hd, if_pos rfl, hpages hpage.1,
      add_intCast_of_neg hneg]
  · rw [effects_cons, effects_nil, effect_addImm s hd, if_pos rfl, hpages hpage.1,
      add_intCast_of_nonneg hneg]
  all_goals exact absurd hv (not_or.2 ⟨hsmall, hpage⟩)

theorem effects_addConstant (hscratch : scratch.IsX) (hne : scratch.id ≠ rn.id) {value : Int}
    (hv : value.natAbs < 2 ^ 64) :
    ∃ w, effects (addConstant rd rn value scratch) s =
      (s.set scratch.id w).set rd.id (s.general rn.id + (value : BitVec 64)) := by
  by_cases himm : FitsImmediate value.natAbs
  · refine ⟨s.general scratch.id, ?_⟩
    rw [effects_addConstant_immediate hd hn s himm, State.set_general_self]
  · refine ⟨value.natAbs, ?_⟩
    have hrn : (s.set scratch.id (value.natAbs : BitVec 64)).general rn.id = s.general rn.id :=
      Function.update_of_ne hne.symm _ _
    have hloaded : (s.set scratch.id (value.natAbs : BitVec 64)).general scratch.id = value.natAbs :=
      Function.update_self ..
    rw [FitsImmediate, not_or] at himm
    simp only [addConstant, if_neg (by omega : ¬value.natAbs = 0), if_neg himm.1, if_neg himm.2]
    rw [effects_append, effects_loadConstant hscratch hv, effects_cons, effects_nil]
    split_ifs with hneg
    · rw [effect_subReg _ hd hn hscratch, hrn, hloaded, BitVec.shiftLeft_zero,
        add_intCast_of_neg hneg]
    · rw [effect_addReg _ hd hn hscratch, hrn, hloaded, BitVec.shiftLeft_zero,
        add_intCast_of_nonneg hneg]

theorem effects_addMultiple {stride : GeneralReg} (hstride : stride.IsX) (hscratch : scratch.IsX)
    (hne : scratch.id ≠ rn.id) (hns : scratch.id ≠ stride.id) {count : ℕ} (hc : count < 2 ^ 64) :
    ∃ w, effects (addMultiple rd rn count stride scratch) s =
      (s.set scratch.id w).set rd.id (s.general rn.id + count * s.general stride.id) := by
  rw [addMultiple]
  split_ifs with hzero hpow
  · refine ⟨s.general scratch.id, ?_⟩
    rw [effects_copy hd hn, State.set_general_self, hzero, Nat.cast_zero, zero_mul, add_zero]
  · refine ⟨s.general scratch.id, ?_⟩
    rw [effects_cons, effects_nil, effect_addReg s hd hn hstride, State.set_general_self,
      shiftLeft_eq_mul, ← Nat.one_shiftLeft, ← hpow, mul_comm]
  · refine ⟨count, ?_⟩
    rw [effects_append, effects_loadConstant hscratch hc, effects_cons, effects_nil,
      effect_madd _ hd hscratch hstride hn]
    simp [hne.symm, hns.symm]

end Add

theorem effects_scale {rs : List GeneralReg} (hX : ∀ r ∈ rs, r.IsX)
    (hdistinct : (rs.map (·.id)).Nodup) (s : State F) :
    (effects (rs.map fun r => .lslImm r r 2) s).memory = s.memory ∧
      ∀ r ∈ rs, (effects (rs.map fun r => .lslImm r r 2) s).general r.id = 4 * s.general r.id := by
  induction rs generalizing s with
  | nil => exact ⟨rfl, by simp⟩
  | cons first rest ih =>
    rw [List.forall_mem_cons] at hX
    rw [List.map_cons, List.nodup_cons] at hdistinct
    have hfour : s.general first.id <<< 2 = 4 * s.general first.id := by
      rw [shiftLeft_eq_mul]
      grind
    rw [List.map_cons, effects_cons, effect_lslImm s hX.1 hX.1, hfour]
    obtain ⟨hmemory, hrest⟩ := ih hX.2 hdistinct.2 (s.set first.id (4 * s.general first.id))
    refine ⟨hmemory, List.forall_mem_cons.2 ⟨?_, fun r hr => ?_⟩⟩
    · rw [general_effects, State.general_set_same]
      intro i hi hw
      obtain ⟨r, hr, rfl⟩ := List.mem_map.1 hi
      have hid : r.id = first.id := hw
      exact hdistinct.1 (hid ▸ List.mem_map_of_mem hr)
    · have hne : r.id ≠ first.id := fun e => hdistinct.1 (e ▸ List.mem_map_of_mem hr)
      rw [hrest r hr, State.general_set_of_ne _ hne]

/-! The sequences are straight code. -/

theorem straight_loads {rd : GeneralReg} {parts : List (ℕ × ℕ)}
    (h : ∀ part ∈ parts, 16 * part.1 < rd.bits ∧ part.2 < 2 ^ 16) :
    Straight [rd.id] parts.length (loads rd parts) := by
  have hbits := rd.bits_le
  cases parts with
  | nil => exact Straight.nil
  | cons first rest =>
    rw [List.forall_mem_cons] at h
    refine Straight.cons ⟨⟨h.1.2, by omega⟩, by simpa [Instr.isDefined] using h.1.1, rfl⟩
      (by simp [WritesGeneral]) (Straight.map (fun part hpart => ?_) (by simp [WritesGeneral]))
    have hpart := h.2 part hpart
    exact ⟨⟨hpart.2, by omega⟩, by simpa [Instr.isDefined] using hpart.1, rfl⟩

theorem straight_loadConstant (rd : GeneralReg) (value : ℕ) :
    Straight [rd.id] 4 (loadConstant rd value) := by
  have hbits := rd.bits_le
  by_cases hzero : value = 0
  · have hpart : ∀ part ∈ [((0 : ℕ), (0 : ℕ))], 16 * part.1 < rd.bits ∧ part.2 < 2 ^ 16 := by
      simpa using rd.bits_pos
    rw [loadConstant, if_pos hzero]
    exact (straight_loads hpart).mono (List.Subset.refl _) (by decide)
  · rw [loadConstant_eq_loads hzero]
    refine (straight_loads fun part hpart => ?_).mono (List.Subset.refl _) ?_
    · obtain ⟨hw, hrange, rfl⟩ := List.mem_map.1 (List.mem_of_mem_filter hpart)
      rw [List.mem_range] at hrange
      exact ⟨by omega, Nat.mod_lt _ (by decide)⟩
    · have hlen := List.length_filter_le (fun part : ℕ × ℕ => part.2 != 0)
        ((List.range (rd.bits / 16)).map fun hw => (hw, (value >>> (16 * hw)) % 65536))
      rw [List.length_map, List.length_range] at hlen
      exact hlen.trans (by omega)

theorem straight_copy (rd rn : GeneralReg) : Straight [rd.id] 1 (copy rd rn) := by
  rw [copy]
  split_ifs
  · exact Straight.nil
  · exact Straight.singleton ⟨trivial, rfl, rfl⟩ (by simp [WritesGeneral])

theorem straight_addConstant_immediate {rd rn scratch : GeneralReg} {value : Int}
    (hv : FitsImmediate value.natAbs) : Straight [rd.id] 1 (addConstant rd rn value scratch) := by
  simp only [addConstant]
  split_ifs with hzero hsmall hneg hpage hneg
  · exact straight_copy rd rn
  · exact Straight.singleton ⟨hsmall, rfl, rfl⟩ (by simp [WritesGeneral])
  · exact Straight.singleton ⟨hsmall, rfl, rfl⟩ (by simp [WritesGeneral])
  · exact Straight.singleton ⟨Nat.div_lt_of_lt_mul hpage.2, rfl, rfl⟩ (by simp [WritesGeneral])
  · exact Straight.singleton ⟨Nat.div_lt_of_lt_mul hpage.2, rfl, rfl⟩ (by simp [WritesGeneral])
  all_goals exact absurd hv (not_or.2 ⟨hsmall, hpage⟩)

theorem straight_addConstant (rd rn : GeneralReg) (value : Int) (scratch : GeneralReg) :
    Straight [rd.id, scratch.id] 5 (addConstant rd rn value scratch) := by
  by_cases himm : FitsImmediate value.natAbs
  · exact (straight_addConstant_immediate himm).mono (by simp) (by decide)
  · have hpos := rd.bits_pos
    have hload := (straight_loadConstant scratch value.natAbs).mono
      (by simp : [scratch.id] ⊆ [rd.id, scratch.id]) le_rfl
    rw [FitsImmediate, not_or] at himm
    simp only [addConstant, if_neg (by omega : ¬value.natAbs = 0), if_neg himm.1, if_neg himm.2]
    refine hload.append (Straight.singleton ?_ ?_)
    · split_ifs <;> exact ⟨hpos, by simpa [Instr.isDefined] using hpos, rfl⟩
    · split_ifs <;> simp [WritesGeneral]

theorem straight_addMultiple {rd : GeneralReg} (hd : rd.IsX) (rn stride scratch : GeneralReg)
    {count : ℕ} (hc : count < 2 ^ 64) :
    Straight [rd.id, scratch.id] 5 (addMultiple rd rn count stride scratch) := by
  rw [addMultiple]
  split_ifs with hzero
  · exact (straight_copy rd rn).mono (by simp) (by decide)
  · have hlog : count.log2 < rd.bits := by
      rw [hd.bits_eq]
      exact (Nat.log2_lt hzero).2 hc
    have hadd : Straight [rd.id, scratch.id] 1 [.addReg rd rn stride .lsl count.log2] :=
      Straight.singleton ⟨hlog, by simpa [Instr.isDefined] using hlog, rfl⟩ (by simp [WritesGeneral])
    exact hadd.mono (List.Subset.refl _) (by decide)
  · have hload := (straight_loadConstant scratch count).mono
      (by simp : [scratch.id] ⊆ [rd.id, scratch.id]) le_rfl
    have hmadd : Straight [rd.id, scratch.id] 1 [.madd rd scratch stride rn] :=
      Straight.singleton ⟨trivial, rfl, rfl⟩ (by simp [WritesGeneral])
    exact hload.append hmadd

theorem straight_scale {rs : List GeneralReg} (hX : ∀ r ∈ rs, r.IsX) :
    Straight (rs.map (·.id)) rs.length (rs.map fun r => .lslImm r r 2) := by
  refine Straight.map (fun r hr => ⟨?_, rfl, rfl⟩) fun r hr q hq => ?_
  · rw [InRange, (hX r hr).bits_eq]
    decide
  · have hid : r.id = q := hq
    exact hid ▸ List.mem_map_of_mem hr

end TensorKernels.Sequence
