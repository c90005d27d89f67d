import TensorKernels.Assembly.Basic
import TensorKernels.Proofs.Assembly.Sequence

/-!
Loading a constant into a register of either width. The register ends up with the low bits of the
constant and zero above them, through one word for each half-word of them that is not zero, or a
single word if all are. The case of a zero constant is told apart by the whole constant and not by
its low bits, so a nonzero one whose low 32 bits are zero leaves a 32-bit register as it was.
-/

namespace TensorKernels.Sequence

open Instr

def nonzeroHalfwords (n : ℕ) : ℕ := (Nat.digits (2 ^ 16) n).countP (· ≠ 0)

theorem nonzeroHalfwords_zero : nonzeroHalfwords 0 = 0 := by
  rw [nonzeroHalfwords, Nat.digits_zero, List.countP_nil]

theorem nonzeroHalfwords_eq (n : ℕ) :
    nonzeroHalfwords n = nonzeroHalfwords (n / 2 ^ 16) + if n % 2 ^ 16 = 0 then 0 else 1 := by
  rcases Nat.eq_zero_or_pos n with rfl | hpos
  · rfl
  · rw [nonzeroHalfwords, Nat.digits_def' (by decide) hpos, List.countP_cons, ← nonzeroHalfwords]
    simp only [decide_eq_true_eq, ne_eq, ite_not]

theorem nonzeroHalfwords_pos {n : ℕ} (h : n ≠ 0) : 0 < nonzeroHalfwords n := by
  have hlast := Nat.getLast_digit_ne_zero (2 ^ 16) h
  rw [nonzeroHalfwords, List.countP_pos_iff]
  exact ⟨_, List.getLast_mem _, decide_eq_true hlast⟩

theorem nonzeroHalfwords_add {n imm k : ℕ} (hn : n < 2 ^ (16 * k)) (himm : imm < 2 ^ 16) :
    nonzeroHalfwords (n + imm * 2 ^ (16 * k)) = nonzeroHalfwords n + if imm = 0 then 0 else 1 := by
  induction k generalizing n with
  | zero =>
    obtain rfl : n = 0 := by simpa using hn
    rw [nonzeroHalfwords_eq, Nat.zero_add, Nat.mul_zero, Nat.pow_zero, Nat.mul_one,
      Nat.div_eq_of_lt himm, Nat.mod_eq_of_lt himm]
  | succ k ih =>
    have hpow : imm * 2 ^ (16 * (k + 1)) = imm * 2 ^ (16 * k) * 2 ^ 16 := by
      rw [Nat.mul_add, Nat.pow_add, Nat.mul_assoc]
    have hquot : n / 2 ^ 16 < 2 ^ (16 * k) := by
      rwa [Nat.div_lt_iff_lt_mul (by decide), ← Nat.pow_add]
    rw [hpow, nonzeroHalfwords_eq, Nat.add_mul_div_right _ _ (by decide), Nat.add_mul_mod_self_right,
      ih hquot, nonzeroHalfwords_eq n]
    omega

theorem length_nonzeroParts (value k : ℕ) :
    (nonzeroParts value k).length = nonzeroHalfwords (value % 2 ^ (16 * k)) := by
  induction k with
  | zero =>
    rw [Nat.mul_zero, Nat.pow_zero, Nat.mod_one, nonzeroHalfwords_zero]
    rfl
  | succ k ih =>
    have himm : value / 2 ^ (16 * k) % 65536 < 2 ^ 16 := Nat.mod_lt _ (by decide)
    rw [nonzeroParts_succ, List.length_append, ih, mod_two_pow_succ,
      nonzeroHalfwords_add (Nat.mod_lt _ (Nat.two_pow_pos _)) himm]
    split_ifs <;> rfl

theorem length_loads (rd : GeneralReg) (parts : List (ℕ × ℕ)) :
    (loads rd parts).length = parts.length := by
  cases parts with
  | nil => rfl
  | cons first rest => rw [loads, List.length_cons, List.length_map, List.length_cons]

theorem length_loadConstant (rd : GeneralReg) (value : ℕ) :
    (loadConstant rd value).length =
      if value = 0 then 1 else nonzeroHalfwords (value % 2 ^ rd.bits) := by
  split_ifs with hzero
  · rw [loadConstant, if_pos hzero]
    rfl
  · rw [loadConstant_eq_loads hzero, length_loads, length_nonzeroParts, sixteen_mul_bits]

/-- The words that load a constant are executed once each and in order. They leave the low bits of
the constant in the register, zero above them, and all else as it was. There are as many of them as
nonzero half-words to load, and at least one. -/
structure Materialises (rd : GeneralReg) (value : ℕ) : Prop where
  here_eq : ∀ a : Assembly, (a.emitAll (loadConstant rd value)).here =
    a.here + max 1 (nonzeroHalfwords (value % 2 ^ rd.bits))
  runs : ∀ (F : Type) [Lane F] (s : State F) (a : Assembly) (after : Array Word),
    RunsThrough ((a.emitAll (loadConstant rd value)).words ++ after)
      (List.range' a.here (max 1 (nonzeroHalfwords (value % 2 ^ rd.bits)))) ⟨a.here, s⟩
      ⟨(a.emitAll (loadConstant rd value)).here,
        s.set rd.id ((value % 2 ^ rd.bits : ℕ) : BitVec 64)⟩

theorem holds_emitAll (a : Assembly) (is : List Instr) (after : Array Word) :
    Holds ((a.emitAll is).words ++ after) a.here is := by
  have hwords : (a.words.toList ++ is.map encode).toArray = (a.emitAll is).words := by
    rw [Assembly.words_emitAll, ← List.append_toArray]
  have hholds := holds_append_right is a.words.toList
  rw [hwords, Array.length_toList] at hholds
  refine hholds.mono fun q w _ _ hw => ?_
  obtain ⟨hlt, -⟩ := Array.getElem?_eq_some_iff.1 hw
  rw [Array.getElem?_append_left hlt, hw]

theorem materialises_of_low {rd : GeneralReg} (hid : rd.id ≠ 31) {value : ℕ}
    (hv : value % 2 ^ rd.bits = 0 → value = 0) : Materialises rd value := by
  have hlen : (loadConstant rd value).length =
      max 1 (nonzeroHalfwords (value % 2 ^ rd.bits)) := by
    rw [length_loadConstant]
    split_ifs with hzero
    · rw [hzero, Nat.zero_mod, nonzeroHalfwords_zero]
      rfl
    · exact (Nat.max_eq_right (nonzeroHalfwords_pos fun h => hzero (hv h))).symm
  constructor
  · intro a
    rw [Assembly.here_emitAll, hlen]
  · intro F _ s a after
    rw [← hlen, Assembly.here_emitAll, ← effects_loadConstant_mod hid hv]
    exact runsThrough_effects (holds_emitAll a _ after) (straight_loadConstant rd value).plain s

theorem Materialises.ne_nil {rd : GeneralReg} {value : ℕ} (h : Materialises rd value) :
    loadConstant rd value ≠ [] := by
  intro hnil
  have hhere := h.here_eq .empty
  rw [Assembly.here_emitAll, hnil, List.length_nil] at hhere
  omega

theorem loadConstant_eq_nil {rd : GeneralReg} {value : ℕ} (hne : value ≠ 0)
    (hlow : value % 2 ^ rd.bits = 0) : loadConstant rd value = [] := by
  rw [← List.length_eq_zero_iff, length_loadConstant, if_neg hne, hlow, nonzeroHalfwords_zero]

/-- For 64-bit constants, a load fails for a 32-bit register and a nonzero multiple of `2 ^ 32` only,
where it consists of no words. -/
theorem materialises_iff {rd : GeneralReg} (hid : rd.id ≠ 31) {value : ℕ} (hv : value < 2 ^ 64) :
    (Materialises rd value ↔ ¬(rd.width = .w32 ∧ value ≠ 0 ∧ 2 ^ 32 ∣ value)) ∧
      (¬Materialises rd value → loadConstant rd value = []) := by
  have hexception : (rd.width = .w32 ∧ value ≠ 0 ∧ 2 ^ 32 ∣ value) ↔
      value ≠ 0 ∧ value % 2 ^ rd.bits = 0 := by
    rw [GeneralReg.bits]
    cases rd.width with
    | w32 => exact (and_iff_right rfl).trans (and_congr_right' (Nat.dvd_iff_mod_eq_zero ..))
    | x64 =>
      have hwidth : ¬(Width.x64 = .w32) := by decide
      exact iff_of_false (fun h => hwidth h.1) fun h => h.1 ((Nat.mod_eq_of_lt hv).symm.trans h.2)
  have hlow (h : ¬(value ≠ 0 ∧ value % 2 ^ rd.bits = 0)) : Materialises rd value :=
    materialises_of_low hid fun hzero => by_contra fun hne => h ⟨hne, hzero⟩
  rw [hexception]
  refine ⟨⟨fun h hnil => ?_, hlow⟩, fun h => ?_⟩
  · exact h.ne_nil (loadConstant_eq_nil hnil.1 hnil.2)
  · obtain ⟨hne, hzero⟩ := not_not.1 fun hnot => h (hlow hnot)
    exact loadConstant_eq_nil hne hzero

theorem materialises_long : Materialises (GeneralReg.x 9) 0xABCD00001234 ∧
    Materialises (GeneralReg.w 9) 0xABCD00001234 :=
  ⟨(materialises_iff (by decide) (by decide)).1.2 (by decide),
    (materialises_iff (by decide) (by decide)).1.2 (by decide)⟩

/-- A 32-bit register is not cleared by loading `2 ^ 32`. -/
theorem not_materialises_high :
    loadConstant (GeneralReg.w 3) (2 ^ 32) = [] ∧ ¬Materialises (GeneralReg.w 3) (2 ^ 32) := by
  have hnil : loadConstant (GeneralReg.w 3) (2 ^ 32) = [] :=
    loadConstant_eq_nil (by decide) (by decide)
  exact ⟨hnil, fun h => h.ne_nil hnil⟩

end TensorKernels.Sequence
