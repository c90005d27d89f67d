import Mathlib
import TensorKernels.Machine.BitField

/-!
Reading fields back from an instruction word. Reading a field depends on the bits that it covers and on
no others. A word is joined from an opcode and placed fields. When the fields lie apart from one another
and are clear in the opcode, `extract` gives each of them the low bits of the value placed there, and the
bits outside the fields are the opcode's.
-/

namespace TensorKernels.BitField

def InWord (f : BitField) : Prop := f.lsb + f.width ≤ 32

instance (f : BitField) : Decidable f.InWord := inferInstanceAs (Decidable (_ ≤ _))

def Apart (f g : BitField) : Prop := f.lsb + f.width ≤ g.lsb ∨ g.lsb + g.width ≤ f.lsb

instance (f g : BitField) : Decidable (f.Apart g) := inferInstanceAs (Decidable (_ ∨ _))

theorem Apart.symm {f g : BitField} (h : f.Apart g) : g.Apart f := Or.symm h

def Covers (f : BitField) (i : ℕ) : Prop := f.lsb ≤ i ∧ i < f.lsb + f.width

instance (f : BitField) (i : ℕ) : Decidable (f.Covers i) := inferInstanceAs (Decidable (_ ∧ _))

theorem Apart.not_covers {f g : BitField} (h : f.Apart g) {i : ℕ} (hi : f.Covers i) :
    ¬ g.Covers i := by
  rw [Apart] at h
  rw [Covers] at hi ⊢
  omega

theorem toNat_mask {f : BitField} (h : f.width ≤ 32) : f.mask.toNat = 2 ^ f.width - 1 := by
  rw [mask]
  split_ifs with h32
  · rw [Nat.le_antisymm h h32]
    rfl
  · have hlt : 2 ^ f.width < 2 ^ 32 := Nat.pow_lt_pow_right (by decide) (by omega)
    have hpos : 0 < 2 ^ f.width := Nat.two_pow_pos _
    rw [BitVec.toNat_sub, BitVec.toNat_shiftLeft, BitVec.toNat_ofNat, Nat.one_mod, Nat.one_shiftLeft,
      Nat.mod_eq_of_lt hlt]
    omega

theorem toNat_extract {f : BitField} (h : f.width ≤ 32) (w : Word) :
    (f.extract w).toNat = w.toNat / 2 ^ f.lsb % 2 ^ f.width := by
  rw [extract, BitVec.toNat_and, toNat_mask h, Nat.and_two_pow_sub_one_eq_mod,
    BitVec.toNat_ushiftRight, Nat.shiftRight_eq_div_pow]

theorem toNat_place {f : BitField} (h : f.InWord) (v : Word) :
    (f.place v).toNat = v.toNat % 2 ^ f.width * 2 ^ f.lsb := by
  have hle : 2 ^ f.width * 2 ^ f.lsb ≤ 2 ^ 32 := by
    rw [← Nat.pow_add]
    exact Nat.pow_le_pow_right (by decide) (by rw [Nat.add_comm]; exact h)
  have hlt : v.toNat % 2 ^ f.width < 2 ^ f.width := Nat.mod_lt _ (Nat.two_pow_pos _)
  rw [place, BitVec.toNat_shiftLeft, BitVec.toNat_and, toNat_mask (Nat.le_of_add_left_le h),
    Nat.and_two_pow_sub_one_eq_mod, Nat.shiftLeft_eq]
  exact Nat.mod_eq_of_lt (lt_of_lt_of_le (Nat.mul_lt_mul_of_pos_right hlt (Nat.two_pow_pos _)) hle)

theorem extract_or (f : BitField) (v w : Word) : f.extract (v ||| w) = f.extract v ||| f.extract w := by
  rw [extract, BitVec.ushiftRight_or_distrib, BitVec.and_or_distrib_right, extract, extract]

theorem toNat_extract_place {f : BitField} (h : f.InWord) (v : Word) :
    (f.extract (f.place v)).toNat = v.toNat % 2 ^ f.width := by
  rw [toNat_extract (Nat.le_of_add_left_le h), toNat_place h,
    Nat.mul_div_cancel _ (Nat.two_pow_pos _), Nat.mod_mod]

/-! The bits of a placed value and of a field that is read. -/

theorem getLsbD_mask (f : BitField) (i : ℕ) :
    f.mask.getLsbD i = decide (i < 32 ∧ i < f.width) := by
  rcases Nat.le_total f.width 32 with h | h
  · rw [BitVec.getLsbD, toNat_mask h, Nat.testBit_two_pow_sub_one, decide_eq_decide]
    omega
  · rw [mask, if_pos h, BitVec.getLsbD_allOnes, decide_eq_decide]
    omega

theorem getLsbD_place (f : BitField) (v : Word) (i : ℕ) :
    (f.place v).getLsbD i = (decide (i < 32 ∧ f.Covers i) && v.getLsbD (i - f.lsb)) := by
  have hcovers : i < 32 ∧ f.Covers i ↔
      (i < 32 ∧ ¬ i < f.lsb) ∧ i - f.lsb < 32 ∧ i - f.lsb < f.width := by
    rw [Covers]
    omega
  rw [place, BitVec.getLsbD_shiftLeft, BitVec.getLsbD_and, getLsbD_mask, ← decide_not,
    ← Bool.decide_and, Bool.and_comm (v.getLsbD _), ← Bool.and_assoc, ← Bool.decide_and,
    decide_eq_decide.2 hcovers]

theorem getLsbD_extract (f : BitField) (w : Word) (i : ℕ) :
    (f.extract w).getLsbD i = (decide (i < 32 ∧ i < f.width) && w.getLsbD (f.lsb + i)) := by
  rw [extract, BitVec.getLsbD_and, BitVec.getLsbD_ushiftRight, getLsbD_mask, Bool.and_comm]

theorem extract_congr {f : BitField} {w x : Word}
    (h : ∀ i, f.Covers i → w.getLsbD i = x.getLsbD i) : f.extract w = f.extract x := by
  apply BitVec.eq_of_getLsbD_eq
  intro i _
  rw [getLsbD_extract, getLsbD_extract]
  by_cases hi : i < f.width
  · rw [h (f.lsb + i) ⟨Nat.le_add_right _ _, Nat.add_lt_add_left hi _⟩]
  · rw [decide_eq_false fun hlt => hi hlt.2, Bool.false_and, Bool.false_and]

theorem extract_place_of_apart {f g : BitField} (h : f.Apart g) (v : Word) :
    f.extract (g.place v) = 0#32 := by
  have hclear : f.extract (g.place v) = f.extract 0#32 := by
    apply extract_congr
    intro i hi
    rw [getLsbD_place, decide_eq_false fun hg => h.not_covers hi hg.2, Bool.false_and,
      BitVec.getLsbD_zero]
  rw [hclear, extract, BitVec.zero_ushiftRight, BitVec.zero_and]

theorem place_and_eq_zero {f : BitField} {m : Word} (h : f.mask <<< f.lsb &&& m = 0#32) (v : Word) :
    f.place v &&& m = 0#32 := by
  rw [place, BitVec.shiftLeft_and_distrib, BitVec.and_assoc, h, BitVec.and_zero]

def Has (w : Word) (f : BitField) (v : Word) : Prop := f.extract w = f.extract (f.place v)

def HasAll (w : Word) : List BitField → List Word → Prop
  | f :: fields, v :: values => Has w f v ∧ HasAll w fields values
  | _, _ => True

def join (w : Word) : List BitField → List Word → Word
  | f :: fields, v :: values => join (w ||| f.place v) fields values
  | _, _ => w

def Layout (opcode : Word) (fields : List BitField) : Prop :=
  (∀ f ∈ fields, f.InWord ∧ f.extract opcode = 0#32) ∧ fields.Pairwise Apart

instance (opcode : Word) (fields : List BitField) : Decidable (Layout opcode fields) :=
  inferInstanceAs (Decidable (_ ∧ _))

theorem extract_join_of_apart {f : BitField} {fields : List BitField}
    (h : ∀ g ∈ fields, f.Apart g) (values : List Word) (w : Word) :
    f.extract (join w fields values) = f.extract w := by
  induction fields generalizing values w with
  | nil => rfl
  | cons g fields ih =>
    cases values with
    | nil => rfl
    | cons v values =>
      rw [List.forall_mem_cons] at h
      rw [join, ih h.2, extract_or, extract_place_of_apart h.1, BitVec.or_zero]

theorem hasAll_join {opcode : Word} {fields : List BitField} (h : Layout opcode fields)
    (values : List Word) : HasAll (join opcode fields values) fields values := by
  induction fields generalizing opcode values with
  | nil => trivial
  | cons f fields ih =>
    cases values with
    | nil => trivial
    | cons v values =>
      obtain ⟨hclear, hapart⟩ := h
      rw [List.forall_mem_cons] at hclear
      rw [List.pairwise_cons] at hapart
      obtain ⟨⟨-, hzero⟩, hclear⟩ := hclear
      have hrest (g : BitField) (hg : g ∈ fields) :
          g.InWord ∧ g.extract (opcode ||| f.place v) = 0#32 := by
        refine ⟨(hclear g hg).1, ?_⟩
        rw [extract_or, (hclear g hg).2, extract_place_of_apart (hapart.1 g hg).symm, BitVec.or_zero]
      refine ⟨?_, ih ⟨hrest, hapart.2⟩ values⟩
      rw [Has, join, extract_join_of_apart hapart.1, extract_or, hzero, BitVec.zero_or]

theorem join_and {m : Word} {fields : List BitField}
    (h : ∀ f ∈ fields, f.mask <<< f.lsb &&& m = 0#32) (values : List Word) (w : Word) :
    join w fields values &&& m = w &&& m := by
  induction fields generalizing values w with
  | nil => rfl
  | cons f fields ih =>
    cases values with
    | nil => rfl
    | cons v values =>
      rw [List.forall_mem_cons] at h
      rw [join, ih h.2, BitVec.and_or_distrib_right, place_and_eq_zero h.1, BitVec.or_zero]

/-! What a field holds, as a number. -/

theorem Has.toNat_eq_mod {w : Word} {f : BitField} {n : ℕ} (h : Has w f (.ofNat 32 n))
    (hf : f.InWord) : (f.extract w).toNat = n % 2 ^ f.width := by
  have hdvd : 2 ^ f.width ∣ 2 ^ 32 := Nat.pow_dvd_pow 2 (Nat.le_of_add_left_le hf)
  rw [h, toNat_extract_place hf, BitVec.toNat_ofNat, Nat.mod_mod_of_dvd _ hdvd]

theorem Has.toNat_eq {w : Word} {f : BitField} {n : ℕ} (h : Has w f (.ofNat 32 n)) (hf : f.InWord)
    (hn : n < 2 ^ f.width) : (f.extract w).toNat = n := by
  rw [h.toNat_eq_mod hf, Nat.mod_eq_of_lt hn]

theorem extractSigned_eq_bmod {f : BitField} (hpos : 0 < f.width) (h : f.width ≤ 32) (w : Word) :
    f.extractSigned w = ((f.extract w).toNat : Int).bmod (2 ^ f.width) := by
  have hsplit : (2 ^ 32 : ℕ) = 2 ^ (32 - f.width) * 2 ^ f.width := by
    rw [← Nat.pow_add, Nat.sub_add_cancel h]
  have heven : 2 ∣ 2 ^ f.width := Dvd.dvd.pow (Nat.dvd_refl 2) hpos.ne'
  rw [extractSigned, BitVec.toInt_sshiftRight, BitVec.toInt_shiftLeft, Nat.shiftLeft_eq, hsplit,
    Nat.mul_comm (f.extract w).toNat, Nat.cast_mul,
    Int.mod_bmod_mul_of_pos _ _ (Nat.two_pow_pos _) heven, Int.shiftRight_eq_div_pow,
    Int.mul_ediv_cancel_left _ (by exact_mod_cast (Nat.two_pow_pos _).ne')]

theorem Has.extractSigned_eq {w : Word} {f : BitField} {d : Int} (h : Has w f (.ofInt 32 d))
    (hpos : 0 < f.width) (hf : f.InWord) (hlo : -(2 ^ (f.width - 1) : Int) ≤ d)
    (hhi : d < 2 ^ (f.width - 1)) : f.extractSigned w = d := by
  have hw : f.width ≤ 32 := Nat.le_of_add_left_le hf
  have hdvd : ((2 ^ f.width : ℕ) : Int) ∣ ((2 ^ 32 : ℕ) : Int) :=
    Int.natCast_dvd_natCast.2 (Nat.pow_dvd_pow 2 hw)
  have hhalf : (2 ^ f.width : ℕ) = 2 * 2 ^ (f.width - 1) := by
    rw [← Nat.pow_succ', Nat.succ_eq_add_one, Nat.sub_add_cancel hpos]
  rw [extractSigned_eq_bmod hpos hw, h, toNat_extract_place hf, BitVec.toNat_ofInt, Int.natCast_emod,
    Int.toNat_of_nonneg (Int.emod_nonneg _ (by decide)), Int.emod_emod_of_dvd _ hdvd, Int.emod_bmod]
  apply Int.bmod_eq_of_le <;> rw [hhalf] <;> push_cast <;> omega

end TensorKernels.BitField
