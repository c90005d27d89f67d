import TensorKernels.Proofs.Machine.Decode

/-!
Which instructions share a word. A word shows the operation, all operands that have a field, and of a
register its number; the width of a register is shown only where it sets the width of the operation.
Two instructions whose operands fit have one word exactly when the word shows the same of both, or when
they are one of the two pairs that are spelled differently: a product without a summand, and a shift by
nothing.
-/

namespace TensorKernels

def GeneralReg.bare (r : GeneralReg) : GeneralReg := ⟨r.id, .x64⟩

namespace Instr

/-- What a word shows of its instruction. -/
def shown : Instr → Instr
  | .mov rd rm => .mov rd rm.bare
  | .addImm rd rn imm lsl12 => .addImm rd rn.bare imm lsl12
  | .subImm rd rn imm lsl12 => .subImm rd rn.bare imm lsl12
  | .addReg rd rn rm shift amount => .addReg rd rn.bare rm.bare shift amount
  | .subReg rd rn rm shift amount => .subReg rd rn.bare rm.bare shift amount
  | .lslImm rd rn amount => .lslImm rd rn.bare amount
  | .lsrImm rd rn amount => .lsrImm rd rn.bare amount
  | .madd rd rn rm ra => .madd rd rn.bare rm.bare ra.bare
  | .mul rd rn rm => .mul rd rn.bare rm.bare
  | .transfer dir rt rn offset mode => .transfer dir rt rn.bare offset mode
  | .transferV dir size rt rn offset mode => .transferV dir size rt rn.bare offset mode
  | .transferPair dir size rt rt2 rn offset mode => .transferPair dir size rt rt2 rn.bare offset mode
  | .transferLane dir rt lane rn post => .transferLane dir rt lane rn.bare post
  | i => i

/-- Two spellings of one operation. -/
inductive Synonyms : Instr → Instr → Prop
  | product (rd rn rm ra : GeneralReg) (h : ra.id = 31) : Synonyms (.mul rd rn rm) (.madd rd rn rm ra)
  | noShift (rd rn : GeneralReg) : Synonyms (.lslImm rd rn 0) (.lsrImm rd rn 0)

theorem Synonyms.left_unique {i j c : Instr} (hi : Synonyms i c) (hj : Synonyms j c) : i = j := by
  cases hi <;> cases hj <;> rfl

theorem encode_shown (i : Instr) : i.shown.encode = i.encode := by
  cases i <;> rfl

theorem Synonyms.encode_eq {i j : Instr} (h : Synonyms i j) : i.encode = j.encode := by
  cases h with
  | product rd rn rm ra hra =>
    simp only [encode, encodeMadd, putGeneral, hra]
    rfl
  | noShift rd rn =>
    simp only [encode, Nat.zero_mod, Nat.sub_zero, Nat.mod_self]

theorem shown_canonical (i : Instr) :
    i.canonical.shown = i.shown ∨ Synonyms i.shown i.canonical.shown := by
  cases i with
  | lslImm rd rn amount =>
    cases amount with
    | zero => exact Or.inr (.noShift rd rn.bare)
    | succ amount => exact Or.inl rfl
  | mul rd rn rm => exact Or.inr (.product rd rn.bare rm.bare _ rfl)
  | _ => exact Or.inl rfl

/-- Words of instructions whose operands fit are unambiguous. -/
theorem encode_eq_iff {i j : Instr} (hi : i.InRange) (hj : j.InRange) :
    i.encode = j.encode ↔
      i.shown = j.shown ∨ Synonyms i.shown j.shown ∨ Synonyms j.shown i.shown := by
  constructor
  · intro h
    have hcanonical : i.canonical = j.canonical := by
      rw [← Option.some_inj, ← decode_encode hi, ← decode_encode hj, h]
    rcases shown_canonical i with hsi | hsi <;> rcases shown_canonical j with hsj | hsj
    · exact Or.inl (by rw [← hsi, ← hsj, hcanonical])
    · exact Or.inr (Or.inr (by rwa [← hcanonical, hsi] at hsj))
    · exact Or.inr (Or.inl (by rwa [hcanonical, hsj] at hsi))
    · exact Or.inl (hsi.left_unique (by rwa [hcanonical]))
  · rw [← encode_shown i, ← encode_shown j]
    rintro (h | h | h)
    · rw [h]
    · exact h.encode_eq
    · exact h.encode_eq.symm

theorem encode_eq_iff_product_load :
    (mul (.x 1) (.w 2) (.x 3)).encode = (madd (.x 1) (.x 2) (.w 3) (.w 31)).encode ∧
      (transfer .load (.x 4) (.x 5) (-8) .preIndex).encode ≠
        (transfer .load (.x 4) (.x 5) (-8) .postIndex).encode := by
  constructor
  · have hproduct : (mul (.x 1) (.w 2) (.x 3)).InRange := trivial
    have hsum : (madd (.x 1) (.x 2) (.w 3) (.w 31)).InRange := trivial
    exact (encode_eq_iff hproduct hsum).2 (Or.inr (Or.inl (.product _ _ _ _ rfl)))
  · have hbefore : (transfer .load (.x 4) (.x 5) (-8) .preIndex).InRange :=
      ⟨by decide, by decide⟩
    have hafter : (transfer .load (.x 4) (.x 5) (-8) .postIndex).InRange :=
      ⟨by decide, by decide⟩
    intro h
    rcases (encode_eq_iff hbefore hafter).1 h with h | h | h <;> cases h

end Instr

end TensorKernels
