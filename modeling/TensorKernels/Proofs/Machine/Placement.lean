import TensorKernels.Proofs.Machine.Field

/-!
Overwriting a field of a word. The bits of the field are cleared, which are those that a value of ones
fills, and the placed value is joined in. The field then reads as the low bits of the value, also as a
signed number, and every field that shares no bit with it reads as before. For a field of at least one
bit inside the word no shift or subtraction on the way overflows.
-/

namespace TensorKernels.BitField

theorem extractChecked_congr {f : BitField} {w x : Word} (h : f.extract w = f.extract x) :
    f.extractChecked w = f.extractChecked x := by
  rw [extractChecked, extractChecked, h]

theorem extractSignedChecked_congr {f : BitField} {w x : Word} (h : f.extract w = f.extract x) :
    f.extractSignedChecked w = f.extractSignedChecked x := by
  rw [extractSignedChecked, extractSignedChecked, extractChecked_congr h, extractSigned, extractSigned, h]

/-! The bits of a field replaced in a word. -/

/-- `word` has the bits of `placed` in the field and those of `w` outside of it. -/
structure Replaces (f : BitField) (w placed word : Word) : Prop where
  inside : ∀ i, f.Covers i → word.getLsbD i = placed.getLsbD i
  outside : ∀ i, ¬ f.Covers i → word.getLsbD i = w.getLsbD i

namespace Replaces

variable {f : BitField} {w placed word : Word}

theorem extract_eq (h : f.Replaces w placed word) : f.extract word = f.extract placed :=
  extract_congr h.inside

theorem extract_eq_of_disjoint (h : f.Replaces w placed word) {g : BitField}
    (hg : ∀ i, g.Covers i → ¬ f.Covers i) : g.extract word = g.extract w :=
  extract_congr fun i hi => h.outside i (hg i hi)

end Replaces

def overwrite (f : BitField) (w v : Word) : Word :=
  (w &&& ~~~f.place (BitVec.allOnes 32)) ||| f.place v

/-- Overwriting with the checked placements, of the ones that cover the field and of the value. -/
def overwriteChecked (f : BitField) (w v : Word) : Except Overflow Word := do
  let covered ← f.placeChecked (BitVec.allOnes 32)
  let placed ← f.placeChecked v
  return (w &&& ~~~covered) ||| placed

theorem getLsbD_overwrite (f : BitField) (w v : Word) (i : ℕ) :
    (f.overwrite w v).getLsbD i =
      (w.getLsbD i && !decide (f.Covers i) || (f.place v).getLsbD i) := by
  by_cases hi : i < 32
  · have hones : (f.place (BitVec.allOnes 32)).getLsbD i = decide (f.Covers i) := by
      rw [getLsbD_place, BitVec.getLsbD_allOnes, decide_eq_true (lt_of_le_of_lt (Nat.sub_le _ _) hi),
        Bool.and_true, decide_eq_decide, and_iff_right hi]
    rw [overwrite, BitVec.getLsbD_or, BitVec.getLsbD_and, BitVec.getLsbD_not, hones, decide_eq_true hi,
      Bool.true_and]
  · have hge : 32 ≤ i := Nat.le_of_not_lt hi
    rw [BitVec.getLsbD_of_ge _ _ hge, BitVec.getLsbD_of_ge _ _ hge, BitVec.getLsbD_of_ge _ _ hge]
    rfl

theorem replaces_overwrite (f : BitField) (w v : Word) :
    f.Replaces w (f.place v) (f.overwrite w v) := by
  constructor
  · intro i hi
    rw [getLsbD_overwrite, decide_eq_true hi, Bool.not_true, Bool.and_false, Bool.false_or]
  · intro i hi
    rw [getLsbD_overwrite, getLsbD_place, decide_eq_false hi, decide_eq_false fun h => hi h.2,
      Bool.not_false, Bool.and_true, Bool.false_and, Bool.or_false]

/-! The checked operations on a field of at least one bit. -/

section Checked

variable {f : BitField} (hpos : 1 ≤ f.width) (hf : f.InWord)

include hpos hf

theorem lsb_lt : f.lsb < 32 := lt_of_lt_of_le (Nat.lt_add_of_pos_right hpos) hf

theorem placeChecked_eq (v : Word) : f.placeChecked v = .ok (f.place v) := if_pos (lsb_lt hpos hf)

theorem extractChecked_eq (w : Word) : f.extractChecked w = .ok (f.extract w) := if_pos (lsb_lt hpos hf)

theorem extractSignedChecked_eq (w : Word) :
    f.extractSignedChecked w = .ok (f.extractSigned w) := by
  have hwidth : ¬ 32 < f.width := Nat.not_lt.2 (Nat.le_of_add_left_le hf)
  rw [extractSignedChecked, extractChecked_eq hpos hf, if_neg hwidth, if_neg (Nat.ne_of_gt hpos)]
  rfl

theorem overwriteChecked_eq (w v : Word) : f.overwriteChecked w v = .ok (f.overwrite w v) := by
  rw [overwriteChecked, placeChecked_eq hpos hf, placeChecked_eq hpos hf]
  rfl

end Checked

theorem extract_place {f : BitField} (hf : f.InWord) (v : Word) :
    f.extract (f.place v) = BitVec.ofNat 32 (v.toNat % 2 ^ f.width) := by
  rw [← toNat_extract_place hf, BitVec.ofNat_toNat, BitVec.setWidth_eq]

/-- Placing, overwriting and reading a field of at least one bit never fail. The field reads as what was
placed there, cut to its width, and all other bits are kept. -/
theorem overwrite_round_trips {f : BitField} (hpos : 1 ≤ f.width) (hf : f.lsb + f.width ≤ 32)
    (v w : Word) :
    f.mask.toNat = 2 ^ f.width - 1 ∧
    (∃ placed word, f.placeChecked v = .ok placed ∧ f.overwriteChecked w v = .ok word ∧
      f.Replaces w placed word ∧
      f.extractChecked placed = .ok (.ofNat 32 (v.toNat % 2 ^ f.width)) ∧
      f.extractChecked word = .ok (.ofNat 32 (v.toNat % 2 ^ f.width)) ∧
      ∀ g : BitField, (∀ i, g.Covers i → ¬ f.Covers i) →
        g.extractChecked word = g.extractChecked w ∧
        g.extractSignedChecked word = g.extractSignedChecked w) ∧
    ∀ d : Int, -2 ^ (f.width - 1) ≤ d → d < 2 ^ (f.width - 1) →
      (f.placeChecked (.ofInt 32 d) >>= f.extractSignedChecked) = .ok d ∧
      (f.overwriteChecked w (.ofInt 32 d) >>= f.extractSignedChecked) = .ok d := by
  have hreplaces := replaces_overwrite f w
  refine ⟨toNat_mask (Nat.le_of_add_left_le hf), ?_, fun d hlo hhi => ?_⟩
  · refine ⟨f.place v, f.overwrite w v, placeChecked_eq hpos hf v, overwriteChecked_eq hpos hf w v,
      hreplaces v, ?_, ?_, fun g hg => ?_⟩
    · rw [extractChecked_eq hpos hf, extract_place hf]
    · rw [extractChecked_eq hpos hf, (hreplaces v).extract_eq, extract_place hf]
    · have hkept := (hreplaces v).extract_eq_of_disjoint hg
      exact ⟨extractChecked_congr hkept, extractSignedChecked_congr hkept⟩
  · -- the placed and the overwritten word differ outside the field only
    have hsigned {x : Word} (hx : Has x f (.ofInt 32 d)) : f.extractSignedChecked x = .ok d := by
      rw [extractSignedChecked_eq hpos hf, hx.extractSigned_eq hpos hf hlo hhi]
    rw [placeChecked_eq hpos hf, overwriteChecked_eq hpos hf]
    exact ⟨hsigned rfl, hsigned (hreplaces _).extract_eq⟩

theorem overwrite_round_trips_branch :
    (∃ word, imm19.overwriteChecked 0x34000003#32 0xFFFFFFFD#32 = .ok word ∧
      imm19.extractChecked word = .ok 0x7FFFD#32 ∧ rt.extractChecked word = .ok 3#32) ∧
    (imm19.overwriteChecked 0x34000003#32 (.ofInt 32 (-3)) >>= imm19.extractSignedChecked) =
      .ok (-3) ∧
    (placeChecked ⟨0, 32⟩ (.ofInt 32 (-2 ^ 31)) >>= extractSignedChecked ⟨0, 32⟩) = .ok (-2 ^ 31) := by
  obtain ⟨-, ⟨-, word, -, hword, -, -, hread, hkept⟩, hsigned⟩ :=
    overwrite_round_trips (f := imm19) (by decide) (by decide) 0xFFFFFFFD#32 0x34000003#32
  obtain ⟨-, -, hwhole⟩ := overwrite_round_trips (f := ⟨0, 32⟩) (by decide) (by decide) 0#32 0#32
  have hapart : rt.Apart imm19 := by decide
  refine ⟨⟨word, hword, hread, ?_⟩, (hsigned (-3) (by decide) (by decide)).2,
    (hwhole (-2 ^ 31) (by decide) (by decide)).1⟩
  exact (hkept rt fun i hi => hapart.not_covers hi).1.trans rfl

end TensorKernels.BitField
