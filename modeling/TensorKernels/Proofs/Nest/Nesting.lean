import TensorKernels.Proofs.Nest.Distinct
import TensorKernels.Proofs.Nest.Regroup

/-!
Regrouping does not change whether the output strides nest. The test sorts the axes by stride; it
succeeds exactly when some order of them nests, because a nesting order rises strictly. A loop and the
loop it is cut into then nest together: nothing fits between the two strides of a cut loop, so in any
nesting order its parts are neighbours.
-/

namespace TensorKernels

open Nest

namespace Plan

theorem le_of_mem_nested {covered : ℕ} {axes : List (ℕ × ℕ)} (h : nested covered axes = true)
    {axis : ℕ × ℕ} (hmem : axis ∈ axes) : covered ≤ axis.1 := by
  induction axes generalizing covered with
  | nil => exact absurd hmem List.not_mem_nil
  | cons first rest ih =>
    obtain ⟨stride, size⟩ := first
    obtain ⟨hstride, -, hrest⟩ := nested_cons.1 h
    rcases List.mem_cons.1 hmem with rfl | hmem
    · exact hstride
    · have hle := ih hrest hmem
      omega

theorem pairwise_of_nested {covered : ℕ} {axes : List (ℕ × ℕ)} (h : nested covered axes = true)
    (hpos : 0 < covered) (hsizes : ∀ axis ∈ axes, 1 < axis.2) :
    axes.Pairwise fun a b => a.1 < b.1 := by
  induction axes generalizing covered with
  | nil => exact List.Pairwise.nil
  | cons first rest ih =>
    obtain ⟨stride, size⟩ := first
    obtain ⟨-, -, hrest⟩ := nested_cons.1 h
    rw [List.forall_mem_cons] at hsizes
    refine List.Pairwise.cons ?_ (ih hrest (by omega) hsizes.2)
    intro axis hmem
    have hle := le_of_mem_nested hrest hmem
    have hmul : stride ≤ (size - 1) * stride :=
      Nat.le_mul_of_pos_left stride (by have := hsizes.1; omega)
    change stride < axis.1
    omega

theorem nested_append {covered : ℕ} {before after : List (ℕ × ℕ)} :
    nested covered (before ++ after) = true ↔ nested covered before = true ∧
      nested (covered + (before.map fun axis => (axis.2 - 1) * axis.1).sum) after = true := by
  induction before generalizing covered with
  | nil => simp [nested]
  | cons first rest ih =>
    obtain ⟨stride, size⟩ := first
    rw [List.cons_append, nested_cons, nested_cons, ih, List.map_cons, List.sum_cons,
      ← Nat.add_assoc, Nat.add_comm covered, and_assoc, and_assoc]

theorem nested_merge {covered stride inner outer : ℕ} {rest : List (ℕ × ℕ)} (hinner : 0 < inner)
    (houter : 0 < outer) :
    nested covered ((stride, inner) :: (inner * stride, outer) :: rest) = true ↔
      nested covered ((stride, inner * outer) :: rest) = true := by
  obtain ⟨i, rfl⟩ := Nat.exists_eq_add_of_lt hinner
  obtain ⟨o, rfl⟩ := Nat.exists_eq_add_of_lt houter
  simp only [Nat.zero_add, nested_cons, Nat.add_sub_cancel]
  have hcut : ((i + 1) * (o + 1) - 1) * stride = o * ((i + 1) * stride) + i * stride := by
    have hsize : (i + 1) * (o + 1) - 1 = o * (i + 1) + i := by
      rw [Nat.mul_succ, Nat.mul_comm o]
      omega
    rw [hsize, Nat.add_mul, Nat.mul_assoc]
  rw [hcut, Nat.add_assoc, Nat.succ_mul i stride]
  constructor
  · rintro ⟨hstride, -, -, hlt, hrest⟩
    exact ⟨hstride, hlt, hrest⟩
  · rintro ⟨hstride, hlt, hrest⟩
    exact ⟨hstride, by omega, by omega, hlt, hrest⟩

def Nests (axes : List (ℕ × ℕ)) : Prop := ∃ order, order.Perm axes ∧ nested 1 order = true

theorem Nests.of_perm {axes others : List (ℕ × ℕ)} (h : Nests axes) (hperm : axes.Perm others) :
    Nests others := by
  obtain ⟨order, horder, hnested⟩ := h
  exact ⟨order, horder.trans hperm, hnested⟩

theorem nests_comm {axes others : List (ℕ × ℕ)} (hperm : axes.Perm others) :
    Nests axes ↔ Nests others :=
  ⟨fun h => h.of_perm hperm, fun h => h.of_perm hperm.symm⟩

section Merge

variable {stride inner outer : ℕ}

theorem nested_parts_adjacent {covered : ℕ} {between after : List (ℕ × ℕ)} (hinner : 1 < inner)
    (hpos : 0 < covered) (hsizes : ∀ axis ∈ between, 1 < axis.2)
    (h : nested covered ((stride, inner) :: (between ++ (inner * stride, outer) :: after)) = true) :
    between = [] := by
  cases between with
  | nil => rfl
  | cons first between =>
    obtain ⟨t, u⟩ := first
    obtain ⟨hstride, -, h⟩ := nested_cons.1 h
    obtain ⟨ht, -, h⟩ := nested_cons.1 h
    have hlast := le_of_mem_nested h (List.mem_append_right between List.mem_cons_self)
    have hsize : 1 < u := hsizes (t, u) List.mem_cons_self
    have ht' : t ≤ (u - 1) * t := Nat.le_mul_of_pos_left t (by omega)
    have hs : stride ≤ (inner - 1) * stride := Nat.le_mul_of_pos_left stride (by omega)
    have hmul : inner * stride = (inner - 1) * stride + stride := by
      rw [← Nat.succ_mul]
      congr 1
      omega
    -- the part between would double what the finer part covers, past the stride of the coarser one
    change _ ≤ inner * stride at hlast
    omega

theorem nests_merge {rest : List (ℕ × ℕ)} (hinner : 1 < inner) (houter : 1 < outer)
    (hsizes : ∀ axis ∈ rest, 1 < axis.2) :
    Nests ((inner * stride, outer) :: (stride, inner) :: rest) ↔
      Nests ((stride, inner * outer) :: rest) := by
  constructor
  · rintro ⟨order, hperm, hnested⟩
    have hall : ∀ axis ∈ order, 1 < axis.2 := by
      intro axis hmem
      have := hperm.mem_iff.1 hmem
      simp only [List.mem_cons] at this
      rcases this with rfl | rfl | hmem
      · exact houter
      · exact hinner
      · exact hsizes axis hmem
    have hrise := pairwise_of_nested hnested Nat.one_pos hall
    have hfine : (stride, inner) ∈ order := hperm.mem_iff.2 (by simp)
    have hcoarse : (inner * stride, outer) ∈ order := hperm.mem_iff.2 (by simp)
    have hstride : 1 ≤ stride := le_of_mem_nested hnested hfine
    have hlt : stride < inner * stride := by
      calc stride = 1 * stride := (Nat.one_mul stride).symm
        _ < inner * stride := Nat.mul_lt_mul_of_pos_right hinner hstride
    obtain ⟨before, after, rfl⟩ := List.append_of_mem hfine
    rw [List.pairwise_append] at hrise
    have hafter : (inner * stride, outer) ∈ after := by
      rcases List.mem_append.1 hcoarse with hmem | hmem
      · have hbefore : inner * stride < stride := hrise.2.2 _ hmem _ List.mem_cons_self
        omega
      · rcases List.mem_cons.1 hmem with heq | hmem
        · have heq' : inner * stride = stride := congrArg Prod.fst heq
          omega
        · exact hmem
    obtain ⟨between, tail, rfl⟩ := List.append_of_mem hafter
    rw [nested_append] at hnested
    have hnone : between = [] := by
      refine nested_parts_adjacent hinner (by omega) ?_ hnested.2
      intro axis hmem
      exact hall axis (by simp [hmem])
    subst hnone
    refine ⟨before ++ (stride, inner * outer) :: tail, ?_, ?_⟩
    · have hrest : (before ++ tail).Perm rest := by
        have hfront : (before ++ (stride, inner) :: (inner * stride, outer) :: tail).Perm
            ((inner * stride, outer) :: (stride, inner) :: (before ++ tail)) :=
          (List.perm_middle.trans (List.perm_middle.cons _)).trans (List.Perm.swap _ _ _)
        exact (hfront.symm.trans hperm).cons_inv.cons_inv
      exact List.perm_middle.trans (hrest.cons _)
    · rw [nested_append]
      exact ⟨hnested.1, (nested_merge (by omega) (by omega)).1 hnested.2⟩
  · rintro ⟨order, hperm, hnested⟩
    have hmem : (stride, inner * outer) ∈ order := hperm.mem_iff.2 (by simp)
    obtain ⟨before, after, rfl⟩ := List.append_of_mem hmem
    rw [nested_append] at hnested
    refine ⟨before ++ (stride, inner) :: (inner * stride, outer) :: after, ?_, ?_⟩
    · have hrest : (before ++ after).Perm rest := (List.perm_middle.symm.trans hperm).cons_inv
      exact (List.perm_middle.trans (List.perm_middle.cons _)).trans
        ((List.Perm.swap _ _ _).trans ((hrest.cons _).cons _))
    · rw [nested_append]
      exact ⟨hnested.1, (nested_merge (by omega) (by omega)).2 hnested.2⟩

end Merge

def spreadAxes (loops : List Loop) : List (ℕ × ℕ) := (spreadLoops loops).map axisOf

theorem spreadAxes_cons (l : Loop) (rest : List Loop) :
    spreadAxes (l :: rest) =
      if l.role ≠ .k ∧ 1 < l.size then axisOf l :: spreadAxes rest else spreadAxes rest := by
  by_cases h : l.role ≠ .k ∧ 1 < l.size
  · rw [if_pos h, spreadAxes, spreadLoops, List.filter_cons_of_pos (by simp [h.1, h.2])]
    rfl
  · rw [if_neg h, spreadAxes, spreadLoops, List.filter_cons_of_neg (by simpa using h)]
    rfl

theorem one_lt_of_mem_spreadAxes {loops : List Loop} {axis : ℕ × ℕ}
    (h : axis ∈ spreadAxes loops) : 1 < axis.2 := by
  obtain ⟨l, hl, rfl⟩ := List.mem_map.1 h
  have hkept := (List.mem_filter.1 hl).2
  simp only [Bool.and_eq_true, decide_eq_true_eq] at hkept
  exact hkept.2

theorem axisBefore_iff {a b : ℕ × ℕ} :
    axisBefore a b = true ↔ a.1 < b.1 ∨ a.1 = b.1 ∧ a.2 ≤ b.2 := by
  simp [axisBefore]

theorem outputNests_iff (loops : List Loop) :
    outputNests loops = true ↔ Nests (spreadAxes loops) := by
  rw [outputNests_eq]
  constructor
  · intro h
    exact ⟨_, List.mergeSort_perm _ _, h⟩
  · rintro ⟨order, hperm, hnested⟩
    have hsizes : ∀ axis ∈ order, 1 < axis.2 := by
      intro axis hmem
      exact one_lt_of_mem_spreadAxes (hperm.mem_iff.1 hmem)
    have hrise := pairwise_of_nested hnested Nat.one_pos hsizes
    have hsorted : ((spreadLoops loops).map axisOf).mergeSort axisBefore = order := by
      apply @List.Perm.eq_of_pairwise _ (fun a b => axisBefore a b = true)
      · intro a b _ _ hab hba
        rw [axisBefore_iff] at hab hba
        exact Prod.ext (by omega) (by omega)
      · apply List.pairwise_mergeSort
        · intro a b c hab hbc
          rw [axisBefore_iff] at hab hbc ⊢
          omega
        · intro a b
          rw [Bool.or_eq_true, axisBefore_iff, axisBefore_iff]
          omega
      · refine hrise.imp fun hlt => ?_
        rw [axisBefore_iff]
        exact Or.inl hlt
      · exact (List.mergeSort_perm _ _).trans hperm.symm
    rw [hsorted]
    exact hnested

end Plan

namespace Nest

open Plan

theorem Regroup.sizes_pos {a b : List Loop} (h : Regroup a b) :
    (∀ l ∈ a, 0 < l.size) ↔ ∀ l ∈ b, 0 < l.size := by
  cases h with
  | reorder h => simp only [h.mem_iff]
  | reschedule l exec rest => simp only [List.forall_mem_cons]
  | merge rest hrole hstrides =>
    simp only [List.forall_mem_cons, Nat.pos_iff_ne_zero, Nat.mul_ne_zero_iff]
    tauto

theorem Regroups.sizes_pos {a b : List Loop} (h : Regroups a b) :
    (∀ l ∈ a, 0 < l.size) ↔ ∀ l ∈ b, 0 < l.size :=
  iff_of_regroup Regroup.sizes_pos h

theorem Regroup.nests_iff {a b : List Loop} (h : Regroup a b) (hsizes : ∀ l ∈ a, 0 < l.size) :
    Nests (spreadAxes a) ↔ Nests (spreadAxes b) := by
  cases h with
  | reorder h => exact nests_comm ((h.filter _).map _)
  | reschedule l exec rest =>
    rw [spreadAxes_cons, spreadAxes_cons]
    rfl
  | @merge outer inner rest hrole hstrides =>
    rw [List.forall_mem_cons, List.forall_mem_cons] at hsizes
    obtain ⟨houter, hinner, -⟩ := hsizes
    have hout : outer.strides.out = inner.size * inner.strides.out := by rw [hstrides]; rfl
    rw [spreadAxes_cons, spreadAxes_cons, spreadAxes_cons, hrole]
    by_cases hk : inner.role = .k
    · simp [hk]
    -- a loop of one index adds no axis, and the merged loop is then the other one
    by_cases hone : outer.size = 1
    · simp [hone, hk, axisOf]
    by_cases hone' : inner.size = 1
    · simp [hone', hk, axisOf, hout]
    have hmerged : 1 < inner.size * outer.size :=
      Nat.one_lt_mul_iff.2 ⟨hinner, houter, by omega⟩
    rw [if_pos ⟨hk, by omega⟩, if_pos ⟨hk, by omega⟩, if_pos ⟨hk, hmerged⟩, axisOf, hout]
    exact nests_merge (by omega) (by omega) fun axis hmem => one_lt_of_mem_spreadAxes hmem

/-- Regrouped loops pass the test for distinct outputs or fail it together. -/
theorem Regroups.outputNests_eq {a b : List Loop} (h : Regroups a b)
    (hsizes : ∀ l ∈ a, 0 < l.size) : outputNests a = outputNests b := by
  rw [Bool.eq_iff_iff, outputNests_iff, outputNests_iff]
  induction h with
  | rel a b h => exact h.nests_iff hsizes
  | refl a => exact Iff.rfl
  | symm a b h ih => exact (ih ((Regroups.sizes_pos h).2 hsizes)).symm
  | trans a b c h _ ih₁ ih₂ => exact (ih₁ hsizes).trans (ih₂ ((Regroups.sizes_pos h).1 hsizes))

end Nest

end TensorKernels
