import TensorKernels.Proofs.Nest.Offsets

/-!
Index tuples by role. Keeping the loops of some roles keeps the indices that a tuple gives to them.
Loops that do not move the output can be left out: the kept indices alone decide which output
element a tuple addresses.
-/

namespace TensorKernels

namespace Nest

theorem mem_indices_cons {l : Loop} {inner : List Loop} {t : List ℕ} :
    t ∈ indices (l :: inner) ↔ ∃ i < l.size, ∃ rest ∈ indices inner, i :: rest = t := by
  simp only [indices, List.mem_flatMap, List.mem_map, List.mem_range]

theorem length_of_mem_indices {loops : List Loop} {t : List ℕ} (h : t ∈ indices loops) :
    t.length = loops.length := by
  induction loops generalizing t with
  | nil =>
    rw [indices, List.mem_singleton] at h
    rw [h]
    rfl
  | cons l inner ih =>
    obtain ⟨i, -, rest, hrest, rfl⟩ := mem_indices_cons.1 h
    rw [List.length_cons, List.length_cons, ih hrest]

theorem indices_append (outer inner : List Loop) :
    indices (outer ++ inner) = (indices outer).flatMap fun s => (indices inner).map (s ++ ·) := by
  induction outer with
  | nil => simp [indices]
  | cons l outer ih =>
    simp only [List.cons_append, indices, ih, List.map_flatMap, List.flatMap_assoc,
      List.flatMap_map, List.map_map]
    rfl

theorem offset_append {outer : List Loop} (inner : List Loop) {s : List ℕ} (t : List ℕ)
    (hs : s ∈ indices outer) :
    offset (outer ++ inner) (s ++ t) = offset outer s + offset inner t := by
  induction outer generalizing s with
  | nil =>
    rw [indices, List.mem_singleton] at hs
    rw [hs]
    exact (zero_add _).symm
  | cons l outer ih =>
    obtain ⟨i, -, rest, hrest, rfl⟩ := mem_indices_cons.1 hs
    rw [List.cons_append, List.cons_append, offset, offset, ih hrest, add_assoc]

theorem nodup_indices (loops : List Loop) : (indices loops).Nodup := by
  induction loops with
  | nil => exact List.nodup_singleton _
  | cons l inner ih =>
    rw [indices, List.nodup_flatMap]
    constructor
    · intro i _
      exact ih.map (List.cons_injective)
    · refine List.nodup_range.pairwise_of_forall_ne ?_
      intro i _ j _ hne t hi hj
      obtain ⟨_, -, rfl⟩ := List.mem_map.1 hi
      obtain ⟨_, -, heq⟩ := List.mem_map.1 hj
      exact hne (List.cons.inj heq).1.symm

def keptIndices (kept : Role → Bool) : List Loop → List ℕ → List ℕ
  | l :: inner, i :: rest =>
    if kept l.role then i :: keptIndices kept inner rest else keptIndices kept inner rest
  | _, _ => []

theorem keptIndices_mem {kept : Role → Bool} {loops : List Loop} {t : List ℕ}
    (h : t ∈ indices loops) : keptIndices kept loops t ∈ indices (ofRoles kept loops) := by
  induction loops generalizing t with
  | nil => exact List.mem_singleton.2 rfl
  | cons l inner ih =>
    obtain ⟨i, hi, rest, hrest, rfl⟩ := mem_indices_cons.1 h
    rw [keptIndices, ofRoles_cons]
    split
    · exact mem_indices_cons.2 ⟨i, hi, _, ih hrest, rfl⟩
    · exact ih hrest

theorem keptIndices_append {kept : Role → Bool} {outer : List Loop} (inner : List Loop) {s : List ℕ}
    (t : List ℕ) (hs : s ∈ indices outer) (hkept : ∀ l ∈ outer, kept l.role = true) :
    keptIndices kept (outer ++ inner) (s ++ t) = s ++ keptIndices kept inner t := by
  induction outer generalizing s with
  | nil =>
    rw [indices, List.mem_singleton] at hs
    rw [hs]
    rfl
  | cons l outer ih =>
    rw [List.forall_mem_cons] at hkept
    obtain ⟨i, -, rest, hrest, rfl⟩ := mem_indices_cons.1 hs
    rw [List.cons_append, List.cons_append, keptIndices, if_pos hkept.1, ih hrest hkept.2,
      List.cons_append]

theorem out_offset_keptIndices {kept : Role → Bool} {loops : List Loop}
    (h : ∀ l ∈ loops, kept l.role = false → l.strides.out = 0) (t : List ℕ) :
    (offset (ofRoles kept loops) (keptIndices kept loops t)).out = (offset loops t).out := by
  induction loops generalizing t with
  | nil => rfl
  | cons l inner ih =>
    rw [List.forall_mem_cons] at h
    cases t with
    | nil =>
      rw [keptIndices, ofRoles_cons]
      · split <;> cases ofRoles kept inner <;> rfl
      · intro _ _ _ _ _ hnil
        cases hnil
    | cons i rest =>
      rw [keptIndices, ofRoles_cons, offset, Offsets.out_add, Offsets.out_smul]
      split
      · rw [offset, Offsets.out_add, Offsets.out_smul, ih h.2]
      · rename_i hkept
        rw [ih h.2, h.1 (by simpa using hkept), Nat.mul_zero, Nat.zero_add]

end Nest

end TensorKernels
