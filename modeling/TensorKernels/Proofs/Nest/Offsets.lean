import TensorKernels.Nest.Loop
import TensorKernels.Proofs.Result

/-!
What a loop nest addresses. An index tuple gives one index to every loop, and addresses in each
operand the sum of the strides taken that often. The offsets of a nest are listed with the
outermost loop slowest; as a multiset they depend neither on the order of the loops nor on how a
loop is executed.
-/

namespace TensorKernels

namespace Offsets

instance : Zero Offsets := ⟨zero⟩

instance : Add Offsets := ⟨fun a b => ⟨a.in0 + b.in0, a.in1 + b.in1, a.out + b.out⟩⟩

instance : SMul ℕ Offsets := ⟨fun n a => ⟨n * a.in0, n * a.in1, n * a.out⟩⟩

theorem zero_def : (0 : Offsets) = ⟨0, 0, 0⟩ := rfl

theorem add_def (a b : Offsets) : a + b = ⟨a.in0 + b.in0, a.in1 + b.in1, a.out + b.out⟩ := rfl

theorem smul_def (n : ℕ) (a : Offsets) : n • a = ⟨n * a.in0, n * a.in1, n * a.out⟩ := rfl

instance : AddCommMonoid Offsets where
  add_assoc a b c := by simp only [add_def, Nat.add_assoc]
  zero_add a := by simp only [zero_def, add_def, Nat.zero_add]
  add_zero a := by simp only [zero_def, add_def, Nat.add_zero]
  add_comm a b := by simp only [add_def, Nat.add_comm]
  nsmul n a := n • a
  nsmul_zero a := by simp only [smul_def, zero_def, Nat.zero_mul]
  nsmul_succ n a := by simp only [smul_def, add_def, Nat.succ_mul]

@[simp] theorem in0_zero : (0 : Offsets).in0 = 0 := rfl
@[simp] theorem in1_zero : (0 : Offsets).in1 = 0 := rfl
@[simp] theorem out_zero : (0 : Offsets).out = 0 := rfl
@[simp] theorem in0_add (a b : Offsets) : (a + b).in0 = a.in0 + b.in0 := rfl
@[simp] theorem in1_add (a b : Offsets) : (a + b).in1 = a.in1 + b.in1 := rfl
@[simp] theorem out_add (a b : Offsets) : (a + b).out = a.out + b.out := rfl
@[simp] theorem in0_smul (n : ℕ) (a : Offsets) : (n • a).in0 = n * a.in0 := rfl
@[simp] theorem in1_smul (n : ℕ) (a : Offsets) : (n • a).in1 = n * a.in1 := rfl
@[simp] theorem out_smul (n : ℕ) (a : Offsets) : (n • a).out = n * a.out := rfl

def get (o : Offsets) : Operand → ℕ
  | .in0 => o.in0
  | .in1 => o.in1
  | .out => o.out

theorem get_add (a b : Offsets) (operand : Operand) :
    (a + b).get operand = a.get operand + b.get operand := by
  cases operand <;> rfl

theorem get_smul (n : ℕ) (a : Offsets) (operand : Operand) :
    (n • a).get operand = n * a.get operand := by
  cases operand <;> rfl

structure Fits (o : Offsets) : Prop where
  in0 : o.in0 < Count.limit
  in1 : o.in1 < Count.limit
  out : o.out < Count.limit

theorem Fits.of_add {a b : Offsets} (h : (a + b).Fits) : a.Fits :=
  ⟨(Nat.le_add_right _ _).trans_lt h.in0, (Nat.le_add_right _ _).trans_lt h.in1,
    (Nat.le_add_right _ _).trans_lt h.out⟩

theorem advance_eq_ok {base strides : Offsets} {index : ℕ} (h : (base + index • strides).Fits) :
    base.advance index strides = .ok (base + index • strides) := by
  have in0 := h.in0
  have in1 := h.in1
  have out := h.out
  simp only [in0_add, in1_add, out_add, in0_smul, in1_smul, out_smul] at in0 in1 out
  simp only [advance, bind_eq_ok_iff, pure_eq_ok_iff, Count.mul_eq_ok_iff, Count.add_eq_ok_iff]
  exact ⟨_, ⟨rfl, by omega⟩, _, ⟨rfl, in0⟩, _, ⟨rfl, by omega⟩, _, ⟨rfl, in1⟩, _,
    ⟨rfl, by omega⟩, _, ⟨rfl, out⟩, rfl⟩

theorem eq_of_scale {o scaled : Offsets} {factor : ℕ} (h : o.scale factor = .ok scaled) :
    scaled = factor • o := by
  simp only [scale, bind_eq_ok_iff, pure_eq_ok_iff, Count.mul_eq_ok_iff] at h
  obtain ⟨_, ⟨rfl, -⟩, _, ⟨rfl, -⟩, _, ⟨rfl, -⟩, rfl⟩ := h
  simp only [smul_def, Nat.mul_comm]

end Offsets

namespace Nest

def ofRoles (kept : Role → Bool) (loops : List Loop) : List Loop :=
  loops.filter fun l => kept l.role

theorem ofRoles_cons (kept : Role → Bool) (l : Loop) (inner : List Loop) :
    ofRoles kept (l :: inner) =
      if kept l.role then l :: ofRoles kept inner else ofRoles kept inner :=
  List.filter_cons

theorem ofRoles_append (kept : Role → Bool) (outer inner : List Loop) :
    ofRoles kept (outer ++ inner) = ofRoles kept outer ++ ofRoles kept inner :=
  List.filter_append outer inner

theorem ofRoles_perm (loops : List Loop) :
    (ofRoles (· == .c) loops ++ ofRoles (· == .k) loops ++
      (ofRoles (· == .m) loops ++ ofRoles (· == .n) loops)).Perm loops := by
  induction loops with
  | nil => exact List.Perm.refl _
  | cons l loops ih =>
    simp only [← Multiset.coe_eq_coe, ← Multiset.coe_add, ofRoles_cons] at ih ⊢
    rw [← Multiset.cons_coe l loops, ← ih]
    cases l.role <;>
      simp +decide only [if_true, if_false, ← Multiset.cons_coe, Multiset.cons_add,
        Multiset.add_cons]

def indices : List Loop → List (List ℕ)
  | [] => [[]]
  | l :: inner => (List.range l.size).flatMap fun i => (indices inner).map (i :: ·)

def offset : List Loop → List ℕ → Offsets
  | l :: inner, i :: rest => i • l.strides + offset inner rest
  | _, _ => 0

def offsets (loops : List Loop) : List Offsets := (indices loops).map (offset loops)

/-- The offsets of all index tuples as a multiset: what the nest addresses, and how often. -/
def addressed (loops : List Loop) : Multiset Offsets := offsets loops

@[simp] theorem offsets_nil : offsets [] = [0] := rfl

theorem offsets_cons (l : Loop) (inner : List Loop) :
    offsets (l :: inner) =
      (List.range l.size).flatMap fun i => (offsets inner).map (i • l.strides + ·) := by
  simp only [offsets, indices, List.map_flatMap, List.map_map]
  rfl

theorem map_offsets_cons {α : Type} (f : Offsets → α) (l : Loop) (inner : List Loop) :
    (offsets (l :: inner)).map f =
      (List.range l.size).flatMap fun i => (offsets inner).map fun o => f (i • l.strides + o) := by
  rw [offsets_cons, List.map_flatMap]
  simp only [List.map_map, Function.comp_def]

theorem map_offsets_two {α : Type} (f : Offsets → α) (outer inner : Loop) :
    (offsets [outer, inner]).map f = (List.range outer.size).flatMap fun i =>
      (List.range inner.size).map fun j => f (i • outer.strides + j • inner.strides) := by
  simp only [map_offsets_cons, offsets_nil, List.map_cons, List.map_nil, add_zero]
  simp only [List.map_eq_flatMap]

theorem offsets_append (outer inner : List Loop) :
    offsets (outer ++ inner) =
      (offsets outer).flatMap fun o => (offsets inner).map (o + ·) := by
  induction outer with
  | nil => simp
  | cons l outer ih =>
    simp only [List.cons_append, offsets_cons, ih, List.map_flatMap, List.flatMap_assoc,
      List.flatMap_map, List.map_map]
    simp only [Function.comp_def, add_assoc]

theorem offsets_congr {loops others : List Loop}
    (h : loops.map (fun l => (l.size, l.strides)) = others.map fun l => (l.size, l.strides)) :
    offsets loops = offsets others := by
  induction loops generalizing others with
  | nil =>
    rw [List.map_nil, eq_comm, List.map_eq_nil_iff] at h
    rw [h]
  | cons l loops ih =>
    obtain ⟨l', others, rfl⟩ : ∃ l' rest, others = l' :: rest := by
      cases others with
      | nil => simp at h
      | cons l' rest => exact ⟨l', rest, rfl⟩
    simp only [List.map_cons, List.cons.injEq, Prod.mk.injEq] at h
    obtain ⟨⟨hsize, hstrides⟩, hrest⟩ := h
    rw [offsets_cons, offsets_cons, hsize, hstrides, ih hrest]

theorem offsets_perm {loops others : List Loop} (h : loops.Perm others) :
    (offsets loops).Perm (offsets others) := by
  induction h with
  | nil => exact List.Perm.refl _
  | cons l _ ih =>
    rw [offsets_cons, offsets_cons]
    exact List.Perm.flatMap_left _ fun i _ => ih.map _
  | swap l l' rest =>
    rw [← Multiset.coe_eq_coe]
    simp only [offsets_cons, List.map_flatMap, List.map_map, ← Multiset.coe_bind]
    rw [Multiset.bind_bind]
    simp only [Function.comp_def, add_left_comm]
  | trans _ _ ih₁ ih₂ => exact ih₁.trans ih₂

def reach (loops : List Loop) : Offsets := (loops.map fun l => (l.size - 1) • l.strides).sum

@[simp] theorem reach_nil : reach [] = 0 := rfl

@[simp] theorem reach_cons (l : Loop) (inner : List Loop) :
    reach (l :: inner) = (l.size - 1) • l.strides + reach inner := by
  simp [reach]

theorem reach_get (loops : List Loop) (operand : Operand) :
    (reach loops).get operand = (loops.map fun l => (l.size - 1) * l.strides.get operand).sum := by
  induction loops with
  | nil => cases operand <;> rfl
  | cons l loops ih =>
    rw [List.map_cons, List.sum_cons, ← ih, reach_cons, Offsets.get_add, Offsets.get_smul]

theorem mem_offsets_cons {l : Loop} {inner : List Loop} {o : Offsets} :
    o ∈ offsets (l :: inner) ↔ ∃ i < l.size, ∃ r ∈ offsets inner, i • l.strides + r = o := by
  simp only [offsets_cons, List.mem_flatMap, List.mem_map, List.mem_range]

theorem get_le_reach {loops : List Loop} {o : Offsets} (h : o ∈ offsets loops)
    (operand : Operand) : o.get operand ≤ (reach loops).get operand := by
  induction loops generalizing o with
  | nil =>
    rw [offsets_nil, List.mem_singleton] at h
    rw [h, reach_nil]
  | cons l inner ih =>
    obtain ⟨i, hi, r, hr, rfl⟩ := mem_offsets_cons.1 h
    rw [reach_cons, Offsets.get_add, Offsets.get_add, Offsets.get_smul, Offsets.get_smul]
    exact Nat.add_le_add (Nat.mul_le_mul_right _ (by omega)) (ih hr)

theorem reach_mem_offsets {loops : List Loop} (hsizes : ∀ l ∈ loops, 0 < l.size) :
    reach loops ∈ offsets loops := by
  induction loops with
  | nil => simp
  | cons l inner ih =>
    rw [List.forall_mem_cons] at hsizes
    rw [reach_cons]
    exact mem_offsets_cons.2 ⟨l.size - 1, by omega, reach inner, ih hsizes.2, rfl⟩

theorem zero_mem_offsets {loops : List Loop} (hsizes : ∀ l ∈ loops, 0 < l.size) :
    0 ∈ offsets loops := by
  induction loops with
  | nil => simp
  | cons l inner ih =>
    rw [List.forall_mem_cons] at hsizes
    refine mem_offsets_cons.2 ⟨0, hsizes.1, 0, ih hsizes.2, ?_⟩
    rw [zero_nsmul, add_zero]

theorem reach_append (outer inner : List Loop) :
    reach (outer ++ inner) = reach outer + reach inner := by
  simp [reach]

theorem reach_reverse (loops : List Loop) : reach loops.reverse = reach loops := by
  simp [reach, List.sum_reverse]

theorem range_mul_flatMap {α : Type} (n m : ℕ) (f : ℕ → List α) :
    (List.range (n * m)).flatMap f =
      (List.range n).flatMap fun i => (List.range m).flatMap fun j => f (i * m + j) := by
  induction n with
  | zero => simp
  | succ n ih =>
    rw [Nat.succ_mul, List.range_add, List.flatMap_append, ih, List.range_succ,
      List.flatMap_append, List.flatMap_map]
    simp

theorem offsets_pair {outer inner merged : Loop} (rest : List Loop)
    (hsize : merged.size = outer.size * inner.size) (hmerged : merged.strides = inner.strides)
    (houter : outer.strides = inner.size • inner.strides) :
    offsets (outer :: inner :: rest) = offsets (merged :: rest) := by
  rw [offsets_cons merged, hsize, range_mul_flatMap, offsets_cons outer, offsets_cons inner]
  simp only [List.map_flatMap, List.map_map, Function.comp_def]
  congr 1
  funext i
  congr 1
  funext j
  congr 1
  funext o
  rw [hmerged, houter, ← add_assoc, ← mul_nsmul', ← add_nsmul]

end Nest

end TensorKernels
