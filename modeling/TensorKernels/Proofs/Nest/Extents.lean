import TensorKernels.Proofs.Nest.Tasks

/-!
Extents of a plan. What the kernels touch in an operand, over the whole walk or over all tasks, is
what the loops together address there. The farthest of it belongs to the last index of every loop
at once, so an extent is one more than the farthest element touched, and no sum of offsets on the
way overflows.
-/

namespace TensorKernels

open Nest

def Primitive.touches : Primitive → Operand → Bool
  | .gemm, _ | .brgemm, _ => true
  | .copy, operand | .relu, operand | .transpose, operand => operand != .in1
  | .zero, operand => operand == .out
  | .none, _ => false

namespace Plan

def cellSides (p : Plan) (cell : ℕ → ℕ → ℕ × ℕ) : Operand → List ℕ
  | .in0 => p.cells fun i j => (cell i j).1
  | .in1 => []
  | .out => p.cells fun i j => (cell i j).2

/-- The elements of an operand that the kernels touch from a base on. The kernels around a product
work in place on its output block. -/
def touched (p : Plan) (operand : Operand) (base : Offsets) : List ℕ :=
  match p.contraction.main with
  | .none => []
  | .gemm | .brgemm => (p.productBlock base).map (·.get operand)
  | .copy | .relu => p.cellSides (p.straightCell base) operand
  | .transpose => p.cellSides (p.transposedCell base) operand
  | .zero => if operand = .out then p.cells (p.filledCell base) else []

def touchedBy (p : Plan) (operand : Operand) (visits : List Visit) : List ℕ :=
  visits.flatMap fun v => p.touched operand v.base

/-- One more than the farthest of some elements. -/
def IsExtent (extent : ℕ) (elements : List ℕ) : Prop :=
  (∀ x ∈ elements, x < extent) ∧ ∃ x ∈ elements, x + 1 = extent

section Accepted

variable {c : Contraction} {p : Plan}

theorem Derived.cellSides_perm (d : Derived c p) (helementwise : c.main.isProduct = false)
    (base : Offsets) (cell : ℕ → ℕ → ℕ × ℕ)
    (hcell : ∀ i j, cell i j =
      ((spot p.kernelLoops base i j).in0, (spot p.kernelLoops base i j).out)) {operand : Operand}
    (hused : operand ≠ .in1) :
    (p.cellSides cell operand).Perm
      ((offsets (c.loops.drop p.kernelStart)).map fun o => (base + o).get operand) := by
  have hsides : p.cellSides cell operand =
      p.cells fun i j => (spot p.kernelLoops base i j).get operand := by
    cases operand with
    | in0 => simp only [cellSides, Offsets.get, hcell]
    | in1 => exact absurd rfl hused
    | out => simp only [cellSides, Offsets.get, hcell]
  rw [hsides]
  exact cells_perm d helementwise base (·.get operand)

theorem Derived.touched_perm (d : Derived c p) {operand : Operand}
    (htouches : c.main.touches operand = true) (base : Offsets) :
    (p.touched operand base).Perm
      ((offsets (c.loops.drop p.kernelStart)).map fun o => (base + o).get operand) := by
  have hblock (hproduct : c.main.isProduct = true) :
      ((p.productBlock base).map (·.get operand)).Perm
        ((offsets (c.loops.drop p.kernelStart)).map fun o => (base + o).get operand) := by
    have h := (productBlock_perm d hproduct base).map (·.get operand)
    rwa [List.map_map] at h
  have hstraight (h : c.main = .copy ∨ c.main = .relu) :
      (p.cellSides (p.straightCell base) operand).Perm
        ((offsets (c.loops.drop p.kernelStart)).map fun o => (base + o).get operand) := by
    have helementwise : c.main.isProduct = false := by rcases h with h | h <;> rw [h] <;> rfl
    refine d.cellSides_perm helementwise base (p.straightCell base)
      (fun i j => d.straightCell_eq base i j h) ?_
    rcases h with h | h <;> simpa [h, Primitive.touches] using htouches
  unfold touched
  rw [d.contraction]
  cases hmain : c.main with
  | none => exact absurd hmain d.main
  | gemm => exact hblock (by rw [hmain]; rfl)
  | brgemm => exact hblock (by rw [hmain]; rfl)
  | copy => exact hstraight (Or.inl hmain)
  | relu => exact hstraight (Or.inr hmain)
  | transpose =>
    have helementwise : c.main.isProduct = false := by rw [hmain]; rfl
    refine d.cellSides_perm helementwise base (p.transposedCell base)
      (fun i j => d.transposedCell_eq base i j hmain) ?_
    simpa [hmain, Primitive.touches] using htouches
  | zero =>
    have helementwise : c.main.isProduct = false := by rw [hmain]; rfl
    have hused : operand = .out := by simpa [hmain, Primitive.touches] using htouches
    subst hused
    have hfilled : p.filledCell base = fun i j => (spot p.kernelLoops base i j).out := by
      funext i j
      exact d.filledCell_eq base i j helementwise (by rw [hmain]; decide)
    rw [if_pos rfl, hfilled]
    exact cells_perm d helementwise base (·.get .out)

theorem Derived.touchedBy_walk_perm (d : Derived c p) {operand : Operand}
    (htouches : c.main.touches operand = true) :
    (p.touchedBy operand (Walk.exactVisits p.outerLoops ⟨.zero, true, true⟩)).Perm
      ((offsets c.loops).map (·.get operand)) := by
  have h := blocks_perm p.outerLoops (c.loops.drop p.kernelStart) true true (·.get operand)
    (p.touched operand) (d.touched_perm htouches)
  rwa [d.outer_append_inner] at h

theorem Derived.extents_get (d : Derived c p) (operand : Operand) :
    p.extents.get operand =
      if c.main.touches operand then (reach c.loops).get operand + 1 else 0 := by
  rw [d.extents_eq.1]
  have hmain := d.main
  cases hm : c.main <;> cases operand <;> first | rfl | exact absurd hm hmain

theorem Derived.isExtent_walk (d : Derived c p) {operand : Operand}
    (htouches : c.main.touches operand = true) :
    IsExtent (p.extents.get operand)
      (p.touchedBy operand (Walk.exactVisits p.outerLoops ⟨.zero, true, true⟩)) := by
  have hperm := d.touchedBy_walk_perm htouches
  rw [d.extents_get, if_pos htouches]
  constructor
  · intro x hx
    obtain ⟨o, ho, rfl⟩ := List.mem_map.1 (hperm.subset hx)
    exact Nat.lt_succ_of_le (get_le_reach ho operand)
  · refine ⟨(reach c.loops).get operand, hperm.symm.subset ?_, rfl⟩
    exact List.mem_map_of_mem (reach_mem_offsets d.sizes)

theorem Derived.flatMap_ownVisits (d : Derived c p) :
    (List.range p.exactTaskCount).flatMap p.ownVisits =
      Walk.exactVisits p.outerLoops ⟨.zero, true, true⟩ := by
  rw [← d.flatten_exactTasks, ← d.map_ownVisits, List.flatMap]

end Accepted

/-- The extents of a plan are exact. The walk and every task complete without an overflow in any of
the three offsets. An operand that the kernels use holds just enough elements for what they touch,
whether in the walk or in all tasks; one that they ignore need not hold any. -/
theorem extents_exact {c : Contraction} {p : Plan} (h : ofContraction c = .ok p) :
    ∃ (visits : List Visit) (own : ℕ → List Visit), p.walk = .ok visits ∧
      (∀ flat, p.task flat = .ok (own flat)) ∧
      ∀ operand,
        (c.main.touches operand = true →
          IsExtent (p.extents.get operand) (p.touchedBy operand visits) ∧
          IsExtent (p.extents.get operand)
            ((List.range p.exactTaskCount).flatMap fun flat =>
              p.touchedBy operand (own flat))) ∧
        (c.main.touches operand = false → p.extents.get operand = 0) := by
  have d := derived_of_ofContraction h
  refine ⟨_, _, d.walk_eq, d.task_eq, fun operand => ⟨fun htouches => ?_, fun hignores => ?_⟩⟩
  · have hwalk := d.isExtent_walk htouches
    refine ⟨hwalk, ?_⟩
    rw [← d.flatMap_ownVisits, touchedBy, List.flatMap_assoc] at hwalk
    exact hwalk
  · rw [d.extents_get, hignores]
    rfl

theorem splitReduction_extents_exact :
    ∃ (p : Plan) (visits : List Visit) (own : ℕ → List Visit),
      ofContraction splitReduction = .ok p ∧ p.walk = .ok visits ∧
      (∀ flat, p.task flat = .ok (own flat)) ∧ IsExtent 360 (p.touchedBy .in0 visits) ∧
      IsExtent 240 (p.touchedBy .in1 visits) ∧
      IsExtent 96 ((List.range 6).flatMap fun flat => p.touchedBy .out (own flat)) := by
  obtain ⟨p, hp, -, hcount, hextents, -⟩ := splitReduction_accepted
  obtain ⟨visits, own, hwalk, htask, hexact⟩ := extents_exact hp
  rw [hcount, hextents] at hexact
  exact ⟨p, visits, own, hp, hwalk, htask, ((hexact .in0).1 rfl).1, ((hexact .in1).1 rfl).1,
    ((hexact .out).1 rfl).2⟩

end Plan

end TensorKernels
