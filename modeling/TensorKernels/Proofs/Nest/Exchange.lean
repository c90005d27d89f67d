import TensorKernels.Proofs.Nest.Acceptance
import TensorKernels.Proofs.Nest.Bounds
import TensorKernels.Proofs.Nest.Choose

/-!
The two loops of a transpose in either order. One loop has to be contiguous in the input and the other
in the output. Which is which is settled by the first loop that is contiguous in the input, so the order
matters where both are: if that loop alone is contiguous in the output too, no second loop is left, and
the contraction is refused although it has the two loops in the other order. Everywhere else exchanging
the loops changes neither the extents nor the elements that are moved, and normalizing finds the loops.
-/

namespace TensorKernels

open Nest

namespace Contraction

/-- Both loops are contiguous in the input, and the first is not contiguous in the output: behind the
second it is not found. -/
def OrderMatters (a b : Loop) : Prop :=
  a.strides.in0 = 1 ∧ b.strides.in0 = 1 ∧ a.strides.out ≠ 1

theorem takesElementwise_transpose {a b : Loop} : TakesElementwise .transpose a b ↔
    a.strides.in0 = 1 ∧ b.strides.out = 1 ∨
      a.strides.in0 ≠ 1 ∧ b.strides.in0 = 1 ∧ a.strides.out = 1 := by
  unfold TakesElementwise
  by_cases ha : a.strides.in0 = 1 <;> simp [ha]

theorem takesElementwise_exchange {a b : Loop} (h : TakesElementwise .transpose a b) :
    TakesElementwise .transpose b a ↔ ¬OrderMatters a b := by
  rw [takesElementwise_transpose] at h ⊢
  unfold OrderMatters
  tauto

section Exchange

variable {c : Contraction} {outer : List Loop} {a b : Loop} (hmain : c.main = .transpose)
  (hloops : c.loops = outer ++ [a, b])
include hmain hloops

theorem WellFormed.transpose_parts (h : c.WellFormed) :
    ∃ shared sequential, outer = shared ++ sequential ∧
      (∀ l ∈ shared, l.exec = .shared ∧ l.role ≠ .k ∧ l.strides.out ≠ 0) ∧
      (∀ l ∈ sequential, l.exec = .seq) ∧ (∀ l ∈ [a, b], l.exec = .prim) ∧
      TakesElementwise .transpose a b := by
  obtain ⟨shared, sequential, run, hparts, hshared, hsequential, hkernel, hrun⟩ := h.parts
  rw [hmain] at hrun
  obtain ⟨x, y, rfl, htakes⟩ := hrun
  rw [hloops, ← List.append_assoc] at hparts
  obtain ⟨rfl, hpair⟩ := List.append_inj' hparts rfl
  cases hpair
  exact ⟨shared, sequential, rfl, hshared, hsequential, hkernel, htakes⟩

theorem WellFormed.exchange (h : c.WellFormed) (htakes : TakesElementwise .transpose b a) :
    ({ c with loops := outer ++ [b, a] } : Contraction).WellFormed := by
  obtain ⟨shared, sequential, rfl, hshared, hsequential, hkernel, -⟩ := h.transpose_parts hmain hloops
  have hperm : (shared ++ sequential ++ [b, a]).Perm c.loops := by
    rw [hloops]
    exact (List.Perm.swap a b []).append_left _
  refine ⟨h.dtype, h.main, h.touches, ?_, ?_, ?_, shared, sequential, [b, a], ?_, hshared,
    hsequential, ?_, ?_⟩
  · exact fun l hl => h.sizes l (hperm.subset hl)
  · intro operand
    rw [(hperm.map _).sum_eq]
    exact h.spans operand
  · intro hproduct
    simp [hmain] at hproduct
  · rw [List.append_assoc]
  · intro l hl
    exact hkernel l ((List.Perm.swap a b []).subset hl)
  · simp only [TakesRun, hmain]
    exact ⟨b, a, rfl, htakes⟩

end Exchange

end Contraction

namespace Plan

open Contraction

section Transpose

variable {c : Contraction} {p : Plan}

theorem Derived.transposedCells_perm (d : Derived c p) (hmain : c.main = .transpose)
    (base : Offsets) :
    (p.cells (p.transposedCell base)).Perm ((offsets (c.loops.drop p.kernelStart)).map
      fun o => ((base + o).in0, (base + o).out)) := by
  have helementwise : c.main.isProduct = false := by rw [hmain]; rfl
  have hcell : p.transposedCell base =
      fun i j => ((spot p.kernelLoops base i j).in0, (spot p.kernelLoops base i j).out) := by
    funext i j
    exact d.transposedCell_eq base i j hmain
  rw [hcell]
  exact cells_perm d helementwise base fun o => (o.in0, o.out)

theorem Derived.drop_eq_pair (d : Derived c p) (hmain : c.main = .transpose) {outer : List Loop}
    {a b : Loop} (hloops : c.loops = outer ++ [a, b]) : c.loops.drop p.kernelStart = [a, b] := by
  have hlength := (d.run.elementwise (by rw [hmain]; rfl)).perm.length_eq
  rw [List.length_drop, hloops, List.length_append] at hlength
  simp only [List.length_cons, List.length_nil] at hlength
  rw [hloops, List.drop_append_of_le_length (by omega), List.drop_eq_nil_of_le (by omega),
    List.nil_append]

variable {q : Plan} {outer : List Loop} {a b : Loop}

theorem Derived.exchange (d : Derived c p) (hmain : c.main = .transpose)
    (hloops : c.loops = outer ++ [a, b]) (dq : Derived { c with loops := outer ++ [b, a] } q) :
    q.extents = p.extents ∧
      ∀ base, (q.cells (q.transposedCell base)).Perm (p.cells (p.transposedCell base)) := by
  have hreach : reach (outer ++ [b, a]) = reach c.loops := by
    rw [hloops, reach_append, reach_append]
    simp [add_comm]
  refine ⟨?_, fun base => ?_⟩
  · rw [dq.extents_eq.1, d.extents_eq.1, hreach]
  · have hpair := d.drop_eq_pair hmain hloops
    have hpair' := dq.drop_eq_pair hmain rfl
    refine (dq.transposedCells_perm hmain base).trans
      (List.Perm.trans ?_ (d.transposedCells_perm hmain base).symm)
    rw [hpair, hpair']
    exact (offsets_perm (List.Perm.swap a b [])).map _

end Transpose

end Plan

namespace Contraction

theorem exists_findLoop_iff (loops : List Loop) (skip : List ℕ) (p : Loop → Bool) :
    (∃ i, findLoop loops skip p = some i) ↔
      ∃ i l, loops[i]? = some l ∧ i ∉ skip ∧ p l = true := by
  constructor
  · rintro ⟨i, hi⟩
    obtain ⟨l, hget, hl, hskip, -⟩ := of_findLoop hi
    exact ⟨i, l, hget, hskip, hl⟩
  · rintro ⟨i, l, hget, hskip, hl⟩
    rw [← Option.isSome_iff_exists, findLoop, Option.isSome_map, List.find?_isSome]
    exact ⟨(l, i), List.mem_zipIdx_iff_getElem?.2 hget, by simp [hskip, hl]⟩

/-- Besides the first loop that is contiguous in the input, one is contiguous in the output. -/
def HasTransposeLoops (loops : List Loop) : Prop :=
  ∃ (i j : ℕ) (m n : Loop), loops[i]? = some m ∧ loops[j]? = some n ∧ i ≠ j ∧
    m.strides.in0 = 1 ∧ n.strides.out = 1 ∧
      ∀ (k : ℕ) (l : Loop), k < i → loops[k]? = some l → l.strides.in0 ≠ 1

section Sequential

variable {c : Contraction} (hmain : c.main = .transpose)
include hmain

theorem exists_transposePositions_iff :
    (∃ positions, c.elementwisePositions = .ok positions) ↔ HasTransposeLoops c.loops := by
  unfold elementwisePositions
  simp only [hmain, bind_eq_ok_iff, need_eq_ok_iff]
  constructor
  · rintro ⟨_, i, hi, j, hj, -⟩
    obtain ⟨m, hm, hin, -, hfirst⟩ := of_findLoop hi
    obtain ⟨n, hn, hout, hne, -⟩ := of_findLoop hj
    refine ⟨i, j, m, n, hm, hn, ?_, by simpa using hin, by simpa using hout, ?_⟩
    · exact fun heq => hne (by simp [heq])
    · intro k l hlt hget
      simpa using hfirst k l hlt hget (by simp)
  · rintro ⟨i, j, m, n, hm, hn, hne, hin, hout, hfirst⟩
    obtain ⟨i', hi'⟩ := (exists_findLoop_iff c.loops [] fun l => l.strides.in0 == 1).2
      ⟨i, m, hm, List.not_mem_nil, beq_iff_eq.2 hin⟩
    obtain ⟨m', hm', hin', -, hfirst'⟩ := of_findLoop hi'
    -- both are the first loop that is contiguous in the input
    have heq : i' = i := by
      rcases Nat.lt_trichotomy i' i with hlt | heq | hlt
      · exact absurd (beq_iff_eq.1 hin') (hfirst i' m' hlt hm')
      · exact heq
      · simpa [hin] using hfirst' i m hlt hm List.not_mem_nil
    subst heq
    obtain ⟨j', hj'⟩ := (exists_findLoop_iff c.loops [i'] fun l => l.strides.out == 1).2
      ⟨j, n, hn, by simpa using Ne.symm hne, beq_iff_eq.2 hout⟩
    exact ⟨_, i', hi', j', hj', rfl⟩

theorem transposePositions_error {e : Error} (h : c.elementwisePositions = .error e) :
    ∃ which, e = .badParameter (.noPrimitiveLoop which) := by
  have hneed {which : PrimitiveLoop} {found : Option ℕ} (h : need which found = .error e) :
      ∃ which, e = .badParameter (.noPrimitiveLoop which) := by
    cases found with
    | none =>
      cases h
      exact ⟨which, rfl⟩
    | some i => cases h
  unfold elementwisePositions at h
  simp only [hmain, bind_eq_error_iff] at h
  obtain h | ⟨_, -, h | ⟨_, -, h⟩⟩ := h
  · exact hneed h
  · exact hneed h
  · cases h

variable (hseq : ∀ l ∈ c.loops, l.exec = .seq)
include hseq

theorem chooseKernelLoops_transpose : c.chooseKernelLoops =
    c.elementwisePositions >>= fun positions => .ok (markKernel c.loops positions) := by
  have hnone : ¬c.loops.any Loop.isKernel = true := by
    rw [List.any_eq_true]
    rintro ⟨l, hl, hkernel⟩
    simp [Loop.isKernel, hseq l hl] at hkernel
  have hproduct : ¬c.main.isProduct = true := by simp [hmain, Primitive.isProduct]
  rw [chooseKernelLoops, if_neg hnone, if_neg hproduct]
  rfl

end Sequential

end Contraction

namespace Nest

theorem Roomy.markKernel {loops : List Loop} (h : Roomy (fun _ => true) loops) (positions : List ℕ) :
    Roomy (fun _ => true) (Contraction.markKernel loops positions) := by
  have hmarked : (Contraction.markKernel loops positions).map (fun l => (l.size, l.strides)) =
      loops.map fun l => (l.size, l.strides) := by
    apply List.ext_getElem
    · simp [Contraction.markKernel]
    · intro i _ _
      simp only [Contraction.markKernel, List.getElem_map, List.getElem_mapIdx]
      split <;> rfl
  constructor
  · intro l hl _ operand
    have hmem := List.mem_map_of_mem (f := fun l : Loop => (l.size, l.strides)) hl
    rw [hmarked, List.mem_map] at hmem
    obtain ⟨x, hx, heq⟩ := hmem
    rw [Prod.mk.injEq] at heq
    rw [← heq.1, ← heq.2]
    exact h.strides x hx rfl operand
  · have hidle : Loop.idleSize (fun _ => true) =
        (fun entry : ℕ × Offsets => if entry.2 = 0 then entry.1 else 1) ∘
          fun l => (l.size, l.strides) := by
      funext l
      simp [Loop.idleSize, Loop.isIdle]
    have hprod := h.idle
    rw [hidle, ← List.map_map] at hprod ⊢
    rwa [hmarked]

end Nest

namespace Plan

open Contraction

/-- A transpose with its two loops in either order. The exchanged one is accepted unless the order
matters, with the same extents and moving the same elements. Normalizing a transpose of sequential loops
finds its two loops exactly if one is contiguous in the output besides the first that is contiguous in
the input; then only an overflow can stop it, and none does where the loops leave room. -/
theorem transpose_exchange {c : Contraction} (hmain : c.main = .transpose) :
    (∀ p outer a b, ofContraction c = .ok p → c.loops = outer ++ [a, b] →
      ((∃ q, ofContraction { c with loops := outer ++ [b, a] } = .ok q) ↔ ¬OrderMatters a b) ∧
      ∀ q, ofContraction { c with loops := outer ++ [b, a] } = .ok q → q.extents = p.extents ∧
        ∀ base, (q.cells (q.transposedCell base)).Perm (p.cells (p.transposedCell base))) ∧
    ((∀ l ∈ c.loops, l.exec = .seq) → ∀ parallel,
      (¬HasTransposeLoops c.loops →
        ∃ which, c.normalize parallel = refuse (.noPrimitiveLoop which)) ∧
      (HasTransposeLoops c.loops →
        (∀ e, c.normalize parallel = .error e → ∃ operation, e = .overflow operation) ∧
        ((∀ l ∈ c.loops, 0 < l.size) → Roomy (fun _ => true) c.loops →
          ∃ normal, c.normalize parallel = .ok normal))) := by
  constructor
  · intro p outer a b hp hloops
    have hformed := exists_plan_iff.1 ⟨p, hp⟩
    obtain ⟨-, -, -, -, -, -, htakes⟩ := hformed.transpose_parts hmain hloops
    refine ⟨?_, fun q hq => ?_⟩
    · rw [exists_plan_iff, ← takesElementwise_exchange htakes]
      constructor
      · intro hexchanged
        obtain ⟨-, -, -, -, -, -, htakes'⟩ :=
          WellFormed.transpose_parts (c := { c with loops := outer ++ [b, a] }) hmain rfl hexchanged
        exact htakes'
      · exact hformed.exchange hmain hloops
    · exact (derived_of_ofContraction hp).exchange hmain hloops (derived_of_ofContraction hq)
  · intro hseq parallel
    have hchoose := chooseKernelLoops_transpose hmain hseq
    rw [← exists_transposePositions_iff hmain]
    refine ⟨fun hnone => ?_, fun ⟨positions, hpositions⟩ => ?_⟩
    · cases hpositions : c.elementwisePositions with
      | ok positions => exact absurd ⟨positions, hpositions⟩ hnone
      | error e =>
        obtain ⟨which, rfl⟩ := transposePositions_error hmain hpositions
        refine ⟨which, ?_⟩
        rw [Contraction.normalize, hchoose, hpositions]
        rfl
    · have hmarked : c.chooseKernelLoops = .ok (markKernel c.loops positions) := by
        rw [hchoose, hpositions]
        rfl
      refine ⟨fun e he => overflow_of_normalize hmarked he, fun hsizes hroom => ?_⟩
      have hsizes := (markKernel_regroups c.loops positions).sizes_pos.2 hsizes
      have hroom := hroom.markKernel positions
      refine exists_normalize hmarked hsizes ?_ (hroom.mono hsizes fun _ _ => rfl) parallel
      intro l hl operand
      exact Nat.lt_of_le_of_lt (Nat.mul_le_mul_right _ (Nat.sub_le _ _)) (hroom.strides l hl rfl operand)

def packedTranspose (rows columns : ℕ) (exec : Exec) (rowsFirst : Bool) : Contraction :=
  let m : Loop := ⟨.m, exec, rows, ⟨1, 0, columns⟩⟩
  let n : Loop := ⟨.n, exec, columns, ⟨rows, 0, 1⟩⟩
  { main := .transpose
    loops := if rowsFirst then [m, n] else [n, m] }

theorem packedColumn_exchange :
    ∃ p q normal, ofContraction (packedTranspose 5 1 .prim false) = .ok p ∧
      ofContraction (packedTranspose 5 1 .prim true) = .ok q ∧ q.extents = p.extents ∧
      (∀ base, (q.cells (q.transposedCell base)).Perm (p.cells (p.transposedCell base))) ∧
      (packedTranspose 5 1 .seq false).normalize true = .ok normal := by
  obtain ⟨p, hp⟩ : ∃ p, ofContraction (packedTranspose 5 1 .prim false) = .ok p := by
    refine ⟨?_, ?_⟩
    rotate_left
    · cbv
      rfl
  obtain ⟨hexchange, hsame⟩ := (transpose_exchange rfl).1 p [] _ _ hp rfl
  obtain ⟨q, hq⟩ := hexchange.2 fun h => absurd h.1 (by decide)
  have hseq : ∀ l ∈ (packedTranspose 5 1 .seq false).loops, l.exec = .seq := by
    simp [packedTranspose]
  have hfound : HasTransposeLoops (packedTranspose 5 1 .seq false).loops := by
    refine ⟨1, 0, _, _, rfl, rfl, by decide, rfl, rfl, fun k l hk hl => ?_⟩
    rw [Nat.lt_one_iff.1 hk] at hl
    cases hl
    decide
  have hroom : Roomy (fun _ => true) (packedTranspose 5 1 .seq false).loops := by
    refine ⟨fun l hl _ operand => ?_, by decide⟩
    rcases List.mem_pair.1 hl with rfl | rfl <;> cases operand <;> decide
  obtain ⟨normal, hnormal⟩ := (((transpose_exchange rfl).2 hseq true).2 hfound).2
    (by simp [packedTranspose]) hroom
  exact ⟨p, q, normal, hp, hq, (hsame q hq).1, (hsame q hq).2, hnormal⟩

/-- A single row, whose loops are both contiguous in the input: behind the column loop its row loop is
not found. -/
theorem packedRow_exchange_refused :
    (∃ p, ofContraction (packedTranspose 1 5 .prim true) = .ok p) ∧
      ofContraction (packedTranspose 1 5 .prim false) = refuse .transposeStrides ∧
      ∀ parallel, (packedTranspose 1 5 .seq false).normalize parallel =
        refuse (.noPrimitiveLoop .outputContiguous) := by
  refine ⟨⟨?_, ?_⟩, ?_, ?_⟩
  rotate_left
  · cbv
    rfl
  · cbv
  · intro parallel
    cases parallel <;> cbv

end Plan

end TensorKernels
