import TensorKernels.Proofs.Nest.Indices
import TensorKernels.Proofs.Nest.Tasks

/-!
Parallel execution of a product. An update that keeps to the output block of its visit commutes
with one that keeps to a block apart from it. Blocks of different tasks are apart when the output
strides nest, so every interleaving of the tasks leaves the output that the walk leaves.
-/

namespace TensorKernels

open Nest

/-- `order` takes the steps of all tasks, those of each task in their own order. -/
inductive Interleaving {α : Type} : List (List α) → List α → Prop
  | done {tasks : List (List α)} (h : ∀ task ∈ tasks, task = []) : Interleaving tasks []
  | step {before after : List (List α)} {task order : List α} (x : α)
      (h : Interleaving (before ++ task :: after) order) :
      Interleaving (before ++ (x :: task) :: after) (x :: order)

section Commute

variable {α σ : Type} (run : σ → α → σ)

def StepsCommute (x y : α) : Prop := ∀ s, run (run s x) y = run (run s y) x

def TasksCommute (tasks : List (List α)) : Prop :=
  tasks.Pairwise fun t u => ∀ x ∈ t, ∀ y ∈ u, StepsCommute run x y

variable {run}

theorem foldl_of_commute {x : α} {steps : List α} (h : ∀ y ∈ steps, StepsCommute run y x) (s : σ) :
    steps.foldl run (run s x) = run (steps.foldl run s) x := by
  induction steps generalizing s with
  | nil => rfl
  | cons y steps ih =>
    rw [List.forall_mem_cons] at h
    rw [List.foldl_cons, List.foldl_cons, ← h.1 s, ih h.2]

theorem TasksCommute.tail {before after : List (List α)} {x : α} {task : List α}
    (h : TasksCommute run (before ++ (x :: task) :: after)) :
    TasksCommute run (before ++ task :: after) := by
  simp only [TasksCommute, List.pairwise_append, List.pairwise_cons, List.forall_mem_cons] at h ⊢
  obtain ⟨hbefore, ⟨hhead, hafter⟩, hacross⟩ := h
  refine ⟨hbefore, ⟨fun u hu => (hhead u hu).2, hafter⟩, fun t ht => ⟨fun y hy => ?_, (hacross t ht).2⟩⟩
  exact ((hacross t ht).1 y hy).2

theorem TasksCommute.before {before after : List (List α)} {x : α} {task : List α}
    (h : TasksCommute run (before ++ (x :: task) :: after)) :
    ∀ y ∈ before.flatten, StepsCommute run y x := by
  intro y hy
  obtain ⟨t, ht, hyt⟩ := List.mem_flatten.1 hy
  exact (List.pairwise_append.1 h).2.2 t ht _ List.mem_cons_self y hyt x List.mem_cons_self

/-- Interleavings of commuting tasks leave what the tasks leave one after another. -/
theorem Interleaving.foldl_eq {tasks : List (List α)} {order : List α}
    (horder : Interleaving tasks order) (h : TasksCommute run tasks) (s : σ) :
    order.foldl run s = tasks.flatten.foldl run s := by
  induction horder generalizing s with
  | done hempty =>
    rw [List.flatten_eq_nil_iff.2 hempty]
  | @step before after task order x _ ih =>
    have hbefore := foldl_of_commute h.before s
    simp only [List.foldl_cons, ih h.tail, List.flatten_append, List.flatten_cons,
      List.foldl_append, List.cons_append, hbefore]

end Commute

namespace Plan

/-- The output elements of a visit: the block that the kernel updates from its base on. -/
def outputBlock (p : Plan) (v : Visit) : List ℕ := p.cells (p.filledCell v.base)

/-- An update of the output for every visit that writes only the visit's output block, and to values
that depend on nothing else of the output. -/
structure KeepsToBlock {V : Type} (p : Plan) (update : Visit → (ℕ → V) → ℕ → V) : Prop where
  writes : ∀ v output x, x ∉ p.outputBlock v → update v output x = output x
  reads : ∀ v output other, (∀ x ∈ p.outputBlock v, output x = other x) →
    ∀ x ∈ p.outputBlock v, update v output x = update v other x

theorem KeepsToBlock.comm {V : Type} {p : Plan} {update : Visit → (ℕ → V) → ℕ → V}
    (h : p.KeepsToBlock update) {v w : Visit}
    (hapart : (p.outputBlock v).Disjoint (p.outputBlock w)) (output : ℕ → V) :
    update w (update v output) = update v (update w output) := by
  funext x
  by_cases hv : x ∈ p.outputBlock v
  · have hw : x ∉ p.outputBlock w := fun hw => hapart hv hw
    rw [h.writes w _ x hw]
    refine h.reads v _ _ (fun y hy => ?_) x hv
    exact (h.writes w _ y fun hw => hapart hy hw).symm
  · rw [h.writes v _ x hv]
    by_cases hw : x ∈ p.outputBlock w
    · refine h.reads w _ _ (fun y hy => ?_) x hw
      exact h.writes v _ y fun hv => hapart hv hy
    · rw [h.writes w _ x hw, h.writes w _ x hw, h.writes v _ x hv]

theorem outputs_apart {outer inner : List Loop} (houter : ofRoles (· != .k) outer = outer)
    (hfixed : ∀ l ∈ inner, l.role = .k → l.strides.out = 0)
    (hnodup : ((offsets (ofRoles (· != .k) (outer ++ inner))).map (·.out)).Nodup) :
    (offsets outer).Pairwise fun a b =>
      ∀ x ∈ offsets inner, ∀ y ∈ offsets inner, (a + x).out ≠ (b + y).out := by
  have hkept (base x : Offsets) (hx : x ∈ offsets inner) : (base + x).out ∈
      ((offsets (ofRoles (· != .k) inner)).map (base + ·)).map (·.out) := by
    obtain ⟨t, ht, rfl⟩ := List.mem_map.1 hx
    have hout : (offset (ofRoles (· != .k) inner) (keptIndices (· != .k) inner t)).out =
        (offset inner t).out :=
      out_offset_keptIndices (fun l hl hrole => hfixed l hl (by simpa using hrole)) t
    simp only [List.map_map, List.mem_map, Function.comp_apply]
    refine ⟨_, List.mem_map_of_mem (keptIndices_mem ht), ?_⟩
    rw [Offsets.out_add, Offsets.out_add, hout]
  rw [ofRoles_append, houter, offsets_append, List.map_flatMap, List.nodup_flatMap] at hnodup
  refine hnodup.2.imp fun {a b} hapart x hx y hy heq => ?_
  exact hapart (hkept a x hx) (heq ▸ hkept b y hy)

section Accepted

variable {c : Contraction} {p : Plan}

def loopsOfTask (p : Plan) : List Loop := p.taskLoops ++ p.contraction.loops.drop p.kernelStart

theorem Derived.loops_eq (d : Derived c p) : c.loops = p.sharedLoops ++ p.loopsOfTask := by
  rw [loopsOfTask, ← List.append_assoc, ← d.outerLoops_eq, d.contraction, d.outer_append_inner]

theorem Derived.exactTasks_apart (d : Derived c p)
    (hapart : (offsets p.sharedLoops).Pairwise fun a b =>
      ∀ x ∈ offsets p.loopsOfTask, ∀ y ∈ offsets p.loopsOfTask, (a + x).out ≠ (b + y).out) :
    p.exactTasks.Pairwise fun t u => ∀ v ∈ t, ∀ w ∈ u,
      ∀ x ∈ offsets (c.loops.drop p.kernelStart), ∀ y ∈ offsets (c.loops.drop p.kernelStart),
        (v.base + x).out ≠ (w.base + y).out := by
  have hinside {o x : Offsets} {v : Visit}
      (hv : v ∈ Walk.exactVisits p.taskLoops ⟨o, true, true⟩)
      (hx : x ∈ offsets (c.loops.drop p.kernelStart)) :
      ∃ r ∈ offsets p.loopsOfTask, v.base + x = o + r := by
    have hbase : v.base ∈ (offsets p.taskLoops).map (o + ·) := by
      rw [← Walk.map_base_exactVisits p.taskLoops ⟨o, true, true⟩]
      exact List.mem_map_of_mem hv
    obtain ⟨t, ht, hbase⟩ := List.mem_map.1 hbase
    refine ⟨t + x, ?_, by rw [← hbase, add_assoc]⟩
    rw [loopsOfTask, offsets_append, d.contraction]
    simp only [List.mem_flatMap, List.mem_map]
    exact ⟨t, ht, x, hx, rfl⟩
  rw [exactTasks, List.pairwise_map]
  refine hapart.imp fun {a b} hapart v hv w hw x hx y hy => ?_
  obtain ⟨r, hr, heq⟩ := hinside hv hx
  obtain ⟨r', hr', heq'⟩ := hinside hw hy
  rw [heq, heq']
  exact hapart r hr r' hr'

end Accepted

section Product

variable {c : Contraction} {p : Plan}

theorem Derived.extent_pos (d : Derived c p) {l : Option PlacedLoop}
    (h : ∀ q, l = some q → q ∈ p.foundLoops) : 0 < KernelLoops.extent l := by
  cases l with
  | none => exact Nat.one_pos
  | some q => exact d.sizes q.loop (List.mem_of_getElem? (d.getElem?_foundLoops q (h q rfl)))

theorem Derived.exists_of_mem_outputBlock (d : Derived c p) (hproduct : c.main.isProduct = true)
    {v : Visit} {x : ℕ} (hx : x ∈ p.outputBlock v) :
    ∃ o ∈ offsets (c.loops.drop p.kernelStart), x = (v.base + o).out := by
  simp only [outputBlock, cells, filledCell, List.mem_flatMap, List.mem_map, List.mem_range] at hx
  obtain ⟨i, hi, j, hj, rfl⟩ := hx
  have hk : 0 < KernelLoops.extent p.kernelLoops.k :=
    d.extent_pos fun q hq => by simp [foundLoops, KernelLoops.toList, hq]
  have hbatch : 0 < KernelLoops.extent p.kernelLoops.batch :=
    d.extent_pos fun q hq => by simp [foundLoops, KernelLoops.toList, hq]
  -- the block meets every output element already in its first reduction step
  have hmem : (⟨v.base.in0 + i + 0 * p.strides.lda + 0 * p.strides.batchA,
      v.base.in1 + 0 + j * p.strides.ldb + 0 * p.strides.batchB,
      v.base.out + i + j * p.strides.ldc⟩ : Offsets) ∈ p.productBlock v.base := by
    simp only [productBlock, List.mem_flatMap, List.mem_map, List.mem_range]
    exact ⟨0, hbatch, 0, hk, i, hi, j, hj, rfl⟩
  obtain ⟨o, ho, heq⟩ := List.mem_map.1 ((productBlock_perm d hproduct v.base).subset hmem)
  exact ⟨o, ho, congrArg Offsets.out heq.symm⟩

theorem Derived.tasks_apart (d : Derived c p) (hproduct : c.main.isProduct = true)
    (hdistinct : p.outputDistinct = true) :
    p.exactTasks.Pairwise fun t u =>
      ∀ v ∈ t, ∀ w ∈ u, (p.outputBlock v).Disjoint (p.outputBlock w) := by
  have hnodup := outputs_nodup d.sizes (d.outputDistinct ▸ hdistinct)
  rw [d.loops_eq] at hnodup
  have hfixed : ∀ l ∈ p.loopsOfTask, l.role = .k → l.strides.out = 0 := fun l hl =>
    d.stride_out_reduction hproduct l (d.loops_eq ▸ List.mem_append_right _ hl)
  have hapart := d.exactTasks_apart (outputs_apart d.ofRoles_sharedLoops hfixed hnodup)
  refine hapart.imp fun hapart v hv w hw x hxv hxw => ?_
  obtain ⟨q, hq, rfl⟩ := d.exists_of_mem_outputBlock hproduct hxv
  obtain ⟨q', hq', heq⟩ := d.exists_of_mem_outputBlock hproduct hxw
  exact hapart v hv w hw q hq q' hq' heq

end Product

/-- When the output strides of a product nest, its tasks may be interleaved in any way that keeps the
order within each task: the output is what the walk leaves. -/
theorem interleaved_tasks_eq_walk {V : Type} {c : Contraction} {p : Plan}
    (h : ofContraction c = .ok p) (hmain : c.main = .gemm ∨ c.main = .brgemm)
    (hdistinct : p.outputDistinct = true) {update : Visit → (ℕ → V) → ℕ → V}
    (hlocal : p.KeepsToBlock update) :
    ∃ tasks visits, p.tasks = .ok tasks ∧ p.walk = .ok visits ∧
      ∀ order, Interleaving tasks order → ∀ output : ℕ → V,
        order.foldl (fun out v => update v out) output =
          visits.foldl (fun out v => update v out) output := by
  have d := derived_of_ofContraction h
  have hproduct : c.main.isProduct = true := by rcases hmain with hm | hm <;> rw [hm] <;> rfl
  refine ⟨_, _, d.tasks_eq hdistinct, d.walk_eq, fun order horder output => ?_⟩
  have hcommute : TasksCommute (fun out v => update v out) p.exactTasks :=
    (d.tasks_apart hproduct hdistinct).imp fun hapart v hv w hw out =>
      hlocal.comm (hapart v hv w hw) out
  rw [horder.foldl_eq hcommute, d.flatten_exactTasks]

def doubling (p : Plan) (v : Visit) (output : ℕ → ℕ) (x : ℕ) : ℕ :=
  if x ∈ p.outputBlock v then 2 * output x + v.base.in0 + v.base.in1 else output x

theorem doubling_keepsToBlock (p : Plan) : p.KeepsToBlock p.doubling where
  writes v output x hx := by rw [doubling, if_neg hx]
  reads v output other h x hx := by rw [doubling, doubling, if_pos hx, if_pos hx, h x hx]

theorem batchedProduct_interleaved :
    ∃ p tasks visits, ofContraction batchedProduct = .ok p ∧ p.outputDistinct = true ∧
      p.tasks = .ok tasks ∧ p.walk = .ok visits ∧
      ∀ order, Interleaving tasks order → ∀ output : ℕ → ℕ,
        order.foldl (fun out v => p.doubling v out) output =
          visits.foldl (fun out v => p.doubling v out) output := by
  obtain ⟨p, hp, hdistinct⟩ :
      ∃ p, ofContraction batchedProduct = .ok p ∧ p.outputDistinct = true := by
    refine ⟨?_, ?_, ?_⟩
    rotate_left
    · cbv
      rfl
    · rfl
  obtain ⟨tasks, visits, htasks, hwalk, horder⟩ :=
    interleaved_tasks_eq_walk hp (Or.inr rfl) hdistinct (doubling_keepsToBlock p)
  exact ⟨p, tasks, visits, hp, hdistinct, htasks, hwalk, horder⟩

end Plan

end TensorKernels
