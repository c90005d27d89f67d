import TensorKernels.Proofs.Nest.Arrangement

/-!
Merging neighbours in one pass is exact and complete. A merged loop keeps the role and the execution
of its outer half, and all its indices together cover what those of the outer half cover. The test
against the loop before it sees nothing else, so that pair, which was tested before the merge,
would answer the same after it: what a pass has left behind needs no second look. Loops of the kernel
merge with nothing, and cut the list into parts that are merged apart.
-/

namespace TensorKernels

open Nest

namespace Loop

/-- Whether `outer` directly around `inner` is outside the kernel and walks, with it, the same
elements as one loop of their common role and execution. -/
structure Fuses (outer inner : Loop) : Prop where
  outside : outer.exec ≠ .prim
  role : outer.role = inner.role
  exec : outer.exec = inner.exec
  strides : outer.strides = inner.size • inner.strides

variable {outer inner : Loop}

theorem fuses_iff_of_coalesces {joined : Bool} (h : outer.coalesces inner = .ok joined) :
    outer.Fuses inner ↔ joined = true := by
  constructor
  · intro hfuses
    have hkind : ¬(outer.isKernel || outer.role != inner.role || outer.exec != inner.exec) := by
      have houtside := hfuses.outside
      rw [hfuses.exec] at houtside
      simp [isKernel, hfuses.role, hfuses.exec, houtside]
    have hin0 : outer.strides.in0 = inner.strides.in0 * inner.size := by
      rw [hfuses.strides, Offsets.in0_smul, Nat.mul_comm]
    have hin1 : outer.strides.in1 = inner.strides.in1 * inner.size := by
      rw [hfuses.strides, Offsets.in1_smul, Nat.mul_comm]
    have hout : outer.strides.out = inner.strides.out * inner.size := by
      rw [hfuses.strides, Offsets.out_smul, Nat.mul_comm]
    rw [coalesces, if_neg hkind] at h
    obtain ⟨_, hcovers, h⟩ := bind_eq_ok_iff.1 h
    obtain ⟨-, rfl⟩ := covers_eq_ok_iff.1 hcovers
    rw [hin0, beq_self_eq_true] at h
    obtain ⟨_, hcovers, h⟩ := bind_eq_ok_iff.1 h
    obtain ⟨-, rfl⟩ := covers_eq_ok_iff.1 hcovers
    rw [hin1, beq_self_eq_true] at h
    obtain ⟨-, rfl⟩ := covers_eq_ok_iff.1 h
    rw [hout, beq_self_eq_true]
  · rintro rfl
    obtain ⟨houtside, hrole, hexec, hstrides⟩ := of_coalesces h
    exact ⟨by simpa [isKernel] using houtside, hrole, hexec, hstrides⟩

theorem coalesces_of_kernel (h : outer.isKernel = true ∨ inner.isKernel = true) :
    outer.coalesces inner = .ok false := by
  have hkind : outer.isKernel || outer.role != inner.role || outer.exec != inner.exec := by
    by_cases hexec : outer.exec = inner.exec
    · have houter : outer.isKernel = true := by
        rcases h with h | h
        · exact h
        · rwa [isKernel, hexec]
      rw [houter]
      rfl
    · simp [hexec]
  rw [coalesces, if_pos hkind]
  rfl

theorem covers_congr {stride size stride' size' : ℕ} (h : stride * size = stride' * size')
    (outer : ℕ) : covers outer stride size = covers outer stride' size' := by
  rw [covers, covers, Count.mul, Count.mul, h]

theorem coalesces_congr {inner' : Loop} (hrole : inner.role = inner'.role)
    (hexec : inner.exec = inner'.exec)
    (hcovered : inner.size • inner.strides = inner'.size • inner'.strides) (outer : Loop) :
    outer.coalesces inner = outer.coalesces inner' := by
  simp only [Offsets.smul_def, Offsets.mk.injEq, Nat.mul_comm inner.size,
    Nat.mul_comm inner'.size] at hcovered
  obtain ⟨hin0, hin1, hout⟩ := hcovered
  rw [coalesces, coalesces, hrole, hexec, covers_congr hin0, covers_congr hin1, covers_congr hout]

theorem coalesces_join (h : outer.coalesces inner = .ok true) (before : Loop) :
    before.coalesces { inner with size := inner.size * outer.size } = before.coalesces outer := by
  obtain ⟨-, hrole, hexec, hstrides⟩ := of_coalesces h
  apply coalesces_congr
  · exact hrole.symm
  · exact hexec.symm
  · rw [hstrides, ← mul_nsmul', Nat.mul_comm]

end Loop

namespace Contraction

variable {loops merged : List Loop}

theorem Merges.offsets_eq (h : Merges loops merged) : offsets merged = offsets loops := by
  induction h with
  | short hshort => rfl
  | @join outer inner rest merged hjoin hrest ih =>
    obtain ⟨-, -, -, hstrides⟩ := Loop.of_coalesces hjoin
    have hpair : offsets (outer :: inner :: rest) =
        offsets ({ inner with size := inner.size * outer.size } :: rest) :=
      offsets_pair rest (Nat.mul_comm _ _) rfl hstrides
    rw [ih, hpair]
  | keep hkeep hrest ih => rw [offsets_cons, offsets_cons, ih]

theorem Merges.exists_head {first : Loop} {rest : List Loop} (h : Merges (first :: rest) merged) :
    ∃ head tail, merged = head :: tail ∧
      ∀ before : Loop, before.coalesces head = before.coalesces first := by
  generalize hloops : first :: rest = loops at h
  induction h generalizing first rest with
  | short hshort => exact ⟨first, rest, hloops.symm, fun _ => rfl⟩
  | join hjoin hrest ih =>
    obtain ⟨rfl, -⟩ := List.cons_eq_cons.1 hloops
    obtain ⟨head, tail, rfl, hhead⟩ := ih rfl
    exact ⟨head, tail, rfl, fun before => (hhead before).trans (Loop.coalesces_join hjoin before)⟩
  | keep hkeep hrest ih =>
    obtain ⟨rfl, -⟩ := List.cons_eq_cons.1 hloops
    exact ⟨first, _, rfl, fun _ => rfl⟩

theorem Merges.isChain (h : Merges loops merged) :
    merged.IsChain fun outer inner => outer.coalesces inner = .ok false := by
  induction h with
  | @short loops hshort =>
    match loops, hshort with
    | [], _ => exact List.isChain_nil
    | [l], _ => exact List.isChain_singleton l
  | join hjoin hrest ih => exact ih
  | keep hkeep hrest ih =>
    -- the neighbour that was tested may have been merged since
    obtain ⟨head, tail, rfl, hhead⟩ := hrest.exists_head
    exact List.isChain_cons_cons.2 ⟨(hhead _).trans hkeep, ih⟩

theorem coalesce_of_short (h : loops.length ≤ 1) : coalesce loops = .ok loops := by
  rw [coalesce]
  rintro outer inner rest rfl
  simp at h

theorem coalesce_cons_of_keep {outer : Loop} {rest : List Loop}
    (h : ∀ inner ∈ rest.head?, outer.coalesces inner = .ok false) :
    coalesce (outer :: rest) = (do return outer :: (← coalesce rest)) := by
  cases rest with
  | nil =>
    have hnil : coalesce [] = .ok [] := coalesce_of_short (Nat.zero_le 1)
    rw [coalesce_of_short le_rfl, hnil]
    rfl
  | cons inner rest =>
    rw [coalesce, h inner rfl]
    rfl

theorem coalesce_of_isChain (h : loops.IsChain fun outer inner => outer.coalesces inner = .ok false) :
    coalesce loops = .ok loops := by
  induction loops with
  | nil => exact coalesce_of_short (Nat.zero_le 1)
  | cons outer rest ih =>
    obtain ⟨hkeep, hrest⟩ := List.isChain_cons.1 h
    rw [coalesce_cons_of_keep hkeep, ih hrest]
    rfl

theorem coalesce_append_kernel {kernel : Loop} (hkernel : kernel.isKernel = true)
    (before after : List Loop) :
    coalesce (before ++ kernel :: after) = (do
      let outer ← coalesce before
      let inner ← coalesce after
      return outer ++ kernel :: inner) := by
  have hafter : coalesce (kernel :: after) = (do return kernel :: (← coalesce after)) :=
    coalesce_cons_of_keep fun _ _ => Loop.coalesces_of_kernel (Or.inl hkernel)
  fun_induction coalesce before with
  | case1 outer inner rest ih₁ ih₂ =>
    rw [List.cons_append, List.cons_append, coalesce]
    cases outer.coalesces inner with
    | error e => rfl
    | ok joined =>
      cases joined with
      | true =>
        cases Count.mul inner.size outer.size with
        | error e => rfl
        | ok size => exact ih₁ size
      | false =>
        change (coalesce (inner :: rest ++ kernel :: after) >>= fun tail => pure (outer :: tail)) =
          ((coalesce (inner :: rest) >>= fun tail => pure (outer :: tail)) >>= _)
        rw [ih₂]
        simp only [bind_assoc, pure_bind, List.cons_append]
  | case2 loops hshort =>
    obtain _ | ⟨l, _ | ⟨inner, rest⟩⟩ := loops
    · exact hafter
    · have hkeep : ∀ inner ∈ (kernel :: after).head?, l.coalesces inner = .ok false := by
        rintro _ ⟨⟩
        exact Loop.coalesces_of_kernel (Or.inr hkernel)
      rw [List.singleton_append, coalesce_cons_of_keep hkeep, hafter]
      exact bind_assoc (coalesce after) _ _
    · exact absurd rfl (hshort l inner rest)

/-- Merging keeps the offsets in the order of the walk and the loops of the kernel as they are, and
leaves no neighbours that fuse: a second pass changes nothing. -/
theorem coalesce_exact_and_complete (h : coalesce loops = .ok merged) :
    offsets merged = offsets loops ∧
    merged.filter Loop.isKernel = loops.filter Loop.isKernel ∧
    (∀ before kernel after, loops = before ++ kernel :: after → kernel.isKernel = true →
      ∃ outer inner, coalesce before = .ok outer ∧ coalesce after = .ok inner ∧
        merged = outer ++ kernel :: inner) ∧
    merged.IsChain (fun outer inner => ¬outer.Fuses inner) ∧
    coalesce merged = .ok merged := by
  have hmerges := merges_of_coalesce h
  have hchain := hmerges.isChain
  refine ⟨hmerges.offsets_eq, coalesce_kernel h, ?_, ?_, coalesce_of_isChain hchain⟩
  · rintro before kernel after rfl hkernel
    rw [coalesce_append_kernel hkernel] at h
    simp only [bind_eq_ok_iff, pure_eq_ok_iff] at h
    obtain ⟨outer, houter, inner, hinner, rfl⟩ := h
    exact ⟨outer, inner, houter, hinner, rfl⟩
  · exact hchain.imp fun outer inner hkeep hfuses =>
      Bool.false_ne_true ((Loop.fuses_iff_of_coalesces hkeep).1 hfuses)

def skippedRows : List Loop :=
  [⟨.m, .seq, 3, ⟨256, 0, 256⟩⟩, ⟨.m, .seq, 2, ⟨64, 0, 64⟩⟩, ⟨.m, .seq, 4, ⟨16, 0, 16⟩⟩,
    ⟨.m, .seq, 4, ⟨4, 0, 4⟩⟩, ⟨.m, .prim, 4, ⟨1, 0, 1⟩⟩, ⟨.n, .prim, 2, ⟨768, 0, 768⟩⟩]

def skippedRowsMerged : List Loop :=
  [⟨.m, .seq, 3, ⟨256, 0, 256⟩⟩, ⟨.m, .seq, 32, ⟨4, 0, 4⟩⟩, ⟨.m, .prim, 4, ⟨1, 0, 1⟩⟩,
    ⟨.n, .prim, 2, ⟨768, 0, 768⟩⟩]

theorem skippedRows_exact_and_complete :
    coalesce skippedRows = .ok skippedRowsMerged ∧
      offsets skippedRowsMerged = offsets skippedRows ∧
      skippedRowsMerged.filter Loop.isKernel = skippedRows.filter Loop.isKernel ∧
      (∃ outer inner, coalesce (skippedRows.take 4) = .ok outer ∧
        coalesce (skippedRows.drop 5) = .ok inner ∧
        skippedRowsMerged = outer ++ ⟨.m, .prim, 4, ⟨1, 0, 1⟩⟩ :: inner) ∧
      skippedRowsMerged.IsChain (fun outer inner => ¬outer.Fuses inner) ∧
      coalesce skippedRowsMerged = .ok skippedRowsMerged := by
  have h : coalesce skippedRows = .ok skippedRowsMerged := by cbv
  obtain ⟨hoffsets, hkernel, hapart, hchain, hagain⟩ := coalesce_exact_and_complete h
  exact ⟨h, hoffsets, hkernel, hapart _ _ _ rfl rfl, hchain, hagain⟩

end Contraction

end TensorKernels
