import TensorKernels.Proofs.Nest.Canonical
import TensorKernels.Proofs.Nest.Nesting
import TensorKernels.Proofs.Nest.Normalize

/-!
How normalizing arranges the loops. Every loop that the kernel absorbs stays with the kernel as one
piece, with its role and strides; the pieces come last, sorted by rank. Shared loops lead, each
addressing distinct output blocks if the shared loops given do. So a regular contraction whose sorted
pieces are a run of its kernel is canonical after normalizing.
-/

namespace TensorKernels

open Nest

namespace Nest

theorem Regroup.independent_iff {a b : List Loop} (h : Regroup a b) :
    (∀ l ∈ a, Plan.independent l = true) ↔ ∀ l ∈ b, Plan.independent l = true := by
  cases h with
  | reorder h => simp only [h.mem_iff]
  | reschedule l exec rest => simp only [List.forall_mem_cons]; rfl
  | @merge outer inner rest hrole hstrides =>
    have houter : Plan.independent inner = true → Plan.independent outer = true := by
      unfold Plan.independent
      rw [hrole, hstrides]
      cases inner.role <;> simp +contextual
    have hmerged : Plan.independent { inner with size := inner.size * outer.size } =
        Plan.independent inner := rfl
    simp only [List.forall_mem_cons, hmerged]
    exact ⟨fun h => h.2, fun h => ⟨houter h.1, h⟩⟩

theorem Regroups.independent_iff {a b : List Loop} (h : Regroups a b) :
    (∀ l ∈ a, Plan.independent l = true) ↔ ∀ l ∈ b, Plan.independent l = true :=
  iff_of_regroup Regroup.independent_iff h

theorem Regroups.reach_eq {a b : List Loop} (h : Regroups a b) (hsizes : ∀ l ∈ a, 0 < l.size) :
    reach a = reach b := by
  have hle {a b : List Loop} (h : Regroups a b) (hsizes : ∀ l ∈ a, 0 < l.size)
      (operand : Operand) : (reach a).get operand ≤ (reach b).get operand := by
    have hperm := h.sameOffsets fun _ => true
    simp only [ofRoles, List.filter_true] at hperm
    exact get_le_reach (hperm.subset (reach_mem_offsets hsizes)) operand
  have heq (operand : Operand) : (reach a).get operand = (reach b).get operand :=
    Nat.le_antisymm (hle h hsizes operand) (hle h.symm (h.sizes_pos.1 hsizes) operand)
  rcases ha : reach a with ⟨in0, in1, out⟩
  rcases hb : reach b with ⟨in0', in1', out'⟩
  rw [ha, hb] at heq
  exact Offsets.mk.injEq .. ▸ ⟨heq .in0, heq .in1, heq .out⟩

end Nest

namespace Loop

def piece (l : Loop) : Loop :=
  if l.isKernel && (l.role == .m || l.role == .k) && maxKernelExtent < l.size then
    match pieceLength l.size (min maxKernelExtent l.size) with
    | none => l
    | some inner => { l with size := inner }
  else l

theorem piece_eq (l : Loop) : l.piece = { l with size := l.piece.size } := by
  unfold piece
  split
  · split <;> rfl
  · rfl

@[simp] theorem role_piece (l : Loop) : l.piece.role = l.role := by rw [piece_eq]

@[simp] theorem exec_piece (l : Loop) : l.piece.exec = l.exec := by rw [piece_eq]

@[simp] theorem strides_piece (l : Loop) : l.piece.strides = l.strides := by rw [piece_eq]

theorem size_piece_dvd (l : Loop) : l.piece.size ∣ l.size := by
  unfold piece
  split
  · split
    · exact Nat.dvd_refl _
    · rename_i inner hinner
      exact (of_pieceLength hinner).1
  · exact Nat.dvd_refl _

theorem not_dvd_of_pieceLength {size limit : ℕ} (h : pieceLength size limit = none) {d : ℕ}
    (hd : 2 ≤ d) (hle : d ≤ limit) : ¬d ∣ size := by
  induction limit with
  | zero => omega
  | succ limit ih =>
    simp only [pieceLength] at h
    split_ifs at h with h0 hmod
    · omega
    · rcases Nat.lt_or_eq_of_le hle with hlt | rfl
      · exact ih h (by omega)
      · rwa [Nat.dvd_iff_mod_eq_zero]

theorem size_piece_le_or {l : Loop} (hkernel : l.isKernel = true)
    (hrole : l.role = .m ∨ l.role = .k) :
    l.piece.size ≤ maxKernelExtent ∨
      ∀ d, 2 ≤ d → d ≤ maxKernelExtent → ¬d ∣ l.piece.size := by
  have hcut : (l.isKernel && (l.role == .m || l.role == .k)) = true := by
    rcases hrole with h | h <;> simp [hkernel, h]
  unfold piece
  simp only [hcut, Bool.true_and, decide_eq_true_eq]
  split
  · rename_i hlong
    rw [Nat.min_eq_left (Nat.le_of_lt hlong)]
    split
    · rename_i hnone
      exact Or.inr fun d hd hle => not_dvd_of_pieceLength hnone hd hle
    · rename_i inner hinner
      exact Or.inl (of_pieceLength hinner).2
  · rename_i hshort
    exact Or.inl (Nat.le_of_not_lt hshort)

theorem piece_of_length {l : Loop} {inner : ℕ}
    (hlong : (l.isKernel && (l.role == .m || l.role == .k) && maxKernelExtent < l.size) = true)
    (h : pieceLength l.size (min maxKernelExtent l.size) = some inner) :
    l.piece = { l with size := inner } := by
  rw [piece, if_pos hlong, h]

theorem piece_of_no_length {l : Loop}
    (h : pieceLength l.size (min maxKernelExtent l.size) = none) : l.piece = l := by
  rw [piece, h]
  split <;> rfl

def overPieces (l : Loop) : Loop :=
  { l with exec := .seq, size := l.size / l.piece.size, strides := l.piece.size • l.strides }

theorem cut_cases {l : Loop} {parts : List Loop} (h : l.cut = .ok parts) :
    parts = [l] ∧ l.piece = l ∨
      parts = [l.overPieces, l.piece] ∧ l.isKernel = true ∧ l.piece.size < l.size := by
  unfold cut at h
  split at h
  · rename_i hlong
    split at h
    · rename_i hnone
      cases h
      exact Or.inl ⟨rfl, piece_of_no_length hnone⟩
    · rename_i inner hinner
      have hpiece := piece_of_length hlong hinner
      simp only [bind_eq_ok_iff, pure_eq_ok_iff] at h
      obtain ⟨strides, hscale, rfl⟩ := h
      simp only [Bool.and_eq_true, decide_eq_true_eq] at hlong
      have hle := (of_pieceLength hinner).2.trans (Nat.min_le_left _ _)
      rw [overPieces, hpiece, Offsets.eq_of_scale hscale]
      exact Or.inr ⟨rfl, hlong.1.1, Nat.lt_of_le_of_lt hle hlong.2⟩
  · rename_i hshort
    cases h
    exact Or.inl ⟨rfl, by rw [piece, if_neg hshort]⟩

def Shareable (l : Loop) : Prop := l.exec = .shared → l.role ≠ .k ∧ l.strides.out ≠ 0

theorem isKernel_eq_false_iff {l : Loop} : l.isKernel = false ↔ l.exec = .seq ∨ l.exec = .shared := by
  cases h : l.exec <;> simp [isKernel, h]

end Loop

namespace Contraction

theorem cutLong_kernel {loops short : List Loop} (h : cutLong loops = .ok short) :
    short.filter Loop.isKernel = (loops.filter Loop.isKernel).map Loop.piece := by
  induction loops generalizing short with
  | nil =>
    cases h
    rfl
  | cons l rest ih =>
    simp only [cutLong, bind_eq_ok_iff, pure_eq_ok_iff] at h
    obtain ⟨parts, hparts, tail, htail, rfl⟩ := h
    rw [List.filter_append, ih htail]
    obtain ⟨rfl, hpiece⟩ | ⟨rfl, hkernel, -⟩ := Loop.cut_cases hparts
    · cases hk : l.isKernel <;> simp [hk, hpiece]
    · have hpiece : l.piece.isKernel = true := by rw [Loop.isKernel, Loop.exec_piece]; exact hkernel
      have houter : l.overPieces.isKernel = false := rfl
      simp [hkernel, hpiece, houter]

theorem cutLong_shareable {loops short : List Loop} (h : cutLong loops = .ok short)
    (hshare : ∀ l ∈ loops, l.Shareable) : ∀ l ∈ short, l.Shareable := by
  induction loops generalizing short with
  | nil =>
    cases h
    exact hshare
  | cons l rest ih =>
    simp only [cutLong, bind_eq_ok_iff, pure_eq_ok_iff] at h
    obtain ⟨parts, hparts, tail, htail, rfl⟩ := h
    rw [List.forall_mem_cons] at hshare
    have htail := ih htail hshare.2
    obtain ⟨rfl, -⟩ | ⟨rfl, -, -⟩ := Loop.cut_cases hparts
    · exact List.forall_mem_cons.2 ⟨hshare.1, htail⟩
    · refine List.forall_mem_cons.2 ⟨?_, List.forall_mem_cons.2 ⟨?_, htail⟩⟩
      · intro hexec
        cases hexec
      · simpa [Loop.Shareable] using hshare.1

theorem coalesce_kernel {loops merged : List Loop} (h : coalesce loops = .ok merged) :
    merged.filter Loop.isKernel = loops.filter Loop.isKernel := by
  replace h := merges_of_coalesce h
  induction h with
  | short hshort => rfl
  | @join outer inner rest merged hjoin hrest ih =>
    obtain ⟨houter, -, hexec, -⟩ := Loop.of_coalesces hjoin
    have hinner : inner.isKernel = false := by rw [← houter, Loop.isKernel, Loop.isKernel, hexec]
    have hmerged : ({ inner with size := inner.size * outer.size } : Loop).isKernel = false := hinner
    rw [ih, List.filter_cons, List.filter_cons, List.filter_cons, houter, hinner, hmerged]
    rfl
  | keep hkeep hrest ih => rw [List.filter_cons, ih, ← List.filter_cons]

theorem coalesce_shareable {loops merged : List Loop} (h : coalesce loops = .ok merged)
    (hshare : ∀ l ∈ loops, l.Shareable) : ∀ l ∈ merged, l.Shareable := by
  replace h := merges_of_coalesce h
  induction h with
  | short hshort => exact hshare
  | join hjoin hrest ih =>
    rw [List.forall_mem_cons, List.forall_mem_cons] at hshare
    exact ih (List.forall_mem_cons.2 hshare.2)
  | keep hkeep hrest ih =>
    rw [List.forall_mem_cons] at hshare
    exact List.forall_mem_cons.2 ⟨hshare.1, ih hshare.2⟩

theorem outerBefore_iff {a b : Loop} :
    outerBefore a b = true ↔ (a.exec = .shared ∧ b.exec ≠ .shared) ∨
      ((a.exec = .shared ↔ b.exec = .shared) ∧
        (b.strides.out < a.strides.out ∨
          a.strides.out = b.strides.out ∧ b.strides.in0 ≤ a.strides.in0)) := by
  unfold outerBefore
  by_cases ha : a.exec = .shared <;> by_cases hb : b.exec = .shared <;>
    by_cases hout : a.strides.out = b.strides.out <;> simp [ha, hb, hout]

theorem outerBefore_trans (a b c : Loop) (hab : outerBefore a b = true)
    (hbc : outerBefore b c = true) : outerBefore a c = true := by
  rw [outerBefore_iff] at hab hbc ⊢
  by_cases ha : a.exec = .shared <;> by_cases hb : b.exec = .shared <;>
    by_cases hc : c.exec = .shared <;> simp only [ha, hb, hc] at hab hbc ⊢ <;> simp at hab hbc ⊢ <;>
    omega

theorem outerBefore_total (a b : Loop) : (outerBefore a b || outerBefore b a) = true := by
  rw [Bool.or_eq_true, outerBefore_iff, outerBefore_iff]
  by_cases ha : a.exec = .shared <;> by_cases hb : b.exec = .shared <;> simp [ha, hb] <;> omega

theorem exists_shared_append {loops : List Loop}
    (hsorted : loops.Pairwise fun a b => outerBefore a b = true) :
    ∃ shared others, loops = shared ++ others ∧ (∀ l ∈ shared, l.exec = .shared) ∧
      ∀ l ∈ others, l.exec ≠ .shared := by
  induction loops with
  | nil => exact ⟨[], [], rfl, by simp, by simp⟩
  | cons l rest ih =>
    obtain ⟨hl, hrest⟩ := List.pairwise_cons.1 hsorted
    by_cases hexec : l.exec = .shared
    · obtain ⟨shared, others, rfl, hshared, hothers⟩ := ih hrest
      exact ⟨l :: shared, others, rfl, List.forall_mem_cons.2 ⟨hexec, hshared⟩, hothers⟩
    · refine ⟨[], l :: rest, rfl, by simp, List.forall_mem_cons.2 ⟨hexec, fun x hx hshared => ?_⟩⟩
      have hbefore := outerBefore_iff.1 (hl x hx)
      simp [hexec, hshared] at hbefore

theorem kernelRank_reduction {main : Primitive} {l : Loop} (hproduct : main.isProduct = true)
    (hrole : l.role = .k) : kernelRank main l = if l.strides.in1 = 1 then 3 else 0 := by
  simp only [kernelRank, hproduct, if_true, hrole]

theorem kernelRank_eq_zero_iff {main : Primitive} {l : Loop} (helementwise : main.isProduct = false)
    (hmain : main ≠ .none) : kernelRank main l = 0 ↔
      if main = .transpose then l.strides.in0 = 1
      else l.strides.out = 1 ∧ (main = .zero ∨ l.strides.in0 = 1) := by
  unfold kernelRank
  cases main with
  | none => exact absurd rfl hmain
  | gemm => cases helementwise
  | brgemm => cases helementwise
  | zero => simp [Primitive.isProduct]
  | copy => simp [Primitive.isProduct, and_comm]
  | relu => simp [Primitive.isProduct, and_comm]
  | transpose => simp [Primitive.isProduct]

def ranked (main : Primitive) (loops : List Loop) : List Loop :=
  loops.mergeSort fun a b => kernelRank main a ≤ kernelRank main b

theorem pairwise_ranked (main : Primitive) (loops : List Loop) :
    (ranked main loops).Pairwise fun a b => kernelRank main a ≤ kernelRank main b := by
  have hsorted : (ranked main loops).Pairwise
      fun a b => decide (kernelRank main a ≤ kernelRank main b) = true := by
    apply List.pairwise_mergeSort
    · intro a b c hab hbc
      rw [decide_eq_true_eq] at hab hbc ⊢
      exact hab.trans hbc
    · intro a b
      rw [Bool.or_eq_true, decide_eq_true_eq, decide_eq_true_eq]
      exact Nat.le_total _ _
  exact hsorted.imp fun h => of_decide_eq_true h

theorem ranked_perm (main : Primitive) (loops : List Loop) : (ranked main loops).Perm loops :=
  List.mergeSort_perm _ _

theorem ranked_pair (main : Primitive) (a b : Loop) :
    ranked main [a, b] = if kernelRank main a ≤ kernelRank main b then [a, b] else [b, a] := by
  simp [ranked, List.mergeSort, List.merge]

theorem filter_ranked {main : Primitive} {loops : List Loop} {p : Loop → Bool}
    (h : (loops.filter p).Pairwise fun a b => kernelRank main a ≤ kernelRank main b) :
    (ranked main loops).filter p = loops.filter p := by
  have hsub : (loops.filter p).Sublist (ranked main loops) := by
    apply List.sublist_mergeSort
    · intro a b c hab hbc
      rw [decide_eq_true_eq] at hab hbc ⊢
      exact hab.trans hbc
    · intro a b
      rw [Bool.or_eq_true, decide_eq_true_eq, decide_eq_true_eq]
      exact Nat.le_total _ _
    · exact h.imp fun h => decide_eq_true h
    · exact List.filter_sublist
  have hsub' := hsub.filter p
  rw [List.filter_filter] at hsub'
  simp only [Bool.and_self] at hsub'
  exact (hsub'.eq_of_length ((ranked_perm main loops).filter p).length_eq.symm).symm

theorem arrange_eq (main : Primitive) (loops : List Loop) (hshare : ∀ l ∈ loops, l.Shareable) :
    ∃ shared sequential,
      arrange main loops = shared ++ (sequential ++ ranked main (loops.filter Loop.isKernel)) ∧
      (∀ l ∈ shared, l.exec = .shared ∧ l.role ≠ .k ∧ l.strides.out ≠ 0) ∧
      ∀ l ∈ sequential, l.exec = .seq := by
  have hsorted := List.pairwise_mergeSort outerBefore_trans outerBefore_total
    (loops.filter fun l => !l.isKernel)
  obtain ⟨shared, others, hsplit, hshared, hothers⟩ := exists_shared_append hsorted
  have hmem : ∀ l ∈ shared ++ others, l ∈ loops ∧ l.isKernel = false := by
    intro l hl
    rw [← hsplit, List.mem_mergeSort, List.mem_filter] at hl
    simpa using hl
  refine ⟨shared, others, ?_, ?_, ?_⟩
  · rw [arrange, hsplit, List.append_assoc]
    rfl
  · intro l hl
    exact ⟨hshared l hl, hshare l (hmem l (List.mem_append_left _ hl)).1 (hshared l hl)⟩
  · intro l hl
    have hkernel := (hmem l (List.mem_append_right _ hl)).2
    exact (Loop.isKernel_eq_false_iff.1 hkernel).resolve_right (hothers l hl)

theorem splitAt_sequential {shared before : List Loop} (hshared : ∀ l ∈ shared, l.exec = .shared)
    (hbefore : ∀ l ∈ before, l.exec = .seq) :
    (shared ++ before).takeWhile (fun l => l.exec != .seq) = shared ∧
      (shared ++ before).dropWhile (fun l => l.exec != .seq) = before := by
  have hlead : ∀ l ∈ shared, (l.exec != .seq) = true := by
    intro l hl
    simp [hshared l hl]
  rw [List.takeWhile_append_of_pos hlead, List.dropWhile_append_of_pos hlead]
  cases before with
  | nil => simp
  | cons l rest => simp [hbefore l List.mem_cons_self]

theorem distribute_eq {shared sequential run : List Loop}
    (hshared : ∀ l ∈ shared, l.exec = .shared ∧ l.role ≠ .k ∧ l.strides.out ≠ 0)
    (hsequential : ∀ l ∈ sequential, l.exec = .seq) (hkernel : ∀ l ∈ run, l.exec = .prim) :
    ∃ shared' sequential',
      distribute (shared ++ (sequential ++ run)) = shared' ++ (sequential' ++ run) ∧
      (∀ l ∈ shared', l.exec = .shared ∧ l.role ≠ .k ∧ l.strides.out ≠ 0) ∧
      ∀ l ∈ sequential', l.exec = .seq := by
  have hlead : ∀ l ∈ shared, (!distributable l) = true := by
    intro l hl
    simp [distributable, (hshared l hl).1]
  -- only a sequential loop is distributed, and the first that can be is
  cases hfind : sequential.find? distributable with
  | none =>
    have hall : ∀ l ∈ shared ++ (sequential ++ run), (!distributable l) = true := by
      intro l hl
      rcases List.mem_append.1 hl with hl | hl
      · exact hlead l hl
      rcases List.mem_append.1 hl with hl | hl
      · simpa using List.find?_eq_none.1 hfind l hl
      · simp [distributable, hkernel l hl]
    refine ⟨shared, sequential, ?_, hshared, hsequential⟩
    rw [distribute, List.dropWhile_eq_nil_iff.2 hall]
  | some l =>
    obtain ⟨hl, before, after, rfl, hbefore⟩ := List.find?_eq_some_iff_append.1 hfind
    rw [List.forall_mem_append, List.forall_mem_cons] at hsequential
    have hfirst : ∀ x ∈ shared ++ before, (!distributable x) = true :=
      List.forall_mem_append.2 ⟨hlead, hbefore⟩
    have hmoves : l.exec = .seq ∧ l.role ≠ .k ∧ l.strides.out ≠ 0 := by
      simpa [distributable, and_assoc] using hl
    obtain ⟨htake, hdrop⟩ := splitAt_sequential (fun x hx => (hshared x hx).1) hsequential.1
    refine ⟨shared ++ [{ l with exec := .shared }], before ++ after, ?_, ?_, ?_⟩
    · have hloops : shared ++ (before ++ l :: after ++ run) =
          (shared ++ before) ++ l :: (after ++ run) := by simp
      rw [hloops, distribute, List.takeWhile_append_of_pos hfirst,
        List.dropWhile_append_of_pos hfirst, List.takeWhile_cons_of_neg (by simp [hl]),
        List.dropWhile_cons_of_neg (by simp [hl]), List.append_nil, htake, hdrop]
      simp
    · rw [List.forall_mem_append]
      exact ⟨hshared, by simpa using hmoves.2⟩
    · exact List.forall_mem_append.2 ⟨hsequential.1, hsequential.2.2⟩

theorem exec_ranked_piece (main : Primitive) (marked : List Loop) :
    ∀ l ∈ ranked main ((marked.filter Loop.isKernel).map Loop.piece), l.exec = .prim := by
  intro l hl
  rw [(ranked_perm _ _).mem_iff, List.mem_map] at hl
  obtain ⟨x, hx, rfl⟩ := hl
  simpa [Loop.isKernel] using (List.mem_filter.1 hx).2

/-- Normalized loops: shared ones that may be shared, sequential ones, and the ranked pieces of the
kernel's loops. -/
theorem normalize_loops {c normal : Contraction} {parallel : Bool} {marked : List Loop}
    (hmarked : c.chooseKernelLoops = .ok marked) (hshare : ∀ l ∈ marked, l.Shareable)
    (h : c.normalize parallel = .ok normal) :
    ∃ shared sequential,
      normal.loops = shared ++ (sequential ++
        ranked c.main ((marked.filter Loop.isKernel).map Loop.piece)) ∧
      (∀ l ∈ shared, l.exec = .shared ∧ l.role ≠ .k ∧ l.strides.out ≠ 0) ∧
      ∀ l ∈ sequential, l.exec = .seq := by
  simp only [normalize, bind_eq_ok_iff, pure_eq_ok_iff, lift_eq_ok_iff, hmarked, Except.ok.injEq,
    exists_eq_left'] at h
  obtain ⟨short, hshort, merged, hmerged, rfl⟩ := h
  have hkernel := (coalesce_kernel hmerged).trans (cutLong_kernel hshort)
  have hshare := coalesce_shareable hmerged (cutLong_shareable hshort hshare)
  obtain ⟨shared, sequential, harrange, hshared, hsequential⟩ := arrange_eq c.main merged hshare
  rw [hkernel] at harrange
  cases parallel with
  | false => exact ⟨shared, sequential, harrange, hshared, hsequential⟩
  | true =>
    obtain ⟨shared', sequential', hdistribute, h⟩ :=
      distribute_eq hshared hsequential (exec_ranked_piece c.main marked)
    exact ⟨shared', sequential', by simpa [harrange] using hdistribute, h⟩

theorem eq_of_normalize {c normal : Contraction} {parallel : Bool}
    (h : c.normalize parallel = .ok normal) : normal = { c with loops := normal.loops } := by
  simp only [normalize, bind_eq_ok_iff, pure_eq_ok_iff] at h
  obtain ⟨_, -, _, -, _, -, rfl⟩ := h
  rfl

theorem Regular.normalize {c normal : Contraction} {parallel : Bool} (hc : c.Regular)
    (h : c.normalize parallel = .ok normal) : normal.Regular := by
  have hregroups := normalize_regroups h
  have hsizes := hregroups.sizes_pos.2 hc.sizes
  rw [eq_of_normalize h]
  refine ⟨hc.dtype, hc.main, hc.first, hc.last, hsizes, ?_, ?_⟩
  · intro hproduct
    exact hregroups.independent_iff.2 (hc.independent hproduct)
  · intro operand
    have hfits := hc.fits operand
    rwa [span_eq, ← hregroups.reach_eq hsizes, ← span_eq] at hfits

theorem Regular.canonical_normalize {c normal : Contraction} {parallel : Bool} {marked : List Loop}
    {axes : KernelAxes} (hc : c.Regular) (hmarked : c.chooseKernelLoops = .ok marked)
    (hshare : ∀ l ∈ marked, l.Shareable) (h : c.normalize parallel = .ok normal)
    (hrun : KernelRun c.main (ranked c.main ((marked.filter Loop.isKernel).map Loop.piece)) axes) :
    ∃ shared sequential, normal.Canonical shared sequential
      (ranked c.main ((marked.filter Loop.isKernel).map Loop.piece)) axes := by
  obtain ⟨shared, sequential, hloops, hshared, hsequential⟩ := normalize_loops hmarked hshare h
  have hmain : normal.main = c.main := by rw [eq_of_normalize h]
  exact ⟨shared, sequential, hc.normalize h, hloops, hshared, hsequential,
    exec_ranked_piece c.main marked, hmain ▸ hrun⟩

end Contraction

end TensorKernels
