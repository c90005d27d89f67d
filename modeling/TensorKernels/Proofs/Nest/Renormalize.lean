import TensorKernels.Proofs.Nest.Arrangement

/-!
Normalizing an accepted contraction, any number of times. Its kernel loops are marked already, so only
an overflow of checked arithmetic can stop a pass. Otherwise the result is accepted again, and all
that a caller sees of the kernel stays: the strides handed to it, the extents of the operands, whether
the output elements are distinct, and which loop is which in the kernel, up to the length of its pieces.
-/

namespace TensorKernels

open Nest

/-- A loop of the kernel that was cut, perhaps several times. -/
structure Loop.PieceOf (part whole : Loop) : Prop where
  role : part.role = whole.role
  exec : part.exec = whole.exec
  strides : part.strides = whole.strides
  size : part.size ∣ whole.size

namespace Loop.PieceOf

theorem refl (l : Loop) : l.PieceOf l := ⟨rfl, rfl, rfl, Nat.dvd_refl _⟩

theorem trans {a b c : Loop} (h₁ : a.PieceOf b) (h₂ : b.PieceOf c) : a.PieceOf c :=
  ⟨h₁.role.trans h₂.role, h₁.exec.trans h₂.exec, h₁.strides.trans h₂.strides, h₁.size.trans h₂.size⟩

theorem piece (l : Loop) : l.piece.PieceOf l :=
  ⟨role_piece l, exec_piece l, strides_piece l, size_piece_dvd l⟩

end Loop.PieceOf

structure KernelAxes.PiecesOf (parts whole : KernelAxes) : Prop where
  m : parts.m.PieceOf whole.m
  n : parts.n.PieceOf whole.n
  k : Option.Rel Loop.PieceOf parts.k whole.k
  batch : Option.Rel Loop.PieceOf parts.batch whole.batch

namespace KernelAxes.PiecesOf

theorem refl (axes : KernelAxes) : axes.PiecesOf axes := by
  have hoption (l : Option Loop) : Option.Rel Loop.PieceOf l l := by
    cases l with
    | none => exact Option.Rel.none
    | some l => exact Option.Rel.some (Loop.PieceOf.refl l)
  exact ⟨Loop.PieceOf.refl _, Loop.PieceOf.refl _, hoption _, hoption _⟩

theorem trans {a b c : KernelAxes} (h₁ : a.PiecesOf b) (h₂ : b.PiecesOf c) : a.PiecesOf c := by
  have hoption {x y z : Option Loop} (hxy : Option.Rel Loop.PieceOf x y)
      (hyz : Option.Rel Loop.PieceOf y z) : Option.Rel Loop.PieceOf x z := by
    cases hxy with
    | none => exact hyz
    | some hxy =>
      cases hyz with
      | some hyz => exact Option.Rel.some (hxy.trans hyz)
  exact ⟨h₁.m.trans h₂.m, h₁.n.trans h₂.n, hoption h₁.k h₂.k, hoption h₁.batch h₂.batch⟩

theorem piece (axes : KernelAxes) : (axes.map Loop.piece).PiecesOf axes := by
  have hoption (l : Option Loop) : Option.Rel Loop.PieceOf (l.map Loop.piece) l := by
    cases l with
    | none => exact Option.Rel.none
    | some l => exact Option.Rel.some (Loop.PieceOf.piece l)
  exact ⟨Loop.PieceOf.piece _, Loop.PieceOf.piece _, hoption _, hoption _⟩

end KernelAxes.PiecesOf

section Pieces

variable {main : Primitive} {run : List Loop} {axes : KernelAxes}

theorem kernelRank_piece (main : Primitive) (l : Loop) :
    Contraction.kernelRank main l.piece = Contraction.kernelRank main l := by
  simp only [Contraction.kernelRank, Loop.role_piece, Loop.strides_piece]

theorem ofRoles_map_piece (kept : Role → Bool) (loops : List Loop) :
    ofRoles kept (loops.map Loop.piece) = (ofRoles kept loops).map Loop.piece := by
  rw [ofRoles, ofRoles, List.filter_map]
  simp only [Function.comp_def, Loop.role_piece]

theorem ofRoles_ranked_piece {role : Role} {found : List Loop}
    (hfound : ofRoles (· == role) run = found)
    (hsorted : found.Pairwise fun a b =>
      Contraction.kernelRank main a ≤ Contraction.kernelRank main b) :
    ofRoles (· == role) (Contraction.ranked main (run.map Loop.piece)) = found.map Loop.piece := by
  have hpieces := ofRoles_map_piece (· == role) run
  rw [hfound] at hpieces
  rw [← hpieces]
  apply Contraction.filter_ranked
  have hmap : (found.map Loop.piece).Pairwise fun a b =>
      Contraction.kernelRank main a ≤ Contraction.kernelRank main b := by
    rw [List.pairwise_map]
    simpa only [kernelRank_piece] using hsorted
  rwa [← hpieces] at hmap

theorem ProductRun.piece {k : Loop} (hproduct : main.isProduct = true)
    (pr : ProductRun main run axes k) :
    ProductRun main (Contraction.ranked main (run.map Loop.piece)) (axes.map Loop.piece) k.piece := by
  have hk : k.role = .k := by
    have hmem : k ∈ ofRoles (· == .k) run := by simp [pr.reductions]
    simpa [ofRoles] using (List.mem_filter.1 hmem).2
  have hlast : Contraction.kernelRank main k = 3 := by
    rw [Contraction.kernelRank_reduction hproduct hk, if_pos pr.reductionStride]
  -- the reduction has the highest rank of its role, so the batch stays ahead of it
  have hsorted : (axes.batch.toList ++ [k]).Pairwise fun a b =>
      Contraction.kernelRank main a ≤ Contraction.kernelRank main b := by
    cases hbatch : axes.batch with
    | none => simp
    | some b =>
      have hb : b.role = .k := by
        have hmem : b ∈ ofRoles (· == .k) run := by simp [pr.reductions, hbatch]
        simpa [ofRoles] using (List.mem_filter.1 hmem).2
      have hle : Contraction.kernelRank main b ≤ 3 := by
        rw [Contraction.kernelRank_reduction hproduct hb]
        split <;> omega
      simp [hlast, hle]
  refine ⟨?_, ?_, ?_, ?_, ?_, ?_, ?_, ?_⟩
  · simp [KernelAxes.map, pr.reduction]
  · exact ofRoles_ranked_piece pr.rows (List.pairwise_singleton _ _)
  · exact ofRoles_ranked_piece pr.columns (List.pairwise_singleton _ _)
  · rw [ofRoles_ranked_piece pr.reductions hsorted]
    cases hbatch : axes.batch <;> simp [KernelAxes.map, hbatch]
  · exact ofRoles_ranked_piece pr.noShared List.Pairwise.nil
  · rw [← pr.batch]
    exact Option.isSome_map
  · simpa [KernelAxes.map] using pr.rowStrides
  · simpa using pr.reductionStride

theorem ElementwiseRun.rank_m (helementwise : main.isProduct = false) (hmain : main ≠ .none)
    (er : ElementwiseRun main run axes) : Contraction.kernelRank main axes.m = 0 := by
  rw [Contraction.kernelRank_eq_zero_iff helementwise hmain]
  split
  · rename_i htr
    exact (er.transpose htr).1
  · rename_i htr
    exact (er.straight htr).2

theorem ElementwiseRun.piece (helementwise : main.isProduct = false) (hmain : main ≠ .none)
    (er : ElementwiseRun main run axes) :
    ElementwiseRun main (Contraction.ranked main (run.map Loop.piece)) (axes.map Loop.piece) := by
  have hfirst : Contraction.kernelRank main axes.m.piece = 0 := by
    rw [kernelRank_piece, er.rank_m helementwise hmain]
  have hkept : Contraction.ranked main [axes.m.piece, axes.n.piece] =
      [axes.m.piece, axes.n.piece] := by
    rw [Contraction.ranked_pair, if_pos (by omega)]
  refine ⟨?_, ?_, ?_⟩
  · simp [KernelAxes.map, er.noReduction]
  · intro htr
    obtain ⟨hrun, hout, hin⟩ := er.straight htr
    subst hrun
    exact ⟨hkept, by simpa [KernelAxes.map] using hout, by simpa [KernelAxes.map] using hin⟩
  · intro htr
    obtain ⟨hin, hout, hrun⟩ := er.transpose htr
    refine ⟨by simpa [KernelAxes.map] using hin, by simpa [KernelAxes.map] using hout, Or.inl ?_⟩
    rcases hrun with rfl | ⟨rfl, hother⟩
    · exact hkept
    · -- the row loop comes second only if it alone is contiguous, and is moved ahead
      have hsecond : Contraction.kernelRank main axes.n.piece ≠ 0 := by
        rwa [kernelRank_piece, ne_eq, Contraction.kernelRank_eq_zero_iff helementwise hmain,
          if_pos htr]
      exact (Contraction.ranked_pair main _ _).trans (if_neg (by omega))

theorem KernelRun.piece (hmain : main ≠ .none) (h : KernelRun main run axes) :
    KernelRun main (Contraction.ranked main (run.map Loop.piece)) (axes.map Loop.piece) := by
  unfold KernelRun at h ⊢
  split at h
  · rename_i hproduct
    rw [if_pos hproduct]
    obtain ⟨k, pr⟩ := h
    exact ⟨k.piece, pr.piece hproduct⟩
  · rename_i hproduct
    rw [if_neg hproduct]
    exact h.piece (by simpa using hproduct) hmain

end Pieces

namespace Contraction

theorem Canonical.filter_isKernel {c : Contraction} {shared sequential run : List Loop}
    {axes : KernelAxes} (hc : c.Canonical shared sequential run axes) : c.loops.filter Loop.isKernel = run := by
  rw [hc.loops, List.filter_append, List.filter_append, List.filter_eq_nil_iff.2,
    List.filter_eq_nil_iff.2, List.filter_eq_self.2]
  · rfl
  · intro l hl
    simp [Loop.isKernel, hc.kernel l hl]
  · intro l hl
    simp [Loop.isKernel, hc.sequential l hl]
  · intro l hl
    simp [Loop.isKernel, (hc.shared l hl).1]

theorem Canonical.shareable {c : Contraction} {shared sequential run : List Loop}
    {axes : KernelAxes} (hc : c.Canonical shared sequential run axes) : ∀ l ∈ c.loops, l.Shareable := by
  intro l hl hexec
  rw [hc.loops, List.mem_append, List.mem_append] at hl
  rcases hl with hl | hl | hl
  · exact (hc.shared l hl).2
  · simp [hc.sequential l hl] at hexec
  · simp [hc.kernel l hl] at hexec

theorem overflow_of_normalize {c : Contraction} {marked : List Loop} {parallel : Bool} {e : Error}
    (hmarked : c.chooseKernelLoops = .ok marked) (h : c.normalize parallel = .error e) :
    ∃ operation, e = .overflow operation := by
  simp only [normalize, bind_eq_error_iff, lift_eq_error_iff, hmarked, reduceCtorEq, false_or] at h
  obtain ⟨_, -, ⟨operation, -, he⟩ | ⟨_, -, ⟨operation, -, he⟩ | ⟨_, -, he⟩⟩⟩ := h
  · exact ⟨operation, he⟩
  · exact ⟨operation, he⟩
  · cases he

end Contraction

namespace Plan

/-- What a caller sees of a plan, apart from how its loops are arranged. -/
structure SameInterface (p q : Plan) : Prop where
  kinds : q.contraction = { p.contraction with loops := q.contraction.loops }
  strides : q.strides = p.strides
  extents : q.extents = p.extents
  outputDistinct : q.outputDistinct = p.outputDistinct
  kernel : q.kernelLoops.axes.PiecesOf p.kernelLoops.axes

namespace SameInterface

theorem refl (p : Plan) : SameInterface p p := ⟨rfl, rfl, rfl, rfl, KernelAxes.PiecesOf.refl _⟩

theorem trans {p q r : Plan} (h₁ : SameInterface p q) (h₂ : SameInterface q r) :
    SameInterface p r := by
  refine ⟨?_, h₂.strides.trans h₁.strides, h₂.extents.trans h₁.extents,
    h₂.outputDistinct.trans h₁.outputDistinct, h₂.kernel.trans h₁.kernel⟩
  rw [h₂.kinds, h₁.kinds]

end SameInterface

section Accepted

variable {c : Contraction} {p : Plan}

theorem Derived.chooseKernelLoops_eq (d : Derived c p) : c.chooseKernelLoops = .ok c.loops := by
  obtain ⟨shared, sequential, run, hc⟩ := d.canonical
  obtain ⟨l, hl⟩ := List.exists_mem_of_ne_nil run hc.axes.ne_nil
  have hany : c.loops.any Loop.isKernel = true := by
    rw [List.any_eq_true, hc.loops]
    exact ⟨l, by simp [hl], by simp [Loop.isKernel, hc.kernel l hl]⟩
  rw [Contraction.chooseKernelLoops, if_pos hany]

theorem Derived.overflow_of_normalize (d : Derived c p) {parallel : Bool} {e : Error}
    (h : c.normalize parallel = .error e) : ∃ operation, e = .overflow operation :=
  Contraction.overflow_of_normalize d.chooseKernelLoops_eq h

/-- One normalization: what it returns is accepted, with the interface unchanged. -/
theorem Derived.normalize (d : Derived c p) {parallel : Bool} {normal : Contraction}
    (h : c.normalize parallel = .ok normal) :
    ∃ q, ofContraction normal = .ok q ∧ SameInterface p q := by
  obtain ⟨shared, sequential, run, hc⟩ := d.canonical
  have hrun := hc.axes.piece d.main
  rw [← hc.filter_isKernel] at hrun
  obtain ⟨shared', sequential', hnormal⟩ :=
    d.regular.canonical_normalize d.chooseKernelLoops_eq hc.shareable h hrun
  obtain ⟨q, hq, haxes, hstrides⟩ := hnormal.accepted
  have dq := derived_of_ofContraction hq
  have hkinds := Contraction.eq_of_normalize h
  have hmain : normal.main = c.main := by rw [hkinds]
  have hregroups := Contraction.normalize_regroups h
  have hsizes := hnormal.regular.sizes
  refine ⟨q, hq, ?_, ?_, ?_, ?_, ?_⟩
  · rw [dq.contraction, d.contraction]
    exact hkinds
  · rw [hstrides, hmain, KernelAxes.strides_map Loop.strides_piece, d.strides_eq]
  · rw [dq.extents_eq.1, d.extents_eq.1, hmain, hregroups.reach_eq hsizes]
  · rw [dq.outputDistinct, d.outputDistinct, hregroups.outputNests_eq hsizes]
  · rw [haxes]
    exact KernelAxes.PiecesOf.piece _

end Accepted

/-- An accepted contraction can be normalized any number of times, sharing loops or not. Unless checked
arithmetic overflows on the way every plan is accepted, and its interface is that of the first. -/
theorem repeated_normalize_keeps_interface {c : Contraction} {p : Plan}
    (h : ofContraction c = .ok p) (options : List Bool)
    (hfits : ∀ operation, options.foldlM normalize p ≠ .error (.overflow operation)) :
    ∃ q, options.foldlM normalize p = .ok q ∧ SameInterface p q := by
  induction options generalizing c p with
  | nil => exact ⟨p, rfl, SameInterface.refl p⟩
  | cons parallel rest ih =>
    have d := derived_of_ofContraction h
    rw [List.foldlM_cons, Plan.normalize, d.contraction] at hfits ⊢
    cases hnormal : c.normalize parallel with
    | error e =>
      obtain ⟨operation, rfl⟩ := d.overflow_of_normalize hnormal
      rw [hnormal] at hfits
      exact absurd rfl (hfits operation)
    | ok normal =>
      obtain ⟨q, hq, hsame⟩ := d.normalize hnormal
      have hstep : (Except.ok normal >>= ofContraction) = .ok q := hq
      rw [hnormal, hstep] at hfits
      obtain ⟨r, hr, hrest⟩ := ih hq hfits
      rw [hstep]
      exact ⟨r, hr, hsame.trans hrest⟩

def longBatch : Contraction :=
  { main := .brgemm
    first := .zero
    loops := [⟨.n, .seq, 4, ⟨0, 480, 288⟩⟩, ⟨.k, .prim, 2, ⟨7680, 80, 0⟩⟩, ⟨.m, .prim, 96, ⟨1, 0, 1⟩⟩,
      ⟨.n, .prim, 3, ⟨0, 160, 96⟩⟩, ⟨.k, .prim, 80, ⟨96, 1, 0⟩⟩] }

theorem longBatch_keeps_interface :
    ∃ p q, ofContraction longBatch = .ok p ∧ [true, false, true].foldlM normalize p = .ok q ∧
      q.contraction.loops.length = 7 ∧ SameInterface p q := by
  obtain ⟨p, q, hp, hq, hlength⟩ : ∃ p q, ofContraction longBatch = .ok p ∧
      [true, false, true].foldlM normalize p = .ok q ∧ q.contraction.loops.length = 7 := by
    refine ⟨?_, ?_, ?_, ?_, ?_⟩
    rotate_left 2
    · cbv
      rfl
    · cbv
      rfl
    · rfl
  obtain ⟨r, hr, hsame⟩ := repeated_normalize_keeps_interface hp [true, false, true] (by
    intro operation
    rw [hq]
    exact fun heq => by cases heq)
  rw [hq] at hr
  cases hr
  exact ⟨p, q, hp, hq, hlength, hsame⟩

end Plan

end TensorKernels
