import TensorKernels.Proofs.Nest.Renormalize

/-!
When normalizing an accepted contraction stays within counts. Cutting a loop scales its strides by less
than its size, so it stays where the extents are. Merging does not: it compares strides with the whole
size times a stride, one step beyond the farthest element, and multiplies the sizes of loops that move
in no operand, which nothing bounds. Where the loops outside the kernel leave room for both, normalizing
completes.
-/

namespace TensorKernels

open Nest

namespace Loop

/-- A loop that is not left whole to the kernel. -/
def isWalked (l : Loop) : Bool := !l.isKernel || decide (l.piece ≠ l)

def isIdle (l : Loop) : Bool := decide (l.strides = 0)

def idleSize (walked : Loop → Bool) (l : Loop) : ℕ :=
  if walked l && l.isIdle then l.size else 1

theorem idleSize_pos {walked : Loop → Bool} {l : Loop} (h : 0 < l.size) :
    0 < l.idleSize walked := by
  unfold idleSize
  split
  · exact h
  · exact Nat.one_pos

theorem get_eq_zero_of_isIdle {l : Loop} (h : l.isIdle = true) (operand : Operand) :
    l.strides.get operand = 0 := by
  rw [of_decide_eq_true h]
  cases operand <;> rfl

theorem exists_get_pos {l : Loop} (h : l.isIdle = false) : ∃ operand, 0 < l.strides.get operand := by
  by_contra hnone
  push Not at hnone
  have hin0 : l.strides.in0 = 0 := Nat.eq_zero_of_le_zero (hnone .in0)
  have hin1 : l.strides.in1 = 0 := Nat.eq_zero_of_le_zero (hnone .in1)
  have hout : l.strides.out = 0 := Nat.eq_zero_of_le_zero (hnone .out)
  apply of_decide_eq_false h
  rcases hs : l.strides with ⟨in0, in1, out⟩
  rw [hs] at hin0 hin1 hout
  dsimp only at hin0 hin1 hout
  rw [hin0, hin1, hout]
  rfl

theorem isIdle_of_smul {l other : Loop} {size : ℕ} (hsize : 0 < size)
    (h : l.strides = size • other.strides) : l.isIdle = other.isIdle := by
  cases hother : other.isIdle with
  | true =>
    have hzero : other.strides = 0 := of_decide_eq_true hother
    rw [isIdle, h, hzero, nsmul_zero]
    rfl
  | false =>
    obtain ⟨operand, hpos⟩ := exists_get_pos hother
    rw [← Bool.not_eq_true]
    intro hidle
    have hget := get_eq_zero_of_isIdle hidle operand
    rw [h, Offsets.get_smul] at hget
    have hmul := Nat.mul_pos hsize hpos
    omega

theorem exists_cut {l : Loop}
    (hfits : ∀ operand, (l.size - 1) * l.strides.get operand < Count.limit) :
    ∃ parts, l.cut = .ok parts := by
  unfold cut
  split
  · rename_i hlong
    simp only [Bool.and_eq_true, decide_eq_true_eq] at hlong
    split
    · exact ⟨_, rfl⟩
    · rename_i inner hinner
      have hle := (of_pieceLength hinner).2.trans (Nat.min_le_left _ _)
      have hscaled (operand : Operand) : l.strides.get operand * inner < Count.limit := by
        refine Nat.lt_of_le_of_lt ?_ (hfits operand)
        rw [Nat.mul_comm]
        exact Nat.mul_le_mul_right _ (by omega)
      simp only [Offsets.scale, bind_eq_ok_iff, Count.mul_eq_ok_iff, pure_eq_ok_iff]
      exact ⟨_, _, ⟨_, ⟨rfl, hscaled .in0⟩, _, ⟨rfl, hscaled .in1⟩, _, ⟨rfl, hscaled .out⟩, rfl⟩, rfl⟩
  · exact ⟨_, rfl⟩

theorem exists_coalesces {outer inner : Loop}
    (hfits : inner.isKernel = false →
      ∀ operand, inner.size * inner.strides.get operand < Count.limit) :
    ∃ joined, outer.coalesces inner = .ok joined := by
  unfold coalesces
  split
  · exact ⟨_, rfl⟩
  · rename_i hkind
    simp only [Bool.or_eq_true, bne_iff_ne, ne_eq, not_or, Decidable.not_not, Bool.not_eq_true] at hkind
    have hinner : inner.isKernel = false := by
      rw [isKernel, ← hkind.2]
      exact hkind.1.1
    have covered (stride operand) : covers stride (inner.strides.get operand) inner.size =
        .ok (stride == inner.strides.get operand * inner.size) := by
      rw [covers_eq_ok_iff, Nat.mul_comm]
      exact ⟨hfits hinner operand, rfl⟩
    have hin0 := covered outer.strides.in0 .in0
    have hin1 := covered outer.strides.in1 .in1
    have hout := covered outer.strides.out .out
    simp only [Offsets.get] at hin0 hin1 hout
    simp only [hin0, hin1, hout, bind, Except.bind]
    split
    · exact ⟨_, rfl⟩
    · split <;> exact ⟨_, rfl⟩

end Loop

namespace Nest

/-- Loops that leave room: no size times a stride leaves the counts, nor does the product of the sizes
of idle loops, among the loops looked at. -/
structure Roomy (walked : Loop → Bool) (loops : List Loop) : Prop where
  strides : ∀ l ∈ loops, walked l = true →
    ∀ operand, l.size * l.strides.get operand < Count.limit
  idle : (loops.map (Loop.idleSize walked)).prod < Count.limit

theorem Roomy.tail {walked : Loop → Bool} {l : Loop} {rest : List Loop} (h : Roomy walked (l :: rest))
    (hsize : 0 < l.size) : Roomy walked rest := by
  refine ⟨fun x hx => h.strides x (List.mem_cons_of_mem _ hx), Nat.lt_of_le_of_lt ?_ h.idle⟩
  rw [List.map_cons, List.prod_cons]
  exact Nat.le_mul_of_pos_left _ (Loop.idleSize_pos hsize)

theorem Roomy.mono {walked fewer : Loop → Bool} {loops : List Loop} (h : Roomy walked loops)
    (hsizes : ∀ l ∈ loops, 0 < l.size) (hfewer : ∀ l, fewer l = true → walked l = true) :
    Roomy fewer loops := by
  refine ⟨fun l hl hwalked => h.strides l hl (hfewer l hwalked), Nat.lt_of_le_of_lt ?_ h.idle⟩
  have hle (l : Loop) (hl : l ∈ loops) : l.idleSize fewer ≤ l.idleSize walked := by
    unfold Loop.idleSize
    split
    · rename_i hidle
      rw [Bool.and_eq_true] at hidle
      rw [if_pos (by rw [hfewer l hidle.1, hidle.2]; rfl)]
    · exact @Loop.idleSize_pos walked l (hsizes l hl)
  exact List.prod_map_le_prod_map₀ _ _ (fun _ _ => Nat.zero_le _) hle

theorem prod_idleSize_pos {walked : Loop → Bool} {loops : List Loop}
    (hsizes : ∀ l ∈ loops, 0 < l.size) : 0 < (loops.map (Loop.idleSize walked)).prod := by
  apply List.prod_pos
  intro size hmem
  obtain ⟨l, hl, rfl⟩ := List.mem_map.1 hmem
  exact Loop.idleSize_pos (hsizes l hl)

theorem isWalked_of_piece_eq {l : Loop} (h : l.piece = l) : l.isWalked = !l.isKernel := by
  simp [Loop.isWalked, h]

theorem isWalked_of_cut {l : Loop} (h : l.piece.size < l.size) : l.isWalked = true := by
  have hne : l.piece ≠ l := by
    intro heq
    rw [heq] at h
    exact Nat.lt_irrefl _ h
  simp [Loop.isWalked, hne]

theorem room_overPieces (l : Loop) (operand : Operand) :
    l.overPieces.size * l.overPieces.strides.get operand = l.size * l.strides.get operand := by
  have hsize : l.size / l.piece.size * l.piece.size = l.size :=
    Nat.div_mul_cancel (Loop.size_piece_dvd l)
  calc l.size / l.piece.size * (l.piece.size • l.strides).get operand
      = l.size / l.piece.size * l.piece.size * l.strides.get operand := by
        rw [Offsets.get_smul, Nat.mul_assoc]
    _ = l.size * l.strides.get operand := by rw [hsize]

theorem idleSize_overPieces {l : Loop} (hsize : 0 < l.size) (hcut : l.piece.size < l.size) :
    l.overPieces.idleSize (fun l => !l.isKernel) ≤ l.idleSize Loop.isWalked := by
  have hpiece : 0 < l.piece.size := Nat.pos_of_dvd_of_pos (Loop.size_piece_dvd l) hsize
  have hidle : l.overPieces.isIdle = l.isIdle := Loop.isIdle_of_smul hpiece rfl
  have hkernel : l.overPieces.isKernel = false := rfl
  simp only [Loop.idleSize, hidle, hkernel, isWalked_of_cut hcut]
  cases l.isIdle
  · exact Nat.le_refl _
  · exact Nat.div_le_self _ _

theorem Roomy.cutLong {loops short : List Loop} (h : Roomy Loop.isWalked loops)
    (hsizes : ∀ l ∈ loops, 0 < l.size) (hshort : Contraction.cutLong loops = .ok short) :
    Roomy (fun l => !l.isKernel) short := by
  suffices hboth : (∀ l ∈ short, l.isKernel = false →
      ∀ operand, l.size * l.strides.get operand < Count.limit) ∧
        (short.map (Loop.idleSize fun l => !l.isKernel)).prod ≤
          (loops.map (Loop.idleSize Loop.isWalked)).prod from
    ⟨fun l hl hwalked => hboth.1 l hl (by simpa using hwalked), Nat.lt_of_le_of_lt hboth.2 h.idle⟩
  induction loops generalizing short with
  | nil =>
    cases hshort
    simp
  | cons l rest ih =>
    rw [List.forall_mem_cons] at hsizes
    simp only [Contraction.cutLong, bind_eq_ok_iff, pure_eq_ok_iff] at hshort
    obtain ⟨parts, hparts, tail, htail, rfl⟩ := hshort
    obtain ⟨hstrides, hidle⟩ := ih (h.tail hsizes.1) hsizes.2 htail
    have hroom := h.strides l List.mem_cons_self
    rw [List.map_append, List.prod_append, List.map_cons, List.prod_cons]
    obtain ⟨rfl, hpiece⟩ | ⟨rfl, hkernel, hcut⟩ := Loop.cut_cases hparts
    · rw [isWalked_of_piece_eq hpiece] at hroom
      constructor
      · refine List.forall_mem_cons.2 ⟨fun hkernel => hroom (by simp [hkernel]), hstrides⟩
      · refine Nat.mul_le_mul ?_ hidle
        rw [List.map_singleton, List.prod_singleton, Loop.idleSize, Loop.idleSize,
          isWalked_of_piece_eq hpiece]
    · have hpiece : l.piece.isKernel = true := by rw [Loop.isKernel, Loop.exec_piece]; exact hkernel
      constructor
      · refine List.forall_mem_cons.2 ⟨?_, List.forall_mem_cons.2 ⟨?_, hstrides⟩⟩
        · intro _ operand
          rw [room_overPieces]
          exact hroom (isWalked_of_cut hcut) operand
        · intro hnot
          rw [hpiece] at hnot
          cases hnot
      · refine Nat.mul_le_mul ?_ hidle
        have hone : l.piece.idleSize (fun l => !l.isKernel) = 1 := by simp [Loop.idleSize, hpiece]
        rw [List.map_cons, List.map_singleton, List.prod_pair, hone, Nat.mul_one]
        exact idleSize_overPieces hsizes.1 hcut

section Merge

variable {outer inner : Loop} {rest : List Loop} (houter : outer.isKernel = false)
  (hexec : outer.exec = inner.exec) (hstrides : outer.strides = inner.size • inner.strides)
  (hinner : 0 < inner.size) (h : Roomy (fun l => !l.isKernel) (outer :: inner :: rest))
include houter hexec hstrides hinner h

theorem Roomy.merge :
    Roomy (fun l => !l.isKernel) ({ inner with size := inner.size * outer.size } :: rest) := by
  have hkernel : inner.isKernel = false := by rw [← houter, Loop.isKernel, Loop.isKernel, hexec]
  have hidle := Loop.isIdle_of_smul hinner hstrides
  constructor
  · intro l hl hwalked operand
    rcases List.mem_cons.1 hl with rfl | hl
    · have hroom := h.strides outer List.mem_cons_self (by simp [houter]) operand
      rw [hstrides, Offsets.get_smul] at hroom
      calc inner.size * outer.size * inner.strides.get operand
          = outer.size * (inner.size * inner.strides.get operand) := by
            rw [Nat.mul_comm inner.size, Nat.mul_assoc]
        _ < Count.limit := hroom
    · exact h.strides l (by simp [hl]) hwalked operand
  · have hprod := h.idle
    simp only [List.map_cons, List.prod_cons, ← Nat.mul_assoc] at hprod ⊢
    have hsize : Loop.idleSize (fun l => !l.isKernel) { inner with size := inner.size * outer.size } =
        outer.idleSize (fun l => !l.isKernel) * inner.idleSize fun l => !l.isKernel := by
      have hmerged : ({ inner with size := inner.size * outer.size } : Loop).isKernel = false := hkernel
      have hmerged' : ({ inner with size := inner.size * outer.size } : Loop).isIdle = inner.isIdle := rfl
      simp only [Loop.idleSize, houter, hkernel, hmerged, hmerged', hidle]
      cases inner.isIdle
      · rfl
      · exact Nat.mul_comm _ _
    rwa [hsize]

theorem Roomy.merged_size (hrest : ∀ l ∈ rest, 0 < l.size) :
    inner.size * outer.size < Count.limit := by
  have hkernel : inner.isKernel = false := by rw [← houter, Loop.isKernel, Loop.isKernel, hexec]
  have hidle := Loop.isIdle_of_smul hinner hstrides
  cases hcase : inner.isIdle with
  | true =>
    -- idle loops: their sizes are factors of the idle product
    have hprod := h.idle
    simp only [List.map_cons, List.prod_cons, Loop.idleSize, houter, hkernel, hidle, hcase] at hprod
    have hle := Nat.le_mul_of_pos_right (inner.size * outer.size)
      (@prod_idleSize_pos (fun l => !l.isKernel) rest hrest)
    refine Nat.lt_of_le_of_lt hle ?_
    rw [Nat.mul_comm inner.size, Nat.mul_assoc]
    exact hprod
  | false =>
    -- a stride that moves bounds the sizes by the room that the outer loop has
    obtain ⟨operand, hpos⟩ := Loop.exists_get_pos hcase
    have hroom := h.strides outer List.mem_cons_self (by simp [houter]) operand
    rw [hstrides, Offsets.get_smul] at hroom
    calc inner.size * outer.size ≤ inner.size * outer.size * inner.strides.get operand :=
          Nat.le_mul_of_pos_right _ hpos
      _ = outer.size * (inner.size * inner.strides.get operand) := by
          rw [Nat.mul_comm inner.size, Nat.mul_assoc]
      _ < Count.limit := hroom

end Merge

end Nest

namespace Contraction

theorem exists_cutLong {loops : List Loop}
    (hfits : ∀ l ∈ loops, ∀ operand, (l.size - 1) * l.strides.get operand < Count.limit) :
    ∃ short, cutLong loops = .ok short := by
  induction loops with
  | nil => exact ⟨[], rfl⟩
  | cons l rest ih =>
    rw [List.forall_mem_cons] at hfits
    obtain ⟨parts, hparts⟩ := Loop.exists_cut hfits.1
    obtain ⟨tail, htail⟩ := ih hfits.2
    refine ⟨parts ++ tail, ?_⟩
    simp only [cutLong, bind_eq_ok_iff, pure_eq_ok_iff]
    exact ⟨parts, hparts, tail, htail, rfl⟩

theorem exists_coalesce {loops : List Loop} (hsizes : ∀ l ∈ loops, 0 < l.size)
    (hroom : Roomy (fun l => !l.isKernel) loops) : ∃ merged, coalesce loops = .ok merged := by
  fun_induction coalesce loops with
  | case1 outer inner rest ih₁ ih₂ =>
    rw [List.forall_mem_cons, List.forall_mem_cons] at hsizes
    obtain ⟨houter, hinner, hrest⟩ := hsizes
    obtain ⟨joined, hjoined⟩ := @Loop.exists_coalesces outer inner fun hkernel operand =>
      hroom.strides inner (by simp) (by simp [hkernel]) operand
    cases joined with
    | true =>
      obtain ⟨hkernel, -, hexec, hstrides⟩ := Loop.of_coalesces hjoined
      have hsize := hroom.merged_size hkernel hexec hstrides hinner hrest
      obtain ⟨merged, hmerged⟩ := ih₁ (inner.size * outer.size)
        (List.forall_mem_cons.2 ⟨Nat.mul_pos hinner houter, hrest⟩)
        (hroom.merge hkernel hexec hstrides hinner)
      refine ⟨merged, bind_eq_ok_iff.2 ⟨true, hjoined, bind_eq_ok_iff.2 ?_⟩⟩
      exact ⟨_, Count.mul_eq_ok_iff.2 ⟨rfl, hsize⟩, hmerged⟩
    | false =>
      obtain ⟨tail, htail⟩ := ih₂ (List.forall_mem_cons.2 ⟨hinner, hrest⟩) (hroom.tail houter)
      exact ⟨outer :: tail, bind_eq_ok_iff.2 ⟨false, hjoined, bind_eq_ok_iff.2 ⟨tail, htail, rfl⟩⟩⟩
  | case2 loops hshort => exact ⟨loops, rfl⟩

/-- Normalizing completes where the loops, with the kernel's marked, leave room. -/
theorem exists_normalize {c : Contraction} {marked : List Loop}
    (hmarked : c.chooseKernelLoops = .ok marked) (hsizes : ∀ l ∈ marked, 0 < l.size)
    (hfits : ∀ l ∈ marked, ∀ operand, (l.size - 1) * l.strides.get operand < Count.limit)
    (hroom : Roomy Loop.isWalked marked) (parallel : Bool) :
    ∃ normal, c.normalize parallel = .ok normal := by
  obtain ⟨short, hshort⟩ := exists_cutLong hfits
  have hpieces := (cutLong_regroups hshort).sizes_pos.2 hsizes
  obtain ⟨merged, hmerged⟩ := exists_coalesce hpieces (hroom.cutLong hsizes hshort)
  simp only [normalize, bind_eq_ok_iff, pure_eq_ok_iff, lift_eq_ok_iff]
  exact ⟨_, marked, hmarked, short, hshort, merged, hmerged, rfl⟩

end Contraction

namespace Plan

theorem Derived.stride_fits {c : Contraction} {p : Plan} (d : Derived c p) :
    ∀ l ∈ c.loops, ∀ operand, (l.size - 1) * l.strides.get operand < Count.limit := by
  intro l hl operand
  have hfits := d.regular.fits operand
  have hle : (l.size - 1) * l.strides.get operand ≤
      (c.loops.map fun l => (l.size - 1) * l.strides.get operand).sum :=
    List.single_le_sum (fun x _ => Nat.zero_le x) _ (List.mem_map_of_mem hl)
  rw [span] at hfits
  omega

/-- Cutting the loops of an accepted contraction never leaves the counts. Normalizing does not either
if the loops that are not left whole to the kernel leave room; the plan it returns has the interface
of the one given. -/
theorem normalize_completes {c : Contraction} {p : Plan} (h : ofContraction c = .ok p)
    (parallel : Bool) :
    (∃ short, Contraction.cutLong c.loops = .ok short) ∧
      (Roomy Loop.isWalked c.loops → ∃ q, p.normalize parallel = .ok q ∧ SameInterface p q) := by
  have d := derived_of_ofContraction h
  obtain ⟨short, hshort⟩ := Contraction.exists_cutLong d.stride_fits
  refine ⟨⟨short, hshort⟩, fun hroom => ?_⟩
  have hsizes := (Contraction.cutLong_regroups hshort).sizes_pos.2 d.sizes
  obtain ⟨merged, hmerged⟩ := Contraction.exists_coalesce hsizes (hroom.cutLong d.sizes hshort)
  obtain ⟨normal, hnormal⟩ : ∃ normal, c.normalize parallel = .ok normal := by
    simp only [Contraction.normalize, bind_eq_ok_iff, pure_eq_ok_iff, lift_eq_ok_iff]
    exact ⟨_, c.loops, d.chooseKernelLoops_eq, short, hshort, merged, hmerged, rfl⟩
  obtain ⟨q, hq, hsame⟩ := d.normalize hnormal
  refine ⟨q, ?_, hsame⟩
  rw [Plan.normalize, d.contraction, hnormal]
  exact hq

def stridedCopy (stride : ℕ) : Contraction :=
  { main := .copy
    loops := [⟨.n, .seq, 2, ⟨0, 0, 16⟩⟩, ⟨.n, .seq, 2, ⟨stride, 0, 8⟩⟩, ⟨.m, .prim, 4, ⟨1, 0, 1⟩⟩,
      ⟨.n, .prim, 2, ⟨4, 0, 4⟩⟩] }

theorem stridedCopy_normalize_completes :
    ∃ p q, ofContraction (stridedCopy (2 ^ 63 - 1)) = .ok p ∧ p.normalize true = .ok q ∧
      SameInterface p q := by
  obtain ⟨p, hp⟩ : ∃ p, ofContraction (stridedCopy (2 ^ 63 - 1)) = .ok p := by
    refine ⟨?_, ?_⟩
    rotate_left
    · cbv
      rfl
  have hroom : Roomy Loop.isWalked (stridedCopy (2 ^ 63 - 1)).loops := by
    constructor
    · intro l hl hwalked operand
      simp only [stridedCopy, List.mem_cons, List.not_mem_nil, or_false] at hl
      rcases hl with rfl | rfl | rfl | rfl <;> cases operand <;> decide
    · decide
  obtain ⟨q, hq, hsame⟩ := (normalize_completes hp true).2 hroom
  exact ⟨p, q, hp, hq, hsame⟩

/-- One more and the comparison of two sequential loops overflows, though the extents fit. -/
theorem stridedCopy_normalize_overflows :
    ∃ p, ofContraction (stridedCopy (2 ^ 63)) = .ok p ∧
      ∀ parallel, p.normalize parallel = .error (.overflow .mul) := by
  refine ⟨?_, ?_, ?_⟩
  rotate_left
  · cbv
    rfl
  · intro parallel
    cases parallel <;> cbv

end Plan

end TensorKernels
