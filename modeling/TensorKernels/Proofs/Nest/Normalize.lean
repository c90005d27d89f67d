import TensorKernels.Nest.Normalize
import TensorKernels.Proofs.Nest.Regroup

/-!
Normalizing a contraction keeps what it computes. Every pass regroups the loops: choosing and
distributing loops change only how a loop is executed, cutting and merging replace neighbours of one
role by others that walk the same elements, and arranging permutes the loops.
-/

namespace TensorKernels

open Nest

namespace Loop

theorem of_pieceLength {size limit inner : ℕ} (h : pieceLength size limit = some inner) :
    inner ∣ size ∧ inner ≤ limit := by
  induction limit with
  | zero => simp [pieceLength] at h
  | succ limit ih =>
    simp only [pieceLength] at h
    split_ifs at h with h0 hd
    · cases h
      exact ⟨Nat.dvd_of_mod_eq_zero hd, Nat.le_refl _⟩
    · exact ⟨(ih h).1, (ih h).2.trans (Nat.le_succ limit)⟩

theorem cut_regroups {l : Loop} {parts : List Loop} (h : l.cut = .ok parts) :
    Regroups parts [l] := by
  unfold cut at h
  split at h
  · split at h
    · cases h
      exact Regroups.refl _
    · rename_i inner hinner
      simp only [bind_eq_ok_iff, pure_eq_ok_iff] at h
      obtain ⟨strides, hscale, rfl⟩ := h
      have hsize : inner * (l.size / inner) = l.size :=
        Nat.mul_div_cancel' (of_pieceLength hinner).1
      have hmerge := @Regroups.merge { l with exec := .seq, size := l.size / inner, strides }
        { l with size := inner } [] rfl (Offsets.eq_of_scale hscale)
      simp only [hsize] at hmerge
      exact hmerge
  · cases h
    exact Regroups.refl _

theorem covers_eq_ok_iff {outer inner size : ℕ} {b : Bool} :
    covers outer inner size = .ok b ↔
      inner * size < Count.limit ∧ b = (outer == inner * size) := by
  simp only [covers, bind_eq_ok_iff, pure_eq_ok_iff, Count.mul_eq_ok_iff]
  constructor
  · rintro ⟨_, ⟨rfl, hlt⟩, rfl⟩
    exact ⟨hlt, rfl⟩
  · rintro ⟨hlt, rfl⟩
    exact ⟨_, ⟨rfl, hlt⟩, rfl⟩

theorem of_coalesces {outer inner : Loop} (h : outer.coalesces inner = .ok true) :
    outer.isKernel = false ∧ outer.role = inner.role ∧ outer.exec = inner.exec ∧
      outer.strides = inner.size • inner.strides := by
  unfold coalesces at h
  split at h
  · cases h
  · rename_i hkind
    simp only [Bool.or_eq_true, bne_iff_ne, ne_eq, not_or, Decidable.not_not,
      Bool.not_eq_true] at hkind
    simp only [bind_eq_ok_iff, covers_eq_ok_iff] at h
    obtain ⟨b0, ⟨-, rfl⟩, h⟩ := h
    split at h
    · cases h
    · rename_i h0
      obtain ⟨b1, hb1, h⟩ := bind_eq_ok_iff.1 h
      obtain ⟨-, rfl⟩ := covers_eq_ok_iff.1 hb1
      split at h
      · cases h
      · rename_i h1
        obtain ⟨-, h2⟩ := covers_eq_ok_iff.1 h
        simp only [Bool.not_eq_true', beq_eq_false_iff_ne, ne_eq, Decidable.not_not] at h0 h1
        refine ⟨hkind.1.1, hkind.1.2, hkind.2, ?_⟩
        have h2 : outer.strides.out = inner.strides.out * inner.size := by simpa using h2.symm
        rw [Offsets.smul_def, Nat.mul_comm, ← h0, Nat.mul_comm, ← h1, Nat.mul_comm, ← h2]

end Loop

namespace Contraction

theorem markKernel_regroups (loops : List Loop) (positions : List ℕ) :
    Regroups (markKernel loops positions) loops := by
  apply Regroups.of_map_eq
  apply List.ext_getElem
  · simp [markKernel]
  · intro i h₁ h₂
    simp only [markKernel, List.getElem_map, List.getElem_mapIdx]
    split <;> rfl

theorem chooseKernelLoops_regroups {c : Contraction} {loops : List Loop}
    (h : c.chooseKernelLoops = .ok loops) : Regroups loops c.loops := by
  unfold chooseKernelLoops at h
  split at h
  · cases h
    exact Regroups.refl _
  · split at h
    · obtain ⟨positions, -, h⟩ := bind_eq_ok_iff.1 h
      cases h
      exact markKernel_regroups c.loops positions
    · obtain ⟨positions, -, h⟩ := bind_eq_ok_iff.1 h
      cases h
      exact markKernel_regroups c.loops positions

theorem cutLong_regroups {loops short : List Loop} (h : cutLong loops = .ok short) :
    Regroups short loops := by
  induction loops generalizing short with
  | nil =>
    cases h
    exact Regroups.refl _
  | cons l rest ih =>
    simp only [cutLong, bind_eq_ok_iff, pure_eq_ok_iff] at h
    obtain ⟨parts, hparts, tail, htail, rfl⟩ := h
    exact (Loop.cut_regroups hparts).append (ih htail)

inductive Merges : List Loop → List Loop → Prop
  | short {loops : List Loop} (hshort : loops.length ≤ 1) : Merges loops loops
  | join {outer inner : Loop} {rest merged : List Loop} (hjoin : outer.coalesces inner = .ok true)
      (hrest : Merges ({ inner with size := inner.size * outer.size } :: rest) merged) :
      Merges (outer :: inner :: rest) merged
  | keep {outer inner : Loop} {rest merged : List Loop} (hkeep : outer.coalesces inner = .ok false)
      (hrest : Merges (inner :: rest) merged) : Merges (outer :: inner :: rest) (outer :: merged)

theorem merges_of_coalesce {loops merged : List Loop} (h : coalesce loops = .ok merged) :
    Merges loops merged := by
  fun_induction coalesce loops generalizing merged with
  | case1 outer inner rest ih₁ ih₂ =>
    obtain ⟨joined, hjoined, h⟩ := bind_eq_ok_iff.1 h
    cases joined with
    | true =>
      obtain ⟨size, hsize, h⟩ := bind_eq_ok_iff.1 h
      obtain ⟨rfl, -⟩ := Count.mul_eq_ok_iff.1 hsize
      exact .join hjoined (ih₁ _ h)
    | false =>
      obtain ⟨tail, htail, h⟩ := bind_eq_ok_iff.1 h
      cases h
      exact .keep hjoined (ih₂ htail)
  | case2 loops hshort =>
    cases h
    refine .short ?_
    match loops, hshort with
    | [], _ => exact Nat.zero_le 1
    | [l], _ => exact le_rfl
    | outer :: inner :: rest, hshort => exact absurd rfl (hshort outer inner rest)

theorem coalesce_regroups {loops merged : List Loop} (h : coalesce loops = .ok merged) :
    Regroups merged loops := by
  replace h := merges_of_coalesce h
  induction h with
  | short hshort => exact Regroups.refl _
  | join hjoin hrest ih =>
    obtain ⟨-, hrole, -, hstrides⟩ := Loop.of_coalesces hjoin
    exact ih.trans (Regroups.merge _ hrole hstrides).symm
  | keep hkeep hrest ih => exact ih.cons _

theorem arrange_perm (main : Primitive) (loops : List Loop) : (arrange main loops).Perm loops := by
  unfold arrange
  have hsplit := List.filter_append_perm (fun l : Loop => !l.isKernel) loops
  simp only [Bool.not_not] at hsplit
  exact ((List.mergeSort_perm _ _).append (List.mergeSort_perm _ _)).trans hsplit

theorem distribute_regroups (loops : List Loop) : Regroups (distribute loops) loops := by
  unfold distribute
  simp only
  have hsplit := List.takeWhile_append_dropWhile (p := fun l => !distributable l) (l := loops)
  generalize loops.takeWhile (fun l => !distributable l) = before at hsplit ⊢
  split
  · exact Regroups.refl _
  · rename_i l after hdrop
    rw [hdrop] at hsplit
    rw [← hsplit]
    have hbefore := List.takeWhile_append_dropWhile (p := fun b : Loop => b.exec != .seq) (l := before)
    generalize before.takeWhile (fun b : Loop => b.exec != .seq) = lead at hbefore ⊢
    generalize before.dropWhile (fun b : Loop => b.exec != .seq) = follow at hbefore ⊢
    rw [← hbefore, List.append_assoc]
    apply Regroups.append_left
    exact (Regroups.reschedule l .shared _).trans (Regroups.of_perm List.perm_middle.symm)

theorem normalize_regroups {c normal : Contraction} {parallel : Bool}
    (h : c.normalize parallel = .ok normal) : Regroups normal.loops c.loops := by
  simp only [normalize, bind_eq_ok_iff, pure_eq_ok_iff, lift_eq_ok_iff] at h
  obtain ⟨marked, hmarked, short, hshort, merged, hmerged, rfl⟩ := h
  have hordered : Regroups (arrange c.main merged) c.loops :=
    ((Regroups.of_perm (arrange_perm c.main merged)).trans (coalesce_regroups hmerged)).trans
      ((cutLong_regroups hshort).trans (chooseKernelLoops_regroups hmarked))
  cases parallel with
  | true => exact (distribute_regroups _).trans hordered
  | false => exact hordered

theorem normalize_sameOffsets {c normal : Contraction} {parallel : Bool}
    (h : c.normalize parallel = .ok normal) : SameOffsets normal.loops c.loops :=
  (normalize_regroups h).sameOffsets

/-- Normalizing keeps the element type, the kernels and, for every role, the multiset of offsets that
the loops of that role address; so the whole nest addresses what it addressed before, reduction
loops as reduction loops and the others as the others. -/
theorem normalize_preserves_addressed {c normal : Contraction} {parallel : Bool}
    (h : c.normalize parallel = .ok normal) :
    (∀ role : Role, addressed (ofRoles (· == role) normal.loops) =
        addressed (ofRoles (· == role) c.loops)) ∧
      addressed normal.loops = addressed c.loops ∧
      addressed (ofRoles (· != .k) normal.loops) = addressed (ofRoles (· != .k) c.loops) ∧
      normal.dtype = c.dtype ∧ normal.main = c.main ∧ normal.first = c.first ∧
      normal.last = c.last := by
  have hsame := normalize_sameOffsets h
  have hall (loops : List Loop) : ofRoles (fun _ => true) loops = loops := by
    simp [ofRoles]
  have hwhole := Multiset.coe_eq_coe.2 (hsame fun _ => true)
  rw [hall, hall] at hwhole
  refine ⟨fun role => Multiset.coe_eq_coe.2 (hsame _), hwhole, Multiset.coe_eq_coe.2 (hsame _), ?_⟩
  simp only [normalize, bind_eq_ok_iff, pure_eq_ok_iff, lift_eq_ok_iff] at h
  obtain ⟨_, -, _, -, _, -, rfl⟩ := h
  exact ⟨rfl, rfl, rfl, rfl⟩

def splitColumns : Contraction :=
  { main := .gemm
    loops := [⟨.n, .seq, 4, ⟨0, 96, 256⟩⟩, ⟨.m, .seq, 128, ⟨1, 0, 1⟩⟩, ⟨.k, .seq, 96, ⟨128, 1, 0⟩⟩,
      ⟨.n, .seq, 2, ⟨0, 384, 1024⟩⟩, ⟨.n, .seq, 2, ⟨0, 192, 512⟩⟩] }

theorem splitColumns_normalize_addressed :
    ∃ normal, splitColumns.normalize true = .ok normal ∧ normal.loops.length = 6 ∧
      (∀ role : Role, addressed (ofRoles (· == role) normal.loops) =
        addressed (ofRoles (· == role) splitColumns.loops)) ∧
      addressed normal.loops = addressed splitColumns.loops := by
  obtain ⟨normal, hnormal, hlength⟩ :
      ∃ normal, splitColumns.normalize true = .ok normal ∧ normal.loops.length = 6 := by
    refine ⟨?_, ?_, ?_⟩
    rotate_left
    · cbv
      rfl
    · rfl
  have h := normalize_preserves_addressed hnormal
  exact ⟨normal, hnormal, hlength, h.1, h.2.1⟩

end Contraction

end TensorKernels
