import TensorKernels.Proofs.Nest.Arrangement
import TensorKernels.Proofs.Nest.Extents

/-!
Normalizing a contraction whose loops are all sequential. The kernel's loops are chosen by strides and
roles alone, cut, ranked and put last, and what comes out is accepted: whichever loops were chosen, a
loop of unit stride ends where the kernel needs one. The plan has the extents of the loops given.
-/

namespace TensorKernels

open Nest

namespace Contraction

theorem getElem?_of_mem_zipIdx {loops : List Loop} {entry : Loop × ℕ} (h : entry ∈ loops.zipIdx) :
    loops[entry.2]? = some entry.1 :=
  List.mem_zipIdx_iff_getElem?.1 h

theorem zipIdx_increasing (loops : List Loop) :
    loops.zipIdx.Pairwise fun a b => a.2 < b.2 := by
  have hrange : (loops.zipIdx.map (·.2)).Pairwise (· < ·) := by
    rw [List.zipIdx_map_snd]
    exact List.pairwise_lt_range'
  exact List.pairwise_map.1 hrange

theorem of_findLoop {loops : List Loop} {skip : List ℕ} {p : Loop → Bool} {i : ℕ}
    (h : findLoop loops skip p = some i) :
    ∃ l, loops[i]? = some l ∧ p l = true ∧ i ∉ skip ∧
      ∀ j x, j < i → loops[j]? = some x → j ∉ skip → p x = false := by
  obtain ⟨⟨l, i'⟩, hfind, rfl⟩ := Option.map_eq_some_iff.1 h
  obtain ⟨hl, before, after, hsplit, hbefore⟩ := List.find?_eq_some_iff_append.1 hfind
  have hmem : (l, i') ∈ loops.zipIdx := by simp [hsplit]
  refine ⟨l, getElem?_of_mem_zipIdx hmem, by simp_all, by simp_all, ?_⟩
  intro j x hj hget hskip
  have hx : (x, j) ∈ loops.zipIdx := List.mem_zipIdx_iff_getElem?.2 hget
  have hincreasing := zipIdx_increasing loops
  rw [hsplit, List.pairwise_append, List.pairwise_cons] at hincreasing
  rw [hsplit, List.mem_append, List.mem_cons] at hx
  rcases hx with hx | hx | hx
  · simpa [hskip] using hbefore _ hx
  · cases hx
    exact absurd hj (Nat.lt_irrefl _)
  · have hlt : i' < j := hincreasing.2.1.1 _ hx
    omega

theorem foldl_least_mem {key : Loop → ℕ} {entries : List (Loop × ℕ)} {best : Option (Loop × ℕ)}
    {entry : Loop × ℕ}
    (h : entries.foldl (fun best entry =>
      match best with
      | none => some entry
      | some least => if key entry.1 < key least.1 then some entry else best) best = some entry) :
    entry ∈ entries ∨ best = some entry := by
  induction entries generalizing best with
  | nil => exact Or.inr h
  | cons first rest ih =>
    rw [List.foldl_cons] at h
    rcases ih h with hmem | hbest
    · exact Or.inl (List.mem_cons_of_mem _ hmem)
    · cases best with
      | none =>
        cases hbest
        exact Or.inl List.mem_cons_self
      | some least =>
        dsimp only at hbest
        split at hbest
        · cases hbest
          exact Or.inl List.mem_cons_self
        · exact Or.inr hbest

theorem of_minLoop {loops : List Loop} {skip : List ℕ} {p : Loop → Bool} {key : Loop → ℕ} {i : ℕ}
    (h : minLoop loops skip p key = some i) :
    ∃ l, loops[i]? = some l ∧ p l = true ∧ i ∉ skip := by
  obtain ⟨⟨l, i'⟩, hfold, rfl⟩ := Option.map_eq_some_iff.1 h
  rcases foldl_least_mem hfold with hmem | hnone
  · obtain ⟨hmem, hl⟩ := List.mem_filter.1 hmem
    exact ⟨l, getElem?_of_mem_zipIdx hmem, by simp_all, by simp_all⟩
  · cases hnone

theorem need_eq_ok_iff {which : PrimitiveLoop} {found : Option ℕ} {i : ℕ} :
    need which found = .ok i ↔ found = some i := by
  cases found with
  | none =>
    constructor
    · intro h
      cases h
    · intro h
      cases h
  | some j => simp [need]

def chosen (loops : List Loop) (positions : List ℕ) : List (Loop × ℕ) :=
  loops.zipIdx.filter fun entry => positions.contains entry.2

theorem chosen_perm {loops : List Loop} {entries : List (Loop × ℕ)}
    (hget : ∀ entry ∈ entries, loops[entry.2]? = some entry.1)
    (hnodup : (entries.map (·.2)).Nodup) : (chosen loops (entries.map (·.2))).Perm entries := by
  have hzip : loops.zipIdx.Nodup :=
    (zipIdx_increasing loops).imp fun hlt heq => by rw [heq] at hlt; exact Nat.lt_irrefl _ hlt
  rw [chosen, List.perm_ext_iff_of_nodup (hzip.filter _) hnodup.of_map]
  rintro ⟨l, i⟩
  rw [List.mem_filter, List.mem_zipIdx_iff_getElem?, List.contains_iff_mem]
  constructor
  · rintro ⟨hl, hi⟩
    obtain ⟨⟨x, j⟩, hmem, rfl⟩ := List.mem_map.1 hi
    have hx := hget _ hmem
    rw [hl] at hx
    cases hx
    exact hmem
  · intro hmem
    exact ⟨hget _ hmem, List.mem_map_of_mem hmem⟩

def taken (l : Loop) : Loop := ({ l with exec := .prim } : Loop).piece

@[simp] theorem role_taken (l : Loop) : (taken l).role = l.role := Loop.role_piece _

@[simp] theorem strides_taken (l : Loop) : (taken l).strides = l.strides := Loop.strides_piece _

theorem filter_markKernel {loops : List Loop} (hseq : ∀ l ∈ loops, l.exec = .seq)
    (positions : List ℕ) :
    ((markKernel loops positions).filter Loop.isKernel).map Loop.piece =
      (chosen loops positions).map fun entry => taken entry.1 := by
  have hmarked : (markKernel loops positions).filter Loop.isKernel =
      (chosen loops positions).map fun entry => { entry.1 with exec := .prim } := by
    rw [markKernel, List.mapIdx_eq_zipIdx_map, List.filter_map, chosen]
    have hkept : ∀ entry ∈ loops.zipIdx, (Loop.isKernel ∘ fun entry : Loop × ℕ =>
        if positions.contains entry.2 then { entry.1 with exec := .prim } else entry.1) entry =
          positions.contains entry.2 := by
      intro entry hmem
      have hexec := hseq entry.1 (List.mem_of_getElem? (getElem?_of_mem_zipIdx hmem))
      rw [Function.comp_apply]
      split
      · rename_i hc
        rw [hc]
        rfl
      · rename_i hc
        rw [Bool.not_eq_true] at hc
        rw [hc, Loop.isKernel_eq_false_iff]
        exact Or.inl hexec
    rw [List.filter_congr hkept]
    apply List.map_congr_left
    rintro ⟨l, i⟩ hmem
    exact if_pos (List.mem_filter.1 hmem).2
  rw [hmarked, List.map_map]
  rfl

section Product

structure ProductChoice (c : Contraction) (m n k : Loop × ℕ) (batch : Option (Loop × ℕ)) : Prop where
  get : ∀ entry ∈ [m, n, k] ++ batch.toList, c.loops[entry.2]? = some entry.1
  apart : (([m, n, k] ++ batch.toList).map (·.2)).Nodup
  roles : m.1.role = .m ∧ n.1.role = .n ∧ k.1.role = .k ∧ ∀ b ∈ batch, b.1.role = .k
  rowStrides : m.1.strides.in0 = 1 ∧ m.1.strides.out = 1
  reductionStride : k.1.strides.in1 = 1
  batch : batch.isSome = (c.main == .brgemm)

theorem index_ne_of_role {loops : List Loop} {a b : Loop × ℕ} (ha : loops[a.2]? = some a.1)
    (hb : loops[b.2]? = some b.1) (h : a.1.role ≠ b.1.role) : a.2 ≠ b.2 := by
  intro heq
  rw [heq, hb, Option.some_inj] at ha
  exact h (by rw [ha])

theorem of_productPositions {c : Contraction} {positions : List ℕ}
    (h : c.productPositions = .ok positions) :
    ∃ m n k batch, ProductChoice c m n k batch ∧
      positions = ([m, n, k] ++ batch.toList).map (·.2) := by
  simp only [productPositions, bind_eq_ok_iff, need_eq_ok_iff] at h
  obtain ⟨i, hm, j, hk, t, hn, h⟩ := h
  obtain ⟨m, hmget, hm, -, -⟩ := of_findLoop hm
  obtain ⟨k, hkget, hk, -, -⟩ := of_findLoop hk
  obtain ⟨n, hnget, hn, -⟩ := of_minLoop hn
  simp only [Bool.and_eq_true, beq_iff_eq, and_assoc] at hm hk hn
  have hmn : i ≠ t := index_ne_of_role (a := (m, i)) (b := (n, t)) hmget hnget (by simp [hm, hn])
  have hmk : i ≠ j := index_ne_of_role (a := (m, i)) (b := (k, j)) hmget hkget (by simp [hm, hk])
  have hnk : t ≠ j := index_ne_of_role (a := (n, t)) (b := (k, j)) hnget hkget (by simp [hn, hk])
  split at h
  · rename_i hmain
    simp only [bind_eq_ok_iff, need_eq_ok_iff, pure_eq_ok_iff] at h
    obtain ⟨s, hb, rfl⟩ := h
    obtain ⟨b, hbget, hb, hskip⟩ := of_minLoop hb
    simp only [beq_iff_eq] at hb
    refine ⟨(m, i), (n, t), (k, j), some (b, s), ⟨?_, ?_, ?_, hm.2, hk.2, ?_⟩, rfl⟩
    · simp [hmget, hkget, hnget, hbget]
    · simp only [List.mem_cons, List.not_mem_nil, or_false, not_or] at hskip
      simp [hmn, hmk, hnk, Ne.symm hskip.1, Ne.symm hskip.2.1, Ne.symm hskip.2.2]
    · simp [hm, hn, hk, hb]
    · simp [hmain]
  · rename_i hmain
    cases h
    refine ⟨(m, i), (n, t), (k, j), none, ⟨?_, ?_, ?_, hm.2, hk.2, ?_⟩, rfl⟩
    · simp [hmget, hkget, hnget]
    · simp [hmn, hmk, hnk]
    · simp [hm, hn, hk]
    · simpa using hmain

theorem exists_productRun {main : Primitive} {run : List Loop} {m n k : Loop} {batch : Option Loop}
    (hproduct : main.isProduct = true) (hrun : run.Perm ([m, n, k] ++ batch.toList))
    (hroles : m.role = .m ∧ n.role = .n ∧ k.role = .k ∧ ∀ b ∈ batch, b.role = .k)
    (hrow : m.strides.in0 = 1 ∧ m.strides.out = 1) (hdepth : k.strides.in1 = 1)
    (hbatch : batch.isSome = (main == .brgemm)) :
    ∃ axes k', ProductRun main (ranked main run) axes k' := by
  obtain ⟨hm, hn, hk, hb⟩ := hroles
  have found (role : Role) : (ofRoles (· == role) (ranked main run)).Perm
      (ofRoles (· == role) ([m, n, k] ++ batch.toList)) :=
    ((ranked_perm main run).trans hrun).filter _
  have hrows : ofRoles (· == .m) (ranked main run) = [m] := by
    have h := found .m
    cases batch <;> simp_all [ofRoles]
  have hcolumns : ofRoles (· == .n) (ranked main run) = [n] := by
    have h := found .n
    cases batch <;> simp_all [ofRoles]
  have hshared : ofRoles (· == .c) (ranked main run) = [] := by
    have h := found .c
    cases batch <;> simp_all [ofRoles]
  cases batch with
  | none =>
    have hreductions : ofRoles (· == .k) (ranked main run) = [k] := by
      have h := found .k
      simp_all [ofRoles]
    exact ⟨⟨m, n, some k, none⟩, k, rfl, hrows, hcolumns, hreductions, hshared, hbatch, hrow, hdepth⟩
  | some b =>
    have hperm : (ofRoles (· == .k) (ranked main run)).Perm [k, b] := by
      have h := found .k
      simp_all [ofRoles]
    have hsorted : (ofRoles (· == .k) (ranked main run)).Pairwise fun x y =>
        kernelRank main x ≤ kernelRank main y := (pairwise_ranked main run).filter _
    obtain ⟨x, y, hxy⟩ := List.length_eq_two.1 hperm.length_eq
    rw [hxy] at hperm hsorted
    have hrank : kernelRank main x ≤ kernelRank main y := by simpa using hsorted
    have hrole : y.role = .k := by
      have hmem : y ∈ [k, b] := hperm.subset (by simp)
      rcases List.mem_pair.1 hmem with rfl | rfl
      · exact hk
      · exact hb y rfl
    have hunit : y.strides.in1 = 1 := by
      rcases List.mem_pair.1 (hperm.symm.subset (List.mem_cons_self : k ∈ [k, b])) with rfl | rfl
      · -- the reduction stands first only if the other one ranks as high
        rw [kernelRank_reduction hproduct hk, kernelRank_reduction hproduct hrole, if_pos hdepth] at hrank
        split at hrank
        · assumption
        · omega
      · exact hdepth
    exact ⟨⟨m, n, some y, some x⟩, y, rfl, hrows, hcolumns, hxy, hshared, hbatch, hrow, hunit⟩

end Product

section Elementwise

structure ElementwiseChoice (c : Contraction) (m n : Loop × ℕ) : Prop where
  get : ∀ entry ∈ [m, n], c.loops[entry.2]? = some entry.1
  apart : ([m, n].map (·.2)).Nodup
  straight : c.main ≠ .transpose → m.1.strides.out = 1 ∧ (c.main = .zero ∨ m.1.strides.in0 = 1)
  transpose : c.main = .transpose → m.1.strides.in0 = 1 ∧ n.1.strides.out = 1
  firstContiguous : c.main = .transpose → n.2 < m.2 → n.1.strides.in0 ≠ 1

theorem of_elementwisePositions {c : Contraction} {positions : List ℕ}
    (h : c.elementwisePositions = .ok positions) :
    ∃ m n, ElementwiseChoice c m n ∧ positions = [m, n].map (·.2) := by
  have hpair {i j : ℕ} {m n : Loop} (hm : c.loops[i]? = some m) (hn : c.loops[j]? = some n)
      (hskip : j ∉ [i]) : (∀ entry ∈ [(m, i), (n, j)], c.loops[entry.2]? = some entry.1) ∧
        ([(m, i), (n, j)].map (·.2)).Nodup := by
    rw [List.mem_singleton] at hskip
    exact ⟨by simp [hm, hn], by simp [Ne.symm hskip]⟩
  unfold elementwisePositions at h
  dsimp only at h
  split at h
  · rename_i hmain
    simp only [bind_eq_ok_iff, need_eq_ok_iff, pure_eq_ok_iff] at h
    obtain ⟨i, hm, j, hn, rfl⟩ := h
    obtain ⟨m, hmget, hm, -, hfirst⟩ := of_findLoop hm
    obtain ⟨n, hnget, hn, hskip, -⟩ := of_findLoop hn
    obtain ⟨hget, hapart⟩ := hpair hmget hnget hskip
    refine ⟨(m, i), (n, j), ⟨hget, hapart, fun hne => absurd hmain hne, fun _ => ?_, ?_⟩, rfl⟩
    · exact ⟨by simpa using hm, by simpa using hn⟩
    · intro _ hlt
      simpa using hfirst j n hlt hnget (by simp)
  · rename_i hmain
    simp only [bind_eq_ok_iff, need_eq_ok_iff, pure_eq_ok_iff] at h
    obtain ⟨i, hm, j, hn, rfl⟩ := h
    obtain ⟨m, hmget, hm, -, -⟩ := of_findLoop hm
    obtain ⟨n, hnget, -, hskip⟩ := of_minLoop hn
    obtain ⟨hget, hapart⟩ := hpair hmget hnget hskip
    refine ⟨(m, i), (n, j), ⟨hget, hapart, fun _ => ⟨by simpa using hm, Or.inl hmain⟩, ?_, ?_⟩, rfl⟩
    · intro heq
      simp [hmain] at heq
    · intro heq
      simp [hmain] at heq
  · rename_i hne _
    simp only [bind_eq_ok_iff, need_eq_ok_iff, pure_eq_ok_iff] at h
    obtain ⟨i, hm, j, hn, rfl⟩ := h
    obtain ⟨m, hmget, hm, -, -⟩ := of_findLoop hm
    obtain ⟨n, hnget, -, hskip⟩ := of_minLoop hn
    obtain ⟨hget, hapart⟩ := hpair hmget hnget hskip
    simp only [Bool.and_eq_true, beq_iff_eq] at hm
    exact ⟨(m, i), (n, j), ⟨hget, hapart, fun _ => ⟨hm.2, Or.inr hm.1⟩, fun heq => absurd heq hne,
      fun heq => absurd heq hne⟩, rfl⟩

theorem eq_or_eq_of_perm_pair {α : Type} {a b : α} {run : List α} (h : run.Perm [a, b]) :
    run = [a, b] ∨ run = [b, a] := by
  obtain ⟨x, y, rfl⟩ := List.length_eq_two.1 h.length_eq
  rcases List.mem_pair.1 (h.subset (List.mem_cons_self : x ∈ [x, y])) with rfl | rfl
  · rw [List.perm_singleton.1 h.cons_inv.symm]
    exact Or.inl rfl
  · rw [List.perm_singleton.1 (h.trans (List.Perm.swap _ _ _)).cons_inv.symm]
    exact Or.inr rfl

theorem exists_elementwiseRun {main : Primitive} {run : List Loop} {m n : Loop}
    (helementwise : main.isProduct = false) (hmain : main ≠ .none)
    (hstraight : main ≠ .transpose → m.strides.out = 1 ∧ (main = .zero ∨ m.strides.in0 = 1))
    (htranspose : main = .transpose → m.strides.in0 = 1 ∧ n.strides.out = 1)
    (hrun : run = [m, n] ∨ run = [n, m] ∧ (main = .transpose → n.strides.in0 ≠ 1)) :
    ∃ axes, ElementwiseRun main (ranked main run) axes := by
  have leads (l : Loop) := kernelRank_eq_zero_iff (l := l) helementwise hmain
  have hm : kernelRank main m = 0 := by
    rw [leads]
    split
    · rename_i htr
      exact (htranspose htr).1
    · rename_i htr
      exact hstraight htr
  have hordered (h : ranked main run = [m, n]) : ∃ axes, ElementwiseRun main (ranked main run) axes :=
    ⟨⟨m, n, none, none⟩, ⟨rfl, rfl⟩, fun htr => ⟨h, hstraight htr⟩,
      fun htr => ⟨(htranspose htr).1, (htranspose htr).2, Or.inl h⟩⟩
  rcases hrun with rfl | ⟨rfl, hother⟩
  · exact hordered (by rw [ranked_pair, if_pos (by omega)])
  by_cases hn : kernelRank main n = 0
  · have htr : main ≠ .transpose := by
      intro htr
      rw [leads, if_pos htr] at hn
      exact hother htr hn
    rw [leads, if_neg htr] at hn
    refine ⟨⟨n, m, none, none⟩, ⟨rfl, rfl⟩, fun _ => ⟨?_, hn⟩, fun heq => absurd heq htr⟩
    rw [ranked_pair, if_pos (by rw [(leads n).2 (by rwa [if_neg htr])]; omega)]
  · exact hordered (by rw [ranked_pair, if_neg (by omega)])

theorem ElementwiseChoice.chosen_eq {c : Contraction} {m n : Loop × ℕ}
    (ec : ElementwiseChoice c m n) :
    chosen c.loops ([m, n].map (·.2)) = [m, n] ∨
      chosen c.loops ([m, n].map (·.2)) = [n, m] ∧
        (c.main = .transpose → n.1.strides.in0 ≠ 1) := by
  rcases eq_or_eq_of_perm_pair (chosen_perm ec.get ec.apart) with h | h
  · exact Or.inl h
  · refine Or.inr ⟨h, fun htr => ec.firstContiguous htr ?_⟩
    have hincreasing : (chosen c.loops ([m, n].map (·.2))).Pairwise fun a b => a.2 < b.2 :=
      (zipIdx_increasing c.loops).filter _
    rw [h] at hincreasing
    simpa using hincreasing

end Elementwise

section Sequential

variable {c : Contraction} {marked : List Loop} (hseq : ∀ l ∈ c.loops, l.exec = .seq)
include hseq

theorem exists_positions (h : c.chooseKernelLoops = .ok marked) :
    ∃ positions, marked = markKernel c.loops positions ∧
      (if c.main.isProduct then c.productPositions else c.elementwisePositions) = .ok positions := by
  have hnone : ¬c.loops.any Loop.isKernel = true := by
    rw [List.any_eq_true]
    rintro ⟨l, hl, hkernel⟩
    simp [Loop.isKernel, hseq l hl] at hkernel
  rw [chooseKernelLoops, if_neg hnone] at h
  split at h
  · rename_i hproduct
    obtain ⟨positions, hpositions, h⟩ := bind_eq_ok_iff.1 h
    cases h
    exact ⟨positions, rfl, by rw [if_pos hproduct]; exact hpositions⟩
  · rename_i hproduct
    obtain ⟨positions, hpositions, h⟩ := bind_eq_ok_iff.1 h
    cases h
    exact ⟨positions, rfl, by rw [if_neg hproduct]; exact hpositions⟩

theorem shareable_chosen (h : c.chooseKernelLoops = .ok marked) : ∀ l ∈ marked, l.Shareable := by
  obtain ⟨positions, rfl, -⟩ := exists_positions hseq h
  intro l hl hshared
  obtain ⟨i, hi, rfl⟩ := List.mem_mapIdx.1 hl
  split at hshared
  · cases hshared
  · rw [hseq _ (List.getElem_mem hi)] at hshared
    cases hshared

/-- The chosen loops, cut and ranked, are a run of the kernel. -/
theorem exists_kernelRun (hmain : c.main ≠ .none) (h : c.chooseKernelLoops = .ok marked) :
    ∃ axes, KernelRun c.main
      (ranked c.main ((marked.filter Loop.isKernel).map Loop.piece)) axes := by
  obtain ⟨positions, rfl, hpositions⟩ := exists_positions hseq h
  rw [filter_markKernel hseq]
  unfold KernelRun
  split at hpositions
  · rename_i hproduct
    obtain ⟨m, n, k, batch, pc, rfl⟩ := of_productPositions hpositions
    have hrun := (chosen_perm pc.get pc.apart).map fun entry => taken entry.1
    have hentries : ([m, n, k] ++ batch.toList).map (fun entry => taken entry.1) =
        [taken m.1, taken n.1, taken k.1] ++ (batch.map fun entry => taken entry.1).toList := by
      cases batch <;> rfl
    rw [hentries] at hrun
    have hroles : ∀ b ∈ batch.map (fun entry => taken entry.1), b.role = .k := by
      intro b hb
      obtain ⟨entry, hentry, rfl⟩ := Option.mem_map.1 hb
      rw [role_taken]
      exact pc.roles.2.2.2 entry hentry
    obtain ⟨axes, k', pr⟩ := exists_productRun hproduct hrun
      ⟨by simpa using pc.roles.1, by simpa using pc.roles.2.1, by simpa using pc.roles.2.2.1, hroles⟩
      (by simpa using pc.rowStrides) (by simpa using pc.reductionStride) (by simpa using pc.batch)
    refine ⟨axes, ?_⟩
    rw [if_pos hproduct]
    exact ⟨k', pr⟩
  · rename_i hproduct
    obtain ⟨m, n, ec, rfl⟩ := of_elementwisePositions hpositions
    generalize hrun : (chosen c.loops ([m, n].map (·.2))).map (fun entry => taken entry.1) = run
    have horder : run = [taken m.1, taken n.1] ∨
        run = [taken n.1, taken m.1] ∧ (c.main = .transpose → (taken n.1).strides.in0 ≠ 1) := by
      rw [← hrun]
      rcases ec.chosen_eq with h | ⟨h, hother⟩
      · exact Or.inl (by rw [h]; rfl)
      · exact Or.inr ⟨by rw [h]; rfl, by simpa using hother⟩
    obtain ⟨axes, er⟩ := exists_elementwiseRun (by simpa using hproduct) hmain
      (by simpa using ec.straight) (by simpa using ec.transpose) horder
    refine ⟨axes, ?_⟩
    rw [if_neg hproduct]
    exact er

end Sequential

/-- Whatever normalizing makes of a regular contraction of sequential loops is accepted. The extents
are the spans of the loops given, in the operands that the kernels touch. Shared loops lead, sequential
ones follow, and the row and reduction loops left to the kernel are short unless no short length
divides them. -/
theorem normalize_accepted {c normal : Contraction} {parallel : Bool} (hc : c.Regular)
    (hseq : ∀ l ∈ c.loops, l.exec = .seq) (h : c.normalize parallel = .ok normal) :
    ∃ p, Plan.ofContraction normal = .ok p ∧
      (∀ operand, p.extents.get operand =
        if c.main.touches operand then span c.loops operand else 0) ∧
      (∃ shared sequential kernel, normal.loops = shared ++ (sequential ++ kernel) ∧
        (∀ l ∈ shared, l.exec = .shared) ∧ (∀ l ∈ sequential, l.exec = .seq) ∧
        ∀ l ∈ kernel, l.exec = .prim) ∧
      ∀ l ∈ normal.loops, l.exec = .prim → l.role = .m ∨ l.role = .k →
        l.size ≤ 64 ∨ ∀ d, 2 ≤ d → d ≤ 64 → ¬d ∣ l.size := by
  obtain ⟨marked, hmarked⟩ : ∃ marked, c.chooseKernelLoops = .ok marked := by
    obtain ⟨marked, hmarked, -⟩ := bind_eq_ok_iff.1 h
    exact ⟨marked, hmarked⟩
  obtain ⟨axes, hrun⟩ := exists_kernelRun hseq hc.main hmarked
  obtain ⟨shared, sequential, hnormal⟩ :=
    hc.canonical_normalize hmarked (shareable_chosen hseq hmarked) h hrun
  obtain ⟨p, hp, -, -⟩ := hnormal.accepted
  have hmain : normal.main = c.main := by rw [eq_of_normalize h]
  refine ⟨p, hp, ?_, ⟨shared, sequential, _, hnormal.loops, fun l hl => (hnormal.shared l hl).1,
    hnormal.sequential, hnormal.kernel⟩, ?_⟩
  · intro operand
    rw [(Plan.derived_of_ofContraction hp).extents_get, hmain,
      (normalize_regroups h).reach_eq hnormal.regular.sizes, ← span_eq]
  · intro l hl hexec hrole
    rw [hnormal.loops, List.mem_append, List.mem_append] at hl
    rcases hl with hl | hl | hl
    · simp [(hnormal.shared l hl).1] at hexec
    · simp [hnormal.sequential l hl] at hexec
    · rw [(ranked_perm _ _).mem_iff, List.mem_map] at hl
      obtain ⟨x, hx, rfl⟩ := hl
      exact Loop.size_piece_le_or (List.mem_filter.1 hx).2 (by simpa using hrole)

def unitReductions : Contraction :=
  { main := .brgemm
    last := .relu
    loops := [⟨.n, .seq, 4, ⟨0, 8, 128⟩⟩, ⟨.k, .seq, 1, ⟨1024, 1, 0⟩⟩, ⟨.m, .seq, 128, ⟨1, 0, 1⟩⟩,
      ⟨.k, .seq, 8, ⟨128, 1, 0⟩⟩] }

theorem unitReductions_regular : unitReductions.Regular := by
  refine ⟨rfl, ?_, ⟨rfl, Or.inl rfl⟩, ⟨rfl, Or.inr rfl⟩, ?_, ?_, ?_⟩
  · intro h
    cases h
  · simp [unitReductions]
  · simp [unitReductions, Plan.independent]
  · intro operand
    cases operand <;> simp [unitReductions, span, Offsets.get, Count.limit]

theorem unitReductions_normalize_accepted :
    ∃ normal p, unitReductions.normalize true = .ok normal ∧
      Plan.ofContraction normal = .ok p ∧ p.extents.get .in0 = 1024 ∧ p.extents.get .in1 = 32 ∧
      p.extents.get .out = 512 ∧
      ∀ l ∈ normal.loops, l.exec = .prim → l.role = .m ∨ l.role = .k →
        l.size ≤ 64 ∨ ∀ d, 2 ≤ d → d ≤ 64 → ¬d ∣ l.size := by
  obtain ⟨normal, hnormal⟩ : ∃ normal, unitReductions.normalize true = .ok normal := by
    refine ⟨?_, ?_⟩
    rotate_left
    · cbv
      rfl
  have hseq : ∀ l ∈ unitReductions.loops, l.exec = .seq := by simp [unitReductions]
  obtain ⟨p, hp, hextents, -, hshort⟩ := normalize_accepted unitReductions_regular hseq hnormal
  exact ⟨normal, p, hnormal, hp, hextents .in0, hextents .in1, hextents .out, hshort⟩

end Contraction

end TensorKernels
