import TensorKernels.Proofs.Nest.Indices
import TensorKernels.Proofs.Nest.Tasks

/-!
First and last contributions to an output block. The visits of one block are those that agree on the
indices of all outer loops but the reductions. Entering a reduction loop keeps the opening flag at
its first index only and the closing flag at its last index only, while any other loop keeps both;
so the first visit of a block is the only one that opens it and the last is the only one that
closes it, however the loops are nested.
-/

namespace TensorKernels

open Nest

/-- The block indices of a tuple: those of the loops that are no reductions. -/
def Nest.blockIndices (loops : List Loop) (t : List ℕ) : List ℕ :=
  keptIndices (· != .k) loops t

/-- The first visit, and no other, opens the block; the last visit, and no other, closes it. -/
structure TouchedOnce (visits : List Visit) : Prop where
  first : ∃ v later, visits = v :: later ∧ v.first = true ∧ ∀ w ∈ later, w.first = false
  last : ∃ earlier v, visits = earlier ++ [v] ∧ v.last = true ∧ ∀ w ∈ earlier, w.last = false

namespace Walk

def enter (v : Visit) (l : Loop) (i : ℕ) : Visit :=
  ⟨v.base + i • l.strides, v.first && l.opens i, v.last && l.closes i⟩

def visitAt : List Loop → Visit → List ℕ → Visit
  | l :: inner, v, i :: rest => visitAt inner (enter v l i) rest
  | _, v, _ => v

theorem exactVisits_eq_map (loops : List Loop) (v : Visit) :
    exactVisits loops v = (indices loops).map (visitAt loops v) := by
  induction loops generalizing v with
  | nil => rfl
  | cons l inner ih =>
    simp only [exactVisits, indices, ih, List.map_flatMap, List.map_map]
    rfl

def blockVisits (loops : List Loop) (v : Visit) (block : List ℕ) : List Visit :=
  ((indices loops).filter fun t => blockIndices loops t == block).map (visitAt loops v)

theorem blockVisits_reduction {l : Loop} (hrole : l.role = .k) (inner : List Loop) (v : Visit)
    (block : List ℕ) : blockVisits (l :: inner) v block =
      (List.range l.size).flatMap fun i => blockVisits inner (enter v l i) block := by
  have hblock (i : ℕ) (t : List ℕ) :
      blockIndices (l :: inner) (i :: t) = blockIndices inner t := by
    rw [blockIndices, keptIndices, hrole]
    rfl
  simp only [blockVisits, indices, List.filter_flatMap, List.filter_map, List.map_flatMap,
    List.map_map, Function.comp_def, hblock]
  rfl

theorem range_eq_append_cons {i n : ℕ} (hi : i < n) :
    List.range n = List.range i ++ i :: List.range' (i + 1) (n - (i + 1)) := by
  have hrest : n - i = n - (i + 1) + 1 := by omega
  rw [← List.range'_succ, ← hrest, List.range_eq_range', List.range_eq_range']
  have happend : List.range' 0 i ++ List.range' (0 + i) (n - i) = List.range' 0 (i + (n - i)) :=
    List.range'_append_1
  rw [Nat.zero_add, Nat.add_sub_cancel' hi.le] at happend
  exact happend.symm

theorem flatMap_range_of_only {α : Type} {f : ℕ → List α} {i n : ℕ} (hi : i < n)
    (h : ∀ j, j ≠ i → f j = []) : (List.range n).flatMap f = f i := by
  have hbefore : (List.range i).flatMap f = [] := by
    rw [List.flatMap_eq_nil_iff]
    intro j hj
    exact h j (List.mem_range.1 hj).ne
  have hafter : (List.range' (i + 1) (n - (i + 1))).flatMap f = [] := by
    rw [List.flatMap_eq_nil_iff]
    intro j hj
    exact h j (Nat.ne_of_gt (List.mem_range'_1.1 hj).1)
  rw [range_eq_append_cons hi, List.flatMap_append, List.flatMap_cons, hbefore, hafter,
    List.nil_append, List.append_nil]

theorem blockVisits_block {l : Loop} (hrole : l.role ≠ .k) (inner : List Loop) (v : Visit) {i : ℕ}
    (hi : i < l.size) (block : List ℕ) :
    blockVisits (l :: inner) v (i :: block) = blockVisits inner (enter v l i) block := by
  have hblock (j : ℕ) (t : List ℕ) :
      blockIndices (l :: inner) (j :: t) = j :: blockIndices inner t := by
    rw [blockIndices, keptIndices, if_pos (by simpa using hrole)]
    rfl
  simp only [blockVisits, indices, List.filter_flatMap, List.filter_map, List.map_flatMap,
    List.map_map, Function.comp_def, hblock]
  rw [flatMap_range_of_only hi]
  · simp only [List.cons_beq_cons, beq_self_eq_true, Bool.true_and]
    rfl
  · intro j hj
    rw [List.map_eq_nil_iff, List.filter_eq_nil_iff]
    intro t _ heq
    rw [beq_iff_eq] at heq
    exact hj (List.cons.inj heq).1

/-! A flag that every loop hands on at the indices it keeps, a reduction at one index alone. -/

section Flag

variable {flag : Visit → Bool} {keeps : Loop → ℕ → Bool}
  (hflag : ∀ v l i, flag (enter v l i) = (flag v && keeps l i))
include hflag

theorem flag_of_mem_blockVisits {loops : List Loop} {v w : Visit} {block : List ℕ}
    (hv : flag v = false) (hw : w ∈ blockVisits loops v block) : flag w = false := by
  obtain ⟨t, -, rfl⟩ := List.mem_map.1 hw
  clear hw
  induction loops generalizing v t with
  | nil => exact hv
  | cons l inner ih =>
    cases t with
    | nil => exact hv
    | cons i rest => exact ih (by rw [hflag, hv, Bool.false_and]) rest

/-- One visit of a block has the flag. It is the first one if reductions keep the flag at their
first index, and the last one if they keep it at their last. -/
theorem blockVisits_flagged_once {index : Loop → ℕ} {loops : List Loop} {v : Visit} {block : List ℕ}
    (hkeeps : ∀ l ∈ loops, index l < l.size ∧ ∀ i, keeps l i = true ↔ (l.role = .k → i = index l))
    (hblock : block ∈ indices (ofRoles (· != .k) loops)) (hv : flag v = true) :
    ∃ before w after, blockVisits loops v block = before ++ w :: after ∧ flag w = true ∧
      (∀ u ∈ before ++ after, flag u = false) ∧ ((∀ l ∈ loops, index l = 0) → before = []) ∧
      ((∀ l ∈ loops, index l + 1 = l.size) → after = []) := by
  induction loops generalizing v block with
  | nil =>
    obtain rfl := List.mem_singleton.1 hblock
    exact ⟨[], v, [], rfl, hv, List.forall_mem_nil _, fun _ => rfl, fun _ => rfl⟩
  | cons l inner ih =>
    rw [List.forall_mem_cons] at hkeeps
    obtain ⟨⟨hindex, hkeep⟩, hinner⟩ := hkeeps
    by_cases hrole : l.role = .k
    · rw [ofRoles_cons, if_neg (by simp [hrole])] at hblock
      have hkept : flag (enter v l (index l)) = true := by
        rw [hflag, hv, (hkeep _).2 fun _ => rfl, Bool.and_self]
      have hlost {i : ℕ} (hi : i ≠ index l) : flag (enter v l i) = false := by
        rw [hflag, hv, Bool.true_and, ← Bool.not_eq_true, hkeep]
        exact fun h => hi (h hrole)
      obtain ⟨before, w, after, hvisits, hw, hothers, hstart, hend⟩ := ih hinner hblock hkept
      refine ⟨(List.range (index l)).flatMap (fun i => blockVisits inner (enter v l i) block) ++
          before, w,
        after ++ (List.range' (index l + 1) (l.size - (index l + 1))).flatMap
          (fun i => blockVisits inner (enter v l i) block), ?_, hw, ?_, ?_, ?_⟩
      · rw [blockVisits_reduction hrole, range_eq_append_cons hindex, List.flatMap_append,
          List.flatMap_cons, hvisits]
        simp only [List.append_assoc, List.cons_append]
      · intro u hu
        simp only [List.mem_append, List.mem_flatMap, List.mem_range, List.mem_range'_1] at hu
        rcases hu with (⟨i, hi, hu⟩ | hu) | hu | ⟨i, hi, hu⟩
        · exact flag_of_mem_blockVisits hflag (hlost hi.ne) hu
        · exact hothers u (List.mem_append_left _ hu)
        · exact hothers u (List.mem_append_right _ hu)
        · exact flag_of_mem_blockVisits hflag (hlost (Nat.ne_of_gt hi.1)) hu
      · intro h
        rw [List.forall_mem_cons] at h
        rw [h.1, hstart h.2]
        rfl
      · intro h
        rw [List.forall_mem_cons] at h
        rw [h.1, hend h.2, Nat.sub_self]
        rfl
    · rw [ofRoles_cons, if_pos (by simpa using hrole)] at hblock
      obtain ⟨i, hi, rest, hrest, rfl⟩ := mem_indices_cons.1 hblock
      have hkept : flag (enter v l i) = true := by
        rw [hflag, hv, (hkeep i).2 fun h => absurd h hrole, Bool.and_self]
      obtain ⟨before, w, after, hvisits, hw, hothers, hstart, hend⟩ := ih hinner hrest hkept
      rw [blockVisits_block hrole inner v hi]
      refine ⟨before, w, after, hvisits, hw, hothers, ?_, ?_⟩
      · exact fun h => hstart (List.forall_mem_cons.1 h).2
      · exact fun h => hend (List.forall_mem_cons.1 h).2

end Flag

theorem touchedOnce_blockVisits {loops : List Loop} {v : Visit} {block : List ℕ}
    (hsizes : ∀ l ∈ loops, 0 < l.size) (hblock : block ∈ indices (ofRoles (· != .k) loops))
    (hfirst : v.first = true) (hlast : v.last = true) :
    TouchedOnce (blockVisits loops v block) := by
  constructor
  · have hopens : ∀ l ∈ loops, 0 < l.size ∧ ∀ i, l.opens i = true ↔ (l.role = .k → i = 0) := by
      intro l hl
      refine ⟨hsizes l hl, fun i => ?_⟩
      rw [Loop.opens, Bool.or_eq_true, bne_iff_ne, beq_iff_eq, ← imp_iff_not_or]
    obtain ⟨before, w, later, hvisits, hw, hlater, hstart, -⟩ :=
      blockVisits_flagged_once (fun _ _ _ => rfl) hopens hblock hfirst
    rw [hstart fun _ _ => rfl] at hvisits hlater
    exact ⟨w, later, hvisits, hw, hlater⟩
  · have hcloses : ∀ l ∈ loops, l.size - 1 < l.size ∧
        ∀ i, l.closes i = true ↔ (l.role = .k → i = l.size - 1) := by
      intro l hl
      have hpos := hsizes l hl
      have hturn (i : ℕ) : i + 1 = l.size ↔ i = l.size - 1 := by omega
      refine ⟨by omega, fun i => ?_⟩
      rw [Loop.closes, Bool.or_eq_true, bne_iff_ne, beq_iff_eq, ← imp_iff_not_or, hturn]
    obtain ⟨earlier, w, after, hvisits, hw, hearlier, -, hend⟩ :=
      blockVisits_flagged_once (fun _ _ _ => rfl) hcloses hblock hlast
    rw [hend fun l hl => Nat.sub_add_cancel (hsizes l hl)] at hvisits hearlier
    rw [List.append_nil] at hearlier
    exact ⟨earlier, w, hvisits, hw, hearlier⟩

/-- The visits of one block among visits that are listed in the order of their tuples. -/
def visitsOfBlock (loops : List Loop) (tuples : List (List ℕ)) (visits : List Visit)
    (block : List ℕ) : List Visit :=
  ((tuples.zip visits).filter fun e => blockIndices loops e.1 == block).map (·.2)

theorem visitsOfBlock_map (loops : List Loop) (ts : List (List ℕ)) (tuple : List ℕ → List ℕ)
    (visit : List ℕ → Visit) (block : List ℕ) :
    visitsOfBlock loops (ts.map tuple) (ts.map visit) block =
      (ts.filter fun t => blockIndices loops (tuple t) == block).map visit := by
  rw [visitsOfBlock, List.zip_map', List.filter_map, List.map_map]
  rfl

theorem visitsOfBlock_indices (loops : List Loop) (v : Visit) (block : List ℕ) :
    visitsOfBlock loops (indices loops) (exactVisits loops v) block = blockVisits loops v block := by
  have h := visitsOfBlock_map loops (indices loops) id (visitAt loops v) block
  rwa [List.map_id, ← exactVisits_eq_map] at h

theorem filter_out_eq {loops : List Loop} {tuples : List (List ℕ)} {visits : List Visit} {x : ℕ}
    {block : List ℕ} (hbases : visits.map (·.base) = tuples.map (offset loops))
    (h : ∀ t ∈ tuples, (offset loops t).out = x ↔ blockIndices loops t = block) :
    visits.filter (fun v => v.base.out == x) = visitsOfBlock loops tuples visits block := by
  induction tuples generalizing visits with
  | nil =>
    rw [List.map_nil, List.map_eq_nil_iff] at hbases
    rw [hbases]
    rfl
  | cons t tuples ih =>
    obtain ⟨v, rest, rfl, hv, hrest⟩ := List.map_eq_cons_iff.1 hbases
    rw [List.forall_mem_cons] at h
    have hsame : (v.base.out == x) = (blockIndices loops t == block) := by
      rw [hv, Bool.eq_iff_iff, beq_iff_eq, beq_iff_eq]
      exact h.1
    have hih := ih hrest h.2
    rw [visitsOfBlock] at hih ⊢
    rw [List.filter_cons, List.zip_cons_cons, List.filter_cons, hsame, hih]
    split <;> rfl

end Walk

namespace Plan

/-- The index tuples of a task, in the order of its visits: the shared indices are those that the
flat index stands for. -/
def taskTuples (p : Plan) (flat : ℕ) : List (List ℕ) :=
  match (indices p.sharedLoops)[flat]? with
  | some s => (indices p.taskLoops).map (s ++ ·)
  | none => []

/-- One of `count` tasks has all the visits in question, and among them it touches the block once. -/
def OwnedOnce (count : ℕ) (part : ℕ → List Visit) : Prop :=
  ∃ flat < count, TouchedOnce (part flat) ∧ ∀ other < count, other ≠ flat → part other = []

theorem OwnedOnce.congr {count : ℕ} {part same : ℕ → List Visit} (h : OwnedOnce count part)
    (hsame : ∀ flat < count, same flat = part flat) : OwnedOnce count same := by
  obtain ⟨flat, hflat, honce, hothers⟩ := h
  refine ⟨flat, hflat, ?_, fun other hother hne => ?_⟩
  · rw [hsame flat hflat]
    exact honce
  · rw [hsame other hother]
    exact hothers other hother hne

section Accepted

variable {c : Contraction} {p : Plan}

theorem Derived.outer_sizes (d : Derived c p) : ∀ l ∈ p.outerLoops, 0 < l.size := by
  intro l hl
  rw [outerLoops, d.contraction] at hl
  exact d.sizes l (List.mem_of_mem_take hl)

theorem Derived.task_sizes (d : Derived c p) : ∀ l ∈ p.taskLoops, 0 < l.size := by
  intro l hl
  exact d.outer_sizes l (List.mem_of_mem_drop hl)

theorem Derived.length_indices_shared (d : Derived c p) :
    (indices p.sharedLoops).length = p.exactTaskCount := by
  have h := congrArg List.length (Walk.map_exactDecode d.shared_sizes)
  rw [List.length_map, List.length_range, offsets, List.length_map] at h
  exact h.symm

theorem Derived.exactDecode_eq (d : Derived c p) {flat : ℕ} {s : List ℕ}
    (hs : (indices p.sharedLoops)[flat]? = some s) :
    Walk.exactDecode p.sharedLoops.reverse flat = offset p.sharedLoops s := by
  have hlt : flat < p.exactTaskCount :=
    d.length_indices_shared ▸ (List.getElem?_eq_some_iff.1 hs).1
  rw [exactTaskCount] at hlt
  have h := congrArg (fun os => os[flat]?) (Walk.map_exactDecode d.shared_sizes)
  simp only [offsets, List.getElem?_map, hs, List.getElem?_range hlt, Option.map_some,
    Option.some.injEq] at h
  exact h

theorem bases_walk (p : Plan) :
    (Walk.exactVisits p.outerLoops ⟨.zero, true, true⟩).map (·.base) =
      (indices p.outerLoops).map (offset p.outerLoops) := by
  have hzero (o : Offsets) : Offsets.zero + o = o := zero_add o
  rw [Walk.map_base_exactVisits]
  simp only [hzero, List.map_id', offsets]

theorem Derived.bases_task (d : Derived c p) {flat : ℕ} (hflat : flat < p.exactTaskCount) :
    (p.ownVisits flat).map (·.base) = (p.taskTuples flat).map (offset p.outerLoops) := by
  obtain ⟨s, hs⟩ : ∃ s, (indices p.sharedLoops)[flat]? = some s := by
    rw [← d.length_indices_shared] at hflat
    exact ⟨_, List.getElem?_eq_getElem hflat⟩
  rw [ownVisits, Walk.map_base_exactVisits, d.exactDecode_eq hs, taskTuples, hs, offsets,
    List.map_map, List.map_map, d.outerLoops_eq]
  refine List.map_congr_left fun t _ => ?_
  exact (offset_append p.taskLoops t (List.mem_of_getElem? hs)).symm

theorem Derived.block_eq_append (d : Derived c p) {block : List ℕ}
    (hblock : block ∈ indices (ofRoles (· != .k) p.outerLoops)) :
    ∃ s ∈ indices p.sharedLoops, ∃ rest ∈ indices (ofRoles (· != .k) p.taskLoops),
      s ++ rest = block := by
  rw [d.outerLoops_eq, ofRoles_append, d.ofRoles_sharedLoops, indices_append] at hblock
  simpa only [List.mem_flatMap, List.mem_map] using hblock

theorem Derived.blockIndices_append (d : Derived c p) {s : List ℕ} (hs : s ∈ indices p.sharedLoops)
    (t : List ℕ) : blockIndices p.outerLoops (s ++ t) = s ++ blockIndices p.taskLoops t := by
  rw [blockIndices, d.outerLoops_eq]
  exact keptIndices_append p.taskLoops t hs (by simpa using d.shared_no_reduction)

theorem Derived.visitsOfBlock_own (d : Derived c p) {flat : ℕ} {s : List ℕ}
    (hs : (indices p.sharedLoops)[flat]? = some s) (rest : List ℕ) :
    Walk.visitsOfBlock p.outerLoops (p.taskTuples flat) (p.ownVisits flat) (s ++ rest) =
      Walk.blockVisits p.taskLoops ⟨offset p.sharedLoops s, true, true⟩ rest := by
  rw [taskTuples, hs, ownVisits, d.exactDecode_eq hs, Walk.exactVisits_eq_map]
  refine (Walk.visitsOfBlock_map _ _ _ _ _).trans ?_
  rw [Walk.blockVisits]
  congr 1
  refine List.filter_congr fun t _ => ?_
  rw [d.blockIndices_append (List.mem_of_getElem? hs), Bool.eq_iff_iff, beq_iff_eq, beq_iff_eq,
    List.append_right_inj]

theorem Derived.visitsOfBlock_other (d : Derived c p) {flat other : ℕ} {s : List ℕ}
    (hs : (indices p.sharedLoops)[flat]? = some s) (hother : other < p.exactTaskCount)
    (hne : other ≠ flat) (rest : List ℕ) :
    Walk.visitsOfBlock p.outerLoops (p.taskTuples other) (p.ownVisits other) (s ++ rest) = [] := by
  rw [← d.length_indices_shared] at hother
  obtain ⟨s', hs'⟩ : ∃ s', (indices p.sharedLoops)[other]? = some s' :=
    ⟨_, List.getElem?_eq_getElem hother⟩
  have hmem := List.mem_of_getElem? hs
  have hmem' := List.mem_of_getElem? hs'
  rw [taskTuples, hs', ownVisits, Walk.exactVisits_eq_map]
  refine (Walk.visitsOfBlock_map _ _ _ _ _).trans ?_
  rw [List.map_eq_nil_iff, List.filter_eq_nil_iff]
  intro t _ hblock
  rw [d.blockIndices_append hmem', beq_iff_eq] at hblock
  have hlength : s'.length = s.length :=
    (length_of_mem_indices hmem').trans (length_of_mem_indices hmem).symm
  obtain rfl := List.append_inj_left hblock hlength
  exact hne ((List.getElem?_inj hother (nodup_indices p.sharedLoops)).1 (hs'.trans hs.symm))

theorem Derived.ownedOnce_block (d : Derived c p) {block : List ℕ}
    (hblock : block ∈ indices (ofRoles (· != .k) p.outerLoops)) :
    OwnedOnce p.exactTaskCount fun flat =>
      Walk.visitsOfBlock p.outerLoops (p.taskTuples flat) (p.ownVisits flat) block := by
  obtain ⟨s, hs, rest, hrest, rfl⟩ := d.block_eq_append hblock
  obtain ⟨flat, hflat⟩ := List.mem_iff_getElem?.1 hs
  have hlt : flat < p.exactTaskCount :=
    d.length_indices_shared ▸ (List.getElem?_eq_some_iff.1 hflat).1
  refine ⟨flat, hlt, ?_, fun other hother hne => d.visitsOfBlock_other hflat hother hne rest⟩
  dsimp only
  rw [d.visitsOfBlock_own hflat]
  exact Walk.touchedOnce_blockVisits d.task_sizes hrest rfl rfl

theorem Derived.out_eq_iff_block (d : Derived c p) (hproduct : c.main.isProduct = true)
    (hdistinct : p.outputDistinct = true) {t u : List ℕ} (ht : t ∈ indices p.outerLoops)
    (hu : u ∈ indices p.outerLoops) :
    (offset p.outerLoops t).out = (offset p.outerLoops u).out ↔
      blockIndices p.outerLoops t = blockIndices p.outerLoops u := by
  have hfixed : ∀ l ∈ p.outerLoops, (l.role != .k) = false → l.strides.out = 0 := by
    intro l hl hrole
    rw [outerLoops, d.contraction] at hl
    exact d.stride_out_reduction hproduct l (List.mem_of_mem_take hl) (by simpa using hrole)
  have hnodup := outputs_nodup d.sizes (d.outputDistinct ▸ hdistinct)
  rw [← d.outer_append_inner, ofRoles_append] at hnodup
  have houter := outer_outputs_nodup
    (fun l hl => d.sizes l (List.mem_of_mem_drop (List.mem_of_mem_filter hl))) hnodup
  rw [offsets, List.map_map] at houter
  have hout (r : List ℕ) : (offset (ofRoles (· != .k) p.outerLoops)
      (blockIndices p.outerLoops r)).out = (offset p.outerLoops r).out :=
    out_offset_keptIndices hfixed r
  rw [← hout t, ← hout u]
  constructor
  · exact List.inj_on_of_nodup_map houter (keptIndices_mem ht) (keptIndices_mem hu)
  · intro heq
    rw [heq]

theorem Derived.taskTuples_subset (d : Derived c p) (flat : ℕ) :
    p.taskTuples flat ⊆ indices p.outerLoops := by
  intro t ht
  rw [taskTuples] at ht
  split at ht
  · rename_i s hs
    rw [d.outerLoops_eq, indices_append, List.mem_flatMap]
    exact ⟨s, List.mem_of_getElem? hs, ht⟩
  · cases ht

end Accepted

/-- In the walk of a product every output block has one visit that opens it, before all others, and
one that closes it, after all others, whatever reduction loops stand between, before or after the
other loops. One task has all visits of the block, and the same holds there. When the output
strides nest, the visits of a block are those with its output offset. -/
theorem blocks_touched_once {c : Contraction} {p : Plan} (h : ofContraction c = .ok p)
    (hmain : c.main = .gemm ∨ c.main = .brgemm) :
    ∃ (visits : List Visit) (own : ℕ → List Visit),
      p.walk = .ok visits ∧ (∀ flat, p.task flat = .ok (own flat)) ∧
      visits.map (·.base) = (indices p.outerLoops).map (offset p.outerLoops) ∧
      (∀ flat < p.exactTaskCount,
        (own flat).map (·.base) = (p.taskTuples flat).map (offset p.outerLoops)) ∧
      (∀ block ∈ indices (ofRoles (· != .k) p.outerLoops),
        TouchedOnce (Walk.visitsOfBlock p.outerLoops (indices p.outerLoops) visits block) ∧
        OwnedOnce p.exactTaskCount fun flat =>
          Walk.visitsOfBlock p.outerLoops (p.taskTuples flat) (own flat) block) ∧
      (p.outputDistinct = true → ∀ v ∈ visits,
        TouchedOnce (visits.filter fun w => w.base.out == v.base.out) ∧
        OwnedOnce p.exactTaskCount fun flat =>
          (own flat).filter fun w => w.base.out == v.base.out) := by
  have d := derived_of_ofContraction h
  have hproduct : c.main.isProduct = true := by rcases hmain with hm | hm <;> rw [hm] <;> rfl
  have hblocks : ∀ block ∈ indices (ofRoles (· != .k) p.outerLoops),
      TouchedOnce (Walk.visitsOfBlock p.outerLoops (indices p.outerLoops)
        (Walk.exactVisits p.outerLoops ⟨.zero, true, true⟩) block) := by
    intro block hblock
    rw [Walk.visitsOfBlock_indices]
    exact Walk.touchedOnce_blockVisits d.outer_sizes hblock rfl rfl
  refine ⟨_, _, d.walk_eq, d.task_eq, bases_walk p, fun flat hflat => d.bases_task hflat,
    fun block hblock => ⟨hblocks block hblock, d.ownedOnce_block hblock⟩, ?_⟩
  intro hdistinct v hv
  obtain ⟨t, ht, hbase⟩ : ∃ t ∈ indices p.outerLoops, offset p.outerLoops t = v.base := by
    rw [← List.mem_map, ← bases_walk]
    exact List.mem_map_of_mem hv
  have hdecides : ∀ u ∈ indices p.outerLoops, (offset p.outerLoops u).out = v.base.out ↔
      blockIndices p.outerLoops u = blockIndices p.outerLoops t := by
    intro u hu
    rw [← hbase]
    exact d.out_eq_iff_block hproduct hdistinct hu ht
  constructor
  · rw [Walk.filter_out_eq (bases_walk p) hdecides]
    exact hblocks _ (keptIndices_mem ht)
  · refine (d.ownedOnce_block (keptIndices_mem ht)).congr fun flat hflat => ?_
    exact Walk.filter_out_eq (d.bases_task hflat)
      fun u hu => hdecides u (d.taskTuples_subset flat hu)

theorem splitReduction_touched_once :
    ∃ (p : Plan) (visits : List Visit) (own : ℕ → List Visit),
      ofContraction splitReduction = .ok p ∧ p.outputDistinct = true ∧ p.walk = .ok visits ∧
      (∀ flat, p.task flat = .ok (own flat)) ∧
      TouchedOnce (Walk.visitsOfBlock p.outerLoops (indices p.outerLoops) visits [2, 1, 1]) ∧
      ∀ v ∈ visits, OwnedOnce p.exactTaskCount fun flat =>
        (own flat).filter fun w => w.base.out == v.base.out := by
  obtain ⟨p, hp, hdistinct, -, -, hloops⟩ := splitReduction_accepted
  have hblock : [2, 1, 1] ∈ indices (ofRoles (· != .k) p.outerLoops) := by
    rw [hloops]
    decide
  obtain ⟨visits, own, hwalk, htask, -, -, hblocks, hoffsets⟩ := blocks_touched_once hp (Or.inl rfl)
  exact ⟨p, visits, own, hp, hdistinct, hwalk, htask, (hblocks _ hblock).1,
    fun v hv => (hoffsets hdistinct v hv).2⟩

end Plan

end TensorKernels
