import TensorKernels.Proofs.Assembly.Frame

/-!
The procedure call standard. A callee leaves the stack pointer, x18 to x30 and the low halves of v8 to
v15 as it found them, and returns through x30. Code between the saves and the restores of a kernel may
use v8 to v15 as it likes, as long as its own stores stay off the bytes that they are saved in: no
branch leads back to the saves, so what these wrote is still there when the restores read it.
-/

namespace TensorKernels

open Instr

/-- What a callee owes its caller. -/
structure Preserved {F : Type} (s t : State F) : Prop where
  stack : t.general 31 = s.general 31
  general : ∀ r : Fin 32, 18 ≤ r.val → r.val ≤ 30 → t.general r = s.general r
  vector : ∀ v : Fin 32, 8 ≤ v.val → v.val ≤ 15 → ∀ l : Fin 4, l.val < 2 →
    t.vector v l = s.vector v l

/-- No instruction that a run comes to stores to the 64 bytes below the stack pointer, but to save
registers there. -/
def SparesSaved {F : Type} [Lane F] (words : Array Word) (s : State F) : Prop :=
  ∀ c, RunsTo words ⟨0, s⟩ c → ∀ i, fetch words c.pc = some i → i ∉ Sequence.saveVectors →
    Disjoint (i.stores c.state) (Sequence.saveArea (s.general 31))

structure KeepsCallStandard (words : Array Word) : Prop where
  link : ∀ (pc : ℕ) (w : Word), words[pc]? = some w → decode w = some .ret →
    (BitField.rn.extract w).toNat = 30
  returns : ∀ (F : Type) [Lane F] (s : State F), SparesSaved words s →
    (∃ t, ReturnsIn words s t) ∧ ∀ t, ReturnsIn words s t → Preserved s t

theorem rn_of_decode_ret {is : List Instr} (h : ∀ i ∈ is, i.InRange) {pc : ℕ} {w : Word}
    (hw : (is.map encode).toArray[pc]? = some w) (hret : decode w = some .ret) :
    (BitField.rn.extract w).toNat = 30 := by
  rw [List.getElem?_toArray, List.getElem?_map, Option.map_eq_some_iff] at hw
  obtain ⟨i, hi, rfl⟩ := hw
  rw [decode_encode (h i (List.mem_of_getElem? hi)), Option.some.injEq] at hret
  rw [eq_of_canonical hret rfl]
  decide

variable {F : Type} [Lane F]

namespace Sequence

/-! Saving and restoring, pair by pair. -/

def push (pair : VectorReg × VectorReg) : Instr :=
  .transferPair .store .d pair.1 pair.2 GeneralReg.sp (-16) .preIndex

def pop (pair : VectorReg × VectorReg) : Instr :=
  .transferPair .load .d pair.1 pair.2 GeneralReg.sp 16 .postIndex

theorem memory_push (pair : VectorReg × VectorReg) (s : State F) :
    ((push pair).effect s).memory =
      (s.memory.fillLanes (s.general 31 - 16) 2 (s.lanesOf pair.1.id)).fillLanes
        (s.general 31 - 16 + (4 * 2 : ℕ)) 2 (s.lanesOf pair.2.id) := by
  have hbase : AddressMode.preIndex.address (s.general GeneralReg.sp.id) (-16) = s.general 31 - 16 :=
    add_intCast_of_neg (by decide) _
  have hpair (a b : Address) :
      ((s.moveVector .store 2 pair.1.id a).moveVector .store 2 pair.2.id b).memory =
        (s.memory.fillLanes a 2 (s.lanesOf pair.1.id)).fillLanes b 2 (s.lanesOf pair.2.id) := rfl
  rw [push, effect, State.memory_writeBack, hbase, AccessSize.lanes, hpair]

theorem vector_push (pair : VectorReg × VectorReg) (s : State F) :
    ((push pair).effect s).vector = s.vector := by
  funext v
  refine vector_effect ?_ s
  rintro ⟨⟨⟩, -⟩

theorem lane_push (pair : VectorReg × VectorReg) (s : State F) {l : ℕ} (hl : l < 4) :
    ((push pair).effect s).memory.lane (s.general 31 - 16 + (4 * l : ℕ)) =
      if l < 2 then s.lanesOf pair.1.id l else s.lanesOf pair.2.id (l - 2) := by
  rw [memory_push, Memory.fillLanes_fillLanes (by decide), Memory.lane_fillLanes hl (by decide)]

theorem vector_pop {pair : VectorReg × VectorReg} (hne : pair.1.id ≠ pair.2.id) (s : State F)
    {l : Fin 4} (hl : l.val < 2) :
    ((pop pair).effect s).vector pair.1.id l = s.memory.lane (s.general 31 + (4 * l.val : ℕ)) ∧
      ((pop pair).effect s).vector pair.2.id l =
        s.memory.lane (s.general 31 + (4 * (l.val + 2) : ℕ)) := by
  have hvector : ((pop pair).effect s).vector =
      Function.update (Function.update s.vector pair.1.id (s.memory.lanes (s.general 31) 2)) pair.2.id
        (s.memory.lanes (s.general 31 + (4 * 2 : ℕ)) 2) := rfl
  rw [hvector, Function.update_of_ne hne, Function.update_self, Function.update_self, Memory.lanes,
    Memory.lanes, if_pos hl, if_pos hl, Nat.mul_add, Nat.add_comm (4 * l.val), Nat.cast_add,
    ← add_assoc]
  exact ⟨rfl, rfl⟩

theorem memory_pops (pairs : List (VectorReg × VectorReg)) (s : State F) :
    (effects (pairs.map pop) s).memory = s.memory := by
  induction pairs generalizing s with
  | nil => rfl
  | cons pair rest ih => exact ih _

theorem lane_pushed (pairs : List (VectorReg × VectorReg)) (hlen : 16 * (pairs.length + 1) ≤ 2 ^ 64)
    (s : State F) {l : ℕ} (hl : l < 4) :
    (effects (pairs.map push) s).memory.lane (s.general 31 + (4 * l : ℕ)) =
      (s.memory.lane (s.general 31 + (4 * l : ℕ)) : F) := by
  have hpushed := pushed_pairs pairs (by omega) s
  refine congrArg Lane.ofBits (Memory.word_congr fun y hy => hpushed.memory y fun hbelow => ?_)
  have habove := Memory.le_distance_rest hbelow (by omega : 16 * pairs.length + 16 ≤ 2 ^ 64)
  rw [sub_add_cancel] at habove
  have hwithin := Memory.region_subset_of_le (by omega : 4 * l + 4 ≤ 16) (by decide) hy
  exact Nat.not_lt.2 habove hwithin

/-- Popping what was pushed gives every register back its low half, whatever happened to the registers
in between, if the bytes it was pushed to are still the same. -/
theorem pop_pushed (pairs : List (VectorReg × VectorReg))
    (hdistinct : (pairs.flatMap fun pair => [pair.1.id, pair.2.id]).Nodup)
    (hlen : 16 * pairs.length ≤ 2 ^ 64) {s u : State F}
    (hstack : u.general 31 = (effects (pairs.map push) s).general 31)
    (hmemory : ∀ y ∈ Memory.region (s.general 31 - (16 * pairs.length : ℕ)) (16 * pairs.length),
      u.memory y = (effects (pairs.map push) s).memory y) :
    (effects (pairs.reverse.map pop) u).general 31 = s.general 31 ∧
      ∀ pair ∈ pairs, ∀ l : Fin 4, l.val < 2 →
        (effects (pairs.reverse.map pop) u).vector pair.1.id l = s.vector pair.1.id l ∧
          (effects (pairs.reverse.map pop) u).vector pair.2.id l = s.vector pair.2.id l := by
  induction pairs generalizing s with
  | nil => exact ⟨hstack, by simp⟩
  | cons pair rest ih =>
    rw [List.length_cons] at hlen hmemory
    rw [List.map_cons, effects_cons] at hstack hmemory
    rw [List.flatMap_cons, List.nodup_append] at hdistinct
    obtain ⟨hpair, hrest, hapart⟩ := hdistinct
    have htop : ((push pair).effect s).general 31 = s.general 31 - 16 :=
      (pushed_pair pair.1 pair.2 s).stack
    have hbase : s.general 31 - ((16 * (rest.length + 1) : ℕ) : BitVec 64) =
        ((push pair).effect s).general 31 - (16 * rest.length : ℕ) := by
      rw [htop]
      push_cast
      grind
    rw [hbase] at hmemory
    obtain ⟨hbelow, hvectors⟩ := ih hrest (by omega) hstack fun y hy =>
      hmemory y (Nat.lt_of_lt_of_le hy (by omega))
    have hlane {l : ℕ} (hl : l < 4) : u.memory.lane (s.general 31 - 16 + (4 * l : ℕ)) =
        (if l < 2 then s.lanesOf pair.1.id l else s.lanesOf pair.2.id (l - 2) : F) := by
      have hsum : s.general 31 - 16 + ((4 * l : ℕ) : BitVec 64) =
          ((push pair).effect s).general 31 - (16 * rest.length : ℕ) +
            ((16 * rest.length + 4 * l : ℕ) : BitVec 64) := by
        rw [htop, Nat.cast_add, ← add_assoc, sub_add_cancel]
      rw [← lane_push pair s hl, ← htop, ← lane_pushed rest hlen _ hl, htop]
      refine congrArg Lane.ofBits (Memory.word_congr fun y hy => hmemory y ?_)
      rw [hsum] at hy
      exact Memory.region_subset_of_le (by omega) hlen hy
    have hpops : effects ((pair :: rest).reverse.map pop) u =
        (pop pair).effect (effects (rest.reverse.map pop) u) := by
      rw [List.reverse_cons, List.map_append, effects_append]
      rfl
    have hmem := memory_pops rest.reverse u
    rw [hpops]
    generalize effects (rest.reverse.map pop) u = t at hbelow hvectors hmem
    rw [htop] at hbelow
    refine ⟨?_, List.forall_mem_cons.2 ⟨fun l hl => ?_, fun pair' hpair' l hl => ?_⟩⟩
    · have hup : ((pop pair).effect t).general 31 = t.general 31 + 16 := State.general_set_same ..
      rw [hup, hbelow, sub_add_cancel]
    · obtain ⟨hfirst, hsecond⟩ := vector_pop (by simpa using hpair) t hl
      rw [hfirst, hsecond, hmem, hbelow, hlane (by omega), hlane (by omega), if_pos hl,
        if_neg (by omega), Nat.add_sub_cancel]
      exact ⟨congrArg (s.vector _) (Fin.cast_val_eq_self l),
        congrArg (s.vector _) (Fin.cast_val_eq_self l)⟩
    · have hkeep {v : Fin 32} (hv : v ∈ [pair'.1.id, pair'.2.id]) :
          ((pop pair).effect t).vector v = t.vector v := by
        have hmem : v ∈ rest.flatMap fun pair => [pair.1.id, pair.2.id] :=
          List.mem_flatMap.2 ⟨pair', hpair', hv⟩
        refine vector_effect ?_ t
        rintro ⟨-, rfl | rfl⟩
        · exact hapart _ List.mem_cons_self _ hmem rfl
        · exact hapart _ (by simp) _ hmem rfl
      rw [hkeep (by simp), hkeep (by simp), ← vector_push pair s]
      exact hvectors pair' hpair' l hl

theorem straight_restoreVectors : Straight [31] calleeSaved.length restoreVectors := by
  refine ⟨plain_restoreVectors, fun i hi r hw => ?_, le_of_eq rfl⟩
  obtain ⟨pair, -, rfl⟩ := List.mem_map.1 hi
  exact List.mem_singleton.2 hw.2.symm

end Sequence

open Sequence

def framed (code : Code) : List Instr := saveVectors ++ (code.lower ++ restoreVectors ++ [.ret])

theorem framed_eq (code : Code) :
    framed code = saveVectors ++ (code.lower ++ restoreVectors) ++ [.ret] :=
  (List.append_assoc _ _ _).symm

theorem lower_frame (is : List Instr) (code : Code) :
    (Code.run (saveVectors ++ is) ++ code ++ .run restoreAndReturn : Code).lower =
      framed (.run is ++ code) := by
  have hlower : (Code.run (saveVectors ++ is) ++ code ++ .run restoreAndReturn : Code).lower =
      saveVectors ++ is ++ code.lower ++ (restoreVectors ++ [.ret]) := rfl
  have hframed : framed (.run is ++ code) =
      saveVectors ++ (is ++ code.lower ++ restoreVectors ++ [.ret]) := rfl
  simp only [hlower, hframed, List.append_assoc]

section Kernel

variable {regs : List (Fin 32)} {n : ℕ} {code : Code} (h : code.Bounded regs n)
  (hregs : ∀ r ∈ regs, r.val < 18)
include h hregs

omit hregs in
theorem inRange_framed : ∀ i ∈ framed code, i.InRange := by
  refine List.forall_mem_append.2 ⟨fun i hi => (straight_saveVectors.plain i hi).inRange, ?_⟩
  refine List.forall_mem_append.2 ⟨List.forall_mem_append.2 ⟨h.wellFormed.inRange, ?_⟩, ?_⟩
  · exact fun i hi => (plain_restoreVectors i hi).inRange
  · exact List.forall_mem_singleton.2 trivial

theorem not_save_of_fetch {pc : ℕ} (hpc : saveVectors.length ≤ pc) {i : Instr}
    (hi : fetch ((framed code).map encode).toArray pc = some i) : i ∉ saveVectors := by
  intro hsave
  obtain ⟨pair, -, rfl⟩ := List.mem_map.1 hsave
  rw [fetch_map_encode (inRange_framed h), framed, List.getElem?_append_right hpc,
    Option.map_eq_some_iff] at hi
  obtain ⟨i, hi, hcanon⟩ := hi
  rcases List.mem_append.1 (List.mem_of_getElem? hi) with hmem | hmem
  · rcases List.mem_append.1 hmem with hinner | hrestore
    · have hwrites : i.WritesGeneral 31 := by
        rw [← writesGeneral_canonical, hcanon]
        exact ⟨by decide, rfl⟩
      exact absurd (hregs 31 (h.writes 31 (Code.writesGeneral_of_mem_lower hinner hwrites)))
        (by decide)
    · obtain ⟨pair', -, rfl⟩ := List.mem_map.1 hrestore
      cases hcanon
  · rw [List.mem_singleton.1 hmem] at hcanon
    cases hcanon

variable {F : Type} [Lane F]

omit hregs in
theorem runsTo_framed (s : State F) :
    RunsTo ((framed code).map encode).toArray ⟨0, s⟩ ⟨saveVectors.length, effects saveVectors s⟩ ∧
      RunsTo ((framed code).map encode).toArray ⟨saveVectors.length, effects saveVectors s⟩
        ⟨saveVectors.length + code.lower.length, code.exec (effects saveVectors s)⟩ := by
  have hwords : Holds ((framed code).map encode).toArray 0
      (saveVectors ++ (code.lower ++ restoreVectors ++ [.ret])) := holds_map_encode (framed code)
  rw [Holds.append_iff, Holds.append_iff, Holds.append_iff, Nat.zero_add] at hwords
  obtain ⟨hsave, ⟨hcode, -⟩, -⟩ := hwords
  have hfirst := runsTo_effects hsave straight_saveVectors.plain s
  rw [Nat.zero_add] at hfirst
  exact ⟨hfirst, Code.runsTo_exec h.wellFormed hcode _⟩

theorem saved_of_spares {s : State F} (hs : SparesSaved ((framed code).map encode).toArray s)
    {y : Address} (hy : y ∈ saveArea (s.general 31)) :
    (code.exec (effects saveVectors s)).memory y = (effects saveVectors s).memory y := by
  obtain ⟨hsaves, hcode⟩ := runsTo_framed h s
  have hback : BranchesBack (code.lower ++ restoreVectors) :=
    h.wellFormed.branchesBack.append (BranchesBack.of_plain plain_restoreVectors)
  refine memory_of_runsTo (fun d hd i hi => ?_) hcode
  have hbehind := hback.le_pc (inRange_framed h) le_rfl hd
  exact Set.disjoint_right.1 (hs d (hsaves.trans hd) i hi (not_save_of_fetch h hregs hbehind hi)) hy

theorem preserved_framed {s : State F} (hs : SparesSaved ((framed code).map encode).toArray s) :
    Preserved s (effects restoreVectors (code.exec (effects saveVectors s))) := by
  have hkeep {r : Fin 32} (hr : 18 ≤ r.val) : r ∉ regs := fun hmem => by
    have := hregs r hmem
    omega
  have hpairs : ∀ v : Fin 32, 8 ≤ v.val → v.val ≤ 15 →
      ∃ pair ∈ calleeSaved, v = pair.1.id ∨ v = pair.2.id := by decide
  have hdistinct : (calleeSaved.flatMap fun pair => [pair.1.id, pair.2.id]).Nodup := by decide
  obtain ⟨hstack, hvectors⟩ := pop_pushed calleeSaved hdistinct (by decide)
    (h.general (hkeep (by decide)) (effects saveVectors s)) fun y hy => saved_of_spares h hregs hs hy
  refine ⟨hstack, fun r hlo hhi => ?_, fun v hlo hhi l hl => ?_⟩
  · have hne : r ∉ [31] := by
      rw [List.mem_singleton]
      rintro rfl
      exact absurd hhi (by decide)
    rw [straight_restoreVectors.general hne, h.general (hkeep hlo), straight_saveVectors.general hne]
  · obtain ⟨pair, hpair, rfl | rfl⟩ := hpairs v hlo hhi
    · exact (hvectors pair hpair l hl).1
    · exact (hvectors pair hpair l hl).2

omit hregs in
theorem returnsIn_framed (s : State F) : ReturnsIn ((framed code).map encode).toArray s
    (effects restoreVectors (code.exec (effects saveVectors s))) := by
  have hbody : (Code.run saveVectors ++ code : Code).WellFormed :=
    ⟨straight_saveVectors.plain, h.wellFormed⟩
  have hlist : framed code =
      (Code.run saveVectors ++ code : Code).lower ++ (restoreVectors ++ [.ret]) := by
    rw [framed, List.append_assoc code.lower, ← List.append_assoc]
    rfl
  rw [hlist]
  exact Code.returnsIn_map_encode hbody plain_restoreVectors s

theorem keepsCallStandard_framed : KeepsCallStandard ((framed code).map encode).toArray where
  link _ _ hw hret := rn_of_decode_ret (inRange_framed h) hw hret
  returns F _ s hs := by
    refine ⟨⟨_, returnsIn_framed h s⟩, fun t ht => ?_⟩
    rw [ht.unique (returnsIn_framed h s)]
    exact preserved_framed h hregs hs

theorem keepsCallStandard_frameless (hvector : code.All fun i => ∀ v, ¬i.WritesVector v) :
    KeepsCallStandard ((code.lower ++ [Instr.ret]).map encode).toArray where
  link _ _ hw hret := by
    refine rn_of_decode_ret (List.forall_mem_append.2 ⟨h.wellFormed.inRange, ?_⟩) hw hret
    exact List.forall_mem_singleton.2 trivial
  returns F _ s _ := by
    have hreturns : ReturnsIn ((code.lower ++ [Instr.ret]).map encode).toArray s (code.exec s) :=
      Code.returnsIn_map_encode h.wellFormed (List.forall_mem_nil _) s
    refine ⟨⟨_, hreturns⟩, ?_⟩
    rintro t ⟨pc, hrun, -⟩
    have hkeep {r : Fin 32} (hr : 18 ≤ r.val) : t.general r = s.general r := by
      refine general_of_runsTo (fun pc i hi hw => ?_) hrun
      have := hregs r ((h.writes_fetched hvector hi).1 r hw)
      omega
    refine ⟨hkeep (by decide), fun r hr _ => hkeep hr, fun v _ _ l _ => ?_⟩
    exact congrFun (vector_of_runsTo (fun pc i hi => (h.writes_fetched hvector hi).2 v) hrun) l

end Kernel

/-! Straight code can be run to see where it stores. -/

def storesBetween (lo hi : ℕ) : List Instr → State F → Bool
  | [], _ => true
  | i :: is, s =>
    (i ∈ saveVectors ||
        (i.stored s).all fun place => lo ≤ place.1.toNat && place.1.toNat + place.2 ≤ hi) &&
      storesBetween lo hi is (i.effect s)

section Straight

variable {lo hi : ℕ} {is : List Instr} (hrange : ∀ i ∈ is ++ [Instr.ret], i.InRange)
  (hplain : ∀ i ∈ is, i.isControl = false) {s : State F} (h : storesBetween lo hi is s = true)
include hrange hplain h

theorem storesBetween_of_runsTo {c : Config F}
    (hrun : RunsTo ((is ++ [Instr.ret]).map encode).toArray ⟨0, s⟩ c) :
    ∃ rest, (is ++ [Instr.ret]).drop c.pc = rest ++ [Instr.ret] ∧ (∀ i ∈ rest, i.isControl = false) ∧
      storesBetween lo hi rest c.state = true := by
  induction hrun with
  | refl => exact ⟨is, rfl, hplain, h⟩
  | @tail b c _ hstep ih =>
    obtain ⟨rest, hdrop, hrest, hbetween⟩ := ih
    obtain ⟨i, hi, hstep, hstate⟩ := exists_fetch_of_step hstep
    rw [fetch_map_encode hrange, ← List.head?_drop, hdrop] at hi
    cases rest with
    | nil =>
      cases hi
      cases hstep
    | cons j rest =>
      cases hi
      rw [List.forall_mem_cons] at hrest
      rw [storesBetween, Bool.and_eq_true] at hbetween
      have hpc := Instr.pc_of_plain ((isControl_canonical j).trans hrest.1) hstep
      refine ⟨rest, ?_, hrest.2, ?_⟩
      · rw [hpc, ← List.tail_drop, hdrop]
        rfl
      · rw [hstate, effect_canonical]
        exact hbetween.2

theorem sparesSaved_of_storesBetween (hapart : hi + 64 ≤ (s.general 31).toNat) :
    SparesSaved ((is ++ [Instr.ret]).map encode).toArray s := by
  intro c hrun i hi hsave
  obtain ⟨rest, hdrop, -, hbetween⟩ := storesBetween_of_runsTo hrange hplain h hrun
  rw [fetch_map_encode hrange, ← List.head?_drop, hdrop] at hi
  cases rest with
  | nil =>
    cases hi
    exact Set.empty_disjoint _
  | cons j rest =>
    cases hi
    have hsaves : ∀ i ∈ saveVectors, i.canonical ∈ saveVectors := by decide
    rw [storesBetween, Bool.and_eq_true, Bool.or_eq_true, decide_eq_true_eq] at hbetween
    have hwhere := hbetween.1.resolve_left fun hmem => hsave (hsaves j hmem)
    rw [stores, stored_canonical]
    cases hstored : j.stored c.state with
    | none => exact Set.empty_disjoint _
    | some place =>
      rw [hstored, Option.all_some, Bool.and_eq_true, decide_eq_true_eq, decide_eq_true_eq] at hwhere
      have hsp := (s.general 31).isLt
      have hbase : (s.general 31 - 64).toNat = (s.general 31).toNat - 64 :=
        BitVec.toNat_sub_of_le (BitVec.le_def.2 (by change 64 ≤ _; omega))
      refine Set.disjoint_left.2 fun y hy hsaved => ?_
      have hbelow := Memory.toNat_of_mem_region (by omega) hy
      have habove := Memory.toNat_of_mem_region (by omega) hsaved
      omega

end Straight

end TensorKernels
