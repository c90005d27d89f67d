import TensorKernels.Proofs.Assembly.Lower

/-!
What structured code does, and that its words do the same. A loop has the effect of its body as many
times as it has trips; the counter is decremented after each of them. Code is well formed when its
instructions are plain and no loop body changes the counter of the loop around it. Running the
lowered words of well-formed code from their first one then reaches the word after them in the state
that the code leads to.
-/

namespace TensorKernels.Code

open Instr

variable {F : Type} [Lane F]

def trip (counter : GeneralReg) (body : State F → State F) (s : State F) : State F :=
  (Instr.subImm counter counter 1 false).effect (body s)

def exec : Code → State F → State F
  | .run is, s => effects is s
  | .seq first second, s => second.exec (first.exec s)
  | .loop _ 0 _, s => s
  | .loop _ 1 body, s => body.exec s
  | .loop counter trips body, s =>
      (trip counter body.exec)^[trips] (effects (Sequence.loadConstant counter trips) s)

theorem exec_loop (counter : GeneralReg) (n : ℕ) (body : Code) (s : State F) :
    (Code.loop counter (n + 2) body).exec s =
      (trip counter body.exec)^[n + 2] (effects (Sequence.loadConstant counter (n + 2)) s) := rfl

def WritesGeneral (r : Fin 32) : Code → Prop
  | .run is => ∃ i ∈ is, i.WritesGeneral r
  | .seq first second => first.WritesGeneral r ∨ second.WritesGeneral r
  | .loop counter _ body => counter.id = r ∨ body.WritesGeneral r

def WellFormed : Code → Prop
  | .run is => ∀ i ∈ is, i.Plain
  | .seq first second => first.WellFormed ∧ second.WellFormed
  | .loop counter trips body =>
      counter.IsX ∧ trips < 2 ^ 64 ∧ ¬body.WritesGeneral counter.id ∧ body.WellFormed ∧
        body.lower.length + 1 ≤ 2 ^ 18

theorem WellFormed.shortLoops {code : Code} (h : code.WellFormed) : code.ShortLoops := by
  induction code with
  | run is => trivial
  | seq first second ih1 ih2 => exact ⟨ih1 h.1, ih2 h.2⟩
  | loop counter trips body ih => exact ⟨ih h.2.2.2.1, h.2.2.2.2⟩

theorem general_trip {counter : GeneralReg} {body : State F → State F} {r : Fin 32}
    (hr : counter.id ≠ r) (hbody : ∀ s, (body s).general r = s.general r) (s : State F) :
    (trip counter body s).general r = s.general r := by
  rw [trip, general_effect (by simpa [Instr.WritesGeneral] using hr), hbody]

theorem general_exec {code : Code} {r : Fin 32} (h : ¬code.WritesGeneral r) (s : State F) :
    (code.exec s).general r = s.general r := by
  induction code generalizing s with
  | run is => exact general_effects (fun i hi hw => h ⟨i, hi, hw⟩) s
  | seq first second ih1 ih2 =>
    rw [WritesGeneral, not_or] at h
    rw [exec, ih2 h.2, ih1 h.1]
  | loop counter trips body ih =>
    rw [WritesGeneral, not_or] at h
    match trips with
    | 0 => rfl
    | 1 => exact ih h.2 s
    | n + 2 =>
      have hload (i) (hi : i ∈ Sequence.loadConstant counter (n + 2)) : ¬i.WritesGeneral r := by
        intro hw
        have hmem := (Sequence.straight_loadConstant counter (n + 2)).writes i hi r hw
        exact h.1 (List.mem_singleton.1 hmem).symm
      have htrips (k : ℕ) (s : State F) :
          ((trip counter body.exec)^[k] s).general r = s.general r := by
        induction k generalizing s with
        | zero => rfl
        | succ k ihk => rw [Function.iterate_succ_apply, ihk, general_trip h.1 (ih h.2)]
      rw [exec_loop, htrips, general_effects hload]

theorem counter_trip {counter : GeneralReg} {body : State F → State F} (hX : counter.IsX)
    (hcounter : ∀ s, (body s).general counter.id = s.general counter.id) {k : ℕ} {s : State F}
    (hs : s.general counter.id = ((k + 1 : ℕ) : BitVec 64)) :
    (trip counter body s).read counter.width counter.id = (k : BitVec 64) := by
  rw [hX.1, State.read_x64 _ hX.2, trip, effect_subImm _ hX, State.general_set, Function.update_self,
    hcounter, hs, if_neg (by decide), BitVec.shiftLeft_zero, Nat.cast_add, add_sub_cancel_right]

theorem runsThrough_trips {words : Array Word} {start n : ℕ} {counter : GeneralReg}
    {body : State F → State F} {passed : State F → List ℕ} (hX : counter.IsX) (hn : n + 1 ≤ 2 ^ 18)
    (hcounter : ∀ s, (body s).general counter.id = s.general counter.id)
    (hbody : ∀ s, RunsThrough words (passed s) ⟨start, s⟩ ⟨start + n, body s⟩)
    (hback : Holds words (start + n) (back counter n)) {k : ℕ} (hk : k + 1 < 2 ^ 64) {s : State F}
    (hs : s.general counter.id = ((k + 1 : ℕ) : BitVec 64)) :
    RunsThrough words
      ((List.range (k + 1)).flatMap fun i =>
        passed ((trip counter body)^[i] s) ++ [start + n, start + n + 1])
      ⟨start, s⟩ ⟨start + n + 2, (trip counter body)^[k + 1] s⟩ := by
  obtain ⟨hsub, hcbnz, -⟩ := hback
  have hrange : (Instr.cbnz counter (-((n + 1 : ℕ) : Int))).InRange :=
    ⟨by omega, by omega⟩
  have hdecrement (s : State F) :
      step words ⟨start + n, body s⟩ = some ⟨start + n + 1, trip counter body s⟩ :=
    step_of_plain hsub ⟨(by decide : 1 < 2 ^ 12), rfl, rfl⟩ (body s)
  have htrip {s : State F} {c : Config F}
      (h : step words ⟨start + n + 1, trip counter body s⟩ = some c) :
      RunsThrough words (passed s ++ [start + n, start + n + 1]) ⟨start, s⟩ c :=
    (hbody s).append (.head (hdecrement s) (.single h))
  -- the counter holds the trips left; the branch goes back unless it reads zero after the decrement
  induction k generalizing s with
  | zero =>
    have hzero : (trip counter body s).read counter.width counter.id = 0 := by
      rw [counter_trip hX hcounter hs, Nat.cast_zero]
    rw [Nat.zero_add, List.range_one, List.flatMap_singleton]
    exact htrip (step_cbnz_of_eq hcbnz hrange hzero)
  | succ k ih =>
    have hread := counter_trip hX hcounter hs
    have hleft : (trip counter body s).general counter.id = ((k + 1 : ℕ) : BitVec 64) := by
      rw [← hread, hX.1, State.read_x64 _ hX.2]
    have hne : (trip counter body s).read counter.width counter.id ≠ 0 := by
      rw [hread]
      intro hzero
      have hnat := Sequence.toNat_natCast_of_lt (n := k + 1) (by omega)
      rw [hzero] at hnat
      exact absurd hnat (by simp)
    have hagain : RunsThrough words (passed s ++ [start + n, start + n + 1]) ⟨start, s⟩
        ⟨start, trip counter body s⟩ :=
      htrip (step_cbnz_of_ne hcbnz hrange (by omega) hne)
    rw [List.range_succ_eq_map, List.flatMap_cons, List.flatMap_map]
    exact hagain.append (ih (by omega) hleft)

theorem runsTo_trips {words : Array Word} {start n : ℕ} {counter : GeneralReg}
    {body : State F → State F} (hX : counter.IsX) (hn : n + 1 ≤ 2 ^ 18)
    (hcounter : ∀ s, (body s).general counter.id = s.general counter.id)
    (hbody : ∀ s, RunsTo words ⟨start, s⟩ ⟨start + n, body s⟩)
    (hback : Holds words (start + n) (back counter n)) {k : ℕ} (hk : k + 1 < 2 ^ 64) {s : State F}
    (hs : s.general counter.id = ((k + 1 : ℕ) : BitVec 64)) :
    RunsTo words ⟨start, s⟩ ⟨start + n + 2, (trip counter body)^[k + 1] s⟩ := by
  choose passed hpassed using fun s => (hbody s).exists_runsThrough
  exact (runsThrough_trips hX hn hcounter hpassed hback hk hs).runsTo

/-- Running the words of well-formed code is executing it. -/
theorem runsTo_exec {code : Code} (h : code.WellFormed) {words : Array Word} {p : ℕ}
    (hwords : Holds words p code.lower) (s : State F) :
    RunsTo words ⟨p, s⟩ ⟨p + code.lower.length, code.exec s⟩ := by
  induction code generalizing p s with
  | run is => exact runsTo_effects hwords h s
  | seq first second ih1 ih2 =>
    rw [lower, Holds.append_iff] at hwords
    have hfirst := ih1 h.1 hwords.1 s
    have hsecond := ih2 h.2 hwords.2 (first.exec s)
    rw [lower, List.length_append, ← Nat.add_assoc]
    exact hfirst.trans hsecond
  | loop counter trips body ih =>
    obtain ⟨hX, htrips, hcounter, hbody, hlen⟩ := h
    obtain _ | _ | n := trips
    · exact Relation.ReflTransGen.refl
    · exact ih hbody hwords s
    · rw [lower_loop, Holds.append_iff, Holds.append_iff] at hwords
      obtain ⟨hload, hwords, hback⟩ := hwords
      have hstart := runsTo_effects hload (Sequence.straight_loadConstant counter (n + 2)).plain s
      have hset := Sequence.effects_loadConstant hX htrips s
      have hloop := runsTo_trips hX hlen (general_exec hcounter) (ih hbody hwords) hback htrips
        (s := effects (Sequence.loadConstant counter (n + 2)) s)
        (by rw [hset, State.general_set, Function.update_self])
      have hend : p + (Code.loop counter (n + 2) body).lower.length =
          p + (Sequence.loadConstant counter (n + 2)).length + body.lower.length + 2 := by
        simp only [lower_loop, back, List.length_append, List.length_cons, List.length_nil]
        omega
      rw [hend]
      exact hstart.trans hloop

/-- A property that a loop counter does not matter to, and that every trip takes from one number to
the next, holds with the number of trips after the loop. -/
theorem exec_loop_induction {P : ℕ → State F → Prop} {counter : GeneralReg} {trips : ℕ} {body : Code}
    (hX : counter.IsX) (htrips : trips < 2 ^ 64)
    (hset : ∀ i s v, P i s → P i (s.set counter.id v))
    (hbody : ∀ i < trips, ∀ s, P i s → P (i + 1) (body.exec s)) {s : State F} (h : P 0 s) :
    P trips ((Code.loop counter trips body).exec s) := by
  -- a single trip has no counter
  match trips with
  | 0 => exact h
  | 1 => exact hbody 0 Nat.one_pos s h
  | n + 2 =>
    have hiter (k : ℕ) (hk : k ≤ n + 2) :
        P k ((trip counter body.exec)^[k] (effects (Sequence.loadConstant counter (n + 2)) s)) := by
      induction k with
      | zero =>
        rw [Sequence.effects_loadConstant hX htrips]
        exact hset 0 s _ h
      | succ k ih =>
        rw [Function.iterate_succ_apply', trip, effect_subImm _ hX]
        exact hset _ _ _ (hbody k (by omega) _ (ih (by omega)))
    exact hiter (n + 2) le_rfl

structure Bounded (regs : List (Fin 32)) (n : ℕ) (code : Code) : Prop where
  wellFormed : code.WellFormed
  writes : ∀ r, code.WritesGeneral r → r ∈ regs
  length_le : code.lower.length ≤ n

namespace Bounded

variable {regs regs' : List (Fin 32)} {n n' : ℕ} {first second body : Code}

theorem run {is : List Instr} (h : Straight regs n is) : Bounded regs n (.run is) where
  wellFormed := h.plain
  writes := fun r ⟨i, hi, hw⟩ => h.writes i hi r hw
  length_le := h.length_le

theorem append (h1 : Bounded regs n first) (h2 : Bounded regs n' second) :
    Bounded regs (n + n') (first ++ second) where
  wellFormed := ⟨h1.wellFormed, h2.wellFormed⟩
  writes := fun r hw => hw.elim (h1.writes r) (h2.writes r)
  length_le := by
    have hlower : (first ++ second).lower = first.lower ++ second.lower := rfl
    rw [hlower, List.length_append]
    exact Nat.add_le_add h1.length_le h2.length_le

theorem general (h : Bounded regs n first) {r : Fin 32} (hr : r ∉ regs) (s : State F) :
    (first.exec s).general r = s.general r :=
  general_exec (fun hw => hr (h.writes r hw)) s

theorem mono (h : Bounded regs n first) (hr : regs ⊆ regs') (hn : n ≤ n') :
    Bounded regs' n' first :=
  ⟨h.wellFormed, fun r hw => hr (h.writes r hw), h.length_le.trans hn⟩

theorem loop {counter : GeneralReg} {trips : ℕ} (h : Bounded regs n body) (hX : counter.IsX)
    (htrips : trips < 2 ^ 64) (hr : counter.id ∉ regs) (hn : n + 1 ≤ 2 ^ 18) :
    Bounded (counter.id :: regs) (n + 6) (.loop counter trips body) where
  wellFormed := ⟨hX, htrips, fun hw => hr (h.writes _ hw), h.wellFormed,
    (Nat.add_le_add_right h.length_le 1).trans hn⟩
  writes := by
    rintro r (rfl | hw)
    · exact List.mem_cons_self
    · exact List.mem_cons_of_mem _ (h.writes r hw)
  length_le := by
    have hbody := h.length_le
    match trips with
    | 0 => exact Nat.zero_le _
    | 1 => exact hbody.trans (Nat.le_add_right n 6)
    | k + 2 =>
      have hload := (Sequence.straight_loadConstant counter (k + 2)).length_le
      simp only [lower_loop, back, List.length_append, List.length_cons, List.length_nil]
      omega

theorem concat {pieces : List Code} (h : ∀ piece ∈ pieces, Bounded regs n piece) :
    Bounded regs (pieces.length * n) (Code.concat pieces) := by
  induction pieces with
  | nil => exact run Straight.nil
  | cons first rest ih =>
    rw [List.forall_mem_cons] at h
    rw [List.length_cons, Nat.succ_mul, Nat.add_comm]
    exact h.1.append (ih h.2)

end Bounded

end TensorKernels.Code
