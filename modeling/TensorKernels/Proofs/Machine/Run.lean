import TensorKernels.Proofs.Machine.Decode
import TensorKernels.Proofs.Machine.State

/-!
Runs of assembled words. The program counter is a word index; a step fetches the word there, decodes
it and has its effect or branches. There is no step from a return, from a word that is no known
instruction, or from one whose outcome the architecture leaves open.
-/

namespace TensorKernels

namespace Instr

/-- Whether the architecture fixes the outcome of an instruction and single precision lanes describe
it. -/
def isDefined : Instr → Bool
  | .movz rd _ hw | .movk rd _ hw => 16 * hw < rd.bits
  | .addReg rd _ _ _ amount | .subReg rd _ _ _ amount => amount < rd.bits
  | .transfer _ rt rn _ mode => mode = .offset ∨ rt.id ≠ rn.id ∨ rn.id = 31
  | .transferPair dir _ rt rt2 _ _ _ => dir = .store ∨ rt ≠ rt2
  | .fmax arr _ _ _ => arr ≠ .d2
  | _ => true

def isControl : Instr → Bool
  | .cbz _ _ | .cbnz _ _ | .b _ | .ret => true
  | _ => false

end Instr

structure Config (F : Type) where
  pc : ℕ
  state : State F

variable {F : Type}

def Config.jump (c : Config F) (d : Int) : Option (Config F) :=
  if 0 ≤ (c.pc : Int) + d then some ⟨((c.pc : Int) + d).toNat, c.state⟩ else none

variable [Lane F]

def Instr.step (i : Instr) (c : Config F) : Option (Config F) :=
  if i.isDefined then
    match i with
    | .ret => none
    | .b d => c.jump d
    | .cbz rt d => if c.state.read rt.width rt.id = 0 then c.jump d else some ⟨c.pc + 1, c.state⟩
    | .cbnz rt d => if c.state.read rt.width rt.id = 0 then some ⟨c.pc + 1, c.state⟩ else c.jump d
    | i => some ⟨c.pc + 1, i.effect c.state⟩
  else none

def fetch (words : Array Word) (pc : ℕ) : Option Instr := words[pc]?.bind decode

def step (words : Array Word) (c : Config F) : Option (Config F) :=
  (fetch words c.pc).bind fun i => i.step c

def RunsTo (words : Array Word) : Config F → Config F → Prop :=
  Relation.ReflTransGen fun c c' => step words c = some c'

/-- The second configuration is reached from the first by the words at the positions `pcs`, in that
order. -/
inductive RunsThrough (words : Array Word) : List ℕ → Config F → Config F → Prop
  | refl (c : Config F) : RunsThrough words [] c c
  | head {pcs : List ℕ} {c c' c'' : Config F} (h : step words c = some c')
      (h' : RunsThrough words pcs c' c'') : RunsThrough words (c.pc :: pcs) c c''

/-- Running the words from the first one reaches a return, in state `t`. -/
def ReturnsIn (words : Array Word) (s t : State F) : Prop :=
  ∃ pc, RunsTo words ⟨0, s⟩ ⟨pc, t⟩ ∧ fetch words pc = some .ret

namespace Instr

theorem effect_canonical (i : Instr) (s : State F) : i.canonical.effect s = i.effect s := by
  cases i with
  | lslImm rd rn amount =>
    cases amount with
    | zero => simp only [canonical, effect, BitVec.shiftLeft_zero, BitVec.ushiftRight_zero]
    | succ amount => rfl
  | mul rd rn rm =>
    have hzero : s.read rd.width 31 = 0 := if_pos rfl
    simp only [canonical, effect, hzero, zero_add]
  | _ => rfl

theorem isDefined_canonical (i : Instr) : i.canonical.isDefined = i.isDefined := by
  cases i with
  | lslImm rd rn amount => cases amount <;> rfl
  | _ => rfl

theorem isControl_canonical (i : Instr) : i.canonical.isControl = i.isControl := by
  cases i with
  | lslImm rd rn amount => cases amount <;> rfl
  | _ => rfl

structure Plain (i : Instr) : Prop where
  inRange : i.InRange
  isDefined : i.isDefined
  notControl : i.isControl = false

theorem step_of_not_control {i : Instr} (hd : i.isDefined) (hc : i.isControl = false)
    (c : Config F) : i.step c = some ⟨c.pc + 1, i.effect c.state⟩ := by
  cases i with
  | cbz | cbnz | b | ret => cases hc
  | _ => exact if_pos hd

def effects (is : List Instr) (s : State F) : State F := is.foldl (fun s i => i.effect s) s

@[simp] theorem effects_nil (s : State F) : effects [] s = s := rfl

@[simp] theorem effects_cons (i : Instr) (is : List Instr) (s : State F) :
    effects (i :: is) s = effects is (i.effect s) := rfl

@[simp] theorem effects_append (is js : List Instr) (s : State F) :
    effects (is ++ js) s = effects js (effects is s) := List.foldl_append

theorem general_effects {is : List Instr} {r : Fin 32} (h : ∀ i ∈ is, ¬i.WritesGeneral r)
    (s : State F) : (effects is s).general r = s.general r := by
  induction is generalizing s with
  | nil => rfl
  | cons i is ih =>
    rw [List.forall_mem_cons] at h
    rw [effects_cons, ih h.2, general_effect h.1]

end Instr

def Holds (words : Array Word) : ℕ → List Instr → Prop
  | _, [] => True
  | p, i :: is => words[p]? = some i.encode ∧ Holds words (p + 1) is

theorem Holds.append_iff {words : Array Word} {p : ℕ} {is js : List Instr} :
    Holds words p (is ++ js) ↔ Holds words p is ∧ Holds words (p + is.length) js := by
  induction is generalizing p with
  | nil => simp [Holds]
  | cons i is ih =>
    have hlen : p + (i :: is).length = p + 1 + is.length := by
      rw [List.length_cons]
      omega
    rw [List.cons_append, Holds, Holds, ih, hlen, and_assoc]

theorem Holds.mono {words words' : Array Word} {p : ℕ} {is : List Instr} (h : Holds words p is)
    (hkeep : ∀ q w, p ≤ q → q < p + is.length → words[q]? = some w → words'[q]? = some w) :
    Holds words' p is := by
  induction is generalizing p with
  | nil => trivial
  | cons i is ih =>
    rw [List.length_cons] at hkeep
    exact ⟨hkeep p _ le_rfl (by omega) h.1,
      ih h.2 fun q w hlo hhi => hkeep q w (by omega) (by omega)⟩

theorem holds_append_right (is : List Instr) (before : List Word) :
    Holds (before ++ is.map Instr.encode).toArray before.length is := by
  induction is generalizing before with
  | nil => trivial
  | cons i is ih =>
    refine ⟨by simp, ?_⟩
    have htail := ih (before ++ [i.encode])
    rwa [List.append_assoc, List.length_append] at htail

theorem holds_map_encode (is : List Instr) : Holds (is.map Instr.encode).toArray 0 is :=
  holds_append_right is []

theorem fetch_of_encode {words : Array Word} {p : ℕ} {i : Instr} (h : words[p]? = some i.encode)
    (hi : i.InRange) : fetch words p = some i.canonical := by
  rw [fetch, h, Option.bind_some, Instr.decode_encode hi]

theorem step_of_plain {words : Array Word} {p : ℕ} {i : Instr} (h : words[p]? = some i.encode)
    (hi : i.Plain) (s : State F) : step words ⟨p, s⟩ = some ⟨p + 1, i.effect s⟩ := by
  rw [step, fetch_of_encode h hi.inRange, Option.bind_some,
    Instr.step_of_not_control (by rw [Instr.isDefined_canonical, hi.isDefined])
      (by rw [Instr.isControl_canonical, hi.notControl]), Instr.effect_canonical]

namespace RunsThrough

variable {words : Array Word} {pcs pcs' : List ℕ} {c c' c'' : Config F}

theorem append (h : RunsThrough words pcs c c') (h' : RunsThrough words pcs' c' c'') :
    RunsThrough words (pcs ++ pcs') c c'' := by
  induction h with
  | refl c => exact h'
  | head hstep _ ih => exact head hstep (ih h')

theorem single (h : step words c = some c') : RunsThrough words [c.pc] c c' := head h (refl c')

theorem runsTo (h : RunsThrough words pcs c c') : RunsTo words c c' := by
  induction h with
  | refl c => exact Relation.ReflTransGen.refl
  | head hstep _ ih => exact Relation.ReflTransGen.head hstep ih

end RunsThrough

theorem RunsTo.exists_runsThrough {words : Array Word} {c c' : Config F} (h : RunsTo words c c') :
    ∃ pcs, RunsThrough words pcs c c' := by
  induction h using Relation.ReflTransGen.head_induction_on with
  | refl => exact ⟨[], .refl c'⟩
  | head hstep _ ih =>
    obtain ⟨pcs, hpcs⟩ := ih
    exact ⟨_, .head hstep hpcs⟩

theorem runsThrough_effects {words : Array Word} {p : ℕ} {is : List Instr} (h : Holds words p is)
    (hp : ∀ i ∈ is, i.Plain) (s : State F) :
    RunsThrough words (List.range' p is.length) ⟨p, s⟩ ⟨p + is.length, Instr.effects is s⟩ := by
  induction is generalizing p s with
  | nil => exact .refl _
  | cons i is ih =>
    rw [List.forall_mem_cons] at hp
    have hrest := ih h.2 hp.2 (i.effect s)
    rw [Nat.add_right_comm] at hrest
    exact .head (step_of_plain h.1 hp.1 s) hrest

theorem runsTo_effects {words : Array Word} {p : ℕ} {is : List Instr} (h : Holds words p is)
    (hp : ∀ i ∈ is, i.Plain) (s : State F) :
    RunsTo words ⟨p, s⟩ ⟨p + is.length, Instr.effects is s⟩ := (runsThrough_effects h hp s).runsTo

theorem step_cbnz_of_ne {words : Array Word} {p target : ℕ} {rt : GeneralReg} {d : Int}
    (h : words[p]? = some (Instr.cbnz rt d).encode) (hd : (Instr.cbnz rt d).InRange)
    (ht : (p : Int) + d = target) {s : State F} (hs : s.read rt.width rt.id ≠ 0) :
    step words ⟨p, s⟩ = some ⟨target, s⟩ := by
  have hstep : (Instr.cbnz rt d).step (⟨p, s⟩ : Config F) = Config.jump ⟨p, s⟩ d := if_neg hs
  have hcanon : (Instr.cbnz rt d).canonical = .cbnz rt d := rfl
  rw [step, fetch_of_encode h hd, Option.bind_some, hcanon, hstep, Config.jump, ht,
    if_pos (Int.natCast_nonneg _), Int.toNat_natCast]

theorem step_cbnz_of_eq {words : Array Word} {p : ℕ} {rt : GeneralReg} {d : Int}
    (h : words[p]? = some (Instr.cbnz rt d).encode) (hd : (Instr.cbnz rt d).InRange)
    {s : State F} (hs : s.read rt.width rt.id = 0) :
    step words ⟨p, s⟩ = some ⟨p + 1, s⟩ := by
  have hstep : (Instr.cbnz rt d).step (⟨p, s⟩ : Config F) = some ⟨p + 1, s⟩ := if_pos hs
  have hcanon : (Instr.cbnz rt d).canonical = .cbnz rt d := rfl
  rw [step, fetch_of_encode h hd, Option.bind_some, hcanon, hstep]

/-- Straight code: at most `n` plain instructions, which change no general register but `regs`. -/
structure Straight (regs : List (Fin 32)) (n : ℕ) (is : List Instr) : Prop where
  plain : ∀ i ∈ is, i.Plain
  writes : ∀ i ∈ is, ∀ r, i.WritesGeneral r → r ∈ regs
  length_le : is.length ≤ n

namespace Straight

variable {regs regs' : List (Fin 32)} {n n' : ℕ} {is js : List Instr}

theorem nil : Straight regs n [] := ⟨by simp, by simp, Nat.zero_le n⟩

theorem singleton {i : Instr} (hp : i.Plain) (hw : ∀ r, i.WritesGeneral r → r ∈ regs) :
    Straight regs 1 [i] := ⟨by simpa using hp, by simpa using hw, le_rfl⟩

theorem append (h : Straight regs n is) (h' : Straight regs n' js) :
    Straight regs (n + n') (is ++ js) where
  plain := List.forall_mem_append.2 ⟨h.plain, h'.plain⟩
  writes := List.forall_mem_append.2 ⟨h.writes, h'.writes⟩
  length_le := by
    rw [List.length_append]
    exact Nat.add_le_add h.length_le h'.length_le

theorem cons {i : Instr} (hp : i.Plain) (hw : ∀ r, i.WritesGeneral r → r ∈ regs)
    (h : Straight regs n is) : Straight regs (n + 1) (i :: is) := by
  rw [Nat.add_comm]
  exact (singleton hp hw).append h

theorem general (h : Straight regs n is) {r : Fin 32} (hr : r ∉ regs) (s : State F) :
    (Instr.effects is s).general r = s.general r :=
  Instr.general_effects (fun i hi hw => hr (h.writes i hi r hw)) s

theorem mono (h : Straight regs n is) (hr : regs ⊆ regs') (hn : n ≤ n') : Straight regs' n' is :=
  ⟨h.plain, fun i hi r hw => hr (h.writes i hi r hw), h.length_le.trans hn⟩

theorem flatMap {α : Type} {xs : List α} {f : α → List Instr}
    (h : ∀ x ∈ xs, Straight regs n (f x)) : Straight regs (xs.length * n) (xs.flatMap f) := by
  induction xs with
  | nil => exact nil
  | cons x xs ih =>
    rw [List.forall_mem_cons] at h
    rw [List.flatMap_cons, List.length_cons, Nat.succ_mul, Nat.add_comm]
    exact h.1.append (ih h.2)

theorem map {α : Type} {xs : List α} {f : α → Instr} (hp : ∀ x ∈ xs, (f x).Plain)
    (hw : ∀ x ∈ xs, ∀ r, (f x).WritesGeneral r → r ∈ regs) :
    Straight regs xs.length (xs.map f) :=
  ⟨by simpa using hp, by simpa using hw, (List.length_map f).le⟩

end Straight

end TensorKernels
