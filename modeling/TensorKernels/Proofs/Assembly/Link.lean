import TensorKernels.Proofs.Machine.Decode
import TensorKernels.Proofs.Result

/-!
Linking resolves every branch exactly. An assembly is written in steps: words, new labels, placements
and branches. A label stands where it was last placed after it had been created; a placement before
that is without effect. Linking succeeds exactly when every branch has such a label within its reach,
and then only the words of the branches change. Otherwise it reports the first branch that fails.
-/

namespace TensorKernels

namespace BranchForm

def reach : BranchForm → ℕ
  | .always => 2 ^ 25
  | .cbz _ | .cbnz _ => 2 ^ 18

theorem reaches_iff {form : BranchForm} {d : Int} :
    form.Reaches d ↔ -(form.reach : Int) ≤ d ∧ d < form.reach := by
  cases form <;> exact Iff.rfl

structure Compares (opcode : Word) (rt : GeneralReg) (d : Int) (w : Word) : Prop where
  opcode : w &&& 0x7F000000#32 = opcode
  width : (BitField.sf.extract w).toNat = rt.sf
  register : (BitField.rt.extract w).toNat = rt.id.val
  displacement : BitField.imm19.extractSigned w = d

def Encoded : BranchForm → Int → Word → Prop
  | .always, d, w => w &&& 0xFC000000#32 = 0x14000000#32 ∧ BitField.imm26.extractSigned w = d
  | .cbz rt, d, w => Compares 0x34000000#32 rt d w
  | .cbnz rt, d, w => Compares 0x35000000#32 rt d w

theorem compares_encode {opcode : Word} (rt : GeneralReg) {d : Int}
    (hlayout : BitField.Layout opcode [BitField.sf, BitField.imm19, BitField.rt])
    (hopcode : opcode &&& 0x7F000000#32 = opcode) (hlo : -2 ^ 18 ≤ d) (hhi : d < 2 ^ 18) :
    Compares opcode rt d (Instr.encodeCompareBranch opcode rt d) := by
  obtain ⟨hsf, hd, hrt, -⟩ :=
    BitField.hasAll_join hlayout [.ofNat 32 rt.sf, .ofInt 32 d, .ofNat 32 rt.id]
  have hfixed := BitField.join_and (m := 0x7F000000#32)
    (by decide : ∀ f ∈ [BitField.sf, BitField.imm19, BitField.rt], f.mask <<< f.lsb &&& _ = 0#32)
    [.ofNat 32 rt.sf, .ofInt 32 d, .ofNat 32 rt.id] opcode
  constructor
  · exact hfixed.trans hopcode
  · exact hsf.toNat_eq (by decide) rt.sf_lt
  · exact hrt.toNat_eq (by decide) rt.id.isLt
  · exact hd.extractSigned_eq (by decide) (by decide) hlo hhi

theorem encoded_instr {form : BranchForm} {d : Int} (h : form.Reaches d) :
    form.Encoded d (form.instr d).encode := by
  cases form with
  | always =>
    obtain ⟨hd, -⟩ := BitField.hasAll_join
      (by decide : BitField.Layout 0x14000000#32 [BitField.imm26]) [.ofInt 32 d]
    constructor
    · exact BitField.join_and (by decide : ∀ f ∈ [BitField.imm26], f.mask <<< f.lsb &&& _ = 0#32)
        [.ofInt 32 d] 0x14000000#32
    · exact hd.extractSigned_eq (by decide) (by decide) h.1 h.2
  | cbz rt => exact compares_encode rt (by decide) (by decide) h.1 h.2
  | cbnz rt => exact compares_encode rt (by decide) (by decide) h.1 h.2

end BranchForm

namespace Assembly

/-! One pass over the branches. -/

section Patch

variable {a : Assembly} {br : Branch} {d : Int} {e : BranchError}

theorem displacement_eq_ok_iff :
    a.displacement br = .ok d ↔
      ∃ p, a.target? br.label = some p ∧ d = (p : Int) - br.site ∧ br.form.Reaches d := by
  rw [displacement]
  cases a.target? br.label with
  | none => exact ⟨nofun, nofun⟩
  | some p =>
    dsimp only
    split_ifs with hreach
    · constructor
      · rintro ⟨⟩
        exact ⟨p, rfl, rfl, hreach⟩
      · rintro ⟨_, ⟨⟩, rfl, -⟩
        rfl
    · refine ⟨nofun, ?_⟩
      rintro ⟨_, ⟨⟩, rfl, hd⟩
      exact absurd hd hreach

theorem displacement_eq_error_iff :
    a.displacement br = .error e ↔
      (a.target? br.label = none ∧ e = .unbound br.site) ∨
        ∃ p, a.target? br.label = some p ∧ ¬br.form.Reaches ((p : Int) - br.site) ∧
          e = .outOfRange ((p : Int) - br.site) br.site := by
  rw [displacement]
  cases a.target? br.label with
  | none =>
    constructor
    · rintro ⟨⟩
      exact Or.inl ⟨rfl, rfl⟩
    · rintro (⟨-, rfl⟩ | ⟨_, ⟨⟩, -⟩)
      rfl
  | some p =>
    dsimp only
    split_ifs with hreach
    · refine ⟨nofun, ?_⟩
      rintro (⟨⟨⟩, -⟩ | ⟨_, ⟨⟩, hd, -⟩)
      exact absurd hreach hd
    · constructor
      · rintro ⟨⟩
        exact Or.inr ⟨p, rfl, hreach, rfl⟩
      · rintro (⟨⟨⟩, -⟩ | ⟨_, ⟨⟩, -, rfl⟩)
        rfl

theorem patch_eq_ok_iff {words linked : Array Word} :
    a.patch words br = .ok linked ↔ ∃ d, a.displacement br = .ok d ∧
      words.setIfInBounds br.site (br.form.instr d).encode = linked := by
  simp only [patch, bind_eq_ok_iff, pure_eq_ok_iff]

theorem patch_eq_error_iff {words : Array Word} :
    a.patch words br = .error e ↔ a.displacement br = .error e := by
  rw [patch, bind_eq_error_iff]
  constructor
  · rintro (h | ⟨d, -, h⟩)
    · exact h
    · cases h
  · exact Or.inl

theorem exists_foldlM_patch {branches : List Branch}
    (h : ∀ br ∈ branches, ∃ d, a.displacement br = .ok d) (words : Array Word) :
    ∃ linked, branches.foldlM a.patch words = .ok linked := by
  induction branches generalizing words with
  | nil => exact ⟨words, rfl⟩
  | cons br branches ih =>
    rw [List.forall_mem_cons] at h
    obtain ⟨⟨d, hd⟩, hrest⟩ := h
    obtain ⟨linked, hlinked⟩ := ih hrest (words.setIfInBounds br.site (br.form.instr d).encode)
    refine ⟨linked, ?_⟩
    rw [List.foldlM_cons, bind_eq_ok_iff]
    exact ⟨_, patch_eq_ok_iff.2 ⟨d, hd, rfl⟩, hlinked⟩

theorem foldlM_patch_eq_error_iff {branches : List Branch} {words : Array Word} :
    branches.foldlM a.patch words = .error e ↔
      ∃ before br after, branches = before ++ br :: after ∧
        (∀ br' ∈ before, ∃ d, a.displacement br' = .ok d) ∧ a.displacement br = .error e := by
  constructor
  · intro h
    induction branches generalizing words with
    | nil => cases h
    | cons br branches ih =>
      rw [List.foldlM_cons, bind_eq_error_iff] at h
      rcases h with hfirst | ⟨next, hfirst, hrest⟩
      · exact ⟨[], br, branches, rfl, nofun, patch_eq_error_iff.1 hfirst⟩
      · obtain ⟨d, hd, -⟩ := patch_eq_ok_iff.1 hfirst
        obtain ⟨before, br', after, rfl, hbefore, hbr'⟩ := ih hrest
        exact ⟨br :: before, br', after, rfl, List.forall_mem_cons.2 ⟨⟨d, hd⟩, hbefore⟩, hbr'⟩
  · rintro ⟨before, br, after, rfl, hbefore, hbr⟩
    obtain ⟨linked, hlinked⟩ := exists_foldlM_patch hbefore words
    rw [List.foldlM_append, bind_eq_error_iff]
    refine Or.inr ⟨linked, hlinked, ?_⟩
    rw [List.foldlM_cons, bind_eq_error_iff]
    exact Or.inl (patch_eq_error_iff.2 hbr)

theorem exists_displacement_of_foldlM_patch {branches : List Branch} {words linked : Array Word}
    (h : branches.foldlM a.patch words = .ok linked) (hbr : br ∈ branches) :
    ∃ d, a.displacement br = .ok d := by
  induction branches generalizing words with
  | nil => cases hbr
  | cons first branches ih =>
    rw [List.foldlM_cons, bind_eq_ok_iff] at h
    obtain ⟨next, hfirst, hrest⟩ := h
    obtain ⟨d, hd, -⟩ := patch_eq_ok_iff.1 hfirst
    rcases List.mem_cons.1 hbr with rfl | hbr
    · exact ⟨d, hd⟩
    · exact ih hrest hbr

theorem size_foldlM_patch {branches : List Branch} {words linked : Array Word}
    (h : branches.foldlM a.patch words = .ok linked) : linked.size = words.size := by
  induction branches generalizing words with
  | nil =>
    cases h
    rfl
  | cons br branches ih =>
    rw [List.foldlM_cons, bind_eq_ok_iff] at h
    obtain ⟨next, hfirst, hrest⟩ := h
    obtain ⟨d, -, rfl⟩ := patch_eq_ok_iff.1 hfirst
    rw [ih hrest, Array.size_setIfInBounds]

theorem getElem?_foldlM_patch_of_ne {branches : List Branch} {words linked : Array Word}
    (h : branches.foldlM a.patch words = .ok linked) {p : ℕ} (hp : ∀ br ∈ branches, br.site ≠ p) :
    linked[p]? = words[p]? := by
  induction branches generalizing words with
  | nil =>
    cases h
    rfl
  | cons br branches ih =>
    rw [List.forall_mem_cons] at hp
    rw [List.foldlM_cons, bind_eq_ok_iff] at h
    obtain ⟨next, hfirst, hrest⟩ := h
    obtain ⟨d, -, rfl⟩ := patch_eq_ok_iff.1 hfirst
    rw [ih hrest hp.2, Array.getElem?_setIfInBounds_ne hp.1]

theorem getElem?_foldlM_patch {branches : List Branch} {words linked : Array Word}
    (h : branches.foldlM a.patch words = .ok linked)
    (hsites : branches.Pairwise fun br br' => br.site < br'.site) (hbr : br ∈ branches)
    (hsize : br.site < words.size) :
    ∃ d, a.displacement br = .ok d ∧ linked[br.site]? = some (br.form.instr d).encode := by
  induction branches generalizing words with
  | nil => cases hbr
  | cons first branches ih =>
    rw [List.pairwise_cons] at hsites
    rw [List.foldlM_cons, bind_eq_ok_iff] at h
    obtain ⟨next, hfirst, hrest⟩ := h
    obtain ⟨d, hd, rfl⟩ := patch_eq_ok_iff.1 hfirst
    rcases List.mem_cons.1 hbr with rfl | hbr
    · refine ⟨d, hd, ?_⟩
      rw [getElem?_foldlM_patch_of_ne hrest fun br' hbr' => (hsites.1 br' hbr').ne']
      exact Array.getElem?_setIfInBounds_self_of_lt hsize
    · apply ih hrest hsites.2 hbr
      rwa [Array.size_setIfInBounds]

theorem link_eq_ok_iff {code : MachineCode} :
    a.link = .ok code ↔ ∃ words, a.branches.toList.foldlM a.patch a.words = .ok words ∧
      ⟨words, a.labels.size, a.branches.size⟩ = code := by
  simp only [link, bind_eq_ok_iff, pure_eq_ok_iff, Array.foldlM_toList]

theorem link_eq_error_iff :
    a.link = .error e ↔ a.branches.toList.foldlM a.patch a.words = .error e := by
  rw [link, bind_eq_error_iff, Array.foldlM_toList]
  constructor
  · rintro (h | ⟨words, -, h⟩)
    · exact h
    · cases h
  · exact Or.inl

end Patch

/-! Assemblies written in steps. -/

inductive Step
  | emit (w : Word)
  | newLabel
  | bindLabel (label : ℕ)
  | branchTo (form : BranchForm) (label : ℕ)
  deriving DecidableEq, Repr

namespace Step

def apply (a : Assembly) : Step → Assembly
  | .emit w => a.emitWord w
  | .newLabel => a.newLabel
  | .bindLabel label => a.bindLabel label
  | .branchTo form label => a.branchTo form label

def words : Step → List Word
  | .emit w => [w]
  | .branchTo form _ => [(form.instr 0).encode]
  | .newLabel | .bindLabel _ => []

end Step

def ofSteps (steps : List Step) : Assembly := steps.foldl Step.apply empty

def emitted (steps : List Step) : List Word := steps.flatMap Step.words

def position (steps : List Step) : ℕ := (emitted steps).length

def created (steps : List Step) : ℕ := steps.count .newLabel

/-- The last placement of a label is at word `p`, and the label had been created by then. -/
def PlacedAt (steps : List Step) (label p : ℕ) : Prop :=
  ∃ before after, steps = before ++ .bindLabel label :: after ∧ label < created before ∧
    .bindLabel label ∉ after ∧ position before = p

def Records (steps : List Step) (br : Branch) : Prop :=
  ∃ before after, steps = before ++ .branchTo br.form br.label :: after ∧ position before = br.site

/-- A branch leads over `d` words to its label, and can. -/
def Resolves (steps : List Step) (br : Branch) (d : Int) : Prop :=
  ∃ p, PlacedAt steps br.label p ∧ d = (p : Int) - br.site ∧ -(br.form.reach : Int) ≤ d ∧
    d < br.form.reach

def Fails (steps : List Step) (br : Branch) (e : BranchError) : Prop :=
  (e = .unbound br.site ∧ ∀ p, ¬PlacedAt steps br.label p) ∨
    ∃ p, PlacedAt steps br.label p ∧ e = .outOfRange ((p : Int) - br.site) br.site ∧
      ¬(-(br.form.reach : Int) ≤ (p : Int) - br.site ∧ (p : Int) - br.site < br.form.reach)

section Steps

variable {steps : List Step} {label p : ℕ}

theorem position_append (steps steps' : List Step) :
    position (steps ++ steps') = position steps + position steps' := by
  rw [position, emitted, List.flatMap_append, List.length_append]
  rfl

theorem position_cons (step : Step) (steps : List Step) :
    position (step :: steps) = step.words.length + position steps := by
  rw [position, emitted, List.flatMap_cons, List.length_append]
  rfl

theorem ofSteps_concat (steps : List Step) (step : Step) :
    ofSteps (steps ++ [step]) = step.apply (ofSteps steps) := by
  rw [ofSteps, List.foldl_append]
  rfl

theorem words_ofSteps (steps : List Step) : (ofSteps steps).words.toList = emitted steps := by
  induction steps using List.reverseRecOn with
  | nil => rfl
  | append_singleton steps step ih =>
    rw [ofSteps_concat, emitted, List.flatMap_append, ← emitted, ← ih]
    cases step <;> simp [Step.apply, Step.words, emitWord, newLabel, bindLabel, branchTo]

theorem here_ofSteps (steps : List Step) : (ofSteps steps).here = position steps := by
  rw [here, position, ← words_ofSteps, Array.length_toList]

theorem size_labels_ofSteps (steps : List Step) : (ofSteps steps).labels.size = created steps := by
  induction steps using List.reverseRecOn with
  | nil => rfl
  | append_singleton steps step ih =>
    rw [ofSteps_concat, created, List.count_append, ← created, ← ih]
    cases step <;> simp [Step.apply, emitWord, newLabel, bindLabel, branchTo]

theorem target?_apply (a : Assembly) (step : Step) (label : ℕ) :
    (step.apply a).target? label =
      if step = .bindLabel label ∧ label < a.labels.size then some a.here else a.target? label := by
  cases step with
  | emit w => exact (if_neg nofun).symm
  | branchTo form target => exact (if_neg nofun).symm
  | newLabel =>
    rw [if_neg nofun, Step.apply, target?, target?, newLabel, Array.getElem?_push]
    split_ifs with h
    · rw [h, Array.getElem?_eq_none le_rfl]
      rfl
    · rfl
  | bindLabel bound =>
    rw [Step.apply, target?, target?, bindLabel, Array.getElem?_setIfInBounds]
    by_cases hbound : bound = label
    · subst hbound
      by_cases hsize : bound < a.labels.size
      · simp only [hsize, and_self, if_true, Option.join_some]
      · simp only [hsize, and_false, if_true, if_false, Array.getElem?_eq_none (Nat.not_lt.1 hsize)]
    · simp only [hbound, Step.bindLabel.injEq, false_and, if_false]

theorem placedAt_concat_iff {step : Step} :
    PlacedAt (steps ++ [step]) label p ↔
      (step = .bindLabel label ∧ label < created steps ∧ position steps = p) ∨
        (step ≠ .bindLabel label ∧ PlacedAt steps label p) := by
  constructor
  · rintro ⟨before, after, heq, hcreated, hlast, hp⟩
    rcases List.eq_nil_or_concat after with rfl | ⟨after, last, rfl⟩
    · obtain ⟨rfl, hstep⟩ := List.append_inj' heq rfl
      exact Or.inl ⟨List.singleton_inj.1 hstep, hcreated, hp⟩
    · rw [List.concat_eq_append] at heq hlast
      rw [← List.cons_append, ← List.append_assoc] at heq
      obtain ⟨rfl, hstep⟩ := List.append_inj' heq rfl
      rw [List.mem_append, not_or, ← hstep, List.mem_singleton] at hlast
      exact Or.inr ⟨Ne.symm hlast.2, before, after, rfl, hcreated, hlast.1, hp⟩
  · rintro (⟨rfl, hcreated, hp⟩ | ⟨hstep, before, after, rfl, hcreated, hlast, hp⟩)
    · exact ⟨steps, [], rfl, hcreated, List.not_mem_nil, hp⟩
    · refine ⟨before, after ++ [step], by simp, hcreated, ?_, hp⟩
      rw [List.mem_append, not_or, List.mem_singleton]
      exact ⟨hlast, Ne.symm hstep⟩

theorem PlacedAt.lt_created (h : PlacedAt steps label p) : label < created steps := by
  obtain ⟨before, after, rfl, hcreated, -, -⟩ := h
  rw [created, List.count_append]
  exact Nat.lt_of_lt_of_le hcreated (Nat.le_add_right _ _)

theorem target?_ofSteps : (ofSteps steps).target? label = some p ↔ PlacedAt steps label p := by
  induction steps using List.reverseRecOn generalizing p with
  | nil =>
    constructor
    · intro h
      cases h
    · rintro ⟨before, after, h, -⟩
      cases before <;> cases h
  | append_singleton steps step ih =>
    rw [ofSteps_concat, placedAt_concat_iff, target?_apply, size_labels_ofSteps, here_ofSteps]
    by_cases hstep : step = .bindLabel label
    · subst hstep
      by_cases hcreated : label < created steps
      · simp [hcreated]
      · simp only [hcreated, and_false, if_false, false_and, ne_eq, not_true_eq_false, or_false, ih]
        exact iff_of_false (fun h => hcreated h.lt_created) id
    · simp only [hstep, false_and, if_false, false_or, ne_eq, not_false_eq_true, true_and, ih]

theorem target?_ofSteps_eq_none :
    (ofSteps steps).target? label = none ↔ ∀ p, ¬PlacedAt steps label p := by
  rw [Option.eq_none_iff_forall_ne_some]
  exact forall_congr' fun p => not_congr target?_ofSteps

def recorded : ℕ → List Step → List Branch
  | _, [] => []
  | p, .branchTo form label :: steps => ⟨p, label, form⟩ :: recorded (p + 1) steps
  | p, step :: steps => recorded (p + step.words.length) steps

theorem recorded_append (p : ℕ) (steps steps' : List Step) :
    recorded p (steps ++ steps') = recorded p steps ++ recorded (p + position steps) steps' := by
  induction steps generalizing p with
  | nil => rfl
  | cons step steps ih =>
    rw [List.cons_append, position_cons, ← Nat.add_assoc]
    cases step with
    | emit w | newLabel | bindLabel label => exact ih _
    | branchTo form label => exact congrArg _ (ih (p + 1))

theorem branches_ofSteps (steps : List Step) :
    (ofSteps steps).branches.toList = recorded 0 steps := by
  induction steps using List.reverseRecOn with
  | nil => rfl
  | append_singleton steps step ih =>
    rw [ofSteps_concat, recorded_append, ← ih, Nat.zero_add]
    cases step with
    | emit w | newLabel | bindLabel label => exact (List.append_nil _).symm
    | branchTo form label =>
      rw [← here_ofSteps]
      exact Array.toList_push ..

theorem exists_of_recorded {p : ℕ} {before after : List Branch} {br : Branch}
    (h : recorded p steps = before ++ br :: after) :
    ∃ steps₁ steps₂, steps = steps₁ ++ .branchTo br.form br.label :: steps₂ ∧
      recorded p steps₁ = before ∧ p + position steps₁ = br.site := by
  induction steps generalizing p before with
  | nil => cases before <;> cases h
  | cons step steps ih =>
    cases step with
    | emit w | newLabel | bindLabel label =>
      obtain ⟨steps₁, steps₂, rfl, hbefore, hsite⟩ := ih h
      refine ⟨_ :: steps₁, steps₂, rfl, hbefore, ?_⟩
      rw [position_cons, ← Nat.add_assoc]
      exact hsite
    | branchTo form label =>
      cases before with
      | nil =>
        obtain ⟨rfl, -⟩ := List.cons_eq_cons.1 h
        exact ⟨[], steps, rfl, rfl, rfl⟩
      | cons first before =>
        obtain ⟨rfl, hrest⟩ := List.cons_eq_cons.1 h
        obtain ⟨steps₁, steps₂, rfl, hbefore, hsite⟩ := ih hrest
        refine ⟨_ :: steps₁, steps₂, rfl, congrArg _ hbefore, ?_⟩
        rw [position_cons, ← Nat.add_assoc]
        exact hsite

theorem mem_recorded_iff {br : Branch} : br ∈ recorded 0 steps ↔ Records steps br := by
  constructor
  · intro h
    obtain ⟨before, after, hsplit⟩ := List.append_of_mem h
    obtain ⟨steps₁, steps₂, hsteps, -, hsite⟩ := exists_of_recorded hsplit
    exact ⟨steps₁, steps₂, hsteps, (Nat.zero_add _).symm.trans hsite⟩
  · rintro ⟨steps₁, steps₂, rfl, hsite⟩
    rw [recorded_append, Nat.zero_add, hsite]
    exact List.mem_append_right _ List.mem_cons_self

theorem Records.lt_position {br : Branch} (h : Records steps br) : br.site < position steps := by
  obtain ⟨before, after, rfl, hsite⟩ := h
  rw [← hsite, position_append, position_cons]
  exact Nat.lt_add_of_pos_right (Nat.lt_of_lt_of_le Nat.one_pos (Nat.le_add_right 1 _))

theorem le_site_of_mem_recorded {p : ℕ} {br : Branch} (h : br ∈ recorded p steps) :
    p ≤ br.site := by
  obtain ⟨before, after, hsplit⟩ := List.append_of_mem h
  obtain ⟨steps₁, -, -, -, hsite⟩ := exists_of_recorded hsplit
  exact Nat.le.intro hsite

theorem pairwise_recorded (p : ℕ) (steps : List Step) :
    (recorded p steps).Pairwise fun br br' => br.site < br'.site := by
  induction steps generalizing p with
  | nil => exact List.Pairwise.nil
  | cons step steps ih =>
    cases step with
    | emit w | newLabel | bindLabel label => exact ih _
    | branchTo form label =>
      refine List.pairwise_cons.2 ⟨fun br hbr => ?_, ih _⟩
      exact le_site_of_mem_recorded hbr

theorem displacement_ofSteps_eq_ok {br : Branch} {d : Int} :
    (ofSteps steps).displacement br = .ok d ↔ Resolves steps br d := by
  simp only [displacement_eq_ok_iff, target?_ofSteps, BranchForm.reaches_iff, Resolves]

theorem displacement_ofSteps_eq_error {br : Branch} {e : BranchError} :
    (ofSteps steps).displacement br = .error e ↔ Fails steps br e := by
  simp only [displacement_eq_error_iff, target?_ofSteps, target?_ofSteps_eq_none,
    BranchForm.reaches_iff, Fails]
  refine or_congr and_comm (exists_congr fun p => and_congr_right fun _ => and_comm)

theorem exists_link_ofSteps :
    (∃ code, (ofSteps steps).link = .ok code) ↔
      ∀ br, Records steps br → ∃ d, Resolves steps br d := by
  simp only [← displacement_ofSteps_eq_ok, ← mem_recorded_iff, ← branches_ofSteps]
  constructor
  · rintro ⟨code, hcode⟩ br hbr
    obtain ⟨words, hwords, -⟩ := link_eq_ok_iff.1 hcode
    exact exists_displacement_of_foldlM_patch hwords hbr
  · intro h
    obtain ⟨words, hwords⟩ := exists_foldlM_patch h (ofSteps steps).words
    exact ⟨_, link_eq_ok_iff.2 ⟨words, hwords, rfl⟩⟩

theorem link_ofSteps_eq_error {e : BranchError} :
    (ofSteps steps).link = .error e ↔
      ∃ before form label after, steps = before ++ .branchTo form label :: after ∧
        (∀ br, Records before br → ∃ d, Resolves steps br d) ∧
        Fails steps ⟨position before, label, form⟩ e := by
  simp only [← displacement_ofSteps_eq_ok, ← displacement_ofSteps_eq_error, ← mem_recorded_iff]
  rw [link_eq_error_iff, branches_ofSteps, foldlM_patch_eq_error_iff]
  constructor
  · rintro ⟨before, br, after, hsplit, hbefore, hbr⟩
    obtain ⟨steps₁, steps₂, hsteps, rfl, hsite⟩ := exists_of_recorded hsplit
    refine ⟨steps₁, br.form, br.label, steps₂, hsteps, hbefore, ?_⟩
    rw [← Nat.zero_add (position steps₁), hsite]
    exact hbr
  · rintro ⟨before, form, label, after, hsteps, hbefore, hbr⟩
    refine ⟨recorded 0 before, _, recorded (position before + 1) after, ?_, hbefore, hbr⟩
    rw [hsteps, recorded_append, Nat.zero_add]
    rfl

end Steps

/-- Linking, for every assembly: when it succeeds, what it changes, and which branch it blames. -/
theorem link_resolves_exactly (steps : List Step) :
    ((∃ code, (ofSteps steps).link = .ok code) ↔
      ∀ br, Records steps br → ∃ d, Resolves steps br d) ∧
    (∀ code, (ofSteps steps).link = .ok code →
      code.words.size = position steps ∧
      (∀ p, (∀ br, Records steps br → br.site ≠ p) → code.words[p]? = (emitted steps)[p]?) ∧
      ∀ br, Records steps br → ∃ w d, code.words[br.site]? = some w ∧ Resolves steps br d ∧
        br.form.Encoded d w) ∧
    ∀ e, (ofSteps steps).link = .error e ↔
      ∃ before form label after, steps = before ++ .branchTo form label :: after ∧
        (∀ br, Records before br → ∃ d, Resolves steps br d) ∧
        Fails steps ⟨position before, label, form⟩ e := by
  refine ⟨exists_link_ofSteps, fun code hcode => ?_, fun e => link_ofSteps_eq_error⟩
  obtain ⟨words, hwords, rfl⟩ := link_eq_ok_iff.1 hcode
  rw [branches_ofSteps] at hwords
  refine ⟨?_, fun p hp => ?_, fun br hbr => ?_⟩
  · rw [size_foldlM_patch hwords]
    exact here_ofSteps steps
  · rw [getElem?_foldlM_patch_of_ne hwords fun br hbr => hp br (mem_recorded_iff.1 hbr),
      ← words_ofSteps, Array.getElem?_toList]
  · have hsize : br.site < (ofSteps steps).words.size := by
      rw [← here, here_ofSteps]
      exact hbr.lt_position
    obtain ⟨d, hd, hword⟩ := getElem?_foldlM_patch hwords (pairwise_recorded 0 steps)
      (mem_recorded_iff.2 hbr) hsize
    obtain ⟨-, -, -, hreach⟩ := displacement_eq_ok_iff.1 hd
    exact ⟨_, d, hword, displacement_ofSteps_eq_ok.1 hd, BranchForm.encoded_instr hreach⟩

end Assembly

end TensorKernels
