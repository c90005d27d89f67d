import TensorKernels.Assembly.Code
import TensorKernels.Proofs.Assembly.Sequence
import TensorKernels.Proofs.Result

/-!
The words of assembled code. Lowering spells out every loop as the load of its trip count, its body,
the decrement and a branch back over both, so it does not depend on where the code lies. Assembly
reaches the same words by way of labels: it emits each branch with displacement zero and replaces it
when linking. The two agree as long as every loop is short enough for its branch.
-/

namespace TensorKernels.Code

def back (counter : GeneralReg) (n : ℕ) : List Instr :=
  [.subImm counter counter 1 false, .cbnz counter (-((n + 1 : ℕ) : Int))]

def lower : Code → List Instr
  | .run is => is
  | .seq first second => first.lower ++ second.lower
  | .loop _ 0 _ => []
  | .loop _ 1 body => body.lower
  | .loop counter trips body =>
      Sequence.loadConstant counter trips ++ (body.lower ++ back counter body.lower.length)

theorem lower_loop (counter : GeneralReg) (n : ℕ) (body : Code) :
    (Code.loop counter (n + 2) body).lower = Sequence.loadConstant counter (n + 2) ++
      (body.lower ++ back counter body.lower.length) := rfl

def ShortLoops : Code → Prop
  | .run _ => True
  | .seq first second => first.ShortLoops ∧ second.ShortLoops
  | .loop _ _ body => body.ShortLoops ∧ body.lower.length + 1 ≤ 2 ^ 18

/-! What emission adds: the words with their branches still open, the positions of the labels, and
the branches, for code that starts at position `p` with `l` labels before it. -/

def openWords : Code → List Word
  | .run is => is.map Instr.encode
  | .seq first second => first.openWords ++ second.openWords
  | .loop _ 0 _ => []
  | .loop _ 1 body => body.openWords
  | .loop counter trips body =>
      (Sequence.loadConstant counter trips).map Instr.encode ++ (body.openWords ++
        [(Instr.subImm counter counter 1 false).encode, (Instr.cbnz counter 0).encode])

def labels : Code → ℕ → List ℕ
  | .run _, _ => []
  | .seq first second, p => first.labels p ++ second.labels (p + first.openWords.length)
  | .loop _ 0 _, _ => []
  | .loop _ 1 body, p => body.labels p
  | .loop counter trips body, p =>
      let start := p + (Sequence.loadConstant counter trips).length
      start :: body.labels start

def branches : Code → ℕ → ℕ → List Branch
  | .run _, _, _ => []
  | .seq first second, p, l =>
      first.branches p l ++ second.branches (p + first.openWords.length) (l + (first.labels p).length)
  | .loop _ 0 _, _, _ => []
  | .loop _ 1 body, p, l => body.branches p l
  | .loop counter trips body, p, l =>
      let start := p + (Sequence.loadConstant counter trips).length
      body.branches start (l + 1) ++ [⟨start + body.openWords.length + 1, l, .cbnz counter⟩]

theorem length_openWords (code : Code) : code.openWords.length = code.lower.length := by
  induction code with
  | run is => exact List.length_map _
  | seq first second ih1 ih2 => simp only [openWords, lower, List.length_append, ih1, ih2]
  | loop counter trips body ih =>
    match trips with
    | 0 => rfl
    | 1 => exact ih
    | n + 2 => simp [openWords, lower, back, ih]

theorem emitAll_eq (a : Assembly) (is : List Instr) :
    a.emitAll is = { a with words := a.words ++ (is.map Instr.encode).toArray } := by
  rw [← Assembly.words_emitAll]
  conv_rhs => rw [← Assembly.labels_emitAll a is, ← Assembly.branches_emitAll a is]

theorem bindLabel_newLabel (a : Assembly) :
    a.newLabel.bindLabel a.nextLabel = { a with labels := a.labels.push (some a.here) } := by
  have hset : (a.labels.push none).setIfInBounds a.labels.size (some a.here) =
      a.labels.push (some a.here) := by
    rw [Array.setIfInBounds_def, dif_pos (by simp), Array.set_push, dif_neg (lt_irrefl _)]
  exact congrArg (fun labels => { a with labels := labels }) hset

theorem emitTo_eq (code : Code) (a : Assembly) :
    code.emitTo a =
      { words := a.words ++ code.openWords.toArray
        labels := a.labels ++ ((code.labels a.here).map some).toArray
        branches := a.branches ++ (code.branches a.here a.labels.size).toArray } := by
  induction code generalizing a with
  | run is => simp [emitTo, emitAll_eq, openWords, labels, branches]
  | seq first second ih1 ih2 =>
    rw [emitTo, ih1, ih2]
    simp [openWords, labels, branches, Assembly.here]
  | loop counter trips body ih =>
    obtain _ | _ | n := trips
    · simp [emitTo, Assembly.loop, openWords, labels, branches]
    · exact ih a
    · have hloop : (Code.loop counter (n + 2) body).emitTo a =
          ((body.emitTo ((a.emitAll (Sequence.loadConstant counter (n + 2))).newLabel.bindLabel
            (a.emitAll (Sequence.loadConstant counter (n + 2))).nextLabel)).emit
              (.subImm counter counter 1 false)).branchTo (.cbnz counter)
                (a.emitAll (Sequence.loadConstant counter (n + 2))).nextLabel := rfl
      rw [hloop, bindLabel_newLabel, emitAll_eq, ih]
      simp [openWords, labels, branches, Assembly.here, Assembly.emit, Assembly.emitWord,
        Assembly.branchTo, Assembly.nextLabel, BranchForm.instr, Nat.add_assoc]

def Placed (a : Assembly) : ℕ → List ℕ → Prop
  | _, [] => True
  | l, x :: xs => a.target? l = some x ∧ Placed a (l + 1) xs

theorem Placed.append_iff {a : Assembly} {l : ℕ} {xs ys : List ℕ} :
    Placed a l (xs ++ ys) ↔ Placed a l xs ∧ Placed a (l + xs.length) ys := by
  induction xs generalizing l with
  | nil => simp [Placed]
  | cons x xs ih =>
    have hlen : l + (x :: xs).length = l + 1 + xs.length := by
      rw [List.length_cons]
      omega
    rw [List.cons_append, Placed, Placed, ih, hlen, and_assoc]

theorem placed_append_right (a : Assembly) (before : List (Option ℕ)) {xs : List ℕ}
    (h : a.labels = (before ++ xs.map some).toArray) : Placed a before.length xs := by
  induction xs generalizing before with
  | nil => trivial
  | cons x xs ih =>
    refine ⟨by simp [Assembly.target?, h], ?_⟩
    have htail := ih (before ++ [some x]) (by simp [h])
    rwa [List.length_append] at htail

theorem displacement_back {a : Assembly} (counter : GeneralReg) {start n l : ℕ}
    (hl : a.target? l = some start) (hn : n + 1 ≤ 2 ^ 18) :
    a.displacement ⟨start + n + 1, l, .cbnz counter⟩ = .ok (-((n + 1 : ℕ) : Int)) := by
  have hd : (start : Int) - ((start + n + 1 : ℕ) : Int) = -((n + 1 : ℕ) : Int) := by omega
  have hreach : (BranchForm.cbnz counter).Reaches (-((n + 1 : ℕ) : Int)) := by
    constructor
    · simp only [BranchForm.rangeBits, BitField.imm19]
      omega
    · simp only [BranchForm.rangeBits, BitField.imm19]
      omega
  simp only [Assembly.displacement, hl, hd, if_pos hreach]

theorem patch_back {a : Assembly} (counter : GeneralReg) {before : List Word} {n l : ℕ}
    (hl : a.target? l = some before.length) (hn : n + 1 ≤ 2 ^ 18) (body after : List Word)
    (hbody : body.length = n) :
    [(⟨before.length + n + 1, l, .cbnz counter⟩ : Branch)].foldlM a.patch
        (before ++ (body ++ ([(Instr.subImm counter counter 1 false).encode,
          (Instr.cbnz counter 0).encode] ++ after))).toArray =
      .ok (before ++ (body ++ ((back counter n).map Instr.encode ++ after))).toArray := by
  have hset : (before ++ (body ++ ([(Instr.subImm counter counter 1 false).encode,
      (Instr.cbnz counter 0).encode] ++ after))).set (before.length + n + 1)
        (Instr.cbnz counter (-((n + 1 : ℕ) : Int))).encode =
      before ++ (body ++ ((back counter n).map Instr.encode ++ after)) := by
    rw [← hbody, Nat.add_assoc, List.set_append_right _ _ (by omega), Nat.add_sub_cancel_left,
      List.set_append_right _ _ (by omega), Nat.add_sub_cancel_left]
    rfl
  rw [List.foldlM_cons, Assembly.patch, displacement_back counter hl hn]
  simp only [BranchForm.instr, bind, Except.bind, pure, Except.pure, List.setIfInBounds_toArray,
    hset, List.foldlM_nil]

theorem foldlM_append_ok {ε α β : Type} {f : β → α → Except ε β} {xs ys : List α} {b c d : β}
    (h1 : xs.foldlM f b = .ok c) (h2 : ys.foldlM f c = .ok d) : (xs ++ ys).foldlM f b = .ok d := by
  rw [List.foldlM_append, h1]
  exact h2

/-- Linking the branches of a piece of code closes its words and leaves the ones around them. -/
theorem foldlM_patch (code : Code) (hshort : code.ShortLoops) (a : Assembly)
    (before after : List Word) (l : ℕ) (hl : Placed a l (code.labels before.length)) :
    (code.branches before.length l).foldlM a.patch (before ++ (code.openWords ++ after)).toArray =
      .ok (before ++ (code.lower.map Instr.encode ++ after)).toArray := by
  induction code generalizing before after l with
  | run is => rfl
  | seq first second ih1 ih2 =>
    have hlen : (before ++ first.lower.map Instr.encode).length =
        before.length + first.openWords.length := by
      rw [List.length_append, List.length_map, length_openWords]
    rw [labels, Placed.append_iff, ← hlen] at hl
    have h1 := ih1 hshort.1 before (second.openWords ++ after) l hl.1
    have h2 := ih2 hshort.2 (before ++ first.lower.map Instr.encode) after
      (l + (first.labels before.length).length) hl.2
    simp only [branches, ← hlen, openWords, lower, List.map_append, List.append_assoc] at h1 h2 ⊢
    exact foldlM_append_ok h1 h2
  | loop counter trips body ih =>
    match trips with
    | 0 => rfl
    | 1 => exact ih hshort.1 before after l hl
    | n + 2 =>
      have hlen : (before ++ (Sequence.loadConstant counter (n + 2)).map Instr.encode).length =
          before.length + (Sequence.loadConstant counter (n + 2)).length := by
        rw [List.length_append, List.length_map]
      simp only [labels, ← hlen] at hl
      -- the branches of the body are linked while the loop's own branch behind them is still open
      have hbody := ih hshort.1 (before ++ (Sequence.loadConstant counter (n + 2)).map Instr.encode)
        ([(Instr.subImm counter counter 1 false).encode, (Instr.cbnz counter 0).encode] ++ after)
        (l + 1) hl.2
      have hback := patch_back counter hl.1 hshort.2 (body.lower.map Instr.encode) after
        (List.length_map _)
      simp only [branches, ← hlen, openWords, lower, List.map_append, List.append_assoc,
        length_openWords] at hbody hback ⊢
      exact foldlM_append_ok hbody hback

theorem assemble_eq {code : Code} (hshort : code.ShortLoops) :
    code.assemble =
      .ok ⟨(code.lower.map Instr.encode).toArray, (code.labels 0).length,
        (code.branches 0 0).length⟩ := by
  have hemit := code.emitTo_eq Assembly.empty
  have hplaced : Placed (code.emitTo Assembly.empty) 0 (code.labels 0) :=
    placed_append_right _ [] (by rw [hemit]; simp [Assembly.empty, Assembly.here])
  have hpatch := code.foldlM_patch hshort (code.emitTo Assembly.empty) [] [] 0 hplaced
  have hbranches : (code.emitTo Assembly.empty).branches = (code.branches 0 0).toArray := by
    rw [hemit]
    simp [Assembly.empty, Assembly.here]
  have hwords : (code.emitTo Assembly.empty).words = code.openWords.toArray := by
    rw [hemit]
    simp [Assembly.empty]
  have hlabels : (code.emitTo Assembly.empty).labels.size = (code.labels 0).length := by
    rw [hemit]
    simp [Assembly.empty, Assembly.here]
  simp only [List.nil_append, List.append_nil, List.length_nil] at hpatch
  rw [assemble, Assembly.link, hbranches, hwords, List.foldlM_toArray, hpatch, hlabels]
  simp [bind, Except.bind, pure, Except.pure]

end TensorKernels.Code
