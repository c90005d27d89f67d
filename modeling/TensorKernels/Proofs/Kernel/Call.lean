import TensorKernels.Proofs.Kernel.Generation
import TensorKernels.Proofs.Nest.Plan

/-!
The checks of a call's operands. The span of an access pattern is one more than the greatest position
that it addresses, and a span that does not fit a count belongs to a position that no operand has. So
a call passes its checks exactly when every element that the kernel addresses lies in its operand, and
is refused otherwise, whatever the strides are. What passes is refused by a foreign host; a native
one goes on to the code if every stride is a signed number of 64 bits.
-/

namespace TensorKernels

namespace Count

/-- The positions that an access pattern addresses: `inner` consecutive ones, repeated over the
`(count, stride)` axes. -/
def positions (inner : ℕ) : List (ℕ × ℕ) → Set ℕ
  | [] => {x | x < inner}
  | axis :: axes => {x | ∃ y ∈ positions inner axes, ∃ l < axis.1, y + l * axis.2 = x}

theorem positions_eq_empty {inner : ℕ} {axes : List (ℕ × ℕ)}
    (h : inner = 0 ∨ ∃ axis ∈ axes, axis.1 = 0) : positions inner axes = ∅ := by
  rw [Set.eq_empty_iff_forall_notMem]
  intro x hx
  induction axes generalizing x with
  | nil =>
    have hlt : x < inner := hx
    rcases h with hzero | ⟨axis, hmem, -⟩
    · omega
    · cases hmem
  | cons axis axes ih =>
    obtain ⟨y, hy, l, hl, -⟩ := hx
    rw [List.exists_mem_cons_iff] at h
    rcases h with hzero | hzero | hrest
    · exact ih (Or.inl hzero) y hy
    · omega
    · exact ih (Or.inr hrest) y hy

theorem isGreatest_positions {inner : ℕ} {axes : List (ℕ × ℕ)} (hinner : 0 < inner)
    (haxes : ∀ axis ∈ axes, 0 < axis.1) :
    IsGreatest (positions inner axes)
      (inner - 1 + (axes.map fun axis => (axis.1 - 1) * axis.2).sum) := by
  induction axes with
  | nil =>
    refine ⟨Nat.sub_lt hinner Nat.one_pos, fun x hx => ?_⟩
    have hlt : x < inner := hx
    rw [List.map_nil, List.sum_nil]
    omega
  | cons axis axes ih =>
    -- the farthest position takes the last step of every axis
    rw [List.forall_mem_cons] at haxes
    obtain ⟨hmem, hle⟩ := ih haxes.2
    rw [List.map_cons, List.sum_cons, Nat.add_left_comm, Nat.add_comm]
    refine ⟨⟨_, hmem, axis.1 - 1, Nat.sub_lt haxes.1 Nat.one_pos, rfl⟩, ?_⟩
    rintro x ⟨y, hy, l, hl, rfl⟩
    exact Nat.add_le_add (hle hy) (Nat.mul_le_mul_right _ (by omega))

theorem any_span_le_iff_sum {inner holds : ℕ} {axes : List (ℕ × ℕ)} (hinner : 0 < inner)
    (haxes : ∀ axis ∈ axes, 0 < axis.1) (hholds : holds < limit) :
    (span inner axes).any (· ≤ holds) = true ↔
      inner + (axes.map fun axis => (axis.1 - 1) * axis.2).sum ≤ holds := by
  cases hspan : span inner axes with
  | none =>
    -- what does not fit a count is longer than any operand
    refine iff_of_false Bool.false_ne_true fun hle => ?_
    have hsome := (span_eq_some_iff hinner haxes).2 ⟨rfl, fun _ => hle.trans_lt hholds⟩
    cases hspan.symm.trans hsome
  | some total =>
    rw [((span_eq_some_iff hinner haxes).1 hspan).1]
    exact decide_eq_true_iff

theorem any_span_le_iff {inner holds : ℕ} {axes : List (ℕ × ℕ)} (hholds : holds < limit) :
    (span inner axes).any (· ≤ holds) = true ↔ ∀ x ∈ positions inner axes, x < holds := by
  by_cases hempty : inner = 0 ∨ ∃ axis ∈ axes, axis.1 = 0
  · have hspan : span inner axes = some 0 := by
      refine if_pos (hempty.imp_right fun ⟨axis, hmem, hzero⟩ => ?_)
      exact List.any_eq_true.2 ⟨axis, hmem, beq_iff_eq.2 hzero⟩
    rw [hspan, positions_eq_empty hempty]
    exact iff_of_true (decide_eq_true (Nat.zero_le holds)) fun x hx => hx.elim
  · rw [not_or] at hempty
    push Not at hempty
    have hinner : 0 < inner := Nat.pos_of_ne_zero hempty.1
    have haxes : ∀ axis ∈ axes, 0 < axis.1 := fun axis hmem =>
      Nat.pos_of_ne_zero (hempty.2 axis hmem)
    have hgreatest := isGreatest_positions hinner haxes
    rw [any_span_le_iff_sum hinner haxes hholds]
    constructor
    · intro hle x hx
      have hlast := hgreatest.2 hx
      omega
    · intro hlt
      have hlast := hlt _ hgreatest.1
      omega

theorem forall_positions_one {inner count stride holds : ℕ} :
    (∀ x ∈ positions inner [(count, stride)], x < holds) ↔
      ∀ i < inner, ∀ l < count, i + l * stride < holds := by
  constructor
  · exact fun h i hi l hl => h _ ⟨i, hi, l, hl, rfl⟩
  · rintro h x ⟨i, hi, l, hl, rfl⟩
    exact h i hi l hl

theorem forall_positions_two {inner count stride count' stride' holds : ℕ} :
    (∀ x ∈ positions inner [(count, stride), (count', stride')], x < holds) ↔
      ∀ i < inner, ∀ l < count, ∀ e < count', i + l * stride + e * stride' < holds := by
  constructor
  · intro h i hi l hl e he
    rw [Nat.add_right_comm]
    exact h _ ⟨_, ⟨i, hi, e, he, rfl⟩, l, hl, rfl⟩
  · rintro h x ⟨y, ⟨i, hi, e, he, rfl⟩, l, hl, rfl⟩
    rw [Nat.add_right_comm]
    exact h i hi l hl e he

end Count

/-- How a call ends whose arguments are checked before the host is. Admissible ones come as far as
the host: a foreign one refuses them all, a native one the first stride that is no signed number.
Others are refused as parameters on every host. -/
structure ChecksExactly (call : Host → Except Error Unit) (admissible : Prop)
    (strides : List (String × ℕ)) : Prop where
  foreign : ∀ host, host.isNative = false →
    (call host = .error (.unsupportedHost host.arch) ↔ admissible)
  native : ∀ host, host.isNative = true →
    (call host = .ok () ↔ admissible ∧ ∀ s ∈ strides, s.2 < 2 ^ 63)
  wide : ∀ host, host.isNative = true → admissible → ∀ before name stride after,
    strides = before ++ (name, stride) :: after → (∀ s ∈ before, s.2 < 2 ^ 63) → 2 ^ 63 ≤ stride →
      call host = .error (.badParameter (.strideTooWide name stride))
  refuses : ¬admissible → ∃ cause, ∀ host, call host = .error (.badParameter cause)

theorem checkStrides_eq_ok_iff {strides : List (String × ℕ)} :
    checkStrides strides = .ok () ↔ ∀ s ∈ strides, s.2 < 2 ^ 63 := by
  simp only [checkStrides, forM_eq_ok_iff, require_eq_ok_iff, decide_eq_true_eq]
  rfl

theorem checkStrides_eq_error {before after : List (String × ℕ)} {name : String} {stride : ℕ}
    (hbefore : ∀ s ∈ before, s.2 < 2 ^ 63) (hwide : 2 ^ 63 ≤ stride) :
    checkStrides (before ++ (name, stride) :: after) =
      .error (.badParameter (.strideTooWide name stride)) := by
  have hcons (s : String × ℕ) (rest : List (String × ℕ)) : checkStrides (s :: rest) =
      require (s.2 < 2 ^ 63) (.strideTooWide s.1 s.2) >>= fun _ => checkStrides rest := rfl
  induction before with
  | nil =>
    rw [List.nil_append, hcons, require, decide_eq_false (Nat.not_lt.2 hwide)]
    rfl
  | cons s rest ih =>
    rw [List.forall_mem_cons] at hbefore
    rw [List.cons_append, hcons, require_eq_ok_iff.2 (decide_eq_true hbefore.1)]
    exact ih hbefore.2

theorem ensureNative_eq_ok {host : Host} (h : host.isNative = true) : host.ensureNative = .ok () :=
  if_pos h

theorem ensureNative_eq_error {host : Host} (h : host.isNative = false) :
    host.ensureNative = .error (.unsupportedHost host.arch) :=
  if_neg (Bool.not_eq_true _ ▸ h)

theorem checksExactly_of_check {check : Except Error Unit} {admissible : Prop}
    (hok : check = .ok () ↔ admissible) (hrefuses : ∀ e, check = .error e → e.RefusesParameters)
    (strides : List (String × ℕ)) :
    ChecksExactly (fun host => do check; host.ensureNative; checkStrides strides) admissible
      strides := by
  cases check with
  | error e =>
    obtain ⟨cause, rfl, -⟩ := hrefuses e rfl
    have hnot : ¬admissible := by
      intro h
      cases hok.2 h
    refine ⟨fun _ _ => iff_of_false ?_ hnot, fun _ _ => iff_of_false ?_ fun h => hnot h.1,
      fun _ _ h => absurd h hnot, fun _ => ⟨cause, fun _ => rfl⟩⟩ <;> nofun
  | ok _ =>
    have hadmissible := hok.1 rfl
    have hcall (host : Host) :
        (do (.ok () : Except Error Unit); host.ensureNative; checkStrides strides) =
          host.ensureNative >>= fun _ => checkStrides strides := rfl
    refine ⟨fun host hhost => iff_of_true ?_ hadmissible, fun host hhost => ?_,
      fun host hhost _ before name stride after hsplit hbefore hwide => ?_,
      fun h => absurd hadmissible h⟩
    · rw [hcall, ensureNative_eq_error hhost]
      rfl
    · rw [hcall, check_bind_eq_ok_iff, checkStrides_eq_ok_iff]
      exact and_congr_left fun _ => iff_of_true (ensureNative_eq_ok hhost) hadmissible
    · rw [hcall, ensureNative_eq_ok hhost, hsplit]
      exact checkStrides_eq_error hbefore hwide

namespace Gemm

/-- Strides for which every element that a product addresses lies in operands of the given lengths. -/
structure Shape.Addressable (s : Shape) (strides : Strides) (a b c : ℕ) : Prop where
  lda : s.m ≤ strides.lda
  ldb : s.k ≤ strides.ldb
  ldc : s.m ≤ strides.ldc
  left : ∀ i < s.m, ∀ l < s.k, ∀ e < s.batch, i + l * strides.lda + e * strides.batchA < a
  right : ∀ l < s.k, ∀ j < s.n, ∀ e < s.batch, l + j * strides.ldb + e * strides.batchB < b
  out : ∀ i < s.m, ∀ j < s.n, i + j * strides.ldc < c

namespace Kernel

theorem checkOperand_eq_ok_iff {operand : GemmOperand} {inner holds : ℕ} {axes : List (ℕ × ℕ)}
    (hholds : holds < Count.limit) :
    checkOperand operand (Count.span inner axes) holds = .ok () ↔
      ∀ x ∈ Count.positions inner axes, x < holds := by
  rw [checkOperand, require_eq_ok_iff, Count.any_span_le_iff hholds]

theorem checkCall_eq_ok_iff {kernel : Kernel} {a b c : ℕ} (ha : a < Count.limit)
    (hb : b < Count.limit) (hc : c < Count.limit) {strides : Strides} :
    kernel.checkCall a b c strides = .ok () ↔ kernel.shape.Addressable strides a b c := by
  simp only [checkCall, check_bind_eq_ok_iff, require_eq_ok_iff, Bool.and_eq_true, decide_eq_true_eq,
    checkOperand_eq_ok_iff ha, checkOperand_eq_ok_iff hb, checkOperand_eq_ok_iff hc,
    Count.forall_positions_one, Count.forall_positions_two]
  constructor
  · rintro ⟨⟨⟨hlda, hldb⟩, hldc⟩, hleft, hright, hout⟩
    exact ⟨hlda, hldb, hldc, hleft, hright, hout⟩
  · intro h
    exact ⟨⟨⟨h.lda, h.ldb⟩, h.ldc⟩, h.left, h.right, h.out⟩

theorem refuses_checkCall {kernel : Kernel} {a b c : ℕ} {strides : Strides} {e : Error}
    (h : kernel.checkCall a b c strides = .error e) : e.RefusesParameters := by
  refine refuses_bind (fun _ => refuses_require (by nofun)) (fun _ => ?_) h
  refine refuses_bind (fun _ => refuses_require (by nofun)) fun _ => ?_
  exact refuses_bind (fun _ => refuses_require (by nofun)) fun _ => refuses_require (by nofun)

theorem shape_of_generate {shape : Shape} {kernel : Kernel} (h : generate shape = .ok kernel) :
    kernel.shape = shape := by
  simp only [generate, bind_eq_ok_iff, pure_eq_ok_iff] at h
  obtain ⟨-, -, code, -, rfl⟩ := h
  rfl

end Kernel

end Gemm

namespace Elementwise

structure Addressable (op : Op) (m n : ℕ) (input : Option ℕ) (output ldIn ldOut : ℕ) : Prop where
  rows_le : (if op = .transpose then n else m) ≤ ldOut
  out : ∀ i < m, ∀ j < n, (if op = .transpose then j + i * ldOut else i + j * ldOut) < output
  input : (∃ length, input = some length ∧ m ≤ ldIn ∧ ∀ i < m, ∀ j < n, i + j * ldIn < length) ∨
    input = none ∧ op = .zero

namespace Kernel

variable {kernel : Kernel} {input : Option ℕ} {output ldIn ldOut : ℕ}

theorem outputShape_eq (kernel : Kernel) : kernel.outputShape =
    if kernel.op = .transpose then (kernel.n, kernel.m) else (kernel.m, kernel.n) := by
  rw [outputShape]
  cases kernel.op <;> rfl

theorem checkOutput_iff (kernel : Kernel) (ldOut : ℕ) (houtput : output < Count.limit) :
    (kernel.outputShape.1 ≤ ldOut ∧
      (Count.span kernel.outputShape.1 [(kernel.outputShape.2, ldOut)]).any (· ≤ output) = true) ↔
    (if kernel.op = .transpose then kernel.n else kernel.m) ≤ ldOut ∧
      ∀ i < kernel.m, ∀ j < kernel.n,
        (if kernel.op = .transpose then j + i * ldOut else i + j * ldOut) < output := by
  rw [Count.any_span_le_iff houtput, Count.forall_positions_one, outputShape_eq]
  split_ifs
  · -- the rows of a transposed output are the columns of its input
    refine and_congr_right fun _ => ?_
    exact ⟨fun h i hi j hj => h j hj i hi, fun h j hj i hi => h i hi j hj⟩
  · exact Iff.rfl

theorem checkCall_eq_ok_iff (hinput : ∀ length ∈ input, length < Count.limit)
    (houtput : output < Count.limit) :
    kernel.checkCall input output ldIn ldOut = .ok () ↔
      Addressable kernel.op kernel.m kernel.n input output ldIn ldOut := by
  have hout := checkOutput_iff kernel ldOut houtput
  cases input with
  | none =>
    have hzero : (!kernel.op.needsInput) = true ↔ kernel.op = .zero := by
      cases kernel.op <;> decide
    simp only [checkCall, check_bind_eq_ok_iff, require_eq_ok_iff, decide_eq_true_eq]
    rw [← and_assoc, hout, hzero]
    constructor
    · rintro ⟨⟨hrows, hcells⟩, hop⟩
      exact ⟨hrows, hcells, Or.inr ⟨rfl, hop⟩⟩
    · rintro ⟨hrows, hcells, ⟨_, h, -⟩ | ⟨-, hop⟩⟩
      · cases h
      · exact ⟨⟨hrows, hcells⟩, hop⟩
  | some length =>
    simp only [checkCall, check_bind_eq_ok_iff, require_eq_ok_iff, decide_eq_true_eq,
      Count.any_span_le_iff (hinput length rfl), Count.forall_positions_one]
    rw [← and_assoc, hout]
    constructor
    · rintro ⟨⟨hrows, hcells⟩, hin⟩
      exact ⟨hrows, hcells, Or.inl ⟨length, rfl, hin⟩⟩
    · rintro ⟨hrows, hcells, ⟨_, h, hin⟩ | ⟨h, -⟩⟩
      · cases h
        exact ⟨⟨hrows, hcells⟩, hin⟩
      · cases h

theorem refuses_checkCall {e : Error} (h : kernel.checkCall input output ldIn ldOut = .error e) :
    e.RefusesParameters := by
  cases input with
  | none =>
    refine refuses_bind (fun _ => refuses_require (by nofun)) (fun _ => ?_) h
    exact refuses_bind (fun _ => refuses_require (by nofun)) fun _ => refuses_require (by nofun)
  | some length =>
    refine refuses_bind (fun _ => refuses_require (by nofun)) (fun _ => ?_) h
    refine refuses_bind (fun _ => refuses_require (by nofun)) fun _ => ?_
    exact refuses_bind (fun _ => refuses_require (by nofun)) fun _ => refuses_require (by nofun)

end Kernel

theorem Request.of_generate {r : Request} {kernel : Kernel} (h : r.generate = .ok kernel) :
    kernel.op = r.op ∧ kernel.m = r.m ∧ kernel.n = r.n := by
  simp only [generate_eq, bind_eq_ok_iff, pure_eq_ok_iff] at h
  obtain ⟨-, -, code, -, rfl⟩ := h
  exact ⟨rfl, rfl, rfl⟩

end Elementwise

/-- A call of a generated kernel gets past the checks of its arguments exactly when each element that
the kernel addresses lies in its operand. The lengths of operands are counts; strides are any
numbers. -/
theorem call_checks_exactly :
    (∀ (shape : Gemm.Shape) (kernel : Gemm.Kernel), Gemm.Kernel.generate shape = .ok kernel →
      ∀ a b c : ℕ, a < Count.limit → b < Count.limit → c < Count.limit → ∀ strides : Strides,
        ChecksExactly (kernel.call · a b c strides) (shape.Addressable strides a b c)
          (Strides.names.zip strides.toList)) ∧
    ∀ (request : Elementwise.Request) (kernel : Elementwise.Kernel),
      request.generate = .ok kernel →
      ∀ (input : Option ℕ) (output : ℕ), (∀ length ∈ input, length < Count.limit) →
        output < Count.limit → ∀ ldIn ldOut : ℕ,
          ChecksExactly (kernel.call · input output ldIn ldOut)
            (Elementwise.Addressable request.op request.m request.n input output ldIn ldOut)
            [("ld_a", ldIn), ("ld_b", ldOut)] := by
  constructor
  · intro shape kernel hkernel a b c ha hb hc strides
    rw [← Gemm.Kernel.shape_of_generate hkernel]
    exact checksExactly_of_check (Gemm.Kernel.checkCall_eq_ok_iff ha hb hc)
      (fun _ => Gemm.Kernel.refuses_checkCall) _
  · intro request kernel hkernel input output hinput houtput ldIn ldOut
    obtain ⟨hop, hm, hn⟩ := Elementwise.Request.of_generate hkernel
    rw [← hop, ← hm, ← hn]
    exact checksExactly_of_check (Elementwise.Kernel.checkCall_eq_ok_iff hinput houtput)
      (fun _ => Elementwise.Kernel.refuses_checkCall) _

def Gemm.farStrides : Strides := { lda := 2, ldb := 2, ldc := 2, batchA := 2 ^ 64 - 5, batchB := 4 }

def Elementwise.wideRequest : Elementwise.Request := ⟨.transpose, 2, 3, .f32⟩

theorem call_checks_exactly_far :
    (∃ kernel, Gemm.Kernel.generate Gemm.pairShape = .ok kernel ∧
      kernel.call ⟨"x86_64"⟩ (2 ^ 64 - 1) 8 4 Gemm.farStrides = .error (.unsupportedHost "x86_64") ∧
      kernel.call ⟨"aarch64"⟩ (2 ^ 64 - 1) 8 4 Gemm.farStrides =
        .error (.badParameter (.strideTooWide "batch_stride_a" (2 ^ 64 - 5))) ∧
      kernel.call ⟨"aarch64"⟩ 8 8 4 { Gemm.farStrides with batchA := 4 } = .ok () ∧
      ∃ cause, ∀ host, kernel.call host (2 ^ 64 - 2) 8 4 Gemm.farStrides =
        .error (.badParameter cause)) ∧
    ∃ kernel, Elementwise.wideRequest.generate = .ok kernel ∧
      kernel.call ⟨"x86_64"⟩ (some 6) (2 ^ 64 - 1) 2 (2 ^ 64 - 4) =
        .error (.unsupportedHost "x86_64") ∧
      ∃ cause, ∀ host, kernel.call host none (2 ^ 64 - 1) 2 (2 ^ 64 - 4) =
        .error (.badParameter cause) := by
  constructor
  · obtain ⟨kernel, hkernel⟩ :=
      (Gemm.generates Gemm.pairShape).succeeds.2 (Gemm.validate_eq_ok_iff.1 rfl)
    have hcall (a : ℕ) (ha : a < Count.limit) :=
      call_checks_exactly.1 _ kernel hkernel a 8 4 ha (by decide) (by decide)
    have hfar : Gemm.pairShape.Addressable Gemm.farStrides (2 ^ 64 - 1) 8 4 := by
      refine ⟨?_, ?_, ?_, ?_, ?_, ?_⟩ <;> decide
    refine ⟨kernel, hkernel, ?_, ?_, ?_, ?_⟩
    · exact ((hcall _ (by decide) _).foreign ⟨"x86_64"⟩ (by decide)).2 hfar
    · exact (hcall _ (by decide) _).wide ⟨"aarch64"⟩ (by decide) hfar
        [("lda", 2), ("ldb", 2), ("ldc", 2)] _ _ [("batch_stride_b", 4)] rfl (by decide) (by decide)
    · refine ((hcall 8 (by decide) _).native ⟨"aarch64"⟩ (by decide)).2
        ⟨⟨?_, ?_, ?_, ?_, ?_, ?_⟩, ?_⟩ <;> decide
    · refine (hcall _ (by decide) _).refuses fun h => ?_
      exact absurd (h.left 1 (by decide) 1 (by decide) 1 (by decide)) (by decide)
  · obtain ⟨kernel, hkernel⟩ := (Elementwise.Request.generates Elementwise.wideRequest).succeeds.2
      ⟨rfl, by decide, by decide⟩
    have hcall (input : Option ℕ) (hinput : ∀ length ∈ input, length < Count.limit) :=
      call_checks_exactly.2 _ kernel hkernel input (2 ^ 64 - 1) hinput (by decide) 2 (2 ^ 64 - 4)
    refine ⟨kernel, hkernel, ?_, ?_⟩
    · refine ((hcall (some 6) (by decide)).foreign ⟨"x86_64"⟩ (by decide)).2
        ⟨?_, ?_, Or.inl ⟨6, rfl, ?_, ?_⟩⟩ <;> decide
    · refine (hcall none (by decide)).refuses fun h => ?_
      exact absurd h.input (by decide)

end TensorKernels
