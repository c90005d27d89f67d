import TensorKernels.Proofs.Elementwise.Transpose
import TensorKernels.Proofs.Gemm.Kernel
import TensorKernels.Proofs.Kernel.Statistics

/-!
Generation of kernels. A generator checks its parameters and assembles code. The code of admitted
parameters is bounded whatever the extents are, so its assembly never fails: generation succeeds
exactly when the checks pass, and what it gives is closed and keeps the call standard.
-/

namespace TensorKernels

open Instr Sequence

/-- A refusal of the parameters as such, not of the code that was made from them. -/
def Error.RefusesParameters (e : Error) : Prop :=
  ∃ cause, e = .badParameter cause ∧ ∀ error, cause ≠ .branch error

theorem refuses_require {condition : Bool} {cause : Cause} (hcause : ∀ error, cause ≠ .branch error)
    {e : Error} (h : require condition cause = .error e) : e.RefusesParameters := by
  cases condition with
  | true => cases h
  | false =>
    cases h
    exact ⟨cause, rfl, hcause⟩

theorem refuses_bind {check rest : Except Error Unit}
    (hcheck : ∀ e, check = .error e → e.RefusesParameters)
    (hrest : ∀ e, rest = .error e → e.RefusesParameters) {e : Error}
    (h : (check >>= fun _ => rest) = .error e) : e.RefusesParameters := by
  rcases bind_eq_error_iff.1 h with hfirst | ⟨_, -, hsecond⟩
  · exact hcheck e hfirst
  · exact hrest e hsecond

/-- What a generator does with parameters from which `source` is generated. -/
structure Generates {κ : Type} [HasCode κ] (generation : Except Error κ) (source : Code)
    (admitted : Prop) : Prop where
  succeeds : (∃ kernel, generation = .ok kernel) ↔ admitted
  refuses : ∀ e, generation = .error e → e.RefusesParameters
  assembled : ∀ kernel, generation = .ok kernel → source.assemble = .ok (HasCode.code kernel)
  closed : ∀ kernel, generation = .ok kernel → (HasCode.code kernel).Closed

section Generator

variable {κ : Type} [HasCode κ] {source : Code} {admitted : Prop}

theorem generates_of_sound {check : Except Error Unit} {build : MachineCode → κ}
    (hbuild : ∀ code, HasCode.code (build code) = code) (hcheck : check = .ok () ↔ admitted)
    (hrefuses : ∀ e, check = .error e → e.RefusesParameters)
    (hsound : admitted → Sound source (assembled source)) :
    Generates (check >>= fun _ => assembleKernel source >>= fun code => pure (build code)) source
      admitted := by
  cases check with
  | error e =>
    refine ⟨⟨?_, fun h => ?_⟩, ?_, nofun, nofun⟩
    · rintro ⟨_, h⟩
      cases h
    · cases hcheck.2 h
    · rintro _ ⟨⟩
      exact hrefuses e rfl
  | ok _ =>
    have hs := hsound (hcheck.1 rfl)
    have hgeneration : (assembleKernel source >>= fun code => pure (build code)) =
        .ok (build (assembled source)) := by
      rw [assembleKernel, hs.assembled]
      rfl
    refine ⟨⟨fun _ => hcheck.1 rfl, fun _ => ⟨_, hgeneration⟩⟩, fun e he => ?_, fun kernel hk => ?_,
      fun kernel hk => ?_⟩
    · cases hgeneration.symm.trans he
    · cases hgeneration.symm.trans hk
      rw [hbuild]
      exact hs.assembled
    · cases hgeneration.symm.trans hk
      rw [hbuild]
      exact hs.closed

theorem Generates.keepsCallStandard {generation : Except Error κ}
    (h : Generates generation source admitted) (ha : admitted) {code : MachineCode}
    (hs : Sound source code) :
    ∃ kernel, generation = .ok kernel ∧ KeepsCallStandard (HasCode.code kernel).words := by
  obtain ⟨kernel, hkernel⟩ := h.succeeds.2 ha
  have hcode := (h.assembled kernel hkernel).symm.trans hs.assembled
  rw [Except.ok.injEq] at hcode
  refine ⟨kernel, hkernel, ?_⟩
  rw [hcode]
  exact hs.callStandard

theorem account_generation {ι : Type} {generate : ι → Except Error κ} {source : ι → Code}
    {admitted : ι → Prop} (h : ∀ x, Generates (generate x) (source x) (admitted x))
    {earlier : List ι} (hlen : earlier.length < 2 ^ 46) (x : ι) :
    ((Statistics.after (earlier.map generate)).account (generate x)).1 = generate x := by
  refine Statistics.account_after ?_ (List.forall_mem_map.2 fun y _ => (h y).closed) (h x).closed
  rw [List.length_map]
  exact hlen

end Generator

namespace Gemm

def innerCode (shape : Shape) : Code := .run (staging shape) ++ allBlocks shape

def innerRegs : List (Fin 32) := stagingRegs ++ Reg.blockCount.id :: blockRegs

theorem bounded_innerCode {shape : Shape} (he : Extents shape) :
    Code.Bounded innerRegs (8 + 7 + (1484 + 1484)) (innerCode shape) :=
  ((Code.Bounded.run (straight_staging shape)).mono (List.subset_append_left _ _) le_rfl).append
    ((bounded_allBlocks he).mono (List.subset_append_right _ _) le_rfl)

theorem lower_kernelCode (shape : Shape) :
    (kernelCode shape (Tiling.ofOutput shape.m shape.n)).lower = framed (innerCode shape) := by
  have hblocks : (kernelCode shape (Tiling.ofOutput shape.m shape.n)).lower =
      (Code.run (saveVectors ++ staging shape) ++ allBlocks shape ++
        .run restoreAndReturn : Code).lower :=
    congrArg (· ++ restoreAndReturn) (List.append_assoc _ _ _)
  rw [hblocks, lower_frame]
  rfl

theorem sound_kernelCode {shape : Shape} (he : Extents shape) :
    Sound (kernelCode shape (Tiling.ofOutput shape.m shape.n))
      (assembled (kernelCode shape (Tiling.ofOutput shape.m shape.n))) :=
  sound_framed ⟨(wellFormed_kernelBody he).shortLoops, trivial⟩ (bounded_innerCode he) (by decide)
    (lower_kernelCode shape) (by decide)

theorem refuses_validate {shape : Shape} {e : Error} (h : shape.validate = .error e) :
    e.RefusesParameters := by
  refine refuses_bind (fun _ => refuses_require (by nofun)) (fun _ => ?_) h
  refine refuses_bind (fun _ => refuses_require (by nofun)) fun _ => ?_
  refine refuses_bind (fun _ => refuses_require (by nofun)) fun _ => ?_
  refine refuses_bind (fun _ => refuses_require (by nofun)) fun _ => ?_
  exact refuses_bind (fun _ => refuses_require (by nofun)) fun _ => refuses_require (by nofun)

theorem generates (shape : Shape) :
    Generates (Kernel.generate shape) (kernelCode shape (Tiling.ofOutput shape.m shape.n))
      shape.Admitted :=
  generates_of_sound (fun _ => rfl) validate_eq_ok_iff (fun _ => refuses_validate)
    fun h => sound_kernelCode h.extents

def byteOffsets (shape : Shape) : List ℕ :=
  let tiling := Tiling.ofOutput shape.m shape.n
  [tiling.big.rows * elementBytes, loopedTiles tiling * tiling.big.rows * elementBytes]

theorem byteOffsets_lt {shape : Shape} (he : Extents shape) :
    ∀ bytes ∈ byteOffsets shape, bytes < 2 ^ 63 := by
  have hrows := he.tiled_big.full.rows_le
  have hlooped := he.tiled_big.looped_le
  have hm := he.m.2
  dsimp only at hrows
  simp only [byteOffsets, elementBytes, List.forall_mem_cons]
  exact ⟨by omega, by omega, List.forall_mem_nil _⟩

end Gemm

namespace Elementwise

def innerCode (op : Op) (m n : ℕ) : Code :=
  .run (staging op (Tiling.ofGrid m n)) ++ Code.concat ((Tiling.ofGrid m n).regions.map (pieceCode op))

section Code

variable {m n : ℕ} (hm : m < 2 ^ 32) (hn : n < 2 ^ 32)
include hm hn

theorem bounded_innerCode (op : Op) : Code.Bounded kernelRegs (33 + 4 * 351) (innerCode op m n) :=
  ((Code.Bounded.run (straight_staging op m n)).mono (List.subset_append_left _ _) le_rfl).append
    ((bounded_regions op hm hn).mono (List.subset_append_right _ _) le_rfl)

theorem sound_kernelCode (op : Op) :
    Sound (kernelCode op m n) (assembled (kernelCode op m n)) := by
  by_cases hop : op = .transpose
  · subst hop
    have hbody : Code.Bounded kernelRegs 27 (transposeBody m n) :=
      bounded_transposeBody (hm.trans (by decide)) (hn.trans (by decide))
    rw [kernelCode_transpose]
    exact sound_frameless ⟨hbody.wellFormed.shortLoops, trivial⟩ hbody (by decide) rfl
      (scalar_transposeBody m n) (by decide)
  · have hbody := wellFormed_kernelBody op hm hn
    rw [kernelCode_eq hop]
    exact sound_framed ⟨hbody.shortLoops, trivial⟩ (bounded_innerCode hm hn op) (by decide)
      (lower_frame _ _) (by decide)

end Code

def Region.byteOffsets (region : Region) : List ℕ :=
  [region.row * elementBytes, region.rows * elementBytes] ++
    region.tile.toList.map fun t => t.rows * elementBytes

theorem Region.Tiled.byteOffsets_lt {region : Region} {rows cols : ℕ} (h : region.Tiled rows cols)
    (hlt : rows < 2 ^ 32) : ∀ bytes ∈ region.byteOffsets, bytes < 2 ^ 63 := by
  have hrows := h.rows_le
  simp only [byteOffsets, elementBytes, List.forall_mem_append, List.forall_mem_cons,
    List.forall_mem_map, Option.mem_toList]
  refine ⟨⟨by omega, by omega, List.forall_mem_nil _⟩, fun t ht => ?_⟩
  have htile := (h.cuts t ht).fits.rows_le
  omega

structure Request where
  op : Op
  m : ℕ
  n : ℕ
  dtype : DataType

namespace Request

structure Admitted (r : Request) : Prop where
  dtype : r.dtype = .f32
  m : 0 < r.m ∧ r.m < 2 ^ 32
  n : 0 < r.n ∧ r.n < 2 ^ 32

def generate (r : Request) : Except Error Kernel := Kernel.generate r.op r.m r.n r.dtype

def source (r : Request) : Code := kernelCode r.op r.m r.n

def check (r : Request) : Except Error Unit := do
  require (r.dtype == .f32) (.elementwiseType r.dtype)
  require (inExtentRange r.m && inExtentRange r.n) (.elementwiseSize r.m r.n)

theorem check_eq_ok_iff {r : Request} : r.check = .ok () ↔ r.Admitted := by
  simp only [check, check_bind_eq_ok_iff, require_eq_ok_iff, inExtentRange_iff, Bool.and_eq_true,
    beq_iff_eq]
  exact ⟨fun ⟨hdtype, hm, hn⟩ => ⟨hdtype, hm, hn⟩, fun h => ⟨h.dtype, h.m, h.n⟩⟩

theorem generate_eq (r : Request) : r.generate = r.check >>= fun _ =>
    assembleKernel r.source >>= fun code => pure ⟨r.op, r.m, r.n, code⟩ :=
  (bind_assoc _ _ _).symm

theorem generates (r : Request) : Generates r.generate r.source r.Admitted := by
  rw [generate_eq]
  refine generates_of_sound (fun _ => rfl) check_eq_ok_iff (fun e he => ?_) fun h => ?_
  · exact refuses_bind (fun _ => refuses_require (by nofun)) (fun _ => refuses_require (by nofun)) he
  · exact sound_kernelCode h.m.2 h.n.2 r.op

def byteOffsets (r : Request) : List ℕ :=
  match r.op with
  | .transpose => [r.m * elementBytes]
  | _ => (Tiling.ofGrid r.m r.n).regions.flatMap Region.byteOffsets

theorem byteOffsets_lt {r : Request} (h : r.Admitted) : ∀ bytes ∈ r.byteOffsets, bytes < 2 ^ 63 := by
  have hregions : ∀ bytes ∈ (Tiling.ofGrid r.m r.n).regions.flatMap Region.byteOffsets,
      bytes < 2 ^ 63 := by
    refine List.forall_mem_flatMap.2 fun region hregion => ?_
    exact (Tiling.tiled_regions Tiling.lowerScore r.m r.n region hregion).byteOffsets_lt h.m.2
  have hm := h.m.2
  obtain ⟨op, m, n, dtype⟩ := r
  cases op with
  | transpose =>
    refine List.forall_mem_singleton.2 ?_
    rw [elementBytes]
    omega
  | zero | identity | relu => exact hregions

end Request

end Elementwise

/-- Every kernel returns through the link register. Unless a call stores over what the kernel has
saved, it comes to an end and leaves its caller what the standard promises. -/
theorem generate_keeps_call_standard :
    (∀ shape : Gemm.Shape, shape.validate = .ok () →
      ∃ kernel, Gemm.Kernel.generate shape = .ok kernel ∧ KeepsCallStandard kernel.code.words) ∧
    ∀ request : Elementwise.Request, request.Admitted →
      ∃ kernel, request.generate = .ok kernel ∧ KeepsCallStandard kernel.code.words := by
  refine ⟨fun shape h => ?_, fun request h => ?_⟩
  · have hadmitted := Gemm.validate_eq_ok_iff.1 h
    exact (Gemm.generates shape).keepsCallStandard hadmitted (Gemm.sound_kernelCode hadmitted.extents)
  · exact request.generates.keepsCallStandard h
      (Elementwise.sound_kernelCode h.m.2 h.n.2 request.op)

def Gemm.rowShape : Gemm.Shape := { m := 1, n := 9, k := 1 }

theorem Gemm.sparesSaved_rowShape :
    SparesSaved ((framed (innerCode rowShape)).map encode).toArray countingState := by
  have hextents : Extents rowShape := extents_of_validate rfl
  have hrange := inRange_framed (bounded_innerCode hextents)
  rw [framed_eq] at hrange ⊢
  -- the nine stores go to the output, which ends below the saved registers
  have hstores : storesBetween 12288 16384
      (saveVectors ++ ((innerCode rowShape).lower ++ restoreVectors)) countingState = true := by
    decide +kernel
  refine sparesSaved_of_storesBetween hrange ?_ hstores ?_
  · decide +kernel
  · decide

theorem generate_keeps_call_standard_row :
    Gemm.rowShape.validate = .ok () ∧ ∃ kernel, Gemm.Kernel.generate Gemm.rowShape = .ok kernel ∧
      SparesSaved kernel.code.words Gemm.countingState ∧
        ∃ t, ReturnsIn kernel.code.words Gemm.countingState t ∧ Preserved Gemm.countingState t := by
  have hvalid : Gemm.rowShape.validate = .ok () := rfl
  obtain ⟨kernel, hkernel, hkeeps⟩ := generate_keeps_call_standard.1 Gemm.rowShape hvalid
  have hcode := ((Gemm.generates Gemm.rowShape).assembled kernel hkernel).symm.trans
    (Gemm.sound_kernelCode (Gemm.extents_of_validate hvalid)).assembled
  have hwords : kernel.code.words = ((framed (Gemm.innerCode Gemm.rowShape)).map encode).toArray := by
    rw [← Gemm.lower_kernelCode]
    exact congrArg MachineCode.words (Except.ok.inj hcode)
  have hspares : SparesSaved kernel.code.words Gemm.countingState := by
    rw [hwords]
    exact Gemm.sparesSaved_rowShape
  obtain ⟨⟨t, ht⟩, hpreserved⟩ := hkeeps.returns _ _ hspares
  exact ⟨hvalid, kernel, hkernel, hspares, t, ht, hpreserved t ht⟩

/-- A kernel is generated exactly for the admitted parameters, and all others are refused as
parameters. Its code is closed, the distances written into it fit signed words, and the kernels that
a generator has made before do not get in the way. -/
theorem generate_succeeds_exactly :
    (∀ shape : Gemm.Shape,
      Generates (Gemm.Kernel.generate shape)
        (Gemm.kernelCode shape (Gemm.Tiling.ofOutput shape.m shape.n)) shape.Admitted ∧
      (shape.Admitted → ∀ bytes ∈ Gemm.byteOffsets shape, bytes < 2 ^ 63) ∧
      ∀ earlier : List Gemm.Shape, earlier.length < 2 ^ 46 →
        ((Statistics.after (earlier.map Gemm.Kernel.generate)).account
          (Gemm.Kernel.generate shape)).1 = Gemm.Kernel.generate shape) ∧
    ∀ request : Elementwise.Request,
      Generates request.generate request.source request.Admitted ∧
      (request.Admitted → ∀ bytes ∈ request.byteOffsets, bytes < 2 ^ 63) ∧
      (∀ region ∈ (Elementwise.Tiling.ofGrid request.m request.n).regions, ∀ t,
        region.tile = some t → 0 < t.rows ∧ 0 < t.cols) ∧
      ∀ earlier : List Elementwise.Request, earlier.length < 2 ^ 46 →
        ((Statistics.after (earlier.map Elementwise.Request.generate)).account
          request.generate).1 = request.generate := by
  refine ⟨fun shape => ⟨Gemm.generates shape, ?_, ?_⟩, fun request => ⟨request.generates, ?_, ?_, ?_⟩⟩
  · exact fun h => Gemm.byteOffsets_lt h.extents
  · exact fun earlier hlen => account_generation Gemm.generates hlen shape
  · exact Elementwise.Request.byteOffsets_lt
  · intro region hregion t ht
    have hfits := ((Elementwise.Tiling.tiled_regions _ _ _ region hregion).cuts t ht).fits
    exact ⟨hfits.rows_pos, hfits.cols_pos⟩
  · exact fun earlier hlen => account_generation Elementwise.Request.generates hlen request

end TensorKernels
