import TensorKernels.Proofs.Elementwise.Kernel
import TensorKernels.Proofs.Gemm.Kernel

/-!
The SIMD registers of a tile. A kernel's code is outlined with the pieces for its tiles left open, so
that the tiles for which it has a piece can be told from the outline. The registers of each of these
tiles are the first ones of the register file, each taken once: their numbers stay below 32, where
counting modulo 32, or modulo the size of a byte, makes no difference.
-/

namespace TensorKernels

/-- Code in which pieces are left open. -/
inductive Outline (α : Type)
  | fixed (code : Code)
  | piece (a : α)
  | seq (first second : Outline α)
  | loop (counter : GeneralReg) (trips : ℕ) (body : Outline α)

namespace Outline

variable {α : Type}

def code (emit : α → Code) : Outline α → Code
  | .fixed code => code
  | .piece a => emit a
  | .seq first second => .seq (first.code emit) (second.code emit)
  | .loop counter trips body => .loop counter trips (body.code emit)

def pieces : Outline α → List α
  | .fixed _ => []
  | .piece a => [a]
  | .seq first second => first.pieces ++ second.pieces
  | .loop _ trips body => if trips = 0 then [] else body.pieces

def concat (parts : List (Outline α)) : Outline α := parts.foldr seq (.fixed Code.skip)

theorem code_concat (emit : α → Code) (parts : List (Outline α)) :
    (concat parts).code emit = Code.concat (parts.map (code emit)) := by
  induction parts with
  | nil => rfl
  | cons first rest ih => exact congrArg (Code.seq (first.code emit)) ih

theorem mem_pieces_loop {counter : GeneralReg} {trips : ℕ} {body : Outline α} {a : α}
    (h : a ∈ (loop counter trips body).pieces) : a ∈ body.pieces := by
  rw [pieces] at h
  split_ifs at h
  · cases h
  · exact h

theorem mem_pieces_concat {parts : List (Outline α)} {a : α} :
    a ∈ (concat parts).pieces ↔ ∃ part ∈ parts, a ∈ part.pieces := by
  induction parts with
  | nil => exact iff_of_false List.not_mem_nil fun ⟨_, h, _⟩ => List.not_mem_nil h
  | cons first rest ih =>
    rw [List.exists_mem_cons_iff, ← ih]
    exact List.mem_append

end Outline

namespace Column

def registersFrom (first : VectorReg) (n : ℕ) : List VectorReg := (List.range n).map first.offset

theorem registersFrom_ofNat (k n : ℕ) :
    registersFrom (.ofNat k) n = (List.range n).map fun r => .ofNat (k + r) :=
  List.map_congr_left fun r _ => offset_ofNat k r

theorem flatMap_registersFrom (cols n : ℕ) :
    ((List.range cols).flatMap fun j => registersFrom (.ofNat (j * n)) n) =
      (List.range (cols * n)).map VectorReg.ofNat := by
  induction cols with
  | zero => rw [Nat.zero_mul]; rfl
  | succ cols ih =>
    rw [List.range_succ, List.flatMap_append, ih, Nat.succ_mul, List.range_add, List.map_append,
      List.map_map, List.flatMap_singleton, registersFrom_ofNat]
    rfl

/-- The registers are the first `n` of the register file, in order and each of them once. -/
structure Numbered (registers : List VectorReg) (n : ℕ) : Prop where
  numbers : registers.map (fun r => r.id.val) = List.range n
  nodup : registers.Nodup

theorem numbered_ofNat {n : ℕ} (h : n ≤ 32) : Numbered ((List.range n).map VectorReg.ofNat) n := by
  have hnumbers : ((List.range n).map VectorReg.ofNat).map (fun r => r.id.val) = List.range n := by
    rw [List.map_map]
    refine (List.map_congr_left fun k hk => ?_).trans (List.map_id _)
    exact Nat.mod_eq_of_lt ((List.mem_range.1 hk).trans_le h)
  refine ⟨hnumbers, List.Nodup.of_map (fun r => r.id.val) ?_⟩
  rw [hnumbers]
  exact List.nodup_range

end Column

open Column

namespace Gemm

def tileRegisters (t : Tile) : List VectorReg :=
  ((List.range t.cols).flatMap fun j => registersFrom (accumulator t j) t.columnRegs) ++
    registersFrom (leftColumn t) t.columnRegs ++ [rightScalar t]

theorem tileRegisters_eq (t : Tile) :
    tileRegisters t = (List.range t.regsForProduct).map VectorReg.ofNat := by
  have hcolumns := flatMap_registersFrom t.cols t.columnRegs
  rw [tileRegisters, leftColumn, registersFrom_ofNat, Tile.regsForProduct, regs_eq, List.range_succ,
    List.range_add, List.map_append, List.map_append, List.map_map]
  exact congrArg (· ++ _ ++ _) hcolumns

def blockOutline (tiling : Tiling) (columns : ℕ) : Outline (Tile × Bool) :=
  let full : Tile := ⟨tiling.big.rows, columns⟩
  let looped := loopedTiles tiling
  let covered := looped * tiling.big.rows * elementBytes
  .seq
    (.seq (.loop Reg.rowCount looped (.piece (full, true)))
      (if 0 < tiling.rowRemainder then .piece (⟨tiling.rowRemainder, columns⟩, false)
        else if looped = 0 then .piece (full, false)
        else .fixed Code.skip))
    (.fixed (.run (moveRows (-(covered : Int)) ++
      Sequence.addMultiple Reg.tileOut Reg.tileOut columns Reg.outStride Reg.scratch ++
      Sequence.addMultiple Reg.blockRight Reg.blockRight columns Reg.rightStride Reg.scratch)))

def blocksOutline (tiling : Tiling) (columns blocks : ℕ) : Outline (Tile × Bool) :=
  if columns = 0 ∨ blocks = 0 then .fixed Code.skip
  else .loop Reg.blockCount blocks (blockOutline tiling columns)

def kernelOutline (s : Shape) (tiling : Tiling) : Outline (Tile × Bool) :=
  .seq
    (.seq
      (.seq (.fixed (.run (Sequence.saveVectors ++ staging s)))
        (blocksOutline tiling tiling.big.cols (tiling.fullBlocks s.n)))
      (blocksOutline tiling tiling.small.cols (if 0 < tiling.small.cols then 1 else 0)))
    (.fixed (.run Sequence.restoreAndReturn))

section Outline

variable (s : Shape) (tiling : Tiling)

theorem code_blockOutline (columns : ℕ) :
    (blockOutline tiling columns).code (fun call => tileCode s call.1 call.2) =
      columnBlock s tiling columns := by
  rw [blockOutline, columnBlock]
  split_ifs <;> rfl

theorem code_blocksOutline (columns blocks : ℕ) :
    (blocksOutline tiling columns blocks).code (fun call => tileCode s call.1 call.2) =
      columnBlocks s tiling columns blocks := by
  rw [blocksOutline, columnBlocks]
  split_ifs
  · rfl
  · exact congrArg _ (code_blockOutline s tiling columns)

theorem code_kernelOutline :
    (kernelOutline s tiling).code (fun call => tileCode s call.1 call.2) = kernelCode s tiling := by
  simp only [kernelOutline, Outline.code, code_blocksOutline]
  rfl

end Outline

theorem mem_pieces_blockOutline {tiling : Tiling} {columns : ℕ} {call : Tile × Bool}
    (h : call ∈ (blockOutline tiling columns).pieces) :
    call.1 = ⟨tiling.big.rows, columns⟩ ∨ call.1 = ⟨tiling.rowRemainder, columns⟩ := by
  rw [blockOutline, Outline.pieces, Outline.pieces, Outline.pieces, List.append_nil] at h
  rcases List.mem_append.1 h with hlooped | hlast
  · exact Or.inl (congrArg Prod.fst (List.mem_singleton.1 (Outline.mem_pieces_loop hlooped)))
  · split_ifs at hlast
    · exact Or.inr (congrArg Prod.fst (List.mem_singleton.1 hlast))
    · exact Or.inl (congrArg Prod.fst (List.mem_singleton.1 hlast))
    · cases hlast

theorem mem_pieces_blocksOutline {tiling : Tiling} {columns blocks : ℕ} {call : Tile × Bool}
    (h : call ∈ (blocksOutline tiling columns blocks).pieces) :
    call.1 = ⟨tiling.big.rows, columns⟩ ∨ call.1 = ⟨tiling.rowRemainder, columns⟩ := by
  rw [blocksOutline] at h
  split_ifs at h
  · cases h
  · exact mem_pieces_blockOutline (Outline.mem_pieces_loop h)

theorem small_cols_le (m n : ℕ) : (Tiling.ofOutput m n).small.cols ≤ (Tiling.ofOutput m n).big.cols := by
  rcases Nat.eq_zero_or_pos n with rfl | hn
  · exact le_of_eq (by simp [Tiling.ofOutput])
  · exact (Tiling.small_cols_lt hn).le

theorem regsForProduct_le_of_mem {s : Shape} {call : Tile × Bool}
    (h : call ∈ (kernelOutline s (Tiling.ofOutput s.m s.n)).pieces) : call.1.regsForProduct ≤ 32 := by
  have hblock {columns : ℕ} (hcols : columns ≤ (Tiling.ofOutput s.m s.n).big.cols)
      (hcall : call.1 = ⟨(Tiling.ofOutput s.m s.n).big.rows, columns⟩ ∨
        call.1 = ⟨(Tiling.ofOutput s.m s.n).rowRemainder, columns⟩) :
      call.1.regsForProduct ≤ 32 := by
    rcases hcall with hfull | hrest
    · rw [hfull]
      exact Tiling.regsForProduct_le le_rfl hcols
    · rw [hrest]
      exact Tiling.regsForProduct_le Tiling.rowRemainder_le hcols
  rw [kernelOutline, Outline.pieces, Outline.pieces, Outline.pieces, Outline.pieces,
    Outline.pieces, List.append_nil, List.nil_append] at h
  -- blocks of both widths, each with full tiles and those of the rows left over
  rcases List.mem_append.1 h with hbig | hsmall
  · exact hblock le_rfl (mem_pieces_blocksOutline hbig)
  · exact hblock (small_cols_le s.m s.n) (mem_pieces_blocksOutline hsmall)

end Gemm

namespace Elementwise

theorem flatMap_columns (t : Tile) :
    ((columns t).flatMap fun first => registersFrom first t.columnRegs) = tileRegisters t := by
  rw [columns, List.flatMap_map, flatMap_registersFrom, tileRegisters, regs_eq]

def regionOutline (region : Region) : Outline (Region × Tile) :=
  match region.tile with
  | none => .fixed Code.skip
  | some t => .piece (region, t)

def kernelOutline (op : Op) (m n : ℕ) : Outline (Region × Tile) :=
  match op with
  | .transpose => .fixed (transposeCode m n)
  | _ =>
    .seq
      (.seq (.fixed (.run (Sequence.saveVectors ++ staging op (Tiling.ofGrid m n))))
        (Outline.concat ((Tiling.ofGrid m n).regions.map regionOutline)))
      (.fixed (.run Sequence.restoreAndReturn))

theorem code_regionOutline (op : Op) (region : Region) :
    (regionOutline region).code (fun call => regionCode op call.1 call.2) = pieceCode op region := by
  rw [regionOutline, pieceCode]
  cases region.tile <;> rfl

theorem code_kernelOutline (op : Op) (m n : ℕ) :
    (kernelOutline op m n).code (fun call => regionCode op call.1 call.2) = kernelCode op m n := by
  have hregions : (Outline.concat ((Tiling.ofGrid m n).regions.map regionOutline)).code
      (fun call => regionCode op call.1 call.2) =
        Code.concat ((Tiling.ofGrid m n).regions.map (pieceCode op)) := by
    rw [Outline.code_concat, List.map_map]
    exact congrArg _ (List.map_congr_left fun region _ => code_regionOutline op region)
  by_cases hop : op = .transpose
  · subst hop
    rfl
  · rw [kernelCode_eq hop, kernelBody, ← hregions]
    cases op with
    | transpose => exact absurd rfl hop
    | zero | identity | relu => rfl

theorem mem_pieces_regionOutline {region : Region} {call : Region × Tile} :
    call ∈ (regionOutline region).pieces ↔ region = call.1 ∧ region.tile = some call.2 := by
  rw [regionOutline]
  cases region.tile with
  | none => exact iff_of_false List.not_mem_nil fun h => Option.some_ne_none _ h.2.symm
  | some t =>
    rw [Outline.pieces, List.mem_singleton, Prod.ext_iff, Option.some.injEq]
    exact and_congr eq_comm eq_comm

theorem mem_pieces_kernelOutline {op : Op} (hop : op ≠ .transpose) {m n : ℕ}
    {call : Region × Tile} : call ∈ (kernelOutline op m n).pieces ↔
      call.1 ∈ (Tiling.ofGrid m n).regions ∧ call.1.tile = some call.2 := by
  have hpieces : (kernelOutline op m n).pieces =
      (Outline.concat ((Tiling.ofGrid m n).regions.map regionOutline)).pieces := by
    cases op with
    | transpose => exact absurd rfl hop
    | zero | identity | relu => exact List.append_nil _
  rw [hpieces, Outline.mem_pieces_concat]
  constructor
  · rintro ⟨_, hpart, hcall⟩
    obtain ⟨region, hregion, rfl⟩ := List.mem_map.1 hpart
    obtain ⟨rfl, htile⟩ := mem_pieces_regionOutline.1 hcall
    exact ⟨hregion, htile⟩
  · rintro ⟨hregion, htile⟩
    exact ⟨_, List.mem_map_of_mem hregion, mem_pieces_regionOutline.2 ⟨rfl, htile⟩⟩

theorem fits_of_mem {op : Op} {m n : ℕ} {call : Region × Tile}
    (h : call ∈ (kernelOutline op m n).pieces) : Fits call.2 := by
  by_cases hop : op = .transpose
  · subst hop
    cases h
  · obtain ⟨hregion, htile⟩ := (mem_pieces_kernelOutline hop).1 h
    exact ((Tiling.tiled_regions _ m n _ hregion).cuts _ htile).fits

theorem zeros_notMem {t : Tile} (h : Numbered (tileRegisters t) t.regs) (ht : t.regs < 32) :
    Reg.zeros ∉ tileRegisters t := by
  intro hmem
  have hnumber : Reg.zeros.id.val ∈ List.range t.regs := by
    rw [← h.numbers]
    exact List.mem_map_of_mem hmem
  have hlt : 31 < t.regs := List.mem_range.1 hnumber
  omega

end Elementwise

/-- The registers of a tile are distinct, for each tile that a kernel has code for, and those of an
elementwise tile leave out the register of zeros. -/
theorem tile_registers_distinct :
    (∀ shape : Gemm.Shape,
      let outline := Gemm.kernelOutline shape (Gemm.Tiling.ofOutput shape.m shape.n)
      outline.code (fun call => Gemm.tileCode shape call.1 call.2) =
        Gemm.kernelCode shape (Gemm.Tiling.ofOutput shape.m shape.n) ∧
      ∀ call ∈ outline.pieces, Numbered (Gemm.tileRegisters call.1) call.1.regsForProduct) ∧
    ∀ (op : Elementwise.Op) (m n : ℕ),
      let outline := Elementwise.kernelOutline op m n
      outline.code (fun call => Elementwise.regionCode op call.1 call.2) =
        Elementwise.kernelCode op m n ∧
      ∀ call ∈ outline.pieces,
        Numbered (Elementwise.tileRegisters call.2) call.2.regs ∧
        ((Elementwise.columns call.2).flatMap fun first => registersFrom first call.2.columnRegs) =
          Elementwise.tileRegisters call.2 ∧
        Elementwise.Reg.zeros ∉ Elementwise.tileRegisters call.2 := by
  refine ⟨fun shape => ⟨Gemm.code_kernelOutline shape _, fun call hcall => ?_⟩,
    fun op m n => ⟨Elementwise.code_kernelOutline op m n, fun call hcall => ?_⟩⟩
  · rw [Gemm.tileRegisters_eq]
    exact numbered_ofNat (Gemm.regsForProduct_le_of_mem hcall)
  · have hregs : call.2.regs < 32 := by
      rw [regs_eq]
      exact (Elementwise.fits_of_mem hcall).regs_lt
    have hnumbered : Numbered (Elementwise.tileRegisters call.2) call.2.regs :=
      numbered_ofNat hregs.le
    exact ⟨hnumbered, Elementwise.flatMap_columns call.2, Elementwise.zeros_notMem hnumbered hregs⟩

def Gemm.leftoverShape : Gemm.Shape := { m := 40, n := 17, k := 1 }

theorem tile_registers_distinct_leftovers :
    (Gemm.kernelOutline Gemm.leftoverShape (Gemm.Tiling.ofOutput 40 17)).pieces =
      [(⟨16, 6⟩, true), (⟨8, 6⟩, false), (⟨16, 5⟩, true), (⟨8, 5⟩, false)] ∧
    Numbered (Gemm.tileRegisters ⟨16, 6⟩) 29 ∧ Numbered (Gemm.tileRegisters ⟨8, 5⟩) 13 ∧
    ∃ t, (Elementwise.Tiling.ofGrid 40 17).main.tile = some t ∧
      Elementwise.Reg.zeros ∉ Elementwise.tileRegisters t := by
  have hpieces : (Gemm.kernelOutline Gemm.leftoverShape (Gemm.Tiling.ofOutput 40 17)).pieces =
      [(⟨16, 6⟩, true), (⟨8, 6⟩, false), (⟨16, 5⟩, true), (⟨8, 5⟩, false)] := by decide
  have hgemm : ∀ call ∈ [(⟨16, 6⟩, true), (⟨8, 6⟩, false), (⟨16, 5⟩, true), (⟨8, 5⟩, false)],
      Numbered (Gemm.tileRegisters call.1) call.1.regsForProduct := by
    rw [← hpieces]
    exact (tile_registers_distinct.1 Gemm.leftoverShape).2
  have htile : ∃ t, (Elementwise.Tiling.ofGrid 40 17).main.tile = some t := ⟨_, rfl⟩
  obtain ⟨t, ht⟩ := htile
  have hmain : ((Elementwise.Tiling.ofGrid 40 17).main, t) ∈
      (Elementwise.kernelOutline .relu 40 17).pieces :=
    (Elementwise.mem_pieces_kernelOutline (by decide)).2 ⟨List.mem_cons_self, ht⟩
  exact ⟨hpieces, hgemm (⟨16, 6⟩, true) (by decide), hgemm (⟨8, 5⟩, false) (by decide), t, ht,
    ((tile_registers_distinct.2 .relu 40 17).2 _ hmain).2.2⟩

end TensorKernels
