import TensorKernels.Proofs.Object.StringTable

/-!
The layout of an object. Its parts stand in the file where the layout places them, one behind the other
with the tables aligned, and every position fits 64 bits when the entries leave room for it.
-/

namespace TensorKernels.Object

/-- The names, each with its closing zero, are within reach of 32-bit offsets, and the code leaves room
for 64-bit offsets into the file. -/
structure Fits (entries : List Entry) : Prop where
  names : StringTable.total (entries.map Entry.nameBytes) < 2 ^ 32
  code : (entries.map Entry.size).sum < 2 ^ 63

/-! ### Where the parts stand -/

theorem le_align (position : Nat) : position ≤ align 8 position := by
  unfold align
  omega

theorem align_lt (position : Nat) : align 8 position < position + 8 := by
  unfold align
  omega

theorem length_fileHeader (l : Layout) : (fileHeader l).length = headerSize := by
  simp [fileHeader, half, word, giant, zeros, headerSize]

theorem length_symbol (name value size : Nat) : (symbol name value size).length = symbolSize := by
  simp [symbol, word, half, giant, symbolSize]

theorem length_symbols (names : StringTable) (value : Nat) (entries : List Entry) :
    (symbols names value entries).length = symbolSize * entries.length := by
  induction entries generalizing value with
  | nil => rfl
  | cons e rest ih =>
    rw [symbols, List.length_append, length_symbol, ih, List.length_cons, Nat.mul_succ, Nat.add_comm]

theorem length_symbolTable (entries : List Entry) (names : StringTable) :
    (zeros symbolSize ++ symbols names 0 entries).length = (Layout.ofEntries entries).symbolsSize := by
  rw [List.length_append, zeros, List.length_replicate, length_symbols, Nat.add_comm]
  rfl

theorem Entry.length_code (e : Entry) : e.code.length = e.size := by
  have hlength := CodeBuffer.length_bytes (.ofWords e.words)
  rwa [CodeBuffer.bytes, CodeBuffer.size, CodeBuffer.words_ofWords] at hlength

theorem length_code (entries : List Entry) :
    (entries.flatMap Entry.code).length = (entries.map Entry.size).sum := by
  simp [List.length_flatMap, Entry.length_code]

structure Parts (entries : List Entry) (bytes : List UInt8) (l : Layout) : Prop where
  header : StandsAt bytes (fileHeader l) 0
  text : StandsAt bytes (entries.flatMap Entry.code) headerSize
  symbols : StandsAt bytes (zeros symbolSize ++ symbols l.names 0 entries) l.symbols
  names : StandsAt bytes l.names.bytes l.namesAt
  sections : StandsAt bytes l.sections.bytes l.sectionsAt
  headers : StandsAt bytes ((sectionHeaders l !entries.isEmpty).flatMap SectionHeader.bytes) l.headersAt

theorem parts_elfBytes (entries : List Entry) :
    Parts entries (elfBytes entries) (Layout.ofEntries entries) := by
  generalize hl : Layout.ofEntries entries = l
  have htextSize : l.textSize = (entries.map Entry.size).sum := by rw [← hl]; rfl
  have hsymbols : headerSize + l.textSize ≤ l.symbols := by rw [← hl]; exact le_align _
  have htable : (zeros symbolSize ++ symbols l.names 0 entries).length = l.symbolsSize := by
    rw [length_symbolTable, hl]
  have hend := le_align l.tablesEnd
  have hwhole : StandsAt (elfBytes entries)
      (fileHeader l ++ (entries.flatMap Entry.code ++ (zeros (l.symbols - (headerSize + l.textSize)) ++
        ((zeros symbolSize ++ symbols l.names 0 entries) ++ (l.names.bytes ++ (l.sections.bytes ++
          (zeros (l.headersAt - l.tablesEnd) ++
            (sectionHeaders l !entries.isEmpty).flatMap SectionHeader.bytes))))))) 0 :=
    ⟨[], [], by simp [elfBytes, hl], rfl⟩
  have htext := hwhole.right headerSize (by rw [length_fileHeader, Nat.zero_add])
  have hfill := htext.right (headerSize + l.textSize) (by rw [length_code, htextSize])
  have hsym := hfill.right l.symbols (by rw [zeros, List.length_replicate]; omega)
  have hnames := hsym.right l.namesAt (by rw [htable, Layout.namesAt])
  have hsections := hnames.right l.sectionsAt rfl
  have hlast := hsections.right l.tablesEnd rfl
  have hheaders := hlast.right l.headersAt (by
    rw [zeros, List.length_replicate, Layout.headersAt]
    omega)
  exact ⟨hwhole.left, htext.left, hsym.left, hnames.left, hsections.left, hheaders⟩

/-! ### Bounds -/

theorem names_size_le (entries : List Entry) : (Layout.ofEntries entries).names.size ≤
    1 + StringTable.total (entries.map Entry.nameBytes) :=
  Nat.le_trans (StringTable.size_ofStrings_le _)
    (Nat.add_le_add_left (StringTable.total_filter_le _ _) 1)

theorem sections_size_le (entries : List Entry) : (Layout.ofEntries entries).sections.size ≤ 33 := by
  have htotal : StringTable.total sectionNames = 32 := by cbv
  have hsize := StringTable.size_ofStrings_le sectionNames
  rwa [htotal] at hsize

theorem length_le_total (entries : List Entry) :
    entries.length ≤ StringTable.total (entries.map Entry.nameBytes) := by
  induction entries with
  | nil => simp
  | cons e rest ih =>
    rw [List.map_cons, StringTable.total_cons, List.length_cons]
    omega

theorem Fits.headersAt_lt {entries : List Entry} (h : Fits entries) :
    (Layout.ofEntries entries).headersAt < 2 ^ 64 := by
  have hnames := h.names
  have hcode : (Layout.ofEntries entries).textSize < 2 ^ 63 := h.code
  have hcount := length_le_total entries
  have hsize := names_size_le entries
  have hsections := sections_size_le entries
  have hsymbols := align_lt (headerSize + (Layout.ofEntries entries).textSize)
  have hend := align_lt (Layout.ofEntries entries).tablesEnd
  simp only [Layout.headersAt, Layout.tablesEnd, Layout.sectionsAt, Layout.namesAt,
    Layout.ofEntries, headerSize, symbolSize] at *
  omega

end TensorKernels.Object
