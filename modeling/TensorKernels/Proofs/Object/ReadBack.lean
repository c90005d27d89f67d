import TensorKernels.Proofs.Object.Layout

/-!
Objects read back. The headers of an object say where its parts stand, so reading it gives the section
names, one symbol for each entry behind the empty first one, and in `.text` the entries' words.
-/

namespace TensorKernels.Object

variable {entries : List Entry}

/-! ### Headers -/

def SectionHeader.fields (h : SectionHeader) : List (Nat × Nat) :=
  [(4, h.name), (4, h.kind), (8, h.flags), (8, 0), (8, h.position), (8, h.size), (4, h.link),
    (4, h.info), (8, h.alignment), (8, h.entrySize)]

theorem SectionHeader.bytes_eq (h : SectionHeader) : h.bytes = fieldBytes h.fields := by
  simp [SectionHeader.bytes, fieldBytes, SectionHeader.fields, word, giant]

theorem SectionHeader.length_bytes (h : SectionHeader) : h.bytes.length = 64 := by
  simp [SectionHeader.bytes, word, giant]

theorem readSectionHeader_bytes {h : SectionHeader} (hfit : FieldsFit h.fields) (rest : List UInt8) :
    readSectionHeader (h.bytes ++ rest) = some h := by
  have hfields := readFields_fieldBytes hfit rest
  simp only [SectionHeader.fields, List.map_cons, List.map_nil] at hfields
  rw [readSectionHeader, h.bytes_eq, SectionHeader.fields, hfields]
  rfl

theorem Fits.sectionHeaders (h : Fits entries) (hasCode : Bool) :
    ∀ s ∈ sectionHeaders (Layout.ofEntries entries) hasCode, FieldsFit s.fields := by
  have hlast := h.headersAt_lt
  have hend := le_align (Layout.ofEntries entries).tablesEnd
  have hsymbols : headerSize + (Layout.ofEntries entries).textSize ≤ (Layout.ofEntries entries).symbols :=
    le_align _
  have hsize := sections_size_le entries
  have hname (name : String) (hmem : name.toUTF8.toList ∈ sectionNames) :
      (Layout.ofEntries entries).sections.offset name.toUTF8.toList < 33 :=
    Nat.lt_of_lt_of_le (StringTable.offset_lt_size (.inl hmem)) hsize
  have htext := hname ".text" (by simp [sectionNames])
  have hsymtab := hname ".symtab" (by simp [sectionNames])
  have hstrtab := hname ".strtab" (by simp [sectionNames])
  have hshstrtab := hname ".shstrtab" (by simp [sectionNames])
  generalize Layout.ofEntries entries = l at *
  have halignment : (if hasCode then 4 else 1) < 256 ^ 8 := by cases hasCode <;> decide
  simp only [Object.sectionHeaders, SectionHeader.fields, List.forall_mem_cons, List.not_mem_nil,
    false_implies, implies_true, fieldsFit_cons, fieldsFit_nil, and_true, Layout.headersAt,
    Layout.tablesEnd, Layout.sectionsAt, Layout.namesAt, headerSize, symbolSize] at *
  omega

theorem readFields_fileHeader {l : Layout} (h : l.headersAt < 2 ^ 64) (rest : List UInt8) :
    readFields [2, 2, 4, 8, 8, 8, 4, 2, 2, 2, 2, 2, 2] ((fileHeader l ++ rest).drop 16) =
      some [1, 0xb7, 1, 0, 0, l.headersAt, 0, 64, 0, 0, 64, 5, 4] := by
  let fields := [(2, 1), (2, 0xb7), (4, 1), (8, 0), (8, 0), (8, l.headersAt), (4, 0), (2, 64), (2, 0),
    (2, 0), (2, 64), (2, 5), (2, 4)]
  have hheader : fileHeader l ++ rest =
      ([0x7f, 0x45, 0x4c, 0x46, 2, 1, 1] ++ zeros 9) ++ (fieldBytes fields ++ rest) := by
    simp [fileHeader, fieldBytes, fields, half, word, giant, headerSize, sectionCount]
  have hident : ([0x7f, 0x45, 0x4c, 0x46, 2, 1, 1] ++ zeros 9).length = 16 := rfl
  have hfit : FieldsFit fields := by
    simp only [fields, fieldsFit_cons, fieldsFit_nil, and_true]
    omega
  rw [hheader, List.drop_left' hident]
  exact readFields_fieldBytes hfit rest

/-! ### Symbols -/

def kernelSymbols : Nat → List Entry → List ElfSymbol
  | _, [] => []
  | start, e :: rest =>
    { name := e.name, info := 0x12, home := textIndex, value := start, size := e.size } ::
      kernelSymbols (start + e.size) rest

theorem readSymbol_fieldBytes {strings : List UInt8} {name : String}
    {offset info other home value size : Nat} (hname : readString strings offset = some name)
    (hfit : FieldsFit [(4, offset), (1, info), (1, other), (2, home), (8, value), (8, size)])
    (rest : List UInt8) :
    readSymbol strings (fieldBytes [(4, offset), (1, info), (1, other), (2, home), (8, value),
      (8, size)] ++ rest) = some { name, info, home, value, size } := by
  have hfields := readFields_fieldBytes hfit rest
  simp only [List.map_cons, List.map_nil] at hfields
  rw [readSymbol, hfields]
  simp [hname]

theorem readSymbol_symbol {strings : List UInt8} {name : String} {offset value size : Nat}
    (hname : readString strings offset = some name) (hoffset : offset < 2 ^ 32)
    (hvalue : value < 2 ^ 64) (hsize : size < 2 ^ 64) (rest : List UInt8) :
    readSymbol strings (symbol offset value size ++ rest) =
      some { name, info := 0x12, home := textIndex, value, size } := by
  have hsymbol : symbol offset value size =
      fieldBytes [(4, offset), (1, 0x12), (1, 2), (2, textIndex), (8, value), (8, size)] := by
    simp [symbol, fieldBytes, word, half, giant, littleEndian]
  rw [hsymbol]
  apply readSymbol_fieldBytes hname
  simp only [fieldsFit_cons, fieldsFit_nil, and_true, textIndex]
  omega

theorem readSymbol_zeros {strings : List UInt8} (hempty : readString strings 0 = some "")
    (rest : List UInt8) : readSymbol strings (zeros symbolSize ++ rest) = some {} := by
  have hzeros : zeros symbolSize = fieldBytes [(4, 0), (1, 0), (1, 0), (2, 0), (8, 0), (8, 0)] := by
    decide
  rw [hzeros]
  exact readSymbol_fieldBytes hempty (by simp) rest

theorem readRecords_symbols {names : StringTable} {start stop : Nat}
    (hnames : ∀ e ∈ entries, readString names.bytes (names.offset e.nameBytes) = some e.name ∧
      names.offset e.nameBytes < 2 ^ 32)
    (hstop : start + (entries.map Entry.size).sum ≤ stop) (hlt : stop < 2 ^ 64) (rest : List UInt8) :
    readRecords (readSymbol names.bytes) symbolSize entries.length
      (symbols names start entries ++ rest) = some (kernelSymbols start entries) := by
  induction entries generalizing start with
  | nil => rfl
  | cons e more ih =>
    obtain ⟨hname, hoffset⟩ := hnames e List.mem_cons_self
    rw [List.map_cons, List.sum_cons] at hstop
    rw [symbols, List.append_assoc]
    exact readRecords_append (length_symbol ..)
      (readSymbol_symbol hname hoffset (by omega) (by omega) _)
      (ih (fun f hf => hnames f (List.mem_cons_of_mem _ hf)) (by omega))

/-! ### The whole file -/

theorem readString_zero (strings : List (List UInt8)) :
    readString (StringTable.ofStrings strings).bytes 0 = some "" :=
  readString_of_standsAt (by simpa [toList_byteArray] using StringTable.standsAt_zero strings)
    (by simp [toList_byteArray])

theorem readString_nameBytes {e : Entry} (he : e ∈ entries) (hzero : 0 ∉ e.nameBytes) :
    readString (Layout.ofEntries entries).names.bytes
        ((Layout.ofEntries entries).names.offset e.nameBytes) = some e.name ∧
      (Layout.ofEntries entries).names.offset e.nameBytes < (Layout.ofEntries entries).names.size := by
  have hstored : e.nameBytes ∈ (entries.map Entry.nameBytes).filter (fun name => !name.isEmpty) ∨
      e.nameBytes = [] := by
    by_cases hempty : e.nameBytes = []
    · exact .inr hempty
    · have hkept : (!e.nameBytes.isEmpty) = true := by
        simpa only [Bool.not_eq_true', List.isEmpty_eq_false_iff]
      exact .inl (List.mem_filter.2 ⟨List.mem_map_of_mem he, hkept⟩)
  exact ⟨readString_of_standsAt (StringTable.standsAt_offset hstored) hzero,
    StringTable.offset_lt_size hstored⟩

theorem readString_sectionName (entries : List Entry) :
    ∀ name ∈ [".text", ".symtab", ".strtab", ".shstrtab"],
      readString (Layout.ofEntries entries).sections.bytes
        ((Layout.ofEntries entries).sections.offset name.toUTF8.toList) = some name := by
  intro name hname
  have hzero : ∀ name ∈ [".text", ".symtab", ".strtab", ".shstrtab"], 0 ∉ name.toUTF8.toList := by
    simp only [toList_byteArray]
    decide
  exact readString_of_standsAt (StringTable.standsAt_offset (.inl (List.mem_map_of_mem hname)))
    (hzero name hname)

theorem readPart_text (entries : List Entry) : readPart (elfBytes entries) headerSize
    (Layout.ofEntries entries).textSize = some (entries.flatMap Entry.code) :=
  (parts_elfBytes entries).text.readPart (length_code entries)

theorem readPart_symbols (entries : List Entry) : readPart (elfBytes entries)
    (Layout.ofEntries entries).symbols (Layout.ofEntries entries).symbolsSize =
      some (zeros symbolSize ++ symbols (Layout.ofEntries entries).names 0 entries) :=
  (parts_elfBytes entries).symbols.readPart (length_symbolTable entries _)

theorem readPart_names (entries : List Entry) : readPart (elfBytes entries)
    (Layout.ofEntries entries).namesAt (Layout.ofEntries entries).names.size =
      some (Layout.ofEntries entries).names.bytes :=
  (parts_elfBytes entries).names.readPart rfl

theorem readPart_sections (entries : List Entry) : readPart (elfBytes entries)
    (Layout.ofEntries entries).sectionsAt (Layout.ofEntries entries).sections.size =
      some (Layout.ofEntries entries).sections.bytes :=
  (parts_elfBytes entries).sections.readPart rfl

def image (entries : List Entry) : ElfFile :=
  let l := Layout.ofEntries entries
  { machine := 0xb7
    sections := [⟨"", []⟩, ⟨".text", entries.flatMap Entry.code⟩,
      ⟨".symtab", zeros symbolSize ++ symbols l.names 0 entries⟩, ⟨".strtab", l.names.bytes⟩,
      ⟨".shstrtab", l.sections.bytes⟩]
    symbols := {} :: kernelSymbols 0 entries }

theorem readRecords_headers (hfits : Fits entries) :
    readRecords readSectionHeader 64 5
      ((elfBytes entries).drop (Layout.ofEntries entries).headersAt) =
        some (sectionHeaders (Layout.ofEntries entries) !entries.isEmpty) := by
  obtain ⟨rest, hrest⟩ := (parts_elfBytes entries).headers.drop
  rw [hrest]
  exact readRecords_flatMap (fun h _ => h.length_bytes)
    (fun h hh => readSectionHeader_bytes (hfits.sectionHeaders _ h hh)) rest

theorem mapM_readSection (entries : List Entry) (hasCode : Bool) :
    (sectionHeaders (Layout.ofEntries entries) hasCode).mapM
      (ElfFile.readSection (elfBytes entries) (Layout.ofEntries entries).sections.bytes) =
        some (image entries).sections := by
  have hnull : readPart (elfBytes entries) 0 0 = some [] := by simp [readPart]
  have hempty : readString (Layout.ofEntries entries).sections.bytes 0 = some "" := readString_zero _
  have hnames := readString_sectionName entries
  simp only [List.forall_mem_cons, List.not_mem_nil, false_implies, implies_true, and_true] at hnames
  obtain ⟨htext, hsymtab, hstrtab, hshstrtab⟩ := hnames
  simp only [sectionHeaders, List.mapM_cons, List.mapM_nil, ElfFile.readSection, ElfFile.contents,
    hnull, hempty, htext, hsymtab, hstrtab, hshstrtab, readPart_text, readPart_symbols, readPart_names,
    readPart_sections]
  rfl

theorem readRecords_symbolTable (hzero : ∀ e ∈ entries, 0 ∉ e.nameBytes) (hfits : Fits entries) :
    readRecords (readSymbol (Layout.ofEntries entries).names.bytes) symbolSize
      ((Layout.ofEntries entries).symbolsSize / symbolSize)
      (zeros symbolSize ++ symbols (Layout.ofEntries entries).names 0 entries) =
        some (image entries).symbols := by
  have hcount : (Layout.ofEntries entries).symbolsSize / symbolSize = entries.length + 1 :=
    Nat.mul_div_cancel_left _ (by decide)
  have hnames : ∀ e ∈ entries, readString (Layout.ofEntries entries).names.bytes
      ((Layout.ofEntries entries).names.offset e.nameBytes) = some e.name ∧
        (Layout.ofEntries entries).names.offset e.nameBytes < 2 ^ 32 := by
    intro e he
    obtain ⟨hname, hlt⟩ := readString_nameBytes he (hzero e he)
    have hsize := names_size_le entries
    have htotal := hfits.names
    exact ⟨hname, by omega⟩
  have hstop : 0 + (entries.map Entry.size).sum ≤ (entries.map Entry.size).sum := by omega
  have hsymbols := readRecords_symbols hnames hstop (Nat.lt_trans hfits.code (by decide)) []
  rw [List.append_nil] at hsymbols
  rw [hcount]
  exact readRecords_append rfl (readSymbol_zeros (readString_zero _) _) hsymbols

theorem readSymbols_elfBytes (hzero : ∀ e ∈ entries, 0 ∉ e.nameBytes) (hfits : Fits entries)
    (hasCode : Bool) :
    ElfFile.readSymbols (elfBytes entries) (sectionHeaders (Layout.ofEntries entries) hasCode) =
      some (image entries).symbols := by
  have hrecords := readRecords_symbolTable hzero hfits
  obtain ⟨table, hfind, hlink, hsize, hentry, htable⟩ : ∃ table,
      (sectionHeaders (Layout.ofEntries entries) hasCode).find? (fun h => h.kind == 2) = some table ∧
        table.link = 3 ∧ table.size = (Layout.ofEntries entries).symbolsSize ∧
        table.entrySize = symbolSize ∧ ElfFile.contents (elfBytes entries) table =
          some (zeros symbolSize ++ symbols (Layout.ofEntries entries).names 0 entries) := by
    refine ⟨_, rfl, rfl, rfl, rfl, ?_⟩
    exact readPart_symbols entries
  obtain ⟨strings, hstrings, hnames⟩ : ∃ strings,
      (sectionHeaders (Layout.ofEntries entries) hasCode)[3]? = some strings ∧
        ElfFile.contents (elfBytes entries) strings = some (Layout.ofEntries entries).names.bytes := by
    refine ⟨_, rfl, ?_⟩
    exact readPart_names entries
  simp only [ElfFile.readSymbols, hfind, hlink, hsize, hentry, htable, hstrings, hnames, hrecords,
    Option.bind_eq_bind, Option.bind_some]

theorem read_elfBytes (hzero : ∀ e ∈ entries, 0 ∉ e.nameBytes) (hfits : Fits entries) :
    ElfFile.read (elfBytes entries) = some (image entries) := by
  obtain ⟨rest, hstart⟩ := (parts_elfBytes entries).header.drop
  have hident : (elfBytes entries).take 6 = [0x7f, 0x45, 0x4c, 0x46, 2, 1] := by
    rw [← (elfBytes entries).drop_zero, hstart]
    rfl
  have hfields := readFields_fileHeader hfits.headersAt_lt rest
  rw [← hstart, List.drop_zero] at hfields
  obtain ⟨names, hnames, hcontents⟩ : ∃ names,
      (sectionHeaders (Layout.ofEntries entries) !entries.isEmpty)[4]? = some names ∧
        ElfFile.contents (elfBytes entries) names = some (Layout.ofEntries entries).sections.bytes := by
    refine ⟨_, rfl, ?_⟩
    exact readPart_sections entries
  simp only [ElfFile.read, hident, guard_true, hfields, readRecords_headers hfits, hnames, hcontents,
    mapM_readSection, readSymbols_elfBytes hzero hfits, Option.bind_eq_bind, Option.bind_some]
  rfl

/-! ### Kernels in the file -/

/-- The symbol is a global function over the entry's words in `.text`. -/
structure ElfFile.IsKernel (file : ElfFile) (s : ElfSymbol) (e : Entry) : Prop where
  name : s.name = e.name
  info : s.info = 0x12
  home : (file.sections[s.home]?).map ElfSection.name = some ".text"
  words : file.wordsOf s = some e.words.toList

/-- The ranges of the symbols follow each other from `start` to `stop`. -/
def Tiles : Nat → List ElfSymbol → Nat → Prop
  | start, [], stop => start = stop
  | start, s :: rest, stop => s.value = start ∧ Tiles (start + s.size) rest stop

theorem tiles_kernelSymbols (start : Nat) (entries : List Entry) :
    Tiles start (kernelSymbols start entries) (start + (entries.map Entry.size).sum) := by
  induction entries generalizing start with
  | nil => rfl
  | cons e rest ih =>
    rw [List.map_cons, List.sum_cons, ← Nat.add_assoc]
    exact ⟨rfl, ih (start + e.size)⟩

theorem forall₂_kernelSymbols {file : ElfFile} {text : ElfSection} {start : Nat}
    (hname : text.name = ".text") (htext : file.sections[textIndex]? = some text)
    (hcode : StandsAt text.contents (entries.flatMap Entry.code) start) :
    List.Forall₂ file.IsKernel (kernelSymbols start entries) entries := by
  induction entries generalizing start with
  | nil => exact .nil
  | cons e rest ih =>
    rw [List.flatMap_cons] at hcode
    have hpart := hcode.left.readPart e.length_code
    refine .cons ⟨rfl, rfl, by simp [htext, hname], ?_⟩ (ih (hcode.right _ (by rw [e.length_code])))
    simp only [ElfFile.wordsOf, htext, hpart, Option.bind_eq_bind, Option.bind_some]
    exact readWords_flatMap e.words.toList

theorem writeElf_eq_ok_iff (hzero : ∀ e ∈ entries, 0 ∉ e.nameBytes) {bytes : List UInt8} :
    writeElf entries = .ok bytes ↔ (∀ e ∈ entries, e.words ≠ #[]) ∧ bytes = elfBytes entries := by
  have hany : entries.any (fun e => e.nameBytes.contains 0) = false := by simpa using hzero
  cases hfind : entries.find? (fun e => e.words.isEmpty) with
  | none =>
    have hcode : ∀ e ∈ entries, e.words ≠ #[] := by simpa using hfind
    have hwrite : writeElf entries = .ok (elfBytes entries) := by
      simp only [writeElf, hfind, hany]
      rfl
    rw [hwrite, Except.ok.injEq, eq_comm, and_iff_right hcode]
  | some e =>
    have hempty : e.words = #[] := by simpa using List.find?_some hfind
    have hrefuse : writeElf entries = refuse (.emptyKernel e.name) := by simp only [writeElf, hfind]
    rw [hrefuse]
    exact ⟨nofun, fun h => absurd hempty (h.1 e (List.mem_of_find?_eq_some hfind))⟩

theorem writeElf_first_empty {before after : List Entry} {e : Entry}
    (hbefore : ∀ f ∈ before, f.words ≠ #[]) (he : e.words = #[]) :
    writeElf (before ++ e :: after) = .error (.badParameter (.emptyKernel e.name)) := by
  have hfind : (before ++ e :: after).find? (fun e => e.words.isEmpty) = some e := by
    rw [List.find?_append, List.find?_eq_none.2 (by simpa using hbefore)]
    simp [he]
  simp only [writeElf, hfind]
  rfl

/-- An object is written exactly of entries that all have code, and the first one without is named in
the refusal. What is written reads back as one symbol for each entry, in order, with its name and its
words; the symbols' ranges divide `.text` among them. -/
theorem writeElf_readBack (entries : List Entry) (hzero : ∀ e ∈ entries, 0 ∉ e.nameBytes)
    (hfits : Fits entries) :
    ((∃ bytes, writeElf entries = .ok bytes) ↔ ∀ e ∈ entries, e.words ≠ #[]) ∧
    (∀ before e after, entries = before ++ e :: after → (∀ f ∈ before, f.words ≠ #[]) →
      e.words = #[] → writeElf entries = .error (.badParameter (.emptyKernel e.name))) ∧
    ∀ bytes, writeElf entries = .ok bytes → ∃ file text kernels, ElfFile.read bytes = some file ∧
      file.machine = 0xb7 ∧
      file.sections.map ElfSection.name = ["", ".text", ".symtab", ".strtab", ".shstrtab"] ∧
      file.sections.find? (fun s => s.name == ".text") = some text ∧
      file.symbols = {} :: kernels ∧ List.Forall₂ file.IsKernel kernels entries ∧
      Tiles 0 kernels text.contents.length := by
  refine ⟨⟨?_, ?_⟩, ?_, ?_⟩
  · rintro ⟨bytes, hbytes⟩
    exact ((writeElf_eq_ok_iff hzero).1 hbytes).1
  · intro hcode
    exact ⟨elfBytes entries, (writeElf_eq_ok_iff hzero).2 ⟨hcode, rfl⟩⟩
  · rintro before e after rfl hbefore he
    exact writeElf_first_empty hbefore he
  · intro bytes hbytes
    rw [((writeElf_eq_ok_iff hzero).1 hbytes).2]
    let text : ElfSection := ⟨".text", entries.flatMap Entry.code⟩
    have htext : StandsAt text.contents (entries.flatMap Entry.code) 0 := ⟨[], [], by simp [text], rfl⟩
    have htiles := tiles_kernelSymbols 0 entries
    rw [Nat.zero_add, ← length_code] at htiles
    exact ⟨image entries, text, kernelSymbols 0 entries, read_elfBytes hzero hfits, rfl, rfl, rfl, rfl,
      forall₂_kernelSymbols rfl rfl htext, htiles⟩

def sharedNames : List Entry :=
  [⟨"relu", #[0xd65f03c0]⟩, ⟨"fused_relu", #[0xd503201f, 0xd65f03c0]⟩, ⟨"relu", #[0xd503201f]⟩,
    ⟨"", #[0xd65f03c0]⟩]

theorem sharedNames_readBack : (∀ e ∈ sharedNames, 0 ∉ e.nameBytes) ∧ Fits sharedNames ∧
    (Layout.ofEntries sharedNames).names.size = 12 ∧
    ∃ bytes file kernels, writeElf sharedNames = .ok bytes ∧ ElfFile.read bytes = some file ∧
      file.symbols = {} :: kernels ∧ List.Forall₂ file.IsKernel kernels sharedNames := by
  have hzero : ∀ e ∈ sharedNames, 0 ∉ e.nameBytes := by
    simp only [Entry.nameBytes, toList_byteArray]
    decide
  have hfits : Fits sharedNames := ⟨by cbv, by cbv⟩
  have hsize : (Layout.ofEntries sharedNames).names.size = 12 := by cbv
  obtain ⟨hwrites, -, hreads⟩ := writeElf_readBack sharedNames hzero hfits
  obtain ⟨bytes, hbytes⟩ := hwrites.2 (by simp [sharedNames])
  obtain ⟨file, text, kernels, hread, -, -, -, hsymbols, hkernels, -⟩ := hreads bytes hbytes
  exact ⟨hzero, hfits, hsize, bytes, file, kernels, hbytes, hread, hsymbols, hkernels⟩

end TensorKernels.Object
