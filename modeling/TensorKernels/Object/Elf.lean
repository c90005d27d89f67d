import TensorKernels.Assembly.Buffer
import TensorKernels.Error
import TensorKernels.Object.StringTable

/-!
Relocatable ELF64 objects of AArch64 code. The kernels' words follow each other in `.text`; each
kernel is a global function symbol over its part of it. Behind the file header stand the code, the
symbol table, the two string tables and five section headers.
-/

namespace TensorKernels.Object

structure Entry where
  name : String
  words : Array Word
  deriving DecidableEq, Repr

namespace Entry

def nameBytes (e : Entry) : List UInt8 := e.name.toUTF8.toList

def code (e : Entry) : List UInt8 := e.words.toList.flatMap CodeBuffer.wordBytes

def size (e : Entry) : Nat := 4 * e.words.size

end Entry

def headerSize : Nat := 64
def symbolSize : Nat := 24
def sectionCount : Nat := 5

def textIndex : Nat := 1

def sectionNames : List (List UInt8) :=
  [".text", ".symtab", ".strtab", ".shstrtab"].map fun name => name.toUTF8.toList

structure Layout where
  textSize : Nat
  symbols : Nat
  symbolsSize : Nat
  names : StringTable
  sections : StringTable
  deriving DecidableEq, Repr

namespace Layout

def ofEntries (entries : List Entry) : Layout :=
  let textSize := (entries.map Entry.size).foldr (· + ·) 0
  { textSize
    symbols := align 8 (headerSize + textSize)
    symbolsSize := symbolSize * (entries.length + 1)
    names := .ofStrings ((entries.map Entry.nameBytes).filter fun name => !name.isEmpty)
    sections := .ofStrings sectionNames }

def namesAt (l : Layout) : Nat := l.symbols + l.symbolsSize

def sectionsAt (l : Layout) : Nat := l.namesAt + l.names.size

def tablesEnd (l : Layout) : Nat := l.sectionsAt + l.sections.size

def headersAt (l : Layout) : Nat := align 8 l.tablesEnd

end Layout

def fileHeader (l : Layout) : List UInt8 :=
  [0x7f, 0x45, 0x4c, 0x46, 2, 1, 1] ++ zeros 9 ++ half 1 ++ half 0xb7 ++ word 1 ++ giant 0 ++
    giant 0 ++ giant l.headersAt ++ word 0 ++ half headerSize ++ half 0 ++ half 0 ++ half 64 ++
    half sectionCount ++ half 4

def symbol (name value size : Nat) : List UInt8 :=
  word name ++ [0x12, 2] ++ half textIndex ++ giant value ++ giant size

def symbols (names : StringTable) : Nat → List Entry → List UInt8
  | _, [] => []
  | value, e :: rest =>
    symbol (names.offset e.nameBytes) value e.size ++ symbols names (value + e.size) rest

structure SectionHeader where
  name : Nat := 0
  kind : Nat := 0
  flags : Nat := 0
  position : Nat := 0
  size : Nat := 0
  link : Nat := 0
  info : Nat := 0
  alignment : Nat := 0
  entrySize : Nat := 0
  deriving DecidableEq, Repr

def SectionHeader.bytes (h : SectionHeader) : List UInt8 :=
  word h.name ++ word h.kind ++ giant h.flags ++ giant 0 ++ giant h.position ++ giant h.size ++
    word h.link ++ word h.info ++ giant h.alignment ++ giant h.entrySize

def sectionHeaders (l : Layout) (hasCode : Bool) : List SectionHeader :=
  let named (name : String) : Nat := l.sections.offset name.toUTF8.toList
  [{},
    { name := named ".text", kind := 1, flags := 6, position := headerSize, size := l.textSize
      alignment := if hasCode then 4 else 1 },
    { name := named ".symtab", kind := 2, position := l.symbols, size := l.symbolsSize, link := 3
      info := 1, alignment := 8, entrySize := symbolSize },
    { name := named ".strtab", kind := 3, position := l.namesAt, size := l.names.size
      alignment := 1 },
    { name := named ".shstrtab", kind := 3, position := l.sectionsAt, size := l.sections.size
      alignment := 1 }]

def elfBytes (entries : List Entry) : List UInt8 :=
  let l := Layout.ofEntries entries
  fileHeader l ++ entries.flatMap Entry.code ++ zeros (l.symbols - (headerSize + l.textSize)) ++
    zeros symbolSize ++ symbols l.names 0 entries ++ l.names.bytes ++ l.sections.bytes ++
    zeros (l.headersAt - l.tablesEnd) ++
    (sectionHeaders l !entries.isEmpty).flatMap SectionHeader.bytes

/-- Writes an object, unless an entry has no code or a name that a string table cannot hold. -/
def writeElf (entries : List Entry) : Except Error (List UInt8) := do
  match entries.find? (fun e => e.words.isEmpty) with
  | some e => refuse (.emptyKernel e.name)
  | none =>
    if entries.any (fun e => e.nameBytes.contains 0) then .error .nulInName
    else return elfBytes entries

end TensorKernels.Object
