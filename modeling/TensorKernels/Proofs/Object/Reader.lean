import Mathlib
import TensorKernels.Object.Elf

/-!
A reader of relocatable ELF64 files. It is written from the format alone: it follows the file header to
the section headers, names the sections by the string table that the header points to, and reads the
symbols of the symbol table with the strings that its section is linked to. Whatever it reads has to lie
inside the file. The lemmas say what it gives for bytes that are known to stand at a position.
-/

namespace TensorKernels.Object

def number (bytes : List UInt8) : Nat := bytes.foldr (fun b rest => b.toNat + 256 * rest) 0

def readFields : List Nat → List UInt8 → Option (List Nat)
  | [], _ => some []
  | width :: widths, bytes =>
    if width ≤ bytes.length then
      (readFields widths (bytes.drop width)).map (number (bytes.take width) :: ·)
    else none

def readRecords {α : Type} (read : List UInt8 → Option α) (size : Nat) :
    Nat → List UInt8 → Option (List α)
  | 0, _ => some []
  | count + 1, bytes => do
    let record ← read bytes
    let records ← readRecords read size count (bytes.drop size)
    return record :: records

def readPart (bytes : List UInt8) (position size : Nat) : Option (List UInt8) :=
  if position + size ≤ bytes.length then some ((bytes.drop position).take size) else none

def readString (bytes : List UInt8) (position : Nat) : Option String :=
  let text := bytes.drop position
  if 0 ∈ text then String.fromUTF8? (text.takeWhile (· ≠ 0)).toByteArray else none

def readWords : List UInt8 → Option (List Word)
  | [] => some []
  | a :: b :: c :: d :: rest => (readWords rest).map (BitVec.ofNat 32 (number [a, b, c, d]) :: ·)
  | _ => none

structure ElfSection where
  name : String
  contents : List UInt8
  deriving DecidableEq, Repr

structure ElfSymbol where
  name : String := ""
  info : Nat := 0
  home : Nat := 0
  value : Nat := 0
  size : Nat := 0
  deriving DecidableEq, Repr

structure ElfFile where
  machine : Nat
  sections : List ElfSection
  symbols : List ElfSymbol
  deriving DecidableEq, Repr

def readSectionHeader (bytes : List UInt8) : Option SectionHeader := do
  let [name, kind, flags, _, position, size, link, info, alignment, entrySize] ←
    readFields [4, 4, 8, 8, 8, 8, 4, 4, 8, 8] bytes | none
  return { name, kind, flags, position, size, link, info, alignment, entrySize }

def readSymbol (strings bytes : List UInt8) : Option ElfSymbol := do
  let [name, info, _, home, value, size] ← readFields [4, 1, 1, 2, 8, 8] bytes | none
  return { name := ← readString strings name, info, home, value, size }

namespace ElfFile

def contents (bytes : List UInt8) (h : SectionHeader) : Option (List UInt8) :=
  readPart bytes h.position h.size

def readSection (bytes names : List UInt8) (h : SectionHeader) : Option ElfSection := do
  return { name := ← readString names h.name, contents := ← contents bytes h }

def readSymbols (bytes : List UInt8) (headers : List SectionHeader) : Option (List ElfSymbol) := do
  let table ← headers.find? fun h => h.kind == 2
  let strings ← contents bytes (← headers[table.link]?)
  readRecords (readSymbol strings) table.entrySize (table.size / table.entrySize)
    (← contents bytes table)

/-- Reads a file of 64-bit class and little-endian data. -/
def read (bytes : List UInt8) : Option ElfFile := do
  guard (bytes.take 6 = [0x7f, 0x45, 0x4c, 0x46, 2, 1])
  let [_, machine, _, _, _, headersAt, _, _, _, _, headerSize, headerCount, namesIndex] ←
    readFields [2, 2, 4, 8, 8, 8, 4, 2, 2, 2, 2, 2, 2] (bytes.drop 16) | none
  let headers ← readRecords readSectionHeader headerSize headerCount (bytes.drop headersAt)
  let names ← contents bytes (← headers[namesIndex]?)
  let sections ← headers.mapM (readSection bytes names)
  let symbols ← readSymbols bytes headers
  return { machine, sections, symbols }

def wordsOf (file : ElfFile) (s : ElfSymbol) : Option (List Word) := do
  let home ← file.sections[s.home]?
  readWords (← readPart home.contents s.value s.size)

end ElfFile

/-! ### Bytes at a position -/

def StandsAt (bytes part : List UInt8) (position : Nat) : Prop :=
  ∃ before after, bytes = before ++ (part ++ after) ∧ before.length = position

namespace StandsAt

variable {bytes part more : List UInt8} {position : Nat}

theorem left (h : StandsAt bytes (part ++ more) position) : StandsAt bytes part position := by
  obtain ⟨before, after, rfl, hlen⟩ := h
  exact ⟨before, more ++ after, by simp, hlen⟩

theorem right (h : StandsAt bytes (part ++ more) position) (next : Nat)
    (hnext : position + part.length = next) : StandsAt bytes more next := by
  obtain ⟨before, after, rfl, hlen⟩ := h
  exact ⟨before ++ part, after, by simp, by simp [hlen, hnext]⟩

theorem append (h : StandsAt bytes part position) (more : List UInt8) :
    StandsAt (bytes ++ more) part position := by
  obtain ⟨before, after, rfl, hlen⟩ := h
  exact ⟨before, after ++ more, by simp, hlen⟩

theorem add_length_le (h : StandsAt bytes part position) : position + part.length ≤ bytes.length := by
  obtain ⟨before, after, rfl, hlen⟩ := h
  simp only [List.length_append]
  omega

theorem drop (h : StandsAt bytes part position) : ∃ after, bytes.drop position = part ++ after := by
  obtain ⟨before, after, rfl, rfl⟩ := h
  exact ⟨after, List.drop_left⟩

theorem readPart (h : StandsAt bytes part position) {size : Nat} (hsize : part.length = size) :
    readPart bytes position size = some part := by
  have hle := h.add_length_le
  obtain ⟨after, hdrop⟩ := h.drop
  rw [Object.readPart, if_pos (hsize ▸ hle), hdrop, ← hsize, List.take_left]

end StandsAt

/-! ### Numbers, records and words -/

theorem number_littleEndian {count n : Nat} (h : n < 256 ^ count) :
    number (littleEndian count n) = n := by
  induction count generalizing n with
  | zero => simp [littleEndian, number, Nat.lt_one_iff.1 h]
  | succ count ih =>
    have hrest : n / 256 < 256 ^ count := Nat.div_lt_of_lt_mul (by rwa [Nat.pow_succ'] at h)
    have hrec := ih hrest
    simp only [number, littleEndian, List.foldr_cons] at hrec ⊢
    rw [hrec, UInt8.toNat_ofNat', Nat.mod_mod]
    exact Nat.mod_add_div n 256

def fieldBytes (fields : List (Nat × Nat)) : List UInt8 :=
  fields.flatMap fun f => littleEndian f.1 f.2

def FieldsFit (fields : List (Nat × Nat)) : Prop := ∀ f ∈ fields, f.2 < 256 ^ f.1

@[simp] theorem fieldsFit_nil : FieldsFit [] := by simp [FieldsFit]

@[simp] theorem fieldsFit_cons {f : Nat × Nat} {fields : List (Nat × Nat)} :
    FieldsFit (f :: fields) ↔ f.2 < 256 ^ f.1 ∧ FieldsFit fields :=
  List.forall_mem_cons

theorem readFields_fieldBytes {fields : List (Nat × Nat)} (h : FieldsFit fields) (rest : List UInt8) :
    readFields (fields.map Prod.fst) (fieldBytes fields ++ rest) = some (fields.map Prod.snd) := by
  induction fields with
  | nil => rfl
  | cons f fields ih =>
    have hlen := length_littleEndian f.1 f.2
    obtain ⟨hf, hfields⟩ := fieldsFit_cons.1 h
    have htail := ih hfields
    simp only [fieldBytes, List.flatMap_cons, List.map_cons, List.append_assoc, readFields] at htail ⊢
    rw [if_pos (by simp), List.drop_left' hlen, List.take_left' hlen, htail,
      number_littleEndian hf, Option.map_some]

theorem readRecords_append {α : Type} {read : List UInt8 → Option α} {size count : Nat}
    {bytes rest : List UInt8} {record : α} {records : List α} (hsize : bytes.length = size)
    (hread : read (bytes ++ rest) = some record)
    (hrest : readRecords read size count rest = some records) :
    readRecords read size (count + 1) (bytes ++ rest) = some (record :: records) := by
  rw [readRecords, hread, List.drop_left' hsize, Option.bind_eq_bind, Option.bind_some, hrest]
  rfl

theorem readRecords_flatMap {α : Type} {read : List UInt8 → Option α} {write : α → List UInt8}
    {size : Nat} {records : List α} (hsize : ∀ r ∈ records, (write r).length = size)
    (hread : ∀ r ∈ records, ∀ rest, read (write r ++ rest) = some r) (rest : List UInt8) :
    readRecords read size records.length (records.flatMap write ++ rest) = some records := by
  induction records with
  | nil => rfl
  | cons r records ih =>
    rw [List.flatMap_cons, List.append_assoc]
    exact readRecords_append (hsize r List.mem_cons_self) (hread r List.mem_cons_self _)
      (ih (fun s hs => hsize s (List.mem_cons_of_mem _ hs))
        fun s hs => hread s (List.mem_cons_of_mem _ hs))

theorem wordBytes_eq_littleEndian (w : Word) : CodeBuffer.wordBytes w = littleEndian 4 w.toNat := by
  simp [CodeBuffer.wordBytes, littleEndian, Nat.shiftRight_eq_div_pow, Nat.div_div_eq_div_mul]

theorem readWords_flatMap (ws : List Word) : readWords (ws.flatMap CodeBuffer.wordBytes) = some ws := by
  induction ws with
  | nil => rfl
  | cons w ws ih =>
    have hstep (rest : List UInt8) : readWords (CodeBuffer.wordBytes w ++ rest) =
        (readWords rest).map (BitVec.ofNat 32 (number (CodeBuffer.wordBytes w)) :: ·) := rfl
    have hw : number (CodeBuffer.wordBytes w) = w.toNat := by
      rw [wordBytes_eq_littleEndian, number_littleEndian w.isLt]
    rw [List.flatMap_cons, hstep, ih, hw, BitVec.ofNat_toNat, BitVec.setWidth_eq, Option.map_some]

/-! ### Text -/

theorem toList_byteArray (b : ByteArray) : b.toList = b.data.toList := by
  have hloop (i : Nat) (r : List UInt8) :
      ByteArray.toList.loop b i r = r.reverse ++ b.data.toList.drop i := by
    fun_induction ByteArray.toList.loop b i r with
    | case1 i r hi ih =>
      have hlt : i < b.data.toList.length := hi
      rw [ih, List.drop_eq_getElem_cons hlt]
      simp [ByteArray.get!, getElem!_pos b.data i hi]
    | case2 i r hi =>
      have hle : b.data.toList.length ≤ i := Nat.le_of_not_lt hi
      simp [List.drop_eq_nil_of_le hle]
  rw [ByteArray.toList, hloop]
  rfl

theorem readString_of_standsAt {bytes : List UInt8} {position : Nat} {s : String}
    (h : StandsAt bytes (s.toUTF8.toList ++ [0]) position) (hzero : 0 ∉ s.toUTF8.toList) :
    readString bytes position = some s := by
  obtain ⟨after, hdrop⟩ := h.drop
  have htext : (s.toUTF8.toList ++ [0] ++ after).takeWhile (· ≠ 0) = s.toUTF8.toList := by
    rw [List.append_assoc, List.takeWhile_append_of_pos]
    · simp
    · intro b hb
      exact decide_eq_true (ne_of_mem_of_not_mem hb hzero)
  have hbytes : s.toUTF8.toList.toByteArray = s.toUTF8 := by
    apply ByteArray.ext
    apply Array.toList_inj.1
    rw [List.toList_data_toByteArray, toList_byteArray]
  have hvalid : s.toUTF8.IsValidUTF8 := s.isValidUTF8
  rw [readString, hdrop, htext, hbytes, if_pos (by simp), String.fromUTF8?, dif_pos hvalid]
  rfl

end TensorKernels.Object
