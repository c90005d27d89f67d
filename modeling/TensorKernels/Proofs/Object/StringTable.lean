import TensorKernels.Proofs.Object.Reader

/-!
What a string table holds. Whatever the order in which strings are added, each of them stands at the
offset recorded for it and is closed there by a zero byte. The order of adding only decides how much is
shared: the table never takes more than its first byte and all strings with their closing zeros.
-/

namespace TensorKernels.Object

namespace StringTable

def total (strings : List (List UInt8)) : Nat := (strings.map fun s => s.length + 1).sum

@[simp] theorem total_nil : total [] = 0 := rfl

@[simp] theorem total_cons (s : List UInt8) (strings : List (List UInt8)) :
    total (s :: strings) = s.length + 1 + total strings := by
  simp [total]

@[simp] theorem total_append (ss ts : List (List UInt8)) : total (ss ++ ts) = total ss + total ts := by
  simp [total]

theorem total_filter_le (p : List UInt8 → Bool) (strings : List (List UInt8)) :
    total (strings.filter p) ≤ total strings := by
  induction strings with
  | nil => simp
  | cons s rest ih =>
    rw [List.filter_cons]
    split <;> simp only [total_cons] <;> omega

theorem total_eraseDups_le (strings : List (List UInt8)) : total strings.eraseDups ≤ total strings := by
  match strings with
  | [] => simp
  | s :: rest =>
    have hrest := total_eraseDups_le (rest.filter fun t => !t == s)
    have hfilter := total_filter_le (fun t => !t == s) rest
    rw [List.eraseDups_cons, total_cons, total_cons]
    omega
termination_by strings.length
decreasing_by simpa using Nat.lt_succ_of_le (List.length_filter_le _ rest)

structure Builder.Holds (b : Builder) (added : List (List UInt8)) : Prop where
  first : ∃ rest, b.table.bytes = 0 :: rest
  last : ∃ before, b.table.bytes = before ++ (b.last ++ [0])
  recorded : ∀ s ∈ added, ∃ position, (s, position) ∈ b.table.offsets
  stored : ∀ p ∈ b.table.offsets, StandsAt b.table.bytes (p.1 ++ [0]) p.2
  size : b.table.size ≤ 1 + total added

namespace Builder

theorem Holds.start : Holds ⟨⟨[0], []⟩, []⟩ [] where
  first := ⟨[], rfl⟩
  last := ⟨[], rfl⟩
  recorded := by simp
  stored := by simp
  size := by simp [StringTable.size]

variable {b : Builder} {added : List (List UInt8)}

theorem Holds.add (h : b.Holds added) (s : List UInt8) : (b.add s).Holds (added ++ [s]) := by
  have hsize := h.size
  obtain ⟨before, hlast⟩ := h.last
  obtain ⟨rest, hfirst⟩ := h.first
  have hrecorded (position : Nat) : ∀ t ∈ added ++ [s], ∃ o,
      (t, o) ∈ b.table.offsets ++ [(s, position)] := by
    intro t ht
    rcases List.mem_append.1 ht with ht | ht
    · obtain ⟨o, ho⟩ := h.recorded t ht
      exact ⟨o, List.mem_append_left _ ho⟩
    · exact ⟨position, by simp [List.mem_singleton.1 ht]⟩
  unfold Builder.add
  split
  case isTrue hsuffix =>
    -- the string ends the one stored last, with which the table ends
    obtain ⟨start, hstart⟩ := List.isSuffixOf_iff_suffix.1 hsuffix
    refine ⟨⟨rest, hfirst⟩, ⟨before, hlast⟩, hrecorded _, ?_, ?_⟩
    · intro p hp
      rcases List.mem_append.1 hp with hp | hp
      · exact h.stored p hp
      · rw [List.mem_singleton.1 hp]
        refine ⟨before ++ start, [], by simp [hlast, ← hstart], ?_⟩
        simp only [hlast, ← hstart, List.length_append, List.length_singleton]
        omega
    · rw [total_append]
      exact Nat.le_trans hsize (by omega)
  case isFalse =>
    refine ⟨⟨rest ++ s ++ [0], by simp [hfirst]⟩, ⟨b.table.bytes, by simp⟩, hrecorded _, ?_, ?_⟩
    · intro p hp
      rcases List.mem_append.1 hp with hp | hp
      · simpa using (h.stored p hp).append (s ++ [0])
      · rw [List.mem_singleton.1 hp]
        exact ⟨b.table.bytes, [], by simp, rfl⟩
    · simp only [StringTable.size, List.length_append, List.length_singleton, total_append,
        total_cons, total_nil] at *
      omega

theorem Holds.foldl (h : b.Holds added) (strings : List (List UInt8)) :
    (strings.foldl Builder.add b).Holds (added ++ strings) := by
  induction strings generalizing b added with
  | nil => simpa using h
  | cons s rest ih => simpa using ih (h.add s)

end Builder

theorem exists_holds_ofStrings (strings : List (List UInt8)) :
    ∃ b : Builder, ofStrings strings = b.table ∧
      b.Holds (strings.eraseDups.mergeSort storedBefore) :=
  ⟨_, rfl, by simpa using Builder.Holds.start.foldl (strings.eraseDups.mergeSort storedBefore)⟩

theorem standsAt_zero (strings : List (List UInt8)) : StandsAt (ofStrings strings).bytes [0] 0 := by
  obtain ⟨b, hb, h⟩ := exists_holds_ofStrings strings
  obtain ⟨rest, hfirst⟩ := h.first
  exact ⟨[], rest, by rw [hb, hfirst]; rfl, rfl⟩

theorem standsAt_offset {strings : List (List UInt8)} {s : List UInt8} (hs : s ∈ strings ∨ s = []) :
    StandsAt (ofStrings strings).bytes (s ++ [0]) ((ofStrings strings).offset s) := by
  obtain ⟨b, hb, h⟩ := exists_holds_ofStrings strings
  rw [offset]
  cases hfound : (ofStrings strings).offsets.lookup s with
  | some position =>
    obtain ⟨before, after, hsplit, -⟩ := List.lookup_eq_some_iff.1 hfound
    rw [hb] at hsplit ⊢
    exact h.stored (s, position) (by simp [hsplit])
  | none =>
    rcases hs with hs | rfl
    · obtain ⟨position, hp⟩ := h.recorded s (by simpa using hs)
      rw [hb] at hfound
      simpa using List.lookup_eq_none_iff.1 hfound _ hp
    · exact standsAt_zero strings

theorem offset_lt_size {strings : List (List UInt8)} {s : List UInt8} (hs : s ∈ strings ∨ s = []) :
    (ofStrings strings).offset s < (ofStrings strings).size := by
  have hle := (standsAt_offset hs).add_length_le
  simp only [List.length_append, List.length_singleton] at hle
  rw [StringTable.size]
  omega

theorem size_ofStrings_le (strings : List (List UInt8)) :
    (ofStrings strings).size ≤ 1 + total strings := by
  obtain ⟨b, hb, h⟩ := exists_holds_ofStrings strings
  have hperm : total (strings.eraseDups.mergeSort storedBefore) = total strings.eraseDups :=
    ((List.mergeSort_perm _ _).map _).sum_nat
  have hsize := h.size
  rw [hperm] at hsize
  rw [hb]
  exact Nat.le_trans hsize (Nat.add_le_add_left (total_eraseDups_le strings) 1)

end StringTable

end TensorKernels.Object
