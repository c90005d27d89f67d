import TensorKernels.Proofs.Kernel.Generation

/-!
The account of generated kernels is exact. Recording kernels one after another gives their totals in
every field: sums, a count for each family in order of first appearance, and the first of the largest
kernels. Totals of one sequence merged with totals of another are the totals of both in a row, so that
merging inherits associativity and its neutral element from sequences.
-/

namespace TensorKernels.Statistics

structure Record where
  family : String
  words : ℕ
  labels : ℕ
  branches : ℕ

def recordAll (records : List Record) : Except Overflow Statistics :=
  records.foldlM (fun s r => s.record r.family r.words r.labels r.branches) {}

def tallies (families : List String) : List (String × ℕ) :=
  families.eraseDups.map fun family => (family, families.count family)

def firstLargest (records : List Record) : Option Record := records.argmax Record.words

/-- The exact totals of a sequence of kernels. Kernels that all have no words have no largest one. -/
def total (records : List Record) : Statistics where
  kernels := records.length
  words := (records.map Record.words).sum
  labels := (records.map Record.labels).sum
  branches := (records.map Record.branches).sum
  counts := tallies (records.map Record.family)
  largest := (firstLargest records).elim 0 Record.words
  largestFamily := (firstLargest records).elim "" fun r => if r.words = 0 then "" else r.family

/-- No counter overflows. The counts of families need no condition: together they are the kernels. -/
def Fits (records : List Record) : Prop :=
  records.length < Count.limit ∧ (records.map Record.words).sum < Count.limit ∧
    (records.map Record.labels).sum < Count.limit ∧ (records.map Record.branches).sum < Count.limit

instance (records : List Record) : Decidable (Fits records) :=
  inferInstanceAs (Decidable (_ ∧ _ ∧ _ ∧ _))

theorem Fits.of_append {first second : List Record} (h : Fits (first ++ second)) :
    Fits first ∧ Fits second := by
  simp only [Fits, List.map_append, List.sum_append, List.length_append] at h ⊢
  omega

section Counts

def tally (family : String) (count : ℕ) : List (String × ℕ) → List (String × ℕ)
  | [] => [(family, count)]
  | (name, n) :: rest =>
    if name = family then (name, n + count) :: rest else (name, n) :: tally family count rest

def tallyAll (counts added : List (String × ℕ)) : List (String × ℕ) :=
  added.foldl (fun counts entry => tally entry.1 entry.2 counts) counts

variable {family other : String} {count more : ℕ} {counts : List (String × ℕ)}

theorem sum_tally (family : String) (count : ℕ) (counts : List (String × ℕ)) :
    ((tally family count counts).map Prod.snd).sum = (counts.map Prod.snd).sum + count := by
  induction counts with
  | nil => simp [tally]
  | cons entry rest ih =>
    rw [tally]
    split_ifs
    · simp only [List.map_cons, List.sum_cons]
      omega
    · simp only [List.map_cons, List.sum_cons, ih]
      omega

theorem addCount_eq_tally (h : (counts.map Prod.snd).sum + count < Count.limit) :
    addCount family count counts = .ok (tally family count counts) := by
  induction counts with
  | nil => rfl
  | cons entry rest ih =>
    rw [List.map_cons, List.sum_cons] at h
    rw [addCount, tally]
    split_ifs
    · rw [Count.add_eq_ok_iff.2 ⟨rfl, by omega⟩]
      rfl
    · rw [ih (by omega)]
      rfl

theorem foldlM_addCount {added : List (String × ℕ)}
    (h : (counts.map Prod.snd).sum + (added.map Prod.snd).sum < Count.limit) :
    added.foldlM (fun counts entry => addCount entry.1 entry.2 counts) counts =
      .ok (tallyAll counts added) := by
  induction added generalizing counts with
  | nil => rfl
  | cons entry rest ih =>
    rw [List.map_cons, List.sum_cons] at h
    rw [List.foldlM_cons, addCount_eq_tally (by omega)]
    refine ih ?_
    rw [sum_tally]
    omega

theorem tally_tally (family : String) (count more : ℕ) (counts : List (String × ℕ)) :
    tally family more (tally family count counts) = tally family (count + more) counts := by
  induction counts with
  | nil => simp [tally]
  | cons entry rest ih => grind [tally]

theorem tally_comm (h : family ∈ counts.map Prod.fst) :
    tally other more (tally family count counts) = tally family count (tally other more counts) := by
  induction counts with
  | nil => cases h
  | cons entry rest ih => grind [tally]

theorem mem_tally (h : family ∈ counts.map Prod.fst ∨ family = other) :
    family ∈ (tally other more counts).map Prod.fst := by
  induction counts with
  | nil => grind [tally]
  | cons entry rest ih => grind [tally]

theorem tallyAll_tally_of_mem {added : List (String × ℕ)} (h : family ∈ counts.map Prod.fst) :
    tallyAll (tally family count counts) added = tally family count (tallyAll counts added) := by
  induction added generalizing counts with
  | nil => rfl
  | cons entry rest ih =>
    have hcomm : tallyAll (tally family count counts) (entry :: rest) =
        tallyAll (tally family count (tally entry.1 entry.2 counts)) rest :=
      congrArg (tallyAll · rest) (tally_comm h)
    exact hcomm.trans (ih (mem_tally (Or.inl h)))

theorem tallyAll_tally (counts added : List (String × ℕ)) :
    tallyAll counts (tally family count added) = tally family count (tallyAll counts added) := by
  induction added generalizing counts with
  | nil => rfl
  | cons entry rest ih =>
    obtain ⟨name, n⟩ := entry
    rw [tally]
    split_ifs with hname
    · -- the family has a count once its entry is added, so it keeps its place from there on
      subst hname
      have hsplit : tallyAll counts ((name, n + count) :: rest) =
          tallyAll (tally name count (tally name n counts)) rest :=
        congrArg (tallyAll · rest) (tally_tally name n count counts).symm
      exact hsplit.trans (tallyAll_tally_of_mem (mem_tally (Or.inr rfl)))
    · exact ih (tally name n counts)

theorem tally_map_of_mem {families : List String} (hnodup : families.Nodup) (hmem : family ∈ families)
    (n : String → ℕ) : tally family count (families.map fun f => (f, n f)) =
      families.map fun f => (f, n f + if f = family then count else 0) := by
  induction families with
  | nil => cases hmem
  | cons first rest ih =>
    obtain ⟨hfirst, hrest⟩ := List.nodup_cons.1 hnodup
    rw [List.map_cons, List.map_cons, tally]
    split_ifs with hname
    · subst hname
      refine congrArg _ (List.map_congr_left fun f hf => ?_)
      rw [if_neg (ne_of_mem_of_not_mem hf hfirst), Nat.add_zero]
    · rw [ih hrest ((List.mem_cons.1 hmem).resolve_left (Ne.symm hname)), Nat.add_zero]

theorem tally_map_of_notMem {families : List String} (hmem : family ∉ families) (n : String → ℕ) :
    tally family count (families.map fun f => (f, n f)) =
      (families.map fun f => (f, n f)) ++ [(family, count)] := by
  induction families with
  | nil => rfl
  | cons first rest ih =>
    rw [List.mem_cons, not_or] at hmem
    rw [List.map_cons, tally, if_neg (Ne.symm hmem.1), ih hmem.2]
    rfl

theorem eraseDups_concat (families : List String) (family : String) :
    (families ++ [family]).eraseDups =
      families.eraseDups ++ if family ∈ families then [] else [family] := by
  rw [List.eraseDups_append]
  split_ifs with h <;> simp [List.removeAll, List.eraseDups_cons, h]

theorem nodup_eraseDups (families : List String) : families.eraseDups.Nodup := by
  induction families using List.reverseRecOn with
  | nil => exact List.nodup_nil
  | append_singleton families family ih =>
    rw [eraseDups_concat]
    split_ifs with h
    · rwa [List.append_nil]
    · refine ih.append (List.nodup_singleton family) ?_
      rw [List.disjoint_singleton, List.mem_eraseDups]
      exact h

theorem tallies_concat (families : List String) (family : String) :
    tallies (families ++ [family]) = tally family 1 (tallies families) := by
  have hcount (f : String) : (families ++ [family]).count f =
      families.count f + if f = family then 1 else 0 := by
    rw [List.count_append, List.count_singleton]
    exact congrArg _ (if_congr (beq_iff_eq.trans eq_comm) rfl rfl)
  simp only [tallies, eraseDups_concat, hcount]
  by_cases h : family ∈ families
  · rw [if_pos h, List.append_nil,
      tally_map_of_mem (nodup_eraseDups families) (List.mem_eraseDups.2 h)]
  · rw [if_neg h, tally_map_of_notMem (mt List.mem_eraseDups.1 h), List.map_append]
    congr 1
    · refine List.map_congr_left fun f hf => ?_
      rw [if_neg (ne_of_mem_of_not_mem (List.mem_eraseDups.1 hf) h), Nat.add_zero]
    · rw [List.map_singleton, List.count_eq_zero_of_not_mem h, if_pos rfl]

theorem tallies_append (first second : List String) :
    tallies (first ++ second) = tallyAll (tallies first) (tallies second) := by
  induction second using List.reverseRecOn with
  | nil =>
    rw [List.append_nil]
    rfl
  | append_singleton second family ih =>
    rw [← List.append_assoc, tallies_concat, tallies_concat, ih, tallyAll_tally]

theorem sum_tallies (families : List String) :
    ((tallies families).map Prod.snd).sum = families.length := by
  induction families using List.reverseRecOn with
  | nil => rfl
  | append_singleton families family ih =>
    rw [tallies_concat, sum_tally, ih, List.length_append, List.length_singleton]

end Counts

section Largest

def larger (a b : Option Record) : Option Record :=
  if a.elim 0 Record.words < b.elim 0 Record.words then b else a.or b

theorem firstLargest_concat (records : List Record) (r : Record) :
    firstLargest (records ++ [r]) =
      (firstLargest records).elim (some r) fun c => if c.words < r.words then some r else some c := by
  rw [firstLargest, List.argmax_concat, firstLargest]
  cases records.argmax Record.words <;> rfl

theorem firstLargest_append (first second : List Record) :
    firstLargest (first ++ second) = larger (firstLargest first) (firstLargest second) := by
  induction second using List.reverseRecOn with
  | nil =>
    rw [List.append_nil]
    cases firstLargest first <;> rfl
  | append_singleton second r ih =>
    rw [← List.append_assoc, firstLargest_concat, firstLargest_concat, ih]
    rcases firstLargest first with _ | a <;> rcases firstLargest second with _ | b <;> grind [larger]

theorem words_larger (a b : Option Record) : (larger a b).elim 0 Record.words =
    if a.elim 0 Record.words < b.elim 0 Record.words then b.elim 0 Record.words
    else a.elim 0 Record.words := by
  rcases a with _ | a <;> rcases b with _ | b <;> grind [larger]

theorem family_larger (a b : Option Record) :
    (larger a b).elim "" (fun r => if r.words = 0 then "" else r.family) =
      if a.elim 0 Record.words < b.elim 0 Record.words
      then b.elim "" fun r => if r.words = 0 then "" else r.family
      else a.elim "" fun r => if r.words = 0 then "" else r.family := by
  rcases a with _ | a <;> rcases b with _ | b <;> grind [larger]

end Largest

section Merge

def join (s t : Statistics) : Statistics where
  kernels := s.kernels + t.kernels
  words := s.words + t.words
  labels := s.labels + t.labels
  branches := s.branches + t.branches
  counts := tallyAll s.counts t.counts
  largest := if s.largest < t.largest then t.largest else s.largest
  largestFamily := if s.largest < t.largest then t.largestFamily else s.largestFamily

variable {s t : Statistics}

theorem merge_eq_join (hkernels : s.kernels + t.kernels < Count.limit)
    (hwords : s.words + t.words < Count.limit) (hlabels : s.labels + t.labels < Count.limit)
    (hbranches : s.branches + t.branches < Count.limit)
    (hcounts : (s.counts.map Prod.snd).sum + (t.counts.map Prod.snd).sum < Count.limit) :
    s.merge t = .ok (s.join t) := by
  rw [merge, Count.add_eq_ok_iff.2 ⟨rfl, hkernels⟩, Count.add_eq_ok_iff.2 ⟨rfl, hwords⟩,
    Count.add_eq_ok_iff.2 ⟨rfl, hlabels⟩, Count.add_eq_ok_iff.2 ⟨rfl, hbranches⟩,
    foldlM_addCount hcounts]
  rfl

theorem merge_eq_error (h : Count.limit ≤ s.kernels + t.kernels ∨
    Count.limit ≤ s.words + t.words ∨ Count.limit ≤ s.labels + t.labels ∨
      Count.limit ≤ s.branches + t.branches) : s.merge t = .error .add := by
  rw [merge, Count.add, Count.add, Count.add, Count.add]
  by_cases hkernels : s.kernels + t.kernels < Count.limit
  · by_cases hwords : s.words + t.words < Count.limit
    · by_cases hlabels : s.labels + t.labels < Count.limit
      · rw [if_pos hkernels, if_pos hwords, if_pos hlabels, if_neg (by omega)]
        rfl
      · rw [if_pos hkernels, if_pos hwords, if_neg hlabels]
        rfl
    · rw [if_pos hkernels, if_neg hwords]
      rfl
  · rw [if_neg hkernels]
    rfl

variable (first second : List Record)

theorem sum_map_append (f : Record → ℕ) :
    ((first ++ second).map f).sum = (first.map f).sum + (second.map f).sum := by
  rw [List.map_append, List.sum_append]

theorem total_append : total (first ++ second) = (total first).join (total second) := by
  have hcounts : tallies ((first ++ second).map Record.family) =
      tallyAll (total first).counts (total second).counts := by
    rw [List.map_append, tallies_append]
    rfl
  rw [total, firstLargest_append, words_larger, family_larger, hcounts, sum_map_append,
    sum_map_append, sum_map_append, List.length_append]
  rfl

theorem merge_total : (total first).merge (total second) =
    if Fits (first ++ second) then .ok (total (first ++ second)) else .error .add := by
  have hfits : Fits (first ++ second) ↔
      (total first).kernels + (total second).kernels < Count.limit ∧
      (total first).words + (total second).words < Count.limit ∧
      (total first).labels + (total second).labels < Count.limit ∧
      (total first).branches + (total second).branches < Count.limit := by
    rw [Fits, sum_map_append, sum_map_append, sum_map_append, List.length_append]
    rfl
  split_ifs with h
  · obtain ⟨hkernels, hwords, hlabels, hbranches⟩ := hfits.1 h
    rw [total_append]
    refine merge_eq_join hkernels hwords hlabels hbranches ?_
    rw [total, total, sum_tallies, sum_tallies, List.length_map, List.length_map]
    exact hkernels
  · rw [hfits] at h
    exact merge_eq_error (by omega)

end Merge

theorem total_singleton (r : Record) : total [r] =
    ⟨1, r.words, r.labels, r.branches, [(r.family, 1)], r.words,
      if r.words = 0 then "" else r.family⟩ := by
  simp [total, firstLargest, tallies, List.eraseDups_cons]

/-- Recording a kernel is merging with the account of that kernel alone. The two compare with the
largest kernel on their own, and agree because a kernel without words is never larger. -/
theorem record_eq_merge (s : Statistics) (r : Record) :
    s.record r.family r.words r.labels r.branches = s.merge (total [r]) := by
  have hcounts : [(r.family, 1)].foldlM (fun counts entry => addCount entry.1 entry.2 counts)
      s.counts = addCount r.family 1 s.counts := bind_pure _
  have hfamily : (if s.largest < r.words then r.family else s.largestFamily) =
      if s.largest < r.words then if r.words = 0 then "" else r.family else s.largestFamily := by
    split_ifs with hlarger hzero
    · omega
    · rfl
    · rfl
  rw [total_singleton, record, merge, hcounts, hfamily]

theorem recordAll_concat (records : List Record) (r : Record) :
    recordAll (records ++ [r]) = recordAll records >>= fun s => s.merge (total [r]) := by
  rw [recordAll, List.foldlM_append]
  exact bind_congr fun s => (bind_pure _).trans (s.record_eq_merge r)

theorem recordAll_eq (records : List Record) :
    recordAll records = if Fits records then .ok (total records) else .error .add := by
  induction records using List.reverseRecOn with
  | nil => rfl
  | append_singleton records r ih =>
    rw [recordAll_concat, ih]
    by_cases h : Fits records
    · rw [if_pos h, ← merge_total]
      rfl
    · rw [if_neg h, if_neg fun happend => h happend.of_append.1]
      rfl

theorem recordAll_eq_ok_iff {records : List Record} {s : Statistics} :
    recordAll records = .ok s ↔ Fits records ∧ s = total records := by
  rw [recordAll_eq]
  split_ifs with h
  · simp [h, eq_comm]
  · simp [h]

theorem merge_recordAll (first second : List Record) :
    (do (← recordAll first).merge (← recordAll second)) = recordAll (first ++ second) := by
  rw [recordAll_eq first, recordAll_eq second, recordAll_eq (first ++ second)]
  by_cases hfirst : Fits first
  · by_cases hsecond : Fits second
    · rw [if_pos hfirst, if_pos hsecond, ← merge_total]
      rfl
    · rw [if_pos hfirst, if_neg hsecond, if_neg fun h => hsecond h.of_append.2]
      rfl
  · have happend : ¬Fits (first ++ second) := fun h => hfirst h.of_append.1
    rw [if_neg hfirst, if_neg happend]
    rfl

def IsAccount (s : Statistics) : Prop := ∃ records, recordAll records = .ok s

theorem merge_eq_recordAll {first second : List Record} {s t : Statistics}
    (hs : recordAll first = .ok s) (ht : recordAll second = .ok t) :
    s.merge t = recordAll (first ++ second) := by
  rw [← merge_recordAll, hs, ht]
  rfl

theorem merge_assoc {s t u : Statistics} (hs : IsAccount s) (ht : IsAccount t) (hu : IsAccount u) :
    (do (← s.merge t).merge u) = (do s.merge (← t.merge u)) := by
  obtain ⟨first, hs⟩ := hs
  obtain ⟨second, ht⟩ := ht
  obtain ⟨third, hu⟩ := hu
  have hleft := merge_recordAll (first ++ second) third
  have hright := merge_recordAll first (second ++ third)
  rw [hu] at hleft
  rw [hs] at hright
  rw [merge_eq_recordAll hs ht, merge_eq_recordAll ht hu]
  exact hleft.trans ((congrArg recordAll (List.append_assoc _ _ _)).trans hright.symm)

theorem merge_empty {s : Statistics} (hs : IsAccount s) :
    merge {} s = .ok s ∧ s.merge {} = .ok s := by
  obtain ⟨records, hs⟩ := hs
  have hempty : recordAll [] = .ok {} := rfl
  rw [merge_eq_recordAll hempty hs, merge_eq_recordAll hs hempty, List.append_nil]
  exact ⟨hs, hs⟩

section Generator

variable {κ : Type} [HasCode κ]

def Record.ofKernel (kernel : κ) : Record :=
  let code := HasCode.code kernel
  ⟨HasCode.family kernel, code.words.size, code.labels, code.branches⟩

def recordsOf (generations : List (Except Error κ)) : List Record :=
  (generations.filterMap Except.toOption).map Record.ofKernel

/-- A generator's account of its generations: that of the kernels it has made. Refused generations
leave no trace. Closed code is so short that no number of generations up to `2 ^ 46` overflows. -/
structure Accounts (generations : List (Except Error κ)) : Prop where
  fits : generations.length ≤ 2 ^ 46 → Fits (recordsOf generations)
  recorded : Fits (recordsOf generations) → recordAll (recordsOf generations) = .ok (after generations)
  kernels : Fits (recordsOf generations) →
    (after generations).kernels = ((after generations).counts.map Prod.snd).sum
  words : Fits (recordsOf generations) → (after generations).words =
    ((generations.filterMap Except.toOption).map fun kernel => (codeBuffer kernel).size).sum
  largest : Fits (recordsOf generations) → ∀ r ∈ firstLargest (recordsOf generations),
    (after generations).largest = r.words ∧ (after generations).largestFamily = r.family

theorem recordsOf_concat_error (generations : List (Except Error κ)) (e : Error) :
    recordsOf (generations ++ [.error e]) = recordsOf generations := by
  rw [recordsOf, List.filterMap_append]
  exact congrArg _ (List.append_nil _)

theorem recordsOf_concat_ok (generations : List (Except Error κ)) (kernel : κ) :
    recordsOf (generations ++ [.ok kernel]) = recordsOf generations ++ [.ofKernel kernel] := by
  rw [recordsOf, List.filterMap_append, List.map_append]
  rfl

theorem recordAll_recordsOf {generations : List (Except Error κ)} (h : Fits (recordsOf generations)) :
    recordAll (recordsOf generations) = .ok (after generations) := by
  induction generations using List.reverseRecOn with
  | nil => rfl
  | append_singleton earlier generation ih =>
    rw [after, List.foldl_append]
    cases generation with
    | error e =>
      rw [recordsOf_concat_error] at h ⊢
      exact ih h
    | ok kernel =>
      rw [recordsOf_concat_ok] at h ⊢
      obtain ⟨s, hs⟩ : ∃ s, recordAll (recordsOf earlier ++ [.ofKernel kernel]) = .ok s :=
        ⟨_, recordAll_eq_ok_iff.2 ⟨h, rfl⟩⟩
      have hrecord : (after earlier).recordKernel kernel = .ok s := by
        rw [recordAll_concat, ih h.of_append.1] at hs
        exact (record_eq_merge _ (.ofKernel kernel)).trans hs
      have haccount : ((after earlier).account (.ok kernel)).2 = s := by
        rw [account, hrecord]
      rw [hs]
      exact congrArg _ haccount.symm

theorem forall_recordsOf {generations : List (Except Error κ)}
    (hclosed : ∀ generation ∈ generations, ∀ kernel, generation = .ok kernel →
      (HasCode.code kernel).Closed) {P : Record → Prop}
    (h : ∀ kernel : κ, (HasCode.code kernel).Closed → P (.ofKernel kernel)) :
    ∀ r ∈ recordsOf generations, P r := by
  simp only [recordsOf, List.forall_mem_map, List.mem_filterMap]
  rintro kernel ⟨generation, hmem, hkernel⟩
  refine h kernel (hclosed generation hmem kernel ?_)
  cases generation with
  | error e => cases hkernel
  | ok made =>
    cases hkernel
    rfl

theorem fits_of_closed {generations : List (Except Error κ)}
    (hclosed : ∀ generation ∈ generations, ∀ kernel, generation = .ok kernel →
      (HasCode.code kernel).Closed) (hlen : generations.length ≤ 2 ^ 46) :
    Fits (recordsOf generations) := by
  have hmade : (recordsOf generations).length ≤ 2 ^ 46 := by
    rw [recordsOf, List.length_map]
    exact (List.length_filterMap_le _ _).trans hlen
  have hsum (f : Record → ℕ) (hf : ∀ kernel : κ, (HasCode.code kernel).Closed →
      f (.ofKernel kernel) ≤ 2 ^ 18 - 1) : ((recordsOf generations).map f).sum < Count.limit := by
    -- at most 2 ^ 46 terms below 2 ^ 18
    have hbound := List.sum_le_card_nsmul _ _ (List.forall_mem_map.2 (forall_recordsOf hclosed hf))
    rw [List.length_map, smul_eq_mul] at hbound
    rw [Count.limit]
    omega
  refine ⟨hmade.trans_lt (by decide), hsum _ fun kernel h => ?_, hsum _ fun kernel h => ?_,
    hsum _ fun kernel h => ?_⟩
  · exact Nat.le_sub_one_of_lt h.short
  · exact Nat.le_sub_one_of_lt (h.balanced.trans_lt (h.few.trans_lt h.short))
  · exact Nat.le_sub_one_of_lt (h.few.trans_lt h.short)

theorem size_pos_of_closed {code : MachineCode} (h : code.Closed) : 0 < code.words.size := by
  refine Nat.pos_of_ne_zero fun hzero => ?_
  have hlast := h.last
  rw [fetch, Array.getElem?_eq_none (by omega)] at hlast
  cases hlast

theorem accounts_of_closed {generations : List (Except Error κ)}
    (hclosed : ∀ generation ∈ generations, ∀ kernel, generation = .ok kernel →
      (HasCode.code kernel).Closed) : Accounts generations := by
  have htotal (h : Fits (recordsOf generations)) :
      after generations = total (recordsOf generations) :=
    (recordAll_eq_ok_iff.1 (recordAll_recordsOf h)).2
  refine ⟨fits_of_closed hclosed, recordAll_recordsOf, fun h => ?_, fun h => ?_, fun h r hr => ?_⟩
  · rw [htotal h, total, sum_tallies, List.length_map]
  · rw [htotal h, total, recordsOf, List.map_map]
    simp [Function.comp_def, Record.ofKernel, codeBuffer, CodeBuffer.size]
  · have hwords : ∀ r ∈ recordsOf generations, 0 < r.words :=
      forall_recordsOf hclosed fun _ => size_pos_of_closed
    have hfirst : firstLargest (recordsOf generations) = some r := hr
    rw [htotal h, total, hfirst]
    exact ⟨rfl, if_neg (hwords r (List.argmax_mem hr)).ne'⟩

end Generator

/-- Accounts are exact: they are the totals of what is recorded, merging goes with recording one
sequence after the other, and a generator's account is that of the kernels it has made. -/
theorem account_exact :
    (∀ records, recordAll records = if Fits records then .ok (total records) else .error .add) ∧
    (∀ first second,
      (do (← recordAll first).merge (← recordAll second)) = recordAll (first ++ second)) ∧
    (∀ s t u, IsAccount s → IsAccount t → IsAccount u →
      (do (← s.merge t).merge u) = (do s.merge (← t.merge u))) ∧
    (∀ s, IsAccount s → merge {} s = .ok s ∧ s.merge {} = .ok s) ∧
    (∀ shapes : List Gemm.Shape, Accounts (shapes.map Gemm.Kernel.generate)) ∧
    ∀ requests : List Elementwise.Request, Accounts (requests.map Elementwise.Request.generate) := by
  refine ⟨recordAll_eq, merge_recordAll, fun s t u => merge_assoc, fun s => merge_empty,
    fun shapes => accounts_of_closed ?_, fun requests => accounts_of_closed ?_⟩
  · exact List.forall_mem_map.2 fun shape _ => (Gemm.generates shape).closed
  · exact List.forall_mem_map.2 fun request _ => request.generates.closed

def threeLargest : List Record :=
  [⟨"gemm", 12, 1, 1⟩, ⟨"relu", 30, 2, 2⟩, ⟨"gemm", 30, 3, 3⟩, ⟨"zero", 30, 2, 2⟩]

theorem account_exact_repeated :
    (∃ s, recordAll threeLargest = .ok s ∧
      s.merge s = .ok ⟨8, 204, 16, 16, [("gemm", 4), ("relu", 2), ("zero", 2)], 30, "relu"⟩ ∧
      (do (← s.merge s).merge s) = (do s.merge (← s.merge s)) ∧ merge {} s = .ok s) ∧
    ∃ kernel, Gemm.Kernel.generate Gemm.pairShape = .ok kernel ∧
      (after ([Gemm.pairShape, { Gemm.pairShape with m := 0 }, Gemm.pairShape].map
        Gemm.Kernel.generate)).words = (codeBuffer kernel).size + (codeBuffer kernel).size := by
  obtain ⟨-, hmerge, hassoc, hempty, hgemm, -⟩ := account_exact
  constructor
  · refine ⟨total threeLargest, rfl, ?_, ?_, ?_⟩
    · exact (hmerge threeLargest threeLargest).trans rfl
    · exact hassoc _ _ _ ⟨threeLargest, rfl⟩ ⟨threeLargest, rfl⟩ ⟨threeLargest, rfl⟩
    · exact (hempty _ ⟨threeLargest, rfl⟩).1
  · obtain ⟨kernel, hkernel⟩ :=
      (Gemm.generates Gemm.pairShape).succeeds.2 (Gemm.validate_eq_ok_iff.1 rfl)
    have haccounts := hgemm [Gemm.pairShape, { Gemm.pairShape with m := 0 }, Gemm.pairShape]
    refine ⟨kernel, hkernel, (haccounts.words (haccounts.fits (by decide))).trans ?_⟩
    have hempty : ∃ e, Gemm.Kernel.generate { Gemm.pairShape with m := 0 } = .error e := ⟨_, rfl⟩
    obtain ⟨e, he⟩ := hempty
    simp only [List.map_cons, List.map_nil, hkernel, he]
    exact congrArg _ (Nat.add_zero _)

end TensorKernels.Statistics
