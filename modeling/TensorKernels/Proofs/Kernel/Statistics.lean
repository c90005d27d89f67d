import TensorKernels.Kernel.Basic
import TensorKernels.Proofs.Assembly.Closed

/-!
The account of generated kernels. A kernel of closed code adds less than `2 ^ 18` to each total, so
that no total overflows before `2 ^ 46` kernels have been generated: until then, accounting for a
generation leaves its result as it is.
-/

namespace TensorKernels.Statistics

structure Within (k : ℕ) (s : Statistics) : Prop where
  kernels : s.kernels ≤ k
  words : s.words ≤ k * 2 ^ 18
  labels : s.labels ≤ k * 2 ^ 18
  branches : s.branches ≤ k * 2 ^ 18
  counts : ∀ entry ∈ s.counts, entry.2 ≤ k

theorem within_empty : Within 0 {} :=
  ⟨le_rfl, Nat.zero_le _, Nat.zero_le _, Nat.zero_le _, List.forall_mem_nil _⟩

theorem Within.succ {k : ℕ} {s : Statistics} (h : Within k s) : Within (k + 1) s := by
  have hmul : k * 2 ^ 18 ≤ (k + 1) * 2 ^ 18 := Nat.mul_le_mul_right _ (Nat.le_succ k)
  exact ⟨h.kernels.trans (Nat.le_succ k), h.words.trans hmul, h.labels.trans hmul,
    h.branches.trans hmul, fun entry hentry => (h.counts entry hentry).trans (Nat.le_succ k)⟩

theorem addCount_one {k : ℕ} (hk : k + 1 < Count.limit) (family : String)
    {counts : List (String × ℕ)} (h : ∀ entry ∈ counts, entry.2 ≤ k) :
    ∃ counts', addCount family 1 counts = .ok counts' ∧ ∀ entry ∈ counts', entry.2 ≤ k + 1 := by
  induction counts with
  | nil => exact ⟨_, rfl, List.forall_mem_singleton.2 (Nat.le_add_left 1 k)⟩
  | cons entry rest ih =>
    obtain ⟨name, n⟩ := entry
    obtain ⟨hfirst, hrest⟩ := List.forall_mem_cons.1 h
    by_cases hname : name = family
    · have hadd : Count.add n 1 = .ok (n + 1) :=
        Count.add_eq_ok_iff.2 ⟨rfl, (Nat.succ_le_succ hfirst).trans_lt hk⟩
      refine ⟨(name, n + 1) :: rest, ?_, List.forall_mem_cons.2 ⟨Nat.succ_le_succ hfirst, ?_⟩⟩
      · rw [addCount, if_pos hname, hadd]
        rfl
      · exact fun entry hentry => (hrest entry hentry).trans (Nat.le_succ k)
    · obtain ⟨counts', hcounts, hle⟩ := ih hrest
      refine ⟨(name, n) :: counts', ?_, List.forall_mem_cons.2 ⟨hfirst.trans (Nat.le_succ k), hle⟩⟩
      rw [addCount, if_neg hname, hcounts]
      rfl

theorem Within.record {k : ℕ} {s : Statistics} (h : Within k s) (hk : k < 2 ^ 46) (family : String)
    {words labels branches : ℕ} (hwords : words < 2 ^ 18) (hlabels : labels < 2 ^ 18)
    (hbranches : branches < 2 ^ 18) :
    ∃ s', s.record family words labels branches = .ok s' ∧ Within (k + 1) s' := by
  obtain ⟨counts, hcounts, hle⟩ := addCount_one (by rw [Count.limit]; omega) family h.counts
  have htotal {total v : ℕ} (ht : total ≤ k * 2 ^ 18) (hv : v < 2 ^ 18) :
      Count.add total v = .ok (total + v) ∧ total + v ≤ (k + 1) * 2 ^ 18 := by
    rw [Count.add_eq_ok_iff, Count.limit]
    omega
  obtain ⟨haddWords, hleWords⟩ := htotal h.words hwords
  obtain ⟨haddLabels, hleLabels⟩ := htotal h.labels hlabels
  obtain ⟨haddBranches, hleBranches⟩ := htotal h.branches hbranches
  have hkernels : Count.add s.kernels 1 = .ok (s.kernels + 1) := by
    rw [Count.add_eq_ok_iff, Count.limit]
    have := h.kernels
    omega
  refine ⟨⟨s.kernels + 1, s.words + words, s.labels + labels, s.branches + branches, counts,
    if s.largest < words then words else s.largest,
    if s.largest < words then family else s.largestFamily⟩, ?_, ?_⟩
  · rw [Statistics.record, hkernels, haddWords, haddLabels, haddBranches, hcounts]
    rfl
  · exact ⟨Nat.succ_le_succ h.kernels, hleWords, hleLabels, hleBranches, hle⟩

section Account

variable {κ : Type} [HasCode κ]

def after (generations : List (Except Error κ)) : Statistics :=
  generations.foldl (fun s generation => (s.account generation).2) {}

theorem Within.account {k : ℕ} {s : Statistics} (h : Within k s) (hk : k < 2 ^ 46)
    {generation : Except Error κ}
    (hclosed : ∀ kernel, generation = .ok kernel → (HasCode.code kernel).Closed) :
    (s.account generation).1 = generation ∧ Within (k + 1) (s.account generation).2 := by
  cases generation with
  | error e => exact ⟨rfl, h.succ⟩
  | ok kernel =>
    have hcode := hclosed kernel rfl
    have hbranches := hcode.few.trans_lt hcode.short
    obtain ⟨s', hs', hwithin⟩ := h.record hk (HasCode.family kernel) hcode.short
      (hcode.balanced.trans_lt hbranches) hbranches
    have hrecord : s.recordKernel kernel = .ok s' := hs'
    rw [Statistics.account, hrecord]
    exact ⟨rfl, hwithin⟩

theorem within_after {generations : List (Except Error κ)} (hlen : generations.length ≤ 2 ^ 46)
    (hclosed : ∀ generation ∈ generations, ∀ kernel, generation = .ok kernel →
      (HasCode.code kernel).Closed) : Within generations.length (after generations) := by
  induction generations using List.reverseRecOn with
  | nil => exact within_empty
  | append_singleton earlier generation ih =>
    rw [List.length_append] at hlen ⊢
    rw [List.forall_mem_append, List.forall_mem_singleton] at hclosed
    rw [after, List.foldl_append]
    exact ((ih (Nat.le_of_succ_le hlen) hclosed.1).account hlen hclosed.2).2

/-- No generation is lost to an overflow of the account. -/
theorem account_after {earlier : List (Except Error κ)} (hlen : earlier.length < 2 ^ 46)
    (hearlier : ∀ generation ∈ earlier, ∀ kernel, generation = .ok kernel →
      (HasCode.code kernel).Closed) {generation : Except Error κ}
    (hclosed : ∀ kernel, generation = .ok kernel → (HasCode.code kernel).Closed) :
    ((after earlier).account generation).1 = generation :=
  ((within_after hlen.le hearlier).account hlen hclosed).1

end Account

end TensorKernels.Statistics
