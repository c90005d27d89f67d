import Mathlib

/-!
Byte-addressed memory. Addresses wrap at `2 ^ 64`, so a region is given by its first address and its
length, and a byte lies in it when the distance up to it, around the address space, is below that
length. Stores of consecutive words are all instances of `fill`, which says what every byte of the
memory is afterwards.
-/

namespace TensorKernels

abbrev Address := BitVec 64

abbrev Memory := Address → BitVec 8

namespace Memory

def distance (a x : Address) : ℕ := (x - a).toNat

theorem add_distance (a x : Address) : a + (distance a x : ℕ) = x := by
  rw [distance, BitVec.natCast_eq_ofNat, BitVec.ofNat_toNat, BitVec.setWidth_eq, add_sub_cancel]

theorem distance_lt (a x : Address) : distance a x < 2 ^ 64 := (x - a).isLt

theorem distance_add {n : ℕ} (a : Address) (h : n < 2 ^ 64) : distance a (a + n) = n := by
  rw [distance, add_sub_cancel_left, BitVec.natCast_eq_ofNat, BitVec.toNat_ofNat]
  exact Nat.mod_eq_of_lt h

theorem distance_rest {a x : Address} {n : ℕ} (h : n ≤ distance a x) :
    distance (a + n) x = distance a x - n := by
  have hx := distance_lt a x
  have hsum : a + (n : ℕ) + (distance a x - n : ℕ) = x := by
    conv_rhs => rw [← add_distance a x]
    rw [add_assoc, ← Nat.cast_add, Nat.add_sub_cancel' h]
  conv_lhs => rw [← hsum]
  exact distance_add _ (by omega)

theorem le_distance_rest {a x : Address} {n k : ℕ} (h : distance a x < n) (hk : n + k ≤ 2 ^ 64) :
    k ≤ distance (a + n) x := by
  have hwrap : ((2 ^ 64 : ℕ) : Address) = 0 := by decide
  have hsum : a + (n : ℕ) + (2 ^ 64 - n + distance a x : ℕ) = x := by
    conv_rhs => rw [← add_distance a x]
    rw [add_assoc, ← Nat.cast_add, show n + (2 ^ 64 - n + distance a x) = 2 ^ 64 + distance a x by
      omega, Nat.cast_add, hwrap, zero_add]
  conv_rhs => rw [← hsum]
  rw [distance_add _ (by omega)]
  omega

/-- The `n` bytes from `a` on. -/
def region (a : Address) (n : ℕ) : Set Address := {x | distance a x < n}

@[simp] theorem mem_region {a x : Address} {n : ℕ} : x ∈ region a n ↔ distance a x < n := Iff.rfl

theorem toNat_of_mem_region {a x : Address} {n : ℕ} (hn : a.toNat + n ≤ 2 ^ 64)
    (hx : x ∈ region a n) : a.toNat ≤ x.toNat ∧ x.toNat < a.toNat + n := by
  rw [mem_region, distance, BitVec.toNat_sub] at hx
  have ha := a.isLt
  have hlt := x.isLt
  omega

theorem region_subset {a : Address} {k n : ℕ} (h : k + n ≤ 2 ^ 64) :
    region (a + (k : ℕ)) n ⊆ region a (k + n) := by
  intro x hx
  rw [mem_region] at hx
  have hsum : a + ((k + distance (a + k) x : ℕ) : Address) = x := by
    rw [Nat.cast_add, ← add_assoc, add_distance]
  rw [mem_region, ← hsum, distance_add a (by omega)]
  omega

theorem region_subset_of_le {a : Address} {k n total : ℕ} (h : k + n ≤ total)
    (htotal : total ≤ 2 ^ 64) : region (a + (k : ℕ)) n ⊆ region a total := fun _ hx =>
  Nat.lt_of_lt_of_le (region_subset (h.trans htotal) hx) h

theorem exists_mem_region {a x : Address} {n : ℕ} (h : x ∈ region a (4 * n)) :
    ∃ i < n, x ∈ region (a + (4 * i : ℕ)) 4 := by
  rw [mem_region] at h
  refine ⟨distance a x / 4, by omega, ?_⟩
  rw [mem_region, distance_rest (by omega)]
  omega

def byteOf (w : BitVec 32) (i : ℕ) : BitVec 8 := w.extractLsb' (8 * i) 8

def word (m : Memory) (a : Address) : BitVec 32 := m (a + 3) ++ m (a + 2) ++ m (a + 1) ++ m a

theorem word_eq_of_bytes {m : Memory} {a : Address} {w : BitVec 32}
    (h : ∀ i : ℕ, i < 4 → m (a + i) = byteOf w i) : m.word a = w := by
  have h0 := h 0 (by decide)
  have h1 := h 1 (by decide)
  have h2 := h 2 (by decide)
  have h3 := h 3 (by decide)
  simp only [Nat.cast_zero, Nat.cast_one, Nat.cast_ofNat, add_zero, byteOf] at h0 h1 h2 h3
  rw [word, h0, h1, h2, h3]
  ext i hi
  simp only [BitVec.getElem_append, BitVec.getElem_extractLsb']
  grind

theorem word_congr {m m' : Memory} {a : Address} (h : ∀ x ∈ region a 4, m x = m' x) :
    m.word a = m'.word a := by
  have hbyte (i : ℕ) (hi : i < 4) : m (a + i) = m' (a + i) := by
    apply h
    rw [mem_region, distance_add a (by omega)]
    exact hi
  have h0 := hbyte 0 (by decide)
  have h1 := hbyte 1 (by decide)
  have h2 := hbyte 2 (by decide)
  have h3 := hbyte 3 (by decide)
  simp only [Nat.cast_zero, Nat.cast_one, Nat.cast_ofNat, add_zero] at h0 h1 h2 h3
  rw [word, word, h0, h1, h2, h3]

def fill (m : Memory) (a : Address) (n : ℕ) (f : ℕ → BitVec 32) : Memory := fun x =>
  if distance a x < 4 * n then byteOf (f (distance a x / 4)) (distance a x % 4) else m x

@[simp] theorem fill_zero (m : Memory) (a : Address) (f : ℕ → BitVec 32) : m.fill a 0 f = m := by
  funext x
  simp [fill]

theorem fill_of_notMem {m : Memory} {a x : Address} {n : ℕ} {f : ℕ → BitVec 32}
    (h : x ∉ region a (4 * n)) : m.fill a n f x = m x := if_neg h

theorem fill_congr {m : Memory} {a : Address} {n : ℕ} {f g : ℕ → BitVec 32}
    (h : ∀ i < n, f i = g i) : m.fill a n f = m.fill a n g := by
  funext x
  by_cases hx : distance a x < 4 * n
  · simp only [fill, if_pos hx, h _ (by omega : distance a x / 4 < n)]
  · simp only [fill, if_neg hx]

theorem word_fill {m : Memory} {a : Address} {n i : ℕ} {f : ℕ → BitVec 32} (hi : i < n)
    (hn : 4 * n ≤ 2 ^ 64) : (m.fill a n f).word (a + (4 * i : ℕ)) = f i := by
  apply word_eq_of_bytes
  intro k hk
  have hd : distance a (a + (4 * i : ℕ) + k) = 4 * i + k := by
    rw [add_assoc, ← Nat.cast_add]
    exact distance_add a (by omega)
  rw [fill, hd, if_pos (by omega), show (4 * i + k) / 4 = i by omega,
    show (4 * i + k) % 4 = k by omega]

theorem fill_fill {m : Memory} {a : Address} {n k : ℕ} {f g : ℕ → BitVec 32}
    (h : 4 * (n + k) ≤ 2 ^ 64) :
    (m.fill a n f).fill (a + (4 * n : ℕ)) k g =
      m.fill a (n + k) fun i => if i < n then f i else g (i - n) := by
  funext x
  -- a byte of the first store lies above all of the second one, around the address space
  by_cases hx : 4 * n ≤ distance a x
  · have hd := distance_rest hx
    by_cases hk : distance a x - 4 * n < 4 * k
    · simp only [fill, hd, if_pos hk, if_pos (by omega : distance a x < 4 * (n + k)),
        if_neg (by omega : ¬distance a x / 4 < n)]
      rw [show (distance a x - 4 * n) / 4 = distance a x / 4 - n by omega,
        show (distance a x - 4 * n) % 4 = distance a x % 4 by omega]
    · simp only [fill, hd, if_neg hk, if_neg (by omega : ¬distance a x < 4 * n),
        if_neg (by omega : ¬distance a x < 4 * (n + k))]
  · have hd : 4 * k ≤ distance (a + (4 * n : ℕ)) x := le_distance_rest (by omega) (by omega)
    simp only [fill, if_neg (by omega : ¬distance (a + (4 * n : ℕ)) x < 4 * k),
      if_pos (by omega : distance a x < 4 * n), if_pos (by omega : distance a x < 4 * (n + k)),
      if_pos (by omega : distance a x / 4 < n)]

end Memory

end TensorKernels
