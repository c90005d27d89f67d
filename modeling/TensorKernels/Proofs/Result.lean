import Mathlib
import TensorKernels.Error

/-!
Successful results. A computation that may be refused succeeds exactly when each of its steps does;
the statements here open the steps of a successful computation one after another.
-/

namespace TensorKernels

variable {ε α β : Type}

theorem bind_eq_ok_iff {x : Except ε α} {next : α → Except ε β} {b : β} :
    x >>= next = .ok b ↔ ∃ a, x = .ok a ∧ next a = .ok b := by
  constructor
  · intro h
    cases x with
    | error e => cases h
    | ok a => exact ⟨a, rfl, h⟩
  · rintro ⟨a, rfl, h⟩
    exact h

theorem bind_eq_error_iff {x : Except ε α} {next : α → Except ε β} {e : ε} :
    x >>= next = .error e ↔ x = .error e ∨ ∃ a, x = .ok a ∧ next a = .error e := by
  cases x with
  | error e' =>
    constructor
    · intro h
      cases h
      exact Or.inl rfl
    · rintro (h | ⟨a, h, -⟩)
      · cases h
        rfl
      · cases h
  | ok a =>
    constructor
    · intro h
      exact Or.inr ⟨a, rfl, h⟩
    · rintro (h | ⟨b, h, hnext⟩)
      · cases h
      · cases h
        exact hnext

theorem pure_eq_ok_iff {a b : α} : (pure a : Except ε α) = .ok b ↔ a = b := by
  simp [pure, Except.pure]

theorem lift_eq_ok_iff {x : Except Overflow α} {a : α} :
    (liftM x : Except Error α) = .ok a ↔ x = .ok a := by
  cases x with
  | error e =>
    constructor <;> intro h <;> cases h
  | ok b =>
    constructor <;> intro h <;> cases h <;> rfl

theorem lift_eq_error_iff {x : Except Overflow α} {e : Error} :
    (liftM x : Except Error α) = .error e ↔ ∃ operation, x = .error operation ∧
      e = .overflow operation := by
  cases x with
  | error operation =>
    constructor
    · intro h
      cases h
      exact ⟨operation, rfl, rfl⟩
    · rintro ⟨_, h, rfl⟩
      cases h
      rfl
  | ok a =>
    constructor
    · intro h
      cases h
    · rintro ⟨_, h, -⟩
      cases h

theorem check_bind_eq_ok_iff {check : Except ε Unit} {rest : Except ε β} {b : β} :
    (check >>= fun _ => rest) = .ok b ↔ check = .ok () ∧ rest = .ok b := by
  rw [bind_eq_ok_iff]
  exact ⟨fun ⟨_, hc, hr⟩ => ⟨hc, hr⟩, fun ⟨hc, hr⟩ => ⟨(), hc, hr⟩⟩

theorem forM_eq_ok_iff {xs : List α} {check : α → Except ε Unit} :
    xs.forM check = .ok () ↔ ∀ x ∈ xs, check x = .ok () := by
  induction xs with
  | nil =>
    constructor
    · intro _ x hx
      cases hx
    · intro _
      rfl
  | cons x xs ih =>
    have hstep : (x :: xs).forM check = (check x >>= fun _ => xs.forM check) := rfl
    rw [hstep, check_bind_eq_ok_iff, ih, List.forall_mem_cons]

theorem mapM_eq_ok {xs : List α} {f : α → Except ε β} {g : α → β}
    (h : ∀ x ∈ xs, f x = .ok (g x)) : xs.mapM f = .ok (xs.map g) := by
  induction xs with
  | nil => rfl
  | cons x xs ih =>
    rw [List.forall_mem_cons] at h
    rw [List.mapM_cons, h.1, ih h.2]
    rfl

theorem refuse_ne_ok {cause : Cause} {a : α} : refuse cause ≠ .ok a := by
  intro h
  cases h

theorem inExtentRange_iff {v : Nat} : inExtentRange v = true ↔ 0 < v ∧ v < 2 ^ 32 := by
  rw [inExtentRange, Bool.and_eq_true, decide_eq_true_eq, decide_eq_true_eq, maxExtent]
  omega

end TensorKernels
