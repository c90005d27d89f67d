import TensorKernels.Proofs.Nest.Offsets

/-!
Regrouping of loops. The loops of a nest may be put in another order, a loop may be executed in
another way, and two neighbours of one role whose strides fit together may become one loop, or one
loop two. What such a step keeps is kept by any number of them: for each choice of roles, the multiset
of offsets of the loops that have such a role.
-/

namespace TensorKernels.Nest

def SameOffsets (loops others : List Loop) : Prop :=
  ∀ kept : Role → Bool, (offsets (ofRoles kept loops)).Perm (offsets (ofRoles kept others))

namespace SameOffsets

theorem refl (loops : List Loop) : SameOffsets loops loops :=
  fun _ => List.Perm.refl _

theorem symm {loops others : List Loop} (h : SameOffsets loops others) :
    SameOffsets others loops :=
  fun kept => (h kept).symm

theorem trans {a b c : List Loop} (h₁ : SameOffsets a b) (h₂ : SameOffsets b c) :
    SameOffsets a c :=
  fun kept => (h₁ kept).trans (h₂ kept)

theorem of_perm {loops others : List Loop} (h : loops.Perm others) : SameOffsets loops others :=
  fun _ => offsets_perm (h.filter _)

theorem append {outer outer' inner inner' : List Loop} (h₁ : SameOffsets outer outer')
    (h₂ : SameOffsets inner inner') : SameOffsets (outer ++ inner) (outer' ++ inner') := by
  intro kept
  rw [ofRoles_append, ofRoles_append, offsets_append, offsets_append]
  exact (h₁ kept).flatMap fun o _ => (h₂ kept).map _

theorem reschedule (l : Loop) (exec : Exec) : SameOffsets [{ l with exec }] [l] := by
  intro kept
  cases hk : kept l.role with
  | true =>
    simp only [ofRoles, List.filter_cons, List.filter_nil, hk, if_true]
    exact List.Perm.of_eq (offsets_congr rfl)
  | false => simp [ofRoles, hk]

theorem merge {outer inner : Loop} (hrole : outer.role = inner.role)
    (hstrides : outer.strides = inner.size • inner.strides) :
    SameOffsets [outer, inner] [{ inner with size := inner.size * outer.size }] := by
  intro kept
  cases hk : kept inner.role with
  | true =>
    simp only [ofRoles, List.filter_cons, List.filter_nil, hrole, hk, if_true]
    exact List.Perm.of_eq (offsets_pair [] (Nat.mul_comm _ _) rfl hstrides)
  | false =>
    simp [ofRoles, hrole, hk]

end SameOffsets

inductive Regroup : List Loop → List Loop → Prop
  | reorder {loops others : List Loop} (h : loops.Perm others) : Regroup loops others
  | reschedule (l : Loop) (exec : Exec) (rest : List Loop) :
      Regroup ({ l with exec } :: rest) (l :: rest)
  | merge {outer inner : Loop} (rest : List Loop) (hrole : outer.role = inner.role)
      (hstrides : outer.strides = inner.size • inner.strides) :
      Regroup (outer :: inner :: rest) ({ inner with size := inner.size * outer.size } :: rest)

theorem Regroup.sameOffsets {loops others : List Loop} (h : Regroup loops others) :
    SameOffsets loops others := by
  cases h with
  | reorder h => exact SameOffsets.of_perm h
  | reschedule l exec rest =>
    exact (SameOffsets.reschedule l exec).append (SameOffsets.refl rest)
  | merge rest hrole hstrides =>
    exact (SameOffsets.merge hrole hstrides).append (SameOffsets.refl rest)

def Regroups : List Loop → List Loop → Prop := Relation.EqvGen Regroup

namespace Regroups

variable {a b c : List Loop}

theorem refl (loops : List Loop) : Regroups loops loops := Relation.EqvGen.refl loops

theorem symm (h : Regroups a b) : Regroups b a := Relation.EqvGen.symm _ _ h

theorem trans (h₁ : Regroups a b) (h₂ : Regroups b c) : Regroups a c :=
  Relation.EqvGen.trans _ _ _ h₁ h₂

theorem of_perm (h : a.Perm b) : Regroups a b := Relation.EqvGen.rel _ _ (.reorder h)

theorem reschedule (l : Loop) (exec : Exec) (rest : List Loop) :
    Regroups ({ l with exec } :: rest) (l :: rest) :=
  Relation.EqvGen.rel _ _ (.reschedule l exec rest)

theorem merge {outer inner : Loop} (rest : List Loop) (hrole : outer.role = inner.role)
    (hstrides : outer.strides = inner.size • inner.strides) :
    Regroups (outer :: inner :: rest) ({ inner with size := inner.size * outer.size } :: rest) :=
  Relation.EqvGen.rel _ _ (.merge rest hrole hstrides)

theorem cons (l : Loop) (h : Regroups a b) : Regroups (l :: a) (l :: b) := by
  induction h with
  | rel a b h =>
    -- a step at the head is made behind the new loop by taking that loop out of the way and back
    cases h with
    | reorder h => exact of_perm (h.cons l)
    | reschedule x exec rest =>
      exact (of_perm (List.Perm.swap _ _ _)).trans
        ((reschedule x exec (l :: rest)).trans (of_perm (List.Perm.swap _ _ _)))
    | @merge outer inner rest hrole hstrides =>
      have hfront : (l :: outer :: inner :: rest).Perm (outer :: inner :: l :: rest) :=
        (List.Perm.swap _ _ _).trans ((List.Perm.swap _ _ _).cons outer)
      exact (of_perm hfront).trans
        ((merge (l :: rest) hrole hstrides).trans (of_perm (List.Perm.swap _ _ _)))
  | refl a => exact refl _
  | symm a b _ ih => exact ih.symm
  | trans a b c _ _ ih₁ ih₂ => exact ih₁.trans ih₂

theorem append_left (outer : List Loop) (h : Regroups a b) :
    Regroups (outer ++ a) (outer ++ b) := by
  induction outer with
  | nil => exact h
  | cons l outer ih => exact ih.cons l

theorem append {outer outer' : List Loop} (h₁ : Regroups outer outer') (h₂ : Regroups a b) :
    Regroups (outer ++ a) (outer' ++ b) := by
  have hswapped : Regroups (outer ++ a) (outer' ++ a) :=
    (of_perm List.perm_append_comm).trans
      ((h₁.append_left a).trans (of_perm List.perm_append_comm))
  exact hswapped.trans (h₂.append_left outer')

theorem of_map_eq (h : a.map (fun l => (l.role, l.size, l.strides)) =
    b.map fun l => (l.role, l.size, l.strides)) : Regroups a b := by
  induction a generalizing b with
  | nil =>
    rw [List.map_nil, eq_comm, List.map_eq_nil_iff] at h
    rw [h]
    exact refl _
  | cons x a ih =>
    cases b with
    | nil => simp at h
    | cons y b =>
      simp only [List.map_cons, List.cons.injEq, Prod.mk.injEq] at h
      obtain ⟨⟨hrole, hsize, hstrides⟩, hrest⟩ := h
      have hx : x = { y with exec := x.exec } := by
        rw [← hrole, ← hsize, ← hstrides]
      rw [hx]
      exact ((ih hrest).cons _).trans (reschedule y x.exec b)

theorem iff_of_regroup {p : List Loop → Prop} (hp : ∀ {a b}, Regroup a b → (p a ↔ p b))
    (h : Regroups a b) : p a ↔ p b := by
  induction h with
  | rel a b h => exact hp h
  | refl a => exact Iff.rfl
  | symm a b _ ih => exact ih.symm
  | trans a b c _ _ ih₁ ih₂ => exact ih₁.trans ih₂

theorem sameOffsets (h : Regroups a b) : SameOffsets a b := by
  induction h with
  | rel a b h => exact h.sameOffsets
  | refl a => exact SameOffsets.refl a
  | symm a b _ ih => exact ih.symm
  | trans a b c _ _ ih₁ ih₂ => exact ih₁.trans ih₂

end Regroups

end TensorKernels.Nest
