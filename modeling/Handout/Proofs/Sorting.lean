import Handout.Sorting

/-!
# Sorting by insertion

Sorting keeps the elements of a list (`sortBy_perm`); when of two different elements exactly one may stand before
the other, the result depends on the elements alone (`sortBy_eq_of_perm`).
-/

namespace Handout

variable {α : Type} {le : α → α → Bool}

/-- Insertion keeps the elements of a list. -/
theorem insertSorted_perm (le : α → α → Bool) (a : α) (l : List α) : (insertSorted le a l).Perm (a :: l) := by
  induction l with
  | nil => exact List.Perm.refl _
  | cons b r ih =>
    unfold insertSorted
    split
    · exact List.Perm.refl _
    · exact (List.Perm.cons b ih).trans (List.Perm.swap a b r)

/-- Sorting keeps the elements of a list. -/
theorem sortBy_perm (le : α → α → Bool) (l : List α) : (sortBy le l).Perm l := by
  induction l with
  | nil => exact List.Perm.refl _
  | cons a l ih => exact (insertSorted_perm le a _).trans (List.Perm.cons a ih)

private theorem insertSorted_pairwise (trans : ∀ a b c, le a b → le b c → le a c)
    (total : ∀ a b, le a b ∨ le b a) (a : α) {l : List α} (h : l.Pairwise (le · ·)) :
    (insertSorted le a l).Pairwise (le · ·) := by
  induction l with
  | nil => simp [insertSorted]
  | cons b r ih =>
    obtain ⟨hb, hr⟩ := List.pairwise_cons.1 h
    unfold insertSorted
    by_cases hab : le a b
    · rw [if_pos hab]
      refine List.pairwise_cons.2 ⟨?_, h⟩
      intro c hc
      rcases List.mem_cons.1 hc with rfl | hc
      · exact hab
      · exact trans a b c hab (hb c hc)
    · rw [if_neg hab]
      refine List.pairwise_cons.2 ⟨?_, ih hr⟩
      intro c hc
      rcases List.mem_cons.1 ((insertSorted_perm le a r).mem_iff.1 hc) with rfl | hc
      · exact (total c b).resolve_left hab
      · exact hb c hc

/-- Sorting puts the elements in order. -/
theorem sortBy_pairwise (trans : ∀ a b c, le a b → le b c → le a c) (total : ∀ a b, le a b ∨ le b a) (l : List α) :
    (sortBy le l).Pairwise (le · ·) := by
  induction l with
  | nil => exact List.Pairwise.nil
  | cons a l ih => exact insertSorted_pairwise trans total a ih

/-- Lists with the same elements are sorted alike. -/
theorem sortBy_eq_of_perm (trans : ∀ a b c, le a b → le b c → le a c) (total : ∀ a b, le a b ∨ le b a)
    (antisymm : ∀ a b, le a b → le b a → a = b) {l l' : List α} (h : l.Perm l') : sortBy le l = sortBy le l' := by
  have hperm : (sortBy le l).Perm (sortBy le l') :=
    (sortBy_perm le l).trans (h.trans (sortBy_perm le l').symm)
  exact hperm.eq_of_pairwise (fun a b _ _ hab hba => antisymm a b hab hba) (sortBy_pairwise trans total l)
    (sortBy_pairwise trans total l')

/-- Elements may be left out before a list is sorted or afterwards. -/
theorem sortBy_filter (trans : ∀ a b c, le a b → le b c → le a c) (total : ∀ a b, le a b ∨ le b a)
    (antisymm : ∀ a b, le a b → le b a → a = b) (keep : α → Bool) (l : List α) :
    sortBy le (l.filter keep) = (sortBy le l).filter keep := by
  have hperm : (sortBy le (l.filter keep)).Perm ((sortBy le l).filter keep) :=
    (sortBy_perm le _).trans ((sortBy_perm le l).symm.filter keep)
  exact hperm.eq_of_pairwise (fun a b _ _ hab hba => antisymm a b hab hba) (sortBy_pairwise trans total _)
    ((sortBy_pairwise trans total l).filter _)

end Handout
