import Mathlib.Data.Fintype.Card
import Mathlib.Tactic.Common

set_option autoImplicit false

namespace AvaHotstuff.Quorum

/-- Faults tolerated by `n` replicas, and the number of signers of a certificate. -/
def maxFaulty (n : ℕ) : ℕ := (n - 1) / 3
def majority (n : ℕ) : ℕ := n - maxFaulty n

theorem majority_overlap {n b : ℕ} (hn : 0 < n) (hb : b ≤ maxFaulty n) :
    n + b < 2 * majority n := by
  unfold majority maxFaulty at *
  omega

theorem maxFaulty_lt_majority {n : ℕ} (hn : 0 < n) : maxFaulty n < majority n := by
  unfold majority maxFaulty
  omega

section
universe u
variable {R : Type u} [Fintype R] [DecidableEq R]

theorem card_inter_ge (A B : Finset R) : A.card + B.card ≤ (A ∩ B).card + Fintype.card R := by
  have hsum := Finset.card_union_add_card_inter A B
  have huniv : (A ∪ B).card ≤ Fintype.card R := Finset.card_le_univ _
  omega

omit [Fintype R] in
theorem exists_honest (byz A : Finset R) (h : byz.card < A.card) : ∃ r ∈ A, r ∉ byz := by
  by_contra hno
  push Not at hno
  exact absurd (Finset.card_le_card hno) (by omega)

theorem exists_honest_inter (byz A B : Finset R) {q : ℕ} (hq : Fintype.card R + byz.card < 2 * q)
    (hA : q ≤ A.card) (hB : q ≤ B.card) : ∃ r, r ∈ A ∧ r ∈ B ∧ r ∉ byz := by
  have hinter := card_inter_ge A B
  obtain ⟨r, hr, hbyz⟩ := exists_honest byz (A ∩ B) (by omega)
  exact ⟨r, (Finset.mem_inter.mp hr).1, (Finset.mem_inter.mp hr).2, hbyz⟩

end

end AvaHotstuff.Quorum
