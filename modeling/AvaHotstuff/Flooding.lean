import Mathlib.Data.Set.Defs
import Mathlib.Tactic.Common

set_option autoImplicit false

/-!
# Flooding

Whoever hears of a topic for the first time passes it on to all members. A copy may
get lost, but not the last one that is on its way to a member when others know.
-/
namespace AvaHotstuff.Flooding

universe u v
variable {ι : Type u} {τ : Type v} {members : Set ι} {heard heard' pending pending' : ι → τ → Prop}

/-- What one member has heard of, every member has heard of or is about to be told. -/
def Spread (members : Set ι) (heard pending : ι → τ → Prop) : Prop :=
  ∀ p ∈ members, ∀ k, heard p k → ∀ q ∈ members, heard q k ∨ pending q k

theorem Spread.quiet (h : Spread members heard pending)
    (hquiet : ∀ p ∈ members, ∀ k, ¬pending p k) {p q : ι} (hp : p ∈ members) (hq : q ∈ members)
    (k : τ) : heard p k ↔ heard q k := by
  constructor
  · intro hk
    exact (h p hp k hk q hq).resolve_right (hquiet q hq k)
  · intro hk
    exact (h q hq k hk p hp).resolve_right (hquiet p hp k)

theorem Spread.mono (h : Spread members heard pending)
    (hheard : ∀ p ∈ members, ∀ k, heard' p k ↔ heard p k)
    (hpending : ∀ p ∈ members, ∀ k, pending p k → pending' p k) :
    Spread members heard' pending' := by
  intro p hp k hk q hq
  rcases h p hp k ((hheard p hp k).mp hk) q hq with h' | h'
  · exact .inl ((hheard q hq k).mpr h')
  · exact .inr (hpending q hq k h')

/-- A copy of `k₀` is taken by `p₀`, which knows of it or is not the last one to be told. -/
theorem Spread.take (h : Spread members heard pending) (p₀ : ι) (k₀ : τ)
    (hheard : ∀ p ∈ members, ∀ k, heard' p k ↔ heard p k)
    (hpending : ∀ p ∈ members, ∀ k, pending p k → pending' p k ∨ p = p₀ ∧ k = k₀)
    (hlast : ∀ p ∈ members, heard p k₀ → heard p₀ k₀ ∨ pending' p₀ k₀) :
    Spread members heard' pending' := by
  intro p hp k hk q hq
  have hpk := (hheard p hp k).mp hk
  rw [hheard q hq k]
  rcases h p hp k hpk q hq with h' | h'
  · exact .inl h'
  · rcases hpending q hq k h' with hkeep | ⟨rfl, rfl⟩
    · exact .inr hkeep
    · exact hlast p hp hpk

/-- A copy of `k₀` reaches `p₀`, which passes it on. -/
theorem Spread.hear (h : Spread members heard pending) (p₀ : ι) (k₀ : τ)
    (hheard : ∀ p ∈ members, ∀ k, heard' p k ↔ heard p k ∨ p = p₀ ∧ k = k₀)
    (hpending : ∀ p ∈ members, ∀ k, pending p k → pending' p k ∨ p = p₀ ∧ k = k₀)
    (hsent : ∀ q ∈ members, q ≠ p₀ → pending' q k₀) : Spread members heard' pending' := by
  intro p hp k hk q hq
  rw [hheard q hq k]
  by_cases hq₀ : q = p₀ ∧ k = k₀
  · exact .inl (.inr hq₀)
  rcases (hheard p hp k).mp hk with hk | ⟨-, rfl⟩
  · rcases h p hp k hk q hq with h' | h'
    · exact .inl (.inl h')
    · exact .inr ((hpending q hq k h').resolve_right hq₀)
  · refine .inr (hsent q hq ?_)
    intro hne
    exact hq₀ ⟨hne, rfl⟩

end AvaHotstuff.Flooding
