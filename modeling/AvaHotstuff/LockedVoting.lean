import AvaHotstuff.Quorum
import AvaHotstuff.Ancestry

set_option autoImplicit false

/-!
# Locked voting on a block tree

The safety argument of chained voting, over any tree, any set of voters and any
choice of the block that a vote obliges to lock. Certificates are read off the
votes: a block is certified when a quorum has voted for it, faulty members of
the quorum being counted whatever they did.
-/
namespace AvaHotstuff.LockedVoting
open Ancestry

universe u v

structure Ballots (B : Type u) (R : Type v) where
  parent : B → Option B
  height : B → ℕ
  known : B → Prop
  root : B
  justify : B → B
  obliges : B → B
  byz : Finset R
  quorum : ℕ
  voted : R → B → Prop

section
variable {B : Type u} {R : Type v} (V : Ballots B R)

def Ballots.Certified (b : B) : Prop :=
  ∃ Q : Finset R, V.quorum ≤ Q.card ∧ ∀ r ∈ Q, r ∉ V.byz → V.voted r b

def Ballots.Backed (b : B) : Prop := b = V.root ∨ V.Certified b

/-- Every certificate from the height of `b` on is for a descendant of `b`. -/
def Ballots.Settled (b : B) : Prop :=
  V.Backed b ∧ ∀ w, V.Certified w → V.height b ≤ V.height w → Anc V.parent b w

/-- The voting discipline of the honest voters. The lock in `rule` is the one held when
the later of two votes was cast. -/
structure Ballots.Lawful [Fintype R] : Prop where
  ranked : Ranked V.parent V.height V.known V.root
  overlap : Fintype.card R + V.byz.card < 2 * V.quorum
  voted_known : ∀ r b, r ∉ V.byz → V.voted r b → V.known b
  once : ∀ r u w, r ∉ V.byz → V.voted r u → V.voted r w → V.height u = V.height w → u = w
  justified : ∀ b, V.known b → b ≠ V.root →
    V.Backed (V.justify b) ∧ Anc V.parent (V.justify b) b ∧ V.justify b ≠ b
  rule : ∀ r u w, r ∉ V.byz → V.voted r u → V.voted r w → V.height u < V.height w →
    ∃ l, V.known l ∧ V.Backed l ∧ V.height (V.obliges u) ≤ V.height l ∧
      V.height l < V.height w ∧
      (V.height l < V.height (V.justify w) ∨ Anc V.parent l w)

end

section
variable {B : Type u} {R : Type v} [Fintype R] [DecidableEq R] {V : Ballots B R} (L : V.Lawful)
include L

theorem Ballots.Lawful.common_voter {u w : B} (hu : V.Certified u) (hw : V.Certified w) :
    ∃ r, r ∉ V.byz ∧ V.voted r u ∧ V.voted r w := by
  obtain ⟨P, hP, hPv⟩ := hu
  obtain ⟨Q, hQ, hQv⟩ := hw
  obtain ⟨r, hrP, hrQ, hr⟩ := Quorum.exists_honest_inter V.byz P Q L.overlap hP hQ
  exact ⟨r, hr, hPv r hrP hr, hQv r hrQ hr⟩

theorem Ballots.Lawful.certified_known {b : B} (h : V.Certified b) : V.known b := by
  obtain ⟨r, hr, hv, _⟩ := L.common_voter h h
  exact L.voted_known r b hr hv

theorem Ballots.Lawful.backed_known {b : B} (h : V.Backed b) : V.known b := by
  rcases h with rfl | h
  · exact L.ranked.root_dom
  · exact L.certified_known h

theorem Ballots.Lawful.certified_unique {u w : B} (hu : V.Certified u) (hw : V.Certified w)
    (h : V.height u = V.height w) : u = w := by
  obtain ⟨r, hr, hvu, hvw⟩ := L.common_voter hu hw
  exact L.once r u w hr hvu hvw h

theorem Ballots.Lawful.backed_unique {u w : B} (hu : V.Backed u) (hw : V.Backed w)
    (h : V.height u = V.height w) : u = w := by
  rcases hu with rfl | hu'
  · have h0 := L.ranked.root_height
    exact (L.ranked.eq_root (L.backed_known hw) (by omega)).symm
  · rcases hw with rfl | hw'
    · have h0 := L.ranked.root_height
      exact L.ranked.eq_root (L.certified_known hu') (by omega)
    · exact L.certified_unique hu' hw' h

omit [DecidableEq R] in
theorem Ballots.Lawful.justify_height {b : B} (hb : V.known b) (hr : b ≠ V.root) :
    V.height (V.justify b) < V.height b := by
  obtain ⟨_, hanc, hne⟩ := L.justified b hb hr
  exact L.ranked.anc_height_lt hb hanc hne

/-- A certified tip whose vote obliges to lock at the height of `b` keeps every later
certificate above `b`, once the certificates up to the tip are above `b`. -/
theorem Ballots.Lawful.extends_of_lock {t b : B} (ht : V.Certified t) (hb : V.known b)
    (hob : V.height b ≤ V.height (V.obliges t))
    (hnear : ∀ w, V.Certified w → V.height b ≤ V.height w → V.height w ≤ V.height t →
      Anc V.parent b w)
    {w : B} (hw : V.Certified w) (hbw : V.height b ≤ V.height w) : Anc V.parent b w := by
  induction hn : V.height w using Nat.strong_induction_on generalizing w with
  | _ n ih =>
    subst n
    by_cases hwt : V.height w ≤ V.height t
    · exact hnear w hw hbw hwt
    have hwk := L.certified_known hw
    -- Backed blocks strictly below `w` already extend `b`.
    have below : ∀ x, V.Backed x → V.height b ≤ V.height x → V.height x < V.height w →
        Anc V.parent b x := by
      rintro x (rfl | hx) hbx hxw
      · have h0 := L.ranked.root_height
        rw [L.ranked.eq_root hb (by omega)]
        exact .refl _
      · exact ih (V.height x) hxw hx hbx rfl
    obtain ⟨r, hr, hvt, hvw⟩ := L.common_voter ht hw
    obtain ⟨l, _, hlb, hlo, hlw, hrule⟩ := L.rule r t w hr hvt hvw (by omega)
    rcases hrule with hj | hanc
    · have hroot : w ≠ V.root := by
        rintro rfl
        have h0 := L.ranked.root_height
        omega
      obtain ⟨hjb, hja, _⟩ := L.justified w hwk hroot
      have hjw := L.justify_height hwk hroot
      exact (below _ hjb (by omega) hjw).trans hja
    · exact (below l hlb (by omega) hlw).trans hanc

/-- Three blocks in direct succession, the last of them certified and obliging its voters
to lock the first. -/
structure Ballots.ThreeChain (V : Ballots B R) (b b₁ b₂ : B) : Prop where
  first : V.Backed b
  second : V.Certified b₁
  third : V.Certified b₂
  parent₁ : V.parent b₁ = some b
  parent₂ : V.parent b₂ = some b₁
  lock : V.obliges b₂ = b

theorem Ballots.Lawful.three_chain {b b₁ b₂ : B} (C : V.ThreeChain b b₁ b₂) : V.Settled b := by
  refine ⟨C.first, fun w hw hbw => ?_⟩
  have hk₁ := L.certified_known C.second
  have hk₂ := L.certified_known C.third
  obtain ⟨_, hh₂⟩ := L.ranked.parent_spec hk₂ C.parent₂
  obtain ⟨_, hh₁⟩ := L.ranked.parent_spec hk₁ C.parent₁
  refine L.extends_of_lock C.third (L.backed_known C.first) (by rw [C.lock]) ?_ hw hbw
  intro w hw hbw hwt
  have hcases : V.height w = V.height b ∨ V.height w = V.height b₁ ∨
      V.height w = V.height b₂ := by omega
  rcases hcases with h | h | h
  · rw [L.backed_unique (.inr hw) C.first h]
    exact .refl _
  · rw [L.certified_unique hw C.second h]
    exact .of_parent C.parent₁
  · rw [L.certified_unique hw C.third h]
    exact .cons C.parent₂ (.of_parent C.parent₁)

/-- Two blocks in direct succession, the second certified and obliging its voters to lock
the first. -/
structure Ballots.TwoChain (V : Ballots B R) (b b₁ : B) : Prop where
  first : V.Backed b
  second : V.Certified b₁
  parent₁ : V.parent b₁ = some b
  lock : V.obliges b₁ = b

theorem Ballots.Lawful.two_chain {b b₁ : B} (C : V.TwoChain b b₁) : V.Settled b := by
  refine ⟨C.first, fun w hw hbw => ?_⟩
  obtain ⟨_, hh₁⟩ := L.ranked.parent_spec (L.certified_known C.second) C.parent₁
  refine L.extends_of_lock C.second (L.backed_known C.first) (by rw [C.lock]) ?_ hw hbw
  intro w hw hbw hwt
  have hcases : V.height w = V.height b ∨ V.height w = V.height b₁ := by omega
  rcases hcases with h | h
  · rw [L.backed_unique (.inr hw) C.first h]
    exact .refl _
  · rw [L.certified_unique hw C.second h]
    exact .of_parent C.parent₁

theorem Ballots.Lawful.settled_root : V.Settled V.root :=
  ⟨.inl rfl, fun _ hw _ => L.ranked.root_anc (L.certified_known hw)⟩

/-- Of two settled blocks the higher one extends the other. -/
theorem Ballots.Lawful.settled_anc {u w : B} (hu : V.Settled u) (hw : V.Settled w)
    (h : V.height u ≤ V.height w) : Anc V.parent u w := by
  rcases hw.1 with rfl | hw'
  · have h0 := L.ranked.root_height
    rw [L.ranked.eq_root (L.backed_known hu.1) (by omega)]
    exact .refl _
  · exact hu.2 w hw' h

end

end AvaHotstuff.LockedVoting
