import Mathlib.Data.List.Basic
import Mathlib.Logic.Relation
import Mathlib.Order.Basic
import Mathlib.Tactic.Common

set_option autoImplicit false

/-!
# A stack that destroys the links it follows

`links` gives each node the nodes it points to. `sweep` looks at the node on top of a
stack: a node without links is popped, of another one the last link is followed and
removed. On a well-founded graph the stack runs empty, and what it started from has lost
every link that could be followed.
-/
namespace AvaHotstuff.Sweep

universe u
variable {α : Type u} [DecidableEq α] {links : α → List α} {a p x : α}

/-- `x` is `a` or is met on some path of links from it. -/
def Below (links : α → List α) (a x : α) : Prop :=
  Relation.ReflTransGen (fun c p => p ∈ links c) a x

def cut (links : α → List α) (a : α) : α → List α := Function.update links a (links a).dropLast

def sweep : ℕ → (α → List α) → List α → Option (α → List α)
  | _, links, [] => some links
  | 0, _, _ :: _ => none
  | fuel + 1, links, a :: stack =>
    match (links a).getLast? with
    | none => sweep fuel links stack
    | some p => sweep fuel (cut links a) (p :: a :: stack)

open Classical in
noncomputable def swept (links : α → List α) (a : α) : α → List α :=
  fun x => if Below links a x then [] else links x

omit [DecidableEq α] in
theorem Below.refl (a : α) : Below links a a := Relation.ReflTransGen.refl

omit [DecidableEq α] in
theorem Below.next {y : α} (h : Below links a x) (hy : y ∈ links x) : Below links a y :=
  Relation.ReflTransGen.tail h hy

omit [DecidableEq α] in
theorem Below.mono {links' : α → List α} (h : Below links a x)
    (hsub : ∀ c p, p ∈ links c → p ∈ links' c) : Below links' a x := by
  unfold Below at h
  induction h with
  | refl => exact .refl _
  | tail _ hy ih => exact ih.next (hsub _ _ hy)

omit [DecidableEq α] in
theorem swept_sub {c : α} (h : p ∈ swept links a c) : p ∈ links c := by
  unfold swept at h
  split at h
  · cases h
  · exact h

theorem cut_sub {c : α} (h : p ∈ cut links a c) : p ∈ links c := by
  unfold cut at h
  by_cases hc : c = a
  · subst c
    rw [Function.update_self] at h
    exact List.dropLast_subset _ h
  · rwa [Function.update_of_ne hc] at h

omit [DecidableEq α] in
/-- A node is not below one that it points to. -/
theorem not_below_of_acc (hacc : Acc (fun p c => p ∈ links c) a) (hp : p ∈ links a) :
    ¬Below links p a := by
  induction hacc generalizing p with
  | intro a _ ih =>
    intro hb
    rcases Relation.ReflTransGen.cases_head hb with rfl | ⟨q, hq, hqa⟩
    · exact ih p hp hp (.refl p)
    · exact ih p hp hq (Below.next hqa hp)

/-- To follow the last link and to sweep what is left is to sweep at once. -/
theorem swept_cut (hp : (links a).getLast? = some p) (hnot : ¬Below links p a) :
    swept (swept (cut links a) p) a = swept links a := by
  have hlinks : (links a).dropLast ++ [p] = links a := List.dropLast_append_getLast? p hp
  have hpa : p ∈ links a := by
    rw [← hlinks]
    exact List.mem_append_right _ (List.mem_singleton_self p)
  have hcut : ∀ c, c ≠ a → cut links a c = links c := fun c hc => Function.update_of_ne hc ..
  have hsplit : ∀ x, Below links a x →
      Below (cut links a) p x ∨ Below (swept (cut links a) p) a x := by
    intro x hx
    unfold Below at hx
    induction hx with
    | refl => exact Or.inr (.refl a)
    | @tail y x _ hyx ih =>
      by_cases hya : y = a
      · subst y
        rw [← hlinks, List.mem_append, List.mem_singleton] at hyx
        rcases hyx with hdrop | rfl
        · -- the remaining links of `a` are still there
          refine Or.inr (Below.next (.refl a) ?_)
          unfold swept
          rw [if_neg fun h => hnot (h.mono fun c q => cut_sub)]
          unfold cut
          rw [Function.update_self]
          exact hdrop
        · exact Or.inl (.refl x)
      · rw [← hcut y hya] at hyx
        by_cases hpy : Below (cut links a) p y
        · exact Or.inl (hpy.next hyx)
        · refine Or.inr ((ih.resolve_left hpy).next ?_)
          unfold swept
          rw [if_neg hpy]
          exact hyx
  funext x
  by_cases hx : Below links a x
  · have hrhs : swept links a x = [] := if_pos hx
    rw [hrhs]
    by_cases hax : Below (swept (cut links a) p) a x
    · exact if_pos hax
    · have hpx := (hsplit x hx).resolve_right hax
      unfold swept at hax ⊢
      rw [if_neg hax, if_pos hpx]
  · have hxa : x ≠ a := by
      rintro rfl
      exact hx (.refl x)
    have hpx : ¬Below (cut links a) p x := by
      intro h
      exact hx (Relation.ReflTransGen.head hpa (h.mono fun c q => cut_sub))
    have hax : ¬Below (swept (cut links a) p) a x :=
      fun h => hx (h.mono fun c q hq => cut_sub (swept_sub hq))
    unfold swept at hax ⊢
    rw [if_neg hax, if_neg hpx, if_neg hx, hcut x hxa]

omit [DecidableEq α] in
theorem swept_of_nil (h : links a = []) : swept links a = links := by
  funext x
  unfold swept
  split
  · rename_i hx
    rcases Relation.ReflTransGen.cases_head hx with rfl | ⟨q, hq, -⟩
    · exact h.symm
    · rw [h] at hq
      cases hq
  · rfl

/-- The node on top of the stack is swept and popped. The outer induction is on the node,
the inner one on the number of its links. -/
theorem sweep_top {R : α → α → Prop} (hacc : Acc R a) (hR : ∀ c p, p ∈ links c → R p c) :
    ∃ n, ∀ fuel stack, sweep (fuel + n) links (a :: stack) = sweep fuel (swept links a) stack := by
  induction hacc generalizing links with
  | intro a hsub ih =>
    induction hk : (links a).length using Nat.strongRecOn generalizing links with
    | ind k ihk =>
      cases hlast : (links a).getLast? with
      | none =>
        refine ⟨1, ?_⟩
        intro fuel stack
        rw [swept_of_nil (List.getLast?_eq_none_iff.mp hlast)]
        simp only [sweep, hlast]
      | some p =>
        have hpa : p ∈ links a := List.mem_of_getLast? hlast
        have hacc : Acc (fun p c => p ∈ links c) a :=
          Subrelation.accessible (fun h => hR _ _ h) (Acc.intro a hsub)
        obtain ⟨n₁, h₁⟩ := @ih p (hR a p hpa) (cut links a) fun c q hq => hR c q (cut_sub hq)
        have hlen : (swept (cut links a) p a).length < k := by
          have hle : (swept (cut links a) p a).length ≤ (links a).dropLast.length := by
            unfold swept
            split
            · exact Nat.zero_le _
            · refine Nat.le_of_eq ?_
              rw [cut, Function.update_self]
          have hpos := List.length_pos_of_mem hpa
          rw [List.length_dropLast] at hle
          omega
        obtain ⟨n₂, h₂⟩ := @ihk _ hlen (swept (cut links a) p)
          (fun c q hq => hR c q (cut_sub (swept_sub hq))) rfl
        refine ⟨n₂ + n₁ + 1, ?_⟩
        intro fuel stack
        rw [← swept_cut hlast (not_below_of_acc hacc hpa), ← h₂, ← h₁, ← Nat.add_assoc,
          ← Nat.add_assoc]
        simp only [sweep, hlast]

theorem sweep_eq_swept (hacc : Acc (fun p c => p ∈ links c) a) :
    ∃ n, ∀ fuel, n ≤ fuel → sweep fuel links [a] = some (swept links a) := by
  obtain ⟨n, hn⟩ := sweep_top hacc fun c p h => h
  refine ⟨n, ?_⟩
  intro fuel hle
  rw [← Nat.sub_add_cancel hle, hn]
  cases fuel - n <;> rfl

end AvaHotstuff.Sweep
