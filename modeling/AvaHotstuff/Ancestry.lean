import Mathlib.Data.Set.Function
import Mathlib.Logic.Relation
import Mathlib.Tactic.Common

set_option autoImplicit false

/-!
# Parent pointers, heights and the walk that follows them

A chain of parent pointers is used only through its first parent. `walk` is the
loop `for (b = start; height b > bound; b = parent b)`, with the visited nodes
kept; on a ranked forest it ends, and its end decides ancestry.
-/
namespace AvaHotstuff.Ancestry

universe u
variable {α : Type u} {parent : α → Option α}

/-- `a` is `b` or lies on the parent chain of `b`. -/
def Anc (parent : α → Option α) (a b : α) : Prop :=
  Relation.ReflTransGen (fun x y => parent x = some y) b a

theorem Anc.refl (a : α) : Anc parent a a := Relation.ReflTransGen.refl

theorem Anc.trans {a b c : α} (h : Anc parent a b) (h' : Anc parent b c) : Anc parent a c :=
  Relation.ReflTransGen.trans h' h

theorem Anc.of_parent {a b : α} (h : parent b = some a) : Anc parent a b :=
  Relation.ReflTransGen.single h

theorem Anc.cons {a b p : α} (hp : parent b = some p) (h : Anc parent a p) : Anc parent a b :=
  Relation.ReflTransGen.head hp h

theorem anc_iff {a b : α} : Anc parent a b ↔ a = b ∨ ∃ p, parent b = some p ∧ Anc parent a p := by
  constructor
  · intro h
    rcases Relation.ReflTransGen.cases_head h with h | ⟨p, hp, h⟩
    · exact .inl h.symm
    · exact .inr ⟨p, hp, h⟩
  · rintro (rfl | ⟨p, hp, h⟩)
    · exact .refl _
    · exact .cons hp h

/-- The nodes from `b` down to `e`, `b` included and `e` excluded. -/
inductive Seg (parent : α → Option α) (e : α) : List α → α → Prop where
  | nil : Seg parent e [] e
  | cons {b p : α} {q : List α} (hp : parent b = some p) (tail : Seg parent e q p) :
      Seg parent e (b :: q) b

theorem Seg.anc {e b : α} {q : List α} (h : Seg parent e q b) : Anc parent e b := by
  induction h with
  | nil => exact .refl _
  | cons hp _ ih => exact .cons hp ih

theorem Seg.mem_anc {e b x : α} {q : List α} (h : Seg parent e q b) (hx : x ∈ q) :
    Anc parent x b := by
  induction h with
  | nil => exact absurd hx List.not_mem_nil
  | cons hp _ ih =>
    rcases List.mem_cons.mp hx with rfl | hx
    · exact .refl _
    · exact .cons hp (ih hx)

theorem Seg.of_agree {parent' : α → Option α} {e b : α} {q : List α} (h : Seg parent e q b)
    (hagree : ∀ x ∈ q, parent' x = parent x) : Seg parent' e q b := by
  induction h with
  | nil => exact .nil
  | cons hp _ ih =>
    refine .cons ((hagree _ (by simp)).trans hp) (ih ?_)
    intro x hx
    exact hagree x (by simp [hx])

/-- Every node of `dom` other than the root has its parent in `dom`, one step lower. -/
structure Ranked (parent : α → Option α) (height : α → ℕ) (dom : α → Prop) (root : α) :
    Prop where
  root_dom : dom root
  root_height : height root = 0
  up : ∀ x, dom x → x ≠ root → ∃ p, parent x = some p ∧ dom p ∧ height x = height p + 1
  root_top : parent root = none

section
variable {height : α → ℕ} {dom : α → Prop} {root : α} (R : Ranked parent height dom root)
include R

theorem Ranked.eq_root {x : α} (hx : dom x) (h : height x = 0) : x = root := by
  by_contra hne
  obtain ⟨p, _, _, hh⟩ := R.up x hx hne
  omega

theorem Ranked.parent_spec {x p : α} (hx : dom x) (hp : parent x = some p) :
    dom p ∧ height x = height p + 1 := by
  by_cases hr : x = root
  · subst x
    rw [R.root_top] at hp
    exact absurd hp (by simp)
  · obtain ⟨p', hp', hd, hh⟩ := R.up x hx hr
    obtain rfl : p' = p := by simpa [hp'] using hp
    exact ⟨hd, hh⟩

theorem Ranked.anc_spec {a x : α} (hx : dom x) (h : Anc parent a x) :
    dom a ∧ height a ≤ height x := by
  unfold Anc at h
  induction h with
  | refl => exact ⟨hx, Nat.le_refl _⟩
  | tail _ hp ih =>
    obtain ⟨hd, hh⟩ := R.parent_spec ih.1 hp
    exact ⟨hd, by omega⟩

theorem Ranked.root_anc {x : α} (hx : dom x) : Anc parent root x := by
  induction hn : height x generalizing x with
  | zero => exact R.eq_root hx hn ▸ .refl _
  | succ n ih =>
    have hr : x ≠ root := by
      rintro rfl
      rw [R.root_height] at hn
      omega
    obtain ⟨p, hp, hd, hh⟩ := R.up x hx hr
    exact .cons hp (ih hd (by omega))

/-- The ancestors of one node are linearly ordered by height. -/
theorem Ranked.anc_of_anc {a b x : α} (hx : dom x) (ha : Anc parent a x) (hb : Anc parent b x)
    (h : height a ≤ height b) : Anc parent a b := by
  induction hn : height x generalizing x with
  | zero =>
    have hxr := R.eq_root hx hn
    have hbx := R.anc_spec hx hb
    have hax := R.anc_spec hx ha
    rw [R.eq_root hax.1 (by omega), R.eq_root hbx.1 (by omega)]
    exact .refl _
  | succ n ih =>
    rcases anc_iff.mp hb with rfl | ⟨p, hp, hb'⟩
    · exact ha
    · obtain ⟨hd, hh⟩ := R.parent_spec hx hp
      rcases anc_iff.mp ha with rfl | ⟨p', hp', ha'⟩
      · have := R.anc_spec hd hb'
        omega
      · obtain rfl : p' = p := by simpa [hp'] using hp
        exact ih hd ha' hb' (by omega)

theorem Ranked.anc_unique {a b x : α} (hx : dom x) (ha : Anc parent a x) (hb : Anc parent b x)
    (h : height a = height b) : a = b := by
  have hab := R.anc_of_anc hx ha hb (Nat.le_of_eq h)
  have hdb := (R.anc_spec hx hb).1
  rcases anc_iff.mp hab with rfl | ⟨p, hp, hap⟩
  · rfl
  · obtain ⟨hd, hh⟩ := R.parent_spec hdb hp
    have := (R.anc_spec hd hap).2
    omega

theorem Ranked.anc_height_lt {a x : α} (hx : dom x) (h : Anc parent a x) (hne : a ≠ x) :
    height a < height x := by
  rcases anc_iff.mp h with rfl | ⟨p, hp, hap⟩
  · exact absurd rfl hne
  · obtain ⟨hd, hh⟩ := R.parent_spec hx hp
    have := (R.anc_spec hd hap).2
    omega

theorem Ranked.seg_dom {e b : α} {q : List α} (hb : dom b) (h : Seg parent e q b) :
    ∀ x ∈ q, dom x := by
  induction h with
  | nil => simp
  | cons hp _ ih =>
    intro x hx
    rcases List.mem_cons.mp hx with rfl | hx
    · exact hb
    · exact ih (R.parent_spec hb hp).1 x hx

theorem Ranked.seg_heights {e b : α} {q : List α} (hb : dom b) (h : Seg parent e q b) :
    q.reverse.map height = List.range' (height e + 1) q.length ∧
      height b = height e + q.length := by
  induction h with
  | nil => exact ⟨rfl, rfl⟩
  | @cons b p q hp _ ih =>
    obtain ⟨hd, hh⟩ := R.parent_spec hb hp
    obtain ⟨hm, hl⟩ := ih hd
    refine ⟨?_, by simp only [List.length_cons]; omega⟩
    rw [List.reverse_cons, List.map_append, hm, List.length_cons, List.range'_concat]
    simp only [List.map_cons, List.map_nil, Nat.one_mul]
    congr 2
    omega

theorem Ranked.mem_seg_root {b x : α} {q : List α} (hb : dom b) (h : Seg parent root q b)
    (hx : Anc parent x b) : x = root ∨ x ∈ q := by
  induction h with
  | nil =>
    rcases anc_iff.mp hx with rfl | ⟨p, hp, _⟩
    · exact .inl rfl
    · rw [R.root_top] at hp
      exact absurd hp (by simp)
  | cons hp _ ih =>
    rcases anc_iff.mp hx with rfl | ⟨p', hp', hx'⟩
    · exact .inr (by simp)
    · obtain rfl : p' = _ := Option.some.inj (hp'.symm.trans hp)
      rcases ih (R.parent_spec hb hp).1 hx' with h | h
      · exact .inl h
      · exact .inr (by simp [h])

theorem Ranked.seg_unique {b : α} {q q' : List α} (h : Seg parent root q b)
    (h' : Seg parent root q' b) : q = q' := by
  have htop : ∀ {p : α}, parent root ≠ some p := by
    intro p hp
    rw [R.root_top] at hp
    cases hp
  induction h generalizing q' with
  | nil =>
    cases h' with
    | nil => rfl
    | cons hp _ => exact absurd hp htop
  | cons hp tail ih =>
    cases h' with
    | nil => exact absurd hp htop
    | cons hp' tail' =>
      obtain rfl := Option.some.inj (hp.symm.trans hp')
      rw [ih tail']

theorem Ranked.seg_suffix {a b : α} {q q' : List α} (h : Seg parent root q a)
    (h' : Seg parent root q' b) (hab : Anc parent a b) : q <:+ q' := by
  induction h' with
  | nil =>
    rcases anc_iff.mp hab with rfl | ⟨p, hp, -⟩
    · obtain rfl := R.seg_unique h .nil
      exact List.suffix_rfl
    · rw [R.root_top] at hp
      cases hp
  | @cons b p q' hp tail ih =>
    rcases anc_iff.mp hab with rfl | ⟨p', hp', hap⟩
    · obtain rfl := R.seg_unique h (.cons hp tail)
      exact List.suffix_rfl
    · obtain rfl := Option.some.inj (hp.symm.trans hp')
      exact (ih hap).trans (List.suffix_cons b q')

end

/-- The loop `for (b = start; height b > bound; b = parent b)` with `fuel` iterations. -/
def walk (parent : α → Option α) (height : α → ℕ) (bound : ℕ) : ℕ → α → Option (List α × α)
  | 0, b => if height b ≤ bound then some ([], b) else none
  | fuel + 1, b =>
    if height b ≤ bound then some ([], b)
    else (parent b).bind fun p =>
      (walk parent height bound fuel p).map fun r => (b :: r.1, r.2)

theorem walk_stop {height : α → ℕ} {bound fuel : ℕ} {b : α} (h : height b ≤ bound) :
    walk parent height bound fuel b = some ([], b) := by
  cases fuel <;> simp [walk, h]

theorem walk_seg {height : α → ℕ} {bound fuel : ℕ} {b e : α} {q : List α}
    (h : walk parent height bound fuel b = some (q, e)) :
    Seg parent e q b ∧ height e ≤ bound ∧ ∀ x ∈ q, bound < height x := by
  induction fuel generalizing b q with
  | zero =>
    unfold walk at h
    split at h
    · obtain ⟨rfl, rfl⟩ : [] = q ∧ b = e := by simpa using h
      exact ⟨.nil, by assumption, by simp⟩
    · exact absurd h (by simp)
  | succ fuel ih =>
    unfold walk at h
    split at h
    · obtain ⟨rfl, rfl⟩ : [] = q ∧ b = e := by simpa using h
      exact ⟨.nil, by assumption, by simp⟩
    · rename_i hb
      obtain ⟨p, hp, h⟩ := Option.bind_eq_some_iff.mp h
      obtain ⟨⟨q', e'⟩, hw, heq⟩ := Option.map_eq_some_iff.mp h
      obtain ⟨rfl, rfl⟩ : b :: q' = q ∧ e' = e := by simpa using heq
      obtain ⟨hs, he, hq⟩ := ih hw
      refine ⟨.cons hp hs, he, ?_⟩
      intro x hx
      rcases List.mem_cons.mp hx with rfl | hx
      · omega
      · exact hq x hx

section
variable {height : α → ℕ} {dom : α → Prop} {root : α} (R : Ranked parent height dom root)
include R

theorem Ranked.walk_total {bound fuel : ℕ} {b : α} (hb : dom b) (hf : height b ≤ fuel + bound) :
    ∃ q e, walk parent height bound fuel b = some (q, e) := by
  induction fuel generalizing b with
  | zero => exact ⟨[], b, walk_stop (by omega)⟩
  | succ fuel ih =>
    by_cases hh : height b ≤ bound
    · exact ⟨[], b, walk_stop hh⟩
    · have hr : b ≠ root := by
        rintro rfl
        rw [R.root_height] at hh
        omega
      obtain ⟨p, hp, hd, hph⟩ := R.up b hb hr
      obtain ⟨q, e, hw⟩ := ih hd (by omega)
      exact ⟨b :: q, e, by simp [walk, hh, hp, hw]⟩

theorem Ranked.walk_height {bound fuel : ℕ} {b e : α} {q : List α} (hb : dom b)
    (hw : walk parent height bound fuel b = some (q, e)) :
    height e = min (height b) bound := by
  obtain ⟨hs, he, hq⟩ := walk_seg hw
  obtain ⟨hm, hl⟩ := R.seg_heights hb hs
  rcases List.eq_nil_or_concat q with rfl | ⟨q', x, rfl⟩
  · simp only [List.length_nil] at hl
    omega
  · have hx := hq x (by simp)
    have hhead : height x = height e + 1 := by
      simpa [List.range'_succ] using congrArg List.head? hm
    omega

/-- The end of the walk is a node of the bounding height exactly when that node is an
ancestor of the start. -/
theorem Ranked.walk_end_iff {a b e : α} {fuel : ℕ} {q : List α} (hb : dom b)
    (hw : walk parent height (height a) fuel b = some (q, e)) :
    e = a ↔ Anc parent a b := by
  obtain ⟨hs, _, _⟩ := walk_seg hw
  have hh := R.walk_height hb hw
  constructor
  · rintro rfl
    exact hs.anc
  · intro ha
    have := (R.anc_spec hb ha).2
    exact R.anc_unique hb hs.anc ha (by omega)

end

/-- A node of `S` that no other one is above. -/
structure Highest (height : α → ℕ) (S : Set α) (a : α) : Prop where
  mem : a ∈ S
  le : ∀ x ∈ S, height x ≤ height a

section
variable {height : α → ℕ} {S : Set α} {a b : α}

theorem Highest.unique (h : Highest height S a) (h' : Highest height S b)
    (hinj : Set.InjOn height S) : a = b :=
  hinj h.mem h'.mem (Nat.le_antisymm (h'.le a h.mem) (h.le b h'.mem))

theorem Highest.extend {T : Set α} {a' : α} (h : Highest height S a) (hmem : a' ∈ T)
    (hle : height a ≤ height a') (hnew : ∀ x ∈ T, x ∈ S ∨ height x ≤ height a') :
    Highest height T a' := by
  refine ⟨hmem, ?_⟩
  intro x hx
  cases hnew x hx with
  | inl hold => exact (h.le x hold).trans hle
  | inr hlt => exact hlt

end

end AvaHotstuff.Ancestry
