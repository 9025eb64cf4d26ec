import AvaHotstuff.BlockCache
import AvaHotstuff.Sweep

set_option autoImplicit false

/-!
# `HotStuffCore::prune`

No handler calls `prune`. It drops the links below a block of the committed chain with
an explicit stack, and releases the blocks that nothing else refers to. How often a
block is referred to is a parameter: closures and timers hold references too.
-/
namespace AvaHotstuff
open Ancestry Sweep

def Tree.parentsOf (t : Tree) (h : Hash) : List Hash := ((t h).map (·.parents)).getD []

/-- No delivered block can be left along parents forever. -/
def Tree.Founded (t : Tree) : Prop :=
  ∀ h, t.delivered h = true → Acc (fun p c => p ∈ t.parentsOf c) h

namespace Tree
variable {t t' : Tree} {h p : Hash}

theorem parentsOf_of {n : BlockNode} (hn : t h = some n) : t.parentsOf h = n.parents := by
  unfold parentsOf
  rw [hn]
  rfl

theorem exists_of_parentsOf (hp : p ∈ t.parentsOf h) : ∃ n, t h = some n ∧ p ∈ n.parents := by
  cases hn : t h with
  | none =>
    unfold parentsOf at hp
    rw [hn] at hp
    cases hp
  | some n =>
    rw [parentsOf_of hn] at hp
    exact ⟨n, rfl, hp⟩

theorem mem_parentsOf_of_parent0 (hp : t.parent0 h = some p) : p ∈ t.parentsOf h := by
  obtain ⟨n, hn, hhead⟩ := exists_of_parent0 hp
  rw [parentsOf_of hn]
  exact List.mem_of_head? hhead

/-- Delivered blocks keep their parents, and a new one stands on old ones. -/
theorem Founded.grow (f : t.Founded) (w : t.Wf) (g : Grows t t')
    (hnew : ∀ h, t'.delivered h = true → t.delivered h = true ∨
      ∀ n, t' h = some n → ∀ p ∈ n.parents, t.delivered p = true) : t'.Founded := by
  have hold : ∀ h, t.delivered h = true → Acc (fun p c => p ∈ t'.parentsOf c) h := by
    intro h hd
    induction f h hd with
    | intro h _ ih =>
      refine Acc.intro h ?_
      intro p hp
      obtain ⟨n, hn, hnd⟩ := exists_of_delivered hd
      obtain ⟨n', hn', -, hk⟩ := g.keep h n hn
      rw [parentsOf_of hn', (hk hnd).2.1] at hp
      exact ih p (by rw [parentsOf_of hn]; exact hp) (w.parents h n hn p hp)
  intro h hd
  rcases hnew h hd with hdel | hparents
  · exact hold h hdel
  · refine Acc.intro h ?_
    intro p hp
    obtain ⟨n, hn, hmem⟩ := exists_of_parentsOf hp
    exact hold p (hparents n hn p hmem)

end Tree

/-- `try_release_blk`; `cnt` is the number of references to the block. -/
def EntityStorage.tryReleaseBlk (st : EntityStorage) (cnt : ℕ) (h : Hash) : EntityStorage :=
  if cnt = 2 then { st with blkCache := Function.update st.blkCache h none } else st

namespace Replica

/-- The loop that skips the blocks; `none` is its `return`. -/
def pruneStart (s : Replica) : ℕ → Hash → Option Hash
  | 0, start => some start
  | staleness + 1, start =>
    match s.parent0 start with
    | none => none
    | some p => s.pruneStart staleness p

def releaseBlk (s : Replica) (cnt : ℕ) (h : Hash) : Replica :=
  { s with storage := s.storage.tryReleaseBlk cnt h }

def unlinkLast (s : Replica) (h : Hash) : Replica :=
  s.modifyBlk h fun b => { b with qcRef := none, parents := b.parents.dropLast }

/-- The loop over the stack, its top first. A block that has been released has no parents. -/
def pruneLoop (getCnt : Replica → List Hash → Hash → ℕ) :
    ℕ → Replica → List Hash → Option Replica
  | _, s, [] => some s
  | 0, _, _ :: _ => none
  | fuel + 1, s, blk :: stack =>
    match (s.tree.parentsOf blk).getLast? with
    | none => pruneLoop getCnt fuel (s.releaseBlk (getCnt s stack blk) blk) stack
    | some p => pruneLoop getCnt fuel (s.unlinkLast blk) (p :: blk :: stack)

def prune (getCnt : Replica → List Hash → Hash → ℕ) (fuel : ℕ) (s : Replica)
    (staleness : ℕ) : Option Replica :=
  match s.pruneStart staleness s.bExec with
  | none => some s
  | some start =>
    pruneLoop getCnt fuel (s.modifyBlk start fun b => { b with qcRef := none }) [start]

/-- A pointer of the core, or one in a block, refers to the block. -/
def Refers (s : Replica) (h : Hash) : Prop :=
  h ∈ [b0, s.hqc.1, s.bLock, s.bExec, s.pmaker.hqcTail] ∨ h ∈ s.tails ∨
    ∃ x blk, s.storage.blkCache x = some blk ∧ (h ∈ blk.parents ∨ blk.qcRef = some h)

/-- A reference count: 2 means that only the cache and the stack of `prune` refer to it. -/
structure Counted (getCnt : Replica → List Hash → Hash → ℕ) : Prop where
  refers : ∀ s stack h, s.Refers h → getCnt s stack h ≠ 2

/-- The delivered blocks: a graph without cycles in which heights count first parents. -/
structure DeliveredGraph (s : Replica) : Prop where
  exec : s.delivered s.bExec = true
  parents : ∀ h, s.delivered h = true → ∀ p ∈ s.tree.parentsOf h, s.delivered p = true
  height : ∀ h p, s.delivered h = true → s.parent0 h = some p → s.height h = s.height p + 1
  acyclic : ∀ h, s.delivered h = true → Acc (fun p c => p ∈ s.tree.parentsOf c) h

structure Pruned (s : Replica) (start : Hash) (u : Replica) : Prop where
  old : ∀ h, Below s.tree.parentsOf start h → ∀ blk, u.storage.blkCache h = some blk →
    blk.parents = []
  kept : (u.storage.blkCache start).isSome = true
  others : ∀ h, ¬Below s.tree.parentsOf start h → u.storage.blkCache h = s.storage.blkCache h
  rest : ∃ cache, u = { s with storage := { s.storage with blkCache := cache } }
  walks : ∀ d, s.delivered d = true → Anc s.parent0 start d →
    ∃ visited, u.walk (u.height start) d = some (visited, start)

variable {getCnt : Replica → List Hash → Hash → ℕ} {s u : Replica}

theorem pruneStart_eq_ancestor (staleness : ℕ) (h : Hash) :
    s.pruneStart staleness h = s.ancestor staleness h := by
  have hnone : ∀ k : ℕ, (fun o : Option Hash => o.bind s.parent0)^[k] none = none := by
    intro k
    induction k with
    | zero => rfl
    | succ k ih => exact ih
  induction staleness generalizing h with
  | zero => rfl
  | succ k ih =>
    unfold pruneStart ancestor
    rw [Function.iterate_succ_apply, Option.bind_some]
    cases hp : s.parent0 h with
    | none => exact (hnone k).symm
    | some p => exact ih p

theorem parentsOf_of_cache {h : Hash} {blk : Block} (hb : s.storage.blkCache h = some blk) :
    s.tree.parentsOf h = blk.parents := Tree.parentsOf_of (s.tree_of_cache hb)

theorem exists_of_parentsOf {h p : Hash} (hp : p ∈ s.tree.parentsOf h) :
    ∃ blk, s.storage.blkCache h = some blk ∧ p ∈ blk.parents := by
  obtain ⟨n, hn, hmem⟩ := Tree.exists_of_parentsOf hp
  obtain ⟨blk, hblk, rfl⟩ := s.cache_of_tree hn
  exact ⟨blk, hblk, hmem⟩

theorem unlinkLast_parentsOf (h : Hash) :
    (s.unlinkLast h).tree.parentsOf = cut s.tree.parentsOf h := by
  have htree := s.tree_modifyBlk h
    (fun b => { b with qcRef := none, parents := b.parents.dropLast })
    (fun n => { n with qcRef := none, parents := n.parents.dropLast }) fun _ => rfl
  funext x
  unfold unlinkLast cut Tree.parentsOf
  rw [htree]
  by_cases hx : x = h
  · subst x
    rw [Function.update_self, Function.update_self]
    cases s.tree h <;> rfl
  · rw [Function.update_of_ne hx, Function.update_of_ne hx]

theorem releaseBlk_parentsOf (cnt : ℕ) {h : Hash} (hnil : s.tree.parentsOf h = []) :
    (s.releaseBlk cnt h).tree.parentsOf = s.tree.parentsOf := by
  funext x
  unfold releaseBlk EntityStorage.tryReleaseBlk
  split
  · by_cases hx : x = h
    · subst x
      rw [hnil]
      simp [Tree.parentsOf, tree]
    · simp [Tree.parentsOf, tree, Function.update_of_ne hx]
  · rfl

theorem pruneLoop_sweep (fuel : ℕ) (s : Replica) (stack : List Hash) :
    (pruneLoop getCnt fuel s stack).map (fun u => u.tree.parentsOf) =
      sweep fuel s.tree.parentsOf stack := by
  induction fuel generalizing s stack with
  | zero => cases stack <;> rfl
  | succ fuel ih =>
    cases stack with
    | nil => rfl
    | cons blk stack =>
      cases hlast : (s.tree.parentsOf blk).getLast? with
      | none =>
        simp only [pruneLoop, sweep, hlast]
        rw [ih, releaseBlk_parentsOf _ (List.getLast?_eq_none_iff.mp hlast)]
      | some p =>
        simp only [pruneLoop, sweep, hlast]
        rw [ih, unlinkLast_parentsOf]

theorem pruneLoop_mono {k fuel : ℕ} (hle : k ≤ fuel) {stack : List Hash}
    (h : pruneLoop getCnt k s stack = some u) : pruneLoop getCnt fuel s stack = some u := by
  induction k generalizing s stack fuel with
  | zero =>
    cases stack with
    | nil =>
      cases fuel <;> exact h
    | cons blk stack => cases h
  | succ k ih =>
    obtain ⟨fuel, rfl⟩ : ∃ m, fuel = m + 1 := ⟨fuel - 1, by omega⟩
    cases stack with
    | nil => exact h
    | cons blk stack =>
      cases hlast : (s.tree.parentsOf blk).getLast? with
      | none =>
        simp only [pruneLoop, hlast] at h ⊢
        exact ih (by omega) h
      | some p =>
        simp only [pruneLoop, hlast] at h ⊢
        exact ih (by omega) h

theorem pruneLoop_invariant {I : Replica → List Hash → Prop} {fuel : ℕ} {stack : List Hash}
    (hrelease : ∀ v blk stack, I v (blk :: stack) → I (v.releaseBlk (getCnt v stack blk) blk) stack)
    (hunlink : ∀ v blk stack p, I v (blk :: stack) → p ∈ v.tree.parentsOf blk →
      I (v.unlinkLast blk) (p :: blk :: stack))
    (h : I s stack) (hrun : pruneLoop getCnt fuel s stack = some u) : I u [] := by
  induction fuel generalizing s stack with
  | zero =>
    cases stack with
    | nil =>
      cases hrun
      exact h
    | cons blk stack => cases hrun
  | succ fuel ih =>
    cases stack with
    | nil =>
      cases hrun
      exact h
    | cons blk stack =>
      cases hlast : (s.tree.parentsOf blk).getLast? with
      | none =>
        simp only [pruneLoop, hlast] at hrun
        exact ih (hrelease s blk stack h) hrun
      | some p =>
        simp only [pruneLoop, hlast] at hrun
        exact ih (hunlink s blk stack p h (List.mem_of_getLast? hlast)) hrun

/-- Only blocks of `D` have changed, and their heights have not. -/
structure Within (D : Hash → Prop) (s u : Replica) : Prop where
  others : ∀ h, ¬D h → u.storage.blkCache h = s.storage.blkCache h
  rest : ∃ cache, u = { s with storage := { s.storage with blkCache := cache } }
  height : ∀ h blk, u.storage.blkCache h = some blk →
    ∃ blk', s.storage.blkCache h = some blk' ∧ blk.height = blk'.height
  parents : ∀ c p, p ∈ u.tree.parentsOf c → p ∈ s.tree.parentsOf c

namespace Within
variable {D : Hash → Prop} {v : Replica}

theorem refl (D : Hash → Prop) (s : Replica) : Within D s s :=
  ⟨fun _ _ => rfl, ⟨s.storage.blkCache, rfl⟩, fun _ blk hb => ⟨blk, hb, rfl⟩, fun _ _ hp => hp⟩

theorem trans (h : Within D s u) (h' : Within D u v) : Within D s v := by
  refine ⟨?_, ?_, ?_, fun c p hp => h.parents c p (h'.parents c p hp)⟩
  · intro x hx
    rw [h'.others x hx, h.others x hx]
  · obtain ⟨cache, rfl⟩ := h.rest
    obtain ⟨cache', rfl⟩ := h'.rest
    exact ⟨cache', rfl⟩
  · intro x blk hb
    obtain ⟨blk', hb', hh⟩ := h'.height x blk hb
    obtain ⟨blk'', hb'', hh'⟩ := h.height x blk' hb'
    exact ⟨blk'', hb'', hh.trans hh'⟩

theorem modify {h : Hash} (hD : D h) {f : Block → Block} (hf : ∀ b, (f b).height = b.height)
    (hp : ∀ b, (f b).parents ⊆ b.parents) : Within D s (s.modifyBlk h f) := by
  refine ⟨?_, ⟨_, rfl⟩, ?_, ?_⟩
  · intro x hx
    have hxh : x ≠ h := fun heq => hx (heq ▸ hD)
    exact Function.update_of_ne hxh ..
  · intro x blk hb
    by_cases hxh : x = h
    · subst x
      unfold modifyBlk at hb
      simp only [Function.update_self] at hb
      obtain ⟨b, hb', rfl⟩ := Option.map_eq_some_iff.mp hb
      exact ⟨b, hb', hf b⟩
    · unfold modifyBlk at hb
      simp only [Function.update_of_ne hxh] at hb
      exact ⟨blk, hb, rfl⟩
  · intro c p hpc
    obtain ⟨blk, hb, hmem⟩ := exists_of_parentsOf hpc
    unfold modifyBlk at hb
    by_cases hch : c = h
    · subst c
      simp only [Function.update_self] at hb
      obtain ⟨b, hb', rfl⟩ := Option.map_eq_some_iff.mp hb
      rw [parentsOf_of_cache hb']
      exact hp b hmem
    · simp only [Function.update_of_ne hch] at hb
      rw [parentsOf_of_cache hb]
      exact hmem

theorem release {h : Hash} (hD : D h) (cnt : ℕ) : Within D s (s.releaseBlk cnt h) := by
  unfold releaseBlk EntityStorage.tryReleaseBlk
  split
  · have hsub : ∀ x blk, Function.update s.storage.blkCache h none x = some blk →
        s.storage.blkCache x = some blk := by
      intro x blk hb
      by_cases hxh : x = h
      · subst x
        rw [Function.update_self] at hb
        cases hb
      · rwa [Function.update_of_ne hxh] at hb
    refine ⟨?_, ⟨_, rfl⟩, fun x blk hb => ⟨blk, hsub x blk hb, rfl⟩, ?_⟩
    · intro x hx
      have hxh : x ≠ h := fun heq => hx (heq ▸ hD)
      exact Function.update_of_ne hxh ..
    · intro c p hpc
      obtain ⟨blk, hb, hmem⟩ := exists_of_parentsOf hpc
      rw [parentsOf_of_cache (hsub c blk hb)]
      exact hmem
  · exact .refl D s

end Within

theorem releaseBlk_stored {cnt : ℕ} {h x : Hash} (hcnt : h = x → cnt ≠ 2)
    (hs : (s.storage.blkCache h).isSome = true) :
    ((s.releaseBlk cnt x).storage.blkCache h).isSome = true := by
  unfold releaseBlk EntityStorage.tryReleaseBlk
  split
  · rename_i h2
    have hx : h ≠ x := fun heq => hcnt heq h2
    simp only [Function.update_of_ne hx]
    exact hs
  · exact hs

theorem pruneLoop_within {D : Hash → Prop} (hD : ∀ c p, D c → p ∈ s.tree.parentsOf c → D p)
    (hcnt : Counted getCnt) {h : Hash} (hrefers : ∀ v, Within D s v → v.Refers h)
    (hstored : (s.storage.blkCache h).isSome = true) {fuel : ℕ} {stack : List Hash}
    (hstack : ∀ x ∈ stack, D x) (hrun : pruneLoop getCnt fuel s stack = some u) :
    Within D s u ∧ (u.storage.blkCache h).isSome = true := by
  have hinv := pruneLoop_invariant (I := fun v stack => Within D s v ∧ (∀ x ∈ stack, D x) ∧
    (v.storage.blkCache h).isSome = true) ?_ ?_ ⟨.refl D s, hstack, hstored⟩ hrun
  · exact ⟨hinv.1, hinv.2.2⟩
  · rintro v blk stack ⟨hw, hst, hs⟩
    refine ⟨hw.trans (.release (hst blk (List.mem_cons_self ..)) _), ?_, ?_⟩
    · exact fun x hx => hst x (List.mem_cons_of_mem _ hx)
    · refine releaseBlk_stored ?_ hs
      rintro rfl
      exact hcnt.refers v stack h (hrefers v hw)
  · rintro v blk stack p ⟨hw, hst, hs⟩ hp
    have hblk := hst blk (List.mem_cons_self ..)
    refine ⟨hw.trans (.modify hblk (fun _ => rfl) fun b => List.dropLast_subset _), ?_,
      (modifyBlk_stored _ blk h).trans hs⟩
    intro x hx
    rcases List.mem_cons.mp hx with rfl | hx
    · exact hD blk x hblk (hw.parents blk x hp)
    · exact hst x hx

theorem Within.refers {D : Hash → Prop} (hw : Within D s u) {h : Hash}
    (hh : h = s.bExec ∨ ∃ x, ¬D x ∧ h ∈ s.tree.parentsOf x) : u.Refers h := by
  rcases hh with rfl | ⟨x, hx, hmem⟩
  · obtain ⟨cache, rfl⟩ := hw.rest
    exact Or.inl (by simp)
  · obtain ⟨blk, hb, hp⟩ := exists_of_parentsOf hmem
    exact Or.inr (Or.inr ⟨x, blk, (hw.others x hx).trans hb, Or.inl hp⟩)

namespace DeliveredGraph
variable (g : s.DeliveredGraph)
include g

theorem below_delivered {a x : Hash} (ha : s.delivered a = true)
    (h : Below s.tree.parentsOf a x) : s.delivered x = true := by
  unfold Below at h
  induction h with
  | refl => exact ha
  | tail _ hp ih => exact g.parents _ ih _ hp

theorem not_below_child {start x p : Hash} (hx : s.delivered x = true)
    (hp : p ∈ s.tree.parentsOf x) (h : Below s.tree.parentsOf p start) :
    ¬Below s.tree.parentsOf start x := by
  intro hb
  exact not_below_of_acc (g.acyclic x hx) hp (Relation.ReflTransGen.trans h hb)

theorem ancestor_delivered {k : ℕ} {h x : Hash} (hd : s.delivered h = true)
    (hx : s.ancestor k h = some x) : s.delivered x = true := by
  induction k generalizing x with
  | zero =>
    cases hx
    exact hd
  | succ k ih =>
    rw [ancestor_succ] at hx
    obtain ⟨y, hy, hp⟩ := Option.bind_eq_some_iff.mp hx
    exact g.parents y (ih hy) x (Tree.mem_parentsOf_of_parent0 hp)

/-- The block that `prune` starts from is `b_exec`, or a block above it refers to it. -/
theorem start_referred {k : ℕ} {start : Hash} (h : s.ancestor k s.bExec = some start) :
    start = s.bExec ∨
      ∃ x, ¬Below s.tree.parentsOf start x ∧ start ∈ s.tree.parentsOf x := by
  cases k with
  | zero =>
    cases h
    exact Or.inl rfl
  | succ k =>
    rw [ancestor_succ] at h
    obtain ⟨x, hx, hp⟩ := Option.bind_eq_some_iff.mp h
    have hmem := Tree.mem_parentsOf_of_parent0 hp
    exact Or.inr ⟨x, g.not_below_child (g.ancestor_delivered g.exec hx) hmem (.refl start), hmem⟩

end DeliveredGraph

theorem below_of_anc {a b : Hash} (h : Anc s.parent0 a b) : Below s.tree.parentsOf b a := by
  unfold Anc at h
  induction h with
  | refl => exact .refl b
  | tail _ hp ih => exact ih.next (Tree.mem_parentsOf_of_parent0 hp)

theorem of_same_cache {h : Hash} (heq : u.storage.blkCache h = s.storage.blkCache h) :
    u.parent0 h = s.parent0 h ∧ u.height h = s.height h := by
  have htree : u.tree h = s.tree h := by
    unfold tree
    rw [heq]
  unfold parent0 height Tree.parent0 Tree.height
  rw [htree]
  exact ⟨rfl, rfl⟩

theorem DeliveredGraph.walk_pruned (g : s.DeliveredGraph) {start d : Hash}
    (hd : s.delivered d = true) (hanc : Anc s.parent0 start d)
    (hothers : ∀ h, ¬Below s.tree.parentsOf start h →
      u.storage.blkCache h = s.storage.blkCache h) (hheight : u.height start = s.height start) :
    ∃ visited, u.walk (u.height start) d = some (visited, start) := by
  suffices hwalk : u.height d = s.height d ∧ u.height start ≤ u.height d ∧
      ∃ visited, u.walk (u.height start) d = some (visited, start) from hwalk.2.2
  unfold Anc at hanc
  induction hanc using Relation.ReflTransGen.head_induction_on with
  | refl => exact ⟨hheight, le_refl _, [], walk_stop (le_refl _)⟩
  | @head d p hp htail ih =>
    have hmem := Tree.mem_parentsOf_of_parent0 hp
    obtain ⟨hsame, hle, visited, hw⟩ := ih (g.parents d hd p hmem)
    have hnot := g.not_below_child hd hmem (below_of_anc htail)
    obtain ⟨hparent, hdh⟩ := of_same_cache (hothers d hnot)
    have hstep : u.height d = u.height p + 1 := by
      rw [hdh, hsame]
      exact g.height d p hd hp
    refine ⟨hdh, by omega, d :: visited, ?_⟩
    unfold walk at hw ⊢
    rw [hstep]
    unfold Ancestry.walk
    rw [if_neg (by omega), hparent, hp, Option.bind_some, hw]
    rfl

/-- Every state that calls on the core lead to is such a graph: the parents of a block are
delivered before it. -/
theorem deliveredGraph_of_reach {C : Crypto} {c : Setup}
    (h : Runs.Reach (fun _ _ => True) (call C) c.start s) : s.DeliveredGraph := by
  have hinv : s.ledger.Chained ∧ s.tree.Founded := by
    refine h.invariant (fun u => u.ledger.Chained ∧ u.tree.Founded) ⟨c.start_chained, ?_⟩ ?_
    · intro x hx
      refine Acc.intro x ?_
      intro p hp
      obtain ⟨blk, hblk, hmem⟩ := exists_of_parentsOf hp
      by_cases hx0 : x = b0
      · subst x
        cases hblk
        cases hmem
      · rw [start_cache c hx0] at hblk
        cases hblk
    · rintro u a ⟨hc, hf⟩ -
      obtain ⟨G, hsteps⟩ := call_steps (C := C) hc.wf a
      refine hsteps.invariant (I := fun L => L.Chained ∧ L.tree.Founded) ⟨hc, hf⟩ ?_
      rintro L M hstep ⟨hL, hLf⟩
      refine ⟨hstep.chained hL, hLf.grow hL.wf hstep.grows ?_⟩
      exact fun x hx => (hstep.newly_linked hx).imp_right And.right
  obtain ⟨hc, hf⟩ := hinv
  refine ⟨hc.exec, ?_, ?_, hf⟩
  · intro x _ p hp
    obtain ⟨n, hn, hmem⟩ := Tree.exists_of_parentsOf hp
    exact hc.wf.parents x n hn p hmem
  · intro x p hx hp
    exact (hc.wf.ranked.parent_spec hx hp).2

/-- `prune` ends. Either the chain is too short and nothing happens, or the blocks from
`start` down lose their parents and nothing else changes. -/
theorem prune_drops_old_links (g : s.DeliveredGraph) (hcnt : Counted getCnt) (staleness : ℕ) :
    ∃ u, (∃ n, ∀ fuel, n ≤ fuel → s.prune getCnt fuel staleness = some u) ∧
      (s.ancestor staleness s.bExec = none → u = s) ∧
      ∀ start, s.ancestor staleness s.bExec = some start → s.Pruned start u := by
  unfold prune
  rw [pruneStart_eq_ancestor]
  cases hstart : s.ancestor staleness s.bExec with
  | none =>
    refine ⟨s, ⟨0, fun _ _ => rfl⟩, fun _ => rfl, ?_⟩
    intro start h
    cases h
  | some start =>
    simp only []
    have hdel := g.ancestor_delivered g.exec hstart
    generalize hv : (s.modifyBlk start fun b => { b with qcRef := none }) = v
    have hparents : v.tree.parentsOf = s.tree.parentsOf := by
      rw [← hv, s.tree_modifyBlk start _ (fun n => { n with qcRef := none }) fun _ => rfl]
      funext x
      unfold Tree.parentsOf
      by_cases hx : x = start
      · subst x
        rw [Function.update_self, Option.map_map]
        rfl
      · rw [Function.update_of_ne hx]
    have hmod : Within (Below s.tree.parentsOf start) s v := by
      rw [← hv]
      exact .modify (.refl start) (fun _ => rfl) fun _ => List.Subset.refl _
    have hstored : (v.storage.blkCache start).isSome = true := by
      obtain ⟨n, hn, -⟩ := Tree.exists_of_delivered hdel
      obtain ⟨blk, hblk, -⟩ := s.cache_of_tree hn
      rw [← hv, modifyBlk_stored, hblk]
      rfl
    obtain ⟨n, hn⟩ := sweep_eq_swept (g.acyclic start hdel)
    obtain ⟨u, hrun, hswept⟩ : ∃ u, pruneLoop getCnt n v [start] = some u ∧
        u.tree.parentsOf = swept s.tree.parentsOf start := by
      have hsim : (pruneLoop getCnt n v [start]).map _ = _ := pruneLoop_sweep n v [start]
      rw [hparents, hn n (Nat.le_refl n)] at hsim
      exact Option.map_eq_some_iff.mp hsim
    obtain ⟨hloop, hkept⟩ := pruneLoop_within (fun c p hc hp => hc.next (hparents ▸ hp)) hcnt
      (fun w hw => (hmod.trans hw).refers (g.start_referred hstart)) hstored
      (fun x hx => List.mem_singleton.mp hx ▸ .refl start) hrun
    have hw := hmod.trans hloop
    refine ⟨u, ⟨n, fun fuel hle => pruneLoop_mono hle hrun⟩, (fun h => nomatch h), ?_⟩
    rintro _ ⟨⟩
    have hheight : u.height start = s.height start := by
      obtain ⟨blk, hblk⟩ := Option.isSome_iff_exists.mp hkept
      obtain ⟨blk', hblk', hh⟩ := hw.height start blk hblk
      exact (Tree.height_of (u.tree_of_cache hblk)).trans
        (hh.trans (Tree.height_of (s.tree_of_cache hblk')).symm)
    refine ⟨?_, hkept, hw.others, hw.rest,
      fun d hd hanc => g.walk_pruned hd hanc hw.others hheight⟩
    intro h hbelow blk hblk
    rw [← parentsOf_of_cache hblk, hswept]
    exact if_pos hbelow

/-- Block 3 has the parents 1 and 2, which share their parent; the blocks on it commit it. -/
def uncles : List CacheCall :=
  ([.sample b0 b0 7 [], .sample b0 b0 8 [0], ⟨[1, 2], [9], [1], [2], .sample 1, []⟩,
    .sample 3 3 10 [], .sample 7 7 11 [], .sample 15 15 12 []] : List Body).flatMap fun b =>
      [.op (.addBlk b), .op (.deliverBlk (Crypto.sample.getHash b)),
        .update (Crypto.sample.getHash b)]

/-- Pruning from block 3 itself: a block that nothing in the core refers to has the count 2. -/
theorem prune_drops_old_links_uncles :
    let s := Runs.run (call .sample) (Setup.four 0).start uncles
    let getCnt := fun (s : Replica) (_ : List Hash) (h : Hash) =>
      @ite ℕ (s.Refers h) (Classical.propDecidable _) 3 2
    s.bExec = 3 ∧ s.tree.parentsOf 3 = [1, 2] ∧ s.tree.parentsOf 1 = s.tree.parentsOf 2 ∧
      ∃ u, (∃ n, ∀ fuel, n ≤ fuel → s.prune getCnt fuel 0 = some u) ∧ s.Pruned 3 u := by
  intro s getCnt
  have hexec : s.bExec = 3 := by decide +kernel
  have hgraph : s.DeliveredGraph := deliveredGraph_of_reach
    (Runs.reach_run uncles .init (Runs.admitted_of_mem _ fun _ _ _ => trivial))
  have hcnt : Counted getCnt := by
    constructor
    intro s stack h hr
    simp only [getCnt, if_pos hr]
    decide
  obtain ⟨u, hend, -, hpruned⟩ := prune_drops_old_links hgraph hcnt 0
  exact ⟨hexec, by decide +kernel, by decide +kernel, u, hend, hpruned 3 (congrArg some hexec)⟩

end Replica

end AvaHotstuff
