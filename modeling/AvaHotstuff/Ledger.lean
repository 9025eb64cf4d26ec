import AvaHotstuff.BlockTree

set_option autoImplicit false

/-!
# The ledger of a replica

What commits, votes and executions depend on: the block tree, the positions of
the core, the completed heights with their timers, and the events that concern
them. Every handler acts on the ledger through a few steps.
-/
namespace AvaHotstuff
open Ancestry

def Event.onLedger : Event → Bool
  | .updated _ | .opinion _ _ | .vote _ | .consensus _ | .execute _ _ | .decide _ _ _
  | .lcomplain _ _ | .rcomplain _ => true
  | _ => false

structure Ledger where
  rid : ReplicaID
  tree : Tree
  cidBlkhash : ℕ → Option Hash
  bLock : Hash
  bExec : Hash
  vheight : ℕ
  finishedMcCids : Finset ℕ
  finishedUpdateCids : Finset ℕ
  timer : ℕ → Option Timer
  log : List Event

def Replica.ledger (s : Replica) : Ledger where
  rid := s.id
  tree := s.tree
  cidBlkhash := s.storage.cidBlkhash
  bLock := s.bLock
  bExec := s.bExec
  vheight := s.vheight
  finishedMcCids := s.mc.finishedMcCids
  finishedUpdateCids := s.mc.finishedUpdateCids
  timer := s.mc.cidToRemoteViewChangeTimer
  log := s.trace.filter Event.onLedger

/-- The calls `do_decide` makes for one block. -/
def BlockNode.decides (n : BlockNode) (h : Hash) (rid : ReplicaID) : List Event :=
  .execute n.height h :: (List.range n.body.cmds.length).map fun i =>
    .decide ⟨rid, 1, i, n.height, n.body.cmds.getD i 0, h⟩
      (n.body.keys.getD i 0) (n.body.vals.getD i 0)

namespace Ledger

def record (L : Ledger) (es : List Event) : Ledger := { L with log := L.log ++ es }

def runBlk (L : Ledger) (h : Hash) : List Event := ((L.tree h).map (·.decides h L.rid)).getD []

def put (L : Ledger) (h : Hash) (n : BlockNode) : Ledger :=
  { L with tree := Function.update L.tree h (some n) }

def deliver (L : Ledger) (h : Hash) (n : BlockNode) : Ledger :=
  { L.put h n with
    cidBlkhash :=
      if (L.cidBlkhash n.height).isSome then L.cidBlkhash
      else Function.update L.cidBlkhash n.height (some h) }

/-- Commit one block, and execute it when its height is already complete. -/
def advance (L : Ledger) (h : Hash) (n : BlockNode) : Ledger :=
  { L with
    tree := Function.update L.tree h (some { n with decision := true })
    bExec := h
    finishedUpdateCids := insert n.height L.finishedUpdateCids
    timer := Function.update L.timer n.height
      (if n.height ∈ L.finishedMcCids then none else some ⟨h, true⟩)
    log := L.log ++ .consensus h ::
      (if n.height ∈ L.finishedMcCids then n.decides h L.rid else []) }

/-- Complete one height, and execute the block found for it when it was committed. -/
def finishMc (L : Ledger) (cid : ℕ) : Ledger :=
  match L.cidBlkhash cid with
  | none => { L with finishedMcCids := insert cid L.finishedMcCids }
  | some h =>
    if cid ∈ L.finishedUpdateCids then
      { L with
        finishedMcCids := insert cid L.finishedMcCids
        timer := Function.update L.timer cid none
        log := L.log ++ L.runBlk h }
    else { L with finishedMcCids := insert cid L.finishedMcCids }

/-- Raise `vheight` to a block, under the lock held at that time. -/
def opine (L : Ledger) (h : Hash) : Ledger :=
  ({ L with vheight := L.tree.height h } : Ledger).record [.opinion h L.bLock]

def deliveredNode (m : BlockNode) (parentHeight : ℕ) : BlockNode :=
  { m with
    parents := m.body.parentHashes
    height := parentHeight + 1
    qcRef := some m.body.qc.objHash
    delivered := true }

/-- What the call at hand may do: which blocks it stores and delivers, which heights it
completes, which blocks it may find worth a vote, and which it complains about. -/
structure Guard where
  store : Hash → Prop
  deliver : Hash → Prop
  complete : Ledger → ℕ → Prop
  opine : Ledger → Hash → Prop
  complain : Hash → Prop

def Guard.any : Guard :=
  ⟨fun _ => True, fun _ => True, fun _ _ => True, fun _ _ => True, fun _ => True⟩

def Guard.none : Guard :=
  ⟨fun _ => False, fun _ => False, fun _ _ => False, fun _ _ => False, fun _ => False⟩

def Guard.growth : Guard := { Guard.none with store := fun _ => True, deliver := fun _ => True }

/-- The events recorded on their own. A vote follows its opinion. -/
def Note (G : Guard) (L : Ledger) : Event → Prop
  | .updated _ => True
  | .vote h => ∃ l, Event.opinion h l ∈ L.log
  | .lcomplain c _ => G.complain c.cert.objHash
  | .rcomplain c => G.complain c.cert.objHash
  | _ => False

inductive Step (G : Guard) : Ledger → Ledger → Prop where
  | store {L : Ledger} {h : Hash} {n : BlockNode} (absent : L.tree h = none)
      (hd : n.delivered = false) (hdec : n.decision = false)
      (parents : ∀ p ∈ n.parents, L.tree.delivered p = true) (hG : G.store h) :
      Step G L (L.put h n)
  | link {L : Ledger} {h : Hash} {m : BlockNode} {parents : List Hash} {height : ℕ}
      (stored : L.tree h = some m) (hd : m.delivered = false)
      (hp : ∀ p ∈ parents, L.tree.delivered p = true) :
      Step G L (L.put h { m with parents := parents, height := height })
  | deliver {L : Ledger} {h p : Hash} {m : BlockNode} (stored : L.tree h = some m)
      (hd : m.delivered = false) (head : m.body.parentHashes.head? = some p)
      (parents : ∀ p ∈ m.body.parentHashes, L.tree.delivered p = true)
      (qc : (L.tree m.body.qc.objHash).isSome = true) (hG : G.deliver h) :
      Step G L (L.deliver h (deliveredNode m (L.tree.height p)))
  | lock {L : Ledger} (b : Hash) : Step G L { L with bLock := b }
  | opine {L : Ledger} {h : Hash} (hv : L.vheight < L.tree.height h) (hG : G.opine L h) :
      Step G L (L.opine h)
  | note {L : Ledger} {e : Event} (he : Note G L e) : Step G L (L.record [e])
  | advance {L : Ledger} {h : Hash} {n : BlockNode} (stored : L.tree h = some n)
      (hd : n.delivered = true) (hp : L.tree.parent0 h = some L.bExec) : Step G L (L.advance h n)
  | finishMc {L : Ledger} {cid : ℕ} (hc : cid ∉ L.finishedMcCids) (hG : G.complete L cid) :
      Step G L (L.finishMc cid)
  | disarm {L : Ledger} {cid : ℕ} {t : Timer} (ht : L.timer cid = some t) :
      Step G L { L with timer := Function.update L.timer cid (some { t with armed := false }) }

def Steps (G : Guard) : Ledger → Ledger → Prop := Relation.ReflTransGen (Step G)

variable {G : Guard}

theorem Steps.refl (L : Ledger) : Steps G L L := Relation.ReflTransGen.refl

theorem Steps.trans {L M N : Ledger} (h : Steps G L M) (h' : Steps G M N) : Steps G L N :=
  Relation.ReflTransGen.trans h h'

theorem Step.steps {L M : Ledger} (h : Step G L M) : Steps G L M := Relation.ReflTransGen.single h

theorem Steps.of_eq {L M : Ledger} (h : M = L) : Steps G L M := by
  rw [h]
  exact .refl L

theorem Steps.invariant {I : Ledger → Prop} {L M : Ledger} (h : Steps G L M) (hL : I L)
    (hstep : ∀ L M, Step G L M → I L → I M) : I M := by
  unfold Steps at h
  induction h with
  | refl => exact hL
  | tail _ hs ih => exact hstep _ _ hs ih

def Advances : Ledger → Ledger → Prop :=
  Relation.ReflTransGen fun L M => ∃ h n, L.tree h = some n ∧ n.delivered = true ∧
    L.tree.parent0 h = some L.bExec ∧ M = L.advance h n

theorem Advances.steps {L M : Ledger} (h : Advances L M) : Steps G L M := by
  unfold Advances at h
  induction h with
  | refl => exact .refl L
  | tail _ hs ih =>
    obtain ⟨x, n, stored, hd, hp, rfl⟩ := hs
    exact ih.trans (Step.advance stored hd hp).steps

@[simp] theorem record_log (L : Ledger) (es : List Event) :
    (L.record es).log = L.log ++ es := rfl

theorem record_nil (L : Ledger) : L.record [] = L := by
  unfold record
  rw [List.append_nil]

theorem record_record (L : Ledger) (es fs : List Event) :
    (L.record es).record fs = L.record (es ++ fs) := by
  unfold record
  rw [List.append_assoc]

theorem Step.grows {L M : Ledger} (h : Step G L M) : Tree.Grows L.tree M.tree := by
  cases h with
  | @store h n absent =>
    refine Tree.Grows.update_fresh ?_ (by simp [Tree.delivered, absent])
    intro m hm
    rw [absent] at hm
    exact absurd hm (by simp)
  | @link h m parents height stored hd =>
    refine Tree.Grows.update_fresh ?_ (by rw [Tree.delivered_of stored, hd])
    intro m' hm
    obtain rfl : m = m' := Option.some.inj (stored.symm.trans hm)
    rfl
  | @deliver h p m stored hd =>
    refine Tree.Grows.update_fresh ?_ (by rw [Tree.delivered_of stored, hd])
    intro m' hm
    obtain rfl : m = m' := Option.some.inj (stored.symm.trans hm)
    rfl
  | lock => exact .refl _
  | opine => exact .refl _
  | note => exact .refl _
  | advance stored => exact Tree.Grows.update_decision stored true
  | @finishMc cid =>
    unfold Ledger.finishMc
    split
    · exact .refl _
    · split <;> exact .refl _
  | disarm => exact .refl _

theorem Step.wf {L M : Ledger} (h : Step G L M) (w : L.tree.Wf) : M.tree.Wf := by
  have g := h.grows
  cases h with
  | @store h n _ hd _ hp =>
    refine w.update g hp ?_
    intro hnd
    rw [hd] at hnd
    exact absurd hnd (by simp)
  | @link h m parents height _ hd hp =>
    refine w.update g hp ?_
    intro hnd
    exact absurd (hd.symm.trans hnd) (by simp)
  | @deliver h p m stored hd head parents qc =>
    refine w.update g parents ?_
    intro _ _
    exact ⟨rfl, ⟨p, head, rfl⟩, rfl, qc⟩
  | lock => exact w
  | opine => exact w
  | note => exact w
  | @advance h n stored hd _ =>
    refine w.update g (w.parents h n stored) ?_
    intro _ h0
    obtain ⟨hp, hh, hq, hs⟩ := w.linked h n stored hd h0
    exact ⟨hp, hh, hq, hs⟩
  | @finishMc cid =>
    unfold Ledger.finishMc
    split
    · exact w
    · split <;> exact w
  | disarm => exact w

theorem Steps.grows {L M : Ledger} (h : Steps G L M) : Tree.Grows L.tree M.tree :=
  h.invariant (I := fun N => Tree.Grows L.tree N.tree) (.refl _) fun _ _ hs hg => hg.trans hs.grows

theorem Steps.wf {L M : Ledger} (h : Steps G L M) (w : L.tree.Wf) : M.tree.Wf :=
  h.invariant (I := fun N => N.tree.Wf) w fun _ _ hs => hs.wf

theorem Step.stored {L M : Ledger} (hs : Step G L M) {h : Hash} (hM : (M.tree h).isSome = true) :
    (L.tree h).isSome = true ∨ G.store h := by
  have hupd : ∀ x n, (Function.update L.tree x (some n) h).isSome = true →
      h = x ∨ (L.tree h).isSome = true := by
    intro x n hn
    by_cases hx : h = x
    · exact .inl hx
    · rw [Function.update_of_ne hx] at hn
      exact .inr hn
  have hput : ∀ x m, L.tree x = some m → ∀ n,
      (Function.update L.tree x (some n) h).isSome = true → (L.tree h).isSome = true := by
    intro x m hm n hn
    rcases hupd x n hn with rfl | hsome
    · rw [hm]
      rfl
    · exact hsome
  cases hs with
  | @store x n absent hd hdec hp hG =>
    rcases hupd x n hM with rfl | hsome
    · exact .inr hG
    · exact .inl hsome
  | link stored => exact .inl (hput _ _ stored _ hM)
  | deliver stored => exact .inl (hput _ _ stored _ hM)
  | advance stored => exact .inl (hput _ _ stored _ hM)
  | @finishMc cid =>
    refine .inl ?_
    unfold Ledger.finishMc at hM
    split at hM
    · exact hM
    · split at hM <;> exact hM
  | _ => exact .inl hM

theorem Steps.stored {L M : Ledger} (hs : Steps G L M) {h : Hash}
    (hM : (M.tree h).isSome = true) : (L.tree h).isSome = true ∨ G.store h := by
  refine hs.invariant (I := fun N => (N.tree h).isSome = true →
    (L.tree h).isSome = true ∨ G.store h) .inl ?_ hM
  intro N N' hstep ih hN'
  rcases hstep.stored hN' with h | h
  · exact ih h
  · exact .inr h

theorem Steps.body_before {L M : Ledger} (hs : Steps G L M) {h : Hash} (hG : ¬G.store h)
    {n : BlockNode} (hn : M.tree h = some n) : ∃ m, L.tree h = some m ∧ m.body = n.body := by
  have hsome : (M.tree h).isSome = true := by
    rw [hn]
    rfl
  obtain ⟨m, hm⟩ := Option.isSome_iff_exists.mp ((hs.stored hsome).resolve_right hG)
  obtain ⟨n', hn', hbody, -⟩ := hs.grows.keep h m hm
  obtain rfl : n' = n := Option.some.inj (hn'.symm.trans hn)
  exact ⟨m, hm, hbody.symm⟩

theorem delivered_update (t : Tree) (h x : Hash) (n : BlockNode) :
    Tree.delivered (Function.update t h (some n)) x =
      if x = h then n.delivered else t.delivered x := by
  by_cases hx : x = h
  · subst x
    simp [Tree.delivered]
  · simp [Tree.delivered, hx]

theorem put_delivered {L : Ledger} {h x : Hash} {n : BlockNode} (hn : n.delivered = false)
    (hx : (L.put h n).tree.delivered x = true) : L.tree.delivered x = true := by
  unfold put at hx
  simp only [] at hx
  rw [delivered_update] at hx
  split at hx
  · rw [hn] at hx
    exact absurd hx (by simp)
  · exact hx

theorem Step.newly_linked {L M : Ledger} (hs : Step G L M) {h : Hash}
    (hd : M.tree.delivered h = true) : L.tree.delivered h = true ∨
      (G.deliver h ∧ ∀ n, M.tree h = some n → ∀ p ∈ n.parents, L.tree.delivered p = true) := by
  cases hs with
  | @store x n absent hnd => exact .inl (put_delivered hnd hd)
  | @link x m parents height stored hnd =>
    refine .inl (put_delivered ?_ hd)
    exact hnd
  | @deliver x p m stored hnd head parents qc hG =>
    by_cases hx : h = x
    · subst h
      refine .inr ⟨hG, ?_⟩
      intro n hn
      unfold Ledger.deliver put at hn
      simp only [Function.update_self] at hn
      cases hn
      exact parents
    · unfold Ledger.deliver put Tree.delivered at hd
      simp only [Function.update_of_ne hx] at hd
      exact .inl hd
  | @advance x n stored hnd =>
    by_cases hx : h = x
    · rw [hx, Tree.delivered_of stored]
      exact .inl hnd
    · unfold Ledger.advance Tree.delivered at hd
      simp only [Function.update_of_ne hx] at hd
      exact .inl hd
  | @finishMc cid =>
    refine .inl ?_
    unfold Ledger.finishMc at hd
    split at hd
    · exact hd
    · split at hd <;> exact hd
  | _ => exact .inl hd

theorem Step.newly_delivered {L M : Ledger} (hs : Step G L M) {h : Hash}
    (hd : M.tree.delivered h = true) : L.tree.delivered h = true ∨ G.deliver h :=
  (hs.newly_linked hd).imp_right And.left

theorem Steps.newly_delivered {L M : Ledger} (hs : Steps G L M) {h : Hash}
    (hd : M.tree.delivered h = true) : L.tree.delivered h = true ∨ G.deliver h := by
  refine hs.invariant (I := fun N => N.tree.delivered h = true →
    L.tree.delivered h = true ∨ G.deliver h) .inl ?_ hd
  intro N N' hstep ih hN'
  rcases hstep.newly_delivered hN' with h | h
  · exact ih h
  · exact .inr h

theorem Step.rid {L M : Ledger} (hs : Step G L M) : M.rid = L.rid := by
  cases hs with
  | @finishMc cid =>
    unfold Ledger.finishMc
    split
    · rfl
    · split <;> rfl
  | _ => rfl

theorem Steps.rid {L M : Ledger} (hs : Steps G L M) : M.rid = L.rid :=
  hs.invariant (I := fun N => N.rid = L.rid) rfl fun _ _ hstep ih => hstep.rid.trans ih

end Ledger

end AvaHotstuff
