import AvaHotstuff.TwoStep
import AvaHotstuff.CommitLog

set_option autoImplicit false

namespace AvaHotstuff
open Ancestry

namespace Ledger

theorem Step.log_prefix {G : Guard} {L M : Ledger} (h : Step G L M) : L.log <+: M.log := by
  cases h with
  | store => exact List.prefix_rfl
  | link => exact List.prefix_rfl
  | deliver => exact List.prefix_rfl
  | lock => exact List.prefix_rfl
  | opine => exact List.prefix_append _ _
  | note => exact List.prefix_append _ _
  | advance => exact List.prefix_append _ _
  | @finishMc cid =>
    unfold Ledger.finishMc
    split
    · exact List.prefix_rfl
    · split
      · exact List.prefix_append _ _
      · exact List.prefix_rfl
  | disarm => exact List.prefix_rfl

theorem Steps.log_prefix {G : Guard} {L M : Ledger} (h : Steps G L M) : L.log <+: M.log :=
  h.invariant (I := fun M => L.log <+: M.log) List.prefix_rfl
    fun _ _ hs hp => hp.trans hs.log_prefix

end Ledger

def BlockNode.content (n : BlockNode) : List Hash × List ℤ × List ℤ :=
  (n.body.cmds, n.body.keys, n.body.vals)

namespace Replica

/-- The blocks that the replica has committed, oldest first. -/
def committed (r : Replica) : List Hash := consensusBlks r.trace

def batches (r : Replica) : List (List Hash × List ℤ × List ℤ) :=
  r.committed.filterMap fun h => (r.tree h).map BlockNode.content

theorem committed_eq (r : Replica) : r.committed = consensusBlks r.ledger.log :=
  (consensusBlks_filter r.trace).symm

theorem batches_prefix {r u : Replica} (h : r.committed <+: u.committed)
    (hbody : ∀ x ∈ r.committed,
      (r.tree x).map BlockNode.content = (u.tree x).map BlockNode.content) :
    r.batches <+: u.batches := by
  unfold batches
  rw [List.filterMap_congr hbody]
  exact h.filterMap _

end Replica

/-- `HOTSTUFF_TWO_STEP` is defined or not. -/
inductive Build where
  | threeStep
  | twoStep

def Build.update : Build → Replica → Hash → Outcome
  | .threeStep => Replica.update
  | .twoStep => TwoStep.update

namespace Cluster
variable {n : ℕ} {C : Crypto} {byz : Finset (Fin n)} {s t : Cluster n} {i j : Fin n}

section
variable {update : Replica → Hash → Outcome}

theorem stepWith_steps (hu : ∀ G, Replica.Updates update G) (hw : ∀ i, (s i).tree.Wf)
    (a : Fin n × Op) (i : Fin n) :
    ∃ G, Ledger.Steps G (s i).ledger (stepWith update C s a i).ledger := by
  unfold stepWith
  by_cases hi : i = a.1
  · subst hi
    rw [Function.update_self]
    exact ⟨_, Replica.execWith_steps C (hw _) a.2 (hu _)⟩
  · rw [Function.update_of_ne hi]
    exact ⟨.any, .refl _⟩

theorem stepWith_chained (hu : ∀ G, Replica.Updates update G)
    (h : ∀ i, (s i).ledger.Chained) (a : Fin n × Op) (i : Fin n) :
    (stepWith update C s a i).ledger.Chained := by
  obtain ⟨G, hsteps⟩ := stepWith_steps hu (fun i => (h i).wf) a i
  exact hsteps.invariant (h i) fun _ _ hstep => hstep.chained

theorem chained_of_reach (hu : ∀ G, Replica.Updates update G) {c : Fin n → Setup}
    (h : Runs.Reach (CoreStepWith update C byz) (stepWith update C) (start c) s) :
    ∀ i, (s i).ledger.Chained :=
  h.invariant (fun s => ∀ i, (s i).ledger.Chained) (fun _ => Setup.start_chained _)
    fun _ a hs _ => stepWith_chained hu hs a

structure Follows (s t : Cluster n) : Prop where
  committed : ∀ i, (s i).committed <+: (t i).committed
  grows : ∀ i, Tree.Grows (s i).tree (t i).tree

theorem follows_of_reach (hu : ∀ G, Replica.Updates update G) (hs : ∀ i, (s i).ledger.Chained)
    (h : Runs.Reach (CoreStepWith update C byz) (stepWith update C) s t) :
    (∀ i, (t i).ledger.Chained) ∧ Follows s t := by
  refine h.invariant (fun t => (∀ i, (t i).ledger.Chained) ∧ Follows s t)
    ⟨hs, fun _ => List.prefix_rfl, fun _ => .refl _⟩ ?_
  rintro t a ⟨ht, hfollows⟩ -
  refine ⟨stepWith_chained hu ht a, fun i => ?_, fun i => ?_⟩
  · obtain ⟨G, hsteps⟩ := stepWith_steps (C := C) hu (fun i => (ht i).wf) a i
    refine (hfollows.committed i).trans ?_
    rw [Replica.committed_eq, Replica.committed_eq]
    exact hsteps.log_prefix.filterMap _
  · obtain ⟨G, hsteps⟩ := stepWith_steps (C := C) hu (fun i => (ht i).wf) a i
    exact (hfollows.grows i).trans hsteps.grows

end

/-- A replica that executes an ancestor has the shorter log. -/
theorem Voters.committed_prefix (T : Voters byz s) (hc : ∀ i, (s i).ledger.Chained)
    (hi : i ∉ byz) (hj : j ∉ byz) (h : Anc (s j).parent0 (s i).bExec (s j).bExec) :
    (s i).committed <+: (s j).committed := by
  have hpath : ∀ k, k ∉ byz →
      Seg (ballots byz s).parent b0 (s k).committed.reverse (s k).bExec := by
    intro k hk
    have hseg := (hc k).path
    rw [← Replica.committed_eq] at hseg
    refine hseg.of_agree fun x hx => ?_
    exact (T.ballots_eq hk ((T.wf hk).ranked.seg_dom (hc k).exec hseg x hx)).1
  have hanc : Anc (ballots byz s).parent (s i).bExec (s j).bExec := (T.anc hj (hc j).exec).mpr h
  exact List.reverse_suffix.mp ((T.ranked ⟨i, hi⟩).seg_suffix (hpath i hi) (hpath j hj) hanc)

theorem committed_stored (hs : (s i).ledger.Chained) {x : Hash} (hx : x ∈ (s i).committed) :
    ∃ m, (s i).tree x = some m := by
  rw [Replica.committed_eq] at hx
  obtain ⟨m, hm, -⟩ := Tree.exists_of_delivered (hs.committed_delivered hx)
  exact ⟨m, hm⟩

theorem content_eq (hfree : CollisionFree byz t) (hgrows : Tree.Grows (s i).tree (t i).tree)
    (hi : i ∉ byz) (hj : j ∉ byz) {x : Hash} {m m' : BlockNode} (hm : (s i).tree x = some m)
    (hm' : (t j).tree x = some m') : m.content = m'.content := by
  obtain ⟨k, hk, hbody, -⟩ := hgrows.keep x m hm
  obtain ⟨b, hb, rfl⟩ := (t i).cache_of_tree hk
  obtain ⟨b', hb', rfl⟩ := (t j).cache_of_tree hm'
  unfold BlockNode.content
  rw [← hbody, hfree i j hi hj x b b' hb hb']

theorem batches_of_committed (hfree : CollisionFree byz t) (hs : ∀ i, (s i).ledger.Chained)
    (ht : ∀ i, (t i).ledger.Chained) (hfollows : Follows s t) (hi : i ∉ byz) (hj : j ∉ byz)
    (h : (s i).committed <+: (t j).committed ∨ (t j).committed <+: (s i).committed) :
    (s i).batches <+: (t j).batches ∨ (t j).batches <+: (s i).batches := by
  have hsame : ∀ x, x ∈ (s i).committed → x ∈ (t j).committed →
      ((s i).tree x).map BlockNode.content = ((t j).tree x).map BlockNode.content := by
    intro x hx hx'
    obtain ⟨m, hm⟩ := committed_stored (hs i) hx
    obtain ⟨m', hm'⟩ := committed_stored (ht j) hx'
    rw [hm, hm', Option.map_some, Option.map_some,
      content_eq hfree (hfollows.grows i) hi hj hm hm']
  rcases h with h | h
  · exact .inl (Replica.batches_prefix h fun x hx => hsame x hx (h.subset hx))
  · exact .inr (Replica.batches_prefix h fun x hx => (hsame x (h.subset hx) hx).symm)

/-- What the builds have in common once their votes are safe. -/
theorem voters_of_reach (B : Build) (hn : 0 < n) (hbyz : byz.card ≤ Quorum.maxFaulty n)
    {c : Fin n → Setup} (h : Runs.Reach (CoreStepWith B.update C byz) (stepWith B.update C)
      (start c) s) : Voters byz s ∧ ∀ i j, i ∉ byz → j ∉ byz →
        Anc (s j).parent0 (s i).bExec (s j).bExec ∨
          Anc (s i).parent0 (s j).bExec (s i).bExec := by
  cases B with
  | threeStep =>
    have S := (kept_of_reach (keeper hn hbyz) (start_locked c) h).1.sound
    exact ⟨S.voters, fun i j hi hj => S.voters.exec_branch (S.lawful hn hbyz ⟨i, hi⟩) hi hj
      (S.exec_settled hn hbyz hi) (S.exec_settled hn hbyz hj)⟩
  | twoStep =>
    have S := (kept_of_reach (TwoStep.keeper hn hbyz) (TwoStep.start_locked c) h).1
    exact ⟨TwoStep.voters S, fun i j hi hj =>
      (TwoStep.voters S).exec_branch (TwoStep.lawful S hn hbyz ⟨i, hi⟩) hi hj
        (TwoStep.exec_settled S hn hbyz hi) (TwoStep.exec_settled S hn hbyz hj)⟩

/-- The batches that two honest replicas have committed, each at its own moment of a run, are
the beginnings of one sequence. -/
theorem batches_agree (B : Build) (hbyz : byz.card ≤ Quorum.maxFaulty n) {c : Fin n → Setup}
    (h : Runs.Reach (CoreStepWith B.update C byz) (stepWith B.update C) (start c) s)
    (h' : Runs.Reach (CoreStepWith B.update C byz) (stepWith B.update C) s t)
    (hi : i ∉ byz) (hj : j ∉ byz) :
    (s i).batches <+: (t j).batches ∨ (t j).batches <+: (s i).batches := by
  have hu : ∀ G, Replica.Updates B.update G := by
    intro G
    cases B with
    | threeStep => exact Replica.update_updates
    | twoStep => exact TwoStep.update_updates
  have hs := chained_of_reach hu h
  obtain ⟨ht, hfollows⟩ := follows_of_reach hu hs h'
  obtain ⟨T, hbranch⟩ := voters_of_reach B (Fin.pos i) hbyz (h.trans h')
  refine batches_of_committed T.backing.collisionFree hs ht hfollows hi hj ?_
  rcases hbranch i j hi hj with hanc | hanc
  · exact .inl ((hfollows.committed i).trans (T.committed_prefix ht hi hj hanc))
  · exact List.prefix_or_prefix_of_prefix (hfollows.committed i) (T.committed_prefix ht hj hi hanc)

/-- Replica 0 has committed two blocks, replica 1 one. -/
theorem batches_agree_before_commit :
    ((TwoStep.beforeCommit 0).batches.length = 2 ∧ (TwoStep.beforeCommit 1).batches.length = 1) ∧
      ((TwoStep.beforeCommit 0).batches <+: (TwoStep.beforeCommit 1).batches ∨
        (TwoStep.beforeCommit 1).batches <+: (TwoStep.beforeCommit 0).batches) := by
  have K : Keeper ({3} : Finset (Fin 4)) TwoStep.update TwoStep.Locked TwoStep.Poised :=
    TwoStep.keeper (by decide) (by decide)
  obtain ⟨hreach, -⟩ := stored_of_testedWith K (TwoStep.start_locked _) (by decide)
    TwoStep.beforeCommit_tested
  refine ⟨by decide +kernel, ?_⟩
  exact batches_agree .twoStep (by decide) hreach .init (by decide) (by decide)

end Cluster

end AvaHotstuff
