import AvaHotstuff.CoreRuns

set_option autoImplicit false

namespace AvaHotstuff
open Ancestry LockedVoting

namespace Cluster
variable {n : ℕ}

/-- The state between two calls: the locks are also below the last opinions. -/
structure Quiescent (byz : Finset (Fin n)) (s : Cluster n) : Prop where
  sound : Sound byz s
  low : ∀ i, i ∉ byz → (s i).ledger.Low

theorem Kept.sound {byz : Finset (Fin n)} {s : Cluster n} (S : Kept Ledger.Locked byz s) :
    Sound byz s := ⟨S.kept, S.votes, S.backing⟩

/-- What `update` leaves for the judgement of `w`. -/
def Poised (r : Replica) (w : Hash) : Prop :=
  r.Ready w ∧ ∀ q q', r.qcRef w = some q → r.qcRef q = some q' → r.height q' ≤ r.height r.bLock

section
variable {C : Crypto} {byz : Finset (Fin n)} {s : Cluster n} {i : Fin n} {op : Op}

theorem keeper (hn : 0 < n) (hbyz : byz.card ≤ Quorum.maxFaulty n) :
    Keeper byz Replica.update Ledger.Locked Poised where
  updates _ := Replica.update_updates
  held k := k.held
  grow g cl v hlog hlock hexec k := k.grow g cl v hlog hlock hexec
  judge C selfProp k cl hd hr := Replica.judgeProposal_locked C selfProp k cl hd hr.2 hr.1
  low k cl hd hr hle := hr.1.low k.wf cl hd hle
  safe S hi hd hlow := S.sound.update hn hbyz hi hd hlow

theorem start_locked (c : Fin n → Setup) (i : Fin n) : (start c i).ledger.Locked :=
  (start_held c i).locked (.inl rfl)

theorem step_eq_stepWith : (step C : Cluster n → Fin n × Op → Cluster n) =
    stepWith Replica.update C := by
  funext s a
  unfold step stepWith Replica.step
  rw [Replica.execWith_update]

theorem coreStep_eq : (CoreStep C byz : Cluster n → Fin n × Op → Prop) =
    CoreStepWith Replica.update C byz := by
  unfold CoreStep CoreStepWith
  rw [step_eq_stepWith]

theorem quiescent_of_reach (hn : 0 < n) (hbyz : byz.card ≤ Quorum.maxFaulty n)
    {c : Fin n → Setup} (h : Runs.Reach (CoreStep C byz) (step C) (start c) s) :
    Quiescent byz s := by
  rw [coreStep_eq, step_eq_stepWith] at h
  obtain ⟨S, hlow⟩ := kept_of_reach (keeper hn hbyz) (start_locked c) h
  exact ⟨S.sound, hlow⟩

/-- Any two honest replicas execute along one branch, and every certified block from the
height of an executed block on extends it. -/
theorem agreement (C : Crypto) (byz : Finset (Fin n)) (hbyz : byz.card ≤ Quorum.maxFaulty n)
    (c : Fin n → Setup) (s : Cluster n)
    (h : Runs.Reach (CoreStep C byz) (step C) (start c) s) :
    (∀ i j, i ∉ byz → j ∉ byz → Anc (s j).parent0 (s i).bExec (s j).bExec ∨
      Anc (s i).parent0 (s j).bExec (s i).bExec) ∧
    ∀ i, i ∉ byz → ∀ w, Certified byz s w →
      (∃ j, j ∉ byz ∧ (s j).delivered w = true) ∧
      ∀ j, j ∉ byz → (s j).delivered w = true →
        (s i).height (s i).bExec ≤ (s j).height w → Anc (s j).parent0 (s i).bExec w := by
  constructor
  · intro i j hi hj
    have S := (quiescent_of_reach (Fin.pos i) hbyz h).sound
    exact S.voters.exec_branch (S.lawful (Fin.pos i) hbyz ⟨i, hi⟩) hi hj
      (S.exec_settled (Fin.pos i) hbyz hi) (S.exec_settled (Fin.pos i) hbyz hj)
  · intro i hi w hw
    have S := (quiescent_of_reach (Fin.pos i) hbyz h).sound
    have L := S.lawful (Fin.pos i) hbyz ⟨i, hi⟩
    refine ⟨L.certified_known hw, ?_⟩
    intro j hj hd hle
    have hexec : (s i).delivered (s i).bExec = true := (S.locked i hi).exec
    rw [← (S.voters.ballots_eq hi hexec).2.1, ← (S.voters.ballots_eq hj hd).2.1] at hle
    exact (S.voters.anc hj hd).mp ((S.exec_settled (Fin.pos i) hbyz hi).2 w hw hle)

/-- `CoreStep` as a test, for runs that store no block outside the list. -/
def Tested (C : Crypto) (byz : Finset (Fin n)) (hashes : List Hash) (s : Cluster n)
    (a : Fin n × Op) : Prop :=
  a.1 ∉ byz ∧ CoreCall (s a.1) a.2 ∧ storesIn C hashes (s a.1) a.2 = true ∧
    assumed C byz hashes s (step C s a) = true

instance (C : Crypto) (byz : Finset (Fin n)) (hashes : List Hash) (s : Cluster n)
    (a : Fin n × Op) : Decidable (Tested C byz hashes s a) :=
  inferInstanceAs (Decidable (_ ∧ _))

theorem reach_of_tested {c : Fin n → Setup} (hashes : List Hash) (hn : 0 < n)
    (hbyz : byz.card ≤ Quorum.maxFaulty n) (h0 : b0 ∈ hashes)
    (h : Runs.Reach (Tested C byz hashes) (step C) (start c) s) :
    Runs.Reach (CoreStep C byz) (step C) (start c) s := by
  have htested : (Tested C byz hashes : Cluster n → Fin n × Op → Prop) =
      TestedWith Replica.update C byz hashes := by
    unfold Tested TestedWith
    rw [step_eq_stepWith]
  rw [htested, step_eq_stepWith] at h
  rw [coreStep_eq, step_eq_stepWith]
  exact (stored_of_testedWith (keeper hn hbyz) (start_locked c) h0 h).1

end

/-- Replica 0 proposes a block, the replicas 1 and 2 hear it, and their votes come back. -/
def round (cmd parent : Hash) (qc : QuorumCert) : List (Fin 4 × Op) :=
  let body : Body := ⟨[parent], [cmd], [1], [2], qc, []⟩
  let h := Crypto.sample.getHash body
  (0, .propose [cmd] [1] [2] [parent] []) ::
    ((hears body).map fun op => (1, op)) ++ ((hears body).map fun op => (2, op)) ++
    [(0, .receiveVote ⟨1, h, ⟨h, h⟩⟩), (0, .receiveVote ⟨2, h, ⟨h, h⟩⟩)]

def fourRounds : List (Fin 4 × Op) :=
  round 7 0 ⟨0, Bits.cleared 4, []⟩ ++ round 8 1 (.sample 1) ++ round 9 3 (.sample 3) ++
    round 10 7 (.sample 7)

def fourCluster : Cluster 4 := Runs.run (step .sample) (start fun i => .four i) fourRounds

theorem fourCluster_reach :
    Runs.Reach (CoreStep .sample {3}) (step .sample) (start fun i => .four i) fourCluster :=
  reach_of_tested [0, 1, 3, 7, 15] (by decide) (by decide) (by decide)
    (Runs.reach_run fourRounds .init (by decide +kernel))

theorem fourCluster_certified : Certified {3} fourCluster 7 := by
  have hvotes : ∀ i : Fin 4, i ∈ ({0, 1, 2} : Finset (Fin 4)) →
      Event.vote 7 ∈ (fourCluster i).trace := by decide +kernel
  refine ⟨{0, 1, 2}, by decide, ?_⟩
  intro i hi _
  exact (show (fourCluster i).Voted 7 from hvotes i hi).signed

/-- After four rounds the first block is executed, and the third one, certified, extends it. -/
theorem agreement_four_rounds :
    ((fourCluster 0).bExec = 1 ∧ (fourCluster 1).bExec = 1) ∧
      (Anc (fourCluster 1).parent0 (fourCluster 0).bExec (fourCluster 1).bExec ∨
        Anc (fourCluster 0).parent0 (fourCluster 1).bExec (fourCluster 0).bExec) ∧
      Anc (fourCluster 2).parent0 (fourCluster 1).bExec 7 := by
  have hagree := agreement .sample {3} (by decide) _ fourCluster fourCluster_reach
  refine ⟨by decide +kernel, hagree.1 0 1 (by decide) (by decide), ?_⟩
  exact (hagree.2 1 (by decide) 7 fourCluster_certified).2 2 (by decide) (by decide +kernel)
    (by decide +kernel)

end Cluster

end AvaHotstuff
