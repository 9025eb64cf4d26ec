import AvaHotstuff.RecsView
import AvaHotstuff.VoteCount
import AvaHotstuff.Wire
import AvaHotstuff.Runs

set_option autoImplicit false

namespace AvaHotstuff

/-- The membership that `leave_set` gives. -/
def Roster.leave (r : Roster) (leaveSet : Finset PeerId) (leaveSetInt : Finset ℤ) : Roster :=
  let current := r.peers.filter fun p => decide (p ∉ leaveSet)
  { r with
    leaveSet := leaveSet
    leaveSetInt := leaveSetInt
    peersCurrent := current
    config := { r.config with
      nreplicas := current.length + 1
      nmajority := current.length + 1 - current.length / 3 } }

namespace Replica
variable (s : Replica)

theorem setLeaveSet_roster (l : Finset PeerId) (is : Finset ℤ) :
    (s.setLeaveSet l is).roster = s.roster.leave l is := rfl

theorem reconfigure_roster (r : Recs) (count : ℤ) (p : PeerId) :
    (s.reconfigure r count p).roster = s.roster ∨
      ∃ l is, (s.reconfigure r count p).roster = s.roster.leave l is := by
  unfold reconfigure
  split
  · exact .inr ⟨_, _, s.setLeaveSet_roster _ _⟩
  split
  · exact .inr ⟨_, _, s.setLeaveSet_roster _ _⟩
  · exact .inl rfl

theorem msgRecsHandler_roster (r : Recs) : (s.msgRecsHandler r).roster = s.roster := by
  unfold msgRecsHandler
  split
  · simp only []
    split
    · rfl
    split <;> rfl
  · rfl

theorem onEcho_roster (r : Recs) (count : ℤ) : (s.onEcho r count).1.roster = s.roster := by
  unfold onEcho
  simp only []
  split
  · split <;> rfl
  · rfl

theorem exec_roster (C : Crypto) (op : Op) : (s.exec C op).1.roster = s.roster ∨
    ∃ l is, (s.exec C op).1.roster = s.roster.leave l is := by
  cases op with
  | msgRecs r => exact .inl (s.msgRecsHandler_roster r)
  | msgRecsAggEchoReady msg =>
    change (s.msgRecsAggEchoReadyHandler msg).1.roster = s.roster ∨
      ∃ l is, (s.msgRecsAggEchoReadyHandler msg).1.roster = s.roster.leave l is
    unfold msgRecsAggEchoReadyHandler
    split
    · exact .inl rfl
    split
    · exact .inl (s.onEcho_roster _ _)
    split
    · unfold onReady
      simp only []
      split
      · split
        · exact .inl rfl
        · exact (s.countReady msg.reconfigCount).reconfigure_roster _ _ _
      · exact .inl rfl
    · exact .inl rfl
  | _ => exact .inl (congrArg RecsView.roster (s.exec_recsView C rfl))

end Replica

/-- What no reconfiguration changes, and how large the configuration can get. -/
structure Roster.Kept (c : Setup) (r : Roster) : Prop where
  id : r.id = c.id
  peers : r.peers = c.peers
  replicaMap : r.config.replicaMap = c.config.replicaMap
  nreplicas : r.config.nreplicas ≤ max c.config.nreplicas (c.peers.length + 1)

theorem Roster.Kept.leave {c : Setup} {r : Roster} (k : r.Kept c) (l : Finset PeerId)
    (is : Finset ℤ) : (r.leave l is).Kept c := by
  refine ⟨k.id, k.peers, k.replicaMap, ?_⟩
  have hle : (r.peers.filter fun p => decide (p ∉ l)).length ≤ r.peers.length :=
    List.length_filter_le _ _
  change (r.peers.filter fun p => decide (p ∉ l)).length + 1 ≤ _
  rw [k.peers] at hle ⊢
  omega

theorem Roster.Kept.step {c : Setup} {s : Replica} (k : s.roster.Kept c) (C : Crypto) (op : Op) :
    (s.step C op).roster.Kept c := by
  unfold Replica.step
  rcases s.exec_roster C op with hsame | ⟨l, is, hleave⟩
  · rw [hsame]
    exact k
  · rw [hleave]
    exact k.leave l is

theorem Setup.start_kept (c : Setup) : c.start.roster.Kept c := ⟨rfl, rfl, rfl, le_max_left ..⟩

def Replica.current (s : Replica) (rid : ReplicaID) : Bool :=
  (s.config.getPeerId rid).any fun p => decide (p ∉ s.recs.leaveSet)

/-- The votes handed to the core have been verified, as `vote_handler` does. -/
def Op.Verified (C : Crypto) : Op → Prop
  | .receiveVote v => v.verify C = true
  | _ => True

instance (C : Crypto) : DecidablePred (Op.Verified C)
  | .receiveVote v => inferInstanceAs (Decidable (v.verify C = true))
  | .addBlk _ | .deliverBlk _ | .receiveProposal .. | .propose .. | .receiveMcLocal ..
  | .relayMc .. | .remoteViewChangeTimeout _ | .receiveLComplain _ | .receiveRComplain ..
  | .msgRecs _ | .sendReconfigAck .. | .msgRecsAggEchoReady _ | .asyncQcFinish _
  | .waitDecision .. => inferInstanceAs (Decidable True)

theorem Replica.Casts.valid {C : Crypto} {s : Replica} {op : Op} {v : Vote}
    (hsign : ∀ h, C.verifySig s.id h (C.sign s.id h) = true) (hop : op.Verified C)
    (hv : s.Casts C op v) :
    v.cert.objHash = v.blkHash ∧ C.verifySig v.voter v.blkHash v.cert.sig = true := by
  rcases hv with rfl | ⟨h, rfl⟩
  · have hver : v.verify C = true := hop
    unfold Vote.verify at hver
    rw [Bool.and_eq_true, decide_eq_true_iff] at hver
    rw [← hver.2]
    exact ⟨rfl, hver.1⟩
  · exact ⟨rfl, hsign h⟩

def BallotBox.Signed (C : Crypto) (β : BallotBox) : Prop :=
  ∀ h, h ≠ b0 → ∀ v ∈ (β h).2, ∃ σ, C.verifySig v h σ = true

theorem BallotBox.Signed.step {C : Crypto} {s : Replica} (b : Signed C s.storage.ballot)
    (hsign : ∀ h, C.verifySig s.id h (C.sign s.id h) = true) {op : Op} (hop : op.Verified C) :
    Signed C (s.step C op).storage.ballot := by
  have hstart : Signed C (s.tallied C op) := by
    unfold Replica.tallied
    split
    · exact b
    · intro h h0 v hv
      rename_i x _
      by_cases hx : h = x
      · subst h
        rw [restart, Function.update_self] at hv
        exact b x h0 v hv
      · rw [restart, Function.update_of_ne hx] at hv
        exact b h h0 v hv
  rcases s.exec_counts C op with hsame | ⟨v, hv, -, -, hcount⟩
  · rw [Replica.step, hsame]
    exact hstart
  · rw [Replica.step, hcount]
    have hvalid := hv.valid hsign hop
    intro h h0 w hw
    by_cases hh : h = v.blkHash
    · subst h
      rw [count, Function.update_self] at hw
      rcases Finset.mem_insert.mp hw with rfl | hold
      · exact ⟨v.cert.sig, hvalid.2⟩
      · exact hstart _ h0 w hold
    · rw [count, Function.update_of_ne hh] at hw
      exact hstart h h0 w hw

theorem Setup.start_signed (C : Crypto) (c : Setup) :
    BallotBox.Signed C c.start.storage.ballot := by
  intro x hx v hv
  have habsent : c.start.storage.blkCache x = none := by
    change Function.update (fun _ => none) b0 (some (Block.genesis c.config)) x = none
    exact Function.update_of_ne hx ..
  have hempty : c.start.storage.ballot x = (none, ∅) := by
    unfold EntityStorage.ballot
    rw [habsent]
    rfl
  rw [hempty] at hv
  exact absurd hv (Finset.notMem_empty v)

theorem QuorumCert.valid_signers {C : Crypto} {F : SigFormat} {cfg : ReplicaConfig}
    {qc : QuorumCert} {bs rest : List UInt8}
    (h : (QuorumCert.unserialize F).run bs = some (qc, rest)) (hv : qc.verify C cfg = true) :
    ∃ signers : Finset ReplicaID, cfg.nmajority ≤ signers.card ∧ ∀ i ∈ signers, ∃ σ,
      qc.sigs.lookup i = some σ ∧ C.verifySig i qc.objHash σ = true := by
  obtain ⟨hnd, hmem⟩ := unserialize_keys h
  obtain ⟨hsize, hall⟩ := verify_iff.mp hv
  refine ⟨(qc.sigs.map Prod.fst).toFinset, ?_, ?_⟩
  · rw [List.toFinset_card_of_nodup hnd, List.length_map]
    exact hsize
  · intro k hk
    obtain ⟨⟨k', σ⟩, he, rfl⟩ := List.mem_map.mp (List.mem_toFinset.mp hk)
    obtain ⟨i, hi, heq⟩ := hmem _ he
    have hlookup : qc.sigs.lookup k' = some σ := lookup_of_mem hnd he
    have hvalid := hall i hi
    rw [← heq, hlookup] at hvalid
    exact ⟨σ, hlookup, hvalid⟩

/-- After any reconfigurations the keys are those of the start. A certificate from the wire
that verifies has `nmajority` distinct signers with valid signatures, and only such voters
are counted; whether a signer or a voter has left is not asked. -/
theorem quorums_of_signers (C : Crypto) (F : SigFormat) (c : Setup) (s : Replica)
    (hsign : ∀ h, C.verifySig c.id h (C.sign c.id h) = true)
    (h : Runs.Reach (fun _ op => op.Verified C) (Replica.step C) c.start s) :
    s.config.replicaMap = c.config.replicaMap ∧
      (∀ bs qc rest, (QuorumCert.unserialize F).run bs = some (qc, rest) →
        qc.verify C s.config = true →
        ∃ signers : Finset ReplicaID, s.config.nmajority ≤ signers.card ∧ ∀ i ∈ signers,
          ∃ σ, qc.sigs.lookup i = some σ ∧ C.verifySig i qc.objHash σ = true) ∧
      ∀ x, x ≠ b0 → ∀ v ∈ (s.storage.ballot x).2, ∃ σ, C.verifySig v x σ = true := by
  have hinv : s.roster.Kept c ∧ BallotBox.Signed C s.storage.ballot := by
    apply h.invariant fun s => s.roster.Kept c ∧ BallotBox.Signed C s.storage.ballot
    · exact ⟨c.start_kept, c.start_signed C⟩
    · intro u op ⟨k, b⟩ hop
      have hid : u.id = c.id := k.id
      rw [← hid] at hsign
      exact ⟨k.step C op, b.step hsign hop⟩
  refine ⟨hinv.1.replicaMap, ?_, hinv.2⟩
  intro bs qc rest hbs hv
  exact QuorumCert.valid_signers hbs hv

def Setup.quartet : Setup :=
  { Setup.four 0 with peers := [1, 2, 3], allPeers := [0, 1, 2, 3], knownPeers := [1, 2, 3] }

def departure : List Op := List.replicate 3 (.msgRecsAggEchoReady ⟨⟨0, 1, 1⟩, myReady, 1⟩)

def departed : Replica := Runs.run (Replica.step .sample) Setup.quartet.start departure

def lateVotes : List Op :=
  [.addBlk (.sample 0 0 7 []), .deliverBlk 1, .receiveVote ⟨1, 1, ⟨1, 1⟩⟩,
    .receiveVote ⟨2, 1, ⟨1, 1⟩⟩, .receiveVote ⟨3, 1, ⟨1, 1⟩⟩]

def lateQuorum : Replica := Runs.run (Replica.step .sample) departed lateVotes

theorem lateQuorum_reach : Runs.Reach (fun _ op => op.Verified .sample) (Replica.step .sample)
    Setup.quartet.start lateQuorum :=
  Runs.reach_run lateVotes (Runs.reach_run departure .init (by decide)) (by decide +kernel)

theorem quorums_of_signers_departed :
    (∃ signers : Finset ReplicaID, lateQuorum.config.nmajority ≤ signers.card ∧ ∀ i ∈ signers,
      ∃ σ, (QuorumCert.sample 5).sigs.lookup i = some σ ∧
        Crypto.sample.verifySig i 5 σ = true) ∧
      ∃ σ, Crypto.sample.verifySig 1 1 σ = true := by
  obtain ⟨-, hqc, hvotes⟩ := quorums_of_signers .sample .sample .quartet lateQuorum
    (fun h => decide_eq_true rfl) lateQuorum_reach
  refine ⟨?_, hvotes 1 (by decide) 1 (by decide +kernel)⟩
  have hwire : (QuorumCert.unserialize .sample).run
      (((QuorumCert.sample 5).serialize .sample).getD []) = some (.sample 5, []) := by
    decide +kernel
  exact hqc _ _ _ hwire (by decide +kernel)

/-- Replica 1 has left. A certificate from the wire with the signatures of 0, 1 and 2 is
accepted, with two current signers where the quorum is three; and the vote of replica 1 is
one of the three that complete the certificate of block 1. -/
theorem departed_signer_accepted :
    (QuorumCert.unserialize .sample).run (((QuorumCert.sample 5).serialize .sample).getD []) =
        some (.sample 5, []) ∧
      (QuorumCert.sample 5).verify .sample departed.config = true ∧
      ((QuorumCert.sample 5).sigs.filter fun e => departed.current e.1).length <
        departed.config.nmajority ∧
      lateQuorum.current 1 = false ∧ 1 ∈ (lateQuorum.storage.ballot 1).2 ∧
      lateQuorum.hqc.1 = 1 ∧
      (lateQuorum.storage.ballot 1).2.card = lateQuorum.config.nmajority := by
  decide +kernel

end AvaHotstuff
