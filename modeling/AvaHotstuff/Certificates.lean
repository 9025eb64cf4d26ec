import AvaHotstuff.Agreement

set_option autoImplicit false

namespace AvaHotstuff
open Ancestry

namespace Cluster
variable {n : ℕ}

/-- Enough replicas have voted for the block; the faulty ones may always have. -/
def VoteCertified (byz : Finset (Fin n)) (s : Cluster n) (h : Hash) : Prop :=
  ∃ Q : Finset (Fin n), Quorum.majority n ≤ Q.card ∧ ∀ i ∈ Q, i ∉ byz → (s i).Voted h

/-- `HotStuffBase` passes a proposal on once its block has been delivered. -/
def Routed (r : Replica) : Op → Prop
  | .receiveProposal proposer blk => proposer ≠ r.id ∨ r.delivered blk = true
  | _ => True

def HonestCall (byz : Finset (Fin n)) (s : Cluster n) (a : Fin n × Op) : Prop :=
  a.1 ∉ byz ∧ Routed (s a.1) a.2

/-- A replica complains only about blocks that it has voted for, or that have a
certificate made of votes. -/
def VoteStep (byz : Finset (Fin n)) (s : Cluster n) (a : Fin n × Op) : Prop :=
  HonestCall byz s a ∧
    ∀ h, (s a.1).Complains a.2 h → (s a.1).Voted h ∨ VoteCertified byz s h

section
variable {C : Crypto} {byz : Finset (Fin n)} {s : Cluster n} {i : Fin n} {op : Op}

theorem Routed.voting {r : Replica} (hr : Routed r op) (v : r.ledger.Voting) :
    (r.exec C op).1.ledger.Voting := by
  have hinv := (Replica.exec_steps C v.wf op).invariant
    (I := fun N => N.Voting ∧ Tree.Grows r.tree N.tree) ⟨v, .refl _⟩
  refine (hinv ?_).1
  intro L M hstep ⟨vL, g⟩
  refine ⟨hstep.voting ?_ vL, g.trans hstep.grows⟩
  intro h ho
  rcases ho with ⟨hd, -⟩ | rfl
  · exact hd
  · rcases hr with hne | hd
    · exact absurd rfl hne
    · exact g.delivered hd

theorem VoteCertified.mono {t : Cluster n} {h : Hash} (hc : VoteCertified byz s h)
    (hst : ∀ i, (s i).Voted h → (t i).Voted h) : VoteCertified byz t h := by
  obtain ⟨Q, hQ, hvoted⟩ := hc
  exact ⟨Q, hQ, fun i hi hb => hst i (hvoted i hi hb)⟩

theorem VoteCertified.honest {h : Hash} (hc : VoteCertified byz s h)
    (hbyz : byz.card ≤ Quorum.maxFaulty n) :
    ∃ V : Finset (Fin n), Quorum.majority n - Quorum.maxFaulty n ≤ V.card ∧
      ∀ i ∈ V, i ∉ byz ∧ (s i).Voted h := by
  obtain ⟨Q, hQ, hvoted⟩ := hc
  refine ⟨Q \ byz, ?_, ?_⟩
  · have hcard := Finset.le_card_sdiff byz Q
    omega
  · intro i hi
    obtain ⟨hiQ, hib⟩ := Finset.mem_sdiff.mp hi
    exact ⟨hib, hvoted i hiQ hib⟩

/-- Signatures of honest replicas on a block that no quorum has voted for are votes. -/
structure Honoured (byz : Finset (Fin n)) (s : Cluster n) : Prop where
  voting : ∀ i, i ∉ byz → (s i).ledger.Voting
  votes : ∀ h, VoteCertified byz s h ∨ ∀ i, i ∉ byz → (s i).Signed h → (s i).Voted h

theorem step_voted (w : (s i).tree.Wf) {j : Fin n} {h : Hash} (hv : (s j).Voted h) :
    (step C s (i, op) j).Voted h := by
  by_cases hj : j = i
  · subst j
    rw [step_self]
    exact Replica.voted_iff.mpr
      ((Replica.exec_steps C w op).log_mono (Replica.voted_iff.mp hv))
  · rw [step_other s hj]
    exact hv

theorem Honoured.next (H : Honoured byz s) (hs : VoteStep byz s (i, op)) :
    Honoured byz (step C s (i, op)) := by
  obtain ⟨⟨hi, hrouted⟩, hcomplain⟩ := hs
  have w := (H.voting i hi).wf
  have hmono : ∀ h, VoteCertified byz s h → VoteCertified byz (step C s (i, op)) h :=
    fun h hc => hc.mono fun _ => step_voted w
  constructor
  · intro j hj
    by_cases hji : j = i
    · subst j
      rw [step_self]
      exact hrouted.voting (H.voting i hi)
    · rw [step_other s hji]
      exact H.voting j hj
  · intro h
    by_cases hnew : (s i).Complains op h
    · rcases hcomplain h hnew with hvoted | hcert
      · rcases H.votes h with hc | hall
        · exact .inl (hmono h hc)
        · refine .inr ?_
          intro j hj hsig
          by_cases hji : j = i
          · subst j
            exact step_voted w hvoted
          · rw [step_other s hji] at hsig ⊢
            exact hall j hj hsig
      · exact .inl (hmono h hcert)
    · rcases H.votes h with hc | hall
      · exact .inl (hmono h hc)
      · refine .inr ?_
        intro j hj hsig
        by_cases hji : j = i
        · subst j
          rw [step_self] at hsig ⊢
          obtain ⟨e, he, hsg⟩ := Replica.signed_iff.mp hsig
          rcases (Replica.exec_steps C w op).signs_cases he hsg with hold | rfl | hcom
          · have hvoted := hall i hi (Replica.signed_iff.mpr ⟨e, hold, hsg⟩)
            rw [← step_self (C := C) s]
            exact step_voted w hvoted
          · exact Replica.voted_iff.mpr he
          · exact absurd hcom hnew
        · rw [step_other s hji] at hsig ⊢
          exact hall j hj hsig

theorem start_honoured (byz : Finset (Fin n)) (c : Fin n → Setup) : Honoured byz (start c) :=
  ⟨fun i _ => (start_locked c i).toVoting,
    fun _ => .inr fun _ _ ⟨_, he, _⟩ => absurd he List.not_mem_nil⟩

theorem Honoured.voteCertified (H : Honoured byz s) {h : Hash} (hc : Certified byz s h) :
    VoteCertified byz s h := by
  rcases H.votes h with hcert | hall
  · exact hcert
  · obtain ⟨Q, hQ, hsig⟩ := hc
    exact ⟨Q, hQ, fun i hi hb => hall i hb (hsig i hi hb)⟩

theorem CollisionFree.height_eq (hcf : CollisionFree byz s) {i j : Fin n} (hi : i ∉ byz)
    (hj : j ∉ byz) (wi : (s i).tree.Wf) (wj : (s j).tree.Wf) {h : Hash}
    (hd : (s i).delivered h = true) (hd' : (s j).delivered h = true) :
    (s i).height h = (s j).height h := by
  refine (Tree.agree wi wj ?_ hd hd').2.2
  intro x m m' hm hm'
  obtain ⟨b, hb, rfl⟩ := (s i).cache_of_tree hm
  obtain ⟨b', hb', rfl⟩ := (s j).cache_of_tree hm'
  exact hcf i j hi hj x b b' hb hb'

theorem Honoured.voted_delivered (H : Honoured byz s) (hi : i ∉ byz) {h : Hash}
    (hv : (s i).Voted h) : (s i).delivered h = true := by
  obtain ⟨l, hl⟩ := (H.voting i hi).cast h (Replica.voted_iff.mp hv)
  exact ((H.voting i hi).bound _ hl).1

theorem Honoured.unique (H : Honoured byz s) (hcf : CollisionFree byz s) (hn : 0 < n)
    (hbyz : byz.card ≤ Quorum.maxFaulty n) {u w : Hash} (hu : Certified byz s u)
    (hw : Certified byz s w) {i j : Fin n} (hi : i ∉ byz) (hj : j ∉ byz)
    (hud : (s i).delivered u = true) (hwd : (s j).delivered w = true)
    (hh : (s i).height u = (s j).height w) : u = w := by
  obtain ⟨P, hP, hPv⟩ := H.voteCertified hu
  obtain ⟨Q, hQ, hQv⟩ := H.voteCertified hw
  have hover : Fintype.card (Fin n) + byz.card < 2 * Quorum.majority n := by
    rw [Fintype.card_fin]
    exact Quorum.majority_overlap hn hbyz
  obtain ⟨r, hrP, hrQ, hr⟩ := Quorum.exists_honest_inter byz P Q hover hP hQ
  have hvu := hPv r hrP hr
  have hvw := hQv r hrQ hr
  refine (H.voting r hr).once (Replica.voted_iff.mp hvu) (Replica.voted_iff.mp hvw) ?_
  change (s r).height u = (s r).height w
  have w : ∀ k, k ∉ byz → (s k).tree.Wf := fun k hk => (H.voting k hk).wf
  rw [hcf.height_eq hr hi (w r hr) (w i hi) (H.voted_delivered hr hvu) hud,
    hcf.height_eq hr hj (w r hr) (w j hj) (H.voted_delivered hr hvw) hwd]
  exact hh

theorem CoreStep.voteStep {a : Fin n × Op} (hs : CoreStep C byz s a) : VoteStep byz s a := by
  obtain ⟨hi, hcall, -⟩ := hs
  refine ⟨⟨hi, ?_⟩, fun h hcom => absurd hcom (hcall.not_complains h)⟩
  obtain ⟨i, op⟩ := a
  cases op with
  | receiveProposal proposer blk => exact .inl hcall
  | _ => trivial

/-- As long as the complaints stay with voted blocks, a certificate rests on the votes of
honest replicas, and there is one block for each height. -/
theorem certified_by_votes (C : Crypto) (byz : Finset (Fin n))
    (hbyz : byz.card ≤ Quorum.maxFaulty n) (c : Fin n → Setup) (s : Cluster n)
    (h : Runs.Reach (VoteStep byz) (step C) (start c) s) (hcf : CollisionFree byz s) :
    (∀ b, Certified byz s b →
      ∃ V : Finset (Fin n), Quorum.majority n - Quorum.maxFaulty n ≤ V.card ∧
        ∀ i ∈ V, i ∉ byz ∧ (s i).Voted b) ∧
    ∀ u w, Certified byz s u → Certified byz s w → ∀ i j, i ∉ byz → j ∉ byz →
      (s i).delivered u = true → (s j).delivered w = true →
      (s i).height u = (s j).height w → u = w := by
  have H := h.invariant (Honoured byz) (start_honoured byz c) fun _ _ H => H.next
  constructor
  · intro b hb
    exact (H.voteCertified hb).honest hbyz
  · intro u w hu hw i j hi hj hud hwd hh
    exact H.unique hcf (Fin.pos i) hbyz hu hw hi hj hud hwd hh

/-- The certificate of the third block of `fourCluster` rests on two honest votes. -/
theorem certified_by_votes_four_rounds :
    Certified {3} fourCluster 7 ∧ ∃ V : Finset (Fin 4), 2 ≤ V.card ∧
      ∀ i ∈ V, i ∉ ({3} : Finset (Fin 4)) ∧ (fourCluster i).Voted 7 :=
  ⟨fourCluster_certified, (certified_by_votes .sample {3} (by decide) _ fourCluster
    (fourCluster_reach.mono fun _ _ => CoreStep.voteStep)
    (quiescent_of_reach (by decide) (by decide) fourCluster_reach).sound.backing.collisionFree).1
    7 fourCluster_certified⟩

/-- A block that is parsed carries a valid certificate, and no honest signature in it is
forged. -/
def Genuine (C : Crypto) (byz : Finset (Fin n)) (s : Cluster n) (i : Fin n) : Op → Prop
  | .addBlk body => (body.qc.objHash = b0 ∨ body.qc.verify C (s i).config = true) ∧
      ∀ j, j ∉ byz → j ∈ signers C body.qc → ∃ e ∈ (s j).trace, e.signs = some body.qc.objHash
  | _ => True

instance (C : Crypto) (byz : Finset (Fin n)) (s : Cluster n) (i : Fin n) :
    DecidablePred (Genuine C byz s i)
  | .addBlk _ => inferInstanceAs (Decidable (_ ∧ _))
  | .deliverBlk _ | .receiveProposal .. | .receiveVote _ | .propose .. | .receiveMcLocal ..
  | .relayMc .. | .remoteViewChangeTimeout _ | .receiveLComplain _ | .receiveRComplain ..
  | .msgRecs _ | .sendReconfigAck .. | .msgRecsAggEchoReady _ | .asyncQcFinish _
  | .waitDecision .. => inferInstanceAs (Decidable True)

instance (r : Replica) : DecidablePred (Routed r)
  | .receiveProposal .. => inferInstanceAs (Decidable (_ ∨ _))
  | .addBlk _ | .deliverBlk _ | .receiveVote _ | .propose .. | .receiveMcLocal ..
  | .relayMc .. | .remoteViewChangeTimeout _ | .receiveLComplain _ | .receiveRComplain ..
  | .msgRecs _ | .sendReconfigAck .. | .msgRecsAggEchoReady _ | .asyncQcFinish _
  | .waitDecision .. => inferInstanceAs (Decidable True)

instance (byz : Finset (Fin n)) (s : Cluster n) (a : Fin n × Op) :
    Decidable (HonestCall byz s a) :=
  inferInstanceAs (Decidable (_ ∧ _))

theorem stored_of_reach {c : Fin n → Setup} {hashes : List Hash} (h0 : b0 ∈ hashes)
    (h : Runs.Reach (fun s a => HonestCall byz s a ∧ storesIn C hashes (s a.1) a.2 = true)
      (step C) (start c) s) (j : Fin n) (x : Hash) (hx : ((s j).tree x).isSome = true) :
    x ∈ hashes := by
  refine (h.invariant (fun t => (∀ i, (t i).ledger.Voting) ∧
    ∀ j x, ((t j).tree x).isSome = true → x ∈ hashes)
    ⟨fun i => (start_locked c i).toVoting, start_stored c h0⟩ ?_).2 j x hx
  rintro t ⟨i, op⟩ ⟨hvoting, hstored⟩ ⟨⟨-, hrouted⟩, hop⟩
  refine ⟨?_, ?_⟩
  swap
  · rw [step_eq_stepWith]
    exact stored_step (hvoting i).wf Replica.update_updates hstored hop
  intro j
  by_cases hj : j = i
  · subst j
    rw [step_self]
    exact hrouted.voting (hvoting i)
  · rw [step_other t hj]
    exact hvoting j

end

def chainBody (k : ℕ) (qc : QuorumCert) : Body := ⟨[2 ^ k - 1], [7], [1], [2], qc, []⟩

def genesisCert : QuorumCert := ⟨b0, Bits.cleared 4, []⟩

def both (ops : List Op) : List (Fin 4 × Op) := ops.flatMap fun op => [(1, op), (2, op)]

/-- Blocks up to height 96 without votes and certificates, four more with them, and the
timers of height 96. -/
def uncertifiedBatch : List (Fin 4 × Op) :=
  both ((List.range 96).flatMap fun k =>
    [.addBlk (chainBody k genesisCert), .deliverBlk (2 ^ (k + 1) - 1)]) ++
  both (hears (chainBody 96 genesisCert)) ++ both (hears (chainBody 97 (.sample (2 ^ 97 - 1)))) ++
  both (hears (chainBody 98 (.sample (2 ^ 98 - 1)))) ++
  both (hears (chainBody 99 (.sample (2 ^ 99 - 1)))) ++
  both [.remoteViewChangeTimeout 96]

def batchCluster : Cluster 4 := Runs.run (step .sample) (start fun i => .four i) uncertifiedBatch

set_option maxRecDepth 100000 in
theorem batchCluster_reach :
    Runs.Reach (fun s a => (HonestCall {0} s a ∧ Genuine .sample {0} s a.1 a.2) ∧
      storesIn .sample ((List.range 101).map fun k => 2 ^ k - 1) (s a.1) a.2 = true)
      (step .sample) (start fun i => .four i) batchCluster :=
  Runs.reach_run uncertifiedBatch .init (by decide +kernel)

set_option maxRecDepth 100000 in
/-- Three facts about the last state, in one evaluation of the run. -/
theorem batchCluster_last :
    (∀ i j : Fin 4, ∀ h ∈ (List.range 101).map (fun k => 2 ^ k - 1),
      ((batchCluster i).storage.blkCache h).all (fun b =>
        ((batchCluster j).storage.blkCache h).all fun b' => decide (b.body = b'.body)) = true) ∧
    (∀ i : Fin 4, i ∈ ({1, 2} : Finset (Fin 4)) →
      ∃ e ∈ (batchCluster i).trace, e.signs = some (2 ^ 96 - 1)) ∧
    ∀ i : Fin 4, Event.vote (2 ^ 96 - 1) ∉ (batchCluster i).trace := by
  decide +kernel

theorem batchCluster_collisionFree : CollisionFree {0} batchCluster := by
  have hstored := stored_of_reach (List.mem_map.mpr ⟨0, by decide, rfl⟩)
    (batchCluster_reach.mono fun _ _ h => ⟨h.1.1, h.2⟩)
  intro i j _ _ h b b' hb hb'
  have hsame := batchCluster_last.1 i j h (hstored i h (by rw [Replica.tree_of_cache _ hb]; rfl))
  rw [hb, hb'] at hsame
  exact of_decide_eq_true hsame

theorem certified_without_votes :
    Runs.Reach (fun s a => HonestCall {0} s a ∧ Genuine .sample {0} s a.1 a.2) (step .sample)
      (start fun i => .four i) batchCluster ∧
    CollisionFree {0} batchCluster ∧ Certified {0} batchCluster (2 ^ 96 - 1) ∧
    ∀ i, ¬(batchCluster i).Voted (2 ^ 96 - 1) := by
  obtain ⟨-, hsigned, hvotes⟩ := batchCluster_last
  refine ⟨batchCluster_reach.mono fun _ _ h => h.1, batchCluster_collisionFree, ?_, hvotes⟩
  refine ⟨{0, 1, 2}, by decide, ?_⟩
  intro i hi hne
  refine hsigned i ?_
  simp only [Finset.mem_insert, Finset.mem_singleton] at hi hne ⊢
  omega

end Cluster

end AvaHotstuff
