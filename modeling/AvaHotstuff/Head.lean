import AvaHotstuff.Exec

set_option autoImplicit false

namespace AvaHotstuff

def EntityStorage.ballot (st : EntityStorage) (h : Hash) : Option QuorumCert × Finset ReplicaID :=
  ((st.blkCache h).map fun b => (b.selfQc, b.voted)).getD (none, ∅)

structure Head where
  hqc : Hash × QuorumCert
  tails : List Hash
  hqcTail : Hash
  ballot : Hash → Option QuorumCert × Finset ReplicaID

def Op.onHead : Op → Bool
  | .addBlk _ | .deliverBlk _ | .receiveProposal _ _ | .receiveVote _ | .propose _ _ _ _ _ => true
  | _ => false

namespace Replica
variable (s : Replica)

def head : Head := ⟨s.hqc, s.tails, s.pmaker.hqcTail, s.storage.ballot⟩

theorem emit_head (e : Event) : (s.emit e).head = s.head := rfl

theorem ballot_update (h : Hash) (o : Option Block) :
    (fun x => ((Function.update s.storage.blkCache h o x).map fun b => (b.selfQc, b.voted)).getD
      (none, ∅)) = Function.update s.storage.ballot h
        ((o.map fun b => (b.selfQc, b.voted)).getD (none, ∅)) :=
  Function.comp_update (fun o : Option Block =>
    (o.map fun b : Block => (b.selfQc, b.voted)).getD (none, ∅)) s.storage.blkCache h o

theorem modifyBlk_ballot (h : Hash) (f : Block → Block) :
    (s.modifyBlk h f).storage.ballot = Function.update s.storage.ballot h
      (((s.storage.blkCache h).map fun b => ((f b).selfQc, (f b).voted)).getD (none, ∅)) := by
  refine (s.ballot_update h ((s.storage.blkCache h).map f)).trans ?_
  rw [Option.map_map]
  rfl

theorem modifyBlk_head (h : Hash) (f : Block → Block) (hq : ∀ b, (f b).selfQc = b.selfQc)
    (hv : ∀ b, (f b).voted = b.voted) : (s.modifyBlk h f).head = s.head := by
  have hb : (s.modifyBlk h f).storage.ballot = s.storage.ballot := by
    rw [modifyBlk_ballot]
    simp only [hq, hv]
    exact Function.update_eq_self ..
  unfold head
  rw [hb]
  rfl

theorem addBlk_head (h : Hash) (b : Block) (hq : b.selfQc = none) (hv : b.voted = ∅) :
    (s.addBlk h b).head = s.head := by
  unfold addBlk EntityStorage.addBlk
  split
  · rfl
  rename_i hnone
  rw [Option.not_isSome_iff_eq_none] at hnone
  have hb : ({ s.storage with blkCache := Function.update s.storage.blkCache h (some b) } :
      EntityStorage).ballot = s.storage.ballot := by
    refine (s.ballot_update h (some b)).trans ?_
    have hold : s.storage.ballot h = (none, ∅) := by
      unfold EntityStorage.ballot
      rw [hnone]
      rfl
    rw [Option.map_some, hq, hv, Option.getD_some, ← hold, Function.update_eq_self]
  unfold head
  rw [hb]

section
variable (h : Hash)

theorem onQcFinish_head : (s.onQcFinish h).head = s.head := by
  unfold onQcFinish
  split <;> rfl

theorem finishQcRef_head : (s.finishQcRef h).head = s.head := by
  unfold finishQcRef
  split
  · rfl
  · exact s.onQcFinish_head _

theorem takeOpinion_head (o : Bool) : (s.takeOpinion h o).head = s.head := by
  unfold takeOpinion
  split <;> rfl

theorem opined_head (selfProp o : Bool) : (s.opined selfProp h o).head = s.head :=
  opined_keeps selfProp (s.takeOpinion_head h o) fun u => u.finishQcRef_head h

theorem asyncQcFinish_head : (s.asyncQcFinish h).head = s.head := by
  unfold asyncQcFinish
  split
  · rfl
  split <;> rfl

theorem waitDecision_head (cb : ℕ) : (s.waitDecision h cb).head = s.head := by
  unfold waitDecision
  split <;> rfl

theorem updateLock_head : (s.updateLock h).head = s.head := by
  unfold updateLock
  split <;> rfl

theorem doBroadcastProposalOtherClusters_head (prop : Proposal) :
    (s.doBroadcastProposalOtherClusters prop).head = s.head := by
  unfold doBroadcastProposalOtherClusters initOtherPeers
  simp only []
  split <;> rfl

theorem notifyOtherClusters_head : (s.notifyOtherClusters h).head = s.head := by
  have hleave : s.getLeaveSet.2.head = s.head := by
    unfold getLeaveSet
    split <;> rfl
  unfold notifyOtherClusters
  simp only []
  split
  · rw [doBroadcastProposalOtherClusters_head, hleave]
  · exact hleave

theorem McOnly.head {s u : Replica} (h : McOnly s u) : u.head = s.head := by
  have hrest := congrArg Replica.head h.rest
  exact hrest

theorem answerClient_head (fin : Finality) : (s.answerClient fin).head = s.head :=
  (s.answerClient_mcOnly fin).head

theorem executeBlk_head : (s.executeBlk h).head = s.head := (s.executeBlk_mcOnly h).head

theorem startRemoteViewChangeTimer_head (cid : ℕ) :
    (s.startRemoteViewChangeTimer cid h).head = s.head := rfl

theorem resetRemoteViewChangeTimer_head (cid : ℕ) :
    (s.resetRemoteViewChangeTimer cid).head = s.head := rfl

theorem updateFinishedUpdateCids_head (cid : ℕ) :
    (s.updateFinishedUpdateCids cid).head = s.head := rfl

theorem commitBlk_head : (s.commitBlk h).head = s.head := by
  have hnotify : (((s.modifyBlk h fun b => { b with decision := true }).emit
      (.consensus h)).notifyOtherClusters h).head = s.head := by
    rw [notifyOtherClusters_head, emit_head]
    exact s.modifyBlk_head h _ (fun _ => rfl) fun _ => rfl
  unfold commitBlk
  simp only []
  split
  · rw [resetRemoteViewChangeTimer_head, executeBlk_head, updateFinishedUpdateCids_head,
      startRemoteViewChangeTimer_head, hnotify]
  · rw [updateFinishedUpdateCids_head, startRemoteViewChangeTimer_head, hnotify]

theorem foldl_commitBlk_head (q : List Hash) (s : Replica) :
    (q.foldl commitBlk s).head = s.head := by
  induction q generalizing s with
  | nil => rfl
  | cons b q ih => rw [List.foldl_cons, ih, commitBlk_head]

theorem commit_head : (s.commit h).1.head = s.head := by
  unfold commit
  split
  · rfl
  split
  · rfl
  · rename_i q _ _ _
    exact foldl_commitBlk_head q.reverse s

theorem updateExec_head (h' : Hash) : (s.updateExec h h').1.head = s.head := by
  unfold updateExec
  repeat' split
  all_goals first | rfl | exact s.commit_head _

/-- `update` changes the head in `update_hqc` only, unless the certified block is decided. -/
theorem update_head :
    (s.update h).1.head = s.head ∧ (∀ b2, s.qcRef h = some b2 → s.decided b2 = true) ∨
    ∃ blk b2, s.storage.blkCache h = some blk ∧ blk.qcRef = some b2 ∧ s.decided b2 = false ∧
      (s.update h).1.head = (s.updateHqc b2 blk.body.qc).head := by
  have hdone : ∀ (r : Outcome) (v : Head), r.1.head = v →
      (r.andThen fun s => (s.emit (.updated h), none)).1.head = v :=
    fun r v hr => Outcome.andThen_keeps hr fun u hu => (u.emit_head _).trans hu
  unfold update updateChain
  split
  · rename_i hnone
    refine .inl ⟨rfl, ?_⟩
    intro b2 hq
    simp [qcRef, Tree.qcRef, tree, hnone] at hq
  rename_i blk hblk
  have hqc : s.qcRef h = blk.qcRef := by simp [qcRef, Tree.qcRef, tree, hblk]
  split
  · rename_i hnone
    refine .inl ⟨rfl, ?_⟩
    intro b2 hq
    rw [hqc, hnone] at hq
    cases hq
  rename_i b2 hb2
  split
  · rename_i hdec
    refine .inl ⟨rfl, ?_⟩
    intro b hq
    rw [hqc, hb2] at hq
    rw [← Option.some.inj hq]
    exact hdec
  rename_i hdec
  refine .inr ⟨blk, b2, hblk, hb2, by simpa using hdec, hdone _ _ ?_⟩
  simp only []
  split
  · rfl
  split
  · rfl
  · rw [updateExec_head, updateLock_head]

end

theorem addVote_head {v : Vote} {blk : Block} (hb : s.storage.blkCache v.blkHash = some blk) :
    (s.addVote v).2 = (blk.selfQc.getD (createQuorumCert s.config v.blkHash)).addPart v.voter
        v.cert ∧
      (s.addVote v).1.head = { s.head with
        ballot := Function.update s.storage.ballot v.blkHash
          (some ((s.addVote v).2.getD (blk.selfQc.getD (createQuorumCert s.config v.blkHash))),
            insert v.voter blk.voted) } := by
  generalize hqc : blk.selfQc.getD (createQuorumCert s.config v.blkHash) = qc
  have hfirst : (s.modifyBlk v.blkHash fun b => { b with
      voted := insert v.voter b.voted
      selfQc := some (b.selfQc.getD (createQuorumCert s.config v.blkHash)) }).storage.blkCache
        v.blkHash = some { blk with voted := insert v.voter blk.voted, selfQc := some qc } := by
    unfold modifyBlk
    simp [hb, hqc]
  have hballot : (s.modifyBlk v.blkHash fun b => { b with
      voted := insert v.voter b.voted
      selfQc := some (b.selfQc.getD (createQuorumCert s.config v.blkHash)) }).storage.ballot =
        Function.update s.storage.ballot v.blkHash (some qc, insert v.voter blk.voted) := by
    rw [modifyBlk_ballot, hb, ← hqc]
    rfl
  have hrest : ∀ (u : Replica) (f : Block → Block) (x : Option QuorumCert × Finset ReplicaID),
      u.storage.blkCache v.blkHash = some { blk with
        voted := insert v.voter blk.voted, selfQc := some qc } →
      u.storage.ballot = Function.update s.storage.ballot v.blkHash
        (some qc, insert v.voter blk.voted) →
      ((f { blk with voted := insert v.voter blk.voted, selfQc := some qc }).selfQc,
        (f { blk with voted := insert v.voter blk.voted, selfQc := some qc }).voted) = x →
      (u.modifyBlk v.blkHash f).storage.ballot =
        Function.update s.storage.ballot v.blkHash x := by
    intro u f x hu hub hx
    rw [modifyBlk_ballot, hu, hub, Function.update_idem, ← hx]
    rfl
  unfold addVote
  simp only [hfirst, Option.bind_some]
  cases hadd : qc.addPart v.voter v.cert with
  | none =>
    refine ⟨rfl, ?_⟩
    unfold head
    simp only []
    rw [hballot]
    rfl
  | some qc' =>
    refine ⟨rfl, ?_⟩
    unfold head
    simp only []
    rw [hrest _ _ (some qc', insert v.voter blk.voted) hfirst hballot rfl]
    rfl

/-- What holds of new certificates and is kept by adding parts holds of the certificates under
construction. -/
theorem addVote_ballots {P : Hash → QuorumCert → Prop} {v : Vote} {blk : Block}
    (hb : s.storage.blkCache v.blkHash = some blk)
    (hfresh : P v.blkHash (createQuorumCert s.config v.blkHash))
    (hpart : ∀ qc qc', P v.blkHash qc → qc.addPart v.voter v.cert = some qc' → P v.blkHash qc')
    (k : ∀ h qc, (s.head.ballot h).1 = some qc → P h qc) :
    (∀ h qc, ((s.addVote v).1.head.ballot h).1 = some qc → P h qc) ∧
      ∀ qc, (s.addVote v).2 = some qc → P v.blkHash qc := by
  obtain ⟨hadd, hhead⟩ := s.addVote_head hb
  have hold : P v.blkHash (blk.selfQc.getD (createQuorumCert s.config v.blkHash)) := by
    cases hq : blk.selfQc with
    | none => exact hfresh
    | some qc =>
      apply k v.blkHash qc
      change (s.storage.ballot v.blkHash).1 = some qc
      unfold EntityStorage.ballot
      rw [hb]
      exact hq
  have hnew : ∀ qc, (s.addVote v).2 = some qc → P v.blkHash qc := by
    intro qc hqc
    rw [hadd] at hqc
    exact hpart _ qc hold hqc
  refine ⟨?_, hnew⟩
  rw [hhead]
  intro h qc hq
  by_cases hh : h = v.blkHash
  · subst h
    simp only [Function.update_self] at hq
    rw [← Option.some.inj hq]
    cases hres : (s.addVote v).2 with
    | none => exact hold
    | some qc' => exact hnew qc' hres
  · simp only [Function.update_of_ne hh] at hq
    exact k h qc hq

theorem onReceiveVote_head (v : Vote) : (s.onReceiveVote v).1.head = s.head ∨
    ∃ blk, s.storage.blkCache v.blkHash = some blk ∧ blk.delivered = true ∧
      blk.voted.card < s.config.nmajority ∧ v.voter ∉ blk.voted ∧
      ((s.onReceiveVote v).1.head = (s.addVote v).1.head ∨
        ∃ qc, (s.addVote v).2 = some qc ∧ blk.voted.card + 1 = s.config.nmajority ∧
          (s.onReceiveVote v).1.head = ((s.addVote v).1.updateHqc v.blkHash qc).head) := by
  have hpoll := s.polling v
  generalize s.onReceiveVote v = r at hpoll ⊢
  cases hpoll with
  | absent | undelivered | full | again => exact .inl rfl
  | mismatch hb hd hn hv hu | counted hb hd hn hv hu =>
    refine .inr ⟨_, hb, hd, hn, hv, .inl ?_⟩
    rw [hu]
  | @quorum blk u qc hb hd hn hv hu hlast =>
    refine .inr ⟨blk, hb, hd, hn, hv, .inr ⟨qc, ?_, hlast, ?_⟩⟩
    · rw [hu]
    · rw [hu]
      exact onQcFinish_head ..

theorem storeInMapForMc_head (h : Hash) : (s.storeInMapForMc h).head = s.head := by
  unfold storeInMapForMc EntityStorage.addCidBlkhash
  split <;> rfl

theorem onDeliverBlk_head (h : Hash) : (s.onDeliverBlk h).1.head = s.head ∨
    (s.onDeliverBlk h).2 = .ok true ∧ ∃ ts, (∀ x ∈ ts, x ∈ s.tails ∨ x = h) ∧
      (s.onDeliverBlk h).1.head = { s.head with tails := ts } := by
  have hlinked : ∀ ps k, (s.modifyBlk h (·.linked ps k)).head = s.head :=
    fun _ _ => s.modifyBlk_head h _ (fun _ => rfl) fun _ => rfl
  have hdelivery := s.delivery h
  generalize s.onDeliverBlk h = r at hdelivery ⊢
  cases hdelivery with
  | absent | again => exact .inl rfl
  | unparented | orphan | uncertified => exact .inl (hlinked ..)
  | @done blk p =>
    generalize blk.body.parentHashes = parents
    refine .inr ⟨rfl, (s.tails.filter fun b => decide (b ∉ parents)).insert h, ?_, ?_⟩
    · intro x hx
      cases List.mem_insert_iff.mp hx with
      | inl h => exact .inr h
      | inr h => exact .inl (List.mem_of_mem_filter h)
    · have hl := hlinked parents (s.height p + 1)
      have htails : (s.modifyBlk h (·.linked parents (s.height p + 1))).tails = s.tails := rfl
      generalize s.modifyBlk h (·.linked parents (s.height p + 1)) = u at hl htails ⊢
      simp only []
      unfold markDelivered
      simp only []
      rw [storeInMapForMc_head, ← hl, ← htails]
      refine (modifyBlk_head _ _ _ ?_ ?_).trans rfl
      · exact fun _ => rfl
      · exact fun _ => rfl

theorem storeProposal_head (h : Hash) (b : Block) (parents : List Hash) (hq : b.selfQc = none)
    (hv : b.voted = ∅) : (s.storeProposal h b parents).head = { s.head with
      tails := s.tails.filter fun t => decide (t ∉ parents)
      ballot := Function.update s.storage.ballot h
        (some (createQuorumCert s.config h), (s.storage.ballot h).2) } := by
  have hadd := addBlk_head { s with tails := s.tails.filter fun t => decide (t ∉ parents) } h b
    hq hv
  have hstored : ∃ blk, (addBlk { s with tails := s.tails.filter fun t => decide (t ∉ parents) }
      h b).storage.blkCache h = some blk := by
    unfold addBlk EntityStorage.addBlk
    split
    · rename_i hsome
      exact Option.isSome_iff_exists.mp hsome
    · exact ⟨b, Function.update_self ..⟩
  have hconfig : (addBlk { s with tails := s.tails.filter fun t => decide (t ∉ parents) } h
    b).config = s.config := rfl
  unfold storeProposal
  simp only []
  generalize addBlk { s with tails := s.tails.filter fun t => decide (t ∉ parents) } h b = u
    at hadd hstored hconfig ⊢
  obtain ⟨blk, hblk⟩ := hstored
  have hbal : u.storage.ballot = s.storage.ballot := congrArg Head.ballot hadd
  have hvoted : (s.storage.ballot h).2 = blk.voted := by
    rw [← hbal]
    unfold EntityStorage.ballot
    rw [hblk]
    rfl
  have hballot := u.modifyBlk_ballot h
    fun blk => { blk with selfQc := some (createQuorumCert u.config h) }
  rw [hbal, hconfig, hblk, Option.map_some, Option.getD_some, ← hvoted] at hballot
  have hqc : u.hqc = s.hqc := congrArg Head.hqc hadd
  have htails : u.tails = s.tails.filter fun t => decide (t ∉ parents) :=
    congrArg Head.tails hadd
  have htail : u.pmaker.hqcTail = s.pmaker.hqcTail := congrArg Head.hqcTail hadd
  unfold head
  rw [hconfig, hballot, ← htails, ← htail, ← hqc]
  rfl

theorem ballot_map {g : Block → Block} (hq : ∀ b, (g b).selfQc = b.selfQc)
    (hv : ∀ b, (g b).voted = b.voted) :
    ({ s.storage with blkCache := fun h => (s.storage.blkCache h).map g } : EntityStorage).ballot =
      s.storage.ballot := by
  funext h
  unfold EntityStorage.ballot
  simp only [Option.map_map, Function.comp_def, hq, hv]

theorem uncomplained_head : s.uncomplained.head = s.head :=
  congrArg (Head.mk s.hqc s.tails s.pmaker.hqcTail) (s.ballot_map (fun _ => rfl) fun _ => rfl)

theorem unrotated_head : s.unrotated.head = s.head :=
  congrArg (Head.mk s.hqc s.tails s.pmaker.hqcTail) (s.ballot_map (fun _ => rfl) fun _ => rfl)

theorem RecsOnly.head {s u : Replica} (h : RecsOnly s u) : u.head = s.head := by
  have hrest := congrArg Replica.head h.rest
  exact hrest

theorem sendReconfigAck_head (fin : Finality) (r : Recs) :
    (s.sendReconfigAck fin r).head = s.head := by
  unfold sendReconfigAck
  simp only []
  split
  · rw [emit_head, answerClient_head]
  · exact s.answerClient_head fin

theorem exec_head (C : Crypto) {op : Op} (hop : op.onHead = false) :
    (s.exec C op).1.head = s.head := by
  cases op with
  | receiveMcLocal prop x => exact (s.receiveMcLocal_mcOnly prop x).head
  | relayMc prop x => exact (s.relayMc_mcOnly prop x).head
  | remoteViewChangeTimeout cid =>
    exact s.view_of_uncomplained uncomplained_head (s.remoteViewChangeTimeout_uncomplained C cid)
  | receiveLComplain c =>
    exact s.view_of_uncomplained uncomplained_head (s.onReceiveLComplain_uncomplained C c)
  | receiveRComplain c junk =>
    exact s.view_of_unrotated unrotated_head (s.onReceiveRComplain_unrotated c junk)
  | msgRecs r => exact (s.msgRecsHandler_recsOnly r).head
  | sendReconfigAck fin r => exact s.sendReconfigAck_head fin r
  | msgRecsAggEchoReady msg => exact (s.msgRecsAggEchoReadyHandler_recsOnly msg).head
  | asyncQcFinish blk => exact s.asyncQcFinish_head blk
  | waitDecision cmdHash cb => exact s.waitDecision_head cmdHash cb
  | _ => exact absurd hop (by simp [Op.onHead])

end Replica

end AvaHotstuff
