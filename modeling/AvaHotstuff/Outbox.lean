import AvaHotstuff.Frame

set_option autoImplicit false

namespace AvaHotstuff

def Event.posted : Event → Bool
  | .otherClusters _ _ | .consensus _ | .relay _ _ => true
  | _ => false

/-- The count that `get_leave_set` has sent, the counts heard from the other clusters and the
recipients there, the commits and the messages that cross clusters. -/
structure Outbox where
  sent : ℤ
  heard : ℕ → ℤ
  recipients : List PeerId
  log : List Event

namespace Replica
variable (s : Replica)

def outbox : Outbox where
  sent := s.recs.reconfigSent
  heard := s.mc.clusteridToReconfigCount
  recipients := s.mc.otherPeersFPlusOne
  log := s.trace.filter Event.posted

theorem emit_outbox {e : Event} (he : e.posted = false) : (s.emit e).outbox = s.outbox := by
  unfold outbox
  rw [emit_trace, List.filter_append, List.filter_cons_of_neg (by simp [he]), List.filter_nil,
    List.append_nil]
  rfl

theorem emit_outbox_log {e : Event} (he : e.posted = true) :
    (s.emit e).outbox = { s.outbox with log := s.outbox.log ++ [e] } := by
  unfold outbox
  rw [emit_trace, List.filter_append, List.filter_cons_of_pos he, List.filter_nil]
  rfl

section
variable (h : Hash)

theorem storeInMapForMc_outbox : (s.storeInMapForMc h).outbox = s.outbox := by
  unfold storeInMapForMc EntityStorage.addCidBlkhash
  split <;> rfl

theorem updateHqc_outbox (qc : QuorumCert) : (s.updateHqc h qc).outbox = s.outbox := by
  unfold updateHqc
  split <;> rfl

theorem updateLock_outbox : (s.updateLock h).outbox = s.outbox := by
  unfold updateLock
  split <;> rfl

theorem onQcFinish_outbox : (s.onQcFinish h).outbox = s.outbox := by
  unfold onQcFinish
  split
  · exact s.emit_outbox rfl
  · rfl

theorem finishQcRef_outbox : (s.finishQcRef h).outbox = s.outbox := by
  unfold finishQcRef
  split
  · rfl
  · exact s.onQcFinish_outbox _

theorem asyncQcFinish_outbox : (s.asyncQcFinish h).outbox = s.outbox := by
  unfold asyncQcFinish
  split
  · rfl
  split
  · exact s.emit_outbox rfl
  · rfl

theorem waitDecision_outbox (cb : ℕ) : (s.waitDecision h cb).outbox = s.outbox := by
  unfold waitDecision
  split
  · rfl
  · exact s.emit_outbox rfl

theorem answerClient_outbox (fin : Finality) : (s.answerClient fin).outbox = s.outbox := by
  unfold answerClient
  split
  · rfl
  · exact s.emit_outbox rfl

theorem foldl_decideCmd_outbox (blk : Block) (is : List ℕ) (s : Replica) :
    (is.foldl (decideCmd blk h) s).outbox = s.outbox := by
  induction is generalizing s with
  | nil => rfl
  | cons i is ih =>
    rw [List.foldl_cons, ih]
    unfold decideCmd doDecide
    rw [answerClient_outbox, emit_outbox _ rfl]

theorem executeBlk_outbox : (s.executeBlk h).outbox = s.outbox := by
  unfold executeBlk
  split
  · rfl
  · rw [foldl_decideCmd_outbox, emit_outbox _ rfl]

theorem addVote_outbox (v : Vote) : (s.addVote v).1.outbox = s.outbox := by
  unfold addVote
  simp only []
  split
  · rfl
  split <;> rfl

theorem onReceiveVote_outbox (v : Vote) : (s.onReceiveVote v).1.outbox = s.outbox := by
  refine onReceiveVote_keeps (s.addVote_outbox v) ?_
  intro u qc
  rw [onQcFinish_outbox, updateHqc_outbox]

theorem doVote_outbox (C : Crypto) : (s.doVote C h).1.outbox = s.outbox := by
  unfold doVote
  simp only []
  split
  · rw [onReceiveVote_outbox, emit_outbox _ rfl]
  · simp only []
    rw [emit_outbox _ rfl, emit_outbox _ rfl]

theorem takeOpinion_outbox (o : Bool) : (s.takeOpinion h o).outbox = s.outbox := by
  unfold takeOpinion
  split
  · exact emit_outbox _ rfl
  · rfl

theorem judgeProposal_outbox (C : Crypto) (selfProp : Bool) :
    (s.judgeProposal C selfProp h).1.outbox = s.outbox :=
  judgeProposal_keeps selfProp (s.takeOpinion_outbox h) (fun u => u.finishQcRef_outbox h)
    (fun _ => rfl) fun u => u.doVote_outbox h C

theorem onDeliverBlk_outbox : (s.onDeliverBlk h).1.outbox = s.outbox := by
  have hdelivery := s.delivery h
  generalize s.onDeliverBlk h = r at hdelivery
  cases hdelivery with
  | absent | again | unparented | orphan | uncertified => rfl
  | done =>
    simp only []
    unfold markDelivered
    simp only []
    rw [storeInMapForMc_outbox]
    rfl

theorem decideAfterMc_outbox (cid : ℕ) : (s.decideAfterMc cid).outbox = s.outbox := by
  unfold decideAfterMc
  split
  · rfl
  split
  · exact s.executeBlk_outbox _
  · rfl

end

theorem storeProposal_outbox (h : Hash) (b : Block) (parents : List Hash) :
    (s.storeProposal h b parents).outbox = s.outbox := rfl

end Replica

/-- The announcement says what `get_leave_set` returns in state `s`. -/
def Replica.Announces (s : Replica) (prop : Proposal) : Prop :=
  prop.currentPeerSet = ∅ ∨
    s.checkLeader = true ∧ s.recs.reconfigSent < s.recs.reconfigCount ∧
      prop.reconfigCount = s.recs.reconfigCount ∧ prop.currentPeerSet = s.recs.leaveSetInt

structure Posts (s u : Replica) : Prop where
  frame : u.frame = s.frame
  sent : s.recs.reconfigSent ≤ u.recs.reconfigSent
  log : ∃ es, u.outbox.log = s.outbox.log ++ es ∧ ∀ prop dsts, .otherClusters prop dsts ∈ es →
    s.Announces prop ∧ ∃ blk, .consensus blk ∈ es

theorem Replica.Announces.of_frame {s u : Replica} {prop : Proposal} (h : u.Announces prop)
    (hframe : u.frame = s.frame) (hsent : s.recs.reconfigSent ≤ u.recs.reconfigSent) :
    s.Announces prop := by
  have hleader : u.checkLeader = s.checkLeader :=
    congrArg (fun f : Frame => decide (f.id = f.proposer)) hframe
  have hcount : u.recs.reconfigCount = s.recs.reconfigCount :=
    congrArg (fun f : Frame => f.recs.reconfigCount) hframe
  have hset : u.recs.leaveSetInt = s.recs.leaveSetInt :=
    congrArg (fun f : Frame => f.recs.leaveSetInt) hframe
  refine h.imp_right ?_
  rintro ⟨hlead, hlt, hc, hs⟩
  rw [hleader] at hlead
  rw [hcount] at hlt hc
  rw [hset] at hs
  exact ⟨hlead, by omega, hc, hs⟩

namespace Posts
variable {s u v : Replica}

theorem same (hframe : u.frame = s.frame) (hbox : u.outbox = s.outbox) : Posts s u := by
  have hsent : u.recs.reconfigSent = s.recs.reconfigSent := congrArg Outbox.sent hbox
  refine ⟨hframe, Int.le_of_eq hsent.symm, [], ?_, ?_⟩
  · rw [congrArg Outbox.log hbox, List.append_nil]
  · intro prop dsts hmem
    exact absurd hmem List.not_mem_nil

theorem trans (h : Posts s u) (h' : Posts u v) : Posts s v := by
  obtain ⟨es, hes, hall⟩ := h.log
  obtain ⟨es', hes', hall'⟩ := h'.log
  refine ⟨h'.frame.trans h.frame, Int.le_trans h.sent h'.sent, es ++ es', ?_, ?_⟩
  · rw [hes', hes, List.append_assoc]
  · intro prop dsts hmem
    rcases List.mem_append.mp hmem with hl | hr
    · obtain ⟨ha, blk, hblk⟩ := hall prop dsts hl
      exact ⟨ha, blk, List.mem_append_left _ hblk⟩
    · obtain ⟨ha, blk, hblk⟩ := hall' prop dsts hr
      exact ⟨ha.of_frame h.frame h.sent, blk, List.mem_append_right _ hblk⟩

end Posts

theorem Replica.getLeaveSet_spec (s : Replica) :
    s.getLeaveSet.2.frame = s.frame ∧ s.recs.reconfigSent ≤ s.getLeaveSet.2.recs.reconfigSent ∧
      s.getLeaveSet.2.outbox.log = s.outbox.log ∧ (s.getLeaveSet.1.2 = ∅ ∨
        s.recs.reconfigSent < s.recs.reconfigCount ∧
          s.getLeaveSet.1 = (s.recs.reconfigCount, s.recs.leaveSetInt)) := by
  unfold getLeaveSet
  split
  next hlt => exact ⟨rfl, Int.le_of_lt hlt, rfl, Or.inr ⟨hlt, rfl⟩⟩
  next => exact ⟨rfl, Int.le_refl _, rfl, Or.inl rfl⟩

theorem Replica.doBroadcastProposalOtherClusters_outbox (s : Replica) (prop : Proposal) :
    ∃ dsts, (s.doBroadcastProposalOtherClusters prop).outbox = { s.outbox with
      recipients := dsts
      log := s.outbox.log ++ [.otherClusters prop dsts] } := by
  have hinit : s.initOtherPeers.outbox =
      { s.outbox with recipients := s.initOtherPeers.mc.otherPeersFPlusOne } := by
    unfold initOtherPeers
    split <;> rfl
  refine ⟨s.initOtherPeers.mc.otherPeersFPlusOne, ?_⟩
  unfold doBroadcastProposalOtherClusters
  simp only []
  rw [emit_outbox_log _ rfl, hinit]

section
variable {s u : Replica} {blk : Hash}

theorem Posts.announcement (hframe : u.frame = s.frame)
    (hsent : s.recs.reconfigSent ≤ u.recs.reconfigSent)
    (hlog : u.outbox.log = s.outbox.log ++ [.consensus blk]) {prop : Proposal}
    (ha : s.Announces prop) : Posts s (u.doBroadcastProposalOtherClusters prop) := by
  obtain ⟨dsts, hpost⟩ := u.doBroadcastProposalOtherClusters_outbox prop
  have hpsent : (u.doBroadcastProposalOtherClusters prop).recs.reconfigSent =
      u.recs.reconfigSent := congrArg Outbox.sent hpost
  have hplog : (u.doBroadcastProposalOtherClusters prop).outbox.log =
      u.outbox.log ++ [.otherClusters prop dsts] := congrArg Outbox.log hpost
  refine ⟨?_, ?_, [.consensus blk, .otherClusters prop dsts], ?_, ?_⟩
  · rw [Replica.doBroadcastProposalOtherClusters_frame, hframe]
  · rw [hpsent]
    exact hsent
  · rw [hplog, hlog, List.append_assoc]
    rfl
  · intro prop' dsts' hmem
    have heq : prop' = prop := by
      have hboth : prop' = prop ∧ dsts' = dsts := by simpa using hmem
      exact hboth.1
    rw [heq]
    exact ⟨ha, blk, List.mem_cons_self ..⟩

end

namespace Replica
variable (s : Replica) (blk : Hash)

theorem notifyOtherClusters_posts :
    Posts s ((s.emit (.consensus blk)).notifyOtherClusters blk) := by
  have hlog : (s.emit (.consensus blk)).outbox.log = s.outbox.log ++ [.consensus blk] :=
    congrArg Outbox.log (s.emit_outbox_log rfl)
  obtain ⟨hf, hsent, hbox, hset⟩ := (s.emit (.consensus blk)).getLeaveSet_spec
  rw [hlog] at hbox
  rw [emit_frame _ rfl] at hf
  unfold notifyOtherClusters
  simp only []
  generalize (s.emit (.consensus blk)).getLeaveSet = r at hf hsent hbox hset ⊢
  obtain ⟨⟨count, set⟩, u⟩ := r
  simp only [] at hf hsent hbox hset ⊢
  split
  next hlead =>
    refine Posts.announcement hf hsent hbox ?_
    have hleader : u.checkLeader = s.checkLeader :=
      congrArg (fun f : Frame => decide (f.id = f.proposer)) hf
    refine hset.imp_right ?_
    rintro ⟨hlt, heq⟩
    rw [Bool.and_eq_true, hleader] at hlead
    exact ⟨hlead.1, hlt, congrArg Prod.fst heq, congrArg Prod.snd heq⟩
  next =>
    refine ⟨hf, hsent, [.consensus blk], hbox, ?_⟩
    intro prop dsts hmem
    simp at hmem

theorem commitBlk_posts : Posts s (s.commitBlk blk) := by
  have hmod : Posts s (s.modifyBlk blk fun b => { b with decision := true }) :=
    .same (s.modifyBlk_frame blk _ (fun _ => rfl) fun _ => rfl) rfl
  have hnotify := hmod.trans (notifyOtherClusters_posts _ blk)
  refine hnotify.trans ?_
  unfold commitBlk
  simp only []
  generalize notifyOtherClusters _ blk = u
  split
  · exact .same (executeBlk_frame _ blk) (executeBlk_outbox _ blk)
  · exact .same rfl rfl

theorem foldl_commitBlk_posts (q : List Hash) (s : Replica) : Posts s (q.foldl commitBlk s) := by
  induction q generalizing s with
  | nil => exact .same rfl rfl
  | cons b q ih =>
    rw [List.foldl_cons]
    exact (s.commitBlk_posts b).trans (ih _)

theorem commit_posts : Posts s (s.commit blk).1 := by
  unfold commit
  split
  · exact .same rfl rfl
  split
  · exact .same rfl rfl
  · rename_i q _ _ _
    exact (foldl_commitBlk_posts q.reverse s).trans (.same rfl rfl)

theorem updateExec_posts (blk' : Hash) : Posts s (s.updateExec blk blk').1 := by
  unfold updateExec
  repeat' split
  all_goals first | exact .same rfl rfl | exact s.commit_posts _

theorem updateHqc_posts (qc : QuorumCert) : Posts s (s.updateHqc blk qc) :=
  .same (s.updateHqc_frame blk qc) (s.updateHqc_outbox blk qc)

theorem updateChain_posts : Posts s (s.updateChain blk).1 := by
  unfold updateChain
  split
  · exact .same rfl rfl
  rename_i n _
  split
  · exact .same rfl rfl
  rename_i blk2 _
  split
  · exact .same rfl rfl
  simp only []
  refine (s.updateHqc_posts blk2 n.body.qc).trans ?_
  generalize s.updateHqc blk2 n.body.qc = u
  split
  · exact .same rfl rfl
  split
  · exact .same rfl rfl
  · refine Posts.trans ?_ (updateExec_posts _ _ _)
    exact .same (u.updateLock_frame _) (u.updateLock_outbox _)

end Replica

theorem Posts.andThen {s : Replica} {r : Outcome} {f : Replica → Outcome} (h : Posts s r.1)
    (hf : ∀ u, Posts u (f u).1) : Posts s (r.andThen f).1 := by
  obtain ⟨u, none | e⟩ := r
  · exact h.trans (hf u)
  · exact h

namespace Replica
variable (s : Replica) (blk : Hash)

theorem update_posts : Posts s (s.update blk).1 :=
  (s.updateChain_posts blk).andThen fun u => .same (u.emit_frame rfl) (u.emit_outbox rfl)

theorem judgeProposal_posts (C : Crypto) (selfProp : Bool) :
    Posts s (s.judgeProposal C selfProp blk).1 :=
  .same (s.judgeProposal_frame blk C selfProp) (s.judgeProposal_outbox blk C selfProp)

theorem onReceiveProposal_posts (C : Crypto) (proposer : ReplicaID) :
    Posts s (s.onReceiveProposal C proposer blk).1 := by
  unfold onReceiveProposal
  split
  · exact s.judgeProposal_posts blk C true
  split
  · exact .same rfl rfl
  · exact (s.update_posts blk).andThen fun u => u.judgeProposal_posts blk C false

theorem finishProposal_posts (C : Crypto) : Posts s (s.finishProposal C blk).1 := by
  unfold finishProposal
  split
  · exact .same rfl rfl
  · refine (s.onReceiveProposal_posts blk C s.id).andThen ?_
    intro u
    exact .same (emit_frame (u.notifyPropose blk) rfl) (emit_outbox (u.notifyPropose blk) rfl)

theorem onPropose_posts (C : Crypto) (cmds : List Hash) (keys vals : List ℤ)
    (parents : List Hash) (extra : List UInt8) :
    Posts s (s.onPropose C cmds keys vals parents extra).1 := by
  unfold onPropose
  split
  · exact .same rfl rfl
  rename_i p _
  simp only []
  have hstore := s.storeProposal_frame
    (C.getHash (s.newBlock cmds keys vals parents p extra).body)
    (s.newBlock cmds keys vals parents p extra) parents rfl rfl
  generalize s.newBlock cmds keys vals parents p extra = b at hstore ⊢
  have hdel : Posts s
      ((s.storeProposal (C.getHash b.body) b parents).onDeliverBlk (C.getHash b.body)).1 := by
    refine .same ?_ ?_
    · rw [onDeliverBlk_frame, hstore]
    · rw [onDeliverBlk_outbox, storeProposal_outbox]
  generalize (s.storeProposal (C.getHash b.body) b parents).onDeliverBlk (C.getHash b.body) = r
    at hdel
  obtain ⟨u, e | valid⟩ := r
  · exact hdel
  · exact hdel.trans ((u.update_posts _).andThen fun v => v.finishProposal_posts _ C)

theorem exec_posts (C : Crypto) {op : Op} (hop : op.onTree = true) : Posts s (s.exec C op).1 := by
  have hframe := s.exec_frame C hop
  cases op with
  | addBlk body => exact .same hframe rfl
  | deliverBlk blk =>
    refine .same hframe ?_
    change (s.deliverOutcome blk).1.outbox = s.outbox
    rw [deliverOutcome_fst]
    exact s.onDeliverBlk_outbox blk
  | receiveProposal proposer blk => exact s.onReceiveProposal_posts blk C proposer
  | receiveVote v => exact .same hframe (s.onReceiveVote_outbox v)
  | propose cmds keys vals parents extra => exact s.onPropose_posts C cmds keys vals parents extra
  | asyncQcFinish blk => exact .same hframe (s.asyncQcFinish_outbox blk)
  | waitDecision cmdHash cb => exact .same hframe (s.waitDecision_outbox cmdHash cb)
  | _ => exact absurd hop (by simp [Op.onTree])

def handsMc : Op → Option Proposal
  | .receiveMcLocal prop _ => some prop
  | .relayMc prop _ =>
    if s.didReceiveMc prop.otherClusterBlockHeight then none else some (s.propSameCluster prop)
  | _ => none

theorem countMc_outbox (prop : Proposal) (x : ℤ) : (s.countMc prop x).1.outbox = s.outbox := by
  unfold countMc
  split
  · rfl
  split
  · rfl
  split
  · change (s.finishMc prop.otherClusterBlockHeight).outbox = s.outbox
    unfold finishMc
    rw [decideAfterMc_outbox]
    rfl
  · rfl

theorem receiveMcLocal_outbox (prop : Proposal) (x : ℤ) :
    (s.receiveMcLocal prop x).1.outbox = (s.syncReconfigCount prop).outbox := by
  unfold receiveMcLocal
  simp only []
  split
  · rfl
  · exact countMc_outbox _ prop x

theorem syncReconfigCount_outbox (prop : Proposal) : (s.syncReconfigCount prop).outbox =
    { s.outbox with
      heard := Function.update s.mc.clusteridToReconfigCount prop.preAmpClusterNumber
        prop.reconfigCount
      recipients :=
        if s.mc.clusteridToReconfigCount prop.preAmpClusterNumber ≠ prop.reconfigCount then
          (s.updateOtherFPlusOne prop.currentPeerSet
            prop.preAmpClusterNumber).mc.otherPeersFPlusOne
        else s.mc.otherPeersFPlusOne } := by
  unfold syncReconfigCount
  split
  next => rfl
  next h =>
    rw [not_not] at h
    rw [← h, Function.update_eq_self]
    rfl

theorem relayMc_outbox (prop : Proposal) (x : ℤ) : (s.relayMc prop x).1.outbox =
    if s.didReceiveMc prop.otherClusterBlockHeight then s.outbox
    else { (s.syncReconfigCount (s.propSameCluster prop)).outbox with
      log := s.outbox.log ++ [.relay (s.propSameCluster prop) s.recs.peersCurrent] } := by
  unfold relayMc
  split
  · rfl
  · rw [receiveMcLocal_outbox, syncReconfigCount_outbox, emit_outbox_log _ rfl,
      syncReconfigCount_outbox]
    rfl

theorem uncomplained_outbox : s.uncomplained.outbox = s.outbox := by
  have hlog := s.uncomplained_filter (p := Event.posted) fun e he => by
    cases e <;> first | rfl | cases he
  unfold outbox
  rw [hlog]
  rfl

theorem onReceiveLComplain_outbox (C : Crypto) (c : Complain) :
    (s.onReceiveLComplain C c).1.outbox = s.outbox :=
  s.view_of_uncomplained uncomplained_outbox (s.onReceiveLComplain_uncomplained C c)

theorem remoteViewChangeTimeout_outbox (C : Crypto) (cid : ℕ) :
    (s.remoteViewChangeTimeout C cid).1.outbox = s.outbox :=
  s.view_of_uncomplained uncomplained_outbox (s.remoteViewChangeTimeout_uncomplained C cid)

theorem onReceiveRComplain_outbox (c : Complain) (junk : ℤ) :
    (s.onReceiveRComplain c junk).1.outbox = s.outbox ∨ ∃ prop dsts,
      (s.onReceiveRComplain c junk).1.outbox = { s.outbox with
        recipients := dsts
        log := s.outbox.log ++ [.otherClusters prop dsts] } ∧
      prop.currentPeerSet = ∅ := by
  unfold onReceiveRComplain
  split
  · exact Or.inl rfl
  split
  · exact Or.inl rfl
  split
  · exact Or.inl rfl
  unfold sendRComplainLocal
  simp only []
  split
  · exact Or.inl (emit_outbox _ rfl)
  · rename_i b _
    generalize hu : emit _ (.rcomplainLocal c _) = u
    have hbox : u.outbox = s.outbox := by
      rw [← hu, emit_outbox _ rfl]
      rfl
    obtain ⟨dsts, hpost⟩ := u.doBroadcastProposalOtherClusters_outbox
      ⟨u.id, b, u.clusterId, u.clusterId, u.height b, 1, ∅, junk⟩
    rw [hbox] at hpost
    exact Or.inr ⟨_, dsts, hpost, rfl⟩

theorem RecsOnly.outbox {s u : Replica} (h : RecsOnly s u) : u.outbox = s.outbox := by
  have hlog : u.trace.filter Event.posted = s.trace.filter Event.posted := by
    apply h.trace.filter
    intro e he
    cases e <;> first | rfl | cases he
  calc u.outbox = { u.outbox with
        sent := s.recs.reconfigSent, log := s.trace.filter Event.posted } := by
        rw [← hlog, ← h.reconfigSent]
        rfl
    _ = s.outbox := congrArg Replica.outbox h.rest

theorem msgRecsHandler_outbox (r : Recs) : (s.msgRecsHandler r).outbox = s.outbox :=
  (s.msgRecsHandler_recsOnly r).outbox

theorem sendReconfigAck_outbox (fin : Finality) (r : Recs) :
    (s.sendReconfigAck fin r).outbox = s.outbox := by
  unfold sendReconfigAck
  simp only []
  split
  · rw [emit_outbox _ rfl, answerClient_outbox]
  · exact s.answerClient_outbox fin

theorem msgRecsAggEchoReadyHandler_outbox (msg : MsgRecsAggEchoReady) :
    (s.msgRecsAggEchoReadyHandler msg).1.outbox = s.outbox :=
  (s.msgRecsAggEchoReadyHandler_recsOnly msg).outbox

theorem exec_heard (C : Crypto) (op : Op) : (s.exec C op).1.mc.clusteridToReconfigCount =
    match s.handsMc op with
    | none => s.mc.clusteridToReconfigCount
    | some prop => Function.update s.mc.clusteridToReconfigCount prop.preAmpClusterNumber
        prop.reconfigCount := by
  change (s.exec C op).1.outbox.heard = _
  have hkeep : ∀ u : Replica, u.outbox = s.outbox →
      u.outbox.heard = s.mc.clusteridToReconfigCount := fun u hu => congrArg Outbox.heard hu
  cases op with
  | receiveMcLocal prop x =>
    change (s.receiveMcLocal prop x).1.outbox.heard = _
    rw [receiveMcLocal_outbox, syncReconfigCount_outbox]
    rfl
  | relayMc prop x =>
    change (s.relayMc prop x).1.outbox.heard = _
    rw [relayMc_outbox]
    by_cases hfin : s.didReceiveMc prop.otherClusterBlockHeight = true
    · have hnone : s.handsMc (.relayMc prop x) = none := if_pos hfin
      rw [if_pos hfin, hnone]
      rfl
    · have hsome : s.handsMc (.relayMc prop x) = some (s.propSameCluster prop) := if_neg hfin
      rw [if_neg hfin, hsome, syncReconfigCount_outbox]
  | remoteViewChangeTimeout cid => exact hkeep _ (s.remoteViewChangeTimeout_outbox C cid)
  | receiveLComplain c => exact hkeep _ (s.onReceiveLComplain_outbox C c)
  | receiveRComplain c junk =>
    change (s.onReceiveRComplain c junk).1.outbox.heard = _
    rcases s.onReceiveRComplain_outbox c junk with hsame | ⟨p, dsts, hpost, _⟩
    · exact hkeep _ hsame
    · exact congrArg Outbox.heard hpost
  | msgRecs r => exact hkeep _ (s.msgRecsHandler_outbox r)
  | sendReconfigAck fin r => exact hkeep _ (s.sendReconfigAck_outbox fin r)
  | msgRecsAggEchoReady msg => exact hkeep _ (s.msgRecsAggEchoReadyHandler_outbox msg)
  | _ => exact congrArg (fun f : Frame => f.mc.clusteridToReconfigCount) (s.exec_frame C rfl)

theorem exec_applied (C : Crypto) {op : Op} {prop : Proposal} (h : s.handsMc op = some prop)
    (hnew : s.mc.clusteridToReconfigCount prop.preAmpClusterNumber ≠ prop.reconfigCount) :
    (s.exec C op).1.mc.otherPeersFPlusOne = (s.updateOtherFPlusOne prop.currentPeerSet
      prop.preAmpClusterNumber).mc.otherPeersFPlusOne := by
  change (s.exec C op).1.outbox.recipients = _
  cases op with
  | receiveMcLocal p x =>
    cases h
    change (s.receiveMcLocal prop x).1.outbox.recipients = _
    rw [receiveMcLocal_outbox, syncReconfigCount_outbox]
    exact if_pos hnew
  | relayMc p x =>
    change (s.relayMc p x).1.outbox.recipients = _
    change (if s.didReceiveMc p.otherClusterBlockHeight then none
      else some (s.propSameCluster p)) = some prop at h
    by_cases hfin : s.didReceiveMc p.otherClusterBlockHeight = true
    · rw [if_pos hfin] at h
      cases h
    · rw [if_neg hfin] at h
      cases h
      rw [relayMc_outbox, if_neg hfin, syncReconfigCount_outbox]
      exact if_pos hnew
  | _ => cases h

end Replica

end AvaHotstuff
