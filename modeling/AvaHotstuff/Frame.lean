import AvaHotstuff.Exec

set_option autoImplicit false

/-!
# What the commit path leaves alone

Voting, committing and executing touch the block tree and the state of the
protocol. The configuration, the membership, the completion of heights by the other
clusters and the complaints are changed by their own handlers only; `Frame` collects
them, with the fields that the commit loop writes blanked out.
-/
namespace AvaHotstuff

def Event.onFrame : Event → Bool
  | .relay _ _ | .lcomplain _ _ | .rcomplain _ | .rcomplainSent _ _ | .rcomplainLocal _ _
  | .recsAck _ _ | .recsSent _ _ _ _ | .reconfigured _ _ => true
  | _ => false

def McState.quiet (m : McState) : McState :=
  { m with
    finishedUpdateCids := ∅
    cidToRemoteViewChangeTimer := fun _ => none
    otherPeersFPlusOneInit := false
    otherPeersFPlusOne := [] }

def Membership.quiet (m : Membership) : Membership := { m with reconfigSent := 0 }

def EntityStorage.lcomplains (st : EntityStorage) (h : Hash) : Finset ReplicaID :=
  ((st.blkCache h).map (·.lcomplains)).getD ∅

def EntityStorage.rcomplains (st : EntityStorage) (h : Hash) : Finset ReplicaID :=
  ((st.blkCache h).map (·.rcomplains)).getD ∅

structure Frame where
  id : ReplicaID
  clusterId : ℕ
  config : ReplicaConfig
  voteDisabled : Bool
  proposer : ReplicaID
  mc : McState
  recs : Membership
  lcomplains : Hash → Finset ReplicaID
  rcomplains : Hash → Finset ReplicaID
  log : List Event

def Op.onTree : Op → Bool
  | .addBlk _ | .deliverBlk _ | .receiveProposal _ _ | .receiveVote _ | .propose _ _ _ _ _
  | .asyncQcFinish _ | .waitDecision _ _ => true
  | _ => false

namespace Replica
variable (s : Replica)

def frame : Frame where
  id := s.id
  clusterId := s.clusterId
  config := s.config
  voteDisabled := s.voteDisabled
  proposer := s.pmaker.proposer
  mc := s.mc.quiet
  recs := s.recs.quiet
  lcomplains := s.storage.lcomplains
  rcomplains := s.storage.rcomplains
  log := s.trace.filter Event.onFrame

theorem emit_frame {e : Event} (he : e.onFrame = false) : (s.emit e).frame = s.frame := by
  unfold frame
  rw [emit_trace, List.filter_append, List.filter_cons_of_neg (by simp [he]), List.filter_nil,
    List.append_nil]
  rfl

theorem emit_frame_log {e : Event} (he : e.onFrame = true) :
    (s.emit e).frame = { s.frame with log := s.frame.log ++ [e] } := by
  unfold frame
  rw [emit_trace, List.filter_append, List.filter_cons_of_pos he, List.filter_nil]
  rfl

theorem update_frame_cache (h : Hash) (o : Option Block)
    (hl : (o.map (·.lcomplains)).getD ∅ = s.storage.lcomplains h)
    (hr : (o.map (·.rcomplains)).getD ∅ = s.storage.rcomplains h) :
    ({ s with storage := { s.storage with
      blkCache := Function.update s.storage.blkCache h o } } : Replica).frame = s.frame := by
  have hset : ∀ g : Block → Finset ReplicaID,
      (o.map g).getD ∅ = ((s.storage.blkCache h).map g).getD ∅ →
      (fun x => ((Function.update s.storage.blkCache h o x).map g).getD ∅) =
        fun x => ((s.storage.blkCache x).map g).getD ∅ := by
    intro g hg
    funext x
    by_cases hx : x = h
    · subst x
      rw [Function.update_self]
      exact hg
    · rw [Function.update_of_ne hx]
  have hlc : ({ s.storage with blkCache := Function.update s.storage.blkCache h o } :
      EntityStorage).lcomplains = s.storage.lcomplains := hset _ hl
  have hrc : ({ s.storage with blkCache := Function.update s.storage.blkCache h o } :
      EntityStorage).rcomplains = s.storage.rcomplains := hset _ hr
  unfold frame
  rw [hlc, hrc]

theorem modifyBlk_frame (h : Hash) (f : Block → Block)
    (hl : ∀ b, (f b).lcomplains = b.lcomplains) (hr : ∀ b, (f b).rcomplains = b.rcomplains) :
    (s.modifyBlk h f).frame = s.frame := by
  refine s.update_frame_cache h _ ?_ ?_
  · unfold EntityStorage.lcomplains
    cases s.storage.blkCache h with
    | none => rfl
    | some b => exact hl b
  · unfold EntityStorage.rcomplains
    cases s.storage.blkCache h with
    | none => rfl
    | some b => exact hr b

theorem addBlk_frame (h : Hash) (b : Block) (hl : b.lcomplains = ∅) (hr : b.rcomplains = ∅) :
    (s.addBlk h b).frame = s.frame := by
  unfold addBlk EntityStorage.addBlk
  split
  · rfl
  rename_i hnone
  rw [Option.not_isSome_iff_eq_none] at hnone
  refine s.update_frame_cache h _ ?_ ?_
  · unfold EntityStorage.lcomplains
    rw [hnone]
    exact hl
  · unfold EntityStorage.rcomplains
    rw [hnone]
    exact hr

section
variable (h : Hash)

theorem storeInMapForMc_frame : (s.storeInMapForMc h).frame = s.frame := by
  unfold storeInMapForMc EntityStorage.addCidBlkhash
  split <;> rfl

theorem updateHqc_frame (qc : QuorumCert) : (s.updateHqc h qc).frame = s.frame := by
  unfold updateHqc
  split <;> rfl

theorem updateLock_frame : (s.updateLock h).frame = s.frame := by
  unfold updateLock
  split <;> rfl

theorem onQcFinish_frame : (s.onQcFinish h).frame = s.frame := by
  unfold onQcFinish
  split
  · exact s.emit_frame rfl
  · rfl

theorem finishQcRef_frame : (s.finishQcRef h).frame = s.frame := by
  unfold finishQcRef
  split
  · rfl
  · exact s.onQcFinish_frame _

theorem asyncQcFinish_frame : (s.asyncQcFinish h).frame = s.frame := by
  unfold asyncQcFinish
  split
  · rfl
  split
  · exact s.emit_frame rfl
  · rfl

theorem waitDecision_frame (cb : ℕ) : (s.waitDecision h cb).frame = s.frame := by
  unfold waitDecision
  split
  · rfl
  · exact s.emit_frame rfl

theorem doBroadcastProposalOtherClusters_frame (prop : Proposal) :
    (s.doBroadcastProposalOtherClusters prop).frame = s.frame := by
  unfold doBroadcastProposalOtherClusters
  rw [emit_frame _ rfl]
  unfold initOtherPeers
  split <;> rfl

theorem notifyOtherClusters_frame : (s.notifyOtherClusters h).frame = s.frame := by
  have hleave : s.getLeaveSet.2.frame = s.frame := by
    unfold getLeaveSet
    split <;> rfl
  unfold notifyOtherClusters
  simp only []
  split
  · rw [doBroadcastProposalOtherClusters_frame, hleave]
  · exact hleave

theorem answerClient_frame (fin : Finality) : (s.answerClient fin).frame = s.frame := by
  unfold answerClient
  split
  · rfl
  · exact s.emit_frame rfl

theorem doDecide_frame (fin : Finality) (key val : ℤ) :
    (s.doDecide fin key val).frame = s.frame := by
  unfold doDecide
  rw [answerClient_frame, emit_frame _ rfl]

theorem foldl_decideCmd_frame (blk : Block) (is : List ℕ) (s : Replica) :
    (is.foldl (decideCmd blk h) s).frame = s.frame := by
  induction is generalizing s with
  | nil => rfl
  | cons i is ih =>
    rw [List.foldl_cons, ih]
    exact s.doDecide_frame ..

theorem executeBlk_frame : (s.executeBlk h).frame = s.frame := by
  unfold executeBlk
  split
  · rfl
  · rw [foldl_decideCmd_frame, emit_frame _ rfl]

theorem startRemoteViewChangeTimer_frame (cid : ℕ) :
    (s.startRemoteViewChangeTimer cid h).frame = s.frame := rfl

theorem resetRemoteViewChangeTimer_frame (cid : ℕ) :
    (s.resetRemoteViewChangeTimer cid).frame = s.frame := rfl

theorem updateFinishedUpdateCids_frame (cid : ℕ) :
    (s.updateFinishedUpdateCids cid).frame = s.frame := rfl

theorem commitBlk_frame : (s.commitBlk h).frame = s.frame := by
  have hnotify : (((s.modifyBlk h fun b => { b with decision := true }).emit
      (.consensus h)).notifyOtherClusters h).frame = s.frame := by
    rw [notifyOtherClusters_frame, emit_frame _ rfl]
    exact s.modifyBlk_frame h _ (fun _ => rfl) fun _ => rfl
  unfold commitBlk
  simp only []
  split
  · rw [resetRemoteViewChangeTimer_frame, executeBlk_frame, updateFinishedUpdateCids_frame,
      startRemoteViewChangeTimer_frame, hnotify]
  · rw [updateFinishedUpdateCids_frame, startRemoteViewChangeTimer_frame, hnotify]

theorem foldl_commitBlk_frame (q : List Hash) (s : Replica) :
    (q.foldl commitBlk s).frame = s.frame := by
  induction q generalizing s with
  | nil => rfl
  | cons b q ih => rw [List.foldl_cons, ih, commitBlk_frame]

theorem commit_frame : (s.commit h).1.frame = s.frame := by
  unfold commit
  split
  · rfl
  split
  · rfl
  · rename_i q _ _ _
    exact foldl_commitBlk_frame q.reverse s

theorem updateExec_frame (h' : Hash) : (s.updateExec h h').1.frame = s.frame := by
  unfold updateExec
  repeat' split
  all_goals first | rfl | exact s.commit_frame _

theorem update_frame : (s.update h).1.frame = s.frame := by
  unfold update
  refine Outcome.andThen_keeps ?_ fun u hu => (u.emit_frame rfl).trans hu
  unfold updateChain
  split
  · rfl
  split
  · rfl
  split
  · rfl
  simp only []
  split
  · exact s.updateHqc_frame ..
  split
  · exact s.updateHqc_frame ..
  · rw [updateExec_frame, updateLock_frame, updateHqc_frame]

theorem addVote_frame (v : Vote) : (s.addVote v).1.frame = s.frame := by
  have hmod : (s.modifyBlk v.blkHash fun b => { b with
      voted := insert v.voter b.voted
      selfQc := some (b.selfQc.getD (createQuorumCert s.config v.blkHash)) }).frame = s.frame :=
    s.modifyBlk_frame v.blkHash _ (fun _ => rfl) fun _ => rfl
  unfold addVote
  simp only []
  split
  · exact hmod
  split
  · exact hmod
  · rw [← hmod]
    exact modifyBlk_frame _ v.blkHash _ (fun _ => rfl) fun _ => rfl

theorem onReceiveVote_frame (v : Vote) : (s.onReceiveVote v).1.frame = s.frame := by
  refine onReceiveVote_keeps (s.addVote_frame v) ?_
  intro u qc
  rw [onQcFinish_frame, updateHqc_frame]

theorem doVote_frame (C : Crypto) : (s.doVote C h).1.frame = s.frame := by
  unfold doVote
  simp only []
  split
  · rw [onReceiveVote_frame, emit_frame _ rfl]
  · simp only []
    rw [emit_frame _ rfl, emit_frame _ rfl]

theorem takeOpinion_frame (o : Bool) : (s.takeOpinion h o).frame = s.frame := by
  unfold takeOpinion
  split
  · exact emit_frame _ rfl
  · rfl

theorem opined_frame (selfProp o : Bool) : (s.opined selfProp h o).frame = s.frame :=
  opined_keeps selfProp (s.takeOpinion_frame h o) fun u => u.finishQcRef_frame h

theorem judgeProposal_frame (C : Crypto) (selfProp : Bool) :
    (s.judgeProposal C selfProp h).1.frame = s.frame :=
  judgeProposal_keeps selfProp (s.takeOpinion_frame h) (fun u => u.finishQcRef_frame h)
    (fun _ => rfl) fun u => u.doVote_frame h C

theorem onReceiveProposal_frame (C : Crypto) (proposer : ReplicaID) :
    (s.onReceiveProposal C proposer h).1.frame = s.frame := by
  unfold onReceiveProposal
  split
  · exact s.judgeProposal_frame h C true
  split
  · rfl
  · refine Outcome.andThen_keeps (s.update_frame h) ?_
    intro u hu
    rw [judgeProposal_frame]
    exact hu

theorem linked_frame (parents : List Hash) (k : ℕ) :
    (s.modifyBlk h (·.linked parents k)).frame = s.frame :=
  s.modifyBlk_frame h _ (fun _ => rfl) fun _ => rfl

theorem onDeliverBlk_frame : (s.onDeliverBlk h).1.frame = s.frame := by
  have hdelivery := s.delivery h
  generalize s.onDeliverBlk h = r at hdelivery
  cases hdelivery with
  | absent | again => rfl
  | unparented | orphan | uncertified => exact s.linked_frame ..
  | done =>
    simp only []
    unfold markDelivered
    simp only []
    rw [storeInMapForMc_frame, modifyBlk_frame]
    · exact s.linked_frame ..
    · exact fun _ => rfl
    · exact fun _ => rfl

end

theorem storeProposal_frame (h : Hash) (b : Block) (parents : List Hash)
    (hl : b.lcomplains = ∅) (hr : b.rcomplains = ∅) :
    (s.storeProposal h b parents).frame = s.frame := by
  have htails : ({ s with tails := s.tails.filter fun t => decide (t ∉ parents) } : Replica).frame =
      s.frame := rfl
  have hadd := (addBlk_frame _ h b hl hr).trans htails
  refine (modifyBlk_frame _ h _ ?_ ?_).trans hadd
  · exact fun _ => rfl
  · exact fun _ => rfl

theorem onPropose_frame (C : Crypto) (cmds : List Hash) (keys vals : List ℤ)
    (parents : List Hash) (extra : List UInt8) :
    (s.onPropose C cmds keys vals parents extra).1.frame = s.frame := by
  unfold onPropose
  split
  · rfl
  rename_i p _
  simp only []
  have hstore := s.storeProposal_frame
    (C.getHash (s.newBlock cmds keys vals parents p extra).body)
    (s.newBlock cmds keys vals parents p extra) parents rfl rfl
  generalize s.newBlock cmds keys vals parents p extra = b at hstore ⊢
  have hdel := ((s.storeProposal (C.getHash b.body) b parents).onDeliverBlk_frame
    (C.getHash b.body)).trans hstore
  generalize (s.storeProposal (C.getHash b.body) b parents).onDeliverBlk (C.getHash b.body) = r
    at hdel
  obtain ⟨u, e | valid⟩ := r
  · exact hdel
  · refine Outcome.andThen_keeps ((u.update_frame _).trans hdel) ?_
    intro v hv
    unfold finishProposal
    split
    · exact hv
    · refine Outcome.andThen_keeps ((v.onReceiveProposal_frame _ C _).trans hv) ?_
      intro w hw
      exact (emit_frame _ rfl).trans hw

theorem exec_frame (C : Crypto) {op : Op} (hop : op.onTree = true) :
    (s.exec C op).1.frame = s.frame := by
  cases op with
  | addBlk body => exact s.addBlk_frame _ _ rfl rfl
  | deliverBlk blk =>
    change (s.deliverOutcome blk).1.frame = s.frame
    rw [deliverOutcome_fst]
    exact s.onDeliverBlk_frame blk
  | receiveProposal proposer blk => exact s.onReceiveProposal_frame blk C proposer
  | receiveVote v => exact s.onReceiveVote_frame v
  | propose cmds keys vals parents extra => exact s.onPropose_frame C cmds keys vals parents extra
  | asyncQcFinish blk => exact s.asyncQcFinish_frame blk
  | waitDecision cmdHash cb => exact s.waitDecision_frame cmdHash cb
  | _ => exact absurd hop (by simp [Op.onTree])

theorem decideAfterMc_frame (cid : ℕ) : (s.decideAfterMc cid).frame = s.frame := by
  unfold decideAfterMc
  split
  · rfl
  split
  · exact s.executeBlk_frame _
  · rfl

end Replica

end AvaHotstuff
