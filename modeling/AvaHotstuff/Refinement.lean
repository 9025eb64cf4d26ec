import Mathlib.Data.List.TakeWhile
import AvaHotstuff.Builds
import AvaHotstuff.Ledger

set_option autoImplicit false

namespace AvaHotstuff
open Ancestry

namespace Replica
variable (s : Replica)

theorem emit_ledger (e : Event) :
    (s.emit e).ledger = if e.onLedger then s.ledger.record [e] else s.ledger := by
  unfold ledger Ledger.record
  rw [emit_trace, List.filter_append]
  cases he : e.onLedger
  · rw [List.filter_cons_of_neg (by simp [he]), List.filter_nil, List.append_nil]
    rfl
  · rw [List.filter_cons_of_pos (by simp [he]), List.filter_nil]
    rfl

theorem emit_ledger_off {e : Event} (he : e.onLedger = false) :
    (s.emit e).ledger = s.ledger := by
  rw [emit_ledger, he]
  rfl

theorem emit_ledger_on {e : Event} (he : e.onLedger = true) :
    (s.emit e).ledger = s.ledger.record [e] := by
  rw [emit_ledger, he]
  rfl

theorem ledger_of_tree {s' : Replica} (ht : s'.tree = s.tree)
    (hrest : { s'.ledger with tree := s.tree } = s.ledger) : s'.ledger = s.ledger := by
  rw [← hrest, ← ht]
  rfl

theorem modifyBlk_ledger_same (h : Hash) (f : Block → Block)
    (hf : ∀ b : Block, (f b).toBlockNode = b.toBlockNode) :
    (s.modifyBlk h f).ledger = s.ledger :=
  s.ledger_of_tree (tree_modifyBlk_same s h f hf) rfl

theorem modifyBlk_ledger {h : Hash} {m : BlockNode} (f : Block → Block)
    (g : BlockNode → BlockNode) (hm : s.tree h = some m)
    (hg : ∀ b : Block, (f b).toBlockNode = g b.toBlockNode) :
    (s.modifyBlk h f).ledger = s.ledger.put h (g m) := by
  have ht := tree_modifyBlk s h f g hg
  rw [hm, Option.map_some] at ht
  unfold Ledger.put
  rw [show s.ledger.tree = s.tree from rfl, ← ht]
  rfl

theorem tree_of_cache {h : Hash} {b : Block} (hb : s.storage.blkCache h = some b) :
    s.tree h = some b.toBlockNode := by
  simp [tree, hb]

variable {s} in
theorem delivered_of_cache {h : Hash} {blk : Block} (hb : s.storage.blkCache h = some blk) :
    s.delivered h = blk.delivered := Tree.delivered_of (s.tree_of_cache hb)

theorem cache_of_tree {h : Hash} {n : BlockNode} (hn : s.tree h = some n) :
    ∃ b : Block, s.storage.blkCache h = some b ∧ b.toBlockNode = n :=
  Option.map_eq_some_iff.mp hn

section
variable (h : Hash)

theorem notifyReceiveProposal_ledger : (s.notifyReceiveProposal h).ledger = s.ledger := rfl
theorem notifyPropose_ledger : (s.notifyPropose h).ledger = s.ledger := rfl
theorem updateHqc_ledger (qc : QuorumCert) : (s.updateHqc h qc).ledger = s.ledger := by
  unfold updateHqc
  split <;> rfl

theorem onQcFinish_ledger : (s.onQcFinish h).ledger = s.ledger := by
  unfold onQcFinish
  split
  · exact s.emit_ledger_off rfl
  · rfl

theorem finishQcRef_ledger : (s.finishQcRef h).ledger = s.ledger := by
  unfold finishQcRef
  split
  · rfl
  · exact s.onQcFinish_ledger _

theorem asyncQcFinish_ledger : (s.asyncQcFinish h).ledger = s.ledger := by
  unfold asyncQcFinish
  split
  · rfl
  · split
    · exact s.emit_ledger_off rfl
    · rfl

theorem waitDecision_ledger (cb : ℕ) : (s.waitDecision h cb).ledger = s.ledger := by
  unfold waitDecision
  split
  · rfl
  · exact s.emit_ledger_off rfl

theorem doBroadcastProposalOtherClusters_ledger (prop : Proposal) :
    (s.doBroadcastProposalOtherClusters prop).ledger = s.ledger := by
  unfold doBroadcastProposalOtherClusters
  rw [emit_ledger_off _ rfl]
  unfold initOtherPeers
  split <;> rfl

theorem getLeaveSet_ledger : s.getLeaveSet.2.ledger = s.ledger := by
  unfold getLeaveSet
  split <;> rfl

theorem notifyOtherClusters_ledger : (s.notifyOtherClusters h).ledger = s.ledger := by
  unfold notifyOtherClusters
  simp only []
  split
  · rw [doBroadcastProposalOtherClusters_ledger, getLeaveSet_ledger]
  · exact s.getLeaveSet_ledger

theorem answerClient_ledger (fin : Finality) : (s.answerClient fin).ledger = s.ledger := by
  unfold answerClient
  split
  · rfl
  · exact s.emit_ledger_off rfl

theorem doDecide_ledger (fin : Finality) (key val : ℤ) :
    (s.doDecide fin key val).ledger = s.ledger.record [.decide fin key val] := by
  unfold doDecide
  rw [answerClient_ledger, emit_ledger_on _ rfl]

theorem foldl_decideCmd_ledger (blk : Block) (is : List ℕ) (s : Replica) :
    (is.foldl (decideCmd blk h) s).ledger = s.ledger.record (is.map fun i =>
      .decide (blk.finality h s.id i) (blk.body.keys.getD i 0) (blk.body.vals.getD i 0)) := by
  induction is generalizing s with
  | nil => exact s.ledger.record_nil.symm
  | cons i is ih =>
    rw [List.foldl_cons, ih]
    unfold decideCmd
    rw [doDecide_ledger, Ledger.record_record]
    have hid : (s.doDecide (blk.finality h s.id i) (blk.body.keys.getD i 0)
        (blk.body.vals.getD i 0)).id = s.id := by
      change Ledger.rid (ledger _) = s.id
      rw [doDecide_ledger]
      rfl
    rw [hid]
    rfl

theorem executeBlk_ledger : (s.executeBlk h).ledger = s.ledger.record (s.ledger.runBlk h) := by
  unfold executeBlk Ledger.runBlk
  cases hb : s.storage.blkCache h with
  | none =>
    have ht : s.ledger.tree h = none := by
      change s.tree h = none
      simp [tree, hb]
    rw [ht]
    exact s.ledger.record_nil.symm
  | some blk =>
    have ht : s.ledger.tree h = some blk.toBlockNode := s.tree_of_cache hb
    rw [ht]
    simp only []
    rw [foldl_decideCmd_ledger, emit_ledger_on _ rfl, Ledger.record_record]
    rfl

end

section
variable {s} {h : Hash} {n : BlockNode} {G : Ledger.Guard}

theorem commitBlk_ledger (hn : s.tree h = some n) :
    ({ s.commitBlk h with bExec := h } : Replica).ledger = s.ledger.advance h n := by
  have hdec := s.modifyBlk_ledger (fun b => { b with decision := true })
    (fun b => { b with decision := true }) hn fun _ => rfl
  generalize hs₁ : s.modifyBlk h (fun b => { b with decision := true }) = s₁ at hdec
  generalize hs₂ : (s₁.emit (.consensus h)).notifyOtherClusters h = s₂
  have h₂ : s₂.ledger = (s.ledger.put h { n with decision := true }).record [.consensus h] := by
    rw [← hs₂, notifyOtherClusters_ledger, emit_ledger_on _ rfl, hdec]
  have ht : s₂.tree = Function.update s.tree h (some { n with decision := true }) :=
    congrArg Ledger.tree h₂
  have hheight : s₂.height h = n.height := by
    unfold Replica.height
    rw [ht, Tree.height_of (Function.update_self ..)]
  generalize hs₃ : (s₂.startRemoteViewChangeTimer n.height h).updateFinishedUpdateCids n.height
    = s₃
  have hc : s.commitBlk h = if s₃.didReceiveMc n.height then
      (s₃.executeBlk h).resetRemoteViewChangeTimer n.height else s₃ := by
    unfold commitBlk
    simp only [hs₁, hs₂]
    rw [hheight]
    rw [show (s₂.startRemoteViewChangeTimer n.height h).height h = n.height from hheight]
    rw [hs₃, show s₃.height h = n.height by rw [← hs₃]; exact hheight]
  have h₃ : s₃.ledger = { s₂.ledger with
      finishedUpdateCids := insert n.height s₂.ledger.finishedUpdateCids
      timer := Function.update s₂.ledger.timer n.height (some ⟨h, true⟩) } := by
    rw [← hs₃]
    rfl
  rw [h₂] at h₃
  have hmc : s₃.didReceiveMc n.height = decide (n.height ∈ s.ledger.finishedMcCids) := by
    change decide (n.height ∈ s₃.ledger.finishedMcCids) = _
    rw [h₃]
    rfl
  rw [hc, hmc]
  unfold Ledger.advance
  by_cases hin : n.height ∈ s.ledger.finishedMcCids
  · have hex := s₃.executeBlk_ledger h
    have hrun : s₃.ledger.runBlk h = n.decides h s.ledger.rid := by
      rw [h₃]
      simp [Ledger.runBlk, Ledger.record, Ledger.put, BlockNode.decides]
    rw [hrun, h₃] at hex
    simp only [hin, decide_true, if_true]
    change { (s₃.executeBlk h).ledger with
      bExec := h
      timer := Function.update (s₃.executeBlk h).ledger.timer n.height none } = _
    rw [hex]
    simp [Ledger.record, Ledger.put]
  · simp only [hin, decide_false, if_false, Bool.false_eq_true]
    change { s₃.ledger with bExec := h } = _
    rw [h₃]
    simp [Ledger.record, Ledger.put]

/-- The commit loop walks the queue from its far end, one ledger step for each block. -/
theorem commit_advances {q : List Hash} {b : Hash} (hseg : Seg s.parent0 s.bExec q b)
    (hq : ∀ x ∈ q, s.delivered x = true) :
    Ledger.Advances s.ledger
      ({ q.reverse.foldl commitBlk s with bExec := b } : Replica).ledger := by
  induction hseg with
  | nil => exact Relation.ReflTransGen.refl
  | @cons b p q hp tail ih =>
    have hadv := ih fun x hx => hq x (List.mem_cons_of_mem _ hx)
    rw [List.reverse_cons, List.foldl_append, List.foldl_cons, List.foldl_nil]
    generalize q.reverse.foldl commitBlk s = v at hadv
    have hgrows := (hadv.steps (G := Ledger.Guard.any)).grows
    have hb := hq b (List.mem_cons_self ..)
    have hbv : v.tree.delivered b = true := hgrows.delivered hb
    have hpv : v.tree.parent0 b = some p := (hgrows.parent0 hb).trans hp
    obtain ⟨n, hn, hnd⟩ := Tree.exists_of_delivered hbv
    rw [commitBlk_ledger hn]
    exact hadv.tail ⟨b, n, hn, hnd, hpv, rfl⟩

theorem checkAncestry_anc {a b : Hash} (h : s.checkAncestry a b = true) : Anc s.parent0 a b := by
  unfold checkAncestry at h
  split at h
  · exact absurd h (by simp)
  · rename_i q e hw
    rw [← of_decide_eq_true h]
    exact (walk_seg hw).1.anc

theorem commit_ledger (w : s.tree.Wf) {blk : Hash} (hb : s.delivered blk = true) :
    Ledger.Advances s.ledger (s.commit blk).1.ledger := by
  unfold commit
  split
  · exact Relation.ReflTransGen.refl
  · rename_i q e hw
    obtain ⟨hseg, _, _⟩ := walk_seg hw
    split
    · exact Relation.ReflTransGen.refl
    · rename_i he
      rw [not_not.mp he] at hseg
      exact commit_advances hseg (w.ranked.seg_dom hb hseg)

theorem updateExec_ledger (w : s.tree.Wf) (blk2 blk1 : Hash) :
    Ledger.Advances s.ledger (s.updateExec blk2 blk1).1.ledger := by
  unfold updateExec
  split
  · exact Relation.ReflTransGen.refl
  split
  · exact Relation.ReflTransGen.refl
  split
  · exact Relation.ReflTransGen.refl
  split
  · exact Relation.ReflTransGen.refl
  split
  · exact Relation.ReflTransGen.refl
  · rename_i p1 hp1
    split
    · exact Relation.ReflTransGen.refl
    · rename_i hne
      rw [not_not.mp hne] at hp1
      exact commit_ledger w (w.parent_delivered hp1)

theorem updateLock_ledger (blk1 : Hash) : (s.updateLock blk1).ledger =
    if s.height blk1 > s.height s.bLock then { s.ledger with bLock := blk1 } else s.ledger := by
  unfold updateLock
  split <;> rfl

theorem updateLock_steps (blk1 : Hash) :
    Ledger.Steps G s.ledger (s.updateLock blk1).ledger := by
  rw [updateLock_ledger]
  split
  · exact (Ledger.Step.lock blk1).steps
  · exact .refl _

theorem updateChain_ledger (w : s.tree.Wf) (nblk : Hash) :
    Ledger.Steps G s.ledger (s.updateChain nblk).1.ledger := by
  unfold updateChain
  split
  · exact .refl _
  · rename_i n _
    split
    · exact .refl _
    · rename_i blk2 _
      split
      · exact .refl _
      have hq := s.updateHqc_ledger blk2 n.body.qc
      generalize s.updateHqc blk2 n.body.qc = u at hq
      have wu : u.tree.Wf := by
        rw [show u.tree = s.tree from congrArg Ledger.tree hq]
        exact w
      rw [← hq]
      simp only []
      split
      · exact .refl _
      · rename_i blk1 _
        split
        · exact .refl _
        · have hlock := u.updateLock_steps (G := G) blk1
          exact hlock.trans (updateExec_ledger (hlock.wf wu) blk2 blk1).steps

theorem update_ledger (w : s.tree.Wf) (nblk : Hash) :
    Ledger.Steps G s.ledger (s.update nblk).1.ledger := by
  have hc := updateChain_ledger (G := G) w nblk
  unfold update
  generalize s.updateChain nblk = r at hc
  obtain ⟨u, none | e⟩ := r
  · rw [Outcome.andThen_return]
    simp only []
    rw [emit_ledger_on _ rfl]
    exact hc.trans (Ledger.Step.note (e := .updated nblk) trivial).steps
  · exact hc

theorem update_updated {nblk : Hash} (hr : (s.update nblk).2 = none) :
    Event.updated nblk ∈ (s.update nblk).1.ledger.log := by
  unfold update at hr ⊢
  generalize s.updateChain nblk = r at hr ⊢
  obtain ⟨u, none | e⟩ := r
  · rw [Outcome.andThen_return]
    simp only []
    rw [emit_ledger_on _ rfl]
    exact List.mem_append_right _ (List.mem_singleton_self _)
  · exact absurd hr (by simp)

theorem addVote_ledger (v : Vote) : (s.addVote v).1.ledger = s.ledger := by
  unfold addVote
  simp only []
  split
  · exact s.modifyBlk_ledger_same _ _ fun _ => rfl
  · split
    · exact s.modifyBlk_ledger_same _ _ fun _ => rfl
    · simp only []
      rw [modifyBlk_ledger_same, modifyBlk_ledger_same]
      · exact fun _ => rfl
      · exact fun _ => rfl

theorem onReceiveVote_ledger (v : Vote) : (s.onReceiveVote v).1.ledger = s.ledger := by
  refine onReceiveVote_keeps (s.addVote_ledger v) ?_
  intro u qc
  rw [onQcFinish_ledger, updateHqc_ledger]

theorem doVote_ledger (C : Crypto) (blk : Hash) :
    (s.doVote C blk).1.ledger = s.ledger.record [.vote blk] := by
  unfold doVote
  simp only []
  split
  · rw [onReceiveVote_ledger, emit_ledger_on _ rfl]
  · simp only []
    rw [emit_ledger_off _ rfl, emit_ledger_on _ rfl]

theorem takeOpinion_ledger (bnew : Hash) : (s.takeOpinion bnew true).ledger =
    s.ledger.opine bnew := by
  unfold takeOpinion
  rw [if_pos rfl, emit_ledger_on _ rfl]
  rfl

theorem opined_ledger (selfProp : Bool) (bnew : Hash) (o : Bool) :
    ((s.opined selfProp bnew o).notifyReceiveProposal bnew).ledger =
      (s.takeOpinion bnew o).ledger := by
  rw [notifyReceiveProposal_ledger]
  unfold opined
  split
  · rfl
  · exact finishQcRef_ledger ..

theorem opined_tree (selfProp : Bool) (bnew : Hash) (o : Bool) :
    (s.opined selfProp bnew o).tree = s.tree := by
  refine opined_keeps selfProp ?_ fun u => congrArg Ledger.tree (u.finishQcRef_ledger bnew)
  unfold takeOpinion
  split <;> rfl

theorem judgeProposal_ledger (C : Crypto) (selfProp : Bool) (bnew : Hash) :
    (s.judgeProposal C selfProp bnew).1.ledger =
      if s.opinion bnew = some true then
        if s.voteDisabled then s.ledger.opine bnew
        else (s.ledger.opine bnew).record [.vote bnew]
      else s.ledger := by
  have hjudge := s.judgement C selfProp bnew
  generalize s.judgeProposal C selfProp bnew = r at hjudge
  cases hjudge with
  | undefined ho =>
    rw [ho]
    rfl
  | @silent o ho hs =>
    rw [ho, opined_ledger]
    cases o with
    | false => rfl
    | true =>
      rw [Bool.true_and, Bool.not_eq_false'] at hs
      rw [takeOpinion_ledger, if_pos rfl, if_pos hs]
  | vote ho hv =>
    rw [ho, doVote_ledger, opined_ledger, takeOpinion_ledger, if_pos rfl, hv]
    rfl

theorem opinion_height {bnew : Hash} (ho : s.opinion bnew = some true) :
    s.vheight < s.height bnew := by
  unfold opinion at ho
  split at ho
  · assumption
  · exact absurd ho (by simp)

theorem judgeProposal_steps (C : Crypto) (selfProp : Bool) {bnew : Hash}
    (hG : G.opine s.ledger bnew) :
    Ledger.Steps G s.ledger (s.judgeProposal C selfProp bnew).1.ledger := by
  rw [judgeProposal_ledger]
  split
  · rename_i ho
    have hopine := (Ledger.Step.opine (opinion_height ho) hG).steps
    split
    · exact hopine
    · refine hopine.trans (Ledger.Step.note (e := .vote bnew) ?_).steps
      exact ⟨s.bLock, List.mem_append_right _ (List.mem_singleton_self _)⟩
  · exact .refl _

theorem andThen_steps {r : Outcome} {f : Replica → Outcome} {L : Ledger}
    (hr : Ledger.Steps G L r.1.ledger)
    (hf : r.2 = none → Ledger.Steps G r.1.ledger (f r.1).1.ledger) :
    Ledger.Steps G L (r.andThen f).1.ledger := by
  obtain ⟨u, none | e⟩ := r
  · exact hr.trans (hf rfl)
  · exact hr

structure Updates (update : Replica → Hash → Outcome) (G : Ledger.Guard) : Prop where
  steps : ∀ {s : Replica}, s.tree.Wf → ∀ nblk,
    Ledger.Steps G s.ledger (update s nblk).1.ledger
  updated : ∀ {s : Replica} {nblk : Hash}, (update s nblk).2 = none →
    Event.updated nblk ∈ (update s nblk).1.ledger.log

theorem update_updates : Updates update G := ⟨fun w => update_ledger w, update_updated⟩

theorem onReceiveProposalWith_steps {update : Replica → Hash → Outcome} (hu : Updates update G)
    (C : Crypto) (w : s.tree.Wf) {proposer : ReplicaID}
    {bnew : Hash} (hself : proposer = s.id → G.opine s.ledger bnew)
    (hG : ∀ L : Ledger, L.tree.delivered bnew = true → Event.updated bnew ∈ L.log →
      G.opine L bnew) :
    Ledger.Steps G s.ledger (s.onReceiveProposalWith update C proposer bnew).1.ledger := by
  unfold onReceiveProposalWith
  split
  · exact judgeProposal_steps C true (hself (by assumption))
  split
  · exact .refl _
  · rename_i hd
    have hsteps := hu.steps w bnew
    refine andThen_steps hsteps ?_
    intro hr
    have hdel : s.delivered bnew = true := by simpa using hd
    exact judgeProposal_steps C false (hG _ (hsteps.grows.delivered hdel) (hu.updated hr))

theorem addBlk_tree (s : Replica) (h : Hash) (b : Block) : (s.addBlk h b).tree = s.tree ∨
    s.tree h = none ∧ (s.addBlk h b).tree = Function.update s.tree h (some b.toBlockNode) := by
  unfold addBlk EntityStorage.addBlk
  cases hb : s.storage.blkCache h with
  | some b' => exact Or.inl rfl
  | none =>
    refine Or.inr ⟨by unfold tree; rw [hb]; rfl, ?_⟩
    exact Function.comp_update (Option.map (·.toBlockNode)) s.storage.blkCache h (some b)

theorem addBlk_steps (h : Hash) {b : Block} (hd : b.delivered = false)
    (hdec : b.decision = false) (hp : ∀ p ∈ b.parents, s.delivered p = true)
    (hG : G.store h) : Ledger.Steps G s.ledger (s.addBlk h b).ledger := by
  have hledger : (s.addBlk h b).ledger = { s.ledger with tree := (s.addBlk h b).tree } := by
    unfold addBlk EntityStorage.addBlk
    split <;> rfl
  rw [hledger]
  rcases s.addBlk_tree h b with hsame | ⟨hnone, htree⟩
  · rw [hsame]
    exact .refl _
  · rw [htree]
    exact (Ledger.Step.store (G := G) (L := s.ledger) (n := b.toBlockNode) hnone hd hdec hp
      hG).steps

theorem markDelivered_ledger {m : BlockNode} (parents : List Hash) (hm : s.tree h = some m) :
    (s.markDelivered h parents).ledger = s.ledger.deliver h
      { m with qcRef := some m.body.qc.objHash, delivered := true } := by
  have hput := modifyBlk_ledger
    { s with tails := (s.tails.filter fun b => decide (b ∉ parents)).insert h }
    (fun b => { b with qcRef := some b.body.qc.objHash, delivered := true })
    (fun b => { b with qcRef := some b.body.qc.objHash, delivered := true })
    hm (fun _ => rfl)
  unfold markDelivered
  simp only []
  generalize modifyBlk { s with tails := (s.tails.filter fun b => decide (b ∉ parents)).insert h }
    h (fun b => { b with qcRef := some b.body.qc.objHash, delivered := true }) = u at hput ⊢
  have ht : u.tree = Function.update s.tree h
      (some { m with qcRef := some m.body.qc.objHash, delivered := true }) :=
    congrArg Ledger.tree hput
  have hh : u.height h = m.height := by
    unfold Replica.height
    rw [ht, Tree.height_of (Function.update_self ..)]
  have hcid : u.storage.cidBlkhash = s.storage.cidBlkhash := congrArg Ledger.cidBlkhash hput
  unfold storeInMapForMc EntityStorage.addCidBlkhash Ledger.deliver
  rw [hh, hcid, ← show s.ledger.cidBlkhash = s.storage.cidBlkhash from rfl]
  split
  · exact hput
  · change { u.ledger with
      cidBlkhash := Function.update s.ledger.cidBlkhash m.height (some h) } = _
    rw [hput]
    rfl

theorem linked_ledger {blk : Block} (hb : s.storage.blkCache h = some blk) (parents : List Hash)
    (k : ℕ) : (s.modifyBlk h (·.linked parents k)).ledger =
      s.ledger.put h { blk.toBlockNode with parents := parents, height := k } :=
  s.modifyBlk_ledger _ (fun b => { b with parents := parents, height := k }) (s.tree_of_cache hb)
    fun _ => rfl

theorem linked_tree {blk : Block} (hb : s.storage.blkCache h = some blk) (parents : List Hash)
    (k : ℕ) : (s.modifyBlk h (·.linked parents k)).tree =
      Function.update s.tree h
        (some { blk.toBlockNode with parents := parents, height := k }) :=
  congrArg Ledger.tree (linked_ledger hb parents k)

theorem markLinked_ledger {blk : Block} (hb : s.storage.blkCache h = some blk)
    (parents : List Hash) (k : ℕ) :
    ((s.modifyBlk h (·.linked parents k)).markDelivered h parents).ledger =
      s.ledger.deliver h { blk.toBlockNode with
        parents := parents
        height := k
        qcRef := some blk.body.qc.objHash
        delivered := true } := by
  have htree : (s.modifyBlk h (·.linked parents k)).tree h =
      some { blk.toBlockNode with parents := parents, height := k } := by
    rw [linked_tree hb]
    exact Function.update_self ..
  rw [markDelivered_ledger _ htree, linked_ledger hb]
  unfold Ledger.deliver Ledger.put
  simp only [Function.update_idem]

theorem onDeliverBlk_steps (h : Hash) (hG : G.deliver h) :
    Ledger.Steps G s.ledger (s.onDeliverBlk h).1.ledger := by
  have hstep : ∀ {blk : Block} {ps : List Hash} {k : ℕ}, s.storage.blkCache h = some blk →
      blk.delivered = false → (∀ p ∈ ps, s.delivered p = true) →
      Ledger.Steps G s.ledger (s.modifyBlk h (·.linked ps k)).ledger := by
    intro blk ps k hb hd hp
    rw [linked_ledger hb]
    exact (Ledger.Step.link (s.tree_of_cache hb) hd hp).steps
  have hdelivery := s.delivery h
  generalize s.onDeliverBlk h = r at hdelivery
  cases hdelivery with
  | absent | again => exact .refl _
  | unparented hb hd => exact hstep hb hd fun p hp => absurd hp List.not_mem_nil
  | orphan hb hd => exact hstep hb hd fun p hp => List.mem_takeWhile_imp hp
  | uncertified hb hd hhead hp => exact hstep hb hd hp
  | done hb hd hhead hp hq =>
    obtain ⟨c, hc⟩ := Option.isSome_iff_exists.mp hq
    have hqc : (s.ledger.tree _).isSome = true :=
      Option.isSome_iff_exists.mpr ⟨_, s.tree_of_cache hc⟩
    rw [markLinked_ledger hb]
    exact (Ledger.Step.deliver (G := G) (L := s.ledger) (s.tree_of_cache hb) hd hhead hp hqc
      hG).steps

/-- The parents a block was created with are forgotten when it is delivered. -/
theorem onDeliverBlk_unlink {blk : Block} (hb : s.storage.blkCache h = some blk)
    (hd : blk.delivered = false) :
    (s.modifyBlk h (·.linked [] blk.height)).onDeliverBlk h = s.onDeliverBlk h := by
  have hm : s.tree h = some blk.toBlockNode := s.tree_of_cache hb
  have htree : (s.modifyBlk h (·.linked [] blk.height)).tree =
      Function.update s.tree h (some { blk.toBlockNode with parents := [] }) :=
    congrArg Ledger.tree (s.modifyBlk_ledger (·.linked [] blk.height)
      (fun b => { b with parents := [], height := blk.height }) hm fun _ => rfl)
  have hdel : (s.modifyBlk h (·.linked [] blk.height)).delivered = s.delivered := by
    funext x
    unfold Replica.delivered
    rw [htree]
    by_cases hx : x = h
    · subst x
      rw [Tree.delivered_of (Function.update_self ..), Tree.delivered_of hm]
    · simp [Tree.delivered, hx]
  have hheight : (s.modifyBlk h (·.linked [] blk.height)).height = s.height := by
    funext x
    unfold Replica.height
    rw [htree]
    by_cases hx : x = h
    · subst x
      rw [Tree.height_of (Function.update_self ..), Tree.height_of hm]
    · simp [Tree.height, hx]
  have hmod : ∀ ps k, (s.modifyBlk h (·.linked [] blk.height)).modifyBlk h (·.linked ps k) =
      s.modifyBlk h (·.linked ps k) := by
    intro ps k
    unfold modifyBlk
    simp [hb, Block.linked]
  have hcache : (s.modifyBlk h (·.linked [] blk.height)).storage.blkCache h =
      some (blk.linked [] blk.height) := by
    unfold modifyBlk
    simp [hb]
  unfold onDeliverBlk
  rw [hcache, hb]
  simp only [hdel, hheight, hmod]
  rw [show (blk.linked [] blk.height).delivered = false from hd, hd]
  rfl

theorem storeProposal_steps (hash : Hash) {b : Block} (hd : b.delivered = false)
    (hdec : b.decision = false) (parents : List Hash) (hG : G.store hash)
    (hG' : G.deliver hash) :
    Ledger.Steps G s.ledger ((s.storeProposal hash b parents).onDeliverBlk hash).1.ledger := by
  unfold storeProposal
  simp only []
  generalize hu : ({ s with tails := s.tails.filter fun t => decide (t ∉ parents) } : Replica) = u
  have hus : s.ledger = u.ledger := by
    rw [← hu]
    rfl
  rw [hus]
  cases hb : u.storage.blkCache hash with
  | some b' =>
    have hadd : u.addBlk hash b = u := by
      unfold addBlk EntityStorage.addBlk
      rw [hb]
      rfl
    rw [hadd]
    have hself := u.modifyBlk_ledger_same hash
      (fun blk => { blk with selfQc := some (createQuorumCert u.config hash) }) fun _ => rfl
    have hsteps := onDeliverBlk_steps (G := G) (s := u.modifyBlk hash
      (fun blk => { blk with selfQc := some (createQuorumCert u.config hash) })) hash hG'
    rw [hself] at hsteps
    exact hsteps
  | none =>
    -- The same block without parents is a legal new entry of the ledger.
    have hadd : ∀ c : Block, (u.addBlk hash c).storage.blkCache =
        Function.update u.storage.blkCache hash (some c) := by
      intro c
      unfold addBlk EntityStorage.addBlk
      rw [hb]
      rfl
    have hstore := addBlk_steps (G := G) (s := u) (b := b.linked [] b.height) hash hd hdec
      (fun p hp => absurd hp List.not_mem_nil) hG
    have hcid : ∀ c : Block, u.addBlk hash c = { u with storage :=
        ⟨Function.update u.storage.blkCache hash (some c), u.storage.cidBlkhash⟩ } := by
      intro c
      unfold addBlk EntityStorage.addBlk
      rw [hb]
      rfl
    generalize hv : (u.addBlk hash b).modifyBlk hash
      (fun blk => { blk with selfQc := some (createQuorumCert (u.addBlk hash b).config hash) }) = v
    have hvb : v.storage.blkCache hash =
        some { b with selfQc := some (createQuorumCert u.config hash) } := by
      rw [← hv]
      unfold modifyBlk
      rw [hadd]
      simp [hcid]
    rw [← onDeliverBlk_unlink hvb hd]
    have hlv : (v.modifyBlk hash (·.linked [] b.height)).ledger =
        (u.addBlk hash (b.linked [] b.height)).ledger := by
      rw [← hv, hcid, hcid]
      refine ledger_of_tree _ ?_ rfl
      funext x
      by_cases hx : x = hash
      · subst x
        simp [tree, modifyBlk, Block.linked]
      · simp [tree, modifyBlk, hx]
    rw [← hlv] at hstore
    exact hstore.trans (onDeliverBlk_steps hash hG')

theorem onDeliverBlk_ok {u : Replica} {v : Bool} (hr : s.onDeliverBlk h = (u, .ok v)) :
    u.delivered h = true := by
  have hdelivery := s.delivery h
  rw [hr] at hdelivery
  cases hdelivery with
  | again hb hd => exact (delivered_of_cache hb).trans hd
  | done hb =>
    change Tree.delivered (Ledger.tree (ledger _)) h = true
    rw [markLinked_ledger hb]
    exact Tree.delivered_of (Function.update_self ..)

theorem finishProposal_steps (C : Crypto) {bnew : Hash} (hG : G.opine s.ledger bnew) :
    Ledger.Steps G s.ledger (s.finishProposal C bnew).1.ledger := by
  unfold finishProposal
  split
  · exact .refl _
  unfold onReceiveProposal
  rw [if_pos rfl]
  refine andThen_steps (judgeProposal_steps C true hG) ?_
  intro _
  simp only []
  rw [emit_ledger_off _ rfl, notifyPropose_ledger]
  exact .refl _

theorem updateProposal_steps {update : Replica → Hash → Outcome} (hu : Updates update G)
    (C : Crypto) (w : s.tree.Wf) {bnew : Hash}
    (hd : s.delivered bnew = true)
    (hG : ∀ L : Ledger, L.tree.delivered bnew = true → Event.updated bnew ∈ L.log →
      G.opine L bnew) :
    Ledger.Steps G s.ledger
      ((update s bnew).andThen fun s => s.finishProposal C bnew).1.ledger := by
  have hsteps := hu.steps w bnew
  refine andThen_steps hsteps ?_
  intro hnone
  exact finishProposal_steps C (hG _ (hsteps.grows.delivered hd) (hu.updated hnone))

theorem onProposeWith_steps {update : Replica → Hash → Outcome} (hu : Updates update G)
    (C : Crypto) (w : s.tree.Wf) (cmds : List Hash) (keys vals : List ℤ)
    (parents : List Hash) (extra : List UInt8)
    (hnew : ∀ h, s.proposes C (.propose cmds keys vals parents extra) = some h →
      G.store h ∧ G.deliver h)
    (hG : ∀ L bnew, L.tree.delivered bnew = true → Event.updated bnew ∈ L.log →
      G.opine L bnew) :
    Ledger.Steps G s.ledger (s.onProposeWith update C cmds keys vals parents extra).1.ledger := by
  unfold onProposeWith
  split
  · exact .refl _
  rename_i p hp
  simp only []
  have hmade : s.proposes C (.propose cmds keys vals parents extra) =
      some (C.getHash (s.newBlock cmds keys vals parents p extra).body) := by
    simp only [proposes, hp, Option.map_some]
  obtain ⟨hstore, hdeliver⟩ := hnew _ hmade
  generalize hb : s.newBlock cmds keys vals parents p extra = b at hstore hdeliver ⊢
  have hsteps := storeProposal_steps (G := G) (s := s) (C.getHash b.body) (b := b)
    (by rw [← hb]; rfl) (by rw [← hb]; rfl) parents hstore hdeliver
  generalize hr : (s.storeProposal (C.getHash b.body) b parents).onDeliverBlk (C.getHash b.body) =
    r at hsteps ⊢
  obtain ⟨u, e | valid⟩ := r
  · exact hsteps
  · exact hsteps.trans (updateProposal_steps hu C (hsteps.wf w) (onDeliverBlk_ok hr)
      fun L => hG L _)

theorem decideAfterMc_ledger (cid : ℕ) : (s.decideAfterMc cid).ledger =
    match s.ledger.cidBlkhash cid with
    | none => s.ledger
    | some h =>
      if cid ∈ s.ledger.finishedUpdateCids then
        { s.ledger with
          timer := Function.update s.ledger.timer cid none
          log := s.ledger.log ++ s.ledger.runBlk h }
      else s.ledger := by
  unfold decideAfterMc EntityStorage.findBlkHashForCid
  change _ = match s.storage.cidBlkhash cid with | none => _ | some h => _
  cases s.storage.cidBlkhash cid with
  | none => rfl
  | some b =>
    simp only [didUpdate, decide_eq_true_eq]
    change ledger (if cid ∈ s.ledger.finishedUpdateCids then _ else _) = _
    split
    · change { (s.executeBlk b).ledger with
        timer := Function.update (s.executeBlk b).ledger.timer cid none } = _
      rw [executeBlk_ledger]
      rfl
    · rfl

theorem finishMc_ledger (cid : ℕ) : (s.finishMc cid).ledger = s.ledger.finishMc cid := by
  unfold finishMc
  rw [decideAfterMc_ledger]
  unfold Ledger.finishMc
  change (match s.ledger.cidBlkhash cid with | none => _ | some h => _) = _
  cases s.ledger.cidBlkhash cid with
  | none => rfl
  | some b =>
    simp only []
    change (if cid ∈ s.ledger.finishedUpdateCids then _ else _) = _
    split <;> rfl

theorem syncReconfigCount_ledger (prop : Proposal) :
    (s.syncReconfigCount prop).ledger = s.ledger := by
  unfold syncReconfigCount
  split <;> rfl

theorem storeTracker_ledger (cid : ℕ) (a : List ℤ) :
    (s.storeTracker cid a).ledger = s.ledger := rfl

theorem countMc_steps {prop : Proposal} {x : ℤ}
    (hc : prop.otherClusterBlockHeight ∉ s.mc.finishedMcCids)
    (hG : s.completes prop x = true → G.complete s.ledger prop.otherClusterBlockHeight) :
    Ledger.Steps G s.ledger (s.countMc prop x).1.ledger := by
  unfold countMc
  split
  · exact .refl _
  rename_i a ha
  split
  · exact .refl _
  rename_i hlen
  split
  · rename_i htest
    simp only []
    rw [storeTracker_ledger, finishMc_ledger]
    refine (Ledger.Step.finishMc hc (hG ?_)).steps
    simp [completes, didReceiveMc, hc, ha, htest]
    omega
  · exact .refl _

theorem completes_syncReconfigCount (q prop : Proposal) (x : ℤ) :
    (s.syncReconfigCount q).completes prop x = s.completes prop x := by
  unfold syncReconfigCount
  split <;> rfl

theorem receiveMcLocal_steps {prop : Proposal} {x : ℤ}
    (hG : s.completes prop x = true → G.complete s.ledger prop.otherClusterBlockHeight) :
    Ledger.Steps G s.ledger (s.receiveMcLocal prop x).1.ledger := by
  rw [← completes_syncReconfigCount prop] at hG
  unfold receiveMcLocal
  simp only []
  rw [← s.syncReconfigCount_ledger prop] at hG ⊢
  split
  · exact .refl _
  · rename_i hd
    exact countMc_steps (by simpa [didReceiveMc] using hd) hG

theorem relayMc_steps {prop : Proposal} {x : ℤ}
    (hG : s.completes (s.propSameCluster prop) x = true →
      G.complete s.ledger prop.otherClusterBlockHeight) :
    Ledger.Steps G s.ledger (s.relayMc prop x).1.ledger := by
  unfold relayMc
  split
  · exact .refl _
  · rw [← s.emit_ledger_off (e := .relay (s.propSameCluster prop) s.recs.peersCurrent) rfl] at hG ⊢
    exact receiveMcLocal_steps hG

theorem sendRComplain_ledger (c : Complain) : (s.sendRComplain c).ledger = s.ledger := by
  unfold sendRComplain
  split
  · exact s.emit_ledger_off rfl
  · rfl

theorem onReceiveLComplain_steps (C : Crypto) {c : Complain}
    (hG : ∀ blk, s.storage.blkCache c.blkHash = some blk → blk.delivered = true →
      c.voter ∉ blk.lcomplains → blk.lcomplains.card + 1 = s.config.nmajority →
      G.complain c.blkHash) :
    Ledger.Steps G s.ledger (s.onReceiveLComplain C c).1.ledger := by
  have hl := s.modifyBlk_ledger_same c.blkHash
    (fun b => { b with lcomplains := insert c.voter b.lcomplains }) fun _ => rfl
  unfold onReceiveLComplain
  split
  · exact .refl _
  rename_i blk hblk
  split
  · exact .refl _
  rename_i hd
  split
  · exact .refl _
  split
  · exact .refl _
  rename_i hvoter
  simp only []
  generalize hu : s.modifyBlk c.blkHash
    (fun b => { b with lcomplains := insert c.voter b.lcomplains }) = u at hl ⊢
  rw [← hl]
  split
  · rename_i hmaj
    simp only []
    rw [sendRComplain_ledger, emit_ledger_on _ rfl]
    have hcom : G.complain c.blkHash := by
      refine hG blk hblk (by simpa using hd) hvoter ?_
      rw [hmaj, ← hu]
      rfl
    exact (Ledger.Step.note (e := .rcomplain ⟨u.id, c.blkHeight, c.blkHash,
      ⟨c.blkHash, C.sign u.id c.blkHash⟩⟩) hcom).steps
  · exact .refl _

theorem startLocalComplain_steps (C : Crypto) (height : ℕ) {h : Hash} (hG : G.complain h) :
    Ledger.Steps G s.ledger (s.startLocalComplain C height h).1.ledger := by
  unfold startLocalComplain
  simp only []
  have hnote : Ledger.Steps G s.ledger (s.emit (.lcomplain
      ⟨s.id, height, h, ⟨h, C.sign s.id h⟩⟩ s.recs.peersCurrent)).ledger := by
    rw [emit_ledger_on _ rfl]
    exact (Ledger.Step.note (e := .lcomplain ⟨s.id, height, h, ⟨h, C.sign s.id h⟩⟩ _) hG).steps
  exact hnote.trans (onReceiveLComplain_steps C fun _ _ _ _ _ => hG)

theorem remoteViewChangeTimeout_steps (C : Crypto) {cid : ℕ}
    (hG : ∀ h, s.Complains (.remoteViewChangeTimeout cid) h → G.complain h) :
    Ledger.Steps G s.ledger (s.remoteViewChangeTimeout C cid).1.ledger := by
  unfold remoteViewChangeTimeout
  split
  · exact .refl _
  rename_i t ht
  have hdis : Ledger.Steps G s.ledger (s.disarm cid t).ledger :=
    (Ledger.Step.disarm (L := s.ledger) ht).steps
  split
  · rename_i harmed
    simp only []
    split
    · rename_i hc
      have hcom : G.complain t.blk := hG _ ⟨t, ht, harmed, rfl, hc.1, hc.2⟩
      exact andThen_steps (hdis.trans (startLocalComplain_steps C _ hcom)) fun _ => .refl _
    · exact hdis
  · exact .refl _

theorem unrotated_ledger (s : Replica) : s.unrotated.ledger = s.ledger := by
  have hlog := s.unrotated_filter (p := Event.onLedger) fun e he => by
    cases e <;> first | rfl | cases he
  unfold ledger
  rw [hlog, unrotated_tree]
  rfl

theorem onReceiveRComplain_ledger (c : Complain) (junk : ℤ) :
    (s.onReceiveRComplain c junk).1.ledger = s.ledger :=
  s.view_of_unrotated unrotated_ledger (s.onReceiveRComplain_unrotated c junk)

theorem RecsOnly.ledger {u : Replica} (h : RecsOnly s u) : u.ledger = s.ledger := by
  have hlog : u.trace.filter Event.onLedger = s.trace.filter Event.onLedger := by
    apply h.trace.filter
    intro e he
    cases e <;> first | rfl | cases he
  calc u.ledger = { u.ledger with log := s.trace.filter Event.onLedger } := by rw [← hlog]; rfl
    _ = s.ledger := congrArg Replica.ledger h.rest

theorem msgRecsHandler_ledger (r : Recs) : (s.msgRecsHandler r).ledger = s.ledger :=
  (s.msgRecsHandler_recsOnly r).ledger

theorem sendReconfigAck_ledger (fin : Finality) (r : Recs) :
    (s.sendReconfigAck fin r).ledger = s.ledger := by
  unfold sendReconfigAck
  simp only []
  split
  · rw [emit_ledger_off _ rfl, answerClient_ledger]
  · exact s.answerClient_ledger fin

theorem msgRecsAggEchoReadyHandler_ledger (msg : MsgRecsAggEchoReady) :
    (s.msgRecsAggEchoReadyHandler msg).1.ledger = s.ledger :=
  (s.msgRecsAggEchoReadyHandler_recsOnly msg).ledger

/-- What a call may do on the ledger. A replica votes for delivered blocks that `update`
has seen, unless a proposal under its own name comes from outside. -/
def guard (C : Crypto) (s : Replica) (op : Op) : Ledger.Guard where
  store h := (∃ body, op = .addBlk body ∧ h = C.getHash body) ∨ s.proposes C op = some h
  deliver h := op = .deliverBlk h ∨ s.proposes C op = some h
  complete L cid := L = s.ledger ∧ s.Completes op cid
  opine L h := L.tree.delivered h = true ∧ Event.updated h ∈ L.log ∨
    op = .receiveProposal s.id h
  complain := s.Complains op

theorem execWith_steps {update : Replica → Hash → Outcome} (C : Crypto) (w : s.tree.Wf)
    (op : Op) (hu : Updates update (s.guard C op)) :
    Ledger.Steps (s.guard C op) s.ledger (s.execWith update C op).1.ledger := by
  cases op with
  | addBlk body =>
    refine addBlk_steps _ rfl rfl ?_ (.inl ⟨body, rfl, rfl⟩)
    intro p hp
    exact absurd hp List.not_mem_nil
  | deliverBlk blk =>
    change Ledger.Steps _ s.ledger (s.deliverOutcome blk).1.ledger
    rw [deliverOutcome_fst]
    exact onDeliverBlk_steps blk (.inl rfl)
  | receiveProposal proposer blk =>
    refine onReceiveProposalWith_steps hu C w ?_ fun L hd hu => .inl ⟨hd, hu⟩
    rintro rfl
    exact .inr rfl
  | receiveVote v => exact .of_eq (onReceiveVote_ledger v)
  | propose cmds keys vals parents extra =>
    exact onProposeWith_steps hu C w cmds keys vals parents extra (fun _ h => ⟨.inr h, .inr h⟩)
      fun L h hd hu => .inl ⟨hd, hu⟩
  | receiveMcLocal prop x => exact receiveMcLocal_steps fun hc => ⟨rfl, hc, rfl⟩
  | relayMc prop x => exact relayMc_steps fun hc => ⟨rfl, hc, rfl⟩
  | remoteViewChangeTimeout cid => exact remoteViewChangeTimeout_steps C fun _ hc => hc
  | receiveLComplain c =>
    refine onReceiveLComplain_steps C ?_
    intro blk hblk hd hv hm
    exact ⟨rfl, blk, hblk, hd, hv, hm⟩
  | receiveRComplain c junk => exact .of_eq (onReceiveRComplain_ledger c junk)
  | msgRecs r => exact .of_eq (msgRecsHandler_ledger r)
  | sendReconfigAck fin r => exact .of_eq (sendReconfigAck_ledger fin r)
  | msgRecsAggEchoReady msg => exact .of_eq (msgRecsAggEchoReadyHandler_ledger msg)
  | asyncQcFinish blk => exact .of_eq (asyncQcFinish_ledger s blk)
  | waitDecision cmdHash cb => exact .of_eq (waitDecision_ledger s cmdHash cb)

theorem exec_steps (C : Crypto) (w : s.tree.Wf) (op : Op) :
    Ledger.Steps (s.guard C op) s.ledger (s.exec C op).1.ledger := by
  rw [← execWith_update]
  exact execWith_steps C w op update_updates

end

end Replica

end AvaHotstuff
