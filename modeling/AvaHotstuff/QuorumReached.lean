import AvaHotstuff.Aggregation
import AvaHotstuff.Members
import AvaHotstuff.Proposing
import AvaHotstuff.VoteCount

set_option autoImplicit false

namespace AvaHotstuff

namespace Replica
variable (s : Replica) (h : Hash)

def awaited : List Hash × (Hash → ℕ) := (s.qcWaiting, s.height)

theorem modifyBlk_awaited (f : Block → Block) (hf : ∀ b, (f b).height = b.height) :
    (s.modifyBlk h f).awaited = s.awaited := by
  have hheight : (s.modifyBlk h f).height = s.height := by
    funext x
    unfold height Tree.height tree modifyBlk
    by_cases hx : x = h
    · subst x
      cases s.storage.blkCache h <;> simp [hf]
    · simp [hx]
  unfold awaited
  rw [hheight]
  rfl

theorem doBroadcastProposalOtherClusters_awaited (prop : Proposal) :
    (s.doBroadcastProposalOtherClusters prop).awaited = s.awaited := by
  unfold doBroadcastProposalOtherClusters initOtherPeers
  simp only []
  split <;> rfl

theorem notifyOtherClusters_awaited : (s.notifyOtherClusters h).awaited = s.awaited := by
  have hleave : s.getLeaveSet.2.awaited = s.awaited := by
    unfold getLeaveSet
    split <;> rfl
  unfold notifyOtherClusters
  simp only []
  split
  · rw [doBroadcastProposalOtherClusters_awaited, hleave]
  · exact hleave

theorem McOnly.awaited {s u : Replica} (h : McOnly s u) : u.awaited = s.awaited := by
  have hrest := congrArg Replica.awaited h.rest
  exact hrest

theorem commitBlk_awaited : (s.commitBlk h).awaited = s.awaited := by
  have hnotify : (((s.modifyBlk h fun b => { b with decision := true }).emit
      (.consensus h)).notifyOtherClusters h).awaited = s.awaited := by
    rw [notifyOtherClusters_awaited]
    exact s.modifyBlk_awaited h _ fun _ => rfl
  unfold commitBlk
  simp only []
  generalize ((s.modifyBlk h fun b => { b with decision := true }).emit
    (.consensus h)).notifyOtherClusters h = u at hnotify ⊢
  split
  · exact (executeBlk_mcOnly _ h).awaited.trans hnotify
  · exact hnotify

theorem foldl_commitBlk_awaited (q : List Hash) (s : Replica) :
    (q.foldl commitBlk s).awaited = s.awaited := by
  induction q generalizing s with
  | nil => rfl
  | cons b q ih => rw [List.foldl_cons, ih, commitBlk_awaited]

theorem commit_awaited : (s.commit h).1.awaited = s.awaited := by
  unfold commit
  split
  · rfl
  split
  · rfl
  · rename_i q _ _ _
    exact foldl_commitBlk_awaited q.reverse s

theorem updateExec_awaited (h' : Hash) : (s.updateExec h h').1.awaited = s.awaited := by
  unfold updateExec
  repeat' split
  all_goals first | rfl | exact s.commit_awaited _

theorem updateHqc_awaited (qc : QuorumCert) : (s.updateHqc h qc).awaited = s.awaited := by
  unfold updateHqc
  split <;> rfl

theorem updateLock_awaited : (s.updateLock h).awaited = s.awaited := by
  unfold updateLock
  split <;> rfl

theorem update_awaited : (s.update h).1.awaited = s.awaited := by
  unfold update
  apply @Outcome.andThen_keeps _ Replica.awaited
  · unfold updateChain
    split
    · rfl
    split
    · rfl
    split
    · rfl
    simp only []
    split
    · exact updateHqc_awaited ..
    split
    · exact updateHqc_awaited ..
    · rw [updateExec_awaited, updateLock_awaited, updateHqc_awaited]
  · exact fun u hu => hu

theorem addVote_awaited (v : Vote) : (s.addVote v).1.awaited = s.awaited := by
  have hnote : ∀ qc, (s.modifyBlk v.blkHash fun b => { b with
      voted := insert v.voter b.voted, selfQc := some (b.selfQc.getD qc) }).awaited = s.awaited :=
    fun _ => s.modifyBlk_awaited v.blkHash _ fun _ => rfl
  unfold addVote
  simp only []
  split
  · exact hnote _
  split
  · exact hnote _
  · rw [modifyBlk_awaited]
    · exact hnote _
    · exact fun _ => rfl

theorem uncomplained_awaited : s.uncomplained.awaited = s.awaited := by
  unfold awaited height
  rw [uncomplained_tree]
  rfl

theorem unrotated_awaited : s.unrotated.awaited = s.awaited := by
  unfold awaited height
  rw [unrotated_tree]
  rfl

theorem RecsOnly.awaited {s u : Replica} (h : RecsOnly s u) : u.awaited = s.awaited := by
  have hrest := congrArg Replica.awaited h.rest
  exact hrest

theorem sendReconfigAck_awaited (fin : Finality) (r : Recs) :
    (s.sendReconfigAck fin r).awaited = s.awaited := by
  unfold sendReconfigAck
  simp only []
  split
  · exact (s.answerClient_mcOnly fin).awaited
  · exact (s.answerClient_mcOnly fin).awaited

theorem waitDecision_awaited (cb : ℕ) : (s.waitDecision h cb).awaited = s.awaited := by
  unfold waitDecision
  split <;> rfl

theorem exec_awaited (C : Crypto) {op : Op} (hop : op.onHead = false)
    (hwait : ∀ blk, op ≠ .asyncQcFinish blk) : (s.exec C op).1.awaited = s.awaited := by
  cases op with
  | receiveMcLocal prop x => exact (s.receiveMcLocal_mcOnly prop x).awaited
  | relayMc prop x => exact (s.relayMc_mcOnly prop x).awaited
  | remoteViewChangeTimeout cid =>
    exact s.view_of_uncomplained uncomplained_awaited (s.remoteViewChangeTimeout_uncomplained C cid)
  | receiveLComplain c =>
    exact s.view_of_uncomplained uncomplained_awaited (s.onReceiveLComplain_uncomplained C c)
  | receiveRComplain c junk =>
    exact s.view_of_unrotated unrotated_awaited (s.onReceiveRComplain_unrotated c junk)
  | msgRecs r => exact (s.msgRecsHandler_recsOnly r).awaited
  | sendReconfigAck fin r => exact s.sendReconfigAck_awaited fin r
  | msgRecsAggEchoReady msg => exact (s.msgRecsAggEchoReadyHandler_recsOnly msg).awaited
  | asyncQcFinish blk => exact absurd rfl (hwait blk)
  | waitDecision cmdHash cb => exact s.waitDecision_awaited cmdHash cb
  | _ => exact absurd hop (by simp [Op.onHead])

/-- The block has been through `update_hqc`, and nobody waits for its certificate. -/
def Finished (b : Hash) : Prop :=
  s.delivered b = true ∧ s.height b ≤ s.height s.hqc.1 ∧ b ∉ s.qcWaiting

/-- Part of a call: the highest certificate gets no lower, voters are added to delivered blocks
only, and a block that gets its quorum is finished. -/
structure Rises (s u : Replica) : Prop where
  grows : Tree.Grows s.tree u.tree
  config : u.config = s.config
  delivered : u.delivered u.hqc.1 = true
  hqc : s.height s.hqc.1 ≤ u.height u.hqc.1
  waiting : ∀ b ∈ u.qcWaiting, b ∈ s.qcWaiting
  voters : ∀ b, (u.storage.ballot b).2 = (s.storage.ballot b).2 ∨ u.delivered b = true
  quorum : ∀ b, s.config.nmajority ≤ (u.storage.ballot b).2.card →
    s.config.nmajority ≤ (s.storage.ballot b).2.card ∨ u.Finished b

variable {s} {u w : Replica} {b : Hash}

theorem Finished.rises (f : s.Finished b) (r : Rises s u) : u.Finished b := by
  obtain ⟨hd, hle, hnot⟩ := f
  refine ⟨r.grows.delivered hd, ?_, fun hb => hnot (r.waiting b hb)⟩
  have hheight : u.height b = s.height b := r.grows.height hd
  have hrise := r.hqc
  omega

theorem Rises.trans (r : Rises s u) (r' : Rises u w) : Rises s w := by
  refine ⟨r.grows.trans r'.grows, r'.config.trans r.config, r'.delivered, r.hqc.trans r'.hqc,
    fun b hb => r.waiting b (r'.waiting b hb), ?_, ?_⟩
  · intro b
    cases r'.voters b with
    | inl hsame => rw [hsame]; exact (r.voters b).imp_right fun h => r'.grows.delivered h
    | inr hd => exact .inr hd
  · intro b hb
    have hmaj : u.config.nmajority = s.config.nmajority := congrArg _ r.config
    rcases r'.quorum b (hmaj ▸ hb) with hq | hf
    · rcases r.quorum b (hmaj ▸ hq) with hq | hf
      · exact .inl hq
      · exact .inr (hf.rises r')
    · exact .inr hf

theorem Rises.of_ballot (g : Tree.Grows s.tree u.tree) (hconfig : u.config = s.config)
    (hd : u.delivered u.hqc.1 = true) (hhqc : s.height s.hqc.1 ≤ u.height u.hqc.1)
    (hwait : ∀ b ∈ u.qcWaiting, b ∈ s.qcWaiting)
    (hballot : ∀ b, (u.storage.ballot b).2 = (s.storage.ballot b).2) : Rises s u := by
  refine ⟨g, hconfig, hd, hhqc, hwait, fun b => .inl (hballot b), ?_⟩
  intro b hb
  rw [hballot] at hb
  exact .inl hb

theorem Rises.of_same (hd : s.delivered s.hqc.1 = true) (g : Tree.Grows s.tree u.tree)
    (hconfig : u.config = s.config) (hhqc : u.hqc = s.hqc)
    (hwait : ∀ b ∈ u.qcWaiting, b ∈ s.qcWaiting)
    (hballot : ∀ b, (u.storage.ballot b).2 = (s.storage.ballot b).2) : Rises s u := by
  apply Rises.of_ballot g hconfig _ _ hwait hballot
  · rw [hhqc]
    exact g.delivered hd
  · rw [hhqc]
    exact Nat.le_of_eq (g.height hd).symm

theorem Rises.refl (hd : s.delivered s.hqc.1 = true) : Rises s s :=
  .of_same hd (.refl _) rfl rfl (fun _ h => h) fun _ => rfl

theorem updateHqc_hqc (qc : QuorumCert) :
    ((s.updateHqc b qc).hqc = s.hqc ∨ (s.updateHqc b qc).hqc.1 = b ∧
      s.height s.hqc.1 < s.height b) ∧
    s.height b ≤ s.height (s.updateHqc b qc).hqc.1 := by
  unfold updateHqc
  split
  · rename_i hgt
    exact ⟨.inr ⟨rfl, hgt⟩, Nat.le_refl _⟩
  · rename_i hle
    exact ⟨.inl rfl, Nat.le_of_not_lt hle⟩

theorem mem_onQcFinish {x : Hash} (h : x ∈ (s.onQcFinish b).qcWaiting) :
    x ∈ s.qcWaiting ∧ x ≠ b := by
  unfold onQcFinish at h
  split at h
  · obtain ⟨hx, hne⟩ := List.mem_filter.mp h
    exact ⟨hx, of_decide_eq_true hne⟩
  · rename_i hnot
    refine ⟨h, ?_⟩
    rintro rfl
    exact hnot h

structure VoteAdded (s : Replica) (v : Vote) (blk : Block) (u : Replica) : Prop where
  tree : u.tree = s.tree
  config : u.config = s.config
  hqc : u.hqc = s.hqc
  waiting : u.qcWaiting = s.qcWaiting
  self : (u.storage.ballot v.blkHash).2 = insert v.voter blk.voted
  other : ∀ b, b ≠ v.blkHash → (u.storage.ballot b).2 = (s.storage.ballot b).2

theorem addVote_added {v : Vote} {blk : Block} (hb : s.storage.blkCache v.blkHash = some blk) :
    s.VoteAdded v blk (s.addVote v).1 := by
  have hhead := (s.addVote_head hb).2
  have hballot : (s.addVote v).1.storage.ballot = Function.update s.storage.ballot v.blkHash _ :=
    congrArg Head.ballot hhead
  refine ⟨congrArg Ledger.tree (addVote_ledger v), s.addVote_config v, congrArg Head.hqc hhead,
    congrArg Prod.fst (s.addVote_awaited v), ?_, ?_⟩
  · rw [hballot, Function.update_self]
  · intro b hne
    rw [hballot, Function.update_of_ne hne]

theorem addVote_some {v : Vote} {blk : Block} (hb : s.storage.blkCache v.blkHash = some blk)
    (hcert : ∀ qc, (s.storage.ballot v.blkHash).1 = some qc → qc.objHash = v.blkHash)
    (hv : v.cert.objHash = v.blkHash) : (s.addVote v).2 ≠ none := by
  have hobj : (blk.selfQc.getD (createQuorumCert s.config v.blkHash)).objHash = v.blkHash := by
    cases hq : blk.selfQc with
    | none => rfl
    | some qc =>
      apply hcert
      rw [ballot_of_cache hb, hq]
      rfl
  rw [(s.addVote_head hb).1]
  unfold QuorumCert.addPart
  rw [if_pos (hv.trans hobj.symm)]
  exact Option.some_ne_none _

namespace VoteAdded
variable {v : Vote} {blk : Block}

theorem delivered (k : s.VoteAdded v blk u) (b : Hash) : u.delivered b = s.delivered b := by
  unfold Replica.delivered
  rw [k.tree]

theorem height (k : s.VoteAdded v blk u) (b : Hash) : u.height b = s.height b := by
  unfold Replica.height
  rw [k.tree]

theorem rises (k : s.VoteAdded v blk u) (hd : s.delivered s.hqc.1 = true)
    (hstored : s.delivered v.blkHash = true) (hnew : v.voter ∉ blk.voted)
    (hn : blk.voted.card < s.config.nmajority)
    (hlast : blk.voted.card + 1 ≠ s.config.nmajority) : Rises s u := by
  refine ⟨?_, k.config, ?_, ?_, ?_, ?_, ?_⟩
  · rw [k.tree]
    exact .refl _
  · rw [k.hqc, k.delivered]
    exact hd
  · rw [k.hqc, k.height]
  · intro x hx
    exact k.waiting ▸ hx
  · intro x
    by_cases hx : x = v.blkHash
    · rw [hx, k.delivered]
      exact .inr hstored
    · exact .inl (k.other x hx)
  · intro x hcard
    by_cases hx : x = v.blkHash
    · rw [hx, k.self, Finset.card_insert_of_notMem hnew] at hcard
      omega
    · rw [k.other x hx] at hcard
      exact .inl hcard

/-- The vote that completes the quorum: the block is certified and nobody waits for it. -/
theorem rises_quorum (k : s.VoteAdded v blk u) (hd : s.delivered s.hqc.1 = true)
    (hstored : s.delivered v.blkHash = true) (qc : QuorumCert) :
    Rises s ((u.updateHqc v.blkHash qc).onQcFinish v.blkHash) := by
  obtain ⟨hhqc, hge⟩ := updateHqc_hqc (s := u) (b := v.blkHash) qc
  have htree : ((u.updateHqc v.blkHash qc).onQcFinish v.blkHash).tree = u.tree :=
    congrArg Ledger.tree ((onQcFinish_ledger _ _).trans (updateHqc_ledger u v.blkHash qc))
  have hdel : ∀ x, ((u.updateHqc v.blkHash qc).onQcFinish v.blkHash).delivered x =
      s.delivered x := by
    intro x
    unfold Replica.delivered
    rw [htree, k.tree]
  have hheight : ∀ x, ((u.updateHqc v.blkHash qc).onQcFinish v.blkHash).height x =
      s.height x := by
    intro x
    unfold Replica.height
    rw [htree, k.tree]
  have hfirst : ((u.updateHqc v.blkHash qc).onQcFinish v.blkHash).hqc =
      (u.updateHqc v.blkHash qc).hqc := congrArg Head.hqc (onQcFinish_head _ _)
  have hballot : ((u.updateHqc v.blkHash qc).onQcFinish v.blkHash).storage.ballot =
      u.storage.ballot :=
    (congrArg Head.ballot (onQcFinish_head _ _)).trans (updateHqc_ballot v.blkHash qc)
  have hfinished : ((u.updateHqc v.blkHash qc).onQcFinish v.blkHash).Finished v.blkHash := by
    refine ⟨(hdel _).trans hstored, ?_, fun hmem => (mem_onQcFinish hmem).2 rfl⟩
    rw [hheight, hheight, hfirst, ← k.height, ← k.height]
    exact hge
  refine ⟨?_, ?_, ?_, ?_, ?_, ?_, ?_⟩
  · rw [htree, k.tree]
    exact .refl _
  · have hfinish := onQcFinish_frame (u.updateHqc v.blkHash qc) v.blkHash
    have hup := updateHqc_frame u v.blkHash qc
    exact (congrArg Frame.config (hfinish.trans hup)).trans k.config
  · rw [hdel, hfirst]
    rcases hhqc with h | ⟨h, -⟩
    · rw [h, k.hqc]
      exact hd
    · rw [h]
      exact hstored
  · rw [hheight, hfirst]
    rcases hhqc with h | ⟨h, hlt⟩
    · rw [h, k.hqc]
    · rw [h, ← k.height, ← k.height, ← k.hqc]
      exact Nat.le_of_lt hlt
  · intro x hx
    have hup := (mem_onQcFinish hx).1
    rw [show (u.updateHqc v.blkHash qc).qcWaiting = u.qcWaiting from
      congrArg Prod.fst (u.updateHqc_awaited v.blkHash qc), k.waiting] at hup
    exact hup
  · intro x
    by_cases hx : x = v.blkHash
    · rw [hx]
      exact .inr hfinished.1
    · rw [hballot]
      exact .inl (k.other x hx)
  · intro x hcard
    by_cases hx : x = v.blkHash
    · rw [hx]
      exact .inr hfinished
    · rw [hballot, k.other x hx] at hcard
      exact .inl hcard

end VoteAdded

theorem onReceiveVote_rises {v : Vote} (hd : s.delivered s.hqc.1 = true)
    (hcert : ∀ qc, (s.storage.ballot v.blkHash).1 = some qc → qc.objHash = v.blkHash)
    (hv : v.cert.objHash = v.blkHash) : Rises s (s.onReceiveVote v).1 := by
  have hpoll := s.polling v
  generalize s.onReceiveVote v = r at hpoll
  cases hpoll with
  | absent | undelivered | full | again => exact .refl hd
  | mismatch hb _ _ _ hu => exact absurd (congrArg Prod.snd hu) (addVote_some hb hcert hv)
  | counted hb hdel hn hnew hu hlast =>
    have k := addVote_added hb
    rw [hu] at k
    exact k.rises hd ((delivered_of_cache hb).trans hdel) hnew hn hlast
  | quorum hb hdel hn hnew hu =>
    have k := addVote_added hb
    rw [hu] at k
    exact k.rises_quorum hd ((delivered_of_cache hb).trans hdel) _

def Low (s : Replica) : Prop := ∀ x, s.delivered x = false → s.height x = 0

theorem Low.of_height (l : s.Low) (g : Tree.Grows s.tree u.tree) (h : u.height = s.height) :
    u.Low := by
  intro x hx
  rw [h]
  apply l
  cases hs : s.delivered x with
  | false => rfl
  | true =>
    have hu : u.delivered x = true := g.delivered hs
    rw [hu] at hx
    cases hx

theorem Low.of_tree (l : s.Low) (h : u.tree = s.tree) : u.Low := by
  intro x hx
  unfold height
  rw [h]
  apply l
  unfold delivered
  rw [← h]
  exact hx

/-- The block of the certificate may not be delivered; it is then too low. -/
theorem update_rises (w : s.tree.Wf) (l : s.Low) (hd : s.delivered s.hqc.1 = true) (b : Hash) :
    Rises s (s.update b).1 := by
  have g := (update_ledger (G := Ledger.Guard.any) w b).grows
  have hheight : (s.update b).1.height = s.height := congrArg Prod.snd (s.update_awaited b)
  have hconfig : (s.update b).1.config = s.config := congrArg Frame.config (s.update_frame b)
  have hhqc : s.delivered (s.update b).1.hqc.1 = true ∧
      s.height s.hqc.1 ≤ s.height (s.update b).1.hqc.1 := by
    obtain ⟨hsame, -⟩ | ⟨blk, b2, -, -, -, hhead⟩ := s.update_head b
    · rw [show (s.update b).1.hqc = s.hqc from congrArg Head.hqc hsame]
      exact ⟨hd, Nat.le_refl _⟩
    · rw [show (s.update b).1.hqc = (s.updateHqc b2 blk.body.qc).hqc from
        congrArg Head.hqc hhead]
      rcases (updateHqc_hqc (s := s) (b := b2) blk.body.qc).1 with h | ⟨h, hlt⟩
      · rw [h]
        exact ⟨hd, Nat.le_refl _⟩
      · rw [h]
        refine ⟨?_, Nat.le_of_lt hlt⟩
        cases hb2 : s.delivered b2 with
        | true => rfl
        | false =>
          rw [l b2 hb2] at hlt
          omega
  apply Rises.of_ballot g hconfig (g.delivered hhqc.1)
  · rw [hheight]
    exact hhqc.2
  · rw [show (s.update b).1.qcWaiting = s.qcWaiting from congrArg Prod.fst (s.update_awaited b)]
    exact fun _ h => h
  · intro x
    rw [update_ballot]

theorem finishQcRef_rises (hd : s.delivered s.hqc.1 = true) : Rises s (s.finishQcRef b) := by
  have htree : (s.finishQcRef b).tree = s.tree := congrArg Ledger.tree (finishQcRef_ledger ..)
  have hhead := s.finishQcRef_head b
  apply Rises.of_same hd
  · rw [htree]
    exact .refl _
  · exact congrArg Frame.config (s.finishQcRef_frame b)
  · exact congrArg Head.hqc hhead
  · intro x hx
    unfold finishQcRef at hx
    split at hx
    · exact hx
    · exact (mem_onQcFinish hx).1
  · exact fun x => congrArg (fun H : Head => (H.ballot x).2) hhead

theorem opined_rises (selfProp : Bool) (hd : s.delivered s.hqc.1 = true) (b : Hash) (o : Bool) :
    Rises s ((s.opined selfProp b o).notifyReceiveProposal b) := by
  have htake : Rises s (s.takeOpinion b o) := by
    unfold takeOpinion
    split
    · exact .of_same hd (.refl _) rfl rfl (fun _ h => h) fun _ => rfl
    · exact .refl hd
  have hopined : Rises s (s.opined selfProp b o) := by
    unfold opined
    split
    · exact htake
    · exact htake.trans (finishQcRef_rises htake.delivered)
  exact hopined.trans
    (.of_same hopined.delivered (.refl _) rfl rfl (fun _ h => h) fun _ => rfl)

theorem judgeProposal_rises (C : Crypto) (selfProp : Bool) (hd : s.delivered s.hqc.1 = true)
    (hcert : ∀ h qc, (s.storage.ballot h).1 = some qc → qc.objHash = h) (b : Hash) :
    Rises s (s.judgeProposal C selfProp b).1 := by
  have hjudge := s.judgement C selfProp b
  generalize s.judgeProposal C selfProp b = r at hjudge
  cases hjudge with
  | undefined => exact .refl hd
  | silent => exact opined_rises selfProp hd b _
  | vote =>
    have hopined := opined_rises selfProp hd b true
    have hballot : ((s.opined selfProp b true).notifyReceiveProposal b).storage.ballot =
        s.storage.ballot := congrArg Head.ballot (s.opined_head b selfProp true)
    have hcert' := hcert
    rw [← hballot] at hcert'
    generalize (s.opined selfProp b true).notifyReceiveProposal b = w at hopined hcert' ⊢
    have hemit : Rises w (w.emit (.vote b)) :=
      .of_same hopined.delivered (.refl _) rfl rfl (fun _ h => h) fun _ => rfl
    unfold doVote
    simp only []
    split
    · exact (hopined.trans hemit).trans (onReceiveVote_rises hemit.delivered (hcert' b) rfl)
    · exact hopined.trans
        (.of_same hopined.delivered (.refl _) rfl rfl (fun _ h => h) fun _ => rfl)

theorem onReceiveProposal_rises (C : Crypto) (w : s.tree.Wf) (l : s.Low)
    (hd : s.delivered s.hqc.1 = true)
    (hcert : ∀ h qc, (s.storage.ballot h).1 = some qc → qc.objHash = h) (proposer : ReplicaID)
    (b : Hash) : Rises s (s.onReceiveProposal C proposer b).1 := by
  unfold onReceiveProposal
  split
  · exact judgeProposal_rises C true hd hcert b
  split
  · exact .refl hd
  have r := update_rises w l hd b
  have hballot := update_ballot (s := s) b
  generalize s.update b = p at r hballot ⊢
  obtain ⟨u, none | e⟩ := p
  · rw [Outcome.andThen_return]
    apply r.trans (judgeProposal_rises C false r.delivered _ b)
    intro h qc hq
    exact hcert h qc (hballot ▸ hq)
  · exact r

theorem modifyBlk_height_of_ne (f : Block → Block) {h x : Hash} (hx : x ≠ h) :
    (s.modifyBlk h f).height x = s.height x := by
  unfold height Tree.height tree modifyBlk
  simp only [Function.update_of_ne hx]

theorem modifyBlk_height_self (f : Block → Block) {h : Hash} {blk : Block}
    (hb : s.storage.blkCache h = some blk) : (s.modifyBlk h f).height h = (f blk).height := by
  unfold height Tree.height tree modifyBlk
  simp [hb]

theorem modifyBlk_cache (f : Block → Block) {h : Hash} {blk : Block}
    (hb : s.storage.blkCache h = some blk) :
    (s.modifyBlk h f).storage.blkCache h = some (f blk) := by
  unfold modifyBlk
  simp [hb]

theorem markDelivered_height (h : Hash) (parents : List Hash) :
    (s.markDelivered h parents).height = s.height := by
  have hmap : ∀ u : Replica, (u.storeInMapForMc h).height = u.height := by
    intro u
    unfold storeInMapForMc EntityStorage.addCidBlkhash
    split <;> rfl
  unfold markDelivered
  simp only []
  rw [hmap]
  have hmod := modifyBlk_awaited
    { s with tails := (s.tails.filter fun b => decide (b ∉ parents)).insert h } h
    (fun b => { b with qcRef := some b.body.qc.objHash, delivered := true }) fun _ => rfl
  exact congrArg Prod.snd hmod

theorem onDeliverBlk_waiting (h : Hash) : (s.onDeliverBlk h).1.qcWaiting = s.qcWaiting := by
  have hdelivery := s.delivery h
  generalize s.onDeliverBlk h = r at hdelivery
  cases hdelivery <;> rfl

/-- When the block of its certificate has been fetched, a block gets a height on delivery only. -/
theorem onDeliverBlk_height {h : Hash} (hq : ∀ blk, s.storage.blkCache h = some blk →
    (s.storage.blkCache blk.body.qc.objHash).isSome = true) :
    (∀ x, x ≠ h → (s.onDeliverBlk h).1.height x = s.height x) ∧
      ((s.onDeliverBlk h).1.delivered h = true ∨ (s.onDeliverBlk h).1.height h = s.height h) := by
  have hkeep : ∀ {blk : Block}, s.storage.blkCache h = some blk → ∀ ps,
      (∀ x, x ≠ h → (s.modifyBlk h (·.linked ps blk.height)).height x = s.height x) ∧
        (s.modifyBlk h (·.linked ps blk.height)).height h = s.height h := by
    intro blk hb ps
    have hself : s.height h = blk.height := Tree.height_of (s.tree_of_cache hb)
    exact ⟨fun x hx => modifyBlk_height_of_ne _ hx,
      (modifyBlk_height_self _ hb).trans hself.symm⟩
  have hdelivery := s.delivery h
  generalize hr : s.onDeliverBlk h = r at hdelivery ⊢
  cases hdelivery with
  | absent | again => exact ⟨fun _ _ => rfl, .inr rfl⟩
  | unparented hb | orphan hb => exact ⟨(hkeep hb _).1, .inr (hkeep hb _).2⟩
  | uncertified hb hd hhead hp hnone =>
    have hsome := hq _ hb
    rw [hnone] at hsome
    cases hsome
  | done =>
    refine ⟨?_, .inl (onDeliverBlk_ok hr)⟩
    intro x hx
    change (markDelivered _ _ _).height x = _
    rw [markDelivered_height]
    exact modifyBlk_height_of_ne _ hx

theorem onDeliverBlk_delivers {h p : Hash} {blk : Block} (hb : s.storage.blkCache h = some blk)
    (hp : blk.body.parentHashes = [p]) (hd : s.delivered p = true)
    (hq : (s.storage.blkCache blk.body.qc.objHash).isSome = true) :
    ∃ v, (s.onDeliverBlk h).2 = .ok v := by
  cases hold : blk.delivered with
  | true =>
    rw [(Delivery.again hb hold).eq]
    exact ⟨false, rfl⟩
  | false =>
    have hall : ∀ q ∈ blk.body.parentHashes, s.delivered q = true := by
      intro q hmem
      rw [hp] at hmem
      rw [List.mem_singleton.mp hmem]
      exact hd
    have hhead : blk.body.parentHashes.head? = some p := by
      rw [hp]
      rfl
    rw [(Delivery.done hb hold hhead hall hq).eq]
    exact ⟨true, rfl⟩

theorem storeProposal_stored {h : Hash} {b : Block} (parents : List Hash)
    (hfree : ∀ blk, s.storage.blkCache h = some blk → blk.body = b.body) :
    (∃ blk, (s.storeProposal h b parents).storage.blkCache h = some blk ∧ blk.body = b.body) ∧
      (∀ x, x ≠ h → (s.storeProposal h b parents).tree x = s.tree x) ∧
      ∀ x n, s.tree x = some n → (s.storeProposal h b parents).tree x = some n := by
  have hself := tree_modifyBlk_same
    (addBlk { s with tails := s.tails.filter fun t => decide (t ∉ parents) } h b) h
    (fun blk => { blk with selfQc := some (createQuorumCert s.config h) }) fun _ => rfl
  have hother : ∀ x, x ≠ h → (s.storeProposal h b parents).tree x = s.tree x := by
    intro x hx
    refine (congrFun hself x).trans ?_
    unfold tree addBlk EntityStorage.addBlk
    split
    · rfl
    · simp only [Function.update_of_ne hx]
  cases hb : s.storage.blkCache h with
  | none =>
    have hadd : (addBlk { s with tails := s.tails.filter fun t => decide (t ∉ parents) } h
        b).storage.blkCache h = some b := by
      unfold addBlk EntityStorage.addBlk
      rw [hb]
      exact Function.update_self ..
    refine ⟨⟨_, modifyBlk_cache _ hadd, rfl⟩, hother, ?_⟩
    intro x n hn
    have hx : x ≠ h := by
      rintro rfl
      simp [tree, hb] at hn
    exact (hother x hx).trans hn
  | some blk =>
    have hadd : addBlk { s with tails := s.tails.filter fun t => decide (t ∉ parents) } h b =
        { s with tails := s.tails.filter fun t => decide (t ∉ parents) } := by
      unfold addBlk EntityStorage.addBlk
      rw [hb]
      rfl
    refine ⟨⟨{ blk with selfQc := some (createQuorumCert s.config h) }, ?_, hfree blk hb⟩, hother,
      ?_⟩
    · unfold storeProposal
      simp only []
      rw [hadd]
      exact modifyBlk_cache _ hb
    · intro x n hn
      refine (congrFun hself x).trans ?_
      rw [hadd]
      exact hn

theorem storeProposal_rises (k : s.Leading) (l : s.Low) (hd : s.delivered s.hqc.1 = true)
    {h : Hash} {b : Block} (hbd : b.delivered = false) (hdec : b.decision = false)
    (hq : b.selfQc = none) (hv : b.voted = ∅) (hl : b.lcomplains = ∅) (hr : b.rcomplains = ∅)
    (hparent : b.body.parentHashes = [s.pmaker.hqcTail]) (hqc : b.body.qc = s.hqc.2)
    (hfree : ∀ blk, s.storage.blkCache h = some blk → blk.body = b.body) {u : Replica}
    {res : Except Exn Bool}
    (hu : (s.storeProposal h b [s.pmaker.hqcTail]).onDeliverBlk h = (u, res)) :
    Rises s u ∧ u.Low ∧ ∃ v, res = .ok v := by
  obtain ⟨⟨blk, hblk, hbody⟩, hother, hkeep⟩ :=
    storeProposal_stored [s.pmaker.hqcTail] hfree
  have hhead := s.storeProposal_head h b [s.pmaker.hqcTail] hq hv
  have hframe := s.storeProposal_frame h b [s.pmaker.hqcTail] hl hr
  have hwait : (s.storeProposal h b [s.pmaker.hqcTail]).qcWaiting = s.qcWaiting := rfl
  have hsteps := storeProposal_steps (G := Ledger.Guard.any) (s := s) h hbd hdec
    [s.pmaker.hqcTail] trivial trivial
  generalize s.storeProposal h b [s.pmaker.hqcTail] = v
    at hu hblk hother hkeep hhead hframe hwait hsteps
  have g : Tree.Grows s.tree u.tree := by
    rw [hu] at hsteps
    exact hsteps.grows
  -- the tail and the block of the certificate are stored, so the block is delivered
  have htail : s.delivered s.pmaker.hqcTail = true := by
    cases k.head.tail with
    | inl h => rw [show s.pmaker.hqcTail = s.hqc.1 from h]; exact hd
    | inr h => exact h.1
  obtain ⟨nt, hnt, hntd⟩ := Tree.exists_of_delivered htail
  have hvtail : v.delivered s.pmaker.hqcTail = true :=
    (Tree.delivered_of (hkeep _ nt hnt)).trans hntd
  obtain ⟨nq, hnq, -⟩ := Tree.exists_of_delivered hd
  have hvq : (v.storage.blkCache blk.body.qc.objHash).isSome = true := by
    rw [hbody, hqc, show s.hqc.2.objHash = s.hqc.1 from k.head.cert]
    have hsome : (v.tree s.hqc.1).isSome = true := by
      rw [hkeep _ nq hnq]
      rfl
    unfold tree at hsome
    rwa [Option.isSome_map] at hsome
  obtain ⟨val, hval⟩ := onDeliverBlk_delivers hblk (hbody ▸ hparent) hvtail hvq
  have hres : res = .ok val := by
    rw [hu] at hval
    exact hval
  subst hres
  have hud : u.delivered h = true := onDeliverBlk_ok hu
  have hheight : ∀ x, x ≠ h → u.height x = s.height x := by
    have hd := (onDeliverBlk_height (s := v) (h := h) fun blk' hb' => by
      obtain rfl : blk = blk' := Option.some.inj (hblk.symm.trans hb')
      exact hvq).1
    rw [hu] at hd
    intro x hx
    refine (hd x hx).trans ?_
    unfold height Tree.height
    rw [hother x hx]
  refine ⟨?_, ?_, val, rfl⟩
  · have hdhead := v.onDeliverBlk_head h
    have hdframe := v.onDeliverBlk_frame h
    have hdwait := onDeliverBlk_waiting (s := v) h
    rw [hu] at hdhead hdframe hdwait
    have hsame : u.hqc = s.hqc ∧ u.storage.ballot = v.storage.ballot := by
      have hvhqc : v.hqc = s.hqc := congrArg Head.hqc hhead
      obtain hsame | ⟨-, ts, -, hsame⟩ := hdhead
      · exact ⟨(congrArg Head.hqc hsame).trans hvhqc, congrArg Head.ballot hsame⟩
      · exact ⟨(congrArg Head.hqc hsame).trans hvhqc, congrArg Head.ballot hsame⟩
    apply Rises.of_same hd g
    · exact (congrArg Frame.config hdframe).trans (congrArg Frame.config hframe)
    · exact hsame.1
    · intro x hx
      exact hwait ▸ hdwait ▸ hx
    · intro x
      rw [hsame.2, show v.storage.ballot = Function.update s.storage.ballot h _ from
        congrArg Head.ballot hhead]
      by_cases hx : x = h
      · rw [hx, Function.update_self]
      · rw [Function.update_of_ne hx]
  · intro x hx
    have hxh : x ≠ h := by
      rintro rfl
      rw [hud] at hx
      cases hx
    rw [hheight x hxh]
    apply l
    cases hs : s.delivered x with
    | false => rfl
    | true =>
      have hux : u.delivered x = true := g.delivered hs
      rw [hux] at hx
      cases hx

theorem finishProposal_rises (C : Crypto) (w : s.tree.Wf) (l : s.Low)
    (hd : s.delivered s.hqc.1 = true)
    (hcert : ∀ h qc, (s.storage.ballot h).1 = some qc → qc.objHash = h) (b : Hash) :
    Rises s (s.finishProposal C b).1 := by
  unfold finishProposal
  split
  · exact .refl hd
  have r := onReceiveProposal_rises C w l hd hcert s.id b
  generalize s.onReceiveProposal C s.id b = p at r ⊢
  obtain ⟨u, none | e⟩ := p
  · rw [Outcome.andThen_return]
    exact r.trans (.of_same r.delivered (.refl _) rfl rfl (fun _ h => h) fun _ => rfl)
  · exact r

theorem finishProposal_tree (C : Crypto) (b : Hash) :
    (s.finishProposal C b).1.tree = s.tree := by
  unfold finishProposal
  split
  · rfl
  unfold onReceiveProposal
  rw [if_pos rfl]
  have htree := judgeProposal_tree (s := s) C true b
  generalize s.judgeProposal C true b = p at htree ⊢
  obtain ⟨u, none | e⟩ := p
  · rw [Outcome.andThen_return]
    exact htree
  · exact htree

theorem onPropose_rises (C : Crypto) (k : s.Leading) (l : s.Low)
    (hd : s.delivered s.hqc.1 = true) {cmds : List Hash} {keys vals : List ℤ}
    {parents : List Hash} {extra : List UInt8}
    (hop : s.Proper C (.propose cmds keys vals parents extra)) :
    Rises s (s.onPropose C cmds keys vals parents extra).1 ∧
      (s.onPropose C cmds keys vals parents extra).1.Low := by
  obtain ⟨rfl, hfree⟩ := hop
  unfold onPropose
  simp only [List.head?_cons]
  generalize hu : (s.storeProposal _ (s.newBlock cmds keys vals [s.pmaker.hqcTail]
    s.pmaker.hqcTail extra) [s.pmaker.hqcTail]).onDeliverBlk _ = p
  obtain ⟨u, res⟩ := p
  obtain ⟨r, lu, val, rfl⟩ := storeProposal_rises k l hd rfl rfl rfl rfl rfl rfl rfl rfl
    hfree hu
  have hmade := made_of_deliver k.chained k.head k.genesis rfl rfl rfl rfl rfl rfl hfree
    (congrArg Prod.fst hu).symm
  generalize C.getHash (s.newBlock cmds keys vals [s.pmaker.hqcTail] s.pmaker.hqcTail
    extra).body = h at hu hmade ⊢
  have hsteps := update_ledger (G := Ledger.Guard.any) hmade.1.wf h
  have ru := update_rises hmade.1.wf lu r.delivered h
  have hheight : (u.update h).1.height = u.height := congrArg Prod.snd (u.update_awaited h)
  have hballot := update_ballot (s := u) h
  simp only []
  generalize u.update h = p at hsteps ru hheight hballot ⊢
  obtain ⟨w, none | e⟩ := p
  · rw [Outcome.andThen_return]
    have lw := lu.of_height hsteps.grows hheight
    refine ⟨(r.trans ru).trans (finishProposal_rises C (hsteps.wf hmade.1.wf) lw ru.delivered
      ?_ h), ?_⟩
    · intro x qc hq
      rw [show w.storage.ballot = u.storage.ballot from hballot] at hq
      exact hmade.2.1.ballots x qc hq
    · apply lw.of_tree
      exact finishProposal_tree C h
  · exact ⟨r.trans ru, lu.of_height hsteps.grows hheight⟩

/-- The block of its certificate has been fetched when a block is delivered, as in
`async_deliver_blk`. -/
def Fetched (s : Replica) : Op → Prop
  | .deliverBlk h => ∀ blk ∈ s.storage.blkCache h,
      (s.storage.blkCache blk.body.qc.objHash).isSome = true
  | _ => True

instance (s : Replica) : (op : Op) → Decidable (s.Fetched op)
  | .deliverBlk h => inferInstanceAs (Decidable (∀ blk ∈ s.storage.blkCache h,
      (s.storage.blkCache blk.body.qc.objHash).isSome = true))
  | .addBlk _ | .receiveProposal .. | .receiveVote _ | .propose .. | .receiveMcLocal ..
  | .relayMc .. | .remoteViewChangeTimeout _ | .receiveLComplain _ | .receiveRComplain ..
  | .msgRecs _ | .sendReconfigAck .. | .msgRecsAggEchoReady _ | .asyncQcFinish _
  | .waitDecision .. => inferInstanceAs (Decidable True)

theorem exec_low (C : Crypto) (k : s.Leading) (l : s.Low) (hd : s.delivered s.hqc.1 = true)
    {op : Op} (hop : s.Proper C op) (hf : s.Fetched op) : (s.exec C op).1.Low := by
  have g := (exec_steps C k.chained.wf op).grows
  cases op with
  | addBlk body =>
    apply l.of_height g
    funext x
    change (s.addBlk (C.getHash body) (.parsed body)).height x = s.height x
    unfold addBlk EntityStorage.addBlk
    split
    · rfl
    rename_i hnone
    by_cases hx : x = C.getHash body
    · subst x
      simp only [Option.not_isSome_iff_eq_none] at hnone
      simp [height, Tree.height, tree, hnone, Block.parsed]
    · simp [height, Tree.height, tree, hx]
  | deliverBlk blk =>
    change (s.deliverOutcome blk).1.Low
    change Tree.Grows s.tree (s.deliverOutcome blk).1.tree at g
    rw [deliverOutcome_fst] at g ⊢
    obtain ⟨hother, hself⟩ := onDeliverBlk_height hf
    intro x hx
    have hold : s.delivered x = false := by
      cases hs : s.delivered x with
      | false => rfl
      | true =>
        have hux : (s.onDeliverBlk blk).1.delivered x = true := g.delivered hs
        rw [hux] at hx
        cases hx
    by_cases hxb : x = blk
    · subst x
      rcases hself with hd' | hsame
      · rw [hd'] at hx
        cases hx
      · rw [hsame]
        exact l blk hold
    · rw [hother x hxb]
      exact l x hold
  | receiveProposal proposer blk =>
    apply l.of_height g
    change (s.onReceiveProposal C proposer blk).1.height = s.height
    unfold onReceiveProposal
    split
    · unfold height
      rw [judgeProposal_tree]
    split
    · rfl
    have hheight : (s.update blk).1.height = s.height :=
      congrArg Prod.snd (s.update_awaited blk)
    generalize s.update blk = p at hheight ⊢
    obtain ⟨u, none | e⟩ := p
    · rw [Outcome.andThen_return, ← hheight]
      unfold height
      rw [judgeProposal_tree]
    · exact hheight
  | receiveVote v => exact l.of_tree (congrArg Ledger.tree (onReceiveVote_ledger v))
  | propose cmds keys vals parents extra => exact (onPropose_rises C k l hd hop).2
  | asyncQcFinish blk => exact l.of_tree (congrArg Ledger.tree (asyncQcFinish_ledger s blk))
  | _ =>
    apply l.of_height g
    refine congrArg Prod.snd (s.exec_awaited C rfl ?_)
    exact fun _ h => by cases h

theorem exec_rises (C : Crypto) (k : s.Leading) (l : s.Low) (hd : s.delivered s.hqc.1 = true)
    {op : Op} (hop : s.Proper C op) (hver : op.Verified C)
    (hconfig : (s.exec C op).1.config = s.config) (hwait : ∀ blk, op ≠ .asyncQcFinish blk) :
    Rises s (s.exec C op).1 := by
  have g := (exec_steps C k.chained.wf op).grows
  have hsame : (s.exec C op).1.head = s.head → (s.exec C op).1.qcWaiting = s.qcWaiting →
      Rises s (s.exec C op).1 := by
    intro hhead hw
    apply Rises.of_same hd g hconfig (congrArg Head.hqc hhead)
    · exact fun x hx => hw ▸ hx
    · exact fun x => congrArg (fun H : Head => (H.ballot x).2) hhead
  cases hon : op.onHead with
  | false =>
    exact hsame (s.exec_head C hon) (congrArg Prod.fst (s.exec_awaited C hon hwait))
  | true =>
    cases op with
    | addBlk body => exact hsame (s.addBlk_head _ _ rfl rfl) rfl
    | deliverBlk blk =>
      have hdw : (s.exec C (.deliverBlk blk)).1.qcWaiting = s.qcWaiting := by
        change (s.deliverOutcome blk).1.qcWaiting = _
        rw [deliverOutcome_fst]
        exact onDeliverBlk_waiting blk
      have hdh : (s.exec C (.deliverBlk blk)).1.hqc = s.hqc ∧
          (s.exec C (.deliverBlk blk)).1.storage.ballot = s.storage.ballot := by
        change (s.deliverOutcome blk).1.hqc = _ ∧ (s.deliverOutcome blk).1.storage.ballot = _
        rw [deliverOutcome_fst]
        obtain h | ⟨-, ts, -, h⟩ := s.onDeliverBlk_head blk
        · exact ⟨congrArg Head.hqc h, congrArg Head.ballot h⟩
        · exact ⟨congrArg Head.hqc h, congrArg Head.ballot h⟩
      apply Rises.of_same hd g hconfig hdh.1
      · exact fun x hx => hdw ▸ hx
      · intro x
        rw [hdh.2]
    | receiveProposal proposer blk =>
      exact onReceiveProposal_rises C k.chained.wf l hd k.head.ballots proposer blk
    | receiveVote v =>
      have hv : v.verify C = true := hver
      unfold Vote.verify at hv
      rw [Bool.and_eq_true, decide_eq_true_iff] at hv
      exact onReceiveVote_rises hd (k.head.ballots v.blkHash) hv.2
    | propose cmds keys vals parents extra => exact (onPropose_rises C k l hd hop).1
    | _ => exact absurd hon (by simp [Op.onHead])

/-- A call that lowers the quorum to the votes that a block has already finds the block below
the highest certificate, with nobody waiting for its own. -/
def Smooth (C : Crypto) (s : Replica) (op : Op) : Prop :=
  ∀ b, b ≠ b0 → s.delivered b = true →
    (s.step C op).config.nmajority ≤ (s.storage.ballot b).2.card →
    (s.storage.ballot b).2.card < s.config.nmajority →
    s.height b ≤ s.height s.hqc.1 ∧ b ∉ s.qcWaiting

theorem smooth_of_same {C : Crypto} {op : Op}
    (h : (s.step C op).config.nmajority = s.config.nmajority) : s.Smooth C op := by
  intro b _ _ hle hlt
  rw [h] at hle
  omega

theorem smooth_of_no_votes {C : Crypto} {op : Op} (hpos : 0 < s.config.nmajority)
    (h : ∀ b, b ≠ b0 → (s.storage.ballot b).2 = ∅) : s.Smooth C op := by
  intro b h0 _ hle _
  have hmaj : 0 < (s.step C op).config.nmajority := s.exec_nmajority_pos C op hpos
  rw [h b h0, Finset.card_empty] at hle
  omega

structure Handled (C : Crypto) (s : Replica) (op : Op) : Prop where
  proper : s.Proper C op
  verified : op.Verified C
  fetched : s.Fetched op

structure Quorate (s : Replica) : Prop where
  leading : s.Leading
  low : s.Low
  hqc : s.delivered s.hqc.1 = true
  majority : 0 < s.config.nmajority
  voters : ∀ b, (s.storage.ballot b).2.Nonempty → s.delivered b = true
  quorum : ∀ b, b ≠ b0 → s.config.nmajority ≤ (s.storage.ballot b).2.card → s.Finished b

theorem Quorate.rises (q : s.Quorate) (k : u.Leading) (l : u.Low) (r : Rises s u) :
    u.Quorate := by
  refine ⟨k, l, r.delivered, ?_, ?_, ?_⟩
  · rw [r.config]
    exact q.majority
  · intro b hb
    cases r.voters b with
    | inl hsame => rw [hsame] at hb; exact r.grows.delivered (q.voters b hb)
    | inr hd => exact hd
  · intro b h0 hb
    rw [r.config] at hb
    cases r.quorum b hb with
    | inl hold => exact (q.quorum b h0 hold).rises r
    | inr hf => exact hf

/-- A replica waits for the certificate of a block only when it lacks votes. -/
theorem Quorate.asyncQcFinish (q : s.Quorate) (blk : Hash) (k : (s.asyncQcFinish blk).Leading)
    (l : (s.asyncQcFinish blk).Low) : (s.asyncQcFinish blk).Quorate := by
  unfold Replica.asyncQcFinish at k l ⊢
  split at k
  · exact q
  rename_i b hb
  split at k
  · rename_i henough
    simp only [hb, if_pos henough] at l ⊢
    exact ⟨k, l, q.hqc, q.majority, q.voters, q.quorum⟩
  rename_i hlack
  simp only [hb, if_neg hlack] at l ⊢
  refine ⟨k, l, q.hqc, q.majority, q.voters, ?_⟩
  intro x h0 hx
  obtain ⟨hd, hle, hnot⟩ := q.quorum x h0 hx
  refine ⟨hd, hle, ?_⟩
  intro hmem
  rcases List.mem_insert_iff.mp hmem with rfl | hold
  · apply hlack
    rw [← show (s.storage.ballot x).2 = b.voted from congrArg Prod.snd (ballot_of_cache hb)]
    exact hx
  · exact hnot hold

theorem Quorate.reconfig (C : Crypto) {msg : MsgRecsAggEchoReady} (q : s.Quorate)
    (k : (s.step C (.msgRecsAggEchoReady msg)).Leading)
    (l : (s.step C (.msgRecsAggEchoReady msg)).Low)
    (hs : s.Smooth C (.msgRecsAggEchoReady msg)) :
    (s.step C (.msgRecsAggEchoReady msg)).Quorate := by
  have hmaj : 0 < (s.step C (.msgRecsAggEchoReady msg)).config.nmajority :=
    s.exec_nmajority_pos C _ q.majority
  have hhead : (s.step C (.msgRecsAggEchoReady msg)).head = s.head := s.exec_head C rfl
  have hwait : (s.step C (.msgRecsAggEchoReady msg)).qcWaiting = s.qcWaiting :=
    congrArg Prod.fst (s.exec_awaited C rfl fun _ h => by cases h)
  have htree : (s.step C (.msgRecsAggEchoReady msg)).tree = s.tree :=
    congrArg Ledger.tree (msgRecsAggEchoReadyHandler_ledger msg)
  unfold Smooth at hs
  generalize s.step C (.msgRecsAggEchoReady msg) = u at k l hs hmaj hhead hwait htree ⊢
  have hhqc : u.hqc = s.hqc := congrArg Head.hqc hhead
  have hballot : u.storage.ballot = s.storage.ballot := congrArg Head.ballot hhead
  have hd : u.delivered = s.delivered := by
    unfold Replica.delivered
    rw [htree]
  have hheight : u.height = s.height := by
    unfold height
    rw [htree]
  refine ⟨k, l, ?_, hmaj, ?_, ?_⟩
  · rw [hd, hhqc]
    exact q.hqc
  · intro b hb
    rw [hballot] at hb
    rw [hd]
    exact q.voters b hb
  · intro b h0 hb
    rw [hballot] at hb
    have hbd : s.delivered b = true := by
      apply q.voters b
      rw [← Finset.card_pos]
      omega
    unfold Finished
    rw [hd, hheight, hhqc, hwait]
    by_cases hold : s.config.nmajority ≤ (s.storage.ballot b).2.card
    · exact q.quorum b h0 hold
    · exact ⟨hbd, hs b h0 hbd hb (Nat.lt_of_not_le hold)⟩

theorem exec_config (C : Crypto) {op : Op} (hop : ∀ msg, op ≠ .msgRecsAggEchoReady msg) :
    (s.exec C op).1.config = s.config := by
  have hroster : (s.exec C op).1.roster = s.roster := by
    cases op with
    | msgRecs r => exact s.msgRecsHandler_roster r
    | msgRecsAggEchoReady msg => exact absurd rfl (hop msg)
    | _ => exact congrArg RecsView.roster (s.exec_recsView C rfl)
  exact congrArg Roster.config hroster

theorem Quorate.step (C : Crypto) {op : Op} (q : s.Quorate) (h : Handled C s op)
    (hs : s.Smooth C op) : (s.step C op).Quorate := by
  have k := q.leading.step C h.proper
  have l := exec_low C q.leading q.low q.hqc h.proper h.fetched
  by_cases hwait : ∃ blk, op = .asyncQcFinish blk
  · obtain ⟨blk, rfl⟩ := hwait
    exact q.asyncQcFinish blk k l
  by_cases hmsg : ∃ msg, op = .msgRecsAggEchoReady msg
  · obtain ⟨msg, rfl⟩ := hmsg
    exact q.reconfig C k l hs
  · exact q.rises k l (exec_rises C q.leading q.low q.hqc h.proper h.verified
      (exec_config C fun msg hop => hmsg ⟨msg, hop⟩) fun blk hop => hwait ⟨blk, hop⟩)

theorem start_cache (c : Setup) {x : Hash} (hx : x ≠ b0) :
    c.start.storage.blkCache x = none := by
  change Function.update (fun _ => none) b0 (some (Block.genesis c.config)) x = none
  exact Function.update_of_ne hx ..

theorem start_ballot (c : Setup) {b : Hash} (hb : b ≠ b0) :
    (c.start.storage.ballot b).2 = ∅ := by
  unfold EntityStorage.ballot
  rw [start_cache c hb]
  rfl

theorem quorate_start (c : Setup) (hpos : 0 < c.config.nmajority) : c.start.Quorate := by
  refine ⟨leading_start c, ?_, rfl, hpos, ?_, ?_⟩
  · intro x _
    by_cases hx : x = b0
    · subst x
      rfl
    · unfold height Tree.height tree
      rw [start_cache c hx]
      rfl
  · intro b hb
    by_cases h0 : b = b0
    · subst b
      rfl
    · rw [start_ballot c h0] at hb
      exact absurd hb Finset.not_nonempty_empty
  · intro b h0 hb
    rw [start_ballot c h0, Finset.card_empty] at hb
    change c.config.nmajority ≤ 0 at hb
    omega

end Replica

def Setup.quintet : Setup :=
  { Setup.four 0 with
    config := ⟨[(0, 0), (1, 1), (2, 2), (3, 3), (4, 4)], 5, 4⟩
    peers := [1, 2, 3, 4]
    allPeers := [0, 1, 2, 3, 4]
    knownPeers := [1, 2, 3, 4] }

def takeOutFour : List Op := List.replicate 4 (.msgRecsAggEchoReady ⟨⟨0, 4, 1⟩, myReady, 1⟩)

def threeVotes : List Op :=
  [.addBlk (.sample 0 0 7 []), .deliverBlk 1, .asyncQcFinish 1, .receiveVote ⟨1, 1, ⟨1, 1⟩⟩,
    .receiveVote ⟨2, 1, ⟨1, 1⟩⟩, .receiveVote ⟨3, 1, ⟨1, 1⟩⟩]

def fewer : Replica := Runs.run (Replica.step .sample) Setup.quintet.start takeOutFour

def noticed : Replica := Runs.run (Replica.step .sample) fewer threeVotes

theorem noticed_reach :
    Runs.Reach (fun s op => Replica.Handled .sample s op ∧ s.Smooth .sample op)
      (Replica.step .sample) Setup.quintet.start noticed := by
  have hready : ∀ u : Replica, u.storage = Setup.quintet.start.storage →
      0 < u.config.nmajority → ∀ msg, Replica.Handled .sample u (.msgRecsAggEchoReady msg) ∧
        u.Smooth .sample (.msgRecsAggEchoReady msg) := by
    intro u hu hpos msg
    refine ⟨⟨trivial, trivial, trivial⟩, Replica.smooth_of_no_votes hpos ?_⟩
    intro b hb
    rw [hu]
    exact Replica.start_ballot .quintet hb
  have hfewer : Runs.Reach (fun s op => Replica.Handled .sample s op ∧ s.Smooth .sample op)
      (Replica.step .sample) Setup.quintet.start fewer := by
    apply Runs.reach_run _ .init
    refine ⟨hready _ ?_ ?_ _, hready _ ?_ ?_ _, hready _ ?_ ?_ _, hready _ ?_ ?_ _, trivial⟩ <;>
      first | rfl | decide +kernel
  apply Runs.reach_run _ hfewer
  refine ⟨⟨⟨?_, ?_, ?_⟩, Replica.smooth_of_same ?_⟩, ⟨⟨?_, ?_, ?_⟩, Replica.smooth_of_same ?_⟩,
    ⟨⟨?_, ?_, ?_⟩, Replica.smooth_of_same ?_⟩, ⟨⟨?_, ?_, ?_⟩, Replica.smooth_of_same ?_⟩,
    ⟨⟨?_, ?_, ?_⟩, Replica.smooth_of_same ?_⟩, ⟨⟨?_, ?_, ?_⟩, Replica.smooth_of_same ?_⟩,
    trivial⟩ <;> decide +kernel

/-- Replica 4 leaves when three of five have voted, and votes itself after that. -/
def unnoticed : Replica := Runs.run (Replica.step .sample) Setup.quintet.start
  (threeVotes ++ takeOutFour ++ [.receiveVote ⟨4, 1, ⟨1, 1⟩⟩])

end AvaHotstuff
