import AvaHotstuff.BlockCache

set_option autoImplicit false

namespace AvaHotstuff

/-- A property of certificates that votes of the replicas in `V` cannot break. -/
structure CertRule (Q : QuorumCert → Prop) (V : ReplicaID → Prop) : Prop where
  fresh : ∀ c h, Q (createQuorumCert c h)
  addPart : ∀ qc qc' rid pc, Q qc → V rid → qc.addPart rid pc = some qc' → Q qc'

structure Head.EveryCert (Q : QuorumCert → Prop) (H : Head) : Prop where
  hqc : Q H.hqc.2
  ballots : ∀ h qc, (H.ballot h).1 = some qc → Q qc

def Tree.EveryCert (Q : QuorumCert → Prop) (t : Tree) : Prop := ∀ h n, t h = some n → Q n.body.qc

def Op.Brings (Q : QuorumCert → Prop) (V : ReplicaID → Prop) : Op → Prop
  | .addBlk body => Q body.qc
  | .receiveVote v => V v.voter
  | _ => True

structure Replica.EveryCert (Q : QuorumCert → Prop) (s : Replica) : Prop where
  tree : s.tree.EveryCert Q
  head : s.head.EveryCert Q

theorem Tree.EveryCert.of_undecided {Q : QuorumCert → Prop} {t u : Tree} (k : t.EveryCert Q)
    (heq : u.undecided = t.undecided) : u.EveryCert Q := by
  intro h n hn
  obtain ⟨m, hm, hbody, -⟩ := exists_of_undecided heq hn
  rw [← hbody]
  exact k h m hm

theorem Tree.EveryCert.update {Q : QuorumCert → Prop} {t : Tree} (k : t.EveryCert Q) {h : Hash}
    {n : BlockNode} (hn : Q n.body.qc) :
    Tree.EveryCert Q (Function.update t h (some n)) := by
  intro x m hm
  by_cases hx : x = h
  · subst x
    rw [Function.update_self] at hm
    rw [← Option.some.inj hm]
    exact hn
  · rw [Function.update_of_ne hx] at hm
    exact k x m hm

namespace Replica
variable {Q : QuorumCert → Prop} {V : ReplicaID → Prop} {C : Crypto} {s : Replica}

theorem updateHqc_everyCert {b : Hash} {qc : QuorumCert} (k : s.head.EveryCert Q) (hqc : Q qc) :
    (s.updateHqc b qc).head.EveryCert Q := by
  unfold updateHqc
  split
  · exact ⟨hqc, k.ballots⟩
  · exact k

theorem addVote_everyCert (R : CertRule Q V) {v : Vote} {blk : Block} (k : s.head.EveryCert Q)
    (hv : V v.voter) (hb : s.storage.blkCache v.blkHash = some blk) :
    (s.addVote v).1.head.EveryCert Q ∧ ∀ qc, (s.addVote v).2 = some qc → Q qc := by
  have hballots := s.addVote_ballots (P := fun _ qc => Q qc) hb (R.fresh _ _)
    (fun qc qc' hqc hadd => R.addPart qc qc' _ _ hqc hv hadd) k.ballots
  refine ⟨⟨?_, hballots.1⟩, hballots.2⟩
  rw [(s.addVote_head hb).2]
  exact k.hqc

theorem onReceiveVote_everyCert (R : CertRule Q V) {v : Vote} (k : s.head.EveryCert Q)
    (hv : V v.voter) : (s.onReceiveVote v).1.head.EveryCert Q := by
  rcases s.onReceiveVote_head v with hsame | ⟨blk, hb, -, -, -, hadd⟩
  · rw [hsame]
    exact k
  · obtain ⟨k', hqc⟩ := addVote_everyCert R k hv hb
    rcases hadd with h | ⟨qc, hres, -, h⟩
    · rw [h]
      exact k'
    · rw [h]
      exact updateHqc_everyCert k' (hqc qc hres)

theorem doVote_everyCert (R : CertRule Q V) {b : Hash} (k : s.head.EveryCert Q) (hid : V s.id) :
    (s.doVote C b).1.head.EveryCert Q := by
  unfold doVote
  simp only []
  split
  · exact onReceiveVote_everyCert R (s := s.emit (.vote b)) k hid
  · exact k

theorem judgeProposal_everyCert (R : CertRule Q V) {selfProp : Bool} {b : Hash}
    (k : s.head.EveryCert Q) (hid : V s.id) :
    (s.judgeProposal C selfProp b).1.head.EveryCert Q := by
  have hopined : ∀ o, ((s.opined selfProp b o).notifyReceiveProposal b).head.EveryCert Q := by
    intro o
    rw [← s.opined_head b selfProp o] at k
    exact ⟨k.hqc, k.ballots⟩
  have hjudge := s.judgement C selfProp b
  generalize s.judgeProposal C selfProp b = r at hjudge
  cases hjudge with
  | undefined => exact k
  | silent => exact hopined _
  | vote =>
    have hsame : (s.opined selfProp b true).id = s.id :=
      congrArg Frame.id (s.opined_frame b selfProp true)
    refine doVote_everyCert R (hopined true) ?_
    change V (s.opined selfProp b true).id
    rw [hsame]
    exact hid

theorem EveryCert.update (k : s.EveryCert Q) (b : Hash) : (s.update b).1.EveryCert Q := by
  refine ⟨k.tree.of_undecided (update_undecided b), ?_⟩
  rcases s.update_head b with ⟨hsame, -⟩ | ⟨blk, b2, hb, -, -, hhead⟩
  · rw [hsame]
    exact k.head
  · rw [hhead]
    exact updateHqc_everyCert k.head (k.tree b blk.toBlockNode (s.tree_of_cache hb))

theorem EveryCert.judgeProposal (R : CertRule Q V) (k : s.EveryCert Q) (hid : V s.id)
    (selfProp : Bool) (b : Hash) : (s.judgeProposal C selfProp b).1.EveryCert Q := by
  refine ⟨?_, judgeProposal_everyCert R k.head hid⟩
  rw [judgeProposal_tree]
  exact k.tree

theorem EveryCert.onReceiveProposal (R : CertRule Q V) (k : s.EveryCert Q) (hid : V s.id)
    (proposer : ReplicaID) (b : Hash) : (s.onReceiveProposal C proposer b).1.EveryCert Q := by
  unfold Replica.onReceiveProposal
  split
  · exact k.judgeProposal R hid true b
  split
  · exact k
  have ku := k.update b
  have hid' : (s.update b).1.id = s.id := congrArg Frame.id (s.update_frame b)
  generalize s.update b = r at ku hid' ⊢
  obtain ⟨u, none | e⟩ := r
  · exact ku.judgeProposal R (hid'.symm ▸ hid) false b
  · exact ku

theorem EveryCert.onDeliverBlk (k : s.EveryCert Q) (h : Hash) :
    (s.onDeliverBlk h).1.EveryCert Q := by
  constructor
  · rcases s.onDeliverBlk_put h with hsame | ⟨m, n, hm, -, htree, hbody, -⟩
    · rw [hsame]
      exact k.tree
    · rw [htree]
      apply k.tree.update
      rw [hbody]
      exact k.tree h m hm
  · rcases s.onDeliverBlk_head h with hsame | ⟨-, ts, -, hhead⟩
    · rw [hsame]
      exact k.head
    · rw [hhead]
      exact ⟨k.head.hqc, k.head.ballots⟩

theorem EveryCert.addBlk (k : s.EveryCert Q) {h : Hash} {b : Block} (hb : Q b.body.qc) :
    (s.addBlk h b).tree.EveryCert Q := by
  rcases s.addBlk_tree h b with hsame | ⟨-, htree⟩
  · rw [hsame]
    exact k.tree
  · rw [htree]
    exact k.tree.update hb

theorem EveryCert.storeProposal (R : CertRule Q V) (k : s.EveryCert Q) {h : Hash} {b : Block}
    (parents : List Hash) (hb : Q b.body.qc) (hq : b.selfQc = none) (hv : b.voted = ∅) :
    (s.storeProposal h b parents).EveryCert Q := by
  constructor
  · rw [show (s.storeProposal h b parents).tree = (s.addBlk h b).tree from
      tree_modifyBlk_same _ _ _ fun _ => rfl]
    exact k.addBlk hb
  · rw [s.storeProposal_head h b parents hq hv]
    refine ⟨k.head.hqc, ?_⟩
    intro x qc hx
    by_cases hxh : x = h
    · subst x
      simp only [Function.update_self] at hx
      rw [← Option.some.inj hx]
      exact R.fresh _ _
    · simp only [Function.update_of_ne hxh] at hx
      exact k.head.ballots x qc hx

theorem EveryCert.finishProposal (R : CertRule Q V) (k : s.EveryCert Q) (hid : V s.id)
    (b : Hash) : (s.finishProposal C b).1.EveryCert Q := by
  unfold Replica.finishProposal
  split
  · exact k
  have ku := k.onReceiveProposal (C := C) R hid s.id b
  generalize s.onReceiveProposal C s.id b = r at ku ⊢
  obtain ⟨u, none | e⟩ := r
  · exact ⟨ku.tree, ku.head.hqc, ku.head.ballots⟩
  · exact ku

theorem EveryCert.onPropose (R : CertRule Q V) (k : s.EveryCert Q) (hid : V s.id)
    (cmds : List Hash) (keys vals : List ℤ) (parents : List Hash) (extra : List UInt8) :
    (s.onPropose C cmds keys vals parents extra).1.EveryCert Q := by
  unfold Replica.onPropose
  split
  · exact k
  rename_i p _
  simp only []
  have hqc : Q (s.newBlock cmds keys vals parents p extra).body.qc := k.head.hqc
  have kstore := k.storeProposal R
    (h := C.getHash (s.newBlock cmds keys vals parents p extra).body) parents hqc rfl rfl
  have hframe := s.storeProposal_frame (C.getHash (s.newBlock cmds keys vals parents p extra).body)
    (s.newBlock cmds keys vals parents p extra) parents rfl rfl
  generalize C.getHash (s.newBlock cmds keys vals parents p extra).body = h at kstore hframe ⊢
  generalize s.storeProposal h (s.newBlock cmds keys vals parents p extra) parents = u
    at kstore hframe ⊢
  have kdel := kstore.onDeliverBlk h
  have hdel := (u.onDeliverBlk_frame h).trans hframe
  generalize u.onDeliverBlk h = r at kdel hdel ⊢
  obtain ⟨u', e | val⟩ := r
  · exact kdel
  simp only []
  have kup := kdel.update h
  have hup := (u'.update_frame h).trans hdel
  generalize u'.update h = r at kup hup ⊢
  obtain ⟨w, none | e⟩ := r
  · have hid' : w.id = s.id := congrArg Frame.id hup
    exact kup.finishProposal R (hid'.symm ▸ hid) h
  · exact kup

theorem EveryCert.exec (R : CertRule Q V) (k : s.EveryCert Q) (hid : V s.id) {op : Op}
    (hop : op.Brings Q V) : (s.exec C op).1.EveryCert Q := by
  cases hon : op.onHead with
  | false =>
    have htree : (s.exec C op).1.tree = s.tree := congrArg Prod.fst (s.exec_marks C hon)
    constructor
    · rw [htree]
      exact k.tree
    · rw [s.exec_head C hon]
      exact k.head
  | true =>
    cases op with
    | addBlk body =>
      refine ⟨k.addBlk hop, ?_⟩
      change (s.addBlk (C.getHash body) (.parsed body)).head.EveryCert Q
      rw [s.addBlk_head _ _ rfl rfl]
      exact k.head
    | deliverBlk blk =>
      change (s.deliverOutcome blk).1.EveryCert Q
      rw [deliverOutcome_fst]
      exact k.onDeliverBlk blk
    | receiveProposal proposer blk => exact k.onReceiveProposal R hid proposer blk
    | receiveVote v =>
      have htree : (s.onReceiveVote v).1.tree = s.tree :=
        congrArg Ledger.tree (s.onReceiveVote_ledger v)
      refine ⟨?_, onReceiveVote_everyCert R k.head hop⟩
      change (s.onReceiveVote v).1.tree.EveryCert Q
      rw [htree]
      exact k.tree
    | propose cmds keys vals parents extra => exact k.onPropose R hid cmds keys vals parents extra
    | _ => cases hon

end Replica

theorem Setup.start_everyCert {Q : QuorumCert → Prop} {V : ReplicaID → Prop} (R : CertRule Q V)
    (c : Setup) : c.start.EveryCert Q := by
  refine ⟨?_, R.fresh c.config b0, ?_⟩
  · intro h n hn
    by_cases hh : h = b0
    · subst h
      obtain rfl : (Block.genesis c.config).toBlockNode = n := Option.some.inj hn
      exact R.fresh c.config b0
    · rw [c.start_absent hh] at hn
      cases hn
  · intro h qc hq
    by_cases hh : h = b0
    · subst h
      obtain rfl : createQuorumCert c.config b0 = qc := Option.some.inj hq
      exact R.fresh c.config b0
    · change (((Function.update (fun _ => none) b0 (some (Block.genesis c.config)) h).map
        fun b : Block => (b.selfQc, b.voted)).getD (none, ∅)).1 = some qc at hq
      rw [Function.update_of_ne hh] at hq
      cases hq

end AvaHotstuff
