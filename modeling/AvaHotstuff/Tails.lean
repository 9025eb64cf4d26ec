import AvaHotstuff.Prune
import AvaHotstuff.Redelivery

set_option autoImplicit false

namespace AvaHotstuff

namespace Tree
variable {t t' : Tree} {h x : Hash}

/-- A delivered block that is no parent of a delivered block. -/
def Leaf (t : Tree) (x : Hash) : Prop :=
  t.delivered x = true ∧ ∀ y, t.delivered y = true → x ∉ t.parentsOf y

theorem undecided_delivered (t : Tree) (x : Hash) : t.undecided.delivered x = t.delivered x := by
  unfold Tree.delivered undecided
  rw [Option.map_map]
  rfl

theorem undecided_parentsOf (t : Tree) (x : Hash) : t.undecided.parentsOf x = t.parentsOf x := by
  unfold parentsOf undecided
  rw [Option.map_map]
  rfl

theorem undecided_leaf (t : Tree) (x : Hash) : t.undecided.Leaf x ↔ t.Leaf x := by
  unfold Leaf
  simp only [undecided_delivered, undecided_parentsOf]

theorem undecided_stored (t : Tree) (x : Hash) : (t.undecided x).isSome = (t x).isSome :=
  Option.isSome_map ..

theorem leaf_put {n : BlockNode} (hd : t.delivered h = false) (hn : n.delivered = false)
    (x : Hash) : Leaf (Function.update t h (some n)) x ↔ t.Leaf x := by
  have hdel : Tree.delivered (Function.update t h (some n)) = t.delivered := by
    funext y
    by_cases hy : y = h
    · subst y
      rw [delivered_of (Function.update_self ..), hn, hd]
    · unfold Tree.delivered
      rw [Function.update_of_ne hy]
  have hparents : ∀ y, t.delivered y = true →
      parentsOf (Function.update t h (some n)) y = t.parentsOf y := by
    intro y hy
    unfold parentsOf
    rw [Function.update_of_ne]
    rintro rfl
    rw [hd] at hy
    cases hy
  unfold Leaf
  rw [hdel]
  refine and_congr_right fun _ => forall_congr' fun y => ?_
  constructor
  · intro hx hy
    rw [← hparents y hy]
    exact hx hy
  · intro hx hy
    rw [hparents y hy]
    exact hx hy

theorem leaf_deliver (w : t.Wf) {n : BlockNode} (hd : t.delivered h = false)
    (hn : n.delivered = true) (hp : ∀ p ∈ n.parents, t.delivered p = true) (x : Hash) :
    Leaf (Function.update t h (some n)) x ↔ x = h ∨ t.Leaf x ∧ x ∉ n.parents := by
  have hself : Tree.delivered (Function.update t h (some n)) h = true :=
    (delivered_of (Function.update_self ..)).trans hn
  have hparents : parentsOf (Function.update t h (some n)) h = n.parents :=
    parentsOf_of (Function.update_self ..)
  have hother : ∀ y, y ≠ h → Tree.delivered (Function.update t h (some n)) y = t.delivered y ∧
      parentsOf (Function.update t h (some n)) y = t.parentsOf y := by
    intro y hy
    unfold Tree.delivered parentsOf
    rw [Function.update_of_ne hy]
    exact ⟨rfl, rfl⟩
  have hne : ∀ p, t.delivered p = true → p ≠ h := by
    rintro p hpd rfl
    rw [hd] at hpd
    cases hpd
  constructor
  · rintro ⟨hxd, hx⟩
    by_cases hxh : x = h
    · exact .inl hxh
    refine .inr ⟨⟨(hother x hxh).1 ▸ hxd, ?_⟩, hparents ▸ hx h hself⟩
    intro y hy
    have hyh := hother y (hne y hy)
    exact hyh.2 ▸ hx y (hyh.1.trans hy)
  · rintro (rfl | ⟨⟨hxd, hx⟩, hxn⟩)
    · refine ⟨hself, ?_⟩
      intro y hy hmem
      by_cases hyx : y = x
      · rw [hyx, hparents] at hmem
        exact hne x (hp x hmem) rfl
      · rw [(hother y hyx).2] at hmem
        obtain ⟨m, hm, hpm⟩ := exists_of_parentsOf hmem
        exact hne x (w.parents y m hm x hpm) rfl
    · refine ⟨(hother x (hne x hxd)).1.trans hxd, ?_⟩
      intro y hy
      by_cases hyh : y = h
      · rw [hyh, hparents]
        exact hxn
      · rw [(hother y hyh).2]
        exact hx y ((hother y hyh).1 ▸ hy)

end Tree

structure CertsOk (t : Tree) (H : Head) : Prop where
  cert : H.hqc.2.objHash = H.hqc.1
  stored : (t H.hqc.1).isSome = true
  ballots : ∀ h qc, (H.ballot h).1 = some qc → qc.objHash = h

structure TailsOk (t : Tree) (H : Head) : Prop extends CertsOk t H where
  leaves : ∀ x, x ∈ H.tails ↔ t.Leaf x

theorem TailsOk.of_undecided {t t' : Tree} {H : Head} (k : TailsOk t H)
    (heq : t'.undecided = t.undecided) : TailsOk t' H := by
  refine ⟨⟨k.cert, ?_, k.ballots⟩, ?_⟩
  · rw [← Tree.undecided_stored, heq, Tree.undecided_stored]
    exact k.stored
  · intro x
    rw [k.leaves, ← Tree.undecided_leaf t', heq, Tree.undecided_leaf]

namespace Replica
variable {C : Crypto} {s : Replica} {b h : Hash}

theorem updateHqc_tailsOk {qc : QuorumCert} (k : TailsOk s.tree s.head)
    (hqc : qc.objHash = b) (hb : (s.tree b).isSome = true) :
    TailsOk s.tree (s.updateHqc b qc).head := by
  unfold updateHqc
  split
  · exact ⟨⟨hqc, hb, k.ballots⟩, k.leaves⟩
  · exact k

theorem onReceiveVote_tailsOk (v : Vote) (k : TailsOk s.tree s.head) :
    TailsOk s.tree (s.onReceiveVote v).1.head := by
  rcases s.onReceiveVote_head v with hsame | ⟨blk, hb, -, -, -, hadd⟩
  · rw [hsame]
    exact k
  have hballots := s.addVote_ballots (P := fun h qc => qc.objHash = h) hb rfl
    (fun _ _ hqc hpart => (QuorumCert.addPart_objHash hpart).trans hqc) k.ballots
  have hhead := (s.addVote_head hb).2
  have htree : (s.addVote v).1.tree = s.tree := congrArg Ledger.tree (s.addVote_ledger v)
  have k' : TailsOk s.tree (s.addVote v).1.head := by
    refine ⟨⟨?_, ?_, hballots.1⟩, ?_⟩
    · rw [hhead]
      exact k.cert
    · rw [hhead]
      exact k.stored
    · rw [hhead]
      exact k.leaves
  rcases hadd with h | ⟨qc, hres, -, h⟩
  · rw [h]
    exact k'
  · rw [h]
    rw [← htree] at k' ⊢
    refine updateHqc_tailsOk k' (hballots.2 qc hres) ?_
    rw [htree, s.tree_of_cache hb]
    rfl

theorem judgeProposal_tailsOk (selfProp : Bool) (k : TailsOk s.tree s.head) :
    TailsOk (s.judgeProposal C selfProp b).1.tree (s.judgeProposal C selfProp b).1.head := by
  rw [judgeProposal_tree]
  have hopined : ∀ o, TailsOk s.tree ((s.opined selfProp b o).notifyReceiveProposal b).head := by
    intro o
    rw [← s.opined_head b selfProp o] at k
    exact ⟨⟨k.cert, k.stored, k.ballots⟩, k.leaves⟩
  have hjudge := s.judgement C selfProp b
  generalize s.judgeProposal C selfProp b = r at hjudge
  cases hjudge with
  | undefined => exact k
  | silent => exact hopined _
  | vote =>
    have htree : ((s.opined selfProp b true).notifyReceiveProposal b).tree = s.tree :=
      opined_tree selfProp b true
    have k' := hopined true
    rw [← htree] at k' ⊢
    generalize (s.opined selfProp b true).notifyReceiveProposal b = u at k' ⊢
    unfold doVote
    simp only []
    split
    · exact onReceiveVote_tailsOk (s := u.emit (.vote b)) _ k'
    · exact k'

theorem update_tailsOk (c : s.ledger.Chained) (hd : s.delivered b = true)
    (k : TailsOk s.tree s.head) : TailsOk (s.update b).1.tree (s.update b).1.head := by
  refine TailsOk.of_undecided (t := s.tree) ?_ (update_undecided b)
  rcases s.update_head b with ⟨hsame, -⟩ | ⟨blk, b2, hb, hq, hdec, hhead⟩
  · rw [hsame]
    exact k
  rw [hhead]
  have hn := s.tree_of_cache hb
  by_cases h0 : b = b0
  · -- the genesis block certifies itself, and it is decided
    subst b
    obtain ⟨r, hr, -, -, -, hrq⟩ := c.wf.genesis
    obtain rfl : blk.toBlockNode = r := Option.some.inj (hn.symm.trans hr)
    obtain rfl : b0 = b2 := Option.some.inj (hrq.symm.trans hq)
    have hdec0 : s.decided b0 = true := (c.decided b0).mpr (.inl rfl)
    rw [hdec] at hdec0
    cases hdec0
  · have hnd : blk.delivered = true := (Tree.delivered_of hn).symm.trans hd
    have l := c.wf.linked b blk.toBlockNode hn hnd h0
    obtain rfl : blk.body.qc.objHash = b2 := Option.some.inj (l.qcRef.symm.trans hq)
    exact updateHqc_tailsOk k rfl l.qcStored

theorem onReceiveProposal_tailsOk (proposer : ReplicaID) (c : s.ledger.Chained)
    (k : TailsOk s.tree s.head) : TailsOk (s.onReceiveProposal C proposer b).1.tree
      (s.onReceiveProposal C proposer b).1.head := by
  unfold onReceiveProposal
  split
  · exact judgeProposal_tailsOk true k
  split
  · exact k
  rename_i hd
  have ku := update_tailsOk c (by simpa using hd) k
  generalize s.update b = r at ku ⊢
  obtain ⟨u, none | e⟩ := r
  · exact judgeProposal_tailsOk false ku
  · exact ku

theorem done_tree {blk : Block} (hb : s.storage.blkCache h = some blk) (ps : List Hash) (k : ℕ) :
    ((s.modifyBlk h (·.linked ps k)).markDelivered h ps).tree =
      Function.update s.tree h (some { blk.toBlockNode with
        parents := ps, height := k, qcRef := some blk.body.qc.objHash, delivered := true }) :=
  congrArg Ledger.tree (markLinked_ledger hb ps k)

/-- A delivery: the tails have to be right off the parents only. -/
theorem done_leaves (w : s.tree.Wf) {blk : Block} (hb : s.storage.blkCache h = some blk)
    (hd : blk.delivered = false) (hp : ∀ q ∈ blk.body.parentHashes, s.delivered q = true) (k : ℕ)
    (hl : ∀ x, x ∉ blk.body.parentHashes → (x ∈ s.tails ↔ s.tree.Leaf x)) (x : Hash) :
    x ∈ ((s.modifyBlk h (·.linked blk.body.parentHashes k)).markDelivered h
      blk.body.parentHashes).tails ↔ ((s.modifyBlk h
        (·.linked blk.body.parentHashes k)).markDelivered h blk.body.parentHashes).tree.Leaf x := by
  rw [done_tree hb, Tree.leaf_deliver w ((delivered_of_cache hb).trans hd) rfl hp]
  change x ∈ (s.tails.filter fun b => decide (b ∉ blk.body.parentHashes)).insert h ↔ _
  rw [List.mem_insert_iff, List.mem_filter, decide_eq_true_iff]
  refine or_congr_right ?_
  constructor
  · exact fun hx => ⟨(hl x hx.2).mp hx.1, hx.2⟩
  · exact fun hx => ⟨(hl x hx.2).mpr hx.1, hx.2⟩

theorem linked_leaf {blk : Block} (hb : s.storage.blkCache h = some blk)
    (hd : blk.delivered = false) (ps : List Hash) (k : ℕ) (x : Hash) :
    (s.modifyBlk h (·.linked ps k)).tree.Leaf x ↔ s.tree.Leaf x := by
  rw [linked_tree hb]
  refine Tree.leaf_put ((delivered_of_cache hb).trans hd) ?_ x
  exact hd

theorem onDeliverBlk_certsOk (k : CertsOk s.tree s.head) (h : Hash) :
    CertsOk (s.onDeliverBlk h).1.tree (s.onDeliverBlk h).1.head := by
  have g := (onDeliverBlk_steps (s := s) (G := Ledger.Guard.any) h trivial).grows
  rcases s.onDeliverBlk_head h with hsame | ⟨-, ts, -, hhead⟩
  · rw [hsame]
    exact ⟨k.cert, g.stored k.stored, k.ballots⟩
  · rw [hhead]
    exact ⟨k.cert, g.stored k.stored, k.ballots⟩

theorem onDeliverBlk_tailsOk (w : s.tree.Wf) (k : TailsOk s.tree s.head) (h : Hash) :
    TailsOk (s.onDeliverBlk h).1.tree (s.onDeliverBlk h).1.head := by
  refine ⟨onDeliverBlk_certsOk k.toCertsOk h, ?_⟩
  intro x
  change x ∈ (s.onDeliverBlk h).1.tails ↔ _
  have d := s.delivery h
  generalize s.onDeliverBlk h = r at d ⊢
  cases d with
  | absent | again => exact k.leaves x
  | unparented hb hd | orphan hb hd | uncertified hb hd =>
    exact (k.leaves x).trans (linked_leaf hb hd ..).symm
  | done hb hd hhead hp hq => exact done_leaves w hb hd hp _ (fun y _ => k.leaves y) x

theorem addBlk_tailsOk {blk : Block} (k : TailsOk s.tree s.head) (hd : blk.delivered = false)
    (hq : blk.selfQc = none) (hv : blk.voted = ∅) :
    TailsOk (s.addBlk h blk).tree (s.addBlk h blk).head := by
  rw [addBlk_head s h blk hq hv]
  rcases s.addBlk_tree h blk with hsame | ⟨hnone, htree⟩
  · rw [hsame]
    exact k
  · have hold : s.tree.delivered h = false := by
      unfold Tree.delivered
      rw [hnone]
      rfl
    rw [htree]
    refine ⟨⟨k.cert, ?_, k.ballots⟩, ?_⟩
    · by_cases hx : s.head.hqc.1 = h
      · rw [hx, Function.update_self]
        rfl
      · rw [Function.update_of_ne hx]
        exact k.stored
    · intro x
      exact (k.leaves x).trans (Tree.leaf_put hold hd x).symm

/-- What `on_propose` leaves to the delivery: the parents are erased from the tails. -/
theorem storeProposal_tails (w : s.tree.Wf) (k : TailsOk s.tree s.head) {blk : Block}
    (hd : blk.delivered = false) (hqc : blk.selfQc = none) (hv : blk.voted = ∅)
    (hp : ∀ q ∈ blk.parents, s.delivered q = true) (parents : List Hash) :
    (s.storeProposal h blk parents).tree.Wf ∧
      CertsOk (s.storeProposal h blk parents).tree (s.storeProposal h blk parents).head ∧
      ∀ x, x ∈ (s.storeProposal h blk parents).tails ↔
        (s.storeProposal h blk parents).tree.Leaf x ∧ x ∉ parents := by
  have htree : (s.storeProposal h blk parents).tree = (s.addBlk h blk).tree :=
    tree_modifyBlk_same _ _ _ fun _ => rfl
  have hhead := s.storeProposal_head h blk parents hqc hv
  have k' := addBlk_tailsOk (h := h) k hd hqc hv
  have w' : (s.addBlk h blk).tree.Wf := by
    rcases s.addBlk_tree h blk with hsame | ⟨hnone, hput⟩
    · rw [hsame]
      exact w
    · rw [hput]
      refine w.update (.update_fresh ?_ (by simp [Tree.delivered, hnone])) hp ?_
      · intro m hm
        rw [hnone] at hm
        cases hm
      · intro hnd
        exact absurd (hd.symm.trans hnd) Bool.false_ne_true
  rw [addBlk_head s h blk hqc hv, ← htree] at k'
  rw [← htree] at w'
  refine ⟨w', ⟨?_, ?_, ?_⟩, ?_⟩
  · rw [hhead]
    exact k'.cert
  · rw [hhead]
    exact k'.stored
  · rw [hhead]
    intro x qc hx
    by_cases hxh : x = h
    · subst x
      simp only [Function.update_self] at hx
      rw [← Option.some.inj hx]
      rfl
    · simp only [Function.update_of_ne hxh] at hx
      exact k'.ballots x qc hx
  · intro x
    change x ∈ s.tails.filter (fun b => decide (b ∉ parents)) ↔ _
    rw [List.mem_filter, decide_eq_true_iff]
    exact and_congr_left fun _ => k'.leaves x

/-- `on_propose` up to the delivery: the new block is delivered now, or was before. -/
theorem deliver_proposal (w : s.tree.Wf)
    (hgen : ∀ n, s.tree b0 = some n → n.body.parentHashes = []) (k : TailsOk s.tree s.head)
    (blk : Block) {parents : List Hash} {p : Hash} (hd : blk.delivered = false)
    (hqc : blk.selfQc = none) (hv : blk.voted = ∅) (hcert : blk.body.qc = s.hqc.2)
    (hps : blk.body.parentHashes = parents) (hhead : parents.head? = some p)
    (hp : ∀ q ∈ parents, s.delivered q = true) (hparents : ∀ q ∈ blk.parents, s.delivered q = true)
    (hfree : ∀ old, s.storage.blkCache h = some old → old.body = blk.body) :
    (∃ v, ((s.storeProposal h blk parents).onDeliverBlk h).2 = .ok v) ∧
      TailsOk ((s.storeProposal h blk parents).onDeliverBlk h).1.tree
        ((s.storeProposal h blk parents).onDeliverBlk h).1.head := by
  subst hps
  obtain ⟨⟨old, hold, hbody⟩, -, hkeep⟩ := storeProposal_stored blk.body.parentHashes hfree
  obtain ⟨w', kc, hl⟩ := storeProposal_tails (h := h) w k hd hqc hv hparents
    blk.body.parentHashes
  have hcerts := onDeliverBlk_certsOk kc h
  have hstored : (s.storeProposal h blk blk.body.parentHashes).hqc = s.hqc := rfl
  generalize s.storeProposal h blk blk.body.parentHashes = u
    at hold hkeep w' kc hl hcerts hstored ⊢
  have hdel : ∀ q ∈ old.body.parentHashes, u.delivered q = true := by
    intro q hq
    rw [hbody] at hq
    obtain ⟨m, hm, hmd⟩ := Tree.exists_of_delivered (hp q hq)
    exact (Tree.delivered_of (hkeep q m hm)).trans hmd
  rw [← hbody] at hl hhead hcert
  cases hfresh : old.delivered with
  | true =>
    -- the block stood in the place of its parents already
    rw [(Delivery.again hold hfresh).eq]
    refine ⟨⟨false, rfl⟩, kc, ?_⟩
    intro x
    refine (hl x).trans (and_iff_left_of_imp ?_)
    intro hx hxp
    have hn := u.tree_of_cache hold
    have h0 : h ≠ b0 := by
      rintro rfl
      obtain ⟨m, hm, -⟩ := w.genesis
      have hm' := hkeep b0 m hm
      obtain rfl : m = old.toBlockNode := Option.some.inj (hm'.symm.trans hn)
      rw [hgen _ hm] at hhead
      cases hhead
    have hlinked := w'.linked h _ hn hfresh h0
    apply hx.2 h ((Tree.delivered_of hn).trans hfresh)
    rw [Tree.parentsOf_of hn, hlinked.parents]
    exact hxp
  | false =>
    have hq : (u.storage.blkCache old.body.qc.objHash).isSome = true := by
      have hin := kc.stored
      rw [show u.head.hqc.1 = old.body.qc.objHash from by
        rw [hcert, ← hstored]; exact kc.cert.symm] at hin
      unfold tree at hin
      rw [Option.isSome_map] at hin
      exact hin
    have d := Delivery.done hold hfresh hhead hdel hq
    rw [d.eq] at hcerts ⊢
    refine ⟨⟨true, rfl⟩, hcerts, ?_⟩
    exact done_leaves w' hold hfresh hdel _ fun x hx => (hl x).trans (and_iff_left hx)

theorem finishProposal_tailsOk (k : TailsOk s.tree s.head) :
    TailsOk (s.finishProposal C b).1.tree (s.finishProposal C b).1.head := by
  unfold finishProposal
  split
  · exact k
  have hown : s.onReceiveProposal C s.id b = s.judgeProposal C true b := by
    unfold onReceiveProposal
    rw [if_pos rfl]
  have k' := judgeProposal_tailsOk (C := C) (b := b) true k
  rw [hown]
  generalize s.judgeProposal C true b = r at k' ⊢
  obtain ⟨u, none | e⟩ := r
  · exact ⟨⟨k'.cert, k'.stored, k'.ballots⟩, k'.leaves⟩
  · exact k'

/-- Blocks of messages name a parent. Own blocks are made on delivered ones, and the hash of a
new block is not that of another one. -/
def Grafts (C : Crypto) (s : Replica) : Op → Prop
  | .addBlk body => body.parentHashes ≠ []
  | .propose cmds keys vals parents extra => (∀ p ∈ parents, s.delivered p = true) ∧
      ∀ blk ∈ s.storage.blkCache (C.getHash ⟨parents, cmds, keys, vals, s.hqc.2, extra⟩),
        blk.body = ⟨parents, cmds, keys, vals, s.hqc.2, extra⟩
  | _ => True

instance (C : Crypto) (s : Replica) : (op : Op) → Decidable (s.Grafts C op)
  | .addBlk body => inferInstanceAs (Decidable (body.parentHashes ≠ []))
  | .propose cmds keys vals parents extra =>
    inferInstanceAs (Decidable ((∀ p ∈ parents, s.delivered p = true) ∧
      ∀ blk ∈ s.storage.blkCache (C.getHash ⟨parents, cmds, keys, vals, s.hqc.2, extra⟩),
        blk.body = ⟨parents, cmds, keys, vals, s.hqc.2, extra⟩))
  | .receiveProposal _ _ | .deliverBlk _ | .receiveVote _ | .receiveMcLocal _ _ | .relayMc _ _
  | .remoteViewChangeTimeout _ | .receiveLComplain _ | .receiveRComplain _ _ | .msgRecs _
  | .sendReconfigAck _ _ | .msgRecsAggEchoReady _ | .asyncQcFinish _ | .waitDecision _ _ =>
    inferInstanceAs (Decidable True)

structure Leafed (s : Replica) : Prop where
  chained : s.ledger.Chained
  genesis : ∀ n, s.tree b0 = some n → n.body.parentHashes = []
  tails : TailsOk s.tree s.head

theorem onPropose_tailsOk (I : s.Leafed) {cmds : List Hash} {keys vals : List ℤ}
    {parents : List Hash} {extra : List UInt8}
    (hop : s.Grafts C (.propose cmds keys vals parents extra)) :
    TailsOk (s.onPropose C cmds keys vals parents extra).1.tree
      (s.onPropose C cmds keys vals parents extra).1.head := by
  unfold onPropose
  split
  · exact I.tails
  rename_i p hhead
  simp only []
  obtain ⟨hp, hfree⟩ := hop
  have hps : (s.newBlock cmds keys vals parents p extra).body.parentHashes = parents := rfl
  obtain ⟨⟨v, hv⟩, k⟩ := deliver_proposal (h := C.getHash (s.newBlock cmds keys vals parents p
    extra).body) I.chained.wf I.genesis I.tails (s.newBlock cmds keys vals parents p extra)
    rfl rfl rfl rfl hps hhead hp hp hfree
  have hsteps := storeProposal_steps (G := Ledger.Guard.any) (s := s)
    (C.getHash (s.newBlock cmds keys vals parents p extra).body)
    (b := s.newBlock cmds keys vals parents p extra) rfl rfl parents trivial trivial
  have c := hsteps.invariant I.chained fun _ _ hstep => hstep.chained
  generalize C.getHash (s.newBlock cmds keys vals parents p extra).body = h at k hv c ⊢
  generalize hr : (s.storeProposal h (s.newBlock cmds keys vals parents p extra)
    parents).onDeliverBlk h = r at k hv c ⊢
  obtain ⟨u, e | val⟩ := r
  · cases hv
  have ku := update_tailsOk c (onDeliverBlk_ok hr) k
  simp only []
  generalize u.update h = r at ku ⊢
  obtain ⟨w, none | e⟩ := r
  · exact finishProposal_tailsOk ku
  · exact ku

theorem exec_tailsOk (I : s.Leafed) {op : Op} (hop : s.Grafts C op) :
    TailsOk (s.exec C op).1.tree (s.exec C op).1.head := by
  cases hon : op.onHead with
  | false =>
    have htree : (s.exec C op).1.tree = s.tree := congrArg Prod.fst (s.exec_marks C hon)
    rw [htree, s.exec_head C hon]
    exact I.tails
  | true =>
    cases op with
    | addBlk body => exact addBlk_tailsOk I.tails rfl rfl rfl
    | deliverBlk blk =>
      change TailsOk (s.deliverOutcome blk).1.tree (s.deliverOutcome blk).1.head
      rw [deliverOutcome_fst]
      exact onDeliverBlk_tailsOk I.chained.wf I.tails blk
    | receiveProposal proposer blk => exact onReceiveProposal_tailsOk proposer I.chained I.tails
    | receiveVote v =>
      have htree : (s.onReceiveVote v).1.tree = s.tree :=
        congrArg Ledger.tree (s.onReceiveVote_ledger v)
      change TailsOk (s.onReceiveVote v).1.tree (s.onReceiveVote v).1.head
      rw [htree]
      exact onReceiveVote_tailsOk v I.tails
    | propose cmds keys vals parents extra => exact onPropose_tailsOk I hop
    | _ => cases hon

theorem Leafed.step (I : s.Leafed) {op : Op} (hop : s.Grafts C op) : (s.step C op).Leafed := by
  have hsteps := exec_steps C I.chained.wf op
  refine ⟨hsteps.invariant I.chained fun _ _ hstep => hstep.chained, ?_, exec_tailsOk I hop⟩
  obtain ⟨m, hm, -⟩ := I.chained.wf.genesis
  obtain ⟨m', hm', hbody, -⟩ := hsteps.grows.keep b0 m hm
  intro n hn
  obtain rfl : m' = n := Option.some.inj (hm'.symm.trans hn)
  rw [hbody]
  exact I.genesis m hm

theorem leafed_start (c : Setup) : c.start.Leafed := by
  have hroot : ∀ x, x ≠ b0 → c.start.tree x = none := by
    intro x hx
    unfold tree
    rw [start_cache c hx]
    rfl
  have hgen : c.start.tree b0 = some (Block.genesis c.config).toBlockNode := rfl
  refine ⟨c.start_chained, ?_, ⟨rfl, rfl, ?_⟩, ?_⟩
  · exact (leading_start c).genesis
  · exact (leading_start c).head.ballots
  · intro x
    change x ∈ [b0] ↔ _
    rw [List.mem_singleton]
    constructor
    · rintro rfl
      refine ⟨rfl, ?_⟩
      intro y hy
      by_cases hyb : y = b0
      · rw [hyb, Tree.parentsOf_of hgen]
        exact List.not_mem_nil
      · unfold Tree.delivered at hy
        rw [hroot y hyb] at hy
        cases hy
    · rintro ⟨hx, -⟩
      by_contra hxb
      unfold Tree.delivered at hx
      rw [hroot x hxb] at hx
      cases hx

/-- The tails are exactly the delivered blocks that are no parent, first or other, of a
delivered block: after deliveries and proposals in any order, whether they succeed or throw. -/
theorem tails_are_leaves (C : Crypto) (c : Setup) (s : Replica)
    (h : Runs.Reach (fun s op => s.Grafts C op) (step C) c.start s) (x : Hash) :
    x ∈ s.tails ↔ s.delivered x = true ∧ ∀ y blk, s.storage.blkCache y = some blk →
      blk.delivered = true → x ∉ blk.parents := by
  have I : s.Leafed := h.invariant Leafed (leafed_start c) fun _ _ I hop => I.step hop
  refine (I.tails.leaves x).trans (and_congr_right fun _ => ?_)
  constructor
  · intro hleaf y blk hb hd hx
    apply hleaf y ((delivered_of_cache hb).trans hd)
    rw [Tree.parentsOf_of (s.tree_of_cache hb)]
    exact hx
  · intro hleaf y hy hx
    obtain ⟨n, hn, hnd⟩ := Tree.exists_of_delivered hy
    obtain ⟨blk, hb, rfl⟩ := s.cache_of_tree hn
    rw [Tree.parentsOf_of hn] at hx
    exact hleaf y blk hb hnd hx

/-- The leader makes a block, makes it once more, and makes one on it and on a block it was
sent. -/
def joins : List Op :=
  [.propose [7] [1] [2] [0] [], .propose [7] [1] [2] [0] [], .addBlk (.sample 0 0 8 [0]),
    .deliverBlk 2, .propose [9] [1] [2] [1, 2] []]

def joined : Replica := Runs.run (step .sample) (Setup.four 0).start joins

theorem tails_are_leaves_joined : joined.tails = [3] ∧ ∀ x, x ∈ joined.tails ↔
    joined.delivered x = true ∧ ∀ y blk, joined.storage.blkCache y = some blk →
      blk.delivered = true → x ∉ blk.parents :=
  ⟨by decide +kernel,
    tails_are_leaves .sample (.four 0) _ (Runs.reach_run joins .init (by decide +kernel))⟩

end Replica

end AvaHotstuff
