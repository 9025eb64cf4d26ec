import AvaHotstuff.CommitLog
import AvaHotstuff.Head

set_option autoImplicit false

namespace AvaHotstuff
open Ancestry

/-- The certificate is for its block, and the tail is that block or lies above it. -/
structure HeadOk (t : Tree) (H : Head) : Prop where
  cert : H.hqc.2.objHash = H.hqc.1
  tails : ∀ x ∈ H.tails, t.delivered x = true
  ballots : ∀ h qc, (H.ballot h).1 = some qc → qc.objHash = h
  tail : H.hqcTail = H.hqc.1 ∨
    t.delivered H.hqcTail = true ∧ Anc t.parent0 H.hqc.1 H.hqcTail

theorem HeadOk.anc {t : Tree} {H : Head} (k : HeadOk t H) :
    Anc t.parent0 H.hqc.1 H.hqcTail := by
  cases k.tail with
  | inl h => rw [h]; exact .refl _
  | inr h => exact h.2

theorem HeadOk.mono {t t' : Tree} {H : Head} (k : HeadOk t H) (w : t.Wf)
    (g : Tree.Grows t t') : HeadOk t' H := by
  refine ⟨k.cert, fun x hx => g.delivered (k.tails x hx), k.ballots, ?_⟩
  cases k.tail with
  | inl h => exact .inl h
  | inr h => exact .inr ⟨g.delivered h.1, g.anc w h.1 h.2⟩

theorem QuorumCert.addPart_objHash {qc qc' : QuorumCert} {rid : ReplicaID} {pc : PartCert}
    (h : qc.addPart rid pc = some qc') : qc'.objHash = qc.objHash := by
  unfold QuorumCert.addPart at h
  split at h
  · rw [← Option.some.inj h]
  · cases h

namespace Replica
variable {s : Replica}

theorem higherTail_cases (best x : Hash) : s.higherTail best x = best ∨
    s.higherTail best x = x ∧ Anc s.parent0 s.hqc.1 x := by
  unfold higherTail
  split
  · rename_i h
    rw [Bool.and_eq_true] at h
    exact .inr ⟨rfl, checkAncestry_anc h.1⟩
  · exact .inl rfl

theorem foldl_higherTail (ts : List Hash) (hts : ∀ x ∈ ts, s.delivered x = true) (best : Hash)
    (hbest : best = s.hqc.1 ∨ s.delivered best = true ∧ Anc s.parent0 s.hqc.1 best) :
    ts.foldl s.higherTail best = s.hqc.1 ∨
      s.delivered (ts.foldl s.higherTail best) = true ∧
        Anc s.parent0 s.hqc.1 (ts.foldl s.higherTail best) := by
  induction ts generalizing best with
  | nil => exact hbest
  | cons x ts ih =>
    rw [List.foldl_cons]
    apply ih
    · exact fun y hy => hts y (List.mem_cons_of_mem _ hy)
    · cases s.higherTail_cases best x with
      | inl h => rw [h]; exact hbest
      | inr h => rw [h.1]; exact .inr ⟨hts x (List.mem_cons_self ..), h.2⟩

theorem updateHqc_headOk {b : Hash} {qc : QuorumCert} (k : HeadOk s.tree s.head)
    (hqc : qc.objHash = b) : HeadOk s.tree (s.updateHqc b qc).head := by
  unfold updateHqc
  split
  · refine ⟨hqc, k.tails, k.ballots, ?_⟩
    exact foldl_higherTail (s := { s with hqc := (b, qc) }) s.tails k.tails b (.inl rfl)
  · exact k

theorem addVote_headOk {v : Vote} {blk : Block} (k : HeadOk s.tree s.head)
    (hb : s.storage.blkCache v.blkHash = some blk) :
    HeadOk s.tree (s.addVote v).1.head ∧
      ∀ qc, (s.addVote v).2 = some qc → qc.objHash = v.blkHash := by
  have hballots := s.addVote_ballots (P := fun h qc => qc.objHash = h) hb rfl
    (fun _ _ hqc hadd => (QuorumCert.addPart_objHash hadd).trans hqc) k.ballots
  refine ⟨?_, hballots.2⟩
  have hhead := (s.addVote_head hb).2
  refine ⟨?_, ?_, hballots.1, ?_⟩
  · rw [hhead]
    exact k.cert
  · rw [hhead]
    exact k.tails
  · rw [hhead]
    exact k.tail

theorem onReceiveVote_headOk (v : Vote) (k : HeadOk s.tree s.head) :
    HeadOk s.tree (s.onReceiveVote v).1.head := by
  obtain hsame | ⟨blk, hb, -, -, -, hadd⟩ := s.onReceiveVote_head v
  · rw [hsame]
    exact k
  · obtain ⟨k', hqc⟩ := addVote_headOk k hb
    have htree : (s.addVote v).1.tree = s.tree := congrArg Ledger.tree (s.addVote_ledger v)
    obtain h | ⟨qc, hres, -, h⟩ := hadd
    · rw [h]
      exact k'
    · rw [h]
      rw [← htree] at k' ⊢
      exact updateHqc_headOk k' (hqc qc hres)

theorem doVote_headOk (C : Crypto) (b : Hash) (k : HeadOk s.tree s.head) :
    HeadOk s.tree (s.doVote C b).1.head := by
  unfold doVote
  simp only []
  split
  · exact onReceiveVote_headOk (s := s.emit (.vote b)) _ k
  · exact k

theorem notifyReceiveProposal_headOk {b : Hash} (hd : s.delivered b = true)
    (k : HeadOk s.tree s.head) : HeadOk s.tree (s.notifyReceiveProposal b).head := by
  refine ⟨k.cert, k.tails, k.ballots, ?_⟩
  change s.higherTail s.pmaker.hqcTail b = s.hqc.1 ∨ _
  cases s.higherTail_cases s.pmaker.hqcTail b with
  | inl h =>
    change _ ∨ s.delivered (s.higherTail s.pmaker.hqcTail b) = true ∧
      Anc s.parent0 s.hqc.1 (s.higherTail s.pmaker.hqcTail b)
    rw [h]
    exact k.tail
  | inr h =>
    change _ ∨ s.delivered (s.higherTail s.pmaker.hqcTail b) = true ∧
      Anc s.parent0 s.hqc.1 (s.higherTail s.pmaker.hqcTail b)
    rw [h.1]
    exact .inr ⟨hd, h.2⟩

theorem judgeProposal_headOk (C : Crypto) (selfProp : Bool) {b : Hash}
    (hd : s.delivered b = true) (k : HeadOk s.tree s.head) :
    HeadOk s.tree (s.judgeProposal C selfProp b).1.head := by
  have hopined : ∀ o, HeadOk s.tree ((s.opined selfProp b o).notifyReceiveProposal b).head := by
    intro o
    have htree : (s.opined selfProp b o).tree = s.tree := opined_tree selfProp b o
    rw [← s.opined_head b selfProp o, ← htree] at k
    rw [← htree]
    refine notifyReceiveProposal_headOk ?_ k
    unfold Replica.delivered
    rw [htree]
    exact hd
  have hjudge := s.judgement C selfProp b
  generalize s.judgeProposal C selfProp b = r at hjudge
  cases hjudge with
  | undefined => exact k
  | silent => exact hopined _
  | vote =>
    have htree : ((s.opined selfProp b true).notifyReceiveProposal b).tree = s.tree :=
      opined_tree selfProp b true
    have k' := hopined true
    rw [← htree] at k' ⊢
    exact doVote_headOk C b k'

theorem update_headOk (c : s.ledger.Chained) {b : Hash} (hd : s.delivered b = true)
    (k : HeadOk s.tree s.head) : HeadOk s.tree (s.update b).1.head := by
  obtain ⟨hsame, -⟩ | ⟨blk, b2, hb, hq, hdec, hhead⟩ := s.update_head b
  · rw [hsame]
    exact k
  · rw [hhead]
    apply updateHqc_headOk k
    have hn := s.tree_of_cache hb
    by_cases h0 : b = b0
    · -- the genesis block certifies itself, and it is decided
      subst b
      obtain ⟨r, hr, -, -, -, hrq⟩ := c.wf.genesis
      obtain rfl : blk.toBlockNode = r := Option.some.inj (hn.symm.trans hr)
      obtain rfl : b0 = b2 := Option.some.inj (hrq.symm.trans hq)
      have hdec0 : s.decided b0 = true := (c.decided b0).mpr (.inl rfl)
      rw [hdec] at hdec0
      cases hdec0
    · have hnd : blk.delivered = true := (Tree.delivered_of hn).symm.trans hd
      have l := c.wf.linked b blk.toBlockNode hn hnd h0
      exact Option.some.inj (l.qcRef.symm.trans hq)

theorem judgeProposal_tree (C : Crypto) (selfProp : Bool) (b : Hash) :
    (s.judgeProposal C selfProp b).1.tree = s.tree := by
  refine (congrArg Ledger.tree (judgeProposal_ledger (s := s) C selfProp b)).trans ?_
  split
  · split <;> rfl
  · rfl

theorem onReceiveProposal_headOk (C : Crypto) (proposer : ReplicaID) (c : s.ledger.Chained)
    {b : Hash} (hd : s.delivered b = true) (k : HeadOk s.tree s.head) :
    HeadOk (s.onReceiveProposal C proposer b).1.tree
      (s.onReceiveProposal C proposer b).1.head := by
  unfold onReceiveProposal
  split
  · rw [judgeProposal_tree]
    exact judgeProposal_headOk C true hd k
  split
  · exact k
  have g := (update_ledger (G := Ledger.Guard.any) c.wf b).grows
  have ku := (update_headOk c hd k).mono c.wf g
  have hud := g.delivered hd
  generalize s.update b = r at ku hud ⊢
  obtain ⟨u, none | e⟩ := r
  · change HeadOk (u.judgeProposal C false b).1.tree (u.judgeProposal C false b).1.head
    rw [judgeProposal_tree]
    exact judgeProposal_headOk C false hud ku
  · exact ku

theorem onDeliverBlk_headOk {h : Hash} (k : HeadOk (s.onDeliverBlk h).1.tree s.head) :
    HeadOk (s.onDeliverBlk h).1.tree (s.onDeliverBlk h).1.head := by
  obtain hsame | ⟨hok, ts, hts, hhead⟩ := s.onDeliverBlk_head h
  · rw [hsame]
    exact k
  · rw [hhead]
    refine ⟨k.cert, ?_, k.ballots, k.tail⟩
    intro x hx
    cases hts x hx with
    | inl hmem => exact k.tails x hmem
    | inr heq =>
      rw [heq]
      exact onDeliverBlk_ok (u := (s.onDeliverBlk h).1) (v := true) (Prod.ext rfl hok)

theorem storeProposal_headOk {t : Tree} (h : Hash) (b : Block) (parents : List Hash)
    (hq : b.selfQc = none) (hv : b.voted = ∅) (k : HeadOk t s.head) :
    HeadOk t (s.storeProposal h b parents).head ∧
      (s.storeProposal h b parents).head.hqc = s.hqc := by
  rw [s.storeProposal_head h b parents hq hv]
  refine ⟨⟨k.cert, ?_, ?_, k.tail⟩, rfl⟩
  · intro x hx
    exact k.tails x (List.mem_of_mem_filter hx)
  · intro x qc hx
    by_cases hxh : x = h
    · subst x
      simp only [Function.update_self] at hx
      rw [← Option.some.inj hx]
      rfl
    · simp only [Function.update_of_ne hxh] at hx
      exact k.ballots x qc hx

theorem storeProposal_body {h : Hash} {b : Block} {parents : List Hash}
    (hfree : ∀ blk, s.storage.blkCache h = some blk → blk.body = b.body) {n : BlockNode}
    (hn : ((s.storeProposal h b parents).onDeliverBlk h).1.tree h = some n) :
    n.body = b.body := by
  have hstored : ∃ m, (s.storeProposal h b parents).tree h = some m ∧ m.body = b.body := by
    unfold storeProposal addBlk EntityStorage.addBlk
    simp only []
    cases hb : s.storage.blkCache h with
    | none => exact ⟨b.toBlockNode, by simp [tree, modifyBlk], rfl⟩
    | some blk => exact ⟨blk.toBlockNode, by simp [tree, modifyBlk, hb], hfree blk hb⟩
  obtain ⟨m, hm, hbody⟩ := hstored
  have g := (onDeliverBlk_steps (s := s.storeProposal h b parents) (G := Ledger.Guard.any) h
    trivial).grows
  obtain ⟨n', hn', hkeep, -⟩ := g.keep h m hm
  obtain rfl : n' = n := Option.some.inj (hn'.symm.trans hn)
  exact hkeep.trans hbody

theorem doVote_hqc (C : Crypto) (b : Hash) :
    (s.doVote C b).1.hqc = s.hqc ∨ (s.doVote C b).1.hqc.1 = b := by
  have hvote : ∀ (u : Replica) (v : Vote), (u.onReceiveVote v).1.hqc = u.hqc ∨
      (u.onReceiveVote v).1.hqc.1 = v.blkHash := by
    intro u v
    obtain hsame | ⟨blk, hb, -, -, -, hadd⟩ := u.onReceiveVote_head v
    · exact .inl (congrArg Head.hqc hsame)
    · have hkeep : (u.addVote v).1.hqc = u.hqc := congrArg Head.hqc (u.addVote_head hb).2
      obtain h | ⟨qc, -, -, h⟩ := hadd
      · exact .inl ((congrArg Head.hqc h).trans hkeep)
      · have hqc : (u.onReceiveVote v).1.hqc = ((u.addVote v).1.updateHqc v.blkHash qc).hqc :=
          congrArg Head.hqc h
        rw [hqc]
        unfold updateHqc
        split
        · exact .inr rfl
        · exact .inl hkeep
  unfold doVote
  simp only []
  split
  · exact hvote (s.emit (.vote b)) _
  · exact .inl rfl

/-- A proposal can only raise the certificate to the proposed block, by the own vote. -/
theorem judgeProposal_hqc (C : Crypto) (selfProp : Bool) (b : Hash) :
    (s.judgeProposal C selfProp b).1.hqc = s.hqc ∨ (s.judgeProposal C selfProp b).1.hqc.1 = b := by
  have hopined : ∀ o, ((s.opined selfProp b o).notifyReceiveProposal b).hqc = s.hqc :=
    fun o => congrArg Head.hqc (s.opined_head b selfProp o)
  have hjudge := s.judgement C selfProp b
  generalize s.judgeProposal C selfProp b = r at hjudge
  cases hjudge with
  | undefined => exact .inl rfl
  | silent => exact .inl (hopined _)
  | vote =>
    rw [← hopined true]
    exact doVote_hqc C b

/-- A new block `h` above the block of the certificate `q` it carries. -/
structure Made (q : Hash × QuorumCert) (h : Hash) (u : Replica) : Prop where
  chained : u.ledger.Chained
  head : HeadOk u.tree u.head
  delivered : u.delivered h = true
  qcRef : u.qcRef h = some q.1
  anc : Anc u.parent0 q.1 h
  ne : q.1 ≠ h
  hqc : u.hqc = q

theorem made_of_deliver (c : s.ledger.Chained) (k : HeadOk s.tree s.head)
    (hgen : ∀ n, s.tree b0 = some n → n.body.parentHashes = []) {h : Hash} {b : Block}
    (hd : b.delivered = false) (hdec : b.decision = false) (hq : b.selfQc = none)
    (hv : b.voted = ∅) (hparent : b.body.parentHashes = [s.pmaker.hqcTail])
    (hqc : b.body.qc = s.hqc.2)
    (hfree : ∀ blk, s.storage.blkCache h = some blk → blk.body = b.body) {u : Replica}
    (hu : u = ((s.storeProposal h b [s.pmaker.hqcTail]).onDeliverBlk h).1) :
    u.ledger.Chained ∧ HeadOk u.tree u.head ∧ (u.delivered h = true → Made s.hqc h u) := by
  have hsteps := storeProposal_steps (G := Ledger.Guard.any) (s := s) h hd hdec
    [s.pmaker.hqcTail] trivial trivial
  rw [← hu] at hsteps
  have c' : u.ledger.Chained := hsteps.invariant c fun _ _ hstep => hstep.chained
  have g := hsteps.grows
  obtain ⟨kst, hsthqc⟩ := storeProposal_headOk h b [s.pmaker.hqcTail] hq hv (k.mono c.wf g)
  have ku : HeadOk u.tree u.head := by
    rw [hu] at kst ⊢
    exact onDeliverBlk_headOk kst
  have huhqc : u.hqc = s.hqc := by
    obtain hsame | ⟨-, ts, -, hhead⟩ :=
      (s.storeProposal h b [s.pmaker.hqcTail]).onDeliverBlk_head h
    · rw [← hu] at hsame
      exact (congrArg Head.hqc hsame).trans hsthqc
    · rw [← hu] at hhead
      exact (congrArg Head.hqc hhead).trans hsthqc
  refine ⟨c', ku, ?_⟩
  intro hdel
  obtain ⟨n, hn, hnd⟩ := Tree.exists_of_delivered hdel
  have hbody : n.body = b.body := storeProposal_body hfree (hu ▸ hn)
  have hne0 : h ≠ b0 := by
    intro h0
    subst h
    obtain ⟨r, hr, -⟩ := c.wf.genesis
    obtain ⟨n', hn', hb', -⟩ := g.keep b0 r hr
    obtain rfl : n' = n := Option.some.inj (hn'.symm.trans hn)
    have hnil := hgen r hr
    rw [← hb', hbody, hparent] at hnil
    cases hnil
  have l := c'.wf.linked h n hn hnd hne0
  have hp : u.parent0 h = some s.pmaker.hqcTail := by
    refine (Tree.parent0_of hn).trans ?_
    rw [l.parents, hbody, hparent]
    rfl
  have hqref : u.qcRef h = some s.hqc.1 := by
    refine (Tree.qcRef_of hn).trans ?_
    rw [l.qcRef, hbody, hqc]
    exact congrArg some k.cert
  obtain ⟨htd, hth⟩ := c'.wf.ranked.parent_spec hdel hp
  have hanc : Anc u.parent0 s.hqc.1 s.pmaker.hqcTail := (k.mono c.wf g).anc
  have hle := (c'.wf.ranked.anc_spec htd hanc).2
  refine ⟨c', ku, hdel, hqref, .cons hp hanc, ?_, huhqc⟩
  intro heq
  rw [heq] at hle
  omega

/-- `update` of the new block: its certificate is the highest one already. -/
theorem Made.update {q : Hash × QuorumCert} {h : Hash} (m : Made q h s) :
    Made q h (s.update h).1 := by
  have hsteps := update_ledger (G := Ledger.Guard.any) m.chained.wf h
  have g := hsteps.grows
  refine ⟨hsteps.invariant m.chained fun _ _ hstep => hstep.chained,
    (update_headOk m.chained m.delivered m.head).mono m.chained.wf g, g.delivered m.delivered,
    (g.qcRef m.delivered).trans m.qcRef, g.anc m.chained.wf m.delivered m.anc, m.ne, ?_⟩
  obtain ⟨hsame, -⟩ | ⟨blk, b2, hb, hq, -, hhead⟩ := s.update_head h
  · exact (congrArg Head.hqc hsame).trans m.hqc
  · have hb2 : b2 = q.1 := by
      have hqr := m.qcRef
      rw [show s.qcRef h = blk.qcRef from Tree.qcRef_of (s.tree_of_cache hb), hq] at hqr
      exact Option.some.inj hqr
    refine (congrArg Head.hqc hhead).trans ?_
    unfold updateHqc
    rw [if_neg (by rw [hb2, m.hqc]; omega)]
    exact m.hqc

theorem Made.finishProposal (C : Crypto) {q : Hash × QuorumCert} {h : Hash} (m : Made q h s) :
    HeadOk (s.finishProposal C h).1.tree (s.finishProposal C h).1.head := by
  unfold Replica.finishProposal
  split
  · exact m.head
  unfold onReceiveProposal
  rw [if_pos rfl]
  have htree := s.judgeProposal_tree C true h
  have kj := judgeProposal_headOk C true m.delivered m.head
  have hj := s.judgeProposal_hqc C true h
  generalize s.judgeProposal C true h = r at htree kj hj ⊢
  obtain ⟨u, none | e⟩ := r
  · have hu : u.tree = s.tree := htree
    change HeadOk u.tree (u.notifyPropose h).head
    rw [hu]
    refine ⟨kj.cert, kj.tails, kj.ballots, ?_⟩
    change h = u.hqc.1 ∨ _
    cases hj with
    | inl hsame =>
      refine .inr ⟨m.delivered, ?_⟩
      change Anc s.parent0 u.hqc.1 h
      rw [hsame, m.hqc]
      exact m.anc
    | inr hself => exact .inl hself.symm
  · change HeadOk u.tree u.head
    rw [show u.tree = s.tree from htree]
    exact kj

theorem onPropose_headOk (C : Crypto) (c : s.ledger.Chained) (k : HeadOk s.tree s.head)
    (hgen : ∀ n, s.tree b0 = some n → n.body.parentHashes = []) (cmds : List Hash)
    (keys vals : List ℤ) (extra : List UInt8) {body : Body}
    (hbody : body = ⟨[s.pmaker.hqcTail], cmds, keys, vals, s.hqc.2, extra⟩)
    (hfree : ∀ blk, s.storage.blkCache (C.getHash body) = some blk → blk.body = body)
    {u : Replica} (hu : u = (s.onPropose C cmds keys vals [s.pmaker.hqcTail] extra).1) :
    HeadOk u.tree u.head ∧ (u.delivered (C.getHash body) = true →
      Anc u.parent0 s.hqc.1 (C.getHash body) ∧ s.hqc.1 ≠ C.getHash body) := by
  have hb : (s.newBlock cmds keys vals [s.pmaker.hqcTail] s.pmaker.hqcTail extra).body = body :=
    hbody.symm
  have hmade := fun v => made_of_deliver c k hgen (h := C.getHash body)
    (b := s.newBlock cmds keys vals [s.pmaker.hqcTail] s.pmaker.hqcTail extra) rfl rfl rfl rfl rfl
    rfl (hb ▸ hfree) (u := v)
  unfold onPropose at hu
  simp only [List.head?_cons, hb] at hu
  generalize hr : (s.storeProposal (C.getHash body)
    (s.newBlock cmds keys vals [s.pmaker.hqcTail] s.pmaker.hqcTail extra)
    [s.pmaker.hqcTail]).onDeliverBlk (C.getHash body) = r at hu hmade
  obtain ⟨v, e | valid⟩ := r
  · have hu' : u = v := hu
    obtain ⟨-, ku, hm⟩ := hmade u hu'
    exact ⟨ku, fun hd => ⟨(hm hd).anc, (hm hd).ne⟩⟩
  · have m : Made s.hqc (C.getHash body) v := (hmade v rfl).2.2 (onDeliverBlk_ok hr)
    have m' := m.update
    change u = ((v.update (C.getHash body)).andThen _).1 at hu
    generalize v.update (C.getHash body) = r' at hu m'
    obtain ⟨w, none | e⟩ := r'
    · have hu' : u = (w.finishProposal C (C.getHash body)).1 := hu
      have hsteps : Ledger.Steps Ledger.Guard.any w.ledger
          (w.finishProposal C (C.getHash body)).1.ledger := finishProposal_steps C trivial
      have g := hsteps.grows
      rw [← hu'] at g
      refine ⟨hu' ▸ m'.finishProposal C, fun _ => ⟨?_, m'.ne⟩⟩
      exact g.anc m'.chained.wf m'.delivered m'.anc
    · have hu' : u = w := hu
      subst hu'
      exact ⟨m'.head, fun _ => ⟨m'.anc, m'.ne⟩⟩

/-- A proposal is handed over when its block has been delivered. Own proposals are made on
`get_parents`, and the hash of a new block is not that of another one. -/
def Proper (C : Crypto) (s : Replica) : Op → Prop
  | .receiveProposal _ blk => s.delivered blk = true
  | .propose cmds keys vals parents extra => parents = [s.pmaker.hqcTail] ∧
      ∀ blk ∈ s.storage.blkCache (C.getHash ⟨parents, cmds, keys, vals, s.hqc.2, extra⟩),
        blk.body = ⟨parents, cmds, keys, vals, s.hqc.2, extra⟩
  | _ => True

instance (C : Crypto) (s : Replica) : (op : Op) → Decidable (s.Proper C op)
  | .receiveProposal _ blk => inferInstanceAs (Decidable (s.delivered blk = true))
  | .propose cmds keys vals parents extra =>
    inferInstanceAs (Decidable (parents = [s.pmaker.hqcTail] ∧
      ∀ blk ∈ s.storage.blkCache (C.getHash ⟨parents, cmds, keys, vals, s.hqc.2, extra⟩),
        blk.body = ⟨parents, cmds, keys, vals, s.hqc.2, extra⟩))
  | .addBlk _ | .deliverBlk _ | .receiveVote _ | .receiveMcLocal _ _ | .relayMc _ _
  | .remoteViewChangeTimeout _ | .receiveLComplain _ | .receiveRComplain _ _ | .msgRecs _
  | .sendReconfigAck _ _ | .msgRecsAggEchoReady _ | .asyncQcFinish _ | .waitDecision _ _ =>
    inferInstanceAs (Decidable True)

structure Leading (s : Replica) : Prop where
  chained : s.ledger.Chained
  genesis : ∀ n, s.tree b0 = some n → n.body.parentHashes = []
  head : HeadOk s.tree s.head

theorem Leading.exec (C : Crypto) {op : Op} (k : s.Leading) (hop : s.Proper C op) :
    HeadOk (s.exec C op).1.tree (s.exec C op).1.head := by
  have g := (exec_steps C k.chained.wf op).grows
  have kmono := k.head.mono k.chained.wf g
  cases hon : op.onHead with
  | false =>
    rw [s.exec_head C hon]
    exact kmono
  | true =>
    cases op with
    | addBlk body =>
      rw [show (s.exec C (.addBlk body)).1.head = s.head from s.addBlk_head _ _ rfl rfl]
      exact kmono
    | deliverBlk blk =>
      change HeadOk (s.deliverOutcome blk).1.tree s.head at kmono
      change HeadOk (s.deliverOutcome blk).1.tree (s.deliverOutcome blk).1.head
      rw [deliverOutcome_fst] at kmono ⊢
      exact onDeliverBlk_headOk kmono
    | receiveProposal proposer blk =>
      exact onReceiveProposal_headOk C proposer k.chained hop k.head
    | receiveVote v =>
      have htree : (s.onReceiveVote v).1.tree = s.tree :=
        congrArg Ledger.tree (onReceiveVote_ledger v)
      change HeadOk (s.onReceiveVote v).1.tree (s.onReceiveVote v).1.head
      rw [htree]
      exact onReceiveVote_headOk v k.head
    | propose cmds keys vals parents extra =>
      obtain ⟨rfl, hfree⟩ := hop
      exact (onPropose_headOk C k.chained k.head k.genesis cmds keys vals extra rfl hfree rfl).1
    | _ => exact absurd hon (by simp [Op.onHead])

theorem Leading.step (C : Crypto) {op : Op} (k : s.Leading) (hop : s.Proper C op) :
    (s.step C op).Leading := by
  have hsteps := exec_steps C k.chained.wf op
  refine ⟨hsteps.invariant k.chained fun _ _ hstep => hstep.chained, ?_, k.exec C hop⟩
  intro n hn
  obtain ⟨r, hr, -⟩ := k.chained.wf.genesis
  obtain ⟨n', hn', hbody, -⟩ := hsteps.grows.keep b0 r hr
  obtain rfl : n' = n := Option.some.inj (hn'.symm.trans hn)
  rw [hbody]
  exact k.genesis r hr

theorem leading_start (c : Setup) : c.start.Leading := by
  refine ⟨c.start_chained, ?_, rfl, ?_, ?_, .inl rfl⟩
  · intro n hn
    obtain rfl : (Block.genesis c.config).toBlockNode = n := Option.some.inj hn
    rfl
  · intro x hx
    rw [List.mem_singleton.mp hx]
    rfl
  · intro h qc hq
    by_cases hh : h = b0
    · subst h
      obtain rfl : createQuorumCert c.config b0 = qc := Option.some.inj hq
      rfl
    · have hnone : c.start.storage.ballot h = (none, ∅) := by
        simp [EntityStorage.ballot, Setup.start, EntityStorage.initial, hh]
      rw [show c.start.head.ballot h = (none, ∅) from hnone] at hq
      cases hq

end Replica

def twoProposals : List Op :=
  [.propose [7] [1] [2] [b0] [], .receiveVote ⟨1, 1, 1, 1⟩, .receiveVote ⟨2, 1, 1, 1⟩,
    .propose [8] [1] [2] [1] []]

end AvaHotstuff
