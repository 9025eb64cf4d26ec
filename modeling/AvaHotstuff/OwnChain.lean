import AvaHotstuff.TailProposals

set_option autoImplicit false

namespace AvaHotstuff
open Ancestry

/-- The blocks are delivered and lie on the branch of `top`. -/
def Tree.Chain (t : Tree) (top : Hash) : Prop :=
  ∀ h n, t h = some n → t.delivered h = true ∧ Anc t.parent0 h top

namespace Ledger
variable {G : Guard} {L M : Ledger} {top : Hash}

theorem Steps.chain (hs : Steps G L M) (w : L.tree.Wf) (hG : ∀ h, ¬G.store h)
    (htop : L.tree.delivered top = true) (hc : L.tree.Chain top) : M.tree.Chain top := by
  intro h n hn
  obtain hold | hnew := hs.stored (by rw [hn]; rfl)
  · obtain ⟨m, hm⟩ := Option.isSome_iff_exists.mp hold
    obtain ⟨hd, hanc⟩ := hc h m hm
    exact ⟨hs.grows.delivered hd, hs.grows.anc w htop hanc⟩
  · exact absurd hnew (hG h)

theorem Steps.closed (hs : Steps G L M) (w : L.tree.Wf) (hG : ∀ h, ¬G.deliver h)
    (cl : L.tree.Closed) : M.tree.Closed := by
  intro h hd
  cases hold : L.tree.delivered h with
  | true =>
    obtain ⟨q, hq, hanc, hne⟩ := cl h hold
    exact ⟨q, (hs.grows.qcRef hold).trans hq, hs.grows.anc w hold hanc, hne⟩
  | false =>
    rcases hs.newly_delivered hd with hsame | hnew
    · rw [hold] at hsame
      cases hsame
    · exact absurd hnew (hG h)

end Ledger

namespace Replica
variable {s u : Replica}

structure OwnChain (s : Replica) : Prop where
  quorate : s.Quorate
  closed : s.tree.Closed
  chain : s.tree.Chain s.pmaker.hqcTail
  tail : s.pmaker.hqcTail ∈ s.tails
  vheight : s.vheight ≤ s.height s.pmaker.hqcTail

namespace OwnChain

theorem wf (I : s.OwnChain) : s.tree.Wf := I.quorate.leading.chained.wf

theorem of_same (I : s.OwnChain) (q : u.Quorate) (hl : u.ledger = s.ledger)
    (hh : u.head = s.head) : u.OwnChain := by
  have htree : u.tree = s.tree := congrArg Ledger.tree hl
  have htail : u.pmaker.hqcTail = s.pmaker.hqcTail := congrArg Head.hqcTail hh
  refine ⟨q, ?_, ?_, ?_, ?_⟩
  · rw [htree]
    exact I.closed
  · rw [htree, htail]
    exact I.chain
  · rw [htail, show u.tails = s.tails from congrArg Head.tails hh]
    exact I.tail
  · unfold height
    rw [htree, htail, show u.vheight = s.vheight from congrArg Ledger.vheight hl]
    exact I.vheight

theorem fresh {C : Crypto} (I : s.OwnChain) {cmds : List Hash} {keys vals : List ℤ}
    {extra : List UInt8}
    (hop : s.Proper C (.propose cmds keys vals [s.pmaker.hqcTail] extra)) :
    s.storage.blkCache (C.getHash (s.tailBlock cmds keys vals extra).body) = none := by
  have hfree : ∀ blk, s.storage.blkCache (C.getHash (s.tailBlock cmds keys vals extra).body) =
      some blk → blk.body = (s.tailBlock cmds keys vals extra).body := hop.2
  generalize C.getHash (s.tailBlock cmds keys vals extra).body = h at hfree ⊢
  by_contra hsome
  obtain ⟨blk, hblk⟩ := Option.ne_none_iff_exists'.mp hsome
  have hn := s.tree_of_cache hblk
  have hparents : blk.toBlockNode.body.parentHashes = [s.pmaker.hqcTail] := by
    rw [show blk.toBlockNode.body = _ from hfree blk hblk]
    rfl
  obtain ⟨hd, hanc⟩ := I.chain h _ hn
  have hne : h ≠ b0 := by
    rintro rfl
    have hnil := I.quorate.leading.genesis _ hn
    rw [hparents] at hnil
    cases hnil
  have hlinked := I.wf.linked h _ hn ((Tree.delivered_of hn).symm.trans hd) hne
  have hp : s.tree.parent0 h = some s.pmaker.hqcTail := by
    rw [Tree.parent0_of hn, hlinked.parents, hparents]
    rfl
  have hup := (I.wf.ranked.parent_spec hd hp).2
  have hle := (I.wf.ranked.anc_spec (hqcTail_delivered I.quorate) hanc).2
  omega

theorem extended_chain (I : s.OwnChain) {h : Hash} (e : Extended s h u) :
    u.tree.Chain h ∧ u.tree.Closed := by
  have g := e.steps.grows
  have hold : ∀ x, x ≠ h → (u.tree x).isSome = true → s.delivered x = true ∧
      Anc s.parent0 x s.pmaker.hqcTail := by
    intro x hx hsome
    obtain hs | hnew := e.steps.stored hsome
    · obtain ⟨m, hm⟩ := Option.isSome_iff_exists.mp hs
      exact I.chain x m hm
    · exact absurd hnew hx
  constructor
  · intro x n hn
    by_cases hx : x = h
    · subst x
      exact ⟨e.made.delivered, .refl _⟩
    · obtain ⟨hd, hanc⟩ := hold x hx (by rw [hn]; rfl)
      refine ⟨g.delivered hd, .cons e.parent ?_⟩
      exact g.anc I.wf (hqcTail_delivered I.quorate) hanc
  · intro x hd
    by_cases hx : x = h
    · subst x
      exact ⟨s.hqc.1, e.made.qcRef, e.made.anc, fun _ => e.made.ne⟩
    · obtain ⟨n, hn, -⟩ := Tree.exists_of_delivered hd
      obtain ⟨hsd, -⟩ := hold x hx (by rw [hn]; rfl)
      obtain ⟨q, hq, hanc, hne⟩ := I.closed x hsd
      exact ⟨q, (g.qcRef hsd).trans hq, g.anc I.wf hsd hanc, hne⟩

end OwnChain

theorem update_returns {top h : Hash} (c : s.ledger.Chained) (cl : s.tree.Closed)
    (hc : s.tree.Chain top) (htop : s.delivered top = true) (hd : s.delivered h = true) :
    (s.update h).2 = none := by
  obtain ⟨b2, h2, -⟩ := cl h hd
  have hb2 := (cl.spec c.wf hd h2).1
  obtain ⟨b1, h1, -⟩ := cl b2 hb2
  have hb1 := (cl.spec c.wf hb2 h1).1
  obtain ⟨b, h0, -⟩ := cl b1 hb1
  have hb := (cl.spec c.wf hb1 h0).1
  refine (update_spec c cl hd h2 h1 h0 ?_).1
  intro hundecided _ _
  have hanc : ∀ x, s.delivered x = true → Anc s.parent0 x top := by
    intro x hx
    obtain ⟨n, hn, -⟩ := Tree.exists_of_delivered hx
    exact (hc x n hn).2
  rcases Nat.le_total (s.height s.bExec) (s.height b) with hle | hle
  · exact c.wf.ranked.anc_of_anc htop (hanc _ c.exec) (hanc b hb) hle
  · -- what lies below the executed block is decided
    have hbelow := c.wf.ranked.anc_of_anc htop (hanc b hb) (hanc _ c.exec) hle
    have hdecided : s.decided b = true := by
      refine (c.decided b).mpr ?_
      rcases c.wf.ranked.mem_seg_root c.exec c.path hbelow with hroot | hmem
      · exact Or.inl hroot
      · exact Or.inr (List.mem_reverse.mp hmem)
    rw [hundecided] at hdecided
    cases hdecided

theorem OwnChain.propose_returns (C : Crypto) (I : s.OwnChain) {cmds : List Hash}
    {keys vals : List ℤ} {extra : List UInt8}
    (hop : s.Proper C (.propose cmds keys vals [s.pmaker.hqcTail] extra)) :
    (s.onPropose C cmds keys vals [s.pmaker.hqcTail] extra).2 = none := by
  refine (onPropose_returns_iff C I.quorate hop).mpr
    ⟨commitsAbove_of_update C I.quorate hop ?_, I.vheight⟩
  intro u v _ e
  obtain ⟨hchain, hclosed⟩ := I.extended_chain e
  exact update_returns e.made.chained hclosed hchain e.made.delivered e.made.delivered

theorem onReceiveVote_tails (v : Vote) : (s.onReceiveVote v).1.tails = s.tails := by
  obtain hsame | ⟨blk, hb, -, -, -, hadd⟩ := s.onReceiveVote_head v
  · exact congrArg Head.tails hsame
  · have hkeep : (s.addVote v).1.tails = s.tails := congrArg Head.tails (s.addVote_head hb).2
    obtain h | ⟨qc, -, -, h⟩ := hadd
    · exact (congrArg Head.tails h).trans hkeep
    · refine (congrArg Head.tails h).trans (Eq.trans ?_ hkeep)
      change ((s.addVote v).1.updateHqc v.blkHash qc).tails = _
      unfold updateHqc
      split <;> rfl

theorem judgeProposal_tails (C : Crypto) (h : Hash) :
    (s.judgeProposal C true h).1.tails = s.tails := by
  refine judgeProposal_keeps true (fun o => congrArg Head.tails (s.takeOpinion_head h o))
    (fun u => congrArg Head.tails (u.finishQcRef_head h)) (fun _ => rfl) ?_
  intro u
  unfold doVote
  simp only []
  split
  · exact onReceiveVote_tails _
  · rfl

theorem judgeProposal_vheight (C : Crypto) (h : Hash) :
    (s.judgeProposal C true h).1.vheight = s.vheight ∨
      (s.judgeProposal C true h).1.vheight = s.height h := by
  have hledger := congrArg Ledger.vheight (judgeProposal_ledger (s := s) C true h)
  change (s.judgeProposal C true h).1.vheight = _ at hledger
  rw [hledger]
  split
  · split
    · exact Or.inr rfl
    · exact Or.inr rfl
  · exact Or.inl rfl

theorem finishProposal_spec (C : Crypto) {h : Hash} (hnone : (s.finishProposal C h).2 = none) :
    (s.finishProposal C h).1.pmaker.hqcTail = h ∧ (s.finishProposal C h).1.tails = s.tails ∧
      (s.finishProposal C h).1.vheight ≤ s.height h := by
  have htails := s.judgeProposal_tails C h
  have hvheight := s.judgeProposal_vheight C h
  unfold finishProposal onReceiveProposal at hnone ⊢
  rw [if_pos rfl] at hnone ⊢
  split at hnone
  · cases hnone
  rename_i hgt
  rw [if_neg hgt]
  generalize s.judgeProposal C true h = r at hnone htails hvheight ⊢
  obtain ⟨u, none | e⟩ := r
  · refine ⟨rfl, htails, ?_⟩
    change u.vheight ≤ s.height h
    rcases hvheight with hsame | hnew
    · rw [show u.vheight = s.vheight from hsame]
      omega
    · exact le_of_eq hnew
  · cases hnone

theorem OwnChain.propose (C : Crypto) (I : s.OwnChain) {cmds : List Hash} {keys vals : List ℤ}
    {extra : List UInt8}
    (hop : s.Proper C (.propose cmds keys vals [s.pmaker.hqcTail] extra)) :
    (s.onPropose C cmds keys vals [s.pmaker.hqcTail] extra).1.OwnChain ∧
      (s.onPropose C cmds keys vals [s.pmaker.hqcTail] extra).1.pmaker.hqcTail =
        C.getHash (s.tailBlock cmds keys vals extra).body := by
  have hnone := I.propose_returns C hop
  have hq : (s.step C (.propose cmds keys vals [s.pmaker.hqcTail] extra)).Quorate := by
    refine I.quorate.handled C ⟨hop, trivial, trivial⟩ ?_
    exact exec_config C fun msg h => by cases h
  change (s.onPropose C cmds keys vals [s.pmaker.hqcTail] extra).1.Quorate at hq
  obtain ⟨u, v, hu, e⟩ := deliverTail_spec C I.quorate hop
  obtain ⟨hchain, hclosed⟩ := I.extended_chain e
  have hreturns := update_returns e.made.chained hclosed hchain e.made.delivered e.made.delivered
  have htail := e.tail (Option.map_eq_none_iff.mpr (I.fresh hop))
  rw [onPropose_tail, hu] at hnone hq ⊢
  generalize C.getHash (s.tailBlock cmds keys vals extra).body = h
    at hnone hq hchain hreturns htail e ⊢
  simp only [] at hnone hq ⊢
  rw [Outcome.andThen_of_none hreturns] at hnone hq ⊢
  have hsteps := update_ledger (G := Ledger.Guard.none) e.made.chained.wf h
  have hwtails : (u.update h).1.tails = u.tails := by
    obtain ⟨hsame, -⟩ | ⟨blk, b2, -, -, -, hhead⟩ := u.update_head h
    · exact congrArg Head.tails hsame
    · refine (congrArg Head.tails hhead).trans ?_
      change (u.updateHqc b2 blk.body.qc).tails = _
      unfold updateHqc
      split <;> rfl
  generalize (u.update h).1 = w at hnone hq hsteps hwtails ⊢
  obtain ⟨htop, htails, hvheight⟩ := finishProposal_spec C hnone
  have htree := finishProposal_tree (s := w) C h
  refine ⟨⟨hq, ?_, ?_, ?_, ?_⟩, htop⟩
  · rw [htree]
    exact hsteps.closed e.made.chained.wf (fun _ hG => hG) hclosed
  · rw [htree, htop]
    exact hsteps.chain e.made.chained.wf (fun _ hG => hG) e.made.delivered hchain
  · rw [htop, htails, hwtails]
    exact htail
  · rw [htop]
    unfold height
    rw [htree]
    exact hvheight

theorem OwnChain.propose_voters (C : Crypto) (I : s.OwnChain) {cmds : List Hash}
    {keys vals : List ℤ} {extra : List UInt8}
    (hop : s.Proper C (.propose cmds keys vals [s.pmaker.hqcTail] extra)) :
    ((s.onPropose C cmds keys vals [s.pmaker.hqcTail] extra).1.storage.ballot
      (C.getHash (s.tailBlock cmds keys vals extra).body)).2.card ≤ 1 := by
  have hempty : (s.storage.ballot (C.getHash (s.tailBlock cmds keys vals extra).body)).2 = ∅ := by
    unfold EntityStorage.ballot
    rw [I.fresh hop]
    rfl
  have hcounts := s.exec_counts C (.propose cmds keys vals [s.pmaker.hqcTail] extra)
  change BallotBox.Counts (BallotBox.restart s.storage.ballot s.config
    (C.getHash (s.tailBlock cmds keys vals extra).body)) _ _ (s.onPropose C cmds keys vals
      [s.pmaker.hqcTail] extra).1.storage.ballot at hcounts
  generalize C.getHash (s.tailBlock cmds keys vals extra).body = h at hempty hcounts ⊢
  have hstart : (BallotBox.restart s.storage.ballot s.config h h).2 = ∅ := by
    unfold BallotBox.restart
    rw [Function.update_self]
    exact hempty
  rcases hcounts with hsame | ⟨v, -, -, -, hcount⟩
  · rw [hsame, hstart]
    exact Nat.zero_le 1
  · rw [hcount]
    unfold BallotBox.count
    by_cases hv : h = v.blkHash
    · rw [← hv, Function.update_self, hstart]
      exact le_of_eq (Finset.card_singleton v.voter)
    · rw [Function.update_of_ne hv, hstart]
      exact Nat.zero_le 1

theorem higherTail_height (best x : Hash) : s.height best ≤ s.height (s.higherTail best x) := by
  unfold higherTail
  split
  · rename_i h
    rw [Bool.and_eq_true, decide_eq_true_iff] at h
    exact Nat.le_of_lt h.2
  · exact le_refl _

theorem foldl_higherTail_height (ts : List Hash) (best : Hash) :
    s.height best ≤ s.height (ts.foldl s.higherTail best) := by
  induction ts generalizing best with
  | nil => exact le_refl _
  | cons x ts ih => exact (higherTail_height best x).trans (ih _)

/-- No tail above the certificate is higher than the one that the scan ends with. -/
theorem foldl_higherTail_le (ts : List Hash) (best : Hash) {x : Hash} (hx : x ∈ ts)
    (hanc : s.checkAncestry s.hqc.1 x = true) :
    s.height x ≤ s.height (ts.foldl s.higherTail best) := by
  induction ts generalizing best with
  | nil => cases hx
  | cons y ts ih =>
    rw [List.foldl_cons]
    rcases List.mem_cons.mp hx with rfl | htail
    · refine le_trans ?_ (foldl_higherTail_height ts _)
      unfold higherTail
      rw [hanc, Bool.true_and]
      split
      · exact le_refl _
      · rename_i hle
        rw [decide_eq_true_iff] at hle
        omega
    · exact ih _ htail

theorem updateHqc_tail (w : s.tree.Wf) (hd : s.delivered s.pmaker.hqcTail = true)
    (hc : s.tree.Chain s.pmaker.hqcTail) (htails : ∀ x ∈ s.tails, s.delivered x = true)
    (htail : s.pmaker.hqcTail ∈ s.tails) {b : Hash} (hb : s.delivered b = true)
    (qc : QuorumCert) : (s.updateHqc b qc).pmaker.hqcTail = s.pmaker.hqcTail := by
  have hchain : ∀ x, s.delivered x = true → Anc s.parent0 x s.pmaker.hqcTail := by
    intro x hx
    obtain ⟨n, hn, -⟩ := Tree.exists_of_delivered hx
    exact (hc x n hn).2
  unfold updateHqc
  split
  · change s.tails.foldl (higherTail { s with hqc := (b, qc) }) b = s.pmaker.hqcTail
    have hres := foldl_higherTail (s := { s with hqc := (b, qc) }) s.tails htails b (Or.inl rfl)
    have hcheck := (checkAncestry_iff (s := { s with hqc := (b, qc) }) w hd).mpr (hchain b hb)
    have hge := foldl_higherTail_le (s := { s with hqc := (b, qc) }) s.tails b htail hcheck
    change s.height s.pmaker.hqcTail ≤
      s.height (s.tails.foldl (higherTail { s with hqc := (b, qc) }) b) at hge
    generalize s.tails.foldl (higherTail { s with hqc := (b, qc) }) b = r at hres hge ⊢
    have hrd : s.delivered r = true := by
      rcases hres with rfl | hr
      · exact hb
      · exact hr.1
    have hle := (w.ranked.anc_spec hd (hchain r hrd)).2
    exact w.ranked.anc_unique hd (hchain r hrd) (.refl _) (le_antisymm hle hge)
  · rfl

theorem OwnChain.receiveVote (C : Crypto) (I : s.OwnChain) {v : Vote} (hv : v.verify C = true) :
    (s.onReceiveVote v).1.OwnChain ∧
      (s.onReceiveVote v).1.pmaker.hqcTail = s.pmaker.hqcTail := by
  have hq : (s.step C (.receiveVote v)).Quorate := by
    refine I.quorate.handled C ⟨trivial, hv, trivial⟩ ?_
    exact exec_config C fun msg h => by cases h
  have hledger := s.onReceiveVote_ledger v
  have htree : (s.onReceiveVote v).1.tree = s.tree := congrArg Ledger.tree hledger
  have htails := s.onReceiveVote_tails v
  have htail : (s.onReceiveVote v).1.pmaker.hqcTail = s.pmaker.hqcTail := by
    obtain hsame | ⟨blk, hb, hbd, -, -, hadd⟩ := s.onReceiveVote_head v
    · exact congrArg Head.hqcTail hsame
    · have hhead := (s.addVote_head hb).2
      have hkeep : (s.addVote v).1.pmaker.hqcTail = s.pmaker.hqcTail :=
        congrArg Head.hqcTail hhead
      obtain h | ⟨qc, -, -, h⟩ := hadd
      · exact (congrArg Head.hqcTail h).trans hkeep
      · refine (congrArg Head.hqcTail h).trans (Eq.trans ?_ hkeep)
        have hatree : (s.addVote v).1.tree = s.tree := congrArg Ledger.tree (s.addVote_ledger v)
        have hatails : (s.addVote v).1.tails = s.tails := congrArg Head.tails hhead
        have hdel : ∀ x, (s.addVote v).1.delivered x = s.delivered x := by
          intro x
          unfold delivered
          rw [hatree]
        apply updateHqc_tail
        · rw [hatree]
          exact I.wf
        · rw [hdel, hkeep]
          exact hqcTail_delivered I.quorate
        · rw [hatree, hkeep]
          exact I.chain
        · intro x hx
          rw [hatails] at hx
          rw [hdel]
          exact I.quorate.leading.head.tails x hx
        · rw [hkeep, hatails]
          exact I.tail
        · rw [hdel]
          exact (Tree.delivered_of (s.tree_of_cache hb)).trans hbd
  refine ⟨⟨hq, ?_, ?_, ?_, ?_⟩, htail⟩
  · rw [htree]
    exact I.closed
  · rw [htree, htail]
    exact I.chain
  · rw [htail, htails]
    exact I.tail
  · unfold height
    rw [htree, htail, show (s.onReceiveVote v).1.vheight = s.vheight from
      congrArg Ledger.vheight hledger]
    exact I.vheight

theorem OwnChain.start (c : Setup) (hpos : 0 < c.config.nmajority) : c.start.OwnChain := by
  have hroot : ∀ h n, c.start.tree h = some n → h = b0 := by
    intro h n hn
    by_contra h0
    obtain ⟨blk, hblk, -⟩ := cache_of_tree _ hn
    rw [start_cache c h0] at hblk
    cases hblk
  refine ⟨quorate_start c hpos, ?_, ?_, List.mem_singleton_self b0, Nat.zero_le _⟩
  · intro h hd
    obtain ⟨n, hn, -⟩ := Tree.exists_of_delivered hd
    obtain rfl := hroot h n hn
    exact ⟨b0, rfl, .refl _, fun hne => absurd rfl hne⟩
  · intro h n hn
    obtain rfl := hroot h n hn
    exact ⟨rfl, .refl _⟩

theorem OwnChain.asyncQcFinish (I : s.OwnChain) (blk : Hash) :
    (s.asyncQcFinish blk).OwnChain := by
  have hq : (s.step .sample (.asyncQcFinish blk)).Quorate := by
    refine I.quorate.handled .sample ⟨trivial, trivial, trivial⟩ ?_
    exact congrArg Frame.config (s.asyncQcFinish_frame blk)
  exact I.of_same hq (asyncQcFinish_ledger s blk) (s.asyncQcFinish_head blk)

theorem OwnChain.rotate (I : s.OwnChain) : s.rotate.OwnChain := by
  refine I.of_same ?_ rfl rfl
  have q := I.quorate
  exact ⟨⟨q.leading.chained, q.leading.genesis, q.leading.head⟩, q.low, q.hqc, q.majority, q.voters,
    q.quorum⟩

theorem mem_asyncQcFinish {blk : Hash} (hd : s.delivered blk = true)
    (hlack : (s.storage.ballot blk).2.card < s.config.nmajority) :
    blk ∈ (s.asyncQcFinish blk).qcWaiting := by
  obtain ⟨n, hn, -⟩ := Tree.exists_of_delivered hd
  obtain ⟨b, hb, -⟩ := s.cache_of_tree hn
  rw [ballot_of_cache hb] at hlack
  unfold Replica.asyncQcFinish
  rw [hb]
  simp only []
  rw [if_neg (by simp only [] at hlack; omega)]
  exact List.mem_insert_self

end Replica

end AvaHotstuff
