import AvaHotstuff.TailProposals

set_option autoImplicit false

namespace AvaHotstuff
open Ancestry

inductive CacheCall where
  | op (o : Op)
  | update (nblk : Hash)

namespace Tree

def undecided (t : Tree) : Tree := fun h => (t h).map fun n => { n with decision := false }

/-- A block that has never been linked, or one that is linked to its first parent. -/
def Based (t : Tree) (n : BlockNode) : Prop :=
  (n.height = 0 ∧ n.qcRef = none) ∨
    ∃ p, n.parents.head? = some p ∧ n.body.parentHashes.head? = some p ∧ n.height = t.height p + 1

structure Sane (C : Crypto) (t : Tree) : Prop where
  hash : ∀ h n, t h = some n → h ≠ b0 → C.getHash n.body = h
  parentHashes : ∀ h n, t h = some n → h ≠ b0 → n.body.parentHashes ≠ []
  based : ∀ h n, t h = some n → h ≠ b0 → t.Based n

variable {C : Crypto} {t u : Tree}

theorem undecided_height (t : Tree) (h : Hash) : t.undecided.height h = t.height h := by
  unfold Tree.height undecided
  rw [Option.map_map]
  rfl

theorem exists_of_undecided (heq : u.undecided = t.undecided) {h : Hash} {n : BlockNode}
    (hn : u h = some n) : ∃ m, t h = some m ∧ m.body = n.body ∧ m.parents = n.parents ∧
      m.height = n.height ∧ m.qcRef = n.qcRef := by
  have hm := congrFun heq h
  unfold undecided at hm
  rw [hn] at hm
  obtain ⟨m, hm', hmn⟩ := Option.map_eq_some_iff.mp hm.symm
  injection hmn with hbody hparents hqcRef hheight
  exact ⟨m, hm', hbody, hparents, hheight, hqcRef⟩

theorem height_of_undecided (heq : u.undecided = t.undecided) (h : Hash) :
    u.height h = t.height h := by
  rw [← undecided_height, heq, undecided_height]

theorem Sane.of_undecided (S : t.Sane C) (heq : u.undecided = t.undecided) : u.Sane C := by
  refine ⟨?_, ?_, ?_⟩
  all_goals
    intro h n hn h0
    obtain ⟨m, hm, hbody, hparents, hheight, hqcRef⟩ := exists_of_undecided heq hn
  · rw [← hbody]
    exact S.hash h m hm h0
  · rw [← hbody]
    exact S.parentHashes h m hm h0
  · have hbased := S.based h m hm h0
    unfold Based at hbased ⊢
    rw [hbody, hparents, hheight, hqcRef] at hbased
    rcases hbased with hfresh | ⟨p, hp, hhead, hh⟩
    · exact Or.inl hfresh
    · refine Or.inr ⟨p, hp, hhead, ?_⟩
      rw [height_of_undecided heq]
      exact hh

/-- A block that is not delivered may be added or changed: no other one is linked to it. -/
theorem Sane.put (S : t.Sane C) (w : t.Wf) {h : Hash} {n : BlockNode}
    (hd : t.delivered h = false) (hhash : C.getHash n.body = h)
    (hne : n.body.parentHashes ≠ [])
    (hbased : (n.height = 0 ∧ n.qcRef = none) ∨ ∃ p, t.delivered p = true ∧
      n.parents.head? = some p ∧ n.body.parentHashes.head? = some p ∧
      n.height = t.height p + 1) : Tree.Sane C (Function.update t h (some n)) := by
  have hheight : ∀ p, t.delivered p = true →
      Tree.height (Function.update t h (some n)) p = t.height p := by
    intro p hp
    have hph : p ≠ h := by
      rintro rfl
      rw [hd] at hp
      cases hp
    unfold Tree.height
    rw [Function.update_of_ne hph]
  have hcases : ∀ x m, Function.update t h (some n) x = some m →
      (x = h ∧ m = n) ∨ t x = some m := by
    intro x m hm
    by_cases hx : x = h
    · subst x
      rw [Function.update_self] at hm
      exact Or.inl ⟨rfl, (Option.some.inj hm).symm⟩
    · rw [Function.update_of_ne hx] at hm
      exact Or.inr hm
  refine ⟨?_, ?_, ?_⟩
  all_goals
    intro x m hm h0
    rcases hcases x m hm with ⟨rfl, rfl⟩ | hold
  · exact hhash
  · exact S.hash x m hold h0
  · exact hne
  · exact S.parentHashes x m hold h0
  · rcases hbased with hfresh | ⟨p, hp, hhead, hbody, hh⟩
    · exact Or.inl hfresh
    · refine Or.inr ⟨p, hhead, hbody, ?_⟩
      rw [hheight p hp]
      exact hh
  · rcases S.based x m hold h0 with hfresh | ⟨p, hhead, hbody, hh⟩
    · exact Or.inl hfresh
    · refine Or.inr ⟨p, hhead, hbody, ?_⟩
      rw [hheight p (w.parents x m hold p (List.mem_of_head? hhead))]
      exact hh

theorem Sane.walk_total (S : t.Sane C) (w : t.Wf) (bound : ℕ) (b : Hash) :
    ∃ q e, walk t.parent0 t.height bound (t.height b) b = some (q, e) := by
  by_cases hle : t.height b ≤ bound
  · exact ⟨[], b, walk_stop hle⟩
  have hpos : 0 < t.height b := by omega
  have hb0 : b ≠ b0 := by
    rintro rfl
    rw [w.height_genesis] at hpos
    omega
  cases hn : t b with
  | none =>
    unfold Tree.height at hpos
    rw [hn] at hpos
    exact absurd hpos (Nat.lt_irrefl 0)
  | some n =>
    rw [height_of hn] at hpos
    obtain ⟨h0, -⟩ | ⟨p, hp, -, hh⟩ := S.based b n hn hb0
    · omega
    have hpd := w.parents b n hn p (List.mem_of_head? hp)
    obtain ⟨q, e, hw⟩ := @Ranked.walk_total _ _ _ _ _ w.ranked bound (t.height p) p hpd (by omega)
    refine ⟨b :: q, e, ?_⟩
    have hheight : t.height b = t.height p + 1 := (height_of hn).trans hh
    rw [hheight]
    unfold walk
    rw [if_neg hle, parent0_of hn, hp, Option.bind_some, hw]
    rfl

end Tree

namespace Replica
variable {C : Crypto} {s : Replica}

def callOutcome (C : Crypto) (s : Replica) : CacheCall → Outcome
  | .op o => s.exec C o
  | .update nblk => s.update nblk

def call (C : Crypto) (s : Replica) (c : CacheCall) : Replica := (s.callOutcome C c).1

/-- Blocks of messages name a parent, and own blocks are made on delivered ones. -/
def Parented (s : Replica) : CacheCall → Prop
  | .op (.addBlk body) => body.parentHashes ≠ []
  | .op (.propose _ _ _ parents _) => ∀ p ∈ parents, s.delivered p = true
  | _ => True

theorem commitBlk_undecided (h : Hash) : (s.commitBlk h).tree.undecided = s.tree.undecided := by
  have hdec : (s.modifyBlk h fun b => { b with decision := true }).tree.undecided =
      s.tree.undecided := by
    have htree := s.tree_modifyBlk h (fun b => { b with decision := true })
      (fun n => { n with decision := true }) fun _ => rfl
    rw [htree]
    funext x
    unfold Tree.undecided
    by_cases hx : x = h
    · subst x
      rw [Function.update_self, Option.map_map]
      rfl
    · rw [Function.update_of_ne hx]
  have hnotify : (((s.modifyBlk h fun b => { b with decision := true }).emit
      (.consensus h)).notifyOtherClusters h).tree =
        (s.modifyBlk h fun b => { b with decision := true }).tree := by
    have hledger := notifyOtherClusters_ledger ((s.modifyBlk h fun b =>
      { b with decision := true }).emit (.consensus h)) h
    exact congrArg Ledger.tree hledger
  rw [← hdec, ← hnotify]
  unfold commitBlk
  simp only []
  generalize ((s.modifyBlk h fun b => { b with decision := true }).emit
      (.consensus h)).notifyOtherClusters h = u
  split
  · exact congrArg (fun L => Tree.undecided (Ledger.tree L)) (executeBlk_ledger _ h)
  · rfl

theorem foldl_commitBlk_undecided (q : List Hash) (s : Replica) :
    (q.foldl commitBlk s).tree.undecided = s.tree.undecided := by
  induction q generalizing s with
  | nil => rfl
  | cons b q ih => rw [List.foldl_cons, ih, commitBlk_undecided]

theorem commit_undecided (h : Hash) : (s.commit h).1.tree.undecided = s.tree.undecided := by
  unfold commit
  split
  · rfl
  split
  · rfl
  · rename_i q _ _ _
    exact foldl_commitBlk_undecided q.reverse s

theorem updateExec_undecided (blk2 blk1 : Hash) :
    (s.updateExec blk2 blk1).1.tree.undecided = s.tree.undecided := by
  unfold updateExec
  repeat' split
  all_goals first | rfl | exact s.commit_undecided _

theorem update_undecided (nblk : Hash) :
    (s.update nblk).1.tree.undecided = s.tree.undecided := by
  have hhqc : ∀ (b : Hash) (qc : QuorumCert), (s.updateHqc b qc).tree = s.tree :=
    fun b qc => congrArg Ledger.tree (updateHqc_ledger s b qc)
  have hlock : ∀ (u : Replica) (b : Hash), (u.updateLock b).tree = u.tree := by
    intro u b
    unfold updateLock
    split <;> rfl
  unfold update
  refine @Outcome.andThen_keeps _ (fun u => u.tree.undecided) _ _ _ ?_ fun u hu => hu
  unfold updateChain
  split
  · rfl
  split
  · rfl
  split
  · rfl
  simp only []
  split
  · rw [hhqc]
  split
  · rw [hhqc]
  · rw [updateExec_undecided, hlock, hhqc]

theorem onReceiveProposal_undecided (C : Crypto) (proposer : ReplicaID) (bnew : Hash) :
    (s.onReceiveProposal C proposer bnew).1.tree.undecided = s.tree.undecided := by
  unfold onReceiveProposal
  split
  · rw [judgeProposal_tree]
  split
  · rfl
  · refine @Outcome.andThen_keeps _ (fun u => u.tree.undecided) _ _ _ (update_undecided bnew) ?_
    intro u hu
    rw [judgeProposal_tree]
    exact hu

theorem onDeliverBlk_put (h : Hash) : (s.onDeliverBlk h).1.tree = s.tree ∨
    ∃ m n, s.tree h = some m ∧ m.delivered = false ∧
      (s.onDeliverBlk h).1.tree = Function.update s.tree h (some n) ∧ n.body = m.body ∧
      ((n.parents = m.body.parentHashes.takeWhile s.delivered ∧ n.height = m.height ∧
          n.qcRef = m.qcRef) ∨
        ∃ p, s.delivered p = true ∧ n.parents.head? = some p ∧
          m.body.parentHashes.head? = some p ∧ n.height = s.height p + 1) := by
  have hdelivery := s.delivery h
  generalize s.onDeliverBlk h = r at hdelivery ⊢
  cases hdelivery with
  | absent | again => exact Or.inl rfl
  | unparented hb hd hp =>
    refine Or.inr ⟨_, _, s.tree_of_cache hb, hd, linked_tree hb _ _, rfl, Or.inl ⟨?_, rfl, rfl⟩⟩
    rw [hp]
    rfl
  | orphan hb hd hp =>
    exact Or.inr ⟨_, _, s.tree_of_cache hb, hd, linked_tree hb _ _, rfl, Or.inl ⟨rfl, rfl, rfl⟩⟩
  | @uncertified blk p hb hd hhead hp hq =>
    have hpd := hp p (List.mem_of_head? hhead)
    exact Or.inr ⟨_, _, s.tree_of_cache hb, hd, linked_tree hb _ _, rfl,
      Or.inr ⟨p, hpd, hhead, hhead, rfl⟩⟩
  | @done blk p hb hd hhead hp hq =>
    have hpd := hp p (List.mem_of_head? hhead)
    exact Or.inr ⟨_, _, s.tree_of_cache hb, hd, congrArg Ledger.tree (markLinked_ledger hb _ _),
      rfl,
      Or.inr ⟨p, hpd, hhead, hhead, rfl⟩⟩

theorem onDeliverBlk_sane (S : s.tree.Sane C) (w : s.tree.Wf) (h : Hash) :
    (s.onDeliverBlk h).1.tree.Sane C := by
  rcases s.onDeliverBlk_put h with hsame | ⟨m, n, hm, hd, htree, hbody, hcases⟩
  · rw [hsame]
    exact S
  · have h0 : h ≠ b0 := by
      rintro rfl
      have hgen := w.genesis_delivered
      rw [Tree.delivered_of hm, hd] at hgen
      cases hgen
    rw [htree]
    refine S.put w ((Tree.delivered_of hm).trans hd) ?_ ?_ ?_
    · rw [hbody]
      exact S.hash h m hm h0
    · rw [hbody]
      exact S.parentHashes h m hm h0
    · rcases hcases with ⟨hparents, hheight, hqc⟩ | ⟨p, hpd, hp, hhead, hh⟩
      · rcases S.based h m hm h0 with ⟨hzero, hnone⟩ | ⟨p, hp, hhead, hh⟩
        · exact Or.inl ⟨hheight.trans hzero, hqc.trans hnone⟩
        · -- the first parent is delivered, so it is found again
          have hpd := w.parents h m hm p (List.mem_of_head? hp)
          refine Or.inr ⟨p, hpd, ?_, ?_, hheight.trans hh⟩
          · rw [hparents, List.head?_takeWhile, hhead]
            exact Option.filter_some_pos hpd
          · rw [hbody]
            exact hhead
      · refine Or.inr ⟨p, hpd, hp, ?_, hh⟩
        rw [hbody]
        exact hhead

theorem addBlk_stored (h : Hash) (b : Block) : ((s.addBlk h b).tree h).isSome = true := by
  unfold addBlk EntityStorage.addBlk tree
  cases hb : s.storage.blkCache h with
  | some b' => simp [hb]
  | none => simp

theorem addBlk_sane (S : s.tree.Sane C) (w : s.tree.Wf) {body : Body}
    (hne : body.parentHashes ≠ []) :
    (s.addBlk (C.getHash body) (.parsed body)).tree.Sane C := by
  rcases s.addBlk_tree (C.getHash body) (.parsed body) with hsame | ⟨hnone, htree⟩
  · rw [hsame]
    exact S
  · rw [htree]
    have hd : s.tree.delivered (C.getHash body) = false := by
      unfold Tree.delivered
      rw [hnone]
      rfl
    exact S.put w hd rfl hne (Or.inl ⟨rfl, rfl⟩)

theorem storeProposal_sane (S : s.tree.Sane C) (w : s.tree.Wf) (cmds : List Hash)
    (keys vals : List ℤ) {parents : List Hash} (extra : List UInt8) {p : Hash}
    (hp : parents.head? = some p) (hd : ∀ x ∈ parents, s.delivered x = true) :
    let b := s.newBlock cmds keys vals parents p extra
    (s.storeProposal (C.getHash b.body) b parents).tree.Sane C ∧
      (s.storeProposal (C.getHash b.body) b parents).tree.Wf := by
  intro b
  have hself : (s.storeProposal (C.getHash b.body) b parents).tree =
      (s.addBlk (C.getHash b.body) b).tree :=
    tree_modifyBlk_same _ _ _ fun _ => rfl
  rw [hself]
  rcases s.addBlk_tree (C.getHash b.body) b with hsame | ⟨hnone, htree⟩
  · rw [hsame]
    exact ⟨S, w⟩
  · have hfresh : s.tree.delivered (C.getHash b.body) = false := by
      unfold Tree.delivered
      rw [hnone]
      rfl
    rw [htree]
    constructor
    · refine S.put w hfresh rfl ?_ (Or.inr ⟨p, hd p (List.mem_of_head? hp), hp, hp, rfl⟩)
      exact List.ne_nil_of_mem (List.mem_of_head? hp)
    · refine w.update (.update_fresh ?_ hfresh) hd ?_
      · intro m hm
        rw [hnone] at hm
        cases hm
      · intro hdel
        cases hdel

theorem parent0_of_qcRef (S : s.tree.Sane C) {h q : Hash} (hq : s.qcRef h = some q)
    (h0 : h ≠ b0) : ∃ p, s.parent0 h = some p := by
  obtain ⟨n, hn, hnq⟩ := Option.bind_eq_some_iff.mp hq
  rcases S.based h n hn h0 with ⟨-, hnone⟩ | ⟨p, hp, -⟩
  · rw [hnone] at hnq
    cases hnq
  · exact ⟨p, (Tree.parent0_of hn).trans hp⟩

theorem commit_defined (S : s.tree.Sane C) (w : s.tree.Wf) (blk : Hash) :
    (s.commit blk).2 ≠ some .undefined := by
  obtain ⟨q, e, hw⟩ : ∃ q e, s.walk (s.height s.bExec) blk = some (q, e) := S.walk_total w _ blk
  unfold commit
  rw [hw]
  simp only []
  split
  · exact fun h => by cases h
  · exact fun h => by cases h

theorem updateExec_defined (S : s.tree.Sane C) (w : s.tree.Wf) {blk2 blk1 : Hash}
    (h2 : blk2 ≠ b0) (hq : s.qcRef blk2 = some blk1) (h1 : blk1 ≠ b0) :
    (s.updateExec blk2 blk1).2 ≠ some .undefined := by
  obtain ⟨p2, hp2⟩ := parent0_of_qcRef S hq h2
  unfold updateExec
  cases hq1 : s.qcRef blk1 with
  | none => exact fun h => by cases h
  | some blk =>
    obtain ⟨p1, hp1⟩ := parent0_of_qcRef S hq1 h1
    simp only [hp2, hp1]
    split
    · exact fun h => by cases h
    split
    · exact fun h => by cases h
    split
    · exact fun h => by cases h
    · exact commit_defined S w blk

theorem update_defined (S : s.tree.Sane C) (c : s.ledger.Chained) {nblk : Hash}
    (hs : (s.tree nblk).isSome = true) : (s.update nblk).2 ≠ some .undefined := by
  have hroot : s.decided b0 = true := (c.decided b0).mpr (Or.inl rfl)
  have hne : ∀ x, ¬s.decided x = true → x ≠ b0 := by
    rintro x hx rfl
    exact hx hroot
  obtain ⟨m, hm⟩ := Option.isSome_iff_exists.mp hs
  obtain ⟨n, hn, -⟩ := s.cache_of_tree hm
  have hchain : (s.updateChain nblk).2 ≠ some .undefined := by
    unfold updateChain
    rw [hn]
    simp only []
    split
    · exact fun h => by cases h
    rename_i blk2 _
    split
    · exact fun h => by cases h
    rename_i h2
    have htree : (s.updateHqc blk2 n.body.qc).tree = s.tree :=
      congrArg Ledger.tree (updateHqc_ledger s blk2 n.body.qc)
    generalize s.updateHqc blk2 n.body.qc = u at htree ⊢
    split
    · exact fun h => by cases h
    rename_i blk1 hq
    split
    · exact fun h => by cases h
    rename_i h1
    have hlock : (u.updateLock blk1).tree = s.tree := by
      unfold updateLock
      split
      · exact htree
      · exact htree
    have hdec : u.decided blk1 = s.decided blk1 := congrArg (fun t => Tree.decided t blk1) htree
    rw [hdec] at h1
    refine updateExec_defined (C := C) ?_ ?_ (hne blk2 h2) ?_ (hne blk1 h1)
    · rw [hlock]
      exact S
    · rw [hlock]
      exact c.wf
    · refine Eq.trans ?_ hq
      exact congrArg (fun t => Tree.qcRef t blk2) (hlock.trans htree.symm)
  unfold update
  generalize s.updateChain nblk = r at hchain ⊢
  obtain ⟨u, none | e⟩ := r
  · exact fun h => by cases h
  · exact hchain

theorem onReceiveVote_defined (v : Vote) : (s.onReceiveVote v).2 ≠ some .undefined := by
  have hpoll := s.polling v
  generalize s.onReceiveVote v = r at hpoll
  cases hpoll <;> exact fun h => by cases h

theorem doVote_defined (C : Crypto) (blk : Hash) : (s.doVote C blk).2 ≠ some .undefined := by
  unfold doVote
  simp only []
  split
  · exact onReceiveVote_defined _
  · exact fun h => by cases h

theorem judgeProposal_defined (S : s.tree.Sane C) (w : s.tree.Wf) (selfProp : Bool)
    (bnew : Hash) : (s.judgeProposal C selfProp bnew).2 ≠ some .undefined := by
  have hop : ∃ o, s.opinion bnew = some o := by
    obtain ⟨q, e, hw⟩ : ∃ q e, s.walk (s.height s.bLock) bnew = some (q, e) :=
      S.walk_total w _ bnew
    unfold opinion
    rw [hw]
    split
    · split
      · exact ⟨_, rfl⟩
      · exact ⟨_, rfl⟩
    · exact ⟨_, rfl⟩
  obtain ⟨o, ho⟩ := hop
  have hjudge := s.judgement C selfProp bnew
  generalize s.judgeProposal C selfProp bnew = r at hjudge
  cases hjudge with
  | undefined hnone =>
    rw [ho] at hnone
    cases hnone
  | silent => exact fun h => by cases h
  | vote => exact doVote_defined C bnew

theorem onReceiveProposal_defined (S : s.tree.Sane C) (c : s.ledger.Chained)
    (proposer : ReplicaID) {bnew : Hash} (hs : (s.tree bnew).isSome = true) :
    (s.onReceiveProposal C proposer bnew).2 ≠ some .undefined := by
  unfold onReceiveProposal
  split
  · exact judgeProposal_defined S c.wf true bnew
  split
  · exact fun h => by cases h
  · have hupdate := update_defined S c hs
    have S' := S.of_undecided (update_undecided (s := s) bnew)
    have w' := (update_ledger (G := Ledger.Guard.any) c.wf bnew).wf c.wf
    generalize s.update bnew = r at hupdate S' w' ⊢
    obtain ⟨u, none | e⟩ := r
    · exact judgeProposal_defined S' w' false bnew
    · exact hupdate

theorem finishProposal_defined (S : s.tree.Sane C) (w : s.tree.Wf) (bnew : Hash) :
    (s.finishProposal C bnew).2 ≠ some .undefined := by
  unfold finishProposal
  split
  · exact fun h => by cases h
  unfold onReceiveProposal
  rw [if_pos rfl]
  have hjudge := judgeProposal_defined S w true bnew
  generalize s.judgeProposal C true bnew = r at hjudge ⊢
  obtain ⟨u, none | e⟩ := r
  · exact fun h => by cases h
  · exact hjudge

theorem onDeliverBlk_defined {h : Hash} {n : BlockNode} (hn : s.tree h = some n)
    (hne : n.delivered = false → n.body.parentHashes ≠ []) :
    (s.onDeliverBlk h).2 ≠ .error .undefined := by
  obtain ⟨blk, hblk, rfl⟩ := s.cache_of_tree hn
  have hdelivery := s.delivery h
  generalize s.onDeliverBlk h = r at hdelivery
  cases hdelivery with
  | absent hb =>
    rw [hblk] at hb
    cases hb
  | unparented hb hd hp =>
    obtain rfl : blk = _ := Option.some.inj (hblk.symm.trans hb)
    exact absurd hp (hne hd)
  | again | orphan | uncertified | done => exact fun h => by cases h

theorem onPropose_spec (S : s.tree.Sane C) (c : s.ledger.Chained) (cmds : List Hash)
    (keys vals : List ℤ) {parents : List Hash} (extra : List UInt8)
    (hd : ∀ x ∈ parents, s.delivered x = true) :
    (s.onPropose C cmds keys vals parents extra).1.tree.Sane C ∧
      (s.onPropose C cmds keys vals parents extra).2 ≠ some .undefined := by
  unfold onPropose
  split
  · exact ⟨S, fun h => by cases h⟩
  rename_i p hp
  simp only []
  obtain ⟨S₁, w₁⟩ := storeProposal_sane S c.wf cmds keys vals extra hp hd
  have hsteps := storeProposal_steps (G := Ledger.Guard.any) (s := s)
    (C.getHash (s.newBlock cmds keys vals parents p extra).body)
    (b := s.newBlock cmds keys vals parents p extra) rfl rfl parents trivial trivial
  have c₂ := hsteps.invariant c fun _ _ hstep => hstep.chained
  have hstored : ((s.storeProposal (C.getHash (s.newBlock cmds keys vals parents p extra).body)
      (s.newBlock cmds keys vals parents p extra) parents).tree
        (C.getHash (s.newBlock cmds keys vals parents p extra).body)).isSome = true := by
    rw [show (s.storeProposal (C.getHash (s.newBlock cmds keys vals parents p extra).body)
      (s.newBlock cmds keys vals parents p extra) parents).tree = _ from
        tree_modifyBlk_same _ _ _ fun _ => rfl]
    exact addBlk_stored _ _
  generalize C.getHash (s.newBlock cmds keys vals parents p extra).body = h at S₁ w₁ c₂ hstored ⊢
  generalize s.storeProposal h (s.newBlock cmds keys vals parents p extra) parents = u₁
    at S₁ w₁ c₂ hstored ⊢
  have S₂ := onDeliverBlk_sane S₁ w₁ h
  have hdefined : (u₁.onDeliverBlk h).2 ≠ .error .undefined := by
    obtain ⟨n, hn⟩ := Option.isSome_iff_exists.mp hstored
    refine onDeliverBlk_defined hn ?_
    intro hnd
    refine S₁.parentHashes h n hn ?_
    rintro rfl
    have hgen := w₁.genesis_delivered
    rw [Tree.delivered_of hn, hnd] at hgen
    cases hgen
  generalize hr : u₁.onDeliverBlk h = r at S₂ c₂ hdefined ⊢
  obtain ⟨u₂, e | val⟩ := r
  · refine ⟨S₂, ?_⟩
    intro he
    cases he
    exact hdefined rfl
  · have hdel := onDeliverBlk_ok hr
    have hin : (u₂.tree h).isSome = true := by
      obtain ⟨n, hn, -⟩ := Tree.exists_of_delivered hdel
      rw [hn]
      rfl
    have hupdate := update_defined S₂ c₂ hin
    have S₃ := S₂.of_undecided (update_undecided (s := u₂) h)
    have w₃ := (update_ledger (G := Ledger.Guard.any) c₂.wf h).wf c₂.wf
    simp only []
    generalize u₂.update h = r at hupdate S₃ w₃ ⊢
    obtain ⟨u₃, none | e⟩ := r
    · refine ⟨?_, finishProposal_defined S₃ w₃ h⟩
      rw [Outcome.andThen_return, finishProposal_tree]
      exact S₃
    · exact ⟨S₃, hupdate⟩

theorem call_steps (w : s.tree.Wf) (a : CacheCall) :
    ∃ G, Ledger.Steps G s.ledger (s.call C a).ledger := by
  cases a with
  | op o => exact ⟨_, exec_steps C w o⟩
  | update nblk => exact ⟨Ledger.Guard.any, update_ledger w nblk⟩

theorem call_chained (c : s.ledger.Chained) (a : CacheCall) :
    (s.call C a).ledger.Chained ∧ Tree.Grows s.tree (s.call C a).tree := by
  obtain ⟨G, hsteps⟩ := call_steps (C := C) c.wf a
  exact ⟨hsteps.invariant c fun _ _ hstep => hstep.chained, hsteps.grows⟩

theorem exec_sane (S : s.tree.Sane C) (c : s.ledger.Chained) {o : Op} (ho : s.Parented (.op o)) :
    (s.exec C o).1.tree.Sane C := by
  cases hon : o.onHead with
  | false =>
    have htree : (s.exec C o).1.tree = s.tree := congrArg Prod.fst (s.exec_marks C hon)
    rw [htree]
    exact S
  | true =>
    cases o with
    | addBlk body => exact addBlk_sane S c.wf ho
    | deliverBlk blk =>
      change (s.deliverOutcome blk).1.tree.Sane C
      rw [deliverOutcome_fst]
      exact onDeliverBlk_sane S c.wf blk
    | receiveProposal proposer blk =>
      exact S.of_undecided (onReceiveProposal_undecided C proposer blk)
    | receiveVote v =>
      have htree : (s.onReceiveVote v).1.tree = s.tree :=
        congrArg Ledger.tree (s.onReceiveVote_ledger v)
      change (s.onReceiveVote v).1.tree.Sane C
      rw [htree]
      exact S
    | propose cmds keys vals parents extra =>
      exact (onPropose_spec S c cmds keys vals extra ho).1
    | _ => cases hon

structure CacheOk (C : Crypto) (s : Replica) : Prop where
  chained : s.ledger.Chained
  sane : s.tree.Sane C

theorem CacheOk.call (I : s.CacheOk C) {a : CacheCall} (ha : s.Parented a) :
    (s.call C a).CacheOk C := by
  refine ⟨(call_chained I.chained a).1, ?_⟩
  cases a with
  | op o => exact exec_sane I.sane I.chained ha
  | update nblk => exact I.sane.of_undecided (update_undecided nblk)

theorem CacheOk.start (C : Crypto) (c : Setup) : c.start.CacheOk C := by
  have hroot : ∀ h n, c.start.tree h = some n → h ≠ b0 → False := by
    intro h n hn h0
    obtain ⟨blk, hblk, -⟩ := cache_of_tree _ hn
    rw [start_cache c h0] at hblk
    cases hblk
  refine ⟨c.start_chained, ?_, ?_, ?_⟩
  · exact fun h n hn h0 => (hroot h n hn h0).elim
  · exact fun h n hn h0 => (hroot h n hn h0).elim
  · exact fun h n hn h0 => (hroot h n hn h0).elim

theorem grows_of_reach {u : Replica} (hs : s.CacheOk C)
    (h : Runs.Reach (fun s a => s.Parented a) (call C) s u) :
    u.CacheOk C ∧ Tree.Grows s.tree u.tree := by
  refine h.invariant (fun u => u.CacheOk C ∧ Tree.Grows s.tree u.tree) ⟨hs, .refl _⟩ ?_
  rintro v a ⟨I, g⟩ ha
  exact ⟨I.call ha, g.trans (call_chained I.chained a).2⟩

/-- The block `k` steps up the first parents. -/
def ancestor (s : Replica) (k : ℕ) (h : Hash) : Option Hash :=
  (fun o : Option Hash => o.bind s.parent0)^[k] (some h)

theorem ancestor_succ (k : ℕ) (h : Hash) :
    s.ancestor (k + 1) h = (s.ancestor k h).bind s.parent0 :=
  Function.iterate_succ_apply' ..

theorem ancestor_spec (w : s.tree.Wf) {h : Hash} (hd : s.delivered h = true) (k : ℕ) :
    (k ≤ s.height h → ∃ x, s.ancestor k h = some x ∧ s.delivered x = true ∧
      s.height x + k = s.height h) ∧ (s.height h < k → s.ancestor k h = none) := by
  induction k with
  | zero => exact ⟨fun _ => ⟨h, rfl, hd, rfl⟩, fun hk => absurd hk (Nat.not_lt_zero _)⟩
  | succ k ih =>
    rw [ancestor_succ]
    constructor
    · intro hk
      obtain ⟨x, hx, hxd, hxh⟩ := ih.1 (by omega)
      have hx0 : x ≠ b0 := by
        rintro rfl
        have hzero : s.height b0 = 0 := w.height_genesis
        omega
      obtain ⟨p, hp, hpd, hph⟩ := w.ranked.up x hxd hx0
      refine ⟨p, ?_, hpd, ?_⟩
      · rw [hx]
        exact hp
      · have hstep : s.height x = s.height p + 1 := hph
        omega
    · intro hk
      by_cases hlt : s.height h < k
      · rw [ih.2 hlt]
        rfl
      · obtain ⟨x, hx, hxd, hxh⟩ := ih.1 (by omega)
        have hx0 : x = b0 := w.ranked.eq_root hxd (by change s.height x = 0; omega)
        rw [hx, hx0]
        exact w.ranked.root_top

theorem ancestor_genesis_iff (w : s.tree.Wf) {h : Hash} (hd : s.delivered h = true) (k : ℕ) :
    s.ancestor k h = some b0 ↔ k = s.height h := by
  obtain ⟨hle, hgt⟩ := ancestor_spec w hd k
  have hzero : s.height b0 = 0 := w.height_genesis
  constructor
  · intro hroot
    by_cases hk : k ≤ s.height h
    · obtain ⟨x, hx, -, hxh⟩ := hle hk
      rw [hroot] at hx
      cases hx
      omega
    · rw [hgt (by omega)] at hroot
      cases hroot
  · intro hk
    obtain ⟨x, hx, hxd, hxh⟩ := hle (Nat.le_of_eq hk)
    have hx0 : x = b0 := w.ranked.eq_root hxd (by change s.height x = 0; omega)
    rw [hx, hx0]

structure DeliveredTree (s : Replica) : Prop where
  parents : ∀ h blk, s.storage.blkCache h = some blk → blk.delivered = true → h ≠ b0 →
    blk.parents = blk.body.parentHashes ∧ (∀ p ∈ blk.parents, s.delivered p = true) ∧
      ∃ p, blk.parents.head? = some p ∧ blk.height = s.height p + 1
  qcRef : ∀ h blk, s.storage.blkCache h = some blk → blk.delivered = true → h ≠ b0 →
    ∃ q, blk.qcRef = some q ∧ (s.storage.blkCache q).isSome = true
  genesis : ∀ h, s.delivered h = true → ∀ k, s.ancestor k h = some b0 ↔ k = s.height h
  walksDelivered : ∀ bound h, s.delivered h = true → (s.walk bound h).isSome = true

/-- The block tree of one state. -/
structure TreeInvariant (C : Crypto) (s : Replica) : Prop extends DeliveredTree s where
  ownHash : ∀ h blk, s.storage.blkCache h = some blk → h ≠ b0 → C.getHash blk.body = h
  walks : ∀ bound h, (s.walk bound h).isSome = true
  update : ∀ nblk, (s.storage.blkCache nblk).isSome = true → (s.update nblk).2 ≠ some .undefined
  receiveProposal : ∀ proposer blk, (s.storage.blkCache blk).isSome = true →
    (s.onReceiveProposal C proposer blk).2 ≠ some .undefined
  propose : ∀ cmds keys vals parents extra, (∀ p ∈ parents, s.delivered p = true) →
    (s.onPropose C cmds keys vals parents extra).2 ≠ some .undefined

/-- No block of the cache is replaced, and the links of a delivered one stay. -/
def Retained (s u : Replica) : Prop :=
  ∀ h blk, s.storage.blkCache h = some blk → ∃ blk', u.storage.blkCache h = some blk' ∧
    blk'.body = blk.body ∧ (blk.delivered = true → blk'.delivered = true ∧
      blk'.parents = blk.parents ∧ blk'.height = blk.height ∧ blk'.qcRef = blk.qcRef)

theorem deliveredTree (w : s.tree.Wf) : s.DeliveredTree := by
  refine ⟨?_, ?_, fun h hd k => ancestor_genesis_iff w hd k, ?_⟩
  · intro h blk hblk hd h0
    have hlinked := w.linked h _ (s.tree_of_cache hblk) hd h0
    exact ⟨hlinked.parents, w.parents h _ (s.tree_of_cache hblk), hlinked.height⟩
  · intro h blk hblk hd h0
    have hlinked := w.linked h _ (s.tree_of_cache hblk) hd h0
    refine ⟨_, hlinked.qcRef, ?_⟩
    have hq := hlinked.qcStored
    unfold tree at hq
    rwa [Option.isSome_map] at hq
  · intro bound h hd
    obtain ⟨q, e, hw⟩ := walk_total w hd bound
    rw [hw]
    rfl

theorem CacheOk.invariant (I : s.CacheOk C) : s.TreeInvariant C := by
  have w : s.tree.Wf := I.chained.wf
  have hstored : ∀ h, (s.storage.blkCache h).isSome = true → (s.tree h).isSome = true := by
    intro h hs
    unfold tree
    rw [Option.isSome_map]
    exact hs
  refine ⟨deliveredTree w, ?_, ?_, ?_, ?_, ?_⟩
  · intro h blk hblk h0
    exact I.sane.hash h _ (s.tree_of_cache hblk) h0
  · intro bound h
    obtain ⟨q, e, hw⟩ : ∃ q e, s.walk bound h = some (q, e) := I.sane.walk_total w bound h
    rw [hw]
    rfl
  · exact fun nblk hs => update_defined I.sane I.chained (hstored nblk hs)
  · exact fun proposer blk hs =>
      onReceiveProposal_defined I.sane I.chained proposer (hstored blk hs)
  · exact fun cmds keys vals parents extra hd =>
      (onPropose_spec I.sane I.chained cmds keys vals extra hd).2

theorem retained_of_grows {u : Replica} (g : Tree.Grows s.tree u.tree) : s.Retained u := by
  intro h blk hblk
  obtain ⟨n, hn, hbody, hkeep⟩ := g.keep h _ (s.tree_of_cache hblk)
  obtain ⟨blk', hblk', rfl⟩ := u.cache_of_tree hn
  exact ⟨blk', hblk', hbody, hkeep⟩

theorem chained_of_reach {u : Replica} (hs : s.ledger.Chained)
    (h : Runs.Reach (fun _ _ => True) (call C) s u) :
    u.ledger.Chained ∧ Tree.Grows s.tree u.tree := by
  refine h.invariant (fun u => u.ledger.Chained ∧ Tree.Grows s.tree u.tree) ⟨hs, .refl _⟩ ?_
  rintro v a ⟨hv, g⟩ -
  obtain ⟨hv', g'⟩ := call_chained (C := C) hv a
  exact ⟨hv', g.trans g'⟩

/-- Whatever the calls bring in, the delivered blocks form a tree that stays. -/
theorem delivered_tree (C : Crypto) (c : Setup) {s : Replica}
    (h : Runs.Reach (fun _ _ => True) (call C) c.start s) :
    s.DeliveredTree ∧ ∀ u, Runs.Reach (fun _ _ => True) (call C) s u → s.Retained u := by
  obtain ⟨hc, -⟩ := chained_of_reach c.start_chained h
  exact ⟨deliveredTree hc.wf, fun u hu => retained_of_grows (chained_of_reach hc hu).2⟩

/-- In every state that calls on the core lead to, the blocks form a tree over genesis in
which no walk reads a parent that is not there; later calls keep its blocks and links. What is
asked of the calls serves the blocks that are not delivered: an own block on an undelivered parent
would be left in the cache with a height and without parents. -/
theorem block_tree (C : Crypto) (c : Setup) {s : Replica}
    (h : Runs.Reach (fun s a => s.Parented a) (call C) c.start s) :
    s.TreeInvariant C ∧
      ∀ u, Runs.Reach (fun s a => s.Parented a) (call C) s u → s.Retained u := by
  obtain ⟨I, -⟩ := grows_of_reach (.start C c) h
  refine ⟨I.invariant, ?_⟩
  intro u hu
  exact retained_of_grows (grows_of_reach I hu).2

/-- A block is fetched and delivered, and the replica proposes one on it. -/
def twoBlocks : List CacheCall :=
  [.op (.addBlk (.sample b0 b0 7 [])), .op (.deliverBlk 1), .update 1,
    .op (.propose [8] [1] [2] [1] [])]

instance (s : Replica) : (a : CacheCall) → Decidable (s.Parented a)
  | .op (.addBlk body) => inferInstanceAs (Decidable (body.parentHashes ≠ []))
  | .op (.propose _ _ _ parents _) => inferInstanceAs (Decidable (∀ p ∈ parents, _))
  | .update _ | .op (.deliverBlk _) | .op (.receiveProposal ..) | .op (.receiveVote _)
  | .op (.receiveMcLocal ..) | .op (.relayMc ..) | .op (.remoteViewChangeTimeout _)
  | .op (.receiveLComplain _) | .op (.receiveRComplain ..) | .op (.msgRecs _)
  | .op (.sendReconfigAck ..) | .op (.msgRecsAggEchoReady _) | .op (.asyncQcFinish _)
  | .op (.waitDecision ..) => inferInstanceAs (Decidable True)

theorem block_tree_two :
    (Runs.run (call .sample) (Setup.four 0).start twoBlocks).delivered 3 = true ∧
      (Runs.run (call .sample) (Setup.four 0).start twoBlocks).TreeInvariant .sample := by
  refine ⟨by decide +kernel, ?_⟩
  refine (block_tree .sample (.four 0) (Runs.reach_run _ .init ?_)).1
  decide +kernel

/-- What the two loops that follow first parents find out in one state. -/
structure WalksDecide (s : Replica) : Prop where
  checkAncestry : ∀ a b, s.delivered a = true → s.delivered b = true →
    (s.walk (s.height a) b).isSome = true ∧ (s.checkAncestry a b = true ↔ Anc s.parent0 a b)
  /-- A block that is above `vheight` and whose certificate is not above the lock. -/
  opinion : ∀ bnew, s.delivered bnew = true → s.vheight < s.height bnew →
    (∀ q, s.qcRef bnew = some q → s.height q ≤ s.height s.bLock) →
    ∃ opinion, s.opinion bnew = some opinion ∧ (opinion = true ↔ Anc s.parent0 s.bLock bnew)

/-- The lock need not be delivered: the chain of a delivered block has only delivered ones. -/
theorem opinion_of_walk (w : s.tree.Wf) {bnew : Hash} (hd : s.delivered bnew = true)
    (hv : s.vheight < s.height bnew)
    (hq : ∀ q, s.qcRef bnew = some q → s.height q ≤ s.height s.bLock) :
    ∃ opinion, s.opinion bnew = some opinion ∧ (opinion = true ↔ Anc s.parent0 s.bLock bnew) := by
  obtain ⟨visited, e, hw⟩ := walk_total w hd (s.height s.bLock)
  have hany : ((s.qcRef bnew).any fun q => decide (s.height q > s.height s.bLock)) = false := by
    cases hqc : s.qcRef bnew with
    | none => rfl
    | some q => simpa using hq q hqc
  refine ⟨decide (e = s.bLock), ?_, ?_⟩
  · unfold opinion
    rw [if_pos hv, hany, hw]
    rfl
  · rw [decide_eq_true_iff]
    exact walk_end_iff w hd hw

/-- In every state that calls on the core lead to, the end of a walk down to the height of
a block tells whether that block is on the chain. -/
theorem walks_decide_ancestry (C : Crypto) (c : Setup) {s : Replica}
    (h : Runs.Reach (fun _ _ => True) (call C) c.start s) : s.WalksDecide := by
  obtain ⟨hc, -⟩ := chained_of_reach c.start_chained h
  refine ⟨?_, fun bnew => opinion_of_walk hc.wf⟩
  intro a b _ hb
  obtain ⟨visited, e, hw⟩ := walk_total hc.wf hb (s.height a)
  exact ⟨by rw [hw]; rfl, checkAncestry_iff hc.wf hb⟩

theorem walks_decide_ancestry_two :
    (Runs.run (call .sample) (Setup.four 0).start twoBlocks).delivered 3 = true ∧
      (Runs.run (call .sample) (Setup.four 0).start twoBlocks).WalksDecide := by
  refine ⟨by decide +kernel, ?_⟩
  exact walks_decide_ancestry .sample (.four 0)
    (Runs.reach_run _ .init (Runs.admitted_of_mem _ fun _ _ _ => trivial))

end Replica

end AvaHotstuff
