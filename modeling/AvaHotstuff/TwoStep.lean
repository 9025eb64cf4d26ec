import AvaHotstuff.Agreement

set_option autoImplicit false

namespace AvaHotstuff.TwoStep
open Ancestry LockedVoting

section
variable {s : Replica} {G : Ledger.Guard}

theorem updateExec_ledger (w : s.tree.Wf) (blk1 : Hash) :
    Ledger.Advances s.ledger (updateExec s blk1).1.ledger := by
  unfold updateExec
  split
  · exact Relation.ReflTransGen.refl
  split
  · exact Relation.ReflTransGen.refl
  split
  · exact Relation.ReflTransGen.refl
  · rename_i p1 hp1
    split
    · exact Relation.ReflTransGen.refl
    · rename_i hne
      rw [not_not.mp hne] at hp1
      exact Replica.commit_ledger w (w.parent_delivered hp1)

/-- What the first link does before the second one is read. -/
structure Raised (s v : Replica) (b1 : Hash) : Prop where
  tree : v.tree = s.tree
  exec : v.bExec = s.bExec
  vheight : v.vheight = s.vheight
  log : v.ledger.log = s.ledger.log
  steps : ∀ G, Ledger.Steps G s.ledger v.ledger
  lock : v.bLock = s.bLock ∧ s.height b1 ≤ s.height s.bLock ∨
    v.bLock = b1 ∧ s.height s.bLock < s.height b1

theorem raised (s : Replica) (b1 : Hash) (qc : QuorumCert) :
    Raised s ((s.updateHqc b1 qc).updateLock b1) b1 := by
  have hhqc := s.updateHqc_ledger b1 qc
  generalize s.updateHqc b1 qc = t at hhqc
  have htree : t.tree = s.tree := congrArg Ledger.tree hhqc
  have hheight : t.height = s.height := by
    funext x
    unfold Replica.height
    rw [htree]
  have hbLock : t.bLock = s.bLock := congrArg Ledger.bLock hhqc
  obtain ⟨hvtree, hvexec, hvv, hvlog⟩ := t.updateLock_rest b1
  have hlock := t.updateLock_bLock b1
  rw [hheight, hbLock] at hlock
  refine ⟨hvtree.trans htree, hvexec.trans (congrArg Ledger.bExec hhqc),
    hvv.trans (congrArg Ledger.vheight hhqc), hvlog.trans (congrArg Ledger.log hhqc), ?_, hlock⟩
  intro G
  rw [← hhqc]
  exact t.updateLock_steps b1

theorem updateChain_ledger (w : s.tree.Wf) (nblk : Hash) :
    Ledger.Steps G s.ledger (updateChain s nblk).1.ledger := by
  unfold updateChain
  split
  · exact .refl _
  rename_i m _
  split
  · exact .refl _
  rename_i b1 _
  split
  · exact .refl _
  have hr := raised s b1 m.body.qc
  exact (hr.steps G).trans (updateExec_ledger ((hr.steps G).wf w) b1).steps

theorem update_updates : Replica.Updates update G := by
  constructor
  · intro s w nblk
    refine Replica.andThen_steps (updateChain_ledger w nblk) ?_
    intro _
    simp only []
    rw [Replica.emit_ledger_on _ rfl]
    exact (Ledger.Step.note (e := .updated nblk) trivial).steps
  · intro s nblk hnone
    unfold update at hnone ⊢
    generalize updateChain s nblk = r at hnone ⊢
    obtain ⟨u, none | e⟩ := r
    · rw [Outcome.andThen_return]
      simp only []
      rw [Replica.emit_ledger_on _ rfl]
      exact List.mem_append_right _ (List.mem_singleton_self _)
    · exact absurd hnone (by simp)

theorem updateExec_spec (w : s.tree.Wf) {b1 b : Hash} (hb1 : s.delivered b1 = true)
    (hne : b1 ≠ b0) (h0 : s.qcRef b1 = some b)
    (hsafe : s.decided b = false → s.parent0 b1 = some b → Anc s.parent0 s.bExec b) :
    (updateExec s b1).2 = none ∧ ((updateExec s b1).1.bExec = s.bExec ∨
      (updateExec s b1).1.bExec = b ∧ s.parent0 b1 = some b) := by
  obtain ⟨p1, hp1, -, -⟩ := w.ranked.up b1 hb1 hne
  have hpar : s.parent0 b1 = some p1 := hp1
  unfold updateExec
  rw [h0, hpar]
  simp only []
  by_cases hdec : s.decided b = true
  · rw [if_pos hdec]
    exact ⟨rfl, .inl rfl⟩
  rw [if_neg hdec]
  by_cases hp : p1 = b
  · subst p1
    rw [if_neg (not_not.mpr rfl)]
    have hanc := hsafe (by simpa using hdec) hpar
    obtain ⟨hnone, hexec, -⟩ := Replica.commit_spec w (w.parent_delivered hp1) hanc
    exact ⟨hnone, .inr ⟨hexec, rfl⟩⟩
  · rw [if_pos hp]
    exact ⟨rfl, .inl rfl⟩

structure Updated (s u : Replica) (nblk b1 b : Hash) : Prop where
  steps : Ledger.Steps Ledger.Guard.none s.ledger u.ledger
  vheight : u.vheight = s.vheight
  log : ∃ es, u.ledger.log = s.ledger.log ++ es ∧
    ∀ e ∈ es, e.commits = true ∨ e = .updated nblk
  lock : u.bLock = s.bLock ∨ u.bLock = b1 ∧ s.height s.bLock < s.height b1
  raised : s.height b1 ≤ s.height u.bLock ∨ s.decided b1 = true
  exec : u.bExec = s.bExec ∨ u.bExec = b ∧ s.parent0 b1 = some b ∧
    s.height b1 ≤ s.height u.bLock

theorem update_spec (c : s.ledger.Chained) (cl : s.tree.Closed) {nblk b1 b : Hash}
    (hd : s.delivered nblk = true) (h1 : s.qcRef nblk = some b1) (h0 : s.qcRef b1 = some b)
    (hsafe : s.decided b = false → s.parent0 b1 = some b → Anc s.parent0 s.bExec b) :
    (update s nblk).2 = none ∧ Updated s (update s nblk).1 nblk b1 b := by
  have w : s.tree.Wf := c.wf
  obtain ⟨m, hm, -⟩ := Tree.exists_of_delivered hd
  obtain ⟨blk, hblk, rfl⟩ := s.cache_of_tree hm
  have hq : blk.qcRef = some b1 := (Tree.qcRef_of hm).symm.trans h1
  have hsteps := (update_updates (G := Ledger.Guard.none)).steps w nblk
  have hb1 := (cl.spec w hd h1).1
  unfold update updateChain at hsteps ⊢
  rw [hblk] at hsteps ⊢
  simp only [hq] at hsteps ⊢
  by_cases hdec : s.decided b1 = true
  · rw [if_pos hdec, Outcome.andThen_return] at hsteps ⊢
    have hu := s.emit_ledger_on (e := .updated nblk) rfl
    refine ⟨rfl, hsteps, congrArg Ledger.vheight hu,
      ⟨[.updated nblk], congrArg Ledger.log hu, ?_⟩, .inl (congrArg Ledger.bLock hu),
      .inr hdec, .inl (congrArg Ledger.bExec hu)⟩
    intro e he
    exact .inr (List.mem_singleton.mp he)
  rw [if_neg hdec] at hsteps ⊢
  have hr := raised s b1 blk.body.qc
  generalize (s.updateHqc b1 blk.body.qc).updateLock b1 = v at hr hsteps ⊢
  have hadv := updateExec_ledger (s := v) ((hr.steps Ledger.Guard.none).wf w) b1
  have hspec : (updateExec v b1).2 = none ∧ ((updateExec v b1).1.bExec = v.bExec ∨
      (updateExec v b1).1.bExec = b ∧ v.parent0 b1 = some b) := by
    refine updateExec_spec ?_ ?_ (Replica.decided_ne_genesis c hdec) ?_ ?_
    all_goals
      unfold Replica.delivered Replica.qcRef Replica.decided Replica.parent0 at *
      rw [hr.tree]
    · exact w
    · exact hb1
    · exact h0
    · rw [hr.exec]
      exact hsafe
  obtain ⟨hnone, hex⟩ := hspec
  generalize updateExec v b1 = r at hnone hex hadv hsteps ⊢
  obtain ⟨u, e⟩ := r
  obtain rfl : e = none := hnone
  rw [Outcome.andThen_return] at hsteps ⊢
  obtain ⟨hulock, huv, es, hes, hcom⟩ := hadv.log
  have hu := u.emit_ledger_on (e := .updated nblk) rfl
  have hlock : u.bLock = v.bLock := hulock
  have hraised : s.height b1 ≤ s.height u.bLock := by
    rw [hlock]
    rcases hr.lock with ⟨hl, hle⟩ | ⟨hl, -⟩
    · rw [hl]
      exact hle
    · rw [hl]
  refine ⟨rfl, hsteps, huv.trans hr.vheight, ⟨es ++ [.updated nblk], ?_, ?_⟩, ?_, .inl hraised, ?_⟩
  · rw [hu, Ledger.record_log, hes, hr.log, List.append_assoc]
  · intro x hx
    rcases List.mem_append.mp hx with hx | hx
    · exact .inl (hcom x hx)
    · exact .inr (List.mem_singleton.mp hx)
  · change u.bLock = s.bLock ∨ u.bLock = b1 ∧ _
    rw [hlock]
    rcases hr.lock with ⟨hl, -⟩ | hl
    · exact .inl hl
    · exact .inr hl
  · have hp : v.parent0 = s.parent0 := by
      unfold Replica.parent0
      rw [hr.tree]
    rw [hp, hr.exec] at hex
    rcases hex with hex | ⟨hex, hp1⟩
    · exact .inl hex
    · exact .inr ⟨hex, hp1, hraised⟩

end

structure Decisive (t : Tree) (b b1 nblk : Hash) : Prop where
  tip : t.delivered nblk = true
  second : t.qcRef nblk = some b1
  first : t.qcRef b1 = some b
  parent1 : t.parent0 b1 = some b

theorem Decisive.mono {t t' : Tree} (g : Tree.Grows t t') (w : t.Wf) (cl : t.Closed)
    {b b1 nblk : Hash} (d : Decisive t b b1 nblk) : Decisive t' b b1 nblk := by
  have h1 := (cl.spec w d.tip d.second).1
  exact ⟨g.delivered d.tip, (g.qcRef d.tip).trans d.second, (g.qcRef h1).trans d.first,
    (g.parent0 h1).trans d.parent1⟩

/-- Every opinion was given under a lock as high as the block it certifies. -/
structure Locked (L : Ledger) : Prop extends Ledger.Held L where
  decisive : L.bExec = b0 ∨ ∃ b1 nblk, Decisive L.tree L.bExec b1 nblk
  obliged : ∀ o ∈ opinions L.log, ∀ q, L.tree.qcRef o.1 = some q →
    L.tree.height q ≤ L.tree.height o.2

section
variable {L M : Ledger} (g : Tree.Grows L.tree M.tree) (k : Locked L) (cl : L.tree.Closed)
include g k cl

theorem Locked.decisive_mono (hexec : M.bExec = L.bExec) :
    M.bExec = b0 ∨ ∃ b1 nblk, Decisive M.tree M.bExec b1 nblk := by
  rw [hexec]
  rcases k.decisive with h0 | ⟨b1, nblk, hdec⟩
  · exact .inl h0
  · exact .inr ⟨b1, nblk, hdec.mono g k.wf cl⟩

theorem Locked.obliged_mono (ho : opinions M.log = opinions L.log) :
    ∀ o ∈ opinions M.log, ∀ q, M.tree.qcRef o.1 = some q →
      M.tree.height q ≤ M.tree.height o.2 := by
  intro o hmem q hq
  rw [ho] at hmem
  have hd := (k.bound o hmem).1
  rw [g.qcRef hd] at hq
  rw [g.height (cl.spec k.wf hd hq).1, g.height (k.casts o hmem).lock]
  exact k.obliged o hmem q hq

theorem Locked.grow (v : M.Voting) (hlog : M.log = L.log) (hlock : M.bLock = L.bLock)
    (hexec : M.bExec = L.bExec) : Locked M :=
  ⟨k.toHeld.grow g cl v hlog hlock hexec, k.decisive_mono g cl hexec,
    k.obliged_mono g cl (by rw [hlog])⟩

end

/-- What `update` leaves for the judgement of `w`: the lock is below the last opinion or is
the block that `w` certifies, and it is not below that block. -/
structure Poised (r : Replica) (w : Hash) : Prop where
  ready : r.ledger.Low ∨ r.qcRef w = some r.bLock
  obliged : ∀ q, r.qcRef w = some q → r.height q ≤ r.height r.bLock

section
variable {s u : Replica}

theorem Updated.locked {nblk b1 b : Hash} (up : Updated s u nblk b1 b)
    (k : Locked s.ledger) (cl : s.tree.Closed) (hd : s.delivered nblk = true)
    (h1 : s.qcRef nblk = some b1) (h0 : s.qcRef b1 = some b) (hlow : s.ledger.Low) :
    Locked u.ledger ∧ Poised u nblk := by
  have g := up.steps.grows
  have v : u.ledger.Voting := up.steps.voting (fun _ _ h => h.elim) k.toVoting
  have hb1 := cl.spec k.wf hd h1
  have hmono : s.height s.bLock ≤ s.height u.bLock := by
    rcases up.lock with hl | ⟨hl, hlt⟩
    · rw [hl]
    · rw [hl]
      exact Nat.le_of_lt hlt
  have hob : s.height b1 ≤ s.height u.bLock := by
    have hexec : s.height s.bExec ≤ s.height s.bLock := k.exec_le
    rcases up.raised with h | h
    · exact h
    · have : s.height b1 ≤ s.height s.bExec := k.decided_height h
      omega
  have hlockd : s.delivered u.bLock = true := by
    rcases up.lock with hl | ⟨hl, -⟩
    · rw [hl]
      exact k.lock_delivered
    · rw [hl]
      exact hb1.1
  have hulock : u.height u.bLock = s.height u.bLock := g.height hlockd
  have hop := Replica.opinions_updated up.log
  have hqc : u.qcRef nblk = some b1 := (g.qcRef hd).trans h1
  refine ⟨⟨k.toHeld.keep g cl v hop (g.delivered hlockd) ?_ ?_ ?_, ?_,
    k.obliged_mono g cl hop⟩, ?_, ?_⟩
  · change Ledger.Referenced u.ledger u.bLock
    rcases up.lock with hl | ⟨hl, hlt⟩
    · rw [hl]
      exact k.lock_ref.mono g
    · rw [hl]
      refine .inr ⟨nblk, g.delivered hd, ?_, hqc⟩
      rintro rfl
      have hroot : s.height b0 = 0 := k.wf.height_genesis
      have := (k.wf.ranked.anc_spec hd hb1.2.1).2
      have hle : s.height b1 ≤ s.height b0 := this
      omega
  · change u.height s.bLock ≤ u.height u.bLock
    rw [hulock, show u.height s.bLock = s.height s.bLock from g.height k.lock_delivered]
    exact hmono
  · change u.height u.bExec ≤ u.height u.bLock
    rw [hulock]
    rcases up.exec with he | ⟨he, hp1, hle⟩
    · rw [he, show u.height s.bExec = s.height s.bExec from g.height k.exec]
      exact Nat.le_trans k.exec_le hmono
    · have hb := k.wf.ranked.parent_spec hb1.1 hp1
      have hbh : s.height b1 = s.height b + 1 := hb.2
      rw [he, show u.height b = s.height b from g.height hb.1]
      omega
  · rcases up.exec with he | ⟨he, hp1, -⟩
    · exact k.decisive_mono g cl he
    · have hdec : Decisive s.ledger.tree b b1 nblk := ⟨hd, h1, h0, hp1⟩
      refine .inr ⟨b1, nblk, ?_⟩
      rw [show u.ledger.bExec = b from he]
      exact hdec.mono g k.wf cl
  · rcases up.lock with hl | ⟨hl, -⟩
    · exact .inl (hlow.grow g k.lock_delivered hl up.vheight)
    · rw [hl]
      exact .inr hqc
  · intro q hq
    obtain rfl : b1 = q := Option.some.inj (hqc.symm.trans hq)
    rw [hulock, show u.height b1 = s.height b1 from g.height hb1.1]
    exact hob

theorem Poised.below (k : Locked s.ledger) (cl : s.tree.Closed) {w : Hash}
    (hd : s.delivered w = true) (hp : Poised s w) :
    s.ledger.Low ∨ s.height s.bLock < s.height w := by
  rcases hp.ready with h | h
  · exact .inl h
  by_cases h0 : w = b0
  · subst w
    obtain ⟨r, hr, -, -, -, hq⟩ := k.wf.genesis
    exact .inl (.inl (Option.some.inj (h.symm.trans ((Tree.qcRef_of hr).trans hq))))
  · exact .inr ((cl.spec k.wf hd h).2.2 h0)

theorem Poised.low (k : Locked s.ledger) (cl : s.tree.Closed) {w : Hash}
    (hd : s.delivered w = true) (hp : Poised s w) (hle : s.height w ≤ s.vheight) :
    s.ledger.Low := by
  rcases hp.below k cl hd with h | h
  · exact h
  · exact .inr (Nat.lt_of_lt_of_le h hle)

theorem opine_locked (k : Locked s.ledger) (cl : s.tree.Closed) {bnew : Hash}
    (hd : s.delivered bnew = true) (hv : s.vheight < s.height bnew) (hp : Poised s bnew)
    (hrule : (∃ q, s.qcRef bnew = some q ∧ s.height s.bLock < s.height q) ∨
      Anc s.parent0 s.bLock bnew) :
    Locked (s.ledger.opine bnew) ∧ (s.ledger.opine bnew).Low := by
  have hbelow : s.height s.bLock < s.height bnew := by
    rcases hp.below k cl hd with (h | h) | h
    · have hroot : s.height b0 = 0 := k.wf.height_genesis
      rw [show s.bLock = b0 from h]
      omega
    · have : s.height s.bLock < s.vheight := h
      omega
    · exact h
  have hob : ∀ q q', s.qcRef bnew = some q → s.qcRef q = some q' →
      s.height q' ≤ s.height s.bLock := by
    intro q q' hq hq'
    have hqd := (cl.spec k.wf hd hq).1
    have hle := (k.wf.ranked.anc_spec hqd (cl.spec k.wf hqd hq').2.1).2
    exact Nat.le_trans hle (hp.obliged q hq)
  refine ⟨⟨k.toHeld.opine hd hv hbelow hrule hob, k.decisive, ?_⟩, .inr hbelow⟩
  intro o ho q hq
  rw [Ledger.opinions_opine] at ho
  rcases List.mem_append.mp ho with ho | ho
  · exact k.obliged o ho q hq
  · rw [List.mem_singleton.mp ho] at hq ⊢
    exact hp.obliged q hq

theorem judgeProposal_locked (C : Crypto) (selfProp : Bool) (k : Locked s.ledger)
    (cl : s.tree.Closed) {bnew : Hash} (hd : s.delivered bnew = true) (hp : Poised s bnew) :
    Locked (s.judgeProposal C selfProp bnew).1.ledger ∧
      (s.judgeProposal C selfProp bnew).1.ledger.Low := by
  rw [Replica.judgeProposal_ledger]
  rcases Replica.opinion_cases k.wf hd with ⟨ho, hv, hrule⟩ | ⟨ho, hno⟩
  · rw [if_pos ho]
    obtain ⟨hk, hlow⟩ := opine_locked k cl hd hv hp hrule
    split
    · exact ⟨hk, hlow⟩
    · refine ⟨⟨hk.toHeld.vote ⟨s.bLock, ?_⟩, hk.decisive, ?_⟩, hlow⟩
      · exact List.mem_append_right _ (List.mem_singleton_self _)
      · rw [Ledger.opinions_vote]
        exact hk.obliged
  · rw [if_neg (by rw [ho]; simp)]
    refine ⟨k, ?_⟩
    rcases hno with hle | ⟨hanc, -⟩
    · exact hp.low k cl hd hle
    · rcases hp.ready with h | h
      · exact h
      · exact absurd (cl.spec k.wf hd h).2.1 hanc

end

section
variable {n : ℕ} {byz : Finset (Fin n)} {s : Cluster n} (S : Cluster.Kept Locked byz s)
include S

theorem voters : Cluster.Voters byz s :=
  ⟨fun i hi => (S.kept i hi).toHeld, S.votes, S.backing⟩

theorem lawful (hn : 0 < n) (hbyz : byz.card ≤ Quorum.maxFaulty n) (hone : ∃ i, i ∉ byz) :
    (Cluster.ballotsBy byz s (Cluster.certifies byz s)).Lawful := by
  have T := voters S
  refine T.lawful hn hbyz hone ?_
  intro i hi o ho
  have k := S.kept i hi
  have hd : (s i).delivered o.1 = true := (k.bound o ho).1
  obtain ⟨q, hq, -⟩ := S.backing.closed i hi o.1 hd
  have hqd := ((S.backing.closed i hi).spec k.wf hd hq).1
  change (Cluster.ballots byz s).height ((Cluster.ballots byz s).justify o.1) ≤ _
  rw [(T.ballots_eq hi hd).2.2 q hq, (T.ballots_eq hi hqd).2.1]
  exact k.obliged o ho q hq

theorem settled (hn : 0 < n) (hbyz : byz.card ≤ Quorum.maxFaulty n) {i : Fin n} (hi : i ∉ byz)
    {b b1 nblk : Hash} (hc : Decisive (s i).tree b b1 nblk) :
    (Cluster.ballots byz s).Settled b := by
  have T := voters S
  have k := S.kept i hi
  have hb1 := ((S.backing.closed i hi).spec k.wf hc.tip hc.second).1
  have hne1 : b1 ≠ b0 := by
    rintro rfl
    exact absurd (k.wf.ranked.root_top.symm.trans hc.parent1) (by simp)
  have hroot : nblk ≠ b0 := by
    rintro rfl
    obtain ⟨r, hr, -, -, -, hq⟩ := k.wf.genesis
    exact hne1 (Option.some.inj (hc.second.symm.trans ((Tree.qcRef_of hr).trans hq)))
  have hchain : (Cluster.ballotsBy byz s (Cluster.certifies byz s)).TwoChain b b1 := by
    refine ⟨?_, ?_, ?_, ?_⟩
    · exact T.backed hi (.inr ⟨b1, hb1, hne1, hc.first⟩)
    · rcases S.backing.certified i hi nblk b1 hc.tip hroot hc.second with h | h
      · exact absurd h hne1
      · exact h
    · exact (T.ballots_eq hi hb1).1.trans hc.parent1
    · exact (T.ballots_eq hi hb1).2.2 b hc.first
  exact (lawful S hn hbyz ⟨i, hi⟩).two_chain hchain

theorem exec_settled (hn : 0 < n) (hbyz : byz.card ≤ Quorum.maxFaulty n) {i : Fin n}
    (hi : i ∉ byz) : (Cluster.ballots byz s).Settled (s i).bExec := by
  rcases (S.kept i hi).decisive with h0 | ⟨b1, nblk, hc⟩
  · rw [show (s i).bExec = b0 from h0]
    exact (lawful S hn hbyz ⟨i, hi⟩).settled_root
  · exact settled S hn hbyz hi hc

/-- `update` at an honest replica returns normally and keeps the locks. -/
theorem update_safe (hn : 0 < n) (hbyz : byz.card ≤ Quorum.maxFaulty n) {i : Fin n}
    (hi : i ∉ byz) {nblk : Hash} (hd : (s i).delivered nblk = true)
    (hlow : (s i).ledger.Low) :
    (update (s i) nblk).2 = none ∧ Locked (update (s i) nblk).1.ledger ∧
      Poised (update (s i) nblk).1 nblk := by
  have k := S.kept i hi
  have cl := S.backing.closed i hi
  obtain ⟨b1, h1, -⟩ := cl nblk hd
  obtain ⟨b, h0, -⟩ := cl b1 (cl.spec k.wf hd h1).1
  obtain ⟨hnone, hup⟩ := update_spec k.toChained cl hd h1 h0 fun hdec hp1 =>
    (voters S).commit_safe (lawful S hn hbyz ⟨i, hi⟩) hi (exec_settled S hn hbyz hi)
      (settled S hn hbyz hi ⟨hd, h1, h0, hp1⟩) (k.wf.parent_delivered hp1) hdec
  exact ⟨hnone, hup.locked k cl hd h1 h0 hlow⟩

end

section
variable {n : ℕ} {byz : Finset (Fin n)}

theorem keeper (hn : 0 < n) (hbyz : byz.card ≤ Quorum.maxFaulty n) :
    Cluster.Keeper byz update Locked Poised where
  updates _ := update_updates
  held k := k.toHeld
  grow g cl v hlog hlock hexec k := k.grow g cl v hlog hlock hexec
  judge C selfProp k cl hd hp := judgeProposal_locked C selfProp k cl hd hp
  low k cl hd hp hle := hp.low k cl hd hle
  safe S hi hd hlow := update_safe S hn hbyz hi hd hlow

theorem start_locked (c : Fin n → Setup) (i : Fin n) : Locked (Cluster.start c i).ledger :=
  ⟨Cluster.start_held c i, .inl rfl, fun _ h => absurd h List.not_mem_nil⟩

/-- Any two honest replicas execute along one branch, and no call comes to the throw of the
commit loop. -/
theorem two_step_agreement (C : Crypto) (byz : Finset (Fin n))
    (hbyz : byz.card ≤ Quorum.maxFaulty n) (c : Fin n → Setup) (s : Cluster n)
    (h : Runs.Reach (Cluster.CoreStepWith update C byz) (Cluster.stepWith update C)
      (Cluster.start c) s) :
    (∀ i j, i ∉ byz → j ∉ byz → Anc (s j).parent0 (s i).bExec (s j).bExec ∨
      Anc (s i).parent0 (s j).bExec (s i).bExec) ∧
    ∀ i op, Cluster.CoreStepWith update C byz s (i, op) →
      (exec C (s i) op).2 ≠ some .safetyBreached := by
  constructor
  · intro i j hi hj
    have S := (Cluster.kept_of_reach (keeper (Fin.pos i) hbyz) (start_locked c) h).1
    exact (voters S).exec_branch (lawful S (Fin.pos i) hbyz ⟨i, hi⟩) hi hj
      (exec_settled S (Fin.pos i) hbyz hi) (exec_settled S (Fin.pos i) hbyz hj)
  · intro i op hstep
    have B := keeper (Fin.pos i) hbyz
    obtain ⟨S, hlow⟩ := Cluster.kept_of_reach B (start_locked c) h
    exact (S.core_step B hlow hstep).unbreached

end

/-- The run of `Cluster.fourRounds` up to the call in which replica 1 commits. -/
def beforeCommit : Cluster 4 :=
  Runs.run (Cluster.stepWith update .sample) (Cluster.start fun i => .four i)
    (Cluster.fourRounds.take 30)

theorem beforeCommit_tested :
    Runs.Reach (Cluster.TestedWith update .sample {3} [0, 1, 3, 7, 15])
      (Cluster.stepWith update .sample) (Cluster.start fun i => .four i) beforeCommit :=
  Runs.reach_run _ .init (by decide +kernel)

/-- Replica 0 has executed the second block, replica 1 the first one, and the call that
brings replica 1 to the second block does not throw. -/
theorem two_step_agreement_four_rounds :
    ((beforeCommit 0).bExec = 3 ∧ (beforeCommit 1).bExec = 1) ∧
      (Anc (beforeCommit 1).parent0 (beforeCommit 0).bExec (beforeCommit 1).bExec ∨
        Anc (beforeCommit 0).parent0 (beforeCommit 1).bExec (beforeCommit 0).bExec) ∧
      (exec .sample (beforeCommit 1) (.receiveProposal 0 15)).1.bExec = 3 ∧
      (exec .sample (beforeCommit 1) (.receiveProposal 0 15)).2 ≠ some .safetyBreached := by
  have B : Cluster.Keeper ({3} : Finset (Fin 4)) update Locked Poised :=
    keeper (by decide) (by decide)
  obtain ⟨hreach, hstored⟩ := Cluster.stored_of_testedWith B (start_locked _) (by decide)
    beforeCommit_tested
  obtain ⟨hbranch, hthrow⟩ := two_step_agreement .sample {3} (by decide) _ beforeCommit hreach
  refine ⟨by decide +kernel, hbranch 0 1 (by decide) (by decide), by decide +kernel, ?_⟩
  exact hthrow 1 (.receiveProposal 0 15) (Cluster.coreStep_of_testedWith B (start_locked _) hreach
    hstored (by decide +kernel)).1

end AvaHotstuff.TwoStep
