import AvaHotstuff.Cluster
import AvaHotstuff.Locking
import AvaHotstuff.LockedVoting

set_option autoImplicit false

namespace AvaHotstuff
open Ancestry LockedVoting

namespace Cluster
variable {n : ℕ}

/-- What is taken for granted when a call leads from `pre` to `post`: hashes name blocks,
and every delivered block carries a certificate that verifies, made of signatures that
were there before the call, for a proper ancestor. -/
structure Assumptions (C : Crypto) (byz : Finset (Fin n)) (pre post : Cluster n) : Prop where
  collisionFree : CollisionFree byz post
  verified : ∀ i, i ∉ byz → ∀ h b, (post i).storage.blkCache h = some b → b.delivered = true →
    h ≠ b0 → b.body.qc.objHash = b0 ∨ ∃ Q : Finset (Fin n), Quorum.majority n ≤ Q.card ∧
      ∀ j ∈ Q, ∃ σ, ((j : ℕ), σ) ∈ b.body.qc.sigs ∧ C.verifySig j b.body.qc.objHash σ = true
  unforgeable : ∀ i, i ∉ byz → ∀ h b, (post i).storage.blkCache h = some b →
    b.delivered = true → ∀ j, j ∉ byz → ∀ σ, ((j : ℕ), σ) ∈ b.body.qc.sigs →
      C.verifySig j b.body.qc.objHash σ = true → (pre j).Signed b.body.qc.objHash
  ownBranch : ∀ i, i ∉ byz → ∀ h, (post i).delivered h = true → h ≠ b0 →
    ∃ q, (post i).qcRef h = some q ∧ q ≠ h ∧ Anc (post i).parent0 q h

/-- The calls of the core protocol. A proposal under the replica's own name reaches
`on_receive_proposal` only from its `on_propose`. -/
def CoreCall (r : Replica) : Op → Prop
  | .addBlk _ | .deliverBlk _ | .receiveVote _ | .propose _ _ _ _ _ => True
  | .receiveProposal proposer _ => proposer ≠ r.id
  | _ => False

def CoreStep (C : Crypto) (byz : Finset (Fin n)) (s : Cluster n) (a : Fin n × Op) : Prop :=
  a.1 ∉ byz ∧ CoreCall (s a.1) a.2 ∧ Assumptions C byz s (step C s a)

/-- The certificates that the delivered blocks rest on. -/
structure Backing (byz : Finset (Fin n)) (s : Cluster n) : Prop where
  collisionFree : CollisionFree byz s
  closed : ∀ i, i ∉ byz → (s i).tree.Closed
  certified : ∀ i, i ∉ byz → ∀ h q, (s i).delivered h = true → h ≠ b0 →
    (s i).qcRef h = some q → q = b0 ∨ Certified byz s q

/-- The assumptions on a call speak also about the states inside the call. -/
theorem Assumptions.backing {C : Crypto} {byz : Finset (Fin n)} {pre post s : Cluster n}
    (A : Assumptions C byz pre post) (hsig : ∀ i h, (pre i).Signed h → (s i).Signed h)
    (w : ∀ i, i ∉ byz → (s i).tree.Wf)
    (g : ∀ i, i ∉ byz → Tree.Grows (s i).tree (post i).tree) : Backing byz s := by
  have hstored : ∀ i, i ∉ byz → ∀ h b, (s i).storage.blkCache h = some b →
      ∃ b', (post i).storage.blkCache h = some b' ∧ b'.body = b.body ∧
        (b.delivered = true → b'.delivered = true) := by
    intro i hi h b hb
    obtain ⟨n', hn', hbody, hk⟩ := (g i hi).keep h _ ((s i).tree_of_cache hb)
    obtain ⟨b', hb', rfl⟩ := (post i).cache_of_tree hn'
    exact ⟨b', hb', hbody, fun hd => (hk hd).1⟩
  refine ⟨?_, ?_, ?_⟩
  · intro i j hi hj h b b' hb hb'
    obtain ⟨c, hc, hcb, -⟩ := hstored i hi h b hb
    obtain ⟨c', hc', hcb', -⟩ := hstored j hj h b' hb'
    rw [← hcb, ← hcb']
    exact A.collisionFree i j hi hj h c c' hc hc'
  · intro i hi h hd
    by_cases h0 : h = b0
    · subst h
      obtain ⟨r, hr, -, -, -, hq⟩ := (w i hi).genesis
      exact ⟨b0, (Tree.qcRef_of hr).trans hq, .refl _, fun h => absurd rfl h⟩
    · obtain ⟨q, hq, hne, hanc⟩ := A.ownBranch i hi h ((g i hi).delivered hd) h0
      exact ⟨q, ((g i hi).qcRef hd).symm.trans hq, (g i hi).anc_back (w i hi) hd hanc,
        fun _ => hne⟩
  · intro i hi h q hd h0 hq
    obtain ⟨m, hm, hmd⟩ := Tree.exists_of_delivered hd
    obtain ⟨b, hb, rfl⟩ := (s i).cache_of_tree hm
    obtain ⟨b', hb', hbody, hbd⟩ := hstored i hi h b hb
    have hlinked := ((w i hi).linked h _ hm hmd h0).qcRef
    obtain rfl : b.body.qc.objHash = q :=
      Option.some.inj (hlinked.symm.trans ((Tree.qcRef_of hm).symm.trans hq))
    rcases A.verified i hi h b' hb' (hbd hmd) h0 with hroot | ⟨Q, hQ, hsigs⟩
    · rw [hbody] at hroot
      exact .inl hroot
    · refine .inr ⟨Q, hQ, ?_⟩
      intro j hj hjb
      obtain ⟨σ, hσ, hv⟩ := hsigs j hj
      have hpre := A.unforgeable i hi h b' hb' (hbd hmd) j hjb σ hσ hv
      rw [hbody] at hpre
      exact hsig j _ hpre

section
variable (byz : Finset (Fin n)) (s : Cluster n)

def Known (h : Hash) : Prop := ∃ i, i ∉ byz ∧ (s i).delivered h = true

open Classical in
noncomputable def holder (h : Hash) : Option Replica :=
  if hk : Known byz s h then some (s hk.choose) else none

noncomputable def certifies (h : Hash) : Hash := ((holder byz s h).bind (·.qcRef h)).getD b0

/-- The blocks and the signatures of the honest replicas taken together. -/
noncomputable def ballots : Ballots Hash (Fin n) where
  parent h := (holder byz s h).bind (·.parent0 h)
  height h := ((holder byz s h).map (·.height h)).getD 0
  known := Known byz s
  root := b0
  justify := certifies byz s
  obliges h := certifies byz s (certifies byz s h)
  byz := byz
  quorum := Quorum.majority n
  voted i h := (s i).Signed h

/-- The same votes, obliging to another lock. -/
noncomputable def ballotsBy (obliges : Hash → Hash) : Ballots Hash (Fin n) :=
  { ballots byz s with obliges := obliges }

/-- The honest replicas keep their locks, sign only votes, and their blocks are backed. -/
structure Sound : Prop where
  locked : ∀ i, i ∉ byz → (s i).ledger.Locked
  votes : ∀ i, i ∉ byz → ∀ h, (s i).Signed h → (s i).Voted h
  backing : Backing byz s

/-- The part of `Sound` that no chain of commits enters. -/
structure Voters : Prop where
  held : ∀ i, i ∉ byz → (s i).ledger.Held
  votes : ∀ i, i ∉ byz → ∀ h, (s i).Signed h → (s i).Voted h
  backing : Backing byz s

theorem Sound.voters {byz : Finset (Fin n)} {s : Cluster n} (S : Sound byz s) : Voters byz s :=
  ⟨fun i hi => (S.locked i hi).held, S.votes, S.backing⟩

end

section
variable {byz : Finset (Fin n)} {s : Cluster n} (T : Voters byz s)
include T

theorem Voters.wf {i : Fin n} (hi : i ∉ byz) : (s i).tree.Wf := (T.held i hi).wf

theorem Voters.agree {i j : Fin n} (hi : i ∉ byz) (hj : j ∉ byz) {h : Hash}
    (hd : (s i).delivered h = true) (hd' : (s j).delivered h = true) :
    (s i).parent0 h = (s j).parent0 h ∧ (s i).qcRef h = (s j).qcRef h ∧
      (s i).height h = (s j).height h := by
  refine Tree.agree (T.wf hi) (T.wf hj) ?_ hd hd'
  intro h m m' hm hm'
  obtain ⟨b, hb, rfl⟩ := (s i).cache_of_tree hm
  obtain ⟨b', hb', rfl⟩ := (s j).cache_of_tree hm'
  exact T.backing.collisionFree i j hi hj h b b' hb hb'

theorem Voters.ballots_eq {i : Fin n} (hi : i ∉ byz) {h : Hash}
    (hd : (s i).delivered h = true) :
    (ballots byz s).parent h = (s i).parent0 h ∧ (ballots byz s).height h = (s i).height h ∧
      ∀ q, (s i).qcRef h = some q → (ballots byz s).justify h = q := by
  have hk : Known byz s h := ⟨i, hi, hd⟩
  have hholder : holder byz s h = some (s hk.choose) := dif_pos hk
  obtain ⟨hp, hq, hh⟩ := T.agree hk.choose_spec.1 hi hk.choose_spec.2 hd
  refine ⟨?_, ?_, ?_⟩
  · change (holder byz s h).bind _ = _
    rw [hholder]
    exact hp
  · change ((holder byz s h).map _).getD 0 = _
    rw [hholder]
    exact hh
  · intro q hqi
    change ((holder byz s h).bind _).getD b0 = q
    rw [hholder, Option.bind_some, hq, hqi]
    rfl

theorem Voters.anc {i : Fin n} (hi : i ∉ byz) {a b : Hash} (hb : (s i).delivered b = true) :
    Anc (ballots byz s).parent a b ↔ Anc (s i).parent0 a b := by
  constructor
  · intro h
    unfold Anc at h
    induction h with
    | refl => exact .refl _
    | @tail x y _ hp ih =>
      have hx := ((T.wf hi).ranked.anc_spec hb ih).1
      exact .trans (.of_parent ((T.ballots_eq hi hx).1.symm.trans hp)) ih
  · intro h
    unfold Anc at h
    induction h with
    | refl => exact .refl _
    | @tail x y hx hp ih =>
      have hxd := ((T.wf hi).ranked.anc_spec hb hx).1
      exact .trans (.of_parent ((T.ballots_eq hi hxd).1.trans hp)) ih

theorem Voters.ranked (hone : ∃ i, i ∉ byz) :
    Ranked (ballots byz s).parent (ballots byz s).height (Known byz s) b0 := by
  obtain ⟨i, hi⟩ := hone
  have h0 := (T.wf hi).genesis_delivered
  refine ⟨⟨i, hi, h0⟩, ?_, ?_, ?_⟩
  · rw [(T.ballots_eq hi h0).2.1]
    exact (T.wf hi).height_genesis
  · rintro x ⟨j, hj, hx⟩ hx0
    obtain ⟨p, hp, hpd, hph⟩ := (T.wf hj).ranked.up x hx hx0
    refine ⟨p, (T.ballots_eq hj hx).1.trans hp, ⟨j, hj, hpd⟩, ?_⟩
    rw [(T.ballots_eq hj hx).2.1, (T.ballots_eq hj hpd).2.1]
    exact hph
  · rw [(T.ballots_eq hi h0).1]
    exact (T.wf hi).ranked.root_top

theorem Voters.backed {i : Fin n} (hi : i ∉ byz) {h : Hash}
    (href : (s i).ledger.Referenced h) : (ballots byz s).Backed h := by
  rcases href with h0 | ⟨m, hd, hm, hq⟩
  · exact .inl h0
  · exact T.backing.certified i hi m h hd hm hq

theorem Voters.opinion {i : Fin n} (hi : i ∉ byz) {h : Hash} (hs : (s i).Signed h) :
    ∃ l, (h, l) ∈ opinions (s i).ledger.log :=
  (T.held i hi).cast h (Replica.voted_iff.mp (T.votes i hi h hs))

theorem Voters.signed_delivered {i : Fin n} (hi : i ∉ byz) {h : Hash} (hs : (s i).Signed h) :
    (s i).delivered h = true := by
  obtain ⟨l, hl⟩ := T.opinion hi hs
  exact ((T.held i hi).bound _ hl).1

/-- The votes are lawful once each one was cast under a lock as high as it obliges to. -/
theorem Voters.lawful (hn : 0 < n) (hbyz : byz.card ≤ Quorum.maxFaulty n)
    (hone : ∃ i, i ∉ byz) {ob : Hash → Hash}
    (hob : ∀ i, i ∉ byz → ∀ o ∈ opinions (s i).ledger.log,
      (ballots byz s).height (ob o.1) ≤ (s i).height o.2) : (ballotsBy byz s ob).Lawful := by
  refine ⟨T.ranked hone, ?_, ?_, ?_, ?_, ?_⟩
  · rw [Fintype.card_fin]
    exact Quorum.majority_overlap hn hbyz
  · intro i h hi hs
    exact ⟨i, hi, T.signed_delivered hi hs⟩
  · intro i u w hi hu hw hh
    change (ballots byz s).height u = (ballots byz s).height w at hh
    rw [(T.ballots_eq hi (T.signed_delivered hi hu)).2.1,
      (T.ballots_eq hi (T.signed_delivered hi hw)).2.1] at hh
    exact (T.held i hi).once (Replica.voted_iff.mp (T.votes i hi u hu))
      (Replica.voted_iff.mp (T.votes i hi w hw)) hh
  · rintro h ⟨i, hi, hd⟩ h0
    obtain ⟨q, hq, hanc, hne⟩ := T.backing.closed i hi h hd
    change (ballots byz s).Backed ((ballots byz s).justify h) ∧
      Anc (ballots byz s).parent ((ballots byz s).justify h) h ∧ (ballots byz s).justify h ≠ h
    rw [(T.ballots_eq hi hd).2.2 q hq]
    exact ⟨T.backed hi (.inr ⟨h, hd, h0, hq⟩), (T.anc hi hd).mpr hanc, hne h0⟩
  · intro i u w hi hu hw hlt
    have k := T.held i hi
    have hud := T.signed_delivered hi hu
    have hwd := T.signed_delivered hi hw
    change (ballots byz s).height u < (ballots byz s).height w at hlt
    rw [(T.ballots_eq hi hud).2.1, (T.ballots_eq hi hwd).2.1] at hlt
    obtain ⟨lu, hlu⟩ := T.opinion hi hu
    obtain ⟨lw, hlw⟩ := T.opinion hi hw
    have hlock : (s i).height lu ≤ (s i).height lw := by
      rcases pairwise_trichotomy (k.ascending.and k.locks) hlu hlw with h | h | h
      · rw [show lu = lw from congrArg Prod.snd h]
      · exact h.2
      · have : (s i).height w < (s i).height u := h.1
        omega
    have hcw := k.casts _ hlw
    have hld : (s i).delivered lw = true := hcw.lock
    refine ⟨lw, ⟨i, hi, hld⟩, T.backed hi hcw.ref, ?_, ?_, ?_⟩
    · change (ballots byz s).height (ob u) ≤ (ballots byz s).height lw
      rw [(T.ballots_eq hi hld).2.1]
      exact Nat.le_trans (hob i hi _ hlu) hlock
    · change (ballots byz s).height lw < (ballots byz s).height w
      rw [(T.ballots_eq hi hld).2.1, (T.ballots_eq hi hwd).2.1]
      exact hcw.below
    · rcases hcw.rule with ⟨r, hr, hlt'⟩ | hanc
      · have hrd := ((T.backing.closed i hi).spec k.wf hwd hr).1
        refine .inl ?_
        change (ballots byz s).height lw < (ballots byz s).height ((ballots byz s).justify w)
        rw [(T.ballots_eq hi hwd).2.2 r hr, (T.ballots_eq hi hld).2.1,
          (T.ballots_eq hi hrd).2.1]
        exact hlt'
      · exact .inr ((T.anc hi hwd).mpr hanc)

theorem Voters.exec_branch {ob : Hash → Hash} (L : (ballotsBy byz s ob).Lawful) {i j : Fin n}
    (hi : i ∉ byz) (hj : j ∉ byz) (hsi : (ballots byz s).Settled (s i).bExec)
    (hsj : (ballots byz s).Settled (s j).bExec) :
    Anc (s j).parent0 (s i).bExec (s j).bExec ∨ Anc (s i).parent0 (s j).bExec (s i).bExec := by
  have hdi : (s i).delivered (s i).bExec = true := (T.held i hi).exec
  have hdj : (s j).delivered (s j).bExec = true := (T.held j hj).exec
  rcases Nat.le_total ((ballots byz s).height (s i).bExec)
    ((ballots byz s).height (s j).bExec) with hle | hle
  · exact .inl ((T.anc hj hdj).mp (L.settled_anc hsi hsj hle))
  · exact .inr ((T.anc hi hdi).mp (L.settled_anc hsj hsi hle))

/-- The walk of the commit loop never misses the last executed block. -/
theorem Voters.commit_safe {ob : Hash → Hash} (L : (ballotsBy byz s ob).Lawful) {i : Fin n}
    (hi : i ∉ byz) {b : Hash} (hexec : (ballots byz s).Settled (s i).bExec)
    (hb : (ballots byz s).Settled b) (hbd : (s i).delivered b = true)
    (hdec : (s i).decided b = false) : Anc (s i).parent0 (s i).bExec b := by
  have k := T.held i hi
  have hexecd : (s i).delivered (s i).bExec = true := k.exec
  rcases Nat.le_total ((ballots byz s).height (s i).bExec) ((ballots byz s).height b)
    with hle | hle
  · exact (T.anc hi hbd).mp (L.settled_anc hexec hb hle)
  · -- Otherwise the block would be an ancestor of the executed one, and decided.
    have hanc := (T.anc hi hexecd).mp (L.settled_anc hb hexec hle)
    have htrue : (s i).decided b = true := k.decided_iff_anc.mpr hanc
    rw [htrue] at hdec
    exact absurd hdec (by simp)

end

section
variable {byz : Finset (Fin n)} {s : Cluster n} (S : Sound byz s)
include S

theorem Sound.wf {i : Fin n} (hi : i ∉ byz) : (s i).tree.Wf := (S.locked i hi).wf

theorem Sound.lawful (hn : 0 < n) (hbyz : byz.card ≤ Quorum.maxFaulty n)
    (hone : ∃ i, i ∉ byz) : (ballots byz s).Lawful := by
  refine S.voters.lawful hn hbyz hone ?_
  intro i hi o ho
  have k := S.locked i hi
  have hd : (s i).delivered o.1 = true := (k.bound o ho).1
  -- The chain that the vote obliged the replica to lock.
  obtain ⟨q, hq, -⟩ := S.backing.closed i hi o.1 hd
  have hqd := ((S.backing.closed i hi).spec k.wf hd hq).1
  obtain ⟨q', hq', -⟩ := S.backing.closed i hi q hqd
  have hqd' := ((S.backing.closed i hi).spec k.wf hqd hq').1
  change (ballots byz s).height ((ballots byz s).justify ((ballots byz s).justify o.1)) ≤ _
  rw [(S.voters.ballots_eq hi hd).2.2 q hq, (S.voters.ballots_eq hi hqd).2.2 q' hq',
    (S.voters.ballots_eq hi hqd').2.1]
  exact (k.casts o ho).obliged q q' hq hq'

theorem Sound.threeChain {i : Fin n} (hi : i ∉ byz) {b b1 b2 nblk : Hash}
    (hc : Ledger.Decisive (s i).tree b b1 b2 nblk) (hroot : nblk ≠ b0) :
    (ballots byz s).ThreeChain b b1 b2 := by
  have k := S.locked i hi
  have hb2 := ((S.backing.closed i hi).spec k.wf hc.tip hc.third).1
  have hb1 := ((S.backing.closed i hi).spec k.wf hb2 hc.second).1
  have hne : ∀ x p, (s i).tree.parent0 x = some p → x ≠ b0 := by
    rintro x p hp rfl
    exact absurd (k.wf.ranked.root_top.symm.trans hp) (by simp)
  have hne2 := hne b2 b1 hc.parent2
  have hne1 := hne b1 b hc.parent1
  refine ⟨S.voters.backed hi (.inr ⟨b1, hb1, hne1, hc.first⟩), ?_, ?_,
    (S.voters.ballots_eq hi hb1).1.trans hc.parent1,
    (S.voters.ballots_eq hi hb2).1.trans hc.parent2, ?_⟩
  · rcases S.backing.certified i hi b2 b1 hb2 hne2 hc.second with h | h
    · exact absurd h hne1
    · exact h
  · rcases S.backing.certified i hi nblk b2 hc.tip hroot hc.third with h | h
    · exact absurd h hne2
    · exact h
  · change (ballots byz s).justify ((ballots byz s).justify b2) = b
    rw [(S.voters.ballots_eq hi hb2).2.2 b1 hc.second, (S.voters.ballots_eq hi hb1).2.2 b hc.first]

theorem Sound.decisive_root {i : Fin n} (hi : i ∉ byz) {b b1 b2 nblk : Hash}
    (hc : Ledger.Decisive (s i).tree b b1 b2 nblk) : nblk ≠ b0 := by
  rintro rfl
  have k := S.locked i hi
  obtain ⟨r, hr, -, -, -, hq⟩ := k.wf.genesis
  have hb2 : some b2 = some b0 := hc.third.symm.trans ((Tree.qcRef_of hr).trans hq)
  have hp := hc.parent2
  rw [Option.some.inj hb2] at hp
  exact absurd (k.wf.ranked.root_top.symm.trans hp) (by simp)

theorem Sound.settled (hn : 0 < n) (hbyz : byz.card ≤ Quorum.maxFaulty n) {i : Fin n}
    (hi : i ∉ byz) {b b1 b2 nblk : Hash} (hc : Ledger.Decisive (s i).tree b b1 b2 nblk) :
    (ballots byz s).Settled b :=
  (S.lawful hn hbyz ⟨i, hi⟩).three_chain (S.threeChain hi hc (S.decisive_root hi hc))

theorem Sound.exec_settled (hn : 0 < n) (hbyz : byz.card ≤ Quorum.maxFaulty n) {i : Fin n}
    (hi : i ∉ byz) : (ballots byz s).Settled (s i).bExec := by
  rcases (S.locked i hi).decisive with h0 | ⟨b1, b2, nblk, hc⟩
  · rw [show (s i).bExec = b0 from h0]
    exact (S.lawful hn hbyz ⟨i, hi⟩).settled_root
  · exact S.settled hn hbyz hi hc

theorem Sound.update (hn : 0 < n) (hbyz : byz.card ≤ Quorum.maxFaulty n) {i : Fin n}
    (hi : i ∉ byz) {nblk : Hash} (hd : (s i).delivered nblk = true)
    (hlow : (s i).ledger.Low) :
    ((s i).update nblk).2 = none ∧ ((s i).update nblk).1.ledger.Locked ∧
      ((s i).update nblk).1.Ready nblk ∧
      ∀ q q', ((s i).update nblk).1.qcRef nblk = some q →
        ((s i).update nblk).1.qcRef q = some q' →
        ((s i).update nblk).1.height q' ≤
          ((s i).update nblk).1.height ((s i).update nblk).1.bLock := by
  have k := S.locked i hi
  have cl := S.backing.closed i hi
  obtain ⟨b2, h2, -⟩ := cl nblk hd
  have hb2 := (cl.spec k.wf hd h2).1
  obtain ⟨b1, h1, -⟩ := cl b2 hb2
  have hb1 := (cl.spec k.wf hb2 h1).1
  obtain ⟨b, h0, -⟩ := cl b1 hb1
  obtain ⟨hnone, hup⟩ := Replica.update_spec k.toChained cl hd h2 h1 h0 fun hdec hp2 hp1 =>
    S.voters.commit_safe (S.lawful hn hbyz ⟨i, hi⟩) hi (S.exec_settled hn hbyz hi)
      (S.settled hn hbyz hi ⟨hd, h2, h1, h0, hp2, hp1⟩) (k.wf.parent_delivered hp1) hdec
  obtain ⟨hlocked, hob, hready⟩ := hup.locked k cl hd h2 h1 h0
  refine ⟨hnone, hlocked, hready hlow, ?_⟩
  have g := hup.steps.grows
  generalize ((s i).update nblk).1 = u at hup hob hlocked g
  intro q q' hq hq'
  obtain rfl : b2 = q := Option.some.inj (h2.symm.trans ((g.qcRef hd).symm.trans hq))
  obtain rfl : b1 = q' := Option.some.inj (h1.symm.trans ((g.qcRef hb2).symm.trans hq'))
  have hlockd : (s i).delivered u.bLock = true := by
    rcases hup.lock with hl | ⟨hl, -⟩
    · rw [hl]
      exact k.lock_delivered
    · rw [hl]
      exact hb1
  rw [show u.height b1 = (s i).height b1 from g.height hb1,
    show u.height u.bLock = (s i).height u.bLock from g.height hlockd]
  exact hob

end

end Cluster

end AvaHotstuff
