import AvaHotstuff.Agreement
import AvaHotstuff.UpdateOrder

set_option autoImplicit false

namespace AvaHotstuff
open Ancestry

namespace Tree
variable {t t' : Tree} {P : Set Hash}

theorem lockable_grow (g : Grows t t') (w : t.Wf) (cl : t.Closed)
    (hP : ∀ x ∈ P, t.delivered x = true) : t'.lockable P = t.lockable P := by
  ext q
  refine or_congr Iff.rfl (exists_congr fun x => and_congr_right fun hx => ?_)
  rw [g.qcRef (hP x hx)]
  refine exists_congr fun y => and_congr_right fun hy => ?_
  rw [g.qcRef (cl.spec w (hP x hx) hy).1]

theorem decisive_grow (g : Grows t t') (w : t.Wf) (cl : t.Closed) {b b1 b2 x : Hash}
    (hx : t.delivered x = true) :
    Ledger.Decisive t' b b1 b2 x ↔ Ledger.Decisive t b b1 b2 x := by
  constructor
  · intro d
    have h2 : t.qcRef x = some b2 := (g.qcRef hx).symm.trans d.third
    have hd2 : t.delivered b2 = true := (cl.spec w hx h2).1
    have h1 : t.qcRef b2 = some b1 := (g.qcRef hd2).symm.trans d.second
    have hd1 : t.delivered b1 = true := (cl.spec w hd2 h1).1
    exact ⟨hx, h2, h1, (g.qcRef hd1).symm.trans d.first, (g.parent0 hd2).symm.trans d.parent2,
      (g.parent0 hd1).symm.trans d.parent1⟩
  · intro d
    have hd2 : t.delivered b2 = true := (cl.spec w hx d.third).1
    have hd1 : t.delivered b1 = true := (cl.spec w hd2 d.second).1
    exact ⟨g.delivered hx, (g.qcRef hx).trans d.third, (g.qcRef hd2).trans d.second,
      (g.qcRef hd1).trans d.first, (g.parent0 hd2).trans d.parent2,
      (g.parent0 hd1).trans d.parent1⟩

theorem committable_grow (g : Grows t t') (w : t.Wf) (cl : t.Closed)
    (hP : ∀ x ∈ P, t.delivered x = true) : t'.committable P = t.committable P := by
  ext b
  refine or_congr Iff.rfl (exists_congr fun x => and_congr_right fun hx => ?_)
  exact exists_congr fun b1 => exists_congr fun b2 => decisive_grow g w cl (hP x hx)

theorem lockable_delivered (w : t.Wf) (cl : t.Closed) (hP : ∀ x ∈ P, t.delivered x = true) :
    ∀ q ∈ t.lockable P, t.delivered q = true := by
  rintro q (rfl | ⟨x, hx, y, hxy, hyq⟩)
  · exact w.genesis_delivered
  · exact (cl.spec w (cl.spec w (hP x hx) hxy).1 hyq).1

theorem committable_delivered (w : t.Wf) : ∀ b ∈ t.committable P, t.delivered b = true := by
  rintro b (rfl | ⟨x, -, b1, b2, d⟩)
  · exact w.genesis_delivered
  · exact d.delivered w

theorem lockable_highest (g : Grows t t') (w : t.Wf) (cl : t.Closed)
    (hP : ∀ x ∈ P, t.delivered x = true) {a : Hash} (h : Highest t.height (t.lockable P) a) :
    Highest t'.height (t'.lockable P) a := by
  have hd := lockable_delivered w cl hP
  rw [lockable_grow g w cl hP]
  refine ⟨h.mem, fun q hq => ?_⟩
  rw [g.height (hd q hq), g.height (hd a h.mem)]
  exact h.le q hq

theorem committable_highest (g : Grows t t') (w : t.Wf) (cl : t.Closed)
    (hP : ∀ x ∈ P, t.delivered x = true) {a : Hash} (h : Highest t.height (t.committable P) a) :
    Highest t'.height (t'.committable P) a := by
  have hd := committable_delivered (P := P) w
  rw [committable_grow g w cl hP]
  refine ⟨h.mem, fun b hb => ?_⟩
  rw [g.height (hd b hb), g.height (hd a h.mem)]
  exact h.le b hb

end Tree

namespace Ledger
variable {L M : Ledger}

/-- The blocks that `update` has returned from. -/
def processed (L : Ledger) : Set Hash := {x | Event.updated x ∈ L.log}

/-- The lock and the executed block are the highest that the rules give over `processed`. -/
structure Ruled (L : Ledger) : Prop extends Locked L where
  heard : ∀ x ∈ L.processed, L.tree.delivered x = true
  highestLock : Highest L.tree.height (L.tree.lockable L.processed) L.bLock
  highestExec : Highest L.tree.height (L.tree.committable L.processed) L.bExec

theorem Ruled.grow (k : L.Ruled) (g : Tree.Grows L.tree M.tree) (cl : L.tree.Closed)
    (kl : M.Locked) (hp : M.processed = L.processed) (hlock : M.bLock = L.bLock)
    (hexec : M.bExec = L.bExec) : M.Ruled := by
  refine ⟨kl, ?_, ?_, ?_⟩
  · intro x hx
    exact g.delivered (k.heard x (hp ▸ hx))
  · rw [hp, hlock]
    exact Tree.lockable_highest g k.wf cl k.heard k.highestLock
  · rw [hp, hexec]
    exact Tree.committable_highest g k.wf cl k.heard k.highestExec

theorem Ruled.decided_iff (k : L.Ruled) (o : L.tree.Orderly) {b : Hash} :
    L.tree.decided b = true ↔ ∃ c ∈ L.tree.committable L.processed, Anc L.tree.parent0 b c := by
  rw [k.decided_iff_anc]
  constructor
  · intro h
    exact ⟨L.bExec, k.highestExec.mem, h⟩
  · rintro ⟨c, hc, hanc⟩
    refine hanc.trans ?_
    have hdc := Tree.committable_delivered k.wf c hc
    rcases hc with rfl | ⟨x, hx, c1, c2, dc⟩
    · exact k.wf.ranked.root_anc k.exec
    rcases k.highestExec.mem with h0 | ⟨y, hy, e1, e2, de⟩
    · have hle := k.highestExec.le c (.inr ⟨x, hx, c1, c2, dc⟩)
      rw [h0, k.wf.height_genesis] at hle
      rw [k.wf.ranked.eq_root hdc (Nat.le_zero.mp hle)]
      exact k.wf.ranked.root_anc k.exec
    · cases o.branch c c1 c2 x L.bExec e1 e2 y dc de with
      | inl h => exact h
      | inr h =>
        have hle := k.highestExec.le c (.inr ⟨x, hx, c1, c2, dc⟩)
        have heq : L.bExec = c := k.wf.ranked.anc_unique hdc h (.refl c)
          (Nat.le_antisymm (k.wf.ranked.anc_spec hdc h).2 hle)
        rw [heq]
        exact .refl c

end Ledger

namespace Replica
variable {s u : Replica} {x b2 b1 b : Hash}

theorem Updated.processed (up : Updated s u x b2 b1 b) (hmem : Event.updated x ∈ u.ledger.log) :
    u.ledger.processed = insert x s.ledger.processed := by
  obtain ⟨es, hlog, hes⟩ := up.log
  ext y
  constructor
  · intro hy
    have hy' : Event.updated y ∈ s.ledger.log ++ es := hlog ▸ hy
    cases List.mem_append.mp hy' with
    | inl h => exact .inr h
    | inr h =>
      cases hes _ h with
      | inl hc => cases hc
      | inr he => exact .inl (Event.updated.inj he)
  · rintro (rfl | hy)
    · exact hmem
    · change Event.updated y ∈ u.ledger.log
      rw [hlog]
      exact List.mem_append_left es hy

section
variable (k : s.ledger.Ruled) (o : s.tree.Orderly) (hd : s.delivered x = true)
  (h2 : s.qcRef x = some b2) (h1 : s.qcRef b2 = some b1)
include k o hd h2 h1

theorem Updated.highestLock (up : Updated s u x b2 b1 b) :
    Highest s.height (s.tree.lockable (insert x s.ledger.processed)) u.bLock := by
  have hd2 : s.delivered b2 = true := (o.closed.spec k.wf hd h2).1
  have hle12 : s.height b1 ≤ s.height b2 :=
    (k.wf.ranked.anc_spec hd2 (o.closed.spec k.wf hd2 h1).2.1).2
  have hlow : s.height s.bExec ≤ s.height s.bLock := k.exec_le
  have hnew : ∀ a : Hash, s.height b1 ≤ s.height a →
      ∀ q ∈ s.tree.lockable (insert x s.ledger.processed),
        q ∈ s.tree.lockable s.ledger.processed ∨ s.height q ≤ s.height a := by
    intro a ha q hq
    cases Processed.mem_lockable hq with
    | inl h => exact .inl h
    | inr h =>
      obtain ⟨y, hxy, hyq⟩ := h
      obtain rfl : b2 = y := Option.some.inj (h2.symm.trans hxy)
      obtain rfl : b1 = q := Option.some.inj (h1.symm.trans hyq)
      exact .inr ha
  have hraised := up.raised
  cases up.lock with
  | inl hsame =>
    rw [hsame] at hraised ⊢
    refine k.highestLock.extend (Processed.lockable_insert k.highestLock.mem) (Nat.le_refl _)
      (hnew _ ?_)
    rcases hraised with h | h | h
    · exact h
    · have : s.height b2 ≤ s.height s.bExec := k.decided_height h
      omega
    · have : s.height b1 ≤ s.height s.bExec := k.decided_height h
      omega
  | inr hset =>
    obtain ⟨hset, hlt⟩ := hset
    rw [hset]
    exact k.highestLock.extend (.inr ⟨x, .inl rfl, b2, h2, h1⟩) (Nat.le_of_lt hlt)
      (hnew _ (Nat.le_refl _))

/-- A three-chain block that is not decided lies above the executed one. -/
theorem exec_below (h0 : s.qcRef b1 = some b) (hp2 : s.parent0 b2 = some b1)
    (hp1 : s.parent0 b1 = some b) (hdec : s.decided b = false) : Anc s.parent0 s.bExec b := by
  have dnew : Ledger.Decisive s.tree b b1 b2 x := ⟨hd, h2, h1, h0, hp2, hp1⟩
  rcases k.highestExec.mem with h | ⟨y, -, c1, c2, d⟩
  · rw [show s.bExec = b0 from h]
    exact k.wf.ranked.root_anc (dnew.delivered k.wf)
  · cases o.branch _ c1 c2 y b b1 b2 x d dnew with
    | inl hanc => exact hanc
    | inr hanc =>
      have hdec' : s.decided b = true := k.decided_iff_anc.mpr hanc
      rw [hdec] at hdec'
      cases hdec'

theorem update_highestExec (h0 : s.qcRef b1 = some b)
    (up : Updated s (s.update x).1 x b2 b1 b) :
    Highest s.height (s.tree.committable (insert x s.ledger.processed)) (s.update x).1.bExec := by
  have hd2 : s.delivered b2 = true := (o.closed.spec k.wf hd h2).1
  have hd1 : s.delivered b1 = true := (o.closed.spec k.wf hd2 h1).1
  have hmono : s.height s.bExec ≤ s.height (s.update x).1.bExec := by
    have c' : (s.update x).1.ledger.Chained :=
      up.steps.invariant k.toChained fun _ _ hstep => hstep.chained
    have hself : s.ledger.tree.decided s.bExec = true := k.decided_iff_anc.mpr (.refl _)
    have hle := c'.decided_height (up.steps.decided_mono k.toChained hself)
    have hnew : s.delivered (s.update x).1.bExec = true := up.steps.delivered_back c'.exec
    rw [show (s.update x).1.ledger.tree.height s.bExec = s.height s.bExec from
      up.steps.grows.height k.exec, show (s.update x).1.ledger.tree.height
      (s.update x).1.ledger.bExec = s.height (s.update x).1.bExec from
      up.steps.grows.height hnew] at hle
    exact hle
  have hmem : (s.update x).1.bExec ∈ s.tree.committable (insert x s.ledger.processed) := by
    rcases up.exec with h | ⟨h, hp2, hp1, -⟩
    · rw [h]
      exact Processed.committable_insert k.highestExec.mem
    · rw [h]
      exact .inr ⟨x, .inl rfl, b1, b2, hd, h2, h1, h0, hp2, hp1⟩
  refine k.highestExec.extend hmem hmono fun y hy => ?_
  cases Processed.mem_committable hy with
  | inl hold => exact .inl hold
  | inr hnew =>
    obtain ⟨y1, y2, d⟩ := hnew
    obtain rfl : b2 = y2 := Option.some.inj (h2.symm.trans d.third)
    obtain rfl : b1 = y1 := Option.some.inj (h1.symm.trans d.second)
    obtain rfl : b = y := Option.some.inj (h0.symm.trans d.first)
    right
    change s.height b ≤ s.height (s.update x).1.bExec
    have hh2 : s.height b2 = s.height b1 + 1 := (k.wf.ranked.parent_spec hd2 d.parent2).2
    have hh1 : s.height b1 = s.height b + 1 := (k.wf.ranked.parent_spec hd1 d.parent1).2
    by_cases hdec2 : s.decided b2 = true
    · have : s.height b2 ≤ s.height s.bExec := k.decided_height hdec2
      omega
    by_cases hdec1 : s.decided b1 = true
    · have : s.height b1 ≤ s.height s.bExec := k.decided_height hdec1
      omega
    by_cases hdec0 : s.decided b = true
    · have : s.height b ≤ s.height s.bExec := k.decided_height hdec0
      omega
    rw [Bool.not_eq_true] at hdec2 hdec1 hdec0
    have hanc := exec_below k o hd h2 h1 h0 d.parent2 d.parent1 hdec0
    rw [update_commits k.wf h2 h1 h0 hdec2 hdec1 hdec0 d.parent2 d.parent1 hanc]

end

theorem update_links (k : s.ledger.Ruled) (o : s.tree.Orderly) (hd : s.delivered x = true) :
    ∃ b2 b1 b, s.qcRef x = some b2 ∧ s.qcRef b2 = some b1 ∧ s.qcRef b1 = some b ∧
      (s.update x).2 = none ∧ Updated s (s.update x).1 x b2 b1 b := by
  obtain ⟨b2, h2, -⟩ := o.closed x hd
  have hd2 : s.delivered b2 = true := (o.closed.spec k.wf hd h2).1
  obtain ⟨b1, h1, -⟩ := o.closed b2 hd2
  have hd1 : s.delivered b1 = true := (o.closed.spec k.wf hd2 h1).1
  obtain ⟨b, h0, -⟩ := o.closed b1 hd1
  exact ⟨b2, b1, b, h2, h1, h0, update_spec k.toChained o.closed hd h2 h1 h0
    fun hdec hp2 hp1 => exec_below k o hd h2 h1 h0 hp2 hp1 hdec⟩

theorem update_ruled (k : s.ledger.Ruled) (o : s.tree.Orderly) (hd : s.delivered x = true)
    (kl : (s.update x).1.ledger.Locked) : (s.update x).1.ledger.Ruled := by
  obtain ⟨b2, b1, b, h2, h1, h0, hret, up⟩ := update_links k o hd
  have g := up.steps.grows
  have hprocessed := up.processed (update_updated hret)
  have hheard : ∀ y ∈ insert x s.ledger.processed, s.delivered y = true := by
    rintro y (rfl | hy)
    · exact hd
    · exact k.heard y hy
  refine ⟨kl, ?_, ?_, ?_⟩
  · intro y hy
    exact g.delivered (hheard y (hprocessed ▸ hy))
  · rw [hprocessed]
    exact Tree.lockable_highest g k.wf o.closed hheard (up.highestLock k o hd h2 h1)
  · rw [hprocessed]
    exact Tree.committable_highest g k.wf o.closed hheard (update_highestExec k o hd h2 h1 h0 up)

end Replica

namespace Cluster
variable {n : ℕ} {C : Crypto} {byz : Finset (Fin n)} {s : Cluster n} {i : Fin n}

theorem Sound.orderly (S : Sound byz s) (hn : 0 < n) (hbyz : byz.card ≤ Quorum.maxFaulty n)
    (hi : i ∉ byz) : (s i).tree.Orderly := by
  have L := S.lawful hn hbyz ⟨i, hi⟩
  have w := S.wf hi
  have cl := S.backing.closed i hi
  refine ⟨cl, ?_, ?_⟩
  · intro x y q r hx hy hq hr heq
    have href : ∀ z p, (s i).tree.delivered z = true → (s i).tree.qcRef z = some p →
        (ballots byz s).Backed p := by
      intro z p hz hp
      by_cases hz0 : z = b0
      · subst z
        obtain ⟨m, hm, -, -, -, hmq⟩ := w.genesis
        exact .inl (Option.some.inj (hp.symm.trans ((Tree.qcRef_of hm).trans hmq)))
      · exact S.voters.backed hi (.inr ⟨z, hz, hz0, hp⟩)
    have hqd : (s i).delivered q = true := (cl.spec w hx hq).1
    have hrd : (s i).delivered r = true := (cl.spec w hy hr).1
    refine L.backed_unique (href x q hx hq) (href y r hy hr) ?_
    rw [(S.voters.ballots_eq hi hqd).2.1, (S.voters.ballots_eq hi hrd).2.1]
    exact heq
  · intro b b1 b2 x c c1 c2 y db dc
    have hb := S.settled hn hbyz hi db
    have hc := S.settled hn hbyz hi dc
    cases Nat.le_total ((ballots byz s).height b) ((ballots byz s).height c) with
    | inl h => exact .inl ((S.voters.anc hi (dc.delivered w)).mp (L.settled_anc hb hc h))
    | inr h => exact .inr ((S.voters.anc hi (db.delivered w)).mp (L.settled_anc hc hb h))

theorem Kept.unruled (S : Kept Ledger.Ruled byz s) : Kept Ledger.Locked byz s :=
  ⟨fun i hi => (S.kept i hi).toLocked, S.votes, S.backing⟩

theorem processed_of_log {L M : Ledger} (h : M.log = L.log) : M.processed = L.processed := by
  unfold Ledger.processed
  rw [h]

theorem ruler (hn : 0 < n) (hbyz : byz.card ≤ Quorum.maxFaulty n) :
    Keeper byz Replica.update Ledger.Ruled Poised where
  updates _ := Replica.update_updates
  held k := k.held
  grow g cl v hlog hlock hexec k := k.grow g cl (k.toLocked.grow g cl v hlog hlock hexec)
    (processed_of_log hlog) hlock hexec
  judge := by
    intro r bnew C selfProp k cl hd hr
    obtain ⟨kl, hlow⟩ := Replica.judgeProposal_locked C selfProp k.toLocked cl hd hr.2 hr.1
    refine ⟨k.grow ?_ cl kl ?_ ?_ ?_, hlow⟩
    all_goals rw [Replica.judgeProposal_ledger]
    · split
      · split <;> exact .refl _
      · exact .refl _
    · ext y
      split
      · split <;> simp [Ledger.processed, Ledger.opine, Ledger.record]
      · rfl
    · split
      · split <;> rfl
      · rfl
    · split
      · split <;> rfl
      · rfl
  low k cl hd hr hle := hr.1.low k.wf cl hd hle
  safe := by
    intro s i bnew S hi hd hlow
    have hsound : Sound byz s := S.unruled.sound
    obtain ⟨hret, kl, hpoised⟩ := hsound.update hn hbyz hi hd hlow
    exact ⟨hret, Replica.update_ruled (S.kept i hi) (hsound.orderly hn hbyz hi) hd kl, hpoised⟩

theorem start_ruled (c : Fin n → Setup) (i : Fin n) : (start c i).ledger.Ruled := by
  have hnone : (start c i).ledger.processed = ∅ := Set.eq_empty_of_forall_notMem nofun
  refine ⟨start_locked c i, ?_, ?_, ?_⟩
  all_goals rw [hnone]
  · exact nofun
  · refine ⟨.inl rfl, ?_⟩
    rintro q (rfl | ⟨x, hx, -⟩)
    · exact Nat.le_refl _
    · exact hx.elim
  · refine ⟨.inl rfl, ?_⟩
    rintro q (rfl | ⟨x, hx, -⟩)
    · exact Nat.le_refl _
    · exact hx.elim

theorem ruled_of_reach (hbyz : byz.card ≤ Quorum.maxFaulty n) {c : Fin n → Setup}
    (h : Runs.Reach (CoreStep C byz) (step C) (start c) s) (hi : i ∉ byz) :
    (s i).ledger.Ruled ∧ (s i).tree.Orderly ∧ (s i).ledger.Low := by
  rw [coreStep_eq, step_eq_stepWith] at h
  have hn : 0 < n := Fin.pos i
  obtain ⟨S, hlow⟩ := kept_of_reach (ruler hn hbyz) (start_ruled c) h
  exact ⟨S.kept i hi, S.unruled.sound.orderly hn hbyz hi, hlow i hi⟩

/-- At every moment of a run, an honest replica has locked the highest block that the blocks it
has processed allow, and committed exactly the branches below their three-chains. A delivered
block may be processed at any time: `update` returns from it. -/
theorem commits_every_three_chain (hbyz : byz.card ≤ Quorum.maxFaulty n) {c : Fin n → Setup}
    (h : Runs.Reach (CoreStep C byz) (step C) (start c) s) (hi : i ∉ byz) :
    let P : Set Hash := {x | Event.updated x ∈ (s i).trace}
    (∀ x, (s i).delivered x = true → ((s i).update x).2 = none) ∧
      (∀ x ∈ P, (s i).delivered x = true) ∧
      Highest (s i).height ((s i).tree.lockable P) (s i).bLock ∧
      Highest (s i).height ((s i).tree.committable P) (s i).bExec ∧
      ∀ b, (s i).decided b = true ↔
        ∃ t ∈ (s i).tree.committable P, Anc (s i).parent0 b t := by
  intro P
  obtain ⟨k, o, -⟩ := ruled_of_reach hbyz h hi
  have hP : (s i).ledger.processed = P := Set.ext fun x => mem_ledger_log rfl
  rw [← hP]
  refine ⟨?_, k.heard, k.highestLock, k.highestExec, fun b => k.decided_iff o⟩
  intro x hx
  obtain ⟨b2, b1, b, -, -, -, hret, -⟩ := Replica.update_links k o hx
  exact hret

/-- After four rounds the first block is below a three-chain that replica 1 has processed. -/
theorem commits_every_three_chain_four_rounds :
    ∃ t ∈ (fourCluster 1).tree.committable {x | Event.updated x ∈ (fourCluster 1).trace},
      Anc (fourCluster 1).parent0 1 t :=
  ((commits_every_three_chain (by decide) fourCluster_reach (i := 1) (by decide)).2.2.2.2 1).mp
    (by decide +kernel)

end Cluster

end AvaHotstuff
