import AvaHotstuff.Voting

set_option autoImplicit false

namespace AvaHotstuff
open Ancestry

/-- Every delivered block certifies a block of its own branch, below it. -/
def Tree.Closed (t : Tree) : Prop :=
  ∀ h, t.delivered h = true → ∃ q, t.qcRef h = some q ∧ Anc t.parent0 q h ∧ (h ≠ b0 → q ≠ h)

theorem Tree.Closed.spec {t : Tree} (cl : t.Closed) (w : t.Wf) {h q : Hash}
    (hd : t.delivered h = true) (hq : t.qcRef h = some q) :
    t.delivered q = true ∧ Anc t.parent0 q h ∧ (h ≠ b0 → t.height q < t.height h) := by
  obtain ⟨q', hq', hanc, hne⟩ := cl h hd
  obtain rfl : q' = q := Option.some.inj (hq'.symm.trans hq)
  refine ⟨(w.ranked.anc_spec hd hanc).1, hanc, ?_⟩
  intro h0
  exact w.ranked.anc_height_lt hd hanc (hne h0)

namespace Replica
variable {s : Replica}

theorem walk_total (w : s.tree.Wf) {b : Hash} (hb : s.delivered b = true) (bound : ℕ) :
    ∃ q e, s.walk bound b = some (q, e) :=
  w.ranked.walk_total hb (Nat.le_add_right ..)

theorem walk_end_iff (w : s.tree.Wf) {a b e : Hash} {q : List Hash} (hb : s.delivered b = true)
    (hw : s.walk (s.height a) b = some (q, e)) : e = a ↔ Anc s.parent0 a b :=
  w.ranked.walk_end_iff hb hw

theorem checkAncestry_iff (w : s.tree.Wf) {a b : Hash} (hb : s.delivered b = true) :
    s.checkAncestry a b = true ↔ Anc s.parent0 a b := by
  refine ⟨checkAncestry_anc, ?_⟩
  intro h
  obtain ⟨q, e, hw⟩ := walk_total w hb (s.height a)
  unfold checkAncestry
  rw [hw]
  exact decide_eq_true ((walk_end_iff w hb hw).mpr h)

theorem commit_spec (w : s.tree.Wf) {b : Hash} (hb : s.delivered b = true)
    (hanc : Anc s.parent0 s.bExec b) :
    (s.commit b).2 = none ∧ (s.commit b).1.bExec = b ∧
      Ledger.Advances s.ledger (s.commit b).1.ledger := by
  have hadv := commit_ledger w hb
  obtain ⟨q, e, hw⟩ := walk_total w hb (s.height s.bExec)
  have he := (walk_end_iff w hb hw).mpr hanc
  unfold commit at hadv ⊢
  rw [hw] at hadv ⊢
  simp only [he, ne_eq, not_true_eq_false, if_false] at hadv ⊢
  exact ⟨trivial, trivial, hadv⟩

theorem updateLock_bLock (b : Hash) :
    (s.updateLock b).bLock = s.bLock ∧ s.height b ≤ s.height s.bLock ∨
      (s.updateLock b).bLock = b ∧ s.height s.bLock < s.height b := by
  unfold updateLock
  split
  · exact .inr ⟨rfl, by assumption⟩
  · exact .inl ⟨rfl, by omega⟩

theorem updateLock_rest (b : Hash) : (s.updateLock b).tree = s.tree ∧
    (s.updateLock b).bExec = s.bExec ∧ (s.updateLock b).ledger.vheight = s.vheight ∧
    (s.updateLock b).ledger.log = s.ledger.log := by
  unfold updateLock
  split <;> exact ⟨rfl, rfl, rfl, rfl⟩

theorem updateExec_spec (w : s.tree.Wf) {b2 b1 b : Hash} (hb2 : s.delivered b2 = true)
    (hb1 : s.delivered b1 = true) (hne2 : b2 ≠ b0) (hne1 : b1 ≠ b0)
    (h0 : s.qcRef b1 = some b)
    (hsafe : s.decided b = false → s.parent0 b2 = some b1 → s.parent0 b1 = some b →
      Anc s.parent0 s.bExec b) :
    (s.updateExec b2 b1).2 = none ∧ Ledger.Advances s.ledger (s.updateExec b2 b1).1.ledger ∧
      ((s.updateExec b2 b1).1.bExec = s.bExec ∨ (s.updateExec b2 b1).1.bExec = b ∧
        s.parent0 b2 = some b1 ∧ s.parent0 b1 = some b) := by
  have hadv := updateExec_ledger w b2 b1
  refine ⟨?_, hadv, ?_⟩
  all_goals
    unfold updateExec
    rw [h0]
    obtain ⟨p2, hp2, -, -⟩ := w.ranked.up b2 hb2 hne2
    obtain ⟨p1, hp1, -, -⟩ := w.ranked.up b1 hb1 hne1
    rw [show s.parent0 b2 = some p2 from hp2, show s.parent0 b1 = some p1 from hp1]
    simp only []
  · split
    · rfl
    rename_i hdec
    split
    · rfl
    rename_i hp2'
    split
    · rfl
    rename_i hp1'
    obtain rfl := not_not.mp hp2'
    obtain rfl := not_not.mp hp1'
    have hd : s.decided p1 = false := by simpa using hdec
    exact (commit_spec w (w.parent_delivered hp1) (hsafe hd hp2 hp1)).1
  · split
    · exact .inl rfl
    rename_i hdec
    split
    · exact .inl rfl
    rename_i hp2'
    split
    · exact .inl rfl
    rename_i hp1'
    obtain rfl := not_not.mp hp2'
    obtain rfl := not_not.mp hp1'
    have hd : s.decided p1 = false := by simpa using hdec
    exact .inr ⟨(commit_spec w (w.parent_delivered hp1) (hsafe hd hp2 hp1)).2.1, rfl, rfl⟩

/-- What `update` leaves of the lock, the last executed block and the log. -/
structure Updated (s u : Replica) (nblk b2 b1 b : Hash) : Prop where
  steps : Ledger.Steps Ledger.Guard.none s.ledger u.ledger
  vheight : u.vheight = s.vheight
  log : ∃ es, u.ledger.log = s.ledger.log ++ es ∧
    ∀ e ∈ es, e.commits = true ∨ e = .updated nblk
  lock : u.bLock = s.bLock ∨ u.bLock = b1 ∧ s.height s.bLock < s.height b1
  raised : s.height b1 ≤ s.height u.bLock ∨ s.decided b2 = true ∨ s.decided b1 = true
  exec : u.bExec = s.bExec ∨ u.bExec = b ∧ s.parent0 b2 = some b1 ∧ s.parent0 b1 = some b ∧
    s.height b1 ≤ s.height u.bLock

theorem Updated.same {nblk b2 b1 b : Hash}
    (hdec : s.decided b2 = true ∨ s.decided b1 = true) {u : Replica}
    (hu : u.ledger = s.ledger.record [.updated nblk]) : Updated s u nblk b2 b1 b := by
  have hlock : u.bLock = s.bLock := congrArg Ledger.bLock hu
  have hexec : u.bExec = s.bExec := congrArg Ledger.bExec hu
  refine ⟨?_, congrArg Ledger.vheight hu, ⟨[.updated nblk], congrArg Ledger.log hu, ?_⟩,
    .inl hlock, .inr hdec, .inl hexec⟩
  · rw [hu]
    exact (Ledger.Step.note (e := .updated nblk) trivial).steps
  · intro e he
    exact .inr (List.mem_singleton.mp he)

theorem decided_ne_genesis {L : Ledger} (c : L.Chained) {h : Hash}
    (hd : ¬L.tree.decided h = true) : h ≠ b0 := by
  rintro rfl
  exact hd ((c.decided b0).mpr (.inl rfl))

theorem update_spec (c : s.ledger.Chained) (cl : s.tree.Closed) {nblk b2 b1 b : Hash}
    (hd : s.delivered nblk = true) (h2 : s.qcRef nblk = some b2) (h1 : s.qcRef b2 = some b1)
    (h0 : s.qcRef b1 = some b)
    (hsafe : s.decided b = false → s.parent0 b2 = some b1 → s.parent0 b1 = some b →
      Anc s.parent0 s.bExec b) :
    (s.update nblk).2 = none ∧ Updated s (s.update nblk).1 nblk b2 b1 b := by
  have w : s.tree.Wf := c.wf
  have hb2 := (cl.spec w hd h2).1
  have hb1 := (cl.spec w hb2 h1).1
  obtain ⟨n, hn, hnd⟩ := Tree.exists_of_delivered hd
  obtain ⟨blk, hblk, rfl⟩ := s.cache_of_tree hn
  have hq : blk.qcRef = some b2 := (Tree.qcRef_of hn).symm.trans h2
  unfold update updateChain
  rw [hblk]
  simp only [hq]
  by_cases hdec2 : s.decided b2 = true
  · rw [if_pos hdec2, Outcome.andThen_return]
    exact ⟨rfl, .same (.inl hdec2) (s.emit_ledger_on rfl)⟩
  rw [if_neg hdec2]
  have hhqc := s.updateHqc_ledger b2 blk.body.qc
  generalize s.updateHqc b2 blk.body.qc = t at hhqc
  have httree : t.tree = s.tree := congrArg Ledger.tree hhqc
  have htq : t.qcRef b2 = some b1 := by
    unfold Replica.qcRef
    rw [httree]
    exact h1
  have htd : t.decided b1 = s.decided b1 := by
    unfold Replica.decided
    rw [httree]
  rw [htq]
  simp only [htd]
  by_cases hdec1 : s.decided b1 = true
  · rw [if_pos hdec1, Outcome.andThen_return]
    refine ⟨rfl, .same (.inr hdec1) ?_⟩
    simp only []
    rw [emit_ledger_on _ rfl, hhqc]
  rw [if_neg hdec1]
  have hlock := t.updateLock_bLock b1
  have hsteps := updateLock_steps (G := Ledger.Guard.none)
    (s := t) b1
  obtain ⟨hvtree, hvexec, hvv, hvlog⟩ := t.updateLock_rest b1
  generalize t.updateLock b1 = v at hlock hsteps hvtree hvexec hvv hvlog
  have htree : v.tree = s.tree := hvtree.trans httree
  have hheight : ∀ x, t.height x = s.height x := fun x => by
    unfold Replica.height
    rw [httree]
  have hexec : v.bExec = s.bExec := hvexec.trans (congrArg Ledger.bExec hhqc)
  have hspec : (v.updateExec b2 b1).2 = none ∧
      Ledger.Advances v.ledger (v.updateExec b2 b1).1.ledger ∧
      ((v.updateExec b2 b1).1.bExec = v.bExec ∨ (v.updateExec b2 b1).1.bExec = b ∧
        v.parent0 b2 = some b1 ∧ v.parent0 b1 = some b) := by
    refine updateExec_spec ?_ ?_ ?_ (decided_ne_genesis c hdec2) (decided_ne_genesis c hdec1)
      ?_ ?_
    all_goals
      unfold Replica.delivered Replica.qcRef Replica.decided Replica.parent0 at *
      rw [htree]
    · exact w
    · exact hb2
    · exact hb1
    · exact h0
    · rw [hexec]
      exact hsafe
  obtain ⟨hnone, hadv, hex⟩ := hspec
  generalize v.updateExec b2 b1 = r at hnone hadv hex
  obtain ⟨u, e⟩ := r
  obtain rfl : e = none := hnone
  rw [Outcome.andThen_return]
  obtain ⟨hulock, huv, es, hes, hcom⟩ := hadv.log
  have hu := u.emit_ledger_on (e := .updated nblk) rfl
  have hlock' : u.bLock = s.bLock ∧ s.height b1 ≤ s.height s.bLock ∨
      u.bLock = b1 ∧ s.height s.bLock < s.height b1 := by
    have htl : t.bLock = s.bLock := congrArg Ledger.bLock hhqc
    have hul : u.bLock = v.bLock := hulock
    rw [hheight, hheight, htl] at hlock
    rw [hul]
    exact hlock
  have hraised : s.height b1 ≤ s.height u.bLock := by
    rcases hlock' with ⟨hl, hle⟩ | ⟨hl, -⟩
    · rw [hl]
      exact hle
    · rw [hl]
  refine ⟨rfl, ?_, ?_, ⟨es ++ [.updated nblk], ?_, ?_⟩, ?_, .inl hraised, ?_⟩
  · rw [hu, ← hhqc]
    exact (hsteps.trans hadv.steps).trans (Ledger.Step.note (e := .updated nblk) trivial).steps
  · exact (huv.trans hvv).trans (congrArg Ledger.vheight hhqc)
  · rw [hu, Ledger.record_log, hes, hvlog, hhqc, List.append_assoc]
  · intro x hx
    rcases List.mem_append.mp hx with hx | hx
    · exact .inl (hcom x hx)
    · exact .inr (List.mem_singleton.mp hx)
  · rcases hlock' with ⟨hl, -⟩ | hl
    · exact .inl hl
    · exact .inr hl
  · have hp : v.parent0 = s.parent0 := by
      unfold Replica.parent0
      rw [htree]
    rw [hp, hexec] at hex
    rcases hex with hex | ⟨hex, hp2, hp1⟩
    · exact .inl hex
    · exact .inr ⟨hex, hp2, hp1, hraised⟩

end Replica

namespace Ledger

/-- The genesis block, or a block that a delivered block certifies. -/
def Referenced (L : Ledger) (h : Hash) : Prop :=
  h = b0 ∨ ∃ n, L.tree.delivered n = true ∧ n ≠ b0 ∧ L.tree.qcRef n = some h

structure Cast (L : Ledger) (w l : Hash) : Prop where
  lock : L.tree.delivered l = true
  ref : L.Referenced l
  le : L.tree.height l ≤ L.tree.height L.bLock
  below : L.tree.height l < L.tree.height w
  rule : (∃ q, L.tree.qcRef w = some q ∧ L.tree.height l < L.tree.height q) ∨
    Anc L.tree.parent0 l w
  obliged : ∀ q q', L.tree.qcRef w = some q → L.tree.qcRef q = some q' →
    L.tree.height q' ≤ L.tree.height l

structure Decisive (t : Tree) (b b1 b2 nblk : Hash) : Prop where
  tip : t.delivered nblk = true
  third : t.qcRef nblk = some b2
  second : t.qcRef b2 = some b1
  first : t.qcRef b1 = some b
  parent2 : t.parent0 b2 = some b1
  parent1 : t.parent0 b1 = some b

structure Locked (L : Ledger) : Prop extends Voting L where
  lock_delivered : L.tree.delivered L.bLock = true
  lock_ref : L.Referenced L.bLock
  exec_le : L.tree.height L.bExec ≤ L.tree.height L.bLock
  decisive : L.bExec = b0 ∨ ∃ b1 b2 nblk, Decisive L.tree L.bExec b1 b2 nblk
  locks : (opinions L.log).Pairwise fun u w => L.tree.height u.2 ≤ L.tree.height w.2
  casts : ∀ o ∈ opinions L.log, L.Cast o.1 o.2

/-- What the locks keep whatever chain a commit takes. -/
structure Held (L : Ledger) : Prop extends Voting L where
  lock_delivered : L.tree.delivered L.bLock = true
  lock_ref : L.Referenced L.bLock
  exec_le : L.tree.height L.bExec ≤ L.tree.height L.bLock
  locks : (opinions L.log).Pairwise fun u w => L.tree.height u.2 ≤ L.tree.height w.2
  casts : ∀ o ∈ opinions L.log, L.Cast o.1 o.2

theorem Locked.held {L : Ledger} (k : L.Locked) : L.Held :=
  ⟨k.toVoting, k.lock_delivered, k.lock_ref, k.exec_le, k.locks, k.casts⟩

theorem Held.locked {L : Ledger} (k : L.Held)
    (h : L.bExec = b0 ∨ ∃ b1 b2 nblk, Decisive L.tree L.bExec b1 b2 nblk) : L.Locked :=
  ⟨k.toVoting, k.lock_delivered, k.lock_ref, k.exec_le, h, k.locks, k.casts⟩

def Low (L : Ledger) : Prop := L.bLock = b0 ∨ L.tree.height L.bLock < L.vheight

section
variable {L M : Ledger} (g : Tree.Grows L.tree M.tree)
include g

theorem Referenced.mono {h : Hash} (r : L.Referenced h) : M.Referenced h := by
  rcases r with rfl | ⟨n, hd, hn, hq⟩
  · exact .inl rfl
  · exact .inr ⟨n, g.delivered hd, hn, (g.qcRef hd).trans hq⟩

theorem Decisive.mono (w : L.tree.Wf) (cl : L.tree.Closed) {b b1 b2 nblk : Hash}
    (d : Decisive L.tree b b1 b2 nblk) : Decisive M.tree b b1 b2 nblk := by
  have h2 := (cl.spec w d.tip d.third).1
  have h1 := (cl.spec w h2 d.second).1
  exact ⟨g.delivered d.tip, (g.qcRef d.tip).trans d.third, (g.qcRef h2).trans d.second,
    (g.qcRef h1).trans d.first, (g.parent0 h2).trans d.parent2, (g.parent0 h1).trans d.parent1⟩

theorem Cast.mono (wf : L.tree.Wf) (cl : L.tree.Closed) {w l : Hash} (c : L.Cast w l)
    (hw : L.tree.delivered w = true) (hlock : L.tree.delivered L.bLock = true)
    (hle : M.tree.height L.bLock ≤ M.tree.height M.bLock) : M.Cast w l := by
  have hl := g.height c.lock
  refine ⟨g.delivered c.lock, c.ref.mono g, ?_, ?_, ?_, ?_⟩
  · rw [g.height hlock] at hle
    rw [hl]
    exact Nat.le_trans c.le hle
  · rw [hl, g.height hw]
    exact c.below
  · rcases c.rule with ⟨q, hq, hlt⟩ | hanc
    · refine .inl ⟨q, (g.qcRef hw).trans hq, ?_⟩
      rw [hl, g.height (cl.spec wf hw hq).1]
      exact hlt
    · exact .inr (g.anc wf hw hanc)
  · intro q q' hq hq'
    rw [g.qcRef hw] at hq
    have hqd := (cl.spec wf hw hq).1
    rw [g.qcRef hqd] at hq'
    rw [hl, g.height (cl.spec wf hqd hq').1]
    exact c.obliged q q' hq hq'

theorem Held.keep (k : Held L) (cl : L.tree.Closed) (v : Voting M)
    (ho : opinions M.log = opinions L.log)
    (hd : M.tree.delivered M.bLock = true) (href : M.Referenced M.bLock)
    (hle : M.tree.height L.bLock ≤ M.tree.height M.bLock)
    (hexec : M.tree.height M.bExec ≤ M.tree.height M.bLock) : Held M := by
  refine ⟨v, hd, href, hexec, ?_, ?_⟩
  · rw [ho]
    refine k.locks.imp_of_mem ?_
    intro u w hu hw huw
    rw [g.height (k.casts u hu).lock, g.height (k.casts w hw).lock]
    exact huw
  · intro o hmem
    rw [ho] at hmem
    exact (k.casts o hmem).mono g k.wf cl (k.bound o hmem).1 k.lock_delivered hle

theorem Held.grow (k : Held L) (cl : L.tree.Closed) (v : Voting M)
    (hlog : M.log = L.log) (hlock : M.bLock = L.bLock) (hexec : M.bExec = L.bExec) :
    Held M := by
  refine k.keep g cl v (by rw [hlog]) ?_ ?_ ?_ ?_
  · rw [hlock]
    exact g.delivered k.lock_delivered
  · rw [hlock]
    exact k.lock_ref.mono g
  · rw [hlock]
  · rw [hlock, hexec, g.height k.exec, g.height k.lock_delivered]
    exact k.exec_le

theorem Locked.grow (k : Locked L) (cl : L.tree.Closed) (v : Voting M)
    (hlog : M.log = L.log) (hlock : M.bLock = L.bLock) (hexec : M.bExec = L.bExec) :
    Locked M := by
  refine (k.held.grow g cl v hlog hlock hexec).locked ?_
  rw [hexec]
  rcases k.decisive with h0 | ⟨b1, b2, nblk, hdec⟩
  · exact .inl h0
  · exact .inr ⟨b1, b2, nblk, hdec.mono g k.wf cl⟩

theorem Low.grow (hlow : Low L) (hd : L.tree.delivered L.bLock = true)
    (hlock : M.bLock = L.bLock) (hv : M.vheight = L.vheight) : Low M := by
  rcases hlow with h | h
  · exact .inl (hlock.trans h)
  · refine .inr ?_
    rw [hlock, hv, g.height hd]
    exact h

end

theorem opinions_vote (L : Ledger) (h : Hash) :
    opinions (L.record [.vote h]).log = opinions L.log := by
  rw [record_log, opinions_append]
  exact List.append_nil _

theorem opinions_opine (L : Ledger) (h : Hash) :
    opinions (L.opine h).log = opinions L.log ++ [(h, L.bLock)] := by
  unfold Ledger.opine
  rw [record_log, opinions_append]
  rfl

theorem Held.vote {L : Ledger} (k : L.Held) {h : Hash}
    (ho : ∃ l, Event.opinion h l ∈ L.log) : (L.record [.vote h]).Held := by
  have v : (L.record [.vote h]).Voting :=
    (Step.note (G := Guard.none)
      (e := .vote h) ho).voting (fun _ h => h.elim) k.toVoting
  refine ⟨v, k.lock_delivered, k.lock_ref, k.exec_le, L.opinions_vote h ▸ k.locks, ?_⟩
  intro o hmem
  rw [L.opinions_vote] at hmem
  obtain ⟨h1, h2, h3, h4, h5, h6⟩ := k.casts o hmem
  exact ⟨h1, h2, h3, h4, h5, h6⟩

theorem Held.opine {L : Ledger} (k : L.Held) {h : Hash} (hd : L.tree.delivered h = true)
    (hv : L.vheight < L.tree.height h) (hbelow : L.tree.height L.bLock < L.tree.height h)
    (hrule : (∃ q, L.tree.qcRef h = some q ∧ L.tree.height L.bLock < L.tree.height q) ∨
      Anc L.tree.parent0 L.bLock h)
    (hob : ∀ q q', L.tree.qcRef h = some q → L.tree.qcRef q = some q' →
      L.tree.height q' ≤ L.tree.height L.bLock) : (L.opine h).Held := by
  refine ⟨k.toVoting.opine hd hv, k.lock_delivered, k.lock_ref, k.exec_le, ?_, ?_⟩
  · rw [L.opinions_opine, List.pairwise_append]
    refine ⟨k.locks, List.pairwise_singleton .., ?_⟩
    intro o ho x hx
    rw [List.mem_singleton.mp hx]
    exact (k.casts o ho).le
  · intro o ho
    rw [L.opinions_opine] at ho
    rcases List.mem_append.mp ho with ho | ho
    · obtain ⟨h1, h2, h3, h4, h5, h6⟩ := k.casts o ho
      exact ⟨h1, h2, h3, h4, h5, h6⟩
    · rw [List.mem_singleton.mp ho]
      exact ⟨k.lock_delivered, k.lock_ref, Nat.le_refl _, hbelow, hrule, hob⟩

theorem Steps.voting {L M : Ledger} {G : Guard} (hs : Steps G L M)
    (hG : ∀ L h, G.opine L h → L.tree.delivered h = true) (v : Voting L) : Voting M :=
  hs.invariant v fun L _ hstep => hstep.voting (hG L)

end Ledger

namespace Replica
variable {s u : Replica}

/-- The lock is below the last opinion, or below the block that `w` certifies. -/
def Ready (s : Replica) (w : Hash) : Prop :=
  s.ledger.Low ∨ ∃ q, s.qcRef w = some q ∧ s.height s.bLock < s.height q

theorem opinions_updated {L M : Ledger} {nblk : Hash} (hlog : ∃ es, M.log = L.log ++ es ∧
    ∀ e ∈ es, e.commits = true ∨ e = .updated nblk) : opinions M.log = opinions L.log := by
  obtain ⟨es, hlog, hes⟩ := hlog
  rw [hlog, opinions_append]
  have hnil : opinions es = [] := by
    unfold opinions
    rw [List.filterMap_eq_nil_iff]
    intro e he
    rcases hes e he with hc | rfl
    · cases e <;> first | rfl | exact absurd hc (by simp [Event.commits])
    · rfl
  rw [hnil, List.append_nil]

theorem Updated.locked {nblk b2 b1 b : Hash} (up : Updated s u nblk b2 b1 b)
    (k : s.ledger.Locked) (cl : s.tree.Closed) (hd : s.delivered nblk = true)
    (h2 : s.qcRef nblk = some b2) (h1 : s.qcRef b2 = some b1) (h0 : s.qcRef b1 = some b) :
    u.ledger.Locked ∧ s.height b1 ≤ s.height u.bLock ∧ (s.ledger.Low → u.Ready nblk) := by
  have g := up.steps.grows
  have v : u.ledger.Voting := up.steps.voting (fun _ _ h => h.elim) k.toVoting
  have hb2 := cl.spec k.wf hd h2
  have hb1 := cl.spec k.wf hb2.1 h1
  have hb1le : s.height b1 ≤ s.height b2 := (k.wf.ranked.anc_spec hb2.1 hb1.2.1).2
  have hmono : s.height s.bLock ≤ s.height u.bLock := by
    rcases up.lock with hl | ⟨hl, hlt⟩
    · rw [hl]
    · rw [hl]
      exact Nat.le_of_lt hlt
  have hob : s.height b1 ≤ s.height u.bLock := by
    have hexec : s.height s.bExec ≤ s.height s.bLock := k.exec_le
    rcases up.raised with h | h | h
    · exact h
    · have : s.height b2 ≤ s.height s.bExec := k.decided_height h
      omega
    · have : s.height b1 ≤ s.height s.bExec := k.decided_height h
      omega
  have hlockd : s.delivered u.bLock = true := by
    rcases up.lock with hl | ⟨hl, -⟩
    · rw [hl]
      exact k.lock_delivered
    · rw [hl]
      exact hb1.1
  have hulock : u.height u.bLock = s.height u.bLock := g.height hlockd
  refine ⟨?_, hob, ?_⟩
  · refine (k.held.keep g cl v (opinions_updated up.log) (g.delivered hlockd) ?_ ?_ ?_).locked ?_
    · change Ledger.Referenced u.ledger u.bLock
      rcases up.lock with hl | ⟨hl, hlt⟩
      · rw [hl]
        exact k.lock_ref.mono g
      · rw [hl]
        refine .inr ⟨b2, g.delivered hb2.1, ?_, (g.qcRef hb2.1).trans h1⟩
        rintro rfl
        have : s.height b0 = 0 := k.wf.height_genesis
        omega
    · change u.height s.bLock ≤ u.height u.bLock
      rw [hulock, show u.height s.bLock = s.height s.bLock from g.height k.lock_delivered]
      exact hmono
    · change u.height u.bExec ≤ u.height u.bLock
      rw [hulock]
      rcases up.exec with he | ⟨he, -, hp1, hle⟩
      · rw [he, show u.height s.bExec = s.height s.bExec from g.height k.exec]
        exact Nat.le_trans k.exec_le hmono
      · have hb := k.wf.ranked.parent_spec hb1.1 hp1
        have hbh : s.height b1 = s.height b + 1 := hb.2
        rw [he, show u.height b = s.height b from g.height hb.1]
        omega
    · change u.bExec = b0 ∨ ∃ b1 b2 nblk, Ledger.Decisive u.tree u.bExec b1 b2 nblk
      rcases up.exec with he | ⟨he, hp2, hp1, -⟩
      · rw [he]
        rcases k.decisive with h | ⟨x1, x2, x, hdec⟩
        · exact .inl h
        · exact .inr ⟨x1, x2, x, hdec.mono g k.wf cl⟩
      · rw [he]
        have hdec : Ledger.Decisive s.ledger.tree b b1 b2 nblk := ⟨hd, h2, h1, h0, hp2, hp1⟩
        exact .inr ⟨b1, b2, nblk, hdec.mono g k.wf cl⟩
  · intro hlow
    rcases up.lock with hl | ⟨hl, hlt⟩
    · exact .inl (hlow.grow g k.lock_delivered hl up.vheight)
    · refine .inr ⟨b2, (g.qcRef hd).trans h2, ?_⟩
      have hlt2 : s.height b1 < s.height b2 := by
        refine hb1.2.2 ?_
        rintro rfl
        have : s.height b0 = 0 := k.wf.height_genesis
        omega
      rw [hulock, hl, show u.height b2 = s.height b2 from g.height hb2.1]
      exact hlt2

theorem opinion_cases (w : s.tree.Wf) {bnew : Hash} (hd : s.delivered bnew = true) :
    (s.opinion bnew = some true ∧ s.vheight < s.height bnew ∧
      ((∃ q, s.qcRef bnew = some q ∧ s.height s.bLock < s.height q) ∨
        Anc s.parent0 s.bLock bnew)) ∨
    (s.opinion bnew = some false ∧ (s.height bnew ≤ s.vheight ∨ ¬Anc s.parent0 s.bLock bnew ∧
      ∀ q, s.qcRef bnew = some q → s.height q ≤ s.height s.bLock)) := by
  obtain ⟨l, e, hw⟩ := walk_total w hd (s.height s.bLock)
  have he := walk_end_iff w hd hw
  unfold opinion
  by_cases hv : s.height bnew > s.vheight
  · rw [if_pos hv]
    cases hq : s.qcRef bnew with
    | none =>
      rw [hw]
      by_cases hanc : Anc s.parent0 s.bLock bnew
      · exact .inl ⟨by simp [he.mpr hanc], hv, .inr hanc⟩
      · have hne : e ≠ s.bLock := fun h => hanc (he.mp h)
        exact .inr ⟨by simp [hne], .inr ⟨hanc, fun q h => absurd h (by simp)⟩⟩
    | some q =>
      by_cases hlt : s.height s.bLock < s.height q
      · exact .inl ⟨by simp [hlt], hv, .inl ⟨q, rfl, hlt⟩⟩
      · rw [hw]
        have hle : s.height q ≤ s.height s.bLock := by omega
        by_cases hanc : Anc s.parent0 s.bLock bnew
        · exact .inl ⟨by simp [he.mpr hanc], hv, .inr hanc⟩
        · have hne : e ≠ s.bLock := fun h => hanc (he.mp h)
          refine .inr ⟨by simp [hne, hlt], .inr ⟨hanc, ?_⟩⟩
          intro q' h
          rw [← Option.some.inj h]
          exact hle
  · rw [if_neg hv]
    exact .inr ⟨rfl, .inl (by omega)⟩

theorem Ready.low (w : s.tree.Wf) (cl : s.tree.Closed) {bnew : Hash}
    (hd : s.delivered bnew = true) (hr : s.Ready bnew) (hle : s.height bnew ≤ s.vheight) :
    s.ledger.Low := by
  rcases hr with h | ⟨q, hq, hlt⟩
  · exact h
  · refine .inr ?_
    have hqh : s.height q ≤ s.height bnew :=
      (w.ranked.anc_spec hd (cl.spec w hd hq).2.1).2
    change s.height s.bLock < s.vheight
    omega

/-- An opinion taken under the rule keeps the invariant and brings the lock below it. -/
theorem opine_locked (k : s.ledger.Locked) (cl : s.tree.Closed) {bnew : Hash}
    (hd : s.delivered bnew = true) (hv : s.vheight < s.height bnew)
    (hob : ∀ q q', s.qcRef bnew = some q → s.qcRef q = some q' →
      s.height q' ≤ s.height s.bLock)
    (hr : s.Ready bnew)
    (hrule : (∃ q, s.qcRef bnew = some q ∧ s.height s.bLock < s.height q) ∨
      Anc s.parent0 s.bLock bnew) :
    (s.ledger.opine bnew).Locked ∧ (s.ledger.opine bnew).Low := by
  have hbelow : s.height s.bLock < s.height bnew := by
    rcases hr with (h | h) | ⟨q, hq, hlt⟩
    · have hroot : s.height b0 = 0 := k.wf.height_genesis
      rw [show s.bLock = b0 from h]
      omega
    · have : s.height s.bLock < s.vheight := h
      omega
    · have hqh : s.height q ≤ s.height bnew :=
        (k.wf.ranked.anc_spec hd (cl.spec k.wf hd hq).2.1).2
      omega
  exact ⟨(k.held.opine hd hv hbelow hrule hob).locked k.decisive, .inr hbelow⟩

theorem judgeProposal_locked (C : Crypto) (selfProp : Bool) (k : s.ledger.Locked)
    (cl : s.tree.Closed) {bnew : Hash} (hd : s.delivered bnew = true)
    (hob : ∀ q q', s.qcRef bnew = some q → s.qcRef q = some q' →
      s.height q' ≤ s.height s.bLock)
    (hr : s.Ready bnew) :
    (s.judgeProposal C selfProp bnew).1.ledger.Locked ∧
      (s.judgeProposal C selfProp bnew).1.ledger.Low := by
  rw [judgeProposal_ledger]
  rcases opinion_cases k.wf hd with ⟨ho, hv, hrule⟩ | ⟨ho, hno⟩
  · rw [if_pos ho]
    obtain ⟨hk, hlow⟩ := opine_locked k cl hd hv hob hr hrule
    split
    · exact ⟨hk, hlow⟩
    · refine ⟨(hk.held.vote ⟨s.bLock, ?_⟩).locked hk.decisive, hlow⟩
      exact List.mem_append_right _ (List.mem_singleton_self _)
  · rw [if_neg (by rw [ho]; simp)]
    refine ⟨k, ?_⟩
    rcases hno with hle | ⟨-, hno⟩
    · exact hr.low k.wf cl hd hle
    · rcases hr with h | ⟨q, hq, hlt⟩
      · exact h
      · have := hno q hq
        omega

end Replica

end AvaHotstuff
