import AvaHotstuff.Locking
import AvaHotstuff.Head

set_option autoImplicit false

namespace AvaHotstuff
open Ancestry

namespace Ledger

theorem Step.delivered_back {L M : Ledger} (hs : Step Guard.none L M) {h : Hash}
    (hd : M.tree.delivered h = true) : L.tree.delivered h = true := by
  have hput : ∀ (x : Hash) (m n : BlockNode), L.tree x = some m → n.delivered = m.delivered →
      Tree.delivered (Function.update L.tree x (some n)) h = true →
      L.tree.delivered h = true := by
    intro x m n hm hmn hd
    by_cases hx : h = x
    · subst h
      rw [Tree.delivered_of (Function.update_self ..), hmn] at hd
      rw [Tree.delivered_of hm]
      exact hd
    · unfold Tree.delivered at hd ⊢
      rw [Function.update_of_ne hx] at hd
      exact hd
  cases hs with
  | store _ _ _ _ hG => exact hG.elim
  | link stored =>
    refine hput _ _ _ stored ?_ hd
    rfl
  | deliver _ _ _ _ _ hG => exact hG.elim
  | advance stored =>
    refine hput _ _ _ stored ?_ hd
    rfl
  | finishMc _ hG => exact hG.elim
  | _ => exact hd

theorem Steps.delivered_back {L M : Ledger} (hs : Steps Guard.none L M) {h : Hash}
    (hd : M.tree.delivered h = true) : L.tree.delivered h = true :=
  hs.invariant (I := fun N => N.tree.delivered h = true → L.tree.delivered h = true) id
    (fun _ _ hstep ih hN => ih (hstep.delivered_back hN)) hd

theorem Steps.decided_mono {G : Guard} {L M : Ledger} (hs : Steps G L M) (c : L.Chained)
    {h : Hash} (hd : L.tree.decided h = true) : M.tree.decided h = true := by
  have c' : M.Chained := hs.invariant c fun _ _ hstep => hstep.chained
  rw [c'.decided]
  cases (c.decided h).mp hd with
  | inl h0 => exact .inl h0
  | inr hmem =>
    obtain ⟨e, he, heq⟩ := List.mem_filterMap.mp hmem
    exact .inr (List.mem_filterMap.mpr ⟨e, hs.log_mono he, heq⟩)

end Ledger

theorem Tree.Closed.steps {L M : Ledger} (cl : L.tree.Closed) (w : L.tree.Wf)
    (hs : Ledger.Steps Ledger.Guard.none L M) : M.tree.Closed := by
  intro h hd
  have hd' := hs.delivered_back hd
  obtain ⟨q, hq, hanc, hne⟩ := cl h hd'
  exact ⟨q, (hs.grows.qcRef hd').trans hq, hs.grows.anc w hd' hanc, hne⟩

/-- The blocks that the blocks of `P` certify, with the genesis block. -/
def Tree.certified (t : Tree) (P : Set Hash) : Set Hash :=
  {q | q = b0 ∨ ∃ x ∈ P, t.qcRef x = some q}

/-- The blocks certified by those, which `update` may lock. -/
def Tree.lockable (t : Tree) (P : Set Hash) : Set Hash :=
  {q | q = b0 ∨ ∃ x ∈ P, ∃ y, t.qcRef x = some y ∧ t.qcRef y = some q}

/-- The blocks that meet the three-chain commit rule. -/
def Tree.committable (t : Tree) (P : Set Hash) : Set Hash :=
  {b | b = b0 ∨ ∃ x ∈ P, ∃ b1 b2, Ledger.Decisive t b b1 b2 x}

/-- Every certificate is for a proper ancestor, certified blocks of one height are one
block, and the blocks to commit lie on one branch. -/
structure Tree.Orderly (t : Tree) : Prop where
  closed : t.Closed
  certified : ∀ x y q r, t.delivered x = true → t.delivered y = true → t.qcRef x = some q →
    t.qcRef y = some r → t.height q = t.height r → q = r
  branch : ∀ b b1 b2 x c c1 c2 y, Ledger.Decisive t b b1 b2 x → Ledger.Decisive t c c1 c2 y →
    Anc t.parent0 b c ∨ Anc t.parent0 c b

theorem Tree.Wf.injOn {t : Tree} (w : t.Wf) {S : Set Hash} (hd : ∀ q ∈ S, t.delivered q = true)
    (h : ∀ q ∈ S, ∀ r ∈ S, q ≠ b0 → r ≠ b0 → t.height q = t.height r → q = r) :
    Set.InjOn t.height S := by
  intro q hq r hr heq
  by_cases hq0 : q = b0
  · rw [hq0, w.height_genesis] at heq
    rw [hq0]
    exact (w.ranked.eq_root (hd r hr) heq.symm).symm
  by_cases hr0 : r = b0
  · rw [hr0, w.height_genesis] at heq
    rw [hr0]
    exact w.ranked.eq_root (hd q hq) heq
  exact h q hq r hr hq0 hr0 heq

theorem Ledger.Decisive.delivered {t : Tree} (w : t.Wf) {b b1 b2 x : Hash}
    (d : Decisive t b b1 b2 x) : t.delivered b = true := w.parent_delivered d.parent1

namespace Tree.Orderly
variable {t : Tree} (o : t.Orderly) (w : t.Wf) {P : Set Hash}
  (hP : ∀ x ∈ P, t.delivered x = true)
include o w hP

theorem certified_delivered : ∀ q ∈ t.certified P, t.delivered q = true := by
  rintro q (rfl | ⟨x, hx, hxq⟩)
  · exact w.genesis_delivered
  · exact (o.closed.spec w (hP x hx) hxq).1

theorem lockable_delivered : ∀ q ∈ t.lockable P, t.delivered q = true := by
  rintro q (rfl | ⟨x, hx, y, hxy, hyq⟩)
  · exact w.genesis_delivered
  · exact (o.closed.spec w (o.closed.spec w (hP x hx) hxy).1 hyq).1

theorem certified_injOn : Set.InjOn t.height (t.certified P) := by
  apply w.injOn (o.certified_delivered w hP)
  intro q hq r hr hq0 hr0 heq
  obtain ⟨x, hx, hxq⟩ := hq.resolve_left hq0
  obtain ⟨y, hy, hyr⟩ := hr.resolve_left hr0
  exact o.certified x y q r (hP x hx) (hP y hy) hxq hyr heq

theorem lockable_injOn : Set.InjOn t.height (t.lockable P) := by
  apply w.injOn (o.lockable_delivered w hP)
  intro q hq r hr hq0 hr0 heq
  obtain ⟨x, hx, x', hxx, hxq⟩ := hq.resolve_left hq0
  obtain ⟨y, hy, y', hyy, hyr⟩ := hr.resolve_left hr0
  exact o.certified x' y' q r (o.closed.spec w (hP x hx) hxx).1
    (o.closed.spec w (hP y hy) hyy).1 hxq hyr heq

omit hP in
theorem committable_injOn : Set.InjOn t.height (t.committable P) := by
  apply w.injOn
  · rintro b (rfl | ⟨x, hx, b1, b2, d⟩)
    · exact w.genesis_delivered
    · exact d.delivered w
  intro b hb c hc hb0 hc0 heq
  obtain ⟨x, -, b1, b2, db⟩ := hb.resolve_left hb0
  obtain ⟨y, -, c1, c2, dc⟩ := hc.resolve_left hc0
  cases o.branch b b1 b2 x c c1 c2 y db dc with
  | inl h => exact w.ranked.anc_unique (dc.delivered w) h (.refl c) heq
  | inr h => exact (w.ranked.anc_unique (db.delivered w) h (.refl b) heq.symm).symm

end Tree.Orderly

namespace Replica
variable {s u : Replica}

theorem updateExec_commits (w : s.tree.Wf) {b2 b1 b : Hash} (h0 : s.qcRef b1 = some b)
    (hdec : s.decided b = false) (hp2 : s.parent0 b2 = some b1) (hp1 : s.parent0 b1 = some b)
    (hanc : Anc s.parent0 s.bExec b) : (s.updateExec b2 b1).1.bExec = b := by
  unfold updateExec
  rw [h0, hp2, hp1]
  simp only [hdec, ne_eq, not_true_eq_false, if_false, Bool.false_eq_true]
  exact (commit_spec w (w.parent_delivered hp1) hanc).2.1

theorem update_commits (w : s.tree.Wf) {nblk b2 b1 b : Hash} (h2 : s.qcRef nblk = some b2)
    (h1 : s.qcRef b2 = some b1) (h0 : s.qcRef b1 = some b) (hdec2 : s.decided b2 = false)
    (hdec1 : s.decided b1 = false) (hdec : s.decided b = false) (hp2 : s.parent0 b2 = some b1)
    (hp1 : s.parent0 b1 = some b) (hanc : Anc s.parent0 s.bExec b) :
    (s.update nblk).1.bExec = b := by
  obtain ⟨n, hn, hq⟩ : ∃ n, s.tree nblk = some n ∧ n.qcRef = some b2 :=
    Option.bind_eq_some_iff.mp h2
  obtain ⟨blk, hblk, rfl⟩ := s.cache_of_tree hn
  have hl := s.updateHqc_ledger b2 blk.body.qc
  unfold update updateChain
  rw [hblk]
  simp only [hq, hdec2, Bool.false_eq_true, if_false]
  generalize s.updateHqc b2 blk.body.qc = t at hl
  have httree : t.tree = s.tree := congrArg Ledger.tree hl
  obtain ⟨hvtree, hvexec, -, -⟩ := t.updateLock_rest b1
  have htree : (t.updateLock b1).tree = s.tree := hvtree.trans httree
  have hexec : (t.updateLock b1).bExec = s.bExec := hvexec.trans (congrArg Ledger.bExec hl)
  have hcommits : ((t.updateLock b1).updateExec b2 b1).1.bExec = b := by
    apply updateExec_commits
    all_goals
      unfold Replica.qcRef Replica.decided Replica.parent0 at *
      rw [htree]
      first | assumption | skip
    rw [hexec]
    exact hanc
  have htq : t.qcRef b2 = some b1 := by
    unfold Replica.qcRef
    rw [httree]
    exact h1
  have htd : t.decided b1 = false := by
    unfold Replica.decided
    rw [httree]
    exact hdec1
  rw [htq]
  simp only [htd, Bool.false_eq_true, if_false]
  exact @Outcome.andThen_keeps _ Replica.bExec b _ _ hcommits fun v hv => hv

/-- What the updates for the blocks of `P` have left. -/
structure Processed (s u : Replica) (P : Set Hash) : Prop where
  steps : Ledger.Steps Ledger.Guard.none s.ledger u.ledger
  hqc : Highest s.height (s.tree.certified P) u.hqc.1
  lock : Highest s.height (s.tree.lockable P) u.bLock
  exec : Highest s.height (s.tree.committable P) u.bExec

namespace Processed
variable {P : Set Hash} {x : Hash}

theorem chained (p : Processed s u P) (c : s.ledger.Chained) : u.ledger.Chained :=
  p.steps.invariant c fun _ _ hstep => hstep.chained

theorem height (p : Processed s u P) {b : Hash} (hd : s.delivered b = true) :
    u.height b = s.height b := p.steps.grows.height hd

section
variable (p : Processed s u P) (c : s.ledger.Chained) (o : s.tree.Orderly)
include p c

theorem exec_delivered : s.delivered u.bExec = true := p.steps.delivered_back (p.chained c).exec

theorem decided_le {b : Hash} (hd : s.delivered b = true) (hdec : u.decided b = true) :
    s.height b ≤ s.height u.bExec := by
  have hle : u.height b ≤ u.height u.bExec := (p.chained c).decided_height hdec
  rw [p.height hd, p.height (p.exec_delivered c)] at hle
  exact hle

include o in
theorem exec_le : s.height u.bExec ≤ s.height u.bLock ∧ s.height u.bExec ≤ s.height u.hqc.1 := by
  cases p.exec.mem with
  | inl h =>
    have hroot : s.height b0 = 0 := c.wf.height_genesis
    rw [h]
    omega
  | inr h =>
    obtain ⟨y, hy, b1, b2, d⟩ := h
    have h1 : s.height b1 ≤ s.height u.bLock := p.lock.le b1 (.inr ⟨y, hy, b2, d.third, d.second⟩)
    have h2 : s.height b2 ≤ s.height u.hqc.1 := p.hqc.le b2 (.inr ⟨y, hy, d.third⟩)
    have hd2 : s.delivered b2 = true := (o.closed.spec c.wf d.tip d.third).1
    obtain ⟨hd1, hh2⟩ := c.wf.ranked.parent_spec hd2 d.parent2
    obtain ⟨-, hh1⟩ := c.wf.ranked.parent_spec hd1 d.parent1
    have hb2 : s.height b2 = s.height b1 + 1 := hh2
    have hb1 : s.height b1 = s.height u.bExec + 1 := hh1
    omega

end

theorem mem_certified {t : Tree} {q : Hash} (hq : q ∈ t.certified (insert x P)) :
    q ∈ t.certified P ∨ t.qcRef x = some q := by
  obtain rfl | ⟨y, rfl | hy, hyq⟩ := hq
  · exact .inl (.inl rfl)
  · exact .inr hyq
  · exact .inl (.inr ⟨y, hy, hyq⟩)

theorem mem_lockable {t : Tree} {q : Hash} (hq : q ∈ t.lockable (insert x P)) :
    q ∈ t.lockable P ∨ ∃ y, t.qcRef x = some y ∧ t.qcRef y = some q := by
  obtain rfl | ⟨y, rfl | hy, hyq⟩ := hq
  · exact .inl (.inl rfl)
  · exact .inr hyq
  · exact .inl (.inr ⟨y, hy, hyq⟩)

theorem mem_committable {t : Tree} {b : Hash} (hb : b ∈ t.committable (insert x P)) :
    b ∈ t.committable P ∨ ∃ b1 b2, Ledger.Decisive t b b1 b2 x := by
  obtain rfl | ⟨y, rfl | hy, hyb⟩ := hb
  · exact .inl (.inl rfl)
  · exact .inr hyb
  · exact .inl (.inr ⟨y, hy, hyb⟩)

theorem certified_insert {t : Tree} {q : Hash} (hq : q ∈ t.certified P) :
    q ∈ t.certified (insert x P) :=
  hq.imp_right fun ⟨y, hy, h⟩ => ⟨y, .inr hy, h⟩

theorem lockable_insert {t : Tree} {q : Hash} (hq : q ∈ t.lockable P) :
    q ∈ t.lockable (insert x P) :=
  hq.imp_right fun ⟨y, hy, h⟩ => ⟨y, .inr hy, h⟩

theorem committable_insert {t : Tree} {b : Hash} (hb : b ∈ t.committable P) :
    b ∈ t.committable (insert x P) :=
  hb.imp_right fun ⟨y, hy, h⟩ => ⟨y, .inr hy, h⟩

section
variable (p : Processed s u P) (c : s.ledger.Chained) (o : s.tree.Orderly)
  (hP : ∀ y ∈ P, s.delivered y = true) {b2 b1 b : Hash} (hd : s.delivered x = true)
  (h2 : s.qcRef x = some b2) (h1 : s.qcRef b2 = some b1)
include p c o hP hd h2

/-- The certified block after `update`: a skipped one is decided, hence low. -/
theorem update_hqc :
    Highest s.height (s.tree.certified (insert x P)) (u.update x).1.hqc.1 := by
  have hd2 : s.delivered b2 = true := (o.closed.spec c.wf hd h2).1
  have hold : s.delivered u.hqc.1 = true := o.certified_delivered c.wf hP _ p.hqc.mem
  have hq2 : u.qcRef x = some b2 := (p.steps.grows.qcRef hd).trans h2
  have hnew : ∀ a : Hash, s.height b2 ≤ s.height a →
      ∀ q ∈ s.tree.certified (insert x P), q ∈ s.tree.certified P ∨ s.height q ≤ s.height a := by
    intro a ha q hq
    cases mem_certified hq with
    | inl h => exact .inl h
    | inr h =>
      obtain rfl : b2 = q := Option.some.inj (h2.symm.trans h)
      exact .inr ha
  obtain ⟨hsame, hdec⟩ | ⟨blk, y, hblk, hy, -, hhead⟩ := u.update_head x
  · rw [show (u.update x).1.hqc = u.hqc from congrArg Head.hqc hsame]
    have hle := (p.decided_le c hd2 (hdec b2 hq2)).trans (p.exec_le c o).2
    exact p.hqc.extend (certified_insert p.hqc.mem) (Nat.le_refl _) (hnew _ hle)
  · obtain rfl : b2 = y := by
      rw [show u.qcRef x = blk.qcRef from Tree.qcRef_of (u.tree_of_cache hblk), hy] at hq2
      exact (Option.some.inj hq2).symm
    rw [show (u.update x).1.hqc = _ from congrArg Head.hqc hhead]
    change Highest s.height _ (u.updateHqc b2 blk.body.qc).hqc.1
    unfold updateHqc
    rw [p.height hd2, p.height hold]
    split
    · refine p.hqc.extend (.inr ⟨x, .inl rfl, h2⟩) ?_ (hnew b2 (Nat.le_refl _))
      change s.height u.hqc.1 ≤ s.height b2
      omega
    · exact p.hqc.extend (certified_insert p.hqc.mem) (Nat.le_refl _) (hnew _ (by omega))

include h1 in
theorem update_lock (up : Updated u (u.update x).1 x b2 b1 b) :
    Highest s.height (s.tree.lockable (insert x P)) (u.update x).1.bLock := by
  have hd2 : s.delivered b2 = true := (o.closed.spec c.wf hd h2).1
  have hd1 : s.delivered b1 = true := (o.closed.spec c.wf hd2 h1).1
  have hle12 : s.height b1 ≤ s.height b2 :=
    (c.wf.ranked.anc_spec hd2 (o.closed.spec c.wf hd2 h1).2.1).2
  have hold : s.delivered u.bLock = true := o.lockable_delivered c.wf hP _ p.lock.mem
  have hlow := (p.exec_le c o).1
  have hnew : ∀ a : Hash, s.height b1 ≤ s.height a →
      ∀ q ∈ s.tree.lockable (insert x P), q ∈ s.tree.lockable P ∨ s.height q ≤ s.height a := by
    intro a ha q hq
    cases mem_lockable hq with
    | inl h => exact .inl h
    | inr h =>
      obtain ⟨y, hxy, hyq⟩ := h
      obtain rfl : b2 = y := Option.some.inj (h2.symm.trans hxy)
      obtain rfl : b1 = q := Option.some.inj (h1.symm.trans hyq)
      exact .inr ha
  have hlock := up.lock
  have hraised := up.raised
  generalize (u.update x).1.bLock = l at hlock hraised
  cases hlock with
  | inl hsame =>
    subst hsame
    refine p.lock.extend (lockable_insert p.lock.mem) (Nat.le_refl _) (hnew _ ?_)
    rw [p.height hd1, p.height hold] at hraised
    rcases hraised with h | h | h
    · exact h
    · have := p.decided_le c hd2 h
      omega
    · have := p.decided_le c hd1 h
      omega
  | inr hset =>
    obtain ⟨rfl, hlt⟩ := hset
    rw [p.height hold, p.height hd1] at hlt
    exact p.lock.extend (.inr ⟨x, .inl rfl, b2, h2, h1⟩) (by omega) (hnew _ (Nat.le_refl _))

omit hP in
include h1 in
theorem extends_exec (h0 : s.qcRef b1 = some b) (hp2 : s.parent0 b2 = some b1)
    (hp1 : s.parent0 b1 = some b) (hdec : u.decided b = false) :
    Anc u.parent0 u.bExec b := by
  have dnew : Ledger.Decisive s.tree b b1 b2 x := ⟨hd, h2, h1, h0, hp2, hp1⟩
  have hbd := dnew.delivered c.wf
  have g := p.steps.grows
  cases p.exec.mem with
  | inl h =>
    rw [h]
    exact (p.chained c).wf.ranked.root_anc (g.delivered hbd)
  | inr h =>
    obtain ⟨y, -, c1, c2, d⟩ := h
    cases o.branch _ c1 c2 y b b1 b2 x d dnew with
    | inl hanc => exact g.anc c.wf hbd hanc
    | inr hanc =>
      have hdec' : u.decided b = true :=
        (p.chained c).decided_iff_anc.mpr (g.anc c.wf (p.exec_delivered c) hanc)
      rw [hdec] at hdec'
      cases hdec'

omit hP in
include h1 in
theorem update_exec (h0 : s.qcRef b1 = some b) (up : Updated u (u.update x).1 x b2 b1 b) :
    Highest s.height (s.tree.committable (insert x P)) (u.update x).1.bExec := by
  have hd2 : s.delivered b2 = true := (o.closed.spec c.wf hd h2).1
  have hd1 : s.delivered b1 = true := (o.closed.spec c.wf hd2 h1).1
  have hd0 : s.delivered b = true := (o.closed.spec c.wf hd1 h0).1
  have g := p.steps.grows
  have hmono : s.height u.bExec ≤ s.height (u.update x).1.bExec := by
    have hsteps := p.steps.trans up.steps
    have c' : (u.update x).1.ledger.Chained := hsteps.invariant c fun _ _ hstep => hstep.chained
    have hself : u.decided u.bExec = true := (p.chained c).decided_iff_anc.mpr (.refl _)
    have hle := c'.decided_height (up.steps.decided_mono (p.chained c) hself)
    have hold : s.delivered u.bExec = true := p.exec_delivered c
    have hnew : s.delivered (u.update x).1.bExec = true := hsteps.delivered_back c'.exec
    rw [hsteps.grows.height hold, show (u.update x).1.ledger.tree.height
      (u.update x).1.ledger.bExec = s.height (u.update x).1.bExec from
      hsteps.grows.height hnew] at hle
    exact hle
  have hmem : (u.update x).1.bExec ∈ s.tree.committable (insert x P) := by
    rcases up.exec with h | ⟨h, hp2, hp1, -⟩
    · rw [h]
      exact committable_insert p.exec.mem
    · rw [h]
      refine .inr ⟨x, .inl rfl, b1, b2, hd, h2, h1, h0, ?_, ?_⟩
      · exact (g.parent0 hd2).symm.trans hp2
      · exact (g.parent0 hd1).symm.trans hp1
  refine p.exec.extend hmem hmono ?_
  intro y hy
  cases mem_committable hy with
  | inl hold => exact .inl hold
  | inr hnew =>
    obtain ⟨y1, y2, d⟩ := hnew
    obtain rfl : b2 = y2 := Option.some.inj (h2.symm.trans d.third)
    obtain rfl : b1 = y1 := Option.some.inj (h1.symm.trans d.second)
    obtain rfl : b = y := Option.some.inj (h0.symm.trans d.first)
    right
    have hh2 : s.height b2 = s.height b1 + 1 := (c.wf.ranked.parent_spec hd2 d.parent2).2
    have hh1 : s.height b1 = s.height b + 1 := (c.wf.ranked.parent_spec hd1 d.parent1).2
    by_cases hdec2 : u.decided b2 = true
    · have := p.decided_le c hd2 hdec2
      omega
    by_cases hdec1 : u.decided b1 = true
    · have := p.decided_le c hd1 hdec1
      omega
    by_cases hdec0 : u.decided b = true
    · have := p.decided_le c hd0 hdec0
      omega
    rw [Bool.not_eq_true] at hdec2 hdec1 hdec0
    have hanc := p.extends_exec c o hd h2 h1 h0 d.parent2 d.parent1 hdec0
    rw [update_commits (p.chained c).wf ((g.qcRef hd).trans h2) ((g.qcRef hd2).trans h1)
      ((g.qcRef hd1).trans h0) hdec2 hdec1 hdec0 ((g.parent0 hd2).trans d.parent2)
      ((g.parent0 hd1).trans d.parent1) hanc]

omit h2 in
theorem update : (u.update x).2 = none ∧ Processed s (u.update x).1 (insert x P) := by
  obtain ⟨b2, h2, -⟩ := o.closed x hd
  have hd2 : s.delivered b2 = true := (o.closed.spec c.wf hd h2).1
  obtain ⟨b1, h1, -⟩ := o.closed b2 hd2
  have hd1 : s.delivered b1 = true := (o.closed.spec c.wf hd2 h1).1
  obtain ⟨b, h0, -⟩ := o.closed b1 hd1
  have g := p.steps.grows
  obtain ⟨hret, up⟩ := update_spec (p.chained c) (o.closed.steps c.wf p.steps) (g.delivered hd)
    ((g.qcRef hd).trans h2) ((g.qcRef hd2).trans h1) ((g.qcRef hd1).trans h0)
    (fun hdec hp2 hp1 => p.extends_exec c o hd h2 h1 h0 ((g.parent0 hd2).symm.trans hp2)
      ((g.parent0 hd1).symm.trans hp1) hdec)
  exact ⟨hret, p.steps.trans up.steps, p.update_hqc c o hP hd h2,
    p.update_lock c o hP hd h2 h1 up, p.update_exec c o hd h2 h1 h0 up⟩

end

end Processed

/-- `update` for the blocks of a list, one after the other, up to the first throw. -/
def updateAll (s : Replica) (l : List Hash) : Outcome :=
  l.foldl (fun r b => r.andThen fun s => s.update b) (s, none)

theorem updateAll_snoc (s : Replica) (l : List Hash) (x : Hash) :
    s.updateAll (l ++ [x]) = (s.updateAll l).andThen fun u => u.update x := by
  rw [updateAll, List.foldl_append]
  rfl

/-- Nothing has been certified, locked or executed yet. -/
structure Untouched (s : Replica) : Prop where
  chained : s.ledger.Chained
  hqc : s.hqc.1 = b0
  lock : s.bLock = b0
  exec : s.bExec = b0

theorem Untouched.processed (n : s.Untouched) : Processed s s ∅ := by
  refine ⟨.refl _, ?_, ?_, ?_⟩
  · refine ⟨.inl n.hqc, ?_⟩
    rintro q (rfl | ⟨x, hx, -⟩)
    · rw [n.hqc]
    · exact hx.elim
  · refine ⟨.inl n.lock, ?_⟩
    rintro q (rfl | ⟨x, hx, -⟩)
    · rw [n.lock]
    · exact hx.elim
  · refine ⟨.inl n.exec, ?_⟩
    rintro q (rfl | ⟨x, hx, -⟩)
    · rw [n.exec]
    · exact hx.elim

theorem Untouched.updateAll (n : s.Untouched) (o : s.tree.Orderly) (l : List Hash)
    (hl : ∀ x ∈ l, s.delivered x = true) :
    (s.updateAll l).2 = none ∧ Processed s (s.updateAll l).1 {x | x ∈ l} := by
  induction l using List.reverseRecOn with
  | nil =>
    refine ⟨rfl, ?_⟩
    have hempty : {x : Hash | x ∈ ([] : List Hash)} = ∅ := by simp
    rw [hempty]
    exact n.processed
  | append_singleton l x ih =>
    have hleft : ∀ y ∈ l, s.delivered y = true := fun y hy => hl y (List.mem_append_left _ hy)
    obtain ⟨hret, p⟩ := ih hleft
    have hset : {y | y ∈ l ++ [x]} = insert x {y | y ∈ l} := by
      ext y
      simp [or_comm]
    rw [updateAll_snoc, Outcome.andThen_of_none hret, hset]
    exact p.update n.chained o hleft (hl x (by simp))

theorem Processed.same {u v : Replica} {P : Set Hash} (p : Processed s u P)
    (q : Processed s v P) (c : s.ledger.Chained) (o : s.tree.Orderly)
    (hP : ∀ x ∈ P, s.delivered x = true) :
    u.hqc.1 = v.hqc.1 ∧ u.bLock = v.bLock ∧ u.bExec = v.bExec ∧ u.decided = v.decided := by
  have hexec : u.bExec = v.bExec := p.exec.unique q.exec (o.committable_injOn c.wf)
  refine ⟨p.hqc.unique q.hqc (o.certified_injOn c.wf hP),
    p.lock.unique q.lock (o.lockable_injOn c.wf hP), hexec, ?_⟩
  have hdec : ∀ w : Replica, Processed s w P → ∀ b,
      w.decided b = true ↔ Anc s.parent0 b w.bExec := by
    intro w r b
    have hd := r.exec_delivered c
    refine (r.chained c).decided_iff_anc.trans ⟨?_, ?_⟩
    · exact r.steps.grows.anc_back c.wf hd
    · exact r.steps.grows.anc c.wf hd
  funext b
  rw [Bool.eq_iff_iff, hdec u p, hdec v q, hexec]

end Replica

def Op.fetches : Op → Bool
  | .addBlk _ | .deliverBlk _ => true
  | _ => false

theorem Replica.Untouched.step {s : Replica} (C : Crypto) (n : s.Untouched) {op : Op}
    (hop : op.fetches = true) : (s.step C op).Untouched := by
  have c : (s.step C op).ledger.Chained :=
    (exec_steps C n.chained.wf op).invariant n.chained fun _ _ hstep => hstep.chained
  cases op with
  | addBlk body => exact ⟨c, n.hqc, n.lock, n.exec⟩
  | deliverBlk blk =>
    have hkeep : (s.onDeliverBlk blk).1.hqc = s.hqc ∧ (s.onDeliverBlk blk).1.bLock = s.bLock ∧
        (s.onDeliverBlk blk).1.bExec = s.bExec := by
      have hdelivery := s.delivery blk
      generalize s.onDeliverBlk blk = d at hdelivery
      cases hdelivery <;> exact ⟨rfl, rfl, rfl⟩
    have hstep : s.step C (.deliverBlk blk) = (s.onDeliverBlk blk).1 := s.deliverOutcome_fst blk
    rw [hstep] at c ⊢
    exact ⟨c, by rw [hkeep.1]; exact n.hqc, hkeep.2.1.trans n.lock, hkeep.2.2.trans n.exec⟩
  | _ => exact absurd hop (by simp [Op.fetches])

/-- From a state in which blocks have been delivered and none passed to `update`, the
updates for a set of blocks never throw, and leave the same certified block, lock, executed
block and decided blocks in whatever order and how often they come. -/
theorem update_order_independent (C : Crypto) (c : Setup) (s : Replica)
    (h : Runs.Reach (fun _ op => op.fetches = true) (Replica.step C) c.start s)
    (o : s.tree.Orderly) (S : Finset Hash) (hS : ∀ x ∈ S, s.delivered x = true ∧ x ≠ b0)
    (l l' : List Hash) (hl : ∀ x, x ∈ l ↔ x ∈ S) (hl' : ∀ x, x ∈ l' ↔ x ∈ S) :
    (s.updateAll l).2 = none ∧ (s.updateAll l').2 = none ∧
      (s.updateAll l).1.hqc.1 = (s.updateAll l').1.hqc.1 ∧
      (s.updateAll l).1.bLock = (s.updateAll l').1.bLock ∧
      (s.updateAll l).1.bExec = (s.updateAll l').1.bExec ∧
      (s.updateAll l).1.decided = (s.updateAll l').1.decided := by
  have n : s.Untouched := h.invariant Replica.Untouched ⟨c.start_chained, rfl, rfl, rfl⟩
    fun _ _ n hop => n.step C hop
  have hd : ∀ x ∈ S, s.delivered x = true := fun x hx => (hS x hx).1
  obtain ⟨hret, p⟩ := n.updateAll o l fun x hx => hd x ((hl x).mp hx)
  obtain ⟨hret', p'⟩ := n.updateAll o l' fun x hx => hd x ((hl' x).mp hx)
  have hset : {x | x ∈ l'} = {x | x ∈ l} := by
    ext x
    exact (hl' x).trans (hl x).symm
  rw [hset] at p'
  exact ⟨hret, hret', p.same p' n.chained o fun x hx => hd x ((hl x).mp hx)⟩

def fetchFour : List Op :=
  [.addBlk (.sample 0 0 7 []), .deliverBlk 1, .addBlk (.sample 1 1 8 []), .deliverBlk 3,
    .addBlk (.sample 3 3 9 []), .deliverBlk 7, .addBlk (.sample 7 7 10 []), .deliverBlk 15]

def fetchedFour : Replica := Runs.run (Replica.step .sample) (Setup.four 1).start fetchFour

theorem fetchedFour_reach : Runs.Reach (fun _ op => op.fetches = true) (Replica.step .sample)
    (Setup.four 1).start fetchedFour := Runs.reach_run fetchFour .init (by decide)

def Op.fetched (C : Crypto) : Op → Option Hash
  | .addBlk body => some (C.getHash body)
  | _ => none

theorem fetches_stored (C : Crypto) {s : Replica} (n : s.Untouched) (l : List Op)
    (hl : ∀ op ∈ l, op.fetches = true) {h : Hash}
    (hh : ((Runs.run (Replica.step C) s l).tree h).isSome = true) :
    (s.tree h).isSome = true ∨ h ∈ l.filterMap (Op.fetched C) := by
  induction l generalizing s with
  | nil => exact .inl hh
  | cons op l ih =>
    have hop : op.fetches = true := hl op (List.mem_cons_self ..)
    have hrest : ∀ op' ∈ l, op'.fetches = true := fun op' hmem =>
      hl op' (List.mem_cons_of_mem _ hmem)
    rw [List.mem_filterMap]
    cases ih (n.step C hop) hrest hh with
    | inl hstep =>
      rcases (Replica.exec_steps C n.chained.wf op).stored hstep with hold | ⟨body, rfl, rfl⟩ | hnew
      · exact .inl hold
      · exact .inr ⟨.addBlk body, List.mem_cons_self .., rfl⟩
      · cases op with
        | propose cmds keys vals parents extra => exact absurd hop (by simp [Op.fetches])
        | _ => exact absurd hnew (by simp [Replica.proposes])
    | inr hlater =>
      obtain ⟨op', hmem, heq⟩ := List.mem_filterMap.mp hlater
      exact .inr ⟨op', List.mem_cons_of_mem _ hmem, heq⟩

theorem fetchedFour_delivered {h : Hash} (hd : fetchedFour.delivered h = true) :
    h ∈ [b0, 1, 3, 7, 15] := by
  obtain ⟨n, hn, -⟩ := Tree.exists_of_delivered hd
  have hstored : (fetchedFour.tree h).isSome = true := by
    rw [hn]
    rfl
  have hstart : (Setup.four 1).start.Untouched := ⟨Setup.start_chained _, rfl, rfl, rfl⟩
  cases fetches_stored .sample hstart fetchFour (by decide) hstored with
  | inl hold =>
    by_cases h0 : h = b0
    · rw [h0]
      exact List.mem_cons_self ..
    · rw [Setup.start_absent _ h0] at hold
      cases hold
  | inr hnew =>
    have hlist : fetchFour.filterMap (Op.fetched .sample) = [1, 3, 7, 15] := by decide
    rw [hlist] at hnew
    exact List.mem_cons_of_mem _ hnew

theorem fetchedFour_orderly : fetchedFour.tree.Orderly := by
  have hqc : ∀ h ∈ [b0, 1, 3, 7, 15], fetchedFour.qcRef h = some (h / 2) ∧
      h / 2 ∈ [b0, 1, 3, 7, 15] ∧ (h ≠ b0 → fetchedFour.parent0 h = some (h / 2) ∧ h / 2 ≠ h) := by
    decide +kernel
  have hheight : ∀ h ∈ [b0, 1, 3, 7, 15], ∀ h' ∈ [b0, 1, 3, 7, 15],
      fetchedFour.height h = fetchedFour.height h' → h = h' := by decide +kernel
  have href : ∀ {h q}, h ∈ [b0, 1, 3, 7, 15] → fetchedFour.qcRef h = some q →
      q = h / 2 ∧ q ∈ [b0, 1, 3, 7, 15] := by
    intro h q hmem hq
    obtain rfl : h / 2 = q := Option.some.inj ((hqc h hmem).1.symm.trans hq)
    exact ⟨rfl, (hqc h hmem).2.1⟩
  refine ⟨?_, ?_, ?_⟩
  · intro h hd
    obtain ⟨hq, -, hp⟩ := hqc h (fetchedFour_delivered hd)
    refine ⟨h / 2, hq, ?_, fun h0 => (hp h0).2⟩
    by_cases h0 : h = b0
    · rw [h0]
      exact .refl _
    · exact .of_parent (hp h0).1
  · intro x y q r hx hy hq hr heq
    exact hheight q (href (fetchedFour_delivered hx) hq).2 r
      (href (fetchedFour_delivered hy) hr).2 heq
  · have hlow : ∀ b b1 b2 x, Ledger.Decisive fetchedFour.tree b b1 b2 x → b = 0 ∨ b = 1 := by
      intro b b1 b2 x d
      have hx := fetchedFour_delivered d.tip
      obtain ⟨h2, hm2⟩ := href hx d.third
      obtain ⟨h1, hm1⟩ := href hm2 d.second
      have h0 := (href hm1 d.first).1
      rw [h0, h1, h2]
      have hsmall : ∀ x ∈ [b0, 1, 3, 7, 15], x / 2 / 2 / 2 = 0 ∨ x / 2 / 2 / 2 = 1 := by decide
      exact hsmall x hx
    have hanc : Anc fetchedFour.tree.parent0 0 1 := .of_parent (by decide +kernel)
    intro b b1 b2 x c c1 c2 y db dc
    rcases hlow _ _ _ _ db with rfl | rfl <;> rcases hlow _ _ _ _ dc with rfl | rfl
    · exact .inl (.refl _)
    · exact .inl hanc
    · exact .inr hanc
    · exact .inl (.refl _)

theorem update_order_independent_four :
    (fetchedFour.updateAll [1, 3, 7, 15]).1.decided =
        (fetchedFour.updateAll [15, 7, 1, 3, 15]).1.decided ∧
      (fetchedFour.updateAll [15, 7, 1, 3, 15]).1.bExec = 1 := by
  have hsame := update_order_independent .sample (.four 1) fetchedFour fetchedFour_reach
    fetchedFour_orderly {1, 3, 7, 15} (by decide +kernel) [1, 3, 7, 15] [15, 7, 1, 3, 15]
    (by simp) (by simp; tauto)
  exact ⟨hsame.2.2.2.2.2, hsame.2.2.2.2.1.symm.trans (by decide +kernel)⟩

end AvaHotstuff
