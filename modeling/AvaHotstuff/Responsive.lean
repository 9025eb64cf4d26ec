import Mathlib.Data.List.Chain
import AvaHotstuff.CommitRule
import AvaHotstuff.Frame

set_option autoImplicit false

namespace AvaHotstuff
open Ancestry

/-- The block `y` extends and certifies the block `x`. -/
def Tree.Certifies (t : Tree) (x y : Hash) : Prop := t.parent0 y = some x ∧ t.qcRef y = some x

instance (t : Tree) : DecidableRel t.Certifies := fun _ _ => inferInstanceAs (Decidable (_ ∧ _))

theorem Tree.Certifies.height {t : Tree} (w : t.Wf) {x y : Hash} (h : t.Certifies x y)
    (hd : t.delivered y = true) : t.height y = t.height x + 1 :=
  (w.ranked.parent_spec hd h.1).2

theorem exists_of_chain {α : Type*} {R : α → α → Prop} {x y : α} {l : List α}
    (h : List.IsChain R (x :: l)) (hy : y ∈ (x :: l).take (l.length - 2)) :
    ∃ y1 y2 y3, R y y1 ∧ R y1 y2 ∧ R y2 y3 ∧ y3 ∈ l := by
  induction l generalizing x with
  | nil => simp at hy
  | cons a l ih =>
    cases l with
    | nil => simp at hy
    | cons a1 l =>
      cases l with
      | nil => simp at hy
      | cons a2 l =>
        have hlen : (a :: a1 :: a2 :: l).length - 2 = (a1 :: a2 :: l).length - 2 + 1 := by simp
        rw [hlen, List.take_succ_cons, List.mem_cons] at hy
        cases hy with
        | inl heq =>
          subst heq
          simp only [List.isChain_cons_cons] at h
          exact ⟨a, a1, a2, h.1, h.2.1, h.2.2.1, by simp⟩
        | inr hmem =>
          obtain ⟨y1, y2, y3, h1, h2, h3, hmem3⟩ := ih h.tail hmem
          exact ⟨y1, y2, y3, h1, h2, h3, List.mem_cons_of_mem a hmem3⟩

def Op.isPropose : Op → Bool
  | .propose _ _ _ _ _ => true
  | _ => false

namespace Replica
variable {C : Crypto} {s u : Replica} {b y : Hash}

/-- The replica has not gone beyond the block `b`, and votes. -/
structure Abreast (s : Replica) (b : Hash) : Prop where
  delivered : s.delivered b = true
  vheight : s.vheight ≤ s.height b
  lock : s.height s.bLock ≤ s.height b
  enabled : s.voteDisabled = false

theorem Abreast.keep (A : s.Abreast b) (k : s.ledger.Ruled) (g : Tree.Grows s.tree u.tree)
    (hv : u.vheight = s.vheight) (hl : u.bLock = s.bLock) (hf : u.frame = s.frame) :
    u.Abreast b := by
  have hb : u.height b = s.height b := g.height A.delivered
  have hlock : u.height s.bLock = s.height s.bLock := g.height k.lock_delivered
  refine ⟨g.delivered A.delivered, ?_, ?_, (congrArg Frame.voteDisabled hf).trans A.enabled⟩
  · rw [hb, hv]
    exact A.vheight
  · rw [hb, hl, hlock]
    exact A.lock

theorem lock_unique (k : s.ledger.Ruled) (o : s.tree.Orderly) (hd : s.delivered y = true)
    (hq : s.qcRef y = some b) (h : s.height s.bLock = s.height b) : s.bLock = b := by
  have hb : s.delivered b = true := (o.closed.spec k.wf hd hq).1
  rcases k.highestLock.mem with h0 | ⟨x, hx, z, hz, hlock⟩
  · rw [show s.bLock = b0 from h0] at h ⊢
    exact (k.wf.ranked.eq_root hb (h.symm.trans k.wf.height_genesis)).symm
  · exact o.certified z y s.bLock b (o.closed.spec k.wf (k.heard x hx) hz).1 hd hlock hq h

section
variable (k : s.ledger.Ruled) (o : s.tree.Orderly) (A : s.Abreast b)
  (hd : s.delivered y = true) (hc : s.tree.Certifies b y)
include k o A hd hc

theorem Abreast.update : (s.update y).2 = none ∧ (s.update y).1.tree.Wf ∧
    Tree.Grows s.tree (s.update y).1.tree ∧ (s.update y).1.vheight = s.vheight ∧
    Event.updated y ∈ (s.update y).1.ledger.log ∧
    ((s.update y).1.bLock = b ∨ (s.update y).1.height (s.update y).1.bLock < s.height b) := by
  have hb := (o.closed.spec k.wf hd hc.2).1
  obtain ⟨b1, h1, -⟩ := o.closed b hb
  obtain ⟨hb1, hanc1, hlt1⟩ := o.closed.spec k.wf hb h1
  obtain ⟨b', h0, -⟩ := o.closed b1 hb1
  obtain ⟨hret, up⟩ := update_spec k.toChained o.closed hd hc.2 h1 h0
    fun hdec hp2 hp1 => exec_below k o hd hc.2 h1 h0 hp2 hp1 hdec
  have g := up.steps.grows
  refine ⟨hret, up.steps.wf k.wf, g, up.vheight, update_updated hret, ?_⟩
  cases up.lock with
  | inl hsame =>
    have hlock : (s.update y).1.height s.bLock = s.height s.bLock := g.height k.lock_delivered
    rw [hsame, hlock]
    cases Nat.lt_or_eq_of_le A.lock with
    | inl hlt => exact .inr hlt
    | inr heq => exact .inl (lock_unique k o hd hc.2 heq)
  | inr hset =>
    rw [hset.1]
    by_cases h0 : b = b0
    · left
      subst h0
      have hle : s.height b1 ≤ s.height b0 := (k.wf.ranked.anc_spec hb hanc1).2
      rw [show s.height b0 = 0 from k.wf.height_genesis] at hle
      exact k.wf.ranked.eq_root hb1 (Nat.le_zero.mp hle)
    · right
      have hlock : (s.update y).1.height b1 = s.height b1 := g.height hb1
      rw [hlock]
      exact hlt1 h0

theorem Abreast.receiveProposal {proposer : ReplicaID} (hp : proposer ≠ s.id) :
    (s.onReceiveProposal C proposer y).1.Abreast y ∧
      (s.onReceiveProposal C proposer y).1.Voted y ∧
      Event.updated y ∈ (s.onReceiveProposal C proposer y).1.trace := by
  obtain ⟨hret, wu, g, hv, hmem, hlock⟩ := A.update k o hd hc
  have hframe : (s.update y).1.frame = s.frame := update_frame s y
  have hheight : s.height y = s.height b + 1 := hc.height k.wf hd
  have hyu : (s.update y).1.height y = s.height y := g.height hd
  have hbu : (s.update y).1.height b = s.height b := g.height A.delivered
  have hcall : s.onReceiveProposal C proposer y = (s.update y).1.judgeProposal C false y := by
    unfold onReceiveProposal
    rw [if_neg hp, if_neg (by simp [hd]), Outcome.andThen_of_none hret]
  rw [hcall]
  generalize (s.update y).1 = u at *
  have hle : u.height u.bLock ≤ s.height b := by
    cases hlock with
    | inl h => rw [h, hbu]
    | inr h => exact Nat.le_of_lt h
  have hopinion : u.opinion y = some true := by
    rcases opinion_cases wu (g.delivered hd) with ⟨ho, -⟩ | ⟨-, hle | ⟨hno, hlow⟩⟩
    · exact ho
    · have := A.vheight
      omega
    · cases hlock with
      | inl h =>
        refine absurd ?_ hno
        rw [h]
        exact .of_parent ((g.parent0 hd).trans hc.1)
      | inr h =>
        have := hlow b ((g.qcRef hd).trans hc.2)
        omega
  have hledger := u.judgeProposal_ledger C false y
  have hjframe : (u.judgeProposal C false y).1.frame = u.frame := u.judgeProposal_frame y C false
  have henabled : u.voteDisabled = false := (congrArg Frame.voteDisabled hframe).trans A.enabled
  rw [hopinion, if_pos rfl, henabled] at hledger
  generalize (u.judgeProposal C false y).1 = v at hledger hjframe
  have htree : v.tree = u.tree := congrArg Ledger.tree hledger
  have hheights : v.height = u.height := congrArg Tree.height htree
  have hvh : v.vheight = u.height y := congrArg Ledger.vheight hledger
  have hvl : v.bLock = u.bLock := congrArg Ledger.bLock hledger
  have hlog : v.ledger.log = u.ledger.log ++ [.opinion y u.bLock] ++ [.vote y] :=
    congrArg Ledger.log hledger
  refine ⟨⟨?_, ?_, ?_, ?_⟩, ?_, ?_⟩
  · change v.tree.delivered y = true
    rw [htree]
    exact g.delivered hd
  · rw [hvh, hheights]
  · rw [hvl, hheights]
    omega
  · exact (congrArg Frame.voteDisabled hjframe).trans henabled
  · rw [voted_iff, hlog]
    simp
  · rw [← mem_ledger_log rfl, hlog]
    simp [hmem]

end

theorem Abreast.other (A : s.Abreast b) (k : s.ledger.Ruled) {op : Op}
    (hcall : Cluster.CoreCall s op) (hprop : ∀ proposer x, op ≠ .receiveProposal proposer x)
    (hown : op.isPropose = false) : (s.step C op).Abreast b := by
  have g := (exec_steps C k.wf op).grows
  cases op with
  | addBlk body => exact A.keep k g rfl rfl (exec_frame s C rfl)
  | deliverBlk blk =>
    have hsame := Cluster.onDeliverBlk_frame s blk
    rw [← deliverOutcome_fst] at hsame
    exact A.keep k g hsame.vheight hsame.lock (exec_frame s C rfl)
  | receiveVote v =>
    have hledger := s.onReceiveVote_ledger v
    exact A.keep k g (congrArg Ledger.vheight hledger) (congrArg Ledger.bLock hledger)
      (exec_frame s C rfl)
  | receiveProposal proposer x => exact absurd rfl (hprop proposer x)
  | propose cmds keys vals parents extra => cases hown
  | _ => exact hcall.elim

end Replica

namespace Cluster
variable {n : ℕ} {C : Crypto} {byz : Finset (Fin n)} {s : Cluster n} {i : Fin n}

def judges (i : Fin n) : Fin n × Op → List Hash
  | (j, .receiveProposal _ b) => if j = i then [b] else []
  | _ => []

/-- The replica `i` proposes nothing itself, and is handed proposals whose blocks it has. -/
def Attends (i : Fin n) (s : Cluster n) (a : Fin n × Op) : Prop :=
  (a.1 = i → a.2.isPropose = false) ∧ ∀ b ∈ judges i a, (s i).delivered b = true

instance (i : Fin n) (s : Cluster n) (a : Fin n × Op) : Decidable (Attends i s a) :=
  inferInstanceAs (Decidable (_ ∧ _))

theorem step_steps (w : (s i).tree.Wf) (a : Fin n × Op) :
    ∃ G, Ledger.Steps G (s i).ledger (step C s a i).ledger := by
  obtain ⟨j, op⟩ := a
  by_cases hij : i = j
  · subst hij
    rw [step_self]
    exact ⟨_, Replica.exec_steps C w op⟩
  · rw [step_other s hij]
    exact ⟨.any, .refl _⟩

theorem run_keeps {ok : Cluster n → Fin n × Op → Prop} (w : (s i).tree.Wf)
    {as : List (Fin n × Op)} (ha : Runs.Admitted ok (step C) s as) :
    Tree.Grows (s i).tree (Runs.run (step C) s as i).tree ∧
      ∀ e ∈ (s i).ledger.log, e ∈ (Runs.run (step C) s as i).ledger.log := by
  have h := (Runs.reach_run as .init ha).invariant (fun t => (t i).tree.Wf ∧
    Tree.Grows (s i).tree (t i).tree ∧ ∀ e ∈ (s i).ledger.log, e ∈ (t i).ledger.log)
    ⟨w, .refl _, fun _ he => he⟩ fun t a ht _ => ?_
  · exact h.2
  · obtain ⟨G, hsteps⟩ := step_steps (C := C) ht.1 a
    exact ⟨hsteps.wf ht.1, ht.2.1.trans hsteps.grows,
      fun e he => hsteps.log_mono (ht.2.2 e he)⟩

theorem judges_cases (i : Fin n) (a : Fin n × Op) :
    (∃ proposer y, a = (i, .receiveProposal proposer y)) ∨
      judges i a = [] ∧ (a.1 = i → ∀ proposer y, a.2 ≠ .receiveProposal proposer y) := by
  obtain ⟨j, op⟩ := a
  cases op with
  | receiveProposal proposer y =>
    by_cases hj : j = i
    · exact .inl ⟨proposer, y, by rw [hj]⟩
    · exact .inr ⟨if_neg hj, fun h => absurd h hj⟩
  | _ => exact .inr ⟨rfl, fun _ _ _ => nofun⟩

/-- The run lemma: the invariant is that the replica is abreast of the last block handed over. -/
theorem heard_of_chain (hbyz : byz.card ≤ Quorum.maxFaulty n) {c : Fin n → Setup} (hi : i ∉ byz)
    (as : List (Fin n × Op)) {b : Hash}
    (h : Runs.Reach (CoreStep C byz) (step C) (start c) s) (hb : (s i).Abreast b)
    (ha : Runs.Admitted (fun s a => CoreStep C byz s a ∧ Attends i s a) (step C) s as)
    (hchain : List.IsChain (Runs.run (step C) s as i).tree.Certifies
      (b :: as.flatMap (judges i))) :
    ∀ x ∈ as.flatMap (judges i), Event.vote x ∈ (Runs.run (step C) s as i).ledger.log ∧
      Event.updated x ∈ (Runs.run (step C) s as i).ledger.log := by
  induction as generalizing s b with
  | nil => simp
  | cons a as ih =>
    obtain ⟨hok, ha'⟩ := ha
    have h' : Runs.Reach (CoreStep C byz) (step C) (start c) (step C s a) := .step h hok.1
    obtain ⟨k, o, -⟩ := ruled_of_reach hbyz h hi
    obtain ⟨k', -, -⟩ := ruled_of_reach hbyz h' hi
    have hkeeps := run_keeps k.wf (show Runs.Admitted _ (step C) s (a :: as) from ⟨hok, ha'⟩)
    have hlater := run_keeps (C := C) (s := step C s a) k'.wf ha'
    rw [List.flatMap_cons] at hchain ⊢
    rcases judges_cases i a with ⟨proposer, y, rfl⟩ | ⟨hnil, hother⟩
    · have hjudges : judges i (i, .receiveProposal proposer y) = [y] := if_pos rfl
      rw [hjudges, List.singleton_append] at hchain ⊢
      have hd : (s i).delivered y = true := hok.2.2 y (by simp [hjudges])
      rw [List.isChain_cons_cons] at hchain
      have hc : (s i).tree.Certifies b y :=
        ⟨(hkeeps.1.parent0 hd).symm.trans hchain.1.1, (hkeeps.1.qcRef hd).symm.trans hchain.1.2⟩
      obtain ⟨A, hvoted, hmem⟩ := hb.receiveProposal (C := C) k o hd hc hok.1.2.1
      have hself : step C s (i, .receiveProposal proposer y) i =
          ((s i).onReceiveProposal C proposer y).1 := step_self s
      rw [← hself] at A hvoted hmem
      intro x hx
      cases List.mem_cons.mp hx with
      | inl heq =>
        subst heq
        exact ⟨hlater.2 _ (Replica.voted_iff.mp hvoted),
          hlater.2 _ ((mem_ledger_log rfl).mpr hmem)⟩
      | inr hrest => exact ih h' A ha' hchain.2 x hrest
    · rw [hnil, List.nil_append] at hchain ⊢
      refine ih h' ?_ ha' hchain
      obtain ⟨j, op⟩ := a
      by_cases hij : i = j
      · subst hij
        rw [step_self]
        exact hb.other k hok.1.2.1 (hother rfl) (hok.2.1 rfl)
      · rw [step_other s hij]
        exact hb

/-- An honest replica that votes and has not gone beyond a block is handed a chain of proposals
above it. Whatever else happens in the cluster, it votes for every block of the chain, and
commits all blocks but the last three. -/
theorem follows_chain (hbyz : byz.card ≤ Quorum.maxFaulty n) {c : Fin n → Setup}
    (h : Runs.Reach (CoreStep C byz) (step C) (start c) s) (hi : i ∉ byz) {b : Hash}
    (hb : (s i).Abreast b) (as : List (Fin n × Op))
    (ha : Runs.Admitted (fun s a => CoreStep C byz s a ∧ Attends i s a) (step C) s as)
    (hchain : List.IsChain (Runs.run (step C) s as i).tree.Certifies
      (b :: as.flatMap (judges i))) :
    let t := Runs.run (step C) s as
    (∀ x ∈ as.flatMap (judges i), (t i).Voted x) ∧
      ∀ x ∈ (b :: as.flatMap (judges i)).take ((as.flatMap (judges i)).length - 2),
        (t i).decided x = true := by
  intro t
  have hheard := heard_of_chain hbyz hi as h hb ha hchain
  have ht : Runs.Reach (CoreStep C byz) (step C) (start c) t :=
    h.trans ((Runs.reach_run as .init ha).mono fun _ _ hok => hok.1)
  obtain ⟨k, o, -⟩ := ruled_of_reach hbyz ht hi
  refine ⟨fun x hx => Replica.voted_iff.mpr (hheard x hx).1, fun x hx => ?_⟩
  obtain ⟨y1, y2, y3, h1, h2, h3, hmem⟩ := exists_of_chain hchain hx
  have hy3 : y3 ∈ (t i).ledger.processed := (hheard y3 hmem).2
  have d : Ledger.Decisive (t i).tree x y1 y2 y3 :=
    ⟨k.heard y3 hy3, h3.2, h2.2, h1.2, h2.1, h1.1⟩
  exact (k.decided_iff o).mpr ⟨x, .inr ⟨y3, hy3, y1, y2, d⟩, .refl x⟩

theorem coreStep_of_tested {c : Fin n → Setup} (hashes : List Hash)
    (hbyz : byz.card ≤ Quorum.maxFaulty n) (h0 : b0 ∈ hashes) {a : Fin n × Op}
    (h : Runs.Reach (Tested C byz hashes) (step C) (start c) s) (ha : Tested C byz hashes s a) :
    CoreStep C byz s a := by
  have htested : (Tested C byz hashes : Cluster n → Fin n × Op → Prop) =
      TestedWith Replica.update C byz hashes := by
    unfold Tested TestedWith
    rw [step_eq_stepWith]
  have hn : 0 < n := Fin.pos a.1
  rw [htested, step_eq_stepWith] at h
  rw [htested] at ha
  rw [coreStep_eq]
  obtain ⟨hcore, hstored⟩ := stored_of_testedWith (keeper hn hbyz) (start_locked c) h0 h
  exact (coreStep_of_testedWith (keeper hn hbyz) (start_locked c) hcore hstored ha).1

theorem admitted_of_tested {c : Fin n → Setup} (hashes : List Hash)
    (hbyz : byz.card ≤ Quorum.maxFaulty n) (h0 : b0 ∈ hashes) {as : List (Fin n × Op)}
    (h : Runs.Reach (Tested C byz hashes) (step C) (start c) s)
    (ha : Runs.Admitted (fun s a => Tested C byz hashes s a ∧ Attends i s a) (step C) s as) :
    Runs.Admitted (fun s a => CoreStep C byz s a ∧ Attends i s a) (step C) s as := by
  induction as generalizing s with
  | nil => trivial
  | cons a as ih =>
    obtain ⟨⟨htest, hattends⟩, ha'⟩ := ha
    exact ⟨⟨coreStep_of_tested hashes hbyz h0 h htest, hattends⟩, ih (.step h htest) ha'⟩

/-- Replica 1 follows four rounds of replica 0. -/
theorem follows_chain_four_rounds :
    (fourCluster 1).Voted 15 ∧ (fourCluster 1).decided 1 = true := by
  have hheard : fourRounds.flatMap (judges 1) = [1, 3, 7, 15] := by decide +kernel
  have hadmitted : Runs.Admitted (fun s a => CoreStep .sample {3} s a ∧ Attends 1 s a)
      (step .sample) (start fun i => .four i) fourRounds :=
    admitted_of_tested [0, 1, 3, 7, 15] (by decide) (by decide) .init (by decide +kernel)
  have hfollows := follows_chain (by decide) .init (by decide) (b := b0)
    ⟨by decide, by decide, by decide, rfl⟩ fourRounds hadmitted
    (by rw [hheard]; decide +kernel)
  rw [hheard] at hfollows
  exact ⟨hfollows.1 15 (by decide), hfollows.2 1 (by decide)⟩

end Cluster

end AvaHotstuff
