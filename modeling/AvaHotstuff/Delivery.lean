import AvaHotstuff.Node
import AvaHotstuff.Certificates

set_option autoImplicit false

namespace AvaHotstuff
open Ancestry

def NodeEvent.Aside : NodeEvent → Prop
  | .made _ | .fetchSent _ _ | .blocksSent _ _ => True
  | _ => False

def Cont.job : Cont → Option Hash
  | .start h _ | .deliver h _ => some h
  | _ => none

/-- A delivery that can end now, with the result of its verification. -/
def Pending.ending : Pending → Option Bool
  | ⟨[], .deliver _ valid⟩ => some valid
  | _ => none

def Op.direct : Op → Bool
  | .receiveProposal _ _ | .deliverBlk _ => false
  | _ => true

def Dep.plain : Dep → Bool
  | .fetched _ | .checked _ _ => true
  | _ => false

namespace Replica
variable {s u : Replica} {h : Hash}

theorem deliver_step (C : Crypto) {r : Except Exn Bool} (hu : s.onDeliverBlk h = (u, r)) :
    u = s.step C (.deliverBlk h) := by
  change u = (s.deliverOutcome h).1
  rw [deliverOutcome_fst, hu]

theorem onDeliverBlk_delivered (hd : s.delivered h = true) :
    s.onDeliverBlk h = (s, .ok false) := by
  obtain ⟨m, hm, hmd⟩ := Tree.exists_of_delivered hd
  obtain ⟨b, hb, rfl⟩ := s.cache_of_tree hm
  exact (Delivery.again hb hmd).eq

theorem linked_delivered (parents : List Hash) (height : ℕ) (x : Hash) :
    (s.modifyBlk h (·.linked parents height)).delivered x = s.delivered x := by
  unfold delivered
  rw [s.tree_modifyBlk h _ (fun b => { b with parents := parents, height := height }) fun _ => rfl]
  by_cases hx : x = h
  · subst x
    unfold Tree.delivered
    rw [Function.update_self, Option.map_map]
    rfl
  · unfold Tree.delivered
    rw [Function.update_of_ne hx]

theorem onDeliverBlk_error {e : Exn} (hu : s.onDeliverBlk h = (u, .error e)) (x : Hash) :
    u.delivered x = s.delivered x := by
  have hdelivery := s.delivery h
  rw [hu] at hdelivery
  cases hdelivery with
  | absent => rfl
  | unparented | orphan | uncertified => exact linked_delivered ..

theorem onDeliverBlk_false (hu : s.onDeliverBlk h = (u, .ok false)) :
    u = s ∧ s.delivered h = true := by
  have hdelivery := s.delivery h
  rw [hu] at hdelivery
  cases hdelivery with
  | again hb hd => exact ⟨rfl, (delivered_of_cache hb).trans hd⟩

end Replica

namespace Node

/-- What the input at hand may lead to: the blocks that the replica makes itself, the results
with which a delivery ends, and the proposals that are kept for the core. -/
structure Policy where
  make : Node → Hash → Prop
  finish : Bool → Prop
  propose : Proposal → Prop

def Policy.any : Policy := ⟨fun _ _ => True, fun _ => True, fun _ => True⟩

/-- A move of a node, beside the continuations that are being run. -/
inductive Move (C : Crypto) (P : Policy) : Node × List Pending → Node × List Pending → Prop where
  | fetch {n : Node} {ps : List Pending} (f : Hash → Option (Finset PeerId))
      {es : List NodeEvent} (hes : ∀ e ∈ es, e.Aside) :
      Move C P (n, ps) ({ n with blkFetchWaiting := f, log := n.log ++ es }, ps)
  | request {n : Node} {ps : List Pending} {h : Hash} (f : Hash → Option (Finset PeerId))
      {es : List NodeEvent} (deps : List Dep) (replica : PeerId) (hes : ∀ e ∈ es, e.Aside)
      (hd : n.core.delivered h = false) (hw : h ∉ n.blkDeliveryWaiting) :
      Move C P (n, ps) ({ n with
        blkFetchWaiting := f
        blkDeliveryWaiting := insert h n.blkDeliveryWaiting
        pending := n.pending ++ [⟨deps, .start h replica⟩]
        log := n.log ++ es }, ps)
  | call {n : Node} {ps : List Pending} {op : Op} (hop : op.direct = true)
      (hm : ∀ h, n.core.proposes C op = some h → P.make n h) :
      Move C P (n, ps) (n.call C op, ps)
  | await {n : Node} {ps : List Pending} {deps : List Dep} {cont : Cont} (hc : cont.job = none)
      (hp : ∀ prop, cont = .proposal prop → P.propose prop ∧
        (.delivered prop.blk ∈ deps ∨ n.core.delivered prop.blk = true)) :
      Move C P (n, ps) (n.await deps cont, ps)
  | take {n : Node} {ps : List Pending} {k : ℕ} {cont : Cont}
      (hk : n.pending[k]? = some ⟨[], cont⟩) :
      Move C P (n, ps) ({ n with pending := n.pending.eraseIdx k }, ⟨[], cont⟩ :: ps)
  | drop {n : Node} {p : Pending} {ps : List Pending} : Move C P (n, p :: ps) (n, ps)
  | release {n : Node} {ps : List Pending} {d : Dep} (f : Hash → Option (Finset PeerId))
      (hd : d.plain = true) : Move C P (n, ps) ({ n.resolve d with blkFetchWaiting := f }, ps)
  | verified {n : Node} (h : Hash) : Move C P (n, []) (n.verified h, [])
  | judge {n : Node} {ps : List Pending} {h : Hash} {replica : PeerId} (deps : List Dep)
      (valid : Bool) : Move C P (n, ⟨[], .start h replica⟩ :: ps)
        (n.await (.verified h :: deps) (.deliver h valid), ps)
  | propose {n : Node} {ps : List Pending} (prop : Proposal) :
      Move C P (n, ⟨[], .proposal prop⟩ :: ps)
        (n.call C (.receiveProposal prop.proposer prop.blk), ps)
  | fail {n : Node} {ps : List Pending} {h : Hash} {valid : Bool} {u : Replica} {e : Exn}
      (hu : n.core.onDeliverBlk h = (u, .error e)) :
      Move C P (n, ⟨[], .deliver h valid⟩ :: ps) ({ n with core := u }, ps)
  | refuse {n : Node} {ps : List Pending} {h : Hash} {valid : Bool}
      (hd : n.core.delivered h = true) :
      Move C P (n, ⟨[], .deliver h valid⟩ :: ps) (n.settle h false, ps)
  | mark {n : Node} {ps : List Pending} {h : Hash} {valid : Bool} {u : Replica}
      (hP : P.finish valid) (hu : n.core.onDeliverBlk h = (u, .ok true)) :
      Move C P (n, ⟨[], .deliver h valid⟩ :: ps)
        ((({ n with core := u } : Node).note (.marked h)).settle h true, ps)

def Moves (C : Crypto) (P : Policy) : Node × List Pending → Node × List Pending → Prop :=
  Relation.ReflTransGen (Move C P)

section
variable {C : Crypto} {P : Policy}

theorem Move.moves {x y : Node × List Pending} (h : Move C P x y) : Moves C P x y :=
  Relation.ReflTransGen.single h

theorem Moves.trans {x y z : Node × List Pending} (h : Moves C P x y) (h' : Moves C P y z) :
    Moves C P x z := Relation.ReflTransGen.trans h h'

theorem Moves.invariant {I : Node × List Pending → Prop} {x y : Node × List Pending}
    (h : Moves C P x y) (hx : I x) (hstep : ∀ x y, Move C P x y → I x → I y) : I y := by
  unfold Moves at h
  induction h with
  | refl => exact hx
  | tail _ hs ih => exact hstep _ _ hs ih

variable {n : Node} {ps : List Pending}

theorem asyncFetchBlk_eq (n : Node) (h : Hash) (replica : Option PeerId) :
    ∃ f es, (∀ e ∈ es, NodeEvent.Aside e) ∧ (n.asyncFetchBlk h replica).1 =
      { n with blkFetchWaiting := f, log := n.log ++ es } := by
  have hnil : ∀ f, ∃ f' es, (∀ e ∈ es, NodeEvent.Aside e) ∧
      ({ n with blkFetchWaiting := f } : Node) =
        { n with blkFetchWaiting := f', log := n.log ++ es } := by
    intro f
    refine ⟨f, [], fun e he => absurd he List.not_mem_nil, ?_⟩
    rw [List.append_nil]
  unfold asyncFetchBlk
  split
  · exact hnil n.blkFetchWaiting
  · simp only []
    split
    · exact hnil _
    · rename_i p
      unfold addReplica
      simp only []
      split
      · refine ⟨_, [.fetchSent h p], ?_, rfl⟩
        intro e he
        rw [List.mem_singleton.mp he]
        trivial
      · exact hnil _

theorem asyncFetchBlk_moves (h : Hash) (replica : Option PeerId) :
    Moves C P (n, ps) ((n.asyncFetchBlk h replica).1, ps) := by
  obtain ⟨f, es, hes, heq⟩ := n.asyncFetchBlk_eq h replica
  rw [heq]
  exact (Move.fetch f hes).moves

theorem asyncDeliverBlk_moves (h : Hash) (replica : PeerId) :
    Moves C P (n, ps) ((n.asyncDeliverBlk h replica).1, ps) := by
  unfold asyncDeliverBlk
  split
  · exact .refl
  rename_i hd
  split
  · exact .refl
  rename_i hw
  obtain ⟨f, es, hes, heq⟩ := asyncFetchBlk_eq
    { n with blkDeliveryWaiting := insert h n.blkDeliveryWaiting } h (some replica)
  simp only []
  rw [heq]
  exact (Move.request f _ replica hes (by simpa using hd) hw).moves

theorem asyncDeliverBlk_core (h : Hash) (replica : PeerId) :
    (n.asyncDeliverBlk h replica).1.core = n.core := by
  unfold asyncDeliverBlk
  split
  · rfl
  split
  · rfl
  · obtain ⟨f, es, _, heq⟩ := asyncFetchBlk_eq
      { n with blkDeliveryWaiting := insert h n.blkDeliveryWaiting } h (some replica)
    simp only []
    rw [heq]
    rfl

theorem asyncDeliverBlk_dep (h : Hash) (replica : PeerId) :
    .delivered h ∈ (n.asyncDeliverBlk h replica).2 ∨ n.core.delivered h = true := by
  unfold asyncDeliverBlk
  split
  · exact .inr (by assumption)
  split
  · exact .inl (List.mem_singleton_self _)
  · exact .inl (List.mem_singleton_self _)

theorem foldl_deliverParent_moves (replica : PeerId) (hs : List Hash) (r : Node × List Dep) :
    Moves C P (r.1, ps) ((hs.foldl (deliverParent replica) r).1, ps) := by
  induction hs generalizing r with
  | nil => exact .refl
  | cons h hs ih => exact (asyncDeliverBlk_moves h replica).trans (ih (deliverParent replica r h))

theorem foldl_fetchOne_moves (hs : List Hash) (r : Node × List Dep) :
    Moves C P (r.1, ps) ((hs.foldl fetchOne r).1, ps) := by
  induction hs generalizing r with
  | nil => exact .refl
  | cons h hs ih => exact (asyncFetchBlk_moves h none).trans (ih (fetchOne r h))

theorem addBlk_moves (body : Body) : Moves C P (n, ps) (n.call C (.addBlk body), ps) :=
  (Move.call rfl fun _ hm => absurd hm (by simp [Replica.proposes])).moves

theorem startDelivery_moves (h : Hash) (replica : PeerId) :
    Moves C P (n, ⟨[], .start h replica⟩ :: ps) (n.startDelivery C h replica, ps) := by
  unfold startDelivery
  split
  · exact Move.drop.moves
  · rename_i blk _
    simp only []
    refine (asyncFetchBlk_moves blk.body.qc.objHash (some replica)).trans ?_
    refine (foldl_deliverParent_moves replica blk.body.parentHashes
      ((n.asyncFetchBlk blk.body.qc.objHash (some replica)).1, [])).trans ?_
    exact (Move.judge _ _).moves

theorem settle_core (n : Node) (h : Hash) (valid : Bool) : (n.settle h valid).core = n.core := by
  unfold settle
  split
  · cases valid <;> rfl
  · rfl

theorem settle_waiting (n : Node) (h : Hash) (valid : Bool) :
    (n.settle h valid).blkDeliveryWaiting = n.blkDeliveryWaiting.erase h := by
  unfold settle
  split
  · cases valid <;> rfl
  · rename_i hw
    exact (Finset.erase_eq_of_notMem hw).symm

theorem onDeliverBlk_settled {m : Node} {h : Hash} (hn : n.onDeliverBlk h = (m, none)) :
    m.core.delivered h = true ∧ h ∉ m.blkDeliveryWaiting := by
  unfold onDeliverBlk at hn
  split at hn
  · exact absurd (congrArg Prod.snd hn) (by simp)
  · rename_i core valid hcore
    obtain rfl : settle _ h valid = m := congrArg Prod.fst hn
    rw [settle_core, settle_waiting]
    refine ⟨?_, Finset.notMem_erase h _⟩
    cases valid <;> exact Replica.onDeliverBlk_ok hcore

/-- The second call finds the block delivered and nobody waiting for it, so the result of
the verification makes no difference. -/
theorem finishDelivery_eq (n : Node) (h : Hash) (valid : Bool) :
    n.finishDelivery h valid = (n.onDeliverBlk h).1 := by
  unfold finishDelivery
  generalize hr : n.onDeliverBlk h = r
  obtain ⟨m, _ | e⟩ := r
  · simp only []
    split
    · obtain ⟨hd, hw⟩ := onDeliverBlk_settled hr
      unfold onDeliverBlk
      rw [Replica.onDeliverBlk_delivered hd]
      unfold settle
      exact if_neg hw
    · rfl
  · rfl

theorem finishDelivery_moves {h : Hash} {valid : Bool} (hP : P.finish valid) :
    Moves C P (n, ⟨[], .deliver h valid⟩ :: ps) (n.finishDelivery h valid, ps) := by
  rw [finishDelivery_eq]
  unfold onDeliverBlk
  split
  · rename_i hu
    exact (Move.fail hu).moves
  · rename_i core v hu
    cases v with
    | true => exact (Move.mark hP hu).moves
    | false =>
      obtain ⟨rfl, hd⟩ := Replica.onDeliverBlk_false hu
      exact (Move.refuse hd).moves

theorem run_moves {cont : Cont} (hP : ∀ v ∈ Pending.ending ⟨[], cont⟩, P.finish v) :
    Moves C P (n, ⟨[], cont⟩ :: ps) (n.run C cont, ps) := by
  have hcall : ∀ op, op.direct = true → n.core.proposes C op = none →
      Moves C P (n, ⟨[], cont⟩ :: ps) (n.call C op, ps) := by
    intro op hop hnone
    refine (Move.call hop ?_).moves.trans Move.drop.moves
    intro h hm
    rw [hnone] at hm
    exact absurd hm (by simp)
  cases cont with
  | start h replica => exact startDelivery_moves h replica
  | deliver h valid => exact finishDelivery_moves (hP valid rfl)
  | proposal prop => exact (Move.propose prop).moves
  | vote v =>
    simp only [run]
    split
    · exact hcall _ rfl rfl
    · exact Move.drop.moves
  | lcomplain c =>
    simp only [run]
    split
    · exact hcall _ rfl rfl
    · exact Move.drop.moves
  | respond blks replica =>
    have hes : ∀ e ∈ [NodeEvent.blocksSent blks replica], e.Aside := by
      intro e he
      rw [List.mem_singleton.mp he]
      trivial
    exact (Move.fetch n.blkFetchWaiting hes).moves.trans Move.drop.moves

theorem resume_moves {k : ℕ} (hP : ∀ p ∈ n.pending[k]?, ∀ v ∈ p.ending, P.finish v) :
    Moves C P (n, []) (n.resume C k, []) := by
  unfold resume
  split
  · rename_i cont hk
    exact (Move.take hk).moves.trans (run_moves (hP _ hk))
  · exact .refl

/-- A proposal gets as far as `on_receive_proposal`. Its proposer is compared with the peer
only if it names the cluster of the replica and is of a type below 3. -/
def passesOn (n : Node) (peer : PeerId) (prop : Proposal) : Bool :=
  decide (prop.msgType ≠ 9) && decide (prop.msgType ≠ 1) && decide (prop.msgType ≠ 2) &&
    (decide (n.core.clusterId ≠ prop.clusterNumber) ||
      (n.core.config.getPeerId prop.proposer).any fun p =>
        decide (peer = p) || decide (3 ≤ prop.msgType))

theorem awaitDelivered_moves {h : Hash} {peer : PeerId} (deps : List Dep) {cont : Cont}
    (hc : cont.job = none)
    (hp : ∀ prop, cont = .proposal prop → P.propose prop ∧ prop.blk = h) :
    Moves C P (n, ps) ((n.asyncDeliverBlk h peer).1.await
      ((n.asyncDeliverBlk h peer).2 ++ deps) cont, ps) := by
  refine (asyncDeliverBlk_moves h peer).trans (Move.await hc ?_).moves
  intro prop hprop
  obtain ⟨hP, rfl⟩ := hp prop hprop
  refine ⟨hP, ?_⟩
  rw [asyncDeliverBlk_core]
  rcases n.asyncDeliverBlk_dep prop.blk peer with hdep | hd
  · exact .inl (List.mem_append_left _ hdep)
  · exact .inr hd

theorem dispatch_moves {peer : PeerId} {prop : Proposal} {x : ℤ}
    (hP : prop.msgType ≠ 1 → prop.msgType ≠ 2 → P.propose prop) :
    Moves C P (n, ps) (n.dispatch C peer prop x, ps) := by
  unfold dispatch
  split
  · exact (Move.call rfl fun _ hm => absurd hm (by simp [Replica.proposes])).moves
  rename_i h1
  split
  · exact (Move.call rfl fun _ hm => absurd hm (by simp [Replica.proposes])).moves
  rename_i h2
  have hawait : Moves C P (n, ps) ((n.asyncDeliverBlk prop.blk peer).1.await
      ((n.asyncDeliverBlk prop.blk peer).2 ++ []) (.proposal prop), ps) := by
    refine awaitDelivered_moves [] rfl ?_
    rintro _ ⟨⟩
    exact ⟨hP h1 h2, rfl⟩
  rw [List.append_nil] at hawait
  exact hawait

theorem proposeHandler_moves {peer : PeerId} {prop : Proposal} {body : Body} {x : ℤ}
    (hP : n.passesOn peer prop = true → P.propose { prop with blk := C.getHash body }) :
    Moves C P (n, ps) (n.proposeHandler C peer prop body x, ps) := by
  unfold proposeHandler
  split
  · exact .refl
  rename_i h9
  refine (addBlk_moves body).trans ?_
  simp only []
  split
  · rename_i hcluster
    split
    · exact .refl
    · rename_i p hp
      split
      · exact .refl
      · rename_i hpeer
        refine dispatch_moves fun h1 h2 => hP ?_
        have hauth : peer = p ∨ 3 ≤ prop.msgType := by
          rw [not_and_or, not_not, not_lt] at hpeer
          exact hpeer
        unfold passesOn
        rw [show n.core.config.getPeerId prop.proposer = some p from hp]
        simp [h9, h1, h2, hauth]
  · rename_i hcluster
    refine dispatch_moves fun h1 h2 => hP ?_
    have hne : n.core.clusterId ≠ prop.clusterNumber := hcluster
    unfold passesOn
    simp [h9, h1, h2, hne]

theorem rcomplainHandler_moves (c : Complain) (junk : ℤ) :
    Moves C P (n, ps) (n.rcomplainHandler C c junk, ps) := by
  unfold rcomplainHandler
  split
  · exact .refl
  split
  · exact .refl
  · exact (Move.call rfl fun _ hm => absurd hm (by simp [Replica.proposes])).moves

theorem foldl_addBlk_moves (bodies : List Body) :
    Moves C P (n, ps) (bodies.foldl (fun n body => n.call C (.addBlk body)) n, ps) := by
  induction bodies generalizing n with
  | nil => exact .refl
  | cons body bodies ih => exact (addBlk_moves body).trans ih

theorem onFetchBlk_moves (h : Hash) (thrown : Bool) :
    Moves C P (n, ps) (n.onFetchBlk h thrown, ps) := by
  unfold onFetchBlk
  split
  · exact .refl
  · simp only []
    split <;> exact (Move.release _ rfl).moves

theorem fetchBlks_moves (thrown : Option ℕ) (bodies : List Body) :
    Moves C P (n, ps) (n.fetchBlks C thrown bodies, ps) := by
  induction bodies generalizing n thrown with
  | nil => exact .refl
  | cons body bodies ih =>
    match thrown with
    | some 0 => exact onFetchBlk_moves _ true
    | some (k + 1) => exact (onFetchBlk_moves _ false).trans (ih (some k))
    | none => exact (onFetchBlk_moves _ false).trans (ih none)

end

end Node

/-- The input is one that can come, and it leads to nothing that the policy forbids. -/
def Input.Within (C : Crypto) (P : Node.Policy) (n : Node) : Input → Prop
  | .propose peer prop body _ =>
    n.passesOn peer prop = true → P.propose { prop with blk := C.getHash body }
  | .resume k => ∀ p ∈ n.pending[k]?, ∀ v ∈ p.ending, P.finish v
  | .call op => op.immediate = true ∧ ∀ h ∈ n.core.proposes C op, P.make n h
  | _ => True

theorem Op.immediate_direct {op : Op} (h : op.immediate = true) : op.direct = true := by
  cases op with
  | receiveProposal => exact absurd h (by simp [Op.immediate])
  | deliverBlk => exact absurd h (by simp [Op.immediate])
  | _ => rfl

namespace Node
variable {C : Crypto} {P : Policy} {n : Node}

theorem step_moves {i : Input} (hi : i.Within C P n) : Moves C P (n, []) (n.step C i, []) := by
  cases i with
  | propose peer prop body x => exact proposeHandler_moves hi
  | vote peer v => exact awaitDelivered_moves _ rfl fun _ h => absurd h (by simp)
  | lcomplain peer c => exact awaitDelivered_moves _ rfl fun _ h => absurd h (by simp)
  | rcomplain c junk => exact rcomplainHandler_moves c junk
  | reqBlk peer blks =>
    exact (foldl_fetchOne_moves blks (n, [])).trans
      (Move.await rfl fun _ h => absurd h (by simp)).moves
  | respBlk bodies thrown => exact (foldl_addBlk_moves bodies).trans (fetchBlks_moves thrown bodies)
  | verified h => exact (Move.verified h).moves
  | checked voter cert => exact (Move.release n.blkFetchWaiting rfl).moves
  | resume k => exact resume_moves hi
  | call op => exact (Move.call (Op.immediate_direct hi.1) hi.2).moves

theorem invariant_of_moves {c : Setup} {I : Node × List Pending → Prop}
    (h : Runs.Reach (fun n i => i.Within C P n) (step C) (start c) n) (hstart : I (start c, []))
    (hmove : ∀ x y, Move C P x y → I x → I y) : I (n, []) :=
  h.invariant (fun n => I (n, [])) hstart fun _ _ hn hi => (step_moves hi).invariant hn hmove

section
variable (n : Node) (op : Op)

theorem call_pending : (n.call C op).pending = n.pending := by
  unfold call
  simp only []
  split <;> rfl

theorem call_waiting : (n.call C op).blkDeliveryWaiting = n.blkDeliveryWaiting := by
  unfold call
  simp only []
  split <;> rfl

theorem resolve_pending (d : Dep) : (n.resolve d).pending =
    n.pending.map fun p => ⟨p.deps.filter fun x => decide (x ≠ d), p.cont⟩ := rfl

end

def live (x : Node × List Pending) : List Pending := x.2 ++ x.1.pending

/-- A proposal that waits for nothing more has a delivered block. -/
def Promised (P : Policy) (r : Replica) (p : Pending) : Prop :=
  ∀ prop, p.cont = .proposal prop → P.propose prop ∧
    (.delivered prop.blk ∈ p.deps ∨ r.delivered prop.blk = true)

theorem Promised.grow {r r' : Replica} {p : Pending} (hp : Promised P r p)
    (hg : ∀ x, r.delivered x = true → r'.delivered x = true) : Promised P r' p := by
  intro prop hprop
  obtain ⟨hP, hdep | hd⟩ := hp prop hprop
  · exact ⟨hP, .inl hdep⟩
  · exact ⟨hP, .inr (hg _ hd)⟩

theorem Promised.resolve {r : Replica} {p : Pending} (hp : Promised P r p) {d : Dep}
    (hd : ∀ x, d = .delivered x → r.delivered x = true) :
    Promised P r ⟨p.deps.filter fun x => decide (x ≠ d), p.cont⟩ := by
  intro prop hprop
  obtain ⟨hP, hdep | hdel⟩ := hp prop hprop
  · refine ⟨hP, ?_⟩
    by_cases h : d = .delivered prop.blk
    · exact .inr (hd _ h)
    · refine .inl (List.mem_filter.mpr ⟨hdep, ?_⟩)
      exact decide_eq_true fun heq => h heq.symm
  · exact ⟨hP, .inr hdel⟩

structure Sound (P : Policy) (x : Node × List Pending) : Prop where
  voting : x.1.core.ledger.Voting
  promised : ∀ p ∈ live x, Promised P x.1.core p

theorem Sound.core {x : Node × List Pending} (S : Sound P x) {n : Node} {ps : List Pending}
    (op : Op) (hr : Cluster.Routed x.1.core op) (hcore : n.core = x.1.core.step C op)
    (hlive : ∀ p ∈ live (n, ps), p ∈ live x) : Sound P (n, ps) := by
  have hv : n.core.ledger.Voting := by
    rw [hcore]
    exact hr.voting S.voting
  refine ⟨hv, fun p hp => (S.promised p (hlive p hp)).grow fun y hy => ?_⟩
  change n.core.delivered y = true
  rw [hcore]
  exact (Replica.exec_steps C S.voting.wf op).grows.delivered hy

theorem Sound.resolve {n : Node} {ps : List Pending} (S : Sound P (n, ps)) {d : Dep}
    (hd : ∀ x, d = .delivered x → n.core.delivered x = true) : Sound P (n.resolve d, ps) := by
  refine ⟨S.voting, ?_⟩
  intro p hp
  rcases List.mem_append.mp hp with hp | hp
  · exact S.promised p (List.mem_append_left _ hp)
  · obtain ⟨q, hq, rfl⟩ := List.mem_map.mp hp
    exact (S.promised q (List.mem_append_right _ hq)).resolve hd

theorem Sound.add {n m : Node} {ps : List Pending} (S : Sound P (n, ps)) {q : Pending}
    (hcore : m.core = n.core) (hpending : m.pending = n.pending ++ [q])
    (hq : Promised P n.core q) : Sound P (m, ps) := by
  refine ⟨by rw [hcore]; exact S.voting, ?_⟩
  intro p hp
  change Promised P m.core p
  rw [hcore]
  unfold live at hp
  rw [hpending, ← List.append_assoc] at hp
  rcases List.mem_append.mp hp with hp | hp
  · exact S.promised p hp
  · rw [List.mem_singleton.mp hp]
    exact hq

theorem Sound.subset {n m : Node} {ps qs : List Pending} (S : Sound P (n, ps))
    (hcore : m.core = n.core) (hlive : ∀ p ∈ live (m, qs), p ∈ live (n, ps)) :
    Sound P (m, qs) := by
  refine ⟨by rw [hcore]; exact S.voting, fun p hp => ?_⟩
  change Promised P m.core p
  rw [hcore]
  exact S.promised p (hlive p hp)

theorem live_tail {n : Node} {q : Pending} {ps : List Pending} :
    ∀ p ∈ live (n, ps), p ∈ live (n, q :: ps) := fun _ hp => List.mem_cons_of_mem _ hp

theorem settle_false_live {n : Node} {h : Hash} {ps : List Pending} :
    ∀ p ∈ live (n.settle h false, ps), p ∈ live (n, ps) := by
  intro p hp
  rcases List.mem_append.mp hp with hp | hp
  · exact List.mem_append_left _ hp
  · refine List.mem_append_right _ ?_
    unfold settle at hp
    split at hp
    · exact List.mem_of_mem_filter hp
    · exact hp

theorem Sound.settle {n : Node} {ps : List Pending} (S : Sound P (n, ps)) {h : Hash}
    (hd : n.core.delivered h = true) : Sound P (n.settle h true, ps) := by
  unfold Node.settle
  split
  · have hn : Sound P (n.note (.resolved h), ps) := S.subset rfl fun p hp => hp
    have hr : Sound P ((n.note (.resolved h)).resolve (.delivered h), ps) := by
      apply hn.resolve
      rintro x ⟨⟩
      exact hd
    exact hr.subset rfl fun p hp => hp
  · exact S

theorem Sound.move {x y : Node × List Pending} (hm : Move C P x y) (S : Sound P x) :
    Sound P y := by
  cases hm with
  | fetch f hes => exact S.subset rfl fun p hp => hp
  | request f deps replica hes hd hw =>
    exact S.add rfl rfl fun prop hprop => absurd hprop (by simp)
  | @call n ps op hop hm =>
    refine S.core op ?_ (call_core _ n op) ?_
    · cases op with
      | receiveProposal => exact absurd hop (by simp [Op.direct])
      | _ => trivial
    · intro p hp
      unfold live at hp
      rw [call_pending] at hp
      exact hp
  | await hc hp => exact S.add rfl rfl hp
  | @take n ps k cont hk =>
    refine S.subset rfl ?_
    intro p hp
    rcases List.mem_cons.mp hp with rfl | hp
    · exact List.mem_append_right _ (List.mem_of_getElem? hk)
    · rcases List.mem_append.mp hp with hp | hp
      · exact List.mem_append_left _ hp
      · exact List.mem_append_right _ (List.mem_of_mem_eraseIdx hp)
  | drop => exact S.subset rfl live_tail
  | @release n ps d f hd =>
    have hr : Sound P (n.resolve d, ps) := by
      refine S.resolve ?_
      rintro x rfl
      exact absurd hd (by simp [Dep.plain])
    exact hr.subset rfl fun p hp => hp
  | @verified n h =>
    have hn : Sound P ({ n with log := n.log ++ n.pending.flatMap (Pending.verdict · h) }, []) :=
      S.subset rfl fun p hp => hp
    apply hn.resolve
    intro x hx
    exact absurd hx (by simp)
  | @judge n ps h replica deps valid =>
    exact (S.subset rfl live_tail).add rfl rfl fun prop hprop => absurd hprop (by simp)
  | @propose n ps prop =>
    refine S.core (.receiveProposal prop.proposer prop.blk) (.inr ?_) (call_core _ n _) ?_
    · rcases (S.promised _ (List.mem_cons_self ..) prop rfl).2 with hdep | hd
      · exact absurd hdep List.not_mem_nil
      · exact hd
    · intro p hp
      unfold live at hp
      rw [call_pending] at hp
      exact live_tail p hp
  | @fail n ps h valid u e hu =>
    exact S.core (.deliverBlk h) trivial (Replica.deliver_step C hu) live_tail
  | refuse hd => exact S.subset (settle_core ..) fun p hp => live_tail p (settle_false_live p hp)
  | @mark n ps h valid u hP hu =>
    have hcore : Sound P (({ n with core := u } : Node).note (.marked h), ps) :=
      S.core (.deliverBlk h) trivial (Replica.deliver_step C hu) live_tail
    exact hcore.settle (Replica.onDeliverBlk_ok hu)

theorem start_sound (c : Setup) : Sound P (start c, []) :=
  ⟨c.start_voting, fun _ hp => absurd hp List.not_mem_nil⟩

theorem sound_of_reach {c : Setup}
    (h : Runs.Reach (fun n i => i.Within C P n) (step C) (start c) n) : Sound P (n, []) :=
  invariant_of_moves h (start_sound c) fun _ _ => Sound.move

theorem Sound.voted_delivered {x : Node × List Pending} (S : Sound P x) {h : Hash}
    (hv : Event.vote h ∈ x.1.core.trace) : x.1.core.delivered h = true := by
  obtain ⟨l, hl⟩ := S.voting.cast h (Replica.voted_iff.mp hv)
  exact (S.voting.bound _ hl).1

/-- What delivery promises of a block: its parents are delivered and its height is one above
the first of them, and the block that its certificate names has been fetched. Only delivered
blocks are voted for. -/
theorem delivered_linked (C : Crypto) (c : Setup) (n : Node)
    (h : Runs.Reach (fun n i => i.Within C .any n) (step C) (start c) n) :
    (∀ x, n.core.delivered x = true → x ≠ b0 → ∃ blk p, n.core.storage.blkCache x = some blk ∧
      blk.parents = blk.body.parentHashes ∧ n.core.parent0 x = some p ∧
      n.core.height x = n.core.height p + 1 ∧
      (∀ q ∈ blk.parents, n.core.delivered q = true) ∧
      n.core.qcRef x = some blk.body.qc.objHash ∧
      (n.core.storage.blkCache blk.body.qc.objHash).isSome = true) ∧
    ∀ x, Event.vote x ∈ n.core.trace → n.core.delivered x = true := by
  have S := sound_of_reach h
  refine ⟨?_, fun x hx => S.voted_delivered hx⟩
  intro x hd hx
  have w := S.voting.wf
  obtain ⟨m, hm, hmd⟩ := Tree.exists_of_delivered hd
  obtain ⟨blk, hblk, rfl⟩ := n.core.cache_of_tree hm
  have hl := w.linked x _ hm hmd hx
  obtain ⟨p, hp, hh⟩ := hl.height
  refine ⟨blk, p, hblk, hl.parents, (Tree.parent0_of hm).trans hp, (Tree.height_of hm).trans hh,
    w.parents x _ hm, (Tree.qcRef_of hm).trans hl.qcRef, ?_⟩
  have hq := hl.qcStored
  unfold Replica.ledger Replica.tree at hq
  rw [Option.isSome_map] at hq
  exact hq

end Node

instance (C : Crypto) (P : Node.Policy) [∀ n, DecidablePred (P.make n)] [DecidablePred P.finish]
    [DecidablePred P.propose] (n : Node) : DecidablePred (Input.Within C P n)
  | .propose .. => inferInstanceAs (Decidable (_ → _))
  | .resume _ => inferInstanceAs (Decidable (∀ p ∈ _, _))
  | .call _ => inferInstanceAs (Decidable (_ ∧ _))
  | .vote .. | .lcomplain .. | .rcomplain .. | .reqBlk .. | .respBlk .. | .verified _
  | .checked .. => inferInstanceAs (Decidable True)

namespace Node

instance : (n : Node) → DecidablePred (Policy.any.make n) := fun _ _ => .isTrue trivial
instance : DecidablePred Policy.any.finish := fun _ => .isTrue trivial
instance : DecidablePred Policy.any.propose := fun _ => .isTrue trivial

def proposed (b : Body) : List Input :=
  [.propose 0 ⟨0, 0, 0, 0, 0, 0, ∅, 0⟩ b 0, .resume 0, .verified (Crypto.sample.getHash b),
    .resume 1, .resume 0]

/-- Two blocks on the genesis block, and one on the first with a certificate of the second. -/
def crossing : Node := Runs.run (step .sample) (start (.four 1))
  (proposed (.sample 0 0 7 [0]) ++ proposed (.sample 0 0 8 []) ++ proposed (.sample 1 2 9 []))

theorem crossing_reach :
    Runs.Reach (fun n i => i.Within .sample .any n) (step .sample) (start (.four 1)) crossing :=
  Runs.reach_run _ .init (by decide +kernel)

theorem delivered_linked_crossing : ∃ blk p, crossing.core.storage.blkCache 3 = some blk ∧
    blk.parents = blk.body.parentHashes ∧ crossing.core.parent0 3 = some p ∧
    crossing.core.height 3 = crossing.core.height p + 1 ∧
    (∀ q ∈ blk.parents, crossing.core.delivered q = true) ∧
    crossing.core.qcRef 3 = some blk.body.qc.objHash ∧
    (crossing.core.storage.blkCache blk.body.qc.objHash).isSome = true :=
  (delivered_linked .sample (.four 1) crossing crossing_reach).1 3 (by decide +kernel) (by decide)

/-- A block whose certificate is valid but belongs to another branch is delivered and voted
for. -/
theorem delivered_off_branch :
    Runs.Reach (fun n i => i.Within .sample .any n) (step .sample) (start (.four 1)) crossing ∧
    (Body.sample 1 2 9 []).verify .sample (Setup.four 1).config = true ∧
    crossing.core.delivered 3 = true ∧ crossing.core.delivered 2 = true ∧
    crossing.core.qcRef 3 = some 2 ∧
    Event.vote 3 ∈ crossing.core.trace ∧ ¬Anc crossing.core.parent0 2 3 := by
  have hparents : crossing.core.parent0 3 = some 1 ∧ crossing.core.parent0 1 = some 0 ∧
      crossing.core.parent0 0 = none := by decide +kernel
  obtain ⟨h3, h1, h0⟩ := hparents
  refine ⟨crossing_reach, by decide +kernel, by decide +kernel, by decide +kernel,
    by decide +kernel, by decide +kernel, ?_⟩
  intro hanc
  rcases anc_iff.mp hanc with h | ⟨p, hp, hanc⟩
  · exact absurd h (by decide)
  obtain rfl : 1 = p := Option.some.inj (h3.symm.trans hp)
  rcases anc_iff.mp hanc with h | ⟨p, hp, hanc⟩
  · exact absurd h (by decide)
  obtain rfl : 0 = p := Option.some.inj (h1.symm.trans hp)
  rcases anc_iff.mp hanc with h | ⟨p, hp, hanc⟩
  · exact absurd h (by decide)
  · rw [h0] at hp
    exact absurd hp (by simp)

end Node

end AvaHotstuff
