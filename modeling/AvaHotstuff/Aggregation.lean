import AvaHotstuff.Members
import AvaHotstuff.ReconfigNet
import AvaHotstuff.Totality

set_option autoImplicit false

namespace AvaHotstuff

def Event.announces (r : Recs) : Event → Bool
  | .recsSent r' type _ _ => r' == r && type == myAgg
  | _ => false

def Replica.aggs (s : Replica) (r : Recs) : ℕ := s.trace.countP (Event.announces r)

def Op.ackFree : Op → Bool
  | .msgRecs _ | .sendReconfigAck _ _ => false
  | _ => true

namespace Replica
variable (s : Replica)

theorem aggs_eq (r : Recs) : s.aggs r = s.recsView.log.countP (Event.announces r) := by
  unfold aggs
  change _ = (s.trace.filter Event.onRecs).countP (Event.announces r)
  rw [List.countP_filter]
  congr 1
  funext e
  cases e <;> simp [Event.announces, Event.onRecs]

theorem aggs_of_log {u : Replica} {es : List Event} (h : u.recsView.log = s.recsView.log ++ es)
    (r : Recs) : u.aggs r = s.aggs r + es.countP (Event.announces r) := by
  rw [aggs_eq, aggs_eq, h, List.countP_append]

theorem msgRecsAggEchoReady_pending (msg : MsgRecsAggEchoReady) :
    (s.msgRecsAggEchoReadyHandler msg).1.recs.pendingRecs = s.recs.pendingRecs := by
  unfold msgRecsAggEchoReadyHandler
  split
  · rfl
  split
  · unfold onEcho
    simp only []
    split
    · split <;> rfl
    · rfl
  split
  · unfold onReady
    simp only []
    split
    · split
      · rfl
      · unfold reconfigure
        split
        · rfl
        split <;> rfl
    · rfl
  · rfl

theorem exec_pending (C : Crypto) {op : Op} (hop : op.ackFree = true) :
    (s.exec C op).1.recs.pendingRecs = s.recs.pendingRecs := by
  cases op with
  | receiveMcLocal prop x =>
    exact congrArg (fun f : Frame => f.recs.pendingRecs) (s.receiveMcLocal_frame prop x s.mc)
  | relayMc prop x =>
    have h := congrArg (fun f : Frame => f.recs.pendingRecs) (s.relayMc_frame prop x s.mc)
    split at h
    · exact h
    · exact h
  | remoteViewChangeTimeout cid =>
    have hrecs := congrArg Replica.recs (s.remoteViewChangeTimeout_uncomplained C cid)
    exact congrArg Membership.pendingRecs hrecs
  | receiveLComplain c =>
    have hrecs := congrArg Replica.recs (s.onReceiveLComplain_uncomplained C c)
    exact congrArg Membership.pendingRecs hrecs
  | receiveRComplain c junk =>
    have hrecs := congrArg Replica.recs (s.onReceiveRComplain_unrotated c junk)
    exact congrArg Membership.pendingRecs hrecs
  | msgRecsAggEchoReady msg => exact s.msgRecsAggEchoReady_pending msg
  | msgRecs r => exact absurd hop (by simp [Op.ackFree])
  | sendReconfigAck fin r => exact absurd hop (by simp [Op.ackFree])
  | _ => exact congrArg (fun f : Frame => f.recs.pendingRecs) (s.exec_frame C rfl)

theorem msgRecsAggEchoReady_aggs (msg : MsgRecsAggEchoReady) (r : Recs) :
    (s.msgRecsAggEchoReadyHandler msg).1.aggs r = s.aggs r := by
  have hecho : ∀ r' k dsts, Event.announces r (.recsSent r' myEcho k dsts) = false :=
    fun _ _ _ => Bool.and_false _
  have hready : ∀ r' k dsts, Event.announces r (.recsSent r' myReady k dsts) = false :=
    fun _ _ _ => Bool.and_false _
  have hnew : ∀ (u : Replica) (e : Event), e.onRecs = true → Event.announces r e = false →
      (u.emit e).aggs r = u.aggs r := by
    intro u e he hr
    rw [u.aggs_of_log (congrArg RecsView.log (u.emit_recsView_log he)), List.countP_singleton, hr]
    rfl
  unfold msgRecsAggEchoReadyHandler
  split
  · exact hnew s _ rfl (hecho ..)
  split
  · unfold onEcho
    simp only []
    split
    · split
      · exact hnew _ _ rfl (hready ..)
      · rename_i p _
        change ((((s.countEcho msg.reconfigCount).multicastRecs msg.recs myReady
          msg.reconfigCount).emit (.recsSent msg.recs myReady msg.reconfigCount [p]))).aggs r = _
        rw [hnew _ _ rfl (hready ..)]
        exact hnew _ _ rfl (hready ..)
    · rfl
  split
  · unfold onReady
    simp only []
    split
    · split
      · rfl
      · unfold reconfigure
        split
        · exact hnew _ _ rfl rfl
        split
        · exact hnew _ _ rfl rfl
        · rfl
    · rfl
  · rfl

theorem exec_aggs (C : Crypto) {op : Op} (hop : op.ackFree = true) (r : Recs) :
    (s.exec C op).1.aggs r = s.aggs r := by
  cases op with
  | msgRecsAggEchoReady msg => exact s.msgRecsAggEchoReady_aggs msg r
  | msgRecs r => exact absurd hop (by simp [Op.ackFree])
  | sendReconfigAck fin r => exact absurd hop (by simp [Op.ackFree])
  | _ =>
    rw [aggs_eq, aggs_eq]
    exact congrArg (fun v : RecsView => v.log.countP _) (s.exec_recsView C rfl)

theorem msgRecs_leader {r : Recs} (hleader : s.id = s.pmaker.proposer) :
    (s.msgRecsHandler r).recs.pendingRecs =
        Function.update s.recs.pendingRecs r (s.recs.pendingRecs r + 1) ∧
      (s.msgRecsHandler r).config = s.config ∧
      ∀ x, (s.msgRecsHandler r).aggs x = s.aggs x +
        if x = r ∧ s.recs.pendingRecs r + 1 = s.config.nmajority then 1 else 0 := by
  unfold msgRecsHandler
  rw [if_pos hleader]
  simp only [Function.update_self]
  split
  · rename_i hgt
    refine ⟨rfl, rfl, fun x => ?_⟩
    rw [if_neg fun h => absurd h.2 (Nat.ne_of_gt hgt)]
    rfl
  split
  · rename_i heq
    refine ⟨rfl, rfl, fun x => ?_⟩
    refine (s.aggs_of_log (congrArg RecsView.log (startAgg_recsView ..)) x).trans ?_
    by_cases hx : x = r
    · subst x
      rw [if_pos ⟨rfl, heq⟩]
      simp [Event.announces, myAgg, myEcho]
    · rw [if_neg fun h => hx h.1]
      simp [Event.announces, myAgg, myEcho, Ne.symm hx]
  · rename_i hne
    refine ⟨rfl, rfl, fun x => ?_⟩
    rw [if_neg fun h => hne h.2]
    rfl

theorem sendReconfigAck_leader {r : Recs} (fin : Finality) (hleader : s.id = s.pmaker.proposer) :
    (s.sendReconfigAck fin r).recs.pendingRecs =
        Function.update s.recs.pendingRecs r (s.recs.pendingRecs r + 1) ∧
      (s.sendReconfigAck fin r).config = s.config ∧
      ∀ x, (s.sendReconfigAck fin r).aggs x = s.aggs x := by
  have hview := s.sendReconfigAck_recsView fin r
  have hframe := s.answerClient_frame fin
  have hid : (s.answerClient fin).id = s.id := congrArg Frame.id hframe
  have hproposer : (s.answerClient fin).pmaker.proposer = s.pmaker.proposer :=
    congrArg Frame.proposer hframe
  have hpending : (s.answerClient fin).recs.pendingRecs = s.recs.pendingRecs :=
    congrArg (fun f : Frame => f.recs.pendingRecs) hframe
  refine ⟨?_, ?_, ?_⟩
  · unfold sendReconfigAck
    simp only []
    rw [if_neg (by rw [hid, hproposer]; exact not_not.mpr hleader), hpending]
  · exact congrArg (fun v : RecsView => v.roster.config) hview
  · intro x
    rw [aggs_eq, aggs_eq, hview]

theorem exec_nmajority_pos (C : Crypto) (op : Op) (h : 0 < s.config.nmajority) :
    0 < (s.exec C op).1.config.nmajority := by
  rcases s.exec_roster C op with hsame | ⟨l, is, hleave⟩
  · rw [show (s.exec C op).1.config = s.config from congrArg Roster.config hsame]
    exact h
  · rw [show (s.exec C op).1.config.nmajority = _ from
      congrArg (fun x : Roster => x.config.nmajority) hleave]
    change 0 < List.length _ + 1 - List.length _ / 3
    omega

end Replica

/-- The leader with the replicas that have acknowledged each request, and whether a majority
of them once has. -/
structure Aggregator where
  leader : Replica
  acked : ℕ → Finset ReplicaID
  reached : ℕ → Bool

/-- The requests are numbered; `req` gives their contents. -/
inductive AckInput where
  | ack (j : ReplicaID) (c : ℕ)
  | own (fin : Finality) (c : ℕ)
  | call (op : Op)

namespace Aggregator
variable (req : ℕ → Recs)

def majority (g : Aggregator) : ℕ := g.leader.getRecsMajority

def pending (g : Aggregator) (c : ℕ) : ℕ := g.leader.recs.pendingRecs (req c)

def next (g : Aggregator) (s : Replica) (acked : ℕ → Finset ReplicaID) : Aggregator where
  leader := s
  acked := acked
  reached c := g.reached c || decide (s.getRecsMajority ≤ (acked c).card)

def step (C : Crypto) (g : Aggregator) : AckInput → Aggregator
  | .ack j c => g.next (g.leader.step C (.msgRecs (req c)))
      (Function.update g.acked c (insert j (g.acked c)))
  | .own fin c => g.next (g.leader.step C (.sendReconfigAck fin (req c)))
      (Function.update g.acked c (insert g.leader.id (g.acked c)))
  | .call op => g.next (g.leader.step C op) g.acked

def start (c : Setup) : Aggregator := ⟨c.start, fun _ => ∅, fun _ => false⟩

/-- The leader stays the leader, and the acknowledgements are those of the inputs. -/
def Leads (g : Aggregator) : AckInput → Prop
  | .ack _ _ | .own _ _ => g.leader.id = g.leader.pmaker.proposer
  | .call op => op.ackFree = true

def Distinct (g : Aggregator) (c : ℕ) : Prop :=
  ∀ c', (g.acked c').Nonempty → req c' = req c → c' = c

/-- An acknowledgement counts a replica once, the leader's own is not the one that makes up the
majority, and a change of the majority does not pass a count. -/
def Orderly (C : Crypto) (g : Aggregator) : AckInput → Prop
  | .ack j c => g.Distinct req c ∧ (j ∉ g.acked c ∨ g.majority ≤ g.pending req c)
  | .own _ c => g.Distinct req c ∧ (g.leader.id ∉ g.acked c ∨ g.majority ≤ g.pending req c) ∧
      g.pending req c + 1 ≠ g.majority
  | .call op => ∀ c, (g.acked c).Nonempty → (g.pending req c < g.majority ↔
      g.pending req c < (g.leader.step C op).getRecsMajority)

structure Counted (g : Aggregator) (c : ℕ) : Prop where
  below : g.pending req c < g.majority → (g.acked c).card = g.pending req c ∧
    g.reached c = false ∧ g.leader.aggs (req c) = 0
  enough : g.majority ≤ g.pending req c → g.reached c = true ∧ g.leader.aggs (req c) = 1

structure Inv (g : Aggregator) : Prop where
  pos : 0 < g.majority
  counted : ∀ c, (g.acked c).Nonempty → g.Counted req c
  unused : ∀ r, (∀ c, (g.acked c).Nonempty → req c ≠ r) →
    g.leader.recs.pendingRecs r = 0 ∧ g.leader.aggs r = 0
  idle : ∀ c, g.acked c = ∅ → g.reached c = false
  distinct : ∀ c, (g.acked c).Nonempty → g.Distinct req c

variable {req} {C : Crypto} {g : Aggregator}

/-- A request without acknowledgements is counted as well. -/
theorem Inv.counted_of_distinct (I : g.Inv req) {c : ℕ} (hd : g.Distinct req c) :
    g.Counted req c := by
  by_cases hc : (g.acked c).Nonempty
  · exact I.counted c hc
  · have hempty : g.acked c = ∅ := Finset.not_nonempty_iff_eq_empty.mp hc
    have hnone := I.unused (req c) fun c' hc' heq => hc (hd c' hc' heq ▸ hc')
    have hpending : g.pending req c = 0 := hnone.1
    constructor
    · intro _
      rw [hempty, hpending]
      exact ⟨Finset.card_empty, I.idle c hempty, hnone.2⟩
    · intro hle
      have hpos := I.pos
      omega

/-- One acknowledgement of the request `c` by the replica `j`, counted by a call that leaves `s` and
announces the request exactly when the count makes up the majority. -/
structure Acknowledges (req : ℕ → Recs) (g : Aggregator) (c : ℕ) (j : ReplicaID) (s : Replica) :
    Prop where
  distinct : g.Distinct req c
  fresh : j ∉ g.acked c ∨ g.majority ≤ g.pending req c
  pending : s.recs.pendingRecs =
    Function.update g.leader.recs.pendingRecs (req c) (g.pending req c + 1)
  majority : s.getRecsMajority = g.majority
  aggs : ∀ x, s.aggs x = g.leader.aggs x +
    if x = req c ∧ g.pending req c + 1 = g.majority then 1 else 0

def ack (g : Aggregator) (c : ℕ) (j : ReplicaID) : ℕ → Finset ReplicaID :=
  Function.update g.acked c (insert j (g.acked c))

section
variable {c : ℕ} {j : ReplicaID} {s : Replica}

theorem ack_self : g.ack c j c = insert j (g.acked c) := Function.update_self ..

theorem ack_other {c' : ℕ} (h : c' ≠ c) : g.ack c j c' = g.acked c' := Function.update_of_ne h ..

theorem ack_nonempty {c' : ℕ} :
    (g.ack c j c').Nonempty ↔ c' = c ∨ c' ≠ c ∧ (g.acked c').Nonempty := by
  by_cases h : c' = c
  · subst h
    rw [ack_self]
    exact iff_of_true (Finset.insert_nonempty ..) (.inl rfl)
  · simp only [ack_other h, h, false_or, ne_eq, not_false_eq_true, true_and]

theorem Acknowledges.card (A : g.Acknowledges req c j s) (hcount : g.Counted req c)
    (h : g.pending req c < g.majority) : (g.ack c j c).card = g.pending req c + 1 := by
  rw [ack_self, Finset.card_insert_of_notMem (A.fresh.resolve_right (by omega)),
    (hcount.below h).1]

theorem Acknowledges.counted_self (A : g.Acknowledges req c j s) (hcount : g.Counted req c) :
    (g.next s (g.ack c j)).Counted req c := by
  have hp : (g.next s (g.ack c j)).pending req c = g.pending req c + 1 := by
    change s.recs.pendingRecs (req c) = _
    rw [A.pending, Function.update_self]
  have hreached : (g.next s (g.ack c j)).reached c =
      (g.reached c || decide (g.majority ≤ (g.ack c j c).card)) := by
    rw [← A.majority]
    rfl
  constructor
  · intro hlt
    rw [hp] at hlt ⊢
    have hbelow : g.pending req c + 1 < g.majority := A.majority ▸ hlt
    obtain ⟨-, hold, hagg⟩ := hcount.below (by omega)
    have hcard := A.card hcount (by omega)
    refine ⟨hcard, ?_, ?_⟩
    · rw [hreached, hold, hcard, Bool.false_or]
      exact decide_eq_false (by omega)
    · change s.aggs (req c) = 0
      rw [A.aggs, hagg, if_neg fun h => absurd h.2 (by omega)]
  · intro hle
    rw [hp] at hle
    have henough : g.majority ≤ g.pending req c + 1 := A.majority ▸ hle
    rw [hreached]
    change _ ∧ s.aggs (req c) = 1
    by_cases hlast : g.pending req c + 1 = g.majority
    · -- the acknowledgement that makes up the majority
      obtain ⟨-, hold, hagg⟩ := hcount.below (by omega)
      rw [A.card hcount (by omega), hold, A.aggs, hagg, if_pos ⟨rfl, hlast⟩, Bool.false_or]
      exact ⟨decide_eq_true (by omega), rfl⟩
    · obtain ⟨hold, hagg⟩ := hcount.enough (by omega)
      rw [hold, A.aggs, hagg, if_neg fun h => hlast h.2]
      exact ⟨rfl, rfl⟩

theorem Acknowledges.counted_other (A : g.Acknowledges req c j s) {c' : ℕ} (hne : c' ≠ c)
    (hold : (g.acked c').Nonempty) (hcount : g.Counted req c') :
    (g.next s (g.ack c j)).Counted req c' := by
  have hother : req c' ≠ req c := fun heq => hne (A.distinct c' hold heq)
  have hp : (g.next s (g.ack c j)).pending req c' = g.pending req c' := by
    change s.recs.pendingRecs (req c') = _
    rw [A.pending, Function.update_of_ne hother]
    rfl
  have hacked : (g.next s (g.ack c j)).acked c' = g.acked c' := ack_other hne
  have hreached : (g.next s (g.ack c j)).reached c' =
      (g.reached c' || decide (g.majority ≤ (g.acked c').card)) := by
    rw [← A.majority, ← hacked]
    rfl
  have hagg : s.aggs (req c') = g.leader.aggs (req c') := by
    rw [A.aggs, if_neg fun h => hother h.1, Nat.add_zero]
  constructor
  · intro hlt
    rw [hp] at hlt ⊢
    have hbelow : g.pending req c' < g.majority := A.majority ▸ hlt
    obtain ⟨hcard, hnot, hzero⟩ := hcount.below hbelow
    refine ⟨by rw [hacked, hcard], ?_, hagg.trans hzero⟩
    rw [hreached, hnot, hcard, Bool.false_or]
    exact decide_eq_false (by omega)
  · intro hle
    rw [hp] at hle
    have henough : g.majority ≤ g.pending req c' := A.majority ▸ hle
    obtain ⟨hyes, hone⟩ := hcount.enough henough
    refine ⟨?_, hagg.trans hone⟩
    rw [hreached, hyes]
    rfl

theorem Acknowledges.unused (A : g.Acknowledges req c j s) (I : g.Inv req) {r : Recs}
    (hr : ∀ c', (g.ack c j c').Nonempty → req c' ≠ r) :
    s.recs.pendingRecs r = 0 ∧ s.aggs r = 0 := by
  have hne : r ≠ req c := fun h => hr c (ack_nonempty.mpr (.inl rfl)) h.symm
  have hold : ∀ c', (g.acked c').Nonempty → req c' ≠ r := by
    intro c' hc'
    apply hr c'
    rw [ack_nonempty]
    by_cases h : c' = c
    · exact .inl h
    · exact .inr ⟨h, hc'⟩
  obtain ⟨hzero, hnone⟩ := I.unused r hold
  rw [A.pending, Function.update_of_ne hne, A.aggs, if_neg fun h => hne h.1]
  exact ⟨hzero, hnone⟩

theorem Inv.acknowledge (I : g.Inv req) (A : g.Acknowledges req c j s) :
    (g.next s (g.ack c j)).Inv req := by
  have hdistinct : ∀ c', (g.ack c j c').Nonempty → req c' = req c → c' = c := by
    intro c' hc' heq
    rcases ack_nonempty.mp hc' with h | ⟨-, h⟩
    · exact h
    · exact A.distinct c' h heq
  constructor
  · exact I.pos.trans_eq A.majority.symm
  · intro c' hc'
    rcases ack_nonempty.mp hc' with rfl | ⟨hne, hold⟩
    · exact A.counted_self (I.counted_of_distinct A.distinct)
    · exact A.counted_other hne hold (I.counted c' hold)
  · exact fun r hr => A.unused I hr
  · intro c' hc'
    replace hc' : g.ack c j c' = ∅ := hc'
    have hne : c' ≠ c := by
      rintro rfl
      rw [ack_self] at hc'
      exact Finset.insert_ne_empty _ _ hc'
    change (g.reached c' || decide (_ ≤ (g.ack c j c').card)) = false
    rw [hc', Finset.card_empty, A.majority, I.idle c' (by rw [← ack_other hne, hc']), Bool.false_or]
    exact decide_eq_false (Nat.not_le_of_lt I.pos)
  · intro a ha b hb heq
    rcases ack_nonempty.mp ha with rfl | ⟨-, hold⟩
    · exact hdistinct b hb heq
    · rcases ack_nonempty.mp hb with rfl | ⟨-, hold'⟩
      · exact (A.distinct a hold heq.symm).symm
      · exact I.distinct a hold b hold' heq

end

theorem Inv.call (I : g.Inv req) {op : Op} (hop : op.ackFree = true)
    (hsame : ∀ c, (g.acked c).Nonempty → (g.pending req c < g.majority ↔
      g.pending req c < (g.leader.step C op).getRecsMajority)) :
    (g.next (g.leader.step C op) g.acked).Inv req := by
  have hpending : (g.leader.step C op).recs.pendingRecs = g.leader.recs.pendingRecs :=
    g.leader.exec_pending C hop
  have haggs : ∀ r, (g.leader.step C op).aggs r = g.leader.aggs r := g.leader.exec_aggs C hop
  have hpos : 0 < (g.leader.step C op).getRecsMajority := g.leader.exec_nmajority_pos C op I.pos
  constructor
  · exact hpos
  · intro c hc
    have hp : (g.next (g.leader.step C op) g.acked).pending req c = g.pending req c :=
      congrFun hpending (req c)
    have hold := I.counted c hc
    constructor
    · intro hlt
      rw [hp] at hlt ⊢
      obtain ⟨hcard, hreached, hzero⟩ := hold.below ((hsame c hc).mpr hlt)
      refine ⟨hcard, ?_, (haggs _).trans hzero⟩
      change (g.reached c || decide (_ ≤ (g.acked c).card)) = false
      rw [hreached, hcard, Bool.false_or]
      exact decide_eq_false (Nat.not_le_of_lt hlt)
    · intro hle
      rw [hp] at hle
      have henough : g.majority ≤ g.pending req c := by
        by_contra hlt
        exact Nat.not_lt_of_le hle ((hsame c hc).mp (Nat.lt_of_not_le hlt))
      obtain ⟨hreached, hone⟩ := hold.enough henough
      refine ⟨?_, (haggs _).trans hone⟩
      change (g.reached c || _) = true
      rw [hreached]
      rfl
  · intro r hr
    obtain ⟨hzero, hnone⟩ := I.unused r hr
    exact ⟨(congrFun hpending r).trans hzero, (haggs r).trans hnone⟩
  · intro c hc
    have hempty : g.acked c = ∅ := hc
    change (g.reached c || decide (_ ≤ (g.acked c).card)) = false
    rw [I.idle c hempty, hempty, Finset.card_empty, Bool.false_or]
    exact decide_eq_false (Nat.not_le_of_lt hpos)
  · exact I.distinct

theorem Inv.step (I : g.Inv req) {a : AckInput} (hlead : g.Leads a)
    (horderly : g.Orderly req C a) : (g.step req C a).Inv req := by
  cases a with
  | ack j c =>
    obtain ⟨hpending, hconfig, haggs⟩ := g.leader.msgRecs_leader (r := req c) hlead
    exact I.acknowledge ⟨horderly.1, horderly.2, hpending,
      congrArg ReplicaConfig.nmajority hconfig, haggs⟩
  | own fin c =>
    obtain ⟨hpending, hconfig, haggs⟩ := g.leader.sendReconfigAck_leader (r := req c) fin hlead
    obtain ⟨hd, hnew, hown⟩ := horderly
    refine I.acknowledge ⟨hd, hnew, hpending, congrArg ReplicaConfig.nmajority hconfig, ?_⟩
    intro x
    rw [if_neg fun h => hown h.2, Nat.add_zero]
    exact haggs x
  | call op => exact I.call hlead horderly

theorem start_inv (c : Setup) (h : 0 < c.config.nmajority) : (start c).Inv req := by
  refine ⟨h, ?_, fun r _ => ⟨rfl, rfl⟩, fun _ _ => rfl, ?_⟩
  · intro x hx
    exact absurd hx Finset.not_nonempty_empty
  · intro x hx
    exact absurd hx Finset.not_nonempty_empty

/-- The leader has multicast AGG once for each request that a majority of distinct replicas has
acknowledged, and never for another one. -/
theorem aggregated_once (C : Crypto) (req : ℕ → Recs) (c : Setup) (g : Aggregator)
    (hpos : 0 < c.config.nmajority)
    (h : Runs.Reach (fun g a => Leads g a ∧ Orderly req C g a) (step req C) (start c) g) :
    ∀ x, (g.acked x).Nonempty →
      g.leader.aggs (req x) = if g.reached x = true then 1 else 0 := by
  have hinv : g.Inv req := by
    apply h.invariant (Inv req)
    · exact start_inv c hpos
    · intro g a I ⟨hlead, horderly⟩
      exact I.step hlead horderly
  intro x hx
  have hcount := hinv.counted x hx
  by_cases hlt : g.pending req x < g.majority
  · obtain ⟨-, hreached, hzero⟩ := hcount.below hlt
    rw [hreached, hzero]
    rfl
  · obtain ⟨hreached, hone⟩ := hcount.enough (Nat.le_of_not_lt hlt)
    rw [hreached, hone]
    rfl

def leaving (c : ℕ) : Recs := ⟨0, c, 1⟩

theorem leaving_distinct (g : Aggregator) (c : ℕ) : g.Distinct leaving c := by
  intro c' _ h
  exact Int.ofNat.inj (congrArg Recs.nodeNumber h)

def ownCopy (c : ℕ) : AckInput := .own ⟨0, 1, 0, 0, 5, 0⟩ c

def inTurn : Aggregator := Runs.run (step leaving .sample) (start .quartet)
  [ownCopy 1, .ack 1 1, .ack 2 1, .ack 2 1, .ack 3 1]

theorem aggregated_once_four : (inTurn.acked 1).Nonempty ∧ inTurn.leader.aggs (leaving 1) = 1 := by
  have hmem : (inTurn.acked 1).Nonempty := by decide +kernel
  have hreached : inTurn.reached 1 = true := by decide +kernel
  have hd := fun g => leaving_distinct g 1
  have hreach : Runs.Reach (fun g a => Leads g a ∧ Orderly leaving .sample g a)
      (step leaving .sample) (start .quartet) inTurn := by
    apply Runs.reach_run _ .init
    refine ⟨⟨rfl, hd _, .inl ?_, ?_⟩, ⟨rfl, hd _, .inl ?_⟩, ⟨rfl, hd _, .inl ?_⟩,
      ⟨rfl, hd _, .inr ?_⟩, ⟨rfl, hd _, .inl ?_⟩, trivial⟩ <;> decide +kernel
  have hone := aggregated_once .sample leaving .quartet inTurn (by decide) hreach 1 hmem
  rw [if_pos hreached] at hone
  exact ⟨hmem, hone⟩

def ownLast : Aggregator := Runs.run (step leaving .sample) (start .quartet)
  [.ack 1 1, .ack 2 1, ownCopy 1, .ack 3 1]

def twiceAcked : Aggregator := Runs.run (step leaving .sample) (start .quartet)
  [.ack 1 1, .ack 2 1, .ack 2 1]

def sameAgain : Aggregator := Runs.run (step (fun _ => leaving 1) .sample) (start .quartet)
  [ownCopy 0, .ack 1 0, .ack 2 0, .ack 3 0, ownCopy 1, .ack 1 1, .ack 2 1, .ack 3 1]

/-- AGG is never multicast when the leader's own acknowledgement is the third of four; it is
multicast for two replicas when one of them has acknowledged twice; and it is multicast once
for two requests of one content. -/
theorem aggregation_missed :
    ((ownLast.acked 1).card = 4 ∧ ownLast.reached 1 = true ∧
      ownLast.leader.aggs (leaving 1) = 0) ∧
    ((twiceAcked.acked 1).card = 2 ∧ twiceAcked.reached 1 = false ∧
      twiceAcked.leader.aggs (leaving 1) = 1) ∧
    ((sameAgain.acked 0).card = 4 ∧ (sameAgain.acked 1).card = 4 ∧
      sameAgain.leader.aggs (leaving 1) = 1) := by
  decide +kernel

end Aggregator

end AvaHotstuff
