import AvaHotstuff.Outbox
import AvaHotstuff.RecsView
import AvaHotstuff.Totality

set_option autoImplicit false

namespace AvaHotstuff

def Recs.applyTo (S : Finset ℤ) (r : Recs) : Finset ℤ :=
  if r.reconfigMode = 1 then insert r.nodeNumber S else S.erase r.nodeNumber

def Event.change? : Event → Option Recs
  | .reconfigured r _ => some r
  | _ => none

def Event.notice? : Event → Option Proposal
  | .otherClusters prop _ => some prop
  | _ => none

def Event.isCommit : Event → Bool
  | .consensus _ => true
  | _ => false

namespace Replica
variable (s : Replica)

def changes : List Recs := s.trace.filterMap Event.change?

def leaveSetAfter (k : ℕ) : Finset ℤ := (s.changes.take k).foldl Recs.applyTo ∅

/-- `S` is the leave set after the `k`-th reconfiguration. -/
def AfterReconfig (k : ℤ) (S : Finset ℤ) : Prop :=
  0 ≤ k ∧ k ≤ s.changes.length ∧ S = s.leaveSetAfter k.toNat

instance (k : ℤ) (S : Finset ℤ) : Decidable (s.AfterReconfig k S) :=
  inferInstanceAs (Decidable (_ ∧ _ ∧ _))

def notices : List Proposal := s.trace.filterMap Event.notice?

def commitCount : ℕ := s.trace.countP Event.isCommit

theorem notices_eq : s.notices = s.outbox.log.filterMap Event.notice? := by
  unfold notices
  change _ = (s.trace.filter Event.posted).filterMap Event.notice?
  rw [List.filterMap_filter]
  congr 1
  funext e
  cases e <;> rfl

theorem commitCount_eq : s.commitCount = s.outbox.log.countP Event.isCommit := by
  unfold commitCount
  change _ = (s.trace.filter Event.posted).countP Event.isCommit
  rw [List.countP_filter]
  congr 1
  funext e
  cases e <;> rfl

theorem relays_eq : s.relays = s.outbox.log.filterMap Event.relay? := by
  unfold relays
  change _ = (s.trace.filter Event.posted).filterMap Event.relay?
  rw [List.filterMap_filter]
  congr 1
  funext e
  cases e <;> rfl

theorem changes_eq : s.changes = s.recsView.log.filterMap Event.change? := by
  unfold changes
  change _ = (s.trace.filter Event.onRecs).filterMap Event.change?
  rw [List.filterMap_filter]
  congr 1
  funext e
  cases e <;> rfl

section
variable {s} {u : Replica}

theorem AfterReconfig.grow {k : ℤ} {S : Finset ℤ} (h : s.AfterReconfig k S) {rs : List Recs}
    (hu : u.changes = s.changes ++ rs) : u.AfterReconfig k S := by
  obtain ⟨hk, hn, hS⟩ := h
  refine ⟨hk, ?_, ?_⟩
  · rw [hu, List.length_append]
    omega
  · rw [hS]
    unfold leaveSetAfter
    rw [hu, List.take_append_of_le_length (by omega)]

def Rolled (s : Replica) : Prop := s.recs.leaveSetInt = s.changes.foldl Recs.applyTo ∅

theorem Rolled.after (h : s.Rolled) {k : ℤ} (hk : (s.changes.length : ℤ) = k) :
    s.AfterReconfig k s.recs.leaveSetInt := by
  refine ⟨by omega, by omega, ?_⟩
  unfold leaveSetAfter
  rw [← hk, Int.toNat_natCast, List.take_length]
  exact h

theorem Rolled.of_recsView (h : s.Rolled) (hu : u.recsView = s.recsView) :
    u.Rolled ∧ u.changes = s.changes := by
  have hchanges : u.changes = s.changes := by
    rw [changes_eq, changes_eq, hu]
  have hset : u.recs.leaveSetInt = s.recs.leaveSetInt :=
    congrArg (fun v : RecsView => v.roster.leaveSetInt) hu
  refine ⟨?_, hchanges⟩
  unfold Rolled
  rw [hset, hchanges]
  exact h

end

theorem emit_changes {e : Event} (he : e.change? = none) : (s.emit e).changes = s.changes := by
  unfold changes
  rw [emit_trace, List.filterMap_append, List.filterMap_cons_none he, List.filterMap_nil,
    List.append_nil]

theorem emit_reconfigured_changes (r : Recs) (k : ℤ) :
    (s.emit (.reconfigured r k)).changes = s.changes ++ [r] := by
  unfold changes
  rw [emit_trace, List.filterMap_append]
  rfl

theorem msgRecsHandler_roll (r : Recs) :
    (s.msgRecsHandler r).recs.leaveSetInt = s.recs.leaveSetInt ∧
      (s.msgRecsHandler r).changes = s.changes := by
  unfold msgRecsHandler
  split
  · simp only []
    split
    · exact ⟨rfl, rfl⟩
    split
    · refine ⟨rfl, ?_⟩
      change (emit _ _).changes = _
      rw [emit_changes _ rfl]
      exact emit_changes _ rfl
    · exact ⟨rfl, rfl⟩
  · exact ⟨rfl, rfl⟩

theorem reconfigure_roll (r : Recs) (k : ℤ) (p : PeerId) (h : s.Rolled) :
    (s.reconfigure r k p).Rolled ∧ ∃ rs, (s.reconfigure r k p).changes = s.changes ++ rs := by
  unfold reconfigure
  split
  next hmode =>
    have hchanges := (s.setLeaveSet (insert p s.recs.leaveSet)
      (insert r.nodeNumber s.recs.leaveSetInt)).emit_reconfigured_changes r k
    refine ⟨?_, [r], hchanges⟩
    unfold Rolled
    rw [hchanges, List.foldl_append]
    change insert r.nodeNumber s.recs.leaveSetInt = Recs.applyTo (s.changes.foldl _ _) r
    rw [← h]
    unfold Recs.applyTo
    rw [if_pos hmode]
  split
  next hmode hmode' =>
    have hchanges := (s.setLeaveSet (s.recs.leaveSet.erase p)
      (s.recs.leaveSetInt.erase r.nodeNumber)).emit_reconfigured_changes r k
    refine ⟨?_, [r], hchanges⟩
    unfold Rolled
    rw [hchanges, List.foldl_append]
    change s.recs.leaveSetInt.erase r.nodeNumber = Recs.applyTo (s.changes.foldl _ _) r
    rw [← h]
    unfold Recs.applyTo
    rw [if_neg hmode]
  next =>
    refine ⟨h, [], ?_⟩
    rw [List.append_nil]

theorem msgRecsAggEchoReady_roll (msg : MsgRecsAggEchoReady) (h : s.Rolled) :
    (s.msgRecsAggEchoReadyHandler msg).1.Rolled ∧
      ∃ rs, (s.msgRecsAggEchoReadyHandler msg).1.changes = s.changes ++ rs := by
  have hnone : ∀ u : Replica, u.recs.leaveSetInt = s.recs.leaveSetInt →
      u.changes = s.changes → u.Rolled ∧ ∃ rs, u.changes = s.changes ++ rs := by
    intro u hset hchanges
    refine ⟨?_, [], ?_⟩
    · unfold Rolled
      rw [hset, hchanges]
      exact h
    · rw [hchanges, List.append_nil]
  unfold msgRecsAggEchoReadyHandler
  split
  · exact hnone _ rfl (emit_changes _ rfl)
  split
  · unfold onEcho
    simp only []
    split
    · split
      · exact hnone _ rfl (emit_changes _ rfl)
      · refine hnone _ rfl ?_
        change (emit _ _).changes = _
        rw [emit_changes _ rfl]
        exact emit_changes _ rfl
    · exact hnone _ rfl rfl
  split
  · unfold onReady
    simp only []
    split
    · split
      · exact hnone _ rfl rfl
      · exact reconfigure_roll _ _ _ _ h
    · exact hnone _ rfl rfl
  · exact hnone _ rfl rfl

theorem exec_roll (C : Crypto) (op : Op) (h : s.Rolled) :
    (s.exec C op).1.Rolled ∧ ∃ rs, (s.exec C op).1.changes = s.changes ++ rs := by
  have hsame : ∀ u : Replica, u.Rolled ∧ u.changes = s.changes →
      u.Rolled ∧ ∃ rs, u.changes = s.changes ++ rs := by
    rintro u ⟨hu, hchanges⟩
    exact ⟨hu, [], by rw [hchanges, List.append_nil]⟩
  cases op with
  | msgRecsAggEchoReady msg => exact s.msgRecsAggEchoReady_roll msg h
  | msgRecs r =>
    obtain ⟨hset, hchanges⟩ := s.msgRecsHandler_roll r
    refine hsame _ ⟨?_, hchanges⟩
    change (s.msgRecsHandler r).Rolled
    unfold Rolled
    rw [hset, hchanges]
    exact h
  | _ => exact hsame _ (h.of_recsView (s.exec_recsView C rfl))

end Replica

namespace Replica
variable {s u : Replica}

theorem notices_of_log {es : List Event} (h : u.outbox.log = s.outbox.log ++ es) :
    u.notices = s.notices ++ es.filterMap Event.notice? := by
  rw [notices_eq, notices_eq, h, List.filterMap_append]

/-- What a call of the leader sends to the other clusters: a leave set only when it commits a
block and a reconfiguration has been counted since the last one was sent. -/
def Sends (C : Crypto) (s : Replica) (op : Op) (prop : Proposal) : Prop :=
  prop.currentPeerSet = ∅ ∨ s.commitCount < (s.step C op).commitCount ∧ s.Announces prop

theorem posts_sends {C : Crypto} {op : Op} (h : Posts s (s.step C op)) {prop : Proposal}
    (hp : prop ∈ (s.step C op).notices) : prop ∈ s.notices ∨ s.Sends C op prop := by
  obtain ⟨es, hes, hall⟩ := h.log
  rw [notices_of_log hes] at hp
  rcases List.mem_append.mp hp with hold | hnew
  · exact Or.inl hold
  · obtain ⟨e, he, hprop⟩ := List.mem_filterMap.mp hnew
    obtain ⟨dsts, rfl⟩ : ∃ dsts, e = .otherClusters prop dsts := by
      cases e with
      | otherClusters p dsts =>
        have heq : p = prop := Option.some.inj hprop
        exact ⟨dsts, by rw [heq]⟩
      | _ => cases hprop
    obtain ⟨ha, blk, hblk⟩ := hall prop dsts he
    refine Or.inr (Or.inr ⟨?_, ha⟩)
    have hpos : 0 < es.countP Event.isCommit := List.countP_pos_iff.mpr ⟨_, hblk, rfl⟩
    rw [commitCount_eq, commitCount_eq, hes, List.countP_append]
    omega

theorem exec_sends (C : Crypto) (s : Replica) (op : Op) {prop : Proposal}
    (hp : prop ∈ (s.step C op).notices) : prop ∈ s.notices ∨ s.Sends C op prop := by
  have hkeep : ∀ u : Replica, u.outbox.log = s.outbox.log → prop ∈ u.notices →
      prop ∈ s.notices ∨ s.Sends C op prop := by
    intro u hu hmem
    rw [notices_eq, hu, ← notices_eq] at hmem
    exact Or.inl hmem
  cases op with
  | receiveMcLocal p x =>
    refine hkeep _ ?_ hp
    change (s.receiveMcLocal p x).1.outbox.log = _
    rw [receiveMcLocal_outbox, syncReconfigCount_outbox]
  | relayMc p x =>
    change prop ∈ (s.relayMc p x).1.notices at hp
    by_cases hfin : s.didReceiveMc p.otherClusterBlockHeight = true
    · refine hkeep _ ?_ hp
      rw [relayMc_outbox, if_pos hfin]
    · have hlog : (s.relayMc p x).1.outbox.log =
          s.outbox.log ++ [.relay (s.propSameCluster p) s.recs.peersCurrent] := by
        rw [relayMc_outbox, if_neg hfin]
      rw [notices_of_log hlog] at hp
      rcases List.mem_append.mp hp with hold | hnew
      · exact Or.inl hold
      · exact absurd hnew List.not_mem_nil
  | remoteViewChangeTimeout cid =>
    exact hkeep _ (congrArg Outbox.log (s.remoteViewChangeTimeout_outbox C cid)) hp
  | receiveLComplain c =>
    exact hkeep _ (congrArg Outbox.log (s.onReceiveLComplain_outbox C c)) hp
  | receiveRComplain c junk =>
    rcases s.onReceiveRComplain_outbox c junk with hsame | ⟨p, dsts, hpost, hset⟩
    · exact hkeep _ (congrArg Outbox.log hsame) hp
    · change prop ∈ (s.onReceiveRComplain c junk).1.notices at hp
      rw [notices_of_log (congrArg Outbox.log hpost)] at hp
      rcases List.mem_append.mp hp with hold | hnew
      · exact Or.inl hold
      · have heq : prop = p := List.mem_singleton.mp hnew
        rw [heq]
        exact Or.inr (Or.inl hset)
  | msgRecs r => exact hkeep _ (congrArg Outbox.log (s.msgRecsHandler_outbox r)) hp
  | sendReconfigAck fin r => exact hkeep _ (congrArg Outbox.log (s.sendReconfigAck_outbox fin r)) hp
  | msgRecsAggEchoReady msg =>
    exact hkeep _ (congrArg Outbox.log (s.msgRecsAggEchoReadyHandler_outbox msg)) hp
  | _ => exact posts_sends (s.exec_posts C rfl) hp

theorem exec_relays (C : Crypto) (s : Replica) (op : Op) :
    (s.step C op).relays = s.relays ∨ ∃ prop x dsts, op = .relayMc prop x ∧
      (s.step C op).relays = s.relays ++ [(s.propSameCluster prop, dsts)] := by
  have hkeep : ∀ u : Replica, u.outbox.log = s.outbox.log → u.relays = s.relays := by
    intro u hu
    rw [relays_eq, relays_eq, hu]
  cases op with
  | receiveMcLocal p x =>
    refine Or.inl (hkeep _ ?_)
    change (s.receiveMcLocal p x).1.outbox.log = _
    rw [receiveMcLocal_outbox, syncReconfigCount_outbox]
  | relayMc p x =>
    by_cases hfin : s.didReceiveMc p.otherClusterBlockHeight = true
    · refine Or.inl (hkeep _ ?_)
      change (s.relayMc p x).1.outbox.log = _
      rw [relayMc_outbox, if_pos hfin]
    · refine Or.inr ⟨p, x, s.recs.peersCurrent, rfl, ?_⟩
      change (s.relayMc p x).1.relays = _
      rw [relays_eq, relays_eq, relayMc_outbox, if_neg hfin, List.filterMap_append]
      rfl
  | remoteViewChangeTimeout cid =>
    exact Or.inl (hkeep _ (congrArg Outbox.log (s.remoteViewChangeTimeout_outbox C cid)))
  | receiveLComplain c =>
    exact Or.inl (hkeep _ (congrArg Outbox.log (s.onReceiveLComplain_outbox C c)))
  | receiveRComplain c junk =>
    rcases s.onReceiveRComplain_outbox c junk with hsame | ⟨p, dsts, hpost, _⟩
    · exact Or.inl (hkeep _ (congrArg Outbox.log hsame))
    · refine Or.inl ?_
      change (s.onReceiveRComplain c junk).1.relays = _
      rw [relays_eq, relays_eq, hpost, List.filterMap_append]
      exact List.append_nil _
  | msgRecs r => exact Or.inl (hkeep _ (congrArg Outbox.log (s.msgRecsHandler_outbox r)))
  | sendReconfigAck fin r =>
    exact Or.inl (hkeep _ (congrArg Outbox.log (s.sendReconfigAck_outbox fin r)))
  | msgRecsAggEchoReady msg =>
    exact Or.inl (hkeep _ (congrArg Outbox.log (s.msgRecsAggEchoReadyHandler_outbox msg)))
  | _ =>
    refine Or.inl ?_
    rw [relays_eq_frame, relays_eq_frame]
    exact congrArg (fun f : Frame => f.log.filterMap Event.relay?) (s.exec_frame C rfl)

end Replica

/-- The leader of a cluster, what other replicas there have answered to remote complaints,
and the replicas of another cluster. -/
structure ClusterPair where
  leader : Replica
  resent : List Proposal
  remote : ReplicaID → Replica

namespace ClusterPair

inductive Input where
  | lead (op : Op)
  | resend (rid : ReplicaID) (blk : Hash) (height : ℕ) (junk : ℤ)
  | remote (i : ReplicaID) (op : Op)

def step (C : Crypto) (g : ClusterPair) : Input → ClusterPair
  | .lead op => { g with leader := g.leader.step C op }
  | .resend rid blk height junk =>
    { g with resent := g.resent ++
        [⟨rid, blk, g.leader.clusterId, g.leader.clusterId, height, 1, ∅, junk⟩] }
  | .remote i op => { g with remote := Function.update g.remote i ((g.remote i).step C op) }

def start (c : Setup) (d : ReplicaID → Setup) : ClusterPair := ⟨c.start, [], fun i => (d i).start⟩

/-- The messages of the leader's cluster that reach the other one are those that were sent. -/
def Genuine (own : ℕ) (g : ClusterPair) : Input → Prop
  | .remote _ (.relayMc prop _) => prop.clusterNumber = own → prop ∈ g.leader.notices ++ g.resent
  | .remote _ (.receiveMcLocal prop _) => prop.preAmpClusterNumber = own →
      ∃ j dsts, (prop, dsts) ∈ (g.remote j).relays
  | _ => True

/-- The leader commits no block between the counting of a reconfiguration and its change of
the leave set, and a message without leave set comes after the one that had it. -/
def Timely (C : Crypto) (own : ℕ) (g : ClusterPair) : Input → Prop
  | .lead op => g.leader.commitCount < (g.leader.step C op).commitCount →
      g.leader.checkLeader = true → g.leader.recs.reconfigSent < g.leader.recs.reconfigCount →
        (g.leader.changes.length : ℤ) = g.leader.recs.reconfigCount
  | .resend _ _ _ _ => True
  | .remote i op =>
    match (g.remote i).handsMc op with
    | none => True
    | some prop => prop.preAmpClusterNumber = own → prop.currentPeerSet = ∅ →
        (g.remote i).mc.clusteridToReconfigCount own = prop.reconfigCount ∨
          g.leader.AfterReconfig prop.reconfigCount ∅

instance (C : Crypto) (own : ℕ) (g : ClusterPair) (a : Input) : Decidable (Timely C own g a) :=
  match a with
  | .lead _ => inferInstanceAs (Decidable (_ < _ → _ = true → _ < _ → _ = _))
  | .resend _ _ _ _ => inferInstanceAs (Decidable True)
  | .remote i op =>
    match h : (g.remote i).handsMc op with
    | none => isTrue (by simp only [Timely, h])
    | some prop => decidable_of_iff (prop.preAmpClusterNumber = own → prop.currentPeerSet = ∅ →
        (g.remote i).mc.clusteridToReconfigCount own = prop.reconfigCount ∨
          g.leader.AfterReconfig prop.reconfigCount ∅) (by simp only [Timely, h])

def Truthful (g : ClusterPair) (prop : Proposal) : Prop :=
  prop.currentPeerSet = ∅ ∨ g.leader.AfterReconfig prop.reconfigCount prop.currentPeerSet

structure Inv (own : ℕ) (g : ClusterPair) : Prop where
  rolled : g.leader.Rolled
  notices : ∀ prop ∈ g.leader.notices, g.Truthful prop
  resent : ∀ prop ∈ g.resent, g.Truthful prop
  relays : ∀ i prop dsts, (prop, dsts) ∈ (g.remote i).relays → prop.preAmpClusterNumber = own →
    g.Truthful prop

section
variable {C : Crypto} {own : ℕ} {g : ClusterPair}

theorem Inv.start (c : Setup) (d : ReplicaID → Setup) : Inv own (start c d) := by
  refine ⟨rfl, ?_, ?_, ?_⟩
  · intro prop hp
    exact absurd hp List.not_mem_nil
  · intro prop hp
    exact absurd hp List.not_mem_nil
  · intro i prop dsts hp
    exact absurd hp List.not_mem_nil

theorem Inv.lead (I : Inv own g) {op : Op} (ht : Timely C own g (.lead op)) :
    Inv own (g.step C (.lead op)) := by
  obtain ⟨hrolled, rs, hrs⟩ := g.leader.exec_roll C op I.rolled
  have hgrow : ∀ prop, g.Truthful prop → (g.step C (.lead op)).Truthful prop :=
    fun prop h => h.imp_right fun ha => ha.grow hrs
  refine ⟨hrolled, ?_, ?_, ?_⟩
  · intro prop hp
    rcases g.leader.exec_sends C op hp with hold | hnone | ⟨hcommit, ha⟩
    · exact hgrow prop (I.notices prop hold)
    · exact Or.inl hnone
    · rcases ha with hnone | ⟨hlead, hlt, hcount, hset⟩
      · exact Or.inl hnone
      · refine hgrow prop (Or.inr ?_)
        rw [hcount, hset]
        exact I.rolled.after (ht hcommit hlead hlt)
  · intro prop hp
    exact hgrow prop (I.resent prop hp)
  · intro i prop dsts hp hown
    exact hgrow prop (I.relays i prop dsts hp hown)

theorem Inv.handed (I : Inv own g) {i : ReplicaID} {op : Op}
    (hg : Genuine own g (.remote i op)) {prop : Proposal}
    (hp : (g.remote i).handsMc op = some prop) (hown : prop.preAmpClusterNumber = own) :
    g.Truthful prop := by
  cases op with
  | receiveMcLocal p x =>
    cases hp
    obtain ⟨j, dsts, hmem⟩ := hg hown
    exact I.relays j prop dsts hmem hown
  | relayMc p x =>
    change (if (g.remote i).didReceiveMc p.otherClusterBlockHeight then none
      else some ((g.remote i).propSameCluster p)) = some prop at hp
    split at hp
    · cases hp
    · cases hp
      rcases List.mem_append.mp (hg hown) with hmem | hmem
      · exact I.notices p hmem
      · exact I.resent p hmem
  | _ => cases hp

theorem Inv.remote (I : Inv own g) {i : ReplicaID} {op : Op}
    (hg : Genuine own g (.remote i op)) : Inv own (g.step C (.remote i op)) := by
  refine ⟨I.rolled, I.notices, I.resent, ?_⟩
  intro j prop dsts hp hown
  change (prop, dsts) ∈ (Function.update g.remote i ((g.remote i).step C op) j).relays at hp
  by_cases hj : j = i
  · subst j
    rw [Function.update_self] at hp
    rcases (g.remote i).exec_relays C op with hsame | ⟨p, x, dsts', rfl, hnew⟩
    · rw [hsame] at hp
      exact I.relays i prop dsts hp hown
    · rw [hnew] at hp
      rcases List.mem_append.mp hp with hold | hlast
      · exact I.relays i prop dsts hold hown
      · have heq : prop = (g.remote i).propSameCluster p :=
          congrArg Prod.fst (List.mem_singleton.mp hlast)
        rw [heq] at hown ⊢
        rcases List.mem_append.mp (hg hown) with hmem | hmem
        · exact I.notices p hmem
        · exact I.resent p hmem
  · rw [Function.update_of_ne hj] at hp
    exact I.relays j prop dsts hp hown

theorem Inv.step (I : Inv own g) {a : Input} (hg : Genuine own g a) (ht : Timely C own g a) :
    Inv own (g.step C a) := by
  cases a with
  | lead op => exact I.lead ht
  | resend rid blk height junk =>
    refine ⟨I.rolled, I.notices, ?_, I.relays⟩
    intro prop hp
    rcases List.mem_append.mp hp with hold | hlast
    · exact I.resent prop hold
    · rw [List.mem_singleton.mp hlast]
      exact Or.inl rfl
  | remote i op => exact I.remote hg

end

/-- Whenever a replica of the other cluster records a new count for the leader's cluster, it
applies the leave set that this cluster had after so many reconfigurations. -/
theorem leave_set_of_count (C : Crypto) (c : Setup) (d : ReplicaID → Setup) {g : ClusterPair}
    (h : Runs.Reach (fun g a => Genuine c.clusterId g a ∧ Timely C c.clusterId g a) (step C)
      (start c d) g)
    {i : ReplicaID} {op : Op} (hg : Genuine c.clusterId g (.remote i op))
    (ht : Timely C c.clusterId g (.remote i op)) {k : ℤ}
    (hk : ((g.step C (.remote i op)).remote i).mc.clusteridToReconfigCount c.clusterId = k)
    (hnew : (g.remote i).mc.clusteridToReconfigCount c.clusterId ≠ k) :
    ∃ prop, (g.remote i).handsMc op = some prop ∧
      ((g.step C (.remote i op)).remote i).mc.otherPeersFPlusOne =
        ((g.remote i).updateOtherFPlusOne prop.currentPeerSet
          c.clusterId).mc.otherPeersFPlusOne ∧
      g.leader.AfterReconfig k prop.currentPeerSet := by
  have I : Inv c.clusterId g :=
    h.invariant (Inv c.clusterId) (Inv.start c d) fun g a I hok => I.step hok.1 hok.2
  have hself : (g.step C (.remote i op)).remote i = (g.remote i).step C op :=
    Function.update_self ..
  have hheard := (g.remote i).exec_heard C op
  rw [hself] at hk ⊢
  change ((g.remote i).exec C op).1.mc.clusteridToReconfigCount c.clusterId = k at hk
  rw [hheard] at hk
  cases hp : (g.remote i).handsMc op with
  | none =>
    rw [hp] at hk
    exact absurd hk hnew
  | some prop =>
    rw [hp] at hk
    simp only [] at hk
    by_cases hown : prop.preAmpClusterNumber = c.clusterId
    · rw [hown, Function.update_self] at hk
      rw [← hk] at hnew ⊢
      refine ⟨prop, rfl, ?_, ?_⟩
      · rw [← hown]
        exact (g.remote i).exec_applied C hp (by rw [hown]; exact hnew)
      · rcases I.handed hg hp hown with hnone | hafter
        · unfold Timely at ht
          simp only [hp] at ht
          rw [hnone]
          exact (ht hown hnone).resolve_left hnew
        · exact hafter
    · rw [Function.update_of_ne (Ne.symm hown)] at hk
      exact absurd hk hnew

/-- The first block is certified, and so are the next two on top of it. -/
def certifying : List Op :=
  [(0, 1), (1, 3), (3, 7)].flatMap fun b =>
    [.propose [] [] [] [b.1] [], .receiveVote ⟨1, b.2, ⟨b.2, b.2⟩⟩,
      .receiveVote ⟨2, b.2, ⟨b.2, b.2⟩⟩]

def committing : Op := .propose [] [] [] [7] []

def leaving : Recs := ⟨0, 1, 1⟩

def counting : List Op := List.replicate 3 (.msgRecs leaving)

def applying : List Op := List.replicate 3 (.msgRecsAggEchoReady ⟨leaving, myReady, 1⟩)

def four : Setup := { Setup.four 0 with peers := [1, 2, 3], allPeers := [0, 1, 2, 3] }

def abroad (i : ReplicaID) : Setup :=
  { Setup.four i with clusterId := 1, members := [(0, [0, 1, 2, 3])], allPeers := [0, 1, 2, 3] }

def runOf (ops : List Op) : ClusterPair :=
  Runs.run (step .sample) (start four abroad) (ops.map .lead)

def announcement (S : Finset ℤ) : Proposal := ⟨0, 1, 0, 0, 1, 1, S, 1⟩

def appliedFirst : ClusterPair := runOf (certifying ++ counting ++ applying ++ [committing])

theorem appliedFirst_reach : Runs.Reach
    (fun g a => Genuine four.clusterId g a ∧ Timely .sample four.clusterId g a) (step .sample)
      (start four abroad) appliedFirst := by
  refine Runs.reach_run _ .init (Runs.admitted_and _ ?_ (by decide +kernel))
  refine Runs.admitted_of_mem _ ?_
  intro a ha g
  obtain ⟨op, _, rfl⟩ := List.mem_map.mp ha
  trivial

/-- The block is committed after node 1 has left. -/
theorem leave_set_of_count_applied : ∃ prop,
    (appliedFirst.remote 1).handsMc (.relayMc (announcement {1}) 0) = some prop ∧
      ((appliedFirst.step .sample
          (.remote 1 (.relayMc (announcement {1}) 0))).remote 1).mc.otherPeersFPlusOne =
        ((appliedFirst.remote 1).updateOtherFPlusOne prop.currentPeerSet
          four.clusterId).mc.otherPeersFPlusOne ∧
      appliedFirst.leader.AfterReconfig 1 prop.currentPeerSet := by
  have hsent : announcement {1} ∈ appliedFirst.leader.notices ++ appliedFirst.resent := by
    decide +kernel
  have hgenuine : Genuine four.clusterId appliedFirst
      (.remote 1 (.relayMc (announcement {1}) 0)) := fun _ => hsent
  exact leave_set_of_count .sample four abroad appliedFirst_reach hgenuine
    (by decide +kernel) (by decide +kernel) (by decide +kernel)

def committedFirst : ClusterPair := runOf (certifying ++ counting ++ [committing] ++ applying)

/-- The block is committed while node 1 is leaving: its announcement has the new count and
the old leave set, which no later message corrects. -/
theorem count_without_leave_set : ¬ ∀ g : ClusterPair,
    Runs.Reach (Genuine four.clusterId) (step .sample) (start four abroad) g →
      ∀ i op k, Genuine four.clusterId g (.remote i op) →
        ((g.step .sample (.remote i op)).remote i).mc.clusteridToReconfigCount
          four.clusterId = k →
        (g.remote i).mc.clusteridToReconfigCount four.clusterId ≠ k →
        ∃ prop, (g.remote i).handsMc op = some prop ∧
          ((g.step .sample (.remote i op)).remote i).mc.otherPeersFPlusOne =
            ((g.remote i).updateOtherFPlusOne prop.currentPeerSet
              four.clusterId).mc.otherPeersFPlusOne ∧
          g.leader.AfterReconfig k prop.currentPeerSet := by
  intro h
  have hreach : Runs.Reach (Genuine four.clusterId) (step .sample) (start four abroad)
      committedFirst := by
    refine Runs.reach_run _ .init (Runs.admitted_of_mem _ ?_)
    intro a ha g
    obtain ⟨op, _, rfl⟩ := List.mem_map.mp ha
    trivial
  have hsent : announcement ∅ ∈ committedFirst.leader.notices ++ committedFirst.resent := by
    decide +kernel
  obtain ⟨prop, hprop, _, hafter⟩ := h committedFirst hreach 1 (.relayMc (announcement ∅) 0) 1
    (fun _ => hsent) (by decide +kernel) (by decide +kernel)
  have hset : prop.currentPeerSet = ∅ := by
    have hhands : (committedFirst.remote 1).handsMc (.relayMc (announcement ∅) 0) =
        some ((committedFirst.remote 1).propSameCluster (announcement ∅)) := rfl
    rw [hhands] at hprop
    cases hprop
    rfl
  rw [hset] at hafter
  exact absurd hafter (by decide +kernel)

end ClusterPair

end AvaHotstuff
