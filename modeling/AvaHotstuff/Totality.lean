import AvaHotstuff.Completion
import AvaHotstuff.Network
import AvaHotstuff.Node
import AvaHotstuff.Runs

set_option autoImplicit false

/-!
# Inter-cluster messages inside a cluster

A replica that gets a message of another cluster passes it on to its peers and counts
it; what is passed on is counted and goes no further. A contribution that one replica
has counted is counted by, or in flight to, every other one.
-/
namespace AvaHotstuff
open Network

def Event.relay? : Event → Option (Proposal × List PeerId)
  | .relay prop dsts => some (prop, dsts)
  | _ => none

def Replica.relays (s : Replica) : List (Proposal × List PeerId) := s.trace.filterMap Event.relay?

/-- A `MsgPropose` on the wire: the proposal with its block. -/
structure McMsg where
  prop : Proposal
  body : Body

def Node.relayed (self : PeerId) (before after : Node) (body : Body) :
    List (Packet PeerId McMsg) :=
  (after.core.relays.drop before.core.relays.length).flatMap fun r =>
    r.2.map fun dst => ⟨self, dst, r.1,
      ((after.core.storage.blkCache r.1.blk).map (·.body)).getD body⟩

/-- `propose_handler` in the network, with the arrays of new heights filled right. -/
def Node.handleMc (C : Crypto) : Handler PeerId Node McMsg := fun n p =>
  let n' := n.proposeHandler C p.src p.msg.prop p.msg.body 0
  (n', n.relayed p.dst n' p.msg.body)

abbrev McNet := Net PeerId Node McMsg

namespace McNet

inductive Input where
  | deliver (i : ℕ)
  | work (p : PeerId) (op : Op)

def step (C : Crypto) (net : McNet) : Input → McNet
  | .deliver i => net.deliver (Node.handleMc C) i
  | .work p op => net.setNode p ((net.node p).call C op)

def ok (_ : McNet) : Input → Prop
  | .deliver _ => True
  | .work _ op => op.onTree = true

/-- A member of the cluster: everyone is known to everyone, and nobody has left. -/
structure Local (members : Finset PeerId) (rid : PeerId → ReplicaID) (own n : ℕ) (p : PeerId)
    (s : Replica) : Prop where
  id : s.id = rid p
  clusterId : s.clusterId = own
  nClusters : s.mc.nClusters = n
  knows : ∀ q ∈ members, s.config.getPeerId (rid q) = some q
  peers : ∀ q, q ∈ s.recs.peersCurrent ↔ q ∈ members ∧ q ≠ p

def Foreign (members : Finset PeerId) (own n : ℕ) (m : Packet PeerId McMsg) : Prop :=
  m.dst ∈ members ∧ m.msg.prop.msgType = 1 ∧ m.msg.prop.clusterNumber ≠ own ∧
    m.msg.prop.clusterNumber < n

structure Relayed (members : Finset PeerId) (rid : PeerId → ReplicaID) (own n : ℕ)
    (m : Packet PeerId McMsg) : Prop where
  src : m.src ∈ members
  dst : m.dst ∈ members
  type : m.msg.prop.msgType = 2
  proposer : m.msg.prop.proposer = rid m.src
  clusterNumber : m.msg.prop.clusterNumber = own
  preAmp : m.msg.prop.preAmpClusterNumber < n

end McNet

namespace Replica
variable (s : Replica)

theorem relays_eq_frame : s.relays = s.frame.log.filterMap Event.relay? := by
  unfold relays
  change s.trace.filterMap Event.relay? = (s.trace.filter Event.onFrame).filterMap Event.relay?
  rw [List.filterMap_filter]
  congr 1
  funext e
  cases e <;> rfl

theorem receiveMcLocal_frame (prop : Proposal) (x : ℤ) (m : McState) :
    { (s.receiveMcLocal prop x).1.frame with mc := m } = { s.frame with mc := m } := by
  have hsync : { (s.syncReconfigCount prop).frame with mc := m } = { s.frame with mc := m } := by
    unfold syncReconfigCount
    split <;> rfl
  unfold receiveMcLocal
  simp only []
  rw [← hsync]
  generalize s.syncReconfigCount prop = u
  split
  · rfl
  unfold countMc
  split
  · rfl
  split
  · rfl
  split
  · change { (u.finishMc prop.otherClusterBlockHeight).frame with mc := m } =
      { u.frame with mc := m }
    unfold finishMc
    rw [decideAfterMc_frame]
    rfl
  · rfl

theorem relayMc_frame (prop : Proposal) (x : ℤ) (m : McState) :
    { (s.relayMc prop x).1.frame with mc := m } =
      if s.didReceiveMc prop.otherClusterBlockHeight then { s.frame with mc := m }
      else { s.frame with
        mc := m
        log := s.frame.log ++ [.relay (s.propSameCluster prop) s.recs.peersCurrent] } := by
  unfold relayMc
  split
  · rfl
  · rw [receiveMcLocal_frame, emit_frame_log _ rfl]

end Replica

namespace Node
variable {C : Crypto} {n : Node} {peer : PeerId} {prop : Proposal} {body : Body}

def parsed (C : Crypto) (n : Node) (body : Body) : Replica :=
  n.core.addBlk (C.getHash body) (Block.parsed body)

theorem parsed_frame : (n.parsed C body).frame = n.core.frame :=
  n.core.addBlk_frame _ _ rfl rfl

theorem proposeHandler_foreign (htype : prop.msgType = 1)
    (hcluster : prop.clusterNumber ≠ n.core.clusterId) :
    (n.proposeHandler C peer prop body 0).core =
      ((n.parsed C body).relayMc { prop with blk := C.getHash body } 0).1 := by
  have hself : (n.call C (.addBlk body)).core = n.parsed C body := call_core ..
  have hcid : (n.call C (.addBlk body)).core.clusterId ≠ prop.clusterNumber := by
    rw [hself]
    exact hcluster.symm
  unfold proposeHandler dispatch
  rw [if_neg (by omega)]
  simp only []
  rw [if_neg hcid, if_pos htype, call_core, hself]
  rfl

theorem proposeHandler_relayed (htype : prop.msgType = 2)
    (hcluster : prop.clusterNumber = n.core.clusterId)
    (hpeer : n.core.config.getPeerId prop.proposer = some peer) :
    (n.proposeHandler C peer prop body 0).core =
      ((n.parsed C body).receiveMcLocal { prop with blk := C.getHash body } 0).1 := by
  have hself : (n.call C (.addBlk body)).core = n.parsed C body := call_core ..
  have hcid : (n.call C (.addBlk body)).core.clusterId = prop.clusterNumber := by
    rw [hself]
    exact hcluster.symm
  have hknown : (n.call C (.addBlk body)).core.config.getPeerId prop.proposer = some peer := by
    rw [hself]
    exact hpeer
  unfold proposeHandler dispatch
  rw [if_neg (by omega)]
  simp only []
  rw [if_pos hcid, hknown]
  simp only [ne_eq, not_true_eq_false, false_and, if_false]
  rw [if_neg (by omega), if_pos htype, call_core, hself]
  rfl

end Node

namespace McNet
variable {C : Crypto} {members : Finset PeerId} {rid : PeerId → ReplicaID} {own n : ℕ}
  {p : PeerId} {heard : Heard} {m : Packet PeerId McMsg}

theorem Local.keep {s u : Replica} (L : Local members rid own n p s) (x : McState) (es : List Event)
    (hn : u.mc.nClusters = s.mc.nClusters)
    (h : { u.frame with mc := x } = { s.frame with mc := x, log := es }) :
    Local members rid own n p u := by
  have hconfig : u.config = s.config := congrArg Frame.config h
  have hpeers : u.recs.peersCurrent = s.recs.peersCurrent :=
    congrArg (fun f => f.recs.peersCurrent) h
  refine ⟨?_, ?_, hn.trans L.nClusters, ?_, ?_⟩
  · exact (congrArg Frame.id h : u.id = s.id).trans L.id
  · exact (congrArg Frame.clusterId h : u.clusterId = s.clusterId).trans L.clusterId
  · rw [hconfig]
    exact L.knows
  · rw [hpeers]
    exact L.peers

theorem Local.of_frame {s u : Replica} (L : Local members rid own n p s)
    (h : u.frame = s.frame) : Local members rid own n p u := by
  refine L.keep s.mc s.frame.log (congrArg (fun f => f.mc.nClusters) h) ?_
  rw [h]

theorem handle_relayed {node : Node} (hm : Relayed members rid own n m)
    (L : Local members rid own n m.dst node.core) (t : Tracked node.core.mcView heard) :
    Local members rid own n m.dst (node.handleMc C m).1.core ∧
      Tracked (node.handleMc C m).1.core.mcView (heard.hear m.msg.prop) ∧
      (node.handleMc C m).2 = [] := by
  have hcore : (node.handleMc C m).1.core = _ := Node.proposeHandler_relayed (C := C) hm.type
    (hm.clusterNumber.trans L.clusterId.symm)
    (by rw [hm.proposer]; exact L.knows m.src hm.src)
  have hparsed : (node.parsed C m.msg.body).frame = node.core.frame := Node.parsed_frame
  have hframe := (node.parsed C m.msg.body).receiveMcLocal_frame
    { m.msg.prop with blk := C.getHash m.msg.body } 0 node.core.mc
  rw [hparsed] at hframe
  rw [← Replica.mcView_congr hparsed] at t
  have hnum := ((node.parsed C m.msg.body).receiveMcLocal_mcView
    { m.msg.prop with blk := C.getHash m.msg.body } 0).2.1
  refine ⟨?_, ?_, ?_⟩
  · rw [hcore]
    exact L.keep node.core.mc node.core.frame.log hnum hframe
  · rw [hcore]
    exact (@Tracked.receiveMcLocal _ _ { m.msg.prop with blk := C.getHash m.msg.body } 0 t
      (hm.preAmp.trans_eq L.nClusters.symm) fun _ => rfl).2
  · have hlog : (node.handleMc C m).1.core.relays = node.core.relays := by
      rw [hcore, Replica.relays_eq_frame, Replica.relays_eq_frame]
      exact congrArg (fun f => f.log.filterMap Event.relay?) hframe
    change node.relayed m.dst (node.handleMc C m).1 m.msg.body = []
    unfold Node.relayed
    rw [hlog, List.drop_length]
    rfl

theorem relayMc_spec {s : Replica} {prop : Proposal} (L : Local members rid own n p s)
    (t : Tracked s.mcView heard) (hc : prop.clusterNumber < n)
    (hfin : s.didReceiveMc prop.otherClusterBlockHeight = false) :
    Local members rid own n p (s.relayMc prop 0).1 ∧
      Tracked (s.relayMc prop 0).1.mcView (heard.hear (s.propSameCluster prop)) ∧
      (s.relayMc prop 0).1.relays =
        s.relays ++ [(s.propSameCluster prop, s.recs.peersCurrent)] := by
  have hframe := s.relayMc_frame prop 0 s.mc
  rw [if_neg (by simp [hfin])] at hframe
  have hrelay : s.relayMc prop 0 = (s.emit (.relay (s.propSameCluster prop)
      s.recs.peersCurrent)).receiveMcLocal (s.propSameCluster prop) 0 := by
    unfold Replica.relayMc
    rw [if_neg (by simp [hfin])]
  have hsame : (s.emit (.relay (s.propSameCluster prop) s.recs.peersCurrent)).mcView = s.mcView :=
    rfl
  refine ⟨?_, ?_, ?_⟩
  · refine L.keep s.mc _ ?_ hframe
    rw [hrelay]
    exact (Replica.receiveMcLocal_mcView _ _ _).2.1
  · rw [hrelay]
    rw [← hsame] at t
    exact (t.receiveMcLocal (hc.trans_eq L.nClusters.symm) fun _ => rfl).2
  · rw [Replica.relays_eq_frame, Replica.relays_eq_frame]
    have hlog : (s.relayMc prop 0).1.frame.log = s.frame.log ++ _ := congrArg Frame.log hframe
    rw [hlog, List.filterMap_append]
    rfl

/-- A member handles a message of another cluster: unless the height is finished, it counts
the message and passes it on to everyone else. -/
theorem handle_foreign {node : Node} (hm : Foreign members own n m)
    (L : Local members rid own n m.dst node.core) (t : Tracked node.core.mcView heard) :
    Local members rid own n m.dst (node.handleMc C m).1.core ∧
      (Tracked (node.handleMc C m).1.core.mcView heard ∧ (node.handleMc C m).2 = [] ∨
        ∃ prop : Proposal, prop.msgType = 2 ∧ prop.proposer = rid m.dst ∧
          prop.clusterNumber = own ∧ prop.preAmpClusterNumber < n ∧
          Tracked (node.handleMc C m).1.core.mcView (heard.hear prop) ∧
          (∀ q ∈ (node.handleMc C m).2, q.src = m.dst ∧ q.dst ∈ members ∧ q.msg.prop = prop) ∧
          ∀ q ∈ members, q ≠ m.dst → ∃ x ∈ (node.handleMc C m).2, x.dst = q) := by
  obtain ⟨hdst, htype, hcluster, hlt⟩ := hm
  have hcore : (node.handleMc C m).1.core = _ := Node.proposeHandler_foreign (C := C) htype
    (by rw [L.clusterId]; exact hcluster)
  have hparsed : (node.parsed C m.msg.body).frame = node.core.frame := Node.parsed_frame
  have L' := L.of_frame hparsed
  rw [← Replica.mcView_congr hparsed] at t
  have hrelays : (node.parsed C m.msg.body).relays = node.core.relays := by
    rw [Replica.relays_eq_frame, Replica.relays_eq_frame, hparsed]
  have hsent : (node.handleMc C m).2 = node.relayed m.dst (node.handleMc C m).1 m.msg.body := rfl
  unfold Node.relayed at hsent
  generalize node.parsed C m.msg.body = s at hcore hparsed L' t hrelays
  have hnum : ({ m.msg.prop with blk := C.getHash m.msg.body } : Proposal).clusterNumber < n := hlt
  generalize ({ m.msg.prop with blk := C.getHash m.msg.body } : Proposal) = prop at hcore hnum
  cases hfin : s.didReceiveMc prop.otherClusterBlockHeight with
  | true =>
    have hsame : s.relayMc prop 0 = (s, none) := by
      unfold Replica.relayMc
      rw [if_pos hfin]
    rw [hsame] at hcore
    rw [hsent, hcore, hrelays, List.drop_length]
    exact ⟨L', .inl ⟨t, rfl⟩⟩
  | false =>
    obtain ⟨hL, ht, hnew⟩ := relayMc_spec L' t hnum hfin
    rw [← hcore] at hL ht hnew
    rw [hnew, hrelays, List.drop_left] at hsent
    rw [hsent]
    refine ⟨hL, .inr ⟨s.propSameCluster prop, rfl, L'.id, L'.clusterId, hnum, ht, ?_, ?_⟩⟩
    · intro q hq
      rw [List.flatMap_singleton] at hq
      obtain ⟨d, hd, rfl⟩ := List.mem_map.mp hq
      exact ⟨rfl, ((L'.peers d).mp hd).1, rfl⟩
    · intro q hq hne
      rw [List.flatMap_singleton]
      exact ⟨_, List.mem_map_of_mem ((L'.peers q).mpr ⟨hq, hne⟩), rfl⟩

def Carries (m : Packet PeerId McMsg) (k c : ℕ) : Prop :=
  m.msg.prop.msgType = 2 ∧ m.msg.prop.otherClusterBlockHeight = k ∧
    m.msg.prop.preAmpClusterNumber = c

/-- What one member has heard, or is being told, everyone has heard or is being told. -/
structure Spread (members : Finset PeerId) (rid : PeerId → ReplicaID) (own n : ℕ) (net : McNet)
    (heard : PeerId → Heard) : Prop where
  locals : ∀ p ∈ members, Local members rid own n p (net.node p).core
  tracked : ∀ p ∈ members, Tracked (net.node p).core.mcView (heard p)
  packets : ∀ m ∈ net.flight, Foreign members own n m ∨ Relayed members rid own n m
  spread : ∀ k c, ((∃ p ∈ members, c ∈ heard p k) ∨ ∃ m ∈ net.flight, Carries m k c) →
    ∀ q ∈ members, c ∈ heard q k ∨ ∃ m ∈ net.flight, m.dst = q ∧ Carries m k c

section
variable {net : McNet} {heard : PeerId → Heard} {i : ℕ} {m : Packet PeerId McMsg}

theorem Spread.setNode (S : Spread members rid own n net heard) {p : PeerId} {node : Node}
    {h : Heard} (L : p ∈ members → Local members rid own n p node.core)
    (t : p ∈ members → Tracked node.core.mcView h) :
    (∀ q ∈ members, Local members rid own n q ((net.setNode p node).node q).core) ∧
      ∀ q ∈ members, Tracked ((net.setNode p node).node q).core.mcView
        (Function.update heard p h q) := by
  constructor
  · intro q hq
    by_cases hqp : q = p
    · subst q
      rw [Net.setNode_self]
      exact L hq
    · rw [Net.setNode_of_ne _ hqp]
      exact S.locals q hq
  · intro q hq
    by_cases hqp : q = p
    · subst q
      rw [Net.setNode_self, Function.update_self]
      exact t hq
    · rw [Net.setNode_of_ne _ hqp, Function.update_of_ne hqp]
      exact S.tracked q hq

theorem mem_hear_update {heard : PeerId → Heard} {p q : PeerId} {prop : Proposal} {k c : ℕ} :
    c ∈ Function.update heard p ((heard p).hear prop) q k ↔ c ∈ heard q k ∨
      q = p ∧ k = prop.otherClusterBlockHeight ∧ c = prop.preAmpClusterNumber := by
  by_cases hqp : q = p
  · subst q
    rw [Function.update_self, Heard.mem_hear]
    tauto
  · rw [Function.update_of_ne hqp]
    tauto

theorem Spread.deliver_relayed (S : Spread members rid own n net heard)
    (hm : net.flight[i]? = some m) (hr : Relayed members rid own n m) :
    Spread members rid own n (net.deliver (Node.handleMc C) i)
      (Function.update heard m.dst ((heard m.dst).hear m.msg.prop)) := by
  have hmem : m ∈ net.flight := List.mem_of_getElem? hm
  obtain ⟨hL, ht, hnone⟩ := handle_relayed (C := C) hr (S.locals _ hr.dst) (S.tracked _ hr.dst)
  obtain ⟨locals, tracked⟩ := S.setNode (fun _ => hL) fun _ => ht
  rw [Net.deliver_of hm, hnone, List.append_nil]
  refine ⟨locals, tracked, ?_, ?_⟩
  · intro x hx
    exact S.packets x (List.mem_of_mem_eraseIdx hx)
  · intro k c hknown q hq
    -- the delivered message was in flight, so it was known before
    have hbefore : (∃ p ∈ members, c ∈ heard p k) ∨ ∃ x ∈ net.flight, Carries x k c := by
      rcases hknown with ⟨p, hp, hc⟩ | ⟨x, hx, hc⟩
      · rcases mem_hear_update.mp hc with hc | ⟨-, hk, hc⟩
        · exact .inl ⟨p, hp, hc⟩
        · exact .inr ⟨m, hmem, hr.type, hk.symm, hc.symm⟩
      · exact .inr ⟨x, List.mem_of_mem_eraseIdx hx, hc⟩
    rcases S.spread k c hbefore q hq with hc | ⟨x, hx, hdst, hc⟩
    · exact .inl (mem_hear_update.mpr (.inl hc))
    · rcases mem_eraseIdx hm hx with rfl | hx
      · exact .inl (mem_hear_update.mpr (.inr ⟨hdst.symm, hc.2.1.symm, hc.2.2.symm⟩))
      · exact .inr ⟨x, hx, hdst, hc⟩

theorem Spread.deliver_foreign (S : Spread members rid own n net heard)
    (hm : net.flight[i]? = some m) (hf : Foreign members own n m) :
    ∃ heard', Spread members rid own n (net.deliver (Node.handleMc C) i) heard' := by
  have hdst : m.dst ∈ members := hf.1
  -- a message of another cluster carries nothing yet
  have hstay : ∀ k c q, (∃ x ∈ net.flight, x.dst = q ∧ Carries x k c) →
      ∃ x ∈ net.flight.eraseIdx i, x.dst = q ∧ Carries x k c := by
    rintro k c q ⟨x, hx, hxq, hc⟩
    rcases mem_eraseIdx hm hx with rfl | hx
    · have h1 := hf.2.1
      have h2 := hc.1
      omega
    · exact ⟨x, hx, hxq, hc⟩
  obtain ⟨hL, ⟨ht, hnone⟩ | ⟨prop, htype, hid, hown, hlt, ht, hnew, hall⟩⟩ :=
    handle_foreign (C := C) hf (S.locals _ hdst) (S.tracked _ hdst)
  · obtain ⟨locals, tracked⟩ := S.setNode (fun _ => hL) fun _ => ht
    rw [Function.update_eq_self] at tracked
    refine ⟨heard, ?_⟩
    rw [Net.deliver_of hm, hnone, List.append_nil]
    refine ⟨locals, tracked, ?_, ?_⟩
    · intro x hx
      exact S.packets x (List.mem_of_mem_eraseIdx hx)
    · intro k c hknown q hq
      have hbefore : (∃ p ∈ members, c ∈ heard p k) ∨ ∃ x ∈ net.flight, Carries x k c :=
        hknown.imp_right fun ⟨x, hx, hc⟩ => ⟨x, List.mem_of_mem_eraseIdx hx, hc⟩
      exact (S.spread k c hbefore q hq).imp_right (hstay k c q)
  · obtain ⟨locals, tracked⟩ := S.setNode (fun _ => hL) fun _ => ht
    refine ⟨Function.update heard m.dst ((heard m.dst).hear prop), ?_⟩
    rw [Net.deliver_of hm]
    refine ⟨locals, tracked, ?_, ?_⟩
    · intro x hx
      rcases List.mem_append.mp hx with hx | hx
      · exact S.packets x (List.mem_of_mem_eraseIdx hx)
      · obtain ⟨hsrc, hxdst, hprop⟩ := hnew x hx
        refine .inr ⟨hsrc ▸ hdst, hxdst, ?_, ?_, ?_, ?_⟩
        · rw [hprop]
          exact htype
        · rw [hprop, hsrc]
          exact hid
        · rw [hprop]
          exact hown
        · rw [hprop]
          exact hlt
    · intro k c hknown q hq
      by_cases hself : k = prop.otherClusterBlockHeight ∧ c = prop.preAmpClusterNumber
      · by_cases hqm : q = m.dst
        · exact .inl (mem_hear_update.mpr (.inr ⟨hqm, hself⟩))
        · obtain ⟨x, hx, hxq⟩ := hall q hq hqm
          obtain ⟨-, -, hprop⟩ := hnew x hx
          refine .inr ⟨x, List.mem_append_right _ hx, hxq, ?_, ?_, ?_⟩
          · rw [hprop]
            exact htype
          · rw [hprop]
            exact hself.1.symm
          · rw [hprop]
            exact hself.2.symm
      · have hbefore : (∃ p ∈ members, c ∈ heard p k) ∨ ∃ x ∈ net.flight, Carries x k c := by
          rcases hknown with ⟨p, hp, hc⟩ | ⟨x, hx, hc⟩
          · exact .inl ⟨p, hp, (mem_hear_update.mp hc).resolve_right fun h => hself h.2⟩
          · rcases List.mem_append.mp hx with hx | hx
            · exact .inr ⟨x, List.mem_of_mem_eraseIdx hx, hc⟩
            · obtain ⟨-, -, hprop⟩ := hnew x hx
              unfold Carries at hc
              rw [hprop] at hc
              exact absurd ⟨hc.2.1.symm, hc.2.2.symm⟩ hself
        rcases S.spread k c hbefore q hq with hc | hx
        · exact .inl (mem_hear_update.mpr (.inl hc))
        · obtain ⟨x, hx, hxq, hc⟩ := hstay k c q hx
          exact .inr ⟨x, List.mem_append_left _ hx, hxq, hc⟩

theorem Spread.step (S : Spread members rid own n net heard) {inp : Input} (hok : ok net inp) :
    ∃ heard', Spread members rid own n (step C net inp) heard' := by
  cases inp with
  | deliver i =>
    change ∃ heard', Spread members rid own n (net.deliver (Node.handleMc C) i) heard'
    cases hm : net.flight[i]? with
    | none =>
      refine ⟨heard, ?_⟩
      unfold Net.deliver
      rw [hm]
      exact S
    | some m =>
      cases S.packets m (List.mem_of_getElem? hm) with
      | inl hf => exact S.deliver_foreign hm hf
      | inr hr => exact ⟨_, S.deliver_relayed hm hr⟩
  | work p op =>
    have hframe : ((net.node p).call C op).core.frame = (net.node p).core.frame := by
      rw [Node.call_core]
      exact (net.node p).core.exec_frame C hok
    obtain ⟨locals, tracked⟩ := S.setNode (fun hp => (S.locals p hp).of_frame hframe)
      fun hp => (Replica.mcView_congr hframe).symm ▸ S.tracked p hp
    rw [Function.update_eq_self] at tracked
    exact ⟨heard, locals, tracked, S.packets, S.spread⟩

end

/-- The cluster before any message: fresh arrays, and only messages of other clusters. -/
structure Initial (members : Finset PeerId) (rid : PeerId → ReplicaID) (own n : ℕ)
    (net : McNet) : Prop where
  mine : own < n
  locals : ∀ p ∈ members, Local members rid own n p (net.node p).core
  finished : ∀ p ∈ members, (net.node p).core.mc.finishedMcCids = ∅
  trackers : ∀ p ∈ members, ∀ k, (net.node p).core.mc.cidToClusterTrackerArray k = none
  foreign : ∀ m ∈ net.flight, Foreign members own n m

theorem Initial.spread {net : McNet} (h : Initial members rid own n net) (hn : 2 ≤ n) :
    Spread members rid own n net fun _ _ => ∅ := by
  refine ⟨h.locals, ?_, fun m hm => .inl (h.foreign m hm), ?_⟩
  · intro p hp
    have L := h.locals p hp
    refine Tracked.start _ ?_ ?_ (h.finished p hp) (h.trackers p hp)
    · exact hn.trans_eq L.nClusters.symm
    · exact (L.clusterId.trans_lt h.mine).trans_eq L.nClusters.symm
  · rintro k c (⟨p, _, hc⟩ | ⟨m, hm, hc⟩) q _
    · exact absurd hc (Finset.notMem_empty c)
    · have h1 := (h.foreign m hm).2.1
      have h2 := hc.1
      omega

theorem Initial.alone {init net : McNet} (h : Initial members rid own n init) (hn : ¬2 ≤ n)
    (hr : Runs.Reach ok (McNet.step C) init net) :
    net.flight = [] ∧ ∀ p ∈ members, (net.node p).core.mc.finishedMcCids = ∅ := by
  refine hr.invariant (fun net => net.flight = [] ∧
    ∀ p ∈ members, (net.node p).core.mc.finishedMcCids = ∅) ⟨?_, h.finished⟩ ?_
  · apply List.eq_nil_iff_forall_not_mem.mpr
    intro m hm
    obtain ⟨-, -, hne, hlt⟩ := h.foreign m hm
    have := h.mine
    omega
  · intro net inp hnet hok
    cases inp with
    | deliver i =>
      change (net.deliver (Node.handleMc C) i).flight = [] ∧ _
      have hstuck : net.deliver (Node.handleMc C) i = net := by
        unfold Net.deliver
        rw [hnet.1]
        rfl
      change _ ∧ ∀ p ∈ members,
        ((net.deliver (Node.handleMc C) i).node p).core.mc.finishedMcCids = ∅
      rw [hstuck]
      exact hnet
    | work p op =>
      refine ⟨hnet.1, ?_⟩
      intro q hq
      change ((net.setNode p ((net.node p).call C op)).node q).core.mc.finishedMcCids = ∅
      by_cases hqp : q = p
      · subst q
        have hframe : ((net.node p).call C op).core.frame = (net.node p).core.frame := by
          rw [Node.call_core]
          exact (net.node p).core.exec_frame C hok
        rw [Net.setNode_self]
        exact (congrArg McView.finished (Replica.mcView_congr hframe)).trans (hnet.2 p hq)
      · rw [Net.setNode_of_ne _ hqp]
        exact hnet.2 q hq

/-- Once no inter-cluster message is in flight, all replicas of the cluster have finished
the same heights. -/
theorem completion_totality (C : Crypto) {init net : McNet}
    (h : Initial members rid own n init) (hr : Runs.Reach ok (McNet.step C) init net)
    (hquiet : net.flight = []) :
    ∀ p ∈ members, ∀ q ∈ members,
      (net.node p).core.mc.finishedMcCids = (net.node q).core.mc.finishedMcCids := by
  by_cases hn : 2 ≤ n
  · obtain ⟨heard, S⟩ := hr.invariant (fun net => ∃ heard, Spread members rid own n net heard)
      ⟨_, h.spread hn⟩ fun _ _ ⟨_, S⟩ hok => S.step hok
    have hsub : ∀ p ∈ members, ∀ q ∈ members,
        (net.node p).core.mc.finishedMcCids ⊆ (net.node q).core.mc.finishedMcCids := by
      intro p hp q hq k hk
      have hcomp := ((S.tracked p hp).finished k).mp hk
      refine ((S.tracked q hq).finished k).mpr ?_
      intro c hc hne
      have hpn : c < (net.node p).core.mc.nClusters :=
        hc.trans_eq ((S.locals q hq).nClusters.trans (S.locals p hp).nClusters.symm)
      have hpo : c ≠ (net.node p).core.clusterId := by
        rw [(S.locals p hp).clusterId, ← (S.locals q hq).clusterId]
        exact hne
      have hpc := hcomp c hpn hpo
      rcases S.spread k c (.inl ⟨p, hp, hpc⟩) q hq with hqc | ⟨m, hm, _⟩
      · exact hqc
      · rw [hquiet] at hm
        exact absurd hm List.not_mem_nil
    intro p hp q hq
    exact Finset.Subset.antisymm (hsub p hp q hq) (hsub q hq p hp)
  · intro p hp q hq
    have hnone := (h.alone hn hr).2
    rw [hnone p hp, hnone q hq]

def sample : McNet where
  node p := Node.start { Setup.four p with peers := [0, 1, 2, 3].filter fun q => decide (q ≠ p) }
  flight := [⟨9, 0, ⟨4, 0, 1, 1, 7, 1, ∅, 0⟩, .sample 0 0 5 []⟩]

theorem sample_initial : Initial {0, 1, 2, 3} (fun p => p) 0 2 sample := by
  refine ⟨by decide, ?_, fun _ _ => rfl, fun _ _ _ => rfl, ?_⟩
  · intro p _
    refine ⟨rfl, rfl, rfl, ?_, ?_⟩
    · change ∀ q ∈ ({0, 1, 2, 3} : Finset PeerId), (Setup.four 0).config.getPeerId q = some q
      decide
    · intro q
      change q ∈ [0, 1, 2, 3].filter (fun q => decide (q ≠ p)) ↔ _
      simp
  · intro m hm
    rw [List.mem_singleton.mp hm]
    exact ⟨by decide, rfl, by decide, by decide⟩

/-- The message reaches replica 0, which passes it on to the three others. -/
def sampleRun : List Input := List.replicate 4 (.deliver 0)

theorem completion_totality_four :
    ((Runs.run (step .sample) sample sampleRun).node 0).core.mc.finishedMcCids =
      ((Runs.run (step .sample) sample sampleRun).node 3).core.mc.finishedMcCids := by
  have hreach : Runs.Reach ok (step .sample) sample (Runs.run (step .sample) sample sampleRun) := by
    refine Runs.reach_run sampleRun .init ?_
    apply Runs.admitted_of_mem
    intro inp hinp s
    rw [List.eq_of_mem_replicate hinp]
    trivial
  have hquiet : (Runs.run (step .sample) sample sampleRun).flight = [] :=
    List.eq_nil_of_length_eq_zero (by decide +kernel)
  exact completion_totality .sample sample_initial hreach hquiet 0 (by decide) 3 (by decide)

end McNet

end AvaHotstuff
