import AvaHotstuff.Broadcast
import AvaHotstuff.EchoReady
import AvaHotstuff.Members
import AvaHotstuff.Network

set_option autoImplicit false

namespace AvaHotstuff
open Network

def Event.recsPackets (self : PeerId) : Event → List (Packet PeerId MsgRecsAggEchoReady)
  | .recsSent r type count dsts => dsts.map fun dst => ⟨self, dst, r, type, count⟩
  | _ => []

def Replica.recsPackets (self : PeerId) (before after : Replica) :
    List (Packet PeerId MsgRecsAggEchoReady) :=
  (after.recsView.log.drop before.recsView.log.length).flatMap (Event.recsPackets self)

def Replica.handleRecs : Handler PeerId Replica MsgRecsAggEchoReady := fun s m =>
  let s' := (s.msgRecsAggEchoReadyHandler m.msg).1
  (s', s.recsPackets m.dst s')

/-- The replica's own READY message, which it counts without a test, is not the one that makes
up its quorum. -/
def Replica.ReadyInTime (s : Replica) (msg : MsgRecsAggEchoReady) : Prop :=
  msg.type = myEcho → s.recs.reconfigEchoCounter msg.reconfigCount + 1 = s.getRecsMajority →
    (s.readyTarget msg.recs).isOk = true →
    s.recs.reconfigReadyCounter msg.reconfigCount + 1 ≠ s.getRecsMajority

def Replica.Unrelated (s : Replica) : Op → Prop
  | .msgRecsAggEchoReady _ => False
  | .msgRecs r => ¬ (s.id = s.pmaker.proposer ∧ s.recs.pendingRecs r + 1 = s.getRecsMajority)
  | _ => True

abbrev ReconfigNet := Net PeerId Replica MsgRecsAggEchoReady

namespace ReconfigNet

inductive Input where
  | deliver (i : ℕ)
  | work (p : PeerId) (op : Op)

def step (C : Crypto) (net : ReconfigNet) : Input → ReconfigNet
  | .deliver i => net.deliver Replica.handleRecs i
  | .work p op => net.setNode p ((net.node p).step C op)

/-- A connection delivers its oldest message; apart from the reconfiguration the replicas do
anything. -/
def Fifo (net : ReconfigNet) : Input → Prop
  | .deliver i => ∀ m ∈ net.flight[i]?, ∀ x ∈ net.flight.take i,
      ¬ (x.src = m.src ∧ x.dst = m.dst)
  | .work p op => (net.node p).Unrelated op

def InTime (net : ReconfigNet) : Input → Prop
  | .deliver i => ∀ m ∈ net.flight[i]?, (net.node m.dst).ReadyInTime m.msg
  | .work _ _ => True

/-- The leader's `MsgRecs_handler`, with what it sends. -/
def announce (net : ReconfigNet) (leader : PeerId) (r : Recs) : ReconfigNet :=
  let s := (net.node leader).msgRecsHandler r
  { net.setNode leader s with
    flight := net.flight ++ (net.node leader).recsPackets leader s }

end ReconfigNet

/-- The membership that a reconfiguration of the node `v` brings about. -/
def Recs.change (r : Recs) (v : PeerId) (ro : Roster) : Roster :=
  if r.reconfigMode = 1 then
    ro.leave (insert v ro.leaveSet) (insert r.nodeNumber ro.leaveSetInt)
  else ro.leave (ro.leaveSet.erase v) (ro.leaveSetInt.erase r.nodeNumber)

/-- The replica `p` of a cluster with the members `members`, to which `r` names `v`. -/
structure Roster.Regular (members : Finset PeerId) (r : Recs) (v p : PeerId) (ro : Roster) :
    Prop where
  current : ∀ x, x ∈ ro.peersCurrent ↔ x ∈ members ∧ x ≠ p
  left : ro.peersCurrent = ro.peers.filter fun x => decide (x ∉ ro.leaveSet)
  nodup : ro.peers.Nodup
  nmajority : ro.config.nmajority = ro.peersCurrent.length + 1 - ro.peersCurrent.length / 3
  self : p ∉ ro.peers ∧ p ∉ ro.knownPeers
  known : v ≠ p → v ∈ ro.peers ∧ v ∈ ro.knownPeers
  target : 0 ≤ r.nodeNumber ∧ ro.allPeers[r.nodeNumber.toNat]? = some v

def Event.recsCount : Event → Option ℤ
  | .recsSent _ _ count _ | .reconfigured _ count => some count
  | _ => none

structure Replica.Fresh (members : Finset PeerId) (r : Recs) (v p : PeerId) (k : ℤ)
    (s : Replica) : Prop extends s.roster.Regular members r v p where
  echo : s.recs.reconfigEchoCounter k = 0
  ready : s.recs.reconfigReadyCounter k = 0
  unused : ∀ e ∈ s.recsView.log, e.recsCount ≠ some k

/-- A replica as a station of the wave with the count `k`. -/
def RecsView.station (r : Recs) (k : ℤ) (x : RecsView) : EchoReady.Station PeerId where
  echo := x.echo k
  ready := x.ready k
  quorum := x.nmajority
  applied := x.log.count (.reconfigured r k)
  peers := x.roster.peersCurrent.toFinset
  echoed := x.log.any fun e => e.sends == some ⟨r, myEcho, k⟩
  readied := x.log.any fun e => e.sends == some ⟨r, myReady, k⟩

def inFlight (flight : List (Packet PeerId MsgRecsAggEchoReady)) (type : ℤ) (p : PeerId) : ℕ :=
  flight.countP fun m => decide (m.msg.type = type ∧ m.dst = p)

def ReconfigNet.wave (net : ReconfigNet) (r : Recs) (k : ℤ) : EchoReady.Wave PeerId where
  node p := (net.node p).recsView.station r k
  aggTo := inFlight net.flight myAgg
  echoTo := inFlight net.flight myEcho
  readyTo := inFlight net.flight myReady

section
variable {flight : List (Packet PeerId MsgRecsAggEchoReady)}

theorem inFlight_append (new : List (Packet PeerId MsgRecsAggEchoReady)) (type : ℤ) (p : PeerId) :
    inFlight (flight ++ new) type p = inFlight flight type p + inFlight new type p :=
  List.countP_append

theorem inFlight_pos {m : Packet PeerId MsgRecsAggEchoReady} (hm : m ∈ flight) :
    inFlight flight m.msg.type m.dst ≠ 0 := by
  apply Nat.ne_of_gt
  exact List.countP_pos_iff.mpr ⟨m, hm, decide_eq_true ⟨rfl, rfl⟩⟩

theorem inFlight_eraseIdx {i : ℕ} {m : Packet PeerId MsgRecsAggEchoReady}
    (hm : flight[i]? = some m) (type : ℤ) :
    inFlight (flight.eraseIdx i) type =
      if type = m.msg.type then EchoReady.taken (inFlight flight type) m.dst
      else inFlight flight type := by
  obtain ⟨hi, rfl⟩ := List.getElem?_eq_some_iff.mp hm
  have hperm := List.getElem_cons_eraseIdx_perm hi
  have hcount : ∀ p, inFlight flight type p = inFlight (flight.eraseIdx i) type p +
      if flight[i].msg.type = type ∧ flight[i].dst = p then 1 else 0 := by
    intro p
    have hsum := hperm.countP_eq fun m => decide (m.msg.type = type ∧ m.dst = p)
    rw [List.countP_cons] at hsum
    simp only [decide_eq_true_eq] at hsum
    exact hsum.symm
  split
  · rename_i htype
    funext p
    by_cases hp : p = flight[i].dst
    · subst p
      rw [EchoReady.taken_self, hcount, if_pos ⟨htype.symm, rfl⟩, Nat.add_sub_cancel]
    · rw [EchoReady.taken_of_ne _ hp, hcount p, if_neg fun h => hp h.2.symm, Nat.add_zero]
  · rename_i htype
    funext p
    rw [hcount p, if_neg fun h => htype h.1.symm, Nat.add_zero]

theorem inFlight_mail {dsts : List PeerId} (hnd : dsts.Nodup) (self : PeerId) (r : Recs)
    (k type t : ℤ) :
    inFlight (flight ++ Event.recsPackets self (.recsSent r t k dsts)) type =
      if type = t then EchoReady.mail (inFlight flight type) dsts.toFinset
      else inFlight flight type := by
  have hnew : ∀ p, inFlight (Event.recsPackets self (.recsSent r t k dsts)) type p =
      if type = t ∧ p ∈ dsts then 1 else 0 := by
    intro p
    unfold inFlight Event.recsPackets
    rw [List.countP_map]
    change dsts.countP (fun dst => decide (t = type ∧ dst = p)) = _
    by_cases htype : type = t
    · simp only [htype, true_and]
      rw [← hnd.count]
      exact List.countP_congr fun x _ => by simp
    · simp only [htype, Ne.symm htype, false_and, decide_false, if_false]
      exact congrFun List.countP_false dsts
  split
  · rename_i htype
    funext p
    rw [inFlight_append, hnew]
    unfold EchoReady.mail
    simp only [htype, true_and, List.mem_toFinset]
  · rename_i htype
    funext p
    rw [inFlight_append, hnew, if_neg fun h => htype h.1, Nat.add_zero]

end

namespace Replica
variable {s u : Replica} {r : Recs} {k : ℤ} {self : PeerId}

theorem recsPackets_of_log {es : List Event} (h : u.recsView.log = s.recsView.log ++ es) :
    s.recsPackets self u = es.flatMap (Event.recsPackets self) := by
  unfold recsPackets
  rw [h, List.drop_left]

theorem onAgg_recsView : (s.onAgg r k).recsView = { s.recsView with
    echo := Function.update s.recsView.echo k (s.recsView.echo k + 1)
    log := s.recsView.log ++ [.recsSent r myEcho k s.recs.peersCurrent] } := by
  unfold onAgg
  rw [countEcho_recsView, multicastRecs_recsView]

theorem startAgg_recsView (s : Replica) (r : Recs) : (s.startAgg r).recsView = { s.recsView with
    echo := Function.update s.recsView.echo (s.recs.reconfigCount + 1)
      (s.recsView.echo (s.recs.reconfigCount + 1) + 1)
    log := s.recsView.log ++ [.recsSent r myAgg (s.recs.reconfigCount + 1) s.recs.peersCurrent,
      .recsSent r myEcho (s.recs.reconfigCount + 1) s.recs.peersCurrent] } := by
  unfold startAgg
  simp only []
  rw [countEcho_recsView, multicastRecs_recsView, multicastRecs_recsView]
  simp only [List.append_assoc]
  rfl

theorem onAgg_station : (s.onAgg r k).recsView.station r k =
    { s.recsView.station r k with
      echo := (s.recsView.station r k).echo + 1
      echoed := true } := by
  rw [onAgg_recsView]
  unfold RecsView.station
  simp [Event.sends, myEcho, myReady]

theorem countEcho_test : ((s.countEcho k).recs.reconfigEchoCounter k =
    (s.countEcho k).getRecsMajority) = (s.recsView.echo k + 1 = s.config.nmajority) :=
  congrArg (· = s.config.nmajority) (Function.update_self ..)

theorem countReady_test : ((s.countReady k).recs.reconfigReadyCounter k =
    (s.countReady k).getRecsMajority) = (s.recsView.ready k + 1 = s.config.nmajority) :=
  congrArg (· = s.config.nmajority) (Function.update_self ..)

theorem onEcho_count (h : s.recsView.echo k + 1 ≠ s.config.nmajority) :
    (s.onEcho r k).1.recsView = { s.recsView with
      echo := Function.update s.recsView.echo k (s.recsView.echo k + 1) } := by
  unfold onEcho
  simp only [countEcho_test]
  rw [if_neg h, countEcho_recsView]

theorem onEcho_count_station (h : s.recsView.echo k + 1 ≠ s.config.nmajority) :
    (s.onEcho r k).1.recsView.station r k =
      { s.recsView.station r k with echo := (s.recsView.station r k).echo + 1 } := by
  rw [onEcho_count h]
  unfold RecsView.station
  simp

/-- The replica sends READY to its peers and to the node to be reconfigured. -/
theorem onEcho_send {v : PeerId} (h : s.recsView.echo k + 1 = s.config.nmajority)
    (hv : s.readyTarget r = .ok v) :
    (s.onEcho r k).1.recsView = { s.recsView with
      echo := Function.update s.recsView.echo k (s.recsView.echo k + 1)
      ready := Function.update s.recsView.ready k (s.recsView.ready k + 1)
      log := s.recsView.log ++
        [.recsSent r myReady k s.recs.peersCurrent, .recsSent r myReady k [v]] } := by
  unfold onEcho
  have hpeer : ((s.countEcho k).multicastRecs r myReady k).readyTarget r = .ok v := hv
  simp only [countEcho_test]
  rw [if_pos h, hpeer]
  simp only []
  rw [countReady_recsView, emit_recsView_log _ rfl, multicastRecs_recsView, countEcho_recsView]
  simp only [List.append_assoc]
  rfl

/-- The node to be reconfigured sends READY to its peers, and then `send_msg` throws. -/
theorem onEcho_throw {e : Exn} (h : s.recsView.echo k + 1 = s.config.nmajority)
    (he : s.readyTarget r = .error e) :
    (s.onEcho r k).1.recsView = { s.recsView with
      echo := Function.update s.recsView.echo k (s.recsView.echo k + 1)
      log := s.recsView.log ++ [.recsSent r myReady k s.recs.peersCurrent] } := by
  unfold onEcho
  have hpeer : ((s.countEcho k).multicastRecs r myReady k).readyTarget r = .error e := he
  simp only [countEcho_test]
  rw [if_pos h, hpeer]
  simp only []
  rw [multicastRecs_recsView, countEcho_recsView]
  rfl

theorem onReady_count (h : s.recsView.ready k + 1 ≠ s.config.nmajority) :
    (s.onReady r k).1.recsView = { s.recsView with
      ready := Function.update s.recsView.ready k (s.recsView.ready k + 1) } := by
  unfold onReady
  simp only [countReady_test]
  rw [if_neg h, countReady_recsView]

theorem onReady_apply {v : PeerId} (h : s.recsView.ready k + 1 = s.config.nmajority)
    (hv : s.peerOf r = some v) (hmode : r.reconfigMode = 0 ∨ r.reconfigMode = 1) :
    (s.onReady r k).1.recsView = { s.recsView with
      roster := r.change v s.roster
      nmajority := (r.change v s.roster).config.nmajority
      ready := Function.update s.recsView.ready k (s.recsView.ready k + 1)
      log := s.recsView.log ++ [.reconfigured r k] } := by
  unfold onReady
  have hpeer : (s.countReady k).peerOf r = some v := hv
  simp only [countReady_test]
  rw [if_pos h, hpeer]
  simp only []
  unfold reconfigure Recs.change
  by_cases hone : r.reconfigMode = 1
  · rw [if_pos hone, if_pos hone, emit_recsView_log _ rfl]
    rfl
  · rw [if_neg hone, if_pos (hmode.resolve_right hone), if_neg hone, emit_recsView_log _ rfl]
    rfl

end Replica

namespace ReconfigNet
variable {net : ReconfigNet} {i : ℕ} {m : Packet PeerId MsgRecsAggEchoReady} {r : Recs} {k : ℤ}

/-- Only the station of the replica that acts changes. -/
theorem wave_node (p : PeerId) (s : Replica) (flight : List (Packet PeerId MsgRecsAggEchoReady)) :
    (wave { net.setNode p s with flight := flight } r k).node =
      Function.update (net.wave r k).node p (s.recsView.station r k) := by
  funext x
  by_cases hx : x = p
  · subst x
    rw [Function.update_self]
    exact congrArg (fun u : Replica => u.recsView.station r k) (Net.setNode_self ..)
  · rw [Function.update_of_ne hx]
    exact congrArg (fun u : Replica => u.recsView.station r k) (Net.setNode_of_ne _ hx)

theorem deliver_wave (hm : net.flight[i]? = some m) {s : Replica} {es : List Event}
    (hs : ((net.node m.dst).msgRecsAggEchoReadyHandler m.msg).1 = s)
    (hlog : s.recsView.log = (net.node m.dst).recsView.log ++ es) :
    net.deliver Replica.handleRecs i = { net.setNode m.dst s with
      flight := net.flight.eraseIdx i ++ es.flatMap (Event.recsPackets m.dst) } := by
  have hhandle : (net.node m.dst).handleRecs m = (s, es.flatMap (Event.recsPackets m.dst)) := by
    unfold Replica.handleRecs
    rw [hs]
    exact congrArg (Prod.mk s) (Replica.recsPackets_of_log hlog)
  rw [Net.deliver_of hm, hhandle]

theorem deliver_agg (hm : net.flight[i]? = some m) (hmsg : m.msg = ⟨r, myAgg, k⟩)
    (hnd : (net.node m.dst).recs.peersCurrent.Nodup) :
    wave (net.deliver Replica.handleRecs i) r k = (net.wave r k).onAgg m.dst := by
  have hs : ((net.node m.dst).msgRecsAggEchoReadyHandler m.msg).1 =
      (net.node m.dst).onAgg r k := by
    rw [hmsg]
    rfl
  rw [deliver_wave hm hs (congrArg RecsView.log Replica.onAgg_recsView), List.flatMap_singleton]
  apply EchoReady.Wave.ext
  · rw [wave_node, Replica.onAgg_station]
    rfl
  · change inFlight (_ ++ _) myAgg = EchoReady.taken (inFlight net.flight myAgg) m.dst
    rw [inFlight_mail hnd, inFlight_eraseIdx hm, hmsg]
    rfl
  · change inFlight (_ ++ _) myEcho = EchoReady.mail (inFlight net.flight myEcho) _
    rw [inFlight_mail hnd, inFlight_eraseIdx hm, hmsg]
    rfl
  · change inFlight (_ ++ _) myReady = inFlight net.flight myReady
    rw [inFlight_mail hnd, inFlight_eraseIdx hm, hmsg]
    rfl

theorem wave_silent (hm : net.flight[i]? = some m) (s : Replica) :
    wave { net.setNode m.dst s with flight := net.flight.eraseIdx i } r k =
      { node := Function.update (net.wave r k).node m.dst (s.recsView.station r k)
        aggTo := if myAgg = m.msg.type then EchoReady.taken (net.wave r k).aggTo m.dst
          else (net.wave r k).aggTo
        echoTo := if myEcho = m.msg.type then EchoReady.taken (net.wave r k).echoTo m.dst
          else (net.wave r k).echoTo
        readyTo := if myReady = m.msg.type then EchoReady.taken (net.wave r k).readyTo m.dst
          else (net.wave r k).readyTo } := by
  apply EchoReady.Wave.ext
  · exact wave_node ..
  · exact inFlight_eraseIdx hm myAgg
  · exact inFlight_eraseIdx hm myEcho
  · exact inFlight_eraseIdx hm myReady

theorem handler_echo (hmsg : m.msg = ⟨r, myEcho, k⟩) (s : Replica) :
    (s.msgRecsAggEchoReadyHandler m.msg).1 = (s.onEcho r k).1 := by
  rw [hmsg]
  rfl

theorem handler_ready (hmsg : m.msg = ⟨r, myReady, k⟩) (s : Replica) :
    (s.msgRecsAggEchoReadyHandler m.msg).1 = (s.onReady r k).1 := by
  rw [hmsg]
  rfl

theorem deliver_countEcho (hm : net.flight[i]? = some m) (hmsg : m.msg = ⟨r, myEcho, k⟩)
    (h : ((net.wave r k).node m.dst).echo + 1 ≠ ((net.wave r k).node m.dst).quorum) :
    wave (net.deliver Replica.handleRecs i) r k = (net.wave r k).countEcho m.dst := by
  have hview := Replica.onEcho_count (r := r) h
  have hlog : ((net.node m.dst).onEcho r k).1.recsView.log =
      (net.node m.dst).recsView.log ++ [] := by
    rw [hview, List.append_nil]
  rw [deliver_wave hm (handler_echo hmsg _) hlog, List.flatMap_nil, List.append_nil,
    wave_silent hm, Replica.onEcho_count_station h, hmsg]
  rfl

theorem deliver_countReady (hm : net.flight[i]? = some m) (hmsg : m.msg = ⟨r, myReady, k⟩)
    (h : ((net.wave r k).node m.dst).ready + 1 ≠ ((net.wave r k).node m.dst).quorum) :
    wave (net.deliver Replica.handleRecs i) r k = (net.wave r k).countReady m.dst := by
  have hview := Replica.onReady_count (r := r) h
  have hlog : ((net.node m.dst).onReady r k).1.recsView.log =
      (net.node m.dst).recsView.log ++ [] := by
    rw [hview, List.append_nil]
  have hstation : ((net.node m.dst).onReady r k).1.recsView.station r k =
      { (net.wave r k).node m.dst with ready := ((net.wave r k).node m.dst).ready + 1 } := by
    rw [hview]
    unfold RecsView.station wave
    simp [RecsView.station]
  rw [deliver_wave hm (handler_ready hmsg _) hlog, List.flatMap_nil, List.append_nil,
    wave_silent hm, hstation, hmsg]
  rfl

theorem deliver_apply {v : PeerId} (hm : net.flight[i]? = some m) (hmsg : m.msg = ⟨r, myReady, k⟩)
    (h : ((net.wave r k).node m.dst).ready + 1 = ((net.wave r k).node m.dst).quorum)
    (hv : (net.node m.dst).peerOf r = some v)
    (hmode : r.reconfigMode = 0 ∨ r.reconfigMode = 1) :
    wave (net.deliver Replica.handleRecs i) r k = (net.wave r k).apply m.dst
      (r.change v (net.node m.dst).roster).config.nmajority
      (r.change v (net.node m.dst).roster).peersCurrent.toFinset := by
  have hview := Replica.onReady_apply h hv hmode
  have hlog : ((net.node m.dst).onReady r k).1.recsView.log =
      (net.node m.dst).recsView.log ++ [.reconfigured r k] := by
    rw [hview]
  have hstation : ((net.node m.dst).onReady r k).1.recsView.station r k =
      { (net.wave r k).node m.dst with
        ready := ((net.wave r k).node m.dst).ready + 1
        applied := ((net.wave r k).node m.dst).applied + 1
        quorum := (r.change v (net.node m.dst).roster).config.nmajority
        peers := (r.change v (net.node m.dst).roster).peersCurrent.toFinset } := by
    rw [hview]
    unfold RecsView.station wave
    simp [RecsView.station, Event.sends]
  rw [deliver_wave hm (handler_ready hmsg _) hlog, List.flatMap_singleton]
  change wave { net.setNode m.dst _ with flight := net.flight.eraseIdx i ++ [] } r k = _
  rw [List.append_nil, wave_silent hm, hstation, hmsg]
  rfl

/-- The node to be reconfigured counts nothing, and the others their own READY message. -/
theorem deliver_sendReady {v : PeerId} (hm : net.flight[i]? = some m)
    (hmsg : m.msg = ⟨r, myEcho, k⟩) (hnd : (net.node m.dst).recs.peersCurrent.Nodup)
    (h : ((net.wave r k).node m.dst).echo + 1 = ((net.wave r k).node m.dst).quorum)
    (hv : (net.node m.dst).readyTarget r =
      if m.dst = v then .error .peerNotExist else .ok v) :
    wave (net.deliver Replica.handleRecs i) r k = (net.wave r k).sendReady v m.dst := by
  by_cases hself : m.dst = v
  · rw [if_pos hself] at hv
    have hview := Replica.onEcho_throw h hv
    have hstation : ((net.node m.dst).onEcho r k).1.recsView.station r k =
        { (net.wave r k).node m.dst with
          echo := ((net.wave r k).node m.dst).echo + 1
          readied := true } := by
      rw [hview]
      unfold RecsView.station wave
      simp [RecsView.station, Event.sends, myEcho, myReady]
    rw [deliver_wave hm (handler_echo hmsg _) (congrArg RecsView.log hview),
      List.flatMap_singleton]
    unfold EchoReady.Wave.sendReady
    rw [if_pos hself, if_pos hself]
    apply EchoReady.Wave.ext
    · rw [wave_node, hstation]
      rfl
    · change inFlight (_ ++ _) myAgg = inFlight net.flight myAgg
      rw [inFlight_mail hnd, inFlight_eraseIdx hm, hmsg]
      rfl
    · change inFlight (_ ++ _) myEcho = EchoReady.taken (inFlight net.flight myEcho) m.dst
      rw [inFlight_mail hnd, inFlight_eraseIdx hm, hmsg]
      rfl
    · change inFlight (_ ++ _) myReady = EchoReady.mail (EchoReady.mail _ _) ∅
      rw [inFlight_mail hnd, inFlight_eraseIdx hm, hmsg]
      funext p
      rw [EchoReady.mail_of_notMem (Finset.notMem_empty p)]
      rfl
  · rw [if_neg hself] at hv
    have hview := Replica.onEcho_send h hv
    have hstation : ((net.node m.dst).onEcho r k).1.recsView.station r k =
        { (net.wave r k).node m.dst with
          echo := ((net.wave r k).node m.dst).echo + 1
          ready := ((net.wave r k).node m.dst).ready + 1
          readied := true } := by
      rw [hview]
      unfold RecsView.station wave
      simp [RecsView.station, Event.sends, myEcho, myReady]
    have hpackets : ([.recsSent r myReady k (net.node m.dst).recs.peersCurrent,
        .recsSent r myReady k [v]] : List Event).flatMap (Event.recsPackets m.dst) =
        Event.recsPackets m.dst (.recsSent r myReady k (net.node m.dst).recs.peersCurrent) ++
          Event.recsPackets m.dst (.recsSent r myReady k [v]) := by
      rw [List.flatMap_cons, List.flatMap_singleton]
    rw [deliver_wave hm (handler_echo hmsg _) (congrArg RecsView.log hview), hpackets,
      ← List.append_assoc]
    unfold EchoReady.Wave.sendReady
    rw [if_neg hself, if_neg hself]
    have hone : [v].Nodup := List.nodup_singleton v
    apply EchoReady.Wave.ext
    · rw [wave_node, hstation]
      rfl
    · change inFlight (_ ++ _) myAgg = inFlight net.flight myAgg
      rw [inFlight_mail hone, inFlight_mail hnd, inFlight_eraseIdx hm, hmsg]
      rfl
    · change inFlight (_ ++ _) myEcho = EchoReady.taken (inFlight net.flight myEcho) m.dst
      rw [inFlight_mail hone, inFlight_mail hnd, inFlight_eraseIdx hm, hmsg]
      rfl
    · change inFlight (_ ++ _) myReady = EchoReady.mail (EchoReady.mail _ _) {v}
      rw [inFlight_mail hone, inFlight_mail hnd, inFlight_eraseIdx hm, hmsg]
      rfl

end ReconfigNet

end AvaHotstuff
