import AvaHotstuff.Frame

set_option autoImplicit false

namespace AvaHotstuff

structure Roster where
  id : ReplicaID
  config : ReplicaConfig
  peers : List PeerId
  allPeers : List PeerId
  knownPeers : List PeerId
  peersCurrent : List PeerId
  leaveSet : Finset PeerId
  leaveSetInt : Finset ℤ

def Frame.roster (f : Frame) : Roster where
  id := f.id
  config := f.config
  peers := f.recs.peers
  allPeers := f.recs.allPeers
  knownPeers := f.recs.knownPeers
  peersCurrent := f.recs.peersCurrent
  leaveSet := f.recs.leaveSet
  leaveSetInt := f.recs.leaveSetInt

structure RecsView where
  roster : Roster
  nmajority : ℕ
  echo : ℤ → ℕ
  ready : ℤ → ℕ
  log : List Event

def Op.recsFree : Op → Bool
  | .msgRecs _ | .msgRecsAggEchoReady _ => false
  | _ => true

namespace Replica
variable (s : Replica)

def roster : Roster where
  id := s.id
  config := s.config
  peers := s.recs.peers
  allPeers := s.recs.allPeers
  knownPeers := s.recs.knownPeers
  peersCurrent := s.recs.peersCurrent
  leaveSet := s.recs.leaveSet
  leaveSetInt := s.recs.leaveSetInt

def recsView : RecsView where
  roster := s.roster
  nmajority := s.config.nmajority
  echo := s.recs.reconfigEchoCounter
  ready := s.recs.reconfigReadyCounter
  log := s.trace.filter Event.onRecs

theorem emit_recsView {e : Event} (he : e.onRecs = false) : (s.emit e).recsView = s.recsView := by
  unfold recsView
  rw [emit_trace, List.filter_append, List.filter_cons_of_neg (by simp [he]), List.filter_nil,
    List.append_nil]
  rfl

theorem emit_recsView_log {e : Event} (he : e.onRecs = true) :
    (s.emit e).recsView = { s.recsView with log := s.recsView.log ++ [e] } := by
  unfold recsView
  rw [emit_trace, List.filter_append, List.filter_cons_of_pos he, List.filter_nil]
  rfl

theorem roster_congr {s u : Replica} (h : u.frame = s.frame) : u.roster = s.roster := by
  have hroster : ∀ v : Replica, v.frame.roster = v.roster := fun _ => rfl
  rw [← hroster u, ← hroster s, h]

theorem recsView_congr {s u : Replica} (h : u.frame = s.frame) : u.recsView = s.recsView := by
  have hlog : ∀ v : Replica, v.frame.log.filter Event.onRecs = v.recsView.log := by
    intro v
    change (v.trace.filter Event.onFrame).filter Event.onRecs = v.trace.filter Event.onRecs
    rw [List.filter_filter]
    congr 1
    funext e
    cases e <;> rfl
  have hconfig : u.config = s.config := congrArg Frame.config h
  have hecho : u.recs.reconfigEchoCounter = s.recs.reconfigEchoCounter :=
    congrArg (fun f => f.recs.reconfigEchoCounter) h
  have hready : u.recs.reconfigReadyCounter = s.recs.reconfigReadyCounter :=
    congrArg (fun f => f.recs.reconfigReadyCounter) h
  have hlogs : u.recsView.log = s.recsView.log := by
    rw [← hlog u, ← hlog s, h]
  unfold recsView at hlogs ⊢
  rw [roster_congr h, hconfig, hecho, hready]
  exact congrArg _ hlogs

theorem McOnly.recsView {s u : Replica} (h : McOnly s u) : u.recsView = s.recsView := by
  have hlog : u.trace.filter Event.onRecs = s.trace.filter Event.onRecs := by
    apply h.trace.filter
    intro e he
    cases e <;> first | rfl | cases he
  calc u.recsView = { u.recsView with log := s.trace.filter Event.onRecs } := by
        rw [← hlog]
        rfl
    _ = s.recsView := congrArg Replica.recsView h.rest

theorem uncomplained_recsView : s.uncomplained.recsView = s.recsView := by
  have hlog := s.uncomplained_filter (p := Event.onRecs) fun e he => by
    cases e <;> first | rfl | cases he
  unfold recsView
  rw [hlog]
  rfl

theorem unrotated_recsView : s.unrotated.recsView = s.recsView := by
  have hlog := s.unrotated_filter (p := Event.onRecs) fun e he => by
    cases e <;> first | rfl | cases he
  unfold recsView
  rw [hlog]
  rfl

theorem sendReconfigAck_recsView (fin : Finality) (r : Recs) :
    (s.sendReconfigAck fin r).recsView = s.recsView := by
  unfold sendReconfigAck
  simp only []
  split
  · rw [emit_recsView _ rfl, recsView_congr (s.answerClient_frame fin)]
  · change (s.answerClient fin).recsView = s.recsView
    exact recsView_congr (s.answerClient_frame fin)

theorem exec_recsView (C : Crypto) {op : Op} (hop : op.recsFree = true) :
    (s.exec C op).1.recsView = s.recsView := by
  cases op with
  | receiveMcLocal prop x => exact (s.receiveMcLocal_mcOnly prop x).recsView
  | relayMc prop x => exact (s.relayMc_mcOnly prop x).recsView
  | remoteViewChangeTimeout cid =>
    exact s.view_of_uncomplained uncomplained_recsView
      (s.remoteViewChangeTimeout_uncomplained C cid)
  | receiveLComplain c =>
    exact s.view_of_uncomplained uncomplained_recsView (s.onReceiveLComplain_uncomplained C c)
  | receiveRComplain c junk =>
    exact s.view_of_unrotated unrotated_recsView (s.onReceiveRComplain_unrotated c junk)
  | sendReconfigAck fin r => exact s.sendReconfigAck_recsView fin r
  | msgRecs r => exact absurd hop (by simp [Op.recsFree])
  | msgRecsAggEchoReady msg => exact absurd hop (by simp [Op.recsFree])
  | _ => exact recsView_congr (s.exec_frame C rfl)

end Replica

end AvaHotstuff
