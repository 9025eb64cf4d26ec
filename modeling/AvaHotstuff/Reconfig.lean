import AvaHotstuff.Core

set_option autoImplicit false

namespace AvaHotstuff

def myAgg : ℤ := 0
def myEcho : ℤ := 1
def myReady : ℤ := 2

structure MsgRecsAggEchoReady where
  recs : Recs
  type : ℤ
  reconfigCount : ℤ
deriving DecidableEq

def Replica.getRecsMajority (s : Replica) : ℕ := s.config.nmajority

def Replica.multicastRecs (s : Replica) (r : Recs) (type count : ℤ) : Replica :=
  s.emit (.recsSent r type count s.recs.peersCurrent)

def Replica.countEcho (s : Replica) (count : ℤ) : Replica :=
  { s with recs := { s.recs with
      reconfigEchoCounter := Function.update s.recs.reconfigEchoCounter count
        (s.recs.reconfigEchoCounter count + 1) } }

def Replica.countReady (s : Replica) (count : ℤ) : Replica :=
  { s with recs := { s.recs with
      reconfigReadyCounter := Function.update s.recs.reconfigReadyCounter count
        (s.recs.reconfigReadyCounter count + 1) } }

def Replica.startAgg (s : Replica) (r : Recs) : Replica :=
  let s := { s with recs := { s.recs with reconfigCount := s.recs.reconfigCount + 1 } }
  let s := s.multicastRecs r myAgg s.recs.reconfigCount
  let s := s.multicastRecs r myEcho s.recs.reconfigCount
  s.countEcho s.recs.reconfigCount

def Replica.msgRecsHandler (s : Replica) (r : Recs) : Replica :=
  if s.id = s.pmaker.proposer then
    let s := { s with recs := { s.recs with
        pendingRecs := Function.update s.recs.pendingRecs r (s.recs.pendingRecs r + 1) } }
    if s.recs.pendingRecs r > s.getRecsMajority then s
    else if s.recs.pendingRecs r = s.getRecsMajority then s.startAgg r
    else s
  else s

def Replica.sendReconfigAck (s : Replica) (fin : Finality) (r : Recs) : Replica :=
  let s := s.answerClient fin
  if s.id ≠ s.pmaker.proposer then s.emit (.recsAck r s.pmaker.proposer)
  else
    { s with recs := { s.recs with
        pendingRecs := Function.update s.recs.pendingRecs r (s.recs.pendingRecs r + 1) } }

def Replica.peerOf (s : Replica) (r : Recs) : Option PeerId :=
  if r.nodeNumber < 0 then none else s.recs.allPeers[r.nodeNumber.toNat]?

/-- Where the READY message is sent once more: `send_msg` throws for a peer that was not
added to the network, as a replica itself is not. -/
def Replica.readyTarget (s : Replica) (r : Recs) : Except Exn PeerId :=
  match s.peerOf r with
  | none => .error .undefined
  | some p => if p ∈ s.recs.knownPeers then .ok p else .error .peerNotExist

def Replica.updateConfigParameters (s : Replica) (currentPeers : List PeerId) : Replica :=
  { s with config := { s.config with
      nreplicas := currentPeers.length + 1
      nmajority := currentPeers.length + 1 - currentPeers.length / 3 } }

def Replica.setLeaveSet (s : Replica) (leaveSet : Finset PeerId) (leaveSetInt : Finset ℤ) :
    Replica :=
  let current := s.recs.peers.filter fun p => decide (p ∉ leaveSet)
  let s := { s with recs := { s.recs with
      leaveSet := leaveSet
      leaveSetInt := leaveSetInt
      peersCurrent := current } }
  s.updateConfigParameters current

/-- The change of membership that enough READY messages bring about. -/
def Replica.reconfigure (s : Replica) (r : Recs) (count : ℤ) (p : PeerId) : Replica :=
  if r.reconfigMode = 1 then
    (s.setLeaveSet (insert p s.recs.leaveSet) (insert r.nodeNumber s.recs.leaveSetInt)).emit
      (.reconfigured r count)
  else if r.reconfigMode = 0 then
    (s.setLeaveSet (s.recs.leaveSet.erase p) (s.recs.leaveSetInt.erase r.nodeNumber)).emit
      (.reconfigured r count)
  else s

def Replica.onAgg (s : Replica) (r : Recs) (count : ℤ) : Replica :=
  (s.multicastRecs r myEcho count).countEcho count

def Replica.onEcho (s : Replica) (r : Recs) (count : ℤ) : Outcome :=
  let s := s.countEcho count
  if s.recs.reconfigEchoCounter count = s.getRecsMajority then
    let s := s.multicastRecs r myReady count
    match s.readyTarget r with
    | .error e => (s, some e)
    | .ok p => ((s.emit (.recsSent r myReady count [p])).countReady count, none)
  else (s, none)

def Replica.onReady (s : Replica) (r : Recs) (count : ℤ) : Outcome :=
  let s := s.countReady count
  if s.recs.reconfigReadyCounter count = s.getRecsMajority then
    match s.peerOf r with
    | none => (s, some .undefined)
    | some p => (s.reconfigure r count p, none)
  else (s, none)

def Replica.msgRecsAggEchoReadyHandler (s : Replica) (msg : MsgRecsAggEchoReady) : Outcome :=
  if msg.type = myAgg then (s.onAgg msg.recs msg.reconfigCount, none)
  else if msg.type = myEcho then s.onEcho msg.recs msg.reconfigCount
  else if msg.type = myReady then s.onReady msg.recs msg.reconfigCount
  else (s, none)

def Event.onRecs : Event → Bool
  | .recsSent _ _ _ _ | .reconfigured _ _ => true
  | _ => false

namespace Replica

/-- The states differ in the membership only: the counters, who takes part, and the messages
about it. -/
structure RecsOnly (s u : Replica) : Prop where
  rest : { u with recs := s.recs, config := s.config, trace := s.trace } = s
  reconfigSent : u.recs.reconfigSent = s.recs.reconfigSent
  trace : Appends Event.onRecs s u

section
variable {s u w : Replica}

theorem RecsOnly.recs {recs : Membership} (h : recs.reconfigSent = s.recs.reconfigSent) :
    RecsOnly s { s with recs := recs } := ⟨rfl, h, .same rfl⟩

theorem RecsOnly.refl : RecsOnly s s := .recs rfl

theorem RecsOnly.emit {e : Event} (he : e.onRecs = true) : RecsOnly s (s.emit e) :=
  ⟨rfl, rfl, .emit he⟩

theorem RecsOnly.trans (h : RecsOnly s u) (h' : RecsOnly u w) : RecsOnly s w := by
  refine ⟨?_, h'.reconfigSent.trans h.reconfigSent, h.trace.trans h'.trace⟩
  have hrest := congrArg (fun v : Replica =>
    { v with recs := s.recs, config := s.config, trace := s.trace }) h'.rest
  exact hrest.trans h.rest

theorem multicastRecs_recsOnly (s : Replica) (r : Recs) (type count : ℤ) :
    RecsOnly s (s.multicastRecs r type count) := .emit rfl

theorem startAgg_recsOnly (s : Replica) (r : Recs) : RecsOnly s (s.startAgg r) := by
  have hcount : RecsOnly s { s with recs := { s.recs with
      reconfigCount := s.recs.reconfigCount + 1 } } := .recs rfl
  have hagg := hcount.trans (multicastRecs_recsOnly _ r myAgg (s.recs.reconfigCount + 1))
  have hecho := hagg.trans (multicastRecs_recsOnly _ r myEcho (s.recs.reconfigCount + 1))
  exact hecho.trans (.recs rfl)

theorem msgRecsHandler_recsOnly (s : Replica) (r : Recs) : RecsOnly s (s.msgRecsHandler r) := by
  have hcount : RecsOnly s { s with recs := { s.recs with
      pendingRecs := Function.update s.recs.pendingRecs r (s.recs.pendingRecs r + 1) } } :=
    .recs rfl
  unfold msgRecsHandler
  split
  · simp only []
    split
    · exact hcount
    split
    · exact hcount.trans (startAgg_recsOnly _ r)
    · exact hcount
  · exact .refl

theorem reconfigure_recsOnly (s : Replica) (r : Recs) (count : ℤ) (p : PeerId) :
    RecsOnly s (s.reconfigure r count p) := by
  have hset : ∀ l is, RecsOnly s (s.setLeaveSet l is) := fun l is => ⟨rfl, rfl, .same rfl⟩
  unfold reconfigure
  split
  · exact (hset _ _).trans (.emit rfl)
  split
  · exact (hset _ _).trans (.emit rfl)
  · exact .refl

theorem msgRecsAggEchoReadyHandler_recsOnly (s : Replica) (msg : MsgRecsAggEchoReady) :
    RecsOnly s (s.msgRecsAggEchoReadyHandler msg).1 := by
  unfold msgRecsAggEchoReadyHandler
  split
  · exact (s.multicastRecs_recsOnly _ _ _).trans (.recs rfl)
  split
  · unfold onEcho
    simp only []
    have hcount : RecsOnly s (s.countEcho msg.reconfigCount) := .recs rfl
    split
    · have hsend := hcount.trans (multicastRecs_recsOnly _ msg.recs myReady msg.reconfigCount)
      split
      · exact hsend
      · exact hsend.trans (RecsOnly.trans (.emit rfl) (.recs rfl))
    · exact hcount
  split
  · unfold onReady
    simp only []
    have hcount : RecsOnly s (s.countReady msg.reconfigCount) := .recs rfl
    split
    · split
      · exact hcount
      · exact hcount.trans (reconfigure_recsOnly _ _ _ _)
    · exact hcount
  · exact .refl

end

end Replica

end AvaHotstuff
