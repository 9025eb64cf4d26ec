import AvaHotstuff.Replica

set_option autoImplicit false

/-!
# The virtual functions the core calls

`HotStuffBase` implements the outputs of `HotStuffCore`; those that the commit
loop and the handlers of `consensus.cpp` call are here, with the pacemaker hooks
that run inside `on_hqc_update`, `on_receive_proposal_` and `on_propose_`.
-/
namespace AvaHotstuff

/-- Subtraction on `size_t`. -/
def sizeSub (a b : ℕ) : ℕ := (a + (2 ^ 64 - b % 2 ^ 64)) % 2 ^ 64

def Replica.checkLeader (s : Replica) : Bool := decide (s.id = s.pmaker.proposer)

def Replica.getLeaveSet (s : Replica) : (ℤ × Finset ℤ) × Replica :=
  if s.recs.reconfigCount > s.recs.reconfigSent then
    ((s.recs.reconfigCount, s.recs.leaveSetInt),
      { s with recs := { s.recs with reconfigSent := s.recs.reconfigCount } })
  else ((s.recs.reconfigCount, ∅), s)

/-- The other clusters with their members, in the order the map is iterated. -/
def Replica.otherClusterNodes (s : Replica) : List (ℕ × List PeerId) :=
  s.mc.clusterToNodesPeerIds.filter fun c => decide (c.1 ≠ s.clusterId)

def Replica.initOtherPeers (s : Replica) : Replica :=
  if s.mc.otherPeersFPlusOneInit then s
  else { s with mc := { s.mc with
      otherPeersFPlusOne := s.mc.otherPeersFPlusOne ++
        s.otherClusterNodes.flatMap fun c => c.2.take (c.2.length / 3 + 1)
      otherPeersFPlusOneInit := true } }

def Replica.doBroadcastProposalOtherClusters (s : Replica) (prop : Proposal) : Replica :=
  let s := s.initOtherPeers
  s.emit (.otherClusters prop s.mc.otherPeersFPlusOne)

/-- `leave_peer_ids` of `update_other_f_plus_one`: node numbers out of range are skipped. -/
def Replica.leavePeerIds (s : Replica) (leaveSet : Finset ℤ) (p : PeerId) : Bool :=
  (List.range s.recs.allPeers.length).any fun i =>
    decide ((i : ℤ) ∈ leaveSet) && decide (s.recs.allPeers[i]? = some p)

def Replica.updateOtherFPlusOne (s : Replica) (leaveSet : Finset ℤ) (clsId : ℕ) : Replica :=
  { s with mc := { s.mc with
      otherPeersFPlusOne := s.mc.otherPeersFPlusOne ++
        s.otherClusterNodes.flatMap fun c =>
          if c.1 = clsId then
            (c.2.filter fun p => !s.leavePeerIds leaveSet p).take
              (sizeSub (sizeSub c.2.length leaveSet.card) 1 / 3 + 1)
          else c.2.take (sizeSub c.2.length 1 / 3 + 1) } }

def Replica.startRemoteViewChangeTimer (s : Replica) (cid : ℕ) (blk : Hash) : Replica :=
  { s with mc := { s.mc with
      cidToRemoteViewChangeTimer :=
        Function.update s.mc.cidToRemoteViewChangeTimer cid (some ⟨blk, true⟩) } }

def Replica.resetRemoteViewChangeTimer (s : Replica) (cid : ℕ) : Replica :=
  { s with mc := { s.mc with
      cidToRemoteViewChangeTimer :=
        Function.update s.mc.cidToRemoteViewChangeTimer cid none } }

def Replica.didReceiveMc (s : Replica) (height : ℕ) : Bool :=
  decide (height ∈ s.mc.finishedMcCids)

def Replica.didUpdate (s : Replica) (height : ℕ) : Bool :=
  decide (height ∈ s.mc.finishedUpdateCids)

def Replica.updateFinishedUpdateCids (s : Replica) (height : ℕ) : Replica :=
  { s with mc := { s.mc with finishedUpdateCids := insert height s.mc.finishedUpdateCids } }

def Replica.answerClient (s : Replica) (fin : Finality) : Replica :=
  match s.decisionWaiting.lookup fin.cmdHash with
  | none => s
  | some cb =>
    { s.emit (.callback cb fin) with
      decisionWaiting := s.decisionWaiting.filter fun e => decide (e.1 ≠ fin.cmdHash) }

/-- `do_decide`: execute, write, and answer the client that waits for the command. -/
def Replica.doDecide (s : Replica) (fin : Finality) (key val : ℤ) : Replica :=
  (s.emit (.decide fin key val)).answerClient fin

def Block.finality (blk : Block) (h : Hash) (rid : ReplicaID) (i : ℕ) : Finality :=
  ⟨rid, 1, i, blk.height, blk.body.cmds.getD i 0, h⟩

def Replica.decideCmd (blk : Block) (h : Hash) (s : Replica) (i : ℕ) : Replica :=
  s.doDecide (blk.finality h s.id i) (blk.body.keys.getD i 0) (blk.body.vals.getD i 0)

/-- The `do_decide` loop over the commands of one block. -/
def Replica.executeBlk (s : Replica) (h : Hash) : Replica :=
  match s.storage.blkCache h with
  | none => s
  | some blk =>
    (List.range blk.body.cmds.length).foldl (Replica.decideCmd blk h)
      (s.emit (.execute blk.height h))

def Replica.checkAncestry (s : Replica) (a b : Hash) : Bool :=
  match s.walk (s.height a) b with
  | none => false
  | some (_, e) => decide (e = a)

/-- One step of the scan over the tails in `PMHighTail::reg_hqc_update`. -/
def Replica.higherTail (s : Replica) (best tail : Hash) : Hash :=
  if s.checkAncestry s.hqc.1 tail && decide (s.height tail > s.height best) then tail else best

def Replica.onHqcUpdate (s : Replica) : Replica :=
  { s with pmaker := { s.pmaker with hqcTail := s.tails.foldl s.higherTail s.hqc.1 } }

/-- `on_receive_proposal_` with the hook of `PMHighTail::reg_receive_proposal`. -/
def Replica.notifyReceiveProposal (s : Replica) (blk : Hash) : Replica :=
  { s with pmaker := { s.pmaker with hqcTail := s.higherTail s.pmaker.hqcTail blk } }

/-- `on_propose_` with the hook of `PMHighTail::reg_proposal`. -/
def Replica.notifyPropose (s : Replica) (blk : Hash) : Replica :=
  { s with pmaker := { s.pmaker with hqcTail := blk } }

def Replica.onQcFinish (s : Replica) (blk : Hash) : Replica :=
  if blk ∈ s.qcWaiting then
    { s.emit (.qcFinish blk) with qcWaiting := s.qcWaiting.filter fun b => decide (b ≠ blk) }
  else s

/-- `async_qc_finish`: a block without its certificate is waited for. -/
def Replica.asyncQcFinish (s : Replica) (blk : Hash) : Replica :=
  match s.storage.blkCache blk with
  | none => s
  | some b =>
    if s.config.nmajority ≤ b.voted.card then s.emit (.qcFinish blk)
    else { s with qcWaiting := s.qcWaiting.insert blk }

/-- The handler of `cmd_pending` notes who waits for a command; a second request is
answered with a finality of decision 0. -/
def Replica.waitDecision (s : Replica) (cmdHash : Hash) (cb : ℕ) : Replica :=
  match s.decisionWaiting.lookup cmdHash with
  | none => { s with decisionWaiting := (cmdHash, cb) :: s.decisionWaiting }
  | some _ => s.emit (.callback cb ⟨s.id, 0, 0, 0, cmdHash, 0⟩)

def Replica.rotate (s : Replica) : Replica :=
  { s with pmaker := { s.pmaker with
      proposer := (s.pmaker.proposer + 1) % s.config.nreplicas } }

end AvaHotstuff
