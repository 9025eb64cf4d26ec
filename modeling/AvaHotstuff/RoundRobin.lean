import AvaHotstuff.Exec
import AvaHotstuff.Wire

set_option autoImplicit false

/-!
# Client commands and the round-robin pacemaker

The handler of `cmd_pending` in `start_mc`, which batches the commands of clients, and
`PMRoundRobinProposer`, which proposes the batches and, once a new proposer is elected,
proposes again what still waits for a decision. The promises of the pacemaker resolve and
its timers go off whenever an input says so; a proposal made inside a callback is a call of
its own, after the one that resolved the promise.
-/
namespace AvaHotstuff

structure ClientCommandVars where
  cmdHash : Hash
  key : ℤ
  val : ℤ
  clusterNumber : ℤ
  nodeNumber : ℤ
  reconfigMode : ℤ
deriving DecidableEq

/-- The first three arguments of `on_propose`. -/
structure Batch where
  cmds : List Hash
  keys : List ℤ
  vals : List ℤ
deriving DecidableEq

/-- The loop over the front of `cmd_pending_buffer`. -/
def Batch.ofBuffer (buffer : List ClientCommandVars) : Batch :=
  ⟨buffer.map (·.cmdHash), buffer.map (·.key), buffer.map (·.val)⟩

/-- The vectors of `do_new_consensus`. `vals` is constructed from its own size: `junk` is what
the size of the vector under construction happens to be. -/
def Batch.renewed (cmds : List Hash) (junk : ℕ) : Batch :=
  ⟨cmds, List.replicate cmds.length 0, List.replicate junk 0⟩

section
variable (C : Crypto) (s : Replica)

/-- `beat_resp` of the round-robin pacemaker resolves with the proposer of the block, which
stands in for the pacemaker's own while the vote is routed. -/
def Replica.votingTo (dst : ReplicaID) (f : Replica → Outcome) : Outcome :=
  let r := f { s with pmaker := { s.pmaker with proposer := dst } }
  ({ r.1 with pmaker := { r.1.pmaker with proposer := s.pmaker.proposer } }, r.2)

def Replica.onReceiveProposalRr (proposer : ReplicaID) (bnew : Hash) : Outcome :=
  if proposer = s.id then s.votingTo proposer fun s => s.judgeProposal C true bnew
  else if !s.delivered bnew then (s, some .blockNotDelivered)
  else (s.update bnew).andThen fun s => s.votingTo proposer fun s => s.judgeProposal C false bnew

def Replica.finishProposalRr (bnew : Hash) : Outcome :=
  if s.height bnew ≤ s.vheight then (s, some .notAboveVheight)
  else
    (s.onReceiveProposalRr C s.id bnew).andThen fun s =>
      ((s.notifyPropose bnew).emit (.broadcast bnew), none)

def Replica.onProposeRr (b : Batch) : Outcome :=
  let blk := s.newBlock b.cmds b.keys b.vals [s.pmaker.hqcTail] s.pmaker.hqcTail []
  let bnew := C.getHash blk.body
  match (s.storeProposal bnew blk [s.pmaker.hqcTail]).onDeliverBlk bnew with
  | (s, .error e) => (s, some e)
  | (s, .ok _) => (s.update bnew).andThen fun s => s.finishProposalRr C bnew

end

/-- `cmd_pending_buffer` and the fields of `PMRoundRobinProposer`; the proposer itself is in
the core. A promise that waits is kept with what its continuation needs. -/
structure RoundRobin where
  blkSize : ℕ
  cmdPendingBuffer : List ClientCommandVars
  propBlk : ReplicaID → Option Hash
  rotating : Bool
  regProposal : Bool
  regReceiveProposal : Bool
  pendingBeats : List Batch
  locked : Bool
  pmQcFinish : Option Batch
  pmWaitPropose : Bool
  pmQcManual : Option ℕ
  electedCalls : ℕ

namespace RoundRobin

def proposerScheduleNext (r : RoundRobin) : RoundRobin :=
  match r.pendingBeats with
  | [] => r
  | b :: bs =>
    if r.locked then r else { r with pendingBeats := bs, pmQcFinish := some b, locked := true }

/-- The promises of `rotate`, the choice of the next proposer left aside. -/
def rotate (r : RoundRobin) : RoundRobin :=
  { r with
    regProposal := true
    regReceiveProposal := true
    propBlk := fun _ => none
    rotating := true
    pmQcFinish := none
    pmWaitPropose := false
    pmQcManual := none }

/-- `elected` tells whether the replica is the proposer, which posts the call that proposes
the waiting commands. -/
def stopRotate (r : RoundRobin) (elected : Bool) : RoundRobin :=
  { r with
    pmQcFinish := none
    pmWaitPropose := true
    pmQcManual := none
    rotating := false
    locked := false
    electedCalls := if elected then r.electedCalls + 1 else r.electedCalls }

def notePropBlk (r : RoundRobin) (rid : ReplicaID) (blk : Hash) : RoundRobin :=
  { r with propBlk := Function.update r.propBlk rid (some ((r.propBlk rid).getD blk)) }

/-- The hook of `reg_receive_proposal`. -/
def onReceiveProposal (r : RoundRobin) (proposer : ReplicaID) (blk : Hash) : RoundRobin :=
  if r.regReceiveProposal then
    { r.notePropBlk proposer blk with regReceiveProposal := r.rotating }
  else r

/-- The hooks of `reg_proposal` and `proposer_update_last_proposed`. -/
def onPropose (r : RoundRobin) (id : ReplicaID) (blk : Hash) : RoundRobin :=
  let r := if r.regProposal then { r.notePropBlk id blk with regProposal := r.rotating } else r
  if r.pmWaitPropose then { r with locked := false }.proposerScheduleNext else r

end RoundRobin

structure Server where
  core : Replica
  rr : RoundRobin

namespace Server
variable (C : Crypto)

def start (c : Setup) (blkSize : ℕ) : Server where
  core := { c.start with pmaker := ⟨0, b0⟩ }
  rr := RoundRobin.stopRotate
    ⟨blkSize, [], fun _ => none, false, false, false, [], false, none, false, none, 0⟩
    (decide (c.id = 0))

/-- What the calls that leave the core do to the pacemaker: `on_consensus`, and the `rotate`
of `send_RComplain_local`. -/
def onEvent (st : Server) : Event → Server
  | .consensus blk =>
    if st.rr.propBlk st.core.pmaker.proposer = some blk then
      { st with rr := st.rr.stopRotate (decide (st.core.pmaker.proposer = st.core.id)) }
    else st
  | .rcomplainLocal c _ =>
    if (st.core.storage.findBlkHashForCid c.blkHeight.toNat).isSome then
      { st with rr := st.rr.rotate }
    else st
  | _ => st

def observe (st : Server) (core : Replica) : Server :=
  (core.trace.drop st.core.trace.length).foldl onEvent { st with core := core }

def onReceiveProposal (st : Server) (proposer : ReplicaID) (blk : Hash) : Server :=
  match st.core.onReceiveProposalRr C proposer blk with
  | (core, some _) => st.observe core
  | (core, none) =>
    let st := st.observe core
    { st with rr := st.rr.onReceiveProposal proposer blk }

def onPropose (st : Server) (b : Batch) : Server × Bool :=
  let bnew := C.getHash (st.core.newBlock b.cmds b.keys b.vals [st.core.pmaker.hqcTail]
    st.core.pmaker.hqcTail []).body
  match st.core.onProposeRr C b with
  | (core, some _) => (st.observe core, false)
  | (core, none) =>
    let st := st.observe core
    ({ st with rr := (st.rr.onReceiveProposal st.core.id bnew).onPropose st.core.id bnew }, true)

def beaten (st : Server) (b : Batch) : Server :=
  if st.core.pmaker.proposer = st.core.id then (st.onPropose C b).1 else st

def beat (st : Server) (b : Batch) : Server :=
  if !st.rr.rotating ∧ st.core.pmaker.proposer = st.core.id then
    { st with rr := { st.rr with pendingBeats := st.rr.pendingBeats ++ [b] }.proposerScheduleNext }
  else st.beaten C b

/-- A proposal that throws leaves the promise of the block before it as it is. -/
def doNewConsensus (st : Server) (x : ℕ) (cmds : List Hash) (junk : ℕ) : Server :=
  match st.onPropose C (.renewed cmds junk) with
  | (st, false) => st
  | (st, true) => { st with rr := { st.rr with pmQcManual := some x } }

def rotate (st : Server) : Server where
  core := st.core.rotate
  rr := st.rr.rotate

def request (st : Server) (cmd : ClientCommandVars) (cb : ℕ) : Server :=
  let core := st.core.waitDecision cmd.cmdHash cb
  let fin : Finality := ⟨core.id, 1, 0, 0, cmd.cmdHash, 0⟩
  let core := if 0 ≤ cmd.reconfigMode then
      core.sendReconfigAck fin ⟨cmd.clusterNumber, cmd.nodeNumber, cmd.reconfigMode⟩
    else core
  let core := if 15 < cmd.key.tmod 100 then core.answerClient fin else core
  let st := { st with core := core }
  if st.core.pmaker.proposer ≠ st.core.id then st
  else
    let buffer := if cmd.key.tmod 100 ≤ 15 then st.rr.cmdPendingBuffer ++ [cmd]
      else st.rr.cmdPendingBuffer
    if st.rr.blkSize ≤ buffer.length then
      { st with rr := { st.rr with cmdPendingBuffer := buffer.drop st.rr.blkSize } }.beat C
        (.ofBuffer (buffer.take st.rr.blkSize))
    else { st with rr := { st.rr with cmdPendingBuffer := buffer } }

/-- `async_qc_finish(last_proposed)` resolves. -/
def qcFinish (st : Server) : Server :=
  match st.rr.pmQcFinish with
  | none => st
  | some b => { st with rr := { st.rr with pmQcFinish := none } }.beaten C b

/-- The certificate of a block that `do_new_consensus` has proposed is there. -/
def qcManual (st : Server) (junk : ℕ) : Server :=
  match st.rr.pmQcManual with
  | none => st
  | some x =>
    let st := { st with rr := { st.rr with pmQcManual := none } }
    if 3 ≤ x then st else st.doNewConsensus C (x + 1) [] junk

def onExpTimeout (st : Server) (junk : ℕ) : Server :=
  if st.core.pmaker.proposer = st.core.id then st.doNewConsensus C 0 [] junk else st

/-- The call that `stop_rotate` has posted; `cmds` is the order in which `decision_waiting`
is iterated. -/
def elected (st : Server) (cmds : List Hash) (junk : ℕ) : Server :=
  if st.rr.electedCalls = 0 ∨ ¬cmds.Perm (st.core.decisionWaiting.map Prod.fst) then st
  else
    let st := { st with rr := { st.rr with electedCalls := st.rr.electedCalls - 1 } }
    if cmds = [] then st else st.doNewConsensus C 0 cmds junk

def impeach (st : Server) : Server := if st.rr.rotating then st else st.rotate

end Server

/-- What reaches one server. A block comes as bytes; `call` is a handler that neither brings
a block nor proposes one. -/
inductive ServerInput where
  | request (cmd : ClientCommandVars) (cb : ℕ)
  | parse (bytes : List UInt8)
  | proposal (proposer : ReplicaID) (blk : Hash)
  | call (op : Op)
  | qcFinish
  | qcManual (junk : ℕ)
  | expTimeout (junk : ℕ)
  | rotate
  | impeach
  | elected (cmds : List Hash) (junk : ℕ)

/-- The calls that neither bring nor propose a block, and that do not depend on the routing of
votes. -/
def Op.plain : Op → Bool
  | .addBlk _ | .propose _ _ _ _ _ | .receiveProposal _ _ | .waitDecision _ _
  | .sendReconfigAck _ _ => false
  | _ => true

def Server.step (C : Crypto) (F : SigFormat) (st : Server) : ServerInput → Server
  | .request cmd cb => st.request C cmd cb
  | .parse bytes =>
    match (Body.unserialize F).run bytes with
    | none => st
    | some (body, _) => { st with core := st.core.step C (.addBlk body) }
  | .proposal proposer blk => st.onReceiveProposal C proposer blk
  | .call op => if op.plain then st.observe (st.core.step C op) else st
  | .qcFinish => st.qcFinish C
  | .qcManual junk => st.qcManual C junk
  | .expTimeout junk => st.onExpTimeout C junk
  | .rotate => st.rotate
  | .impeach => st.impeach
  | .elected cmds junk => st.elected C cmds junk

end AvaHotstuff
