import AvaHotstuff.Exec

set_option autoImplicit false

namespace AvaHotstuff

namespace Replica
variable (update : Replica → Hash → Outcome) (C : Crypto) (s : Replica)

def onReceiveProposalWith (proposer : ReplicaID) (bnew : Hash) : Outcome :=
  if proposer = s.id then s.judgeProposal C true bnew
  else if !s.delivered bnew then (s, some .blockNotDelivered)
  else (update s bnew).andThen fun s => s.judgeProposal C false bnew

def onProposeWith (cmds : List Hash) (keys vals : List ℤ) (parents : List Hash)
    (extra : List UInt8) : Outcome :=
  match parents.head? with
  | none => (s, some .emptyParents)
  | some p =>
    let b := s.newBlock cmds keys vals parents p extra
    let bnew := C.getHash b.body
    match (s.storeProposal bnew b parents).onDeliverBlk bnew with
    | (s, .error e) => (s, some e)
    | (s, .ok _) => (update s bnew).andThen fun s => s.finishProposal C bnew

def execWith : Op → Outcome
  | .receiveProposal proposer blk => s.onReceiveProposalWith update C proposer blk
  | .propose cmds keys vals parents extra =>
    s.onProposeWith update C cmds keys vals parents extra
  | op => s.exec C op

end Replica

/-- The calls of `Exec` are those of the three-step build. -/
theorem Replica.execWith_update (C : Crypto) (s : Replica) (op : Op) :
    s.execWith Replica.update C op = s.exec C op := by
  cases op <;> rfl

namespace TwoStep

/-- The second link of the chain: `commit requires direct parent`. -/
def updateExec (s : Replica) (blk1 : Hash) : Outcome :=
  match s.qcRef blk1 with
  | none => (s, none)
  | some blk =>
    if s.decided blk then (s, none)
    else
      match s.parent0 blk1 with
      | none => (s, some .undefined)
      | some p1 => if p1 ≠ blk then (s, none) else s.commit blk

def updateChain (s : Replica) (nblk : Hash) : Outcome :=
  match s.storage.blkCache nblk with
  | none => (s, some .undefined)
  | some n =>
    match n.qcRef with
    | none => (s, none)
    | some blk1 =>
      if s.decided blk1 then (s, none)
      else updateExec ((s.updateHqc blk1 n.body.qc).updateLock blk1) blk1

def update (s : Replica) (nblk : Hash) : Outcome :=
  (updateChain s nblk).andThen fun s => (s.emit (.updated nblk), none)

def exec (C : Crypto) (s : Replica) : Op → Outcome := s.execWith update C

end TwoStep

end AvaHotstuff
