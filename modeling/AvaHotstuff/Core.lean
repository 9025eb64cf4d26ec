import AvaHotstuff.Callbacks

set_option autoImplicit false

/-!
# `HotStuffCore`

The functions of `consensus.cpp`, in the order of the source, for the three-step
build. A `throw` keeps the changes made before it.
-/
namespace AvaHotstuff

/-- The fields `on_deliver_blk` can still change before it throws on the certificate. -/
def Block.linked (blk : Block) (parents : List Hash) (height : ℕ) : Block :=
  { blk with parents := parents, height := height }

def Replica.storeInMapForMc (s : Replica) (h : Hash) : Replica :=
  { s with storage := s.storage.addCidBlkhash (s.height h) h }

/-- The bookkeeping once parents and certified block have been found. -/
def Replica.markDelivered (s : Replica) (h : Hash) (parents : List Hash) : Replica :=
  let s := { s with tails := (s.tails.filter fun b => decide (b ∉ parents)).insert h }
  let s := s.modifyBlk h fun b =>
    { b with qcRef := some b.body.qc.objHash, delivered := true }
  s.storeInMapForMc h

def Replica.onDeliverBlk (s : Replica) (h : Hash) : Replica × Except Exn Bool :=
  match s.storage.blkCache h with
  | none => (s, .error .undefined)
  | some blk =>
    if blk.delivered then (s, .ok false)
    else
      let parents := blk.body.parentHashes.takeWhile s.delivered
      if parents.length < blk.body.parentHashes.length then
        (s.modifyBlk h (·.linked parents blk.height), .error .blockNotDelivered)
      else
        match parents.head? with
        | none => (s.modifyBlk h (·.linked parents blk.height), .error .undefined)
        | some p =>
          let s' := s.modifyBlk h (·.linked parents (s.height p + 1))
          if (s'.storage.blkCache blk.body.qc.objHash).isNone then (s', .error .qcBlockNotFetched)
          else (s'.markDelivered h parents, .ok true)

def Replica.updateHqc (s : Replica) (blk : Hash) (qc : QuorumCert) : Replica :=
  if s.height blk > s.height s.hqc.1 then ({ s with hqc := (blk, qc) } : Replica).onHqcUpdate
  else s

def Replica.updateLock (s : Replica) (blk1 : Hash) : Replica :=
  if s.height blk1 > s.height s.bLock then { s with bLock := blk1 } else s

/-- The message about a committed block that the leader sends to the other clusters. -/
def Replica.notifyOtherClusters (s : Replica) (blk : Hash) : Replica :=
  let ((reconfigC, leaveSetSent), s) := s.getLeaveSet
  let prop : Proposal := ⟨s.id, blk, s.clusterId, s.clusterId, s.height blk, 1, leaveSetSent,
    reconfigC⟩
  if s.checkLeader && !(decide (s.clusterId = 0) && decide (s.height blk = 2 ^ 32 - 6000)) then
    s.doBroadcastProposalOtherClusters prop
  else s

/-- The body of the commit loop. -/
def Replica.commitBlk (s : Replica) (blk : Hash) : Replica :=
  let s := s.modifyBlk blk fun b => { b with decision := true }
  let s := s.emit (.consensus blk)
  let s := s.notifyOtherClusters blk
  let s := s.startRemoteViewChangeTimer (s.height blk) blk
  let s := s.updateFinishedUpdateCids (s.height blk)
  if s.didReceiveMc (s.height blk) then
    (s.executeBlk blk).resetRemoteViewChangeTimer (s.height blk)
  else s

def Replica.commit (s : Replica) (blk : Hash) : Outcome :=
  match s.walk (s.height s.bExec) blk with
  | none => (s, some .undefined)
  | some (commitQueue, b) =>
    if b ≠ s.bExec then (s, some .safetyBreached)
    else ({ commitQueue.reverse.foldl Replica.commitBlk s with bExec := blk }, none)

/-- The third link of the chain: `commit requires direct parent`. -/
def Replica.updateExec (s : Replica) (blk2 blk1 : Hash) : Outcome :=
  match s.qcRef blk1 with
  | none => (s, none)
  | some blk =>
    if s.decided blk then (s, none)
    else
      match s.parent0 blk2 with
      | none => (s, some .undefined)
      | some p2 =>
        if p2 ≠ blk1 then (s, none)
        else
          match s.parent0 blk1 with
          | none => (s, some .undefined)
          | some p1 => if p1 ≠ blk then (s, none) else s.commit blk

def Replica.updateChain (s : Replica) (nblk : Hash) : Outcome :=
  match s.storage.blkCache nblk with
  | none => (s, some .undefined)
  | some n =>
    match n.qcRef with
    | none => (s, none)
    | some blk2 =>
      if s.decided blk2 then (s, none)
      else
        let s := s.updateHqc blk2 n.body.qc
        match s.qcRef blk2 with
        | none => (s, none)
        | some blk1 =>
          if s.decided blk1 then (s, none)
          else (s.updateLock blk1).updateExec blk2 blk1

def Replica.update (s : Replica) (nblk : Hash) : Outcome :=
  (s.updateChain nblk).andThen fun s => (s.emit (.updated nblk), none)

/-- The reference `auto &qc = blk->self_qc`, filled in when it was null. -/
def Replica.addVote (s : Replica) (v : Vote) : Replica × Option QuorumCert :=
  let fresh := createQuorumCert s.config v.blkHash
  let s := s.modifyBlk v.blkHash fun b =>
    { b with voted := insert v.voter b.voted, selfQc := some (b.selfQc.getD fresh) }
  match (s.storage.blkCache v.blkHash).bind (·.selfQc) with
  | none => (s, none)
  | some qc =>
    match qc.addPart v.voter v.cert with
    | none => (s, none)
    | some qc' => (s.modifyBlk v.blkHash fun b => { b with selfQc := some qc' }, some qc')

def Replica.onReceiveVote (s : Replica) (v : Vote) : Outcome :=
  match s.storage.blkCache v.blkHash with
  | none => (s, some .blockNotDelivered)
  | some blk =>
    if !blk.delivered then (s, some .blockNotDelivered)
    else if s.config.nmajority ≤ blk.voted.card then (s, none)
    else if v.voter ∈ blk.voted then (s, none)
    else
      match s.addVote v with
      | (s, none) => (s, some .partCertMismatch)
      | (s, some qc) =>
        if blk.voted.card + 1 = s.config.nmajority then
          ((s.updateHqc v.blkHash qc).onQcFinish v.blkHash, none)
        else (s, none)

/-- `do_vote`: `PaceMakerDummyFixed::beat_resp` resolves at once with its proposer. -/
def Replica.doVote (C : Crypto) (s : Replica) (blk : Hash) : Outcome :=
  let v : Vote := ⟨s.id, blk, ⟨blk, C.sign s.id blk⟩⟩
  let s := s.emit (.vote blk)
  if s.pmaker.proposer = s.id then s.onReceiveVote v
  else (s.emit (.voteSent s.pmaker.proposer v), none)

/-- The vote rule; `none` when the safety walk reads a missing parent. -/
def Replica.opinion (s : Replica) (bnew : Hash) : Option Bool :=
  if s.height bnew > s.vheight then
    if (s.qcRef bnew).any fun q => decide (s.height q > s.height s.bLock) then some true
    else (s.walk (s.height s.bLock) bnew).map fun r => decide (r.2 = s.bLock)
  else some false

def Replica.takeOpinion (s : Replica) (bnew : Hash) (opinion : Bool) : Replica :=
  if opinion then ({ s with vheight := s.height bnew } : Replica).emit (.opinion bnew s.bLock)
  else s

def Replica.finishQcRef (s : Replica) (bnew : Hash) : Replica :=
  match s.qcRef bnew with
  | none => s
  | some q => s.onQcFinish q

/-- `on_receive_proposal` after the block has been passed to `update`. -/
def Replica.judgeProposal (C : Crypto) (s : Replica) (selfProp : Bool) (bnew : Hash) : Outcome :=
  match s.opinion bnew with
  | none => (s, some .undefined)
  | some opinion =>
    let s := s.takeOpinion bnew opinion
    let s := if selfProp then s else s.finishQcRef bnew
    let s := s.notifyReceiveProposal bnew
    if opinion && !s.voteDisabled then s.doVote C bnew else (s, none)

def Replica.onReceiveProposal (C : Crypto) (s : Replica) (proposer : ReplicaID) (bnew : Hash) :
    Outcome :=
  if proposer = s.id then s.judgeProposal C true bnew
  else if !s.delivered bnew then (s, some .blockNotDelivered)
  else (s.update bnew).andThen fun s => s.judgeProposal C false bnew

def Replica.newBlock (s : Replica) (cmds : List Hash) (keys vals : List ℤ)
    (parents : List Hash) (p : Hash) (extra : List UInt8) : Block where
  body := ⟨parents, cmds, keys, vals, s.hqc.2, extra⟩
  parents := parents
  qcRef := some s.hqc.1
  height := s.height p + 1
  delivered := false
  decision := false
  selfQc := none
  voted := ∅
  lcomplains := ∅
  rcomplains := ∅

/-- `on_propose` up to the delivery of the new block. -/
def Replica.storeProposal (s : Replica) (h : Hash) (b : Block) (parents : List Hash) : Replica :=
  let s := { s with tails := s.tails.filter fun t => decide (t ∉ parents) }
  let s := s.addBlk h b
  s.modifyBlk h fun blk => { blk with selfQc := some (createQuorumCert s.config h) }

def Replica.finishProposal (C : Crypto) (s : Replica) (bnew : Hash) : Outcome :=
  if s.height bnew ≤ s.vheight then (s, some .notAboveVheight)
  else
    (s.onReceiveProposal C s.id bnew).andThen fun s =>
      ((s.notifyPropose bnew).emit (.broadcast bnew), none)

def Replica.onPropose (C : Crypto) (s : Replica) (cmds : List Hash) (keys vals : List ℤ)
    (parents : List Hash) (extra : List UInt8) : Outcome :=
  match parents.head? with
  | none => (s, some .emptyParents)
  | some p =>
    let b := s.newBlock cmds keys vals parents p extra
    let bnew := C.getHash b.body
    match (s.storeProposal bnew b parents).onDeliverBlk bnew with
    | (s, .error e) => (s, some e)
    | (s, .ok _) => (s.update bnew).andThen fun s => s.finishProposal C bnew

/-- `count` members of the own cluster give `f = count / 3`; only the first replicas send. -/
def Replica.sendRComplain (s : Replica) (c : Complain) : Replica :=
  if s.mc.otherPeersFPlusOne.length > 0 ∧
      s.id ≤ (s.mc.clusterMap.filter fun e => decide (e.2 = s.clusterId)).length / 3 + 1 then
    s.emit (.rcomplainSent c s.mc.otherPeersFPlusOne)
  else s

def Replica.onReceiveLComplain (C : Crypto) (s : Replica) (v : Complain) : Outcome :=
  match s.storage.blkCache v.blkHash with
  | none => (s, some .blockNotDelivered)
  | some blk =>
    if !blk.delivered then (s, some .blockNotDelivered)
    else if blk.lcomplains.card > s.config.nmajority then (s, none)
    else if v.voter ∈ blk.lcomplains then (s, none)
    else
      let s := s.modifyBlk v.blkHash fun b =>
        { b with lcomplains := insert v.voter b.lcomplains }
      if blk.lcomplains.card + 1 = s.config.nmajority then
        let r : Complain := ⟨s.id, v.blkHeight, v.blkHash,
          ⟨v.blkHash, C.sign s.id v.blkHash⟩⟩
        ((s.emit (.rcomplain r)).sendRComplain r, none)
      else (s, none)

def Replica.startLocalComplain (C : Crypto) (s : Replica) (height : ℕ) (h : Hash) : Outcome :=
  let c : Complain := ⟨s.id, height, h, ⟨h, C.sign s.id h⟩⟩
  (s.emit (.lcomplain c s.recs.peersCurrent)).onReceiveLComplain C c

/-- `send_RComplain_local`. The seven-argument `Proposal` constructor leaves
`reconfig_count` unset; `junk` is what it happens to hold. -/
def Replica.sendRComplainLocal (s : Replica) (v : Complain) (junk : ℤ) : Outcome :=
  let s := s.emit (.rcomplainLocal v s.recs.peersCurrent)
  match s.storage.findBlkHashForCid v.blkHeight.toNat with
  | none => (s, some .undefined)
  | some b =>
    let s := s.doBroadcastProposalOtherClusters
      ⟨s.id, b, s.clusterId, s.clusterId, s.height b, 1, ∅, junk⟩
    (({ s with mc := { s.mc with lastRvc := v.blkHeight } } : Replica).rotate, none)

def Replica.onReceiveRComplain (s : Replica) (v : Complain) (junk : ℤ) : Outcome :=
  match s.storage.blkCache v.blkHash with
  | none => (s, some .blockNotDelivered)
  | some blk =>
    if !blk.delivered then (s, some .blockNotDelivered)
    else if 1 ≤ blk.rcomplains.card then (s, none)
    else
      (s.modifyBlk v.blkHash fun b =>
        { b with rcomplains := insert v.voter b.rcomplains }).sendRComplainLocal v junk

end AvaHotstuff
