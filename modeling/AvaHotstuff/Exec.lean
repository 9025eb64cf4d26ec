import AvaHotstuff.CoreCases
import AvaHotstuff.InterCluster
import AvaHotstuff.Reconfig
import Mathlib.Algebra.GroupWithZero.Nat

set_option autoImplicit false

/-!
# The calls a replica makes on its own state

Each handler of `HotStuffBase` ends in one of these calls, the promises it waits
on left aside. `addBlk` is the parsing of a message that carries a block.
-/
namespace AvaHotstuff

inductive Op where
  | addBlk (body : Body)
  | deliverBlk (blk : Hash)
  | receiveProposal (proposer : ReplicaID) (blk : Hash)
  | receiveVote (v : Vote)
  | propose (cmds : List Hash) (keys vals : List ℤ) (parents : List Hash) (extra : List UInt8)
  | receiveMcLocal (prop : Proposal) (x : ℤ)
  | relayMc (prop : Proposal) (x : ℤ)
  | remoteViewChangeTimeout (cid : ℕ)
  | receiveLComplain (c : Complain)
  | receiveRComplain (c : Complain) (junk : ℤ)
  | msgRecs (r : Recs)
  | sendReconfigAck (fin : Finality) (r : Recs)
  | msgRecsAggEchoReady (msg : MsgRecsAggEchoReady)
  | asyncQcFinish (blk : Hash)
  | waitDecision (cmdHash : Hash) (cb : ℕ)

def Replica.deliverOutcome (s : Replica) (blk : Hash) : Outcome :=
  match s.onDeliverBlk blk with
  | (s', .ok _) => (s', none)
  | (s', .error e) => (s', some e)

theorem Replica.deliverOutcome_fst (s : Replica) (blk : Hash) :
    (s.deliverOutcome blk).1 = (s.onDeliverBlk blk).1 := by
  unfold Replica.deliverOutcome
  split <;> rename_i heq <;> rw [heq]

def Replica.exec (C : Crypto) (s : Replica) : Op → Outcome
  | .addBlk body => (s.addBlk (C.getHash body) (Block.parsed body), none)
  | .deliverBlk blk => s.deliverOutcome blk
  | .receiveProposal proposer blk => s.onReceiveProposal C proposer blk
  | .receiveVote v => s.onReceiveVote v
  | .propose cmds keys vals parents extra => s.onPropose C cmds keys vals parents extra
  | .receiveMcLocal prop x => s.receiveMcLocal prop x
  | .relayMc prop x => s.relayMc prop x
  | .remoteViewChangeTimeout cid => s.remoteViewChangeTimeout C cid
  | .receiveLComplain c => s.onReceiveLComplain C c
  | .receiveRComplain c junk => s.onReceiveRComplain c junk
  | .msgRecs r => (s.msgRecsHandler r, none)
  | .sendReconfigAck fin r => (s.sendReconfigAck fin r, none)
  | .msgRecsAggEchoReady msg => s.msgRecsAggEchoReadyHandler msg
  | .asyncQcFinish blk => (s.asyncQcFinish blk, none)
  | .waitDecision cmdHash cb => (s.waitDecision cmdHash cb, none)

def Replica.Completes (s : Replica) : Op → ℕ → Prop
  | .receiveMcLocal prop x, cid => s.completes prop x = true ∧ cid = prop.otherClusterBlockHeight
  | .relayMc prop x, cid =>
    s.completes (s.propSameCluster prop) x = true ∧ cid = prop.otherClusterBlockHeight
  | _, _ => False

def Replica.Complains (s : Replica) : Op → Hash → Prop
  | .remoteViewChangeTimeout cid, h => ∃ t, s.mc.cidToRemoteViewChangeTimer cid = some t ∧
      t.armed = true ∧ t.blk = h ∧ cid ∉ s.mc.finishedMcCids ∧ (cid : ℤ) - s.mc.lastRvc > 100
  | .receiveLComplain c, h => c.blkHash = h ∧ ∃ blk, s.storage.blkCache h = some blk ∧
      blk.delivered = true ∧ c.voter ∉ blk.lcomplains ∧
      blk.lcomplains.card + 1 = s.config.nmajority
  | _, _ => False

def Replica.proposes (C : Crypto) (s : Replica) : Op → Option Hash
  | .propose cmds keys vals parents extra => parents.head?.map fun p =>
      C.getHash (s.newBlock cmds keys vals parents p extra).body
  | _ => none

def Op.countsMc : Op → Bool
  | .receiveMcLocal _ _ | .relayMc _ _ => true
  | _ => false

theorem Replica.not_completes {s : Replica} {op : Op} (h : op.countsMc = false) (cid : ℕ) :
    ¬s.Completes op cid := by
  cases op with
  | receiveMcLocal prop x => exact absurd h (by simp [Op.countsMc])
  | relayMc prop x => exact absurd h (by simp [Op.countsMc])
  | _ => exact fun hc => hc

/-- A handler that throws is caught by the event loop, which goes on with its state. -/
def Replica.step (C : Crypto) (s : Replica) (op : Op) : Replica := (s.exec C op).1

def EntityStorage.initial (c : ReplicaConfig) : EntityStorage where
  blkCache := Function.update (fun _ => none) b0 (some (Block.genesis c))
  cidBlkhash := fun _ => none

def McState.initial (nClusters : ℕ) (members : List (ℕ × List PeerId))
    (clusterMap : List (ℕ × ℕ)) : McState where
  nClusters := nClusters
  clusterTrackerArray := []
  cidToClusterTrackerArray := fun _ => none
  finishedMcCids := ∅
  finishedUpdateCids := ∅
  clusterMsgCount := 0
  cidToRemoteViewChangeTimer := fun _ => none
  lastRvc := -5
  clusteridToReconfigCount := fun _ => 0
  otherPeersFPlusOneInit := false
  otherPeersFPlusOne := []
  clusterToNodesPeerIds := members
  clusterMap := clusterMap

def Membership.initial (peers allPeers knownPeers : List PeerId) : Membership where
  peers := peers
  allPeers := allPeers
  knownPeers := knownPeers
  peersCurrent := peers
  leaveSet := ∅
  leaveSetInt := ∅
  pendingRecs := fun _ => 0
  reconfigEchoCounter := fun _ => 0
  reconfigReadyCounter := fun _ => 0
  reconfigCount := 0
  reconfigSent := 0

/-- What `start_mc` fixes before the first message. -/
structure Setup where
  id : ReplicaID
  clusterId : ℕ
  config : ReplicaConfig
  proposer : ReplicaID
  voteDisabled : Bool
  nClusters : ℕ
  members : List (ℕ × List PeerId)
  clusterMap : List (ℕ × ℕ)
  peers : List PeerId
  allPeers : List PeerId
  knownPeers : List PeerId

def Setup.start (c : Setup) : Replica where
  id := c.id
  clusterId := c.clusterId
  config := c.config
  storage := EntityStorage.initial c.config
  tails := [b0]
  hqc := (b0, createQuorumCert c.config b0)
  bLock := b0
  bExec := b0
  vheight := 0
  voteDisabled := c.voteDisabled
  qcWaiting := []
  pmaker := ⟨c.proposer, b0⟩
  mc := McState.initial c.nClusters c.members c.clusterMap
  recs := Membership.initial c.peers c.allPeers c.knownPeers
  decisionWaiting := []
  trace := []

/-- Hashes that name the nodes of a binary tree, and signatures that show what they sign. -/
def Crypto.sample : Crypto where
  getHash b := 2 * b.parentHashes.headD 0 + if b.extra = [] then 1 else 2
  sign _ h := h
  verifySig _ h σ := decide (σ = h)

def Setup.four (id : ReplicaID) : Setup where
  id := id
  clusterId := 0
  config := ⟨[(0, 0), (1, 1), (2, 2), (3, 3)], 4, 3⟩
  proposer := 0
  voteDisabled := false
  nClusters := 2
  members := []
  clusterMap := []
  peers := []
  allPeers := []
  knownPeers := []

-- The replicas of such a cluster are written as the numbers of `Fin 4`.
@[instance] theorem neZeroFour : NeZero 4 := ⟨by decide⟩

def QuorumCert.sample (h : Hash) : QuorumCert where
  objHash := h
  rids := ((Bits.cleared 4).set 0).set 1 |>.set 2
  sigs := [(0, h), (1, h), (2, h)]

def Body.sample (parent qc cmd : Hash) (extra : List UInt8) : Body :=
  ⟨[parent], [cmd], [1], [2], .sample qc, extra⟩

def hears (b : Body) : List Op :=
  [.addBlk b, .deliverBlk (Crypto.sample.getHash b), .receiveProposal 0 (Crypto.sample.getHash b)]

def mcSample (height : ℕ) : Op := .receiveMcLocal ⟨0, 0, 0, 1, height, 2, ∅, 0⟩ 0

end AvaHotstuff
