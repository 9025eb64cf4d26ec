import Mathlib.Algebra.Group.Nat.Defs
import Mathlib.Data.Finset.Card
import Mathlib.Logic.Function.Basic
import Mathlib.Tactic.Common

set_option autoImplicit false

/-!
# Blocks, certificates and the entity storage

The data of `entity.h`, `crypto.h` and the message structures of `consensus.h`.
A `block_t` is a pointer into the block cache, which keeps one object for each
hash, so a pointer is modelled by the hash of its block. Hashing and signing are
parameters (`Crypto`); `verifySig rid` is the check under the key that the
configuration holds for `rid`.
-/
namespace AvaHotstuff

abbrev Hash := ℕ
abbrev ReplicaID := ℕ
abbrev PeerId := ℕ
abbrev Sig := ℕ

/-- `salticidae::Bits`: `nbits` addressable bits, stored in whole 64-bit words. Its `get` and
`set` check no index: beyond the words, where the source leaves the array, the first gives
false here and the second does nothing. -/
structure Bits where
  nbits : ℕ
  data : List Bool
deriving DecidableEq

def Bits.cleared (nbits : ℕ) : Bits := ⟨nbits, List.replicate (64 * ((nbits + 63) / 64)) false⟩
def Bits.get (b : Bits) (i : ℕ) : Bool := b.data.getD i false
def Bits.set (b : Bits) (i : ℕ) : Bits := { b with data := b.data.set i true }

structure PartCert where
  objHash : Hash
  sig : Sig
deriving DecidableEq

structure QuorumCert where
  objHash : Hash
  rids : Bits
  sigs : List (ReplicaID × Sig)
deriving DecidableEq

/-- The part of a block that is serialized, and hashed. -/
structure Body where
  parentHashes : List Hash
  cmds : List Hash
  keys : List ℤ
  vals : List ℤ
  qc : QuorumCert
  extra : List UInt8
deriving DecidableEq

structure Crypto where
  getHash : Body → Hash
  sign : ReplicaID → Hash → Sig
  verifySig : ReplicaID → Hash → Sig → Bool

structure ReplicaConfig where
  replicaMap : List (ReplicaID × PeerId)
  nreplicas : ℕ
  nmajority : ℕ
deriving DecidableEq

def ReplicaConfig.getPeerId (c : ReplicaConfig) (rid : ReplicaID) : Option PeerId :=
  c.replicaMap.lookup rid

def createQuorumCert (c : ReplicaConfig) (h : Hash) : QuorumCert :=
  ⟨h, Bits.cleared c.nreplicas, []⟩

/-- `add_part`; `none` is the throw on a certificate for another object. -/
def QuorumCert.addPart (qc : QuorumCert) (rid : ReplicaID) (pc : PartCert) : Option QuorumCert :=
  if pc.objHash = qc.objHash then
    some { qc with
      sigs := if (qc.sigs.lookup rid).isSome then qc.sigs else qc.sigs ++ [(rid, pc.sig)]
      rids := qc.rids.set rid }
  else none

def QuorumCert.verify (C : Crypto) (c : ReplicaConfig) (qc : QuorumCert) : Bool :=
  decide (c.nmajority ≤ qc.sigs.length) &&
    (List.range qc.rids.nbits).all fun i =>
      !qc.rids.get i ||
        C.verifySig (i % 2 ^ 16) qc.objHash ((qc.sigs.lookup (i % 2 ^ 16)).getD 0)

/-- What a replica derives from a block body once its neighbours are known. -/
structure BlockNode where
  body : Body
  parents : List Hash
  qcRef : Option Hash
  height : ℕ
  delivered : Bool
  decision : Bool

structure Block extends BlockNode where
  selfQc : Option QuorumCert
  voted : Finset ReplicaID
  lcomplains : Finset ReplicaID
  rcomplains : Finset ReplicaID

def Block.parsed (body : Body) : Block where
  body := body
  parents := []
  qcRef := none
  height := 0
  delivered := false
  decision := false
  selfQc := none
  voted := ∅
  lcomplains := ∅
  rcomplains := ∅

/-- The hash of the genesis block `b0`. -/
def b0 : Hash := 0

/-- `b0` after `on_init`: it is its own certified block. -/
def Block.genesis (c : ReplicaConfig) : Block where
  body := ⟨[], [], [], [], createQuorumCert c b0, []⟩
  parents := []
  qcRef := some b0
  height := 0
  delivered := true
  decision := true
  selfQc := some (createQuorumCert c b0)
  voted := (c.replicaMap.map Prod.fst).toFinset
  lcomplains := ∅
  rcomplains := ∅

structure EntityStorage where
  blkCache : Hash → Option Block
  cidBlkhash : ℕ → Option Hash

/-- `blk_cache.insert`: an object already stored under the hash is kept. -/
def EntityStorage.addBlk (st : EntityStorage) (h : Hash) (b : Block) : EntityStorage :=
  if (st.blkCache h).isSome then st
  else { st with blkCache := Function.update st.blkCache h (some b) }

/-- `cid_blkhash.insert`: the first block delivered at a height is kept. -/
def EntityStorage.addCidBlkhash (st : EntityStorage) (height : ℕ) (h : Hash) : EntityStorage :=
  if (st.cidBlkhash height).isSome then st
  else { st with cidBlkhash := Function.update st.cidBlkhash height (some h) }

/-- `find_blk_hash_for_cid`; `none` is the sentinel it returns for a missing height. -/
def EntityStorage.findBlkHashForCid (st : EntityStorage) (cid : ℕ) : Option Hash :=
  st.cidBlkhash cid

structure Vote where
  voter : ReplicaID
  blkHash : Hash
  cert : PartCert
deriving DecidableEq

def Vote.verify (C : Crypto) (v : Vote) : Bool :=
  C.verifySig v.voter v.cert.objHash v.cert.sig && decide (v.cert.objHash = v.blkHash)

/-- `LComplain` and `RComplain` have the same fields and the same check. -/
structure Complain where
  voter : ReplicaID
  blkHeight : ℤ
  blkHash : Hash
  cert : PartCert
deriving DecidableEq

def Complain.verify (C : Crypto) (v : Complain) : Bool :=
  C.verifySig v.voter v.cert.objHash v.cert.sig && decide (v.cert.objHash = v.blkHash)

structure Recs where
  clusterNumber : ℤ
  nodeNumber : ℤ
  reconfigMode : ℤ
deriving DecidableEq

/-- A `Proposal` with every field set, as the two long constructors and the wire give it. -/
structure Proposal where
  proposer : ReplicaID
  blk : Hash
  clusterNumber : ℕ
  preAmpClusterNumber : ℕ
  otherClusterBlockHeight : ℕ
  msgType : ℕ
  currentPeerSet : Finset ℤ
  reconfigCount : ℤ
deriving DecidableEq

structure Finality where
  rid : ReplicaID
  decision : ℤ
  cmdIdx : ℕ
  cmdHeight : ℕ
  cmdHash : Hash
  blkHash : Hash
deriving DecidableEq

end AvaHotstuff
