import AvaHotstuff.BlockCache
import AvaHotstuff.Handlers
import AvaHotstuff.TailProposals

set_option autoImplicit false

/-!
# What the handlers read

The bytes of a message of a peer, from the parser to the last continuation that it leads to, and
the reads and writes on the way for which the source has no check of its own. `get_info` logs an
unknown id and dereferences the end of the map, `salticidae::Bits` takes every index, and
`Block::operator std::string` shows `parent_hashes[0]`.
-/
namespace AvaHotstuff
open Bytes

/-- What the parser makes of a message; `none` is an exception. -/
def decode {α : Type} (p : Parser α) (bytes : List UInt8) : Option α := (p.run bytes).map Prod.fst

theorem decode_yields {α : Type} {p : Parser α} {P : α → Prop} (hp : Yields p P)
    {bytes : List UInt8} {a : α} (h : decode p bytes = some a) : P a := by
  obtain ⟨⟨a', rest⟩, hrun, rfl⟩ := Option.map_eq_some_iff.mp h
  exact hp _ _ _ hrun

namespace MsgRecsAggEchoReady

def unserialize : Parser MsgRecsAggEchoReady := do
  let recs ← Recs.unserialize
  let type ← readLeInt 4
  let reconfigCount ← readLeInt 4
  pure ⟨recs, type, reconfigCount⟩

end MsgRecsAggEchoReady

/-- The bits that `size()` counts lie in the words. -/
def Bits.Covered (b : Bits) : Prop := b.nbits ≤ b.data.length

theorem length_unpackBits (bs : List UInt8) : (unpackBits bs).length = 8 * bs.length := by
  induction bs with
  | nil => rfl
  | cons b bs ih =>
    unfold unpackBits at ih ⊢
    rw [List.flatMap_cons, List.length_append, length_byteBits, ih, List.length_cons]
    omega

/-- A bitmap from the wire has no words at all when their number wraps around. -/
theorem Bits.unserialize_covered :
    Yields unserialize fun b => b.Covered ↔ b.nbits + 63 < 2 ^ 32 := by
  refine (readLe_yields 4).bind fun nbits hn => (take_yields _).bind fun raw hraw => .pure ?_
  change nbits ≤ (unpackBits raw).length ↔ nbits + 63 < 2 ^ 32
  rw [length_unpackBits, hraw, ndata]
  omega

namespace Body

def Filled (b : Body) : Prop := b.cmds.length ≤ b.keys.length ∧ b.cmds.length ≤ b.vals.length

/-- The block up to the bitmap of its certificate, which is read before the signatures. -/
def unserializeRids : Parser Bits := do
  let _ ← Vectors.unserialize
  let _ ← readLe 32
  Bits.unserialize

variable {F : SigFormat} {bytes rest : List UInt8} {body : Body}

theorem unserialize_filled : Yields (unserialize F) Filled := by
  have hread : Yields Vectors.unserialize Vectors.Matched := by
    refine (Yields.true _).bind fun _ _ => (Yields.true _).bind fun _ _ => ?_
    refine (Yields.true _).bind fun m _ => (readMany_yields _ m).bind fun cs hcs => ?_
    refine (readMany_yields _ m).bind fun ks hks => (readMany_yields _ m).bind fun vs hvs => ?_
    exact .pure ⟨hks.trans hcs.symm, hvs.trans hcs.symm⟩
  refine hread.bind fun v hv => (Yields.true _).bind fun _ _ => ?_
  refine (Yields.true _).bind fun _ _ => (Yields.true _).bind fun _ _ => .pure ?_
  exact ⟨hv.keys.ge, hv.vals.ge⟩

theorem unserializeRids_covered :
    Yields unserializeRids fun b => b.Covered ↔ b.nbits + 63 < 2 ^ 32 :=
  (Yields.true _).bind fun _ _ => (Yields.true _).bind fun _ _ => Bits.unserialize_covered

theorem decode_rids (h : (unserialize F).run bytes = some (body, rest)) :
    decode unserializeRids bytes = some body.qc.rids := by
  unfold unserialize at h
  simp only [run_bind_eq_some] at h
  obtain ⟨v, _, hv, qc, _, hqc, _, _, -, _, _, -, hlast⟩ := h
  obtain rfl : (⟨v.parentHashes, v.cmds, v.keys, v.vals, qc, _⟩ : Body) = body :=
    congrArg Prod.fst (Option.some.inj hlast)
  unfold QuorumCert.unserialize at hqc
  simp only [run_bind_eq_some] at hqc
  obtain ⟨_, _, hhash, rids, rest', hrids, sigs, _, -, hcert⟩ := hqc
  obtain rfl : (⟨_, rids, sigs⟩ : QuorumCert) = qc := congrArg Prod.fst (Option.some.inj hcert)
  have hrun : unserializeRids.run bytes = some (rids, rest') := by
    unfold unserializeRids
    simp only [run_bind_eq_some]
    exact ⟨_, _, hv, _, _, hhash, hrids⟩
  unfold decode
  rw [hrun]
  rfl

end Body

namespace Proposal

def unserializeHead : Parser ℕ := do
  let _ ← readLe 4
  let _ ← readLe 4
  let _ ← readLe 4
  let msgType ← readLe 4
  let _ ← readLe 2
  pure msgType

def unserializeToBlk (F : SigFormat) : Parser (ℕ × Body) := do
  let msgType ← unserializeHead
  let body ← Body.unserialize F
  pure (msgType, body)

/-- The block that is handed to `add_blk`, whether or not the rest of the message can be read. -/
def blkOf (F : SigFormat) (bytes : List UInt8) : Option Body :=
  (decode (unserializeToBlk F) bytes).bind fun r => if r.1 = 9 then none else some r.2

def ridsOf (bytes : List UInt8) : Option Bits :=
  decode (unserializeHead >>= fun _ => Body.unserializeRids) bytes

theorem ridsOf_covered {bytes : List UInt8} {rids : Bits} (h : ridsOf bytes = some rids) :
    rids.Covered ↔ rids.nbits + 63 < 2 ^ 32 :=
  decode_yields ((Yields.true _).bind fun _ _ => Body.unserializeRids_covered) h

theorem blkOf_read {F : SigFormat} {bytes : List UInt8} {body : Body}
    (h : blkOf F bytes = some body) :
    body.Filled ∧ ridsOf bytes = some body.qc.rids := by
  obtain ⟨r, hr, hblk⟩ := Option.bind_eq_some_iff.mp h
  split at hblk
  · cases hblk
  obtain ⟨⟨r', rest⟩, hrun, rfl⟩ := Option.map_eq_some_iff.mp hr
  unfold unserializeToBlk at hrun
  rw [run_bind_eq_some] at hrun
  obtain ⟨t, bs, hhead, hrun⟩ := hrun
  obtain ⟨body', bs', hbody, hpair⟩ := run_bind_eq_some.mp hrun
  obtain rfl : (t, body') = r' := congrArg Prod.fst (Option.some.inj hpair)
  obtain rfl : body' = body := Option.some.inj hblk
  refine ⟨Body.unserialize_filled _ _ _ hbody, ?_⟩
  obtain ⟨⟨rids, rest'⟩, hrids, rfl⟩ := Option.map_eq_some_iff.mp (Body.decode_rids hbody)
  unfold ridsOf decode
  rw [show (unserializeHead >>= fun _ => Body.unserializeRids).run bytes = some (_, rest') from
    run_bind_eq_some.mpr ⟨_, _, hhead, hrids⟩]
  rfl

def countedCluster (prop : Proposal) : Option ℕ :=
  if prop.msgType = 1 then some prop.clusterNumber
  else if prop.msgType = 2 then some prop.preAmpClusterNumber
  else none

end Proposal

namespace MsgRespBlock
variable (F : SigFormat)

/-- The blocks that are handed to `add_blk` one after the other, and whether all of them could
be read. -/
def readBlks : ℕ → List UInt8 → List Body × Bool
  | 0, _ => ([], true)
  | k + 1, bytes =>
    match (Body.unserialize F).run bytes with
    | none => ([], false)
    | some (body, rest) => (body :: (readBlks k rest).1, (readBlks k rest).2)

def blksOf (bytes : List UInt8) : List Body × Bool :=
  match (readLe 4).run bytes with
  | none => ([], false)
  | some (size, rest) => readBlks F size rest

/-- The bitmaps that are read, also of a block that is cut off behind it. -/
def readRids : ℕ → List UInt8 → List Bits
  | 0, _ => []
  | k + 1, bytes => (decode Body.unserializeRids bytes).toList ++
    match (Body.unserialize F).run bytes with
    | none => []
    | some (_, rest) => readRids k rest

def ridsOf (bytes : List UInt8) : List Bits :=
  match (readLe 4).run bytes with
  | none => []
  | some (size, rest) => readRids F size rest

theorem readBlks_read (k : ℕ) (bytes : List UInt8) {body : Body}
    (h : body ∈ (readBlks F k bytes).1) : body.Filled ∧ body.qc.rids ∈ readRids F k bytes := by
  induction k generalizing bytes with
  | zero => exact absurd h List.not_mem_nil
  | succ k ih =>
    unfold readBlks at h
    unfold readRids
    split at h
    · exact absurd h List.not_mem_nil
    rename_i b rest hrun
    rw [Body.decode_rids hrun]
    rcases List.mem_cons.mp h with rfl | h
    · exact ⟨Body.unserialize_filled _ _ _ hrun, List.mem_cons_self ..⟩
    · exact (ih rest h).imp_right fun hr => List.mem_cons_of_mem _ hr

theorem blksOf_read {bytes : List UInt8} {body : Body} (h : body ∈ (blksOf F bytes).1) :
    body.Filled ∧ body.qc.rids ∈ ridsOf F bytes := by
  unfold blksOf at h
  unfold ridsOf
  split at h
  · exact absurd h List.not_mem_nil
  · exact readBlks_read F _ _ h

theorem ridsOf_covered {bytes : List UInt8} {rids : Bits} (h : rids ∈ ridsOf F bytes) :
    rids.Covered ↔ rids.nbits + 63 < 2 ^ 32 := by
  have hread : ∀ (k : ℕ) (bytes : List UInt8), rids ∈ readRids F k bytes →
      (rids.Covered ↔ rids.nbits + 63 < 2 ^ 32) := by
    intro k
    induction k with
    | zero => exact fun _ h => absurd h List.not_mem_nil
    | succ k ih =>
      intro bytes h
      rcases List.mem_append.mp h with h | h
      · exact decode_yields Body.unserializeRids_covered (Option.mem_toList.mp h)
      · split at h
        · exact absurd h List.not_mem_nil
        · exact ih _ h
  unfold ridsOf at h
  split at h
  · exact absurd h List.not_mem_nil
  · exact hread _ _ h

end MsgRespBlock

/-- The sentinel of `find_blk_hash_for_cid` and `decide_after_mc`, an array of one byte. -/
def negativeOne : List UInt8 := [0xFF]

/-- An access without a check: the entry of an id in `replica_map`, the first entry of
`parent_hashes` of a parsed or of a stored block, the first parents on the way down from a
block, what a call on the core indexes, the bits of a certificate, the word that `add_part`
writes to, the keys and values under the indices of the commands, or the sentinel taken as a
hash. -/
inductive Access where
  | replicaInfo (rid : ReplicaID)
  | parentHash (body : Body)
  | parentHashOf (blk : Hash)
  | ancestors
  | call (op : Op)
  | bits (rids : Bits)
  | word (qc : QuorumCert) (rid : ReplicaID)
  | args (blk : Hash)
  | negativeOne

def ReplicaConfig.Registered (c : ReplicaConfig) (rid : ReplicaID) : Prop :=
  (c.getPeerId rid).isSome = true

namespace Access

/-- The entry is there. A call has run into `parents`, `cluster_tracker_array` or `all_peers`
out of range when its outcome is undefined. -/
def InRange (C : Crypto) (s : Replica) : Access → Prop
  | .replicaInfo rid => s.config.Registered rid
  | .parentHash body => body.parentHashes ≠ []
  | .parentHashOf h => ∃ blk, s.storage.blkCache h = some blk ∧ blk.body.parentHashes ≠ []
  | .ancestors => ∀ bound b, (s.walk bound b).isSome = true
  | .call op => (s.exec C op).2 ≠ some .undefined
  | .bits rids => rids.Covered
  | .word qc rid => rid < qc.rids.data.length
  | .args h => ∃ blk, s.storage.blkCache h = some blk ∧ blk.body.Filled
  | .negativeOne => 32 ≤ AvaHotstuff.negativeOne.length

end Access

namespace Replica

def bitsOf (s : Replica) (h : Hash) : List Access :=
  (s.storage.blkCache h).toList.map fun blk => .bits blk.body.qc.rids

end Replica

/-- A block is logged and sent to the other clusters when it is committed, and logged and read
command by command when it is executed. -/
def Event.accesses (s : Replica) : Event → List Access
  | .consensus h => .parentHashOf h :: s.bitsOf h
  | .execute _ h => [.parentHashOf h, .args h]
  | _ => []

namespace Replica
variable (C : Crypto) (s : Replica)

def decidesAfterMc : Op → Bool
  | .receiveMcLocal prop x => s.completes prop x
  | .relayMc prop x => s.completes (s.propSameCluster prop) x
  | _ => false

def counts (h : Hash) (voter : ReplicaID) : Bool :=
  (s.storage.blkCache h).any fun blk =>
    blk.delivered && decide (blk.voted.card < s.config.nmajority ∧ voter ∉ blk.voted)

def selfQcOf (h : Hash) : QuorumCert :=
  ((s.storage.blkCache h).bind (·.selfQc)).getD (createQuorumCert s.config h)

/-- The votes that the call adds to a certificate. A proposer may vote for the block itself. -/
def addParts (op : Op) : List (QuorumCert × ReplicaID) :=
  match op with
  | .receiveVote v =>
    if s.counts v.blkHash v.voter then [(s.selfQcOf v.blkHash, v.voter)] else []
  | .receiveProposal _ blk =>
    if s.pmaker.proposer = s.id ∧ s.counts blk s.id then [(s.selfQcOf blk, s.id)] else []
  | .propose _ _ _ _ _ =>
    if s.pmaker.proposer = s.id then
      (s.proposes C op).toList.map fun h => (createQuorumCert s.config h, s.id)
    else []
  | _ => []

/-- The blocks that the call writes into messages, by their certificates. -/
def sentBits : Op → List Access
  | .propose _ _ _ _ _ => [.bits s.hqc.2.rids]
  | .relayMc prop _ =>
    if s.didReceiveMc prop.otherClusterBlockHeight then [] else s.bitsOf prop.blk
  | _ => []

def updates (op : Op) : Option Hash :=
  match op with
  | .receiveProposal _ blk => some blk
  | .propose _ _ _ _ _ => s.proposes C op
  | _ => none

/-- `do_vote` looks up the proposer of the pacemaker. The text of `safety breached` shows the
block to commit and `b_exec`. -/
def updateAccesses (op : Op) : List (Replica × Access) :=
  (s.updates C op).toList.flatMap fun h =>
    (if s.pmaker.proposer = s.id then [] else [(s, .replicaInfo s.pmaker.proposer)]) ++
      if (s.exec C op).2 = some .safetyBreached then
        (((s.exec C op).1.qcRef h).bind (s.exec C op).1.commitTarget).toList.map
            (fun b => ((s.exec C op).1, .parentHashOf b)) ++
          [((s.exec C op).1, .parentHashOf (s.exec C op).1.bExec)]
      else []

/-- The reads of a call, each with the state it is made in. `check_ancestry` may go down from any
tail, and the walks do not depend on what the call itself decides. -/
def accesses (op : Op) : List (Replica × Access) :=
  [(s, .call op), (s, .ancestors)] ++
    (if s.decidesAfterMc op then [(s, .negativeOne)] else []) ++
    (s.addParts C op).map (fun x => (s, .word x.1 x.2)) ++ (s.sentBits op).map (fun x => (s, x)) ++
    s.updateAccesses C op ++
    (((s.exec C op).1.trace.drop s.trace.length).flatMap (Event.accesses (s.exec C op).1)).map
      fun x => ((s.exec C op).1, x)

/-- `QuorumCertSecp256k1::verify` gets the key of each signer, if there are enough of them. -/
def verifyAccesses (blk : Body) : List (Replica × Access) :=
  if blk.qc.objHash = b0 ∨ blk.qc.sigs.length < s.config.nmajority then []
  else (s, .bits blk.qc.rids) :: blk.qc.rids.ids.map fun i => (s, .replicaInfo (i % 2 ^ 16))

def deliverAccesses (h : Hash) : List (Replica × Access) :=
  [(s, .call (.deliverBlk h)), (s, .parentHashOf h)]

/-- The check at the head of `propose_handler`. -/
def accepts (peer : PeerId) (prop : Proposal) : Bool :=
  decide (s.clusterId ≠ prop.clusterNumber) ||
    decide (s.config.getPeerId prop.proposer = some peer) || decide (3 ≤ prop.msgType)

end Replica

def Cont.op (C : Crypto) : Cont → Option Op
  | .proposal prop => some (.receiveProposal prop.proposer prop.blk)
  | .vote v => if v.verify C then some (.receiveVote v) else none
  | .lcomplain c => if c.verify C then some (.receiveLComplain c) else none
  | _ => none

/-- What a node meets: a message of a peer, or something else. In a message between clusters `x` is
what the unset loop variable happens to hold; `thrown` is the block of a `MsgRespBlock` at which a
continuation throws, if one does. -/
inductive Arrival where
  | propose (peer : PeerId) (bytes : List UInt8) (x : ℤ)
  | respBlock (bytes : List UInt8) (thrown : Option ℕ)
  | vote (peer : PeerId) (bytes : List UInt8)
  | lcomplain (peer : PeerId) (bytes : List UInt8)
  | recs (bytes : List UInt8)
  | recsAggEchoReady (bytes : List UInt8)
  | other (i : Input)

namespace Node
variable (C : Crypto) (F : SigFormat) (n : Node)

/-- The blocks stay in the cache when the parser throws after them. -/
def addBlks (bodies : List Body) : Node := bodies.foldl (fun n body => n.call C (.addBlk body)) n

def receive : Arrival → Node
  | .propose peer bytes x =>
    match decode (Proposal.unserialize F C.getHash) bytes with
    | some (prop, some body) => n.proposeHandler C peer prop body x
    | _ => n.addBlks C (Proposal.blkOf F bytes).toList
  | .respBlock bytes thrown =>
    if (MsgRespBlock.blksOf F bytes).2 then
      n.respBlkHandler C (MsgRespBlock.blksOf F bytes).1 thrown
    else n.addBlks C (MsgRespBlock.blksOf F bytes).1
  | .vote peer bytes =>
    match decode (Vote.unserialize F) bytes with
    | some v => n.voteHandler peer v
    | none => n
  | .lcomplain peer bytes =>
    match decode (Complain.unserialize F) bytes with
    | some c => n.lcomplainHandler peer c
    | none => n
  | .recs bytes =>
    match decode Recs.unserialize bytes with
    | some r => n.call C (.msgRecs r)
    | none => n
  | .recsAggEchoReady bytes =>
    match decode MsgRecsAggEchoReady.unserialize bytes with
    | some msg => n.call C (.msgRecsAggEchoReady msg)
    | none => n
  | .other i => n.step C i

def mcOp (peer : PeerId) (prop : Proposal) (x : ℤ) : Option Op :=
  if n.core.accepts peer prop then
    if prop.msgType = 1 then some (.relayMc prop x)
    else if prop.msgType = 2 then some (.receiveMcLocal prop x)
    else none
  else none

def proposeAccesses (peer : PeerId) (prop : Proposal) (x : ℤ) : List (Replica × Access) :=
  (if n.core.clusterId = prop.clusterNumber then [(n.core, .replicaInfo prop.proposer)] else []) ++
    (n.mcOp peer prop x).toList.flatMap (n.core.accesses C)

/-- The reads of a continuation. The second delivery is the one behind the log call. -/
def contAccesses : Cont → List (Replica × Access)
  | .start h _ =>
    match n.core.storage.blkCache h with
    | none => []
    | some blk => if h = b0 then [] else n.core.verifyAccesses blk.body
  | .deliver h valid => n.core.deliverAccesses h ++
    match n.onDeliverBlk h with
    | (m, none) => if valid then m.core.deliverAccesses h else []
    | (_, some _) => []
  | .respond blks _ => blks.flatMap fun h => (n.core.bitsOf h).map fun x => (n.core, x)
  | cont => (cont.op C).toList.flatMap (n.core.accesses C)

/-- The reads that a message of a peer leads to, at once and in the continuations that wait for
blocks and signatures. -/
def accesses : Arrival → List (Replica × Access)
  | .propose peer bytes x =>
    (Proposal.ridsOf bytes).toList.map (fun rids => (n.core, .bits rids)) ++
      (Proposal.blkOf F bytes).toList.map (fun body => (n.core, .parentHash body)) ++
      match decode (Proposal.unserialize F C.getHash) bytes with
      | some (prop, some body) => (n.call C (.addBlk body)).proposeAccesses C peer
          { prop with blk := C.getHash body } x
      | _ => []
  | .respBlock bytes _ =>
    (MsgRespBlock.ridsOf F bytes).map (fun rids => (n.core, .bits rids)) ++
      (MsgRespBlock.blksOf F bytes).1.map (fun body => (n.core, .parentHash body)) ++
      if (MsgRespBlock.blksOf F bytes).2 then (MsgRespBlock.blksOf F bytes).1.map fun body =>
        ((n.addBlks C (MsgRespBlock.blksOf F bytes).1).core, .parentHashOf (C.getHash body))
      else []
  | .vote _ bytes =>
    (decode (Vote.unserialize F) bytes).toList.map fun v => (n.core, .replicaInfo v.voter)
  | .lcomplain _ bytes =>
    (decode (Complain.unserialize F) bytes).toList.map fun c => (n.core, .replicaInfo c.voter)
  | .recs bytes =>
    (decode Recs.unserialize bytes).toList.flatMap fun r => n.core.accesses C (.msgRecs r)
  | .recsAggEchoReady bytes =>
    (decode MsgRecsAggEchoReady.unserialize bytes).toList.flatMap fun msg =>
      n.core.accesses C (.msgRecsAggEchoReady msg)
  | .other (.resume k) =>
    match n.pending[k]? with
    | some ⟨[], cont⟩ => n.contAccesses C cont
    | _ => []
  | .other (.call op) => n.core.accesses C op
  | .other _ => []

/-- The message is the last one that a height waits for. -/
def decidesAfterMc : Arrival → Bool
  | .propose peer bytes x =>
    match decode (Proposal.unserialize F C.getHash) bytes with
    | some (prop, some _) => (n.mcOp peer prop x).any n.core.decidesAfterMc
    | _ => false
  | _ => false

end Node

end AvaHotstuff
