import AvaHotstuff.CommandVectors
import AvaHotstuff.Delivery
import AvaHotstuff.Messages

set_option autoImplicit false

namespace AvaHotstuff
open Bytes

/-- What the fields happen to hold that the constructor leaves unset. -/
structure Unset where
  clusterNumber : ℕ
  preAmpClusterNumber : ℕ
  msgType : ℕ
  reconfigCount : ℕ

structure Unset.Fits (u : Unset) : Prop where
  clusterNumber : u.clusterNumber < 2 ^ 32
  preAmpClusterNumber : u.preAmpClusterNumber < 2 ^ 32
  msgType : u.msgType < 2 ^ 32
  reconfigCount : u.reconfigCount < 2 ^ 32

/-- The three-argument constructor. The height is minus one, as a `uint32_t`. -/
def Proposal.ofBlk (proposer : ReplicaID) (blk : Hash) (u : Unset) : Proposal where
  proposer := proposer
  blk := blk
  clusterNumber := u.clusterNumber
  preAmpClusterNumber := u.preAmpClusterNumber
  otherClusterBlockHeight := 2 ^ 32 - 1
  msgType := u.msgType
  currentPeerSet := ∅
  reconfigCount := u.reconfigCount

theorem Proposal.ofBlk_fits {rid : ReplicaID} (hrid : rid < 2 ^ 16) (blk : Hash) {u : Unset}
    (h : u.Fits) : (Proposal.ofBlk rid blk u).Fits := by
  refine ⟨hrid, h.clusterNumber, h.preAmpClusterNumber, ?_, h.msgType, ?_, ?_⟩
  · exact (by decide : 2 ^ 32 - 1 < 2 ^ 32)
  · exact fun k hk => absurd hk (Finset.notMem_empty k)
  · have hcount := h.reconfigCount
    constructor
    · exact Int.natCast_nonneg _
    · change (u.reconfigCount : ℤ) < 2 ^ 32
      omega

namespace Node

/-- `propose_handler` from the bytes on. Whatever the parser throws, and a null block, ends
the handler. -/
def onMsgPropose (C : Crypto) (F : SigFormat) (n : Node) (peer : PeerId) (bytes : List UInt8)
    (x : ℤ) : Node :=
  match (Proposal.unserialize F C.getHash).run bytes with
  | some ((prop, some body), _) => n.proposeHandler C peer prop body x
  | _ => n

/-- `async_deliver_blk` for a proposed block, with `on_receive_proposal` to follow. -/
def takeUp (C : Crypto) (n : Node) (peer : PeerId) (prop : Proposal) (body : Body) : Node :=
  let (n, deps) := (n.call C (.addBlk body)).asyncDeliverBlk (C.getHash body) peer
  n.await deps (.proposal { prop with blk := C.getHash body })

theorem asyncDeliverBlk_pending_length (n : Node) (h : Hash) (peer : PeerId) :
    n.pending.length ≤ (n.asyncDeliverBlk h peer).1.pending.length := by
  unfold asyncDeliverBlk asyncFetchBlk addReplica note
  simp only []
  repeat' split
  all_goals simp [await]

theorem takeUp_pending_length (C : Crypto) (n : Node) (peer : PeerId) (prop : Proposal)
    (body : Body) : n.pending.length < (n.takeUp C peer prop body).pending.length := by
  have hdeliver := (n.call C (.addBlk body)).asyncDeliverBlk_pending_length (C.getHash body) peer
  rw [call_pending] at hdeliver
  unfold takeUp await
  simp only [List.length_append, List.length_singleton]
  omega

/-- From the connection of its proposer, a message is taken up as a proposal unless its type
is 1, 2 or 9. -/
theorem proposeHandler_eq_takeUp (C : Crypto) (n : Node) {peer : PeerId} {prop : Proposal}
    (body : Body) (x : ℤ) (hpeer : n.core.config.getPeerId prop.proposer = some peer) :
    n.proposeHandler C peer prop body x = n.takeUp C peer prop body ↔
      prop.msgType ≠ 1 ∧ prop.msgType ≠ 2 ∧ prop.msgType ≠ 9 := by
  have hlen := n.takeUp_pending_length C peer prop body
  have hconfig : (n.call C (.addBlk body)).core.config = n.core.config := by
    rw [call_core]
    rfl
  have hdispatch : prop.msgType ≠ 9 → n.proposeHandler C peer prop body x =
      (n.call C (.addBlk body)).dispatch C peer { prop with blk := C.getHash body } x := by
    intro h9
    unfold proposeHandler
    rw [if_neg h9]
    simp only [hconfig, hpeer, ne_eq, not_true_eq_false, false_and, if_false, ite_self]
  have hother : ∀ op, (((n.call C (.addBlk body)).call C op)).pending.length =
      n.pending.length := by
    intro op
    rw [call_pending, call_pending]
  by_cases h9 : prop.msgType = 9
  · refine iff_of_false ?_ fun h => h.2.2 h9
    intro heq
    rw [proposeHandler, if_pos h9] at heq
    rw [← heq] at hlen
    omega
  rw [hdispatch h9]
  by_cases h1 : prop.msgType = 1
  · refine iff_of_false ?_ fun h => h.1 h1
    intro heq
    rw [dispatch, if_pos h1] at heq
    rw [← heq, hother] at hlen
    omega
  by_cases h2 : prop.msgType = 2
  · refine iff_of_false ?_ fun h => h.2.1 h2
    intro heq
    rw [dispatch, if_neg h1, if_pos h2] at heq
    rw [← heq, hother] at hlen
    omega
  · refine iff_of_true ?_ ⟨h1, h2, h9⟩
    rw [dispatch, if_neg h1, if_neg h2]
    rfl

end Node

/-- What a replica broadcasts for its own block, from the connection of that replica, is
delivered and handled as a proposal exactly when the unset `msg_type` happens not to hold 1, 2
or 9. -/
theorem ordinary_proposal_iff (C : Crypto) (F : SigFormat) (s : Replica) (n : Node)
    (peer : PeerId) (u : Unset) (cmds : List Hash) (keys vals : List ℤ) (parents : List Hash)
    (extra : List UInt8) (body : Body)
    (hsent : (s.onPropose C cmds keys vals parents extra).2 = none)
    (hbody : body = ⟨parents, cmds, keys, vals, s.hqc.2, extra⟩)
    (hid : s.id < 2 ^ 16) (hu : u.Fits) (hsized : body.vectors.Sized)
    (hmatched : body.vectors.Matched) (hextra : extra.length < 2 ^ 32) (hqc : s.hqc.2.Sound F)
    (hhash : ∀ b b' : Body, b.serialize F = b'.serialize F → C.getHash b = C.getHash b')
    (hpeer : n.core.config.getPeerId s.id = some peer) :
    ∃ bs, (Proposal.ofBlk s.id (C.getHash body) u).serialize F body [] = some bs ∧
      C.getHash body.received = C.getHash body ∧
      ∀ x, n.onMsgPropose C F peer bs x =
          n.takeUp C peer (.ofBlk s.id (C.getHash body) u) body.received ↔
        u.msgType ≠ 1 ∧ u.msgType ≠ 2 ∧ u.msgType ≠ 9 := by
  have hparents : parents ≠ [] := by
    rintro rfl
    cases hsent
  have hqc' : body.qc = s.hqc.2 := by rw [hbody]
  rw [← hqc'] at hqc
  have hex : body.extra.length < 2 ^ 32 := by rw [hbody]; exact hextra
  obtain ⟨blk, hblk, hp⟩ := Body.parses hsized hmatched hex hqc
  change Parses (Body.unserialize F) blk body.received at hp
  have hsame : C.getHash body.received = C.getHash body := by
    apply hhash
    unfold Body.received Body.serialize
    rw [hqc.serialize_received]
    rfl
  obtain ⟨bs, hbs, hread⟩ := (Proposal.ofBlk_fits hid (C.getHash body) hu).parses C.getHash
    List.nodup_nil rfl hblk hp
  refine ⟨bs, hbs, hsame, ?_⟩
  intro x
  by_cases h9 : u.msgType = 9
  · refine iff_of_false ?_ fun h => h.2.2 h9
    intro heq
    rw [if_pos (show (Proposal.ofBlk s.id (C.getHash body) u).msgType = 9 from h9)] at hread
    have hrun := hread []
    rw [List.append_nil] at hrun
    have hlen := n.takeUp_pending_length C peer (.ofBlk s.id (C.getHash body) u) body.received
    rw [← heq, Node.onMsgPropose, hrun] at hlen
    exact lt_irrefl _ hlen
  · have hne : body.received.parentHashes ≠ [] := by
      change body.parentHashes ≠ []
      rw [hbody]
      exact hparents
    rw [if_neg (show (Proposal.ofBlk s.id (C.getHash body) u).msgType ≠ 9 from h9),
      if_neg hne] at hread
    have hrun := hread []
    rw [List.append_nil] at hrun
    rw [Node.onMsgPropose, hrun]
    exact n.proposeHandler_eq_takeUp C body.received x hpeer

def firstBody : Body := ⟨[b0], [7], [1], [2], createQuorumCert (Setup.four 0).config b0, []⟩

theorem ordinary_proposal_iff_seven : ∃ bs,
    (Proposal.ofBlk 0 (Crypto.digest.getHash firstBody) ⟨5, 6, 7, 8⟩).serialize .sample firstBody []
        = some bs ∧
      (Node.start (.four 1)).onMsgPropose .digest .sample 0 bs 0 =
        (Node.start (.four 1)).takeUp .digest 0
          (.ofBlk 0 (Crypto.digest.getHash firstBody) ⟨5, 6, 7, 8⟩) firstBody.received := by
  have hids : (createQuorumCert (Setup.four 0).config b0).rids.ids = [] := by decide
  have hqc : (createQuorumCert (Setup.four 0).config b0).Sound .sample := by
    refine ⟨by decide, .cleared (by decide), ?_, ?_⟩
    · intro i hi
      rw [hids] at hi
      exact absurd hi List.not_mem_nil
    · intro i hi
      rw [hids] at hi
      exact absurd hi List.not_mem_nil
  obtain ⟨bs, hbs, -, hiff⟩ := ordinary_proposal_iff .digest .sample (Setup.four 0).start
    (.start (.four 1)) 0 ⟨5, 6, 7, 8⟩ [7] [1] [2] [b0] [] firstBody (by decide +kernel) rfl
    (by decide) ⟨by decide, by decide, by decide, by decide⟩
    ⟨by decide, by decide, by decide, by decide, by decide, by decide⟩ ⟨rfl, rfl⟩ (by decide) hqc
    (fun b b' h => congrArg (fun o => ofLe (o.getD []) % (2 ^ 255 - 19)) h) (by decide)
  exact ⟨bs, hbs, (hiff 0).mpr (by decide)⟩

def receivedWith (msgType : ℕ) : Node :=
  (Node.start (.four 1)).onMsgPropose .digest .sample 0
    (((Proposal.ofBlk 0 (Crypto.digest.getHash firstBody) ⟨0, 1, msgType, 8⟩).serialize .sample
      firstBody []).getD []) 0

/-- With 9 in `msg_type` the message is dropped, with 1 it is relayed to the peers as a message
of another cluster, and with 2 it is counted as one; no proposal is waiting for its block
afterwards. -/
theorem ordinary_proposal_lost :
    (receivedWith 9).pending = [] ∧ (receivedWith 1).pending = [] ∧
      (receivedWith 2).pending = [] ∧
      ((Node.start (.four 1)).takeUp .digest 0
        (.ofBlk 0 (Crypto.digest.getHash firstBody) ⟨0, 1, 9, 8⟩) firstBody.received).pending ≠ [] ∧
      (receivedWith 1).core.trace.any (fun e => match e with
        | .relay _ _ => true
        | _ => false) = true ∧
      (receivedWith 2).core.mc.clusteridToReconfigCount 1 = 8 := by
  decide +kernel

end AvaHotstuff
