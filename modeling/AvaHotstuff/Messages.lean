import Mathlib.Data.Int.Interval
import AvaHotstuff.Exec
import AvaHotstuff.Wire

set_option autoImplicit false

namespace AvaHotstuff
open Bytes

def IsInt (k : ℤ) : Prop := -2 ^ 31 ≤ k ∧ k < 2 ^ 31

theorem IsInt.parses {k : ℤ} (h : IsInt k) : Parses (readLeInt 4) (toLeInt 4 k) k := by
  obtain ⟨hlow, hhigh⟩ := h
  apply readLeInt_parses
  · push_cast
    omega
  · push_cast
    omega

namespace PartCert

def serialize (F : SigFormat) (pc : PartCert) : List UInt8 :=
  toLe 32 pc.objHash ++ F.serializeCompact pc.sig

def unserialize (F : SigFormat) : Parser PartCert := do
  let objHash ← readLe 32
  let sig ← F.unserialize
  pure ⟨objHash, sig⟩

structure Fits (F : SigFormat) (pc : PartCert) : Prop where
  objHash : pc.objHash < 2 ^ 256
  sig : F.Carries pc.sig

theorem Fits.parses {F : SigFormat} {pc : PartCert} (h : pc.Fits F) :
    Parses (unserialize F) (pc.serialize F) pc := by
  have hhash : pc.objHash < 256 ^ 32 := h.objHash
  exact (readLe_parses hhash).bind ((SigFormat.unserialize_parses h.sig).bind_pure
    fun sig => (⟨pc.objHash, sig⟩ : PartCert))

end PartCert

namespace Vote

def serialize (F : SigFormat) (v : Vote) : List UInt8 :=
  toLe 2 v.voter ++ (toLe 32 v.blkHash ++ v.cert.serialize F)

def unserialize (F : SigFormat) : Parser Vote := do
  let voter ← readLe 2
  let blkHash ← readLe 32
  let cert ← PartCert.unserialize F
  pure ⟨voter, blkHash, cert⟩

structure Fits (F : SigFormat) (v : Vote) : Prop where
  voter : v.voter < 2 ^ 16
  blkHash : v.blkHash < 2 ^ 256
  cert : v.cert.Fits F

theorem Fits.parses {F : SigFormat} {v : Vote} (h : v.Fits F) :
    Parses (unserialize F) (v.serialize F) v := by
  have hvoter : v.voter < 256 ^ 2 := h.voter
  have hhash : v.blkHash < 256 ^ 32 := h.blkHash
  exact (readLe_parses hvoter).bind ((readLe_parses hhash).bind
    (h.cert.parses.bind_pure fun cert => (⟨v.voter, v.blkHash, cert⟩ : Vote)))

end Vote

namespace Complain

def serialize (F : SigFormat) (c : Complain) : List UInt8 :=
  toLe 2 c.voter ++ (toLeInt 4 c.blkHeight ++ (toLe 32 c.blkHash ++ c.cert.serialize F))

def unserialize (F : SigFormat) : Parser Complain := do
  let voter ← readLe 2
  let blkHeight ← readLeInt 4
  let blkHash ← readLe 32
  let cert ← PartCert.unserialize F
  pure ⟨voter, blkHeight, blkHash, cert⟩

structure Fits (F : SigFormat) (c : Complain) : Prop where
  voter : c.voter < 2 ^ 16
  blkHeight : IsInt c.blkHeight
  blkHash : c.blkHash < 2 ^ 256
  cert : c.cert.Fits F

theorem Fits.parses {F : SigFormat} {c : Complain} (h : c.Fits F) :
    Parses (unserialize F) (c.serialize F) c := by
  have hvoter : c.voter < 256 ^ 2 := h.voter
  have hhash : c.blkHash < 256 ^ 32 := h.blkHash
  exact (readLe_parses hvoter).bind (h.blkHeight.parses.bind ((readLe_parses hhash).bind
    (h.cert.parses.bind_pure fun cert =>
      (⟨c.voter, c.blkHeight, c.blkHash, cert⟩ : Complain))))

end Complain

namespace Recs

def serialize (r : Recs) : List UInt8 :=
  toLeInt 4 r.clusterNumber ++ (toLeInt 4 r.nodeNumber ++ toLeInt 4 r.reconfigMode)

def unserialize : Parser Recs := do
  let clusterNumber ← readLeInt 4
  let nodeNumber ← readLeInt 4
  let reconfigMode ← readLeInt 4
  pure ⟨clusterNumber, nodeNumber, reconfigMode⟩

structure Fits (r : Recs) : Prop where
  clusterNumber : IsInt r.clusterNumber
  nodeNumber : IsInt r.nodeNumber
  reconfigMode : IsInt r.reconfigMode

theorem Fits.parses {r : Recs} (h : r.Fits) : Parses unserialize r.serialize r :=
  h.clusterNumber.parses.bind (h.nodeNumber.parses.bind (h.reconfigMode.parses.bind_pure
    fun mode => (⟨r.clusterNumber, r.nodeNumber, mode⟩ : Recs)))

end Recs

namespace Finality

def serialize (fin : Finality) : List UInt8 :=
  toLe 2 fin.rid ++ (toLeInt 1 fin.decision ++ (toLe 4 fin.cmdIdx ++ (toLe 4 fin.cmdHeight ++
    (toLe 32 fin.cmdHash ++ if fin.decision = 1 then toLe 32 fin.blkHash else []))))

/-- Only a decided command has a block; the field is zero otherwise. -/
def unserialize : Parser Finality := do
  let rid ← readLe 2
  let decision ← readLeInt 1
  let cmdIdx ← readLe 4
  let cmdHeight ← readLe 4
  let cmdHash ← readLe 32
  let blkHash ← if decision = 1 then readLe 32 else pure 0
  pure ⟨rid, decision, cmdIdx, cmdHeight, cmdHash, blkHash⟩

structure Fits (fin : Finality) : Prop where
  rid : fin.rid < 2 ^ 16
  cmdIdx : fin.cmdIdx < 2 ^ 32
  cmdHeight : fin.cmdHeight < 2 ^ 32
  cmdHash : fin.cmdHash < 2 ^ 256
  blkHash : fin.blkHash < 2 ^ 256

theorem Fits.parses {fin : Finality} (h : fin.Fits) (hdec : fin.decision = 1) :
    Parses unserialize fin.serialize fin := by
  have hrid : fin.rid < 256 ^ 2 := h.rid
  have hidx : fin.cmdIdx < 256 ^ 4 := h.cmdIdx
  have hheight : fin.cmdHeight < 256 ^ 4 := h.cmdHeight
  have hcmd : fin.cmdHash < 256 ^ 32 := h.cmdHash
  have hblk : fin.blkHash < 256 ^ 32 := h.blkHash
  have hlast : Parses (do
      let blkHash ← if fin.decision = 1 then readLe 32 else pure 0
      pure (⟨fin.rid, fin.decision, fin.cmdIdx, fin.cmdHeight, fin.cmdHash, blkHash⟩ : Finality))
      (if fin.decision = 1 then toLe 32 fin.blkHash else []) fin := by
    rw [if_pos hdec, if_pos hdec]
    exact (readLe_parses hblk).bind_pure fun blkHash =>
      (⟨fin.rid, fin.decision, fin.cmdIdx, fin.cmdHeight, fin.cmdHash, blkHash⟩ : Finality)
  have hdecision : Parses (readLeInt 1) (toLeInt 1 fin.decision) fin.decision := by
    rw [hdec]
    exact readLeInt_parses (by decide) (by decide)
  exact (readLe_parses hrid).bind (hdecision.bind ((readLe_parses hidx).bind
    ((readLe_parses hheight).bind ((readLe_parses hcmd).bind hlast))))

end Finality

namespace MsgReqBlock

def serialize (blkHashes : List Hash) : List UInt8 :=
  toLe 4 blkHashes.length ++ blkHashes.flatMap (toLe 32)

def unserialize : Parser (List Hash) := do
  let size ← readLe 4
  readMany (readLe 32) size

theorem parses {hs : List Hash} (hn : hs.length < 2 ^ 32) (h : ∀ x ∈ hs, x < 2 ^ 256) :
    Parses unserialize (serialize hs) hs := by
  have hcount : hs.length < 256 ^ 4 := hn
  exact (readLe_parses hcount).bind (Vectors.readHashes_parses h)

end MsgReqBlock

namespace QuorumCert

/-- The signature map has exactly the ids of the set bits. -/
structure Fits (F : SigFormat) (qc : QuorumCert) : Prop where
  objHash : qc.objHash < 2 ^ 256
  rids : qc.rids.Sized
  keys : ∀ i, (qc.sigs.lookup i).isSome = true ↔ i ∈ qc.rids.ids
  sigs : ∀ i σ, qc.sigs.lookup i = some σ → i < 2 ^ 16 ∧ F.Carries σ

variable {F : SigFormat} {qc : QuorumCert}

theorem Fits.lookup (h : qc.Fits F) {i : ℕ} (hi : i ∈ qc.rids.ids) :
    ∃ σ, qc.sigs.lookup i = some σ := Option.isSome_iff_exists.mp ((h.keys i).mpr hi)

theorem Fits.sound (h : qc.Fits F) : qc.Sound F := by
  refine ⟨h.objHash, h.rids, ?_, ?_⟩
  · intro i hi
    obtain ⟨σ, hσ⟩ := h.lookup hi
    exact (h.sigs i σ hσ).1
  · intro i hi
    obtain ⟨σ, hσ⟩ := h.lookup hi
    exact ⟨σ, hσ, (h.sigs i σ hσ).2⟩

theorem Fits.same (h : qc.Fits F) : Same qc qc.received :=
  (same_received_iff fun _ hi => h.lookup hi).mpr h.keys

end QuorumCert

namespace Body
variable (H : List UInt8 → Hash) (F : SigFormat)

/-- `salticidae::get_hash`: the digest of the serialized form. -/
def getHash (b : Body) : Hash := H ((b.serialize F).getD [])

structure Fits (b : Body) : Prop where
  vectors : b.vectors.Sized
  matched : b.vectors.Matched
  extra : b.extra.length < 2 ^ 32
  qc : b.qc.Fits F

structure Same (b b' : Body) : Prop where
  parentHashes : b'.parentHashes = b.parentHashes
  cmds : b'.cmds = b.cmds
  keys : b'.keys = b.keys
  vals : b'.vals = b.vals
  qc : b.qc.Same b'.qc
  extra : b'.extra = b.extra
  hash : b'.getHash H F = b.getHash H F

def received (b : Body) : Body := { b with qc := b.qc.received }

/-- `Block::unserialize` and `add_blk`, whose log line shows `parent_hashes[0]`; in a block
without parents nothing is there to read. -/
def receive (getHash : Body → Hash) : Parser (Hash × Body) := do
  let b ← unserialize F
  let _ ← StateT.lift b.parentHashes.head?
  pure (getHash b, b)

variable {H F} {b : Body}

theorem Fits.parses (h : b.Fits F) : ∃ bs, b.serialize F = some bs ∧
    Parses (unserialize F) bs b.received :=
  Body.parses h.vectors h.matched h.extra h.qc.sound

theorem Fits.same (h : b.Fits F) : Same H F b b.received := by
  refine ⟨rfl, rfl, rfl, rfl, h.qc.same, rfl, ?_⟩
  unfold getHash serialize received
  rw [h.qc.sound.serialize_received]
  rfl

theorem receive_parses (getHash : Body → Hash) {bs : List UInt8} {b' : Body}
    (hp : Parses (unserialize F) bs b') (hparents : b'.parentHashes ≠ []) :
    Parses (receive F getHash) bs (getHash b', b') := by
  obtain ⟨p, ps, hps⟩ := List.exists_cons_of_ne_nil hparents
  have hlift : Parses (do
      let _ ← StateT.lift b'.parentHashes.head?
      pure (getHash b', b')) [] (getHash b', b') := by
    have h := (Parses.lift (a := p) (show b'.parentHashes.head? = some p by rw [hps]; rfl)).bind
      (f := fun _ => pure (getHash b', b')) (.pure _)
    exact h
  have h := hp.bind (f := fun b => do
    let _ ← StateT.lift b.parentHashes.head?
    pure (getHash b, b)) hlift
  rwa [List.append_nil] at h

theorem receive_orphan (getHash : Body → Hash) {bs : List UInt8} {b' : Body}
    (hp : Parses (unserialize F) bs b') (hparents : b'.parentHashes = []) :
    Fails (receive F getHash) bs := by
  have hlift : Fails (do
      let _ ← StateT.lift b'.parentHashes.head?
      pure (getHash b', b')) [] := by
    rw [hparents]
    exact Fails.lift.bind _ []
  have h := hp.bind_fails (f := fun b => do
    let _ ← StateT.lift b.parentHashes.head?
    pure (getHash b, b)) hlift
  rwa [List.append_nil] at h

end Body

namespace MsgRespBlock
variable (F : SigFormat) (getHash : Body → Hash)

def serializeBlks : List Body → Option (List UInt8)
  | [] => some []
  | b :: bs => do
    let first ← b.serialize F
    let rest ← serializeBlks bs
    pure (first ++ rest)

def serialize (blks : List Body) : Option (List UInt8) :=
  (serializeBlks F blks).map fun bytes => toLe 4 blks.length ++ bytes

def unserialize : Parser (List (Hash × Body)) := do
  let size ← readLe 4
  readMany (Body.receive F getHash) size

variable {F} {blks : List Body}

theorem receive_blks (h : ∀ b ∈ blks, b.Fits F) : ∃ bytes, serializeBlks F blks = some bytes ∧
    if ∀ b ∈ blks, b.parentHashes ≠ [] then
      Parses (readMany (Body.receive F getHash) blks.length) bytes
        (blks.map fun b => (getHash b.received, b.received))
    else Fails (readMany (Body.receive F getHash) blks.length) bytes := by
  induction blks with
  | nil =>
    refine ⟨[], rfl, ?_⟩
    rw [if_pos (fun b hb => absurd hb List.not_mem_nil)]
    exact .pure []
  | cons b bs ih =>
    obtain ⟨first, hfirst, hp⟩ := (h b (List.mem_cons_self ..)).parses
    obtain ⟨rest, hrest, hps⟩ := ih fun c hc => h c (List.mem_cons_of_mem _ hc)
    refine ⟨first ++ rest, by rw [serializeBlks, hfirst, hrest]; rfl, ?_⟩
    by_cases hb : b.parentHashes = []
    · rw [if_neg (fun hall => hall b (List.mem_cons_self ..) hb)]
      exact (Body.receive_orphan getHash hp hb).bind _ rest
    · have hone := Body.receive_parses getHash hp hb
      by_cases hall : ∀ c ∈ bs, c.parentHashes ≠ []
      · rw [if_pos hall] at hps
        have hcons : ∀ c ∈ b :: bs, c.parentHashes ≠ [] := by
          intro c hc
          rcases List.mem_cons.mp hc with rfl | hc
          · exact hb
          · exact hall c hc
        rw [if_pos hcons]
        exact hone.bind (hps.bind_pure fun xs => _ :: xs)
      · rw [if_neg hall] at hps
        rw [if_neg (fun h => hall fun c hc => h c (List.mem_cons_of_mem _ hc))]
        have hfail := hps.bind (fun xs => pure ((getHash b.received, b.received) :: xs)) []
        rw [List.append_nil] at hfail
        exact hone.bind_fails hfail

end MsgRespBlock

namespace Proposal
variable (F : SigFormat) (getHash : Body → Hash)

/-- `peers` is the order in which the set is iterated. -/
def serialize (prop : Proposal) (body : Body) (peers : List ℤ) : Option (List UInt8) :=
  (body.serialize F).map fun blk =>
    toLe 4 prop.clusterNumber ++ (toLe 4 prop.preAmpClusterNumber ++
      (toLe 4 prop.otherClusterBlockHeight ++ (toLe 4 prop.msgType ++ (toLe 2 prop.proposer ++
        (blk ++ (toLe 8 peers.length ++ (peers.flatMap (toLeInt 4) ++
          toLeInt 4 prop.reconfigCount)))))))

/-- The block of the message. One of type 9 is parsed and dropped, and `blk` stays null. -/
def unserializeBlk (msgType : ℕ) : Parser (Option (Hash × Body)) :=
  if msgType = 9 then do
    let _ ← Body.unserialize F
    pure none
  else do
    let blk ← Body.receive F getHash
    pure (some blk)

def unserialize : Parser (Proposal × Option Body) := do
  let clusterNumber ← readLe 4
  let preAmpClusterNumber ← readLe 4
  let otherClusterBlockHeight ← readLe 4
  let msgType ← readLe 4
  let proposer ← readLe 2
  let blk ← unserializeBlk F getHash msgType
  let size ← readLe 8
  let peers ← readMany (readLeInt 4) size
  let reconfigCount ← readLe 4
  pure (⟨proposer, (blk.map Prod.fst).getD 0, clusterNumber, preAmpClusterNumber,
    otherClusterBlockHeight, msgType, peers.toFinset, reconfigCount⟩, blk.map Prod.snd)

structure Fits (prop : Proposal) : Prop where
  proposer : prop.proposer < 2 ^ 16
  clusterNumber : prop.clusterNumber < 2 ^ 32
  preAmpClusterNumber : prop.preAmpClusterNumber < 2 ^ 32
  otherClusterBlockHeight : prop.otherClusterBlockHeight < 2 ^ 32
  msgType : prop.msgType < 2 ^ 32
  currentPeerSet : ∀ k ∈ prop.currentPeerSet, IsInt k
  reconfigCount : 0 ≤ prop.reconfigCount ∧ prop.reconfigCount < 2 ^ 32

variable {F} {prop : Proposal} {peers : List ℤ}

/-- There are not more ints than a `size_t` can count. -/
theorem Fits.peers_length (h : prop.Fits) (hnd : peers.Nodup)
    (hpeers : peers.toFinset = prop.currentPeerSet) : peers.length < 256 ^ 8 := by
  have hsub : peers.toFinset ⊆ Finset.Ico (-2 ^ 31 : ℤ) (2 ^ 31) := by
    intro k hk
    rw [hpeers] at hk
    exact Finset.mem_Ico.mpr (h.currentPeerSet k hk)
  have hcard := Finset.card_le_card hsub
  rw [List.toFinset_card_of_nodup hnd, Int.card_Ico] at hcard
  omega

theorem Fits.parses_rest (h : prop.Fits) (hnd : peers.Nodup)
    (hpeers : peers.toFinset = prop.currentPeerSet) (blk : Option (Hash × Body)) :
    Parses (do
      let size ← readLe 8
      let peers ← readMany (readLeInt 4) size
      let reconfigCount ← readLe 4
      pure ((⟨prop.proposer, (blk.map Prod.fst).getD 0, prop.clusterNumber,
        prop.preAmpClusterNumber, prop.otherClusterBlockHeight, prop.msgType, peers.toFinset,
        reconfigCount⟩ : Proposal), blk.map Prod.snd))
      (toLe 8 peers.length ++ (peers.flatMap (toLeInt 4) ++ toLeInt 4 prop.reconfigCount))
      ({ prop with blk := (blk.map Prod.fst).getD 0 }, blk.map Prod.snd) := by
  have hints : ∀ k ∈ peers, -2 ^ 31 ≤ k ∧ k < 2 ^ 31 := by
    intro k hk
    apply h.currentPeerSet
    rw [← hpeers]
    exact List.mem_toFinset.mpr hk
  have hcount : Parses (readLe 4) (toLeInt 4 prop.reconfigCount) prop.reconfigCount.toNat := by
    obtain ⟨hlow, hhigh⟩ := h.reconfigCount
    have hmod : prop.reconfigCount % (256 ^ 4 : ℕ) = prop.reconfigCount :=
      Int.emod_eq_of_lt hlow (by push_cast; omega)
    unfold toLeInt
    rw [hmod]
    exact readLe_parses (by omega)
  have hback : (prop.reconfigCount.toNat : ℤ) = prop.reconfigCount :=
    Int.toNat_of_nonneg h.reconfigCount.1
  have hlast := (Vectors.readInts_parses rfl hints).bind (f := fun peers => do
    let reconfigCount ← readLe 4
    pure ((⟨prop.proposer, (blk.map Prod.fst).getD 0, prop.clusterNumber,
      prop.preAmpClusterNumber, prop.otherClusterBlockHeight, prop.msgType, peers.toFinset,
      reconfigCount⟩ : Proposal), blk.map Prod.snd)) (hcount.bind_pure _)
  rw [hback, hpeers] at hlast
  exact (readLe_parses (h.peers_length hnd hpeers)).bind hlast

/-- How a proposal is read whose block `body` arrives as `body'`. -/
theorem Fits.parses (h : prop.Fits) (hnd : peers.Nodup)
    (hpeers : peers.toFinset = prop.currentPeerSet) {body body' : Body} {blk : List UInt8}
    (hblk : body.serialize F = some blk) (hp : Parses (Body.unserialize F) blk body') :
    ∃ bs, prop.serialize F body peers = some bs ∧
      if prop.msgType = 9 then Parses (unserialize F getHash) bs ({ prop with blk := 0 }, none)
      else if body'.parentHashes = [] then Fails (unserialize F getHash) bs
      else Parses (unserialize F getHash) bs
        ({ prop with blk := getHash body' }, some body') := by
  have hc : prop.clusterNumber < 256 ^ 4 := h.clusterNumber
  have hpre : prop.preAmpClusterNumber < 256 ^ 4 := h.preAmpClusterNumber
  have ho : prop.otherClusterBlockHeight < 256 ^ 4 := h.otherClusterBlockHeight
  have hm : prop.msgType < 256 ^ 4 := h.msgType
  have hr : prop.proposer < 256 ^ 2 := h.proposer
  refine ⟨_, by rw [serialize, hblk]; rfl, ?_⟩
  by_cases h9 : prop.msgType = 9
  · have hnone : Parses (unserializeBlk F getHash prop.msgType) blk none := by
      unfold unserializeBlk
      rw [if_pos h9]
      exact hp.bind_pure fun _ => none
    rw [if_pos h9]
    exact (readLe_parses hc).bind ((readLe_parses hpre).bind ((readLe_parses ho).bind
      ((readLe_parses hm).bind ((readLe_parses hr).bind
        (hnone.bind (h.parses_rest hnd hpeers none))))))
  rw [if_neg h9]
  by_cases hparents : body'.parentHashes = []
  · rw [if_pos hparents]
    have hfail : Fails (unserializeBlk F getHash prop.msgType) blk := by
      have hb' := (Body.receive_orphan getHash hp hparents).bind (fun blk => pure (some blk)) []
      unfold unserializeBlk
      rw [if_neg h9]
      rwa [List.append_nil] at hb'
    exact (readLe_parses hc).bind_fails ((readLe_parses hpre).bind_fails
      ((readLe_parses ho).bind_fails ((readLe_parses hm).bind_fails
        ((readLe_parses hr).bind_fails (hfail.bind _ _)))))
  · rw [if_neg hparents]
    have hone : Parses (unserializeBlk F getHash prop.msgType) blk
        (some (getHash body', body')) := by
      unfold unserializeBlk
      rw [if_neg h9]
      exact (Body.receive_parses getHash hp hparents).bind_pure some
    exact (readLe_parses hc).bind ((readLe_parses hpre).bind ((readLe_parses ho).bind
      ((readLe_parses hm).bind ((readLe_parses hr).bind
        (hone.bind (h.parses_rest hnd hpeers (some _)))))))

end Proposal

/-- What one replica sends another, or its client. The peers of a proposal are listed in the
order in which the set is iterated. -/
inductive WireMsg where
  | propose (prop : Proposal) (body : Body) (peers : List ℤ)
  | vote (v : Vote)
  | lcomplain (c : Complain)
  | rcomplain (c : Complain)
  | recs (r : Recs)
  | finality (fin : Finality)
  | reqBlock (blkHashes : List Hash)
  | respBlock (blks : List Body)

namespace WireMsg
variable (H : List UInt8 → Hash) (F : SigFormat)

/-- The message is one of its types, and the wire has room for its lengths. -/
def Fits : WireMsg → Prop
  | .propose prop body peers => prop.Fits ∧ prop.msgType ≠ 9 ∧ body.Fits F ∧
      prop.blk = body.getHash H F ∧ peers.Nodup ∧ peers.toFinset = prop.currentPeerSet
  | .vote v => v.Fits F
  | .lcomplain c | .rcomplain c => c.Fits F
  | .recs r => r.Fits
  | .finality fin => fin.Fits ∧ fin.decision = 1
  | .reqBlock hs => hs.length < 2 ^ 32 ∧ ∀ h ∈ hs, h < 2 ^ 256
  | .respBlock blks => blks.length < 2 ^ 32 ∧ ∀ b ∈ blks, b.Fits F

/-- Decoding the encoded message takes its bytes, whatever follows them, and gives the message
back. -/
def RoundTrips : WireMsg → Prop
  | .propose prop body peers => ∃ bs body', prop.serialize F body peers = some bs ∧
      body.Same H F body' ∧
      Parses (Proposal.unserialize F (Body.getHash H F)) bs (prop, some body')
  | .vote v => Parses (Vote.unserialize F) (v.serialize F) v
  | .lcomplain c | .rcomplain c => Parses (Complain.unserialize F) (c.serialize F) c
  | .recs r => Parses Recs.unserialize r.serialize r
  | .finality fin => Parses Finality.unserialize fin.serialize fin
  | .reqBlock hs => Parses MsgReqBlock.unserialize (MsgReqBlock.serialize hs) hs
  | .respBlock blks => ∃ bs got, MsgRespBlock.serialize F blks = some bs ∧
      List.Forall₂ (fun b (x : Hash × Body) => x.1 = b.getHash H F ∧ b.Same H F x.2) blks got ∧
      Parses (MsgRespBlock.unserialize F (Body.getHash H F)) bs got

def HasParents : WireMsg → Prop
  | .propose _ body _ => body.parentHashes ≠ []
  | .respBlock blks => ∀ b ∈ blks, b.parentHashes ≠ []
  | _ => True

variable {H F}

theorem propose_iff {prop : Proposal} {body : Body} {peers : List ℤ}
    (h : Fits H F (.propose prop body peers)) :
    RoundTrips H F (.propose prop body peers) ↔ body.parentHashes ≠ [] := by
  obtain ⟨hprop, h9, hb, hhash, hnd, hpeers⟩ := h
  obtain ⟨blk, hblk, hread⟩ := hb.parses
  obtain ⟨bs, hbs, hp⟩ := hprop.parses (Body.getHash H F) hnd hpeers hblk hread
  rw [if_neg h9] at hp
  constructor
  · rintro ⟨bs', body', hbs', -, hparse⟩ hnil
    obtain rfl : bs = bs' := Option.some.inj (hbs.symm.trans hbs')
    rw [if_pos (show body.received.parentHashes = [] from hnil)] at hp
    have hnone := hp []
    rw [hparse []] at hnone
    cases hnone
  · intro hparents
    rw [if_neg (show body.received.parentHashes ≠ [] from hparents), hb.same.hash, ← hhash] at hp
    exact ⟨bs, body.received, hbs, hb.same, hp⟩

theorem respBlock_iff {blks : List Body} (h : Fits H F (.respBlock blks)) :
    RoundTrips H F (.respBlock blks) ↔ ∀ b ∈ blks, b.parentHashes ≠ [] := by
  obtain ⟨hcount, hb⟩ := h
  have hn : blks.length < 256 ^ 4 := hcount
  obtain ⟨bytes, hbytes, hp⟩ := MsgRespBlock.receive_blks (Body.getHash H F) hb
  have hser : MsgRespBlock.serialize F blks = some (toLe 4 blks.length ++ bytes) := by
    rw [MsgRespBlock.serialize, hbytes]
    rfl
  constructor
  · rintro ⟨bs, got, hbs, -, hparse⟩
    obtain rfl : toLe 4 blks.length ++ bytes = bs := Option.some.inj (hser.symm.trans hbs)
    by_contra hall
    rw [if_neg hall] at hp
    have hnone := (readLe_parses hn).bind_fails hp []
    rw [show (readLe 4 >>= fun n => readMany (Body.receive F (Body.getHash H F)) n).run
      (toLe 4 blks.length ++ bytes ++ []) = some (got, []) from hparse []] at hnone
    cases hnone
  · intro hall
    rw [if_pos hall] at hp
    refine ⟨_, _, hser, ?_, (readLe_parses hn).bind hp⟩
    rw [List.forall₂_map_right_iff, List.forall₂_same]
    intro b hmem
    exact ⟨(hb b hmem).same.hash, (hb b hmem).same⟩

end WireMsg

/-- Exactly the messages whose blocks have parents come back as they were sent, hash and
certificate included, and decoding takes their bytes and no more. -/
theorem wire_round_trip (H : List UInt8 → Hash) (F : SigFormat) (m : WireMsg)
    (h : m.Fits H F) : m.RoundTrips H F ↔ m.HasParents := by
  cases m with
  | propose prop body peers => exact WireMsg.propose_iff h
  | respBlock blks => exact WireMsg.respBlock_iff h
  | vote v => exact iff_of_true (Vote.Fits.parses h) trivial
  | lcomplain c => exact iff_of_true (Complain.Fits.parses h) trivial
  | rcomplain c => exact iff_of_true (Complain.Fits.parses h) trivial
  | recs r => exact iff_of_true (Recs.Fits.parses h) trivial
  | finality fin => exact iff_of_true (h.1.parses h.2) trivial
  | reqBlock hs => exact iff_of_true (MsgReqBlock.parses h.1 h.2) trivial

theorem QuorumCert.sample_fits {h : Hash} (hh : h < 2 ^ 256) :
    (QuorumCert.sample h).Fits .sample := by
  have hids : (QuorumCert.sample h).rids.ids = [0, 1, 2] :=
    (by decide : (QuorumCert.sample 0).rids.ids = [0, 1, 2])
  have hcarries : SigFormat.sample.Carries h := SigFormat.sample_carries (hh.trans (by decide))
  refine ⟨hh, (((Bits.Sized.cleared (by decide)).set 0).set 1).set 2, ?_, ?_⟩
  · intro i
    rw [hids]
    match i with
    | 0 | 1 | 2 => exact iff_of_true rfl (by decide)
    | i + 3 => exact iff_of_false Bool.false_ne_true (by simp)
  · intro i σ hσ
    match i, hσ with
    | 0, hσ => exact ⟨by decide, Option.some.inj hσ ▸ hcarries⟩
    | 1, hσ => exact ⟨by decide, Option.some.inj hσ ▸ hcarries⟩
    | 2, hσ => exact ⟨by decide, Option.some.inj hσ ▸ hcarries⟩

def Body.above (parents : List Hash) : Body := ⟨parents, [7], [1], [2], .sample 0, []⟩

theorem Body.above_fits {parents : List Hash} (hn : parents.length < 2 ^ 32)
    (hp : ∀ h ∈ parents, h < 2 ^ 256) : (Body.above parents).Fits .sample := by
  refine ⟨⟨hn, (by decide : 1 < 2 ^ 32), hp, ?_, ?_, ?_⟩, ⟨rfl, rfl⟩, (by decide : 0 < 2 ^ 32), ?_⟩
  · exact (by decide : ∀ h ∈ [7], h < 2 ^ 256)
  · exact (by decide : ∀ k ∈ [(1 : ℤ)], -2 ^ 31 ≤ k ∧ k < 2 ^ 31)
  · exact (by decide : ∀ k ∈ [(2 : ℤ)], -2 ^ 31 ≤ k ∧ k < 2 ^ 31)
  · exact QuorumCert.sample_fits (by decide)

def proposeAbove (parents : List Hash) : WireMsg :=
  .propose ⟨3, (Body.above parents).getHash List.length .sample, 0, 0, 1, 1, {-1, 5}, 2⟩
    (.above parents) [5, -1]

theorem proposeAbove_fits {parents : List Hash} (hn : parents.length < 2 ^ 32)
    (hp : ∀ h ∈ parents, h < 2 ^ 256) : (proposeAbove parents).Fits List.length .sample := by
  refine ⟨⟨(by decide : 3 < 2 ^ 16), (by decide : 0 < 2 ^ 32), (by decide : 0 < 2 ^ 32),
    (by decide : 1 < 2 ^ 32), (by decide : 1 < 2 ^ 32), ?_,
    (by decide : (0 : ℤ) ≤ 2 ∧ (2 : ℤ) < 2 ^ 32)⟩, (by decide : 1 ≠ 9), Body.above_fits hn hp, rfl,
    by decide, ?_⟩
  · exact (by decide : ∀ k ∈ ({-1, 5} : Finset ℤ), -2 ^ 31 ≤ k ∧ k < 2 ^ 31)
  · exact (by decide : [5, -1].toFinset = ({-1, 5} : Finset ℤ))

theorem wire_round_trip_parent : (proposeAbove [0]).RoundTrips List.length .sample := by
  apply (wire_round_trip List.length .sample (proposeAbove [0]) ?_).mpr
  · exact List.cons_ne_nil 0 []
  · exact proposeAbove_fits (by decide) (by decide)

/-- A proposal of a block without parents, and such a block among the requested ones, are
encoded and cannot be decoded. -/
theorem orphan_not_decoded :
    ((proposeAbove []).Fits List.length .sample ∧
      ¬(proposeAbove []).RoundTrips List.length .sample) ∧
    (WireMsg.respBlock [.above [0], .above []]).Fits List.length .sample ∧
      ¬(WireMsg.respBlock [.above [0], .above []]).RoundTrips List.length .sample := by
  have hpropose := @proposeAbove_fits [] (by decide) (by decide)
  have hresp : (WireMsg.respBlock [.above [0], .above []]).Fits List.length .sample := by
    refine ⟨by decide, ?_⟩
    intro b hb
    have hcases : b = .above [0] ∨ b = .above [] := by simpa using hb
    rcases hcases with rfl | rfl
    · exact Body.above_fits (by decide) (by decide)
    · exact Body.above_fits (by decide) (by decide)
  refine ⟨⟨hpropose, ?_⟩, hresp, ?_⟩
  · intro h
    exact (WireMsg.propose_iff hpropose).mp h rfl
  · intro h
    exact (WireMsg.respBlock_iff hresp).mp h (.above []) (by simp) rfl

end AvaHotstuff
