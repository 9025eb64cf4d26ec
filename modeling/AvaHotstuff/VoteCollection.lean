import AvaHotstuff.QuorumReached
import AvaHotstuff.Recertification

set_option autoImplicit false

namespace AvaHotstuff

/-- The votes without those of a voter that has voted before. -/
def firstVotes (votes : List Vote) : List Vote :=
  votes.foldl (fun seen v => if v.voter ∈ seen.map (·.voter) then seen else seen ++ [v]) []

theorem firstVotes_concat (votes : List Vote) (v : Vote) : firstVotes (votes ++ [v]) =
    if v.voter ∈ (firstVotes votes).map (·.voter) then firstVotes votes
    else firstVotes votes ++ [v] := by
  unfold firstVotes
  rw [List.foldl_append]
  rfl

theorem firstVotes_voters (votes : List Vote) :
    ∀ rid, rid ∈ (firstVotes votes).map (·.voter) ↔ rid ∈ votes.map (·.voter) := by
  induction votes using List.reverseRecOn with
  | nil => exact fun _ => Iff.rfl
  | append_singleton votes v ih =>
    intro rid
    rw [firstVotes_concat, List.map_append, List.mem_append, ← ih rid]
    split
    · rename_i hold
      constructor
      · exact Or.inl
      · rintro (hrid | hrid)
        · exact hrid
        · rw [List.mem_singleton.mp hrid]
          exact hold
    · rw [List.map_append, List.mem_append]

theorem firstVotes_nodup (votes : List Vote) : ((firstVotes votes).map (·.voter)).Nodup := by
  induction votes using List.reverseRecOn with
  | nil => exact List.nodup_nil
  | append_singleton votes v ih =>
    rw [firstVotes_concat]
    split
    · exact ih
    · rename_i hnew
      rw [List.map_append, List.map_singleton, List.nodup_append]
      refine ⟨ih, List.nodup_singleton _, ?_⟩
      intro rid hrid rid' hrid'
      rw [List.mem_singleton.mp hrid']
      rintro rfl
      exact hnew hrid

namespace Replica

def receiveVotes (s : Replica) (votes : List Vote) : Replica :=
  votes.foldl (fun s v => (s.onReceiveVote v).1) s

theorem receiveVotes_append (s : Replica) (votes : List Vote) (v : Vote) :
    s.receiveVotes (votes ++ [v]) = ((s.receiveVotes votes).onReceiveVote v).1 := by
  unfold receiveVotes
  rw [List.foldl_append]
  rfl

/-- The replica with other votes for one block; nothing else of it is touched. -/
def collected (s : Replica) (h : Hash) (voted : Finset ReplicaID) (selfQc : Option QuorumCert) :
    Replica :=
  s.modifyBlk h fun b => { b with voted := voted, selfQc := selfQc }

section
variable {s : Replica} {h : Hash} {blk : Block} {voted : Finset ReplicaID}
  {selfQc : Option QuorumCert}

theorem collected_cache (hblk : s.storage.blkCache h = some blk) :
    (s.collected h voted selfQc).storage.blkCache h =
      some { blk with voted := voted, selfQc := selfQc } := by
  unfold collected modifyBlk
  simp [hblk]

theorem collected_ballot (hblk : s.storage.blkCache h = some blk) :
    (s.collected h voted selfQc).storage.ballot h = (selfQc, voted) :=
  ballot_of_cache (collected_cache hblk)

theorem collected_self (hblk : s.storage.blkCache h = some blk) :
    s.collected h blk.voted blk.selfQc = s := by
  unfold collected modifyBlk
  rw [hblk, Option.map_some, Function.update_eq_self_iff.mpr hblk.symm]

theorem collected_idem (voted' : Finset ReplicaID) (selfQc' : Option QuorumCert) :
    (s.collected h voted' selfQc').collected h voted selfQc = s.collected h voted selfQc := by
  unfold collected modifyBlk
  simp only [Function.update_self, Function.update_idem, Option.map_map]
  rfl

theorem addVote_collected {v : Vote} {qc : QuorumCert}
    (hblk : s.storage.blkCache v.blkHash = some blk)
    (hadd : (blk.selfQc.getD (createQuorumCert s.config v.blkHash)).addPart v.voter v.cert =
      some qc) :
    s.addVote v = (s.collected v.blkHash (insert v.voter blk.voted) (some qc), some qc) := by
  unfold addVote collected modifyBlk
  simp only [hblk, Option.map_some, Function.update_self, Option.bind_some, hadd,
    Function.update_idem]

theorem updateHqc_storage (qc : QuorumCert) : (s.updateHqc h qc).storage = s.storage := by
  unfold updateHqc
  split <;> rfl

theorem onQcFinish_storage : (s.onQcFinish h).storage = s.storage := by
  unfold onQcFinish
  split <;> rfl

end

end Replica

def signatures (votes : List Vote) : List (ReplicaID × Sig) :=
  votes.map fun v => (v.voter, v.cert.sig)

/-- What the votes for `h` have made of the replica `s`. -/
structure Collection (C : Crypto) (s : Replica) (h : Hash) (votes : List Vote) (u : Replica) :
    Prop where
  config : u.config = s.config
  delivered : u.delivered h = true
  voted : (u.storage.ballot h).2 =
    (((firstVotes votes).take s.config.nmajority).map (·.voter)).toFinset
  cert : (BallotBox.cert u.storage.ballot s.config h).Assembled C s.config.nreplicas h
    (u.storage.ballot h).2
  sigs : (BallotBox.cert u.storage.ballot s.config h).sigs =
    signatures ((firstVotes votes).take s.config.nmajority)
  held : votes ≠ [] → 0 < s.config.nmajority → (u.storage.ballot h).1.isSome = true
  lacking : (firstVotes votes).length < s.config.nmajority →
    u = s.collected h (u.storage.ballot h).2 (u.storage.ballot h).1
  reached : s.config.nmajority ≤ (firstVotes votes).length →
    u = ((s.collected h (u.storage.ballot h).2 (u.storage.ballot h).1).updateHqc h
      (BallotBox.cert u.storage.ballot s.config h)).onQcFinish h

namespace Collection
variable {C : Crypto} {s : Replica} {h : Hash} {votes : List Vote} {u : Replica}

theorem card (t : Collection C s h votes u) :
    (u.storage.ballot h).2.card = min s.config.nmajority (firstVotes votes).length := by
  rw [t.voted, List.toFinset_card_of_nodup, List.length_map, List.length_take]
  rw [List.map_take]
  exact (List.take_sublist _ _).nodup (firstVotes_nodup votes)

theorem block (t : Collection C s h votes u) : ∃ blk, u.storage.blkCache h = some blk ∧
    blk.delivered = true ∧ u.storage.ballot h = (blk.selfQc, blk.voted) := by
  obtain ⟨n, hn, hnd⟩ := Tree.exists_of_delivered t.delivered
  obtain ⟨blk, hblk, rfl⟩ := Replica.cache_of_tree _ hn
  exact ⟨blk, hblk, hnd, Replica.ballot_of_cache hblk⟩

theorem full (t : Collection C s h votes u) {v : Vote} (hv : v.blkHash = h)
    (hfull : s.config.nmajority ≤ (firstVotes votes).length) : u.onReceiveVote v = (u, none) := by
  subst hv
  obtain ⟨blk, hblk, hdel, hballot⟩ := t.block
  have hcard := t.card
  simp only [hballot] at hcard
  exact (Replica.Polling.full hblk hdel (by rw [t.config]; omega)).eq

theorem take_all (hlack : (firstVotes votes).length < s.config.nmajority) :
    (firstVotes votes).take s.config.nmajority = firstVotes votes :=
  List.take_of_length_le (Nat.le_of_lt hlack)

theorem repeated (t : Collection C s h votes u) {v : Vote} (hv : v.blkHash = h)
    (hlack : (firstVotes votes).length < s.config.nmajority)
    (hold : v.voter ∈ (firstVotes votes).map (·.voter)) : u.onReceiveVote v = (u, none) := by
  subst hv
  obtain ⟨blk, hblk, hdel, hballot⟩ := t.block
  have hmem : v.voter ∈ (u.storage.ballot v.blkHash).2 := by
    rw [t.voted, take_all hlack, List.mem_toFinset]
    exact hold
  rw [hballot] at hmem
  by_cases hn : u.config.nmajority ≤ blk.voted.card
  · exact (Replica.Polling.full hblk hdel hn).eq
  · exact (Replica.Polling.again hblk hdel (Nat.lt_of_not_le hn) hmem).eq

theorem part (t : Collection C s h votes u) {v : Vote} (hv : v.blkHash = h)
    (hverify : v.verify C = true) (hlack : (firstVotes votes).length < s.config.nmajority)
    (hnew : v.voter ∉ (u.storage.ballot h).2) :
    ∃ qc, u.addVote v =
        (s.collected h (insert v.voter (u.storage.ballot h).2) (some qc), some qc) ∧
      qc.Assembled C s.config.nreplicas h (insert v.voter (u.storage.ballot h).2) ∧
      qc.sigs = signatures (firstVotes votes ++ [v]) := by
  subst hv
  obtain ⟨blk, hblk, -, hballot⟩ := t.block
  have hsigs := t.sigs
  rw [take_all hlack] at hsigs
  unfold Vote.verify at hverify
  rw [Bool.and_eq_true, decide_eq_true_iff] at hverify
  have hvalid : C.verifySig v.voter v.blkHash v.cert.sig = true := by
    rw [← hverify.2]
    exact hverify.1
  obtain ⟨qc, hadd, ha⟩ := t.cert.addPart hnew hverify.2 hvalid
  have hcert : blk.selfQc.getD (createQuorumCert u.config v.blkHash) =
      BallotBox.cert u.storage.ballot s.config v.blkHash := by
    unfold BallotBox.cert
    rw [hballot, t.config]
  refine ⟨qc, ?_, ha, ?_⟩
  · rw [Replica.addVote_collected hblk (by rw [hcert]; exact hadd)]
    have hsame := t.lacking hlack
    rw [hballot] at hsame ⊢
    rw [hsame, Replica.collected_idem]
  · have hnone : (BallotBox.cert u.storage.ballot s.config v.blkHash).sigs.lookup v.voter =
        none := by
      rw [← Option.not_isSome_iff_eq_none]
      exact fun hsome => hnew ((t.cert.keys v.voter).mp hsome)
    unfold QuorumCert.addPart at hadd
    rw [if_pos (hverify.2.trans t.cert.objHash.symm), hnone] at hadd
    rw [← Option.some.inj hadd]
    change _ ++ [(v.voter, v.cert.sig)] = _
    rw [hsigs]
    unfold signatures
    rw [List.map_append]
    rfl

theorem onReceiveVote (t : Collection C s h votes u) {v : Vote} {qc : QuorumCert}
    (hv : v.blkHash = h) (hlack : (firstVotes votes).length < s.config.nmajority)
    (hnew : v.voter ∉ (u.storage.ballot h).2) (hpart : (u.addVote v).2 = some qc) :
    u.onReceiveVote v = if (firstVotes votes).length + 1 = s.config.nmajority then
      (((u.addVote v).1.updateHqc h qc).onQcFinish h, none) else ((u.addVote v).1, none) := by
  subst hv
  obtain ⟨blk, hblk, hdel, hballot⟩ := t.block
  have hcard := t.card
  simp only [hballot] at hcard hnew
  have hn : blk.voted.card < u.config.nmajority := by
    rw [t.config]
    omega
  have hu : u.addVote v = ((u.addVote v).1, some qc) := Prod.ext rfl hpart
  split
  · exact (Replica.Polling.quorum hblk hdel hn hnew hu (by rw [t.config]; omega)).eq
  · exact (Replica.Polling.counted hblk hdel hn hnew hu (by rw [t.config]; omega)).eq

theorem cached (t : Collection C s h votes u)
    (hlack : (firstVotes votes).length < s.config.nmajority) :
    ∃ blk, s.storage.blkCache h = some blk := by
  have hstored := congrArg (fun w => w.storage.blkCache h) (t.lacking hlack)
  obtain ⟨blk, hblk, -⟩ := t.block
  change _ = Function.update s.storage.blkCache h _ h at hstored
  rw [hblk, Function.update_self] at hstored
  obtain ⟨b, hb, -⟩ := Option.map_eq_some_iff.mp hstored.symm
  exact ⟨b, hb⟩

theorem counted (t : Collection C s h votes u) {v : Vote} (hv : v.blkHash = h)
    (hverify : v.verify C = true) (hlack : (firstVotes votes).length < s.config.nmajority)
    (hnew : v.voter ∉ (firstVotes votes).map (·.voter)) :
    Collection C s h (votes ++ [v]) (u.onReceiveVote v).1 ∧
      ∃ qc, (u.addVote v).2 = some qc ∧
        ((u.onReceiveVote v).1.storage.ballot h).1 = some qc ∧
        u.onReceiveVote v = if (firstVotes votes).length + 1 = s.config.nmajority then
          (((u.addVote v).1.updateHqc h qc).onQcFinish h, none) else ((u.addVote v).1, none) := by
  have hfresh : v.voter ∉ (u.storage.ballot h).2 := by
    rw [t.voted, take_all hlack, List.mem_toFinset]
    exact hnew
  obtain ⟨qc, hadd, ha, hqcsigs⟩ := t.part hv hverify hlack hfresh
  have hexec := t.onReceiveVote hv hlack hfresh (congrArg Prod.snd hadd)
  obtain ⟨blk, hblk⟩ := t.cached hlack
  have hballot : (u.onReceiveVote v).1.storage.ballot h =
      (some qc, insert v.voter (u.storage.ballot h).2) := by
    rw [hexec, hadd]
    split
    · rw [Replica.onQcFinish_storage, Replica.updateHqc_storage]
      exact Replica.collected_ballot hblk
    · exact Replica.collected_ballot hblk
  have hconfig : (u.onReceiveVote v).1.config = s.config := by
    rw [hexec, hadd]
    split
    · exact congrArg Frame.config ((Replica.onQcFinish_frame ..).trans
        (Replica.updateHqc_frame ..))
    · rfl
  have htree : (u.onReceiveVote v).1.tree = u.tree :=
    congrArg Ledger.tree (Replica.onReceiveVote_ledger v)
  have hfirst : firstVotes (votes ++ [v]) = firstVotes votes ++ [v] := by
    rw [firstVotes_concat, if_neg hnew]
  have htake : (firstVotes (votes ++ [v])).take s.config.nmajority = firstVotes votes ++ [v] := by
    rw [hfirst, List.take_of_length_le]
    rw [List.length_append, List.length_singleton]
    omega
  have hnow : BallotBox.cert (u.onReceiveVote v).1.storage.ballot s.config h = qc := by
    unfold BallotBox.cert
    rw [hballot]
    rfl
  refine ⟨⟨hconfig, ?_, ?_, ?_, ?_, ?_, ?_, ?_⟩, qc, congrArg Prod.snd hadd,
    congrArg Prod.fst hballot, hexec⟩
  · unfold Replica.delivered
    rw [htree]
    exact t.delivered
  · rw [hballot, htake, List.map_append, List.toFinset_append, t.voted, take_all hlack,
      Finset.insert_eq, Finset.union_comm]
    rfl
  · rw [hnow, hballot]
    exact ha
  · rw [hnow, htake]
    exact hqcsigs
  · intro _ _
    rw [hballot]
    rfl
  · intro hstill
    rw [hfirst, List.length_append, List.length_singleton] at hstill
    rw [hballot, hexec, if_neg (by omega), hadd]
  · intro hlast
    rw [hfirst, List.length_append, List.length_singleton] at hlast
    rw [hnow, hballot, hexec, if_pos (by omega), hadd]

theorem dropped (t : Collection C s h votes u) {v : Vote}
    (hv : s.config.nmajority ≤ (firstVotes votes).length ∨
      v.voter ∈ (firstVotes votes).map (·.voter)) :
    Collection C s h (votes ++ [v]) u := by
  have hfirst : v.voter ∈ (firstVotes votes).map (·.voter) →
      firstVotes (votes ++ [v]) = firstVotes votes := by
    intro hold
    rw [firstVotes_concat, if_pos hold]
  have htake : (firstVotes (votes ++ [v])).take s.config.nmajority =
      (firstVotes votes).take s.config.nmajority := by
    by_cases hold : v.voter ∈ (firstVotes votes).map (·.voter)
    · rw [hfirst hold]
    · rw [firstVotes_concat, if_neg hold]
      exact List.take_append_of_le_length (hv.resolve_right hold)
  have hlength : s.config.nmajority ≤ (firstVotes (votes ++ [v])).length ↔
      s.config.nmajority ≤ (firstVotes votes).length := by
    have hlen := congrArg List.length htake
    rw [List.length_take, List.length_take] at hlen
    omega
  refine ⟨t.config, t.delivered, ?_, t.cert, ?_, ?_, ?_, ?_⟩
  · rw [htake]
    exact t.voted
  · rw [htake]
    exact t.sigs
  · intro _ hpos
    apply t.held _ hpos
    rintro rfl
    rcases hv with hfull | hold
    · exact absurd hpos (by change s.config.nmajority ≤ 0 at hfull; omega)
    · cases hold
  · intro hlack
    exact t.lacking (by omega)
  · intro hfull
    exact t.reached (hlength.mp hfull)

/-- One more vote for the block: it is noticed as the last of a quorum, or only noted. -/
theorem step (t : Collection C s h votes u) {v : Vote} (hv : v.blkHash = h)
    (hverify : v.verify C = true) :
    Collection C s h (votes ++ [v]) (u.onReceiveVote v).1 ∧ (u.onReceiveVote v).2 = none ∧
      if v.voter ∉ votes.map (·.voter) ∧ (firstVotes votes).length + 1 = s.config.nmajority then
        ∃ qc, (u.addVote v).2 = some qc ∧
          ((u.onReceiveVote v).1.storage.ballot h).1 = some qc ∧
          (u.onReceiveVote v).1 = ((u.addVote v).1.updateHqc h qc).onQcFinish h
      else (u.onReceiveVote v).1 = u ∨ (u.onReceiveVote v).1 = (u.addVote v).1 := by
  have hknown := firstVotes_voters votes v.voter
  by_cases hfull : s.config.nmajority ≤ (firstVotes votes).length
  · rw [t.full hv hfull, if_neg (by omega)]
    exact ⟨t.dropped (Or.inl hfull), rfl, Or.inl rfl⟩
  have hlack : (firstVotes votes).length < s.config.nmajority := by omega
  by_cases hold : v.voter ∈ (firstVotes votes).map (·.voter)
  · rw [t.repeated hv hlack hold, if_neg fun hcond => hcond.1 (hknown.mp hold)]
    exact ⟨t.dropped (Or.inr hold), rfl, Or.inl rfl⟩
  · obtain ⟨hnext, qc, hpart, hqc, hexec⟩ := t.counted hv hverify hlack hold
    by_cases hlast : (firstVotes votes).length + 1 = s.config.nmajority
    · rw [if_pos hlast] at hexec
      refine ⟨hnext, congrArg Prod.snd hexec, ?_⟩
      rw [if_pos ⟨fun hmem => hold (hknown.mpr hmem), hlast⟩]
      exact ⟨qc, hpart, hqc, congrArg Prod.fst hexec⟩
    · rw [if_neg hlast] at hexec
      refine ⟨hnext, congrArg Prod.snd hexec, ?_⟩
      rw [if_neg fun hcond => hlast hcond.2]
      exact Or.inr (congrArg Prod.fst hexec)

theorem start {blk : Block} (hblk : s.storage.blkCache h = some blk)
    (hdel : blk.delivered = true) (hvoted : blk.voted = ∅)
    (hqc : blk.selfQc = none ∨ blk.selfQc = some (createQuorumCert s.config h))
    (hpos : 0 < s.config.nmajority) (hsize : s.config.nreplicas ≤ 2 ^ 16) :
    Collection C s h [] s := by
  have hballot := Replica.ballot_of_cache hblk
  have hcert : BallotBox.cert s.storage.ballot s.config h = createQuorumCert s.config h := by
    unfold BallotBox.cert
    rw [hballot]
    rcases hqc with hnone | hfresh
    · rw [hnone]
      rfl
    · rw [hfresh]
      rfl
  refine ⟨rfl, ?_, ?_, ?_, ?_, fun hne => absurd rfl hne, ?_, ?_⟩
  · exact (Tree.delivered_of (s.tree_of_cache hblk)).trans hdel
  · rw [hballot, hvoted]
    change ∅ = ((([] : List Vote).take s.config.nmajority).map (·.voter)).toFinset
    rw [List.take_nil]
    rfl
  · rw [hcert, hballot, hvoted]
    exact .create (by omega)
  · rw [hcert]
    change [] = signatures (([] : List Vote).take s.config.nmajority)
    rw [List.take_nil]
    rfl
  · intro _
    rw [hballot]
    exact (Replica.collected_self hblk).symm
  · intro hfull
    change s.config.nmajority ≤ 0 at hfull
    omega

theorem run (t : Collection C s h [] s)
    (hvotes : ∀ v ∈ votes, v.blkHash = h ∧ v.verify C = true) :
    Collection C s h votes (s.receiveVotes votes) := by
  induction votes using List.reverseRecOn with
  | nil => exact t
  | append_singleton votes v ih =>
    have hcol := ih fun w hw => hvotes w (List.mem_append_left _ hw)
    obtain ⟨hv, hverify⟩ := hvotes v (List.mem_append_right _ (List.mem_singleton_self v))
    rw [Replica.receiveVotes_append]
    exact (hcol.step hv hverify).1

theorem verify (t : Collection C s h votes u)
    (hfull : s.config.nmajority ≤ (firstVotes votes).length)
    (hids : ∀ v ∈ votes, v.voter < 2 ^ 16) {qc : QuorumCert}
    (hqc : (u.storage.ballot h).1 = some qc) : qc.verify C s.config = true := by
  have hcert : BallotBox.cert u.storage.ballot s.config h = qc := by
    unfold BallotBox.cert
    rw [hqc]
    rfl
  have hsigs := t.sigs
  have ha := t.cert
  rw [hcert] at hsigs ha
  rw [QuorumCert.verify_iff]
  constructor
  · rw [hsigs]
    unfold signatures
    rw [List.length_map, List.length_take, Nat.min_eq_left hfull]
  · intro i hi
    have hmem : i ∈ (u.storage.ballot h).2 := by
      rw [Bits.mem_ids, ha.nbits] at hi
      exact (ha.bits i hi.1).mp hi.2
    obtain ⟨σ, hσ⟩ := Option.isSome_iff_exists.mp ((ha.keys i).mpr hmem)
    have hlt : i < 2 ^ 16 := by
      rw [t.voted, List.mem_toFinset, List.map_take] at hmem
      have hvoter := (firstVotes_voters votes i).mp (List.mem_of_mem_take hmem)
      obtain ⟨v, hv, rfl⟩ := List.mem_map.mp hvoter
      exact hids v hv
    rw [Nat.mod_eq_of_lt hlt, hσ, ha.objHash]
    exact ha.valid i σ hσ

theorem quorum (t : Collection C s h votes u) {v : Vote} (hv : v.blkHash = h)
    (hverify : v.verify C = true) (hids : ∀ w ∈ votes ++ [v], w.voter < 2 ^ 16)
    (hnew : v.voter ∉ votes.map (·.voter))
    (hlast : (firstVotes votes).length + 1 = s.config.nmajority) :
    ∃ qc, (u.addVote v).2 = some qc ∧ qc.verify C s.config = true ∧
      (u.onReceiveVote v).1 = ((u.addVote v).1.updateHqc h qc).onQcFinish h := by
  obtain ⟨hnext, -, hat⟩ := t.step hv hverify
  rw [if_pos ⟨hnew, hlast⟩] at hat
  obtain ⟨qc, hpart, hqc, hexec⟩ := hat
  refine ⟨qc, hpart, hnext.verify ?_ hids hqc, hexec⟩
  rw [firstVotes_concat, if_neg fun hmem => hnew ((firstVotes_voters votes _).mp hmem),
    List.length_append, List.length_singleton]
  omega

end Collection

def ReplicaConfig.Numbered (cfg : ReplicaConfig) : Prop :=
  0 < cfg.nmajority ∧ cfg.nreplicas ≤ 2 ^ 16 ∧
    ∀ rid, (cfg.getPeerId rid).isSome = true → rid < cfg.nreplicas

/-- The votes of a sequence are collected from the first `nmajority` distinct voters. Only the
call with the last of these comes to `update_hqc` and `on_qc_finish`; in the end the replica
is the one of the beginning with the votes, on which the two ran once or not at all. -/
theorem vote_collection (C : Crypto) (s : Replica) (h : Hash) (blk : Block) (votes : List Vote)
    (hcfg : s.config.Numbered) (hblk : s.storage.blkCache h = some blk)
    (hdel : blk.delivered = true) (hvoted : blk.voted = ∅)
    (hqc : blk.selfQc = none ∨ blk.selfQc = some (createQuorumCert s.config h))
    (hvotes : ∀ v ∈ votes, v.blkHash = h ∧ v.verify C = true ∧
      (s.config.getPeerId v.voter).isSome = true) :
    ∃ blk', (s.receiveVotes votes).storage.blkCache h = some blk' ∧
      blk'.voted = (((firstVotes votes).take s.config.nmajority).map (·.voter)).toFinset ∧
      (votes ≠ [] → blk'.selfQc ≠ none) ∧
      (∀ qc, blk'.selfQc = some qc →
        qc.sigs = signatures ((firstVotes votes).take s.config.nmajority) ∧
        ∀ rid < s.config.nreplicas, qc.rids.get rid = true ↔ rid ∈ blk'.voted) ∧
      (s.config.nmajority ≤ (firstVotes votes).length → ∃ qc, blk'.selfQc = some qc ∧
        qc.verify C s.config = true ∧ s.receiveVotes votes =
          ((s.collected h blk'.voted blk'.selfQc).updateHqc h qc).onQcFinish h) ∧
      ((firstVotes votes).length < s.config.nmajority →
        s.receiveVotes votes = s.collected h blk'.voted blk'.selfQc) ∧
      ∀ pre v post, votes = pre ++ v :: post → ∀ u, u = s.receiveVotes pre →
        (u.onReceiveVote v).2 = none ∧
        if v.voter ∉ pre.map (·.voter) ∧ (firstVotes pre).length + 1 = s.config.nmajority then
          ∃ qc, (u.addVote v).2 = some qc ∧ qc.verify C s.config = true ∧
            (u.onReceiveVote v).1 = ((u.addVote v).1.updateHqc h qc).onQcFinish h
        else (u.onReceiveVote v).1 = u ∨ (u.onReceiveVote v).1 = (u.addVote v).1 := by
  obtain ⟨hpos, hsize, hids⟩ := hcfg
  have t := Collection.start hblk hdel hvoted hqc hpos hsize (C := C)
  have hgood : ∀ v ∈ votes, v.blkHash = h ∧ v.verify C = true :=
    fun v hv => ⟨(hvotes v hv).1, (hvotes v hv).2.1⟩
  have hlt : ∀ v ∈ votes, v.voter < 2 ^ 16 :=
    fun v hv => lt_of_lt_of_le (hids v.voter (hvotes v hv).2.2) hsize
  have hcol := t.run hgood
  obtain ⟨blk', hblk', -, hballot⟩ := hcol.block
  have hvoted' : blk'.voted = ((s.receiveVotes votes).storage.ballot h).2 := by rw [hballot]
  have hqc' : ((s.receiveVotes votes).storage.ballot h).1 = blk'.selfQc := by rw [hballot]
  have hcert : ∀ qc, blk'.selfQc = some qc →
      BallotBox.cert (s.receiveVotes votes).storage.ballot s.config h = qc := by
    intro qc hsome
    unfold BallotBox.cert
    rw [hballot, hsome]
    rfl
  have hsome : votes ≠ [] → blk'.selfQc ≠ none := by
    intro hne hnone
    have hheld := hcol.held hne hpos
    rw [hqc', hnone] at hheld
    cases hheld
  refine ⟨blk', hblk', hvoted'.trans hcol.voted, hsome, ?_, ?_, ?_, ?_⟩
  · intro qc hqc
    rw [← hcert qc hqc]
    refine ⟨hcol.sigs, ?_⟩
    intro rid hrid
    rw [hvoted']
    exact hcol.cert.bits rid hrid
  · intro hfull
    have hne : votes ≠ [] := by
      rintro rfl
      change s.config.nmajority ≤ 0 at hfull
      omega
    obtain ⟨qc, hqc⟩ := Option.ne_none_iff_exists'.mp (hsome hne)
    refine ⟨qc, hqc, hcol.verify hfull hlt (hqc'.trans hqc), ?_⟩
    have hstate := hcol.reached hfull
    rw [hcert qc hqc, hballot] at hstate
    exact hstate
  · intro hlack
    have hstate := hcol.lacking hlack
    rw [hballot] at hstate
    exact hstate
  · rintro pre v post rfl u rfl
    have hcolPre := t.run fun w hw => hgood w (List.mem_append_left _ hw)
    have hmem : v ∈ pre ++ v :: post := List.mem_append_right _ (List.mem_cons_self ..)
    obtain ⟨hv, hverify⟩ := hgood v hmem
    obtain ⟨-, hnone, hat⟩ := hcolPre.step hv hverify
    refine ⟨hnone, ?_⟩
    split
    · rename_i hcond
      apply hcolPre.quorum hv hverify _ hcond.1 hcond.2
      intro w hw
      apply hlt
      rcases List.mem_append.mp hw with hold | hnew
      · exact List.mem_append_left _ hold
      · rw [List.mem_singleton.mp hnew]
        exact hmem
    · rename_i hcond
      rw [if_neg hcond] at hat
      exact hat

def electing : Replica :=
  Runs.run (Replica.step .sample) (Setup.four 0).start
    [.addBlk (.sample b0 b0 7 []), .deliverBlk 1, .asyncQcFinish 1]

/-- Replica 2 votes twice, and replica 0 comes after the quorum. -/
def fiveVotes : List Vote := [2, 1, 2, 3, 0].map fun rid => ⟨rid, 1, ⟨1, 1⟩⟩

theorem vote_collection_five :
    ∃ blk qc, (electing.receiveVotes fiveVotes).storage.blkCache 1 = some blk ∧
      blk.voted = {1, 2, 3} ∧ blk.selfQc = some qc ∧ qc.sigs = [(2, 1), (1, 1), (3, 1)] ∧
      qc.verify .sample electing.config = true ∧
      (electing.receiveVotes fiveVotes).hqc = (1, qc) ∧
      (electing.receiveVotes fiveVotes).trace = electing.trace ++ [.qcFinish 1] := by
  have hnumbered : electing.config.Numbered := by
    refine ⟨by decide, by decide, ?_⟩
    intro rid hrid
    obtain ⟨p, hp⟩ := Option.isSome_iff_exists.mp hrid
    have hall : ∀ e ∈ [(0, 0), (1, 1), (2, 2), (3, 3)], e.1 < 4 := by decide
    obtain ⟨l₁, l₂, hl, -⟩ := List.lookup_eq_some_iff.mp hp
    exact hall (rid, p) (by rw [show [(0, 0), (1, 1), (2, 2), (3, 3)] = _ from hl]; simp)
  obtain ⟨blk, hblk, hdel, hvoted, hqc⟩ : ∃ blk, electing.storage.blkCache 1 = some blk ∧
      blk.delivered = true ∧ blk.voted = ∅ ∧ blk.selfQc = none :=
    ⟨_, rfl, by decide, by decide, by decide⟩
  obtain ⟨blk', hblk', hvoted', -, hsigs, hfull, -, -⟩ := vote_collection .sample electing 1 blk
    fiveVotes hnumbered hblk hdel hvoted (Or.inl hqc) (by decide +kernel)
  obtain ⟨qc, hqc', hverify, hstate⟩ := hfull (by decide +kernel)
  refine ⟨blk', qc, hblk', ?_, hqc', ?_, hverify, ?_, ?_⟩
  · rw [hvoted']
    decide +kernel
  · rw [(hsigs qc hqc').1]
    decide +kernel
  · rw [hstate]
    rfl
  · rw [hstate]
    rfl

end AvaHotstuff
