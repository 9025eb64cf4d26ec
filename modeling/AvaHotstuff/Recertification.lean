import AvaHotstuff.Members

set_option autoImplicit false

namespace AvaHotstuff
open Bytes

/-- What verified votes of `voters` under one configuration have made of a certificate. -/
structure QuorumCert.Assembled (C : Crypto) (n : ℕ) (h : Hash) (qc : QuorumCert)
    (voters : Finset ReplicaID) : Prop where
  objHash : qc.objHash = h
  rids : qc.rids.Sized
  nbits : qc.rids.nbits = n
  bits : ∀ i < n, qc.rids.get i = true ↔ i ∈ voters
  keys : ∀ v, (qc.sigs.lookup v).isSome = true ↔ v ∈ voters
  valid : ∀ v σ, qc.sigs.lookup v = some σ → C.verifySig v h σ = true

namespace QuorumCert.Assembled
variable {C : Crypto} {n : ℕ} {h : Hash} {qc : QuorumCert} {voters : Finset ReplicaID}

theorem create {cfg : ReplicaConfig} (hcfg : cfg.nreplicas + 63 < 2 ^ 32) :
    Assembled C cfg.nreplicas h (createQuorumCert cfg h) ∅ := by
  refine ⟨rfl, .cleared hcfg, rfl, ?_, ?_, ?_⟩
  · intro i _
    simp [createQuorumCert, Bits.get_cleared]
  · intro v
    simp [createQuorumCert]
  · intro v σ hσ
    cases hσ

theorem addPart (a : qc.Assembled C n h voters) {rid : ReplicaID} {pc : PartCert}
    (hnew : rid ∉ voters) (hpc : pc.objHash = h) (hvalid : C.verifySig rid h pc.sig = true) :
    ∃ qc', qc.addPart rid pc = some qc' ∧ qc'.Assembled C n h (insert rid voters) := by
  have hfresh : qc.sigs.lookup rid = none := by
    rw [← Option.not_isSome_iff_eq_none]
    exact fun hsome => hnew ((a.keys rid).mp hsome)
  have hlookup : ∀ v, (qc.sigs ++ [(rid, pc.sig)]).lookup v =
      if v = rid then some pc.sig else qc.sigs.lookup v := by
    intro v
    rw [List.lookup_append, List.lookup_cons, List.lookup_nil]
    by_cases hv : v = rid
    · rw [if_pos hv, hv, hfresh, beq_self_eq_true]
      rfl
    · rw [if_neg hv, beq_eq_false_iff_ne.mpr hv, Option.or_none]
  refine ⟨{ qc with sigs := qc.sigs ++ [(rid, pc.sig)], rids := qc.rids.set rid }, ?_, ?_⟩
  · unfold QuorumCert.addPart
    rw [if_pos (hpc.trans a.objHash.symm), hfresh]
    rfl
  · refine ⟨a.objHash, a.rids.set rid, a.nbits, ?_, ?_, ?_⟩
    · intro i hi
      rw [a.rids.get_set i (by rw [a.nbits]; exact hi), a.bits i hi, Finset.mem_insert]
    · intro v
      simp only [hlookup]
      by_cases hv : v = rid
      · simp [hv]
      · simp [hv, a.keys v]
    · intro v σ hσ
      simp only [hlookup] at hσ
      by_cases hv : v = rid
      · rw [if_pos hv] at hσ
        rw [hv, ← Option.some.inj hσ]
        exact hvalid
      · rw [if_neg hv] at hσ
        exact a.valid v σ hσ

theorem ids_toFinset (a : qc.Assembled C n h voters) :
    qc.rids.ids.toFinset = voters.filter (· < n) := by
  ext i
  rw [List.mem_toFinset, Bits.mem_ids, Finset.mem_filter, a.nbits]
  constructor
  · intro ⟨hi, hget⟩
    exact ⟨(a.bits i hi).mp hget, hi⟩
  · intro ⟨hmem, hi⟩
    exact ⟨hi, (a.bits i hi).mpr hmem⟩

theorem sound (a : qc.Assembled C n h voters) {F : SigFormat} (hh : h < 2 ^ 256)
    (hids : ∀ v ∈ voters, v < 2 ^ 16)
    (hF : ∀ rid σ, C.verifySig rid h σ = true → F.Carries σ) : qc.Sound F := by
  have hmem : ∀ i ∈ qc.rids.ids, i ∈ voters := by
    intro i hi
    have hfin : i ∈ qc.rids.ids.toFinset := List.mem_toFinset.mpr hi
    rw [a.ids_toFinset] at hfin
    exact (Finset.mem_filter.mp hfin).1
  refine ⟨a.objHash ▸ hh, a.rids, fun i hi => hids i (hmem i hi), ?_⟩
  intro i hi
  obtain ⟨σ, hσ⟩ := Option.isSome_iff_exists.mp ((a.keys i).mpr (hmem i hi))
  exact ⟨σ, hσ, hF i σ (a.valid i σ hσ)⟩

/-- The other side gets the signatures of the voters that fit the bitmap, and no others. -/
theorem received_verify_iff (a : qc.Assembled C n h voters) (hids : ∀ v ∈ voters, v < 2 ^ 16)
    (cfg : ReplicaConfig) :
    qc.received.verify C cfg = true ↔ cfg.nmajority ≤ (voters.filter (· < n)).card := by
  have hmem : ∀ i ∈ qc.rids.ids, ∃ σ, qc.sigs.lookup i = some σ ∧ i < 2 ^ 16 := by
    intro i hi
    have hfin : i ∈ qc.rids.ids.toFinset := List.mem_toFinset.mpr hi
    rw [a.ids_toFinset] at hfin
    have hvoter := (Finset.mem_filter.mp hfin).1
    obtain ⟨σ, hσ⟩ := Option.isSome_iff_exists.mp ((a.keys i).mpr hvoter)
    exact ⟨σ, hσ, hids i hvoter⟩
  have hkeys : qc.received.sigs.map Prod.fst = qc.rids.ids :=
    received_keys fun i hi => (hmem i hi).imp fun _ hσ => hσ.1
  have hlength : qc.received.sigs.length = (voters.filter (· < n)).card := by
    rw [← a.ids_toFinset, List.toFinset_card_of_nodup qc.rids.nodup_ids, ← hkeys, List.length_map]
  rw [verify_iff, hlength]
  refine and_iff_left ?_
  intro i hi
  obtain ⟨σ, hσ, hlt⟩ := hmem i hi
  have hpair : (i, σ) ∈ qc.received.sigs := List.mem_filterMap.mpr ⟨i, hi, by rw [hσ]; rfl⟩
  have hlookup : qc.received.sigs.lookup i = some σ :=
    lookup_of_mem (hkeys ▸ qc.rids.nodup_ids) hpair
  rw [Nat.mod_eq_of_lt hlt, hlookup]
  exact a.objHash ▸ a.valid i σ hσ

end QuorumCert.Assembled

def BallotBox.Collected (C : Crypto) (cfg : ReplicaConfig) (h : Hash) (β : BallotBox) : Prop :=
  (cert β cfg h).Assembled C cfg.nreplicas h (β h).2

/-- The calls while votes for `h` are collected: votes are verified, the configuration stays
as it is, and `h` is made once. -/
def Collecting (C : Crypto) (cfg : ReplicaConfig) (h : Hash) (s : Replica) (op : Op) : Prop :=
  op.Verified C ∧ (s.step C op).config = cfg ∧
    (s.proposes C op = some h → (s.storage.blkCache h).isNone = true)

instance (C : Crypto) (cfg : ReplicaConfig) (h : Hash) (s : Replica) :
    DecidablePred (Collecting C cfg h s) := fun _ => inferInstanceAs (Decidable (_ ∧ _))

theorem BallotBox.Collected.step {C : Crypto} {cfg : ReplicaConfig} {h : Hash} {s : Replica}
    (b : Collected C cfg h s.storage.ballot) (hcfg : s.config = cfg)
    (hsize : cfg.nreplicas + 63 < 2 ^ 32)
    (hsign : ∀ x, C.verifySig s.id x (C.sign s.id x) = true) {op : Op}
    (hop : Collecting C cfg h s op) : Collected C cfg h (s.step C op).storage.ballot := by
  obtain ⟨hverified, -, hfresh⟩ := hop
  have hstart : Collected C cfg h (s.tallied C op) := by
    unfold Replica.tallied
    split
    · exact b
    · rename_i x hx
      by_cases hxh : h = x
      · subst x
        have hempty : s.storage.ballot h = (none, ∅) := by
          unfold EntityStorage.ballot
          rw [Option.isNone_iff_eq_none.mp (hfresh hx)]
          rfl
        unfold Collected cert restart
        rw [Function.update_self, hempty, hcfg]
        exact .create hsize
      · unfold Collected cert restart
        rw [Function.update_of_ne hxh]
        exact b
  unfold Replica.step
  rcases s.exec_counts C op with hsame | ⟨v, hv, -, hnew, hcount⟩
  · rw [hsame]
    exact hstart
  · rw [hcount, hcfg]
    obtain ⟨hobj, hvalid⟩ := hv.valid hsign hverified
    by_cases hh : h = v.blkHash
    · subst h
      obtain ⟨qc', hadd, ha⟩ := hstart.addPart hnew hobj hvalid
      have hnext : count (s.tallied C op) cfg v v.blkHash =
          (some qc', insert v.voter (s.tallied C op v.blkHash).2) := by
        unfold count
        rw [Function.update_self, hadd]
        rfl
      unfold Collected cert
      rw [hnext]
      exact ha
    · unfold Collected cert count
      rw [Function.update_of_ne hh]
      exact hstart

/-- The certificate, written to the wire and read to its end on the other side, verifies. -/
def QuorumCert.accepted (C : Crypto) (F : SigFormat) (cfg : ReplicaConfig) (qc : QuorumCert) :
    Bool :=
  (qc.serialize F).any fun bs => ((QuorumCert.unserialize F).run bs).any fun r =>
    r.2.isEmpty && r.1.verify C cfg

theorem QuorumCert.Assembled.accepted_iff {C : Crypto} {F : SigFormat} {cfg : ReplicaConfig}
    {h : Hash} {qc : QuorumCert} {voters : Finset ReplicaID}
    (a : qc.Assembled C cfg.nreplicas h voters) (hh : h < 2 ^ 256)
    (hids : ∀ v ∈ voters, v < 2 ^ 16)
    (hF : ∀ rid σ, C.verifySig rid h σ = true → F.Carries σ)
    (hcard : voters.card = cfg.nmajority) :
    qc.accepted C F cfg = true ↔ ∀ v ∈ voters, v < cfg.nreplicas := by
  obtain ⟨bs, hbs, hp⟩ := (a.sound hh hids hF).parses
  have hwire : (QuorumCert.unserialize F).run bs = some (qc.received, []) := by
    have hrun := hp []
    rwa [List.append_nil] at hrun
  have hfull : qc.accepted C F cfg = qc.received.verify C cfg := by
    rw [QuorumCert.accepted, hbs, Option.any_some, hwire]
    rfl
  rw [hfull, a.received_verify_iff hids cfg, ← hcard]
  constructor
  · intro hle v hv
    have hall := Finset.eq_of_subset_of_card_le (Finset.filter_subset _ _) hle
    rw [← hall] at hv
    exact (Finset.mem_filter.mp hv).2
  · intro hall
    rw [Finset.filter_true_of_mem hall]

/-- After any calls, reconfigurations included, a new block `h` is made and collects the
votes of `nmajority` current members. The certificate, which the next proposal carries, is
accepted by the replicas with the same configuration exactly when the ids of the voters
fit the shrunken bitmap. -/
theorem recertified_iff (C : Crypto) (F : SigFormat) (c : Setup)
    (hsign : ∀ x, C.verifySig c.id x (C.sign c.id x) = true)
    (hF : ∀ rid x σ, x < 2 ^ 256 → C.verifySig rid x σ = true → F.Carries σ)
    (hids : ∀ e ∈ c.config.replicaMap, e.1 < 2 ^ 16)
    (hsize : c.config.nreplicas ≤ 2 ^ 16 ∧ c.peers.length < 2 ^ 16)
    (s₀ s : Replica) (h : Hash) (qc : QuorumCert) (hh : h < 2 ^ 256)
    (hbefore : Runs.Reach (fun _ _ => True) (Replica.step C) c.start s₀)
    (hnew : s₀.storage.blkCache h = none)
    (hafter : Runs.Reach (Collecting C s₀.config h) (Replica.step C) s₀ s)
    (hmembers : ∀ v ∈ (s.storage.ballot h).2, s.current v = true)
    (hcard : (s.storage.ballot h).2.card = s.config.nmajority)
    (hself : (s.storage.ballot h).1 = some qc) (hqc : s.hqc = (h, qc))
    (cmds : List Hash) (keys vals : List ℤ) (parents : List Hash) (p : Hash)
    (extra : List UInt8) :
    (s.newBlock cmds keys vals parents p extra).body.qc.accepted C F s.config = true ↔
      ∀ v ∈ (s.storage.ballot h).2, v < s.config.nreplicas := by
  have hcarried : (s.newBlock cmds keys vals parents p extra).body.qc = qc :=
    congrArg Prod.snd hqc
  have k₀ : s₀.roster.Kept c := hbefore.invariant (fun s => s.roster.Kept c) c.start_kept
    fun u op k _ => k.step C op
  have hnbits : s₀.config.nreplicas + 63 < 2 ^ 32 := by
    have hle : s₀.config.nreplicas ≤ max c.config.nreplicas (c.peers.length + 1) := k₀.nreplicas
    omega
  have hstart : BallotBox.Collected C s₀.config h s₀.storage.ballot := by
    have hempty : s₀.storage.ballot h = (none, ∅) := by
      unfold EntityStorage.ballot
      rw [hnew]
      rfl
    unfold BallotBox.Collected BallotBox.cert
    rw [hempty]
    exact .create hnbits
  have hinv : s.roster.Kept c ∧ s.config = s₀.config ∧
      BallotBox.Collected C s₀.config h s.storage.ballot := by
    apply hafter.invariant fun s => s.roster.Kept c ∧ s.config = s₀.config ∧
      BallotBox.Collected C s₀.config h s.storage.ballot
    · exact ⟨k₀, rfl, hstart⟩
    · intro u op ⟨k, hcfg, b⟩ hop
      have hid : u.id = c.id := k.id
      rw [← hid] at hsign
      exact ⟨k.step C op, hop.2.1, b.step hcfg hnbits hsign hop⟩
  obtain ⟨k, hcfg, hcollected⟩ := hinv
  have ha : qc.Assembled C s.config.nreplicas h (s.storage.ballot h).2 := by
    unfold BallotBox.Collected BallotBox.cert at hcollected
    rw [hself, ← hcfg] at hcollected
    exact hcollected
  have hsmall : ∀ v ∈ (s.storage.ballot h).2, v < 2 ^ 16 := by
    intro v hv
    obtain ⟨peer, hpeer, -⟩ := (Option.any_eq_true ..).mp (hmembers v hv)
    obtain ⟨l, l', hsplit, -⟩ := List.lookup_eq_some_iff.mp hpeer
    apply hids (v, peer)
    rw [← k.replicaMap]
    change (v, peer) ∈ s.config.replicaMap
    rw [hsplit]
    exact List.mem_append_right _ (List.mem_cons_self ..)
  rw [hcarried]
  exact ha.accepted_iff hh hsmall (fun rid σ hσ => hF rid h σ hh hσ) hcard

def reelection (v w : ReplicaID) : List Op :=
  [.propose [7] [1] [2] [0] [], .receiveVote ⟨v, 1, ⟨1, 1⟩⟩, .receiveVote ⟨w, 1, ⟨1, 1⟩⟩]

/-- Replica 3 has left, and the replicas 0, 1 and 2 vote: the ids fit. -/
def shrink : List Op := List.replicate 3 (.msgRecsAggEchoReady ⟨⟨0, 3, 1⟩, myReady, 1⟩)

def shrunk : Replica := Runs.run (Replica.step .sample) Setup.quartet.start shrink

def reelected : Replica := Runs.run (Replica.step .sample) shrunk (reelection 1 2)

theorem recertified_iff_shrunk :
    (reelected.newBlock [8] [1] [2] [1] 1 []).body.qc.accepted .sample .sample
      reelected.config = true := by
  have hqc : reelected.hqc.1 = 1 ∧ (reelected.storage.ballot 1).1 = some reelected.hqc.2 := by
    decide +kernel
  have hbefore : Runs.Reach (fun _ _ => True) (Replica.step .sample) Setup.quartet.start shrunk :=
    Runs.reach_run shrink .init (by decide)
  have hafter : Runs.Reach (Collecting .sample shrunk.config 1) (Replica.step .sample) shrunk
      reelected := Runs.reach_run (reelection 1 2) .init (by decide +kernel)
  have hF : ∀ rid x σ, x < 2 ^ 256 → Crypto.sample.verifySig rid x σ = true →
      SigFormat.sample.Carries σ := by
    intro rid x σ hx hσ
    apply SigFormat.sample_carries
    rw [of_decide_eq_true hσ]
    have hbytes : x < 256 ^ 32 := hx
    exact hbytes.trans_le (Nat.pow_le_pow_right (by decide) (by decide))
  refine (recertified_iff .sample .sample .quartet (fun _ => decide_eq_true rfl) hF (by decide)
    (by decide) shrunk reelected 1 reelected.hqc.2 (by decide) hbefore (by rfl) hafter
    (by decide +kernel) (by decide +kernel) hqc.2 (Prod.ext hqc.1 rfl) _ _ _ _ _ _).mpr ?_
  decide +kernel

def bypassed : Replica := Runs.run (Replica.step .sample) departed (reelection 2 3)

/-- Three current members are a quorum of three and complete the certificate of block 1. The
next block carries it, and of the three signatures two arrive. -/
theorem recertification_lost :
    (∀ v ∈ (bypassed.storage.ballot 1).2, bypassed.current v = true) ∧
      (bypassed.storage.ballot 1).2.card = bypassed.config.nmajority ∧ bypassed.hqc.1 = 1 ∧
      (bypassed.storage.ballot 1).1 = some bypassed.hqc.2 ∧
      (bypassed.newBlock [8] [1] [2] [1] 1 []).body.qc.accepted .sample .sample
        bypassed.config = false := by
  decide +kernel

end AvaHotstuff
