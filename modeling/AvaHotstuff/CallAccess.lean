import AvaHotstuff.Accesses
import AvaHotstuff.CertificateFlow
import AvaHotstuff.CommandArgs
import AvaHotstuff.Completion
import AvaHotstuff.ExecutionOrder
import AvaHotstuff.LeaderRotation
import AvaHotstuff.Leaders

set_option autoImplicit false

namespace AvaHotstuff
open Ancestry

/-- A certificate whose signers have a key, or one for the genesis block, which is not verified. -/
def ReplicaConfig.KnowsSigners (c : ReplicaConfig) (qc : QuorumCert) : Prop :=
  qc.objHash = b0 ∨ ∀ i ∈ qc.rids.ids, c.Registered (i % 2 ^ 16)

/-- The message that completes a count names an existing node. -/
def Replica.NodeFits (s : Replica) (msg : MsgRecsAggEchoReady) : Prop :=
  (msg.type = myEcho ∧
      s.recs.reconfigEchoCounter msg.reconfigCount + 1 = s.config.nmajority ∨
    msg.type = myReady ∧
      s.recs.reconfigReadyCounter msg.reconfigCount + 1 = s.config.nmajority) →
    (s.peerOf msg.recs).isSome = true

def Replica.VotersFit (C : Crypto) (s : Replica) (op : Op) : Prop :=
  ∀ x ∈ s.addParts C op, x.2 < x.1.rids.data.length

def Op.Fills : Op → Prop
  | .addBlk body => body.Filled
  | .propose cmds keys vals _ _ => cmds.length ≤ keys.length ∧ cmds.length ≤ vals.length
  | _ => True

def ReplicaConfig.CertFits (c : ReplicaConfig) (qc : QuorumCert) : Prop :=
  c.KnowsSigners qc ∧ qc.rids.Covered

structure ReplicaConfig.Stores (c : ReplicaConfig) (body : Body) : Prop where
  parent : body.parentHashes ≠ []
  cert : c.CertFits body.qc
  filled : body.Filled

/-- The replicas of the cluster have ids of 16 bits, one of them proposes, and the own cluster is
one of those counted. -/
structure Setup.Populated (ps : List PeerId) (c : Setup) : Prop extends c.Enrolled ps where
  narrow : ps.length ≤ 2 ^ 16
  proposer : c.proposer < ps.length
  cluster : c.clusterId < c.nClusters

theorem lookup_zipIdx (ps : List PeerId) (k rid : ℕ) :
    (((ps.zipIdx k).map Prod.swap).lookup rid).isSome = true ↔ k ≤ rid ∧ rid < k + ps.length := by
  induction ps generalizing k with
  | nil =>
    refine iff_of_false Bool.false_ne_true ?_
    rw [List.length_nil]
    omega
  | cons p ps ih =>
    rw [List.zipIdx_cons, List.map_cons, Prod.swap_prod_mk, List.lookup_cons, List.length_cons]
    by_cases hk : rid = k
    · subst hk
      simp
    · rw [beq_eq_false_iff_ne.mpr hk]
      refine (ih (k + 1)).trans ?_
      omega

theorem registered_iff {ps : List PeerId} {cfg : ReplicaConfig}
    (h : cfg.replicaMap = ps.zipIdx.map Prod.swap) (rid : ReplicaID) :
    cfg.Registered rid ↔ rid < ps.length := by
  unfold ReplicaConfig.Registered ReplicaConfig.getPeerId
  rw [h, lookup_zipIdx ps 0 rid, Nat.zero_add]
  exact and_iff_right (Nat.zero_le rid)

theorem Bits.mem_ids_set {b : Bits} {i j : ℕ} (h : j ∈ (b.set i).ids) : j = i ∨ j ∈ b.ids := by
  rw [mem_ids] at h ⊢
  obtain ⟨hlt, hget⟩ := h
  by_cases hij : i = j
  · exact .inl hij.symm
  · refine .inr ⟨hlt, ?_⟩
    unfold Bits.get Bits.set at hget
    rw [List.getD_eq_getElem?_getD, List.getElem?_set_ne hij] at hget
    unfold Bits.get
    rw [List.getD_eq_getElem?_getD]
    exact hget

theorem Bits.ids_cleared (k : ℕ) : (Bits.cleared k).ids = [] := by
  unfold ids
  rw [List.filter_eq_nil_iff]
  intro i _
  rw [get_cleared]
  exact Bool.false_ne_true

theorem Bits.covered_cleared (k : ℕ) : (Bits.cleared k).Covered := by
  change k ≤ (List.replicate (64 * ((k + 63) / 64)) false).length
  rw [List.length_replicate]
  omega

theorem Bits.Covered.set {b : Bits} (h : b.Covered) (i : ℕ) : (b.set i).Covered := by
  unfold Covered Bits.set
  rw [List.length_set]
  exact h

theorem QuorumCert.addPart_rids {qc qc' : QuorumCert} {rid : ReplicaID} {pc : PartCert}
    (h : qc.addPart rid pc = some qc') : qc'.rids = qc.rids.set rid := by
  unfold addPart at h
  split at h
  · rw [← Option.some.inj h]
  · cases h

theorem certFits_rule {ps : List PeerId} {cfg : ReplicaConfig}
    (h : cfg.replicaMap = ps.zipIdx.map Prod.swap) (hnarrow : ps.length ≤ 2 ^ 16) :
    CertRule cfg.CertFits (· < ps.length) := by
  constructor
  · intro c b
    refine ⟨.inr ?_, Bits.covered_cleared c.nreplicas⟩
    intro i hi
    rw [show (createQuorumCert c b).rids = Bits.cleared c.nreplicas from rfl,
      Bits.ids_cleared] at hi
    exact absurd hi List.not_mem_nil
  · intro qc qc' rid pc hqc hrid hadd
    have hobj := QuorumCert.addPart_objHash hadd
    have hset := QuorumCert.addPart_rids hadd
    constructor
    · rcases hqc.1 with h0 | hids
      · exact .inl (hobj.trans h0)
      right
      intro i hi
      rw [hset] at hi
      rcases Bits.mem_ids_set hi with rfl | hold
      · rw [Nat.mod_eq_of_lt (lt_of_lt_of_le hrid hnarrow)]
        exact (registered_iff h i).mpr hrid
      · exact hids i hold
    · rw [hset]
      exact hqc.2.set rid

theorem length_clearTracker (n clusterId : ℕ) (a : List ℤ) :
    (clearTracker n clusterId a).length = a.length := by
  have hfold : ∀ (is : List ℕ) (a : List ℤ),
      (is.foldl (fun a i => a.set i 0) a).length = a.length := by
    intro is
    induction is with
    | nil => exact fun _ => rfl
    | cons i is ih => exact fun a => (ih (a.set i 0)).trans List.length_set
  unfold clearTracker
  rw [List.length_set]
  exact hfold _ a

namespace Replica
variable (s : Replica)

theorem RecsOnly.mcView {s u : Replica} (h : RecsOnly s u) : u.mcView = s.mcView := by
  have hrest := congrArg Replica.mcView h.rest
  exact hrest

theorem exec_mcView (C : Crypto) {op : Op} (hop : op.countsMc = false) :
    (s.exec C op).1.mcView = s.mcView := by
  cases op with
  | receiveMcLocal prop x => cases hop
  | relayMc prop x => cases hop
  | remoteViewChangeTimeout cid =>
    exact s.view_of_uncomplained (fun _ => rfl) (s.remoteViewChangeTimeout_uncomplained C cid)
  | receiveLComplain c =>
    exact s.view_of_uncomplained (fun _ => rfl) (s.onReceiveLComplain_uncomplained C c)
  | receiveRComplain c junk =>
    exact s.view_of_unrotated (fun _ => rfl) (s.onReceiveRComplain_unrotated c junk)
  | msgRecs r => exact (s.msgRecsHandler_recsOnly r).mcView
  | sendReconfigAck fin r =>
    have hanswer := mcView_congr (s.answerClient_frame fin)
    change (s.sendReconfigAck fin r).mcView = s.mcView
    unfold sendReconfigAck
    simp only []
    split
    · exact hanswer
    · exact hanswer
  | msgRecsAggEchoReady msg => exact (s.msgRecsAggEchoReadyHandler_recsOnly msg).mcView
  | _ => exact mcView_congr (s.exec_frame C rfl)

theorem exec_leader (C : Crypto) (op : Op) : (s.exec C op).1.pmaker.proposer = s.pmaker.proposer ∨
    (s.exec C op).1.pmaker.proposer = (s.pmaker.proposer + 1) % s.config.nreplicas := by
  cases hop : op.keepsLeader with
  | true => exact .inl (congrArg Rotation.proposer (s.exec_rotation C hop))
  | false =>
    cases op with
    | receiveRComplain c junk =>
      change (s.onReceiveRComplain c junk).1.pmaker.proposer = _ ∨
        (s.onReceiveRComplain c junk).1.pmaker.proposer = _
      unfold onReceiveRComplain
      split
      · exact .inl rfl
      split
      · exact .inl rfl
      split
      · exact .inl rfl
      rename_i blk _ _ _
      generalize hu : s.modifyBlk c.blkHash (fun b => { b with
        rcomplains := insert c.voter b.rcomplains }) = u
      have hleader : u.pmaker.proposer = s.pmaker.proposer := by rw [← hu]; rfl
      have hn : u.config.nreplicas = s.config.nreplicas := by rw [← hu]; rfl
      cases hfind : u.storage.findBlkHashForCid c.blkHeight.toNat with
      | none =>
        left
        unfold sendRComplainLocal
        simp only [show (u.emit (.rcomplainLocal c u.recs.peersCurrent)).storage = u.storage
          from rfl, hfind]
        exact hleader
      | some h =>
        right
        have hrot := congrArg Rotation.proposer (u.sendRComplainLocal_spec junk hfind).1
        rw [← hleader, ← hn]
        exact hrot
    | msgRecsAggEchoReady msg =>
      left
      have hrest := congrArg Replica.pmaker (s.msgRecsAggEchoReadyHandler_recsOnly msg).rest
      exact congrArg PaceMaker.proposer hrest
    | _ => cases hop

/-- The arrays that are kept are long enough for the loop over the clusters. -/
theorem receiveMcLocal_trackers (prop : Proposal) (x : ℤ)
    (h : ∀ k a, s.mcView.trackers k = some a → s.mc.nClusters ≤ a.length) :
    ∀ k a, (s.receiveMcLocal prop x).1.mcView.trackers k = some a → s.mc.nClusters ≤ a.length := by
  have hsync := s.syncReconfigCount_mcView prop
  have hn : (s.syncReconfigCount prop).mc.nClusters = s.mc.nClusters :=
    congrArg McView.nClusters hsync
  unfold receiveMcLocal
  simp only []
  generalize s.syncReconfigCount prop = u at hsync hn ⊢
  rw [← hsync, ← hn] at h
  rw [← hn]
  split
  · exact h
  unfold countMc
  split
  · exact h
  rename_i a _
  have hstore : ∀ (w : Replica) (b : List ℤ), w.mcView.trackers = u.mcView.trackers →
      u.mc.nClusters ≤ b.length → ∀ k a',
        (w.storeTracker prop.otherClusterBlockHeight b).mcView.trackers k = some a' →
          u.mc.nClusters ≤ a'.length := by
    intro w b hw hb k a' ha'
    rw [storeTracker_mcView] at ha'
    by_cases hk : k = prop.otherClusterBlockHeight
    · subst hk
      simp only [Function.update_self] at ha'
      rw [← Option.some.inj ha']
      exact hb
    · simp only [Function.update_of_ne hk, hw] at ha'
      exact h k a' ha'
  split
  · exact h
  rename_i hlen
  split
  · refine hstore _ _ ?_ ?_
    · rw [finishMc_mcView]
    · rw [length_clearTracker]
      omega
  · exact hstore u a rfl (by omega)

structure Fit (C : Crypto) (ps : List PeerId) (c : Setup) (s : Replica) : Prop where
  booked : s.ledger.Booked
  sane : s.tree.Sane C
  certs : s.EveryCert c.config.CertFits
  filled : ∀ h m, s.tree h = some m → m.body.Filled
  counted : s.roster.Counted ps
  leader : s.pmaker.proposer < ps.length
  own : s.clusterId = c.clusterId
  nClusters : s.mc.nClusters = c.nClusters
  trackers : ∀ k a, s.mcView.trackers k = some a → s.mc.nClusters ≤ a.length

structure Admits (c : Setup) (ps : List PeerId) (s : Replica) (op : Op) : Prop where
  parented : s.Parented (.op op)
  brings : op.Brings c.config.CertFits (· < ps.length)
  fills : op.Fills

theorem admits_addBlk {c : Setup} {ps : List PeerId} {s : Replica} {body : Body}
    (h : c.config.Stores body) : s.Admits c ps (.addBlk body) :=
  ⟨h.parent, h.cert, h.filled⟩

theorem nreplicas_bounds {ps : List PeerId} {s : Replica} (k : s.roster.Counted ps) :
    0 < s.config.nreplicas ∧ s.config.nreplicas ≤ ps.length := by
  have hn : s.config.nreplicas =
      (s.recs.peers.filter fun p => decide (p ∉ s.recs.leaveSet)).length + 1 := k.nreplicas
  have hpeers : s.recs.peers = ps.eraseIdx s.id := k.peers
  have hown : s.id < ps.length := k.own
  have hle : (s.recs.peers.filter fun p => decide (p ∉ s.recs.leaveSet)).length ≤
      s.recs.peers.length := List.length_filter_le ..
  have hlen : s.recs.peers.length = ps.length - 1 := by
    rw [hpeers, List.length_eraseIdx_of_lt hown]
  have hpos : 0 < ps.length := Nat.zero_lt_of_lt hown
  rw [hn]
  constructor
  · exact Nat.succ_pos _
  · omega

section
variable {C : Crypto} {ps : List PeerId} {c : Setup} {s : Replica}

theorem onPropose_bodies {P : Body → Prop} (w : s.tree.Wf)
    (hs : ∀ h m, s.tree h = some m → P m.body) (cmds : List Hash) (keys vals : List ℤ)
    (parents : List Hash) (extra : List UInt8)
    (hnew : P ⟨parents, cmds, keys, vals, s.hqc.2, extra⟩) :
    ∀ h m, (s.onPropose C cmds keys vals parents extra).1.tree h = some m → P m.body := by
  unfold onPropose
  split
  · exact hs
  rename_i p _
  simp only []
  have hdeliver := storeProposal_steps (G := .any) (s := s)
    (C.getHash (s.newBlock cmds keys vals parents p extra).body)
    (b := s.newBlock cmds keys vals parents p extra) rfl rfl parents trivial trivial
  have hstored := storeProposal_bodies (s := s)
    (C.getHash (s.newBlock cmds keys vals parents p extra).body)
    (b := s.newBlock cmds keys vals parents p extra) parents hs hnew
  generalize C.getHash (s.newBlock cmds keys vals parents p extra).body = h at hdeliver hstored ⊢
  generalize s.storeProposal h (s.newBlock cmds keys vals parents p extra) parents = u
    at hdeliver hstored ⊢
  have hlinked := (onDeliverBlk_steps (G := .noStore) (s := u) h trivial).bodies
    Ledger.Guard.noStore_store hstored
  have w' := hdeliver.wf w
  generalize hr : u.onDeliverBlk h = r at hlinked w' ⊢
  obtain ⟨v, e | valid⟩ := r
  · exact hlinked
  · exact (updateProposal_steps (G := .noStore) update_updates C w' (onDeliverBlk_ok hr)
      fun _ _ _ => trivial).bodies Ledger.Guard.noStore_store hlinked

theorem exec_filled (w : s.tree.Wf) (hs : ∀ h m, s.tree h = some m → m.body.Filled) {op : Op}
    (hop : op.Fills) : ∀ h m, (s.exec C op).1.tree h = some m → m.body.Filled := by
  cases op with
  | addBlk body => exact addBlk_bodies _ hs hop
  | propose cmds keys vals parents extra => exact onPropose_bodies w hs _ _ _ _ _ hop
  | _ =>
    refine (exec_steps C w _).bodies ?_ hs
    rintro x (⟨body, hbody, -⟩ | hmade)
    · cases hbody
    · cases hmade

theorem Fit.registered_iff (f : s.Fit C ps c) (rid : ReplicaID) :
    s.config.Registered rid ↔ rid < ps.length :=
  AvaHotstuff.registered_iff f.counted.replicaMap rid

/-- A call keeps the own cluster, the number of clusters and the length of the arrays. -/
theorem Fit.counts (f : s.Fit C ps c) (op : Op) : (s.exec C op).1.clusterId = s.clusterId ∧
    (s.exec C op).1.mc.nClusters = s.mc.nClusters ∧
      ∀ k a, (s.exec C op).1.mcView.trackers k = some a → s.mc.nClusters ≤ a.length := by
  cases hcounts : op.countsMc with
  | false =>
    have hview := s.exec_mcView C hcounts
    rw [hview]
    exact ⟨congrArg McView.clusterId hview, congrArg McView.nClusters hview, f.trackers⟩
  | true =>
    cases op with
    | receiveMcLocal prop x =>
      obtain ⟨hown, hn, -⟩ := s.receiveMcLocal_mcView prop x
      exact ⟨hown, hn, s.receiveMcLocal_trackers prop x f.trackers⟩
    | relayMc prop x =>
      change (s.relayMc prop x).1.clusterId = _ ∧ (s.relayMc prop x).1.mc.nClusters = _ ∧
        ∀ k a, (s.relayMc prop x).1.mcView.trackers k = some a → _
      unfold relayMc
      split
      · exact ⟨rfl, rfl, f.trackers⟩
      · have htr := f.trackers
        generalize hu : s.emit (.relay (s.propSameCluster prop) s.recs.peersCurrent) = u
        have hview : u.mcView = s.mcView := by
          rw [← hu]
          rfl
        have hn' : u.mc.nClusters = s.mc.nClusters := congrArg McView.nClusters hview
        obtain ⟨hown, hn, -⟩ := u.receiveMcLocal_mcView (s.propSameCluster prop) x
        rw [← hview, ← hn'] at htr
        rw [← hn']
        exact ⟨hown.trans (congrArg McView.clusterId hview), hn,
          u.receiveMcLocal_trackers (s.propSameCluster prop) x htr⟩
    | _ => cases hcounts

theorem Fit.exec (hc : c.Populated ps) (f : s.Fit C ps c) {op : Op} (hop : s.Admits c ps op) :
    (s.exec C op).1.Fit C ps c := by
  have hid : s.id < ps.length := f.counted.own
  obtain ⟨hown, hn, htrackers⟩ := f.counts op
  refine ⟨?_, exec_sane f.sane f.booked.toChained hop.parented, ?_,
    exec_filled f.booked.wf f.filled hop.fills, ?_, ?_, hown.trans f.own, hn.trans f.nClusters, ?_⟩
  · exact (exec_steps C f.booked.wf op).invariant f.booked fun _ _ hstep => hstep.booked
  · exact f.certs.exec (certFits_rule hc.replicaMap hc.narrow) hid hop.brings
  · rcases s.exec_roster C op with hsame | ⟨l, is, hleave⟩
    · rw [hsame]
      exact f.counted
    · rw [hleave]
      exact f.counted.leave l is
  · obtain ⟨hpos, hle⟩ := nreplicas_bounds f.counted
    rcases s.exec_leader C op with hsame | hnext
    · rw [hsame]
      exact f.leader
    · rw [hnext]
      exact lt_of_lt_of_le (Nat.mod_lt _ hpos) hle
  · rw [hn]
    exact htrackers

theorem Fit.parentHashOf (f : s.Fit C ps c) {h : Hash} (hs : (s.tree h).isSome = true)
    (h0 : h ≠ b0) : Access.InRange C s (.parentHashOf h) := by
  obtain ⟨m, hm⟩ := Option.isSome_iff_exists.mp hs
  obtain ⟨blk, hblk, rfl⟩ := s.cache_of_tree hm
  exact ⟨blk, hblk, f.sane.parentHashes h _ hm h0⟩

theorem Fit.ancestors (f : s.Fit C ps c) : Access.InRange C s .ancestors := by
  intro bound b
  obtain ⟨q, e, hw⟩ := f.sane.walk_total f.booked.wf bound b
  change (Ancestry.walk s.tree.parent0 s.tree.height bound (s.tree.height b) b).isSome = true
  rw [hw]
  rfl

theorem Fit.stored_of_height (f : s.Fit C ps c) {h : Hash} (hd : s.delivered h = true)
    (hle : 1 ≤ s.tree.height h) : (s.tree h).isSome = true ∧ h ≠ b0 := by
  obtain ⟨m, hm, -⟩ := Tree.exists_of_delivered hd
  refine ⟨by rw [hm]; rfl, ?_⟩
  rintro rfl
  rw [show s.tree.height b0 = 0 from f.booked.wf.height_genesis] at hle
  omega

theorem Fit.committed (f : s.Fit C ps c) {h : Hash} (he : Event.consensus h ∈ s.trace) :
    (s.tree h).isSome = true ∧ h ≠ b0 := by
  have hmem : h ∈ consensusBlks s.ledger.log := by
    change h ∈ consensusBlks (s.trace.filter Event.onLedger)
    rw [consensusBlks_filter]
    exact List.mem_filterMap.mpr ⟨_, he, rfl⟩
  have hheight : s.tree.height h ∈ (consensusBlks s.ledger.log).map s.ledger.tree.height :=
    List.mem_map_of_mem hmem
  rw [f.booked.toChained.heights.1, List.mem_range'_1] at hheight
  exact f.stored_of_height (f.booked.toChained.committed_delivered hmem) hheight.1

theorem Fit.executed (f : s.Fit C ps c) {k : ℕ} {h : Hash} (he : Event.execute k h ∈ s.trace) :
    (s.tree h).isSome = true ∧ h ≠ b0 := by
  have hrun : (k, h) ∈ executions s.ledger.log := by
    refine List.mem_filterMap.mpr ⟨.execute k h, ?_, rfl⟩
    exact List.mem_filter.mpr ⟨he, rfl⟩
  obtain ⟨hd, hheight⟩ := f.booked.ran _ hrun
  have hk : k ∈ s.ledger.executedHeights := List.mem_map.mpr ⟨(k, h), hrun, rfl⟩
  have hone := ((f.booked.updated k).mp (f.booked.mem_executedHeights hk).1).1
  apply f.stored_of_height hd
  rw [show s.tree.height h = k from hheight]
  exact hone

theorem Fit.bitsOf (f : s.Fit C ps c) (h : Hash) : ∀ x ∈ s.bitsOf h, x.InRange C s := by
  intro x hx
  obtain ⟨blk, hblk, rfl⟩ := List.mem_map.mp hx
  have hcache := Option.mem_toList.mp hblk
  exact (f.certs.tree h blk.toBlockNode (s.tree_of_cache hcache)).2

theorem Fit.events (f : s.Fit C ps c) {e : Event} (he : e ∈ s.trace) :
    ∀ x ∈ e.accesses s, x.InRange C s := by
  intro x hx
  cases e with
  | consensus h =>
    obtain ⟨hs, h0⟩ := f.committed he
    rcases List.mem_cons.mp hx with rfl | hx
    · exact f.parentHashOf hs h0
    · exact f.bitsOf h x hx
  | execute k h =>
    obtain ⟨hs, h0⟩ := f.executed he
    rcases List.mem_cons.mp hx with rfl | hx
    · exact f.parentHashOf hs h0
    · rw [List.mem_singleton.mp hx]
      obtain ⟨m, hm⟩ := Option.isSome_iff_exists.mp hs
      obtain ⟨blk, hblk, rfl⟩ := s.cache_of_tree hm
      exact ⟨blk, hblk, f.filled h _ hm⟩
  | _ => exact absurd hx List.not_mem_nil

theorem commit_breach {blk : Hash} (h : (s.commit blk).2 = some .safetyBreached) :
    (s.commit blk).1 = s ∧ s.checkAncestry s.bExec blk = false := by
  unfold commit at h ⊢
  split at h
  · cases h
  rename_i q e hw
  have hcheck : s.checkAncestry s.bExec blk = decide (e = s.bExec) := by
    unfold checkAncestry
    rw [hw]
  split at h
  · rename_i hne
    rw [if_pos hne, hcheck]
    exact ⟨rfl, decide_eq_false hne⟩
  · cases h

theorem updateExec_breach {b2 b1 : Hash} (hq : s.qcRef b2 = some b1)
    (hdec2 : s.decided b2 = false) (hdec1 : s.decided b1 = false)
    (h : (s.updateExec b2 b1).2 = some .safetyBreached) :
    (s.updateExec b2 b1).1 = s ∧ ¬s.CommitsAbove b2 := by
  unfold updateExec at h ⊢
  cases hq1 : s.qcRef b1 with
  | none =>
    rw [hq1] at h
    cases h
  | some b =>
    simp only [hq1] at h ⊢
    split at h
    · cases h
    rename_i hdec
    split at h
    · cases h
    rename_i p2 hp2
    split at h
    · cases h
    rename_i heq2
    split at h
    · cases h
    rename_i p1 hp1
    split at h
    · cases h
    rename_i heq1
    rw [not_not] at heq2 heq1
    subst heq2 heq1
    obtain ⟨hsame, hanc⟩ := commit_breach h
    rw [if_neg hdec]
    refine ⟨?_, ?_⟩
    · simp only [ne_eq, not_true_eq_false, if_false]
      exact hsame
    intro habove
    rw [habove _ (mem_commitTarget.mpr ⟨p2, hq, hq1, hdec2, hdec1,
      Bool.eq_false_of_not_eq_true hdec, hp2, hp1⟩)] at hanc
    cases hanc

/-- The state in which `update` finds that it does not commit above `b_exec`. -/
def Breached (s : Replica) (nblk : Hash) : Prop :=
  ∃ b2, s.qcRef nblk = some b2 ∧ ¬s.CommitsAbove b2

theorem updateChain_breach {nblk : Hash} (h : (s.updateChain nblk).2 = some .safetyBreached) :
    (s.updateChain nblk).1.Breached nblk := by
  unfold updateChain at h ⊢
  cases hn : s.storage.blkCache nblk with
  | none =>
    rw [hn] at h
    cases h
  | some n =>
    simp only [hn] at h ⊢
    cases hq : n.qcRef with
    | none =>
      rw [hq] at h
      cases h
    | some b2 =>
      simp only [hq] at h ⊢
      by_cases hdec2 : s.decided b2 = true
      · rw [if_pos hdec2] at h
        cases h
      rw [if_neg hdec2] at h ⊢
      have hqc : s.qcRef nblk = some b2 := (Tree.qcRef_of (s.tree_of_cache hn)).trans hq
      have htree : (s.updateHqc b2 n.body.qc).tree = s.tree :=
        congrArg Ledger.tree (updateHqc_ledger s b2 n.body.qc)
      replace hqc : (s.updateHqc b2 n.body.qc).qcRef nblk = some b2 :=
        (congrArg (Tree.qcRef · nblk) htree).trans hqc
      replace hdec2 : (s.updateHqc b2 n.body.qc).decided b2 = false :=
        (congrArg (Tree.decided · b2) htree).trans (Bool.eq_false_of_not_eq_true hdec2)
      generalize s.updateHqc b2 n.body.qc = u at h hqc hdec2 ⊢
      cases h1 : u.qcRef b2 with
      | none =>
        rw [h1] at h
        cases h
      | some b1 =>
        simp only [h1] at h ⊢
        by_cases hdec1 : u.decided b1 = true
        · rw [if_pos hdec1] at h
          cases h
        rw [if_neg hdec1] at h ⊢
        obtain ⟨hlock, -⟩ := updateLock_rest (s := u) b1
        obtain ⟨hsame, hbreach⟩ := updateExec_breach
          ((congrArg (Tree.qcRef · b2) hlock).trans h1)
          ((congrArg (Tree.decided · b2) hlock).trans hdec2)
          ((congrArg (Tree.decided · b1) hlock).trans (Bool.eq_false_of_not_eq_true hdec1)) h
        rw [hsame]
        exact ⟨b2, (congrArg (Tree.qcRef · nblk) hlock).trans hqc, hbreach⟩

theorem update_breach {nblk : Hash} (h : (s.update nblk).2 = some .safetyBreached) :
    (s.update nblk).1.Breached nblk := by
  have hchain := @updateChain_breach s nblk
  unfold update at h ⊢
  generalize s.updateChain nblk = r at h hchain ⊢
  obtain ⟨u, none | e⟩ := r
  · cases h
  · exact hchain h

theorem onReceiveProposal_breach {proposer : ReplicaID} {b : Hash}
    (h : (s.onReceiveProposal C proposer b).2 = some .safetyBreached) :
    (s.onReceiveProposal C proposer b).1.Breached b := by
  unfold onReceiveProposal at h ⊢
  split at h
  · exact absurd h (Cluster.judgeProposal_unbreached C s true b)
  rename_i hother
  rw [if_neg hother]
  split at h
  · cases h
  rename_i hd
  rw [if_neg hd]
  have hbreach := @update_breach s b
  generalize s.update b = r at h hbreach ⊢
  obtain ⟨u, none | e⟩ := r
  · exact absurd h (Cluster.judgeProposal_unbreached C u false b)
  · exact hbreach h

theorem finishProposal_unbreached (C : Crypto) (s : Replica) (b : Hash) :
    (s.finishProposal C b).2 ≠ some .safetyBreached := by
  unfold finishProposal onReceiveProposal
  rw [if_pos rfl]
  split
  · exact fun h => by cases h
  have hjudge := Cluster.judgeProposal_unbreached C s true b
  generalize s.judgeProposal C true b = r at hjudge ⊢
  obtain ⟨u, none | e⟩ := r
  · exact fun h => by cases h
  · exact hjudge

theorem onPropose_breach {cmds : List Hash} {keys vals : List ℤ} {parents : List Hash}
    {extra : List UInt8} {b : Hash}
    (hb : s.proposes C (.propose cmds keys vals parents extra) = some b)
    (h : (s.onPropose C cmds keys vals parents extra).2 = some .safetyBreached) :
    (s.onPropose C cmds keys vals parents extra).1.Breached b := by
  obtain ⟨p, hp, rfl⟩ := Option.map_eq_some_iff.mp hb
  unfold onPropose at h ⊢
  simp only [hp] at h ⊢
  generalize s.storeProposal _ (s.newBlock cmds keys vals parents p extra) parents = u at h ⊢
  generalize C.getHash (s.newBlock cmds keys vals parents p extra).body = b at h ⊢
  have hdelivery := u.delivery b
  generalize u.onDeliverBlk b = r at h hdelivery ⊢
  obtain ⟨v, e | valid⟩ := r
  · cases h
    cases hdelivery
  simp only [] at h ⊢
  have hbreach := @update_breach v b
  generalize v.update b = r at h hbreach ⊢
  obtain ⟨w, none | e⟩ := r
  · exact absurd h (finishProposal_unbreached C w b)
  · exact hbreach h

theorem exec_breach {op : Op} {b : Hash} (hb : s.updates C op = some b)
    (h : (s.exec C op).2 = some .safetyBreached) : (s.exec C op).1.Breached b := by
  cases op with
  | receiveProposal proposer blk =>
    rw [← Option.some.inj hb]
    exact onReceiveProposal_breach h
  | propose cmds keys vals parents extra => exact onPropose_breach hb h
  | _ => cases hb

/-- The block to commit is undecided and `b_exec` is no ancestor of it, so neither is genesis. -/
theorem Fit.breached (f : s.Fit C ps c) {nblk b : Hash} (h : s.Breached nblk)
    (hb : b = s.bExec ∨ (s.qcRef nblk).bind s.commitTarget = some b) :
    Access.InRange C s (.parentHashOf b) := by
  have hstored : ∀ x, s.delivered x = true → (s.tree x).isSome = true := by
    intro x hx
    obtain ⟨m, hm, -⟩ := Tree.exists_of_delivered hx
    rw [hm]
    rfl
  obtain ⟨b2, hq, hnot⟩ := h
  rcases hb with rfl | hb
  · refine f.parentHashOf (hstored _ f.booked.exec) ?_
    intro h0
    apply hnot
    intro b hb
    obtain ⟨b1, -, -, -, -, -, -, hp1⟩ := mem_commitTarget.mp hb
    have hd : s.delivered b = true := f.booked.wf.parent_delivered hp1
    rw [checkAncestry_iff f.booked.wf hd, h0]
    exact f.booked.wf.ranked.root_anc hd
  · rw [hq, Option.bind_some] at hb
    obtain ⟨b1, -, -, -, -, hdec, -, hp1⟩ := mem_commitTarget.mp hb
    refine f.parentHashOf (hstored _ (f.booked.wf.parent_delivered hp1)) ?_
    have hledger : s.ledger.tree.decided b = false := hdec
    refine decided_ne_genesis f.booked.toChained ?_
    rw [hledger]
    decide

theorem Fit.updateAccesses (hc : c.Populated ps) (f : s.Fit C ps c) {op : Op}
    (hop : s.Admits c ps op) : ∀ r ∈ s.updateAccesses C op, r.2.InRange C r.1 := by
  intro r hr
  obtain ⟨b, hb, hr⟩ := List.mem_flatMap.mp hr
  rw [Option.mem_toList] at hb
  rcases List.mem_append.mp hr with hr | hr
  · split at hr
    · exact absurd hr List.not_mem_nil
    · rw [List.mem_singleton.mp hr]
      exact (f.registered_iff _).mpr f.leader
  split at hr
  · rename_i h
    have f' := f.exec hc hop
    have hbreach := exec_breach hb h
    rcases List.mem_append.mp hr with hr | hr
    · obtain ⟨x, hx, rfl⟩ := List.mem_map.mp hr
      exact f'.breached hbreach (.inr (Option.mem_toList.mp hx))
    · rw [List.mem_singleton.mp hr]
      exact f'.breached hbreach (.inl rfl)
  · exact absurd hr List.not_mem_nil

theorem Fit.sentBits (f : s.Fit C ps c) (op : Op) : ∀ x ∈ s.sentBits op, x.InRange C s := by
  intro x hx
  cases op with
  | propose =>
    rw [List.mem_singleton.mp hx]
    exact f.certs.head.hqc.2
  | relayMc prop k =>
    unfold Replica.sentBits at hx
    simp only [] at hx
    split at hx
    · exact absurd hx List.not_mem_nil
    · exact f.bitsOf _ x hx
  | _ => exact absurd hx List.not_mem_nil

/-- The accesses of a call whose outcome is defined and that does not come to `decide_after_mc`. -/
theorem Fit.accesses (hc : c.Populated ps) (f : s.Fit C ps c) (op : Op) (hop : s.Admits c ps op)
    (hvoters : s.VotersFit C op) (hdef : (s.exec C op).2 ≠ some .undefined)
    (hmc : s.decidesAfterMc op = false) : ∀ r ∈ s.accesses C op, r.2.InRange C r.1 := by
  intro r hr
  unfold Replica.accesses at hr
  simp only [List.mem_append] at hr
  rcases hr with ((((hr | hr) | hr) | hr) | hr) | hr
  · rcases List.mem_cons.mp hr with rfl | hr
    · exact hdef
    · rw [List.mem_singleton.mp hr]
      exact f.ancestors
  · rw [hmc] at hr
    exact absurd hr List.not_mem_nil
  · obtain ⟨x, hx, rfl⟩ := List.mem_map.mp hr
    exact hvoters x hx
  · obtain ⟨x, hx, rfl⟩ := List.mem_map.mp hr
    exact f.sentBits op x hx
  · exact f.updateAccesses hc hop r hr
  · obtain ⟨x, hx, rfl⟩ := List.mem_map.mp hr
    obtain ⟨e, he, hx⟩ := List.mem_flatMap.mp hx
    exact (f.exec hc hop).events (List.mem_of_mem_drop he) x hx

theorem Fit.verifyAccesses (hc : c.Populated ps) (f : s.Fit C ps c) {body : Body}
    (hq : c.config.CertFits body.qc) : ∀ r ∈ s.verifyAccesses body, r.2.InRange C r.1 := by
  intro r hr
  unfold Replica.verifyAccesses at hr
  split at hr
  · exact absurd hr List.not_mem_nil
  rename_i hcase
  rcases List.mem_cons.mp hr with rfl | hr
  · exact hq.2
  obtain ⟨i, hi, rfl⟩ := List.mem_map.mp hr
  rcases hq.1 with h0 | hids
  · exact absurd (Or.inl h0) hcase
  · apply (f.registered_iff _).mpr
    exact (AvaHotstuff.registered_iff hc.replicaMap _).mp (hids i hi)

theorem Fit.deliverAccesses (f : s.Fit C ps c) {h : Hash} (hs : (s.tree h).isSome = true)
    (h0 : h ≠ b0) : ∀ r ∈ s.deliverAccesses h, r.2.InRange C r.1 := by
  intro r hr
  rcases List.mem_cons.mp hr with rfl | hr
  · obtain ⟨m, hm⟩ := Option.isSome_iff_exists.mp hs
    have hdef := onDeliverBlk_defined hm fun _ => f.sane.parentHashes h m hm h0
    change (s.deliverOutcome h).2 ≠ some .undefined
    unfold deliverOutcome
    split
    · exact fun h => by cases h
    · rename_i e heq
      rw [heq] at hdef
      intro he
      exact hdef (congrArg Except.error (Option.some.inj he))
  · rw [List.mem_singleton.mp hr]
    exact f.parentHashOf hs h0

theorem receiveMcLocal_defined {prop : Proposal} {x : ℤ} (hcluster : s.clusterId < s.mc.nClusters)
    (htrackers : ∀ k a, s.mcView.trackers k = some a → s.mc.nClusters ≤ a.length)
    (hfit : s.didReceiveMc prop.otherClusterBlockHeight = false →
      prop.preAmpClusterNumber < s.mc.nClusters ∧
        (s.mc.cidToClusterTrackerArray prop.otherClusterBlockHeight = none → x ≤ 0)) :
    (s.receiveMcLocal prop x).2 ≠ some .undefined := by
  have hview := s.syncReconfigCount_mcView prop
  have hfin : (s.syncReconfigCount prop).didReceiveMc prop.otherClusterBlockHeight =
      s.didReceiveMc prop.otherClusterBlockHeight :=
    congrArg (fun v : McView => decide (prop.otherClusterBlockHeight ∈ v.finished)) hview
  have hown : (s.syncReconfigCount prop).clusterId = s.clusterId := congrArg McView.clusterId hview
  have hn : (s.syncReconfigCount prop).mc.nClusters = s.mc.nClusters :=
    congrArg McView.nClusters hview
  have htr : (s.syncReconfigCount prop).mc.cidToClusterTrackerArray =
      s.mc.cidToClusterTrackerArray := congrArg McView.trackers hview
  unfold Replica.receiveMcLocal
  simp only []
  rw [hfin]
  split
  · exact fun h => by cases h
  rename_i hopen
  obtain ⟨hi, hx⟩ := hfit (by simpa using hopen)
  have harray : ∃ a, (s.syncReconfigCount prop).trackerArray prop.otherClusterBlockHeight x =
      some a ∧ s.mc.nClusters ≤ a.length := by
    unfold trackerArray
    rw [htr, hown, hn]
    cases hold : s.mc.cidToClusterTrackerArray prop.otherClusterBlockHeight with
    | some a => exact ⟨a, rfl, htrackers _ a hold⟩
    | none =>
      have hle := hx hold
      have hlen : s.mc.nClusters ≤ ((s.mc.nClusters : ℤ) - x).toNat := by omega
      simp only [List.length_replicate]
      rw [if_pos (by omega)]
      refine ⟨_, rfl, ?_⟩
      rw [List.length_set, List.length_replicate]
      exact hlen
  obtain ⟨a, ha, hlen⟩ := harray
  have hcount : (s.syncReconfigCount prop).mcArray prop x =
      some (a.set prop.preAmpClusterNumber (a.getD prop.preAmpClusterNumber 0 + 1)) := by
    unfold mcArray countCluster
    rw [ha, Option.bind_some, if_pos (by omega)]
  unfold countMc
  rw [hcount]
  simp only [List.length_set, hn]
  rw [if_neg (by omega)]
  split
  · exact fun h => by cases h
  · exact fun h => by cases h

theorem relayMc_defined {prop : Proposal} {x : ℤ} (hcluster : s.clusterId < s.mc.nClusters)
    (htrackers : ∀ k a, s.mcView.trackers k = some a → s.mc.nClusters ≤ a.length)
    (hfit : s.didReceiveMc prop.otherClusterBlockHeight = false →
      prop.clusterNumber < s.mc.nClusters ∧
        (s.mc.cidToClusterTrackerArray prop.otherClusterBlockHeight = none → x ≤ 0)) :
    (s.relayMc prop x).2 ≠ some .undefined := by
  unfold relayMc
  split
  · exact fun h => by cases h
  · exact receiveMcLocal_defined
      (s := s.emit (.relay (s.propSameCluster prop) s.recs.peersCurrent)) hcluster htrackers hfit

theorem Fit.cluster (hc : c.Populated ps) (f : s.Fit C ps c) : s.clusterId < s.mc.nClusters := by
  rw [f.own, f.nClusters]
  exact hc.cluster

theorem onReceiveLComplain_defined (C : Crypto) (v : Complain) :
    (s.onReceiveLComplain C v).2 ≠ some .undefined := by
  unfold onReceiveLComplain
  simp only []
  repeat' split
  all_goals exact fun h => by cases h

theorem remoteViewChangeTimeout_defined (C : Crypto) (cid : ℕ) :
    (s.remoteViewChangeTimeout C cid).2 ≠ some .undefined := by
  unfold remoteViewChangeTimeout
  split
  · exact fun h => by cases h
  rename_i t _
  split
  · simp only []
    split
    · have hcall : ((s.disarm cid t).startLocalComplain C ((s.disarm cid t).height t.blk) t.blk).2 ≠
          some .undefined := onReceiveLComplain_defined C _
      generalize (s.disarm cid t).startLocalComplain C _ t.blk = r at hcall ⊢
      obtain ⟨u, none | e⟩ := r
      · exact fun h => by cases h
      · exact hcall
    · exact fun h => by cases h
  · exact fun h => by cases h

theorem msgRecsAggEchoReady_defined {msg : MsgRecsAggEchoReady} (hfit : s.NodeFits msg) :
    (s.msgRecsAggEchoReadyHandler msg).2 ≠ some .undefined := by
  unfold msgRecsAggEchoReadyHandler
  split
  · exact fun h => by cases h
  split
  · rename_i htype
    unfold onEcho
    simp only []
    split
    · rename_i hcount
      have hsome := hfit (.inl ⟨htype, (Function.update_self ..).symm.trans hcount⟩)
      obtain ⟨p, hp⟩ := Option.isSome_iff_exists.mp hsome
      have hp' : ((s.countEcho msg.reconfigCount).multicastRecs msg.recs myReady
        msg.reconfigCount).peerOf msg.recs = some p := hp
      unfold readyTarget
      rw [hp']
      simp only []
      split
      · rename_i e heq
        split at heq
        · cases heq
        · cases heq
          exact fun h => by cases h
      · exact fun h => by cases h
    · exact fun h => by cases h
  split
  · rename_i htype
    unfold onReady
    simp only []
    split
    · rename_i hcount
      have hsome := hfit (.inr ⟨htype, (Function.update_self ..).symm.trans hcount⟩)
      obtain ⟨p, hp⟩ := Option.isSome_iff_exists.mp hsome
      have hp' : (s.countReady msg.reconfigCount).peerOf msg.recs = some p := hp
      rw [hp']
      exact fun h => by cases h
    · exact fun h => by cases h
  · exact fun h => by cases h

end

end Replica

theorem Setup.Populated.fit {C : Crypto} {ps : List PeerId} {c : Setup} (hc : c.Populated ps) :
    c.start.Fit C ps c := by
  refine ⟨c.start_booked, (Replica.CacheOk.start C c).sane,
    c.start_everyCert (certFits_rule hc.replicaMap hc.narrow), ?_, hc.toEnrolled.counted,
    hc.proposer, rfl, rfl, ?_⟩
  · intro h m hm
    by_cases hh : h = b0
    · subst h
      obtain rfl : (Block.genesis c.config).toBlockNode = m := Option.some.inj hm
      exact ⟨Nat.zero_le _, Nat.zero_le _⟩
    · rw [c.start_absent hh] at hm
      cases hm
  · intro k a ha
    cases ha

end AvaHotstuff
