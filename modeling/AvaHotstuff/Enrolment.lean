import AvaHotstuff.LeaveSets
import AvaHotstuff.Members

set_option autoImplicit false

namespace AvaHotstuff

/-- An entry of the lists that `start_mc` gets. The public key is that of `verifySig`. -/
structure ReplicaEntry where
  addr : ℕ
  certHash : Hash

/-- The two ways in which the network names a peer. -/
structure PeerNames where
  enableTls : Bool
  ofCert : Hash → PeerId
  ofAddr : ℕ → PeerId

def PeerNames.peer (N : PeerNames) (e : ReplicaEntry) : PeerId :=
  if N.enableTls then N.ofCert e.certHash else N.ofAddr e.addr

/-- An id that is taken keeps its entry, and is counted again. -/
def ReplicaConfig.addReplica (c : ReplicaConfig) (rid : ReplicaID) (p : PeerId) :
    ReplicaConfig :=
  { c with
    replicaMap := if (c.replicaMap.lookup rid).isSome then c.replicaMap
      else c.replicaMap ++ [(rid, p)]
    nreplicas := c.nreplicas + 1 }

structure Enlisted where
  config : ReplicaConfig
  peers : List PeerId
  peersCurrent : List PeerId
  knownPeers : List PeerId

def Enlisted.none : Enlisted := ⟨⟨[], 0, 0⟩, [], [], []⟩

section
variable (N : PeerNames) (listenAddr : ℕ)

/-- The loop body for a replica of the own cluster; a `ReplicaID` has 16 bits. -/
def Enlisted.enlist (leaveSet : Finset PeerId) (l : Enlisted) (e : ReplicaEntry × ℕ) : Enlisted :=
  let peer := N.peer e.1
  let l := { l with config := l.config.addReplica (e.2 % 2 ^ 16) peer }
  if e.1.addr ≠ listenAddr then
    { l with
      peers := l.peers ++ [peer]
      peersCurrent := if peer ∉ leaveSet then l.peersCurrent ++ [peer] else l.peersCurrent
      knownPeers := l.knownPeers ++ [peer] }
  else l

def pushNode (members : List (ℕ × List PeerId)) (cluster : ℕ) (p : PeerId) :
    List (ℕ × List PeerId) :=
  if (members.lookup cluster).isSome then
    members.map fun m => if m.1 = cluster then (m.1, m.2 ++ [p]) else m
  else members ++ [(cluster, [p])]

/-- The loop over `all_peers`; a node that `cluster_map` does not list is put into it. -/
def placeNode (m : List (ℕ × ℕ) × List (ℕ × List PeerId)) (p : PeerId × ℕ) :
    List (ℕ × ℕ) × List (ℕ × List PeerId) :=
  match m.1.lookup p.2 with
  | some cluster => (m.1, pushNode m.2 cluster p.1)
  | none => (m.1 ++ [(p.2, 0)], pushNode m.2 0 p.1)

def enlistAll (replicas : List ReplicaEntry) : Enlisted :=
  replicas.zipIdx.foldl (Enlisted.enlist N listenAddr ∅) .none

/-- What `start_mc` and `on_init` fix; `base` holds what the constructor has set and the map of
the clusters. -/
def enrolment (replicas allReplicas otherReplicas : List ReplicaEntry) (base : Setup) : Setup :=
  let own := enlistAll N listenAddr replicas
  let others := (otherReplicas.filter fun e => decide (e.addr ≠ listenAddr)).map N.peer
  let allPeers := allReplicas.map N.peer
  let placed := allPeers.zipIdx.foldl placeNode (base.clusterMap, [])
  let nfaulty := own.peers.length / 3
  { base with
    config := { own.config with nmajority := own.config.nreplicas - nfaulty }
    members := placed.2
    clusterMap := placed.1
    peers := own.peers
    allPeers := allPeers
    knownPeers := own.knownPeers ++ others }

def startMc (replicas allReplicas otherReplicas : List ReplicaEntry) (base : Setup) : Replica :=
  let s := (enrolment N listenAddr replicas allReplicas otherReplicas base).start
  { s with recs := { s.recs with
      peersCurrent := (enlistAll N listenAddr replicas).peersCurrent } }

end

def peersOf (N : PeerNames) (listenAddr : ℕ) (replicas : List ReplicaEntry) : List PeerId :=
  (replicas.filter fun e => decide (e.addr ≠ listenAddr)).map N.peer

section
variable {N : PeerNames} {listenAddr : ℕ}

theorem foldl_enlist (replicas : List ReplicaEntry) (k : ℕ) (l : Enlisted) :
    ((replicas.zipIdx k).foldl (Enlisted.enlist N listenAddr ∅) l).peers =
        l.peers ++ peersOf N listenAddr replicas ∧
      ((replicas.zipIdx k).foldl (Enlisted.enlist N listenAddr ∅) l).peersCurrent =
        l.peersCurrent ++ peersOf N listenAddr replicas ∧
      ((replicas.zipIdx k).foldl (Enlisted.enlist N listenAddr ∅) l).config.nreplicas =
        l.config.nreplicas + replicas.length := by
  induction replicas generalizing k l with
  | nil => simp [peersOf]
  | cons e replicas ih =>
    rw [List.zipIdx_cons, List.foldl_cons]
    obtain ⟨hpeers, hcurrent, hcount⟩ := ih (k + 1) (l.enlist N listenAddr ∅ (e, k))
    rw [hpeers, hcurrent, hcount]
    unfold Enlisted.enlist ReplicaConfig.addReplica peersOf
    by_cases he : e.addr = listenAddr
    · simp [he]
      omega
    · simp [he]
      omega

theorem enlistAll_spec (replicas : List ReplicaEntry) :
    (enlistAll N listenAddr replicas).peers = peersOf N listenAddr replicas ∧
      (enlistAll N listenAddr replicas).peersCurrent = peersOf N listenAddr replicas ∧
      (enlistAll N listenAddr replicas).config.nreplicas = replicas.length := by
  obtain ⟨hpeers, hcurrent, hcount⟩ := @foldl_enlist N listenAddr replicas 0 .none
  refine ⟨hpeers, hcurrent, ?_⟩
  unfold enlistAll
  rw [hcount]
  exact Nat.zero_add _

theorem peersOf_length {replicas : List ReplicaEntry}
    (hown : (replicas.map (·.addr)).count listenAddr = 1) :
    (peersOf N listenAddr replicas).length + 1 = replicas.length := by
  have hcount : replicas.countP (fun e => decide (e.addr = listenAddr)) = 1 := by
    rw [← hown, List.count, List.countP_map]
    congr 1
  have hlen := replicas.length_eq_countP_add_countP fun e => decide (e.addr = listenAddr)
  unfold peersOf
  rw [List.length_map, ← List.countP_eq_length_filter, hlen, hcount, Nat.add_comm]
  simp

end

namespace Roster
variable {r : Roster} {i j : ℤ} {p : PeerId}

def nodePeer (r : Roster) (i : ℤ) : Option PeerId :=
  if i < 0 then none else r.allPeers[i.toNat]?

/-- What the five pieces of the membership have to do with each other. -/
structure Booked (r : Roster) : Prop where
  distinct : r.allPeers.Nodup
  range : ∀ i ∈ r.leaveSetInt, (r.nodePeer i).isSome = true
  image : ∀ p, p ∈ r.leaveSet ↔ ∃ i ∈ r.leaveSetInt, r.nodePeer i = some p
  current : r.peersCurrent = r.peers.filter fun p => decide (p ∉ r.leaveSet)
  nreplicas : r.config.nreplicas = r.peersCurrent.length + 1
  nmajority : r.config.nmajority = r.config.nreplicas - r.peersCurrent.length / 3

theorem nodePeer_inj (h : r.allPeers.Nodup) (hi : r.nodePeer i = some p)
    (hj : r.nodePeer j = some p) : i = j := by
  unfold nodePeer at hi hj
  split at hi
  · cases hi
  split at hj
  · cases hj
  obtain ⟨hlt, hip⟩ := List.getElem?_eq_some_iff.mp hi
  obtain ⟨hlt', hjp⟩ := List.getElem?_eq_some_iff.mp hj
  have heq := (h.getElem_inj_iff).mp (hip.trans hjp.symm)
  omega

theorem Booked.leave_insert (b : r.Booked) (hp : r.nodePeer i = some p) :
    (r.leave (insert p r.leaveSet) (insert i r.leaveSetInt)).Booked := by
  refine ⟨b.distinct, ?_, ?_, rfl, rfl, rfl⟩
  · intro j hj
    rcases Finset.mem_insert.mp hj with rfl | hj
    · exact Option.isSome_iff_exists.mpr ⟨p, hp⟩
    · exact b.range j hj
  · intro q
    change q ∈ insert p r.leaveSet ↔ ∃ j ∈ insert i r.leaveSetInt, r.nodePeer j = some q
    simp only [Finset.mem_insert, exists_eq_or_imp, b.image]
    refine or_congr_left ?_
    rw [hp, Option.some_inj]
    exact eq_comm

theorem Booked.leave_erase (b : r.Booked) (hp : r.nodePeer i = some p) :
    (r.leave (r.leaveSet.erase p) (r.leaveSetInt.erase i)).Booked := by
  refine ⟨b.distinct, fun j hj => b.range j (Finset.mem_of_mem_erase hj), ?_, rfl, rfl, rfl⟩
  intro q
  change q ∈ r.leaveSet.erase p ↔ ∃ j ∈ r.leaveSetInt.erase i, r.nodePeer j = some q
  rw [Finset.mem_erase, b.image]
  constructor
  · rintro ⟨hqp, j, hj, hq⟩
    refine ⟨j, Finset.mem_erase.mpr ⟨?_, hj⟩, hq⟩
    rintro rfl
    exact hqp (Option.some.inj (hq.symm.trans hp))
  · rintro ⟨j, hj, hq⟩
    obtain ⟨hji, hj⟩ := Finset.mem_erase.mp hj
    refine ⟨?_, j, hj, hq⟩
    rintro rfl
    exact hji (nodePeer_inj b.distinct hq hp)

theorem Booked.ext {r' : Roster} (b : r.Booked) (b' : r'.Booked) (hall : r'.allPeers = r.allPeers)
    (hpeers : r'.peers = r.peers) (hmap : r'.config.replicaMap = r.config.replicaMap)
    (hset : r'.leaveSetInt = r.leaveSetInt) :
    r'.leaveSet = r.leaveSet ∧ r'.peersCurrent = r.peersCurrent ∧ r'.config = r.config := by
  have hnode : r'.nodePeer = r.nodePeer := by
    funext i
    unfold nodePeer
    rw [hall]
  have hleave : r'.leaveSet = r.leaveSet := by
    ext p
    rw [b'.image, b.image, hset, hnode]
  have hcurrent : r'.peersCurrent = r.peersCurrent := by
    rw [b'.current, b.current, hleave, hpeers]
  have hsize : r'.config.nreplicas = r.config.nreplicas := by
    rw [b'.nreplicas, b.nreplicas, hcurrent]
  have hmajority : r'.config.nmajority = r.config.nmajority := by
    rw [b'.nmajority, b.nmajority, hsize, hcurrent]
  refine ⟨hleave, hcurrent, ?_⟩
  generalize r'.config = c' at hmap hsize hmajority ⊢
  generalize r.config = c at hmap hsize hmajority ⊢
  cases c
  cases c'
  simp only [ReplicaConfig.mk.injEq]
  exact ⟨hmap, hsize, hmajority⟩

end Roster

namespace Replica
variable {s : Replica}

def InRange (s : Replica) : Op → Prop
  | .msgRecsAggEchoReady msg =>
    0 ≤ msg.recs.nodeNumber ∧ msg.recs.nodeNumber < s.recs.allPeers.length
  | _ => True

inductive Applies (s : Replica) : Replica → Prop where
  | none {u : Replica} (hroster : u.roster = s.roster) (hchanges : u.changes = s.changes) :
      Applies s u
  | leave {u : Replica} {r : Recs} {p : PeerId} (hp : s.roster.nodePeer r.nodeNumber = some p)
      (hroster : u.roster = s.roster.leave (insert p s.recs.leaveSet)
        (insert r.nodeNumber s.recs.leaveSetInt)) (hmode : r.reconfigMode = 1)
      (hchanges : u.changes = s.changes ++ [r]) : Applies s u
  | join {u : Replica} {r : Recs} {p : PeerId} (hp : s.roster.nodePeer r.nodeNumber = some p)
      (hroster : u.roster = s.roster.leave (s.recs.leaveSet.erase p)
        (s.recs.leaveSetInt.erase r.nodeNumber)) (hmode : r.reconfigMode = 0)
      (hchanges : u.changes = s.changes ++ [r]) : Applies s u

theorem msgRecsAggEchoReady_applies (msg : MsgRecsAggEchoReady) :
    s.Applies (s.msgRecsAggEchoReadyHandler msg).1 := by
  unfold msgRecsAggEchoReadyHandler
  split
  · exact .none rfl (emit_changes _ rfl)
  split
  · unfold onEcho
    simp only []
    split
    · split
      · exact .none rfl (emit_changes _ rfl)
      · refine .none rfl ?_
        change (emit _ _).changes = _
        rw [emit_changes _ rfl]
        exact emit_changes _ rfl
    · exact .none rfl rfl
  split
  · unfold onReady
    simp only []
    split
    · split
      · exact .none rfl rfl
      rename_i p hp
      unfold reconfigure
      split
      · rename_i hmode
        exact .leave hp rfl hmode (emit_reconfigured_changes ..)
      split
      · rename_i hmode
        exact .join hp rfl hmode (emit_reconfigured_changes ..)
      · exact .none rfl rfl
    · exact .none rfl rfl
  · exact .none rfl rfl

theorem step_applies (C : Crypto) (op : Op) : s.Applies (s.step C op) := by
  have hview : (s.exec C op).1.recsView = s.recsView → s.Applies (s.exec C op).1 := by
    intro h
    refine .none (congrArg RecsView.roster h) ?_
    rw [changes_eq, changes_eq, h]
  cases op with
  | msgRecsAggEchoReady msg => exact msgRecsAggEchoReady_applies msg
  | msgRecs r => exact .none (s.msgRecsHandler_roster r) (s.msgRecsHandler_roll r).2
  | _ => exact hview (s.exec_recsView C rfl)

structure Booked (c : Setup) (s : Replica) : Prop where
  roster : s.roster.Booked
  rolled : s.Rolled
  allPeers : s.recs.allPeers = c.allPeers
  kept : s.roster.Kept c

theorem Booked.step {c : Setup} (b : s.Booked c) (C : Crypto) (op : Op) :
    (s.step C op).Booked c := by
  have hrolled := (s.exec_roll C op b.rolled).1
  have hkept := b.kept.step C op
  cases s.step_applies C op with
  | none hroster hchanges =>
    refine ⟨?_, hrolled, (congrArg Roster.allPeers hroster).trans b.allPeers, hkept⟩
    rw [hroster]
    exact b.roster
  | leave hp hroster hmode hchanges =>
    refine ⟨?_, hrolled, (congrArg Roster.allPeers hroster).trans b.allPeers, hkept⟩
    rw [hroster]
    exact b.roster.leave_insert hp
  | join hp hroster hmode hchanges =>
    refine ⟨?_, hrolled, (congrArg Roster.allPeers hroster).trans b.allPeers, hkept⟩
    rw [hroster]
    exact b.roster.leave_erase hp

theorem Booked.reach {c : Setup} {C : Crypto} {ok : Replica → Op → Prop} {u : Replica}
    (b : s.Booked c) (h : Runs.Reach ok (Replica.step C) s u) : u.Booked c :=
  h.invariant (Booked c) b fun _ op b _ => b.step C op

theorem Booked.restored {c : Setup} {u : Replica} (b : s.Booked c) (b' : u.Booked c)
    {node cluster cluster' : ℤ}
    (hchanges : u.changes = s.changes ++ [⟨cluster, node, 1⟩, ⟨cluster', node, 0⟩])
    (hout : ∀ p, s.roster.nodePeer node = some p → p ∉ s.recs.leaveSet) :
    u.recs.leaveSetInt = s.recs.leaveSetInt ∧ u.recs.leaveSet = s.recs.leaveSet ∧
      u.recs.peersCurrent = s.recs.peersCurrent ∧ u.config = s.config := by
  have hnode : node ∉ s.recs.leaveSetInt := by
    intro hin
    obtain ⟨p, hp⟩ := Option.isSome_iff_exists.mp (b.roster.range node hin)
    exact hout p hp ((b.roster.image p).mpr ⟨node, hin, hp⟩)
  have hset : u.recs.leaveSetInt = s.recs.leaveSetInt := by
    rw [show u.recs.leaveSetInt = _ from b'.rolled, hchanges, List.foldl_append,
      ← show s.recs.leaveSetInt = _ from b.rolled]
    exact Finset.erase_insert hnode
  exact ⟨hset, b.roster.ext b'.roster (b'.allPeers.trans b.allPeers.symm)
    (b'.kept.peers.trans b.kept.peers.symm) (b'.kept.replicaMap.trans b.kept.replicaMap.symm) hset⟩

end Replica

section
variable {N : PeerNames} {listenAddr : ℕ} {replicas allReplicas otherReplicas : List ReplicaEntry}
  {base : Setup}

theorem startMc_eq : startMc N listenAddr replicas allReplicas otherReplicas base =
    (enrolment N listenAddr replicas allReplicas otherReplicas base).start := by
  obtain ⟨hpeers, hcurrent, -⟩ := @enlistAll_spec N listenAddr replicas
  have hsame : (enlistAll N listenAddr replicas).peersCurrent =
      (enlistAll N listenAddr replicas).peers := hcurrent.trans hpeers.symm
  unfold startMc
  rw [hsame]
  rfl

theorem startMc_booked (hall : (allReplicas.map N.peer).Nodup)
    (hown : (replicas.map (·.addr)).count listenAddr = 1) :
    (startMc N listenAddr replicas allReplicas otherReplicas base).Booked
      (enrolment N listenAddr replicas allReplicas otherReplicas base) := by
  obtain ⟨hpeers, -, hcount⟩ := @enlistAll_spec N listenAddr replicas
  have hsize : (enlistAll N listenAddr replicas).config.nreplicas =
      (enlistAll N listenAddr replicas).peers.length + 1 := by
    rw [hcount, hpeers, peersOf_length hown]
  rw [startMc_eq]
  refine ⟨⟨hall, ?_, ?_, ?_, hsize, rfl⟩, rfl, rfl, Setup.start_kept _⟩
  · intro i hi
    exact absurd hi (Finset.notMem_empty i)
  · intro p
    refine iff_of_false (Finset.notMem_empty p) ?_
    rintro ⟨i, hi, -⟩
    exact absurd hi (Finset.notMem_empty i)
  · exact (List.filter_eq_self.mpr fun p _ => decide_eq_true (Finset.notMem_empty p)).symm

/-- The leave set is the image of the numbers of the nodes that have left. Once a
reconfiguration has been applied, the current peers are the others, in their order, and the
configuration counts them. A node that leaves and joins again leaves all of it as it was. -/
theorem membership_consistent (C : Crypto) (N : PeerNames) (listenAddr : ℕ)
    (replicas allReplicas otherReplicas : List ReplicaEntry) (base : Setup)
    (hall : (allReplicas.map N.peer).Nodup)
    (hown : (replicas.map (·.addr)).count listenAddr = 1) (s : Replica)
    (h : Runs.Reach (fun s op => s.InRange op) (Replica.step C)
      (startMc N listenAddr replicas allReplicas otherReplicas base) s) :
    ((∀ i ∈ s.recs.leaveSetInt, (s.roster.nodePeer i).isSome = true) ∧
      ∀ p, p ∈ s.recs.leaveSet ↔ ∃ i ∈ s.recs.leaveSetInt, s.roster.nodePeer i = some p) ∧
    (s.changes ≠ [] →
      s.recs.peersCurrent = (s.recs.peers.filter fun p => decide (p ∉ s.recs.leaveSet)) ∧
      s.config.nreplicas = s.recs.peersCurrent.length + 1 ∧
      s.config.nmajority = s.config.nreplicas - s.recs.peersCurrent.length / 3) ∧
    ∀ u, Runs.Reach (fun s op => s.InRange op) (Replica.step C) s u →
      ∀ node cluster cluster' : ℤ,
      u.changes = s.changes ++ [⟨cluster, node, 1⟩, ⟨cluster', node, 0⟩] →
      (∀ p, s.roster.nodePeer node = some p → p ∉ s.recs.leaveSet) →
      u.recs.leaveSetInt = s.recs.leaveSetInt ∧ u.recs.leaveSet = s.recs.leaveSet ∧
        u.recs.peersCurrent = s.recs.peersCurrent ∧ u.config = s.config := by
  have b := (@startMc_booked N listenAddr replicas allReplicas otherReplicas base hall hown).reach h
  refine ⟨⟨b.roster.range, b.roster.image⟩, ?_, ?_⟩
  · exact fun _ => ⟨b.roster.current, b.roster.nreplicas, b.roster.nmajority⟩
  · intro u hu node cluster cluster' hchanges hout
    exact b.restored (b.reach hu) hchanges hout

end

instance (s : Replica) : (op : Op) → Decidable (s.InRange op)
  | .msgRecsAggEchoReady msg => inferInstanceAs
    (Decidable (0 ≤ msg.recs.nodeNumber ∧ msg.recs.nodeNumber < s.recs.allPeers.length))
  | .addBlk _ | .deliverBlk _ | .receiveProposal _ _ | .receiveVote _ | .propose _ _ _ _ _
  | .receiveMcLocal _ _ | .relayMc _ _ | .remoteViewChangeTimeout _ | .receiveLComplain _
  | .receiveRComplain _ _ | .msgRecs _ | .sendReconfigAck _ _ | .asyncQcFinish _
  | .waitDecision _ _ => inferInstanceAs (Decidable True)

def quartetStart : Replica :=
  startMc ⟨false, id, id⟩ 11 [⟨10, 0⟩, ⟨11, 0⟩, ⟨12, 0⟩, ⟨13, 0⟩]
    [⟨10, 0⟩, ⟨11, 0⟩, ⟨12, 0⟩, ⟨13, 0⟩, ⟨20, 0⟩, ⟨21, 0⟩] [⟨20, 0⟩, ⟨21, 0⟩]
    { Setup.four 1 with clusterMap := [(0, 0), (1, 0), (2, 0), (3, 0), (4, 1), (5, 1)] }

/-- A reconfiguration of replica 3 is echoed once and made ready by three replicas. -/
def readies (count mode : ℤ) : List Op :=
  [.msgRecsAggEchoReady ⟨⟨0, 3, mode⟩, myEcho, count⟩] ++
    List.replicate 3 (.msgRecsAggEchoReady ⟨⟨0, 3, mode⟩, myReady, count⟩)

def replicaLeft : Replica := Runs.run (Replica.step .sample) quartetStart (readies 1 1)
def replicaBack : Replica := Runs.run (Replica.step .sample) replicaLeft (readies 2 0)

theorem membership_consistent_quartet :
    replicaLeft.recs.peersCurrent = [10, 12] ∧ replicaLeft.config.nmajority = 3 ∧
    replicaLeft.recs.peersCurrent =
      (replicaLeft.recs.peers.filter fun p => decide (p ∉ replicaLeft.recs.leaveSet)) ∧
    replicaBack.recs.peersCurrent = quartetStart.recs.peersCurrent ∧
    replicaBack.config = quartetStart.config := by
  have hleft : Runs.Reach (fun s op => s.InRange op) (Replica.step .sample) quartetStart
      replicaLeft := Runs.reach_run _ .init (by decide +kernel)
  have hback : Runs.Reach (fun s op => s.InRange op) (Replica.step .sample) quartetStart
      replicaBack := Runs.reach_run _ hleft (by decide +kernel)
  have hfirst := membership_consistent .sample ⟨false, id, id⟩ 11 _ _ _ _ (by decide +kernel)
    (by decide +kernel) replicaLeft hleft
  have hstart := membership_consistent .sample ⟨false, id, id⟩ 11 _ _ _ _ (by decide +kernel)
    (by decide +kernel) quartetStart .init
  have hrestored := hstart.2.2 replicaBack hback 3 0 0 (by decide +kernel) (by decide +kernel)
  exact ⟨by decide +kernel, by decide +kernel, (hfirst.2.1 (by decide +kernel)).1,
    hrestored.2.2.1, hrestored.2.2.2⟩

end AvaHotstuff
