import AvaHotstuff.Execution
import AvaHotstuff.Flooding
import AvaHotstuff.Frame
import AvaHotstuff.Network
import AvaHotstuff.Node

set_option autoImplicit false

namespace AvaHotstuff
open Network

/-- `RComplain_handler` on the core. -/
def Replica.rcomplainHandler (C : Crypto) (s : Replica) (c : Complain) (junk : ℤ) : Replica :=
  if c.blkHeight < 0 then s
  else
    match s.storage.findBlkHashForCid c.blkHeight.toNat with
    | none => s
    | some h => s.step C (.receiveRComplain { c with blkHash := h } junk)

/-- The height of a complaint that was taken up and passed on. -/
def Event.raised : Event → Option ℤ
  | .rcomplainLocal c _ => some c.blkHeight
  | _ => none

structure Rotation where
  nreplicas : ℕ
  proposer : ReplicaID
  peersCurrent : List PeerId
  rcomplains : Hash → Finset ReplicaID
  raised : List ℤ

def Frame.rotation (f : Frame) : Rotation :=
  ⟨f.config.nreplicas, f.proposer, f.recs.peersCurrent, f.rcomplains, f.log.filterMap Event.raised⟩

def Op.keepsLeader : Op → Bool
  | .receiveRComplain _ _ | .msgRecsAggEchoReady _ => false
  | _ => true

namespace Replica
variable (s : Replica)

def rotation : Rotation :=
  ⟨s.config.nreplicas, s.pmaker.proposer, s.recs.peersCurrent, s.storage.rcomplains,
    s.trace.filterMap Event.raised⟩

theorem frame_rotation : s.frame.rotation = s.rotation := by
  have hlog : (s.trace.filter Event.onFrame).filterMap Event.raised =
      s.trace.filterMap Event.raised := by
    rw [List.filterMap_filter]
    congr 1
    funext e
    cases e <;> rfl
  unfold Frame.rotation frame rotation
  simp only [hlog]
  rfl

theorem rotation_congr {s' : Replica} (h : s'.frame = s.frame) : s'.rotation = s.rotation := by
  rw [← frame_rotation, ← frame_rotation, h]

theorem emit_rotation {e : Event} (he : e.raised = none) : (s.emit e).rotation = s.rotation := by
  unfold rotation
  rw [emit_trace, List.filterMap_append, List.filterMap_cons_none he, List.filterMap_nil,
    List.append_nil]
  rfl

theorem McOnly.rotation {s u : Replica} (h : McOnly s u) : u.rotation = s.rotation := by
  have hraised : u.trace.filterMap Event.raised = s.trace.filterMap Event.raised := by
    apply h.trace.filterMap
    intro e he
    cases e <;> first | rfl | cases he
  calc u.rotation = { u.rotation with raised := s.trace.filterMap Event.raised } := by
        rw [← hraised]
        rfl
    _ = s.rotation := congrArg Replica.rotation h.rest

theorem modifyBlk_rcomplains (h : Hash) (f : Block → Block)
    (g : Finset ReplicaID → Finset ReplicaID) (hf : ∀ b, (f b).rcomplains = g b.rcomplains)
    {b : Block} (hb : s.storage.blkCache h = some b) :
    (s.modifyBlk h f).storage.rcomplains =
      Function.update s.storage.rcomplains h (g b.rcomplains) := by
  have hset := Function.comp_update (fun o : Option Block => (o.map (·.rcomplains)).getD ∅)
    s.storage.blkCache h (some (f b))
  rw [Option.map_some, Option.getD_some, hf b] at hset
  unfold modifyBlk
  rw [hb]
  exact hset

theorem rcomplains_of {h : Hash} {b : Block} (hb : s.storage.blkCache h = some b) :
    s.storage.rcomplains h = b.rcomplains := by
  unfold EntityStorage.rcomplains
  rw [hb]
  rfl

theorem uncomplained_rotation : s.uncomplained.rotation = s.rotation := by
  have hraised : s.uncomplained.trace.filterMap Event.raised = s.trace.filterMap Event.raised := by
    change (s.trace.filter _).filterMap Event.raised = _
    rw [List.filterMap_filter]
    congr 1
    funext e
    cases e <;> rfl
  have hcomplains : s.uncomplained.storage.rcomplains = s.storage.rcomplains := by
    funext h
    change (((s.storage.blkCache h).map _).map _).getD _ = ((s.storage.blkCache h).map _).getD _
    rw [Option.map_map]
    rfl
  unfold rotation
  rw [hraised, hcomplains]
  rfl

theorem sendReconfigAck_rotation (fin : Finality) (r : Recs) :
    (s.sendReconfigAck fin r).rotation = s.rotation := by
  have hanswer := rotation_congr s (s.answerClient_frame fin)
  unfold sendReconfigAck
  simp only []
  split
  · rw [emit_rotation _ rfl, hanswer]
  · exact hanswer

theorem countEcho_rotation (count : ℤ) : (s.countEcho count).rotation = s.rotation := rfl

theorem multicastRecs_rotation (r : Recs) (type count : ℤ) :
    (s.multicastRecs r type count).rotation = s.rotation := s.emit_rotation rfl

theorem msgRecsHandler_rotation (r : Recs) : (s.msgRecsHandler r).rotation = s.rotation := by
  unfold msgRecsHandler
  split
  swap
  · rfl
  simp only []
  split
  · rfl
  split
  swap
  · rfl
  unfold startAgg
  simp only []
  rw [countEcho_rotation, multicastRecs_rotation, multicastRecs_rotation]
  rfl

theorem exec_rotation (C : Crypto) {op : Op} (hop : op.keepsLeader = true) :
    (s.exec C op).1.rotation = s.rotation := by
  cases op with
  | receiveMcLocal prop x => exact (s.receiveMcLocal_mcOnly prop x).rotation
  | relayMc prop x => exact (s.relayMc_mcOnly prop x).rotation
  | remoteViewChangeTimeout cid =>
    exact s.view_of_uncomplained uncomplained_rotation
      (s.remoteViewChangeTimeout_uncomplained C cid)
  | receiveLComplain c =>
    exact s.view_of_uncomplained uncomplained_rotation (s.onReceiveLComplain_uncomplained C c)
  | receiveRComplain c junk => cases hop
  | msgRecs r => exact s.msgRecsHandler_rotation r
  | sendReconfigAck fin r => exact s.sendReconfigAck_rotation fin r
  | msgRecsAggEchoReady msg => cases hop
  | _ => exact rotation_congr s (s.exec_frame C rfl)

def blkAt (k : ℤ) : Option Hash :=
  if k < 0 then none else s.storage.findBlkHashForCid k.toNat

theorem rcomplainHandler_eq (C : Crypto) (c : Complain) (junk : ℤ) :
    s.rcomplainHandler C c junk = match s.blkAt c.blkHeight with
      | none => s
      | some h => (s.onReceiveRComplain { c with blkHash := h } junk).1 := by
  unfold rcomplainHandler blkAt
  split
  · rfl
  · rfl

/-- A complaint is taken up: the leader rotates and the members are told. -/
structure TakesUp (u : Replica) (c : Complain) (h : Hash) : Prop where
  found : s.blkAt c.blkHeight = some h
  fresh : s.storage.rcomplains h = ∅
  storage : u.storage.cidBlkhash = s.storage.cidBlkhash
  ledger : u.ledger = s.ledger
  rotation : u.rotation = { s.rotation with
    proposer := (s.pmaker.proposer + 1) % s.config.nreplicas
    rcomplains := Function.update s.storage.rcomplains h {c.voter}
    raised := s.rotation.raised ++ [c.blkHeight] }
  trace : ∃ es, u.trace =
    s.trace ++ .rcomplainLocal { c with blkHash := h } s.recs.peersCurrent :: es ∧
      ∀ e ∈ es, e.raised = none

theorem doBroadcastProposalOtherClusters_trace (prop : Proposal) :
    (s.doBroadcastProposalOtherClusters prop).trace = s.trace ++
      [.otherClusters prop (s.doBroadcastProposalOtherClusters prop).mc.otherPeersFPlusOne] := by
  have hinit : s.initOtherPeers.trace = s.trace := by
    unfold initOtherPeers
    split <;> rfl
  unfold doBroadcastProposalOtherClusters
  simp only []
  rw [emit_trace, hinit]
  rfl

theorem rotate_rotation (prop : Proposal) (k : ℤ) :
    ({ s.doBroadcastProposalOtherClusters prop with
      mc := { (s.doBroadcastProposalOtherClusters prop).mc with
        lastRvc := k } } : Replica).rotate.rotation =
      { s.rotation with proposer := (s.pmaker.proposer + 1) % s.config.nreplicas } := by
  have hother := rotation_congr _ (s.doBroadcastProposalOtherClusters_frame prop)
  generalize s.doBroadcastProposalOtherClusters prop = u at hother ⊢
  have hproposer : u.pmaker.proposer = s.pmaker.proposer := congrArg Rotation.proposer hother
  have hn : u.config.nreplicas = s.config.nreplicas := congrArg Rotation.nreplicas hother
  change { u.rotation with proposer := (u.pmaker.proposer + 1) % u.config.nreplicas } = _
  rw [hother, hproposer, hn]

theorem sendRComplainLocal_spec {c : Complain} {h : Hash} (junk : ℤ)
    (hh : s.storage.findBlkHashForCid c.blkHeight.toNat = some h) :
    (s.sendRComplainLocal c junk).1.rotation = { s.rotation with
      proposer := (s.pmaker.proposer + 1) % s.config.nreplicas
      raised := s.rotation.raised ++ [c.blkHeight] } ∧
    ∃ es, (s.sendRComplainLocal c junk).1.trace =
      s.trace ++ .rcomplainLocal c s.recs.peersCurrent :: es ∧ ∀ e ∈ es, e.raised = none := by
  generalize ht : s.emit (.rcomplainLocal c s.recs.peersCurrent) = t
  have hfind : t.storage.findBlkHashForCid c.blkHeight.toNat = some h := by
    rw [← ht]
    exact hh
  have htrace : t.trace = s.trace ++ [.rcomplainLocal c s.recs.peersCurrent] := by
    rw [← ht]
    exact emit_trace ..
  have hrot : t.rotation = { s.rotation with raised := s.rotation.raised ++ [c.blkHeight] } := by
    unfold rotation
    rw [htrace, List.filterMap_append, ← ht]
    rfl
  unfold sendRComplainLocal
  rw [ht]
  simp only [hfind]
  generalize (⟨t.id, h, t.clusterId, t.clusterId, t.height h, 1, ∅, junk⟩ : Proposal) = prop
  constructor
  · rw [rotate_rotation, hrot, ← ht]
    rfl
  · have hother := t.doBroadcastProposalOtherClusters_trace prop
    rw [htrace, List.append_assoc] at hother
    refine ⟨_, hother, ?_⟩
    intro e he
    rw [List.mem_singleton.mp he]
    rfl

theorem rcomplainHandler_cases (b : s.ledger.Booked) (C : Crypto) (c : Complain) (junk : ℤ) :
    (s.rcomplainHandler C c junk = s ∧ ∀ h, s.blkAt c.blkHeight = some h →
      s.storage.rcomplains h ≠ ∅) ∨
    ∃ h, s.TakesUp (s.rcomplainHandler C c junk) c h := by
  rw [rcomplainHandler_eq]
  cases hat : s.blkAt c.blkHeight with
  | none => exact .inl ⟨rfl, fun h hh => absurd hh (by simp)⟩
  | some h =>
    have hfind : 0 ≤ c.blkHeight ∧ s.storage.findBlkHashForCid c.blkHeight.toNat = some h := by
      unfold blkAt at hat
      split at hat
      · exact absurd hat (by simp)
      · exact ⟨by omega, hat⟩
    obtain ⟨hd, -⟩ := b.first _ _ hfind.2
    obtain ⟨m, hm, hmd⟩ := Tree.exists_of_delivered hd
    obtain ⟨blk, hblk, rfl⟩ := s.cache_of_tree hm
    have hcomplains := s.rcomplains_of hblk
    have hledger := s.onReceiveRComplain_ledger { c with blkHash := h } junk
    simp only []
    unfold onReceiveRComplain at hledger ⊢
    simp only [hblk] at hledger ⊢
    rw [if_neg (by simpa using hmd)] at hledger ⊢
    by_cases hcard : 1 ≤ blk.rcomplains.card
    · rw [if_pos hcard]
      refine .inl ⟨rfl, ?_⟩
      intro x hx
      obtain rfl : h = x := Option.some.inj hx
      rw [hcomplains]
      exact Finset.card_pos.mp hcard |>.ne_empty
    · rw [if_neg hcard] at hledger ⊢
      have hempty : blk.rcomplains = ∅ := Finset.card_eq_zero.mp (by omega)
      have hmodify := s.modifyBlk_rcomplains h
        (fun b => { b with rcomplains := insert c.voter b.rcomplains }) (insert c.voter)
        (fun _ => rfl) hblk
      generalize hv : s.modifyBlk h (fun b => { b with rcomplains := insert c.voter b.rcomplains })
        = v at hmodify hledger ⊢
      have hvfind : v.storage.findBlkHashForCid c.blkHeight.toNat = some h := by
        rw [← hv]
        exact hfind.2
      obtain ⟨hrot, htrace⟩ := v.sendRComplainLocal_spec
        (c := { c with blkHash := h }) junk hvfind
      refine .inr ⟨h, hat, hcomplains.trans hempty, congrArg Ledger.cidBlkhash hledger, hledger,
        ?_, ?_⟩
      · rw [hrot]
        unfold rotation
        rw [hmodify, hempty, ← hv]
        rfl
      · rw [← hv] at htrace ⊢
        exact htrace

end Replica

namespace Ledger
variable {G : Guard} {L M : Ledger} {k : ℕ} {h : Hash}

theorem Step.found (hs : Step G L M) (hk : L.cidBlkhash k = some h) : M.cidBlkhash k = some h := by
  cases hs with
  | @deliver x p m =>
    unfold Ledger.deliver
    simp only []
    split
    · exact hk
    · rename_i hnone
      have hne : k ≠ (deliveredNode m (L.tree.height p)).height := by
        rintro rfl
        rw [hk] at hnone
        exact hnone rfl
      rw [Function.update_of_ne hne]
      exact hk
  | @finishMc cid =>
    unfold Ledger.finishMc
    split
    · exact hk
    · split <;> exact hk
  | _ => exact hk

theorem Steps.found (hs : Steps G L M) (hk : L.cidBlkhash k = some h) :
    M.cidBlkhash k = some h :=
  hs.invariant (I := fun N => N.cidBlkhash k = some h) hk fun _ _ hstep => hstep.found

end Ledger

namespace Replica
variable {s u : Replica}

theorem blkAt_iff {k : ℤ} {h : Hash} :
    s.blkAt k = some h ↔ 0 ≤ k ∧ s.ledger.cidBlkhash k.toNat = some h := by
  unfold blkAt
  split
  · rename_i hk
    constructor
    · intro hh
      exact absurd hh (by simp)
    · intro hh
      omega
  · rename_i hk
    rw [and_iff_right (by omega)]
    rfl

theorem blkAt_mono {G : Ledger.Guard} (hs : Ledger.Steps G s.ledger u.ledger) {k : ℤ} {h : Hash}
    (hk : s.blkAt k = some h) : u.blkAt k = some h := by
  obtain ⟨h0, hfirst⟩ := blkAt_iff.mp hk
  exact blkAt_iff.mpr ⟨h0, hs.found hfirst⟩

theorem blkAt_height (b : s.ledger.Booked) {k : ℤ} {h : Hash} (hk : s.blkAt k = some h) :
    (s.height h : ℤ) = k := by
  obtain ⟨h0, hfirst⟩ := blkAt_iff.mp hk
  have hh : s.height h = k.toNat := (b.first _ _ hfirst).2
  omega

/-- The leader has rotated once for each height that was complained about. -/
structure Rotated (proposer : ReplicaID) (s : Replica) : Prop where
  booked : s.ledger.Booked
  leader : s.pmaker.proposer =
    (fun x => (x + 1) % s.config.nreplicas)^[s.rotation.raised.length] proposer
  nodup : s.rotation.raised.Nodup
  known : ∀ k ∈ s.rotation.raised, ∃ h, s.blkAt k = some h ∧ s.storage.rcomplains h ≠ ∅
  complained : ∀ h, s.storage.rcomplains h ≠ ∅ →
    ∃ k ∈ s.rotation.raised, s.blkAt k = some h

theorem Rotated.same_leader {proposer : ReplicaID} (hs : Rotated proposer s)
    (hu : Rotated proposer u) (hn : s.config.nreplicas = u.config.nreplicas)
    (hraised : ∀ k, k ∈ s.rotation.raised ↔ k ∈ u.rotation.raised) :
    s.pmaker.proposer = u.pmaker.proposer := by
  have hperm : s.rotation.raised.Perm u.rotation.raised :=
    (List.perm_ext_iff_of_nodup hs.nodup hu.nodup).mpr hraised
  rw [hs.leader, hu.leader, hperm.length_eq, hn]

theorem Rotated.mem_raised {proposer : ReplicaID} (hs : Rotated proposer s) {k : ℤ} {h : Hash}
    (hk : s.blkAt k = some h) (hr : s.storage.rcomplains h ≠ ∅) : k ∈ s.rotation.raised := by
  obtain ⟨k', hk', hat⟩ := hs.complained h hr
  have heq : k' = k := (blkAt_height hs.booked hat).symm.trans (blkAt_height hs.booked hk)
  rwa [heq] at hk'

theorem Rotated.call {proposer : ReplicaID} (hs : Rotated proposer s) (C : Crypto) {op : Op}
    (hop : op.keepsLeader = true) : Rotated proposer (s.step C op) := by
  have hrot : (s.step C op).rotation = s.rotation := s.exec_rotation C hop
  have hsteps := s.exec_steps C hs.booked.wf op
  have hstorage : (s.step C op).storage.rcomplains = s.storage.rcomplains :=
    congrArg Rotation.rcomplains hrot
  have hbooked : (s.step C op).ledger.Booked :=
    hsteps.invariant hs.booked fun _ _ => Ledger.Step.booked
  refine ⟨hbooked, ?_, ?_, ?_, ?_⟩
  · have hleader : (s.step C op).pmaker.proposer = s.pmaker.proposer :=
      congrArg Rotation.proposer hrot
    have hn : (s.step C op).config.nreplicas = s.config.nreplicas :=
      congrArg Rotation.nreplicas hrot
    rw [hleader, hn, hrot]
    exact hs.leader
  · rw [hrot]
    exact hs.nodup
  · intro k hk
    rw [hrot] at hk
    obtain ⟨h, hat, hne⟩ := hs.known k hk
    rw [hstorage]
    exact ⟨h, blkAt_mono hsteps hat, hne⟩
  · intro h hne
    rw [hstorage] at hne
    obtain ⟨k, hk, hat⟩ := hs.complained h hne
    rw [hrot]
    exact ⟨k, hk, blkAt_mono hsteps hat⟩

theorem TakesUp.rotated {proposer : ReplicaID} {c : Complain} {h : Hash} (t : s.TakesUp u c h)
    (hs : Rotated proposer s) : Rotated proposer u := by
  have hat : ∀ k, u.blkAt k = s.blkAt k := by
    intro k
    unfold blkAt EntityStorage.findBlkHashForCid
    rw [t.storage]
  have hraised : u.rotation.raised = s.rotation.raised ++ [c.blkHeight] :=
    congrArg Rotation.raised t.rotation
  have hcomplains : u.storage.rcomplains = Function.update s.storage.rcomplains h {c.voter} :=
    congrArg Rotation.rcomplains t.rotation
  have hnew : u.storage.rcomplains h ≠ ∅ := by
    rw [hcomplains, Function.update_self]
    exact Finset.singleton_ne_empty _
  refine ⟨?_, ?_, ?_, ?_, ?_⟩
  · rw [t.ledger]
    exact hs.booked
  · have hleader : u.pmaker.proposer = (s.pmaker.proposer + 1) % s.config.nreplicas :=
      congrArg Rotation.proposer t.rotation
    have hn : u.config.nreplicas = s.config.nreplicas := congrArg Rotation.nreplicas t.rotation
    rw [hleader, hn, hraised, List.length_append, List.length_singleton,
      Function.iterate_succ_apply', ← hs.leader]
  · rw [hraised, List.nodup_append]
    refine ⟨hs.nodup, List.nodup_singleton _, ?_⟩
    intro k hk x hx
    rw [List.mem_singleton.mp hx]
    rintro rfl
    obtain ⟨y, hy, hne⟩ := hs.known _ hk
    obtain rfl : h = y := Option.some.inj (t.found.symm.trans hy)
    exact hne t.fresh
  · intro k hk
    rw [hraised] at hk
    rw [hat]
    rcases List.mem_append.mp hk with hk | hk
    · obtain ⟨x, hx, hne⟩ := hs.known k hk
      refine ⟨x, hx, ?_⟩
      by_cases hxh : x = h
      · rw [hxh]
        exact hnew
      · rw [hcomplains, Function.update_of_ne hxh]
        exact hne
    · rw [List.mem_singleton.mp hk]
      exact ⟨h, t.found, hnew⟩
  · intro x hne
    by_cases hxh : x = h
    · subst x
      refine ⟨c.blkHeight, ?_, (hat _).trans t.found⟩
      rw [hraised]
      exact List.mem_append_right _ (List.mem_singleton_self _)
    · rw [hcomplains, Function.update_of_ne hxh] at hne
      obtain ⟨k, hk, hx⟩ := hs.complained x hne
      refine ⟨k, ?_, (hat k).trans hx⟩
      rw [hraised]
      exact List.mem_append_left _ hk

end Replica

def Event.rcomplainPackets (self : PeerId) : Event → List (Packet PeerId Complain)
  | .rcomplainLocal c dsts => dsts.map fun dst => ⟨self, dst, c⟩
  | _ => []

def Replica.rcomplainPackets (self : PeerId) (before after : Replica) :
    List (Packet PeerId Complain) :=
  (after.trace.drop before.trace.length).flatMap (Event.rcomplainPackets self)

def Replica.handleRcomplain (C : Crypto) (junk : ℤ) : Handler PeerId Replica Complain :=
  fun s m =>
    let s' := s.rcomplainHandler C m.msg junk
    (s', s.rcomplainPackets m.dst s')

abbrev RcomplainNet := Net PeerId Replica Complain

namespace RcomplainNet

inductive Input where
  | remote (m : Packet PeerId Complain)
  | deliver (i : ℕ) (junk : ℤ)
  | work (p : PeerId) (op : Op)

def step (C : Crypto) (net : RcomplainNet) : Input → RcomplainNet
  | .remote m => { net with flight := net.flight ++ [m] }
  | .deliver i junk => net.deliver (Replica.handleRcomplain C junk) i
  | .work p op => net.setNode p ((net.node p).step C op)

def start (c : PeerId → Setup) : RcomplainNet := ⟨fun p => (c p).start, []⟩

section
variable (members : Finset PeerId)

/-- Complaints come from outside, about heights that a member has delivered, and the members
do anything else that leaves the membership alone. -/
def Setting (net : RcomplainNet) : Input → Prop
  | .remote m => ∃ p ∈ members, ∃ h, (net.node p).delivered h = true ∧
      ((net.node p).height h : ℤ) = m.msg.blkHeight
  | .deliver _ _ => True
  | .work _ op => op.keepsLeader = true

/-- A complaint that reaches a member before it has a block at the height is not the last one
on its way there, once some member has taken the height up. -/
def InTime (net : RcomplainNet) : Input → Prop
  | .deliver i _ => ∀ m ∈ net.flight[i]?, m.dst ∈ members →
      (net.node m.dst).blkAt m.msg.blkHeight = none →
      (∃ p ∈ members, m.msg.blkHeight ∈ (net.node p).rotation.raised) →
      ∃ x ∈ net.flight.eraseIdx i, x.dst = m.dst ∧ x.msg.blkHeight = m.msg.blkHeight
  | _ => True

def Pending (net : RcomplainNet) (p : PeerId) (k : ℤ) : Prop :=
  ∃ m ∈ net.flight, m.dst = p ∧ m.msg.blkHeight = k

structure Sound (config : ReplicaConfig) (proposer : ReplicaID) (net : RcomplainNet) : Prop where
  node : ∀ p ∈ members, (net.node p).Rotated proposer
  size : ∀ p ∈ members, (net.node p).config.nreplicas = config.nreplicas
  peers : ∀ p ∈ members, ∀ q ∈ members, q ≠ p → q ∈ (net.node p).recs.peersCurrent
  spread : Flooding.Spread (members : Set PeerId)
    (fun p k => k ∈ (net.node p).rotation.raised) net.Pending

end

section
variable {C : Crypto} {members : Finset PeerId} {config : ReplicaConfig} {proposer : ReplicaID}
  {net : RcomplainNet}

theorem rcomplainPackets_self (self : PeerId) (s : Replica) : s.rcomplainPackets self s = [] := by
  unfold Replica.rcomplainPackets
  rw [List.drop_length]
  rfl

theorem rcomplainPackets_takesUp {s u : Replica} {c : Complain} {h : Hash} (t : s.TakesUp u c h)
    (self : PeerId) {q : PeerId} (hq : q ∈ s.recs.peersCurrent) :
    ∃ m ∈ s.rcomplainPackets self u, m.dst = q ∧ m.msg.blkHeight = c.blkHeight := by
  obtain ⟨es, htrace, -⟩ := t.trace
  refine ⟨⟨self, q, { c with blkHash := h }⟩, ?_, rfl, rfl⟩
  unfold Replica.rcomplainPackets
  rw [htrace, List.drop_left, List.flatMap_cons]
  apply List.mem_append_left
  exact List.mem_map.mpr ⟨q, hq, rfl⟩

theorem Sound.congr (S : Sound members config proposer net) {net' : RcomplainNet}
    (hnode : ∀ p ∈ members, net'.node p = net.node p)
    (hpending : ∀ p ∈ members, ∀ k, net.Pending p k → net'.Pending p k) :
    Sound members config proposer net' := by
  refine ⟨?_, ?_, ?_, ?_⟩
  · intro p hp
    rw [hnode p hp]
    exact S.node p hp
  · intro p hp
    rw [hnode p hp]
    exact S.size p hp
  · intro p hp
    rw [hnode p hp]
    exact S.peers p hp
  · refine S.spread.mono ?_ hpending
    intro p hp k
    rw [hnode p hp]

theorem Sound.remote (S : Sound members config proposer net) (m : Packet PeerId Complain) :
    Sound members config proposer (step C net (.remote m)) := by
  refine S.congr (fun _ _ => rfl) ?_
  rintro p - k ⟨x, hx, hdst, hk⟩
  exact ⟨x, List.mem_append_left _ hx, hdst, hk⟩

theorem Sound.setNode (S : Sound members config proposer net) {p : PeerId} {u : Replica}
    (hu : p ∈ members → u.Rotated proposer) (hrot : u.rotation = (net.node p).rotation) :
    Sound members config proposer (net.setNode p u) := by
  have hsame : ∀ q, ((net.setNode p u).node q).rotation = (net.node q).rotation := by
    intro q
    by_cases hq : q = p
    · subst q
      rw [Net.setNode_self]
      exact hrot
    · rw [Net.setNode_of_ne _ hq]
  refine ⟨?_, ?_, ?_, ?_⟩
  · intro q hq
    by_cases hqp : q = p
    · subst q
      rw [Net.setNode_self]
      exact hu hq
    · rw [Net.setNode_of_ne _ hqp]
      exact S.node q hq
  · intro q hq
    exact (congrArg Rotation.nreplicas (hsame q)).trans (S.size q hq)
  · intro q hq x hx hne
    have hpeers : ((net.setNode p u).node q).recs.peersCurrent = (net.node q).recs.peersCurrent :=
      congrArg Rotation.peersCurrent (hsame q)
    rw [hpeers]
    exact S.peers q hq x hx hne
  · refine S.spread.mono ?_ fun _ _ _ h => h
    intro q _ k
    simp only [hsame]

theorem Sound.work (S : Sound members config proposer net) (p : PeerId) {op : Op}
    (hop : op.keepsLeader = true) : Sound members config proposer (step C net (.work p op)) :=
  S.setNode (fun hp => (S.node p hp).call C hop) ((net.node p).exec_rotation C hop)

theorem Pending.erase {i : ℕ} {m : Packet PeerId Complain} (hm : net.flight[i]? = some m)
    {p : PeerId} {k : ℤ} (h : net.Pending p k) (net' : RcomplainNet)
    (hflight : ∀ x ∈ net.flight.eraseIdx i, x ∈ net'.flight) :
    net'.Pending p k ∨ p = m.dst ∧ k = m.msg.blkHeight := by
  obtain ⟨x, hx, hdst, hk⟩ := h
  rcases mem_eraseIdx hm hx with rfl | hx
  · exact .inr ⟨hdst.symm, hk.symm⟩
  · exact .inl ⟨x, hflight x hx, hdst, hk⟩

theorem Sound.ignore (S : Sound members config proposer net) {i : ℕ}
    {m : Packet PeerId Complain} (hm : net.flight[i]? = some m)
    (hlast : ∀ p ∈ members, m.msg.blkHeight ∈ (net.node p).rotation.raised →
      m.msg.blkHeight ∈ (net.node m.dst).rotation.raised ∨
        ∃ x ∈ net.flight.eraseIdx i, x.dst = m.dst ∧ x.msg.blkHeight = m.msg.blkHeight) :
    Sound members config proposer { net with flight := net.flight.eraseIdx i } := by
  refine ⟨S.node, S.size, S.peers, ?_⟩
  refine S.spread.take m.dst m.msg.blkHeight (fun _ _ _ => Iff.rfl) ?_ hlast
  intro p _ k hk
  exact hk.erase hm _ fun x hx => hx

theorem Sound.takeUp (S : Sound members config proposer net) {i : ℕ}
    {m : Packet PeerId Complain} (hm : net.flight[i]? = some m) (hdst : m.dst ∈ members)
    {u : Replica} {h : Hash} (t : (net.node m.dst).TakesUp u m.msg h) :
    Sound members config proposer { net.setNode m.dst u with
      flight := net.flight.eraseIdx i ++ (net.node m.dst).rcomplainPackets m.dst u } := by
  have hself : (net.setNode m.dst u).node m.dst = u := Net.setNode_self m.dst u
  have hother : ∀ q, q ≠ m.dst → (net.setNode m.dst u).node q = net.node q :=
    fun q hq => Net.setNode_of_ne _ hq
  refine ⟨?_, ?_, ?_, ?_⟩
  · intro q hq
    by_cases hqm : q = m.dst
    · subst q
      change ((net.setNode m.dst u).node m.dst).Rotated proposer
      rw [hself]
      exact t.rotated (S.node _ hdst)
    · exact (hother q hqm) ▸ S.node q hq
  · intro q hq
    by_cases hqm : q = m.dst
    · subst q
      change ((net.setNode m.dst u).node m.dst).config.nreplicas = _
      rw [hself]
      exact (congrArg Rotation.nreplicas t.rotation).trans (S.size _ hq)
    · exact (hother q hqm) ▸ S.size q hq
  · intro q hq x hx hne
    by_cases hqm : q = m.dst
    · subst q
      change x ∈ ((net.setNode m.dst u).node m.dst).recs.peersCurrent
      have hpeers : u.recs.peersCurrent = (net.node m.dst).recs.peersCurrent :=
        congrArg Rotation.peersCurrent t.rotation
      rw [hself, hpeers]
      exact S.peers _ hq x hx hne
    · exact (hother q hqm) ▸ S.peers q hq x hx hne
  · refine S.spread.hear m.dst m.msg.blkHeight ?_ ?_ ?_
    · intro q hq k
      by_cases hqm : q = m.dst
      · subst q
        have hraised : u.rotation.raised =
            (net.node m.dst).rotation.raised ++ [m.msg.blkHeight] :=
          congrArg Rotation.raised t.rotation
        simp only [hself, hraised, List.mem_append, List.mem_singleton, true_and]
      · simp only [hother q hqm, hqm, false_and, or_false]
    · intro q _ k hk
      exact hk.erase hm _ fun x hx => List.mem_append_left _ hx
    · intro q hq hne
      obtain ⟨x, hx, hxq, hk⟩ := rcomplainPackets_takesUp t m.dst (S.peers _ hdst q hq hne)
      exact ⟨x, List.mem_append_right _ hx, hxq, hk⟩

theorem Sound.deliver (S : Sound members config proposer net) {i : ℕ} {junk : ℤ}
    (hin : InTime members net (.deliver i junk)) :
    Sound members config proposer (step C net (.deliver i junk)) := by
  change Sound members config proposer (net.deliver (Replica.handleRcomplain C junk) i)
  cases hm : net.flight[i]? with
  | none =>
    unfold Net.deliver
    rw [hm]
    exact S
  | some m =>
    rw [Net.deliver_of hm]
    unfold Replica.handleRcomplain
    simp only []
    by_cases hdst : m.dst ∈ members
    · have b := (S.node m.dst hdst).booked
      rcases (net.node m.dst).rcomplainHandler_cases b C m.msg junk with ⟨hsame, hknown⟩ | ⟨h, t⟩
      · rw [hsame, rcomplainPackets_self, List.append_nil]
        have hnode : net.setNode m.dst (net.node m.dst) = net := by
          unfold Net.setNode
          rw [Function.update_eq_self]
        rw [hnode]
        refine S.ignore hm ?_
        intro p hp hraised
        cases hat : (net.node m.dst).blkAt m.msg.blkHeight with
        | none => exact .inr (hin m hm hdst hat ⟨p, hp, hraised⟩)
        | some h => exact .inl ((S.node m.dst hdst).mem_raised hat (hknown h hat))
      · exact S.takeUp hm hdst t
    · -- A replica outside of the members only takes its own copy.
      refine S.congr ?_ ?_
      · intro p hp
        refine Net.setNode_of_ne _ ?_
        rintro rfl
        exact hdst hp
      · intro p hp k hk
        refine (hk.erase hm _ fun x hx => List.mem_append_left _ hx).resolve_right ?_
        rintro ⟨rfl, -⟩
        exact hdst hp

theorem Sound.step (S : Sound members config proposer net) {x : Input}
    (hset : Setting members net x) (hin : InTime members net x) :
    Sound members config proposer (step C net x) := by
  cases x with
  | remote m => exact S.remote m
  | deliver i junk => exact S.deliver hin
  | work p op => exact S.work p hset

theorem start_sound {c : PeerId → Setup} (hc : ∀ p ∈ members, (c p).config = config ∧
    (c p).proposer = proposer ∧ ∀ q ∈ members, q ≠ p → q ∈ (c p).peers) :
    Sound members config proposer (start c) := by
  have hnone : ∀ p, (c p).start.rotation.raised = [] := fun p => rfl
  refine ⟨?_, ?_, ?_, ?_⟩
  · intro p hp
    refine ⟨(c p).start_booked, (hc p hp).2.1, ?_, ?_, ?_⟩
    · exact List.nodup_nil
    · intro k hk
      exact absurd hk List.not_mem_nil
    · intro h hne
      refine absurd ?_ hne
      change (((c p).start.storage.blkCache h).map (·.rcomplains)).getD ∅ = ∅
      by_cases h0 : h = b0
      · subst h
        rfl
      · have hcache : (c p).start.storage.blkCache h = none := by
          change Function.update (fun _ => none) b0 (some (Block.genesis (c p).config)) h = none
          exact Function.update_of_ne h0 ..
        rw [hcache]
        rfl
  · intro p hp
    exact congrArg ReplicaConfig.nreplicas (hc p hp).1
  · intro p hp
    exact (hc p hp).2.2
  · intro p _ k hk
    exact absurd hk List.not_mem_nil

/-- Once no complaint is on its way to a member, the members have the same leader. -/
theorem same_leader_after_rcomplains (C : Crypto) (members : Finset PeerId)
    (config : ReplicaConfig) (proposer : ReplicaID) (c : PeerId → Setup)
    (hc : ∀ p ∈ members, (c p).config = config ∧ (c p).proposer = proposer ∧
      ∀ q ∈ members, q ≠ p → q ∈ (c p).peers)
    (net : RcomplainNet)
    (h : Runs.Reach (fun net x => Setting members net x ∧ InTime members net x) (step C)
      (start c) net)
    (hquiet : ∀ m ∈ net.flight, m.dst ∉ members) (p q : PeerId) (hp : p ∈ members)
    (hq : q ∈ members) :
    (net.node p).pmaker.proposer = (net.node q).pmaker.proposer := by
  have S : Sound members config proposer net :=
    h.invariant (Sound members config proposer) (start_sound hc) fun _ _ S hx => S.step hx.1 hx.2
  refine (S.node p hp).same_leader (S.node q hq) ((S.size p hp).trans (S.size q hq).symm) ?_
  refine S.spread.quiet ?_ hp hq
  rintro x hx k ⟨m, hm, rfl, -⟩
  exact hquiet m hm hx

end

section
variable {C : Crypto} {hashes : List Hash}

def Stores (C : Crypto) (hashes : List Hash) : Input → Prop
  | .work _ (.addBlk body) => C.getHash body ∈ hashes
  | .work _ (.deliverBlk _) | .remote _ | .deliver _ _ => True
  | .work _ _ => False

theorem rcomplainHandler_ledger (s : Replica) (c : Complain) (junk : ℤ) :
    (s.rcomplainHandler C c junk).ledger = s.ledger := by
  rw [Replica.rcomplainHandler_eq]
  split
  · rfl
  · exact s.onReceiveRComplain_ledger _ junk

theorem stored_step {net : RcomplainNet} {x : Input} (hx : Stores C hashes x)
    (hnet : ∀ p, (net.node p).tree.Wf ∧
      ∀ h, ((net.node p).tree h).isSome = true → h ∈ hashes) (p : PeerId) :
    ((step C net x).node p).tree.Wf ∧
      ∀ h, (((step C net x).node p).tree h).isSome = true → h ∈ hashes := by
  have hset : ∀ (q : PeerId) (u : Replica) (flight : List (Packet PeerId Complain)),
      (u.tree.Wf ∧ ∀ h, (u.tree h).isSome = true → h ∈ hashes) →
      (({ net.setNode q u with flight := flight } : RcomplainNet).node p).tree.Wf ∧
        ∀ h, ((({ net.setNode q u with flight := flight } : RcomplainNet).node p).tree h).isSome =
          true → h ∈ hashes := by
    intro q u flight hu
    change ((net.setNode q u).node p).tree.Wf ∧
      ∀ h, (((net.setNode q u).node p).tree h).isSome = true → h ∈ hashes
    by_cases hp : p = q
    · subst p
      rw [Net.setNode_self]
      exact hu
    · rw [Net.setNode_of_ne _ hp]
      exact hnet p
  cases x with
  | remote m => exact hnet p
  | deliver i junk =>
    change ((net.deliver (Replica.handleRcomplain C junk) i).node p).tree.Wf ∧ ∀ h,
      (((net.deliver (Replica.handleRcomplain C junk) i).node p).tree h).isSome = true → h ∈ hashes
    cases hm : net.flight[i]? with
    | none =>
      unfold Net.deliver
      rw [hm]
      exact hnet p
    | some m =>
      rw [Net.deliver_of hm]
      have hledger := rcomplainHandler_ledger (C := C) (net.node m.dst) m.msg junk
      have htree : ((net.node m.dst).rcomplainHandler C m.msg junk).tree = (net.node m.dst).tree :=
        congrArg Ledger.tree hledger
      refine hset m.dst ((net.node m.dst).rcomplainHandler C m.msg junk) _ ?_
      rw [htree]
      exact hnet m.dst
  | work q op =>
    have hsteps := (net.node q).exec_steps C (hnet q).1 op
    refine hset q ((net.node q).step C op) net.flight ⟨hsteps.wf (hnet q).1, ?_⟩
    intro h hh
    rcases hsteps.stored hh with hold | ⟨body, rfl, rfl⟩ | hnew
    · exact (hnet q).2 h hold
    · exact hx
    · cases op with
      | propose => exact hx.elim
      | _ => exact absurd hnew (by simp [Replica.proposes])

end

def meshed (p : PeerId) : Setup :=
  { Setup.four p with peers := [0, 1, 2, 3].filter fun q => decide (q ≠ p) }

def learns (p : PeerId) : List Input :=
  [.work p (.addBlk (.sample 0 0 7 [])), .work p (.deliverBlk 1)]

def complained : List Input :=
  learns 0 ++ learns 1 ++ learns 2 ++
    [.remote ⟨9, 0, 9, 1, 55, ⟨55, 0⟩⟩, .deliver 0 0, .deliver 0 0, .deliver 0 0]

/-- All copies reach replica 3 before the block. -/
def droppedCopies : RcomplainNet :=
  Runs.run (step .sample) (start meshed) (complained ++ List.replicate 7 (.deliver 0 0) ++ learns 3)

/-- The first copy reaches replica 3 before the block, the others after it. -/
def lateCopies : RcomplainNet :=
  Runs.run (step .sample) (start meshed)
    (complained ++ [.deliver 0 0] ++ learns 3 ++ List.replicate 9 (.deliver 0 0))

def SettingOf (h : Hash) (members : Finset PeerId) (net : RcomplainNet) : Input → Prop
  | .remote m => ∃ p ∈ members, (net.node p).delivered h = true ∧
      ((net.node p).height h : ℤ) = m.msg.blkHeight
  | .deliver _ _ => True
  | .work _ op => op.keepsLeader = true

theorem SettingOf.setting {h : Hash} {members : Finset PeerId} {net : RcomplainNet} {x : Input}
    (hx : SettingOf h members net x) : Setting members net x := by
  cases x with
  | remote m =>
    obtain ⟨p, hp, hd, hk⟩ := hx
    exact ⟨p, hp, h, hd, hk⟩
  | deliver i junk => trivial
  | work p op => exact hx

instance (h : Hash) (members : Finset PeerId) (net : RcomplainNet) :
    DecidablePred (SettingOf h members net)
  | .remote _ => inferInstanceAs (Decidable (∃ p ∈ members, _))
  | .deliver _ _ => inferInstanceAs (Decidable True)
  | .work _ _ => inferInstanceAs (Decidable (_ = _))

instance (members : Finset PeerId) (net : RcomplainNet) : DecidablePred (InTime members net)
  | .remote _ => inferInstanceAs (Decidable True)
  | .deliver i _ => inferInstanceAs (Decidable (∀ m ∈ net.flight[i]?, _))
  | .work _ _ => inferInstanceAs (Decidable True)

instance (C : Crypto) (hashes : List Hash) : DecidablePred (Stores C hashes)
  | .work _ (.addBlk _) => inferInstanceAs (Decidable (_ ∈ hashes))
  | .work _ (.deliverBlk _) => inferInstanceAs (Decidable True)
  | .work _ (.receiveProposal ..) | .work _ (.receiveVote _) | .work _ (.propose ..)
  | .work _ (.receiveMcLocal ..) | .work _ (.relayMc ..) | .work _ (.remoteViewChangeTimeout _)
  | .work _ (.receiveLComplain _) | .work _ (.receiveRComplain ..) | .work _ (.msgRecs _)
  | .work _ (.sendReconfigAck ..) | .work _ (.msgRecsAggEchoReady _)
  | .work _ (.asyncQcFinish _) | .work _ (.waitDecision ..) => inferInstanceAs (Decidable False)
  | .remote _ | .deliver _ _ => inferInstanceAs (Decidable True)

theorem meshed_same (p : PeerId) (_ : p ∈ ({0, 1, 2, 3} : Finset PeerId)) :
    (meshed p).config = (Setup.four 0).config ∧ (meshed p).proposer = 0 ∧
      ∀ q ∈ ({0, 1, 2, 3} : Finset PeerId), q ≠ p → q ∈ (meshed p).peers := by
  refine ⟨rfl, rfl, ?_⟩
  intro q hq hne
  change q ∈ [0, 1, 2, 3].filter fun q => decide (q ≠ p)
  rw [List.mem_filter]
  refine ⟨?_, decide_eq_true hne⟩
  simpa using hq

theorem lateCopies_reach : Runs.Reach (fun net x => Setting {0, 1, 2, 3} net x ∧
    InTime {0, 1, 2, 3} net x) (step .sample) (start meshed) lateCopies := by
  have h : Runs.Reach (fun net x => SettingOf 1 {0, 1, 2, 3} net x ∧ InTime {0, 1, 2, 3} net x)
      (step .sample) (start meshed) lateCopies := Runs.reach_run _ .init (by decide +kernel)
  exact h.mono fun _ _ hx => ⟨hx.1.setting, hx.2⟩

/-- Replica 3 drops a copy and still rotates. -/
theorem same_leader_after_rcomplains_late :
    (lateCopies.node 3).pmaker.proposer = 1 ∧
      (lateCopies.node 0).pmaker.proposer = (lateCopies.node 3).pmaker.proposer := by
  refine ⟨by decide +kernel, ?_⟩
  have hquiet : lateCopies.flight = [] := by decide +kernel
  refine same_leader_after_rcomplains .sample {0, 1, 2, 3} (Setup.four 0).config 0 meshed
    meshed_same lateCopies lateCopies_reach ?_ 0 3 (by decide) (by decide)
  intro m hm
  rw [hquiet] at hm
  exact absurd hm List.not_mem_nil

/-- Every member has the blocks 0 and 1, no complaint is on its way, and replica 3 follows
another leader. -/
theorem leader_differs_after_rcomplains :
    Runs.Reach (Setting {0, 1, 2, 3}) (step .sample) (start meshed) droppedCopies ∧
      droppedCopies.flight = [] ∧
      (∀ p q, p ∈ ({0, 1, 2, 3} : Finset PeerId) → q ∈ ({0, 1, 2, 3} : Finset PeerId) →
        ∀ h, (droppedCopies.node p).delivered h = (droppedCopies.node q).delivered h) ∧
      (droppedCopies.node 0).pmaker.proposer = 1 ∧ (droppedCopies.node 3).pmaker.proposer = 0 := by
  have h : Runs.Reach (fun net x => SettingOf 1 {0, 1, 2, 3} net x ∧ Stores .sample [0, 1] x)
      (step .sample) (start meshed) droppedCopies := Runs.reach_run _ .init (by decide +kernel)
  refine ⟨h.mono fun _ _ hx => hx.1.setting, by decide +kernel, ?_, by decide +kernel,
    by decide +kernel⟩
  have hstored := (h.invariant (fun net => ∀ p, (net.node p).tree.Wf ∧
    ∀ h, ((net.node p).tree h).isSome = true → h ∈ [0, 1]) ?_ fun _ _ hnet hx =>
      stored_step hx.2 hnet)
  · intro p q hp hq x
    by_cases hx : x ∈ [0, 1]
    · have hboth : ∀ p ∈ ({0, 1, 2, 3} : Finset PeerId), ∀ x ∈ [0, 1],
          (droppedCopies.node p).delivered x = true := by decide +kernel
      rw [hboth p hp x hx, hboth q hq x hx]
    · have hnone : ∀ p, (droppedCopies.node p).delivered x = false := by
        intro p
        rw [Bool.eq_false_iff]
        intro hd
        obtain ⟨m, hm, -⟩ := Tree.exists_of_delivered hd
        exact hx ((hstored p).2 x (by rw [hm]; rfl))
      rw [hnone p, hnone q]
  · intro p
    refine ⟨(meshed p).start_booked.wf, ?_⟩
    intro x hx
    by_cases h0 : x = b0
    · subst x
      exact List.mem_cons_self
    · have habsent : ((start meshed).node p).tree x = none := (meshed p).start_absent h0
      rw [habsent] at hx
      exact absurd hx (by simp)

end RcomplainNet

end AvaHotstuff
