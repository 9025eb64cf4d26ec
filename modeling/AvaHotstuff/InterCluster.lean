import AvaHotstuff.Core

set_option autoImplicit false

/-!
# Completion of a height by the other clusters

`receive_mc_local` and what it calls. The loop `for (int x; …)` that fills a new
tracker array starts from an indeterminate value, which is the argument `x`.
-/
namespace AvaHotstuff

def Replica.decideAfterMc (s : Replica) (cid : ℕ) : Replica :=
  match s.storage.findBlkHashForCid cid with
  | none => s
  | some h => if s.didUpdate cid then (s.executeBlk h).resetRemoteViewChangeTimer cid else s

def Replica.syncReconfigCount (s : Replica) (prop : Proposal) : Replica :=
  if s.mc.clusteridToReconfigCount prop.preAmpClusterNumber ≠ prop.reconfigCount then
    ({ s with mc := { s.mc with
        clusteridToReconfigCount := Function.update s.mc.clusteridToReconfigCount
          prop.preAmpClusterNumber prop.reconfigCount } } : Replica).updateOtherFPlusOne
      prop.currentPeerSet prop.preAmpClusterNumber
  else s

def Replica.trackerArray (s : Replica) (cid : ℕ) (x : ℤ) : Option (List ℤ) :=
  match s.mc.cidToClusterTrackerArray cid with
  | some a => some a
  | none =>
    let a : List ℤ := List.replicate ((s.mc.nClusters : ℤ) - x).toNat 0
    if s.clusterId < a.length then some (a.set s.clusterId 1) else none

def countCluster (a : List ℤ) (i : ℕ) : Option (List ℤ) :=
  if i < a.length then some (a.set i (a.getD i 0 + 1)) else none

def testFlag (n : ℕ) (a : List ℤ) : Bool := (List.range n).all fun i => decide (a.getD i 0 ≠ 0)

def clearTracker (n clusterId : ℕ) (a : List ℤ) : List ℤ :=
  ((List.range n).foldl (fun a i => a.set i 0) a).set clusterId 1

def Replica.storeTracker (s : Replica) (cid : ℕ) (a : List ℤ) : Replica :=
  { s with mc := { s.mc with
      clusterTrackerArray := a
      cidToClusterTrackerArray :=
        Function.update s.mc.cidToClusterTrackerArray cid (some a) } }

def Replica.finishMc (s : Replica) (cid : ℕ) : Replica :=
  ({ s with mc := { s.mc with
      clusterMsgCount := s.mc.clusterMsgCount + 1
      finishedMcCids := insert cid s.mc.finishedMcCids } } : Replica).decideAfterMc cid

def Replica.mcArray (s : Replica) (prop : Proposal) (x : ℤ) : Option (List ℤ) :=
  (s.trackerArray prop.otherClusterBlockHeight x).bind (countCluster · prop.preAmpClusterNumber)

/-- The part of `receive_mc_local` after the height was found unfinished. -/
def Replica.countMc (s : Replica) (prop : Proposal) (x : ℤ) : Outcome :=
  match s.mcArray prop x with
  | none => (s, some .undefined)
  | some a =>
    if a.length < s.mc.nClusters then (s, some .undefined)
    else if testFlag s.mc.nClusters a then
      ((s.finishMc prop.otherClusterBlockHeight).storeTracker prop.otherClusterBlockHeight
        (clearTracker s.mc.nClusters s.clusterId a), none)
    else (s.storeTracker prop.otherClusterBlockHeight a, none)

def Replica.receiveMcLocal (s : Replica) (prop : Proposal) (x : ℤ) : Outcome :=
  let s := s.syncReconfigCount prop
  if s.didReceiveMc prop.otherClusterBlockHeight then (s, none) else s.countMc prop x

def Replica.propSameCluster (s : Replica) (prop : Proposal) : Proposal :=
  ⟨s.id, prop.blk, s.clusterId, prop.clusterNumber, prop.otherClusterBlockHeight, 2,
    prop.currentPeerSet, prop.reconfigCount⟩

/-- `propose_handler` on a message of another cluster: pass it on and count it. -/
def Replica.relayMc (s : Replica) (prop : Proposal) (x : ℤ) : Outcome :=
  if s.didReceiveMc prop.otherClusterBlockHeight then (s, none)
  else (s.emit (.relay (s.propSameCluster prop) s.recs.peersCurrent)).receiveMcLocal
    (s.propSameCluster prop) x

/-- The message completes its height: it is the last one that was missing. -/
def Replica.completes (s : Replica) (prop : Proposal) (x : ℤ) : Bool :=
  !s.didReceiveMc prop.otherClusterBlockHeight &&
    (s.mcArray prop x).any fun a =>
      decide (s.mc.nClusters ≤ a.length) && testFlag s.mc.nClusters a

def Replica.disarm (s : Replica) (cid : ℕ) (t : Timer) : Replica :=
  { s with mc := { s.mc with
      cidToRemoteViewChangeTimer :=
        Function.update s.mc.cidToRemoteViewChangeTimer cid (some { t with armed := false }) } }

/-- The callback of the timer that `start_remote_view_change_timer` sets. -/
def Replica.remoteViewChangeTimeout (C : Crypto) (s : Replica) (cid : ℕ) : Outcome :=
  match s.mc.cidToRemoteViewChangeTimer cid with
  | none => (s, none)
  | some t =>
    if t.armed then
      let s := s.disarm cid t
      if cid ∉ s.mc.finishedMcCids ∧ (cid : ℤ) - s.mc.lastRvc > 100 then
        (s.startLocalComplain C (s.height t.blk) t.blk).andThen fun s =>
          ({ s with mc := { s.mc with lastRvc := cid } }, none)
      else (s, none)
    else (s, none)

def Event.onMc : Event → Bool
  | .relay _ _ | .execute _ _ | .decide _ _ _ | .callback _ _ => true
  | _ => false

namespace Replica

/-- The states differ in what the messages between clusters are about: the completion of
heights, the executions and the answers to clients. -/
structure McOnly (s u : Replica) : Prop where
  rest : { u with mc := s.mc, decisionWaiting := s.decisionWaiting, trace := s.trace } = s
  trace : Appends Event.onMc s u

section
variable {s u w : Replica}

theorem McOnly.mc (m : McState) : McOnly s { s with mc := m } := ⟨rfl, .same rfl⟩

theorem McOnly.refl : McOnly s s := ⟨rfl, .same rfl⟩

theorem McOnly.emit {e : Event} (he : e.onMc = true) : McOnly s (s.emit e) := ⟨rfl, .emit he⟩

theorem McOnly.trans (h : McOnly s u) (h' : McOnly u w) : McOnly s w := by
  refine ⟨?_, h.trace.trans h'.trace⟩
  have hrest := congrArg (fun v : Replica =>
    { v with mc := s.mc, decisionWaiting := s.decisionWaiting, trace := s.trace }) h'.rest
  exact hrest.trans h.rest

theorem answerClient_mcOnly (s : Replica) (fin : Finality) : McOnly s (s.answerClient fin) := by
  unfold answerClient
  split
  · exact .refl
  · exact ⟨rfl, .emit rfl⟩

theorem decideCmd_mcOnly (blk : Block) (h : Hash) (s : Replica) (i : ℕ) :
    McOnly s (decideCmd blk h s i) :=
  McOnly.trans (.emit rfl) (answerClient_mcOnly _ _)

theorem executeBlk_mcOnly (s : Replica) (h : Hash) : McOnly s (s.executeBlk h) := by
  have hfold : ∀ (blk : Block) (is : List ℕ) (s : Replica),
      McOnly s (is.foldl (decideCmd blk h) s) := by
    intro blk is
    induction is with
    | nil => exact fun _ => .refl
    | cons i is ih => exact fun s => (decideCmd_mcOnly blk h s i).trans (ih _)
  unfold executeBlk
  split
  · exact .refl
  · exact McOnly.trans (.emit rfl) (hfold _ _ _)

theorem decideAfterMc_mcOnly (s : Replica) (cid : ℕ) : McOnly s (s.decideAfterMc cid) := by
  unfold decideAfterMc
  split
  · exact .refl
  split
  · exact (executeBlk_mcOnly s _).trans (.mc _)
  · exact .refl

theorem receiveMcLocal_mcOnly (s : Replica) (prop : Proposal) (x : ℤ) :
    McOnly s (s.receiveMcLocal prop x).1 := by
  have hsync : McOnly s (s.syncReconfigCount prop) := by
    unfold syncReconfigCount
    split
    · exact .mc _
    · exact .refl
  unfold receiveMcLocal
  simp only []
  generalize s.syncReconfigCount prop = u at hsync ⊢
  split
  · exact hsync
  unfold countMc
  split
  · exact hsync
  split
  · exact hsync
  split
  · have hfinish : McOnly u (u.finishMc prop.otherClusterBlockHeight) :=
      McOnly.trans (.mc _) (decideAfterMc_mcOnly _ _)
    exact hsync.trans (hfinish.trans (.mc _))
  · exact hsync.trans (.mc _)

theorem relayMc_mcOnly (s : Replica) (prop : Proposal) (x : ℤ) :
    McOnly s (s.relayMc prop x).1 := by
  unfold relayMc
  split
  · exact .refl
  · exact McOnly.trans (.emit rfl) (receiveMcLocal_mcOnly _ _ _)

end

end Replica

section
variable (s : Replica)

theorem map_modifyBlk {α : Type*} (h : Hash) {f : Block → Block} {g : Block → α}
    (hg : ∀ b, g (f b) = g b) :
    (fun x => ((s.modifyBlk h f).storage.blkCache x).map g) =
      fun x => (s.storage.blkCache x).map g := by
  funext x
  unfold Replica.modifyBlk
  simp only []
  by_cases hx : x = h
  · rw [hx, Function.update_self, Option.map_map]
    exact congrArg (fun k => (s.storage.blkCache h).map k) (funext hg)
  · rw [Function.update_of_ne hx]

theorem filter_other {p q : Event → Bool} (hp : ∀ e, p e = true → q e = false)
    (es : List Event) : (es.filter fun e => !p e).filter q = es.filter q := by
  rw [List.filter_filter]
  apply List.filter_congr
  intro e _
  cases he : p e with
  | true => rw [hp e he]; rfl
  | false => exact Bool.and_true _

end

def Event.onComplain : Event → Bool
  | .lcomplain _ _ | .rcomplain _ | .rcomplainSent _ _ => true
  | _ => false

def Event.onRotation : Event → Bool
  | .rcomplainLocal _ _ | .otherClusters _ _ => true
  | _ => false

namespace Replica
variable (s : Replica)

/-- The state without the local complaints: who has complained about which block, the timers
that lead to complaints, and the complaints sent. -/
def uncomplained : Replica :=
  { s with
    storage := { s.storage with
      blkCache := fun h => (s.storage.blkCache h).map fun b => { b with lcomplains := ∅ } }
    mc := { s.mc with cidToRemoteViewChangeTimer := fun _ => none, lastRvc := 0 }
    trace := s.trace.filter fun e => !e.onComplain }

/-- The state without the remote complaints: which were taken up, the leader, the recipients in
the other clusters, and what is sent to them and to the peers. -/
def unrotated : Replica :=
  { s with
    storage := { s.storage with
      blkCache := fun h => (s.storage.blkCache h).map fun b => { b with rcomplains := ∅ } }
    pmaker := { s.pmaker with proposer := 0 }
    mc := { s.mc with lastRvc := 0, otherPeersFPlusOneInit := false, otherPeersFPlusOne := [] }
    trace := s.trace.filter fun e => !e.onRotation }

theorem emit_uncomplained {e : Event} (he : e.onComplain = true) :
    (s.emit e).uncomplained = s.uncomplained := by
  unfold uncomplained
  rw [emit_trace, List.filter_append, List.filter_cons_of_neg (by simp [he]), List.filter_nil,
    List.append_nil]
  rfl

theorem emit_unrotated {e : Event} (he : e.onRotation = true) :
    (s.emit e).unrotated = s.unrotated := by
  unfold unrotated
  rw [emit_trace, List.filter_append, List.filter_cons_of_neg (by simp [he]), List.filter_nil,
    List.append_nil]
  rfl

theorem onReceiveLComplain_uncomplained (C : Crypto) (v : Complain) :
    (s.onReceiveLComplain C v).1.uncomplained = s.uncomplained := by
  unfold onReceiveLComplain
  split
  · rfl
  split
  · rfl
  split
  · rfl
  split
  · rfl
  have hcount : (s.modifyBlk v.blkHash fun b => { b with
      lcomplains := insert v.voter b.lcomplains }).uncomplained = s.uncomplained := by
    have hcache := map_modifyBlk s v.blkHash
      (f := fun b => { b with lcomplains := insert v.voter b.lcomplains })
      (g := fun b => { b with lcomplains := ∅ }) fun _ => rfl
    exact congrArg (fun c => { s.uncomplained with
      storage := { s.storage with blkCache := c } }) hcache
  simp only []
  generalize s.modifyBlk v.blkHash _ = u at hcount ⊢
  split
  · unfold sendRComplain
    simp only []
    split
    · rw [emit_uncomplained _ rfl, emit_uncomplained _ rfl]
      exact hcount
    · rw [emit_uncomplained _ rfl]
      exact hcount
  · exact hcount

theorem remoteViewChangeTimeout_uncomplained (C : Crypto) (cid : ℕ) :
    (s.remoteViewChangeTimeout C cid).1.uncomplained = s.uncomplained := by
  unfold remoteViewChangeTimeout
  split
  · rfl
  split
  · simp only []
    split
    · refine Outcome.andThen_keeps ?_ fun u hu => hu
      unfold startLocalComplain
      rw [onReceiveLComplain_uncomplained, emit_uncomplained _ rfl]
      rfl
    · rfl
  · rfl

theorem doBroadcastProposalOtherClusters_unrotated (prop : Proposal) :
    (s.doBroadcastProposalOtherClusters prop).unrotated = s.unrotated := by
  have hinit : s.initOtherPeers.unrotated = s.unrotated := by
    unfold initOtherPeers
    split <;> rfl
  unfold doBroadcastProposalOtherClusters
  rw [emit_unrotated _ rfl, hinit]

theorem onReceiveRComplain_unrotated (v : Complain) (junk : ℤ) :
    (s.onReceiveRComplain v junk).1.unrotated = s.unrotated := by
  unfold onReceiveRComplain
  split
  · rfl
  split
  · rfl
  split
  · rfl
  have hnote : (s.modifyBlk v.blkHash fun b => { b with
      rcomplains := insert v.voter b.rcomplains }).unrotated = s.unrotated := by
    have hcache := map_modifyBlk s v.blkHash
      (f := fun b => { b with rcomplains := insert v.voter b.rcomplains })
      (g := fun b => { b with rcomplains := ∅ }) fun _ => rfl
    exact congrArg (fun c => { s.unrotated with
      storage := { s.storage with blkCache := c } }) hcache
  rw [← hnote]
  generalize s.modifyBlk v.blkHash _ = u
  unfold sendRComplainLocal
  simp only []
  split
  · exact emit_unrotated u rfl
  · change (doBroadcastProposalOtherClusters _ _).unrotated = u.unrotated
    rw [doBroadcastProposalOtherClusters_unrotated, emit_unrotated u rfl]

theorem uncomplained_filter {p : Event → Bool} (hp : ∀ e, e.onComplain = true → p e = false) :
    s.uncomplained.trace.filter p = s.trace.filter p := filter_other hp s.trace

theorem unrotated_filter {p : Event → Bool} (hp : ∀ e, e.onRotation = true → p e = false) :
    s.unrotated.trace.filter p = s.trace.filter p := filter_other hp s.trace

theorem uncomplained_tree : s.uncomplained.tree = s.tree := by
  funext h
  change ((s.storage.blkCache h).map _).map _ = (s.storage.blkCache h).map _
  rw [Option.map_map]
  rfl

theorem unrotated_tree : s.unrotated.tree = s.tree := by
  funext h
  change ((s.storage.blkCache h).map _).map _ = (s.storage.blkCache h).map _
  rw [Option.map_map]
  rfl

theorem view_of_uncomplained {α : Type*} {view : Replica → α}
    (hv : ∀ s : Replica, view s.uncomplained = view s) {u : Replica}
    (h : u.uncomplained = s.uncomplained) : view u = view s := by
  rw [← hv u, h, hv s]

theorem view_of_unrotated {α : Type*} {view : Replica → α}
    (hv : ∀ s : Replica, view s.unrotated = view s) {u : Replica}
    (h : u.unrotated = s.unrotated) : view u = view s := by
  rw [← hv u, h, hv s]

end Replica

end AvaHotstuff
