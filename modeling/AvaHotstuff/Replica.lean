import AvaHotstuff.Entity
import AvaHotstuff.Ancestry

set_option autoImplicit false

/-!
# The state of one replica

One record holds the fields of `HotStuffCore` and of the `HotStuffBase` that
extends it. `trace` lists, oldest first, the calls that leave the core (the
virtual functions and the messages) and the marks the properties speak about.
-/
namespace AvaHotstuff
open Ancestry

inductive Event where
  | updated (nblk : Hash)
  | opinion (blk lock : Hash)
  | vote (blk : Hash)
  | voteSent (dst : ReplicaID) (v : Vote)
  | qcFinish (blk : Hash)
  | consensus (blk : Hash)
  | broadcast (blk : Hash)
  | relay (prop : Proposal) (dsts : List PeerId)
  | otherClusters (prop : Proposal) (dsts : List PeerId)
  | execute (height : ℕ) (blk : Hash)
  | decide (fin : Finality) (key val : ℤ)
  | callback (cb : ℕ) (fin : Finality)
  | lcomplain (c : Complain) (dsts : List PeerId)
  | rcomplain (c : Complain)
  | rcomplainSent (c : Complain) (dsts : List PeerId)
  | rcomplainLocal (c : Complain) (dsts : List PeerId)
  | recsAck (r : Recs) (dst : ReplicaID)
  | recsSent (r : Recs) (type count : ℤ) (dsts : List PeerId)
  | reconfigured (r : Recs) (count : ℤ)
deriving DecidableEq

/-- The proposer of `PaceMakerDummyFixed` and the parent choice of `PMHighTail`. -/
structure PaceMaker where
  proposer : ReplicaID
  hqcTail : Hash

/-- A one-shot libuv timer with the block its callback captured. -/
structure Timer where
  blk : Hash
  armed : Bool

structure McState where
  nClusters : ℕ
  clusterTrackerArray : List ℤ
  cidToClusterTrackerArray : ℕ → Option (List ℤ)
  finishedMcCids : Finset ℕ
  finishedUpdateCids : Finset ℕ
  clusterMsgCount : ℕ
  cidToRemoteViewChangeTimer : ℕ → Option Timer
  lastRvc : ℤ
  clusteridToReconfigCount : ℕ → ℤ
  otherPeersFPlusOneInit : Bool
  otherPeersFPlusOne : List PeerId
  clusterToNodesPeerIds : List (ℕ × List PeerId)
  clusterMap : List (ℕ × ℕ)

structure Membership where
  peers : List PeerId
  allPeers : List PeerId
  knownPeers : List PeerId
  peersCurrent : List PeerId
  leaveSet : Finset PeerId
  leaveSetInt : Finset ℤ
  pendingRecs : Recs → ℕ
  reconfigEchoCounter : ℤ → ℕ
  reconfigReadyCounter : ℤ → ℕ
  reconfigCount : ℤ
  reconfigSent : ℤ

structure Replica where
  id : ReplicaID
  clusterId : ℕ
  config : ReplicaConfig
  storage : EntityStorage
  tails : List Hash
  hqc : Hash × QuorumCert
  bLock : Hash
  bExec : Hash
  vheight : ℕ
  voteDisabled : Bool
  qcWaiting : List Hash
  pmaker : PaceMaker
  mc : McState
  recs : Membership
  decisionWaiting : List (Hash × ℕ)
  trace : List Event

/-- The exceptions the code raises; `undefined` marks a read that C++ leaves undefined. -/
inductive Exn where
  | blockNotDelivered
  | qcBlockNotFetched
  | safetyBreached
  | emptyParents
  | notAboveVheight
  | partCertMismatch
  | peerNotExist
  | undefined
deriving DecidableEq

/-- A call either returns or throws; the state it leaves is kept in both cases. -/
abbrev Outcome := Replica × Option Exn

def Outcome.andThen (r : Outcome) (f : Replica → Outcome) : Outcome :=
  match r.2 with
  | none => f r.1
  | some _ => r

@[simp] theorem Outcome.andThen_return (s : Replica) (f : Replica → Outcome) :
    Outcome.andThen (s, none) f = f s := rfl

@[simp] theorem Outcome.andThen_throw (s : Replica) (e : Exn) (f : Replica → Outcome) :
    Outcome.andThen (s, some e) f = (s, some e) := rfl

theorem Outcome.andThen_of_none {r : Outcome} (h : r.2 = none) (f : Replica → Outcome) :
    r.andThen f = f r.1 := by
  unfold Outcome.andThen
  rw [h]

theorem Outcome.andThen_keeps {β : Sort*} {view : Replica → β} {v : β} {r : Outcome}
    {f : Replica → Outcome} (hr : view r.1 = v) (hf : ∀ u, view u = v → view (f u).1 = v) :
    view (r.andThen f).1 = v := by
  obtain ⟨u, none | e⟩ := r
  · exact hf u hr
  · exact hr

/-- The cached blocks as a tree, without the vote and complaint sets. -/
abbrev Tree := Hash → Option BlockNode

def Tree.height (t : Tree) (h : Hash) : ℕ := ((t h).map (·.height)).getD 0
def Tree.delivered (t : Tree) (h : Hash) : Bool := ((t h).map (·.delivered)).getD false
def Tree.decided (t : Tree) (h : Hash) : Bool := ((t h).map (·.decision)).getD false
def Tree.qcRef (t : Tree) (h : Hash) : Option Hash := (t h).bind (·.qcRef)
def Tree.parent0 (t : Tree) (h : Hash) : Option Hash := (t h).bind (·.parents.head?)

def Replica.tree (s : Replica) : Tree := fun h => (s.storage.blkCache h).map (·.toBlockNode)

def Replica.height (s : Replica) (h : Hash) : ℕ := s.tree.height h
def Replica.delivered (s : Replica) (h : Hash) : Bool := s.tree.delivered h
def Replica.decided (s : Replica) (h : Hash) : Bool := s.tree.decided h
def Replica.qcRef (s : Replica) (h : Hash) : Option Hash := s.tree.qcRef h
def Replica.parent0 (s : Replica) (h : Hash) : Option Hash := s.tree.parent0 h

/-- The ancestor walk of `update`, `on_receive_proposal` and `check_ancestry`. Its
iterations are bounded by the height it starts from. -/
def Replica.walk (s : Replica) (bound : ℕ) (b : Hash) : Option (List Hash × Hash) :=
  Ancestry.walk s.parent0 s.height bound (s.height b) b

def Replica.emit (s : Replica) (e : Event) : Replica := { s with trace := s.trace ++ [e] }

def Replica.modifyBlk (s : Replica) (h : Hash) (f : Block → Block) : Replica :=
  { s with storage := { s.storage with
      blkCache := Function.update s.storage.blkCache h ((s.storage.blkCache h).map f) } }

def Replica.addBlk (s : Replica) (h : Hash) (b : Block) : Replica :=
  { s with storage := s.storage.addBlk h b }

section
variable (s : Replica) (e : Event) (h : Hash) (f : Block → Block)

@[simp] theorem Replica.emit_trace : (s.emit e).trace = s.trace ++ [e] := rfl

theorem Replica.tree_modifyBlk (g : BlockNode → BlockNode)
    (hg : ∀ b : Block, (f b).toBlockNode = g b.toBlockNode) :
    (s.modifyBlk h f).tree = Function.update s.tree h ((s.tree h).map g) := by
  funext x
  by_cases hx : x = h
  · subst x
    cases hb : s.storage.blkCache h <;> simp [Replica.tree, Replica.modifyBlk, hb, hg]
  · simp [Replica.tree, Replica.modifyBlk, hx]

theorem Replica.tree_modifyBlk_same (hf : ∀ b : Block, (f b).toBlockNode = b.toBlockNode) :
    (s.modifyBlk h f).tree = s.tree := by
  rw [Replica.tree_modifyBlk s h f (fun b => b) hf, Option.map_id', Function.update_eq_self]

end

namespace Replica

theorem modifyBlk_stored {s : Replica} (f : Block → Block) (h x : Hash) :
    ((s.modifyBlk h f).storage.blkCache x).isSome = (s.storage.blkCache x).isSome := by
  unfold modifyBlk
  by_cases hx : x = h
  · subst x
    simp
  · simp [hx]

/-- The trace of `u` is that of `s` and events of one kind. -/
def Appends (p : Event → Bool) (s u : Replica) : Prop :=
  ∃ es, u.trace = s.trace ++ es ∧ ∀ e ∈ es, p e = true

namespace Appends
variable {p : Event → Bool} {s u w : Replica}

theorem same (h : u.trace = s.trace) : Appends p s u :=
  ⟨[], h.trans (List.append_nil _).symm, fun _ he => absurd he List.not_mem_nil⟩

theorem emit {e : Event} (he : p e = true) : Appends p s (s.emit e) := by
  refine ⟨[e], rfl, ?_⟩
  intro e' he'
  rw [List.mem_singleton.mp he']
  exact he

theorem trans (h : Appends p s u) (h' : Appends p u w) : Appends p s w := by
  obtain ⟨es, hes, hp⟩ := h
  obtain ⟨es', hes', hp'⟩ := h'
  refine ⟨es ++ es', by rw [hes', hes, List.append_assoc], ?_⟩
  intro e he
  rcases List.mem_append.mp he with he | he
  · exact hp e he
  · exact hp' e he

theorem filterMap {α : Type*} (h : Appends p s u) {f : Event → Option α}
    (hf : ∀ e, p e = true → f e = none) : u.trace.filterMap f = s.trace.filterMap f := by
  obtain ⟨es, hes, hp⟩ := h
  have hnil : es.filterMap f = [] := List.filterMap_eq_nil_iff.mpr fun e he => hf e (hp e he)
  rw [hes, List.filterMap_append, hnil, List.append_nil]

theorem filter (h : Appends p s u) {q : Event → Bool} (hq : ∀ e, p e = true → q e = false) :
    u.trace.filter q = s.trace.filter q := by
  rw [← List.filterMap_eq_filter]
  apply h.filterMap
  intro e he
  exact Option.guard_eq_none_iff.mpr (by rw [hq e he])

end Appends

end Replica

end AvaHotstuff
