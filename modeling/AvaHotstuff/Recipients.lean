import Mathlib.Data.List.Pairwise
import AvaHotstuff.Exec
import AvaHotstuff.Runs

set_option autoImplicit false

namespace AvaHotstuff

section
variable {α β : Type} {cs : List (α × List β)} {pick : α × List β → List β}

/-- Members picked from disjoint groups. -/
structure Picked (cs : List (α × List β)) (pick : α × List β → List β) : Prop where
  disjoint : cs.Pairwise fun c d => List.Disjoint c.2 d.2
  nodup : ∀ c ∈ cs, c.2.Nodup
  sublist : ∀ c ∈ cs, (pick c).Sublist c.2

theorem Picked.flatMap_nodup (h : Picked cs pick) : (cs.flatMap pick).Nodup := by
  rw [List.nodup_flatMap]
  refine ⟨fun c hc => (h.nodup c hc).sublist (h.sublist c hc), ?_⟩
  refine h.disjoint.imp_of_mem ?_
  intro c d hc hd hcd x hx hx'
  exact hcd ((h.sublist c hc).subset hx) ((h.sublist d hd).subset hx')

theorem Picked.mem_pick (h : Picked cs pick) {c : α × List β} (hc : c ∈ cs) {x : β}
    (hx : x ∈ cs.flatMap pick) (hxc : x ∈ c.2) : x ∈ pick c := by
  obtain ⟨d, hd, hxd⟩ := List.mem_flatMap.mp hx
  by_cases heq : c = d
  · rwa [heq]
  · have hsymm : Std.Symm fun c d : α × List β => List.Disjoint c.2 d.2 :=
      ⟨fun _ _ h => List.Disjoint.symm h⟩
    have hdisj : List.Disjoint c.2 d.2 := h.disjoint.forall hc hd heq
    exact absurd ((h.sublist d hd).subset hxd) (hdisj hxc)

theorem Picked.length_le [DecidableEq β] (h : Picked cs pick) {c : α × List β} (hc : c ∈ cs) :
    (pick c).length ≤ (c.2.filter fun x => decide (x ∈ cs.flatMap pick)).length := by
  have hsub : ((pick c).filter fun x => decide (x ∈ cs.flatMap pick)).Sublist
      (c.2.filter fun x => decide (x ∈ cs.flatMap pick)) := (h.sublist c hc).filter _
  have hall : ((pick c).filter fun x => decide (x ∈ cs.flatMap pick)) = pick c := by
    rw [List.filter_eq_self]
    intro x hx
    exact decide_eq_true (List.mem_flatMap.mpr ⟨c, hc, hx⟩)
  rw [hall] at hsub
  exact hsub.length_le

end

theorem sizeSub_of_le {a b : ℕ} (ha : a < 2 ^ 64) (h : b ≤ a) : sizeSub a b = a - b := by
  unfold sizeSub
  omega

/-- The clusters of a setup are disjoint sets that fit the memory. -/
structure Setup.Partitioned (c : Setup) : Prop where
  disjoint : c.members.Pairwise fun x y => List.Disjoint x.2 y.2
  nodup : ∀ x ∈ c.members, x.2.Nodup
  size : ∀ x ∈ c.members, x.2.length < 2 ^ 64

/-- A replica, and the leave set last reported for each cluster. -/
structure Recipients where
  core : Replica
  reported : ℕ → Finset ℤ

namespace Recipients

inductive Call where
  | broadcast (prop : Proposal)
  | update (leaveSet : Finset ℤ) (clsId : ℕ)
  | complain (c : Complain)

def step (r : Recipients) : Call → Recipients
  | .broadcast prop => { r with core := r.core.doBroadcastProposalOtherClusters prop }
  | .update leaveSet clsId =>
    ⟨r.core.updateOtherFPlusOne leaveSet clsId, Function.update r.reported clsId leaveSet⟩
  | .complain c => { r with core := r.core.sendRComplain c }

def start (c : Setup) : Recipients := ⟨c.start, fun _ => ∅⟩

def departed (r : Recipients) (clsId : ℕ) (p : PeerId) : Bool :=
  r.core.leavePeerIds (r.reported clsId) p

def current (r : Recipients) (x : ℕ × List PeerId) : List PeerId :=
  x.2.filter fun p => !r.departed x.1 p

def recipients : Event → Option (List PeerId)
  | .otherClusters _ dsts | .rcomplainSent _ dsts => some dsts
  | _ => none

def sends (r : Recipients) (x : Call) : List (List PeerId) :=
  ((r.step x).core.trace.drop r.core.trace.length).filterMap recipients

/-- `f + 1` of the current members of every other cluster, none of them twice. -/
structure Right (r : Recipients) (dsts : List PeerId) : Prop where
  nodup : dsts.Nodup
  live : ∀ x ∈ r.core.otherClusterNodes, ∀ p ∈ x.2, p ∈ dsts → r.departed x.1 p = false
  enough : ∀ x ∈ r.core.otherClusterNodes, (((r.current x).length : ℤ) - 1) / 3 + 1 ≤
    (x.2.filter fun p => decide (p ∈ dsts)).length

/-- The list is filled only once, from the members that a leave set leaves. -/
def FilledOnce (r : Recipients) : Call → Prop
  | .broadcast _ => r.core.mc.otherPeersFPlusOneInit = true ∨
      r.core.mc.otherPeersFPlusOne = [] ∧ ∀ clsId, r.reported clsId = ∅
  | .update leaveSet clsId => r.core.mc.otherPeersFPlusOne = [] ∧
      (∀ clsId, r.reported clsId = ∅) ∧ ∀ x ∈ r.core.otherClusterNodes, x.1 = clsId →
        leaveSet.card ≤ (x.2.filter (r.core.leavePeerIds leaveSet)).length
  | .complain _ => True

section
variable {r : Recipients}

structure Kept (c : Setup) (r : Recipients) : Prop where
  clusterId : r.core.clusterId = c.clusterId
  members : r.core.mc.clusterToNodesPeerIds = c.members
  allPeers : r.core.recs.allPeers = c.allPeers

theorem kept_step {c : Setup} (k : Kept c r) (x : Call) : Kept c (r.step x) := by
  obtain ⟨h1, h2, h3⟩ := k
  cases x with
  | broadcast prop =>
    change Kept c { r with core := r.core.initOtherPeers.emit _ }
    unfold Replica.initOtherPeers
    split <;> exact ⟨h1, h2, h3⟩
  | update leaveSet clsId => exact ⟨h1, h2, h3⟩
  | complain v =>
    change Kept c { r with core := r.core.sendRComplain v }
    unfold Replica.sendRComplain
    split <;> exact ⟨h1, h2, h3⟩

theorem Kept.nodes {c : Setup} (k : Kept c r) : r.core.otherClusterNodes =
    c.members.filter fun x => decide (x.1 ≠ c.clusterId) := by
  unfold Replica.otherClusterNodes
  rw [k.members, k.clusterId]

theorem Kept.leavePeerIds {c : Setup} (k : Kept c r) (leaveSet : Finset ℤ) :
    r.core.leavePeerIds leaveSet = c.start.leavePeerIds leaveSet := by
  funext p
  unfold Replica.leavePeerIds
  rw [k.allPeers]
  rfl

theorem leavePeerIds_empty (s : Replica) (p : PeerId) : s.leavePeerIds ∅ p = false := by
  unfold Replica.leavePeerIds
  simp

theorem picked {c : Setup} (hc : c.Partitioned) (k : Kept c r)
    {pick : ℕ × List PeerId → List PeerId}
    (hpick : ∀ x ∈ r.core.otherClusterNodes, (pick x).Sublist x.2) :
    Picked r.core.otherClusterNodes pick := by
  refine ⟨?_, ?_, hpick⟩
  · rw [k.nodes]
    exact hc.disjoint.sublist List.filter_sublist
  · intro x hx
    rw [k.nodes] at hx
    exact hc.nodup x (List.mem_filter.mp hx).1

theorem right_of_picks {c : Setup} (hc : c.Partitioned) (k : Kept c r)
    {pick : ℕ × List PeerId → List PeerId}
    (hpick : ∀ x ∈ r.core.otherClusterNodes, (pick x).Sublist (r.current x))
    (henough : ∀ x ∈ r.core.otherClusterNodes,
      (((r.current x).length : ℤ) - 1) / 3 + 1 ≤ (pick x).length) :
    Right r (r.core.otherClusterNodes.flatMap pick) := by
  have P : Picked r.core.otherClusterNodes pick :=
    picked hc k fun x hx => (hpick x hx).trans List.filter_sublist
  refine ⟨P.flatMap_nodup, ?_, ?_⟩
  · intro x hx p hp hmem
    have hpx := (hpick x hx).subset (P.mem_pick hx hmem hp)
    simpa using (List.mem_filter.mp hpx).2
  · intro x hx
    have hlen := P.length_le hx
    have := henough x hx
    omega

theorem Right.congr {c : Setup} {u : Recipients} {dsts : List PeerId} (h : Right r dsts)
    (k : Kept c r) (k' : Kept c u) (hreported : u.reported = r.reported) : Right u dsts := by
  have hnodes : u.core.otherClusterNodes = r.core.otherClusterNodes :=
    k'.nodes.trans k.nodes.symm
  have hdeparted : u.departed = r.departed := by
    funext clsId p
    unfold departed
    rw [k'.leavePeerIds, k.leavePeerIds, hreported]
  obtain ⟨h1, h2, h3⟩ := h
  refine ⟨h1, ?_, ?_⟩
  · rw [hnodes, hdeparted]
    exact h2
  · unfold current at h3 ⊢
    rw [hnodes, hdeparted]
    exact h3

theorem current_of_unreported {x : ℕ × List PeerId} (h : r.reported x.1 = ∅) :
    r.current x = x.2 := by
  unfold current departed
  rw [h, List.filter_eq_self]
  intro p _
  rw [leavePeerIds_empty]
  rfl

theorem length_take_third (n : ℕ) : ((n : ℤ) - 1) / 3 + 1 ≤ (min (n / 3 + 1) n : ℕ) := by
  omega

theorem length_take_size {n k : ℕ} (hn : n < 2 ^ 64) (hk : n ≤ k) (hk' : k < 2 ^ 64) :
    ((n : ℤ) - 1) / 3 + 1 ≤ (min (sizeSub k 1 / 3 + 1) n : ℕ) := by
  by_cases h0 : k = 0
  · omega
  · rw [sizeSub_of_le hk' (by omega)]
    omega

theorem right_init {c : Setup} (hc : c.Partitioned) (k : Kept c r)
    (hnone : ∀ clsId, r.reported clsId = ∅) :
    Right r (r.core.otherClusterNodes.flatMap fun x => x.2.take (x.2.length / 3 + 1)) := by
  refine right_of_picks hc k ?_ ?_
  · intro x _
    rw [current_of_unreported (hnone x.1)]
    exact List.take_sublist ..
  · intro x _
    rw [current_of_unreported (hnone x.1), List.length_take]
    exact length_take_third x.2.length

theorem right_update {c : Setup} (hc : c.Partitioned) (k : Kept c r)
    (hnone : ∀ clsId, r.reported clsId = ∅) {leaveSet : Finset ℤ} {clsId : ℕ}
    (hcard : ∀ x ∈ r.core.otherClusterNodes, x.1 = clsId →
      leaveSet.card ≤ (x.2.filter (r.core.leavePeerIds leaveSet)).length) :
    Right (r.step (.update leaveSet clsId)) (r.core.otherClusterNodes.flatMap fun x =>
      if x.1 = clsId then
        (x.2.filter fun p => !r.core.leavePeerIds leaveSet p).take
          (sizeSub (sizeSub x.2.length leaveSet.card) 1 / 3 + 1)
      else x.2.take (sizeSub x.2.length 1 / 3 + 1)) := by
  have k' := kept_step k (.update leaveSet clsId)
  have hsize : ∀ x ∈ r.core.otherClusterNodes, x.2.length < 2 ^ 64 := by
    intro x hx
    rw [k.nodes] at hx
    exact hc.size x (List.mem_filter.mp hx).1
  have hcurrent : ∀ x : ℕ × List PeerId, x.1 = clsId →
      (r.step (.update leaveSet clsId)).current x =
        x.2.filter fun p => !r.core.leavePeerIds leaveSet p := by
    rintro x rfl
    unfold current departed
    change x.2.filter (fun p => !(r.core.updateOtherFPlusOne leaveSet x.1).leavePeerIds
      (Function.update r.reported x.1 leaveSet x.1) p) = _
    rw [Function.update_self]
    rfl
  have hother : ∀ x : ℕ × List PeerId, x.1 ≠ clsId →
      (r.step (.update leaveSet clsId)).current x = x.2 := by
    intro x hx
    refine current_of_unreported ?_
    change Function.update r.reported clsId leaveSet x.1 = ∅
    rw [Function.update_of_ne hx]
    exact hnone x.1
  refine right_of_picks hc k' ?_ ?_
  · intro x hx
    by_cases hcls : x.1 = clsId
    · rw [if_pos hcls, hcurrent x hcls]
      exact List.take_sublist ..
    · rw [if_neg hcls, hother x hcls]
      exact List.take_sublist ..
  · intro x hx
    have hx' : x ∈ r.core.otherClusterNodes := hx
    by_cases hcls : x.1 = clsId
    · rw [if_pos hcls, hcurrent x hcls, List.length_take]
      have hsplit := List.length_eq_length_filter_add (r.core.leavePeerIds leaveSet) (l := x.2)
      have hle := hcard x hx' hcls
      have hlt := hsize x hx'
      rw [sizeSub_of_le hlt (by omega)]
      exact length_take_size (by omega) (by omega) (by omega)
    · rw [if_neg hcls, hother x hcls, List.length_take]
      exact length_take_size (hsize x hx') (Nat.le_refl _) (hsize x hx')

/-- The list is empty and still to be filled, or it is right. -/
def Filled (r : Recipients) : Prop :=
  r.core.mc.otherPeersFPlusOneInit = false ∧ r.core.mc.otherPeersFPlusOne = [] ∨
    Right r r.core.mc.otherPeersFPlusOne

theorem initOtherPeers_list (s : Replica) (h : s.mc.otherPeersFPlusOneInit = false) :
    s.initOtherPeers.mc.otherPeersFPlusOne = s.mc.otherPeersFPlusOne ++
      s.otherClusterNodes.flatMap fun x => x.2.take (x.2.length / 3 + 1) := by
  unfold Replica.initOtherPeers
  rw [h]
  rfl

theorem initOtherPeers_trace (s : Replica) : s.initOtherPeers.trace = s.trace := by
  unfold Replica.initOtherPeers
  split <;> rfl

theorem right_broadcast {c : Setup} (hc : c.Partitioned) (k : Kept c r) (f : Filled r)
    {prop : Proposal} (hx : FilledOnce r (.broadcast prop)) :
    Right (r.step (.broadcast prop))
      (r.step (.broadcast prop)).core.mc.otherPeersFPlusOne := by
  have k' := kept_step k (.broadcast prop)
  change Right _ r.core.initOtherPeers.mc.otherPeersFPlusOne
  by_cases hinit : r.core.mc.otherPeersFPlusOneInit = true
  · have hsame : r.core.initOtherPeers = r.core := by
      unfold Replica.initOtherPeers
      rw [if_pos hinit]
    rw [hsame]
    rcases f with ⟨hf, _⟩ | hright
    · rw [hinit] at hf
      exact absurd hf (by decide)
    · exact hright.congr k k' rfl
  · rcases hx with h | ⟨hnil, hnone⟩
    · exact absurd h hinit
    · rw [initOtherPeers_list _ (Bool.eq_false_iff.mpr hinit), hnil, List.nil_append]
      exact (right_init hc k hnone).congr k k' rfl

theorem filled_step {c : Setup} (hc : c.Partitioned) (k : Kept c r) (f : Filled r) {x : Call}
    (hx : FilledOnce r x) : Filled (r.step x) := by
  have k' := kept_step k x
  cases x with
  | broadcast prop => exact Or.inr (right_broadcast hc k f hx)
  | update leaveSet clsId =>
    obtain ⟨hnil, hnone, hcard⟩ := hx
    have hright := right_update hc k hnone hcard
    refine Or.inr ?_
    change Right _ (r.core.mc.otherPeersFPlusOne ++ _)
    rw [hnil, List.nil_append]
    exact hright
  | complain v =>
    have hmc : (r.core.sendRComplain v).mc = r.core.mc := by
      unfold Replica.sendRComplain
      split <;> rfl
    change _ ∧ _ ∨ Right _ (r.core.sendRComplain v).mc.otherPeersFPlusOne
    rcases f with ⟨hinit, hnil⟩ | hright
    · refine Or.inl ?_
      change (r.core.sendRComplain v).mc.otherPeersFPlusOneInit = false ∧
        (r.core.sendRComplain v).mc.otherPeersFPlusOne = []
      rw [hmc]
      exact ⟨hinit, hnil⟩
    · rw [hmc]
      exact Or.inr (hright.congr k k' rfl)

theorem mem_sends_broadcast {prop : Proposal} {dsts : List PeerId}
    (h : dsts ∈ r.sends (.broadcast prop)) :
    dsts = (r.step (.broadcast prop)).core.mc.otherPeersFPlusOne := by
  have htrace : (r.step (.broadcast prop)).core.trace =
      r.core.trace ++ [.otherClusters prop r.core.initOtherPeers.mc.otherPeersFPlusOne] := by
    change r.core.initOtherPeers.trace ++ _ = _
    rw [initOtherPeers_trace]
  unfold sends at h
  rw [htrace, List.drop_left] at h
  change dsts = r.core.initOtherPeers.mc.otherPeersFPlusOne
  simpa [recipients] using h

/-- A complaint goes to the list as it stands, and to nobody while the list is empty. -/
theorem mem_sends_complain {v : Complain} {dsts : List PeerId}
    (h : dsts ∈ r.sends (.complain v)) :
    dsts = r.core.mc.otherPeersFPlusOne ∧ r.core.mc.otherPeersFPlusOne ≠ [] := by
  unfold sends at h
  change dsts ∈ ((r.core.sendRComplain v).trace.drop r.core.trace.length).filterMap recipients at h
  unfold Replica.sendRComplain at h
  split at h
  next hsend =>
    change dsts ∈ ((r.core.trace ++ [_]).drop r.core.trace.length).filterMap recipients at h
    rw [List.drop_left] at h
    exact ⟨by simpa [recipients] using h, List.ne_nil_of_length_pos hsend.1⟩
  next => simp at h

theorem mem_sends_update {leaveSet : Finset ℤ} {clsId : ℕ} {dsts : List PeerId} :
    dsts ∉ r.sends (.update leaveSet clsId) := by
  intro h
  unfold sends at h
  change dsts ∈ (r.core.trace.drop r.core.trace.length).filterMap recipients at h
  simp at h

theorem right_of_sends {c : Setup} (hc : c.Partitioned) (k : Kept c r) (f : Filled r) {x : Call}
    (hx : FilledOnce r x) {dsts : List PeerId} (h : dsts ∈ r.sends x) :
    Right (r.step x) dsts := by
  cases x with
  | broadcast prop =>
    rw [mem_sends_broadcast h]
    exact right_broadcast hc k f hx
  | update leaveSet clsId => exact absurd h mem_sends_update
  | complain v =>
    obtain ⟨rfl, hne⟩ := mem_sends_complain h
    rcases f with ⟨_, hnil⟩ | hright
    · exact absurd hnil hne
    · exact hright.congr k (kept_step k (.complain v)) rfl

end

/-- While the list is filled only once, whatever is sent to the other clusters goes to
`f + 1` of the current members of each, in every run of broadcasts, reports and complaints. -/
theorem recipients_filled_once {c : Setup} (hc : c.Partitioned) {r : Recipients}
    (h : Runs.Reach FilledOnce step (start c) r) {x : Call} (hx : FilledOnce r x) :
    ∀ dsts ∈ r.sends x, Right (r.step x) dsts := by
  have hinv : Kept c r ∧ Filled r := by
    refine h.invariant (fun r => Kept c r ∧ Filled r) ?_ ?_
    · exact ⟨⟨rfl, rfl, rfl⟩, Or.inl ⟨rfl, rfl⟩⟩
    · rintro r x ⟨k, f⟩ hx
      exact ⟨kept_step k x, filled_step hc k f hx⟩
  intro dsts hdsts
  exact right_of_sends hc hinv.1 hinv.2 hx hdsts

def three : Setup :=
  { Setup.four 0 with
    nClusters := 3
    members := [(0, [0, 1, 2, 3]), (1, [10, 11, 12, 13]), (2, [20, 21, 22, 23])]
    clusterMap := [(0, 0), (1, 0), (2, 0), (3, 0)]
    allPeers := [0, 1, 2, 3, 10, 11, 12, 13, 20, 21, 22, 23] }

def run (is : List Call) : Recipients := Runs.run step (start three) is

theorem three_partitioned : three.Partitioned := by
  refine ⟨?_, by decide, by decide⟩
  change List.Pairwise (fun x y : ℕ × List PeerId => ∀ p ∈ x.2, p ∈ y.2 → False) three.members
  decide

def complaint : Complain := ⟨0, 0, b0, ⟨b0, b0⟩⟩

def proposal : Proposal := ⟨0, b0, 0, 0, 0, 0, ∅, 0⟩

/-- Node 4 is reported to have left cluster 1 before the first complaint. -/
theorem recipients_after_report :
    (run [.update {4} 1]).sends (.complain complaint) = [[11, 20, 21]] ∧
      Right (run [.update {4} 1, .complain complaint]) [11, 20, 21] := by
  have hsends : (run [.update {4} 1]).sends (.complain complaint) = [[11, 20, 21]] := by
    decide
  have hok : FilledOnce (start three) (.update {4} 1) := ⟨rfl, fun _ => rfl, by decide⟩
  have hreach : Runs.Reach FilledOnce step (start three) (run [.update {4} 1]) :=
    Runs.reach_run _ .init ⟨hok, trivial⟩
  refine ⟨hsends, ?_⟩
  exact recipients_filled_once three_partitioned hreach (x := .complain complaint) trivial
    [11, 20, 21] (by rw [hsends]; exact List.mem_singleton_self _)

/-- The first broadcast fills the list, and the report appends to it: node 4, which is peer
10, stays on the list and the others are on it twice. -/
theorem recipients_after_two_fills : ¬ ∀ r : Recipients,
    Runs.Reach (fun _ _ => True) step (start three) r →
      ∀ x, ∀ dsts ∈ r.sends x, Right (r.step x) dsts := by
  intro h
  have hreach : Runs.Reach (fun _ _ => True) step (start three)
      (run [.broadcast proposal, .update {4} 1]) :=
    Runs.reach_run _ .init ⟨trivial, trivial, trivial⟩
  have hsends : (run [.broadcast proposal, .update {4} 1]).sends (.broadcast proposal) =
      [[10, 11, 20, 21, 11, 20, 21]] := by
    decide
  have hright := h _ hreach (.broadcast proposal) [10, 11, 20, 21, 11, 20, 21]
    (by rw [hsends]; exact List.mem_singleton_self _)
  exact absurd hright.nodup (by decide)

end Recipients

end AvaHotstuff
