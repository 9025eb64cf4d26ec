import AvaHotstuff.Members
import AvaHotstuff.RoundRobin

set_option autoImplicit false

namespace AvaHotstuff

inductive Rotor where
  | dummyFixed (core : Replica)
  | roundRobin (st : Server)

/-- The replicas of the cluster whose peer is not in `leave_set`. -/
def Replica.members (s : Replica) : List ReplicaID :=
  (s.config.replicaMap.filter fun e => decide (e.2 ∉ s.recs.leaveSet)).map Prod.fst

namespace Rotor

inductive Input where
  | recs (msg : MsgRecsAggEchoReady)
  | rotate

def core : Rotor → Replica
  | .dummyFixed s => s
  | .roundRobin st => st.core

def rotate : Rotor → Rotor
  | .dummyFixed s => .dummyFixed s.rotate
  | .roundRobin st => .roundRobin st.rotate

def recs (C : Crypto) (msg : MsgRecsAggEchoReady) : Rotor → Rotor
  | .dummyFixed s => .dummyFixed (s.step C (.msgRecsAggEchoReady msg))
  | .roundRobin st => .roundRobin { st with core := st.core.step C (.msgRecsAggEchoReady msg) }

def step (C : Crypto) (r : Rotor) : Input → Rotor
  | .recs msg => r.recs C msg
  | .rotate => r.rotate

def proposer (r : Rotor) : ReplicaID := r.core.pmaker.proposer

/-- Each rotation leads to a current member, and as many rotations as there are current
members lead to all of them. -/
def RotatesWithin (r : Rotor) : Prop :=
  (∀ k, 0 < k → (rotate^[k] r).proposer ∈ r.core.members) ∧
    ∀ m ∈ r.core.members, ∃ k, 0 < k ∧ k ≤ r.core.members.length ∧ (rotate^[k] r).proposer = m

end Rotor

/-- The replicas of the cluster as `start_mc` enrols them: the ids are the positions, and the
peers are all but the replica itself. -/
structure Setup.Enrolled (ps : List PeerId) (c : Setup) : Prop where
  replicaMap : c.config.replicaMap = ps.zipIdx.map Prod.swap
  own : c.id < ps.length
  peers : c.peers = ps.eraseIdx c.id
  nreplicas : c.config.nreplicas = ps.length

theorem exists_add_mod_eq {n m : ℕ} (p : ℕ) (hm : m < n) :
    ∃ k, 0 < k ∧ k ≤ n ∧ (p + k) % n = m := by
  have hq : p % n < n := Nat.mod_lt p (by omega)
  have hmod : ∀ k, (p + k) % n = (p % n + k) % n := fun k => (Nat.mod_add_mod p n k).symm
  by_cases hlt : p % n < m
  · refine ⟨m - p % n, by omega, by omega, ?_⟩
    rw [hmod, show p % n + (m - p % n) = m by omega, Nat.mod_eq_of_lt hm]
  · refine ⟨m + n - p % n, by omega, by omega, ?_⟩
    rw [hmod, show p % n + (m + n - p % n) = m + n by omega, Nat.add_mod_right,
      Nat.mod_eq_of_lt hm]

theorem mem_iff_lt_card {S : Finset ℕ} (h : ∀ i j, i < j → j ∈ S → i ∈ S) (i : ℕ) :
    i ∈ S ↔ i < S.card := by
  constructor
  · intro hi
    have hsub : Finset.range (i + 1) ⊆ S := by
      intro j hj
      have hle : j < i + 1 := Finset.mem_range.mp hj
      rcases Nat.lt_succ_iff_lt_or_eq.mp hle with hlt | rfl
      · exact h j i hlt hi
      · exact hi
    have hcard := Finset.card_le_card hsub
    rw [Finset.card_range] at hcard
    omega
  · intro hi
    by_contra hout
    have hsub : S ⊆ Finset.range i := by
      intro j hj
      rw [Finset.mem_range]
      by_contra hge
      rcases Nat.lt_or_eq_of_le (Nat.le_of_not_lt hge) with hlt | rfl
      · exact hout (h i j hlt hj)
      · exact hout hj
    have hcard := Finset.card_le_card hsub
    rw [Finset.card_range] at hcard
    omega

structure Roster.Counted (ps : List PeerId) (r : Roster) : Prop where
  replicaMap : r.config.replicaMap = ps.zipIdx.map Prod.swap
  own : r.id < ps.length
  peers : r.peers = ps.eraseIdx r.id
  nreplicas : r.config.nreplicas = (r.peers.filter fun p => decide (p ∉ r.leaveSet)).length + 1

theorem Roster.Counted.leave {ps : List PeerId} {r : Roster} (k : r.Counted ps)
    (l : Finset PeerId) (is : Finset ℤ) : (r.leave l is).Counted ps :=
  ⟨k.replicaMap, k.own, k.peers, rfl⟩

theorem Setup.Enrolled.counted {ps : List PeerId} {c : Setup} (e : c.Enrolled ps) :
    c.start.roster.Counted ps := by
  refine ⟨e.replicaMap, e.own, e.peers, ?_⟩
  change c.config.nreplicas = (c.peers.filter fun p => decide (p ∉ (∅ : Finset PeerId))).length + 1
  have hall : (c.peers.filter fun p => decide (p ∉ (∅ : Finset PeerId))) = c.peers :=
    List.filter_eq_self.mpr fun p _ => by simp
  have hown := e.own
  rw [hall, e.nreplicas, e.peers, List.length_eraseIdx_of_lt hown]
  exact (Nat.sub_add_cancel (Nat.one_le_of_lt hown)).symm

namespace Replica
variable {s : Replica} {ps : List PeerId}

theorem mem_members (k : s.roster.Counted ps) {i : ReplicaID} :
    i ∈ s.members ↔ ∃ p, ps[i]? = some p ∧ p ∉ s.recs.leaveSet := by
  have hmap : s.config.replicaMap = ps.zipIdx.map Prod.swap := k.replicaMap
  unfold members
  rw [hmap]
  simp only [List.mem_map, List.mem_filter, decide_eq_true_eq]
  constructor
  · rintro ⟨e, ⟨⟨x, hx, rfl⟩, hout⟩, rfl⟩
    exact ⟨x.1, List.mem_zipIdx_iff_getElem?.mp hx, hout⟩
  · rintro ⟨p, hp, hout⟩
    exact ⟨(i, p), ⟨⟨(p, i), List.mem_zipIdx_iff_getElem?.mpr hp, rfl⟩, hout⟩, rfl⟩

theorem members_nodup (k : s.roster.Counted ps) : s.members.Nodup := by
  have hmap : s.config.replicaMap = ps.zipIdx.map Prod.swap := k.replicaMap
  have hkeys : (s.config.replicaMap.map Prod.fst).Nodup := by
    rw [hmap, List.map_map]
    change (ps.zipIdx.map Prod.snd).Nodup
    rw [List.zipIdx_map_snd]
    exact List.nodup_range'
  exact hkeys.sublist (List.filter_sublist.map _)

theorem members_length (k : s.roster.Counted ps) :
    s.members.length = (ps.filter fun p => decide (p ∉ s.recs.leaveSet)).length := by
  have hmap : s.config.replicaMap = ps.zipIdx.map Prod.swap := k.replicaMap
  unfold members
  rw [hmap, List.length_map, ← List.countP_eq_length_filter, List.countP_map,
    ← List.countP_eq_length_filter]
  conv_rhs => rw [← List.zipIdx_map_fst 0 ps, List.countP_map]
  rfl

/-- `nreplicas` counts the current members, and the replica itself even when it has left. -/
theorem nreplicas_eq (k : s.roster.Counted ps) :
    s.config.nreplicas = s.members.length + if s.id ∈ s.members then 0 else 1 := by
  have hn : s.config.nreplicas =
      ((s.recs.peers.filter fun p => decide (p ∉ s.recs.leaveSet)).length + 1) := k.nreplicas
  have hpeers : s.recs.peers = ps.eraseIdx s.id := k.peers
  have hown : s.id < ps.length := k.own
  have hperm := (List.getElem_cons_eraseIdx_perm hown).filter fun p => decide (p ∉ s.recs.leaveSet)
  have hlen := hperm.length_eq
  have hmem : s.id ∈ s.members ↔ ps[s.id] ∉ s.recs.leaveSet := by
    rw [mem_members k, List.getElem?_eq_getElem hown]
    simp
  rw [hn, hpeers, members_length k, ← hlen, List.filter_cons]
  by_cases hleft : ps[s.id] ∉ s.recs.leaveSet
  · rw [if_pos (hmem.mpr hleft), if_pos (decide_eq_true hleft)]
    rfl
  · rw [if_neg (fun h => hleft (hmem.mp h)), if_neg (by simpa using hleft)]

end Replica

namespace Rotor
variable {C : Crypto} {r : Rotor} {ps : List PeerId}

theorem step_counted (k : r.core.roster.Counted ps) (i : Input) :
    (r.step C i).core.roster.Counted ps := by
  cases i with
  | rotate =>
    cases r with
    | dummyFixed s => exact k
    | roundRobin st => exact k
  | recs msg =>
    have hcore : (r.recs C msg).core = r.core.step C (.msgRecsAggEchoReady msg) := by
      cases r with
      | dummyFixed s => rfl
      | roundRobin st => rfl
    change (r.recs C msg).core.roster.Counted ps
    rw [hcore]
    unfold Replica.step
    rcases r.core.exec_roster C (.msgRecsAggEchoReady msg) with hsame | ⟨l, is, hleave⟩
    · rw [hsame]
      exact k
    · rw [hleave]
      exact k.leave l is

theorem rotate_proposer (r : Rotor) :
    r.rotate.proposer = (r.proposer + 1) % r.core.config.nreplicas := by
  cases r with
  | dummyFixed s => rfl
  | roundRobin st => rfl

theorem rotate_config (r : Rotor) : r.rotate.core.config = r.core.config := by
  cases r with
  | dummyFixed s => rfl
  | roundRobin st => rfl

theorem iterate_config (r : Rotor) (k : ℕ) : (rotate^[k] r).core.config = r.core.config := by
  induction k with
  | zero => rfl
  | succ k ih => rw [Function.iterate_succ_apply', rotate_config, ih]

theorem iterate_proposer (r : Rotor) (k : ℕ) :
    (rotate^[k + 1] r).proposer = (r.proposer + (k + 1)) % r.core.config.nreplicas := by
  induction k with
  | zero => exact r.rotate_proposer
  | succ k ih =>
    rw [Function.iterate_succ_apply', rotate_proposer, iterate_config, ih, Nat.mod_add_mod]
    rfl

theorem iterate_proposer_of_pos (r : Rotor) {k : ℕ} (hk : 0 < k) :
    (rotate^[k] r).proposer = (r.proposer + k) % r.core.config.nreplicas := by
  obtain ⟨j, rfl⟩ := Nat.exists_eq_add_of_lt hk
  rw [Nat.zero_add]
  exact r.iterate_proposer j

/-- The rotation stays within the membership when the ids of the current members are the
numbers below `nreplicas`, and only then. -/
theorem rotatesWithin_iff_lt (hn : 0 < r.core.config.nreplicas)
    (hlen : (∀ m, m ∈ r.core.members ↔ m < r.core.config.nreplicas) →
      r.core.members.length = r.core.config.nreplicas) :
    r.RotatesWithin ↔ ∀ m, m ∈ r.core.members ↔ m < r.core.config.nreplicas := by
  constructor
  · rintro ⟨hin, hall⟩ m
    constructor
    · intro hm
      obtain ⟨k, hk, -, hp⟩ := hall m hm
      rw [← hp, r.iterate_proposer_of_pos hk]
      exact Nat.mod_lt _ hn
    · intro hm
      obtain ⟨k, hk, -, hp⟩ := exists_add_mod_eq r.proposer hm
      rw [← hp, ← r.iterate_proposer_of_pos hk]
      exact hin k hk
  · intro h
    constructor
    · intro k hk
      rw [h, r.iterate_proposer_of_pos hk]
      exact Nat.mod_lt _ hn
    · intro m hm
      obtain ⟨k, hk, hle, hp⟩ := exists_add_mod_eq r.proposer ((h m).mp hm)
      refine ⟨k, hk, ?_, ?_⟩
      · rw [hlen h]
        exact hle
      · rw [r.iterate_proposer_of_pos hk]
        exact hp

/-- In every state after reconfigurations and rotations: the rotation stays within the
membership exactly when the replica itself has not left, and nobody with an id below that of a
current member has. -/
theorem rotates_within_iff (C : Crypto) (ps : List PeerId) (c : Setup) (hc : c.Enrolled ps)
    (init : Rotor) (hinit : init.core.roster = c.start.roster) {r : Rotor}
    (h : Runs.Reach (fun _ _ => True) (step C) init r) :
    r.RotatesWithin ↔ r.core.id ∈ r.core.members ∧
      ∀ i j, i < j → j ∈ r.core.members → i ∈ r.core.members := by
  have k : r.core.roster.Counted ps := by
    refine h.invariant (fun r => r.core.roster.Counted ps) ?_ fun _ i k _ => step_counted k i
    rw [hinit]
    exact hc.counted
  have hcount := Replica.nreplicas_eq k
  have hnodup := Replica.members_nodup k
  have hcard : r.core.members.toFinset.card = r.core.members.length :=
    List.toFinset_card_of_nodup hnodup
  have hpos : 0 < r.core.config.nreplicas := by
    have hn : r.core.config.nreplicas = _ + 1 := k.nreplicas
    omega
  have hlen : (∀ m, m ∈ r.core.members ↔ m < r.core.config.nreplicas) →
      r.core.members.length = r.core.config.nreplicas := by
    intro hall
    have hset : r.core.members.toFinset = Finset.range r.core.config.nreplicas := by
      ext m
      rw [List.mem_toFinset, Finset.mem_range]
      exact hall m
    rw [← hcard, hset, Finset.card_range]
  rw [rotatesWithin_iff_lt hpos hlen]
  constructor
  · intro hall
    refine ⟨?_, ?_⟩
    · by_contra hleft
      rw [if_neg hleft, hlen hall] at hcount
      omega
    · intro i j hij hj
      rw [hall] at hj ⊢
      exact hij.trans hj
  · rintro ⟨hown, hgap⟩ m
    rw [if_pos hown, Nat.add_zero] at hcount
    rw [hcount, ← hcard, ← List.mem_toFinset]
    refine mem_iff_lt_card ?_ m
    intro i j hij hj
    rw [List.mem_toFinset] at hj ⊢
    exact hgap i j hij hj

def lastLeaves : List Input := List.replicate 3 (.recs ⟨⟨0, 3, 1⟩, myReady, 1⟩)

def quartet : Rotor := .dummyFixed Setup.quartet.start

theorem quartet_enrolled : Setup.quartet.Enrolled [0, 1, 2, 3] :=
  ⟨rfl, by decide, rfl, rfl⟩

theorem rotates_within_last :
    (Runs.run (step .sample) quartet lastLeaves).core.members = [0, 1, 2] ∧
      (Runs.run (step .sample) quartet lastLeaves).RotatesWithin := by
  have hmembers : (Runs.run (step .sample) quartet lastLeaves).core.members = [0, 1, 2] := by
    decide +kernel
  refine ⟨hmembers, ?_⟩
  refine (rotates_within_iff .sample [0, 1, 2, 3] .quartet quartet_enrolled quartet rfl
    (Runs.reach_run _ .init (Runs.admitted_of_mem _ fun _ _ _ => trivial))).mpr ?_
  rw [hmembers]
  refine ⟨by decide +kernel, ?_⟩
  have hlow : ∀ j ∈ ([0, 1, 2] : List ℕ), ∀ i < j, i ∈ ([0, 1, 2] : List ℕ) := by decide
  exact fun i j hij hj => hlow j hj i hij

/-- Replica 1 leaves, and the rotation from replica 0 leads to it. -/
def secondLeaves : List Input := List.replicate 3 (.recs ⟨⟨0, 1, 1⟩, myReady, 1⟩)

theorem rotates_outside :
    ¬∀ (init : Rotor), init.core.roster = Setup.quartet.start.roster →
      init.proposer ∈ init.core.members →
      ∀ r, Runs.Reach (fun _ _ => True) (step .sample) init r → r.RotatesWithin := by
  intro h
  have hreach : Runs.Reach (fun _ _ => True) (step .sample) quartet
      (Runs.run (step .sample) quartet secondLeaves) :=
    Runs.reach_run _ .init (Runs.admitted_of_mem _ fun _ _ _ => trivial)
  have hwithin := h quartet rfl (by decide +kernel) _ hreach
  have hone := hwithin.1 1 Nat.one_pos
  exact absurd hone (by decide +kernel)

end Rotor

end AvaHotstuff
