import Mathlib.Data.Finset.Card
import Mathlib.Data.List.Count
import Mathlib.Order.Interval.Finset.Nat
import Mathlib.Tactic.Common
import AvaHotstuff.Entity

set_option autoImplicit false

/-!
# The arguments that `main` computes

`main` reads the cluster of every replica from a file into an unordered map. From the map it
computes the number of clusters, and from the list of replicas the id of the replica among
the members of its own cluster.
-/
namespace AvaHotstuff

/-- `cluster_map` after the file has been read, one entry for each replica. -/
def clusterMap (numbers : List ℤ) : List (ℕ × ℤ) := numbers.zipIdx.map Prod.swap

def climb (n v : ℤ) : ℤ := if v > n then n + 1 else n

/-- `n_clusters`, for the order in which the map is iterated. -/
def countClusters (order : List (ℕ × ℤ)) : ℤ := order.foldl (fun n it => climb n it.2) 0 + 1

/-- Each value is above its place in the list, which is counted from `n`. -/
def Climbs : ℤ → List ℤ → Prop
  | _, [] => True
  | n, v :: vs => n < v ∧ Climbs (n + 1) vs

theorem Climbs.tail {n : ℤ} {vs : List ℤ} (h : Climbs n vs) : Climbs (n + 1) vs.tail := by
  cases vs with
  | nil => trivial
  | cons v vs => exact h.2

theorem climbs_replicate {n m : ℤ} {j : ℕ} (h : n + j ≤ m) : Climbs n (List.replicate j m) := by
  induction j generalizing n with
  | zero => trivial
  | succ j ih =>
    push_cast at h
    constructor
    · omega
    · apply ih
      omega

theorem le_climb (n v : ℤ) : n ≤ climb n v := by
  unfold climb
  split <;> omega

theorem climb_le (n v : ℤ) : climb n v ≤ n + 1 := by
  unfold climb
  split <;> omega

theorem le_foldl_climb (n : ℤ) (vs : List ℤ) : n ≤ vs.foldl climb n := by
  induction vs generalizing n with
  | nil => exact le_refl n
  | cons v vs ih => exact (le_climb n v).trans (ih (climb n v))

theorem foldl_climb_le_length (n : ℤ) (vs : List ℤ) : vs.foldl climb n ≤ n + vs.length := by
  induction vs generalizing n with
  | nil => simp
  | cons v vs ih =>
    have hrest := ih (climb n v)
    have hfirst := climb_le n v
    rw [List.foldl_cons, List.length_cons]
    push_cast
    omega

theorem foldl_climb_le {n m : ℤ} (hn : n ≤ m) (vs : List ℤ) (hvs : ∀ v ∈ vs, v ≤ m) :
    vs.foldl climb n ≤ m := by
  induction vs generalizing n with
  | nil => exact hn
  | cons v vs ih =>
    have hv := hvs v (List.mem_cons_self ..)
    apply ih
    · unfold climb
      split <;> omega
    · exact fun w hw => hvs w (List.mem_cons_of_mem v hw)

/-- The loop climbs at least as far as any list of values that comes in its order. -/
theorem Climbs.le_foldl {n : ℤ} {vs s : List ℤ} (hs : s.Sublist vs) (h : Climbs n s) :
    n + s.length ≤ vs.foldl climb n := by
  induction vs generalizing n s with
  | nil =>
    rw [List.sublist_nil.mp hs]
    simp
  | cons v vs ih =>
    rw [List.foldl_cons]
    cases hs with
    | cons _ hs =>
      by_cases hv : v > n
      · have htail := ih ((List.tail_sublist s).trans hs) h.tail
        have hlow := le_foldl_climb (n + 1) vs
        rw [show climb n v = n + 1 from if_pos hv]
        rw [List.length_tail] at htail
        omega
      · rw [show climb n v = n from if_neg hv]
        exact ih hs h
    | cons_cons _ hs =>
      obtain ⟨hv, hrest⟩ := h
      have hlen := ih hs hrest
      rw [show climb n v = n + 1 from if_pos hv, List.length_cons]
      push_cast
      omega

theorem exists_climbs (n : ℤ) (vs : List ℤ) :
    ∃ s : List ℤ, s.Sublist vs ∧ Climbs n s ∧ n + s.length = vs.foldl climb n := by
  induction vs generalizing n with
  | nil => exact ⟨[], List.Sublist.refl [], trivial, by simp⟩
  | cons v vs ih =>
    rw [List.foldl_cons]
    by_cases hv : v > n
    · rw [show climb n v = n + 1 from if_pos hv]
      obtain ⟨s, hs, hc, hlen⟩ := ih (n + 1)
      refine ⟨v :: s, hs.cons_cons v, ⟨hv, hc⟩, ?_⟩
      rw [List.length_cons]
      push_cast
      omega
    · rw [show climb n v = n from if_neg hv]
      obtain ⟨s, hs, hc, hlen⟩ := ih n
      exact ⟨s, hs.cons v, hc, hlen⟩

theorem countClusters_eq (order : List (ℕ × ℤ)) :
    countClusters order = (order.map Prod.snd).foldl climb 0 + 1 := by
  unfold countClusters
  rw [List.foldl_map]

theorem clusterMap_values (numbers : List ℤ) : (clusterMap numbers).map Prod.snd = numbers := by
  unfold clusterMap
  rw [List.map_map]
  exact List.zipIdx_map_fst 0 numbers

/-- When the members of the last cluster come first and there are too few of them, the loop
stops below the number of that cluster. -/
theorem exists_order_low {es : List (ℕ × ℤ)} {last : ℤ} (hle : ∀ it ∈ es, it.2 ≤ last)
    (hfew : (es.map Prod.snd).count last < last) :
    ∃ order : List (ℕ × ℤ), order.Perm es ∧ countClusters order ≤ last := by
  refine ⟨_, List.filter_append_perm (fun it => decide (it.2 = last)) es, ?_⟩
  rw [countClusters_eq, List.map_append, List.foldl_append]
  have hlast :
      (es.filter fun it => decide (it.2 = last)).length = (es.map Prod.snd).count last := by
    rw [List.count, List.countP_map, List.countP_eq_length_filter]
    rfl
  have hfirst := foldl_climb_le_length 0
    ((es.filter fun it => decide (it.2 = last)).map Prod.snd)
  rw [List.length_map, hlast] at hfirst
  have hrest : ∀ v ∈ (es.filter fun it => !decide (it.2 = last)).map Prod.snd, v ≤ last - 1 := by
    intro v hv
    obtain ⟨it, hit, rfl⟩ := List.mem_map.mp hv
    obtain ⟨hmem, hne⟩ := List.mem_filter.mp hit
    have hit' := hle it hmem
    have hother : it.2 ≠ last := by simpa using hne
    omega
  have hstart : ((es.filter fun it => decide (it.2 = last)).map Prod.snd).foldl climb 0 ≤
      last - 1 := by
    omega
  have hend := foldl_climb_le hstart _ hrest
  omega

/-- For a given order the number is right if and only if the iteration meets, one after the
other, a cluster above 0, one above 1, and so on up to the last. It is right for every order
if and only if the last cluster has as many members as there are clusters before it. -/
theorem number_of_clusters_iff (k : ℕ) (hk : 1 ≤ k) (numbers : List ℤ)
    (hvals : ∀ v, v ∈ numbers ↔ 0 ≤ v ∧ v < k) :
    (∀ order : List (ℕ × ℤ), order.Perm (clusterMap numbers) → (countClusters order = k ↔
      ∃ s : List ℤ, s.Sublist (order.map Prod.snd) ∧ s.length + 1 = k ∧ Climbs 0 s)) ∧
    ((∀ order : List (ℕ × ℤ), order.Perm (clusterMap numbers) → countClusters order = k) ↔
      k ≤ numbers.count (k - 1 : ℤ) + 1) := by
  have hperm : ∀ order : List (ℕ × ℤ), order.Perm (clusterMap numbers) →
      (order.map Prod.snd).Perm numbers := by
    intro order h
    have hmap := h.map Prod.snd
    rwa [clusterMap_values] at hmap
  have hmax : ∀ vs : List ℤ, vs.Perm numbers → vs.foldl climb 0 ≤ k - 1 := by
    intro vs h
    apply foldl_climb_le (by omega)
    intro v hv
    have hv' := (hvals v).mp (h.mem_iff.mp hv)
    omega
  have hone : ∀ order : List (ℕ × ℤ), order.Perm (clusterMap numbers) → (countClusters order = k ↔
      ∃ s : List ℤ, s.Sublist (order.map Prod.snd) ∧ s.length + 1 = k ∧ Climbs 0 s) := by
    intro order h
    have hle := hmax _ (hperm order h)
    rw [countClusters_eq]
    constructor
    · intro heq
      obtain ⟨s, hs, hc, hlen⟩ := exists_climbs 0 (order.map Prod.snd)
      exact ⟨s, hs, by omega, hc⟩
    · rintro ⟨s, hs, hlen, hc⟩
      have hge := hc.le_foldl hs
      omega
  refine ⟨hone, ?_, ?_⟩
  · intro hall
    by_contra hfew
    have hle : ∀ it ∈ clusterMap numbers, it.2 ≤ (k - 1 : ℤ) := by
      intro it hit
      have hin : it.2 ∈ numbers := by
        rw [← clusterMap_values numbers]
        exact List.mem_map_of_mem hit
      have hv := (hvals it.2).mp hin
      omega
    have hcount : (((clusterMap numbers).map Prod.snd).count (k - 1 : ℤ) : ℤ) < k - 1 := by
      rw [clusterMap_values]
      omega
    obtain ⟨order, h, hlow⟩ := exists_order_low hle hcount
    have hright := hall order h
    omega
  · intro hmany order h
    apply (hone order h).mpr
    refine ⟨List.replicate (k - 1) (k - 1 : ℤ), ?_, ?_, ?_⟩
    · apply List.replicate_sublist_iff.mpr
      rw [(hperm order h).count_eq]
      omega
    · rw [List.length_replicate]
      omega
    · apply climbs_replicate
      omega

def twoClusters : List ℤ := [0, 0, 0, 0, 1, 1, 1, 1]

theorem number_of_clusters_two : (∀ v : ℤ, v ∈ twoClusters ↔ 0 ≤ v ∧ v < 2) ∧
    ∀ order : List (ℕ × ℤ), order.Perm (clusterMap twoClusters) → countClusters order = 2 := by
  have hvals : ∀ v : ℤ, v ∈ twoClusters ↔ 0 ≤ v ∧ v < 2 := by
    intro v
    simp only [twoClusters, List.mem_cons, List.not_mem_nil, or_false]
    omega
  refine ⟨hvals, ?_⟩
  apply (number_of_clusters_iff 2 (by decide) twoClusters hvals).2.mpr
  decide

/-- Three clusters of one replica each, iterated from the last to the first. -/
theorem number_of_clusters_low : (∀ v : ℤ, v ∈ ([0, 1, 2] : List ℤ) ↔ 0 ≤ v ∧ v < 3) ∧
    [(2, (2 : ℤ)), (1, 1), (0, 0)].Perm (clusterMap [0, 1, 2]) ∧
    countClusters [(2, 2), (1, 1), (0, 0)] = 2 := by
  refine ⟨?_, ?_, by decide⟩
  · intro v
    simp only [List.mem_cons, List.not_mem_nil, or_false]
    omega
  · decide

/-- `cluster_map[i]`: an index that the file has no number for is given cluster 0. -/
def clusterAt (numbers : List ℤ) (i : ℕ) : ℤ := numbers.getD i 0

structure IdxLoop (α : Type*) where
  replicas : List α
  otherReplicas : List α
  allReplicas : List α
  countRep : ℕ
  countRepCluster : ℕ
  clusterIdx : ℕ
  flagIntraidx : Bool

namespace IdxLoop
variable {α : Type*}

def init : IdxLoop α := ⟨[], [], [], 0, 0, 0, false⟩

def sort (numbers : List ℤ) (idx : ℕ) (st : IdxLoop α) (res : α) : IdxLoop α :=
  if clusterAt numbers idx = clusterAt numbers st.countRep then
    { st with
      flagIntraidx := true
      replicas := st.replicas ++ [res]
      allReplicas := st.allReplicas ++ [res] }
  else
    { st with
      otherReplicas := st.otherReplicas ++ [res]
      allReplicas := st.allReplicas ++ [res] }

def count (idx : ℕ) (st : IdxLoop α) : IdxLoop α :=
  if st.flagIntraidx then
    { st with
      clusterIdx := if idx = st.countRep then st.countRepCluster else st.clusterIdx
      countRepCluster := st.countRepCluster + 1 }
  else st

def step (numbers : List ℤ) (idx : ℕ) (st : IdxLoop α) (res : α) : IdxLoop α :=
  let st := (st.sort numbers idx res).count idx
  { st with countRep := st.countRep + 1 }

def run (numbers : List ℤ) (idx : ℕ) (infos : List α) : IdxLoop α :=
  infos.foldl (step numbers idx) init

end IdxLoop

def membersBefore (numbers : List ℤ) (idx m : ℕ) : Finset ℕ :=
  (Finset.range m).filter fun j => clusterAt numbers j = clusterAt numbers idx

/-- Those before `m` that come after a member of that cluster or are one. -/
def sinceFirst (numbers : List ℤ) (idx m : ℕ) : Finset ℕ :=
  (Finset.range m).filter fun j => ∃ i ≤ j, clusterAt numbers i = clusterAt numbers idx

/-- The position of replica `idx` among the members of its cluster. -/
def position (numbers : List ℤ) (idx : ℕ) : ℕ := (membersBefore numbers idx idx).card

/-- The ids under which `start_mc` adds `n` replicas, each with the place of its entry. A
`ReplicaID` has 16 bits, and an id that is taken keeps its entry. -/
def registered (n : ℕ) : List (ReplicaID × ℕ) :=
  (List.range n).foldl (fun m i =>
    if (m.lookup (i % 2 ^ 16)).isSome then m else m ++ [(i % 2 ^ 16, i)]) []

section
variable {numbers : List ℤ} {idx : ℕ}

theorem membersBefore_succ (m : ℕ) : (membersBefore numbers idx (m + 1)).card =
    (membersBefore numbers idx m).card +
      if clusterAt numbers m = clusterAt numbers idx then 1 else 0 := by
  unfold membersBefore
  rw [Finset.range_add_one, Finset.filter_insert]
  split
  · rw [Finset.card_insert_of_notMem (by simp)]
  · rfl

theorem sinceFirst_succ (m : ℕ) : (sinceFirst numbers idx (m + 1)).card =
    (sinceFirst numbers idx m).card +
      if ∃ i ≤ m, clusterAt numbers i = clusterAt numbers idx then 1 else 0 := by
  unfold sinceFirst
  rw [Finset.range_add_one, Finset.filter_insert]
  split
  · rw [Finset.card_insert_of_notMem (by simp)]
  · rfl

theorem membersBefore_subset (m : ℕ) : membersBefore numbers idx m ⊆ sinceFirst numbers idx m := by
  intro j hj
  obtain ⟨hm, hsame⟩ := Finset.mem_filter.mp hj
  exact Finset.mem_filter.mpr ⟨hm, j, le_refl j, hsame⟩

/-- The two counts agree if and only if the members before `m` follow one another. -/
theorem card_sinceFirst_iff (m : ℕ) :
    (sinceFirst numbers idx m).card = (membersBefore numbers idx m).card ↔
      ∀ j < m, ∀ i ≤ j, clusterAt numbers i = clusterAt numbers idx →
        clusterAt numbers j = clusterAt numbers idx := by
  constructor
  · intro hcard j hj i hij hi
    have heq := Finset.eq_of_subset_of_card_le (membersBefore_subset m) (le_of_eq hcard)
    have hmem : j ∈ sinceFirst numbers idx m :=
      Finset.mem_filter.mpr ⟨Finset.mem_range.mpr hj, i, hij, hi⟩
    rw [← heq] at hmem
    exact (Finset.mem_filter.mp hmem).2
  · intro hrun
    congr 1
    apply Finset.Subset.antisymm _ (membersBefore_subset m)
    intro j hj
    obtain ⟨hm, i, hij, hi⟩ := Finset.mem_filter.mp hj
    exact Finset.mem_filter.mpr ⟨hm, hrun j (Finset.mem_range.mp hm) i hij hi⟩

end

namespace IdxLoop
variable {α : Type*} {numbers : List ℤ} {idx : ℕ}

structure Counts (numbers : List ℤ) (idx : ℕ) (infos : List α) (st : IdxLoop α) : Prop where
  countRep : st.countRep = infos.length
  flag : st.flagIntraidx = true ↔
    ∃ i < infos.length, clusterAt numbers i = clusterAt numbers idx
  countRepCluster : st.countRepCluster = (sinceFirst numbers idx infos.length).card
  clusterIdx : idx < infos.length → st.clusterIdx = (sinceFirst numbers idx idx).card
  length : st.replicas.length = (membersBefore numbers idx infos.length).card
  entry : ∀ j < infos.length, clusterAt numbers j = clusterAt numbers idx →
    st.replicas[(membersBefore numbers idx j).card]? = infos[j]?

theorem Counts.init : Counts numbers idx ([] : List α) init := by
  refine ⟨rfl, ?_, rfl, ?_, rfl, ?_⟩
  · simp [IdxLoop.init]
  · exact fun h => absurd h (Nat.not_lt_zero idx)
  · exact fun j h => absurd h (Nat.not_lt_zero j)

theorem step_replicas (st : IdxLoop α) (res : α) : (st.step numbers idx res).replicas =
    if clusterAt numbers idx = clusterAt numbers st.countRep then st.replicas ++ [res]
    else st.replicas := by
  unfold step sort count
  split <;> simp only [] <;> split <;> rfl

theorem step_flag (st : IdxLoop α) (res : α) : (st.step numbers idx res).flagIntraidx =
    (decide (clusterAt numbers idx = clusterAt numbers st.countRep) || st.flagIntraidx) := by
  unfold step sort count
  by_cases h : clusterAt numbers idx = clusterAt numbers st.countRep
  · simp [h]
  · simp only [h, if_false, decide_false, Bool.false_or]
    split <;> rfl

/-- The second half of the body, in terms of the flag that the first half leaves. -/
theorem step_counts (st : IdxLoop α) (res : α) :
    (st.step numbers idx res).countRep = st.countRep + 1 ∧
    (st.step numbers idx res).countRepCluster = (st.countRepCluster +
      if (st.step numbers idx res).flagIntraidx then 1 else 0) ∧
    (st.step numbers idx res).clusterIdx =
      if (st.step numbers idx res).flagIntraidx = true ∧ idx = st.countRep then st.countRepCluster
      else st.clusterIdx := by
  have hsort : (st.sort numbers idx res).countRep = st.countRep ∧
      (st.sort numbers idx res).countRepCluster = st.countRepCluster ∧
      (st.sort numbers idx res).clusterIdx = st.clusterIdx := by
    unfold sort
    split <;> exact ⟨rfl, rfl, rfl⟩
  obtain ⟨hrep, hcluster, hidx⟩ := hsort
  unfold step
  generalize st.sort numbers idx res = u at hrep hcluster hidx ⊢
  unfold count
  by_cases hf : u.flagIntraidx = true
  · simp [hf, hrep, hcluster, hidx]
  · simp [hf, hrep, hcluster, hidx]

theorem Counts.step {infos : List α} {st : IdxLoop α} (h : Counts numbers idx infos st)
    (res : α) : Counts numbers idx (infos ++ [res]) (st.step numbers idx res) := by
  obtain ⟨hrep, hcluster, hidx⟩ := @step_counts α numbers idx st res
  have hreplicas := @step_replicas α numbers idx st res
  have hflag := @step_flag α numbers idx st res
  have hlen : (infos ++ [res]).length = infos.length + 1 := List.length_append
  rw [h.countRep] at hrep hidx hreplicas hflag
  have hflag' : (st.step numbers idx res).flagIntraidx = true ↔
      ∃ i ≤ infos.length, clusterAt numbers i = clusterAt numbers idx := by
    rw [hflag, Bool.or_eq_true, decide_eq_true_iff, h.flag]
    constructor
    · rintro (hsame | ⟨i, hi, hsame⟩)
      · exact ⟨infos.length, le_refl _, hsame.symm⟩
      · exact ⟨i, hi.le, hsame⟩
    · rintro ⟨i, hi, hsame⟩
      rcases Nat.lt_or_eq_of_le hi with hlt | rfl
      · exact .inr ⟨i, hlt, hsame⟩
      · exact .inl hsame.symm
  refine ⟨?_, ?_, ?_, ?_, ?_, ?_⟩
  · rw [hrep, hlen]
  · rw [hflag', hlen]
    simp only [Nat.lt_succ_iff]
  · rw [hcluster, hlen, sinceFirst_succ, h.countRepCluster]
    simp only [hflag']
  · intro hlt
    rw [hidx]
    rw [hlen] at hlt
    rcases Nat.lt_or_eq_of_le (Nat.lt_succ_iff.mp hlt) with hold | rfl
    · rw [if_neg (fun hnew => absurd hnew.2 (Nat.ne_of_lt hold))]
      exact h.clusterIdx hold
    · rw [if_pos ⟨hflag'.mpr ⟨infos.length, le_refl _, rfl⟩, rfl⟩]
      exact h.countRepCluster
  · rw [hreplicas, hlen, membersBefore_succ]
    by_cases hsame : clusterAt numbers idx = clusterAt numbers infos.length
    · rw [if_pos hsame, if_pos hsame.symm, List.length_append, h.length]
      rfl
    · rw [if_neg hsame, if_neg (fun h' => hsame h'.symm), h.length]
      rfl
  · intro j hj hsame
    rw [hlen] at hj
    rcases Nat.lt_or_eq_of_le (Nat.lt_succ_iff.mp hj) with hold | rfl
    · have hentry := h.entry j hold hsame
      rw [List.getElem?_append_left hold, hreplicas]
      rw [List.getElem?_eq_getElem hold] at hentry ⊢
      split
      · rw [List.getElem?_append_left (List.getElem?_eq_some_iff.mp hentry).1]
        exact hentry
      · exact hentry
    · rw [hreplicas, if_pos hsame.symm, ← h.length]
      simp

theorem run_counts (infos : List α) : Counts numbers idx infos (run numbers idx infos) := by
  unfold run
  induction infos using List.reverseRecOn with
  | nil => exact .init
  | append_singleton infos res ih =>
    rw [List.foldl_append]
    exact ih.step res

/-- The members of a cluster compute the same vector. -/
theorem run_replicas_congr {idx' : ℕ} (h : clusterAt numbers idx' = clusterAt numbers idx)
    (infos : List α) : (run numbers idx' infos).replicas = (run numbers idx infos).replicas := by
  unfold run
  induction infos using List.reverseRecOn with
  | nil => rfl
  | append_singleton infos res ih =>
    have hrep := (@run_counts α numbers idx infos).countRep
    have hrep' := (@run_counts α numbers idx' infos).countRep
    unfold run at hrep hrep'
    rw [List.foldl_append, List.foldl_append, List.foldl_cons, List.foldl_cons, List.foldl_nil,
      List.foldl_nil, step_replicas, step_replicas, ih, hrep, hrep', h]

end IdxLoop

theorem lookup_registered (n rid : ℕ) (hrid : rid < 2 ^ 16) :
    (registered n).lookup rid = if rid < n then some rid else none := by
  induction n generalizing rid with
  | zero => rfl
  | succ n ih =>
    have hstep : registered (n + 1) = if ((registered n).lookup (n % 2 ^ 16)).isSome then
        registered n else registered n ++ [(n % 2 ^ 16, n)] := by
      unfold registered
      rw [List.range_succ, List.foldl_append]
      rfl
    have hlast := ih (n % 2 ^ 16) (Nat.mod_lt _ (by decide))
    by_cases hn : n < 2 ^ 16
    · rw [Nat.mod_eq_of_lt hn] at hlast hstep
      rw [if_neg (lt_irrefl n)] at hlast
      rw [hstep, hlast, if_neg (by simp), List.lookup_append, ih rid hrid]
      by_cases heq : rid = n
      · subst rid
        simp
      · have hother : List.lookup rid [(n, n)] = none := by
          rw [List.lookup_cons, beq_eq_false_iff_ne.mpr heq]
          rfl
        rw [hother, Option.or_none]
        congr 1
        apply propext
        omega
    · rw [if_pos (by omega)] at hlast
      rw [hstep, hlast, Option.isSome_some, if_pos rfl, ih rid hrid, if_pos (by omega),
        if_pos (by omega)]

/-- The id of a replica is its place in the vector, and that is where the other members have
registered its entry, if and only if no replica of another cluster stands between the members
of its own cluster up to it, and the place fits a `ReplicaID`. -/
theorem cluster_idx_iff {α : Type*} (numbers : List ℤ) (infos : List α) (idx : ℕ)
    (hidx : idx < infos.length) :
    ((IdxLoop.run numbers idx infos).clusterIdx = position numbers idx ∧
      ∀ m < infos.length, clusterAt numbers m = clusterAt numbers idx →
        (IdxLoop.run numbers m infos).replicas[position numbers idx]? = infos[idx]? ∧
        (registered (IdxLoop.run numbers m infos).replicas.length).lookup
          ((IdxLoop.run numbers idx infos).clusterIdx % 2 ^ 16) = some (position numbers idx)) ↔
    (∀ j < idx, ∀ i ≤ j, clusterAt numbers i = clusterAt numbers idx →
      clusterAt numbers j = clusterAt numbers idx) ∧ position numbers idx < 2 ^ 16 := by
  have h := @IdxLoop.run_counts α numbers idx infos
  have hentry : (IdxLoop.run numbers idx infos).replicas[position numbers idx]? = infos[idx]? :=
    h.entry idx hidx rfl
  have hlt : position numbers idx < (IdxLoop.run numbers idx infos).replicas.length := by
    rw [List.getElem?_eq_getElem hidx] at hentry
    exact (List.getElem?_eq_some_iff.mp hentry).1
  have hplace : (IdxLoop.run numbers idx infos).clusterIdx = position numbers idx ↔
      ∀ j < idx, ∀ i ≤ j, clusterAt numbers i = clusterAt numbers idx →
        clusterAt numbers j = clusterAt numbers idx := by
    rw [h.clusterIdx hidx]
    exact card_sinceFirst_iff idx
  constructor
  · rintro ⟨heq, hall⟩
    refine ⟨hplace.mp heq, ?_⟩
    have hown := (hall idx hidx rfl).2
    rw [lookup_registered _ _ (Nat.mod_lt _ (by decide))] at hown
    split at hown
    · rw [← Option.some.inj hown]
      exact Nat.mod_lt _ (by decide)
    · cases hown
  · rintro ⟨hrun, hfits⟩
    have heq := hplace.mpr hrun
    refine ⟨heq, ?_⟩
    intro m hm hsame
    rw [IdxLoop.run_replicas_congr hsame]
    refine ⟨hentry, ?_⟩
    rw [heq, Nat.mod_eq_of_lt hfits, lookup_registered _ _ hfits, if_pos hlt]

/-- Replica 6 of two clusters of four is the third of its own. -/
theorem cluster_idx_third : (IdxLoop.run twoClusters 6 (List.range 8)).clusterIdx = 2 ∧
    (registered (IdxLoop.run twoClusters 4 (List.range 8)).replicas.length).lookup 2 = some 2 := by
  have hpos : position twoClusters 6 = 2 := by decide
  have h := (cluster_idx_iff twoClusters (List.range 8) 6 (by decide)).mpr ⟨by decide, by decide⟩
  rw [hpos] at h
  refine ⟨h.1, ?_⟩
  have hmember := (h.2 4 (by decide) (by decide)).2
  rwa [h.1] at hmember

/-- Two clusters of two whose replicas alternate: the second replica of cluster 0 takes itself
for the third, which no member of the cluster has registered. -/
theorem cluster_idx_shifted : (IdxLoop.run [0, 1, 0, 1] 2 (List.range 4)).clusterIdx = 2 ∧
    position [0, 1, 0, 1] 2 = 1 ∧
    (IdxLoop.run [0, 1, 0, 1] 2 (List.range 4)).replicas = [0, 2] ∧
    (registered (IdxLoop.run [0, 1, 0, 1] 0 (List.range 4)).replicas.length).lookup 2 = none := by
  decide

end AvaHotstuff
