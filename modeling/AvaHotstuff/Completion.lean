import AvaHotstuff.Frame

set_option autoImplicit false

/-!
# Completion of heights by the other clusters

`McView` is what `receive_mc_local` reads and writes. `Tracked` ties it to the set of
clusters heard for each height: the tracker array of an unfinished height marks
exactly these and the own cluster, and a height is finished once all are marked.
-/
namespace AvaHotstuff

theorem getD_set_self (a : List ℤ) {i : ℕ} (hi : i < a.length) (v : ℤ) :
    (a.set i v).getD i 0 = v := by
  rw [List.getD_eq_getElem?_getD, List.getElem?_set_self hi, Option.getD_some]

theorem getD_set_ne (a : List ℤ) {i j : ℕ} (hij : i ≠ j) (v : ℤ) :
    (a.set i v).getD j 0 = a.getD j 0 := by
  rw [List.getD_eq_getElem?_getD, List.getElem?_set_ne hij, ← List.getD_eq_getElem?_getD]

theorem testFlag_iff (n : ℕ) (a : List ℤ) : testFlag n a = true ↔ ∀ c < n, a.getD c 0 ≠ 0 := by
  simp [testFlag]

/-- What the tracker of a new height should be: `n_clusters` entries, all zero except the
own cluster's. -/
def freshTracker (nClusters clusterId : ℕ) : List ℤ := (List.replicate nClusters 0).set clusterId 1

theorem freshTracker_getD {n own : ℕ} (hown : own < n) (c : ℕ) :
    (freshTracker n own).getD c 0 = if c = own then 1 else 0 := by
  have hlen : own < (List.replicate n (0 : ℤ)).length := by
    rw [List.length_replicate]
    exact hown
  by_cases hc : c = own
  · subst c
    rw [freshTracker, getD_set_self _ hlen, if_pos rfl]
  · rw [freshTracker, getD_set_ne _ (Ne.symm hc), if_neg hc, List.getD_eq_getElem?_getD,
      List.getElem?_replicate]
    split <;> rfl

structure McView where
  clusterId : ℕ
  nClusters : ℕ
  finished : Finset ℕ
  trackers : ℕ → Option (List ℤ)

/-- The clusters heard for each height. -/
abbrev Heard := ℕ → Finset ℕ

def Heard.hear (heard : Heard) (prop : Proposal) : Heard :=
  Function.update heard prop.otherClusterBlockHeight
    (insert prop.preAmpClusterNumber (heard prop.otherClusterBlockHeight))

def Heard.Complete (heard : Heard) (n own k : ℕ) : Prop := ∀ c < n, c ≠ own → c ∈ heard k

theorem Heard.hear_self (heard : Heard) (prop : Proposal) :
    heard.hear prop prop.otherClusterBlockHeight =
      insert prop.preAmpClusterNumber (heard prop.otherClusterBlockHeight) :=
  Function.update_self ..

theorem Heard.hear_of_ne (heard : Heard) {prop : Proposal} {k : ℕ}
    (hk : k ≠ prop.otherClusterBlockHeight) : heard.hear prop k = heard k :=
  Function.update_of_ne hk ..

theorem Heard.mem_hear (heard : Heard) (prop : Proposal) (k c : ℕ) :
    c ∈ heard.hear prop k ↔
      c ∈ heard k ∨ k = prop.otherClusterBlockHeight ∧ c = prop.preAmpClusterNumber := by
  by_cases hk : k = prop.otherClusterBlockHeight
  · subst k
    rw [hear_self, Finset.mem_insert]
    tauto
  · rw [hear_of_ne _ hk]
    tauto

/-- The array marks the clusters of `marked` and the own one. -/
structure Marks (n own : ℕ) (marked : Finset ℕ) (a : List ℤ) : Prop where
  length : a.length = n
  nonneg : ∀ c < n, 0 ≤ a.getD c 0
  marks : ∀ c < n, a.getD c 0 ≠ 0 ↔ c = own ∨ c ∈ marked

theorem Marks.fresh {n own : ℕ} (hown : own < n) : Marks n own ∅ (freshTracker n own) := by
  refine ⟨?_, ?_, ?_⟩
  · rw [freshTracker, List.length_set, List.length_replicate]
  · intro c _
    rw [freshTracker_getD hown]
    split <;> omega
  · intro c _
    rw [freshTracker_getD hown]
    simp

theorem Marks.count {n own c : ℕ} {marked : Finset ℕ} {a : List ℤ} (m : Marks n own marked a)
    (hc : c < n) : ∃ a', countCluster a c = some a' ∧ Marks n own (insert c marked) a' := by
  have hlt : c < a.length := by
    rw [m.length]
    exact hc
  refine ⟨a.set c (a.getD c 0 + 1), if_pos hlt, ?_, ?_, ?_⟩
  · rw [List.length_set, m.length]
  · intro d hd
    by_cases hdc : d = c
    · subst d
      have := m.nonneg c hc
      rw [getD_set_self a hlt]
      omega
    · rw [getD_set_ne a (Ne.symm hdc)]
      exact m.nonneg d hd
  · intro d hd
    by_cases hdc : d = c
    · subst d
      have := m.nonneg c hc
      rw [getD_set_self a hlt]
      constructor
      · intro _
        exact .inr (Finset.mem_insert_self ..)
      · intro _
        omega
    · rw [getD_set_ne a (Ne.symm hdc), m.marks d hd, Finset.mem_insert]
      tauto

theorem Marks.flag {n own k : ℕ} {heard : Heard} {a : List ℤ} (m : Marks n own (heard k) a) :
    testFlag n a = true ↔ heard.Complete n own k := by
  rw [testFlag_iff]
  constructor
  · intro h c hc hne
    exact ((m.marks c hc).mp (h c hc)).resolve_left hne
  · intro h c hc
    rw [m.marks c hc]
    by_cases hne : c = own
    · exact .inl hne
    · exact .inr (h c hc hne)

structure Tracked (v : McView) (heard : Heard) : Prop where
  two : 2 ≤ v.nClusters
  own : v.clusterId < v.nClusters
  finished : ∀ k, k ∈ v.finished ↔ heard.Complete v.nClusters v.clusterId k
  unheard : ∀ k, v.trackers k = none ↔ heard k = ∅
  marks : ∀ k a, k ∉ v.finished → v.trackers k = some a →
    Marks v.nClusters v.clusterId (heard k) a

namespace Replica
variable (s : Replica) (prop : Proposal) (x : ℤ)

def mcView : McView where
  clusterId := s.clusterId
  nClusters := s.mc.nClusters
  finished := s.mc.finishedMcCids
  trackers := s.mc.cidToClusterTrackerArray

theorem mcView_congr {s u : Replica} (h : u.frame = s.frame) : u.mcView = s.mcView := by
  have hown : u.clusterId = s.clusterId := congrArg Frame.clusterId h
  have hn : u.mc.nClusters = s.mc.nClusters := congrArg (fun f => f.mc.nClusters) h
  have hfin : u.mc.finishedMcCids = s.mc.finishedMcCids :=
    congrArg (fun f => f.mc.finishedMcCids) h
  have htr : u.mc.cidToClusterTrackerArray = s.mc.cidToClusterTrackerArray :=
    congrArg (fun f => f.mc.cidToClusterTrackerArray) h
  unfold mcView
  rw [hown, hn, hfin, htr]

theorem syncReconfigCount_mcView : (s.syncReconfigCount prop).mcView = s.mcView := by
  unfold syncReconfigCount
  split <;> rfl

theorem finishMc_mcView (cid : ℕ) :
    (s.finishMc cid).mcView = { s.mcView with finished := insert cid s.mcView.finished } :=
  mcView_congr (decideAfterMc_frame _ cid)

theorem storeTracker_mcView (cid : ℕ) (a : List ℤ) :
    (s.storeTracker cid a).mcView =
      { s.mcView with trackers := Function.update s.mcView.trackers cid (some a) } := rfl

end Replica

theorem Heard.Complete.nonempty {heard : Heard} {n own k : ℕ} (h : heard.Complete n own k)
    (hn : 2 ≤ n) : heard k ≠ ∅ := by
  obtain ⟨c, hc, hne⟩ : ∃ c < n, c ≠ own := by
    by_cases h0 : own = 0
    · exact ⟨1, by omega, by omega⟩
    · exact ⟨0, by omega, by omega⟩
  exact Finset.ne_empty_of_mem (h c hc hne)

namespace Tracked
variable {v : McView} {heard : Heard} {prop : Proposal}

theorem start (v : McView) (hn : 2 ≤ v.nClusters) (hown : v.clusterId < v.nClusters)
    (hfin : v.finished = ∅) (htr : ∀ k, v.trackers k = none) : Tracked v fun _ => ∅ := by
  refine ⟨hn, hown, ?_, ?_, ?_⟩
  · intro k
    rw [hfin]
    constructor
    · intro h
      exact absurd h (Finset.notMem_empty k)
    · intro h
      exact absurd rfl (h.nonempty hn)
  · intro k
    exact iff_of_true (htr k) rfl
  · intro k a _ ha
    rw [htr k] at ha
    cases ha

theorem again (t : Tracked v heard) (hfin : prop.otherClusterBlockHeight ∈ v.finished) :
    Tracked v (heard.hear prop) := by
  have hcomp := (t.finished _).mp hfin
  refine ⟨t.two, t.own, ?_, ?_, ?_⟩
  · intro k
    by_cases hk : k = prop.otherClusterBlockHeight
    · subst k
      refine iff_of_true hfin ?_
      intro c hc hne
      rw [Heard.hear_self]
      exact Finset.mem_insert_of_mem (hcomp c hc hne)
    · rw [t.finished k, Heard.Complete, Heard.Complete, Heard.hear_of_ne _ hk]
  · intro k
    by_cases hk : k = prop.otherClusterBlockHeight
    · subst k
      refine iff_of_false ?_ ?_
      · rw [t.unheard]
        exact hcomp.nonempty t.two
      · rw [Heard.hear_self]
        exact Finset.insert_ne_empty _ _
    · rw [t.unheard k, Heard.hear_of_ne _ hk]
  · intro k a hk ha
    rw [Heard.hear_of_ne _ (ne_of_mem_of_not_mem hfin hk).symm]
    exact t.marks k a hk ha

theorem record (t : Tracked v heard) {a : List ℤ} {w : McView}
    (hown : w.clusterId = v.clusterId) (hn : w.nClusters = v.nClusters)
    (htr : w.trackers = Function.update v.trackers prop.otherClusterBlockHeight (some a))
    (hother : ∀ k, k ≠ prop.otherClusterBlockHeight → (k ∈ w.finished ↔ k ∈ v.finished))
    (hself : prop.otherClusterBlockHeight ∈ w.finished ↔ (heard.hear prop).Complete v.nClusters
      v.clusterId prop.otherClusterBlockHeight)
    (hmarks : prop.otherClusterBlockHeight ∉ w.finished → Marks v.nClusters v.clusterId
      (heard.hear prop prop.otherClusterBlockHeight) a) :
    Tracked w (heard.hear prop) := by
  refine ⟨hn ▸ t.two, hn ▸ hown ▸ t.own, ?_, ?_, ?_⟩
  · intro k
    rw [hn, hown]
    by_cases hk : k = prop.otherClusterBlockHeight
    · subst k
      exact hself
    · rw [hother k hk, t.finished k, Heard.Complete, Heard.Complete, Heard.hear_of_ne _ hk]
  · intro k
    rw [htr]
    by_cases hk : k = prop.otherClusterBlockHeight
    · subst k
      rw [Function.update_self, Heard.hear_self]
      exact iff_of_false (Option.some_ne_none a) (Finset.insert_ne_empty _ _)
    · rw [Function.update_of_ne hk, t.unheard k, Heard.hear_of_ne _ hk]
  · intro k b hkw hb
    rw [hn, hown]
    rw [htr] at hb
    by_cases hk : k = prop.otherClusterBlockHeight
    · subst k
      rw [Function.update_self] at hb
      obtain rfl := Option.some.inj hb
      exact hmarks hkw
    · rw [Function.update_of_ne hk] at hb
      rw [Heard.hear_of_ne _ hk]
      exact t.marks k b (fun h => hkw ((hother k hk).mpr h)) hb

end Tracked

section
variable {s : Replica} {heard : Heard} {prop : Proposal} {x : ℤ}

theorem Replica.trackerArray_new (hnew : s.mc.cidToClusterTrackerArray
    prop.otherClusterBlockHeight = none) (hown : s.clusterId < s.mc.nClusters) :
    s.trackerArray prop.otherClusterBlockHeight 0 =
      some (freshTracker s.mc.nClusters s.clusterId) := by
  have hlen : ((s.mc.nClusters : ℤ) - 0).toNat = s.mc.nClusters := by omega
  unfold trackerArray
  rw [hnew]
  simp only [hlen, List.length_replicate]
  exact if_pos hown

theorem Tracked.mcArray (t : Tracked s.mcView heard)
    (hfin : prop.otherClusterBlockHeight ∉ s.mc.finishedMcCids)
    (hc : prop.preAmpClusterNumber < s.mc.nClusters)
    (hx : heard prop.otherClusterBlockHeight = ∅ → x = 0) :
    ∃ a, s.mcArray prop x = some a ∧ Marks s.mc.nClusters s.clusterId
      (heard.hear prop prop.otherClusterBlockHeight) a := by
  have hbase : ∃ a, s.trackerArray prop.otherClusterBlockHeight x = some a ∧
      Marks s.mc.nClusters s.clusterId (heard prop.otherClusterBlockHeight) a := by
    cases htr : s.mc.cidToClusterTrackerArray prop.otherClusterBlockHeight with
    | none =>
      have hempty := (t.unheard _).mp htr
      obtain rfl := hx hempty
      rw [hempty]
      exact ⟨_, Replica.trackerArray_new htr t.own, Marks.fresh t.own⟩
    | some a =>
      refine ⟨a, ?_, t.marks _ a hfin htr⟩
      unfold Replica.trackerArray
      rw [htr]
  obtain ⟨a, ha, hm⟩ := hbase
  obtain ⟨a', ha', hm'⟩ := hm.count hc
  refine ⟨a', ?_, ?_⟩
  · unfold Replica.mcArray
    rw [ha]
    exact ha'
  · rw [Heard.hear_self]
    exact hm'

theorem Tracked.countMc (t : Tracked s.mcView heard)
    (hfin : prop.otherClusterBlockHeight ∉ s.mc.finishedMcCids)
    (hc : prop.preAmpClusterNumber < s.mc.nClusters)
    (hx : heard prop.otherClusterBlockHeight = ∅ → x = 0) :
    (s.countMc prop x).2 = none ∧ Tracked (s.countMc prop x).1.mcView (heard.hear prop) := by
  obtain ⟨a, ha, hm⟩ := t.mcArray hfin hc hx
  have hlen : ¬a.length < s.mc.nClusters := by
    have := hm.length
    omega
  unfold Replica.countMc
  rw [ha]
  simp only []
  rw [if_neg hlen]
  by_cases hflag : testFlag s.mc.nClusters a = true
  · rw [if_pos hflag]
    refine ⟨rfl, ?_⟩
    rw [Replica.storeTracker_mcView, Replica.finishMc_mcView]
    refine t.record rfl rfl rfl ?_ ?_ ?_
    · intro k hk
      exact Finset.mem_insert.trans (or_iff_right hk)
    · exact iff_of_true (Finset.mem_insert_self ..) (hm.flag.mp hflag)
    · intro h
      exact absurd (Finset.mem_insert_self ..) h
  · rw [if_neg hflag]
    refine ⟨rfl, ?_⟩
    rw [Replica.storeTracker_mcView]
    refine t.record rfl rfl rfl (fun k _ => Iff.rfl) ?_ fun _ => hm
    exact iff_of_false hfin fun h => hflag (hm.flag.mpr h)

theorem Tracked.receiveMcLocal (t : Tracked s.mcView heard)
    (hc : prop.preAmpClusterNumber < s.mc.nClusters)
    (hx : heard prop.otherClusterBlockHeight = ∅ → x = 0) :
    (s.receiveMcLocal prop x).2 = none ∧
      Tracked (s.receiveMcLocal prop x).1.mcView (heard.hear prop) := by
  have hsync := s.syncReconfigCount_mcView prop
  have hn : (s.syncReconfigCount prop).mc.nClusters = s.mc.nClusters :=
    congrArg McView.nClusters hsync
  rw [← hn] at hc
  rw [← hsync] at t
  unfold Replica.receiveMcLocal
  simp only []
  generalize s.syncReconfigCount prop = u at t hc ⊢
  by_cases hfin : prop.otherClusterBlockHeight ∈ u.mc.finishedMcCids
  · rw [if_pos (by simp [Replica.didReceiveMc, hfin])]
    exact ⟨rfl, t.again hfin⟩
  · rw [if_neg (by simp [Replica.didReceiveMc, hfin])]
    exact t.countMc hfin hc hx

end

/-- A call of `receive_mc_local`, with what the uninitialised loop variable holds in it. -/
structure McCall where
  prop : Proposal
  x : ℤ

/-- Calls of `receive_mc_local` one after the other, up to the first that is undefined. -/
def Replica.receiveMcCalls (s : Replica) (calls : List McCall) : Outcome :=
  calls.foldl (fun r c => r.andThen fun s => s.receiveMcLocal c.prop c.x) (s, none)

def McCall.First (pre : List McCall) (c : McCall) : Prop :=
  ∀ p ∈ pre, p.prop.otherClusterBlockHeight ≠ c.prop.otherClusterBlockHeight

/-- A height is finished exactly when every other cluster has been heard for it, after each
of the calls, and every array made for a new height is as it should be. -/
structure CompletionCorrect (s : Replica) (calls : List McCall) : Prop where
  finished : ∀ pre, pre <+: calls → (s.receiveMcCalls pre).2 = none ∧
    ∀ k, k ∈ (s.receiveMcCalls pre).1.mc.finishedMcCids ↔
      ∀ c < s.mc.nClusters, c ≠ s.clusterId → ∃ p ∈ pre,
        p.prop.otherClusterBlockHeight = k ∧ p.prop.preAmpClusterNumber = c
  created : ∀ pre c u, pre ++ [c] <+: calls → u = (s.receiveMcCalls pre).1 →
    c.prop.otherClusterBlockHeight ∉ u.mc.finishedMcCids →
    u.mc.cidToClusterTrackerArray c.prop.otherClusterBlockHeight = none →
    u.trackerArray c.prop.otherClusterBlockHeight c.x =
      some (freshTracker s.mc.nClusters s.clusterId)

def heardIn (calls : List McCall) : Heard := calls.foldl (fun h c => h.hear c.prop) fun _ => ∅

theorem mem_heardIn (calls : List McCall) (k c : ℕ) : c ∈ heardIn calls k ↔ ∃ p ∈ calls,
    p.prop.otherClusterBlockHeight = k ∧ p.prop.preAmpClusterNumber = c := by
  induction calls using List.reverseRecOn with
  | nil => simp [heardIn]
  | append_singleton calls p ih =>
    have hsnoc : heardIn (calls ++ [p]) = (heardIn calls).hear p.prop := by
      rw [heardIn, List.foldl_append]
      rfl
    rw [hsnoc, Heard.mem_hear, ih]
    constructor
    · intro h
      cases h with
      | inl h =>
        obtain ⟨q, hq, hk⟩ := h
        exact ⟨q, List.mem_append_left _ hq, hk⟩
      | inr h => exact ⟨p, List.mem_append_right _ (List.mem_singleton_self p), h.1.symm, h.2.symm⟩
    · intro h
      obtain ⟨q, hq, hk, hc⟩ := h
      rw [List.mem_append, List.mem_singleton] at hq
      cases hq with
      | inl hq => exact .inl ⟨q, hq, hk, hc⟩
      | inr hq =>
        subst q
        exact .inr ⟨hk.symm, hc.symm⟩

theorem heardIn_empty_iff (calls : List McCall) (k : ℕ) :
    heardIn calls k = ∅ ↔ ∀ p ∈ calls, p.prop.otherClusterBlockHeight ≠ k := by
  rw [Finset.eq_empty_iff_forall_notMem]
  constructor
  · intro h p hp hk
    exact h _ ((mem_heardIn calls k _).mpr ⟨p, hp, hk, rfl⟩)
  · intro h c hc
    obtain ⟨p, hp, hk, _⟩ := (mem_heardIn calls k c).mp hc
    exact h p hp hk

theorem complete_heardIn (calls : List McCall) (n own k : ℕ) :
    (heardIn calls).Complete n own k ↔ ∀ c < n, c ≠ own → ∃ p ∈ calls,
      p.prop.otherClusterBlockHeight = k ∧ p.prop.preAmpClusterNumber = c := by
  unfold Heard.Complete
  simp only [mem_heardIn]

namespace Replica

theorem receiveMcLocal_mcView (s : Replica) (prop : Proposal) (x : ℤ) :
    (s.receiveMcLocal prop x).1.mcView.clusterId = s.clusterId ∧
      (s.receiveMcLocal prop x).1.mcView.nClusters = s.mc.nClusters ∧
      ∀ k, k ≠ prop.otherClusterBlockHeight →
        (s.receiveMcLocal prop x).1.mcView.trackers k = s.mcView.trackers k := by
  have hsync := s.syncReconfigCount_mcView prop
  have hself : ∀ u : Replica, u.mcView = s.mcView → u.mcView.clusterId = s.clusterId ∧
      u.mcView.nClusters = s.mc.nClusters ∧ ∀ k, k ≠ prop.otherClusterBlockHeight →
        u.mcView.trackers k = s.mcView.trackers k := by
    intro u hu
    rw [hu]
    exact ⟨rfl, rfl, fun _ _ => rfl⟩
  unfold receiveMcLocal
  simp only []
  generalize s.syncReconfigCount prop = u at hsync ⊢
  split
  · exact hself u hsync
  unfold countMc
  split
  · exact hself u hsync
  split
  · exact hself u hsync
  split
  · rw [storeTracker_mcView, finishMc_mcView, hsync]
    exact ⟨rfl, rfl, fun k hk => Function.update_of_ne hk ..⟩
  · rw [storeTracker_mcView, hsync]
    exact ⟨rfl, rfl, fun k hk => Function.update_of_ne hk ..⟩

theorem receiveMcCalls_snoc (s : Replica) (calls : List McCall) (c : McCall) :
    s.receiveMcCalls (calls ++ [c]) =
      (s.receiveMcCalls calls).andThen fun u => u.receiveMcLocal c.prop c.x := by
  rw [receiveMcCalls, List.foldl_append]
  rfl

theorem receiveMcCalls_mcView (s : Replica) (calls : List McCall) :
    (s.receiveMcCalls calls).1.mcView.clusterId = s.clusterId ∧
      (s.receiveMcCalls calls).1.mcView.nClusters = s.mc.nClusters ∧
      ∀ k, (∀ p ∈ calls, p.prop.otherClusterBlockHeight ≠ k) →
        (s.receiveMcCalls calls).1.mcView.trackers k = s.mcView.trackers k := by
  induction calls using List.reverseRecOn with
  | nil => exact ⟨rfl, rfl, fun _ _ => rfl⟩
  | append_singleton calls c ih =>
    obtain ⟨hown, hn, htr⟩ := ih
    have hmem : c ∈ calls ++ [c] := List.mem_append_right _ (List.mem_singleton_self c)
    have hleft : ∀ k, (∀ p ∈ calls ++ [c], p.prop.otherClusterBlockHeight ≠ k) →
        ∀ p ∈ calls, p.prop.otherClusterBlockHeight ≠ k :=
      fun k hk p hp => hk p (List.mem_append_left _ hp)
    rw [receiveMcCalls_snoc]
    generalize s.receiveMcCalls calls = r at hown hn htr ⊢
    obtain ⟨u, none | e⟩ := r
    · obtain ⟨hown', hn', htr'⟩ := u.receiveMcLocal_mcView c.prop c.x
      refine ⟨hown'.trans hown, hn'.trans hn, ?_⟩
      intro k hk
      exact (htr' k (hk c hmem).symm).trans (htr k (hleft k hk))
    · exact ⟨hown, hn, fun k hk => htr k (hleft k hk)⟩

end Replica

/-- The run lemma: with a zero loop variable at each first call for a height, the arrays
track what has been heard. -/
theorem Tracked.receiveMcCalls {s : Replica} (t : Tracked s.mcView fun _ => ∅)
    (calls : List McCall) (hc : ∀ c ∈ calls, c.prop.preAmpClusterNumber < s.mc.nClusters)
    (hx : ∀ pre c, pre ++ [c] <+: calls → c.First pre → c.x = 0) :
    (s.receiveMcCalls calls).2 = none ∧
      Tracked (s.receiveMcCalls calls).1.mcView (heardIn calls) := by
  induction calls using List.reverseRecOn with
  | nil => exact ⟨rfl, t⟩
  | append_singleton calls c ih =>
    have hmem : c ∈ calls ++ [c] := List.mem_append_right _ (List.mem_singleton_self c)
    obtain ⟨hret, ht⟩ := ih (fun p hp => hc p (List.mem_append_left _ hp)) fun pre p hp =>
      hx pre p (hp.trans (List.prefix_append ..))
    have hn := (s.receiveMcCalls_mcView calls).2.1
    have hsnoc : heardIn (calls ++ [c]) = (heardIn calls).hear c.prop := by
      rw [heardIn, List.foldl_append]
      rfl
    rw [Replica.receiveMcCalls_snoc, Outcome.andThen_of_none hret, hsnoc]
    refine ht.receiveMcLocal ?_ ?_
    · exact (hc c hmem).trans_eq hn.symm
    · intro hempty
      exact hx calls c (List.prefix_refl _) ((heardIn_empty_iff calls _).mp hempty)

section
variable (s : Replica) (calls : List McCall)

/-- A height is in `finished_mc_cids` exactly when every other cluster has been heard for
it, and the arrays are made right, if and only if the loop variable is zero whenever the
first message of a height is counted. -/
theorem completion_correct_iff (hn : 2 ≤ s.mc.nClusters) (hown : s.clusterId < s.mc.nClusters)
    (hfin : s.mc.finishedMcCids = ∅) (htr : ∀ k, s.mc.cidToClusterTrackerArray k = none)
    (hc : ∀ c ∈ calls, c.prop.preAmpClusterNumber < s.mc.nClusters) :
    CompletionCorrect s calls ↔ ∀ pre c, pre ++ [c] <+: calls → c.First pre → c.x = 0 := by
  constructor
  · intro hok pre c hpre hfirst
    have hnot : c.prop.otherClusterBlockHeight ∉
        (s.receiveMcCalls pre).1.mc.finishedMcCids := by
      intro hmem
      have hcomp := ((hok.finished pre ((List.prefix_append ..).trans hpre)).2 _).mp hmem
      rw [← complete_heardIn] at hcomp
      exact hcomp.nonempty hn ((heardIn_empty_iff pre _).mpr hfirst)
    have hnew := ((s.receiveMcCalls_mcView pre).2.2 _ hfirst).trans (htr _)
    have harr := hok.created pre c _ hpre rfl hnot hnew
    have hsize : (s.receiveMcCalls pre).1.mc.nClusters = s.mc.nClusters :=
      (s.receiveMcCalls_mcView pre).2.1
    unfold Replica.trackerArray at harr
    rw [show (s.receiveMcCalls pre).1.mc.cidToClusterTrackerArray
      c.prop.otherClusterBlockHeight = none from hnew] at harr
    simp only [hsize] at harr
    split at harr
    · have hlen := congrArg List.length (Option.some.inj harr)
      rw [freshTracker, List.length_set, List.length_set, List.length_replicate,
        List.length_replicate] at hlen
      omega
    · cases harr
  · intro hx
    have t := Tracked.start s.mcView hn hown hfin htr
    refine ⟨?_, ?_⟩
    · intro pre hpre
      obtain ⟨hret, ht⟩ := t.receiveMcCalls pre (fun c h => hc c (hpre.subset h))
        fun p c h => hx p c (h.trans hpre)
      obtain ⟨hown', hn', _⟩ := s.receiveMcCalls_mcView pre
      refine ⟨hret, ?_⟩
      intro k
      have hk := ht.finished k
      rw [hown', hn', complete_heardIn] at hk
      exact hk
    · intro pre c u hpre hu hnot hnew
      have hpre' : pre <+: calls := (List.prefix_append ..).trans hpre
      obtain ⟨_, ht⟩ := t.receiveMcCalls pre (fun c h => hc c (hpre'.subset h))
        fun p c h => hx p c (h.trans hpre')
      obtain ⟨hown', hn', _⟩ := s.receiveMcCalls_mcView pre
      have hzero : c.x = 0 :=
        hx pre c hpre ((heardIn_empty_iff pre _).mp ((ht.unheard _).mp (hu ▸ hnew)))
      have hlt : u.clusterId < u.mc.nClusters := hu ▸ ht.own
      rw [hzero, Replica.trackerArray_new hnew hlt]
      have hcid : u.clusterId = s.clusterId := hu ▸ hown'
      have hcn : u.mc.nClusters = s.mc.nClusters := hu ▸ hn'
      rw [hcid, hcn]

end

def McCall.sample (cluster height : ℕ) (x : ℤ) : McCall := ⟨⟨0, 0, 0, cluster, height, 2, ∅, 0⟩, x⟩

def Setup.threeClusters : Setup := { Setup.four 0 with nClusters := 3 }

theorem completion_correct_interleaved :
    CompletionCorrect Setup.threeClusters.start
      [.sample 1 7 0, .sample 2 8 0, .sample 1 7 0, .sample 2 7 0] := by
  refine (completion_correct_iff Setup.threeClusters.start _ (by decide) (by decide) rfl
    (fun _ => rfl) (by decide)).mpr ?_
  intro pre c hpre _
  have hmem : c ∈ [McCall.sample 1 7 0, .sample 2 8 0, .sample 1 7 0, .sample 2 7 0] :=
    hpre.subset (List.mem_append_right _ (List.mem_singleton_self c))
  simp only [List.mem_cons, List.not_mem_nil, or_false] at hmem
  rcases hmem with rfl | rfl | rfl | rfl <;> rfl

/-- With 1 in the loop variable the array is one entry short. -/
theorem completion_short_array :
    2 ≤ Setup.threeClusters.start.mc.nClusters ∧
      (∀ c ∈ [McCall.sample 2 7 1], c.prop.preAmpClusterNumber <
        Setup.threeClusters.start.mc.nClusters) ∧
      ¬CompletionCorrect Setup.threeClusters.start [.sample 2 7 1] := by
  refine ⟨by decide, by decide, ?_⟩
  intro h
  have hret := (h.finished _ (List.prefix_refl _)).1
  exact absurd hret (by decide +kernel)

end AvaHotstuff
