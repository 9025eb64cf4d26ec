import Mathlib.Data.List.Range
import Mathlib.Data.List.Nodup
import Mathlib.Tactic.Common

set_option autoImplicit false

namespace AvaHotstuff.PromiseAll

variable {β : Type*}

/-- What the callbacks share: the count, the values so far, and what the promise of `all` was
resolved with. -/
structure All (β : Type*) where
  size : ℕ
  results : List (Option β)
  resolved : Option (List (Option β))

namespace All

/-- There is no promise of all of no promises: `all` throws. -/
def start (n : ℕ) : Option (All β) :=
  if n = 0 then none else some ⟨n, List.replicate n none, none⟩

def fulfil (st : All β) (idx : ℕ) (value : β) : All β :=
  let results := st.results.set idx (some value)
  let size := st.size - 1
  ⟨size, results, if size = 0 then some results else st.resolved⟩

def partly (n : ℕ) (value : ℕ → β) (done : List ℕ) : List (Option β) :=
  (List.range n).map fun i => if i ∈ done then some (value i) else none

theorem partly_set {n : ℕ} (value : ℕ → β) (done : List ℕ) (i : ℕ) :
    (partly n value done).set i (some (value i)) = partly n value (done ++ [i]) := by
  apply List.ext_getElem
  · simp [partly]
  · intro j hj hj'
    rw [List.getElem_set]
    simp only [partly, List.getElem_map, List.getElem_range, List.mem_append, List.mem_singleton]
    by_cases hij : i = j
    · simp [hij]
    · simp [hij, Ne.symm hij]

structure After (n : ℕ) (value : ℕ → β) (done : List ℕ) (st : All β) : Prop where
  size : st.size + done.length = n
  results : st.results = partly n value done
  resolved : st.resolved = if done.length = n then some (partly n value done) else none

theorem After.fulfil {n : ℕ} {value : ℕ → β} {done : List ℕ} {st : All β}
    (h : After n value done st) (hlt : done.length < n) (i : ℕ) :
    After n value (done ++ [i]) (st.fulfil i (value i)) := by
  have hsize := h.size
  have hlen : (done ++ [i]).length = done.length + 1 := List.length_append
  have hresults : st.results.set i (some (value i)) = partly n value (done ++ [i]) := by
    rw [h.results]
    exact partly_set value done i
  refine ⟨?_, hresults, ?_⟩
  · change st.size - 1 + (done ++ [i]).length = n
    omega
  · change (if st.size - 1 = 0 then some (st.results.set i (some (value i))) else st.resolved) = _
    rw [hresults, h.resolved, hlen]
    by_cases hlast : st.size - 1 = 0
    · rw [if_pos hlast, if_pos (by omega)]
    · rw [if_neg hlast, if_neg (by omega), if_neg (by omega)]

theorem foldl_after {n : ℕ} (value : ℕ → β) (order done : List ℕ) {st : All β}
    (h : After n value done st) (hlen : done.length + order.length ≤ n) :
    After n value (done ++ order) (order.foldl (fun st i => st.fulfil i (value i)) st) := by
  induction order generalizing done st with
  | nil =>
    rw [List.append_nil]
    exact h
  | cons i order ih =>
    rw [List.length_cons] at hlen
    have hnext := ih (done ++ [i]) (h.fulfil (by omega) i) (by simp; omega)
    rwa [List.append_assoc] at hnext

/-- In whatever order the promises are fulfilled, `all` is resolved at the last of them and
with the values in their places. -/
theorem resolved_of_perm {n : ℕ} (value : ℕ → β) {order : List ℕ}
    (horder : order.Perm (List.range n)) {st : All β} (hst : start n = some st) :
    (order.foldl (fun st i => st.fulfil i (value i)) st).resolved =
      some ((List.range n).map fun i => some (value i)) := by
  unfold start at hst
  split at hst
  · cases hst
  rename_i hpos
  have hlen : order.length = n := by
    rw [horder.length_eq, List.length_range]
  have hnil : ([] : List ℕ).length ≠ n := fun h => hpos h.symm
  have hinit : After n value [] st := by
    rw [← Option.some.inj hst]
    refine ⟨rfl, ?_, (if_neg hnil).symm⟩
    change List.replicate n none = partly n value []
    unfold partly
    simp
  have hafter := foldl_after value order [] hinit (by simp [hlen])
  rw [hafter.resolved, List.nil_append, if_pos hlen]
  congr 1
  apply List.map_congr_left
  intro i hi
  rw [if_pos (horder.mem_iff.mpr hi)]

end All

end AvaHotstuff.PromiseAll
