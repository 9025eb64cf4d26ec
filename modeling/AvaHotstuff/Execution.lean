import AvaHotstuff.CommitLog

set_option autoImplicit false

namespace AvaHotstuff
open Ancestry

def Event.execution? : Event → Option (ℕ × Hash)
  | .execute k h => some (k, h)
  | _ => none

def Event.decideCall? : Event → Option (Finality × ℤ × ℤ)
  | .decide fin key val => some (fin, key, val)
  | _ => none

/-- The runs of the `do_decide` loop: the height and the block it was run for. -/
def executions (es : List Event) : List (ℕ × Hash) := es.filterMap Event.execution?

def decideCalls (es : List Event) : List (Finality × ℤ × ℤ) := es.filterMap Event.decideCall?

theorem executions_append (es fs : List Event) :
    executions (es ++ fs) = executions es ++ executions fs := List.filterMap_append

theorem decideCalls_append (es fs : List Event) :
    decideCalls (es ++ fs) = decideCalls es ++ decideCalls fs := List.filterMap_append

theorem executions_filter (es : List Event) :
    executions (es.filter Event.onLedger) = executions es := by
  induction es with
  | nil => rfl
  | cons e es ih =>
    unfold executions at ih ⊢
    cases e <;> simp [List.filter_cons, List.filterMap_cons, Event.onLedger, Event.execution?, ih]

theorem decideCalls_filter (es : List Event) :
    decideCalls (es.filter Event.onLedger) = decideCalls es := by
  induction es with
  | nil => rfl
  | cons e es ih =>
    unfold decideCalls at ih ⊢
    cases e <;> simp [List.filter_cons, List.filterMap_cons, Event.onLedger, Event.decideCall?, ih]

def BlockNode.batch (n : BlockNode) (h : Hash) (rid : ReplicaID) : List (Finality × ℤ × ℤ) :=
  (List.range n.body.cmds.length).map fun i =>
    (⟨rid, 1, i, n.height, n.body.cmds.getD i 0, h⟩, n.body.keys.getD i 0, n.body.vals.getD i 0)

theorem executions_decides (n : BlockNode) (h : Hash) (rid : ReplicaID) :
    executions (n.decides h rid) = [(n.height, h)] := by
  unfold executions BlockNode.decides
  rw [List.filterMap_cons]
  simp only [Event.execution?]
  rw [List.filterMap_eq_nil_iff.mpr]
  intro e he
  obtain ⟨i, _, rfl⟩ := List.mem_map.mp he
  rfl

theorem decideCalls_decides (n : BlockNode) (h : Hash) (rid : ReplicaID) :
    decideCalls (n.decides h rid) = n.batch h rid := by
  unfold decideCalls BlockNode.decides BlockNode.batch
  rw [List.filterMap_cons]
  simp only [Event.decideCall?]
  rw [List.filterMap_map]
  exact congrFun List.filterMap_eq_map _

namespace Ledger
variable {G : Guard}

def batch (L : Ledger) (h : Hash) : List (Finality × ℤ × ℤ) :=
  ((L.tree h).map (·.batch h L.rid)).getD []

theorem batch_of {L : Ledger} {h : Hash} {n : BlockNode} (hn : L.tree h = some n) :
    L.batch h = n.batch h L.rid := by
  unfold batch
  rw [hn]
  rfl

theorem runBlk_of {L : Ledger} {h : Hash} {n : BlockNode} (hn : L.tree h = some n) :
    L.runBlk h = n.decides h L.rid := by
  unfold runBlk
  rw [hn]
  rfl

theorem batch_grows {L M : Ledger} (g : Tree.Grows L.tree M.tree) (hrid : M.rid = L.rid)
    {h : Hash} (hd : L.tree.delivered h = true) : M.batch h = L.batch h := by
  obtain ⟨n, hn, hnd⟩ := Tree.exists_of_delivered hd
  obtain ⟨n', hn', hb, hk⟩ := g.keep h n hn
  rw [batch_of hn, batch_of hn', hrid]
  unfold BlockNode.batch
  rw [hb, (hk hnd).2.2.1]

def executedHeights (L : Ledger) : List ℕ := (executions L.log).map Prod.fst

structure Booked (L : Ledger) : Prop extends Chained L where
  updated : ∀ k, k ∈ L.finishedUpdateCids ↔ 1 ≤ k ∧ k ≤ L.tree.height L.bExec
  first : ∀ k h, L.cidBlkhash k = some h → L.tree.delivered h = true ∧ L.tree.height h = k
  first_some : ∀ h, L.tree.delivered h = true → h ≠ b0 →
    (L.cidBlkhash (L.tree.height h)).isSome = true
  once : ∀ k, L.executedHeights.count k =
    if k ∈ L.finishedUpdateCids ∧ k ∈ L.finishedMcCids then 1 else 0
  ran : ∀ e ∈ executions L.log, L.tree.delivered e.2 = true ∧ L.tree.height e.2 = e.1
  calls : decideCalls L.log = (executions L.log).flatMap fun e => L.batch e.2
  timers : ∀ k, (L.timer k).isSome = true ↔ k ∈ L.finishedUpdateCids ∧ k ∉ L.finishedMcCids

theorem Chained.exists_committed {L : Ledger} (c : Chained L) {k : ℕ} (h1 : 1 ≤ k)
    (hk : k ≤ L.tree.height L.bExec) : ∃ b ∈ consensusBlks L.log, L.tree.height b = k := by
  obtain ⟨hm, hl⟩ := c.heights
  have hmem : k ∈ (consensusBlks L.log).map L.tree.height := by
    rw [hm, List.mem_range'_1]
    omega
  exact List.mem_map.mp hmem

/-- The index of delivered heights knows every committed height. -/
theorem Booked.first_of_updated {L : Ledger} (b : Booked L) {k : ℕ}
    (hk : k ∈ L.finishedUpdateCids) : ∃ h, L.cidBlkhash k = some h := by
  obtain ⟨h1, hle⟩ := (b.updated k).mp hk
  obtain ⟨x, hx, hh⟩ := b.toChained.exists_committed h1 hle
  have hd := b.toChained.committed_delivered hx
  have hx0 : x ≠ b0 := by
    rintro rfl
    rw [b.wf.height_genesis] at hh
    omega
  have hs := b.first_some x hd hx0
  rw [hh] at hs
  exact Option.isSome_iff_exists.mp hs

theorem Booked.keep {L M : Ledger} (b : Booked L) (hs : Step G L M) (hrid : M.rid = L.rid)
    (hexec : M.bExec = L.bExec) (hupd : M.finishedUpdateCids = L.finishedUpdateCids)
    (hmc : M.finishedMcCids = L.finishedMcCids) (hruns : executions M.log = executions L.log)
    (hcalls : decideCalls M.log = decideCalls L.log)
    (htimer : ∀ k, (M.timer k).isSome = (L.timer k).isSome)
    (hfirst : ∀ k h, M.cidBlkhash k = some h → M.tree.delivered h = true ∧ M.tree.height h = k)
    (hsome : ∀ h, M.tree.delivered h = true → h ≠ b0 →
      (M.cidBlkhash (M.tree.height h)).isSome = true) : Booked M := by
  have g := hs.grows
  refine ⟨hs.chained b.toChained, ?_, hfirst, hsome, ?_, ?_, ?_, ?_⟩
  · intro k
    rw [hupd, hexec, g.height b.exec]
    exact b.updated k
  · intro k
    unfold executedHeights
    rw [hupd, hmc, hruns]
    exact b.once k
  · intro e he
    rw [hruns] at he
    obtain ⟨hd, hh⟩ := b.ran e he
    exact ⟨g.delivered hd, (g.height hd).trans hh⟩
  · rw [hcalls, hruns, b.calls, List.flatMap_congr]
    intro e he
    exact (batch_grows g hrid (b.ran e he).1).symm
  · intro k
    rw [htimer, hupd, hmc]
    exact b.timers k

theorem Booked.first_keep {L M : Ledger} (b : Booked L) (g : Tree.Grows L.tree M.tree)
    (hcid : M.cidBlkhash = L.cidBlkhash)
    (hdel : ∀ h, M.tree.delivered h = true → L.tree.delivered h = true) :
    (∀ k h, M.cidBlkhash k = some h → M.tree.delivered h = true ∧ M.tree.height h = k) ∧
      ∀ h, M.tree.delivered h = true → h ≠ b0 →
        (M.cidBlkhash (M.tree.height h)).isSome = true := by
  refine ⟨?_, ?_⟩
  · intro k h hk
    rw [hcid] at hk
    obtain ⟨hd, hh⟩ := b.first k h hk
    exact ⟨g.delivered hd, (g.height hd).trans hh⟩
  · intro h hd h0
    rw [hcid, g.height (hdel h hd)]
    exact b.first_some h (hdel h hd) h0

theorem Booked.deliver {L : Ledger} {h p : Hash} {m : BlockNode} (b : Booked L)
    (stored : L.tree h = some m) (hd : m.delivered = false)
    (head : m.body.parentHashes.head? = some p)
    (parents : ∀ p ∈ m.body.parentHashes, L.tree.delivered p = true)
    (qc : (L.tree m.body.qc.objHash).isSome = true) :
    Booked (L.deliver h (deliveredNode m (L.tree.height p))) := by
  have hs := Step.deliver (G := Guard.any) stored hd head parents qc trivial
  have g := hs.grows
  generalize hn : deliveredNode m (L.tree.height p) = n at hs g ⊢
  have hnd : n.delivered = true := by
    rw [← hn]
    rfl
  have hself : (L.deliver h n).tree h = some n := Function.update_self ..
  refine b.keep hs rfl rfl rfl rfl rfl rfl (fun _ => rfl) ?_ ?_
  · intro k x hk
    unfold Ledger.deliver at hk
    simp only [] at hk
    split at hk
    · obtain ⟨hx, hh⟩ := b.first k x hk
      exact ⟨g.delivered hx, (g.height hx).trans hh⟩
    · by_cases hkn : k = n.height
      · subst k
        rw [Function.update_self] at hk
        obtain rfl : h = x := Option.some.inj hk
        exact ⟨(Tree.delivered_of hself).trans hnd, Tree.height_of hself⟩
      · rw [Function.update_of_ne hkn] at hk
        obtain ⟨hx, hh⟩ := b.first k x hk
        exact ⟨g.delivered hx, (g.height hx).trans hh⟩
  · intro x hx hx0
    have hmono : ∀ k, (L.cidBlkhash k).isSome = true →
        ((L.deliver h n).cidBlkhash k).isSome = true := by
      intro k hk
      unfold Ledger.deliver
      simp only []
      split
      · exact hk
      · by_cases hkn : k = n.height
        · rw [hkn, Function.update_self]
          rfl
        · rw [Function.update_of_ne hkn]
          exact hk
    by_cases hxh : x = h
    · subst x
      rw [Tree.height_of hself]
      unfold Ledger.deliver
      simp only []
      split
      · assumption
      · rw [Function.update_self]
        rfl
    · have hxL : L.tree.delivered x = true := by
        have : (L.deliver h n).tree.delivered x = L.tree.delivered x := by
          unfold Ledger.deliver put
          simp only []
          rw [delivered_update, if_neg hxh]
        rw [← this]
        exact hx
      rw [g.height hxL]
      exact hmono _ (b.first_some x hxL hx0)

theorem once_insert {es : List ℕ} {A B : Finset ℕ} {k : ℕ}
    (h : ∀ j, es.count j = if j ∈ A ∧ j ∈ B then 1 else 0) {A' B' : Finset ℕ}
    (hk : ¬(k ∈ A ∧ k ∈ B)) (hk' : k ∈ A' ∧ k ∈ B')
    (hrest : ∀ j, j ≠ k → (j ∈ A' ∧ j ∈ B' ↔ j ∈ A ∧ j ∈ B)) (j : ℕ) :
    (es ++ [k]).count j = if j ∈ A' ∧ j ∈ B' then 1 else 0 := by
  rw [List.count_append, h]
  by_cases hj : j = k
  · subst j
    rw [if_neg hk, if_pos hk', List.count_singleton_self]
  · have hne : (k == j) = false := by simpa using Ne.symm hj
    rw [List.count_singleton, hne]
    simp only [hrest j hj, Bool.false_eq_true, if_false, Nat.add_zero]

theorem Booked.advance {L : Ledger} {h : Hash} {n : BlockNode} (b : Booked L)
    (stored : L.tree h = some n) (hd : n.delivered = true)
    (hp : L.tree.parent0 h = some L.bExec) : Booked (L.advance h n) := by
  have hs := Step.advance (G := Guard.any) stored hd hp
  have g := hs.grows
  have hdh : L.tree.delivered h = true := by rw [Tree.delivered_of stored, hd]
  have hheight : n.height = L.tree.height L.bExec + 1 := by
    have := (b.wf.ranked.parent_spec hdh hp).2
    rwa [Tree.height_of stored] at this
  have hself : (L.advance h n).tree h = some { n with decision := true } :=
    Function.update_self ..
  have hnew : n.height ∉ L.finishedUpdateCids := by
    rw [b.updated]
    omega
  have hdel : ∀ x, (L.advance h n).tree.delivered x = true → L.tree.delivered x = true := by
    intro x hx
    unfold Ledger.advance at hx
    simp only [] at hx
    rw [delivered_update] at hx
    split at hx
    · rename_i hxh
      rw [hxh]
      exact hdh
    · exact hx
  obtain ⟨hfirst, hsome⟩ := b.first_keep g rfl hdel
  have hruns : executions (L.advance h n).log = executions L.log ++
      if n.height ∈ L.finishedMcCids then [(n.height, h)] else [] := by
    unfold Ledger.advance
    rw [executions_append]
    split
    · change _ ++ executions (n.decides h L.rid) = _
      rw [executions_decides]
    · rfl
  have hcalls : decideCalls (L.advance h n).log = decideCalls L.log ++
      if n.height ∈ L.finishedMcCids then n.batch h L.rid else [] := by
    unfold Ledger.advance
    rw [decideCalls_append]
    split
    · change _ ++ decideCalls (n.decides h L.rid) = _
      rw [decideCalls_decides]
    · rfl
  have hbatch : (L.advance h n).batch h = n.batch h L.rid :=
    (batch_of hself).trans rfl
  refine ⟨hs.chained b.toChained, ?_, hfirst, hsome, ?_, ?_, ?_, ?_⟩
  · intro k
    change k ∈ insert n.height L.finishedUpdateCids ↔ 1 ≤ k ∧ k ≤ (L.advance h n).tree.height h
    rw [Finset.mem_insert, b.updated, Tree.height_of hself]
    simp only []
    omega
  · intro k
    unfold executedHeights
    rw [hruns, List.map_append]
    change _ = if k ∈ insert n.height L.finishedUpdateCids ∧ k ∈ L.finishedMcCids then 1 else 0
    by_cases hin : n.height ∈ L.finishedMcCids
    · rw [if_pos hin]
      refine once_insert b.once (fun hk => hnew hk.1) ⟨Finset.mem_insert_self .., hin⟩ ?_ k
      intro j hj
      simp [hj]
    · rw [if_neg hin, List.map_nil, List.append_nil]
      refine (b.once k).trans ?_
      by_cases hk : k = n.height
      · subst k
        simp [hin]
      · simp [hk]
  · intro e he
    rw [hruns] at he
    rcases List.mem_append.mp he with he | he
    · obtain ⟨hx, hh⟩ := b.ran e he
      exact ⟨g.delivered hx, (g.height hx).trans hh⟩
    · split at he
      · obtain rfl := List.mem_singleton.mp he
        exact ⟨(Tree.delivered_of hself).trans hd, (Tree.height_of hself).trans rfl⟩
      · exact absurd he List.not_mem_nil
  · rw [hcalls, hruns, b.calls, List.flatMap_append]
    congr 1
    · refine List.flatMap_congr ?_
      intro e he
      exact (batch_grows g rfl (b.ran e he).1).symm
    · split
      · rw [List.flatMap_singleton, hbatch]
      · rfl
  · intro k
    change ((Function.update L.timer n.height
      (if n.height ∈ L.finishedMcCids then none else some ⟨h, true⟩)) k).isSome = true ↔
      k ∈ insert n.height L.finishedUpdateCids ∧ k ∉ L.finishedMcCids
    by_cases hk : k = n.height
    · subst k
      rw [Function.update_self]
      split <;> simp_all
    · rw [Function.update_of_ne hk, b.timers, Finset.mem_insert]
      simp [hk]

theorem Booked.mark {L : Ledger} {cid : ℕ} (b : Booked L) (hnot : cid ∉ L.finishedUpdateCids) :
    Booked { L with finishedMcCids := insert cid L.finishedMcCids } := by
  have hmem : ∀ k, k ∈ L.finishedUpdateCids →
      (k ∈ insert cid L.finishedMcCids ↔ k ∈ L.finishedMcCids) := by
    intro k hk
    rw [Finset.mem_insert, or_iff_right]
    rintro rfl
    exact hnot hk
  refine ⟨⟨b.wf, b.exec, b.path, b.decided⟩, b.updated, b.first, b.first_some, ?_, b.ran,
    b.calls, ?_⟩
  · intro k
    refine (b.once k).trans ?_
    by_cases hk : k ∈ L.finishedUpdateCids
    · simp only [hk, true_and, hmem k hk]
    · simp [hk]
  · intro k
    refine (b.timers k).trans ?_
    constructor
    · rintro ⟨hk, hmc⟩
      exact ⟨hk, fun hin => hmc ((hmem k hk).mp hin)⟩
    · rintro ⟨hk, hmc⟩
      exact ⟨hk, fun hin => hmc ((hmem k hk).mpr hin)⟩

theorem Booked.complete {L : Ledger} {cid : ℕ} {h : Hash} (b : Booked L)
    (hc : cid ∉ L.finishedMcCids) (hu : cid ∈ L.finishedUpdateCids)
    (hh : L.cidBlkhash cid = some h) :
    Booked { L with
      finishedMcCids := insert cid L.finishedMcCids
      timer := Function.update L.timer cid none
      log := L.log ++ L.runBlk h } := by
  obtain ⟨hd, hheight⟩ := b.first cid h hh
  obtain ⟨n, hn, _⟩ := Tree.exists_of_delivered hd
  have hn' : n.height = cid := by rw [← Tree.height_of hn, hheight]
  have hruns : executions (L.log ++ L.runBlk h) = executions L.log ++ [(cid, h)] := by
    rw [executions_append, runBlk_of hn, executions_decides, hn']
  have hlog : consensusBlks (L.log ++ L.runBlk h) = consensusBlks L.log := by
    rw [consensusBlks_append, consensusBlks_runBlk, List.append_nil]
  refine ⟨⟨b.wf, b.exec, hlog ▸ b.path, hlog ▸ b.decided⟩, b.updated, b.first, b.first_some,
    ?_, ?_, ?_, ?_⟩
  · intro k
    unfold executedHeights
    rw [hruns, List.map_append]
    refine once_insert b.once (fun hk => hc hk.2) ⟨hu, Finset.mem_insert_self ..⟩ ?_ k
    intro j hj
    simp [hj]
  · intro e he
    rw [hruns] at he
    rcases List.mem_append.mp he with he | he
    · exact b.ran e he
    · obtain rfl := List.mem_singleton.mp he
      exact ⟨hd, hheight⟩
  · rw [hruns, decideCalls_append, b.calls, List.flatMap_append, List.flatMap_singleton,
      runBlk_of hn, decideCalls_decides]
    congr 1
    exact (batch_of hn).symm
  · intro k
    change ((Function.update L.timer cid none) k).isSome = true ↔ _
    by_cases hk : k = cid
    · subst k
      rw [Function.update_self]
      simp
    · rw [Function.update_of_ne hk, b.timers, Finset.mem_insert]
      simp [hk]

theorem Booked.finishMc {L : Ledger} {cid : ℕ} (b : Booked L) (hc : cid ∉ L.finishedMcCids) :
    Booked (L.finishMc cid) := by
  unfold Ledger.finishMc
  cases hh : L.cidBlkhash cid with
  | none =>
    refine b.mark ?_
    intro hu
    obtain ⟨h, hsome⟩ := b.first_of_updated hu
    rw [hh] at hsome
    exact absurd hsome (by simp)
  | some h =>
    simp only []
    split
    · rename_i hu
      exact b.complete hc hu hh
    · rename_i hu
      exact b.mark hu

theorem Step.booked {L M : Ledger} (hs : Step G L M) (b : Booked L) : Booked M := by
  have g := hs.grows
  cases hs with
  | @store h n absent hd hdec hp hG =>
    obtain ⟨hfirst, hsome⟩ := b.first_keep g rfl fun _ => put_delivered hd
    exact b.keep (.store absent hd hdec hp hG) rfl rfl rfl rfl rfl rfl (fun _ => rfl)
      hfirst hsome
  | @link h m parents height stored hd hp =>
    obtain ⟨hfirst, hsome⟩ := b.first_keep g rfl fun _ => put_delivered hd
    exact b.keep (.link (G := G) stored hd hp) rfl rfl rfl rfl rfl rfl (fun _ => rfl)
      hfirst hsome
  | deliver stored hd head parents qc => exact b.deliver stored hd head parents qc
  | lock x =>
    obtain ⟨hfirst, hsome⟩ := b.first_keep g rfl fun _ => id
    exact b.keep (.lock (G := G) x) rfl rfl rfl rfl rfl rfl (fun _ => rfl) hfirst hsome
  | @opine h hv hG =>
    obtain ⟨hfirst, hsome⟩ := b.first_keep g rfl fun _ => id
    refine b.keep (.opine hv hG) rfl rfl rfl rfl ?_ ?_ (fun _ => rfl) hfirst hsome
    · unfold Ledger.opine
      rw [record_log, executions_append]
      exact List.append_nil _
    · unfold Ledger.opine
      rw [record_log, decideCalls_append]
      exact List.append_nil _
  | @note e he =>
    obtain ⟨hfirst, hsome⟩ := b.first_keep g rfl fun _ => id
    have hrun : e.execution? = none := by
      cases e with
      | execute k h => exact he.elim
      | _ => rfl
    have hcall : e.decideCall? = none := by
      cases e with
      | decide fin key val => exact he.elim
      | _ => rfl
    refine b.keep (.note (G := G) he) rfl rfl rfl rfl ?_ ?_ (fun _ => rfl) hfirst hsome
    · rw [record_log, executions_append]
      simp [executions, hrun]
    · rw [record_log, decideCalls_append]
      simp [decideCalls, hcall]
  | advance stored hd hp => exact b.advance stored hd hp
  | finishMc hc _ => exact b.finishMc hc
  | @disarm cid t ht =>
    obtain ⟨hfirst, hsome⟩ := b.first_keep g rfl fun _ => id
    refine b.keep (.disarm (G := G) ht) rfl rfl rfl rfl rfl rfl ?_ hfirst hsome
    intro k
    by_cases hk : k = cid
    · subst k
      simp [ht]
    · simp [hk]

end Ledger

theorem Setup.start_booked (c : Setup) : c.start.ledger.Booked := by
  have hdel : ∀ h, c.start.ledger.tree.delivered h = true → h = b0 := by
    intro h hd
    by_contra hh
    change c.start.tree.delivered h = true at hd
    simp [Tree.delivered, Replica.tree, Setup.start, EntityStorage.initial, hh] at hd
  refine ⟨c.start_chained, ?_, ?_, ?_, ?_, ?_, rfl, ?_⟩
  · intro k
    change k ∈ (∅ : Finset ℕ) ↔ 1 ≤ k ∧ k ≤ 0
    simp
    omega
  · intro k h hk
    exact absurd hk (by simp [Replica.ledger, Setup.start, EntityStorage.initial])
  · intro h hd h0
    exact absurd (hdel h hd) h0
  · intro k
    rfl
  · intro e he
    exact absurd he List.not_mem_nil
  · intro k
    simp [Replica.ledger, Setup.start, McState.initial]

theorem Replica.Reach.booked {C : Crypto} {c : Setup} {s : Replica} (h : Replica.Reach C c s) :
    s.ledger.Booked := by
  refine Runs.Reach.invariant (fun s => s.ledger.Booked) h c.start_booked ?_
  intro s op hs _
  exact (Replica.exec_steps C hs.wf op).invariant hs fun _ _ hstep => hstep.booked

def Replica.batch (s : Replica) (h : Hash) : List (Finality × ℤ × ℤ) := s.ledger.batch h

/-- A height is executed once when it is both committed and completed, else never; its
timer is there exactly between the commit and the completion. -/
theorem execution_exactly_once (C : Crypto) (c : Setup) (s : Replica) (h : Replica.Reach C c s)
    (k : ℕ) :
    ((executions s.trace).map Prod.fst).count k =
        (if k ∈ s.mc.finishedUpdateCids ∧ k ∈ s.mc.finishedMcCids then 1 else 0) ∧
      decideCalls s.trace = ((executions s.trace).flatMap fun e => s.batch e.2) ∧
      ((s.mc.cidToRemoteViewChangeTimer k).isSome = true ↔
        k ∈ s.mc.finishedUpdateCids ∧ k ∉ s.mc.finishedMcCids) := by
  have b := h.booked
  refine ⟨?_, ?_, b.timers k⟩
  · rw [← executions_filter]
    exact b.once k
  · rw [← executions_filter, ← decideCalls_filter]
    exact b.calls

theorem execution_exactly_once_second :
    (((executions (Runs.run (Replica.step .sample) (Setup.four 1).start
        (fiveBlks ++ [mcSample 2])).trace).map Prod.fst).count 2 = 1 ∧
      2 ∈ (Runs.run (Replica.step .sample) (Setup.four 1).start
        (fiveBlks ++ [mcSample 2])).mc.finishedMcCids) := by
  have hmc : 2 ∈ (Runs.run (Replica.step .sample) (Setup.four 1).start
      (fiveBlks ++ [mcSample 2])).mc.finishedMcCids := by
    decide +kernel
  have hupd : 2 ∈ (Runs.run (Replica.step .sample) (Setup.four 1).start
      (fiveBlks ++ [mcSample 2])).mc.finishedUpdateCids := by
    decide +kernel
  have honce := (execution_exactly_once .sample (.four 1) _
    (.of_run .sample (.four 1) (fiveBlks ++ [mcSample 2])) 2).1
  rw [if_pos ⟨hupd, hmc⟩] at honce
  exact ⟨honce, hmc⟩

end AvaHotstuff
