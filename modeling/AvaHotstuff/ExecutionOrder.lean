import Mathlib.Data.List.Sort
import AvaHotstuff.Execution

set_option autoImplicit false

namespace AvaHotstuff
open Ancestry

namespace Ledger
variable {G : Guard}

theorem Step.executions_cases {L M : Ledger} (hs : Step G L M) (b : Booked L) :
    executions M.log = executions L.log ∨
      (∃ h, executions M.log = executions L.log ++ [(L.tree.height L.bExec + 1, h)] ∧
        h ∈ consensusBlks M.log) ∨
      ∃ cid h, G.complete L cid ∧ cid ∉ L.finishedMcCids ∧ cid ∈ L.finishedUpdateCids ∧
        L.cidBlkhash cid = some h ∧ executions M.log = executions L.log ++ [(cid, h)] := by
  cases hs with
  | store => exact .inl rfl
  | link => exact .inl rfl
  | deliver => exact .inl rfl
  | lock => exact .inl rfl
  | opine =>
    refine .inl ?_
    unfold Ledger.opine
    rw [record_log, executions_append]
    exact List.append_nil _
  | @note e he =>
    refine .inl ?_
    rw [record_log, executions_append]
    cases e with
    | execute k h => exact he.elim
    | _ => exact List.append_nil _
  | @advance h n stored hd hp =>
    have hdh : L.tree.delivered h = true := by rw [Tree.delivered_of stored, hd]
    have hheight := (b.wf.ranked.parent_spec hdh hp).2
    rw [Tree.height_of stored] at hheight
    by_cases hin : n.height ∈ L.finishedMcCids
    · refine .inr (.inl ⟨h, ?_, ?_⟩)
      · unfold Ledger.advance
        rw [executions_append, if_pos hin]
        change _ ++ executions (n.decides h L.rid) = _
        rw [executions_decides, hheight]
      · unfold Ledger.advance
        rw [consensusBlks_append]
        exact List.mem_append_right _ (List.mem_cons_self ..)
    · refine .inl ?_
      unfold Ledger.advance
      rw [executions_append, if_neg hin]
      exact List.append_nil _
  | @finishMc cid hc hG =>
    unfold Ledger.finishMc
    cases hh : L.cidBlkhash cid with
    | none => exact .inl rfl
    | some h =>
      by_cases hu : cid ∈ L.finishedUpdateCids
      · refine .inr (.inr ⟨cid, h, hG, hc, hu, hh, ?_⟩)
        obtain ⟨hd, hheight⟩ := b.first cid h hh
        obtain ⟨n, hn, _⟩ := Tree.exists_of_delivered hd
        simp only [if_pos hu]
        rw [executions_append, runBlk_of hn, executions_decides, ← Tree.height_of hn, hheight]
      · refine .inl ?_
        simp only [if_neg hu]
  | disarm => exact .inl rfl

theorem Step.consensusBlks_mono {L M : Ledger} (hs : Step G L M) {h : Hash}
    (hh : h ∈ consensusBlks L.log) : h ∈ consensusBlks M.log := by
  cases hs with
  | opine =>
    unfold Ledger.opine
    rw [record_log, consensusBlks_append]
    exact List.mem_append_left _ hh
  | note he =>
    rw [record_log, consensusBlks_append]
    exact List.mem_append_left _ hh
  | advance =>
    unfold Ledger.advance
    rw [consensusBlks_append]
    exact List.mem_append_left _ hh
  | finishMc =>
    unfold Ledger.finishMc
    split
    · exact hh
    · split
      · rw [consensusBlks_append]
        exact List.mem_append_left _ hh
      · exact hh
  | _ => exact hh

theorem Booked.mem_executedHeights {L : Ledger} (b : Booked L) {k : ℕ}
    (hk : k ∈ L.executedHeights) : k ∈ L.finishedUpdateCids ∧ k ∈ L.finishedMcCids := by
  have hpos := List.count_pos_iff.mpr hk
  rw [b.once] at hpos
  by_contra hno
  rw [if_neg hno] at hpos
  omega

def Ascending (L : Ledger) : Prop := L.executedHeights.Pairwise (· < ·)

theorem Step.ascending {L M : Ledger} (hs : Step G L M) (b : Booked L)
    (hG : ∀ cid, G.complete L cid → ∀ k ∈ L.finishedMcCids, k < cid) (a : Ascending L) :
    Ascending M := by
  have happ : ∀ k, (∀ j ∈ L.executedHeights, j < k) →
      (L.executedHeights ++ [k]).Pairwise (· < ·) := by
    intro k hk
    rw [List.pairwise_append]
    refine ⟨a, List.pairwise_singleton .., ?_⟩
    intro j hj x hx
    rw [List.mem_singleton.mp hx]
    exact hk j hj
  unfold Ascending executedHeights at *
  rcases hs.executions_cases b with h | ⟨x, h, _⟩ | ⟨cid, x, hc, _, _, _, h⟩
  · rw [h]
    exact a
  · rw [h, List.map_append]
    apply happ
    intro j hj
    have hj' := (b.updated j).mp (b.mem_executedHeights hj).1
    simp only []
    omega
  · rw [h, List.map_append]
    apply happ
    intro j hj
    exact hG cid hc j (b.mem_executedHeights hj).2

def CommittedOnly (L : Ledger) : Prop := ∀ e ∈ executions L.log, e.2 ∈ consensusBlks L.log

theorem Step.committedOnly {L M : Ledger} (hs : Step G L M) (b : Booked L)
    (hG : ∀ cid, G.complete L cid → cid ∈ L.finishedUpdateCids → ∀ h, L.cidBlkhash cid = some h →
      h ∈ consensusBlks L.log) (c : CommittedOnly L) : CommittedOnly M := by
  intro e he
  rcases hs.executions_cases b with h | ⟨x, h, hx⟩ | ⟨cid, x, hc, _, hu, hf, h⟩
  · rw [h] at he
    exact hs.consensusBlks_mono (c e he)
  · rw [h] at he
    rcases List.mem_append.mp he with he | he
    · exact hs.consensusBlks_mono (c e he)
    · rw [List.mem_singleton.mp he]
      exact hx
  · rw [h] at he
    rcases List.mem_append.mp he with he | he
    · exact hs.consensusBlks_mono (c e he)
    · rw [List.mem_singleton.mp he]
      exact hs.consensusBlks_mono (hG cid hc hu x hf)

theorem batch_height {L : Ledger} {h : Hash} {call : Finality × ℤ × ℤ} (hc : call ∈ L.batch h) :
    call.1.cmdHeight = L.tree.height h ∧ call.1.blkHash = h := by
  unfold batch at hc
  cases hn : L.tree h with
  | none =>
    rw [hn] at hc
    exact absurd hc List.not_mem_nil
  | some n =>
    rw [hn] at hc
    obtain ⟨i, _, rfl⟩ := List.mem_map.mp hc
    exact ⟨(Tree.height_of hn).symm, rfl⟩

theorem Ascending.calls {L : Ledger} (b : Booked L) (a : Ascending L) :
    ((decideCalls L.log).map (·.1.cmdHeight)).Pairwise (· ≤ ·) := by
  unfold Ascending executedHeights at a
  rw [b.calls, List.map_flatMap, List.pairwise_flatMap]
  have hheight : ∀ e ∈ executions L.log, ∀ k ∈ (L.batch e.2).map (·.1.cmdHeight), k = e.1 := by
    intro e he k hk
    obtain ⟨call, hc, rfl⟩ := List.mem_map.mp hk
    rw [(batch_height hc).1]
    exact (b.ran e he).2
  refine ⟨?_, ?_⟩
  · intro e he
    rw [List.pairwise_iff_forall_sublist]
    intro j k hjk
    have hmem := hjk.subset
    rw [hheight e he j (hmem (by simp)), hheight e he k (hmem (by simp))]
  · rw [List.pairwise_map] at a
    refine a.imp_of_mem ?_
    intro e e' he he' hlt j hj k hk
    rw [hheight e he j hj, hheight e' he' k hk]
    exact Nat.le_of_lt hlt

theorem Chained.decided_unique {L : Ledger} (c : Chained L) {b b' : Hash}
    (hb : L.tree.decided b = true) (hb' : L.tree.decided b' = true)
    (hh : L.tree.height b = L.tree.height b') : b = b' := by
  have hpos : ∀ x ∈ consensusBlks L.log, 1 ≤ L.tree.height x := by
    intro x hx
    have hmem := List.mem_map_of_mem (f := L.tree.height) hx
    rw [c.heights.1, List.mem_range'_1] at hmem
    exact hmem.1
  have h0 := c.wf.height_genesis
  rcases (c.decided b).mp hb with rfl | hm
  · rcases (c.decided b').mp hb' with rfl | hm'
    · rfl
    · have := hpos b' hm'
      omega
  · rcases (c.decided b').mp hb' with rfl | hm'
    · have := hpos b hm
      omega
    · refine List.inj_on_of_nodup_map ?_ hm hm' hh
      rw [c.heights.1]
      exact List.nodup_range'

end Ledger

/-- A call completes no height below one that was completed before. -/
def CompletesInOrder (s : Replica) (op : Op) : Prop :=
  ∀ cid, s.Completes op cid → ∀ k ∈ s.mc.finishedMcCids, k < cid

theorem ascending_of_in_order {C : Crypto} {c : Setup} {s : Replica}
    (h : Runs.Reach CompletesInOrder (Replica.step C) c.start s) :
    s.ledger.Booked ∧ s.ledger.Ascending := by
  refine Runs.Reach.invariant (fun s => s.ledger.Booked ∧ s.ledger.Ascending) h
    ⟨c.start_booked, List.Pairwise.nil⟩ ?_
  intro s op hs hop
  refine (Replica.exec_steps C hs.1.wf op).invariant
    (I := fun L => L.Booked ∧ L.Ascending) hs ?_
  intro L M hstep hL
  refine ⟨hstep.booked hL.1, hstep.ascending hL.1 ?_ hL.2⟩
  rintro cid ⟨rfl, hc⟩
  exact hop cid hc

/-- When the heights are completed in increasing order, `do_decide` is called in order of
height, and two such replicas run the heights they share in the same order. -/
theorem decide_order_of_in_order (C : Crypto) (c c' : Setup) (s s' : Replica)
    (h : Runs.Reach CompletesInOrder (Replica.step C) c.start s)
    (h' : Runs.Reach CompletesInOrder (Replica.step C) c'.start s') :
    ((decideCalls s.trace).map (·.1.cmdHeight)).Pairwise (· ≤ ·) ∧
      ((executions s.trace).map Prod.fst).filter
          (fun k => decide (k ∈ (executions s'.trace).map Prod.fst)) =
        ((executions s'.trace).map Prod.fst).filter
          (fun k => decide (k ∈ (executions s.trace).map Prod.fst)) := by
  obtain ⟨b, a⟩ := ascending_of_in_order h
  obtain ⟨_, a'⟩ := ascending_of_in_order h'
  have hcalls := a.calls b
  unfold Ledger.Ascending Ledger.executedHeights at a a'
  rw [show executions s.ledger.log = executions s.trace from executions_filter _] at a
  rw [show executions s'.ledger.log = executions s'.trace from executions_filter _] at a'
  rw [show decideCalls s.ledger.log = decideCalls s.trace from decideCalls_filter _] at hcalls
  refine ⟨hcalls, ?_⟩
  refine List.Pairwise.eq_of_mem_iff (a.filter _) (a'.filter _) ?_
  intro k
  simp only [List.mem_filter, decide_eq_true_eq]
  exact and_comm

theorem fiveBlks_not_completes {op : Op} (hop : op ∈ fiveBlks) (s : Replica) (cid : ℕ) :
    ¬s.Completes op cid := by
  have hquiet : ∀ op ∈ fiveBlks, op.countsMc = false := by decide
  exact Replica.not_completes (hquiet op hop) cid

theorem decide_order_of_in_order_two :
    ((decideCalls (Runs.run (Replica.step .sample) (Setup.four 1).start
      (fiveBlks ++ [mcSample 1, mcSample 2])).trace).map (·.1.cmdHeight)) = [1, 2] ∧
    ((decideCalls (Runs.run (Replica.step .sample) (Setup.four 1).start
      (fiveBlks ++ [mcSample 1, mcSample 2])).trace).map (·.1.cmdHeight)).Pairwise (· ≤ ·) := by
  have hreach : Runs.Reach CompletesInOrder (Replica.step .sample) (Setup.four 1).start
      (Runs.run (Replica.step .sample) (Setup.four 1).start
        (fiveBlks ++ [mcSample 1, mcSample 2])) := by
    refine Runs.reach_run _ .init (Runs.admitted_append _ _ (Runs.admitted_of_mem _ ?_) ?_)
    · intro op hop s cid hc
      exact absurd hc (fiveBlks_not_completes hop s cid)
    · refine ⟨?_, ?_, trivial⟩
      · rintro cid ⟨_, rfl⟩
        decide +kernel
      · rintro cid ⟨_, rfl⟩
        decide +kernel
  exact ⟨by decide +kernel, (decide_order_of_in_order .sample (.four 1) (.four 1) _ _
    hreach hreach).1⟩

/-- Two heights committed here, completed by the other cluster in the wrong order. -/
theorem decide_order_reversed :
    ¬((decideCalls (Runs.run (Replica.step .sample) (Setup.four 1).start
      (fiveBlks ++ [mcSample 2, mcSample 1])).trace).map (·.1.cmdHeight)).Pairwise (· ≤ ·) := by
  decide +kernel

/-- When a call completes a committed height, the first block delivered at that height is
the committed one. -/
def FirstIsCommitted (s : Replica) (op : Op) : Prop :=
  ∀ cid, s.Completes op cid → cid ∈ s.mc.finishedUpdateCids →
    ∀ b, s.storage.cidBlkhash cid = some b → s.decided b = true

theorem committedOnly_of_first {C : Crypto} {c : Setup} {s : Replica}
    (h : Runs.Reach FirstIsCommitted (Replica.step C) c.start s) :
    s.ledger.Booked ∧ s.ledger.CommittedOnly := by
  refine Runs.Reach.invariant (fun s => s.ledger.Booked ∧ s.ledger.CommittedOnly) h
    ⟨c.start_booked, fun e he => absurd he List.not_mem_nil⟩ ?_
  intro s op hs hop
  refine (Replica.exec_steps C hs.1.wf op).invariant
    (I := fun L => L.Booked ∧ L.CommittedOnly) hs ?_
  intro L M hstep hL
  refine ⟨hstep.booked hL.1, hstep.committedOnly hL.1 ?_ hL.2⟩
  rintro cid ⟨rfl, hc⟩ hu b hb
  have hdec : s.ledger.tree.decided b = true := hop cid hc hu b hb
  rcases (hL.1.decided b).mp hdec with rfl | hmem
  · have h1 := ((hL.1.updated cid).mp hu).1
    have h0 := (hL.1.first cid b0 hb).2
    rw [hL.1.wf.height_genesis] at h0
    omega
  · exact hmem

/-- Under that condition every `do_decide` call carries a command of the one block that was
committed at its height. -/
theorem decide_committed_of_first (C : Crypto) (c : Setup) (s : Replica)
    (h : Runs.Reach FirstIsCommitted (Replica.step C) c.start s) :
    ∀ call ∈ decideCalls s.trace, ∃ b, s.decided b = true ∧ s.height b = call.1.cmdHeight ∧
      (∀ b', s.decided b' = true → s.height b' = call.1.cmdHeight → b' = b) ∧
      call ∈ s.batch b := by
  obtain ⟨bk, hco⟩ := committedOnly_of_first h
  intro call hcall
  rw [← decideCalls_filter] at hcall
  change call ∈ decideCalls s.ledger.log at hcall
  rw [bk.calls] at hcall
  obtain ⟨e, he, hbatch⟩ := List.mem_flatMap.mp hcall
  have hdec : s.ledger.tree.decided e.2 = true := (bk.decided e.2).mpr (.inr (hco e he))
  have hheight := (Ledger.batch_height hbatch).1
  refine ⟨e.2, hdec, hheight.symm, ?_, hbatch⟩
  intro b' hb' hh
  exact bk.toChained.decided_unique hb' hdec (hh.trans hheight)

theorem decide_committed_of_first_two :
    (decideCalls (Runs.run (Replica.step .sample) (Setup.four 3).start
      (fiveBlks ++ [mcSample 2])).trace).map (·.1.cmdHash) = [8] ∧
    ∀ call ∈ decideCalls (Runs.run (Replica.step .sample) (Setup.four 3).start
      (fiveBlks ++ [mcSample 2])).trace,
      ∃ b, (Runs.run (Replica.step .sample) (Setup.four 3).start
        (fiveBlks ++ [mcSample 2])).decided b = true := by
  have hreach : Runs.Reach FirstIsCommitted (Replica.step .sample) (Setup.four 3).start
      (Runs.run (Replica.step .sample) (Setup.four 3).start (fiveBlks ++ [mcSample 2])) := by
    refine Runs.reach_run _ .init (Runs.admitted_append _ _ (Runs.admitted_of_mem _ ?_) ?_)
    · intro op hop s cid hc
      exact absurd hc (fiveBlks_not_completes hop s cid)
    · refine ⟨?_, trivial⟩
      rintro cid ⟨_, rfl⟩ _ b hb
      have hfirst : (Runs.run (Replica.step .sample) (Setup.four 3).start
          fiveBlks).storage.cidBlkhash 2 = some 3 := by
        decide +kernel
      obtain rfl : 3 = b := Option.some.inj (hfirst.symm.trans hb)
      decide +kernel
  refine ⟨by decide +kernel, ?_⟩
  intro call hcall
  obtain ⟨b, hb, _⟩ := decide_committed_of_first .sample (.four 3) _ hreach call hcall
  exact ⟨b, hb⟩

/-- Replica 3 is sent block 1 and votes for it; the others certify its sibling, block 2,
which is committed. -/
def forkedBlks : List Op :=
  hears (.sample 0 0 7 []) ++ hears (.sample 0 0 8 [1]) ++ hears (.sample 2 2 9 []) ++
    hears (.sample 5 5 10 []) ++ hears (.sample 11 11 11 [])

theorem decide_fork_not_committed :
    ¬∀ call ∈ decideCalls (Runs.run (Replica.step .sample) (Setup.four 3).start
        (forkedBlks ++ [mcSample 1])).trace,
      ∃ b, (Runs.run (Replica.step .sample) (Setup.four 3).start
          (forkedBlks ++ [mcSample 1])).decided b = true ∧
        (Runs.run (Replica.step .sample) (Setup.four 3).start
          (forkedBlks ++ [mcSample 1])).height b = call.1.cmdHeight ∧
        call ∈ (Runs.run (Replica.step .sample) (Setup.four 3).start
          (forkedBlks ++ [mcSample 1])).batch b := by
  intro hall
  have hchained := (Replica.Reach.of_run .sample (.four 3)
    (forkedBlks ++ [mcSample 1])).chained
  have hlog : consensusBlks (Runs.run (Replica.step .sample) (Setup.four 3).start
      (forkedBlks ++ [mcSample 1])).ledger.log = [2] := by
    decide +kernel
  obtain ⟨b, hb, hheight, hmem⟩ := hall (⟨3, 1, 0, 1, 7, 1⟩, 1, 2) (by decide +kernel)
  have hcases := (hchained.decided b).mp hb
  rw [hlog, List.mem_singleton] at hcases
  rcases hcases with rfl | rfl
  · exact absurd hheight (by decide +kernel)
  · exact absurd hmem (by decide +kernel)

end AvaHotstuff
