import AvaHotstuff.Refinement
import AvaHotstuff.Runs

set_option autoImplicit false

namespace AvaHotstuff
open Ancestry

def Event.consensus? : Event → Option Hash
  | .consensus h => some h
  | _ => none

def consensusBlks (es : List Event) : List Hash := es.filterMap Event.consensus?

theorem consensusBlks_append (es fs : List Event) :
    consensusBlks (es ++ fs) = consensusBlks es ++ consensusBlks fs := List.filterMap_append

theorem consensusBlks_filter (es : List Event) :
    consensusBlks (es.filter Event.onLedger) = consensusBlks es := by
  induction es with
  | nil => rfl
  | cons e es ih =>
    unfold consensusBlks at ih ⊢
    cases e <;> simp [List.filter_cons, List.filterMap_cons, Event.onLedger, Event.consensus?, ih]

theorem consensusBlks_decides (n : BlockNode) (h : Hash) (rid : ReplicaID) :
    consensusBlks (n.decides h rid) = [] := by
  unfold consensusBlks BlockNode.decides
  rw [List.filterMap_eq_nil_iff]
  intro e he
  rcases List.mem_cons.mp he with rfl | he
  · rfl
  · obtain ⟨i, _, rfl⟩ := List.mem_map.mp he
    rfl

theorem consensusBlks_runBlk (L : Ledger) (h : Hash) : consensusBlks (L.runBlk h) = [] := by
  unfold Ledger.runBlk
  cases L.tree h with
  | none => rfl
  | some n => exact consensusBlks_decides n h L.rid

namespace Ledger
variable {G : Guard}

structure Chained (L : Ledger) : Prop where
  wf : L.tree.Wf
  exec : L.tree.delivered L.bExec = true
  path : Seg L.tree.parent0 b0 (consensusBlks L.log).reverse L.bExec
  decided : ∀ h, L.tree.decided h = true ↔ h = b0 ∨ h ∈ consensusBlks L.log

theorem Chained.frame {L M : Ledger} (c : Chained L) (hs : Step G L M) (hexec : M.bExec = L.bExec)
    (hlog : consensusBlks M.log = consensusBlks L.log)
    (hdec : ∀ h, M.tree.decided h = L.tree.decided h) : Chained M := by
  refine ⟨hs.wf c.wf, ?_, ?_, ?_⟩
  · rw [hexec]
    exact hs.grows.delivered c.exec
  · rw [hexec, hlog]
    refine c.path.of_agree ?_
    intro x hx
    exact hs.grows.parent0 (c.wf.ranked.seg_dom c.exec c.path x hx)
  · intro h
    rw [hdec, hlog]
    exact c.decided h

theorem decided_update (t : Tree) (h x : Hash) (n : BlockNode) :
    Tree.decided (Function.update t h (some n)) x =
      if x = h then n.decision else t.decided x := by
  by_cases hx : x = h
  · subst x
    simp [Tree.decided]
  · simp [Tree.decided, hx]

theorem Chained.advance {L : Ledger} {h : Hash} {n : BlockNode} (c : Chained L)
    (stored : L.tree h = some n) (hd : n.delivered = true)
    (hp : L.tree.parent0 h = some L.bExec) : Chained (L.advance h n) := by
  have hs := Step.advance (G := Guard.any) stored hd hp
  have hlog : consensusBlks (L.advance h n).log = consensusBlks L.log ++ [h] := by
    unfold Ledger.advance
    rw [consensusBlks_append]
    congr 1
    split
    · change h :: consensusBlks (n.decides h L.rid) = [h]
      rw [consensusBlks_decides]
    · rfl
  have hdh : L.tree.delivered h = true := by rw [Tree.delivered_of stored, hd]
  refine ⟨hs.wf c.wf, hs.grows.delivered hdh, ?_, ?_⟩
  · rw [hlog, List.reverse_concat]
    refine .cons ((hs.grows.parent0 hdh).trans hp) (c.path.of_agree ?_)
    intro x hx
    exact hs.grows.parent0 (c.wf.ranked.seg_dom c.exec c.path x hx)
  · intro x
    unfold Ledger.advance at hlog ⊢
    rw [hlog, decided_update]
    by_cases hx : x = h
    · simp [hx]
    · rw [if_neg hx, c.decided]
      simp [hx]

theorem Step.chained {L M : Ledger} (hs : Step G L M) (c : Chained L) : Chained M := by
  cases hs with
  | @store h n absent hd hdec hp hG =>
    refine c.frame (.store absent hd hdec hp hG) rfl rfl ?_
    intro x
    unfold put
    rw [decided_update]
    split
    · rename_i hx
      rw [hx, hdec]
      simp [Tree.decided, absent]
    · rfl
  | @link h m parents height stored hd hp =>
    refine c.frame (.link (G := G) stored hd hp) rfl rfl ?_
    intro x
    unfold put
    rw [decided_update]
    split
    · rename_i hx
      rw [hx, Tree.decided_of stored]
    · rfl
  | @deliver h p m stored hd head parents qc hG =>
    refine c.frame (.deliver stored hd head parents qc hG) rfl rfl ?_
    intro x
    unfold Ledger.deliver put
    simp only []
    rw [decided_update]
    split
    · rename_i hx
      rw [hx, Tree.decided_of stored]
      rfl
    · rfl
  | lock b => exact c.frame (.lock (G := G) b) rfl rfl fun _ => rfl
  | @opine h hv hG =>
    refine c.frame (.opine hv hG) rfl ?_ fun _ => rfl
    unfold Ledger.opine
    rw [record_log, consensusBlks_append]
    exact List.append_nil _
  | @note e he =>
    refine c.frame (.note (G := G) he) rfl ?_ fun _ => rfl
    rw [record_log, consensusBlks_append]
    have hnone : e.consensus? = none := by
      cases e with
      | consensus h => exact he.elim
      | _ => rfl
    simp [consensusBlks, hnone]
  | advance stored hd hp => exact c.advance stored hd hp
  | @finishMc cid hc hG =>
    have hlog : consensusBlks (L.finishMc cid).log = consensusBlks L.log := by
      unfold Ledger.finishMc
      split
      · rfl
      · split
        · rw [consensusBlks_append, consensusBlks_runBlk, List.append_nil]
        · rfl
    have hrest : (L.finishMc cid).bExec = L.bExec ∧ (L.finishMc cid).tree = L.tree := by
      unfold Ledger.finishMc
      split
      · exact ⟨rfl, rfl⟩
      · split <;> exact ⟨rfl, rfl⟩
    exact c.frame (.finishMc hc hG) hrest.1 hlog fun h => by rw [hrest.2]
  | disarm ht => exact c.frame (.disarm (G := G) ht) rfl rfl fun _ => rfl

theorem Chained.committed_delivered {L : Ledger} (c : Chained L) {h : Hash}
    (hh : h ∈ consensusBlks L.log) : L.tree.delivered h = true :=
  c.wf.ranked.seg_dom c.exec c.path h (List.mem_reverse.mpr hh)

theorem Chained.decided_iff_anc {L : Ledger} (c : Chained L) {h : Hash} :
    L.tree.decided h = true ↔ Anc L.tree.parent0 h L.bExec := by
  rw [c.decided]
  constructor
  · rintro (rfl | hh)
    · exact c.wf.ranked.root_anc c.exec
    · exact c.path.mem_anc (List.mem_reverse.mpr hh)
  · intro hanc
    rcases c.wf.ranked.mem_seg_root c.exec c.path hanc with hh | hh
    · exact .inl hh
    · exact .inr (List.mem_reverse.mp hh)

theorem Chained.decided_height {L : Ledger} (c : Chained L) {h : Hash}
    (hd : L.tree.decided h = true) : L.tree.height h ≤ L.tree.height L.bExec :=
  (c.wf.ranked.anc_spec c.exec (c.decided_iff_anc.mp hd)).2

theorem Chained.heights {L : Ledger} (c : Chained L) :
    (consensusBlks L.log).map L.tree.height = List.range' 1 (consensusBlks L.log).length ∧
      L.tree.height L.bExec = (consensusBlks L.log).length := by
  obtain ⟨hm, hl⟩ := c.wf.ranked.seg_heights c.exec c.path
  rw [c.wf.height_genesis] at hm hl
  rw [List.reverse_reverse, List.length_reverse] at hm
  rw [List.length_reverse] at hl
  exact ⟨hm, by omega⟩

theorem Chained.nodup {L : Ledger} (c : Chained L) : (consensusBlks L.log).Nodup := by
  apply List.Nodup.of_map L.tree.height
  rw [c.heights.1]
  exact List.nodup_range'

end Ledger

theorem Setup.start_absent (c : Setup) {h : Hash} (hh : h ≠ b0) : c.start.tree h = none := by
  simp [Replica.tree, Setup.start, EntityStorage.initial, hh]

theorem Setup.start_chained (c : Setup) : c.start.ledger.Chained := by
  have hb : c.start.tree b0 = some (Block.genesis c.config).toBlockNode := rfl
  refine ⟨⟨⟨_, hb, rfl, rfl, rfl, rfl⟩, ?_, ?_⟩, rfl, .nil, ?_⟩
  · intro h n hn p hp
    by_cases hh : h = b0
    · subst h
      obtain rfl : _ = n := Option.some.inj (hb.symm.trans hn)
      exact absurd hp List.not_mem_nil
    · exact absurd ((c.start_absent hh).symm.trans hn) (by simp)
  · intro h n hn _ hh
    exact absurd ((c.start_absent hh).symm.trans hn) (by simp)
  · intro h
    by_cases hh : h = b0
    · subst h
      exact ⟨fun _ => .inl rfl, fun _ => rfl⟩
    · refine ⟨fun hd => ?_, ?_⟩
      · rw [show c.start.ledger.tree.decided h = false by
          change c.start.tree.decided h = false; simp [Tree.decided, c.start_absent hh]] at hd
        exact absurd hd (by simp)
      · rintro (rfl | hmem)
        · exact absurd rfl hh
        · exact absurd hmem List.not_mem_nil

/-- Every state a replica reaches, whatever calls are made on it. -/
abbrev Replica.Reach (C : Crypto) (c : Setup) : Replica → Prop :=
  Runs.Reach (fun _ _ => True) (Replica.step C) c.start

theorem Replica.Reach.of_run (C : Crypto) (c : Setup) (ops : List Op) :
    Replica.Reach C c (Runs.run (Replica.step C) c.start ops) :=
  Runs.reach_run ops .init (Runs.admitted_of_mem ops fun _ _ _ => trivial)

theorem Replica.Reach.chained {C : Crypto} {c : Setup} {s : Replica} (h : Replica.Reach C c s) :
    s.ledger.Chained := by
  refine Runs.Reach.invariant (fun s => s.ledger.Chained) h c.start_chained ?_
  intro s op hs _
  exact (Replica.exec_steps C hs.wf op).invariant hs fun _ _ hstep => hstep.chained

/-- The commit log is the path from genesis to `b_exec`, without gaps or repeats, and
exactly its blocks and genesis are decided. -/
theorem commit_log_gap_free (C : Crypto) (c : Setup) (s : Replica) (h : Replica.Reach C c s) :
    Seg s.parent0 b0 (consensusBlks s.trace).reverse s.bExec ∧
      (consensusBlks s.trace).Nodup ∧
      (consensusBlks s.trace).map s.height = List.range' 1 (s.height s.bExec) ∧
      ∀ b, s.decided b = true ↔ b = b0 ∨ b ∈ consensusBlks s.trace := by
  have hc := h.chained
  have hlog : consensusBlks s.ledger.log = consensusBlks s.trace := consensusBlks_filter s.trace
  have hheights := hc.heights
  rw [hlog] at hheights
  refine ⟨hlog ▸ hc.path, hlog ▸ hc.nodup, ?_, ?_⟩
  · rw [show s.height s.bExec = (consensusBlks s.trace).length from hheights.2]
    exact hheights.1
  · intro b
    rw [← hlog]
    exact hc.decided b

/-- A chain of five blocks, each certified by the next. -/
def fiveBlks : List Op :=
  hears (.sample 0 0 7 []) ++ hears (.sample 1 1 8 []) ++ hears (.sample 3 3 9 []) ++
    hears (.sample 7 7 10 []) ++ hears (.sample 15 15 11 [])

theorem commit_log_gap_free_five :
    consensusBlks (Runs.run (Replica.step .sample) (Setup.four 1).start fiveBlks).trace = [1, 3] ∧
      Seg (Runs.run (Replica.step .sample) (Setup.four 1).start fiveBlks).parent0 b0 [3, 1]
        (Runs.run (Replica.step .sample) (Setup.four 1).start fiveBlks).bExec := by
  have hlog : consensusBlks
      (Runs.run (Replica.step .sample) (Setup.four 1).start fiveBlks).trace = [1, 3] := by
    decide +kernel
  have hgap := commit_log_gap_free .sample (.four 1) _ (.of_run .sample (.four 1) fiveBlks)
  rw [hlog] at hgap
  exact ⟨hlog, hgap.1⟩

end AvaHotstuff
