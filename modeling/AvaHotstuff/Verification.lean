import AvaHotstuff.Delivery

set_option autoImplicit false

namespace AvaHotstuff

namespace Node

def jobs (ps : List Pending) : List Hash := ps.filterMap (·.cont.job)

structure Jobs (x : Node × List Pending) : Prop where
  nodup : (jobs (live x)).Nodup
  waiting : ∀ p ∈ live x, ∀ h, p.cont.job = some h → h ∈ x.1.blkDeliveryWaiting
  apart : ∀ h ∈ x.1.blkDeliveryWaiting, x.1.core.delivered h = false
  judged : ∀ h v, .verified h v ∈ x.1.log →
    h ∈ x.1.blkDeliveryWaiting ∨ x.1.core.delivered h = true
  started : ∀ p ∈ live x, ∀ h r, p.cont = .start h r → ∀ v, .verified h v ∉ x.1.log
  verdict : ∀ p ∈ live x, ∀ h v, p.cont = .deliver h v →
    (.verified h ∈ p.deps ∧ ∀ w, .verified h w ∉ x.1.log) ∨ .verified h v ∈ x.1.log
  agree : ∀ h v w, .verified h v ∈ x.1.log → .verified h w ∈ x.1.log → v = w
  passed : ∀ h, .marked h ∈ x.1.log ∨ .resolved h ∈ x.1.log → .verified h true ∈ x.1.log
  delivered : ∀ h, x.1.core.delivered h = true → ∀ v, .verified h v ∈ x.1.log → v = true

/-- The deliveries of a node that the replica does not interfere with, and that end well. -/
def verifying : Policy :=
  ⟨fun n h => h ∉ n.blkDeliveryWaiting, fun valid => valid = true, fun _ => True⟩

/-- The continuation goes on, and waits for the verifications that it waited for. -/
def Continues (ps : List Pending) (q : Pending) : Prop :=
  q.cont.job = none ∨ ∃ p ∈ ps, p.cont = q.cont ∧ ∀ h, .verified h ∈ p.deps → .verified h ∈ q.deps

theorem Continues.of_mem {ps : List Pending} {q : Pending} (h : q ∈ ps) : Continues ps q :=
  .inr ⟨q, h, rfl, fun _ hd => hd⟩

theorem Jobs.frame {x y : Node × List Pending} (J : Jobs x)
    (hwait : y.1.blkDeliveryWaiting = x.1.blkDeliveryWaiting)
    (hlog : ∀ e, ¬e.Aside → (e ∈ y.1.log ↔ e ∈ x.1.log))
    (hgrow : ∀ h, x.1.core.delivered h = true → y.1.core.delivered h = true)
    (hnew : ∀ h, y.1.core.delivered h = true →
      x.1.core.delivered h = true ∨ h ∉ x.1.blkDeliveryWaiting)
    (hnodup : (jobs (live y)).Nodup) (hlive : ∀ q ∈ live y, Continues (live x) q) : Jobs y := by
  have hv : ∀ h v, .verified h v ∈ y.1.log ↔ .verified h v ∈ x.1.log :=
    fun h v => hlog _ (by simp [NodeEvent.Aside])
  refine ⟨hnodup, ?_, ?_, ?_, ?_, ?_, ?_, ?_, ?_⟩
  · intro q hq h hj
    rw [hwait]
    rcases hlive q hq with hnone | ⟨p, hp, hc, -⟩
    · rw [hnone] at hj
      exact absurd hj (by simp)
    · exact J.waiting p hp h (by rw [hc]; exact hj)
  · intro h hh
    rw [hwait] at hh
    by_contra hd
    rcases hnew h (by simpa using hd) with hold | hnot
    · exact absurd (J.apart h hh) (by simp [hold])
    · exact hnot hh
  · intro h v hs
    rw [hwait]
    rcases J.judged h v ((hv h v).mp hs) with hw | hd
    · exact .inl hw
    · exact .inr (hgrow h hd)
  · intro q hq h r hc v
    rw [hv]
    rcases hlive q hq with hnone | ⟨p, hp, hpc, -⟩
    · rw [hc] at hnone
      exact absurd hnone (by simp [Cont.job])
    · exact J.started p hp h r (hpc.trans hc) v
  · intro q hq h v hc
    simp only [hv]
    rcases hlive q hq with hnone | ⟨p, hp, hpc, hdeps⟩
    · rw [hc] at hnone
      exact absurd hnone (by simp [Cont.job])
    · rcases J.verdict p hp h v (hpc.trans hc) with ⟨hdep, hno⟩ | hs
      · exact .inl ⟨hdeps h hdep, hno⟩
      · exact .inr hs
  · intro h v w hs hs'
    exact J.agree h v w ((hv h v).mp hs) ((hv h w).mp hs')
  · intro h hh
    rw [hv]
    rw [hlog _ (by simp [NodeEvent.Aside]), hlog _ (by simp [NodeEvent.Aside])] at hh
    exact J.passed h hh
  · intro h hd v hs
    have hsx := (hv h v).mp hs
    rcases hnew h hd with hold | hnot
    · exact J.delivered h hold v hsx
    · rcases J.judged h v hsx with hw | hold
      · exact absurd hw hnot
      · exact J.delivered h hold v hsx

theorem Jobs.unique {x : Node × List Pending} (J : Jobs x) {p q : Pending} {h : Hash}
    (hp : p ∈ live x) (hq : q ∈ live x) (hpj : p.cont.job = some h) (hqj : q.cont.job = some h) :
    p = q := by
  rcases pairwise_trichotomy (List.pairwise_filterMap.mp J.nodup) hp hq with heq | hne | hne
  · exact heq
  · exact absurd rfl (hne h hpj h hqj)
  · exact absurd rfl (hne h hqj h hpj)

theorem jobs_append (ps qs : List Pending) : jobs (ps ++ qs) = jobs ps ++ jobs qs :=
  List.filterMap_append

theorem jobs_resolve (n : Node) (d : Dep) : jobs (n.resolve d).pending = jobs n.pending := by
  unfold jobs
  rw [resolve_pending, List.filterMap_map]
  rfl

theorem take_perm {ps qs : List Pending} {k : ℕ} {p : Pending} (hk : qs[k]? = some p) :
    (p :: ps ++ qs.eraseIdx k).Perm (ps ++ qs) := by
  obtain ⟨hlt, rfl⟩ := List.getElem?_eq_some_iff.mp hk
  have herase : (qs[k] :: qs.eraseIdx k).Perm qs := List.getElem_cons_eraseIdx_perm hlt
  have hmove : (qs[k] :: (ps ++ qs.eraseIdx k)).Perm (ps ++ qs[k] :: qs.eraseIdx k) :=
    List.perm_middle.symm
  exact hmove.trans (herase.append_left ps)

theorem mem_log_aside {es fs : List NodeEvent} (hfs : ∀ e ∈ fs, e.Aside) (e : NodeEvent)
    (he : ¬e.Aside) : e ∈ es ++ fs ↔ e ∈ es := by
  rw [List.mem_append]
  exact ⟨fun h => h.resolve_right fun hf => he (hfs e hf), .inl⟩

theorem call_log (C : Crypto) (n : Node) (op : Op) (e : NodeEvent) (he : ¬e.Aside) :
    e ∈ (n.call C op).log ↔ e ∈ n.log := by
  unfold call
  simp only []
  split
  · exact Iff.rfl
  · refine mem_log_aside ?_ e he
    intro f hf
    rw [List.mem_singleton.mp hf]
    trivial

theorem call_delivered {C : Crypto} {n : Node} {op : Op} (w : n.core.tree.Wf)
    (hop : ∀ h, op ≠ .deliverBlk h) {h : Hash} (hd : (n.call C op).core.delivered h = true) :
    n.core.delivered h = true ∨ n.core.proposes C op = some h := by
  rw [call_core] at hd
  rcases (Replica.exec_steps C w op).newly_delivered hd with hold | hop' | hmade
  · exact .inl hold
  · exact absurd hop' (hop h)
  · exact .inr hmade

section
variable {C : Crypto} {n : Node} {ps : List Pending}

theorem Jobs.call {qs : List Pending} {op : Op} (J : Jobs (n, qs)) (w : n.core.tree.Wf)
    (hop : ∀ h, op ≠ .deliverBlk h)
    (hmade : ∀ h, n.core.proposes C op = some h → h ∉ n.blkDeliveryWaiting)
    (hsub : ps.Sublist qs) : Jobs (n.call C op, ps) := by
  have hlive : (live (n.call C op, ps)).Sublist (live (n, qs)) := by
    unfold live
    rw [call_pending]
    exact hsub.append_right _
  refine J.frame (call_waiting n op) (call_log C n op) ?_ ?_
    (J.nodup.sublist (hlive.filterMap _)) fun q hq => .of_mem (hlive.subset hq)
  · intro h hd
    rw [call_core]
    exact (Replica.exec_steps C w op).grows.delivered hd
  · intro h hd
    rcases call_delivered w hop hd with hold | hm
    · exact .inl hold
    · exact .inr (hmade h hm)

theorem Jobs.keep {m : Node} {qs : List Pending} (J : Jobs (n, qs))
    (hwait : m.blkDeliveryWaiting = n.blkDeliveryWaiting)
    (hdel : ∀ h, m.core.delivered h = n.core.delivered h) {es : List NodeEvent}
    (hlog : m.log = n.log ++ es) (hes : ∀ e ∈ es, e.Aside)
    (hnodup : (jobs (live (m, ps))).Nodup)
    (hlive : ∀ q ∈ live (m, ps), Continues (live (n, qs)) q) : Jobs (m, ps) := by
  refine J.frame hwait ?_ (fun h hd => (hdel h).trans hd)
    (fun h hd => .inl ((hdel h).symm.trans hd)) hnodup hlive
  intro e he
  change e ∈ m.log ↔ e ∈ n.log
  rw [hlog]
  exact mem_log_aside hes e he

theorem Jobs.request {m : Node} {h : Hash} {deps : List Dep} {replica : PeerId}
    (J : Jobs (n, ps)) (hcore : m.core = n.core)
    (hwait : m.blkDeliveryWaiting = insert h n.blkDeliveryWaiting)
    (hpending : m.pending = n.pending ++ [⟨deps, .start h replica⟩]) {es : List NodeEvent}
    (hlog : m.log = n.log ++ es) (hes : ∀ e ∈ es, e.Aside)
    (hd : n.core.delivered h = false) (hw : h ∉ n.blkDeliveryWaiting) : Jobs (m, ps) := by
  have hlive : live (m, ps) = live (n, ps) ++ [⟨deps, .start h replica⟩] := by
    unfold live
    rw [hpending, List.append_assoc]
  have hsaid : ∀ x v, NodeEvent.verified x v ∈ m.log ↔ .verified x v ∈ n.log := by
    intro x v
    rw [hlog]
    exact mem_log_aside hes _ (by simp [NodeEvent.Aside])
  have hfresh : ∀ v, NodeEvent.verified h v ∉ n.log := by
    intro v hs
    rcases J.judged h v hs with hwait | hdel
    · exact hw hwait
    · exact absurd hd (by simp [show n.core.delivered h = true from hdel])
  have hmem : ∀ q ∈ live (m, ps), q ∈ live (n, ps) ∨ q = ⟨deps, .start h replica⟩ := by
    intro q hq
    rw [hlive] at hq
    exact (List.mem_append.mp hq).imp_right List.mem_singleton.mp
  refine ⟨?_, ?_, ?_, ?_, ?_, ?_, ?_, ?_, ?_⟩
  · rw [hlive, jobs_append]
    refine List.nodup_append.mpr ⟨J.nodup, List.nodup_singleton h, ?_⟩
    rintro x hx _ hy rfl
    obtain ⟨p, hp, hj⟩ := List.mem_filterMap.mp hx
    rw [List.mem_singleton.mp hy] at hj
    exact hw (J.waiting p hp h hj)
  · intro q hq x hj
    change x ∈ m.blkDeliveryWaiting
    rw [hwait]
    rcases hmem q hq with hq | rfl
    · exact Finset.mem_insert_of_mem (J.waiting q hq x hj)
    · rw [← Option.some.inj hj]
      exact Finset.mem_insert_self ..
  · intro x hx
    change m.core.delivered x = false
    change x ∈ m.blkDeliveryWaiting at hx
    rw [hwait] at hx
    rw [hcore]
    rcases Finset.mem_insert.mp hx with rfl | hx
    · exact hd
    · exact J.apart x hx
  · intro x v hs
    change x ∈ m.blkDeliveryWaiting ∨ m.core.delivered x = true
    rw [hwait, hcore]
    exact (J.judged x v ((hsaid x v).mp hs)).imp_left Finset.mem_insert_of_mem
  · intro q hq x r hc v
    rw [hsaid]
    rcases hmem q hq with hq | rfl
    · exact J.started q hq x r hc v
    · cases hc
      exact hfresh v
  · intro q hq x v hc
    simp only [hsaid]
    rcases hmem q hq with hq | rfl
    · exact J.verdict q hq x v hc
    · exact absurd hc (by simp)
  · intro x v w hs hs'
    exact J.agree x v w ((hsaid x v).mp hs) ((hsaid x w).mp hs')
  · intro x hx
    rw [hsaid]
    change NodeEvent.marked x ∈ m.log ∨ NodeEvent.resolved x ∈ m.log at hx
    rw [hlog, mem_log_aside hes _ (by simp [NodeEvent.Aside]),
      mem_log_aside hes _ (by simp [NodeEvent.Aside])] at hx
    exact J.passed x hx
  · intro x hx v hs
    change m.core.delivered x = true at hx
    rw [hcore] at hx
    exact J.delivered x hx v ((hsaid x v).mp hs)

theorem Jobs.judge {h : Hash} {replica : PeerId} {deps : List Dep} {valid : Bool}
    (J : Jobs (n, ⟨[], .start h replica⟩ :: ps)) :
    Jobs (n.await (.verified h :: deps) (.deliver h valid), ps) := by
  have hlive : live (n.await (.verified h :: deps) (.deliver h valid), ps) =
      live (n, ps) ++ [⟨.verified h :: deps, .deliver h valid⟩] := (List.append_assoc ..).symm
  have hstart : (⟨[], .start h replica⟩ : Pending) ∈ live (n, ⟨[], .start h replica⟩ :: ps) :=
    List.mem_cons_self ..
  have hmem : ∀ q ∈ live (n.await (.verified h :: deps) (.deliver h valid), ps),
      q ∈ live (n, ⟨[], .start h replica⟩ :: ps) ∨ q = ⟨.verified h :: deps, .deliver h valid⟩ := by
    intro q hq
    rw [hlive] at hq
    rcases List.mem_append.mp hq with hq | hq
    · exact .inl (live_tail q hq)
    · exact .inr (List.mem_singleton.mp hq)
  refine ⟨?_, ?_, J.apart, J.judged, ?_, ?_, J.agree, J.passed, J.delivered⟩
  · rw [hlive, jobs_append]
    exact (List.perm_append_singleton h (jobs (live (n, ps)))).nodup_iff.mpr J.nodup
  · intro q hq x hj
    rcases hmem q hq with hq | rfl
    · exact J.waiting q hq x hj
    · exact J.waiting _ hstart x hj
  · intro q hq x r hc
    rcases hmem q hq with hq | rfl
    · exact J.started q hq x r hc
    · exact absurd hc (by simp)
  · intro q hq x v hc
    rcases hmem q hq with hq | rfl
    · exact J.verdict q hq x v hc
    · cases hc
      exact .inl ⟨List.mem_cons_self .., J.started _ hstart h replica rfl⟩

theorem mem_verdict {p : Pending} {h : Hash} {e : NodeEvent} :
    e ∈ p.verdict h ↔
      ∃ v, p.cont = .deliver h v ∧ .verified h ∈ p.deps ∧ e = .verified h v := by
  unfold Pending.verdict
  split
  · rename_i x valid hc
    rw [hc]
    split
    · rename_i hx
      obtain ⟨rfl, hdep⟩ := hx
      rw [List.mem_singleton]
      constructor
      · intro he
        exact ⟨valid, rfl, hdep, he⟩
      · rintro ⟨v, hv, -, rfl⟩
        cases hv
        rfl
    · rename_i hx
      refine ⟨fun he => absurd he List.not_mem_nil, ?_⟩
      rintro ⟨v, hv, hdep, -⟩
      cases hv
      exact absurd ⟨rfl, hdep⟩ hx
  · rename_i hc
    refine ⟨fun he => absurd he List.not_mem_nil, ?_⟩
    rintro ⟨v, hv, -⟩
    exact absurd hv (hc h v)

theorem mem_verified_log {h : Hash} {e : NodeEvent} : e ∈ (n.verified h).log ↔
    e ∈ n.log ∨ ∃ p ∈ n.pending, ∃ v, p.cont = .deliver h v ∧ .verified h ∈ p.deps ∧
      e = .verified h v := by
  change e ∈ n.log ++ _ ↔ _
  rw [List.mem_append, List.mem_flatMap]
  simp only [mem_verdict]

theorem Jobs.verified (J : Jobs (n, [])) (h : Hash) : Jobs (n.verified h, []) := by
  have hmem : ∀ q ∈ live (n.verified h, []), ∃ p ∈ live (n, []),
      q = ⟨p.deps.filter fun d => decide (d ≠ .verified h), p.cont⟩ := by
    intro q hq
    obtain ⟨p, hp, rfl⟩ := List.mem_map.mp hq
    exact ⟨p, hp, rfl⟩
  have hold : ∀ e, e ∈ n.log → e ∈ (n.verified h).log := fun e he => mem_verified_log.mpr (.inl he)
  have hcases : ∀ x v, .verified x v ∈ (n.verified h).log → .verified x v ∈ n.log ∨
      x = h ∧ ∃ p ∈ live (n, []), p.cont = .deliver h v ∧ .verified h ∈ p.deps := by
    intro x v hs
    rcases mem_verified_log.mp hs with hs | ⟨p, hp, w, hc, hdep, heq⟩
    · exact .inl hs
    · cases heq
      exact .inr ⟨rfl, p, hp, hc, hdep⟩
  have hjob : ∀ {c : Cont} {x : Hash} {v : Bool}, c = .deliver x v → c.job = some x := by
    rintro _ x v rfl
    rfl
  refine ⟨?_, ?_, J.apart, ?_, ?_, ?_, ?_, ?_, ?_⟩
  · change (jobs (n.resolve (.verified h)).pending).Nodup
    rw [jobs_resolve]
    exact J.nodup
  · intro q hq x hj
    obtain ⟨p, hp, rfl⟩ := hmem q hq
    exact J.waiting p hp x hj
  · intro x v hs
    rcases hcases x v hs with hs | ⟨rfl, p, hp, hc, -⟩
    · exact J.judged x v hs
    · exact .inl (J.waiting p hp x (hjob hc))
  · intro q hq x r hc v hs
    obtain ⟨p, hp, rfl⟩ := hmem q hq
    rcases hcases x v hs with hs | ⟨rfl, p', hp', hc', -⟩
    · exact J.started p hp x r hc v hs
    · rw [J.unique hp hp' (by rw [hc]; rfl) (hjob hc')] at hc
      exact absurd (hc.symm.trans hc') (by simp)
  · intro q hq x v hc
    obtain ⟨p, hp, rfl⟩ := hmem q hq
    rcases J.verdict p hp x v hc with ⟨hdep, hno⟩ | hs
    · by_cases hx : x = h
      · subst x
        exact .inr (mem_verified_log.mpr (.inr ⟨p, hp, v, hc, hdep, rfl⟩))
      · refine .inl ⟨List.mem_filter.mpr ⟨hdep, by simp [hx]⟩, ?_⟩
        intro w hs
        rcases hcases x w hs with hs | ⟨rfl, -⟩
        · exact hno w hs
        · exact hx rfl
    · exact .inr (hold _ hs)
  · have hfirst : ∀ x v w, .verified x v ∈ n.log → .verified x w ∈ (n.verified h).log → v = w := by
      intro x v w hs hs'
      rcases hcases x w hs' with hs' | ⟨rfl, p, hp, hc, -⟩
      · exact J.agree x v w hs hs'
      · rcases J.verdict p hp x w hc with ⟨-, hno⟩ | hs'
        · exact absurd hs (hno v)
        · exact J.agree x v w hs hs'
    intro x v w hs hs'
    rcases hcases x v hs with hso | ⟨rfl, p, hp, hc, -⟩
    · exact hfirst x v w hso hs'
    · rcases hcases x w hs' with hso' | ⟨-, p', hp', hc', -⟩
      · exact (hfirst x w v hso' hs).symm
      · rw [J.unique hp hp' (hjob hc) (hjob hc'), hc'] at hc
        cases hc
        rfl
  · intro x hx
    refine hold _ (J.passed x (hx.imp ?_ ?_))
    · intro he
      rcases mem_verified_log.mp he with he | ⟨p, -, v, -, -, heq⟩
      · exact he
      · exact absurd heq (by simp)
    · intro he
      rcases mem_verified_log.mp he with he | ⟨p, -, v, -, -, heq⟩
      · exact he
      · exact absurd heq (by simp)
  · intro x hd v hs
    rcases hcases x v hs with hs | ⟨rfl, p, hp, hc, -⟩
    · exact J.delivered x hd v hs
    · have hnot := J.apart x (J.waiting p hp x (hjob hc))
      exact absurd hd (by simp [show (n.verified x).core.delivered x = false from hnot])

theorem settle_waited {h : Hash} (hw : h ∈ n.blkDeliveryWaiting) : n.settle h true =
    { (n.note (.resolved h)).resolve (.delivered h) with
      blkDeliveryWaiting := n.blkDeliveryWaiting.erase h } := by
  unfold settle
  exact if_pos hw

theorem Jobs.mark {m : Node} {h : Hash} {u : Replica} (J : Jobs (n, ⟨[], .deliver h true⟩ :: ps))
    (w : n.core.tree.Wf) (hu : n.core.onDeliverBlk h = (u, .ok true)) (hcore : m.core = u)
    (hwait : m.blkDeliveryWaiting = n.blkDeliveryWaiting.erase h)
    (hpending : m.pending = (n.resolve (.delivered h)).pending)
    (hlog : m.log = n.log ++ [.marked h] ++ [.resolved h]) : Jobs (m, ps) := by
  have hheld : (⟨[], .deliver h true⟩ : Pending) ∈ live (n, ⟨[], .deliver h true⟩ :: ps) :=
    List.mem_cons_self ..
  have hsaid : .verified h true ∈ n.log := by
    rcases J.verdict _ hheld h true rfl with ⟨hdep, -⟩ | hs
    · exact absurd hdep List.not_mem_nil
    · exact hs
  have hdel : ∀ x, u.delivered x = true → n.core.delivered x = true ∨ x = h := by
    intro x hx
    rw [Replica.deliver_step .sample hu] at hx
    rcases (Replica.exec_steps .sample w (.deliverBlk h)).newly_delivered hx with hold | hop | hm
    · exact .inl hold
    · cases hop
      exact .inr rfl
    · exact absurd hm (by simp [Replica.proposes])
  have hnodup : (h :: jobs (live (n, ps))).Nodup := J.nodup
  have hother : ∀ p ∈ live (n, ps), p.cont.job ≠ some h := by
    intro p hp hj
    exact (List.nodup_cons.mp hnodup).1 (List.mem_filterMap.mpr ⟨p, hp, hj⟩)
  have hlog' : ∀ e, e ∈ m.log ↔ e ∈ n.log ∨ e = .marked h ∨ e = .resolved h := by
    intro e
    rw [hlog]
    simp only [List.mem_append, List.mem_singleton, or_assoc]
  have hmem : ∀ q ∈ live (m, ps), ∃ p ∈ live (n, ps), p.cont = q.cont ∧
      ∀ x, .verified x ∈ p.deps → .verified x ∈ q.deps := by
    intro q hq
    unfold live at hq
    rw [hpending] at hq
    rcases List.mem_append.mp hq with hq | hq
    · exact ⟨q, List.mem_append_left _ hq, rfl, fun _ hd => hd⟩
    · obtain ⟨p, hp, rfl⟩ := List.mem_map.mp hq
      exact ⟨p, List.mem_append_right _ hp, rfl, fun x hd => List.mem_filter.mpr ⟨hd, by simp⟩⟩
  have hver : ∀ x v, .verified x v ∈ m.log ↔ .verified x v ∈ n.log := by
    intro x v
    simp [hlog']
  refine ⟨?_, ?_, ?_, ?_, ?_, ?_, ?_, ?_, ?_⟩
  · have hjobs : jobs (live (m, ps)) = jobs (live (n, ps)) := by
      unfold live
      rw [jobs_append, jobs_append, hpending, jobs_resolve]
    rw [hjobs]
    exact (List.nodup_cons.mp hnodup).2
  · intro q hq x hj
    obtain ⟨p, hp, hc, -⟩ := hmem q hq
    rw [← hc] at hj
    change x ∈ m.blkDeliveryWaiting
    rw [hwait]
    refine Finset.mem_erase.mpr ⟨?_, J.waiting p (live_tail p hp) x hj⟩
    rintro rfl
    exact hother p hp hj
  · intro x hx
    change m.core.delivered x = false
    change x ∈ m.blkDeliveryWaiting at hx
    rw [hwait] at hx
    obtain ⟨hne, hx⟩ := Finset.mem_erase.mp hx
    rw [hcore]
    by_contra hd
    rcases hdel x (by simpa using hd) with hold | heq
    · exact absurd (J.apart x hx) (by simp [show n.core.delivered x = true from hold])
    · exact hne heq
  · intro x v hs
    change x ∈ m.blkDeliveryWaiting ∨ m.core.delivered x = true
    rw [hwait, hcore]
    by_cases hx : x = h
    · subst x
      exact .inr (Replica.onDeliverBlk_ok hu)
    · rcases J.judged x v ((hver x v).mp hs) with hw | hd
      · exact .inl (Finset.mem_erase.mpr ⟨hx, hw⟩)
      · refine .inr ?_
        rw [Replica.deliver_step .sample hu]
        exact (Replica.exec_steps .sample w _).grows.delivered hd
  · intro q hq x r hc v
    obtain ⟨p, hp, hpc, -⟩ := hmem q hq
    rw [hver]
    exact J.started p (live_tail p hp) x r (hpc.trans hc) v
  · intro q hq x v hc
    obtain ⟨p, hp, hpc, hdeps⟩ := hmem q hq
    simp only [hver]
    exact (J.verdict p (live_tail p hp) x v (hpc.trans hc)).imp_left fun hd => ⟨hdeps x hd.1, hd.2⟩
  · intro x v w hs hs'
    exact J.agree x v w ((hver x v).mp hs) ((hver x w).mp hs')
  · intro x hx
    rw [hver]
    simp only [hlog', NodeEvent.marked.injEq, NodeEvent.resolved.injEq, reduceCtorEq, or_false,
      false_or] at hx
    rcases hx with (hx | rfl) | (hx | rfl)
    · exact J.passed x (.inl hx)
    · exact hsaid
    · exact J.passed x (.inr hx)
    · exact hsaid
  · intro x hd v hs
    change m.core.delivered x = true at hd
    rw [hcore] at hd
    rcases hdel x hd with hold | rfl
    · exact J.delivered x hold v ((hver x v).mp hs)
    · exact J.agree x v true ((hver x v).mp hs) hsaid

theorem Jobs.move {x y : Node × List Pending} (hm : Move C verifying x y)
    (S : Sound verifying x) (J : Jobs x) : Jobs y := by
  have w := S.voting.wf
  have hnil : ∀ e ∈ ([] : List NodeEvent), e.Aside := fun e he => absurd he List.not_mem_nil
  cases hm with
  | fetch f hes => exact J.keep rfl (fun _ => rfl) rfl hes J.nodup fun q hq => .of_mem hq
  | request f deps replica hes hd hw => exact J.request rfl rfl rfl rfl hes hd hw
  | @call n ps op hop hm =>
    refine J.call w ?_ hm (.refl _)
    rintro h rfl
    exact absurd hop (by simp [Op.direct])
  | @await n ps deps cont hc hp =>
    have hlive : live (n.await deps cont, ps) = live (n, ps) ++ [⟨deps, cont⟩] :=
      (List.append_assoc ..).symm
    refine J.keep rfl (fun _ => rfl) (List.append_nil _).symm hnil ?_ ?_
    · have hjob : jobs [⟨deps, cont⟩] = [] := List.filterMap_cons_none hc
      rw [hlive, jobs_append, hjob, List.append_nil]
      exact J.nodup
    · intro q hq
      rw [hlive] at hq
      rcases List.mem_append.mp hq with hq | hq
      · exact .of_mem hq
      · rw [List.mem_singleton.mp hq]
        exact .inl hc
  | @take n ps k cont hk =>
    have hperm : (⟨[], cont⟩ :: ps ++ n.pending.eraseIdx k).Perm (ps ++ n.pending) := take_perm hk
    refine J.keep rfl (fun _ => rfl) (List.append_nil _).symm hnil ?_
      fun q hq => .of_mem (hperm.mem_iff.mp hq)
    exact (hperm.filterMap _).nodup_iff.mpr J.nodup
  | @drop n p ps =>
    refine J.keep rfl (fun _ => rfl) (List.append_nil _).symm hnil ?_
      fun q hq => .of_mem (live_tail q hq)
    exact J.nodup.sublist ((List.sublist_cons_self p _).filterMap _)
  | @release n ps d f hd =>
    refine J.keep rfl (fun _ => rfl) (List.append_nil _).symm hnil ?_ ?_
    · change (jobs (ps ++ (n.resolve d).pending)).Nodup
      rw [jobs_append, jobs_resolve, ← jobs_append]
      exact J.nodup
    · intro q hq
      rcases List.mem_append.mp hq with hq | hq
      · exact .of_mem (List.mem_append_left _ hq)
      · obtain ⟨p, hp, rfl⟩ := List.mem_map.mp hq
        refine .inr ⟨p, List.mem_append_right _ hp, rfl,
          fun h hdep => List.mem_filter.mpr ⟨hdep, ?_⟩⟩
        refine decide_eq_true ?_
        rintro rfl
        exact absurd hd (by simp [Dep.plain])
  | verified h => exact J.verified h
  | judge deps valid => exact J.judge
  | propose prop =>
    exact J.call w (fun h => by simp) (fun h hm => absurd hm (by simp [Replica.proposes]))
      (List.sublist_cons_self ..)
  | @fail n ps h valid u e hu =>
    refine J.keep rfl (Replica.onDeliverBlk_error hu) (List.append_nil _).symm hnil ?_
      fun q hq => .of_mem (live_tail q hq)
    exact J.nodup.sublist ((List.sublist_cons_self _ _).filterMap _)
  | @refuse n ps h valid hd =>
    have hnot := J.apart h (J.waiting _ (List.mem_cons_self ..) h rfl)
    exact absurd hd (by simp [show n.core.delivered h = false from hnot])
  | @mark n ps h valid u hP hu =>
    obtain rfl : valid = true := hP
    have hw : h ∈ n.blkDeliveryWaiting := J.waiting _ (List.mem_cons_self ..) h rfl
    rw [settle_waited (n := ({ n with core := u } : Node).note (.marked h)) hw]
    exact J.mark w hu rfl rfl rfl rfl

theorem start_jobs (c : Setup) : Jobs (start c, []) := by
  constructor
  · exact List.nodup_nil
  · exact fun p hp => absurd hp List.not_mem_nil
  · exact fun h hh => absurd hh (Finset.notMem_empty h)
  · exact fun h v hs => absurd hs List.not_mem_nil
  · exact fun p hp => absurd hp List.not_mem_nil
  · exact fun p hp => absurd hp List.not_mem_nil
  · exact fun h v w hs => absurd hs List.not_mem_nil
  · exact fun h hs =>
      hs.elim (fun hs => absurd hs List.not_mem_nil) fun hs => absurd hs List.not_mem_nil
  · exact fun h _ v hs => absurd hs List.not_mem_nil

end

/-- As long as no delivery ends with a failed verification, and the replica makes no block
that it is about to deliver for a peer, the blocks marked as delivered are verified, and a
block that fails its verification is neither delivered nor handed to those who wait for it
nor voted for. -/
theorem delivered_verified (C : Crypto) (c : Setup) (n : Node)
    (h : Runs.Reach (fun n i => i.Within C verifying n) (step C) (start c) n) :
    (∀ x, .marked x ∈ n.log → .verified x true ∈ n.log) ∧
    ∀ x, .verified x false ∈ n.log → n.core.delivered x = false ∧ .marked x ∉ n.log ∧
      .resolved x ∉ n.log ∧ Event.vote x ∉ n.core.trace := by
  have hinv : Sound verifying (n, []) ∧ Jobs (n, []) :=
    invariant_of_moves (I := fun x => Sound verifying x ∧ Jobs x) h ⟨start_sound c, start_jobs c⟩
      fun _ _ hm hx => ⟨hx.1.move hm, hx.2.move hm hx.1⟩
  obtain ⟨S, J⟩ := hinv
  refine ⟨fun x hx => J.passed x (.inl hx), ?_⟩
  intro x hs
  have hnd : n.core.delivered x = false := by
    by_contra hd
    exact absurd (J.delivered x (by simpa using hd) false hs) (by simp)
  refine ⟨hnd, ?_, ?_, ?_⟩
  · intro hm
    exact absurd (J.agree x true false (J.passed x (.inl hm)) hs) (by simp)
  · intro hr
    exact absurd (J.agree x true false (J.passed x (.inr hr)) hs) (by simp)
  · intro hv
    exact absurd (S.voted_delivered hv) (by simp [hnd])

instance (n : Node) : DecidablePred (verifying.make n) :=
  fun h => inferInstanceAs (Decidable (h ∉ n.blkDeliveryWaiting))

instance : DecidablePred verifying.finish := fun v => inferInstanceAs (Decidable (v = true))
instance : DecidablePred verifying.propose := fun _ => .isTrue trivial

/-- A block on block 1 with a certificate of block 1 that nobody has signed. -/
def unsigned : Body := ⟨[1], [8], [1], [2], ⟨1, Bits.cleared 4, []⟩, []⟩

/-- Block 1 is proposed, and the verification of an unsigned one on it has just ended. -/
def rejecting : Node := Runs.run (step .sample) (start (.four 1))
  (proposed (.sample 0 0 7 []) ++ (proposed unsigned).take 3)

theorem delivered_verified_rejecting :
    (.marked 1 ∈ rejecting.log ∧ .verified 1 true ∈ rejecting.log) ∧
    .verified 3 false ∈ rejecting.log ∧ rejecting.core.delivered 3 = false ∧
      .marked 3 ∉ rejecting.log ∧ .resolved 3 ∉ rejecting.log ∧
      Event.vote 3 ∉ rejecting.core.trace := by
  have hreach : Runs.Reach (fun n i => i.Within .sample verifying n) (step .sample)
      (start (.four 1)) rejecting := Runs.reach_run _ .init (by decide +kernel)
  have hrun := delivered_verified .sample (.four 1) rejecting hreach
  have hlog : .marked 1 ∈ rejecting.log ∧ .verified 3 false ∈ rejecting.log := by decide +kernel
  exact ⟨⟨hlog.1, hrun.1 1 hlog.1⟩, hlog.2, hrun.2 3 hlog.2⟩

def accepting : Node := Runs.run (step .sample) (start (.four 1))
  (proposed (.sample 0 0 7 []) ++ proposed unsigned)

theorem delivered_unverified :
    Runs.Reach (fun n i => i.Within .sample .any n) (step .sample) (start (.four 1)) accepting ∧
    unsigned.verify .sample (Setup.four 1).config = false ∧
    .verified 3 false ∈ accepting.log ∧ .verified 3 true ∉ accepting.log ∧
    .marked 3 ∈ accepting.log ∧ .resolved 3 ∈ accepting.log ∧
    accepting.core.delivered 3 = true ∧ Event.vote 3 ∈ accepting.core.trace :=
  ⟨Runs.reach_run _ .init (by decide +kernel), by decide +kernel⟩

end Node

end AvaHotstuff
