import AvaHotstuff.Exec
import AvaHotstuff.PromiseAll
import AvaHotstuff.Wire

set_option autoImplicit false

namespace AvaHotstuff
open Bytes PromiseAll

namespace QuorumCert

section
variable (C : Crypto) (c : ReplicaConfig) (qc : QuorumCert)

/-- What the tasks of the pool find, in the order of the set bits. -/
def tasks : List Bool := qc.rids.ids.map fun i =>
  C.verifySig (i % 2 ^ 16) qc.objHash ((qc.sigs.lookup (i % 2 ^ 16)).getD 0)

/-- `verify(config, vpool)`, for the order in which the pool completes its tasks. There is no
result when `promise::all` throws, or as long as it waits. -/
def verifyAsync (order : List ℕ) : Option Bool :=
  if qc.sigs.length < c.nmajority then some false
  else (All.start (qc.tasks C).length).bind fun st =>
    (order.foldl (fun st k => st.fulfil k ((qc.tasks C).getD k false)) st).resolved.map
      fun values => values.all fun v => v == some true

end

section
variable {C : Crypto} {c : ReplicaConfig} {F : SigFormat} {qc : QuorumCert}

theorem verify_eq_tasks :
    qc.verify C c = (decide (c.nmajority ≤ qc.sigs.length) && (qc.tasks C).all id) := by
  rw [Bool.eq_iff_iff, verify_iff, Bool.and_eq_true, decide_eq_true_iff, List.all_eq_true]
  unfold tasks
  simp

theorem assign_covers (sigs : List (ReplicaID × Sig)) (rid : ReplicaID) (σ : Sig) :
    ∀ k, k ∈ sigs.map Prod.fst ∨ k = rid → k ∈ (assign sigs rid σ).map Prod.fst := by
  intro k hk
  unfold assign
  rw [List.map_append, List.mem_append]
  by_cases heq : k = rid
  · right
    rw [heq]
    exact List.mem_singleton_self rid
  · left
    obtain ⟨e, he, rfl⟩ := List.mem_map.mp (hk.resolve_right heq)
    exact List.mem_map_of_mem (List.mem_filter.mpr ⟨he, decide_eq_true heq⟩)

theorem unserializeSigs_covers {is : List ℕ} {acc sigs : List (ReplicaID × Sig)}
    {bs rest : List UInt8} (h : (unserializeSigs F is acc).run bs = some (sigs, rest)) :
    ∀ k, k ∈ acc.map Prod.fst ∨ (∃ i ∈ is, k = i % 2 ^ 16) → k ∈ sigs.map Prod.fst := by
  induction is generalizing acc bs with
  | nil =>
    have heq : (acc, bs) = (sigs, rest) := Option.some.inj h
    obtain rfl : acc = sigs := congrArg Prod.fst heq
    rintro k (hk | ⟨i, hi, -⟩)
    · exact hk
    · exact absurd hi List.not_mem_nil
  | cons i is ih =>
    rw [unserializeSigs, StateT.run_bind] at h
    obtain ⟨⟨σ, bs'⟩, -, hrest⟩ := Option.bind_eq_some_iff.mp h
    intro k hk
    apply ih hrest k
    rcases hk with hk | ⟨j, hj, hk⟩
    · exact .inl (assign_covers acc _ σ k (.inl hk))
    · rcases List.mem_cons.mp hj with rfl | hj
      · exact .inl (assign_covers acc _ σ k (.inr hk))
      · exact .inr ⟨j, hj, hk⟩

theorem unserialize_covers {bs rest : List UInt8}
    (h : (unserialize F).run bs = some (qc, rest)) :
    ∀ i ∈ qc.rids.ids, i % 2 ^ 16 ∈ qc.sigs.map Prod.fst := by
  unfold unserialize at h
  simp only [StateT.run_bind, Option.bind_eq_bind, Option.bind_eq_some_iff] at h
  obtain ⟨⟨objHash, bs₁⟩, -, ⟨rids, bs₂⟩, -, ⟨sigs, bs₃⟩, hsigs, hlast⟩ := h
  obtain rfl : (⟨objHash, rids, sigs⟩ : QuorumCert) = qc :=
    congrArg Prod.fst (Option.some.inj hlast)
  intro i hi
  exact unserializeSigs_covers hsigs _ (.inr ⟨i, hi, rfl⟩)

theorem tasks_all_iff {bs rest : List UInt8} (h : (unserialize F).run bs = some (qc, rest)) :
    (qc.tasks C).all id = true ↔ ∀ e ∈ qc.sigs, C.verifySig e.1 qc.objHash e.2 = true := by
  obtain ⟨hnd, hkeys⟩ := unserialize_keys h
  have hcovers := unserialize_covers h
  unfold tasks
  simp only [List.all_map, List.all_eq_true, Function.comp_apply, id_eq]
  constructor
  · intro hall e he
    obtain ⟨i, hi, heq⟩ := hkeys e he
    have hcheck := hall i hi
    rwa [← heq, lookup_of_mem hnd he, Option.getD_some] at hcheck
  · intro hall i hi
    obtain ⟨e, he, heq⟩ := List.mem_map.mp (hcovers i hi)
    rw [← heq, lookup_of_mem hnd he, Option.getD_some]
    exact hall e he

theorem verifyAsync_eq (hc : 1 ≤ c.nmajority) {bs rest : List UInt8}
    (h : (unserialize F).run bs = some (qc, rest)) {order : List ℕ}
    (horder : order.Perm (List.range qc.rids.ids.length)) :
    qc.verifyAsync C c order = some (qc.verify C c) := by
  rw [verify_eq_tasks]
  unfold verifyAsync
  by_cases hfew : qc.sigs.length < c.nmajority
  · rw [if_pos hfew, decide_eq_false (by omega), Bool.false_and]
  rw [if_neg hfew, decide_eq_true (by omega), Bool.true_and]
  have hlen : (qc.tasks C).length = qc.rids.ids.length := List.length_map ..
  have hsome : qc.sigs ≠ [] := by
    intro hnil
    rw [hnil] at hfew
    exact hfew hc
  obtain ⟨e, sigs, hcons⟩ := List.exists_cons_of_ne_nil hsome
  obtain ⟨i, hi, -⟩ := (unserialize_keys h).2 e (by rw [hcons]; exact List.mem_cons_self ..)
  have hpos : (qc.tasks C).length ≠ 0 := by
    rw [hlen]
    exact Nat.ne_of_gt (List.length_pos_of_mem hi)
  obtain ⟨st, hst⟩ : ∃ st : All Bool, All.start (qc.tasks C).length = some st :=
    ⟨_, if_neg hpos⟩
  rw [← hlen] at horder
  have hresolved := All.resolved_of_perm (fun k => (qc.tasks C).getD k false) horder hst
  rw [hst, Option.bind_some, hresolved, Option.map_some]
  congr 1
  rw [Bool.eq_iff_iff]
  simp only [List.all_map, List.all_eq_true, List.mem_range, Function.comp_apply, id_eq,
    beq_iff_eq, Option.some.injEq]
  constructor
  · intro hall b hb
    obtain ⟨k, hk, rfl⟩ := List.getElem_of_mem hb
    have hcheck := hall k hk
    rwa [List.getD_eq_getElem?_getD, List.getElem?_eq_getElem hk, Option.getD_some] at hcheck
  · intro hall k hk
    rw [List.getD_eq_getElem?_getD, List.getElem?_eq_getElem hk, Option.getD_some]
    exact hall _ (List.getElem_mem hk)

end

end QuorumCert

/-- The certificate read from any bytes: both ways of verifying it give the same answer,
whatever the order in which the pool works, and it is yes exactly for a majority of ids with
valid signatures only. -/
theorem certificate_checks_agree (C : Crypto) (c : ReplicaConfig) (F : SigFormat)
    (bytes rest : List UInt8) (qc : QuorumCert) (hc : 1 ≤ c.nmajority)
    (hqc : (QuorumCert.unserialize F).run bytes = some (qc, rest)) :
    (∀ order : List ℕ, order.Perm (List.range qc.rids.ids.length) →
      qc.verifyAsync C c order = some (qc.verify C c)) ∧
    (qc.verify C c = true ↔ c.nmajority ≤ (qc.sigs.map Prod.fst).toFinset.card ∧
      ∀ e ∈ qc.sigs, C.verifySig e.1 qc.objHash e.2 = true) := by
  refine ⟨fun order horder => QuorumCert.verifyAsync_eq hc hqc horder, ?_⟩
  rw [QuorumCert.verify_eq_tasks, Bool.and_eq_true, decide_eq_true_iff,
    QuorumCert.tasks_all_iff hqc, List.toFinset_card_of_nodup (QuorumCert.unserialize_keys hqc).1,
    List.length_map]

def sampleCert : List UInt8 := ((QuorumCert.sample 5).serialize .sample).getD []

theorem certificate_checks_agree_sample :
    ((QuorumCert.unserialize .sample).run sampleCert).map Prod.fst = some (.sample 5) ∧
      (QuorumCert.sample 5).verifyAsync .sample (Setup.four 0).config [2, 0, 1] = some true := by
  have hread : (QuorumCert.unserialize .sample).run sampleCert = some (.sample 5, []) := by
    decide +kernel
  refine ⟨by rw [hread]; rfl, ?_⟩
  rw [(certificate_checks_agree .sample (Setup.four 0).config .sample sampleCert [] (.sample 5)
    (by decide) hread).1 [2, 0, 1] (by decide)]
  decide

end AvaHotstuff
