import AvaHotstuff.Voting
import AvaHotstuff.Quorum

set_option autoImplicit false

/-!
# The replicas of one cluster

A state gives the honest replicas their records. The faulty ones have none: what
they do shows only in the blocks and messages that the honest ones are handed.
-/
namespace AvaHotstuff
open Ancestry

/-- The hash that a replica puts its signature on when it records the event. The part
certificates of votes and of complaints sign the same thing. -/
def Event.signs : Event → Option Hash
  | .vote h => some h
  | .lcomplain c _ => some c.cert.objHash
  | .rcomplain c => some c.cert.objHash
  | _ => none

theorem Event.signs_of_commits {e : Event} (h : e.commits = true) : e.signs = none := by
  cases e with
  | consensus b => rfl
  | execute k b => rfl
  | decide fin key val => rfl
  | _ => exact absurd h (by simp [Event.commits])

def Replica.Signed (r : Replica) (h : Hash) : Prop := ∃ e ∈ r.trace, e.signs = some h

def Replica.Voted (r : Replica) (h : Hash) : Prop := Event.vote h ∈ r.trace

abbrev Cluster (n : ℕ) := Fin n → Replica

namespace Cluster
variable {n : ℕ}

def start (c : Fin n → Setup) : Cluster n := fun i =>
  ({ c i with
    id := i
    config := ⟨(c i).config.replicaMap, n, Quorum.majority n⟩ } : Setup).start

def step (C : Crypto) (s : Cluster n) (a : Fin n × Op) : Cluster n :=
  Function.update s a.1 ((s a.1).step C a.2)

section
variable {C : Crypto} {i : Fin n} {op : Op}

theorem step_self (s : Cluster n) : step C s (i, op) i = ((s i).exec C op).1 :=
  Function.update_self ..

theorem step_other (s : Cluster n) {j : Fin n} (hj : j ≠ i) : step C s (i, op) j = s j :=
  Function.update_of_ne hj ..

end

/-- Enough replicas have signed the hash; the faulty ones may always have. -/
def Certified (byz : Finset (Fin n)) (s : Cluster n) (h : Hash) : Prop :=
  ∃ Q : Finset (Fin n), Quorum.majority n ≤ Q.card ∧ ∀ i ∈ Q, i ∉ byz → (s i).Signed h

/-- A hash names one block body at all honest replicas. -/
def CollisionFree (byz : Finset (Fin n)) (s : Cluster n) : Prop :=
  ∀ i j, i ∉ byz → j ∉ byz → ∀ h b b', (s i).storage.blkCache h = some b →
    (s j).storage.blkCache h = some b' → b.body = b'.body

end Cluster

theorem mem_ledger_log {r : Replica} {e : Event} (he : e.onLedger = true) :
    e ∈ r.ledger.log ↔ e ∈ r.trace := by
  change e ∈ r.trace.filter Event.onLedger ↔ _
  rw [List.mem_filter]
  exact and_iff_left he

theorem Replica.signed_iff {r : Replica} {h : Hash} :
    r.Signed h ↔ ∃ e ∈ r.ledger.log, e.signs = some h := by
  constructor
  · rintro ⟨e, he, hs⟩
    refine ⟨e, (mem_ledger_log ?_).mpr he, hs⟩
    cases e <;> first | rfl | exact absurd hs (by simp [Event.signs])
  · rintro ⟨e, he, hs⟩
    exact ⟨e, (List.mem_filter.mp he).1, hs⟩

theorem Replica.voted_iff {r : Replica} {h : Hash} :
    r.Voted h ↔ Event.vote h ∈ r.ledger.log := (mem_ledger_log rfl).symm

theorem Replica.Voted.signed {r : Replica} {h : Hash} (hv : r.Voted h) : r.Signed h :=
  ⟨_, hv, rfl⟩

namespace Ledger
variable {G : Guard}

theorem Step.signs_cases {L M : Ledger} (hs : Step G L M) {e : Event} (he : e ∈ M.log)
    {h : Hash} (hsig : e.signs = some h) : e ∈ L.log ∨ e = .vote h ∨ G.complain h := by
  have hcommit : ∀ es, M.log = L.log ++ es → (∀ e ∈ es, Event.commits e = true) →
      e ∈ L.log := by
    intro es hlog hes
    rw [hlog] at he
    rcases List.mem_append.mp he with he | he
    · exact he
    · rw [Event.signs_of_commits (hes e he)] at hsig
      exact absurd hsig (by simp)
  cases hs with
  | opine =>
    rcases List.mem_append.mp he with he | he
    · exact .inl he
    · rw [List.mem_singleton.mp he] at hsig
      exact absurd hsig (by simp [Event.signs])
  | @note x hx =>
    rcases List.mem_append.mp he with he | he
    · exact .inl he
    · obtain rfl := List.mem_singleton.mp he
      cases e with
      | vote b =>
        obtain rfl : b = h := Option.some.inj hsig
        exact .inr (.inl rfl)
      | lcomplain c dsts =>
        obtain rfl : c.cert.objHash = h := Option.some.inj hsig
        exact .inr (.inr hx)
      | rcomplain c =>
        obtain rfl : c.cert.objHash = h := Option.some.inj hsig
        exact .inr (.inr hx)
      | _ => exact absurd hsig (by simp [Event.signs])
  | @advance x m =>
    obtain ⟨es, hlog, hes⟩ := L.advance_log x m
    exact .inl (hcommit es hlog hes)
  | @finishMc cid =>
    obtain ⟨es, hlog, hes⟩ := L.finishMc_log cid
    exact .inl (hcommit es hlog hes)
  | _ => exact .inl he

theorem Steps.signs_cases {L M : Ledger} (hs : Steps G L M) {e : Event} (he : e ∈ M.log)
    {h : Hash} (hsig : e.signs = some h) : e ∈ L.log ∨ e = .vote h ∨ G.complain h := by
  refine hs.invariant (I := fun N => e ∈ N.log → e ∈ L.log ∨ e = .vote h ∨ G.complain h)
    .inl ?_ he
  intro N N' hstep ih hN'
  rcases hstep.signs_cases hN' hsig with h | h | h
  · exact ih h
  · exact .inr (.inl h)
  · exact .inr (.inr h)

end Ledger

/-- The blocks on which two replicas agree once no hash is ambiguous. -/
theorem Tree.agree {t t' : Tree} (w : t.Wf) (w' : t'.Wf)
    (hbody : ∀ h n n', t h = some n → t' h = some n' → n.body = n'.body) {h : Hash}
    (hd : t.delivered h = true) (hd' : t'.delivered h = true) :
    t.parent0 h = t'.parent0 h ∧ t.qcRef h = t'.qcRef h ∧ t.height h = t'.height h := by
  have hlinks : ∀ h, t.delivered h = true → t'.delivered h = true →
      t.parent0 h = t'.parent0 h ∧ t.qcRef h = t'.qcRef h := by
    intro h hd hd'
    obtain ⟨n, hn, hnd⟩ := Tree.exists_of_delivered hd
    obtain ⟨n', hn', hnd'⟩ := Tree.exists_of_delivered hd'
    rw [Tree.parent0_of hn, Tree.parent0_of hn', Tree.qcRef_of hn, Tree.qcRef_of hn']
    by_cases h0 : h = b0
    · subst h
      obtain ⟨r, hr, -, hp, -, hq⟩ := w.genesis
      obtain ⟨r', hr', -, hp', -, hq'⟩ := w'.genesis
      obtain rfl : r = n := Option.some.inj (hr.symm.trans hn)
      obtain rfl : r' = n' := Option.some.inj (hr'.symm.trans hn')
      rw [hp, hp', hq, hq']
      exact ⟨rfl, rfl⟩
    · have l := w.linked h n hn hnd h0
      have l' := w'.linked h n' hn' hnd' h0
      rw [l.parents, l'.parents, l.qcRef, l'.qcRef, hbody h n n' hn hn']
      exact ⟨rfl, rfl⟩
  refine ⟨(hlinks h hd hd').1, (hlinks h hd hd').2, ?_⟩
  induction hk : t.height h generalizing h with
  | zero =>
    rw [w.ranked.eq_root hd hk]
    exact w'.height_genesis.symm
  | succ k ih =>
    have h0 : h ≠ b0 := by
      rintro rfl
      rw [w.height_genesis] at hk
      omega
    obtain ⟨p, hp, hpd, hph⟩ := w.ranked.up h hd h0
    have hp' : t'.parent0 h = some p := (hlinks h hd hd').1.symm.trans hp
    obtain ⟨hpd', hph'⟩ := w'.ranked.parent_spec hd' hp'
    have := ih hpd hpd' (by omega)
    omega

end AvaHotstuff
