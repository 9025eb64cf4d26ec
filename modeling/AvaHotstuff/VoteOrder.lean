import AvaHotstuff.Delivery

set_option autoImplicit false

namespace AvaHotstuff

namespace Ledger
variable {G : Guard}

/-- Whatever is voted for has been passed to `update` before. -/
structure UpdatesFirst (L : Ledger) : Prop where
  opined : ∀ h k, Event.opinion h k ∈ L.log → Event.updated h ∈ L.log
  cast : ∀ l h r, L.log = l ++ Event.vote h :: r → Event.updated h ∈ l

theorem UpdatesFirst.append {L M : Ledger} (U : UpdatesFirst L) (es : List Event)
    (hlog : M.log = L.log ++ es)
    (ho : ∀ h k, Event.opinion h k ∈ es → Event.updated h ∈ L.log)
    (hv : ∀ h, Event.vote h ∈ es → Event.updated h ∈ L.log) : UpdatesFirst M := by
  constructor
  · intro h k hh
    rw [hlog] at hh ⊢
    apply List.mem_append_left
    rcases List.mem_append.mp hh with hh | hh
    · exact U.opined h k hh
    · exact ho h k hh
  · intro l h r hr
    rw [hlog] at hr
    rcases List.append_eq_append_iff.mp hr with ⟨as, rfl, hes⟩ | ⟨bs, hL, hes⟩
    · apply List.mem_append_left
      apply hv
      rw [hes]
      exact List.mem_append_right _ (List.mem_cons_self ..)
    · cases bs with
      | nil =>
        rw [List.append_nil] at hL
        rw [← hL]
        apply hv
        rw [← show Event.vote h :: r = es from hes]
        exact List.mem_cons_self ..
      | cons b bs =>
        obtain ⟨rfl, -⟩ := List.cons.inj hes
        exact U.cast l h bs hL

theorem UpdatesFirst.append_commits {L M : Ledger} (U : UpdatesFirst L) {es : List Event}
    (hlog : M.log = L.log ++ es) (hes : ∀ e ∈ es, e.commits = true) : UpdatesFirst M := by
  refine U.append es hlog ?_ ?_
  · intro h k hh
    exact absurd (hes _ hh) (by simp [Event.commits])
  · intro h hh
    exact absurd (hes _ hh) (by simp [Event.commits])

theorem Step.updatesFirst {L M : Ledger} (hs : Step G L M)
    (hG : ∀ h, G.opine L h → Event.updated h ∈ L.log) (U : UpdatesFirst L) : UpdatesFirst M := by
  cases hs with
  | @opine h hv hop =>
    refine U.append [.opinion h L.bLock] rfl ?_ ?_
    · intro x k hx
      cases List.mem_singleton.mp hx
      exact hG h hop
    · intro x hx
      exact absurd (List.mem_singleton.mp hx) (by simp)
  | @note e he =>
    refine U.append [e] rfl ?_ ?_
    · intro x k hx
      rw [← List.mem_singleton.mp hx] at he
      exact he.elim
    · intro x hx
      rw [← List.mem_singleton.mp hx] at he
      obtain ⟨k, hk⟩ := he
      exact U.opined x k hk
  | @advance h n =>
    obtain ⟨es, hlog, hes⟩ := L.advance_log h n
    exact U.append_commits hlog hes
  | @finishMc cid =>
    obtain ⟨es, hlog, hes⟩ := L.finishMc_log cid
    exact U.append_commits hlog hes
  | store => exact ⟨U.opined, U.cast⟩
  | link => exact ⟨U.opined, U.cast⟩
  | deliver => exact ⟨U.opined, U.cast⟩
  | lock => exact ⟨U.opined, U.cast⟩
  | disarm => exact ⟨U.opined, U.cast⟩

end Ledger

theorem Replica.exec_updatesFirst {C : Crypto} {s : Replica} {op : Op} (w : s.tree.Wf)
    (hop : ∀ h, op ≠ .receiveProposal s.id h) (U : s.ledger.UpdatesFirst) :
    (s.exec C op).1.ledger.UpdatesFirst := by
  refine (Replica.exec_steps C w op).invariant U ?_
  intro L M hstep U
  refine hstep.updatesFirst ?_ U
  intro h ho
  rcases ho with ⟨-, hu⟩ | hself
  · exact hu
  · exact absurd hself (hop h)

namespace Node
variable {C : Crypto} {P : Policy}

/-- A move leaves the core alone or makes one call on it; a proposal that is passed to the
core was waiting for it. -/
theorem Move.core_cases {x y : Node × List Pending} (hm : Move C P x y) :
    y.1.core = x.1.core ∨ ∃ op, y.1.core = x.1.core.step C op ∧
      ∀ proposer h, op = .receiveProposal proposer h → ∃ p ∈ live x, ∃ prop : Proposal,
        p.cont = .proposal prop ∧ prop.proposer = proposer := by
  cases hm with
  | @call n ps op hop hm =>
    refine .inr ⟨op, call_core _ n op, ?_⟩
    rintro proposer h rfl
    exact absurd hop (by simp [Op.direct])
  | @propose n ps prop =>
    refine .inr ⟨_, call_core _ n _, ?_⟩
    rintro proposer h ⟨⟩
    exact ⟨_, List.mem_cons_self .., prop, rfl, rfl⟩
  | @fail n ps h valid u e hu =>
    exact .inr ⟨.deliverBlk h, Replica.deliver_step C hu, fun _ _ heq => absurd heq (by simp)⟩
  | @mark n ps h valid u hP hu =>
    refine .inr ⟨.deliverBlk h, ?_, fun _ _ heq => absurd heq (by simp)⟩
    rw [settle_core]
    exact Replica.deliver_step C hu
  | refuse => exact .inl (settle_core ..)
  | _ => exact .inl rfl

def foreign (id : ReplicaID) : Policy :=
  ⟨fun _ _ => True, fun _ => True, fun prop => prop.proposer ≠ id⟩

theorem updatesFirst_move {id : ReplicaID} {x y : Node × List Pending}
    (hm : Move C (foreign id) x y) (S : Sound (foreign id) x) (hid : x.1.core.id = id)
    (U : x.1.core.ledger.UpdatesFirst) :
    y.1.core.id = id ∧ y.1.core.ledger.UpdatesFirst := by
  rcases hm.core_cases with hsame | ⟨op, hcore, hprop⟩
  · rw [hsame]
    exact ⟨hid, U⟩
  · rw [hcore]
    refine ⟨(Replica.exec_steps C S.voting.wf op).rid.trans hid, ?_⟩
    refine Replica.exec_updatesFirst S.voting.wf ?_ U
    rintro h rfl
    obtain ⟨p, hp, prop, hc, hown⟩ := hprop _ h rfl
    exact (S.promised p hp prop hc).1 (hown.trans hid)

/-- As long as no message that is passed on names the replica itself as the proposer, each
vote comes after `update` has been run with its block. -/
theorem vote_after_update (C : Crypto) (c : Setup) (n : Node)
    (h : Runs.Reach (fun n i => i.Within C (foreign c.id) n) (step C) (start c) n)
    (l r : List Event) (x : Hash) (hr : n.core.trace = l ++ Event.vote x :: r) :
    Event.updated x ∈ l := by
  have hstart : (start c).core.ledger.UpdatesFirst :=
    ⟨fun _ _ hh => absurd hh List.not_mem_nil,
      fun l h r hr => absurd hr (by simp [start, Setup.start, Replica.ledger])⟩
  have hinv := invariant_of_moves (I := fun x => Sound (foreign c.id) x ∧ x.1.core.id = c.id ∧
    x.1.core.ledger.UpdatesFirst) h ⟨start_sound c, rfl, hstart⟩
    fun _ _ hm hx => ⟨hx.1.move hm, updatesFirst_move hm hx.1 hx.2.1 hx.2.2⟩
  have hlog : n.core.ledger.log =
      l.filter Event.onLedger ++ Event.vote x :: r.filter Event.onLedger := by
    change n.core.trace.filter Event.onLedger = _
    rw [hr, List.filter_append]
    rfl
  exact List.mem_of_mem_filter (hinv.2.2.cast _ x _ hlog)

instance (id : ReplicaID) (n : Node) : DecidablePred ((foreign id).make n) :=
  fun _ => .isTrue trivial

instance (id : ReplicaID) : DecidablePred (foreign id).finish := fun _ => .isTrue trivial

instance (id : ReplicaID) : DecidablePred (foreign id).propose :=
  fun prop => inferInstanceAs (Decidable (prop.proposer ≠ id))

def twoBlks : List Input := proposed (.sample 0 0 7 []) ++ proposed (.sample 1 1 8 [])

def voting : Node := Runs.run (step .sample) (start (.four 1)) twoBlks

theorem vote_after_update_voting : Event.vote 3 ∈ voting.core.trace ∧ ∃ l r,
    voting.core.trace = l ++ Event.vote 3 :: r ∧ Event.updated 3 ∈ l := by
  have hvote : Event.vote 3 ∈ voting.core.trace := by decide +kernel
  have hreach : Runs.Reach (fun n i => i.Within .sample (foreign (Setup.four 1).id) n)
      (step .sample) (start (.four 1)) voting := Runs.reach_run _ .init (by decide +kernel)
  obtain ⟨l, r, hr⟩ := List.append_of_mem hvote
  exact ⟨hvote, l, r, hr, vote_after_update .sample (.four 1) voting hreach l r 3 hr⟩

/-- Replica 2 sends a third block in the name of replica 1, as from another cluster. -/
def framed : Node := Runs.run (step .sample) voting
  [.propose 2 ⟨1, 0, 1, 0, 0, 0, ∅, 0⟩ (.sample 3 3 9 []) 0, .resume 0, .verified 7, .resume 1,
    .resume 0]

/-- The vote is cast without the lock on block 1 that `update` would have set. -/
theorem vote_without_update :
    Runs.Reach (fun n i => i.Within .sample .any n) (step .sample) (start (.four 1)) framed ∧
    Event.vote 7 ∈ framed.core.trace ∧ Event.updated 7 ∉ framed.core.trace ∧
    framed.core.bLock = 0 ∧ (framed.core.update 7).1.bLock = 1 := by
  refine ⟨?_, by decide +kernel⟩
  have hvoting : Runs.Reach (fun n i => i.Within .sample .any n) (step .sample) (start (.four 1))
      voting := Runs.reach_run _ .init (by decide +kernel)
  exact Runs.reach_run _ hvoting (by decide +kernel)

end Node

end AvaHotstuff
