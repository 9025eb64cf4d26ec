import AvaHotstuff.FixedProposer

set_option autoImplicit false

namespace AvaHotstuff

/-- A replica with the queue `cmd_pending`. A callback is known by the number of the
`exec_command` call that it was passed to. -/
structure Clients where
  core : Replica
  cmdPending : List (ClientCommandVars × ℕ)
  issued : ℕ

namespace Clients

inductive Input where
  | execCommand (ccv : ClientCommandVars)
  | dequeue
  | doDecide (fin : Finality) (key val : ℤ)
deriving DecidableEq

def start (c : Setup) : Clients := ⟨c.start, [], 0⟩

def execCommand (st : Clients) (ccv : ClientCommandVars) : Clients :=
  { st with cmdPending := st.cmdPending ++ [(ccv, st.issued)], issued := st.issued + 1 }

def dequeue (st : Clients) : Clients :=
  match st.cmdPending with
  | [] => st
  | (ccv, cb) :: rest =>
    { st with core := st.core.receiveCommand ccv cb, cmdPending := rest }

def step (st : Clients) : Input → Clients
  | .execCommand ccv => st.execCommand ccv
  | .dequeue => st.dequeue
  | .doDecide fin key val => { st with core := st.core.doDecide fin key val }

end Clients

def Event.calls (cb : ℕ) : Event → Bool
  | .callback x _ => x == cb
  | _ => false

namespace Replica
variable (s : Replica) (cb : ℕ)

def invoked : ℕ := s.trace.countP (Event.calls cb)

/-- The same, and the entries of `decision_waiting` that hold the callback. -/
def owed : ℕ := s.invoked cb + (s.decisionWaiting.map Prod.snd).count cb

theorem emit_invoked (e : Event) :
    (s.emit e).invoked cb = s.invoked cb + if e.calls cb then 1 else 0 := by
  unfold invoked
  rw [emit_trace, List.countP_append, List.countP_singleton]

theorem answerClient_owed (fin : Finality) : (s.answerClient fin).owed cb ≤ s.owed cb := by
  unfold answerClient
  split
  · exact le_refl _
  rename_i x hx
  have hmem : (fin.cmdHash, x) ∈ s.decisionWaiting := by
    obtain ⟨l₁, l₂, hl, -⟩ := List.lookup_eq_some_iff.mp hx
    rw [hl]
    exact List.mem_append_right _ (List.mem_cons_self ..)
  unfold owed
  change (s.emit (.callback x fin)).invoked cb + _ ≤ _
  rw [emit_invoked]
  have hsub : ((s.decisionWaiting.filter fun e => decide (e.1 ≠ fin.cmdHash)).map
      Prod.snd).Sublist (s.decisionWaiting.map Prod.snd) := List.filter_sublist.map _
  by_cases hcb : x = cb
  · subst x
    rw [if_pos (by simp [Event.calls])]
    have hfew : ((s.decisionWaiting.filter fun e => decide (e.1 ≠ fin.cmdHash)).map
        Prod.snd).count cb < (s.decisionWaiting.map Prod.snd).count cb := by
      have hperm := (List.filter_append_perm (fun e => decide (e.1 ≠ fin.cmdHash))
        s.decisionWaiting).map Prod.snd
      rw [← hperm.count_eq cb, List.map_append, List.count_append]
      have hin : cb ∈ (s.decisionWaiting.filter
          fun e => !decide (e.1 ≠ fin.cmdHash)).map Prod.snd :=
        List.mem_map.mpr ⟨_, List.mem_filter.mpr ⟨hmem, by simp⟩, rfl⟩
      have hpos := List.count_pos_iff.mpr hin
      omega
    change s.invoked cb + 1 + ((s.decisionWaiting.filter
      fun e => decide (e.1 ≠ fin.cmdHash)).map Prod.snd).count cb ≤ _
    omega
  · rw [if_neg (by simp [Event.calls, hcb])]
    exact Nat.add_le_add_left (hsub.count_le cb) _

theorem answerClient_invoked_le (fin : Finality) :
    s.invoked cb ≤ (s.answerClient fin).invoked cb := by
  unfold answerClient
  split
  · exact le_refl _
  · change _ ≤ (s.emit _).invoked cb
    rw [emit_invoked]
    omega

theorem answerClient_invoked {fin : Finality}
    (h : s.decisionWaiting.lookup fin.cmdHash = some cb) :
    (s.answerClient fin).invoked cb = s.invoked cb + 1 := by
  unfold answerClient
  rw [h]
  change (s.emit _).invoked cb = _
  rw [emit_invoked, if_pos (by simp [Event.calls])]

theorem sendReconfigAck_invoked (fin : Finality) (r : Recs) :
    (s.sendReconfigAck fin r).invoked cb = (s.answerClient fin).invoked cb ∧
      (s.sendReconfigAck fin r).owed cb = (s.answerClient fin).owed cb := by
  have h : (s.sendReconfigAck fin r).invoked cb = (s.answerClient fin).invoked cb ∧
      (s.sendReconfigAck fin r).decisionWaiting = (s.answerClient fin).decisionWaiting := by
    unfold sendReconfigAck
    simp only []
    split
    · refine ⟨?_, rfl⟩
      rw [emit_invoked]
      simp [Event.calls]
    · exact ⟨rfl, rfl⟩
  refine ⟨h.1, ?_⟩
  unfold owed
  rw [h.1, h.2]

theorem doDecide_owed (fin : Finality) (key val : ℤ) :
    (s.doDecide fin key val).owed cb ≤ s.owed cb := by
  unfold doDecide
  refine (answerClient_owed _ cb fin).trans ?_
  unfold owed
  rw [emit_invoked]
  exact le_refl _

theorem waitDecision_owed (x : Hash) (cb' : ℕ) :
    (s.waitDecision x cb').owed cb = s.owed cb + if cb' = cb then 1 else 0 := by
  unfold waitDecision
  split
  · unfold owed
    change s.invoked cb + ((x, cb') :: s.decisionWaiting |>.map Prod.snd).count cb = _
    rw [List.map_cons, List.count_cons]
    simp only [beq_iff_eq]
    omega
  · unfold owed
    rw [emit_invoked]
    simp only [Event.calls, beq_iff_eq]
    change s.invoked cb + _ + (s.decisionWaiting.map Prod.snd).count cb = _
    omega

theorem waitDecision_invoked_le (x : Hash) (cb' : ℕ) :
    s.invoked cb ≤ (s.waitDecision x cb').invoked cb := by
  unfold waitDecision
  split
  · exact le_refl _
  · rw [emit_invoked]
    omega

theorem sendReconfigAck_invoked_le (fin : Finality) (r : Recs) :
    s.invoked cb ≤ (s.sendReconfigAck fin r).invoked cb := by
  rw [(s.sendReconfigAck_invoked cb fin r).1]
  exact s.answerClient_invoked_le cb fin

theorem receiveCommand_owed (ccv : ClientCommandVars) (cb' : ℕ) :
    (s.receiveCommand ccv cb').owed cb ≤ s.owed cb + if cb' = cb then 1 else 0 := by
  rw [← waitDecision_owed s cb ccv.cmdHash cb']
  unfold receiveCommand
  simp only []
  generalize s.waitDecision ccv.cmdHash cb' = u
  have hack : ∀ fin r, (u.sendReconfigAck fin r).owed cb ≤ u.owed cb := by
    intro fin r
    rw [(u.sendReconfigAck_invoked cb fin r).2]
    exact u.answerClient_owed cb fin
  split
  · refine (answerClient_owed _ cb _).trans ?_
    split
    · exact hack _ _
    · exact le_refl _
  · split
    · exact hack _ _
    · exact le_refl _

def answeredAtOnce (ccv : ClientCommandVars) : Prop :=
  15 < ccv.key.tmod 100 ∨ 0 ≤ ccv.reconfigMode ∨
    (s.decisionWaiting.lookup ccv.cmdHash).isSome = true

theorem receiveCommand_invoked {ccv : ClientCommandVars} (h : s.answeredAtOnce ccv) :
    s.invoked cb < (s.receiveCommand ccv cb).invoked cb := by
  have hwait : s.invoked cb < (s.waitDecision ccv.cmdHash cb).invoked cb ∨
      s.decisionWaiting.lookup ccv.cmdHash = none ∧
        (s.waitDecision ccv.cmdHash cb).decisionWaiting.lookup ccv.cmdHash = some cb := by
    unfold waitDecision
    cases hold : s.decisionWaiting.lookup ccv.cmdHash with
    | none =>
      right
      refine ⟨rfl, ?_⟩
      change ((ccv.cmdHash, cb) :: s.decisionWaiting).lookup ccv.cmdHash = some cb
      rw [List.lookup_cons, beq_self_eq_true]
    | some x =>
      left
      simp only [emit_invoked, Event.calls, beq_self_eq_true, if_true]
      omega
  have hle := s.waitDecision_invoked_le cb ccv.cmdHash cb
  unfold receiveCommand
  simp only []
  generalize s.waitDecision ccv.cmdHash cb = u at hwait hle ⊢
  -- the callback is invoked by the first of the two calls that looks for the command
  by_cases hrec : 0 ≤ ccv.reconfigMode
  · rw [if_pos hrec]
    generalize hv : u.sendReconfigAck _ _ = v
    have hnow : s.invoked cb < v.invoked cb := by
      rcases hwait with hlt | ⟨-, hfound⟩
      · rw [← hv]
        exact lt_of_lt_of_le hlt (u.sendReconfigAck_invoked_le cb _ _)
      · rw [← hv, (u.sendReconfigAck_invoked cb _ _).1, answerClient_invoked u cb hfound]
        omega
    split
    · exact lt_of_lt_of_le hnow (answerClient_invoked_le _ cb _)
    · exact hnow
  · rw [if_neg hrec]
    rcases hwait with hlt | ⟨hnew, hfound⟩
    · split
      · exact lt_of_lt_of_le hlt (answerClient_invoked_le _ cb _)
      · exact hlt
    · have hread : 15 < ccv.key.tmod 100 := by
        rcases h with hread | hmode | hrepeat
        · exact hread
        · exact absurd hmode hrec
        · rw [hnew] at hrepeat
          cases hrepeat
      rw [if_pos hread, answerClient_invoked u cb hfound]
      omega

end Replica

namespace Clients

/-- Every callback is queued, waiting or invoked, and once at most. -/
structure Fair (st : Clients) : Prop where
  once : ∀ cb, st.core.owed cb + (st.cmdPending.map Prod.snd).count cb ≤ 1
  fresh : ∀ cb, st.issued ≤ cb → st.core.owed cb + (st.cmdPending.map Prod.snd).count cb = 0

theorem Fair.of_le {st u : Clients} (h : Fair st) (hissued : u.issued = st.issued)
    (hle : ∀ cb, u.core.owed cb + (u.cmdPending.map Prod.snd).count cb ≤
      st.core.owed cb + (st.cmdPending.map Prod.snd).count cb) : Fair u := by
  refine ⟨fun cb => (hle cb).trans (h.once cb), ?_⟩
  intro cb hcb
  rw [hissued] at hcb
  have hzero := h.fresh cb hcb
  have hbound := hle cb
  omega

theorem Fair.step {st : Clients} (h : Fair st) (i : Input) : Fair (st.step i) := by
  cases i with
  | execCommand ccv =>
    have hcount : ∀ cb, ((st.execCommand ccv).cmdPending.map Prod.snd).count cb =
        (st.cmdPending.map Prod.snd).count cb + if st.issued = cb then 1 else 0 := by
      intro cb
      unfold execCommand
      simp only [List.map_append, List.count_append, List.map_cons, List.map_nil,
        List.count_singleton, beq_iff_eq]
    constructor
    · intro cb
      change st.core.owed cb + ((st.execCommand ccv).cmdPending.map Prod.snd).count cb ≤ 1
      rw [hcount]
      have hold := h.once cb
      split
      · rename_i heq
        have hnew := h.fresh cb (le_of_eq heq)
        omega
      · omega
    · intro cb hcb
      change st.issued + 1 ≤ cb at hcb
      change st.core.owed cb + ((st.execCommand ccv).cmdPending.map Prod.snd).count cb = 0
      rw [hcount, if_neg (by omega)]
      have hold := h.fresh cb (by omega)
      omega
  | dequeue =>
    change Fair st.dequeue
    unfold dequeue
    split
    · exact h
    · rename_i ccv x rest hpending
      refine @Fair.of_le st ⟨st.core.receiveCommand ccv x, rest, st.issued⟩ h rfl ?_
      intro cb
      have howed := st.core.receiveCommand_owed cb ccv x
      rw [hpending, List.map_cons, List.count_cons]
      simp only [beq_iff_eq]
      omega
  | doDecide fin key val =>
    refine @Fair.of_le st (st.step (.doDecide fin key val)) h rfl ?_
    intro cb
    exact Nat.add_le_add_right (st.core.doDecide_owed cb fin key val) _

theorem start_fair (c : Setup) : Fair (start c) := by
  constructor
  · intro cb
    exact Nat.zero_le 1
  · intro cb _
    rfl

theorem fair_of_reach {c : Setup} {st : Clients}
    (h : Runs.Reach (fun _ _ => True) step (start c) st) : Fair st :=
  h.invariant Fair (start_fair c) fun _ i hst _ => hst.step i

end Clients

/-- No callback is invoked twice. The one of a read, of a reconfiguration or of a command that
is waited for already has not been invoked before the command is dequeued, and has been once
after that. -/
theorem callbacks_once (c : Setup) (st : Clients)
    (h : Runs.Reach (fun _ _ => True) Clients.step (Clients.start c) st) :
    (∀ cb, st.core.invoked cb ≤ 1) ∧
    ∀ ccv cb rest, st.cmdPending = (ccv, cb) :: rest → st.core.answeredAtOnce ccv →
      st.core.invoked cb = 0 ∧ st.dequeue.core.invoked cb = 1 := by
  have hfair := Clients.fair_of_reach h
  have hle : ∀ (u : Clients) (cb : ℕ), u.Fair → u.core.invoked cb ≤ 1 := by
    intro u cb hu
    have honce := hu.once cb
    unfold Replica.owed at honce
    omega
  refine ⟨fun cb => hle st cb hfair, ?_⟩
  intro ccv cb rest hpending hnow
  have honce := hfair.once cb
  rw [hpending, List.map_cons, List.count_cons_self] at honce
  unfold Replica.owed at honce
  have hafter := hle (st.step .dequeue) cb (hfair.step .dequeue)
  change st.dequeue.core.invoked cb ≤ 1 at hafter
  have hlt : st.core.invoked cb < st.dequeue.core.invoked cb := by
    unfold Clients.dequeue
    rw [hpending]
    exact st.core.receiveCommand_invoked cb hnow
  omega

def repeatedWrite : List Clients.Input :=
  [.execCommand ⟨7, 1, 2, 0, 0, -1⟩, .execCommand ⟨7, 1, 2, 0, 0, -1⟩, .dequeue, .dequeue,
    .doDecide ⟨0, 1, 0, 1, 7, 1⟩ 1 2, .doDecide ⟨0, 1, 0, 2, 7, 3⟩ 1 2]

theorem callbacks_once_repeated :
    (Runs.run Clients.step (.start (.four 0)) (repeatedWrite.take 3)).core.invoked 1 = 0 ∧
    (Runs.run Clients.step (.start (.four 0)) (repeatedWrite.take 3)).dequeue.core.invoked 1 = 1 ∧
    (Runs.run Clients.step (.start (.four 0)) repeatedWrite).core.invoked 0 = 1 ∧
    (Runs.run Clients.step (.start (.four 0)) repeatedWrite).core.invoked 1 ≤ 1 := by
  have hthree := callbacks_once (.four 0) _ (Runs.reach_run (repeatedWrite.take 3) .init
    (Runs.admitted_of_mem _ fun _ _ _ => trivial))
  have hall := callbacks_once (.four 0) _ (Runs.reach_run repeatedWrite .init
    (Runs.admitted_of_mem _ fun _ _ _ => trivial))
  have hrepeat := hthree.2 ⟨7, 1, 2, 0, 0, -1⟩ 1 [] (by decide +kernel)
    (Or.inr (Or.inr (by decide +kernel)))
  exact ⟨hrepeat.1, hrepeat.2, by decide +kernel, hall.1 1⟩

end AvaHotstuff
