import AvaHotstuff.OwnChain

set_option autoImplicit false

namespace AvaHotstuff
open Ancestry

namespace FixedServer

/-- The calls of the pacemaker, and the votes that resolve its promises. -/
inductive Input where
  | beat (b : Batch)
  | vote (v : Vote)
  | rotate

def Input.beats : Input → List Batch
  | .beat b => [b]
  | .vote _ | .rotate => []

def Input.Verified (C : Crypto) : Input → Prop
  | .vote v => v.verify C = true
  | .beat _ | .rotate => True

def act (st : FixedServer) : Input → FixedServer
  | .beat b => st.beat b
  | .vote v => { st with core := (st.core.onReceiveVote v).1 }
  | .rotate => { st with core := st.core.rotate }

def due (st : FixedServer) : Option Batch :=
  match st.pm.pmQcFinish with
  | none => none
  | some (blk, b) => if blk ∈ st.core.qcWaiting then none else some b

def Fair (C : Crypto) (st : FixedServer) (i : Input) : Prop :=
  i.Verified C ∧ ∀ p ∈ (st.act i).pm.pmQcFinish, (st.act i).core.Proper C
    (.propose p.2.cmds p.2.keys p.2.vals [(st.act i).core.pmaker.hqcTail] [])

def certifies (st : FixedServer) (v : Vote) : Prop :=
  v.blkHash = st.pm.lastProposed ∧ st.core.config.nmajority ≤
    (insert v.voter (st.core.storage.ballot st.pm.lastProposed).2).card

/-- A beat is resolved while the replica is the proposer. If a further beat is pending then,
the next block is not certified by the vote of the replica alone. -/
def Released (st : FixedServer) : Input → Prop
  | .beat _ => st.pm.locked = false →
      st.core.config.nmajority ≤ (st.core.storage.ballot st.pm.lastProposed).2.card →
      st.core.pmaker.proposer = st.core.id
  | .vote v => st.pm.locked = true → st.certifies v →
      st.core.pmaker.proposer = st.core.id ∧
        (st.pm.pendingBeats = [] ∨ 2 ≤ st.core.config.nmajority)
  | .rotate => True

end FixedServer

/-- A replica with the batches of all calls of `beat`, and those whose promise has been
resolved. -/
structure Pacing where
  server : FixedServer
  beats : List Batch
  resolved : List Batch

namespace Pacing

def start (c : Setup) (blkSize : ℕ) : Pacing := ⟨.start c blkSize, [], []⟩

def step (C : Crypto) (P : Pacing) (i : FixedServer.Input) : Pacing :=
  let st := P.server.act i
  { server := st.qcFinish C
    beats := P.beats ++ i.beats
    resolved := P.resolved ++ st.due.toList }

/-- The lock is held for one beat, which waits for the certificate of `last_proposed`. -/
def LockHeld (P : Pacing) : Prop :=
  P.server.pm.locked = true → ∃ b,
    P.server.pm.pmQcFinish = some (P.server.pm.lastProposed, b) ∧
    P.server.pm.lastProposed ∈ P.server.core.qcWaiting ∧
    P.beats = P.resolved ++ b :: P.server.pm.pendingBeats

end Pacing

namespace Replica
variable {s : Replica}

theorem mem_onQcFinish_of_ne {b x : Hash} (h : x ∈ s.qcWaiting) (hne : x ≠ b) :
    x ∈ (s.onQcFinish b).qcWaiting := by
  unfold onQcFinish
  split
  · exact List.mem_filter.mpr ⟨h, decide_eq_true hne⟩
  · exact h

/-- Nobody stops waiting for a block unless the vote certifies it. -/
theorem onReceiveVote_waiting {v : Vote} {b : Hash} (hb : b ∈ s.qcWaiting)
    (hout : b ∉ (s.onReceiveVote v).1.qcWaiting) :
    v.blkHash = b ∧ s.config.nmajority ≤ (insert v.voter (s.storage.ballot b).2).card := by
  have hpoll := s.polling v
  generalize s.onReceiveVote v = r at hpoll hout
  cases hpoll with
  | absent | undelivered | full | again => exact absurd hb hout
  | mismatch hblk _ _ _ hu | counted hblk _ _ _ hu =>
    have k := addVote_added hblk
    rw [hu] at k
    rw [k.waiting] at hout
    exact absurd hb hout
  | @quorum blk u qc hblk _ _ hnew hu hlast =>
    have k := addVote_added hblk
    rw [hu] at k
    have hup : (u.updateHqc v.blkHash qc).qcWaiting = s.qcWaiting :=
      (congrArg Prod.fst (u.updateHqc_awaited v.blkHash qc)).trans k.waiting
    have heq : v.blkHash = b := by
      by_contra hne
      refine hout (mem_onQcFinish_of_ne ?_ (Ne.symm hne))
      rw [hup]
      exact hb
    refine ⟨heq, ?_⟩
    rw [← heq, ballot_of_cache hblk, Finset.card_insert_of_notMem hnew]
    exact Nat.le_of_eq hlast.symm

end Replica

namespace FixedServer
variable {C : Crypto} {st : FixedServer} {b : Batch} {bs : List Batch}

theorem scheduleNext_nil (h : st.pm.pendingBeats = []) : st.scheduleNext = st := by
  unfold scheduleNext
  rw [h]

theorem scheduleNext_of_locked (h : st.pm.locked = true) : st.scheduleNext = st := by
  unfold scheduleNext
  split
  · rfl
  · rw [if_pos h]

theorem scheduleNext_cons (h : st.pm.pendingBeats = b :: bs) (hlock : st.pm.locked = false) :
    st.scheduleNext =
      { core := st.core.asyncQcFinish st.pm.lastProposed
        pm := { st.pm with
          pendingBeats := bs
          pmQcFinish := some (st.pm.lastProposed, b)
          locked := true } } := by
  unfold scheduleNext
  rw [h]
  simp only [hlock, Bool.false_eq_true, if_false]

theorem beat_of_locked (h : st.pm.locked = true) :
    st.beat b = { st with pm := { st.pm with pendingBeats := st.pm.pendingBeats ++ [b] } } :=
  @scheduleNext_of_locked
    { st with pm := { st.pm with pendingBeats := st.pm.pendingBeats ++ [b] } } h

theorem beat_of_free (hlock : st.pm.locked = false) (hnil : st.pm.pendingBeats = []) :
    st.beat b =
      { core := st.core.asyncQcFinish st.pm.lastProposed
        pm := { st.pm with
          pendingBeats := []
          pmQcFinish := some (st.pm.lastProposed, b)
          locked := true } } := by
  refine @scheduleNext_cons
    { st with pm := { st.pm with pendingBeats := st.pm.pendingBeats ++ [b] } } b [] ?_ hlock
  change st.pm.pendingBeats ++ [b] = [b]
  rw [hnil]
  rfl

theorem qcFinish_of_none (h : st.due = none) : st.qcFinish C = st := by
  unfold due at h
  unfold qcFinish
  split
  · rfl
  rename_i blk b hfinish
  rw [hfinish] at h
  simp only [] at h
  split at h
  · rename_i hmem
    rw [if_pos hmem]
  · cases h

theorem due_some (h : st.due = some b) :
    ∃ blk, st.pm.pmQcFinish = some (blk, b) ∧ blk ∉ st.core.qcWaiting := by
  unfold due at h
  split at h
  · cases h
  rename_i blk b' hfinish
  split at h
  · cases h
  · rename_i hmem
    cases h
    exact ⟨blk, hfinish, hmem⟩

theorem qcFinish_of_some (h : st.due = some b) :
    st.qcFinish C = ({ st with pm := { st.pm with pmQcFinish := none } }).beaten C b := by
  obtain ⟨blk, hfinish, hmem⟩ := due_some h
  unfold qcFinish
  rw [hfinish]
  simp only [hmem, if_false]

theorem onPropose_of_none (st : FixedServer) {u : Replica}
    (h : st.core.onPropose C b.cmds b.keys b.vals [st.core.pmaker.hqcTail] [] = (u, none)) :
    st.onPropose C b = scheduleNext ⟨u, { st.pm with
      lastProposed := C.getHash (st.core.tailBlock b.cmds b.keys b.vals []).body
      locked := false }⟩ := by
  unfold onPropose
  simp only [h]
  rfl

/-- The lock and the promise go together. -/
structure Ready (st : FixedServer) : Prop where
  own : st.core.OwnChain
  last : st.core.delivered st.pm.lastProposed = true
  free : st.pm.locked = false → st.pm.pmQcFinish = none ∧ st.pm.pendingBeats = []
  held : st.pm.locked = true → ∃ b, st.pm.pmQcFinish = some (st.pm.lastProposed, b)

/-- No promise is resolved that has not been called back. -/
structure Paced (st : FixedServer) : Prop extends Ready st where
  waits : st.pm.locked = true → st.pm.lastProposed ∈ st.core.qcWaiting

theorem Ready.paced (R : st.Ready) (h : st.due = none) : st.Paced := by
  refine ⟨R, ?_⟩
  intro hlock
  obtain ⟨b, hb⟩ := R.held hlock
  unfold due at h
  rw [hb] at h
  simp only [] at h
  split at h
  · assumption
  · cases h

theorem Ready.pop {s : Replica} (own : s.OwnChain)
    (last : s.delivered st.pm.lastProposed = true)
    (hcore : st.core = s.asyncQcFinish st.pm.lastProposed)
    (hfinish : st.pm.pmQcFinish = some (st.pm.lastProposed, b)) (hlock : st.pm.locked = true) :
    st.Ready := by
  have htree : st.core.tree = s.tree := by
    rw [hcore]
    exact congrArg Ledger.tree (Replica.asyncQcFinish_ledger ..)
  refine ⟨?_, ?_, ?_, fun _ => ⟨b, hfinish⟩⟩
  · rw [hcore]
    exact own.asyncQcFinish _
  · unfold Replica.delivered
    rw [htree]
    exact last
  · intro hfree
    rw [hlock] at hfree
    cases hfree

theorem Paced.beat (P : st.Paced) (b : Batch) : (st.beat b).Ready := by
  cases hlock : st.pm.locked with
  | true =>
    rw [beat_of_locked hlock]
    refine ⟨P.own, P.last, ?_, P.held⟩
    intro hfree
    rw [show st.pm.locked = false from hfree] at hlock
    cases hlock
  | false =>
    rw [beat_of_free hlock (P.free hlock).2]
    exact .pop P.own P.last rfl rfl rfl

theorem Paced.vote (P : st.Paced) {v : Vote} (hv : v.verify C = true) :
    (st.act (.vote v)).Ready := by
  refine ⟨(P.own.receiveVote C hv).1, ?_, P.free, P.held⟩
  have htree : (st.core.onReceiveVote v).1.tree = st.core.tree :=
    congrArg Ledger.tree (st.core.onReceiveVote_ledger v)
  change Tree.delivered (st.core.onReceiveVote v).1.tree _ = true
  rw [htree]
  exact P.last

theorem Paced.act (P : st.Paced) {i : Input} (hi : st.Fair C i) : (st.act i).Ready := by
  cases i with
  | beat b => exact P.beat b
  | vote v => exact P.vote hi.1
  | rotate => exact ⟨P.own.rotate, P.last, P.free, P.held⟩

/-- The resolved beat of the proposer gives the lock back, or hands it to the next beat. -/
theorem Ready.qcFinish (R : st.Ready) (hdue : st.due = some b)
    (hlead : st.core.pmaker.proposer = st.core.id)
    (hnext : st.pm.pendingBeats = [] ∨ 2 ≤ st.core.config.nmajority)
    (hop : st.core.Proper C
      (.propose b.cmds b.keys b.vals [st.core.pmaker.hqcTail] [])) :
    (st.qcFinish C).Paced := by
  rw [qcFinish_of_some hdue]
  unfold beaten
  rw [if_pos hlead]
  obtain ⟨hown, htail⟩ := R.own.propose C hop
  have hnone := R.own.propose_returns C hop
  have hvoters := R.own.propose_voters C hop
  have hconfig := congrArg Frame.config (st.core.onPropose_frame C b.cmds b.keys b.vals
    [st.core.pmaker.hqcTail] [])
  have hlast := Replica.hqcTail_delivered hown.quorate
  rw [htail] at hlast
  obtain ⟨u, hu⟩ : ∃ u, st.core.onPropose C b.cmds b.keys b.vals [st.core.pmaker.hqcTail] [] =
      (u, none) := ⟨_, Prod.ext rfl hnone⟩
  rw [onPropose_of_none { st with pm := { st.pm with pmQcFinish := none } } hu]
  rw [hu] at hown hvoters hconfig hlast
  simp only [] at hown hvoters hconfig hlast ⊢
  generalize C.getHash (st.core.tailBlock b.cmds b.keys b.vals []).body = h at hlast hvoters ⊢
  generalize st.pm.pendingBeats = beats at hnext ⊢
  cases beats with
  | nil =>
    rw [scheduleNext_nil rfl]
    refine ⟨⟨hown, hlast, fun _ => ⟨rfl, rfl⟩, ?_⟩, ?_⟩
    · exact fun hlock => by cases hlock
    · exact fun hlock => by cases hlock
  | cons b' bs =>
    rw [scheduleNext_cons rfl rfl]
    refine ⟨.pop hown hlast rfl rfl rfl, ?_⟩
    intro _
    refine Replica.mem_asyncQcFinish hlast ?_
    have htwo := hnext.resolve_left (List.cons_ne_nil b' bs)
    change (u.storage.ballot h).2.card < u.config.nmajority
    rw [show u.config = st.core.config from hconfig]
    omega

theorem Paced.released (P : st.Paced) {i : Input} (hi : st.Released i)
    (hdue : (st.act i).due = some b) :
    (st.act i).core.pmaker.proposer = (st.act i).core.id ∧
      ((st.act i).pm.pendingBeats = [] ∨ 2 ≤ (st.act i).core.config.nmajority) := by
  obtain ⟨blk, hfinish, hout⟩ := due_some hdue
  cases i with
  | beat b' =>
    cases hlock : st.pm.locked with
    | true =>
      obtain ⟨b₀, hb₀⟩ := P.held hlock
      rw [show st.act (.beat b') = _ from beat_of_locked hlock] at hfinish hout
      rw [show st.pm.pmQcFinish = some (blk, b) from hfinish] at hb₀
      cases hb₀
      exact absurd (P.waits hlock) hout
    | false =>
      have hpop : st.act (.beat b') = _ := beat_of_free hlock (P.free hlock).2
      have hframe := st.core.asyncQcFinish_frame st.pm.lastProposed
      rw [hpop] at hfinish hout ⊢
      cases hfinish
      refine ⟨?_, Or.inl rfl⟩
      have hproposer : (st.core.asyncQcFinish st.pm.lastProposed).pmaker.proposer =
          st.core.pmaker.proposer := congrArg Frame.proposer hframe
      have hid : (st.core.asyncQcFinish st.pm.lastProposed).id = st.core.id :=
        congrArg Frame.id hframe
      simp only []
      rw [hproposer, hid]
      refine hi hlock ?_
      by_contra hlack
      exact hout (Replica.mem_asyncQcFinish P.last (by omega))
  | vote v =>
    have hlock : st.pm.locked = true := by
      by_contra hfree
      rw [Bool.not_eq_true] at hfree
      rw [show (st.act (.vote v)).pm.pmQcFinish = none from (P.free hfree).1] at hfinish
      cases hfinish
    obtain ⟨b₀, hb₀⟩ := P.held hlock
    rw [show (st.act (.vote v)).pm.pmQcFinish = some (st.pm.lastProposed, b₀) from hb₀] at hfinish
    cases hfinish
    have hframe := st.core.onReceiveVote_frame v
    have hres := hi hlock (Replica.onReceiveVote_waiting (P.waits hlock) hout)
    have hproposer : (st.core.onReceiveVote v).1.pmaker.proposer = st.core.pmaker.proposer :=
      congrArg Frame.proposer hframe
    have hid : (st.core.onReceiveVote v).1.id = st.core.id := congrArg Frame.id hframe
    have hconfig : (st.core.onReceiveVote v).1.config = st.core.config :=
      congrArg Frame.config hframe
    change (st.core.onReceiveVote v).1.pmaker.proposer = (st.core.onReceiveVote v).1.id ∧
      (st.pm.pendingBeats = [] ∨ 2 ≤ (st.core.onReceiveVote v).1.config.nmajority)
    rw [hproposer, hid, hconfig]
    exact hres
  | rotate =>
    have hlock : st.pm.locked = true := by
      by_contra hfree
      rw [Bool.not_eq_true] at hfree
      rw [show (st.act .rotate).pm.pmQcFinish = none from (P.free hfree).1] at hfinish
      cases hfinish
    obtain ⟨b₀, hb₀⟩ := P.held hlock
    rw [show (st.act .rotate).pm.pmQcFinish = some (st.pm.lastProposed, b₀) from hb₀] at hfinish
    cases hfinish
    exact absurd (P.waits hlock) hout

theorem qcFinish_waiting (C : Crypto) (st : FixedServer) :
    st.waiting = st.due.toList ++ (st.qcFinish C).waiting := by
  cases hdue : st.due with
  | none =>
    rw [qcFinish_of_none hdue]
    rfl
  | some b =>
    obtain ⟨blk, hfinish, -⟩ := due_some hdue
    have hnext : (st.qcFinish C).waiting = st.pm.pendingBeats := by
      rw [qcFinish_of_some hdue]
      unfold beaten
      split
      · unfold onPropose
        simp only []
        split
        · rfl
        · exact scheduleNext_waiting fun hne => absurd rfl hne
      · rfl
    rw [hnext]
    unfold waiting
    rw [hfinish]
    rfl

theorem Ready.lock (R : st.Ready) (h : st.pm.pmQcFinish ≠ none) : st.pm.locked = true := by
  by_contra hfree
  rw [Bool.not_eq_true] at hfree
  exact h (R.free hfree).1

theorem Paced.act_waiting (P : st.Paced) (i : Input) :
    (st.act i).waiting = st.waiting ++ i.beats := by
  cases i with
  | beat b => exact beat_waiting P.lock
  | vote v => exact (List.append_nil _).symm
  | rotate => exact (List.append_nil _).symm

theorem Paced.start (c : Setup) (hpos : 0 < c.config.nmajority) (blkSize : ℕ) :
    (start c blkSize).Paced := by
  refine ⟨⟨Replica.OwnChain.start c hpos, rfl, fun _ => ⟨rfl, rfl⟩, ?_⟩, ?_⟩
  · exact fun hlock => by cases hlock
  · exact fun hlock => by cases hlock

theorem Paced.step (P : st.Paced) {i : Input} (hi : st.Fair C i) (hr : st.Released i) :
    ((st.act i).qcFinish C).Paced := by
  have R := P.act hi
  cases hdue : (st.act i).due with
  | none =>
    rw [qcFinish_of_none hdue]
    exact R.paced hdue
  | some b =>
    obtain ⟨hlead, hnext⟩ := P.released hr hdue
    obtain ⟨blk, hfinish, -⟩ := due_some hdue
    exact R.qcFinish hdue hlead hnext (hi.2 (blk, b) hfinish)

end FixedServer

namespace Pacing

structure Inv (P : Pacing) : Prop where
  paced : P.server.Paced
  count : P.beats = P.resolved ++ P.server.waiting

theorem Inv.step {C : Crypto} {P : Pacing} (I : P.Inv) {i : FixedServer.Input}
    (hi : P.server.Fair C i) (hr : P.server.Released i) : (P.step C i).Inv := by
  refine ⟨I.paced.step hi hr, ?_⟩
  have hact := I.paced.act_waiting i
  have hfinish := (P.server.act i).qcFinish_waiting C
  change P.beats ++ i.beats =
    (P.resolved ++ (P.server.act i).due.toList) ++ ((P.server.act i).qcFinish C).waiting
  rw [List.append_assoc, ← hfinish, hact, I.count, List.append_assoc]

theorem Inv.lockHeld {P : Pacing} (I : P.Inv) : P.LockHeld := by
  intro hlock
  obtain ⟨b, hb⟩ := I.paced.held hlock
  refine ⟨b, hb, I.paced.waits hlock, ?_⟩
  rw [I.count]
  unfold FixedServer.waiting
  rw [hb]
  rfl

/-- As long as beats are resolved while the replica is the proposer, a lock that is held is
held for one beat that waits for the certificate of `last_proposed`. -/
theorem lock_held (C : Crypto) (c : Setup) (hpos : 0 < c.config.nmajority) (blkSize : ℕ)
    {P : Pacing}
    (h : Runs.Reach (fun P i => P.server.Fair C i ∧ P.server.Released i) (step C)
      (start c blkSize) P) : P.LockHeld := by
  have I : P.Inv := by
    refine h.invariant Inv ⟨.start c hpos blkSize, rfl⟩ ?_
    intro P i I hok
    exact I.step hok.1 hok.2
  exact I.lockHeld

section
variable (C : Crypto) (st : FixedServer)

instance (i : FixedServer.Input) : Decidable (i.Verified C) :=
  match i with
  | .vote _ => inferInstanceAs (Decidable (_ = true))
  | .beat _ | .rotate => inferInstanceAs (Decidable True)

instance (i : FixedServer.Input) : Decidable (st.Fair C i) :=
  inferInstanceAs (Decidable (_ ∧ ∀ p ∈ (st.act i).pm.pmQcFinish, _))

instance (i : FixedServer.Input) : Decidable (st.Released i) :=
  match i with
  | .beat _ => inferInstanceAs (Decidable (_ = false → _ ≤ _ → _))
  | .vote _ => inferInstanceAs (Decidable (_ = true → (_ ∧ _ ≤ _) → _))
  | .rotate => inferInstanceAs (Decidable True)

end

def batch (x : Hash) : Batch := .ofBuffer [⟨x, 1, 2, 0, 0, -1⟩]

def votes (h : Hash) : List FixedServer.Input :=
  [.vote ⟨1, h, ⟨h, h⟩⟩, .vote ⟨2, h, ⟨h, h⟩⟩]

def runOf (inputs : List FixedServer.Input) : Pacing :=
  Runs.run (step .sample) (start (.four 0) 1) inputs

/-- Two beats, of which the second waits for the certificate of the first block. -/
theorem lock_held_second :
    (runOf [.beat (batch 5), .beat (batch 6), .rotate]).server.pm.locked = true ∧
      (runOf [.beat (batch 5), .beat (batch 6), .rotate]).LockHeld := by
  refine ⟨by decide +kernel, ?_⟩
  refine lock_held .sample (.four 0) (by decide) 1 (Runs.reach_run _ .init ?_)
  decide +kernel

/-- The proposer is rotated away before the votes come, and the lock is held for nothing. -/
theorem lock_stuck :
    ¬∀ P, Runs.Reach (fun P i => P.server.Fair .sample i) (step .sample) (start (.four 0) 1) P →
      P.LockHeld := by
  intro h
  have hreach : Runs.Reach (fun P i => P.server.Fair .sample i) (step .sample) (start (.four 0) 1)
      (runOf ([.beat (batch 5), .beat (batch 6), .rotate] ++ votes 1)) :=
    Runs.reach_run _ .init (by decide +kernel)
  obtain ⟨b, hb, -⟩ := h _ hreach (by decide +kernel)
  have hnone : (runOf ([.beat (batch 5), .beat (batch 6), .rotate] ++
      votes 1)).server.pm.pmQcFinish = none := by decide +kernel
  rw [hnone] at hb
  cases hb

end Pacing

end AvaHotstuff
