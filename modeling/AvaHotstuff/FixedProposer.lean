import AvaHotstuff.CommandArgs
import AvaHotstuff.QuorumReached

set_option autoImplicit false

/-!
# Client commands and the fixed proposer

`PMWaitQC` as `PaceMakerDummyFixed` uses it, below the handler of `cmd_pending`. A beat that
is popped waits for the certificate of the last own proposal. Its callback is a call of its
own here, at any time after the promise was resolved.
-/
namespace AvaHotstuff

/-- `cmd_pending_buffer` and the fields of `PMWaitQC`. A beat is the batch that its
continuation proposes; `pmQcFinish` keeps the block whose certificate it waits for. -/
structure WaitQC where
  blkSize : ℕ
  cmdPendingBuffer : List ClientCommandVars
  pendingBeats : List Batch
  lastProposed : Hash
  locked : Bool
  pmQcFinish : Option (Hash × Batch)

/-- The handler of `cmd_pending` up to the test of the proposer. -/
def Replica.receiveCommand (s : Replica) (cmd : ClientCommandVars) (cb : ℕ) : Replica :=
  let s := s.waitDecision cmd.cmdHash cb
  let fin : Finality := ⟨s.id, 1, 0, 0, cmd.cmdHash, 0⟩
  let s := if 0 ≤ cmd.reconfigMode then
      s.sendReconfigAck fin ⟨cmd.clusterNumber, cmd.nodeNumber, cmd.reconfigMode⟩
    else s
  if 15 < cmd.key.tmod 100 then s.answerClient fin else s

/-- A replica with `PaceMakerDummyFixed`. -/
structure FixedServer where
  core : Replica
  pm : WaitQC

namespace FixedServer
variable (C : Crypto)

def start (c : Setup) (blkSize : ℕ) : FixedServer := ⟨c.start, blkSize, [], [], b0, false, none⟩

def scheduleNext (st : FixedServer) : FixedServer :=
  match st.pm.pendingBeats with
  | [] => st
  | b :: bs =>
    if st.pm.locked then st
    else
      { core := st.core.asyncQcFinish st.pm.lastProposed
        pm := { st.pm with
          pendingBeats := bs
          pmQcFinish := some (st.pm.lastProposed, b)
          locked := true } }

def beat (st : FixedServer) (b : Batch) : FixedServer :=
  { st with pm := { st.pm with pendingBeats := st.pm.pendingBeats ++ [b] } }.scheduleNext

/-- `on_propose` on `get_parents`, with the hook of `update_last_proposed` at its end. -/
def onPropose (st : FixedServer) (b : Batch) : FixedServer :=
  let s := st.core
  let bnew := C.getHash
    (s.newBlock b.cmds b.keys b.vals [s.pmaker.hqcTail] s.pmaker.hqcTail []).body
  match s.onPropose C b.cmds b.keys b.vals [s.pmaker.hqcTail] [] with
  | (core, some _) => { st with core := core }
  | (core, none) =>
    scheduleNext ⟨core, { st.pm with lastProposed := bnew, locked := false }⟩

/-- The continuation of `beat` in the handler of `cmd_pending`. -/
def beaten (st : FixedServer) (b : Batch) : FixedServer :=
  if st.core.pmaker.proposer = st.core.id then st.onPropose C b else st

/-- The callback of `async_qc_finish(last_proposed)`, once nobody waits for that block. -/
def qcFinish (st : FixedServer) : FixedServer :=
  match st.pm.pmQcFinish with
  | none => st
  | some (blk, b) =>
    if blk ∈ st.core.qcWaiting then st
    else { st with pm := { st.pm with pmQcFinish := none } }.beaten C b

def request (st : FixedServer) (cmd : ClientCommandVars) (cb : ℕ) : FixedServer :=
  let st := { st with core := st.core.receiveCommand cmd cb }
  if st.core.pmaker.proposer ≠ st.core.id then st
  else
    let buffer := if cmd.key.tmod 100 ≤ 15 then st.pm.cmdPendingBuffer ++ [cmd]
      else st.pm.cmdPendingBuffer
    if st.pm.blkSize ≤ buffer.length then
      { st with pm := { st.pm with cmdPendingBuffer := buffer.drop st.pm.blkSize } }.beat
        (.ofBuffer (buffer.take st.pm.blkSize))
    else { st with pm := { st.pm with cmdPendingBuffer := buffer } }

def waiting (st : FixedServer) : List Batch :=
  (st.pm.pmQcFinish.map Prod.snd).toList ++ st.pm.pendingBeats

end FixedServer

def ClientCommandVars.write (cmd : ClientCommandVars) : Bool :=
  decide (cmd.key.tmod 100 ≤ 15) && decide (cmd.reconfigMode < 0)

def Op.outside : Op → Bool
  | .propose _ _ _ _ _ | .asyncQcFinish _ | .waitDecision _ _ | .sendReconfigAck _ _ => false
  | _ => true

/-- The replicas of a cluster, the write commands that each of them has dequeued, and those
that a replica has buffered. -/
structure FixedServers (n : ℕ) where
  node : Fin n → FixedServer
  dequeued : Fin n → Finset Hash
  buffered : Finset Hash

namespace FixedServers
variable {n : ℕ} (C : Crypto)

inductive Input (n : ℕ) where
  | request (i : Fin n) (cmd : ClientCommandVars) (cb : ℕ)
  | call (i : Fin n) (op : Op)
  | qcFinish (i : Fin n)

def start (c : Fin n → Setup) (blkSize : ℕ) : FixedServers n :=
  ⟨fun i => .start (c i) blkSize, fun _ => ∅, ∅⟩

def leads (S : FixedServers n) (i : Fin n) : Bool := (S.node i).core.checkLeader

def setNode (S : FixedServers n) (i : Fin n) (st : FixedServer) : FixedServers n :=
  { S with node := Function.update S.node i st }

def step (S : FixedServers n) : Input n → FixedServers n
  | .request i cmd cb =>
    let S' := S.setNode i ((S.node i).request cmd cb)
    if cmd.write then
      { S' with
        dequeued := Function.update S.dequeued i (insert cmd.cmdHash (S.dequeued i))
        buffered := if S.leads i then insert cmd.cmdHash S.buffered else S.buffered }
    else S'
  | .call i op => S.setNode i { S.node i with core := (S.node i).core.step C op }
  | .qcFinish i => S.setNode i ((S.node i).qcFinish C)

/-- The calls that honest replicas with a fixed membership make. -/
def Steady (S : FixedServers n) : Input n → Prop
  | .request _ _ _ => True
  | .call i op => op.outside = true ∧ (S.node i).core.Handled C op ∧
      ((S.node i).core.step C op).config = (S.node i).core.config
  | .qcFinish i => ∀ p ∈ (S.node i).pm.pmQcFinish, (S.node i).core.Proper C
      (.propose p.2.cmds p.2.keys p.2.vals [(S.node i).core.pmaker.hqcTail] [])

/-- A write command is dequeued by a replica that leads, and a replica stops leading with no
batch under way. -/
def Orderly (S : FixedServers n) : Input n → Prop
  | .request i cmd _ => cmd.write = true → S.leads i = false →
      (∀ j, j ≠ i → cmd.cmdHash ∈ S.dequeued j) → cmd.cmdHash ∈ S.buffered
  | .call i op => ((S.node i).core.step C op).pmaker.proposer ≠ (S.node i).core.pmaker.proposer →
      (S.node i).waiting = []
  | .qcFinish _ => True

def Delivered (S : FixedServers n) (x : Hash) : Prop :=
  ∃ i h blk, (S.node i).core.storage.blkCache h = some blk ∧ blk.delivered = true ∧
    x ∈ blk.body.cmds

/-- In a buffer, or in a batch that the replica proposes when its beat is resolved. -/
def Held (S : FixedServers n) (x : Hash) : Prop :=
  ∃ i, x ∈ (S.node i).pm.cmdPendingBuffer.map (·.cmdHash) ∨
    S.leads i = true ∧ ∃ b ∈ (S.node i).waiting, x ∈ b.cmds

end FixedServers

namespace Replica

structure Alike (s u : Replica) : Prop where
  ledger : u.ledger = s.ledger
  head : u.head = s.head
  config : u.config = s.config
  qcWaiting : u.qcWaiting = s.qcWaiting
  leader : u.checkLeader = s.checkLeader

variable {s u v : Replica}

theorem Alike.trans (h : Alike s u) (h' : Alike u v) : Alike s v :=
  ⟨h'.ledger.trans h.ledger, h'.head.trans h.head, h'.config.trans h.config,
    h'.qcWaiting.trans h.qcWaiting, h'.leader.trans h.leader⟩

theorem answerClient_alike (s : Replica) (fin : Finality) : Alike s (s.answerClient fin) := by
  refine ⟨answerClient_ledger .., answerClient_head .., ?_, ?_, ?_⟩
  all_goals
    unfold answerClient
    split <;> rfl

theorem waitDecision_alike (s : Replica) (x : Hash) (cb : ℕ) : Alike s (s.waitDecision x cb) := by
  refine ⟨waitDecision_ledger .., waitDecision_head .., ?_, ?_, ?_⟩
  all_goals
    unfold waitDecision
    split <;> rfl

theorem sendReconfigAck_alike (s : Replica) (fin : Finality) (r : Recs) :
    Alike s (s.sendReconfigAck fin r) := by
  have h := s.answerClient_alike fin
  refine ⟨sendReconfigAck_ledger .., sendReconfigAck_head .., ?_, ?_, ?_⟩
  all_goals
    unfold sendReconfigAck
    simp only []
    split
  · exact h.config
  · exact h.config
  · exact h.qcWaiting
  · exact h.qcWaiting
  · exact h.leader
  · exact h.leader

theorem receiveCommand_alike (s : Replica) (cmd : ClientCommandVars) (cb : ℕ) :
    Alike s (s.receiveCommand cmd cb) := by
  unfold receiveCommand
  simp only []
  refine (s.waitDecision_alike cmd.cmdHash cb).trans ?_
  generalize s.waitDecision cmd.cmdHash cb = u
  split
  · refine Alike.trans ?_ (answerClient_alike _ _)
    split
    · exact u.sendReconfigAck_alike _ _
    · exact ⟨rfl, rfl, rfl, rfl, rfl⟩
  · split
    · exact u.sendReconfigAck_alike _ _
    · exact ⟨rfl, rfl, rfl, rfl, rfl⟩

theorem Alike.grows (h : Alike s u) : Tree.Grows s.tree u.tree := by
  have htree : u.tree = s.tree := congrArg Ledger.tree h.ledger
  rw [htree]
  exact .refl _

theorem Quorate.alike (q : s.Quorate) (h : Alike s u) : u.Quorate := by
  have htree : u.tree = s.tree := congrArg Ledger.tree h.ledger
  have k : u.Leading := by
    refine ⟨?_, ?_, ?_⟩
    · rw [h.ledger]
      exact q.leading.chained
    · rw [htree]
      exact q.leading.genesis
    · rw [htree, h.head]
      exact q.leading.head
  refine q.rises k (q.low.of_tree htree) (Rises.of_same q.hqc h.grows h.config ?_ ?_ ?_)
  · exact congrArg Head.hqc h.head
  · intro b hb
    rwa [h.qcWaiting] at hb
  · intro b
    exact congrArg (fun H : Head => (H.ballot b).2) h.head

theorem Quorate.handled (C : Crypto) {op : Op} (q : s.Quorate) (h : Handled C s op)
    (hconfig : (s.step C op).config = s.config) : (s.step C op).Quorate :=
  q.step C h (smooth_of_same (congrArg ReplicaConfig.nmajority hconfig))

theorem storeProposal_delivers (q : s.Quorate) {h : Hash} {b : Block}
    (hbd : b.delivered = false) (hdec : b.decision = false) (hq : b.selfQc = none)
    (hv : b.voted = ∅) (hl : b.lcomplains = ∅) (hr : b.rcomplains = ∅)
    (hparent : b.body.parentHashes = [s.pmaker.hqcTail]) (hqc : b.body.qc = s.hqc.2)
    (hfree : ∀ blk, s.storage.blkCache h = some blk → blk.body = b.body)
    {res : Except Exn Bool}
    (hu : (s.storeProposal h b [s.pmaker.hqcTail]).onDeliverBlk h = (u, res)) :
    u.tree.Wf ∧ ∃ v n, res = .ok v ∧ u.tree h = some n ∧ n.delivered = true ∧
      n.body = b.body := by
  obtain ⟨-, -, v, rfl⟩ :=
    storeProposal_rises q.leading q.low q.hqc hbd hdec hq hv hl hr hparent hqc hfree hu
  have hmade := made_of_deliver q.leading.chained q.leading.head q.leading.genesis hbd hdec hq hv
    hparent hqc hfree (congrArg Prod.fst hu).symm
  obtain ⟨n, hn, hnd⟩ := Tree.exists_of_delivered (onDeliverBlk_ok hu)
  refine ⟨hmade.1.wf, v, n, rfl, hn, hnd, ?_⟩
  refine @storeProposal_body s h b [s.pmaker.hqcTail] hfree n ?_
  rw [hu]
  exact hn

theorem onPropose_delivers (C : Crypto) (q : s.Quorate) {cmds : List Hash} {keys vals : List ℤ}
    (hop : s.Proper C (.propose cmds keys vals [s.pmaker.hqcTail] [])) :
    ∃ h n, (s.onPropose C cmds keys vals [s.pmaker.hqcTail] []).1.tree h = some n ∧
      n.delivered = true ∧ n.body.cmds = cmds := by
  obtain ⟨-, hfree⟩ := hop
  unfold onPropose
  simp only [List.head?_cons]
  generalize hu : (s.storeProposal _ (s.newBlock cmds keys vals [s.pmaker.hqcTail]
    s.pmaker.hqcTail []) [s.pmaker.hqcTail]).onDeliverBlk _ = p
  obtain ⟨u, res⟩ := p
  obtain ⟨w, val, n, rfl, hn, hnd, hbody⟩ :=
    storeProposal_delivers q rfl rfl rfl rfl rfl rfl rfl rfl hfree hu
  generalize C.getHash (s.newBlock cmds keys vals [s.pmaker.hqcTail] s.pmaker.hqcTail
    []).body = h at hn ⊢
  have hupdate := (update_ledger (G := Ledger.Guard.any) w h).grows
  have hgrows : Tree.Grows u.tree ((u.update h).andThen fun w => w.finishProposal C h).1.tree := by
    generalize u.update h = r at hupdate ⊢
    obtain ⟨w, none | e⟩ := r
    · have hfinish : Ledger.Steps Ledger.Guard.any w.ledger (w.finishProposal C h).1.ledger :=
        finishProposal_steps C trivial
      exact hupdate.trans hfinish.grows
    · exact hupdate
  obtain ⟨n', hn', hb', hkeep⟩ := hgrows.keep h n hn
  refine ⟨h, n', hn', (hkeep hnd).1, ?_⟩
  rw [hb', hbody]
  rfl

end Replica

namespace FixedServer
variable {C : Crypto} {st : FixedServer}

structure Sound (st : FixedServer) : Prop where
  quorate : st.core.Quorate
  locked : st.pm.pmQcFinish ≠ none → st.pm.locked = true
  leads : st.waiting ≠ [] → st.core.checkLeader = true

theorem scheduleNext_waiting (h : st.pm.pmQcFinish ≠ none → st.pm.locked = true) :
    st.scheduleNext.waiting = st.waiting := by
  unfold scheduleNext
  split
  · rfl
  rename_i b bs hbeats
  split
  · rfl
  rename_i hlock
  have hnone : st.pm.pmQcFinish = none := by
    by_contra hsome
    exact hlock (h hsome)
  unfold waiting
  rw [hnone, hbeats]
  rfl

theorem beat_waiting {b : Batch} (hlock : st.pm.pmQcFinish ≠ none → st.pm.locked = true) :
    (st.beat b).waiting = st.waiting ++ [b] := by
  have hnext := @scheduleNext_waiting
    { st with pm := { st.pm with pendingBeats := st.pm.pendingBeats ++ [b] } } hlock
  exact hnext.trans (List.append_assoc ..).symm

theorem scheduleNext_buffer :
    st.scheduleNext.pm.cmdPendingBuffer = st.pm.cmdPendingBuffer := by
  unfold scheduleNext
  split
  · rfl
  · split <;> rfl

theorem scheduleNext_core : st.scheduleNext.core = st.core ∨
    st.scheduleNext.core = st.core.step C (.asyncQcFinish st.pm.lastProposed) := by
  unfold scheduleNext
  split
  · exact Or.inl rfl
  split
  · exact Or.inl rfl
  · exact Or.inr rfl

theorem scheduleNext_locked (h : st.pm.pmQcFinish ≠ none → st.pm.locked = true) :
    st.scheduleNext.pm.pmQcFinish ≠ none → st.scheduleNext.pm.locked = true := by
  unfold scheduleNext
  split
  · exact h
  split
  · exact h
  · exact fun _ => rfl

theorem asyncQcFinish_leader (s : Replica) (blk : Hash) :
    (s.asyncQcFinish blk).checkLeader = s.checkLeader :=
  congrArg (fun f : Frame => decide (f.id = f.proposer)) (s.asyncQcFinish_frame blk)

theorem Sound.scheduleNext (h : st.core.Quorate)
    (hlock : st.pm.pmQcFinish ≠ none → st.pm.locked = true)
    (hlead : st.waiting ≠ [] → st.core.checkLeader = true) : st.scheduleNext.Sound := by
  refine ⟨?_, scheduleNext_locked hlock, ?_⟩
  · rcases @scheduleNext_core .sample st with hsame | hstep
    · rw [hsame]
      exact h
    · rw [hstep]
      refine h.handled .sample ⟨trivial, trivial, trivial⟩ ?_
      exact congrArg Frame.config (st.core.asyncQcFinish_frame st.pm.lastProposed)
  · intro hne
    rw [scheduleNext_waiting hlock] at hne
    rcases @scheduleNext_core .sample st with hsame | hstep
    · rw [hsame]
      exact hlead hne
    · rw [hstep]
      exact (asyncQcFinish_leader ..).trans (hlead hne)

theorem scheduleNext_grows (w : st.core.tree.Wf) :
    Tree.Grows st.core.tree st.scheduleNext.core.tree := by
  rcases @scheduleNext_core .sample st with hsame | hstep
  · rw [hsame]
    exact .refl _
  · rw [hstep]
    exact (Replica.exec_steps .sample w (.asyncQcFinish st.pm.lastProposed)).grows

def Delivers (st : FixedServer) (x : Hash) : Prop :=
  ∃ h n, st.core.tree h = some n ∧ n.delivered = true ∧ x ∈ n.body.cmds

def Accounts (st : FixedServer) (x : Hash) : Prop :=
  st.Delivers x ∨ x ∈ st.pm.cmdPendingBuffer.map (·.cmdHash) ∨ ∃ b ∈ st.waiting, x ∈ b.cmds

theorem Delivers.grows {x : Hash} {st' : FixedServer} (h : st.Delivers x)
    (g : Tree.Grows st.core.tree st'.core.tree) : st'.Delivers x := by
  obtain ⟨b, n, hn, hd, hx⟩ := h
  obtain ⟨n', hn', hbody, hkeep⟩ := g.keep b n hn
  refine ⟨b, n', hn', (hkeep hd).1, ?_⟩
  rw [hbody]
  exact hx

theorem Accounts.keep {x : Hash} {st' : FixedServer} (h : st.Accounts x)
    (g : Tree.Grows st.core.tree st'.core.tree)
    (hbuffer : st'.pm.cmdPendingBuffer = st.pm.cmdPendingBuffer)
    (hwaiting : st'.waiting = st.waiting) : st'.Accounts x := by
  rcases h with hd | hb | hw
  · exact Or.inl (hd.grows g)
  · refine Or.inr (Or.inl ?_)
    rw [hbuffer]
    exact hb
  · refine Or.inr (Or.inr ?_)
    rw [hwaiting]
    exact hw

theorem Sound.wf (h : st.Sound) : st.core.tree.Wf := h.quorate.leading.chained.wf

/-- A batch whose beat resolves is proposed, since its replica leads. -/
theorem Sound.qcFinish (h : st.Sound)
    (hp : ∀ p ∈ st.pm.pmQcFinish, st.core.Proper C
      (.propose p.2.cmds p.2.keys p.2.vals [st.core.pmaker.hqcTail] [])) :
    (st.qcFinish C).Sound ∧ ∀ x, st.Accounts x → (st.qcFinish C).Accounts x := by
  unfold FixedServer.qcFinish
  split
  · exact ⟨h, fun _ hx => hx⟩
  rename_i blk b hfinish
  split
  · exact ⟨h, fun _ hx => hx⟩
  have hwait : st.waiting = b :: st.pm.pendingBeats := by
    unfold waiting
    rw [hfinish]
    rfl
  have hlead := h.leads (by rw [hwait]; simp)
  have hprop := hp (blk, b) hfinish
  have hproposer : st.core.pmaker.proposer = st.core.id := (of_decide_eq_true hlead).symm
  unfold beaten
  rw [if_pos hproposer]
  -- the core after the proposal, whether or not it throws
  have hframe := st.core.onPropose_frame C b.cmds b.keys b.vals [st.core.pmaker.hqcTail] []
  have hq : (st.core.step C
      (.propose b.cmds b.keys b.vals [st.core.pmaker.hqcTail] [])).Quorate :=
    h.quorate.handled C ⟨hprop, trivial, trivial⟩ (congrArg Frame.config hframe)
  have hgrows : Tree.Grows st.core.tree (st.core.step C
      (.propose b.cmds b.keys b.vals [st.core.pmaker.hqcTail] [])).tree :=
    (Replica.exec_steps C h.wf _).grows
  have hdel := Replica.onPropose_delivers C h.quorate hprop
  change (st.core.onPropose C b.cmds b.keys b.vals [st.core.pmaker.hqcTail] []).1.Quorate at hq
  change Tree.Grows _ (st.core.onPropose C b.cmds b.keys b.vals
    [st.core.pmaker.hqcTail] []).1.tree at hgrows
  have hleader : (st.core.onPropose C b.cmds b.keys b.vals
      [st.core.pmaker.hqcTail] []).1.checkLeader = true := by
    rw [← hlead]
    exact congrArg (fun f : Frame => decide (f.id = f.proposer)) hframe
  unfold onPropose
  simp only []
  generalize C.getHash _ = bnew
  generalize st.core.onPropose C b.cmds b.keys b.vals [st.core.pmaker.hqcTail] [] = r
    at hq hgrows hdel hleader ⊢
  obtain ⟨u, e⟩ := r
  obtain ⟨hb, n, hn, hnd, hcmds⟩ := hdel
  have haccounts : ∀ (x : Hash) (st' : FixedServer), Tree.Grows u.tree st'.core.tree →
      st'.pm.cmdPendingBuffer = st.pm.cmdPendingBuffer →
      st'.waiting = st.pm.pendingBeats → st.Accounts x → st'.Accounts x := by
    intro x st' g hbuffer hwaiting hx
    rcases hx with hd | hbuf | ⟨b', hb', hx'⟩
    · exact Or.inl (hd.grows (hgrows.trans g))
    · refine Or.inr (Or.inl ?_)
      rw [hbuffer]
      exact hbuf
    · rw [hwait] at hb'
      rcases List.mem_cons.mp hb' with rfl | hlater
      · obtain ⟨n', hn', hbody, hkeep⟩ := g.keep hb n hn
        refine Or.inl ⟨hb, n', hn', (hkeep hnd).1, ?_⟩
        rw [hbody, hcmds]
        exact hx'
      · refine Or.inr (Or.inr ⟨b', ?_, hx'⟩)
        rw [hwaiting]
        exact hlater
  cases e with
  | some e =>
    simp only []
    refine ⟨⟨hq, ?_, fun _ => hleader⟩, ?_⟩
    · exact fun hne => absurd rfl hne
    · intro x hx
      exact haccounts x _ (.refl _) rfl rfl hx
  | none =>
    simp only []
    have hnone : (none : Option (Hash × Batch)) ≠ none → false = true :=
      fun hne => absurd rfl hne
    refine ⟨Sound.scheduleNext hq hnone fun _ => hleader, ?_⟩
    intro x hx
    have w : u.tree.Wf := hq.leading.chained.wf
    refine haccounts x _ ?_ scheduleNext_buffer (scheduleNext_waiting hnone) hx
    exact @scheduleNext_grows ⟨u, _⟩ w

theorem Sound.beat (h : st.Sound) (hlead : st.core.checkLeader = true) (b : Batch) :
    (st.beat b).Sound ∧ (st.beat b).pm.cmdPendingBuffer = st.pm.cmdPendingBuffer ∧
      (st.beat b).waiting = st.waiting ++ [b] ∧
      Tree.Grows st.core.tree (st.beat b).core.tree := by
  have hwait := beat_waiting (b := b) h.locked
  unfold FixedServer.beat at hwait ⊢
  generalize hq : ({ st with pm := { st.pm with
    pendingBeats := st.pm.pendingBeats ++ [b] } } : FixedServer) = q at hwait ⊢
  have hcore : q.core = st.core := by rw [← hq]
  have hlock : q.pm.pmQcFinish ≠ none → q.pm.locked = true := by
    rw [← hq]
    exact h.locked
  have hbuffer : q.pm.cmdPendingBuffer = st.pm.cmdPendingBuffer := by rw [← hq]
  rw [← hcore] at hlead ⊢
  have hquorate : q.core.Quorate := by
    rw [hcore]
    exact h.quorate
  refine ⟨Sound.scheduleNext hquorate hlock fun _ => hlead, scheduleNext_buffer.trans hbuffer,
    hwait, ?_⟩
  exact scheduleNext_grows hquorate.leading.chained.wf

theorem Sound.request (h : st.Sound) (cmd : ClientCommandVars) (cb : ℕ) :
    (st.request cmd cb).Sound ∧ (∀ x, st.Accounts x → (st.request cmd cb).Accounts x) ∧
      (st.core.checkLeader = true → cmd.key.tmod 100 ≤ 15 →
        (st.request cmd cb).Accounts cmd.cmdHash) := by
  have halike := st.core.receiveCommand_alike cmd cb
  unfold FixedServer.request
  simp only []
  generalize st.core.receiveCommand cmd cb = u at halike ⊢
  have hu : Sound ⟨u, st.pm⟩ := by
    refine ⟨h.quorate.alike halike, h.locked, ?_⟩
    intro hne
    rw [halike.leader]
    exact h.leads hne
  have hkeep : ∀ x, st.Accounts x → Accounts ⟨u, st.pm⟩ x :=
    fun x hx => hx.keep halike.grows rfl rfl
  by_cases hlead : u.checkLeader = true
  · have hproposer : u.pmaker.proposer = u.id := (of_decide_eq_true hlead).symm
    rw [if_neg (not_not.mpr hproposer)]
    generalize hbuf : (if cmd.key.tmod 100 ≤ 15 then st.pm.cmdPendingBuffer ++ [cmd]
      else st.pm.cmdPendingBuffer) = buffer
    have hold : ∀ c ∈ st.pm.cmdPendingBuffer, c ∈ buffer := by
      intro c hc
      rw [← hbuf]
      split
      · exact List.mem_append_left _ hc
      · exact hc
    have hnew : cmd.key.tmod 100 ≤ 15 → cmd ∈ buffer := by
      intro hwrite
      rw [← hbuf, if_pos hwrite]
      exact List.mem_append_right _ (List.mem_singleton_self _)
    -- everything buffered is still there, in the buffer or in the new batch
    have hafter : ∀ st' : FixedServer, Tree.Grows u.tree st'.core.tree →
        (∀ b ∈ st.waiting, b ∈ st'.waiting) →
        (∀ c ∈ buffer, st'.Accounts c.cmdHash) →
        (∀ x, st.Accounts x → st'.Accounts x) ∧
          (st.core.checkLeader = true → cmd.key.tmod 100 ≤ 15 → st'.Accounts cmd.cmdHash) := by
      intro st' g hw hb
      refine ⟨?_, fun _ hwrite => hb cmd (hnew hwrite)⟩
      intro x hx
      rcases hkeep x hx with hd | hin | ⟨b, hmem, hxb⟩
      · exact Or.inl (hd.grows g)
      · obtain ⟨c, hc, rfl⟩ := List.mem_map.mp hin
        exact hb c (hold c hc)
      · exact Or.inr (Or.inr ⟨b, hw b hmem, hxb⟩)
    split
    · have hsound : Sound ⟨u, { st.pm with cmdPendingBuffer := buffer.drop st.pm.blkSize }⟩ :=
        ⟨hu.quorate, hu.locked, hu.leads⟩
      obtain ⟨hs, hbuffer, hwaiting, g⟩ :=
        hsound.beat hlead (.ofBuffer (buffer.take st.pm.blkSize))
      refine ⟨hs, hafter _ g ?_ ?_⟩
      · intro b hb
        rw [hwaiting]
        exact List.mem_append_left _ hb
      · intro c hc
        rw [← List.take_append_drop st.pm.blkSize buffer] at hc
        rcases List.mem_append.mp hc with htake | hdrop
        · refine Or.inr (Or.inr ⟨.ofBuffer (buffer.take st.pm.blkSize), ?_, ?_⟩)
          · rw [hwaiting]
            exact List.mem_append_right _ (List.mem_singleton_self _)
          · exact List.mem_map_of_mem htake
        · refine Or.inr (Or.inl ?_)
          rw [hbuffer]
          exact List.mem_map_of_mem hdrop
    · refine ⟨⟨hu.quorate, hu.locked, hu.leads⟩, hafter _ (.refl _) (fun b hb => hb) ?_⟩
      intro c hc
      exact Or.inr (Or.inl (List.mem_map_of_mem hc))
  · have hproposer : u.pmaker.proposer ≠ u.id := fun heq =>
      hlead (decide_eq_true heq.symm)
    rw [if_pos hproposer]
    refine ⟨hu, hkeep, ?_⟩
    intro hl
    rw [halike.leader] at hlead
    exact absurd hl hlead

theorem Sound.call (h : st.Sound) {op : Op} (hop : st.core.Handled C op)
    (hconfig : (st.core.step C op).config = st.core.config)
    (hid : (st.core.step C op).id = st.core.id)
    (hrotate : (st.core.step C op).pmaker.proposer ≠ st.core.pmaker.proposer →
      st.waiting = []) :
    Sound { st with core := st.core.step C op } ∧
      ∀ x, st.Accounts x → Accounts { st with core := st.core.step C op } x := by
  refine ⟨⟨h.quorate.handled C hop hconfig, h.locked, ?_⟩, ?_⟩
  · intro hne
    have hsame : (st.core.step C op).pmaker.proposer = st.core.pmaker.proposer := by
      by_contra hdiff
      exact hne (hrotate hdiff)
    have hlead := h.leads hne
    unfold Replica.checkLeader at hlead ⊢
    rw [hsame, hid]
    exact hlead
  · intro x hx
    exact hx.keep (Replica.exec_steps C h.wf op).grows rfl rfl

end FixedServer

namespace FixedServers
variable {n : ℕ} {C : Crypto} {S : FixedServers n}

structure Inv (S : FixedServers n) : Prop where
  sound : ∀ i, (S.node i).Sound
  accounted : ∀ x ∈ S.buffered, ∃ i, (S.node i).Accounts x
  taken : ∀ x, (∀ i, x ∈ S.dequeued i) → x ∈ S.buffered

theorem setNode_self (i : Fin n) (st : FixedServer) : (S.setNode i st).node i = st :=
  Function.update_self ..

theorem setNode_other {i j : Fin n} (hj : j ≠ i) (st : FixedServer) :
    (S.setNode i st).node j = S.node j := Function.update_of_ne hj ..

theorem accounted_setNode {x : Hash} {i : Fin n} {st : FixedServer}
    (h : ∃ j, (S.node j).Accounts x) (hkeep : (S.node i).Accounts x → st.Accounts x) :
    ∃ j, ((S.setNode i st).node j).Accounts x := by
  obtain ⟨j, hj⟩ := h
  refine ⟨j, ?_⟩
  by_cases hij : j = i
  · subst j
    rw [setNode_self]
    exact hkeep hj
  · rw [setNode_other hij]
    exact hj

theorem sound_setNode {i : Fin n} {st : FixedServer} (h : ∀ j, (S.node j).Sound)
    (hst : st.Sound) (j : Fin n) : ((S.setNode i st).node j).Sound := by
  by_cases hij : j = i
  · subst j
    rw [setNode_self]
    exact hst
  · rw [setNode_other hij]
    exact h j

theorem Inv.setNode (I : S.Inv) {i : Fin n} {st : FixedServer} (hst : st.Sound)
    (hkeep : ∀ x, (S.node i).Accounts x → st.Accounts x) : (S.setNode i st).Inv :=
  ⟨sound_setNode I.sound hst, fun x hx => accounted_setNode (I.accounted x hx) (hkeep x), I.taken⟩

theorem Inv.request (I : S.Inv) {i : Fin n} {cmd : ClientCommandVars} {cb : ℕ}
    (ho : S.Orderly C (.request i cmd cb)) : (S.step C (.request i cmd cb)).Inv := by
  obtain ⟨hs, hkeep, hnew⟩ := (I.sound i).request cmd cb
  unfold FixedServers.step
  simp only []
  split
  next hw =>
    have hkey : cmd.key.tmod 100 ≤ 15 := by
      unfold ClientCommandVars.write at hw
      rw [Bool.and_eq_true] at hw
      exact of_decide_eq_true hw.1
    refine ⟨sound_setNode I.sound hs, ?_, ?_⟩
    · intro x hx
      simp only [] at hx
      split at hx
      next hlead =>
        rcases Finset.mem_insert.mp hx with rfl | hold
        · refine ⟨i, ?_⟩
          rw [setNode_self]
          exact hnew hlead hkey
        · exact accounted_setNode (I.accounted x hold) (hkeep x)
      next => exact accounted_setNode (I.accounted x hx) (hkeep x)
    · intro x hx
      simp only [] at hx ⊢
      by_cases hcmd : x = cmd.cmdHash
      · subst x
        split
        next => exact Finset.mem_insert_self ..
        next hlead =>
          refine ho hw (Bool.eq_false_iff.mpr hlead) ?_
          intro j hj
          have hdeq := hx j
          rwa [Function.update_of_ne hj] at hdeq
      · have hall : ∀ j, x ∈ S.dequeued j := by
          intro j
          have hdeq := hx j
          by_cases hj : j = i
          · subst j
            rw [Function.update_self, Finset.mem_insert] at hdeq
            exact hdeq.resolve_left hcmd
          · rwa [Function.update_of_ne hj] at hdeq
        split
        next => exact Finset.mem_insert_of_mem (I.taken x hall)
        next => exact I.taken x hall
  next => exact I.setNode hs hkeep

theorem Inv.step (I : S.Inv) {a : Input n} (hs : S.Steady C a) (ho : S.Orderly C a) :
    (S.step C a).Inv := by
  cases a with
  | request i cmd cb => exact I.request ho
  | call i op =>
    have hid : ((S.node i).core.step C op).id = (S.node i).core.id :=
      (Replica.exec_steps C (I.sound i).wf op).rid
    obtain ⟨hsound, hkeep⟩ := (I.sound i).call hs.2.1 hs.2.2 hid ho
    exact I.setNode hsound hkeep
  | qcFinish i =>
    obtain ⟨hsound, hkeep⟩ := (I.sound i).qcFinish hs
    exact I.setNode hsound hkeep

theorem Inv.start (hn : 0 < n) {c : Fin n → Setup} (hc : ∀ i, 0 < (c i).config.nmajority)
    (blkSize : ℕ) : (start c blkSize).Inv := by
  refine ⟨?_, ?_, ?_⟩
  · intro i
    refine ⟨Replica.quorate_start (c i) (hc i), fun hne => absurd rfl hne, ?_⟩
    exact fun hne => absurd rfl hne
  · intro x hx
    exact absurd hx (Finset.notMem_empty x)
  · intro x hx
    exact absurd (hx ⟨0, hn⟩) (Finset.notMem_empty x)

/-- The input brings no block with the command and proposes none. -/
def Avoids (x : Hash) : Input n → Prop
  | .call _ (.addBlk body) => x ∉ body.cmds
  | .qcFinish _ => False
  | _ => True

end FixedServers

namespace FixedServer

theorem request_tree (st : FixedServer) (cmd : ClientCommandVars) (cb : ℕ) :
    (st.request cmd cb).core.tree = st.core.tree := by
  have htree : (st.core.receiveCommand cmd cb).tree = st.core.tree :=
    congrArg Ledger.tree (st.core.receiveCommand_alike cmd cb).ledger
  have hschedule : ∀ q : FixedServer, q.scheduleNext.core.tree = q.core.tree := by
    intro q
    rcases @scheduleNext_core .sample q with hsame | hstep
    · rw [hsame]
    · rw [hstep]
      exact congrArg Ledger.tree (Replica.asyncQcFinish_ledger ..)
  unfold FixedServer.request
  simp only []
  split
  · exact htree
  generalize (if cmd.key.tmod 100 ≤ 15 then st.pm.cmdPendingBuffer ++ [cmd]
    else st.pm.cmdPendingBuffer) = buffer
  split
  · unfold FixedServer.beat
    rw [hschedule]
    exact htree
  · exact htree

end FixedServer

namespace FixedServers
variable {n : ℕ} {C : Crypto} {S : FixedServers n}

def Absent (x : Hash) (s : Replica) : Prop := ∀ h m, s.tree h = some m → x ∉ m.body.cmds

theorem Absent.call {x : Hash} {s : Replica} (w : s.tree.Wf) (ha : Absent x s) {op : Op}
    (hout : op.outside = true) (hadd : ∀ body, op = .addBlk body → x ∉ body.cmds) :
    Absent x (s.step C op) := by
  have hsteps := Replica.exec_steps C w op
  intro h m hm
  by_cases hstore : (s.guard C op).store h
  · rcases hstore with ⟨body, rfl, rfl⟩ | hprop
    · exact @Replica.addBlk_bodies s (fun body => x ∉ body.cmds) _ (.parsed body) ha
        (hadd body rfl) _ m hm
    · cases op with
      | propose cmds keys vals parents extra => exact absurd hout (by simp [Op.outside])
      | _ => cases hprop
  · obtain ⟨m', hm', hbody⟩ := hsteps.body_before hstore hm
    rw [← hbody]
    exact ha h m' hm'

theorem absent_of_reach {c : Fin n → Setup} {blkSize : ℕ} {x : Hash}
    (h : Runs.Reach (fun S a => S.Steady C a ∧ Avoids x a) (step C) (start c blkSize) S) :
    ∀ i, (S.node i).core.tree.Wf ∧ Absent x (S.node i).core := by
  refine h.invariant (fun S => ∀ i, (S.node i).core.tree.Wf ∧ Absent x (S.node i).core) ?_ ?_
  · intro i
    refine ⟨(c i).start_chained.wf, ?_⟩
    intro b m hm
    obtain ⟨blk, hblk, rfl⟩ := Replica.cache_of_tree _ hm
    by_cases hb : b = b0
    · subst b
      have hgen : Block.genesis (c i).config = blk := Option.some.inj hblk
      rw [← hgen]
      exact List.not_mem_nil
    · have hnone : (c i).start.storage.blkCache b = none := Replica.start_cache (c i) hb
      rw [show ((FixedServers.start c blkSize).node i).core = (c i).start from rfl, hnone] at hblk
      cases hblk
  · intro S a ih hok i
    cases a with
    | request j cmd cb =>
      have hnode : (S.step C (.request j cmd cb)).node =
          Function.update S.node j ((S.node j).request cmd cb) := by
        unfold FixedServers.step
        simp only []
        split <;> rfl
      rw [hnode]
      by_cases hij : i = j
      · subst i
        have htree := (S.node j).request_tree cmd cb
        rw [Function.update_self]
        unfold Absent
        rw [htree]
        exact ih j
      · rw [Function.update_of_ne hij]
        exact ih i
    | call j op =>
      change (((S.setNode j _).node i).core).tree.Wf ∧ Absent x ((S.setNode j _).node i).core
      by_cases hij : i = j
      · subst i
        rw [setNode_self]
        obtain ⟨w, ha⟩ := ih j
        refine ⟨(Replica.exec_steps C w op).wf w, ha.call w hok.1.1 ?_⟩
        rintro body rfl
        exact hok.2
      · rw [setNode_other hij]
        exact ih i
    | qcFinish j => exact absurd hok.2 id

section
variable (C) (S)

instance (s : Replica) (op : Op) : Decidable (s.Handled C op) :=
  decidable_of_iff (s.Proper C op ∧ op.Verified C ∧ s.Fetched op)
    ⟨fun h => ⟨h.1, h.2.1, h.2.2⟩, fun h => ⟨h.proper, h.verified, h.fetched⟩⟩

instance (a : Input n) : Decidable (S.Steady C a) :=
  match a with
  | .request _ _ _ => inferInstanceAs (Decidable True)
  | .call _ _ => inferInstanceAs (Decidable (_ ∧ _ ∧ _))
  | .qcFinish i => inferInstanceAs (Decidable (∀ p ∈ (S.node i).pm.pmQcFinish, _))

instance (a : Input n) : Decidable (S.Orderly C a) :=
  match a with
  | .request _ _ _ => inferInstanceAs (Decidable (_ = true → _ = false → _ → _))
  | .call _ _ => inferInstanceAs (Decidable (_ ≠ _ → _))
  | .qcFinish _ => inferInstanceAs (Decidable True)

instance (x : Hash) (a : Input n) : Decidable (Avoids x a) :=
  match a with
  | .call _ (.addBlk body) => inferInstanceAs (Decidable (x ∉ body.cmds))
  | .qcFinish _ => inferInstanceAs (Decidable False)
  | .request _ _ _ | .call _ (.deliverBlk _) | .call _ (.receiveProposal ..)
  | .call _ (.receiveVote _) | .call _ (.propose ..) | .call _ (.receiveMcLocal ..)
  | .call _ (.relayMc ..) | .call _ (.remoteViewChangeTimeout _)
  | .call _ (.receiveLComplain _) | .call _ (.receiveRComplain ..) | .call _ (.msgRecs _)
  | .call _ (.sendReconfigAck ..) | .call _ (.msgRecsAggEchoReady _)
  | .call _ (.asyncQcFinish _) | .call _ (.waitDecision ..) => inferInstanceAs (Decidable True)

end

theorem not_delivered_of_reach {c : Fin n → Setup} {blkSize : ℕ} {x : Hash}
    (h : Runs.Reach (fun S a => S.Steady C a ∧ Avoids x a) (step C) (start c blkSize) S) :
    ¬S.Delivered x := by
  rintro ⟨i, b, blk, hblk, -, hx⟩
  exact (absent_of_reach h i).2 b _ (Replica.tree_of_cache _ hblk) hx

def sending (is : List (Fin 4)) : List (Input 4) :=
  is.map fun i => .request i ⟨5, 1, 2, 0, 0, -1⟩ 0

def runOf (inputs : List (Input 4)) : FixedServers 4 :=
  Runs.run (step .sample) (start (fun i => .four i) 1) inputs

def firstBlock : List (Input 4) :=
  [0, 1, 2, 3].flatMap fun i => [.call i (.addBlk (.sample b0 b0 7 [])), .call i (.deliverBlk 1)]

def rotating (i : Fin 4) : Input 4 := .call i (.receiveRComplain ⟨9, 1, 1, ⟨1, 1⟩⟩ 0)

/-- Replica 0 rotates before it dequeues the command, the others after. -/
def rotation : List (Input 4) :=
  firstBlock ++ sending [1, 2, 3] ++ [rotating 0] ++ sending [0] ++
    [rotating 1, rotating 2, rotating 3]

end FixedServers

end AvaHotstuff
