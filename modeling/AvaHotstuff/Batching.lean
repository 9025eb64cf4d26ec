import AvaHotstuff.PacingLock

set_option autoImplicit false

namespace AvaHotstuff
open Ancestry

abbrev Triple := Hash × ℤ × ℤ

def ClientCommandVars.triple (cmd : ClientCommandVars) : Triple := (cmd.cmdHash, cmd.key, cmd.val)

/-- The test before `cmd_pending_buffer.push`. -/
def ClientCommandVars.pushed (cmd : ClientCommandVars) : Bool := decide (cmd.key.tmod 100 ≤ 15)

def Batch.triples (b : Batch) : List Triple := b.cmds.zip (b.keys.zip b.vals)

structure Batch.Sized (n : ℕ) (b : Batch) : Prop where
  cmds : b.cmds.length = n
  keys : b.keys.length = n
  vals : b.vals.length = n

theorem Batch.ofBuffer_triples (cmds : List ClientCommandVars) :
    (Batch.ofBuffer cmds).triples = cmds.map (·.triple) := by
  induction cmds with
  | nil => rfl
  | cons cmd cmds ih => exact congrArg (cmd.triple :: ·) ih

theorem Batch.ofBuffer_sized {n : ℕ} {cmds : List ClientCommandVars} (h : n ≤ cmds.length) :
    (Batch.ofBuffer (cmds.take n)).Sized n := by
  have hlen : (cmds.take n).length = n := List.length_take_of_le h
  exact ⟨(List.length_map _).trans hlen, (List.length_map _).trans hlen,
    (List.length_map _).trans hlen⟩

def Replica.commandsOf (s : Replica) (h : Hash) : Batch :=
  match s.storage.blkCache h with
  | none => ⟨[], [], []⟩
  | some blk => blk.body.commands

def FixedServer.proposes (C : Crypto) (st : FixedServer) : Option Hash :=
  match st.due with
  | none => none
  | some b =>
    let s := st.core
    if s.pmaker.proposer = s.id ∧
        (s.onPropose C b.cmds b.keys b.vals [s.pmaker.hqcTail] []).2 = none then
      some (C.getHash (s.tailBlock b.cmds b.keys b.vals []).body)
    else none

/-- A replica with the commands that it has dequeued and the blocks that it has proposed. -/
structure Batching where
  server : FixedServer
  dequeued : List ClientCommandVars
  proposed : List Hash

namespace Batching

inductive Input where
  | request (cmd : ClientCommandVars) (cb : ℕ)
  | vote (v : Vote)
  | qcFinish

def start (c : Setup) (blkSize : ℕ) : Batching := ⟨.start c blkSize, [], []⟩

def step (C : Crypto) (B : Batching) : Input → Batching
  | .request cmd cb =>
    { B with server := B.server.request cmd cb, dequeued := B.dequeued ++ [cmd] }
  | .vote v => { B with server := B.server.act (.vote v) }
  | .qcFinish =>
    { B with
      server := B.server.qcFinish C
      proposed := B.proposed ++ (B.server.proposes C).toList }

def Fair (C : Crypto) (B : Batching) : Input → Prop
  | .request _ _ => True
  | .vote v => v.verify C = true
  | .qcFinish => ∀ p ∈ B.server.pm.pmQcFinish, B.server.core.Proper C
      (.propose p.2.cmds p.2.keys p.2.vals [B.server.core.pmaker.hqcTail] [])

/-- The batches of the proposed blocks and those that wait for a beat. -/
def batches (B : Batching) : List Batch :=
  B.proposed.map B.server.core.commandsOf ++ B.server.waiting

end Batching

namespace Replica
variable {s u : Replica}

theorem commandsOf_eq (s : Replica) (h : Hash) :
    s.commandsOf h = ((s.tree h).map (·.body.commands)).getD ⟨[], [], []⟩ := by
  unfold commandsOf tree
  cases s.storage.blkCache h with
  | none => rfl
  | some blk => rfl

theorem commandsOf_grows (g : Tree.Grows s.tree u.tree) {h : Hash}
    (hs : (s.tree h).isSome = true) : u.commandsOf h = s.commandsOf h := by
  obtain ⟨n, hn⟩ := Option.isSome_iff_exists.mp hs
  obtain ⟨m, hm, hbody, -⟩ := g.keep h n hn
  rw [commandsOf_eq, commandsOf_eq, hn, hm]
  exact congrArg Body.commands hbody

theorem OwnChain.propose_commands (C : Crypto) (I : s.OwnChain) {cmds : List Hash}
    {keys vals : List ℤ} {extra : List UInt8}
    (hop : s.Proper C (.propose cmds keys vals [s.pmaker.hqcTail] extra)) :
    ((s.onPropose C cmds keys vals [s.pmaker.hqcTail] extra).1.tree
        (C.getHash (s.tailBlock cmds keys vals extra).body)).isSome = true ∧
      (s.onPropose C cmds keys vals [s.pmaker.hqcTail] extra).1.commandsOf
        (C.getHash (s.tailBlock cmds keys vals extra).body) = ⟨cmds, keys, vals⟩ := by
  obtain ⟨u, v, hu, e⟩ := deliverTail_spec C I.quorate hop
  obtain ⟨n, hn, -⟩ := Tree.exists_of_delivered e.made.delivered
  have hbody : n.body = (s.tailBlock cmds keys vals extra).body := by
    refine @storeProposal_body s _ _ [s.pmaker.hqcTail] hop.2 n ?_
    change (s.deliverTail C (s.tailBlock cmds keys vals extra)).1.tree _ = _
    rw [hu]
    exact hn
  obtain ⟨hchain, hclosed⟩ := I.extended_chain e
  have hreturns := update_returns e.made.chained hclosed hchain e.made.delivered e.made.delivered
  rw [onPropose_tail, hu]
  simp only []
  rw [Outcome.andThen_of_none hreturns]
  have hsteps := update_ledger (G := Ledger.Guard.none) e.made.chained.wf
    (C.getHash (s.tailBlock cmds keys vals extra).body)
  obtain ⟨m, hm, hmbody, -⟩ := hsteps.grows.keep _ n hn
  have htree := finishProposal_tree (s := (u.update (C.getHash
    (s.tailBlock cmds keys vals extra).body)).1) C
    (C.getHash (s.tailBlock cmds keys vals extra).body)
  rw [commandsOf_eq, htree, show Replica.tree _ _ = some m from hm]
  refine ⟨rfl, ?_⟩
  change m.body.commands = _
  rw [hmbody, hbody]
  rfl

end Replica

namespace FixedServer
variable {C : Crypto} {st : FixedServer} {b : Batch} {blkSize : ℕ}

structure Stable (blkSize : ℕ) (st : FixedServer) : Prop where
  own : st.core.OwnChain
  leads : st.core.pmaker.proposer = st.core.id
  lock : st.pm.pmQcFinish ≠ none → st.pm.locked = true
  size : st.pm.blkSize = blkSize

theorem scheduleNext_size : st.scheduleNext.pm.blkSize = st.pm.blkSize := by
  unfold scheduleNext
  split
  · rfl
  · split <;> rfl

theorem scheduleNext_tree : st.scheduleNext.core.tree = st.core.tree := by
  rcases @scheduleNext_core .sample st with hsame | hstep
  · rw [hsame]
  · rw [hstep]
    exact congrArg Ledger.tree (Replica.asyncQcFinish_ledger ..)

theorem Stable.scheduleNext (S : st.Stable blkSize) : st.scheduleNext.Stable blkSize := by
  refine ⟨?_, ?_, scheduleNext_locked S.lock, scheduleNext_size.trans S.size⟩
  · rcases @scheduleNext_core .sample st with hsame | hstep
    · rw [hsame]
      exact S.own
    · rw [hstep]
      exact S.own.asyncQcFinish _
  · rcases @scheduleNext_core .sample st with hsame | hstep
    · rw [hsame]
      exact S.leads
    · rw [hstep]
      have hframe := st.core.asyncQcFinish_frame st.pm.lastProposed
      exact (congrArg Frame.proposer hframe).trans (S.leads.trans (congrArg Frame.id hframe).symm)

theorem Stable.request (S : st.Stable blkSize) (cmd : ClientCommandVars) (cb : ℕ) :
    (st.request cmd cb).Stable blkSize ∧ ∃ new : List Batch,
      (st.request cmd cb).waiting = st.waiting ++ new ∧ (∀ b ∈ new, b.Sized blkSize) ∧
      new.flatMap Batch.triples ++ (st.request cmd cb).pm.cmdPendingBuffer.map (·.triple) =
        st.pm.cmdPendingBuffer.map (·.triple) ++ ([cmd].filter (·.pushed)).map (·.triple) := by
  have halike := st.core.receiveCommand_alike cmd cb
  have hq := S.own.quorate.alike halike
  unfold FixedServer.request
  simp only []
  have hlead : (st.core.receiveCommand cmd cb).pmaker.proposer =
      (st.core.receiveCommand cmd cb).id := by
    have h := halike.leader
    unfold Replica.checkLeader at h
    rw [decide_eq_true S.leads.symm] at h
    exact (of_decide_eq_true h).symm
  generalize st.core.receiveCommand cmd cb = u at halike hq hlead ⊢
  have hu : Stable blkSize ⟨u, st.pm⟩ :=
    ⟨S.own.of_same hq halike.ledger halike.head, hlead, S.lock, S.size⟩
  rw [if_neg (not_not.mpr hlead)]
  generalize hbuf : (if cmd.key.tmod 100 ≤ 15 then st.pm.cmdPendingBuffer ++ [cmd]
    else st.pm.cmdPendingBuffer) = buffer
  have hmap : buffer.map (·.triple) = st.pm.cmdPendingBuffer.map (·.triple) ++
      ([cmd].filter (·.pushed)).map (·.triple) := by
    rw [← hbuf, ← List.map_append, List.filter_singleton]
    unfold ClientCommandVars.pushed
    by_cases hkey : cmd.key.tmod 100 ≤ 15
    · simp [hkey]
    · simp [hkey]
  rw [← hmap]
  split
  · rename_i hfull
    rw [S.size] at hfull ⊢
    refine ⟨Stable.scheduleNext ⟨hu.own, hu.leads, hu.lock, rfl⟩,
      [.ofBuffer (buffer.take blkSize)], beat_waiting S.lock, ?_, ?_⟩
    · intro b hb
      rw [List.mem_singleton.mp hb]
      exact Batch.ofBuffer_sized hfull
    · unfold FixedServer.beat
      rw [scheduleNext_buffer, List.flatMap_singleton, Batch.ofBuffer_triples, ← List.map_append,
        List.take_append_drop]
  · refine ⟨⟨hu.own, hu.leads, hu.lock, hu.size⟩, [], (List.append_nil _).symm, ?_, rfl⟩
    intro b hb
    cases hb

theorem Stable.vote (S : st.Stable blkSize) {v : Vote} (hv : v.verify C = true) :
    (st.act (.vote v)).Stable blkSize := by
  refine ⟨(S.own.receiveVote C hv).1, ?_, S.lock, S.size⟩
  have hframe := st.core.onReceiveVote_frame v
  exact (congrArg Frame.proposer hframe).trans (S.leads.trans (congrArg Frame.id hframe).symm)

theorem Stable.propose (S : st.Stable blkSize) (hdue : st.due = some b)
    (hop : st.core.Proper C
      (.propose b.cmds b.keys b.vals [st.core.pmaker.hqcTail] [])) :
    (st.qcFinish C).Stable blkSize ∧
      (st.qcFinish C).pm.cmdPendingBuffer = st.pm.cmdPendingBuffer ∧
      Tree.Grows st.core.tree (st.qcFinish C).core.tree ∧
      ∃ h, st.proposes C = some h ∧ ((st.qcFinish C).core.tree h).isSome = true ∧
        (st.qcFinish C).core.commandsOf h = b := by
  obtain ⟨hown, -⟩ := S.own.propose C hop
  have hnone := S.own.propose_returns C hop
  obtain ⟨hstored, hcommands⟩ := S.own.propose_commands C hop
  have hframe := st.core.onPropose_frame C b.cmds b.keys b.vals [st.core.pmaker.hqcTail] []
  have hgrows : Tree.Grows st.core.tree (st.core.onPropose C b.cmds b.keys b.vals
      [st.core.pmaker.hqcTail] []).1.tree :=
    (Replica.exec_steps C S.own.wf
      (.propose b.cmds b.keys b.vals [st.core.pmaker.hqcTail] [])).grows
  have hproposes : st.proposes C =
      some (C.getHash (st.core.tailBlock b.cmds b.keys b.vals []).body) := by
    unfold proposes
    rw [hdue]
    exact if_pos ⟨S.leads, hnone⟩
  rw [qcFinish_of_some hdue]
  unfold beaten
  rw [if_pos S.leads]
  unfold FixedServer.onPropose
  simp only []
  generalize st.core.onPropose C b.cmds b.keys b.vals [st.core.pmaker.hqcTail] [] = r
    at hown hnone hstored hcommands hframe hgrows ⊢
  obtain ⟨u, none | e⟩ := r
  · simp only [] at hown hstored hcommands hframe hgrows ⊢
    have hlead : u.pmaker.proposer = u.id :=
      (congrArg Frame.proposer hframe).trans (S.leads.trans (congrArg Frame.id hframe).symm)
    refine ⟨Stable.scheduleNext ⟨hown, hlead, fun hne => absurd rfl hne, S.size⟩,
      scheduleNext_buffer, ?_, _, hproposes, ?_, ?_⟩
    · rw [scheduleNext_tree]
      exact hgrows
    · rw [scheduleNext_tree]
      exact hstored
    · rw [Replica.commandsOf_eq, scheduleNext_tree, ← Replica.commandsOf_eq]
      exact hcommands
  · cases hnone

end FixedServer

namespace Batching
variable {C : Crypto} {B : Batching} {blkSize : ℕ}

structure Inv (blkSize : ℕ) (B : Batching) : Prop where
  stable : B.server.Stable blkSize
  stored : ∀ h ∈ B.proposed, (B.server.core.tree h).isSome = true
  sized : ∀ b ∈ B.batches, b.Sized blkSize
  order : B.batches.flatMap Batch.triples ++ B.server.pm.cmdPendingBuffer.map (·.triple) =
    (B.dequeued.filter (·.pushed)).map (·.triple)

theorem Inv.proposed_map (I : B.Inv blkSize) {st : FixedServer}
    (g : Tree.Grows B.server.core.tree st.core.tree) :
    B.proposed.map st.core.commandsOf = B.proposed.map B.server.core.commandsOf := by
  refine List.map_congr_left ?_
  intro h hh
  exact Replica.commandsOf_grows g (I.stored h hh)

theorem Inv.request (I : B.Inv blkSize) (cmd : ClientCommandVars) (cb : ℕ) :
    (B.step C (.request cmd cb)).Inv blkSize := by
  obtain ⟨hstable, new, hwaiting, hsized, hnew⟩ := I.stable.request cmd cb
  have htree := B.server.request_tree cmd cb
  have hbatches : (B.step C (.request cmd cb)).batches = B.batches ++ new := by
    change B.proposed.map (B.server.request cmd cb).core.commandsOf ++
      (B.server.request cmd cb).waiting = _
    rw [I.proposed_map (by rw [htree]; exact .refl _), hwaiting]
    exact (List.append_assoc ..).symm
  refine ⟨hstable, ?_, ?_, ?_⟩
  · intro h hh
    change ((B.server.request cmd cb).core.tree h).isSome = true
    rw [htree]
    exact I.stored h hh
  · intro b hb
    rw [hbatches] at hb
    rcases List.mem_append.mp hb with hold | hb'
    · exact I.sized b hold
    · exact hsized b hb'
  · rw [hbatches, List.flatMap_append, List.append_assoc]
    change B.batches.flatMap Batch.triples ++ (new.flatMap Batch.triples ++
      (B.server.request cmd cb).pm.cmdPendingBuffer.map (·.triple)) =
        ((B.dequeued ++ [cmd]).filter (·.pushed)).map (·.triple)
    rw [hnew, ← List.append_assoc, I.order, List.filter_append, List.map_append]

theorem Inv.vote (I : B.Inv blkSize) {v : Vote} (hv : v.verify C = true) :
    (B.step C (.vote v)).Inv blkSize := by
  have htree : (B.server.act (.vote v)).core.tree = B.server.core.tree :=
    congrArg Ledger.tree (B.server.core.onReceiveVote_ledger v)
  have hbatches : (B.step C (.vote v)).batches = B.batches := by
    change B.proposed.map (B.server.act (.vote v)).core.commandsOf ++ B.server.waiting = _
    rw [I.proposed_map (by rw [htree]; exact .refl _)]
    rfl
  refine ⟨I.stable.vote hv, ?_, ?_, ?_⟩
  · intro h hh
    change ((B.server.act (.vote v)).core.tree h).isSome = true
    rw [htree]
    exact I.stored h hh
  · rw [hbatches]
    exact I.sized
  · rw [hbatches]
    exact I.order

theorem Inv.qcFinish (I : B.Inv blkSize) (hf : B.Fair C .qcFinish) :
    (B.step C .qcFinish).Inv blkSize := by
  have hwaiting := B.server.qcFinish_waiting C
  cases hdue : B.server.due with
  | none =>
    have hsame : B.step C .qcFinish = B := by
      have hproposes : B.server.proposes C = none := by
        unfold FixedServer.proposes
        rw [hdue]
      unfold Batching.step
      rw [hproposes, FixedServer.qcFinish_of_none hdue, Option.toList_none, List.append_nil]
    rw [hsame]
    exact I
  | some b =>
    obtain ⟨blk, hfinish, -⟩ := FixedServer.due_some hdue
    obtain ⟨hstable, hbuffer, hgrows, h, hproposes, hstored, hcommands⟩ :=
      I.stable.propose hdue (hf (blk, b) hfinish)
    have hproposed : (B.step C .qcFinish).proposed = B.proposed ++ [h] := by
      change B.proposed ++ (B.server.proposes C).toList = _
      rw [hproposes]
      rfl
    have hbatches : (B.step C .qcFinish).batches = B.batches := by
      change (B.step C .qcFinish).proposed.map (B.server.qcFinish C).core.commandsOf ++
        (B.server.qcFinish C).waiting = B.proposed.map _ ++ B.server.waiting
      rw [hproposed, List.map_append, I.proposed_map hgrows, List.map_singleton, hcommands,
        hwaiting, hdue, List.append_assoc]
      rfl
    refine ⟨hstable, ?_, ?_, ?_⟩
    · intro x hx
      rw [hproposed] at hx
      rcases List.mem_append.mp hx with hold | hnew
      · obtain ⟨n, hn⟩ := Option.isSome_iff_exists.mp (I.stored x hold)
        obtain ⟨m, hm, -⟩ := hgrows.keep x n hn
        change ((B.server.qcFinish C).core.tree x).isSome = true
        rw [hm]
        rfl
      · rw [List.mem_singleton.mp hnew]
        exact hstored
    · rw [hbatches]
      exact I.sized
    · rw [hbatches]
      change _ ++ (B.server.qcFinish C).pm.cmdPendingBuffer.map (·.triple) = _
      rw [hbuffer]
      exact I.order

theorem Inv.start (c : Setup) (hpos : 0 < c.config.nmajority) (hlead : c.proposer = c.id)
    (blkSize : ℕ) : (start c blkSize).Inv blkSize := by
  refine ⟨⟨Replica.OwnChain.start c hpos, hlead, fun hne => absurd rfl hne, rfl⟩, ?_, ?_, rfl⟩
  · intro h hh
    cases hh
  · intro b hb
    cases hb

/-- The commands of the proposed blocks, of the batches that wait and of the buffer are the
write commands in the order of their arrival, and a block has `blk_size` of them. -/
theorem batches_in_order (C : Crypto) (c : Setup) (hpos : 0 < c.config.nmajority)
    (hlead : c.proposer = c.id) (blkSize : ℕ) {B : Batching}
    (h : Runs.Reach (fun B i => B.Fair C i) (step C) (start c blkSize) B) :
    (B.proposed.map B.server.core.commandsOf).flatMap Batch.triples ++
        B.server.waiting.flatMap Batch.triples ++
        B.server.pm.cmdPendingBuffer.map (·.triple) =
      (B.dequeued.filter fun cmd => decide (cmd.key.tmod 100 ≤ 15)).map (·.triple) ∧
      ∀ h ∈ B.proposed, (B.server.core.commandsOf h).Sized blkSize := by
  have I : B.Inv blkSize := by
    refine h.invariant (Inv blkSize) (.start c hpos hlead blkSize) ?_
    intro B i I hi
    cases i with
    | request cmd cb => exact I.request cmd cb
    | vote v => exact I.vote hi
    | qcFinish => exact I.qcFinish hi
  refine ⟨?_, ?_⟩
  · rw [← List.flatMap_append]
    exact I.order
  · intro x hx
    refine I.sized _ (List.mem_append_left _ ?_)
    exact List.mem_map_of_mem hx

instance (i : Input) : Decidable (B.Fair C i) :=
  match i with
  | .request _ _ => inferInstanceAs (Decidable True)
  | .vote _ => inferInstanceAs (Decidable (_ = true))
  | .qcFinish => inferInstanceAs (Decidable (∀ p ∈ B.server.pm.pmQcFinish, _))

/-- Seven writes with a read among them in batches of two. The second batch waits for the votes
for the first block, the third one for the second. -/
def sevenWrites : List Input :=
  [.request ⟨5, 1, 10, 0, 0, -1⟩ 0, .request ⟨6, 102, 11, 0, 0, -1⟩ 0, .qcFinish,
    .request ⟨7, 3, 12, 0, 0, -1⟩ 0, .request ⟨8, 50, 13, 0, 0, -1⟩ 0,
    .request ⟨9, 4, 14, 0, 0, -1⟩ 0, .request ⟨10, 5, 15, 0, 0, -1⟩ 0,
    .vote ⟨1, 1, ⟨1, 1⟩⟩, .request ⟨11, 6, 16, 0, 0, -1⟩ 0, .vote ⟨2, 1, ⟨1, 1⟩⟩, .qcFinish,
    .request ⟨12, 7, 17, 0, 0, -1⟩ 0]

theorem batches_in_order_seven :
    let B := Runs.run (step .sample) (start (.four 0) 2) sevenWrites
    B.proposed = [1, 3] ∧ B.server.waiting.length = 1 ∧
      B.server.pm.cmdPendingBuffer.map (·.triple) = [(12, 7, 17)] ∧
      (B.proposed.map B.server.core.commandsOf).flatMap Batch.triples ++
          B.server.waiting.flatMap Batch.triples ++
          B.server.pm.cmdPendingBuffer.map (·.triple) =
        (B.dequeued.filter fun cmd => decide (cmd.key.tmod 100 ≤ 15)).map (·.triple) := by
  refine ⟨by decide +kernel, by decide +kernel, by decide +kernel, ?_⟩
  refine (batches_in_order .sample (.four 0) (by decide) rfl 2 (Runs.reach_run _ .init ?_)).1
  decide +kernel

end Batching

end AvaHotstuff
