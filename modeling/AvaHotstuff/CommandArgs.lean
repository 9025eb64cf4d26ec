import AvaHotstuff.CommandVectors
import AvaHotstuff.CommitLog

set_option autoImplicit false

namespace AvaHotstuff
open Bytes

/-- Each command stands with its own key and value, and the list fits the wire. -/
structure Batch.Paired (K : Hash → ℤ × ℤ) (b : Batch) : Prop where
  keys : b.keys = b.cmds.map fun c => (K c).1
  vals : b.vals = b.cmds.map fun c => (K c).2
  count : b.cmds.length < 2 ^ 32
  hashes : ∀ c ∈ b.cmds, c < 2 ^ 256

def Body.commands (b : Body) : Batch := ⟨b.cmds, b.keys, b.vals⟩

structure Body.Paired (K : Hash → ℤ × ℤ) (b : Body) : Prop where
  parents : b.parentHashes.length < 2 ^ 32
  commands : b.commands.Paired K

def IntArgs (K : Hash → ℤ × ℤ) : Prop :=
  ∀ c, (-2 ^ 31 ≤ (K c).1 ∧ (K c).1 < 2 ^ 31) ∧ -2 ^ 31 ≤ (K c).2 ∧ (K c).2 < 2 ^ 31

/-- A command as its client made it. -/
def ClientCommandVars.Genuine (K : Hash → ℤ × ℤ) (cmd : ClientCommandVars) : Prop :=
  (cmd.key, cmd.val) = K cmd.cmdHash ∧ cmd.cmdHash < 2 ^ 256

instance (K : Hash → ℤ × ℤ) (cmd : ClientCommandVars) : Decidable (cmd.Genuine K) :=
  inferInstanceAs (Decidable (_ ∧ _))

section
variable {K : Hash → ℤ × ℤ}

theorem Batch.paired_ofBuffer {buffer : List ClientCommandVars}
    (h : ∀ cmd ∈ buffer, cmd.Genuine K) (hlen : buffer.length < 2 ^ 32) :
    (Batch.ofBuffer buffer).Paired K := by
  unfold Batch.ofBuffer
  constructor
  · rw [List.map_map]
    exact List.map_congr_left fun cmd hcmd => congrArg Prod.fst (h cmd hcmd).1
  · rw [List.map_map]
    exact List.map_congr_left fun cmd hcmd => congrArg Prod.snd (h cmd hcmd).1
  · rw [List.length_map]
    exact hlen
  · intro c hc
    obtain ⟨cmd, hcmd, rfl⟩ := List.mem_map.mp hc
    exact (h cmd hcmd).2

theorem Batch.paired_renewed {cmds : List Hash} {junk : ℕ} (hjunk : junk = cmds.length)
    (hzero : ∀ c ∈ cmds, K c = (0, 0)) (hlen : cmds.length < 2 ^ 32)
    (hhash : ∀ c ∈ cmds, c < 2 ^ 256) : (Batch.renewed cmds junk).Paired K := by
  subst junk
  have hmap : ∀ f : ℤ × ℤ → ℤ, f (0, 0) = 0 →
      List.replicate cmds.length 0 = cmds.map fun c => f (K c) := by
    intro f hf
    rw [← List.map_const']
    exact List.map_congr_left fun c hc => by rw [hzero c hc, hf]
  exact ⟨hmap Prod.fst rfl, hmap Prod.snd rfl, hlen, hhash⟩

theorem Body.Paired.received (hK : IntArgs K) {F : SigFormat} {b b' : Body} (h : b.Paired K)
    {bs rest more : List UInt8} (hbs : b.serialize F = some bs)
    (hrun : (Body.unserialize F).run (bs ++ rest) = some (b', more)) : b'.Paired K := by
  obtain ⟨hkeys, hvals, hcount, hhash⟩ := h.commands
  have hparses : Parses Vectors.unserialize b.vectors.serialize
      { b.vectors with parentHashes := b.parentHashes.map fun h => h % 256 ^ 32 } := by
    apply Vectors.parses_mod h.parents hcount hhash
    · intro k hk
      rw [show b.vectors.keys = _ from hkeys] at hk
      obtain ⟨c, -, rfl⟩ := List.mem_map.mp hk
      exact (hK c).1
    · intro k hk
      rw [show b.vectors.vals = _ from hvals] at hk
      obtain ⟨c, -, rfl⟩ := List.mem_map.mp hk
      exact (hK c).2
    · constructor
      · rw [show b.vectors.keys = _ from hkeys]
        exact List.length_map _
      · rw [show b.vectors.vals = _ from hvals]
        exact List.length_map _
  have hv := Body.unserialize_vectors hparses hbs hrun
  obtain ⟨ps, cmds, keys, vals, qc, extra⟩ := b'
  obtain ⟨rfl, rfl, rfl, rfl⟩ := Vectors.mk.inj hv
  exact ⟨by rw [List.length_map]; exact h.parents, hkeys, hvals, hcount, hhash⟩

theorem BlockNode.decides_paired {n : BlockNode} (hn : n.body.Paired K) {h : Hash}
    {rid : ReplicaID} {fin : Finality} {key val : ℤ}
    (he : Event.decide fin key val ∈ n.decides h rid) : (key, val) = K fin.cmdHash := by
  rcases List.mem_cons.mp he with hex | hmem
  · cases hex
  obtain ⟨i, hi, heq⟩ := List.mem_map.mp hmem
  rw [List.mem_range] at hi
  have hkeys : n.body.keys = n.body.cmds.map fun c => (K c).1 := hn.commands.keys
  have hvals : n.body.vals = n.body.cmds.map fun c => (K c).2 := hn.commands.vals
  injection heq with hfin hkey hval
  rw [← hfin, ← hkey, ← hval, hkeys, hvals]
  simp [List.getD_eq_getElem?_getD, hi]

namespace Ledger

structure Keeps (K : Hash → ℤ × ℤ) (L : Ledger) : Prop where
  bodies : ∀ h n, L.tree h = some n → n.body.Paired K
  calls : ∀ fin key val, Event.decide fin key val ∈ L.log → (key, val) = K fin.cmdHash

def Guard.noStore : Guard := { Guard.any with store := fun _ => False }

theorem Guard.noStore_store (h : Hash) : ¬Guard.noStore.store h := fun hs => hs

theorem Steps.bodies {P : Body → Prop} {G : Guard} {L M : Ledger} (hs : Steps G L M)
    (hG : ∀ x, ¬G.store x) (hL : ∀ h n, L.tree h = some n → P n.body) :
    ∀ h n, M.tree h = some n → P n.body := by
  intro h n hn
  obtain ⟨m, hm, hbody⟩ := hs.body_before (hG h) hn
  rw [← hbody]
  exact hL h m hm

theorem Step.decide_new {G : Guard} {L M : Ledger} (hs : Step G L M) {fin : Finality}
    {key val : ℤ} (he : Event.decide fin key val ∈ M.log) :
    Event.decide fin key val ∈ L.log ∨
      ∃ h n, L.tree h = some n ∧ Event.decide fin key val ∈ n.decides h L.rid := by
  cases hs with
  | store => exact .inl he
  | link => exact .inl he
  | deliver => exact .inl he
  | lock => exact .inl he
  | disarm => exact .inl he
  | opine =>
    rcases List.mem_append.mp he with he | he
    · exact .inl he
    · cases List.mem_singleton.mp he
  | @note e hnote =>
    rcases List.mem_append.mp he with he | he
    · exact .inl he
    · rw [← List.mem_singleton.mp he] at hnote
      exact absurd hnote id
  | @advance h n stored =>
    rcases List.mem_append.mp he with he | he
    · exact .inl he
    rcases List.mem_cons.mp he with he | he
    · cases he
    split at he
    · exact .inr ⟨h, n, stored, he⟩
    · exact absurd he List.not_mem_nil
  | @finishMc cid =>
    unfold Ledger.finishMc at he
    split at he
    · exact .inl he
    rename_i h _
    split at he
    · rcases List.mem_append.mp he with he | he
      · exact .inl he
      unfold runBlk at he
      cases hn : L.tree h with
      | none =>
        rw [hn] at he
        exact absurd he List.not_mem_nil
      | some n =>
        rw [hn] at he
        exact .inr ⟨h, n, hn, he⟩
    · exact .inl he

theorem Steps.keeps {G : Guard} {L M : Ledger} (hs : Steps G L M) (hG : ∀ x, ¬G.store x)
    (k : L.Keeps K) : M.Keeps K := by
  refine hs.invariant k ?_
  intro N N' hstep ih
  refine ⟨hstep.steps.bodies hG ih.bodies, ?_⟩
  intro fin key val he
  rcases hstep.decide_new he with hold | ⟨h, n, hn, hnew⟩
  · exact ih.calls fin key val hold
  · exact BlockNode.decides_paired (ih.bodies h n hn) hnew

end Ledger

namespace Replica
variable {s : Replica}

theorem addBlk_bodies {P : Body → Prop} (h : Hash) {b : Block}
    (hs : ∀ x n, s.tree x = some n → P n.body) (hb : P b.body) :
    ∀ x n, (s.addBlk h b).tree x = some n → P n.body := by
  intro x n hn
  unfold addBlk EntityStorage.addBlk at hn
  split at hn
  · exact hs x n hn
  by_cases hx : x = h
  · subst x
    simp only [tree, Function.update_self, Option.map_some, Option.some.injEq] at hn
    rw [← hn]
    exact hb
  · simp only [tree, Function.update_of_ne hx] at hn
    exact hs x n hn

theorem storeProposal_bodies {P : Body → Prop} (h : Hash) {b : Block} (parents : List Hash)
    (hs : ∀ x n, s.tree x = some n → P n.body) (hb : P b.body) :
    ∀ x n, (s.storeProposal h b parents).tree x = some n → P n.body := by
  unfold storeProposal
  simp only []
  rw [tree_modifyBlk_same]
  · exact addBlk_bodies h hs hb
  · exact fun _ => rfl

theorem judgeProposalRr_steps (C : Crypto) (dst : ReplicaID) (selfProp : Bool) (bnew : Hash) :
    Ledger.Steps .noStore s.ledger
      (s.votingTo dst fun s => s.judgeProposal C selfProp bnew).1.ledger :=
  judgeProposal_steps (s := { s with pmaker := { s.pmaker with proposer := dst } }) C selfProp
    trivial

theorem onReceiveProposalRr_steps (C : Crypto) (w : s.tree.Wf) (proposer : ReplicaID)
    (bnew : Hash) :
    Ledger.Steps .noStore s.ledger (s.onReceiveProposalRr C proposer bnew).1.ledger := by
  unfold onReceiveProposalRr
  split
  · exact judgeProposalRr_steps C proposer true bnew
  split
  · exact .refl _
  · exact andThen_steps (update_ledger w bnew) fun _ => judgeProposalRr_steps C proposer false bnew

theorem finishProposalRr_steps (C : Crypto) (bnew : Hash) :
    Ledger.Steps .noStore s.ledger (s.finishProposalRr C bnew).1.ledger := by
  unfold finishProposalRr
  split
  · exact .refl _
  have hself : s.onReceiveProposalRr C s.id bnew =
      s.votingTo s.id fun s => s.judgeProposal C true bnew := if_pos rfl
  rw [hself]
  refine andThen_steps (judgeProposalRr_steps C s.id true bnew) ?_
  intro _
  rw [emit_ledger_off _ rfl, notifyPropose_ledger]
  exact .refl _

theorem onProposeRr_keeps (C : Crypto) (w : s.tree.Wf) (k : s.ledger.Keeps K) {b : Batch}
    (hb : b.Paired K) : (s.onProposeRr C b).1.tree.Wf ∧ (s.onProposeRr C b).1.ledger.Keeps K := by
  unfold onProposeRr
  simp only []
  generalize hblk : s.newBlock b.cmds b.keys b.vals [s.pmaker.hqcTail] s.pmaker.hqcTail [] = blk
  have hpaired : blk.body.Paired K := by
    rw [← hblk]
    exact ⟨Nat.one_lt_two_pow (by decide), hb⟩
  have hall := storeProposal_steps (G := .any) (s := s) (C.getHash blk.body) (b := blk)
    (by rw [← hblk]; rfl) (by rw [← hblk]; rfl) [s.pmaker.hqcTail] trivial trivial
  generalize hs' : s.storeProposal (C.getHash blk.body) blk [s.pmaker.hqcTail] = s' at hall ⊢
  have k' : s'.ledger.Keeps K := by
    rw [← hs']
    exact ⟨storeProposal_bodies _ _ k.bodies hpaired, k.calls⟩
  have hdeliver : Ledger.Steps .noStore s'.ledger
      (s'.onDeliverBlk (C.getHash blk.body)).1.ledger := onDeliverBlk_steps _ trivial
  have w' := hall.wf w
  generalize s'.onDeliverBlk (C.getHash blk.body) = r at hdeliver w' ⊢
  obtain ⟨u, e | valid⟩ := r
  · exact ⟨w', hdeliver.keeps Ledger.Guard.noStore_store k'⟩
  · have hrest := andThen_steps (update_ledger (G := .noStore) w' (C.getHash blk.body))
      (f := fun s => s.finishProposalRr C (C.getHash blk.body))
      fun _ => finishProposalRr_steps C _
    exact ⟨hrest.wf w', hrest.keeps Ledger.Guard.noStore_store
      (hdeliver.keeps Ledger.Guard.noStore_store k')⟩

theorem plain_keeps (C : Crypto) (w : s.tree.Wf) (k : s.ledger.Keeps K) {op : Op}
    (hop : op.plain = true) : (s.step C op).tree.Wf ∧ (s.step C op).ledger.Keeps K := by
  have hs := exec_steps C w op
  refine ⟨hs.wf w, hs.keeps ?_ k⟩
  rintro x (⟨body, rfl, -⟩ | hmade)
  · cases hop
  · cases op with
    | propose => cases hop
    | _ => cases hmade

end Replica

/-- The batches that wait to be proposed, and the commands that wait to be batched. -/
structure RoundRobin.Queued (K : Hash → ℤ × ℤ) (r : RoundRobin) : Prop where
  blkSize : r.blkSize < 2 ^ 32
  buffer : ∀ cmd ∈ r.cmdPendingBuffer, cmd.Genuine K
  beats : ∀ b ∈ r.pendingBeats, b.Paired K
  finish : ∀ b, r.pmQcFinish = some b → b.Paired K

namespace RoundRobin
variable {r : RoundRobin}

theorem Queued.proposerScheduleNext (q : r.Queued K) : r.proposerScheduleNext.Queued K := by
  unfold RoundRobin.proposerScheduleNext
  split
  · exact q
  rename_i b bs hbeats
  split
  · exact q
  · refine ⟨q.blkSize, q.buffer, ?_, ?_⟩
    · intro c hc
      apply q.beats
      rw [hbeats]
      exact List.mem_cons_of_mem _ hc
    · intro c hc
      apply q.beats
      rw [hbeats, ← Option.some.inj hc]
      exact List.mem_cons_self ..

theorem Queued.rotate (q : r.Queued K) : r.rotate.Queued K :=
  ⟨q.blkSize, q.buffer, q.beats, fun _ h => by cases h⟩

theorem Queued.stopRotate (q : r.Queued K) (elected : Bool) : (r.stopRotate elected).Queued K :=
  ⟨q.blkSize, q.buffer, q.beats, fun _ h => by cases h⟩

theorem Queued.onReceiveProposal (q : r.Queued K) (proposer : ReplicaID) (blk : Hash) :
    (r.onReceiveProposal proposer blk).Queued K := by
  unfold RoundRobin.onReceiveProposal
  split
  · exact ⟨q.blkSize, q.buffer, q.beats, q.finish⟩
  · exact q

theorem Queued.onPropose (q : r.Queued K) (id : ReplicaID) (blk : Hash) :
    (r.onPropose id blk).Queued K := by
  unfold RoundRobin.onPropose
  simp only []
  have q' : (if r.regProposal = true then
      { r.notePropBlk id blk with regProposal := r.rotating } else r).Queued K := by
    split
    · exact ⟨q.blkSize, q.buffer, q.beats, q.finish⟩
    · exact q
  generalize (if r.regProposal = true then
      { r.notePropBlk id blk with regProposal := r.rotating } else r) = r' at q' ⊢
  split
  · apply Queued.proposerScheduleNext
    exact ⟨q'.blkSize, q'.buffer, q'.beats, q'.finish⟩
  · exact q'

end RoundRobin

structure Server.Keeps (K : Hash → ℤ × ℤ) (st : Server) : Prop where
  wf : st.core.tree.Wf
  ledger : st.core.ledger.Keeps K
  queue : st.rr.Queued K

namespace Server
variable {st : Server} (C : Crypto)

theorem foldl_onEvent (es : List Event) (st : Server) (q : st.rr.Queued K) :
    (es.foldl onEvent st).core = st.core ∧ (es.foldl onEvent st).rr.Queued K := by
  induction es generalizing st with
  | nil => exact ⟨rfl, q⟩
  | cons e es ih =>
    have hone : (onEvent st e).core = st.core ∧ (onEvent st e).rr.Queued K := by
      unfold onEvent
      split
      · split
        · exact ⟨rfl, q.stopRotate _⟩
        · exact ⟨rfl, q⟩
      · split
        · exact ⟨rfl, q.rotate⟩
        · exact ⟨rfl, q⟩
      · exact ⟨rfl, q⟩
    obtain ⟨hcore, hqueue⟩ := ih (onEvent st e) hone.2
    exact ⟨hcore.trans hone.1, hqueue⟩

theorem Keeps.observe (k : st.Keeps K) {core : Replica} (w : core.tree.Wf)
    (kl : core.ledger.Keeps K) : (st.observe core).Keeps K := by
  obtain ⟨hcore, hqueue⟩ := foldl_onEvent (core.trace.drop st.core.trace.length)
    { st with core := core } k.queue
  refine ⟨?_, ?_, hqueue⟩
  · unfold Server.observe
    rw [hcore]
    exact w
  · unfold Server.observe
    rw [hcore]
    exact kl

theorem Keeps.with_rr (k : st.Keeps K) {r : RoundRobin} (q : r.Queued K) :
    ({ st with rr := r } : Server).Keeps K := ⟨k.wf, k.ledger, q⟩

theorem Keeps.onReceiveProposal (k : st.Keeps K) (proposer : ReplicaID) (blk : Hash) :
    (st.onReceiveProposal C proposer blk).Keeps K := by
  have hs := Replica.onReceiveProposalRr_steps C k.wf proposer blk
  have kl := hs.keeps Ledger.Guard.noStore_store k.ledger
  have w := hs.wf k.wf
  unfold Server.onReceiveProposal
  generalize st.core.onReceiveProposalRr C proposer blk = r at kl w ⊢
  obtain ⟨core, none | e⟩ := r
  · have k' := k.observe w kl
    exact k'.with_rr (k'.queue.onReceiveProposal proposer blk)
  · exact k.observe w kl

theorem Keeps.onPropose (k : st.Keeps K) {b : Batch} (hb : b.Paired K) :
    (st.onPropose C b).1.Keeps K := by
  obtain ⟨w, kl⟩ := Replica.onProposeRr_keeps C k.wf k.ledger hb
  unfold Server.onPropose
  simp only []
  generalize st.core.onProposeRr C b = r at kl w ⊢
  obtain ⟨core, none | e⟩ := r
  · have k' := k.observe w kl
    exact k'.with_rr ((k'.queue.onReceiveProposal _ _).onPropose _ _)
  · exact k.observe w kl

theorem Keeps.beaten (k : st.Keeps K) {b : Batch} (hb : b.Paired K) :
    (st.beaten C b).Keeps K := by
  unfold Server.beaten
  split
  · exact k.onPropose C hb
  · exact k

theorem Keeps.beat (k : st.Keeps K) {b : Batch} (hb : b.Paired K) : (st.beat C b).Keeps K := by
  unfold Server.beat
  split
  · apply k.with_rr
    apply RoundRobin.Queued.proposerScheduleNext
    refine ⟨k.queue.blkSize, k.queue.buffer, ?_, k.queue.finish⟩
    intro c hc
    rcases List.mem_append.mp hc with hc | hc
    · exact k.queue.beats c hc
    · rw [List.mem_singleton.mp hc]
      exact hb
  · exact k.beaten C hb

theorem Keeps.doNewConsensus (k : st.Keeps K) (x : ℕ) {cmds : List Hash} {junk : ℕ}
    (hb : (Batch.renewed cmds junk).Paired K) : (st.doNewConsensus C x cmds junk).Keeps K := by
  have k' := k.onPropose C hb
  unfold Server.doNewConsensus
  generalize st.onPropose C (.renewed cmds junk) = r at k' ⊢
  obtain ⟨st', _ | _⟩ := r
  · exact k'
  · exact k'.with_rr ⟨k'.queue.blkSize, k'.queue.buffer, k'.queue.beats, k'.queue.finish⟩

theorem request_ledger (st : Server) (cmd : ClientCommandVars) (cb : ℕ) {core : Replica}
    (hcore : core = (let core := st.core.waitDecision cmd.cmdHash cb
      let fin : Finality := ⟨core.id, 1, 0, 0, cmd.cmdHash, 0⟩
      let core := if 0 ≤ cmd.reconfigMode then
          core.sendReconfigAck fin ⟨cmd.clusterNumber, cmd.nodeNumber, cmd.reconfigMode⟩
        else core
      if 15 < cmd.key.tmod 100 then core.answerClient fin else core)) :
    core.ledger = st.core.ledger := by
  subst core
  simp only []
  split
  · rw [Replica.answerClient_ledger]
    split
    · rw [Replica.sendReconfigAck_ledger, Replica.waitDecision_ledger]
    · exact Replica.waitDecision_ledger ..
  · split
    · rw [Replica.sendReconfigAck_ledger, Replica.waitDecision_ledger]
    · exact Replica.waitDecision_ledger ..

theorem Keeps.request (k : st.Keeps K) {cmd : ClientCommandVars} (hcmd : cmd.Genuine K) (cb : ℕ) :
    (st.request C cmd cb).Keeps K := by
  unfold Server.request
  simp only []
  generalize hcore : (if 15 < cmd.key.tmod 100 then _ else _ : Replica) = core
  have hl := st.request_ledger cmd cb hcore.symm
  have htree : core.tree = st.core.tree := congrArg Ledger.tree hl
  have k₁ : ({ st with core := core } : Server).Keeps K := by
    refine ⟨?_, ?_, k.queue⟩
    · rw [htree]
      exact k.wf
    · rw [hl]
      exact k.ledger
  split
  · exact k₁
  have hbuffer : ∀ c ∈ (if cmd.key.tmod 100 ≤ 15 then st.rr.cmdPendingBuffer ++ [cmd]
      else st.rr.cmdPendingBuffer), c.Genuine K := by
    intro c hc
    split at hc
    · rcases List.mem_append.mp hc with hc | hc
      · exact k.queue.buffer c hc
      · rw [List.mem_singleton.mp hc]
        exact hcmd
    · exact k.queue.buffer c hc
  generalize (if cmd.key.tmod 100 ≤ 15 then st.rr.cmdPendingBuffer ++ [cmd]
      else st.rr.cmdPendingBuffer) = buffer at hbuffer ⊢
  split
  · apply Keeps.beat
    · apply k₁.with_rr
      refine ⟨k.queue.blkSize, ?_, k.queue.beats, k.queue.finish⟩
      exact fun c hc => hbuffer c (List.mem_of_mem_drop hc)
    · apply Batch.paired_ofBuffer
      · exact fun c hc => hbuffer c (List.mem_of_mem_take hc)
      · exact (List.length_take_le _ _).trans_lt k.queue.blkSize
  · exact k₁.with_rr ⟨k.queue.blkSize, hbuffer, k.queue.beats, k.queue.finish⟩

theorem Keeps.qcFinish (k : st.Keeps K) : (st.qcFinish C).Keeps K := by
  unfold Server.qcFinish
  split
  · exact k
  rename_i b hb
  refine Keeps.beaten C (k.with_rr ?_) (k.queue.finish b hb)
  exact ⟨k.queue.blkSize, k.queue.buffer, k.queue.beats, fun _ h => by cases h⟩

theorem paired_empty : (Batch.renewed [] 0).Paired K :=
  Batch.paired_renewed rfl (fun _ h => absurd h List.not_mem_nil) (Nat.two_pow_pos 32)
    fun _ h => absurd h List.not_mem_nil

theorem Keeps.qcManual (k : st.Keeps K) : (st.qcManual C 0).Keeps K := by
  unfold Server.qcManual
  split
  · exact k
  simp only []
  have k' : ({ st with rr := { st.rr with pmQcManual := none } } : Server).Keeps K :=
    k.with_rr ⟨k.queue.blkSize, k.queue.buffer, k.queue.beats, k.queue.finish⟩
  split
  · exact k'
  · exact k'.doNewConsensus C _ paired_empty

theorem Keeps.onExpTimeout (k : st.Keeps K) : (st.onExpTimeout C 0).Keeps K := by
  unfold Server.onExpTimeout
  split
  · exact k.doNewConsensus C 0 paired_empty
  · exact k

theorem Keeps.elected (k : st.Keeps K) {cmds : List Hash} {junk : ℕ}
    (hb : (Batch.renewed cmds junk).Paired K) : (st.elected C cmds junk).Keeps K := by
  unfold Server.elected
  split
  · exact k
  simp only []
  have k' : ({ st with rr := { st.rr with electedCalls := st.rr.electedCalls - 1 } } :
      Server).Keeps K :=
    k.with_rr ⟨k.queue.blkSize, k.queue.buffer, k.queue.beats, k.queue.finish⟩
  split
  · exact k'
  · exact k'.doNewConsensus C 0 hb

theorem Keeps.rotate (k : st.Keeps K) : st.rotate.Keeps K := ⟨k.wf, k.ledger, k.queue.rotate⟩

theorem Keeps.addBlk (k : st.Keeps K) {body : Body} (hb : body.Paired K) :
    ({ st with core := st.core.step C (.addBlk body) } : Server).Keeps K :=
  ⟨(Replica.exec_steps C k.wf (.addBlk body)).wf k.wf,
    ⟨Replica.addBlk_bodies _ k.ledger.bodies hb, k.ledger.calls⟩, k.queue⟩

end Server

end

abbrev Servers (n : ℕ) := Fin n → Server

/-- An input of one server, or the bytes of a block of the server `src` that reach `dst`. -/
inductive ServersInput (n : ℕ) where
  | call (i : Fin n) (input : ServerInput)
  | block (src dst : Fin n) (h : Hash) (rest : List UInt8)

namespace Servers
variable {n : ℕ}

def start (c : Fin n → Setup) (blkSize : ℕ) : Servers n := fun i => .start (c i) blkSize

/-- The bytes of a stored block; a certificate without its signatures cannot be written. -/
def bytes (F : SigFormat) (S : Servers n) (src : Fin n) (h : Hash) : Option (List UInt8) :=
  ((S src).core.storage.blkCache h).bind fun blk => blk.body.serialize F

def step (C : Crypto) (F : SigFormat) (S : Servers n) : ServersInput n → Servers n
  | .call i input => Function.update S i ((S i).step C F input)
  | .block src dst h rest =>
    match S.bytes F src h with
    | none => S
    | some bs => Function.update S dst ((S dst).step C F (.parse (bs ++ rest)))

/-- All replicas are honest: blocks come from those who have stored them, commands from their
clients. -/
def Honest (K : Hash → ℤ × ℤ) : ServersInput n → Prop
  | .call _ (.request cmd _) => cmd.Genuine K
  | .call _ (.parse _) => False
  | .call _ (.elected cmds _) => ∀ c ∈ cmds, c < 2 ^ 256
  | _ => True

/-- The commands that a new proposer proposes again have key and value 0, and the vector of
vals gets an entry for each command of the block. -/
def Harmless (K : Hash → ℤ × ℤ) : ServersInput n → Prop
  | .call _ (.elected cmds junk) =>
    junk = cmds.length ∧ cmds.length < 2 ^ 32 ∧ ∀ c ∈ cmds, K c = (0, 0)
  | .call _ (.qcManual junk) | .call _ (.expTimeout junk) => junk = 0
  | _ => True

instance (K : Hash → ℤ × ℤ) : (a : ServersInput n) → Decidable (Honest K a)
  | .call _ (.request cmd _) => inferInstanceAs (Decidable (cmd.Genuine K))
  | .call _ (.parse _) => inferInstanceAs (Decidable False)
  | .call _ (.elected cmds _) => inferInstanceAs (Decidable (∀ c ∈ cmds, c < 2 ^ 256))
  | .call _ (.proposal _ _) | .call _ (.call _) | .call _ .qcFinish | .call _ (.qcManual _)
  | .call _ (.expTimeout _) | .call _ .rotate | .call _ .impeach | .block _ _ _ _ =>
    inferInstanceAs (Decidable True)

instance (K : Hash → ℤ × ℤ) : (a : ServersInput n) → Decidable (Harmless K a)
  | .call _ (.elected cmds junk) => inferInstanceAs (Decidable
      (junk = cmds.length ∧ cmds.length < 2 ^ 32 ∧ ∀ c ∈ cmds, K c = (0, 0)))
  | .call _ (.qcManual junk) | .call _ (.expTimeout junk) => inferInstanceAs (Decidable (junk = 0))
  | .call _ (.request _ _) | .call _ (.parse _) | .call _ (.proposal _ _) | .call _ (.call _)
  | .call _ .qcFinish | .call _ .rotate | .call _ .impeach | .block _ _ _ _ =>
    inferInstanceAs (Decidable True)

variable {C : Crypto} {F : SigFormat} {K : Hash → ℤ × ℤ}

theorem call_keeps {S : Servers n} (k : ∀ i, (S i).Keeps K) {i : Fin n} {input : ServerInput}
    (hi : Honest K (.call i input)) (hj : Harmless K (.call i input)) :
    ((S i).step C F input).Keeps K := by
  cases input with
  | request cmd cb => exact (k i).request C hi cb
  | parse bytes => exact absurd hi id
  | proposal proposer blk => exact (k i).onReceiveProposal C proposer blk
  | call op =>
    unfold Server.step
    simp only []
    split
    · rename_i hop
      obtain ⟨w, kl⟩ := Replica.plain_keeps C (k i).wf (k i).ledger hop
      exact (k i).observe w kl
    · exact k i
  | qcFinish => exact (k i).qcFinish C
  | qcManual junk =>
    obtain rfl : junk = 0 := hj
    exact (k i).qcManual C
  | expTimeout junk =>
    obtain rfl : junk = 0 := hj
    exact (k i).onExpTimeout C
  | rotate => exact (k i).rotate
  | impeach =>
    change Server.Keeps K (Server.impeach _)
    unfold Server.impeach
    split
    · exact k i
    · exact (k i).rotate
  | elected cmds junk =>
    obtain ⟨hjunk, hlen, hzero⟩ := hj
    exact (k i).elected C (Batch.paired_renewed hjunk hzero hlen hi)

theorem block_keeps (hK : IntArgs K) {S : Servers n} (k : ∀ i, (S i).Keeps K) {src dst : Fin n}
    {h : Hash} {bs : List UInt8} (hbs : S.bytes F src h = some bs) (rest : List UInt8) :
    ((S dst).step C F (.parse (bs ++ rest))).Keeps K := by
  obtain ⟨blk, hblk, hser⟩ := Option.bind_eq_some_iff.mp hbs
  have hpaired : blk.body.Paired K :=
    (k src).ledger.bodies h blk.toBlockNode ((S src).core.tree_of_cache hblk)
  unfold Server.step
  simp only []
  split
  · exact k dst
  · rename_i body more hrun
    exact (k dst).addBlk C (hpaired.received hK hser hrun)

theorem step_keeps (hK : IntArgs K) {S : Servers n} (k : ∀ i, (S i).Keeps K)
    {a : ServersInput n} (ha : Honest K a) (hj : Harmless K a) : ∀ i, (S.step C F a i).Keeps K := by
  have hupd : ∀ j st, st.Keeps K → ∀ i, (Function.update S j st i).Keeps K := by
    intro j st kst i
    by_cases hij : i = j
    · subst i
      rw [Function.update_self]
      exact kst
    · rw [Function.update_of_ne hij]
      exact k i
  cases a with
  | call i input => exact hupd i _ (call_keeps k ha hj)
  | block src dst h rest =>
    unfold step
    simp only []
    cases hbs : S.bytes F src h with
    | none => exact k
    | some bs => exact hupd dst _ (block_keeps hK k hbs rest)

theorem start_keeps (c : Fin n → Setup) {blkSize : ℕ} (hsize : blkSize < 2 ^ 32) (i : Fin n) :
    (start c blkSize i).Keeps K := by
  refine ⟨(c i).start_chained.wf, ⟨?_, fun _ _ _ h => absurd h List.not_mem_nil⟩, hsize,
    fun _ h => absurd h List.not_mem_nil, fun _ h => absurd h List.not_mem_nil,
    fun _ h => by cases h⟩
  intro h m hm
  have hm' : (c i).start.tree h = some m := hm
  by_cases hh : h = b0
  · subst h
    obtain rfl : (Block.genesis (c i).config).toBlockNode = m := Option.some.inj hm'
    exact ⟨Nat.two_pow_pos 32, rfl, rfl, Nat.two_pow_pos 32,
      fun _ hc => absurd hc List.not_mem_nil⟩
  · rw [(c i).start_absent hh] at hm'
    cases hm'

def fiveArgs (c : Hash) : ℤ × ℤ := if c = 5 then (1, 2) else (0, 0)

theorem fiveArgs_int : IntArgs fiveArgs := by
  intro c
  unfold fiveArgs
  split <;> decide

def supports (i : Fin 4) (h : Hash) : List (ServersInput 4) :=
  [.block 0 i h [], .call i (.call (.deliverBlk h)), .call i (.proposal 0 h),
    .call 0 (.call (.receiveVote ⟨i, h, ⟨h, h⟩⟩))]

def threeRounds (next : ServerInput) : List (ServersInput 4) :=
  supports 1 1 ++ supports 2 1 ++ [.call 0 next] ++ supports 1 3 ++ supports 2 3 ++
    [.call 0 (.qcManual 0)] ++ supports 1 7 ++ supports 2 7 ++
    [.call 0 (.qcManual 0), .call 0 (.call (mcSample 1))]

def batched : Servers 4 :=
  Runs.run (step .sample .sample) (start (fun i => .four i) 1)
    ([.call 0 (.elected [] 0), .call 0 (.request ⟨5, 1, 2, 0, 0, -1⟩ 0), .call 0 .qcFinish] ++
      threeRounds (.expTimeout 0))

/-- Command 5 waits when replica 0 is elected, and is proposed again. -/
def renewedFive : Servers 4 :=
  Runs.run (step .sample .sample) (start (fun i => .four i) 400)
    ([.call 0 (.request ⟨5, 1, 2, 0, 0, -1⟩ 0), .call 0 (.elected [5] 1)] ++
      threeRounds (.qcManual 0))

end Servers

end AvaHotstuff
