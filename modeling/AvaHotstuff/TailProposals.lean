import AvaHotstuff.Certificates
import AvaHotstuff.FixedProposer

set_option autoImplicit false

/-!
# When a proposal on the tail throws

`on_propose` on `get_parents` can fail in two places, both after its block has been stored and
delivered. `update` throws when the highest certificate commits a block beside the executed ones,
and the last test when the replica has voted above the tail: `vheight` follows the votes on every
branch, while `hqc_tail` is put back to the branch of the newest certificate.
-/
namespace AvaHotstuff
open Ancestry

namespace Ledger
variable {G : Guard}

def Guard.only (h : Hash) : Guard :=
  { Guard.none with store := fun x => x = h, deliver := fun x => x = h }

theorem Step.vheight {L M : Ledger} (hs : Step G L M) (hG : ∀ N h, ¬G.opine N h) :
    M.vheight = L.vheight := by
  cases hs with
  | opine _ ho => exact absurd ho (hG _ _)
  | @finishMc cid =>
    unfold Ledger.finishMc
    split
    · rfl
    · split <;> rfl
  | _ => rfl

theorem Steps.vheight {L M : Ledger} (hs : Steps G L M) (hG : ∀ N h, ¬G.opine N h) :
    M.vheight = L.vheight :=
  hs.invariant (I := fun N => N.vheight = L.vheight) rfl
    fun _ _ hstep hN => (hstep.vheight hG).trans hN

theorem Step.opinions_eq {L M : Ledger} (hs : Step G L M) (hG : ∀ N h, ¬G.opine N h) :
    opinions M.log = opinions L.log := by
  have hcommit : ∀ es, M.log = L.log ++ es → (∀ e ∈ es, Event.commits e = true) →
      opinions M.log = opinions L.log := by
    intro es hlog hes
    exact @Replica.opinions_updated L M b0 ⟨es, hlog, fun e he => Or.inl (hes e he)⟩
  cases hs with
  | opine _ ho => exact absurd ho (hG _ _)
  | @note e he =>
    rw [record_log, opinions_append]
    cases e with
    | opinion h l => exact absurd he id
    | _ => exact List.append_nil _
  | @advance h m =>
    obtain ⟨es, hlog, hes⟩ := L.advance_log h m
    exact hcommit es hlog hes
  | @finishMc cid =>
    obtain ⟨es, hlog, hes⟩ := L.finishMc_log cid
    exact hcommit es hlog hes
  | _ => rfl

theorem Steps.opinions_eq {L M : Ledger} (hs : Steps G L M) (hG : ∀ N h, ¬G.opine N h) :
    opinions M.log = opinions L.log :=
  hs.invariant (I := fun N => opinions N.log = opinions L.log) rfl
    fun _ _ hstep hN => (hstep.opinions_eq hG).trans hN

def marks (L : Ledger) : Tree × Hash × Hash := (L.tree, L.bLock, L.bExec)

end Ledger

namespace Replica
variable {s : Replica}

theorem McOnly.marks {u : Replica} (h : McOnly s u) : u.ledger.marks = s.ledger.marks := by
  have hrest := congrArg (fun v : Replica => v.ledger.marks) h.rest
  exact hrest

theorem marks_of_uncomplained {u : Replica} (h : u.uncomplained = s.uncomplained) :
    u.ledger.marks = s.ledger.marks := by
  have hmarks : ∀ v : Replica, v.uncomplained.ledger.marks = v.ledger.marks := by
    intro v
    change (v.uncomplained.tree, _, _) = (v.tree, _, _)
    rw [uncomplained_tree]
    rfl
  rw [← hmarks u, h, hmarks s]

theorem exec_marks (C : Crypto) {op : Op} (hop : op.onHead = false) :
    (s.exec C op).1.ledger.marks = s.ledger.marks := by
  cases op with
  | receiveMcLocal prop x => exact (s.receiveMcLocal_mcOnly prop x).marks
  | relayMc prop x => exact (s.relayMc_mcOnly prop x).marks
  | remoteViewChangeTimeout cid =>
    exact marks_of_uncomplained (s.remoteViewChangeTimeout_uncomplained C cid)
  | receiveLComplain c =>
    exact marks_of_uncomplained (s.onReceiveLComplain_uncomplained C c)
  | receiveRComplain c junk => exact congrArg Ledger.marks (onReceiveRComplain_ledger c junk)
  | msgRecs r => exact congrArg Ledger.marks (msgRecsHandler_ledger r)
  | sendReconfigAck fin r => exact congrArg Ledger.marks (sendReconfigAck_ledger ..)
  | msgRecsAggEchoReady msg => exact congrArg Ledger.marks (msgRecsAggEchoReadyHandler_ledger msg)
  | asyncQcFinish blk => exact congrArg Ledger.marks (asyncQcFinish_ledger ..)
  | waitDecision x cb => exact congrArg Ledger.marks (waitDecision_ledger ..)
  | _ => cases hop

theorem exec_aside (C : Crypto) {op : Op} (hop : op.onHead = false)
    (hcom : ∀ h, ¬s.Complains op h) :
    Ledger.Steps { Ledger.Guard.none with complete := fun _ _ => True } s.ledger
      (s.exec C op).1.ledger := by
  cases op with
  | receiveMcLocal prop x => exact receiveMcLocal_steps fun _ => trivial
  | relayMc prop x => exact relayMc_steps fun _ => trivial
  | remoteViewChangeTimeout cid => exact remoteViewChangeTimeout_steps C fun h hc => hcom h hc
  | receiveLComplain c =>
    refine onReceiveLComplain_steps C ?_
    intro blk hblk hd hv hm
    exact hcom c.blkHash ⟨rfl, blk, hblk, hd, hv, hm⟩
  | receiveRComplain c junk => exact .of_eq (onReceiveRComplain_ledger c junk)
  | msgRecs r => exact .of_eq (msgRecsHandler_ledger r)
  | sendReconfigAck fin r => exact .of_eq (sendReconfigAck_ledger fin r)
  | msgRecsAggEchoReady msg => exact .of_eq (msgRecsAggEchoReadyHandler_ledger msg)
  | asyncQcFinish blk => exact .of_eq (asyncQcFinish_ledger s blk)
  | waitDecision x cb => exact .of_eq (waitDecision_ledger s x cb)
  | _ => cases hop

theorem exec_aside_locked (C : Crypto) {op : Op} (hop : op.onHead = false)
    (hcom : ∀ h, ¬s.Complains op h) (k : s.ledger.Locked) (cl : s.tree.Closed)
    (hlow : s.ledger.Low) :
    (s.exec C op).1.ledger.Locked ∧ (s.exec C op).1.ledger.Low := by
  have hsteps := exec_aside C hop hcom
  have hmarks := s.exec_marks C hop
  have hvoting := hsteps.voting (fun _ _ ho => ho.elim) k.toVoting
  have hopinions := hsteps.opinions_eq fun _ _ ho => ho
  have hvheight := hsteps.vheight fun _ _ ho => ho
  have g := hsteps.grows
  have hlock : (s.exec C op).1.ledger.bLock = s.ledger.bLock := congrArg (·.2.1) hmarks
  have hexec : (s.exec C op).1.ledger.bExec = s.ledger.bExec := congrArg (·.2.2) hmarks
  refine ⟨?_, hlow.grow g k.lock_delivered hlock hvheight⟩
  have hheld : (s.exec C op).1.ledger.Held := by
    apply k.held.keep g cl hvoting hopinions
    · rw [hlock]
      exact g.delivered k.lock_delivered
    · rw [hlock]
      exact k.lock_ref.mono g
    · rw [hlock]
    · rw [hlock, hexec, g.height k.exec, g.height k.lock_delivered]
      exact k.exec_le
  apply hheld.locked
  rw [hexec]
  rcases k.decisive with h0 | ⟨b1, b2, nblk, hdec⟩
  · exact Or.inl h0
  · exact Or.inr ⟨b1, b2, nblk, hdec.mono g k.wf cl⟩

theorem update_vheight (w : s.tree.Wf) (h : Hash) : (s.update h).1.vheight = s.vheight :=
  (update_ledger (G := Ledger.Guard.none) w h).vheight fun _ _ ho => ho

theorem onReceiveVote_returns {v : Vote} (hd : s.delivered v.blkHash = true)
    (hv : v.cert.objHash = v.blkHash)
    (hcert : ∀ qc, (s.storage.ballot v.blkHash).1 = some qc → qc.objHash = v.blkHash) :
    (s.onReceiveVote v).2 = none := by
  obtain ⟨n, hn, hnd⟩ := Tree.exists_of_delivered hd
  obtain ⟨blk, hblk, rfl⟩ := s.cache_of_tree hn
  have hpoll := s.polling v
  generalize s.onReceiveVote v = r at hpoll
  cases hpoll with
  | absent hb =>
    rw [hblk] at hb
    cases hb
  | undelivered hb hdel =>
    rw [delivered_of_cache hb, hdel] at hd
    cases hd
  | mismatch hb _ _ _ hu => exact absurd (congrArg Prod.snd hu) (addVote_some hb hcert hv)
  | full | again | counted | quorum => rfl

theorem judgeProposal_returns (C : Crypto) (w : s.tree.Wf) {bnew : Hash}
    (hd : s.delivered bnew = true)
    (hcert : ∀ qc, (s.storage.ballot bnew).1 = some qc → qc.objHash = bnew) :
    (s.judgeProposal C true bnew).2 = none := by
  have hjudge := s.judgement C true bnew
  generalize s.judgeProposal C true bnew = r at hjudge
  cases hjudge with
  | undefined ho =>
    rcases opinion_cases w hd with ⟨hsome, -⟩ | ⟨hsome, -⟩
    · rw [ho] at hsome
      cases hsome
    · rw [ho] at hsome
      cases hsome
  | silent => rfl
  | vote =>
    have hhead := s.opined_head bnew true true
    have htree : (s.opined true bnew true).tree = s.tree := opined_tree true bnew true
    generalize s.opined true bnew true = u at hhead htree ⊢
    unfold doVote
    simp only []
    split
    · apply onReceiveVote_returns
      · change u.tree.delivered bnew = true
        rw [htree]
        exact hd
      · rfl
      · intro qc hq
        apply hcert
        rw [← hq]
        exact congrArg (fun H : Head => (H.ballot bnew).1) hhead.symm
    · rfl

theorem finishProposal_returns_iff (C : Crypto) (w : s.tree.Wf) {bnew : Hash}
    (hd : s.delivered bnew = true)
    (hcert : ∀ qc, (s.storage.ballot bnew).1 = some qc → qc.objHash = bnew) :
    (s.finishProposal C bnew).2 = none ↔ s.vheight < s.height bnew := by
  have hjudge := judgeProposal_returns C w hd hcert
  unfold finishProposal onReceiveProposal
  rw [if_pos rfl]
  split
  · rename_i hle
    refine iff_of_false (fun h => by cases h) ?_
    omega
  · rename_i hgt
    refine iff_of_true ?_ (by omega)
    generalize s.judgeProposal C true bnew = r at hjudge ⊢
    obtain ⟨u, o⟩ := r
    obtain rfl := hjudge
    rfl

/-- The block that a certificate for `b2` makes `update` commit: the lowest of three in direct
succession, none of them decided. -/
def commitTarget (s : Replica) (b2 : Hash) : Option Hash :=
  (s.qcRef b2).bind fun b1 => (s.qcRef b1).filter fun b =>
    decide (s.decided b2 = false ∧ s.decided b1 = false ∧ s.decided b = false ∧
      s.parent0 b2 = some b1 ∧ s.parent0 b1 = some b)

/-- What the highest certificate commits extends what has been executed. -/
def CommitsAbove (s : Replica) (b2 : Hash) : Prop :=
  ∀ b ∈ s.commitTarget b2, s.checkAncestry s.bExec b = true

instance (s : Replica) (b2 : Hash) : Decidable (s.CommitsAbove b2) :=
  inferInstanceAs (Decidable (∀ b ∈ s.commitTarget b2, _))

theorem mem_commitTarget {b2 b : Hash} : b ∈ s.commitTarget b2 ↔
    ∃ b1, s.qcRef b2 = some b1 ∧ s.qcRef b1 = some b ∧ s.decided b2 = false ∧
      s.decided b1 = false ∧ s.decided b = false ∧ s.parent0 b2 = some b1 ∧
      s.parent0 b1 = some b := by
  unfold commitTarget
  simp only [Option.mem_def, Option.bind_eq_some_iff, Option.filter_eq_some_iff, decide_eq_true_eq]

theorem checkAncestry_congr {u : Replica} (htree : u.tree = s.tree) (a b : Hash) :
    u.checkAncestry a b = s.checkAncestry a b := by
  unfold checkAncestry walk parent0 height
  rw [htree]

theorem commitsAbove_congr {u : Replica} (htree : u.tree = s.tree) (hexec : u.bExec = s.bExec)
    (b2 : Hash) : u.CommitsAbove b2 ↔ s.CommitsAbove b2 := by
  have htarget : u.commitTarget b2 = s.commitTarget b2 := by
    unfold commitTarget qcRef decided parent0
    rw [htree]
  unfold CommitsAbove
  simp only [htarget, hexec, checkAncestry_congr htree]

theorem commitsAbove_of_decided {b2 x : Hash} (hx : s.decided x = true)
    (hlink : x = b2 ∨ s.qcRef b2 = some x) : s.CommitsAbove b2 := by
  intro b hb
  obtain ⟨b1, h1, -, hdec2, hdec1, -⟩ := mem_commitTarget.mp hb
  rcases hlink with rfl | hq
  · rw [hx] at hdec2
    cases hdec2
  · rw [← Option.some.inj (hq.symm.trans h1), hx] at hdec1
    cases hdec1

/-- The commit loop throws when it does not come down to the executed block. -/
theorem commit_returns_iff (w : s.tree.Wf) {b : Hash} (hb : s.delivered b = true) :
    (s.commit b).2 = none ↔ s.checkAncestry s.bExec b = true := by
  obtain ⟨q, e, hw⟩ := walk_total w hb (s.height s.bExec)
  unfold commit checkAncestry
  rw [hw]
  simp only [decide_eq_true_eq]
  by_cases he : e = s.bExec
  · rw [if_neg (not_not.mpr he)]
    exact iff_of_true rfl he
  · rw [if_pos he]
    exact iff_of_false (fun h => by cases h) he

theorem updateExec_returns_iff (w : s.tree.Wf) {b2 b1 : Hash} (hd2 : s.delivered b2 = true)
    (hne2 : b2 ≠ b0) (hne1 : b1 ≠ b0) (h1 : s.qcRef b2 = some b1) (hdec2 : s.decided b2 = false)
    (hdec1 : s.decided b1 = false) : (s.updateExec b2 b1).2 = none ↔ s.CommitsAbove b2 := by
  have hnothing : (∀ b, s.qcRef b1 = some b → s.decided b = true ∨ s.parent0 b2 ≠ some b1 ∨
      s.parent0 b1 ≠ some b) → s.CommitsAbove b2 := by
    intro hno b hb
    obtain ⟨b1', h1', h0, -, -, hdec, hp2, hp1⟩ := mem_commitTarget.mp hb
    obtain rfl : b1 = b1' := Option.some.inj (h1.symm.trans h1')
    rcases hno b h0 with h | h | h
    · rw [h] at hdec
      cases hdec
    · exact absurd hp2 h
    · exact absurd hp1 h
  obtain ⟨p2, hp2, -, -⟩ := w.ranked.up b2 hd2 hne2
  replace hp2 : s.parent0 b2 = some p2 := hp2
  unfold updateExec
  cases h0 : s.qcRef b1 with
  | none =>
    refine iff_of_true rfl (hnothing fun b hb => ?_)
    rw [h0] at hb
    cases hb
  | some b =>
    have hone : ∀ {b'}, s.qcRef b1 = some b' → b' = b := fun h => Option.some.inj (h.symm.trans h0)
    simp only [hp2]
    by_cases hdec : s.decided b = true
    · rw [if_pos hdec]
      exact iff_of_true rfl (hnothing fun b' hb => .inl (by rw [hone hb, hdec]))
    rw [if_neg hdec]
    by_cases hb2 : p2 = b1
    · subst hb2
      rw [if_neg (not_not.mpr rfl)]
      have hd1 : s.delivered p2 = true := w.parent_delivered hp2
      obtain ⟨p1, hp1, -, -⟩ := w.ranked.up p2 hd1 hne1
      replace hp1 : s.parent0 p2 = some p1 := hp1
      simp only [hp1]
      by_cases hb1 : p1 = b
      · subst hb1
        rw [if_neg (not_not.mpr rfl), commit_returns_iff w (w.parent_delivered hp1)]
        constructor
        · intro hanc b' hb'
          obtain ⟨b1', h1', h0', -⟩ := mem_commitTarget.mp hb'
          obtain rfl : p2 = b1' := Option.some.inj (h1.symm.trans h1')
          rw [hone h0']
          exact hanc
        · intro hfits
          exact hfits p1 (mem_commitTarget.mpr ⟨p2, h1, h0, hdec2, hdec1,
            Bool.eq_false_of_not_eq_true hdec, hp2, hp1⟩)
      · rw [if_pos hb1]
        refine iff_of_true rfl (hnothing fun b' hb => .inr (.inr ?_))
        rw [hone hb, hp1]
        exact fun h => hb1 (Option.some.inj h)
    · rw [if_pos hb2]
      refine iff_of_true rfl (hnothing fun b' _ => .inr (.inl ?_))
      rw [hp2]
      exact fun h => hb2 (Option.some.inj h)

theorem updateLock_returns_iff (c : s.ledger.Chained) {b2 : Hash} (hd2 : s.delivered b2 = true)
    (hdec2 : s.decided b2 = false) :
    (match s.qcRef b2 with
      | none => ((s, none) : Outcome)
      | some b1 => if s.decided b1 then (s, none) else (s.updateLock b1).updateExec b2 b1).2 =
        none ↔ s.CommitsAbove b2 := by
  have hne : ∀ {x}, s.decided x = false → x ≠ b0 := fun hx =>
    decided_ne_genesis c (by rw [show s.ledger.tree.decided _ = _ from hx]; decide)
  cases h1 : s.qcRef b2 with
  | none =>
    refine iff_of_true rfl fun b hb => ?_
    obtain ⟨b1, h1', -⟩ := mem_commitTarget.mp hb
    rw [h1] at h1'
    cases h1'
  | some b1 =>
    simp only []
    by_cases hdec1 : s.decided b1 = true
    · rw [if_pos hdec1]
      exact iff_of_true rfl (commitsAbove_of_decided hdec1 (.inr h1))
    rw [if_neg hdec1]
    replace hdec1 : s.decided b1 = false := Bool.eq_false_of_not_eq_true hdec1
    obtain ⟨htree, hexec, -⟩ := updateLock_rest (s := s) b1
    rw [← commitsAbove_congr htree hexec b2]
    apply updateExec_returns_iff _ _ (hne hdec2) (hne hdec1)
    · exact (congrArg (Tree.qcRef · b2) htree).trans h1
    · exact (congrArg (Tree.decided · b2) htree).trans hdec2
    · exact (congrArg (Tree.decided · b1) htree).trans hdec1
    · rw [htree]
      exact c.wf
    · exact (congrArg (Tree.delivered · b2) htree).trans hd2

theorem update_returns_iff (c : s.ledger.Chained) {nblk b2 : Hash} (hd : s.delivered nblk = true)
    (h2 : s.qcRef nblk = some b2) (hd2 : s.delivered b2 = true) :
    (s.update nblk).2 = none ↔ s.CommitsAbove b2 := by
  obtain ⟨m, hm, -⟩ := Tree.exists_of_delivered hd
  obtain ⟨blk, hblk, rfl⟩ := s.cache_of_tree hm
  have hq : blk.qcRef = some b2 := (Tree.qcRef_of hm).symm.trans h2
  have hchain : (s.update nblk).2 = none ↔ (s.updateChain nblk).2 = none := by
    unfold update
    generalize s.updateChain nblk = r
    obtain ⟨u, none | e⟩ := r
    · exact Iff.rfl
    · rw [Outcome.andThen_throw]
  rw [hchain]
  unfold updateChain
  simp only [hblk, hq]
  by_cases hdec2 : s.decided b2 = true
  · rw [if_pos hdec2]
    exact iff_of_true rfl (commitsAbove_of_decided hdec2 (.inl rfl))
  rw [if_neg hdec2]
  have hledger := s.updateHqc_ledger b2 blk.body.qc
  have htree : (s.updateHqc b2 blk.body.qc).tree = s.tree := congrArg Ledger.tree hledger
  rw [← commitsAbove_congr htree (congrArg Ledger.bExec hledger) b2]
  apply updateLock_returns_iff
  · rw [hledger]
    exact c
  · exact (congrArg (Tree.delivered · b2) htree).trans hd2
  · exact (congrArg (Tree.decided · b2) htree).trans (Bool.eq_false_of_not_eq_true hdec2)

theorem commitsAbove_grow {u : Replica} (c : s.ledger.Chained) (c' : u.ledger.Chained)
    (g : Tree.Grows s.tree u.tree) (hexec : u.bExec = s.bExec) {b2 : Hash}
    (hd : s.delivered b2 = true) : u.CommitsAbove b2 ↔ s.CommitsAbove b2 := by
  have hdecided : ∀ x, u.decided x = s.decided x := by
    intro x
    refine Bool.eq_iff_iff.mpr ((c'.decided_iff_anc).trans (Iff.trans ?_ c.decided_iff_anc.symm))
    rw [show u.ledger.bExec = s.ledger.bExec from hexec]
    exact ⟨g.anc_back c.wf c.exec, g.anc c.wf c.exec⟩
  have hparent : ∀ {x}, s.delivered x = true → u.parent0 x = s.parent0 x := g.parent0
  have hqc : ∀ {x}, s.delivered x = true → u.qcRef x = s.qcRef x := g.qcRef
  have hmem : ∀ b, b ∈ u.commitTarget b2 ↔ b ∈ s.commitTarget b2 := by
    intro b
    rw [mem_commitTarget, mem_commitTarget]
    refine exists_congr fun b1 => ?_
    rw [hqc hd, hparent hd, hdecided, hdecided, hdecided]
    by_cases hp2 : s.parent0 b2 = some b1
    · have hd1 : s.delivered b1 = true := c.wf.parent_delivered hp2
      rw [hqc hd1, hparent hd1]
    · exact iff_of_false (fun h => hp2 h.2.2.2.2.2.1) (fun h => hp2 h.2.2.2.2.2.1)
  refine forall_congr' fun b => ?_
  rw [hmem b]
  refine imp_congr_right fun hb => ?_
  obtain ⟨b1, -, -, -, -, -, -, hp1⟩ := mem_commitTarget.mp hb
  have hdb : s.delivered b = true := c.wf.parent_delivered hp1
  rw [checkAncestry_iff c'.wf (g.delivered hdb), checkAncestry_iff c.wf hdb, hexec]
  exact ⟨g.anc_back c.wf hdb, g.anc c.wf hdb⟩

def tailBlock (s : Replica) (cmds : List Hash) (keys vals : List ℤ) (extra : List UInt8) : Block :=
  s.newBlock cmds keys vals [s.pmaker.hqcTail] s.pmaker.hqcTail extra

/-- `on_propose` on the tail up to the delivery of its block. -/
def deliverTail (C : Crypto) (s : Replica) (b : Block) : Replica × Except Exn Bool :=
  (s.storeProposal (C.getHash b.body) b [s.pmaker.hqcTail]).onDeliverBlk (C.getHash b.body)

theorem onPropose_tail (C : Crypto) (s : Replica) (cmds : List Hash) (keys vals : List ℤ)
    (extra : List UInt8) : s.onPropose C cmds keys vals [s.pmaker.hqcTail] extra =
      match s.deliverTail C (s.tailBlock cmds keys vals extra) with
      | (u, .error e) => (u, some e)
      | (u, .ok _) => (u.update (C.getHash (s.tailBlock cmds keys vals extra).body)).andThen
          fun w => w.finishProposal C (C.getHash (s.tailBlock cmds keys vals extra).body) := rfl

theorem onDeliverBlk_tails {h : Hash} {u : Replica} {v : Bool} (hd : s.delivered h = false)
    (hu : s.onDeliverBlk h = (u, .ok v)) : h ∈ u.tails := by
  have hdelivery := s.delivery h
  rw [hu] at hdelivery
  cases hdelivery with
  | again hb hold =>
    rw [delivered_of_cache hb, hold] at hd
    cases hd
  | done => exact List.mem_insert_self

theorem storeProposal_undelivered {h : Hash} {b : Block} {parents : List Hash}
    (hb : b.delivered = false) (hnone : s.tree h = none) :
    (s.storeProposal h b parents).delivered h = false := by
  have hcache : s.storage.blkCache h = none := Option.map_eq_none_iff.mp hnone
  unfold storeProposal addBlk EntityStorage.addBlk modifyBlk delivered Tree.delivered tree
  simp [hcache, hb]

structure Extended (s : Replica) (h : Hash) (u : Replica) : Prop where
  made : Made s.hqc h u
  low : u.Low
  rises : Rises s u
  parent : u.parent0 h = some s.pmaker.hqcTail
  height : u.height h = s.height s.pmaker.hqcTail + 1
  frame : Cluster.Frame s u
  steps : Ledger.Steps (Ledger.Guard.only h) s.ledger u.ledger
  tail : s.tree h = none → h ∈ u.tails

theorem hqcTail_delivered (q : s.Quorate) : s.delivered s.pmaker.hqcTail = true := by
  cases q.leading.head.tail with
  | inl h =>
    rw [show s.pmaker.hqcTail = s.hqc.1 from h]
    exact q.hqc
  | inr h => exact h.1

theorem deliverTail_spec (C : Crypto) (q : s.Quorate) {cmds : List Hash} {keys vals : List ℤ}
    {extra : List UInt8}
    (hop : s.Proper C (.propose cmds keys vals [s.pmaker.hqcTail] extra)) :
    ∃ u v, s.deliverTail C (s.tailBlock cmds keys vals extra) = (u, .ok v) ∧
      Extended s (C.getHash (s.tailBlock cmds keys vals extra).body) u := by
  obtain ⟨-, hfree⟩ := hop
  change ∀ blk, s.storage.blkCache (C.getHash (s.tailBlock cmds keys vals extra).body) = some blk →
    blk.body = (s.tailBlock cmds keys vals extra).body at hfree
  have hsteps := storeProposal_steps
    (G := Ledger.Guard.only (C.getHash (s.tailBlock cmds keys vals extra).body)) (s := s)
    (C.getHash (s.tailBlock cmds keys vals extra).body) (b := s.tailBlock cmds keys vals extra)
    rfl rfl [s.pmaker.hqcTail] rfl rfl
  generalize hb : s.tailBlock cmds keys vals extra = b at hfree hsteps ⊢
  have hparents : b.body.parentHashes = [s.pmaker.hqcTail] := by
    rw [← hb]
    rfl
  unfold deliverTail
  generalize C.getHash b.body = h at hfree hsteps ⊢
  have hframe := (Cluster.storeProposal_frame s h b [s.pmaker.hqcTail]).trans
    (Cluster.onDeliverBlk_frame _ h)
  generalize hu : (s.storeProposal h b [s.pmaker.hqcTail]).onDeliverBlk h = p
    at hframe hsteps ⊢
  obtain ⟨u, res⟩ := p
  subst hb
  obtain ⟨r, l, val, rfl⟩ :=
    storeProposal_rises q.leading q.low q.hqc rfl rfl rfl rfl rfl rfl rfl rfl hfree hu
  have hdel := onDeliverBlk_ok hu
  have hmade := (made_of_deliver q.leading.chained q.leading.head q.leading.genesis rfl rfl rfl
    rfl rfl rfl hfree (congrArg Prod.fst hu).symm).2.2 hdel
  obtain ⟨n, hn, hnd⟩ := Tree.exists_of_delivered hdel
  have hbody := @storeProposal_body s h _ [s.pmaker.hqcTail] hfree n (by rw [hu]; exact hn)
  have hne0 : h ≠ b0 := by
    rintro rfl
    rcases anc_iff.mp hmade.anc with hroot | ⟨p, hp, -⟩
    · exact hmade.ne hroot
    · rw [show u.parent0 b0 = none from hmade.chained.wf.ranked.root_top] at hp
      cases hp
  have hlinked := hmade.chained.wf.linked h n hn hnd hne0
  have hparent : u.parent0 h = some s.pmaker.hqcTail := by
    refine (Tree.parent0_of hn).trans ?_
    rw [hlinked.parents, hbody, hparents]
    rfl
  refine ⟨u, val, rfl, hmade, l, r, hparent, ?_, hframe, hsteps, ?_⟩
  · have hspec := (hmade.chained.wf.ranked.parent_spec hdel hparent).2
    exact hspec.trans (congrArg (· + 1) (r.grows.height (hqcTail_delivered q)))
  · intro hnone
    exact onDeliverBlk_tails (storeProposal_undelivered rfl hnone) hu

/-- Whether `update` of the new block throws is settled before the block is made. -/
theorem Extended.update_returns_iff (q : s.Quorate) {h : Hash} {u : Replica}
    (e : Extended s h u) : (u.update h).2 = none ↔ s.CommitsAbove s.hqc.1 := by
  have g := e.rises.grows
  rw [Replica.update_returns_iff e.made.chained e.made.delivered e.made.qcRef (g.delivered q.hqc),
    commitsAbove_grow q.leading.chained e.made.chained g e.frame.exec q.hqc]

theorem onPropose_returns_iff (C : Crypto) (q : s.Quorate) {cmds : List Hash}
    {keys vals : List ℤ} {extra : List UInt8}
    (hop : s.Proper C (.propose cmds keys vals [s.pmaker.hqcTail] extra)) :
    (s.onPropose C cmds keys vals [s.pmaker.hqcTail] extra).2 = none ↔
      s.CommitsAbove s.hqc.1 ∧ s.vheight ≤ s.height s.pmaker.hqcTail := by
  obtain ⟨u, v, hu, e⟩ := deliverTail_spec C q hop
  rw [← e.update_returns_iff q, onPropose_tail, hu]
  simp only []
  cases hupdate : (u.update (C.getHash (s.tailBlock cmds keys vals extra).body)).2 with
  | some exn =>
    refine iff_of_false ?_ fun h => by cases h.1
    generalize u.update (C.getHash (s.tailBlock cmds keys vals extra).body) = r at hupdate
    obtain ⟨w, o⟩ := r
    obtain rfl : o = some exn := hupdate
    rw [Outcome.andThen_throw]
    exact fun h => by cases h
  | none =>
    have hmade := e.made.update
    have g := (update_ledger (G := Ledger.Guard.any) e.made.chained.wf
      (C.getHash (s.tailBlock cmds keys vals extra).body)).grows
    rw [Outcome.andThen_of_none hupdate, finishProposal_returns_iff C hmade.chained.wf
      hmade.delivered (hmade.head.ballots _), update_vheight e.made.chained.wf, e.frame.vheight,
      show (u.update _).1.height _ = u.height _ from g.height e.made.delivered, e.height]
    simp only [true_and]
    omega

/-- A replica whose `update` takes every new block can commit what its certificate asks for. -/
theorem commitsAbove_of_update (C : Crypto) (q : s.Quorate) {cmds : List Hash}
    {keys vals : List ℤ} {extra : List UInt8}
    (hop : s.Proper C (.propose cmds keys vals [s.pmaker.hqcTail] extra))
    (hupdate : ∀ u v, s.deliverTail C (s.tailBlock cmds keys vals extra) = (u, .ok v) →
      Extended s (C.getHash (s.tailBlock cmds keys vals extra).body) u →
      (u.update (C.getHash (s.tailBlock cmds keys vals extra).body)).2 = none) :
    s.CommitsAbove s.hqc.1 := by
  obtain ⟨u, v, hu, e⟩ := deliverTail_spec C q hop
  exact (e.update_returns_iff q).mp (hupdate u v hu e)

end Replica

def fourProposals : List Op :=
  (Cluster.fourRounds.filter fun a => decide (a.1 = 0)).map Prod.snd

namespace Cluster
variable {n : ℕ} {C : Crypto} {byz : Finset (Fin n)} {s : Cluster n} {i : Fin n}

theorem Kept.extended {K : Ledger → Prop} {R : Replica → Hash → Prop}
    (B : Keeper byz Replica.update K R) (S : Kept K byz s) (hi : i ∉ byz)
    (hlow : (s i).ledger.Low) {op : Op}
    (A : Assumptions C byz s (stepWith Replica.update C s (i, op))) {h : Hash} {u : Replica}
    (e : (s i).Extended h u)
    (hrest : Ledger.Steps Ledger.Guard.any u.ledger ((s i).execWith Replica.update C op).1.ledger) :
    Kept K byz (Function.update s i u) ∧ u.ledger.Low := by
  obtain ⟨hk, hlow'⟩ := S.frame B hi hlow e.frame e.steps fun _ _ ho => ho.elim
  refine ⟨S.replace hk (voted_of_steps e.steps (fun _ ho => ho) (S.votes i hi)) ?_, hlow'⟩
  rw [← @stepWith_self n C i op Replica.update s] at hrest
  exact A.backing_update (fun j => S.wf B) (fun j => stepWith_other s) e.steps hrest hi

/-- The calls of honest replicas with a fixed configuration: those of the core protocol, and
the others as long as no complaint is signed. -/
def SteadyStep (C : Crypto) (byz : Finset (Fin n)) (s : Cluster n) (a : Fin n × Op) : Prop :=
  a.1 ∉ byz ∧
    (CoreCall (s a.1) a.2 ∨ a.2.onHead = false ∧ ∀ h, ¬(s a.1).Complains a.2 h) ∧
    (s a.1).Handled C a.2 ∧ ((s a.1).step C a.2).config = (s a.1).config ∧
    Assumptions C byz s (step C s a)

theorem CoreCall.keeps_config {r : Replica} {op : Op} (hc : CoreCall r op) :
    (r.step C op).config = r.config := by
  apply Replica.exec_config
  rintro msg rfl
  exact hc

theorem CoreStep.steady {a : Fin n × Op} (hs : CoreStep C byz s a)
    (hop : (s a.1).Handled C a.2) : SteadyStep C byz s a :=
  ⟨hs.1, Or.inl hs.2.1, hop, hs.2.1.keeps_config, hs.2.2⟩

structure Steady (byz : Finset (Fin n)) (s : Cluster n) : Prop where
  kept : Kept Ledger.Locked byz s
  low : ∀ i, i ∉ byz → (s i).ledger.Low
  quorate : ∀ i, (s i).Quorate

theorem Steady.start (hn : 0 < n) (byz : Finset (Fin n)) (c : Fin n → Setup) :
    Steady byz (start c) := by
  refine ⟨start_kept byz (start_locked c), fun _ _ => Or.inl rfl, ?_⟩
  intro i
  exact Replica.quorate_start _ (Nat.zero_lt_of_lt (Quorum.maxFaulty_lt_majority hn))

theorem Steady.aside (I : Steady byz s) {op : Op} (hi : i ∉ byz) (hop : op.onHead = false)
    (hcom : ∀ h, ¬(s i).Complains op h) (A : Assumptions C byz s (step C s (i, op))) :
    Kept Ledger.Locked byz (step C s (i, op)) ∧ ((s i).exec C op).1.ledger.Low := by
  have k := I.kept.kept i hi
  have w : ∀ j, j ∉ byz → (s j).tree.Wf := fun j hj => (I.kept.kept j hj).wf
  obtain ⟨hk, hl⟩ := Replica.exec_aside_locked C hop hcom k (I.kept.backing.closed i hi)
    (I.low i hi)
  have hsteps := Replica.exec_aside C hop hcom (s := s i)
  have hrest := Ledger.Steps.refl (G := Ledger.Guard.any) ((s i).exec C op).1.ledger
  nth_rewrite 2 [← @step_self n C i op s] at hrest
  have hB := A.backing_update w (fun j => step_other s) hsteps hrest hi
  exact ⟨I.kept.replace hk (voted_of_steps hsteps (fun _ ho => ho) (I.kept.votes i hi)) hB, hl⟩

theorem Steady.next (hn : 0 < n) (hbyz : byz.card ≤ Quorum.maxFaulty n) (I : Steady byz s)
    {a : Fin n × Op} (hs : SteadyStep C byz s a) : Steady byz (step C s a) := by
  obtain ⟨i, op⟩ := a
  obtain ⟨hi, hcall, hop, hconfig, A⟩ := hs
  have hnext : Kept Ledger.Locked byz (step C s (i, op)) ∧
      ∀ j, j ∉ byz → (step C s (i, op) j).ledger.Low := by
    rcases hcall with hcore | ⟨hside, hcom⟩
    · have hstep : CoreStepWith Replica.update C byz s (i, op) := by
        rw [← coreStep_eq]
        exact ⟨hi, hcore, A⟩
      rw [step_eq_stepWith]
      exact I.kept.next (keeper hn hbyz) I.low hstep
    · obtain ⟨hk, hl⟩ := I.aside hi hside hcom A
      refine ⟨hk, ?_⟩
      intro j hj
      by_cases hji : j = i
      · subst j
        rw [step_self]
        exact hl
      · rw [step_other s hji]
        exact I.low j hj
  refine ⟨hnext.1, hnext.2, ?_⟩
  intro j
  by_cases hji : j = i
  · subst j
    rw [step_self]
    exact (I.quorate i).handled C hop hconfig
  · rw [step_other s hji]
    exact I.quorate j

/-- In a run with at most `maxFaulty n` faulty replicas, in which every certificate is for a block
of its own branch, the commits are safe: a proposal on the tail of the pacemaker throws exactly
when the replica has voted above that tail. -/
theorem steady_proposal_returns_iff (C : Crypto) (byz : Finset (Fin n))
    (hbyz : byz.card ≤ Quorum.maxFaulty n) (c : Fin n → Setup) (s : Cluster n)
    (h : Runs.Reach (SteadyStep C byz) (step C) (start c) s) (i : Fin n) (cmds : List Hash)
    (keys vals : List ℤ) (extra : List UInt8)
    (hstep : SteadyStep C byz s (i, .propose cmds keys vals [(s i).pmaker.hqcTail] extra)) :
    ((s i).onPropose C cmds keys vals [(s i).pmaker.hqcTail] extra).2 = none ↔
      (s i).vheight ≤ (s i).height (s i).pmaker.hqcTail := by
  have hn := Fin.pos i
  have I : Steady byz s := h.invariant (Steady byz) (Steady.start hn byz c)
    fun _ _ I hok => I.next hn hbyz hok
  obtain ⟨hi, -, hop, -, hassume⟩ := hstep
  have B := @keeper n byz hn hbyz
  have S := I.kept
  refine (Replica.onPropose_returns_iff C (I.quorate i) hop.proper).trans (and_iff_right ?_)
  apply Replica.commitsAbove_of_update C (I.quorate i) hop.proper
  intro u v hu e
  have A : Assumptions C byz s (stepWith Replica.update C s
      (i, .propose cmds keys vals [(s i).pmaker.hqcTail] extra)) := by
    rw [← step_eq_stepWith]
    exact hassume
  have hrest : Ledger.Steps Ledger.Guard.any u.ledger ((s i).execWith Replica.update C
      (.propose cmds keys vals [(s i).pmaker.hqcTail] extra)).1.ledger := by
    rw [Replica.execWith_update]
    change Ledger.Steps _ _ ((s i).onPropose C cmds keys vals [(s i).pmaker.hqcTail] extra).1.ledger
    rw [Replica.onPropose_tail, hu]
    exact Replica.updateProposal_steps Replica.update_updates C e.made.chained.wf e.made.delivered
      fun _ _ _ => trivial
  -- the state in which the block is delivered is one of the cluster, so `update` is safe in it
  obtain ⟨S', hlow'⟩ := S.extended B hi (I.low i hi) A e hrest
  have hsafe := @Keeper.safe n byz Replica.update Ledger.Locked Poised B _ i
    (C.getHash ((s i).tailBlock cmds keys vals extra).body) S' hi
  rw [Function.update_self i u s] at hsafe
  exact (hsafe e.made.delivered hlow').1

theorem reach_of_tested_and {c : Fin n → Setup} {P : Cluster n → Fin n × Op → Prop}
    (hashes : List Hash) (hn : 0 < n) (hbyz : byz.card ≤ Quorum.maxFaulty n) (h0 : b0 ∈ hashes)
    (h : Runs.Reach (fun s a => Tested C byz hashes s a ∧ P s a) (step C) (start c) s) :
    Runs.Reach (fun s a => CoreStep C byz s a ∧ P s a) (step C) (start c) s ∧
      ∀ a, Tested C byz hashes s a → CoreStep C byz s a := by
  have hnext : ∀ {t : Cluster n}, Runs.Reach (Tested C byz hashes) (step C) (start c) t →
      ∀ a, Tested C byz hashes t a → CoreStep C byz t a := by
    intro t ht a ha
    have htested : (Tested C byz hashes : Cluster n → Fin n × Op → Prop) =
        TestedWith Replica.update C byz hashes := by
      unfold Tested TestedWith
      rw [step_eq_stepWith]
    rw [htested, step_eq_stepWith] at ht
    rw [htested] at ha
    rw [coreStep_eq]
    obtain ⟨hreach, hstored⟩ := stored_of_testedWith (keeper hn hbyz) (start_locked c) h0 ht
    exact (coreStep_of_testedWith (keeper hn hbyz) (start_locked c) hreach hstored ha).1
  refine ⟨?_, hnext (h.mono fun _ _ hok => hok.1)⟩
  induction h with
  | init => exact .init
  | step tail hi ih => exact .step ih ⟨hnext (tail.mono fun _ _ hok => hok.1) _ hi.1, hi.2⟩

/-- Replica 3 sends two blocks of one branch to replica 0 and the first one of another to the
replicas 1 and 2, whose votes come to replica 0. -/
def forked : List (Fin 4 × Op) :=
  let other : Body := ⟨[b0], [9], [1], [2], genesisCert, [0]⟩
  [(0, .addBlk (chainBody 0 genesisCert)), (0, .deliverBlk 1), (0, .receiveProposal 3 1),
    (0, .addBlk (chainBody 1 genesisCert)), (0, .deliverBlk 3), (0, .receiveProposal 3 3),
    (1, .addBlk other), (1, .deliverBlk 2), (1, .receiveProposal 3 2),
    (2, .addBlk other), (2, .deliverBlk 2), (2, .receiveProposal 3 2),
    (0, .addBlk other), (0, .deliverBlk 2), (0, .receiveVote ⟨1, 2, ⟨2, 2⟩⟩),
    (0, .receiveVote ⟨2, 2, ⟨2, 2⟩⟩), (0, .receiveVote ⟨3, 2, ⟨2, 2⟩⟩)]

def forkedCluster : Cluster 4 := Runs.run (step .sample) (start fun i => .four i) forked

end Cluster

end AvaHotstuff
