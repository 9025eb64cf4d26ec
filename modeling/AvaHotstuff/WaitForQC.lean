import AvaHotstuff.PacingLock

set_option autoImplicit false

/-!
# The proposer waits for its certificate

`PMWaitQC` with its promises called back where the source resolves them: a beat inside
`on_qc_finish`, the hook of `update_last_proposed` inside `on_propose_`, and the next beat
inside that hook. A beat whose promise is resolved when it is popped is called back at once.
-/
namespace AvaHotstuff

/-- `on_propose` on the tail up to `on_propose_`. -/
def Replica.proposeTail (C : Crypto) (s : Replica) (b : Batch) : Outcome :=
  let blk := s.tailBlock b.cmds b.keys b.vals []
  match s.deliverTail C blk with
  | (u, .error e) => (u, some e)
  | (u, .ok _) =>
    (u.update (C.getHash blk.body)).andThen fun u =>
      if u.height (C.getHash blk.body) ≤ u.vheight then (u, some .notAboveVheight)
      else u.onReceiveProposal C u.id (C.getHash blk.body)

/-- A block that was proposed, with the state in which `on_propose` was called: the core, the
beats resolved so far and the blocks seen as `qc_ref` of a received proposal. -/
structure Proposed where
  batch : Batch
  core : Replica
  resolved : List Batch
  seen : List Hash

def Proposed.blk (C : Crypto) (e : Proposed) : Hash :=
  C.getHash (e.core.tailBlock e.batch.cmds e.batch.keys e.batch.vals []).body

/-- The core and the fields of `PMWaitQC`. `pmQcFinish` is the beat whose promise is pending
and the block that it waits for; `pmWaitPropose` tells whether the hook is on the current
`propose_waiting`. The lists below are what happened so far. -/
structure Proposer where
  core : Replica
  pendingBeats : List Batch
  lastProposed : Hash
  locked : Bool
  pmQcFinish : Option (Hash × Batch)
  pmWaitPropose : Bool
  requested : List Batch
  resolved : List Batch
  proposed : List Proposed
  seen : List Hash

namespace Proposer

abbrev Result := Proposer × Option Exn

def Result.andThen (r : Result) (f : Proposer → Result) : Result :=
  match r.2 with
  | none => f r.1
  | some _ => r

variable (C : Crypto)

def start (c : Setup) : Proposer := ⟨c.start, [], b0, false, none, true, [], [], [], []⟩

/-- `async_qc_finish` of this block gives a promise that is resolved already. -/
def certified (P : Proposer) (blk : Hash) : Bool :=
  decide (P.core.config.nmajority ≤ (P.core.storage.ballot blk).2.card)

/-- `schedule_next`, where `cont` is the continuation of the beat that is popped. -/
def scheduleNext (cont : Proposer → Batch → Result) (P : Proposer) : Result :=
  match P.pendingBeats with
  | [] => (P, none)
  | b :: bs =>
    if P.locked then (P, none)
    else
      let Q := { P with
        core := P.core.asyncQcFinish P.lastProposed
        pendingBeats := bs
        pmQcFinish := none }
      if P.certified P.lastProposed then
        (Result.andThen (cont { Q with resolved := P.resolved ++ [b] } b)) fun Q =>
          ({ Q with locked := true }, none)
      else ({ Q with pmQcFinish := some (P.lastProposed, b), locked := true }, none)

/-- The continuation of `beat` in the handler of `cmd_pending`, with `hook` in the place of
what `on_propose_` calls back in `PMWaitQC`. -/
def proposeWith (hook : Proposer → Hash → Result) (P : Proposer) (b : Batch) : Result :=
  if P.core.pmaker.proposer = P.core.id then
    let e : Proposed := ⟨b, P.core, P.resolved, P.seen⟩
    match P.core.proposeTail C b with
    | (u, some x) => ({ P with core := u }, some x)
    | (u, none) =>
      (hook { P with core := u.notifyPropose (e.blk C), proposed := P.proposed ++ [e] }
        (e.blk C)).andThen fun P => ({ P with core := P.core.emit (.broadcast (e.blk C)) }, none)
  else (P, none)

/-- The hook of `update_last_proposed`. It is registered again at its end, so a beat that is
resolved in it proposes without it. -/
def updateLastProposed (P : Proposer) (blk : Hash) : Result :=
  if P.pmWaitPropose then
    (scheduleNext (proposeWith C fun P _ => (P, none))
      { P with pmWaitPropose := false, lastProposed := blk, locked := false }).andThen
        fun P => ({ P with pmWaitPropose := true }, none)
  else (P, none)

def beaten (P : Proposer) (b : Batch) : Result := P.proposeWith C (updateLastProposed C) b

/-- A beat that is popped at once has no continuation yet: it is attached when `beat` has
returned. -/
def beat (P : Proposer) (b : Batch) : Result :=
  let Q := { P with pendingBeats := P.pendingBeats ++ [b], requested := P.requested ++ [b] }
  if P.pendingBeats = [] ∧ P.locked = false ∧ P.certified P.lastProposed = true then
    (Q.scheduleNext fun P _ => (P, none)).andThen fun P => P.beaten C b
  else Q.scheduleNext (beaten C)

/-- `on_qc_finish` calls the beat back before it erases the promise. -/
def onQcFinish (P : Proposer) (blk : Hash) : Result :=
  if blk ∈ P.core.qcWaiting then
    let Q := { P with core := P.core.emit (.qcFinish blk) }
    let r : Result := match P.pmQcFinish with
      | none => (Q, none)
      | some (blk', b) =>
        if blk' = blk then
          beaten C { Q with pmQcFinish := none, resolved := P.resolved ++ [b] } b
        else (Q, none)
    r.andThen fun Q =>
      ({ Q with core := { Q.core with
          qcWaiting := Q.core.qcWaiting.filter fun b => decide (b ≠ blk) } }, none)
  else (P, none)

def onReceiveVote (P : Proposer) (v : Vote) : Result :=
  match P.core.storage.blkCache v.blkHash with
  | none => (P, some .blockNotDelivered)
  | some blk =>
    if !blk.delivered then (P, some .blockNotDelivered)
    else if P.core.config.nmajority ≤ blk.voted.card then (P, none)
    else if v.voter ∈ blk.voted then (P, none)
    else
      match P.core.addVote v with
      | (s, none) => ({ P with core := s }, some .partCertMismatch)
      | (s, some qc) =>
        if blk.voted.card + 1 = s.config.nmajority then
          onQcFinish C { P with core := s.updateHqc v.blkHash qc } v.blkHash
        else ({ P with core := s }, none)

def doVote (P : Proposer) (blk : Hash) : Result :=
  let v : Vote := ⟨P.core.id, blk, ⟨blk, C.sign P.core.id blk⟩⟩
  let P := { P with core := P.core.emit (.vote blk) }
  if P.core.pmaker.proposer = P.core.id then P.onReceiveVote C v
  else ({ P with core := P.core.emit (.voteSent P.core.pmaker.proposer v) }, none)

/-- The call of `on_qc_finish` in `on_receive_proposal`. -/
def finishQcRef (P : Proposer) (bnew : Hash) : Result :=
  match P.core.qcRef bnew with
  | none => (P, none)
  | some q => onQcFinish C { P with seen := P.seen ++ [q] } q

def judgeProposal (P : Proposer) (selfProp : Bool) (bnew : Hash) : Result :=
  match P.core.opinion bnew with
  | none => (P, some .undefined)
  | some opinion =>
    let P := { P with core := P.core.takeOpinion bnew opinion }
    let r : Result := if selfProp then (P, none) else P.finishQcRef C bnew
    r.andThen fun P =>
      let P := { P with core := P.core.notifyReceiveProposal bnew }
      if opinion && !P.core.voteDisabled then P.doVote C bnew else (P, none)

def onReceiveProposal (P : Proposer) (proposer : ReplicaID) (bnew : Hash) : Result :=
  if proposer = P.core.id then P.judgeProposal C true bnew
  else if !P.core.delivered bnew then (P, some .blockNotDelivered)
  else
    match P.core.update bnew with
    | (s, some x) => ({ P with core := s }, some x)
    | (s, none) => judgeProposal C { P with core := s } false bnew

inductive Input where
  | beat (b : Batch)
  | vote (v : Vote)
  | proposal (proposer : ReplicaID) (bnew : Hash)
  | call (op : Op)

def step (P : Proposer) : Input → Proposer
  | .beat b => (P.beat C b).1
  | .vote v => (P.onReceiveVote C v).1
  | .proposal proposer bnew => (P.onReceiveProposal C proposer bnew).1
  | .call op => { P with core := P.core.step C op }

end Proposer

def Op.unpaced : Op → Bool
  | .receiveProposal _ _ | .receiveVote _ | .propose _ _ _ _ _ | .asyncQcFinish _ => false
  | _ => true

namespace Proposer
variable (C : Crypto)

/-- Between beats, votes and proposals the other handlers may run, as long as they leave the
configuration alone. -/
def Fixed (P : Proposer) : Input → Prop
  | .call op => op.unpaced = true ∧ (P.core.step C op).config = P.core.config
  | .beat _ | .vote _ | .proposal _ _ => True

end Proposer

namespace Proposer
variable {C : Crypto} {P : Proposer}

theorem onQcFinish_idle (h : P.pmQcFinish = none) (blk : Hash) :
    P.onQcFinish C blk = ({ P with core := P.core.onQcFinish blk }, none) := by
  unfold onQcFinish Replica.onQcFinish
  split
  · simp only [h]
    rfl
  · rfl

theorem onReceiveVote_idle (h : P.pmQcFinish = none) (v : Vote) :
    P.onReceiveVote C v =
      ({ P with core := (P.core.onReceiveVote v).1 }, (P.core.onReceiveVote v).2) := by
  unfold onReceiveVote Replica.onReceiveVote
  generalize P.core.storage.blkCache v.blkHash = o
  obtain _ | blk := o
  · rfl
  simp only []
  split
  · rfl
  split
  · rfl
  split
  · rfl
  generalize P.core.addVote v = r
  obtain ⟨u, none | qc⟩ := r
  · rfl
  simp only []
  split
  · exact onQcFinish_idle (P := { P with core := u.updateHqc v.blkHash qc }) h v.blkHash
  · rfl

theorem doVote_idle (h : P.pmQcFinish = none) (blk : Hash) :
    P.doVote C blk =
      ({ P with core := (P.core.doVote C blk).1 }, (P.core.doVote C blk).2) := by
  unfold doVote Replica.doVote
  simp only []
  split
  · exact onReceiveVote_idle (P := { P with core := P.core.emit (.vote blk) }) h _
  · rfl

theorem judgeProposal_idle (h : P.pmQcFinish = none) (selfProp : Bool) (bnew : Hash) :
    (P.judgeProposal C selfProp bnew).1.core = (P.core.judgeProposal C selfProp bnew).1 ∧
      (P.judgeProposal C selfProp bnew).2 = (P.core.judgeProposal C selfProp bnew).2 := by
  -- Whether or not the certified block is passed on, the vote follows in the same core.
  have hrest : ∀ (Q : Proposer) (opinion : Bool), Q.pmQcFinish = none →
      let r : Result := if opinion && !(Q.core.notifyReceiveProposal bnew).voteDisabled
        then doVote C { Q with core := Q.core.notifyReceiveProposal bnew } bnew
        else ({ Q with core := Q.core.notifyReceiveProposal bnew }, none)
      let o : Outcome := if opinion && !(Q.core.notifyReceiveProposal bnew).voteDisabled
        then (Q.core.notifyReceiveProposal bnew).doVote C bnew
        else (Q.core.notifyReceiveProposal bnew, none)
      r.1.core = o.1 ∧ r.2 = o.2 := by
    intro Q opinion hQ
    simp only []
    split
    · rw [doVote_idle (P := { Q with core := Q.core.notifyReceiveProposal bnew }) hQ]
      exact ⟨rfl, rfl⟩
    · exact ⟨rfl, rfl⟩
  unfold judgeProposal Replica.judgeProposal
  generalize P.core.opinion bnew = o
  obtain _ | opinion := o
  · exact ⟨rfl, rfl⟩
  cases selfProp with
  | true => exact hrest { P with core := P.core.takeOpinion bnew opinion } opinion h
  | false =>
    simp only [Bool.false_eq_true, if_false]
    unfold finishQcRef Replica.finishQcRef
    simp only []
    generalize P.core.takeOpinion bnew opinion = u
    cases u.qcRef bnew with
    | none => exact hrest { P with core := u } opinion h
    | some q =>
      simp only []
      rw [onQcFinish_idle (P := { P with core := u, seen := P.seen ++ [q] }) h]
      exact hrest { P with core := u.onQcFinish q, seen := P.seen ++ [q] } opinion h

/-- While no beat waits, a received proposal does to the core what it does without the
pacemaker. -/
theorem onReceiveProposal_idle (h : P.pmQcFinish = none) (proposer : ReplicaID) (bnew : Hash) :
    (P.onReceiveProposal C proposer bnew).1.core = (P.core.onReceiveProposal C proposer bnew).1 ∧
      (P.onReceiveProposal C proposer bnew).2 =
        (P.core.onReceiveProposal C proposer bnew).2 := by
  unfold onReceiveProposal Replica.onReceiveProposal
  split
  · exact judgeProposal_idle h true bnew
  split
  · exact ⟨rfl, rfl⟩
  generalize P.core.update bnew = r
  obtain ⟨u, none | x⟩ := r
  · exact judgeProposal_idle (P := { P with core := u }) h false bnew
  · exact ⟨rfl, rfl⟩

end Proposer

/-- From the second beat on, the block proposed before has `n` voters or was seen certified. -/
def Proposed.Waited (C : Crypto) (n : ℕ) (e : Proposed) (before : List Proposed) : Prop :=
  1 < e.resolved.length → ∃ d, before.getLast? = some d ∧
    (n ≤ (e.core.storage.ballot (d.blk C)).2.card ∨ d.blk C ∈ e.seen)

namespace Proposer

/-- Beats are resolved in the order of the requests, every block is proposed from the beat
resolved last, and it has waited for the block before it. -/
structure InTurn (C : Crypto) (n : ℕ) (P : Proposer) : Prop where
  beats : P.resolved <+: P.requested
  own : ∀ e ∈ P.proposed, e.resolved <+: P.resolved ∧ e.resolved.getLast? = some e.batch
  waited : ∀ before e after, P.proposed = before ++ e :: after → e.Waited C n before

variable {C : Crypto}

def waiting (P : Proposer) : List Batch :=
  (P.pmQcFinish.map Prod.snd).toList ++ P.pendingBeats

def Latest (C : Crypto) (P : Proposer) : Prop :=
  ∃ d, P.proposed.getLast? = some d ∧ d.blk C = P.lastProposed

structure Base (C : Crypto) (cfg : ReplicaConfig) (P : Proposer) : Prop where
  config : P.core.config = cfg
  own : ∀ e ∈ P.proposed, e.resolved <+: P.resolved ∧ e.resolved.getLast? = some e.batch
  waited : ∀ before e after, P.proposed = before ++ e :: after →
    e.Waited C cfg.nmajority before

structure Inv (C : Crypto) (cfg : ReplicaConfig) (P : Proposer) : Prop extends Base C cfg P where
  order : P.requested = P.resolved ++ P.waiting
  free : P.locked = false → P.pmQcFinish = none
  held : ∀ p ∈ P.pmQcFinish, p.1 = P.lastProposed
  latest : P.locked = false ∨ P.pmQcFinish ≠ none → P.resolved = [] ∨ P.Latest C
  fresh : P.locked = false → P.resolved = [] → P.pendingBeats = []

/-- The beat of `b` has just been resolved, and its continuation is next. -/
structure Due (C : Crypto) (cfg : ReplicaConfig) (P : Proposer) (b : Batch) : Prop
    extends Base C cfg P where
  order : P.requested = P.resolved ++ P.pendingBeats
  now : P.resolved.getLast? = some b
  finish : P.pmQcFinish = none
  ready : Proposed.Waited C cfg.nmajority ⟨b, P.core, P.resolved, P.seen⟩ P.proposed
  latest : P.locked = false → P.Latest C

/-- The continuation of a beat ends well: also without the lock, unless the caller is
`schedule_next`, which is about to take it. -/
structure Settles (C : Crypto) (cfg : ReplicaConfig) (P : Proposer) (r : Result) : Prop where
  locked : Inv C cfg { r.1 with locked := true }
  kept : P.locked = true ∨ r.2 ≠ none → Inv C cfg r.1

variable {cfg : ReplicaConfig} {P : Proposer} {b : Batch}

theorem Result.andThen_inv {r : Result} {f : Proposer → Result} (hr : Inv C cfg r.1)
    (hf : ∀ Q, Inv C cfg Q → Inv C cfg (f Q).1) : Inv C cfg (r.andThen f).1 := by
  obtain ⟨Q, none | x⟩ := r
  · exact hf Q hr
  · exact hr

theorem Inv.withCore (I : Inv C cfg P) {u : Replica} (h : u.config = P.core.config) :
    Inv C cfg { P with core := u } :=
  ⟨⟨h.trans I.config, I.own, I.waited⟩, I.order, I.free, I.held, I.latest, I.fresh⟩

theorem Inv.lock (I : Inv C cfg P) : Inv C cfg { P with locked := true } := by
  refine ⟨⟨I.config, I.own, I.waited⟩, I.order, ?_, I.held, ?_, ?_⟩
  · exact fun hfree => by cases hfree
  · rintro (hfree | hfinish)
    · cases hfree
    · exact I.latest (Or.inr hfinish)
  · exact fun hfree => by cases hfree

theorem Due.ne_nil (D : Due C cfg P b) : P.resolved ≠ [] := by
  intro hnil
  have hnow := D.now
  rw [hnil] at hnow
  cases hnow

theorem Base.inv (B : Base C cfg P) (horder : P.requested = P.resolved ++ P.pendingBeats)
    (hfinish : P.pmQcFinish = none) (hne : P.resolved ≠ [])
    (hlatest : P.locked = false → P.Latest C) : Inv C cfg P := by
  refine ⟨B, ?_, fun _ => hfinish, ?_, ?_, fun _ hnil => absurd hnil hne⟩
  · unfold waiting
    rw [hfinish]
    exact horder
  · intro p hp
    rw [hfinish] at hp
    cases hp
  · rintro (hfree | hpending)
    · exact Or.inr (hlatest hfree)
    · exact absurd hfinish hpending

theorem Base.propose (B : Base C cfg P) {u : Replica} (hconfig : u.config = P.core.config)
    (hnow : P.resolved.getLast? = some b)
    (hready : Proposed.Waited C cfg.nmajority ⟨b, P.core, P.resolved, P.seen⟩ P.proposed) :
    Base C cfg { P with
      core := u, proposed := P.proposed ++ [⟨b, P.core, P.resolved, P.seen⟩] } := by
  refine ⟨hconfig.trans B.config, ?_, ?_⟩
  · intro e he
    rcases List.mem_append.mp he with hold | hnew
    · exact B.own e hold
    · rw [List.mem_singleton.mp hnew]
      exact ⟨List.prefix_refl _, hnow⟩
  · intro before e after hsplit
    rcases List.eq_nil_or_concat after with rfl | ⟨rest, e', rfl⟩
    · obtain ⟨rfl, heq⟩ := List.append_inj' hsplit rfl
      cases heq
      exact hready
    · have hcut : P.proposed ++ [⟨b, P.core, P.resolved, P.seen⟩] =
          (before ++ e :: rest) ++ [e'] := by
        rw [List.append_assoc]
        rw [List.concat_eq_append] at hsplit
        exact hsplit
      exact B.waited before e rest (List.append_inj' hcut rfl).1

end Proposer

namespace Replica
variable (C : Crypto) (s : Replica) (b : Batch)

theorem onPropose_split : s.onPropose C b.cmds b.keys b.vals [s.pmaker.hqcTail] [] =
    (s.proposeTail C b).andThen fun u =>
      ((u.notifyPropose (C.getHash (s.tailBlock b.cmds b.keys b.vals []).body)).emit
        (.broadcast (C.getHash (s.tailBlock b.cmds b.keys b.vals []).body)), none) := by
  rw [onPropose_tail]
  unfold proposeTail
  simp only []
  generalize C.getHash (s.tailBlock b.cmds b.keys b.vals []).body = h
  generalize s.deliverTail C (s.tailBlock b.cmds b.keys b.vals []) = r
  obtain ⟨u, x | new⟩ := r
  · rfl
  · simp only []
    generalize u.update h = r
    obtain ⟨w, none | x⟩ := r
    · simp only [Outcome.andThen_return]
      unfold finishProposal
      split <;> rfl
    · rfl

theorem proposeTail_config : (s.proposeTail C b).1.config = s.config := by
  have hframe := congrArg Frame.config
    (s.onPropose_frame C b.cmds b.keys b.vals [s.pmaker.hqcTail] [])
  rw [onPropose_split] at hframe
  generalize s.proposeTail C b = r at hframe ⊢
  obtain ⟨u, none | x⟩ := r
  · exact hframe
  · exact hframe

end Replica

namespace Proposer
variable {C : Crypto} {cfg : ReplicaConfig} {P : Proposer} {b : Batch}

structure Done (C : Crypto) (cfg : ReplicaConfig) (P : Proposer) (blk : Hash) : Prop
    extends Base C cfg P where
  order : P.requested = P.resolved ++ P.pendingBeats
  finish : P.pmQcFinish = none
  fired : P.resolved ≠ []
  last : ∃ d, P.proposed.getLast? = some d ∧ d.blk C = blk

theorem Done.skip {blk : Hash} (D : Done C cfg P blk) : Settles C cfg P (P, none) := by
  refine ⟨?_, ?_⟩
  · refine Base.inv ⟨D.config, D.own, D.waited⟩ D.order D.finish D.fired ?_
    exact fun hfree => by cases hfree
  · rintro (hlock | hthrow)
    · refine D.toBase.inv D.order D.finish D.fired ?_
      intro hfree
      rw [hlock] at hfree
      cases hfree
    · exact absurd rfl hthrow

theorem Due.propose (D : Due C cfg P b) {hook : Proposer → Hash → Result}
    (hhook : ∀ Q blk, Done C cfg Q blk → Settles C cfg Q (hook Q blk)) :
    Settles C cfg P (P.proposeWith C hook b) := by
  unfold proposeWith
  split
  · have hconfig := P.core.proposeTail_config C b
    simp only []
    generalize P.core.proposeTail C b = r at hconfig ⊢
    obtain ⟨u, none | x⟩ := r
    · have hdone : Done C cfg { P with
          core := u.notifyPropose (Proposed.blk C ⟨b, P.core, P.resolved, P.seen⟩)
          proposed := P.proposed ++ [⟨b, P.core, P.resolved, P.seen⟩] }
          (Proposed.blk C ⟨b, P.core, P.resolved, P.seen⟩) := by
        refine ⟨D.toBase.propose hconfig D.now D.ready, D.order, D.finish, D.ne_nil, ?_⟩
        exact ⟨_, List.getLast?_concat, rfl⟩
      have hsettles := hhook _ _ hdone
      simp only []
      generalize hook _ _ = r at hsettles ⊢
      obtain ⟨Q, none | x⟩ := r
      · refine ⟨hsettles.locked.withCore rfl, ?_⟩
        rintro (hlock | hthrow)
        · exact (hsettles.kept (Or.inl hlock)).withCore rfl
        · exact absurd rfl hthrow
      · exact ⟨hsettles.locked, hsettles.kept⟩
    · have hinv : Inv C cfg { P with core := u } := by
        have B : Base C cfg { P with core := u } := ⟨hconfig.trans D.config, D.own, D.waited⟩
        exact B.inv D.order D.finish D.ne_nil D.latest
      exact ⟨hinv.lock, fun _ => hinv⟩
  · have hinv := D.toBase.inv D.order D.finish D.ne_nil D.latest
    exact ⟨hinv.lock, fun _ => hinv⟩

theorem certified_iff {blk : Hash} : P.certified blk = true ↔
    P.core.config.nmajority ≤ (P.core.storage.ballot blk).2.card := decide_eq_true_iff

theorem asyncQcFinish_ballot (s : Replica) (blk : Hash) :
    (s.asyncQcFinish blk).storage.ballot = s.storage.ballot := by
  unfold Replica.asyncQcFinish
  split
  · rfl
  · split <;> rfl

/-- A beat is resolved when `last_proposed` is certified: the first, or one for which that
block is the one proposed last. -/
theorem Base.due (B : Base C cfg P) {u : Replica} (hconfig : u.config = P.core.config)
    (hballot : u.storage.ballot = P.core.storage.ballot) {bs : List Batch} {l : Bool}
    (horder : P.requested = P.resolved ++ b :: bs) (hlatest : P.resolved = [] ∨ P.Latest C)
    (hcert : cfg.nmajority ≤ (P.core.storage.ballot P.lastProposed).2.card ∨
      P.lastProposed ∈ P.seen) (hfree : l = false → P.resolved ≠ []) :
    Due C cfg { P with
      core := u
      pendingBeats := bs
      locked := l
      pmQcFinish := none
      resolved := P.resolved ++ [b] } b := by
  refine ⟨⟨hconfig.trans B.config, ?_, B.waited⟩, ?_, List.getLast?_concat, rfl, ?_, ?_⟩
  · intro e he
    exact ⟨(B.own e he).1.trans (List.prefix_append ..), (B.own e he).2⟩
  · rw [List.append_assoc]
    exact horder
  · intro hlength
    have hne : P.resolved ≠ [] := by
      intro hnil
      simp [hnil] at hlength
    obtain ⟨d, hd, hblk⟩ := hlatest.resolve_left hne
    refine ⟨d, hd, ?_⟩
    rw [hblk, hballot]
    exact hcert
  · exact fun hl => hlatest.resolve_left (hfree hl)

theorem scheduleNext_certified {bs : List Batch} {cont : Proposer → Batch → Result}
    (hbeats : P.pendingBeats = b :: bs) (hopen : P.locked = false)
    (hcert : P.certified P.lastProposed = true) :
    P.scheduleNext cont = Result.andThen (cont { P with
      core := P.core.asyncQcFinish P.lastProposed
      pendingBeats := bs
      pmQcFinish := none
      resolved := P.resolved ++ [b] } b) fun Q => ({ Q with locked := true }, none) := by
  unfold scheduleNext
  rw [hbeats]
  simp only []
  rw [if_neg (by simp [hopen]), if_pos hcert]

theorem scheduleNext_inv (B : Base C cfg P) (horder : P.requested = P.resolved ++ P.waiting)
    (hfree : P.locked = false → P.pmQcFinish = none)
    (hheld : ∀ p ∈ P.pmQcFinish, p.1 = P.lastProposed)
    (hlatest : P.locked = false ∨ P.pmQcFinish ≠ none → P.resolved = [] ∨ P.Latest C)
    (hfresh : P.locked = false → P.certified P.lastProposed = true → P.resolved = [] →
      P.pendingBeats = [])
    {cont : Proposer → Batch → Result}
    (hcont : ∀ Q b, Due C cfg Q b → Settles C cfg Q (cont Q b)) :
    Inv C cfg (P.scheduleNext cont).1 := by
  unfold scheduleNext
  split
  · rename_i hnil
    exact ⟨B, horder, hfree, hheld, hlatest, fun _ _ => hnil⟩
  rename_i b bs hbeats
  split
  · rename_i hlock
    refine ⟨B, horder, hfree, hheld, hlatest, ?_⟩
    intro hopen
    rw [hlock] at hopen
    cases hopen
  rename_i hopen
  rw [Bool.not_eq_true] at hopen
  have hconfig := congrArg Frame.config (P.core.asyncQcFinish_frame P.lastProposed)
  have hwait : P.requested = P.resolved ++ b :: bs := by
    rw [horder]
    unfold waiting
    rw [hfree hopen, hbeats]
    rfl
  simp only []
  split
  · rename_i hcert
    have hne : P.resolved ≠ [] := by
      intro hnil
      have hempty := hfresh hopen hcert hnil
      rw [hbeats] at hempty
      cases hempty
    have D := B.due hconfig (asyncQcFinish_ballot P.core P.lastProposed) hwait
      (hlatest (Or.inl hopen)) (Or.inl (by rw [← B.config]; exact certified_iff.mp hcert))
      (l := P.locked) fun _ => hne
    have S := hcont _ _ D
    generalize cont _ b = r at S
    obtain ⟨Q, none | x⟩ := r
    · exact S.locked
    · exact S.kept (Or.inr (by simp))
  · refine ⟨⟨hconfig.trans B.config, B.own, B.waited⟩, hwait, ?_, ?_, ?_, ?_⟩
    · exact fun h => by cases h
    · intro p hp
      cases hp
      rfl
    · exact fun _ => hlatest (Or.inl hopen)
    · exact fun h => by cases h

theorem Done.updateLastProposed {blk : Hash} (D : Done C cfg P blk) :
    Settles C cfg P (P.updateLastProposed C blk) := by
  unfold Proposer.updateLastProposed
  split
  · have I : Inv C cfg { P with
        pmWaitPropose := false, lastProposed := blk, locked := false } :=
      Base.inv ⟨D.config, D.own, D.waited⟩ D.order D.finish D.fired fun _ => D.last
    have hnext : Inv C cfg (scheduleNext (proposeWith C fun P _ => (P, none)) { P with
        pmWaitPropose := false, lastProposed := blk, locked := false }).1 := by
      refine scheduleNext_inv I.toBase I.order I.free I.held I.latest ?_ ?_
      · exact fun hopen _ => I.fresh hopen
      · exact fun Q b hdue => hdue.propose fun Q blk hdone => hdone.skip
    have hinv : Inv C cfg (Result.andThen _ fun P => ({ P with pmWaitPropose := true }, none)).1 :=
      Result.andThen_inv hnext fun Q I =>
        ⟨⟨I.config, I.own, I.waited⟩, I.order, I.free, I.held, I.latest, I.fresh⟩
    exact ⟨hinv.lock, fun _ => hinv⟩
  · exact D.skip

theorem Due.beaten (D : Due C cfg P b) : Settles C cfg P (P.beaten C b) :=
  D.propose fun _ _ hdone => hdone.updateLastProposed

theorem Inv.request (I : Inv C cfg P) (b : Batch) :
    P.requested ++ [b] = P.resolved ++ ((P.pmQcFinish.map Prod.snd).toList ++
      (P.pendingBeats ++ [b])) := by
  rw [I.order]
  unfold waiting
  simp only [List.append_assoc]

theorem Inv.beat (I : Inv C cfg P) (b : Batch) : Inv C cfg (P.beat C b).1 := by
  unfold Proposer.beat
  simp only []
  split
  · rename_i hpop
    obtain ⟨hnil, hopen, hcert⟩ := hpop
    have hconfig := congrArg Frame.config (P.core.asyncQcFinish_frame P.lastProposed)
    have hwait : P.requested ++ [b] = P.resolved ++ [b] := by
      rw [I.request, I.free hopen, hnil]
      rfl
    have B : Base C cfg { P with requested := P.requested ++ [b] } :=
      ⟨I.config, I.own, I.waited⟩
    have D := B.due hconfig (asyncQcFinish_ballot P.core P.lastProposed) hwait
      (I.latest (Or.inl hopen)) (Or.inl (by rw [← I.config]; exact certified_iff.mp hcert))
      (l := true) fun h => by cases h
    have hbeats : P.pendingBeats ++ [b] = [b] := by
      rw [hnil]
      rfl
    rw [scheduleNext_certified (P := { P with
      pendingBeats := P.pendingBeats ++ [b], requested := P.requested ++ [b] }) hbeats hopen hcert]
    exact D.beaten.kept (Or.inl rfl)
  · rename_i hlate
    have B : Base C cfg { P with
        pendingBeats := P.pendingBeats ++ [b], requested := P.requested ++ [b] } :=
      ⟨I.config, I.own, I.waited⟩
    refine scheduleNext_inv B (I.request b) I.free I.held I.latest ?_
      fun Q b hdue => hdue.beaten
    intro hopen hcert hnil
    exact absurd ⟨I.fresh hopen hnil, hopen, hcert⟩ hlate

theorem Inv.onQcFinish (I : Inv C cfg P) {blk : Hash}
    (hcert : cfg.nmajority ≤ (P.core.storage.ballot blk).2.card ∨ blk ∈ P.seen) :
    Inv C cfg (P.onQcFinish C blk).1 := by
  unfold Proposer.onQcFinish
  split
  · refine Result.andThen_inv ?_ fun Q J => J.withCore rfl
    split
    · exact I.withCore rfl
    rename_i blk' b hfinish
    split
    · subst blk'
      have hblk : blk = P.lastProposed := I.held (blk, b) hfinish
      have hlock : P.locked = true := by
        by_contra hopen
        rw [I.free (Bool.not_eq_true _ ▸ hopen)] at hfinish
        cases hfinish
      have hpending : P.pmQcFinish ≠ none := by
        rw [hfinish]
        exact Option.some_ne_none _
      have hwait : P.requested = P.resolved ++ b :: P.pendingBeats := by
        rw [I.order]
        unfold waiting
        rw [hfinish]
        rfl
      rw [hblk] at hcert
      have D := I.toBase.due (u := P.core.emit (.qcFinish blk)) rfl rfl hwait
        (I.latest (Or.inr hpending)) hcert (l := P.locked) fun hopen => by
          rw [hlock] at hopen
          cases hopen
      exact D.beaten.kept (Or.inl hlock)
    · exact I.withCore rfl
  · exact I

theorem Inv.onReceiveVote (I : Inv C cfg P) (v : Vote) : Inv C cfg (P.onReceiveVote C v).1 := by
  unfold Proposer.onReceiveVote
  split
  · exact I
  rename_i blk hblk
  split
  · exact I
  split
  · exact I
  split
  · exact I
  rename_i hnew
  have hconfig := P.core.addVote_config v
  have hballot := congrArg Head.ballot (P.core.addVote_head hblk).2
  generalize P.core.addVote v = r at hconfig hballot
  obtain ⟨u, none | qc⟩ := r
  · exact I.withCore hconfig
  simp only [] at hconfig hballot ⊢
  split
  · rename_i hlast
    have hup : (u.updateHqc v.blkHash qc).config = u.config :=
      congrArg Frame.config (u.updateHqc_frame v.blkHash qc)
    refine (I.withCore (hup.trans hconfig)).onQcFinish (Or.inl ?_)
    change _ ≤ ((u.updateHqc v.blkHash qc).storage.ballot v.blkHash).2.card
    rw [Replica.updateHqc_ballot, show u.storage.ballot = _ from hballot, Function.update_self,
      Finset.card_insert_of_notMem hnew, hlast, hconfig, I.config]
  · exact I.withCore hconfig

theorem Inv.doVote (I : Inv C cfg P) (blk : Hash) : Inv C cfg (P.doVote C blk).1 := by
  unfold Proposer.doVote
  simp only []
  split
  · have J : Inv C cfg { P with core := P.core.emit (.vote blk) } := I.withCore rfl
    exact J.onReceiveVote _
  · exact I.withCore rfl

theorem Inv.finishQcRef (I : Inv C cfg P) (bnew : Hash) : Inv C cfg (P.finishQcRef C bnew).1 := by
  unfold Proposer.finishQcRef
  split
  · exact I
  · rename_i q _
    have J : Inv C cfg { P with seen := P.seen ++ [q] } :=
      ⟨⟨I.config, I.own, I.waited⟩, I.order, I.free, I.held, I.latest, I.fresh⟩
    exact J.onQcFinish (Or.inr (List.mem_append_right _ (List.mem_singleton_self q)))

theorem Inv.judgeProposal (I : Inv C cfg P) (selfProp : Bool) (bnew : Hash) :
    Inv C cfg (P.judgeProposal C selfProp bnew).1 := by
  unfold Proposer.judgeProposal
  split
  · exact I
  rename_i opinion _
  have J : Inv C cfg { P with core := P.core.takeOpinion bnew opinion } :=
    I.withCore (congrArg Frame.config (P.core.takeOpinion_frame bnew opinion))
  refine Result.andThen_inv ?_ ?_
  · split
    · exact J
    · exact J.finishQcRef bnew
  · intro Q K
    have K' : Inv C cfg { Q with core := Q.core.notifyReceiveProposal bnew } := K.withCore rfl
    simp only []
    split
    · exact K'.doVote bnew
    · exact K'

theorem Inv.onReceiveProposal (I : Inv C cfg P) (proposer : ReplicaID) (bnew : Hash) :
    Inv C cfg (P.onReceiveProposal C proposer bnew).1 := by
  unfold Proposer.onReceiveProposal
  split
  · exact I.judgeProposal true bnew
  split
  · exact I
  have hconfig := congrArg Frame.config (P.core.update_frame bnew)
  generalize P.core.update bnew = r at hconfig
  obtain ⟨u, none | x⟩ := r
  · exact Inv.judgeProposal (I.withCore hconfig) false bnew
  · exact I.withCore hconfig

theorem Inv.step (I : Inv C cfg P) {i : Input} (hi : P.Fixed C i) : Inv C cfg (P.step C i) := by
  cases i with
  | beat b => exact I.beat b
  | vote v => exact I.onReceiveVote v
  | proposal proposer bnew => exact I.onReceiveProposal proposer bnew
  | call op => exact I.withCore hi.2

theorem Inv.start (C : Crypto) (c : Setup) : Inv C c.config (start c) := by
  refine ⟨⟨rfl, ?_, ?_⟩, rfl, fun _ => rfl, ?_, fun _ => Or.inl rfl, fun _ _ => rfl⟩
  · exact fun e he => absurd he List.not_mem_nil
  · intro before e after hsplit
    have hnil : [] = before ++ e :: after := hsplit
    simp at hnil
  · exact fun p hp => by cases hp

/-- For any order of beats, votes, proposals and other calls, the beats are resolved in the
order of the requests, and from the second beat on a block is proposed only when the block
that was proposed before it has its quorum of voters or was seen certified. -/
theorem proposer_waits (C : Crypto) (c : Setup) {P : Proposer}
    (h : Runs.Reach (Fixed C) (step C) (start c) P) : P.InTurn C c.config.nmajority := by
  have I : Inv C c.config P := h.invariant (Inv C c.config) (.start C c) fun _ _ I hi => I.step hi
  refine ⟨?_, I.own, I.waited⟩
  rw [I.order]
  exact List.prefix_append ..

instance (P : Proposer) (i : Input) : Decidable (P.Fixed C i) :=
  match i with
  | .call _ => inferInstanceAs (Decidable (_ ∧ _))
  | .beat _ | .vote _ | .proposal _ _ => inferInstanceAs (Decidable True)

/-- Three beats. The votes for the first block let the second go, and the third goes when
replica 1 sends a block that certifies the second. -/
def threeBeats : List Input :=
  [.beat (Pacing.batch 5), .beat (Pacing.batch 6), .beat (Pacing.batch 7),
    .vote ⟨1, 1, ⟨1, 1⟩⟩, .vote ⟨2, 1, ⟨1, 1⟩⟩,
    .call (.addBlk (.sample 3 3 9 [0])), .call (.deliverBlk 8), .proposal 1 8]

def runOf (inputs : List Input) : Proposer :=
  Runs.run (step .sample) (start (.four 0)) inputs

theorem proposer_waits_relayed :
    (runOf threeBeats).proposed.map (·.blk .sample) = [1, 3, 17] ∧
      (runOf threeBeats).InTurn .sample 3 := by
  refine ⟨by decide +kernel, ?_⟩
  refine proposer_waits .sample (.four 0) (Runs.reach_run _ .init ?_)
  decide +kernel

end Proposer

end AvaHotstuff
