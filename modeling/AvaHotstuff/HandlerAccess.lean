import AvaHotstuff.CallAccess

set_option autoImplicit false

namespace AvaHotstuff
open Bytes

/-- The block names a parent, and its certificate can be verified. -/
def ReplicaConfig.BlkFits (c : ReplicaConfig) (body : Body) : Prop :=
  body.parentHashes ≠ [] ∧ c.KnowsSigners body.qc

/-- The proposer of a proposal of the own cluster is known. A message that is counted for an
unfinished height is of one of the clusters, and the loop that makes the array of the height
does not start above zero. -/
def Replica.ProposalFits (s : Replica) (peer : PeerId) (prop : Proposal) (x : ℤ) : Prop :=
  (s.clusterId = prop.clusterNumber → s.config.Registered prop.proposer) ∧
    ∀ i ∈ prop.countedCluster, s.accepts peer prop = true →
      s.didReceiveMc prop.otherClusterBlockHeight = false → i < s.mc.nClusters ∧
        (s.mc.cidToClusterTrackerArray prop.otherClusterBlockHeight = none → x ≤ 0)

/-- The calls of the pacemaker, the timers and the clients. -/
def Op.own : Op → Bool
  | .propose _ _ _ _ _ | .remoteViewChangeTimeout _ | .sendReconfigAck _ _ | .asyncQcFinish _
  | .waitDecision _ _ => true
  | _ => false

/-- What reaches a node beside the messages that come as bytes. -/
def Node.Takes (C : Crypto) (n : Node) : Input → Prop
  | .propose _ _ _ _ | .vote _ _ | .lcomplain _ _ | .respBlk _ _ => False
  | .call op => op.own = true ∧ n.core.Parented (.op op) ∧ op.Fills ∧ n.core.VotersFit C op
  | .resume k => ∀ p ∈ n.pending[k]?, p.deps = [] → ∀ op ∈ p.cont.op C, n.core.VotersFit C op
  | _ => True

/-- The message keeps to what the tables of the node hold. -/
def Node.Meets (C : Crypto) (F : SigFormat) (n : Node) : Arrival → Prop
  | .propose peer bytes x => (∀ rids ∈ Proposal.ridsOf bytes, rids.nbits + 63 < 2 ^ 32) ∧
      (∀ body ∈ Proposal.blkOf F bytes, n.core.config.BlkFits body) ∧
      ∀ r ∈ decode (Proposal.unserialize F C.getHash) bytes, n.core.ProposalFits peer r.1 x
  | .respBlock bytes _ => (∀ rids ∈ MsgRespBlock.ridsOf F bytes, rids.nbits + 63 < 2 ^ 32) ∧
      ∀ body ∈ (MsgRespBlock.blksOf F bytes).1,
        n.core.config.BlkFits body ∧ C.getHash body ≠ b0
  | .vote _ bytes => ∀ v ∈ decode (Vote.unserialize F) bytes, n.core.config.Registered v.voter
  | .lcomplain _ bytes =>
    ∀ c ∈ decode (Complain.unserialize F) bytes, n.core.config.Registered c.voter
  | .recs _ => True
  | .recsAggEchoReady bytes =>
    ∀ msg ∈ decode MsgRecsAggEchoReady.unserialize bytes, n.core.NodeFits msg
  | .other i => n.Takes C i

/-- What a continuation relies on: a block that is not genesis, and later on one that is stored,
or a voter with a key. -/
def Cont.Fits (ps : List PeerId) (s : Replica) : Cont → Prop
  | .start h _ => h ≠ b0
  | .deliver h _ => h ≠ b0 ∧ (s.tree h).isSome = true
  | .vote v => v.voter < ps.length
  | _ => True

theorem Cont.Fits.grow {ps : List PeerId} {s u : Replica} {cont : Cont} (h : cont.Fits ps s)
    (g : Tree.Grows s.tree u.tree) : cont.Fits ps u := by
  cases cont with
  | deliver b valid => exact ⟨h.1, g.stored h.2⟩
  | _ => exact h

namespace Node
variable {C : Crypto} {ps : List PeerId} {c : Setup} {n : Node}

structure Ready (C : Crypto) (ps : List PeerId) (c : Setup) (n : Node) : Prop where
  core : n.core.Fit C ps c
  conts : ∀ p ∈ n.pending, p.cont.Fits ps n.core

theorem Ready.next (r : n.Ready C ps c) {m : Node} (hcore : m.core = n.core)
    (h : ∀ p ∈ m.pending, (∃ q ∈ n.pending, q.cont = p.cont) ∨ p.cont.Fits ps n.core) :
    m.Ready C ps c := by
  refine ⟨hcore ▸ r.core, ?_⟩
  intro p hp
  rw [hcore]
  rcases h p hp with ⟨q, hq, heq⟩ | hnew
  · rw [← heq]
    exact r.conts q hq
  · exact hnew

theorem Ready.await (r : n.Ready C ps c) (deps : List Dep) {cont : Cont}
    (h : cont.Fits ps n.core) : (n.await deps cont).Ready C ps c := by
  refine r.next rfl ?_
  intro p hp
  rcases List.mem_append.mp hp with hp | hp
  · exact .inl ⟨p, hp, rfl⟩
  · rw [List.mem_singleton.mp hp]
    exact .inr h

theorem Ready.resolve (r : n.Ready C ps c) (d : Dep) : (n.resolve d).Ready C ps c := by
  refine r.next rfl ?_
  intro p hp
  obtain ⟨q, hq, rfl⟩ := List.mem_map.mp hp
  exact .inl ⟨q, hq, rfl⟩

theorem Ready.same (r : n.Ready C ps c) {m : Node} (hcore : m.core = n.core)
    (h : m.pending = n.pending) : m.Ready C ps c := by
  refine r.next hcore ?_
  intro p hp
  rw [h] at hp
  exact .inl ⟨p, hp, rfl⟩

theorem Ready.settle (r : n.Ready C ps c) (h : Hash) (valid : Bool) :
    (n.settle h valid).Ready C ps c := by
  unfold Node.settle
  split
  · cases valid with
    | true =>
      exact ((r.same (m := n.note (.resolved h)) rfl rfl).resolve (.delivered h)).same rfl rfl
    | false =>
      refine r.next rfl ?_
      intro p hp
      exact .inl ⟨p, List.mem_of_mem_filter hp, rfl⟩
  · exact r

theorem Ready.step (hc : c.Populated ps) (r : n.Ready C ps c) {op : Op}
    (hop : n.core.Admits c ps op) {m : Node} (hcore : m.core = n.core.step C op)
    (hpending : m.pending = n.pending) : m.Ready C ps c := by
  have g : Tree.Grows n.core.tree m.core.tree := by
    rw [hcore]
    exact (Replica.exec_steps C r.core.booked.wf op).grows
  refine ⟨by rw [hcore]; exact r.core.exec hc hop, ?_⟩
  intro p hp
  rw [hpending] at hp
  exact (r.conts p hp).grow g

theorem Ready.call (hc : c.Populated ps) (r : n.Ready C ps c) {op : Op}
    (hop : n.core.Admits c ps op) : (n.call C op).Ready C ps c :=
  r.step hc hop (call_core C n op) (call_pending n op)

theorem Ready.asyncFetchBlk (r : n.Ready C ps c) (h : Hash) (replica : Option PeerId) :
    (n.asyncFetchBlk h replica).1.Ready C ps c := by
  obtain ⟨f, es, -, heq⟩ := n.asyncFetchBlk_eq h replica
  rw [heq]
  exact r.same rfl rfl

/-- A delivery is started for a block that is not delivered yet, so not for genesis. -/
theorem Ready.asyncDeliverBlk (r : n.Ready C ps c) (h : Hash) (replica : PeerId) :
    (n.asyncDeliverBlk h replica).1.Ready C ps c := by
  unfold Node.asyncDeliverBlk
  split
  · exact r
  rename_i hd
  split
  · exact r
  have hgen : h ≠ b0 := by
    rintro rfl
    exact hd r.core.booked.wf.genesis_delivered
  have r₁ : Ready C ps c { n with blkDeliveryWaiting := insert h n.blkDeliveryWaiting } :=
    r.same rfl rfl
  exact (r₁.asyncFetchBlk h (some replica)).await _ hgen

theorem Ready.deliverParents (replica : PeerId) (hs : List Hash) {x : Node × List Dep}
    (r : x.1.Ready C ps c) : (hs.foldl (deliverParent replica) x).1.Ready C ps c := by
  induction hs generalizing x with
  | nil => exact r
  | cons h hs ih => exact ih (x := deliverParent replica x h) (r.asyncDeliverBlk h replica)

theorem asyncFetchBlk_core (h : Hash) (replica : Option PeerId) :
    (n.asyncFetchBlk h replica).1.core = n.core := by
  obtain ⟨f, es, -, heq⟩ := n.asyncFetchBlk_eq h replica
  rw [heq]

theorem foldl_deliverParent_core (replica : PeerId) (hs : List Hash) (x : Node × List Dep) :
    (hs.foldl (deliverParent replica) x).1.core = x.1.core := by
  induction hs generalizing x with
  | nil => rfl
  | cons h hs ih => exact (ih (deliverParent replica x h)).trans (asyncDeliverBlk_core h replica)

theorem Ready.startDelivery (r : n.Ready C ps c) {h : Hash} (h0 : h ≠ b0) (replica : PeerId) :
    (n.startDelivery C h replica).Ready C ps c := by
  unfold Node.startDelivery
  split
  · exact r
  rename_i blk hblk
  simp only []
  have r₁ := Ready.deliverParents replica blk.body.parentHashes
    (x := ((n.asyncFetchBlk blk.body.qc.objHash (some replica)).1, []))
    (r.asyncFetchBlk blk.body.qc.objHash (some replica))
  refine r₁.await _ ⟨h0, ?_⟩
  rw [foldl_deliverParent_core, asyncFetchBlk_core, n.core.tree_of_cache hblk]
  rfl

theorem Ready.onDeliverBlk (hc : c.Populated ps) (r : n.Ready C ps c) (h : Hash) :
    (n.onDeliverBlk h).1.Ready C ps c := by
  have hop : n.core.Admits c ps (.deliverBlk h) := ⟨trivial, trivial, trivial⟩
  unfold Node.onDeliverBlk
  split
  · rename_i u e hu
    exact r.step hc hop (Replica.deliver_step C hu) rfl
  · rename_i u valid hu
    have r₁ : Ready C ps c { n with core := u } := r.step hc hop (Replica.deliver_step C hu) rfl
    apply Ready.settle
    split
    · exact r₁.same rfl rfl
    · exact r₁

theorem Ready.run (hc : c.Populated ps) (r : n.Ready C ps c) {cont : Cont}
    (h : cont.Fits ps n.core) : (n.run C cont).Ready C ps c := by
  cases cont with
  | start b replica => exact r.startDelivery h replica
  | deliver b valid =>
    change (n.finishDelivery b valid).Ready C ps c
    rw [finishDelivery_eq]
    exact r.onDeliverBlk hc b
  | proposal prop =>
    have hop : n.core.Admits c ps (.receiveProposal prop.proposer prop.blk) :=
      ⟨trivial, trivial, trivial⟩
    exact r.call hc hop
  | vote v =>
    change (if v.verify C then n.call C (.receiveVote v) else n).Ready C ps c
    split
    · exact r.call hc ⟨trivial, h, trivial⟩
    · exact r
  | lcomplain v =>
    change (if v.verify C then n.call C (.receiveLComplain v) else n).Ready C ps c
    split
    · exact r.call hc ⟨trivial, trivial, trivial⟩
    · exact r
  | respond blks replica => exact r.same rfl rfl

theorem Ready.resume (hc : c.Populated ps) (r : n.Ready C ps c) (k : ℕ) :
    (n.resume C k).Ready C ps c := by
  unfold Node.resume
  split
  · rename_i cont hk
    have r₁ : Ready C ps c { n with pending := n.pending.eraseIdx k } := by
      refine r.next rfl ?_
      intro p hp
      exact .inl ⟨p, List.mem_of_mem_eraseIdx hp, rfl⟩
    exact r₁.run hc (r.conts _ (List.mem_of_getElem? hk))
  · exact r

theorem Ready.addBlks (hc : c.Populated ps) {bodies : List Body} (r : n.Ready C ps c)
    (h : ∀ body ∈ bodies, c.config.Stores body) : (n.addBlks C bodies).Ready C ps c := by
  unfold Node.addBlks
  induction bodies generalizing n with
  | nil => exact r
  | cons body bodies ih =>
    have hbody := h body (List.mem_cons_self ..)
    exact ih (r.call hc (Replica.admits_addBlk hbody)) fun b hb => h b (List.mem_cons_of_mem _ hb)

theorem Ready.onFetchBlk (r : n.Ready C ps c) (h : Hash) (thrown : Bool) :
    (n.onFetchBlk h thrown).Ready C ps c := by
  unfold Node.onFetchBlk
  split
  · exact r
  · simp only []
    split
    · exact r.resolve (.fetched h)
    · exact (r.resolve (.fetched h)).same rfl rfl

theorem Ready.fetchBlks (r : n.Ready C ps c) (thrown : Option ℕ) (bodies : List Body) :
    (n.fetchBlks C thrown bodies).Ready C ps c := by
  induction bodies generalizing n thrown with
  | nil => exact r
  | cons body bodies ih =>
    match thrown with
    | some 0 => exact r.onFetchBlk _ true
    | some (k + 1) => exact ih (r.onFetchBlk _ false) (some k)
    | none => exact ih (r.onFetchBlk _ false) none

theorem Ready.respBlkHandler (hc : c.Populated ps) {bodies : List Body} (r : n.Ready C ps c)
    (h : ∀ body ∈ bodies, c.config.Stores body) (thrown : Option ℕ) :
    (n.respBlkHandler C bodies thrown).Ready C ps c :=
  (r.addBlks hc h).fetchBlks thrown bodies

theorem Ready.dispatch (hc : c.Populated ps) (r : n.Ready C ps c) (peer : PeerId)
    (prop : Proposal) (x : ℤ) : (n.dispatch C peer prop x).Ready C ps c := by
  unfold Node.dispatch
  split
  · exact r.call hc ⟨trivial, trivial, trivial⟩
  split
  · exact r.call hc ⟨trivial, trivial, trivial⟩
  · exact (r.asyncDeliverBlk prop.blk peer).await _ trivial

theorem Ready.proposeHandler (hc : c.Populated ps) (r : n.Ready C ps c) (peer : PeerId)
    (prop : Proposal) {body : Body} (hbody : c.config.Stores body) (x : ℤ) :
    (n.proposeHandler C peer prop body x).Ready C ps c := by
  have r₁ : (n.call C (.addBlk body)).Ready C ps c := r.call hc (Replica.admits_addBlk hbody)
  unfold Node.proposeHandler
  simp only []
  split
  · exact r
  split
  · split
    · exact r₁
    split
    · exact r₁
    · exact r₁.dispatch hc peer _ x
  · exact r₁.dispatch hc peer _ x

theorem Ready.reqBlkHandler (r : n.Ready C ps c) (peer : PeerId) (blks : List Hash) :
    (n.reqBlkHandler peer blks).Ready C ps c := by
  have hfold : ∀ (hs : List Hash) (x : Node × List Dep), x.1.Ready C ps c →
      (hs.foldl fetchOne x).1.Ready C ps c := by
    intro hs
    induction hs with
    | nil => exact fun _ rx => rx
    | cons h hs ih => exact fun x rx => ih (fetchOne x h) (rx.asyncFetchBlk h none)
  exact (hfold blks (n, []) r).await _ trivial

/-- A message that can be read to its end has the block that was stored on the way. -/
theorem blkOf_of_decode {F : SigFormat} {bytes : List UInt8} {prop : Proposal} {body : Body}
    (h : decode (Proposal.unserialize F C.getHash) bytes = some (prop, some body)) :
    Proposal.blkOf F bytes = some body := by
  obtain ⟨⟨r, rest⟩, hrun, hr⟩ := Option.map_eq_some_iff.mp h
  obtain rfl : r = (prop, some body) := hr
  unfold Proposal.unserialize at hrun
  simp only [run_bind_eq_some] at hrun
  obtain ⟨_, _, h₁, _, _, h₂, _, _, h₃, msgType, _, h₄, _, bs, h₅, blk, _, h₆, hrest⟩ := hrun
  have hblk : blk.map Prod.snd = some body := by
    obtain ⟨_, _, -, _, _, -, _, _, -, hlast⟩ := hrest
    exact congrArg (fun r : (Proposal × Option Body) × List UInt8 => r.1.2) (Option.some.inj hlast)
  have hread : msgType ≠ 9 ∧ ∃ rest, (Body.unserialize F).run bs = some (body, rest) := by
    unfold Proposal.unserializeBlk at h₆
    split at h₆
    · simp only [run_bind_eq_some] at h₆
      obtain ⟨_, _, -, hnone⟩ := h₆
      obtain rfl : none = blk := congrArg Prod.fst (Option.some.inj hnone)
      cases hblk
    · rename_i h9
      unfold Body.receive at h₆
      simp only [run_bind_eq_some] at h₆
      obtain ⟨e, _, ⟨b, rest, hb, _, _, -, hpair⟩, hsome⟩ := h₆
      obtain rfl : (C.getHash b, b) = e := congrArg Prod.fst (Option.some.inj hpair)
      obtain rfl : some (C.getHash b, b) = blk := congrArg Prod.fst (Option.some.inj hsome)
      obtain rfl : b = body := Option.some.inj hblk
      exact ⟨h9, rest, hb⟩
  obtain ⟨h9, rest, hb⟩ := hread
  have hto : (Proposal.unserializeToBlk F).run bytes = some ((msgType, body), rest) := by
    unfold Proposal.unserializeToBlk Proposal.unserializeHead
    simp only [run_bind_eq_some]
    exact ⟨_, _, ⟨_, _, h₁, _, _, h₂, _, _, h₃, _, _, h₄, _, _, h₅, rfl⟩, _, _, hb, rfl⟩
  unfold Proposal.blkOf decode
  rw [hto]
  exact if_neg h9

section
variable {F : SigFormat} {a : Arrival}

theorem Takes.within {i : Input} (h : n.Takes C i) : i.Within C .any n := by
  cases i with
  | call op =>
    refine ⟨?_, fun _ _ => trivial⟩
    have hown := h.1
    cases op with
    | propose => rfl
    | remoteViewChangeTimeout => rfl
    | sendReconfigAck => rfl
    | asyncQcFinish => rfl
    | waitDecision => rfl
    | _ => cases hown
  | resume k => exact fun _ _ _ _ => trivial
  | propose => exact h.elim
  | _ => trivial

theorem receive_moves (ha : n.Meets C F a) : Moves C .any (n, []) (n.receive C F a, []) := by
  have hcall : ∀ op : Op, op.direct = true → Moves C .any (n, []) (n.call C op, []) :=
    fun op hop => (Move.call hop fun _ _ => trivial).moves
  cases a with
  | propose peer bytes x =>
    simp only [Node.receive]
    split
    · exact proposeHandler_moves fun _ => trivial
    · exact foldl_addBlk_moves _
  | respBlock bytes thrown =>
    simp only [Node.receive]
    split
    · exact step_moves (i := .respBlk (MsgRespBlock.blksOf F bytes).1 thrown) trivial
    · exact foldl_addBlk_moves _
  | vote peer bytes =>
    simp only [Node.receive]
    split
    · rename_i v _
      exact step_moves (i := .vote peer v) trivial
    · exact .refl
  | lcomplain peer bytes =>
    simp only [Node.receive]
    split
    · rename_i v _
      exact step_moves (i := .lcomplain peer v) trivial
    · exact .refl
  | recs bytes =>
    simp only [Node.receive]
    split
    · exact hcall _ rfl
    · exact .refl
  | recsAggEchoReady bytes =>
    simp only [Node.receive]
    split
    · exact hcall _ rfl
    · exact .refl
  | other i => exact step_moves (Takes.within ha)

theorem Ready.registered (hc : c.Populated ps) (r : n.Ready C ps c) (rid : ReplicaID) :
    n.core.config.Registered rid ↔ c.config.Registered rid :=
  (r.core.registered_iff rid).trans (registered_iff hc.replicaMap rid).symm

theorem Ready.stores (hc : c.Populated ps) (r : n.Ready C ps c) {body : Body}
    (h : n.core.config.BlkFits body) (hfilled : body.Filled) (hrids : body.qc.rids.Covered) :
    c.config.Stores body := by
  refine ⟨h.1, ⟨h.2.imp_right ?_, hrids⟩, hfilled⟩
  intro hids i hi
  exact (r.registered hc _).mp (hids i hi)

theorem Ready.propose_stores (hc : c.Populated ps) (r : n.Ready C ps c) {peer : PeerId}
    {bytes : List UInt8} {x : ℤ} (ha : n.Meets C F (.propose peer bytes x)) {body : Body}
    (hb : Proposal.blkOf F bytes = some body) : c.config.Stores body := by
  obtain ⟨hfilled, hrids⟩ := Proposal.blkOf_read hb
  exact r.stores hc (ha.2.1 body hb) hfilled
    ((Proposal.ridsOf_covered hrids).mpr (ha.1 _ hrids))

theorem Ready.respBlock_stores (hc : c.Populated ps) (r : n.Ready C ps c) {bytes : List UInt8}
    {thrown : Option ℕ} (ha : n.Meets C F (.respBlock bytes thrown)) {body : Body}
    (hb : body ∈ (MsgRespBlock.blksOf F bytes).1) : c.config.Stores body := by
  obtain ⟨hfilled, hrids⟩ := MsgRespBlock.blksOf_read F hb
  exact r.stores hc (ha.2 body hb).1 hfilled
    ((MsgRespBlock.ridsOf_covered F hrids).mpr (ha.1 _ hrids))

theorem Ready.receive (hc : c.Populated ps) (r : n.Ready C ps c) (ha : n.Meets C F a) :
    (n.receive C F a).Ready C ps c := by
  cases a with
  | propose peer bytes x =>
    simp only [Node.receive]
    split
    · rename_i prop body hread
      exact r.proposeHandler hc peer prop (r.propose_stores hc ha (blkOf_of_decode hread)) x
    · exact r.addBlks hc fun body hb => r.propose_stores hc ha (Option.mem_toList.mp hb)
  | respBlock bytes thrown =>
    have hblk : ∀ body ∈ (MsgRespBlock.blksOf F bytes).1, c.config.Stores body :=
      fun body hb => r.respBlock_stores hc ha hb
    simp only [Node.receive]
    split
    · exact r.respBlkHandler hc hblk thrown
    · exact r.addBlks hc hblk
  | vote peer bytes =>
    simp only [Node.receive]
    split
    · rename_i v hv
      have hvoter : v.voter < ps.length := (r.core.registered_iff _).mp (ha v hv)
      exact (r.asyncDeliverBlk v.blkHash peer).await _ hvoter
    · exact r
  | lcomplain peer bytes =>
    simp only [Node.receive]
    split
    · rename_i v _
      exact (r.asyncDeliverBlk v.blkHash peer).await _ trivial
    · exact r
  | recs bytes =>
    simp only [Node.receive]
    split
    · exact r.call hc ⟨trivial, trivial, trivial⟩
    · exact r
  | recsAggEchoReady bytes =>
    simp only [Node.receive]
    split
    · exact r.call hc ⟨trivial, trivial, trivial⟩
    · exact r
  | other i =>
    cases i with
    | rcomplain v junk =>
      change (n.rcomplainHandler C v junk).Ready C ps c
      unfold rcomplainHandler
      split
      · exact r
      split
      · exact r
      · exact r.call hc ⟨trivial, trivial, trivial⟩
    | reqBlk peer blks => exact r.reqBlkHandler peer blks
    | verified h =>
      have r₁ : Ready C ps c { n with
        log := n.log ++ n.pending.flatMap (Pending.verdict · h) } := r.same rfl rfl
      exact r₁.resolve (.verified h)
    | checked voter cert => exact r.resolve (.checked voter cert)
    | resume k => exact r.resume hc k
    | call op =>
      refine r.call hc ⟨ha.2.1, ?_, ha.2.2.1⟩
      have hown := ha.1
      cases op with
      | addBlk => cases hown
      | receiveVote => cases hown
      | _ => trivial
    | _ => exact ha.elim

end

theorem Ready.callAccesses (hc : c.Populated ps) (r : n.Ready C ps c) {cont : Cont}
    (h : cont.Fits ps n.core)
    (hd : ∀ prop, cont = .proposal prop → n.core.delivered prop.blk = true)
    (hv : ∀ op ∈ cont.op C, n.core.VotersFit C op) :
    ∀ x ∈ (cont.op C).toList.flatMap (n.core.accesses C), x.2.InRange C x.1 := by
  intro x hx
  obtain ⟨op, hop, hx⟩ := List.mem_flatMap.mp hx
  rw [Option.mem_toList] at hop
  have hvoters := hv op hop
  cases cont with
  | proposal prop =>
    obtain rfl := Option.some.inj hop
    obtain ⟨m, hm, -⟩ := Tree.exists_of_delivered (hd prop rfl)
    have hs : (n.core.tree prop.blk).isSome = true := by
      rw [hm]
      rfl
    have hdef := Replica.onReceiveProposal_defined r.core.sane r.core.booked.toChained
      prop.proposer hs
    exact r.core.accesses hc (.receiveProposal prop.proposer prop.blk)
      ⟨trivial, trivial, trivial⟩ hvoters hdef rfl x hx
  | vote v =>
    change (if v.verify C then some (.receiveVote v) else none) = some op at hop
    split at hop
    · obtain rfl := Option.some.inj hop
      exact r.core.accesses hc (.receiveVote v) ⟨trivial, h, trivial⟩ hvoters
        (Replica.onReceiveVote_defined v) rfl x hx
    · cases hop
  | lcomplain v =>
    change (if v.verify C then some (.receiveLComplain v) else none) = some op at hop
    split at hop
    · obtain rfl := Option.some.inj hop
      exact r.core.accesses hc (.receiveLComplain v) ⟨trivial, trivial, trivial⟩ hvoters
        (Replica.onReceiveLComplain_defined C v) rfl x hx
    · cases hop
  | _ => cases hop

theorem Ready.contAccesses (hc : c.Populated ps) (r : n.Ready C ps c) {cont : Cont}
    (h : cont.Fits ps n.core)
    (hd : ∀ prop, cont = .proposal prop → n.core.delivered prop.blk = true)
    (hv : ∀ op ∈ cont.op C, n.core.VotersFit C op) :
    ∀ x ∈ n.contAccesses C cont, x.2.InRange C x.1 := by
  have hcall := r.callAccesses hc h hd hv
  intro x hx
  cases cont with
  | start b replica =>
    simp only [Node.contAccesses] at hx
    split at hx
    · exact absurd hx List.not_mem_nil
    rename_i blk hblk
    split at hx
    · exact absurd hx List.not_mem_nil
    exact r.core.verifyAccesses hc (r.core.certs.tree b _ (n.core.tree_of_cache hblk)) x hx
  | deliver b valid =>
    rcases List.mem_append.mp hx with hx | hx
    · exact r.core.deliverAccesses h.2 h.1 x hx
    · have r' := r.onDeliverBlk hc b
      have hstored : ((n.onDeliverBlk b).1.core.tree b).isSome = true → _ :=
        fun hs => r'.core.deliverAccesses hs h.1
      split at hx
      · rename_i m hm
        split at hx
        · rw [hm] at hstored
          refine hstored ?_ x hx
          obtain ⟨k, hk, -⟩ := Tree.exists_of_delivered (onDeliverBlk_settled hm).1
          rw [hk]
          rfl
        · exact absurd hx List.not_mem_nil
      · exact absurd hx List.not_mem_nil
  | respond blks replica =>
    obtain ⟨b, -, hx⟩ := List.mem_flatMap.mp hx
    obtain ⟨y, hy, rfl⟩ := List.mem_map.mp hx
    exact r.core.bitsOf b y hy
  | proposal | vote | lcomplain => exact hcall x hx

theorem Ready.proposeAccesses (hc : c.Populated ps) (r : n.Ready C ps c) {peer : PeerId}
    {prop : Proposal} {x : ℤ} (h : n.core.ProposalFits peer prop x)
    (hmc : ∀ op ∈ n.mcOp peer prop x, n.core.decidesAfterMc op = false) :
    ∀ y ∈ n.proposeAccesses C peer prop x, y.2.InRange C y.1 := by
  intro y hy
  rcases List.mem_append.mp hy with hy | hy
  · split at hy
    · rename_i hown
      rw [List.mem_singleton.mp hy]
      exact h.1 hown
    · exact absurd hy List.not_mem_nil
  obtain ⟨op, hop, hy⟩ := List.mem_flatMap.mp hy
  rw [Option.mem_toList] at hop
  have hopen := hmc op hop
  have hcluster := r.core.cluster hc
  have hvoters : ∀ op : Op, op.countsMc = true → n.core.VotersFit C op := by
    intro op hcounts
    cases op with
    | receiveMcLocal | relayMc => exact fun x hx => absurd hx List.not_mem_nil
    | _ => cases hcounts
  unfold mcOp at hop
  split at hop
  · rename_i hpass
    split at hop
    · rename_i h1
      have hcounted : prop.countedCluster = some prop.clusterNumber := if_pos h1
      have hdef := Replica.relayMc_defined hcluster r.core.trackers (h.2 _ hcounted hpass)
      obtain rfl := Option.some.inj hop
      exact r.core.accesses hc (.relayMc prop x) ⟨trivial, trivial, trivial⟩ (hvoters _ rfl) hdef
        hopen y hy
    rename_i h1
    split at hop
    · rename_i h2
      have hcounted : prop.countedCluster = some prop.preAmpClusterNumber := by
        unfold Proposal.countedCluster
        rw [if_neg h1, if_pos h2]
      have hdef := Replica.receiveMcLocal_defined hcluster r.core.trackers (h.2 _ hcounted hpass)
      obtain rfl := Option.some.inj hop
      exact r.core.accesses hc (.receiveMcLocal prop x) ⟨trivial, trivial, trivial⟩
        (hvoters _ rfl) hdef hopen y hy
    · cases hop
  · cases hop

theorem addBlks_stored {bodies : List Body} (w : n.core.tree.Wf) {body : Body}
    (h : body ∈ bodies ∨ (n.core.tree (C.getHash body)).isSome = true) :
    ((n.addBlks C bodies).core.tree (C.getHash body)).isSome = true := by
  unfold addBlks
  induction bodies generalizing n with
  | nil => exact h.resolve_left List.not_mem_nil
  | cons b bodies ih =>
    have hsteps := Replica.exec_steps C w (.addBlk b)
    rw [List.foldl_cons]
    apply ih
    · rw [call_core]
      exact hsteps.wf w
    · rw [call_core]
      rcases h with hmem | hs
      · rcases List.mem_cons.mp hmem with rfl | hmem
        · exact .inr (Replica.addBlk_stored _ _)
        · exact .inl hmem
      · exact .inr (hsteps.grows.stored hs)

theorem Ready.ownAccesses (hc : c.Populated ps) (r : n.Ready C ps c) {op : Op}
    (h : n.Takes C (.call op)) : ∀ x ∈ n.core.accesses C op, x.2.InRange C x.1 := by
  obtain ⟨hown, hparents, hfills, hvoters⟩ := h
  have hadmits : n.core.Admits c ps op := by
    refine ⟨hparents, ?_, hfills⟩
    cases op with
    | addBlk => cases hown
    | receiveVote => cases hown
    | _ => trivial
  refine r.core.accesses hc op hadmits hvoters ?_ ?_
  · cases op with
    | propose cmds keys vals parents extra =>
      exact (Replica.onPropose_spec r.core.sane r.core.booked.toChained cmds keys vals extra
        hparents).2
    | remoteViewChangeTimeout cid => exact Replica.remoteViewChangeTimeout_defined C cid
    | sendReconfigAck | asyncQcFinish | waitDecision => exact fun h => by cases h
    | _ => cases hown
  · cases op with
    | receiveMcLocal | relayMc => cases hown
    | _ => rfl

/-- The block that comes with a message is of no account for what the message completes. -/
theorem decides_addBlk (n : Node) (peer : PeerId) (prop : Proposal) (body : Body) (x : ℤ) :
    ((n.call C (.addBlk body)).mcOp peer { prop with blk := C.getHash body } x).any
      (n.call C (.addBlk body)).core.decidesAfterMc =
        (n.mcOp peer prop x).any n.core.decidesAfterMc := by
  unfold mcOp
  rw [call_core]
  change Option.any _ (if n.core.accepts peer prop then _ else _) = _
  split
  · split
    · rfl
    · split
      · rfl
      · rfl
  · rfl

theorem Ready.accesses {F : SigFormat} {a : Arrival} (hc : c.Populated ps) (r : n.Ready C ps c)
    (S : Sound .any (n, [])) (ha : n.Meets C F a) (hmc : n.decidesAfterMc C F a = false) :
    ∀ x ∈ n.accesses C F a, x.2.InRange C x.1 := by
  intro x hx
  cases a with
  | propose peer bytes k =>
    rcases List.mem_append.mp hx with hx | hx
    · rcases List.mem_append.mp hx with hx | hx
      · obtain ⟨rids, hr, rfl⟩ := List.mem_map.mp hx
        rw [Option.mem_toList] at hr
        exact (Proposal.ridsOf_covered hr).mpr (ha.1 rids hr)
      · obtain ⟨body, hb, rfl⟩ := List.mem_map.mp hx
        exact (ha.2.1 body (Option.mem_toList.mp hb)).1
    · split at hx
      · rename_i prop body hread
        simp only [Node.decidesAfterMc, hread] at hmc
        have hbody := r.propose_stores hc ha (blkOf_of_decode hread)
        have r₁ : (n.call C (.addBlk body)).Ready C ps c :=
          r.call hc (Replica.admits_addBlk hbody)
        refine r₁.proposeAccesses hc ?_ ?_ x hx
        · have hfit : (n.core.step C (.addBlk body)).ProposalFits peer
            { prop with blk := C.getHash body } k := ha.2.2 _ hread
          rw [call_core]
          exact hfit
        · intro op hop
          rw [← decides_addBlk n peer prop body k, Option.any_eq_false] at hmc
          exact hmc op hop
      · exact absurd hx List.not_mem_nil
  | respBlock bytes thrown =>
    rcases List.mem_append.mp hx with hx | hx
    · rcases List.mem_append.mp hx with hx | hx
      · obtain ⟨rids, hr, rfl⟩ := List.mem_map.mp hx
        exact (MsgRespBlock.ridsOf_covered F hr).mpr (ha.1 rids hr)
      · obtain ⟨body, hb, rfl⟩ := List.mem_map.mp hx
        exact (ha.2 body hb).1.1
    · split at hx
      · obtain ⟨body, hb, rfl⟩ := List.mem_map.mp hx
        have r₁ := r.addBlks hc fun b hb => r.respBlock_stores hc ha hb
        exact r₁.core.parentHashOf (addBlks_stored r.core.booked.wf (.inl hb)) (ha.2 body hb).2
      · exact absurd hx List.not_mem_nil
  | vote peer bytes =>
    obtain ⟨v, hv, rfl⟩ := List.mem_map.mp hx
    exact ha v (Option.mem_toList.mp hv)
  | lcomplain peer bytes =>
    obtain ⟨v, hv, rfl⟩ := List.mem_map.mp hx
    exact ha v (Option.mem_toList.mp hv)
  | recs bytes =>
    obtain ⟨v, -, hmem⟩ := List.mem_flatMap.mp hx
    exact r.core.accesses hc (.msgRecs v) ⟨trivial, trivial, trivial⟩
      (fun x hx => absurd hx List.not_mem_nil) (fun h => by cases h) rfl x hmem
  | recsAggEchoReady bytes =>
    obtain ⟨msg, hmsg, hmem⟩ := List.mem_flatMap.mp hx
    have hdef := Replica.msgRecsAggEchoReady_defined (ha msg (Option.mem_toList.mp hmsg))
    exact r.core.accesses hc (.msgRecsAggEchoReady msg) ⟨trivial, trivial, trivial⟩
      (fun x hx => absurd hx List.not_mem_nil) hdef rfl x hmem
  | other i =>
    cases i with
    | resume k =>
      simp only [Node.accesses] at hx
      split at hx
      · rename_i cont hk
        have hmem := List.mem_of_getElem? hk
        refine r.contAccesses hc (r.conts _ hmem) ?_ (ha _ hk rfl) x hx
        rintro prop rfl
        exact ((S.promised _ hmem prop rfl).2).resolve_left List.not_mem_nil
      · exact absurd hx List.not_mem_nil
    | call op => exact r.ownAccesses hc ha x hx
    | _ => exact absurd hx List.not_mem_nil

/-- `decide_after_mc` always takes 32 bytes from the sentinel. -/
theorem out_of_range_of_decides {F : SigFormat} {a : Arrival}
    (h : n.decidesAfterMc C F a = true) : ∃ x ∈ n.accesses C F a, ¬x.2.InRange C x.1 := by
  cases a with
  | propose peer bytes x =>
    simp only [Node.decidesAfterMc] at h
    split at h
    · rename_i prop body hread
      rw [← decides_addBlk n peer prop body x, Option.any_eq_true] at h
      obtain ⟨op, hop, hmc⟩ := h
      refine ⟨((n.call C (.addBlk body)).core, .negativeOne), ?_, (by decide : ¬32 ≤ 1)⟩
      apply List.mem_append_right
      rw [hread]
      apply List.mem_append_right
      refine List.mem_flatMap.mpr ⟨op, Option.mem_toList.mpr hop, ?_⟩
      unfold Replica.accesses
      simp only [List.mem_append, hmc, if_true, List.mem_singleton, true_or, or_true]
    · cases h
  | _ => cases h

section
variable (C : Crypto) (F : SigFormat) (n : Node)

instance (c : ReplicaConfig) (rid : ReplicaID) : Decidable (c.Registered rid) :=
  inferInstanceAs (Decidable (_ = true))

instance (c : ReplicaConfig) (qc : QuorumCert) : Decidable (c.KnowsSigners qc) :=
  inferInstanceAs (Decidable (_ ∨ _))

instance (c : ReplicaConfig) (body : Body) : Decidable (c.BlkFits body) :=
  inferInstanceAs (Decidable (_ ∧ _))

instance (s : Replica) (peer : PeerId) (prop : Proposal) (x : ℤ) :
    Decidable (s.ProposalFits peer prop x) :=
  inferInstanceAs (Decidable (_ ∧ _))

instance (s : Replica) (msg : MsgRecsAggEchoReady) : Decidable (s.NodeFits msg) :=
  inferInstanceAs (Decidable (_ → _))

instance (s : Replica) (op : Op) : Decidable (s.VotersFit C op) :=
  inferInstanceAs (Decidable (∀ _ ∈ _, _))

instance : (op : Op) → Decidable op.Fills
  | .addBlk _ | .propose .. => inferInstanceAs (Decidable (_ ∧ _))
  | .deliverBlk _ | .receiveProposal .. | .receiveVote _ | .receiveMcLocal .. | .relayMc ..
  | .remoteViewChangeTimeout _ | .receiveLComplain _ | .receiveRComplain .. | .msgRecs _
  | .sendReconfigAck .. | .msgRecsAggEchoReady _ | .asyncQcFinish _ | .waitDecision .. =>
    inferInstanceAs (Decidable True)

instance : (i : Input) → Decidable (n.Takes C i)
  | .propose .. | .vote .. | .lcomplain .. | .respBlk .. => inferInstanceAs (Decidable False)
  | .call op => inferInstanceAs (Decidable (_ ∧ _ ∧ op.Fills ∧ _))
  | .resume k => inferInstanceAs (Decidable (∀ p ∈ n.pending[k]?, p.deps = [] →
      ∀ op ∈ p.cont.op C, n.core.VotersFit C op))
  | .rcomplain .. | .reqBlk .. | .verified _ | .checked .. => inferInstanceAs (Decidable True)

instance : (a : Arrival) → Decidable (n.Meets C F a)
  | .propose .. => inferInstanceAs (Decidable (_ ∧ _ ∧ _))
  | .respBlock .. => inferInstanceAs (Decidable (_ ∧ ∀ _ ∈ _, _))
  | .vote .. | .lcomplain .. | .recsAggEchoReady _ =>
    inferInstanceAs (Decidable (∀ _ ∈ decode _ _, _))
  | .recs _ => inferInstanceAs (Decidable True)
  | .other i => inferInstanceAs (Decidable (n.Takes C i))

end

def follower : Setup := { Setup.quartet with id := 1, peers := [0, 2, 3] }

theorem follower_populated : follower.Populated [0, 1, 2, 3] where
  replicaMap := rfl
  own := by decide
  peers := rfl
  nreplicas := rfl
  narrow := by decide
  proposer := by decide
  cluster := by decide

def proposeBytes (clusterNumber preAmp msgType : ℕ) : List UInt8 :=
  ((⟨0, Crypto.digest.getHash firstBody, clusterNumber, preAmp, 1, msgType, ∅, 0⟩ :
    Proposal).serialize .sample firstBody []).getD []

def firstArrivals : List Arrival :=
  [.propose 0 (proposeBytes 0 0 7) 0, .other (.resume 0),
    .other (.verified (Crypto.digest.getHash firstBody)), .other (.resume 1),
    .vote 2 (Vote.serialize .sample ⟨2, Crypto.digest.getHash firstBody,
      ⟨Crypto.digest.getHash firstBody, 1⟩⟩)]

def firstArrived : Node := Runs.run (receive .digest .sample) (start follower) firstArrivals

def fails (C : Crypto) (x : Replica × Access) : Bool :=
  match x.2 with
  | .replicaInfo rid => !decide (x.1.config.Registered rid)
  | .parentHash body => body.parentHashes.isEmpty
  | .call op => decide ((x.1.exec C op).2 = some .undefined)
  | .bits rids => decide (rids.data.length < rids.nbits)
  | .negativeOne => true
  | _ => false

theorem exists_of_fails {C : Crypto} {xs : List (Replica × Access)}
    (h : xs.any (fails C) = true) : ∃ x ∈ xs, ¬x.2.InRange C x.1 := by
  obtain ⟨⟨s, x⟩, hx, hfails⟩ := List.any_eq_true.mp h
  refine ⟨⟨s, x⟩, hx, ?_⟩
  intro hin
  cases x with
  | replicaInfo rid =>
    have hnot : ¬s.config.Registered rid := by simpa [fails] using hfails
    exact hnot hin
  | parentHash body => exact hin (List.isEmpty_iff.mp hfails)
  | call op => exact hin (of_decide_eq_true hfails)
  | bits rids => exact absurd hin (Nat.not_le.mpr (of_decide_eq_true hfails))
  | negativeOne => exact absurd hin (by decide : ¬32 ≤ 1)
  | _ => cases hfails

def orphanBytes : List UInt8 :=
  toLe 4 1 ++ (Body.serialize .sample { firstBody with parentHashes := [] }).getD []

def wrappedBytes : List UInt8 :=
  toLe 4 1 ++ (firstBody.vectors.serialize ++ (toLe 32 0 ++ toLe 4 (2 ^ 32 - 1)))

def readyBytes : List UInt8 :=
  Recs.serialize ⟨0, 9, 1⟩ ++ (toLeInt 4 myReady ++ toLeInt 4 1)

end Node

end AvaHotstuff
