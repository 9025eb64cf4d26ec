import AvaHotstuff.Head
import AvaHotstuff.Frame

set_option autoImplicit false

namespace AvaHotstuff

/-- For each block its certificate and its voters. -/
abbrev BallotBox := Hash → Option QuorumCert × Finset ReplicaID

namespace BallotBox
variable (β : BallotBox) (cfg : ReplicaConfig)

/-- A block without a certificate gets one under the current configuration. -/
def cert (h : Hash) : QuorumCert := (β h).1.getD (createQuorumCert cfg h)

def count (v : Vote) : BallotBox :=
  Function.update β v.blkHash
    (some (((cert β cfg v.blkHash).addPart v.voter v.cert).getD (cert β cfg v.blkHash)),
      insert v.voter (β v.blkHash).2)

def restart (h : Hash) : BallotBox :=
  Function.update β h (some (createQuorumCert cfg h), (β h).2)

/-- The ballots are the same, or one vote with `P` has been added to them. -/
def Counts (P : Vote → Prop) (β' : BallotBox) : Prop :=
  β' = β ∨ ∃ v, P v ∧ (β v.blkHash).2.card < cfg.nmajority ∧ v.voter ∉ (β v.blkHash).2 ∧
    β' = count β cfg v

variable {β cfg}

theorem Counts.mono {P Q : Vote → Prop} {β' : BallotBox} (h : Counts β cfg P β')
    (hPQ : ∀ v, P v → Q v) : Counts β cfg Q β' := by
  rcases h with h | ⟨v, hv, h⟩
  · exact .inl h
  · exact .inr ⟨v, hPQ v hv, h⟩

end BallotBox

def ownVote (C : Crypto) (id : ReplicaID) (h : Hash) : Vote := ⟨id, h, ⟨h, C.sign id h⟩⟩

namespace Replica
variable (s : Replica)

def counting : BallotBox × ReplicaConfig × ReplicaID := (s.storage.ballot, s.config, s.id)

variable {s}

theorem counting_eq {u : Replica} (hh : u.storage.ballot = s.storage.ballot)
    (hf : u.frame = s.frame) : u.counting = s.counting := by
  unfold counting
  rw [hh, show u.config = s.config from congrArg Frame.config hf,
    show u.id = s.id from congrArg Frame.id hf]

theorem ballot_of_cache {h : Hash} {blk : Block} (hb : s.storage.blkCache h = some blk) :
    s.storage.ballot h = (blk.selfQc, blk.voted) := by
  unfold EntityStorage.ballot
  rw [hb]
  rfl

theorem updateHqc_ballot (h : Hash) (qc : QuorumCert) :
    (s.updateHqc h qc).storage.ballot = s.storage.ballot := by
  unfold updateHqc
  split <;> rfl

theorem update_ballot (h : Hash) : (s.update h).1.storage.ballot = s.storage.ballot := by
  rcases s.update_head h with ⟨hsame, -⟩ | ⟨blk, b2, -, -, -, hhead⟩
  · exact congrArg Head.ballot hsame
  · exact (congrArg Head.ballot hhead).trans (updateHqc_ballot b2 blk.body.qc)

theorem update_counting (h : Hash) : (s.update h).1.counting = s.counting :=
  counting_eq (update_ballot h) (s.update_frame h)

theorem onDeliverBlk_ballot (h : Hash) :
    (s.onDeliverBlk h).1.storage.ballot = s.storage.ballot := by
  rcases s.onDeliverBlk_head h with hsame | ⟨-, ts, -, hhead⟩
  · exact congrArg Head.ballot hsame
  · exact congrArg Head.ballot hhead

theorem onReceiveVote_counts (v : Vote) :
    BallotBox.Counts s.storage.ballot s.config (· = v) (s.onReceiveVote v).1.storage.ballot := by
  rcases s.onReceiveVote_head v with hsame | ⟨blk, hb, -, hcard, hnew, hadd⟩
  · exact .inl (congrArg Head.ballot hsame)
  have hballot := ballot_of_cache hb
  obtain ⟨hpart, hhead⟩ := s.addVote_head hb
  have hcount : (s.addVote v).1.storage.ballot = BallotBox.count s.storage.ballot s.config v := by
    refine (congrArg Head.ballot hhead).trans ?_
    unfold BallotBox.count BallotBox.cert
    rw [hballot, hpart]
  refine .inr ⟨v, rfl, by rwa [hballot], by rwa [hballot], ?_⟩
  rcases hadd with hlast | ⟨qc, -, -, hlast⟩
  · exact (congrArg Head.ballot hlast).trans hcount
  · exact ((congrArg Head.ballot hlast).trans (updateHqc_ballot ..)).trans hcount

theorem doVote_counts (C : Crypto) (h : Hash) :
    BallotBox.Counts s.storage.ballot s.config (· = ownVote C s.id h)
      (s.doVote C h).1.storage.ballot := by
  unfold doVote
  simp only []
  split
  · exact onReceiveVote_counts (s := s.emit (.vote h)) (ownVote C s.id h)
  · exact .inl rfl

def Votes (C : Crypto) (t : BallotBox × ReplicaConfig × ReplicaID) (β : BallotBox) : Prop :=
  BallotBox.Counts t.1 t.2.1 (fun v => ∃ h, v = ownVote C t.2.2 h) β

theorem doVote_votes (C : Crypto) (h : Hash) :
    Votes C s.counting (s.doVote C h).1.storage.ballot :=
  (doVote_counts C h).mono fun _ hv => ⟨h, hv⟩

theorem judgeProposal_votes (C : Crypto) (selfProp : Bool) (h : Hash) :
    Votes C s.counting (s.judgeProposal C selfProp h).1.storage.ballot := by
  have hopined : ∀ o, ((s.opined selfProp h o).notifyReceiveProposal h).counting = s.counting :=
    fun o => counting_eq (congrArg Head.ballot (s.opined_head h selfProp o))
      (s.opined_frame h selfProp o)
  have hjudge := s.judgement C selfProp h
  generalize s.judgeProposal C selfProp h = r at hjudge
  cases hjudge with
  | undefined => exact .inl rfl
  | @silent o =>
    rw [← hopined o]
    exact .inl rfl
  | vote =>
    rw [← hopined true]
    exact doVote_votes C h

theorem onReceiveProposal_votes (C : Crypto) (proposer : ReplicaID) (h : Hash) :
    Votes C s.counting (s.onReceiveProposal C proposer h).1.storage.ballot := by
  unfold onReceiveProposal
  split
  · exact judgeProposal_votes C true h
  split
  · exact .inl rfl
  have hup := s.update_counting h
  generalize s.update h = r at hup ⊢
  obtain ⟨u, none | e⟩ := r
  · rw [← hup]
    exact judgeProposal_votes C false h
  · exact .inl (congrArg Prod.fst hup)

theorem finishProposal_votes (C : Crypto) (h : Hash) :
    Votes C s.counting (s.finishProposal C h).1.storage.ballot := by
  unfold finishProposal
  split
  · exact .inl rfl
  have hrec := onReceiveProposal_votes (s := s) C s.id h
  generalize s.onReceiveProposal C s.id h = r at hrec ⊢
  obtain ⟨u, none | e⟩ := r
  · exact hrec
  · exact hrec

theorem onPropose_votes (C : Crypto) (cmds : List Hash) (keys vals : List ℤ)
    (parents : List Hash) (extra : List UInt8) {h : Hash}
    (hp : s.proposes C (.propose cmds keys vals parents extra) = some h) :
    Votes C (BallotBox.restart s.storage.ballot s.config h, s.config, s.id)
      (s.onPropose C cmds keys vals parents extra).1.storage.ballot := by
  obtain ⟨p, hhead, rfl⟩ := Option.map_eq_some_iff.mp hp
  unfold onPropose
  rw [hhead]
  simp only []
  generalize hb : s.newBlock cmds keys vals parents p extra = b
  have hq : b.selfQc = none := by rw [← hb]; rfl
  have hv : b.voted = ∅ := by rw [← hb]; rfl
  have hl : b.lcomplains = ∅ := by rw [← hb]; rfl
  have hr : b.rcomplains = ∅ := by rw [← hb]; rfl
  generalize C.getHash b.body = h
  have hstore : (s.storeProposal h b parents).storage.ballot =
      BallotBox.restart s.storage.ballot s.config h :=
    congrArg Head.ballot (s.storeProposal_head h b parents hq hv)
  have hframe := s.storeProposal_frame h b parents hl hr
  have hdeliver : ((s.storeProposal h b parents).onDeliverBlk h).1.counting =
      (BallotBox.restart s.storage.ballot s.config h, s.config, s.id) := by
    have hsame := counting_eq (onDeliverBlk_ballot h)
      ((s.storeProposal h b parents).onDeliverBlk_frame h)
    rw [hsame]
    unfold counting
    rw [hstore, show (s.storeProposal h b parents).config = s.config from
      congrArg Frame.config hframe, show (s.storeProposal h b parents).id = s.id from
      congrArg Frame.id hframe]
  rw [← hdeliver]
  generalize (s.storeProposal h b parents).onDeliverBlk h = r
  obtain ⟨u, e | v⟩ := r
  · exact .inl rfl
  simp only []
  have hup := u.update_counting h
  generalize u.update h = r at hup ⊢
  obtain ⟨w, none | e⟩ := r
  · rw [← hup]
    exact finishProposal_votes C h
  · exact .inl (congrArg Prod.fst hup)

def tallied (C : Crypto) (s : Replica) (op : Op) : BallotBox :=
  match s.proposes C op with
  | none => s.storage.ballot
  | some h => BallotBox.restart s.storage.ballot s.config h

def Casts (C : Crypto) (s : Replica) (op : Op) (v : Vote) : Prop :=
  op = .receiveVote v ∨ ∃ h, v = ownVote C s.id h

theorem exec_counts (C : Crypto) (op : Op) :
    BallotBox.Counts (s.tallied C op) s.config (s.Casts C op) (s.exec C op).1.storage.ballot := by
  cases op with
  | addBlk body => exact .inl (congrArg Head.ballot (s.addBlk_head _ _ rfl rfl))
  | deliverBlk blk =>
    refine .inl ?_
    change (s.deliverOutcome blk).1.storage.ballot = s.storage.ballot
    rw [deliverOutcome_fst]
    exact onDeliverBlk_ballot blk
  | receiveProposal proposer blk =>
    exact (onReceiveProposal_votes C proposer blk).mono fun _ hv => .inr hv
  | receiveVote v => exact (onReceiveVote_counts v).mono fun w hw => .inl (by rw [hw])
  | propose cmds keys vals parents extra =>
    cases hp : s.proposes C (.propose cmds keys vals parents extra) with
    | none =>
      rw [tallied, hp]
      refine .inl ?_
      have hnil : parents.head? = none := Option.map_eq_none_iff.mp hp
      change (s.onPropose C cmds keys vals parents extra).1.storage.ballot = s.storage.ballot
      unfold onPropose
      rw [hnil]
    | some h =>
      rw [tallied, hp]
      exact (onPropose_votes C cmds keys vals parents extra hp).mono fun _ hv => .inr hv
  | _ => exact .inl (congrArg Head.ballot (s.exec_head C rfl))

end Replica

end AvaHotstuff
