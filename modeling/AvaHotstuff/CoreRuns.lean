import AvaHotstuff.Safety
import AvaHotstuff.Runs

set_option autoImplicit false

namespace AvaHotstuff
open Ancestry LockedVoting

namespace Cluster
variable {n : ℕ}

/-- The calls that only store and deliver blocks leave these fields alone. -/
structure Frame (r u : Replica) : Prop where
  lock : u.bLock = r.bLock
  exec : u.bExec = r.bExec
  vheight : u.vheight = r.vheight
  trace : u.trace = r.trace

theorem onDeliverBlk_frame (r : Replica) (h : Hash) : Frame r (r.onDeliverBlk h).1 := by
  have hdelivery := r.delivery h
  generalize r.onDeliverBlk h = d at hdelivery
  cases hdelivery <;> exact ⟨rfl, rfl, rfl, rfl⟩

theorem Frame.trans {r u v : Replica} (f : Frame r u) (g : Frame u v) : Frame r v :=
  ⟨g.lock.trans f.lock, g.exec.trans f.exec, g.vheight.trans f.vheight, g.trace.trans f.trace⟩

theorem storeProposal_frame (r : Replica) (h : Hash) (b : Block) (parents : List Hash) :
    Frame r (r.storeProposal h b parents) := ⟨rfl, rfl, rfl, rfl⟩

theorem Assumptions.backing_update {C : Crypto} {byz : Finset (Fin n)} {s post : Cluster n}
    (A : Assumptions C byz s post) (w : ∀ i, i ∉ byz → (s i).tree.Wf) {i : Fin n}
    {r : Replica} (hpost : ∀ j, j ≠ i → post j = s j)
    {G G' : Ledger.Guard} (hs : Ledger.Steps G (s i).ledger r.ledger)
    (hs' : Ledger.Steps G' r.ledger (post i).ledger) (hi : i ∉ byz) :
    Backing byz (Function.update s i r) := by
  refine A.backing ?_ ?_ ?_
  · intro j h hsig
    by_cases hj : j = i
    · subst j
      rw [Function.update_self]
      obtain ⟨e, he, hsg⟩ := Replica.signed_iff.mp hsig
      exact Replica.signed_iff.mpr ⟨e, hs.log_mono he, hsg⟩
    · rw [Function.update_of_ne hj]
      exact hsig
  · intro j hj
    by_cases hji : j = i
    · subst j
      rw [Function.update_self]
      exact hs.wf (w i hi)
    · rw [Function.update_of_ne hji]
      exact w j hj
  · intro j _
    by_cases hji : j = i
    · subst j
      rw [Function.update_self]
      exact hs'.grows
    · rw [Function.update_of_ne hji, hpost j hji]
      exact .refl _

theorem onDeliverBlk_unbreached (r : Replica) (h : Hash) :
    (r.onDeliverBlk h).2 ≠ .error .safetyBreached := by
  have hdelivery := r.delivery h
  generalize r.onDeliverBlk h = d at hdelivery
  cases hdelivery <;> simp

theorem onReceiveVote_unbreached (r : Replica) (v : Vote) :
    (r.onReceiveVote v).2 ≠ some .safetyBreached := by
  have hpoll := r.polling v
  generalize r.onReceiveVote v = o at hpoll
  cases hpoll <;> simp

theorem doVote_unbreached (C : Crypto) (r : Replica) (h : Hash) :
    (r.doVote C h).2 ≠ some .safetyBreached := by
  unfold Replica.doVote
  simp only []
  split
  · exact onReceiveVote_unbreached _ _
  · simp

theorem judgeProposal_unbreached (C : Crypto) (r : Replica) (selfProp : Bool) (bnew : Hash) :
    (r.judgeProposal C selfProp bnew).2 ≠ some .safetyBreached := by
  have hjudge := r.judgement C selfProp bnew
  generalize r.judgeProposal C selfProp bnew = o at hjudge
  cases hjudge with
  | undefined | silent => simp
  | vote => exact doVote_unbreached C _ bnew

def stepWith (update : Replica → Hash → Outcome) (C : Crypto) (s : Cluster n)
    (a : Fin n × Op) : Cluster n :=
  Function.update s a.1 ((s a.1).execWith update C a.2).1

def CoreStepWith (update : Replica → Hash → Outcome) (C : Crypto) (byz : Finset (Fin n))
    (s : Cluster n) (a : Fin n × Op) : Prop :=
  a.1 ∉ byz ∧ CoreCall (s a.1) a.2 ∧ Assumptions C byz s (stepWith update C s a)

/-- The ledgers of the honest replicas satisfy `K`, they sign only votes, and their blocks
are backed. -/
structure Kept (K : Ledger → Prop) (byz : Finset (Fin n)) (s : Cluster n) : Prop where
  kept : ∀ i, i ∉ byz → K (s i).ledger
  votes : ∀ i, i ∉ byz → ∀ h, (s i).Signed h → (s i).Voted h
  backing : Backing byz s

structure Keeps (K : Ledger → Prop) (r : Outcome) : Prop where
  kept : K r.1.ledger
  low : r.1.ledger.Low
  unbreached : r.2 ≠ some .safetyBreached

/-- What agreement needs of a build: `K` is the invariant of the ledgers, and `R` is what
`update` leaves for the judgement of the block. -/
structure Keeper (byz : Finset (Fin n)) (update : Replica → Hash → Outcome)
    (K : Ledger → Prop) (R : Replica → Hash → Prop) : Prop where
  updates : ∀ G, Replica.Updates update G
  held : ∀ {L : Ledger}, K L → L.Held
  grow : ∀ {L M : Ledger}, Tree.Grows L.tree M.tree → L.tree.Closed → M.Voting →
    M.log = L.log → M.bLock = L.bLock → M.bExec = L.bExec → K L → K M
  judge : ∀ {r : Replica} {bnew : Hash} (C : Crypto) (selfProp : Bool), K r.ledger →
    r.tree.Closed → r.delivered bnew = true → R r bnew →
    K (r.judgeProposal C selfProp bnew).1.ledger ∧ (r.judgeProposal C selfProp bnew).1.ledger.Low
  low : ∀ {r : Replica} {bnew : Hash}, K r.ledger → r.tree.Closed → r.delivered bnew = true →
    R r bnew → r.height bnew ≤ r.vheight → r.ledger.Low
  safe : ∀ {s : Cluster n} {i : Fin n} {bnew : Hash}, Kept K byz s → i ∉ byz →
    (s i).delivered bnew = true → (s i).ledger.Low →
    (update (s i) bnew).2 = none ∧ K (update (s i) bnew).1.ledger ∧ R (update (s i) bnew).1 bnew

theorem start_eq_genesis (c : Fin n → Setup) (i : Fin n) {h : Hash} {b : Block}
    (hb : (start c i).storage.blkCache h = some b) :
    h = b0 ∧ b = Block.genesis ⟨(c i).config.replicaMap, n, Quorum.majority n⟩ := by
  by_cases hh : h = b0
  · subst h
    exact ⟨rfl, (Option.some.inj hb).symm⟩
  · have habsent := Setup.start_absent { c i with
      id := i
      config := ⟨(c i).config.replicaMap, n, Quorum.majority n⟩ } hh
    exact absurd (((start c i).tree_of_cache hb).symm.trans habsent) (by simp)

theorem start_kept (byz : Finset (Fin n)) {K : Ledger → Prop} {c : Fin n → Setup}
    (hstart : ∀ i, K (start c i).ledger) : Kept K byz (start c) := by
  have hroot : ∀ i h, (start c i).delivered h = true → h = b0 := by
    intro i h hd
    obtain ⟨m, hm, -⟩ := Tree.exists_of_delivered hd
    obtain ⟨b, hb, -⟩ := (start c i).cache_of_tree hm
    exact (start_eq_genesis c i hb).1
  refine ⟨fun i _ => hstart i, ?_, ?_, ?_, ?_⟩
  · rintro i - h ⟨e, he, -⟩
    exact absurd he List.not_mem_nil
  · intro i j _ _ h b b' hb hb'
    rw [(start_eq_genesis c i hb).2, (start_eq_genesis c j hb').2]
    rfl
  · intro i _ h hd
    obtain rfl := hroot i h hd
    exact ⟨b0, rfl, .refl _, fun h => absurd rfl h⟩
  · intro i _ h q hd h0
    exact absurd (hroot i h hd) h0

theorem start_held (c : Fin n → Setup) (i : Fin n) : (start c i).ledger.Held := by
  have v := ({ c i with
    id := i
    config := ⟨(c i).config.replicaMap, n, Quorum.majority n⟩ } : Setup).start_voting
  exact ⟨v, v.wf.genesis_delivered, .inl rfl, Nat.le_refl _, .nil,
    fun _ h => absurd h List.not_mem_nil⟩

section
variable {C : Crypto} {byz : Finset (Fin n)} {s : Cluster n} {i : Fin n} {op : Op}

theorem voted_of_steps {r u : Replica} {G : Ledger.Guard}
    (hs : Ledger.Steps G r.ledger u.ledger) (hG : ∀ h, ¬G.complain h)
    (hv : ∀ h, r.Signed h → r.Voted h) : ∀ h, u.Signed h → u.Voted h := by
  intro h hsig
  obtain ⟨e, he, hsg⟩ := Replica.signed_iff.mp hsig
  rcases hs.signs_cases he hsg with hold | rfl | hcom
  · have hvoted := Replica.voted_iff.mp (hv h (Replica.signed_iff.mpr ⟨e, hold, hsg⟩))
    exact Replica.voted_iff.mpr (hs.log_mono hvoted)
  · exact Replica.voted_iff.mpr he
  · exact absurd hcom (hG h)

theorem CoreCall.not_complains {r : Replica} (hc : CoreCall r op) (h : Hash) :
    ¬r.Complains op h := by
  cases op with
  | remoteViewChangeTimeout cid => exact hc.elim
  | receiveLComplain c => exact hc.elim
  | _ => exact fun h => h

theorem CoreCall.opines {r : Replica} (hc : CoreCall r op) (L : Ledger) (h : Hash)
    (ho : (r.guard C op).opine L h) : L.tree.delivered h = true := by
  rcases ho with ⟨hd, -⟩ | rfl
  · exact hd
  · exact absurd rfl hc

end

section
variable {C : Crypto} {byz : Finset (Fin n)} {s : Cluster n} {i : Fin n} {op : Op}
  {update : Replica → Hash → Outcome} {K : Ledger → Prop} {R : Replica → Hash → Prop}
  (B : Keeper byz update K R)

theorem stepWith_self (s : Cluster n) :
    stepWith update C s (i, op) i = ((s i).execWith update C op).1 := Function.update_self ..

theorem stepWith_other (s : Cluster n) {j : Fin n} (hj : j ≠ i) :
    stepWith update C s (i, op) j = s j := Function.update_of_ne hj ..

theorem Kept.replace (S : Kept K byz s) {r : Replica} (k : K r.ledger)
    (hv : ∀ h, r.Signed h → r.Voted h) (hB : Backing byz (Function.update s i r)) :
    Kept K byz (Function.update s i r) := by
  refine ⟨?_, ?_, hB⟩
  · intro j hj
    by_cases hji : j = i
    · subst j
      rw [Function.update_self]
      exact k
    · rw [Function.update_of_ne hji]
      exact S.kept j hj
  · intro j hj
    by_cases hji : j = i
    · subst j
      rw [Function.update_self]
      exact hv
    · rw [Function.update_of_ne hji]
      exact S.votes j hj

include B

theorem Kept.wf (S : Kept K byz s) (hi : i ∉ byz) : (s i).tree.Wf := (B.held (S.kept i hi)).wf

theorem Kept.frame (S : Kept K byz s) (hi : i ∉ byz) (hlow : (s i).ledger.Low) {u : Replica}
    {G : Ledger.Guard} (f : Frame (s i) u) (hs : Ledger.Steps G (s i).ledger u.ledger)
    (hG : ∀ L h, G.opine L h → L.tree.delivered h = true) : K u.ledger ∧ u.ledger.Low := by
  have k := B.held (S.kept i hi)
  have hlog : u.ledger.log = (s i).ledger.log := by
    change u.trace.filter _ = (s i).trace.filter _
    rw [f.trace]
  constructor
  · exact B.grow hs.grows (S.backing.closed i hi) (hs.voting hG k.toVoting) hlog f.lock f.exec
      (S.kept i hi)
  · exact hlow.grow hs.grows k.lock_delivered f.lock f.vheight

theorem Kept.judge (S : Kept K byz s) (hi : i ∉ byz) (hlow : (s i).ledger.Low) {bnew : Hash}
    (hd : (s i).delivered bnew = true) (hcl : (update (s i) bnew).1.tree.Closed)
    (selfProp : Bool) :
    Keeps K ((update (s i) bnew).1.judgeProposal C selfProp bnew) := by
  obtain ⟨-, k, hr⟩ := B.safe S hi hd hlow
  have g := ((B.updates Ledger.Guard.none).steps (S.wf B hi) bnew).grows
  obtain ⟨hk, hl⟩ := B.judge C selfProp k hcl (g.delivered hd) hr
  exact ⟨hk, hl, judgeProposal_unbreached _ _ _ _⟩

theorem Kept.receiveProposal (S : Kept K byz s) (hi : i ∉ byz) (hlow : (s i).ledger.Low)
    {proposer : ReplicaID} {bnew : Hash} (hp : proposer ≠ (s i).id)
    (A : Assumptions C byz s (stepWith update C s (i, .receiveProposal proposer bnew))) :
    Keeps K ((s i).onReceiveProposalWith update C proposer bnew) := by
  have hpost : stepWith update C s (i, .receiveProposal proposer bnew) i =
    ((s i).onReceiveProposalWith update C proposer bnew).1 := stepWith_self s
  unfold Replica.onReceiveProposalWith at hpost ⊢
  rw [if_neg hp] at hpost ⊢
  by_cases hd : (s i).delivered bnew = true
  · rw [if_neg (by simp [hd])] at hpost ⊢
    have hnone := (B.safe S hi hd hlow).1
    rw [Outcome.andThen_of_none hnone] at hpost ⊢
    have hup := (B.updates Ledger.Guard.any).steps (S.wf B hi) bnew
    have hjudge := Replica.judgeProposal_steps (G := Ledger.Guard.any)
      (s := (update (s i) bnew).1) C false (show Ledger.Guard.any.opine _ bnew from trivial)
    rw [← hpost] at hjudge
    have hcl := (A.backing_update (fun j => S.wf B) (fun j => stepWith_other s) hup hjudge
      hi).closed i hi
    rw [Function.update_self] at hcl
    exact S.judge B hi hlow hd hcl false
  · rw [if_pos (by simpa using hd)]
    exact ⟨S.kept i hi, hlow, by simp⟩

theorem Kept.finishProposal (S : Kept K byz s) (hi : i ∉ byz) (hlow : (s i).ledger.Low)
    {bnew : Hash} (hd : (s i).delivered bnew = true)
    (hcl : (update (s i) bnew).1.tree.Closed) :
    Keeps K ((update (s i) bnew).andThen fun u => u.finishProposal C bnew) := by
  obtain ⟨hnone, k, hr⟩ := B.safe S hi hd hlow
  have hjudge := S.judge (C := C) B hi hlow hd hcl true
  have hdel := ((B.updates Ledger.Guard.none).steps (S.wf B hi) bnew).grows.delivered hd
  rw [Outcome.andThen_of_none hnone]
  generalize (update (s i) bnew).1 = u at k hr hjudge hdel hcl ⊢
  unfold Replica.finishProposal
  by_cases hle : u.height bnew ≤ u.vheight
  · rw [if_pos hle]
    exact ⟨k, B.low k hcl hdel hr hle, by simp⟩
  · rw [if_neg hle]
    unfold Replica.onReceiveProposal
    rw [if_pos rfl]
    generalize u.judgeProposal C true bnew = r at hjudge ⊢
    obtain ⟨v, none | e⟩ := r
    · rw [Outcome.andThen_return]
      have hledger : ((v.notifyPropose bnew).emit (.broadcast bnew)).ledger = v.ledger := by
        rw [Replica.emit_ledger_off _ rfl, Replica.notifyPropose_ledger]
      refine ⟨?_, ?_, by simp⟩
      · rw [hledger]
        exact hjudge.kept
      · rw [hledger]
        exact hjudge.low
    · exact hjudge

theorem Kept.propose (S : Kept K byz s) (hi : i ∉ byz) (hlow : (s i).ledger.Low)
    {cmds : List Hash} {keys vals : List ℤ} {parents : List Hash} {extra : List UInt8}
    (A : Assumptions C byz s (stepWith update C s (i, .propose cmds keys vals parents extra))) :
    Keeps K ((s i).onProposeWith update C cmds keys vals parents extra) := by
  have hpost : stepWith update C s (i, .propose cmds keys vals parents extra) i =
    ((s i).onProposeWith update C cmds keys vals parents extra).1 := stepWith_self s
  unfold Replica.onProposeWith at hpost ⊢
  cases hp : parents.head? with
  | none => exact ⟨S.kept i hi, hlow, by simp⟩
  | some p =>
    rw [hp] at hpost
    simp only [] at hpost ⊢
    generalize hb : (s i).newBlock cmds keys vals parents p extra = b at hpost ⊢
    have hsteps := Replica.storeProposal_steps (G := Ledger.Guard.growth) (s := s i)
      (C.getHash b.body) (b := b) (by rw [← hb]; rfl) (by rw [← hb]; rfl) parents trivial trivial
    have hframe := (storeProposal_frame (s i) (C.getHash b.body) b parents).trans
      (onDeliverBlk_frame _ (C.getHash b.body))
    generalize hr : ((s i).storeProposal (C.getHash b.body) b parents).onDeliverBlk
      (C.getHash b.body) = r at hsteps hframe hpost ⊢
    obtain ⟨hk, hlow'⟩ := S.frame B hi hlow hframe hsteps fun _ _ h => h.elim
    obtain ⟨u, e | valid⟩ := r
    · refine ⟨hk, hlow', ?_⟩
      rintro ⟨⟩
      exact onDeliverBlk_unbreached _ _ (congrArg Prod.snd hr)
    · simp only [] at hk hlow' hsteps hpost ⊢
      have hdel := Replica.onDeliverBlk_ok hr
      have hall := Replica.updateProposal_steps (B.updates Ledger.Guard.any) C
        (hsteps.wf (S.wf B hi)) hdel fun _ _ _ => trivial
      rw [← hpost] at hall
      have S' := S.replace hk (voted_of_steps hsteps (fun _ h => h) (S.votes i hi))
        (A.backing_update (fun j => S.wf B) (fun j => stepWith_other s) hsteps hall hi)
      have hself := Function.update_self i u s
      rw [← hself] at hdel hlow' hpost
      have hnone := (B.safe S' hi hdel hlow').1
      have hcl : (update (Function.update s i u i) (C.getHash b.body)).1.tree.Closed := by
        rw [hself] at hnone hpost ⊢
        have hup := (B.updates Ledger.Guard.growth).steps (hsteps.wf (S.wf B hi))
          (C.getHash b.body)
        have hfin := Replica.finishProposal_steps (G := Ledger.Guard.any)
          (s := (update u (C.getHash b.body)).1) C
          (show Ledger.Guard.any.opine _ (C.getHash b.body) from trivial)
        rw [Outcome.andThen_of_none hnone] at hpost
        rw [← hpost] at hfin
        have hclosed := (A.backing_update (fun j => S.wf B) (fun j => stepWith_other s)
          (hsteps.trans hup) hfin hi).closed i hi
        rwa [Function.update_self] at hclosed
      have hfin := S'.finishProposal (C := C) B hi hlow' hdel hcl
      rw [hself] at hfin
      exact hfin

theorem Kept.core_step (S : Kept K byz s) (hlow : ∀ i, i ∉ byz → (s i).ledger.Low)
    (hstep : CoreStepWith update C byz s (i, op)) :
    Keeps K ((s i).execWith update C op) := by
  obtain ⟨hi, hcall, A⟩ := hstep
  have hsteps := Replica.execWith_steps C (S.wf B hi) op (B.updates _)
  cases op with
  | addBlk body =>
    have hframe : Frame (s i) ((s i).addBlk (C.getHash body) (Block.parsed body)) :=
      ⟨rfl, rfl, rfl, rfl⟩
    obtain ⟨hk, hl⟩ := S.frame B hi (hlow i hi) hframe hsteps hcall.opines
    exact ⟨hk, hl, by simp [Replica.execWith, Replica.exec]⟩
  | deliverBlk blk =>
    have hframe : Frame (s i) ((s i).deliverOutcome blk).1 := by
      rw [Replica.deliverOutcome_fst]
      exact onDeliverBlk_frame (s i) blk
    obtain ⟨hk, hl⟩ := S.frame B hi (hlow i hi) hframe hsteps hcall.opines
    refine ⟨hk, hl, ?_⟩
    change ((s i).deliverOutcome blk).2 ≠ _
    have hne := onDeliverBlk_unbreached (s i) blk
    unfold Replica.deliverOutcome
    generalize (s i).onDeliverBlk blk = r at hne
    obtain ⟨u, e | valid⟩ := r
    · rintro ⟨⟩
      exact hne rfl
    · simp
  | receiveProposal proposer blk => exact S.receiveProposal B hi (hlow i hi) hcall A
  | receiveVote v =>
    have hledger := (s i).onReceiveVote_ledger v
    refine ⟨?_, ?_, onReceiveVote_unbreached (s i) v⟩
    · change K ((s i).onReceiveVote v).1.ledger
      rw [hledger]
      exact S.kept i hi
    · change ((s i).onReceiveVote v).1.ledger.Low
      rw [hledger]
      exact hlow i hi
  | propose cmds keys vals parents extra => exact S.propose B hi (hlow i hi) A
  | _ => exact hcall.elim

theorem Kept.next (S : Kept K byz s) (hlow : ∀ i, i ∉ byz → (s i).ledger.Low)
    (hstep : CoreStepWith update C byz s (i, op)) :
    Kept K byz (stepWith update C s (i, op)) ∧
      ∀ j, j ∉ byz → (stepWith update C s (i, op) j).ledger.Low := by
  obtain ⟨k, hlow', -⟩ := S.core_step B hlow hstep
  obtain ⟨hi, hcall, A⟩ := hstep
  have hsteps := Replica.execWith_steps C (S.wf B hi) op (B.updates _)
  have hpost : stepWith update C s (i, op) i = ((s i).execWith update C op).1 := stepWith_self s
  have hrest := Ledger.Steps.refl (G := Ledger.Guard.any) ((s i).execWith update C op).1.ledger
  nth_rewrite 2 [← hpost] at hrest
  have hB := A.backing_update (fun j => S.wf B) (fun j => stepWith_other s) hsteps hrest hi
  refine ⟨S.replace k (voted_of_steps hsteps hcall.not_complains (S.votes i hi)) hB, ?_⟩
  intro j hj
  by_cases hji : j = i
  · subst j
    rw [hpost]
    exact hlow'
  · rw [stepWith_other s hji]
    exact hlow j hj

theorem kept_of_reach {c : Fin n → Setup} (hstart : ∀ i, K (start c i).ledger)
    (h : Runs.Reach (CoreStepWith update C byz) (stepWith update C) (start c) s) :
    Kept K byz s ∧ ∀ i, i ∉ byz → (s i).ledger.Low :=
  h.invariant (fun s => Kept K byz s ∧ ∀ i, i ∉ byz → (s i).ledger.Low)
    ⟨start_kept byz hstart, fun _ _ => .inl rfl⟩ fun _ _ q hstep => q.1.next B q.2 hstep

end

section
variable {C : Crypto} {byz : Finset (Fin n)} {s : Cluster n} {i : Fin n} {op : Op}

def signers (C : Crypto) (qc : QuorumCert) : Finset (Fin n) :=
  Finset.univ.filter fun j => qc.sigs.any fun e =>
    decide (e.1 = j) && C.verifySig j qc.objHash e.2

def assumedBlk (C : Crypto) (byz : Finset (Fin n)) (pre post : Cluster n) (i : Fin n) (h : Hash)
    (b : Block) : Bool :=
  (List.finRange n).all (fun j => decide (j ∈ byz) ||
    ((post j).storage.blkCache h).all fun b' => decide (b.body = b'.body)) &&
  (!b.delivered ||
    (List.finRange n).all (fun j => decide (j ∈ byz) || decide (j ∉ signers C b.body.qc) ||
      (pre j).trace.any fun e => decide (e.signs = some b.body.qc.objHash)) &&
    (decide (h = b0) ||
      (decide (b.body.qc.objHash = b0) ||
        decide (Quorum.majority n ≤ (signers (n := n) C b.body.qc).card)) &&
      (b.qcRef.any fun q => decide (q ≠ h) && (post i).checkAncestry q h)))

def assumed (C : Crypto) (byz : Finset (Fin n)) (hashes : List Hash) (pre post : Cluster n) :
    Bool :=
  (List.finRange n).all fun i => decide (i ∈ byz) || hashes.all fun h =>
    ((post i).storage.blkCache h).all (assumedBlk C byz pre post i h)

theorem mem_signers {qc : QuorumCert} {j : Fin n} : j ∈ signers C qc ↔
    ∃ σ, ((j : ℕ), σ) ∈ qc.sigs ∧ C.verifySig j qc.objHash σ = true := by
  unfold signers
  rw [Finset.mem_filter, List.any_eq_true]
  constructor
  · rintro ⟨-, ⟨k, σ⟩, he, hv⟩
    rw [Bool.and_eq_true, decide_eq_true_eq] at hv
    obtain rfl : k = j := hv.1
    exact ⟨σ, he, hv.2⟩
  · rintro ⟨σ, he, hv⟩
    exact ⟨Finset.mem_univ j, _, he, by simp [hv]⟩

theorem Assumptions.of_assumed {hashes : List Hash} {pre post : Cluster n}
    (hstored : ∀ i h, ((post i).tree h).isSome = true → h ∈ hashes)
    (ha : assumed C byz hashes pre post = true) : Assumptions C byz pre post := by
  have hblk : ∀ i, i ∉ byz → ∀ h b, (post i).storage.blkCache h = some b →
      assumedBlk C byz pre post i h b = true := by
    intro i hi h b hb
    have hmem := hstored i h (by rw [(post i).tree_of_cache hb]; rfl)
    have hall := List.all_eq_true.mp ha i (List.mem_finRange i)
    rw [decide_eq_false hi, Bool.false_or] at hall
    have hh := List.all_eq_true.mp hall h hmem
    rwa [hb] at hh
  have hdel : ∀ i, i ∉ byz → ∀ h b, (post i).storage.blkCache h = some b →
      b.delivered = true → (∀ j, j ∉ byz → j ∈ signers C b.body.qc →
        (pre j).Signed b.body.qc.objHash) ∧ (h ≠ b0 → (b.body.qc.objHash = b0 ∨
          Quorum.majority n ≤ (signers (n := n) C b.body.qc).card) ∧
          ∃ q, b.qcRef = some q ∧ q ≠ h ∧ (post i).checkAncestry q h = true) := by
    intro i hi h b hb hd
    have hb' := (Bool.and_eq_true .. ▸ hblk i hi h b hb).2
    rw [hd, Bool.not_true, Bool.false_or, Bool.and_eq_true] at hb'
    constructor
    · intro j hj hmem
      have hall := List.all_eq_true.mp hb'.1 j (List.mem_finRange j)
      simp only [hj, hmem, decide_false, not_true_eq_false, Bool.false_or] at hall
      obtain ⟨e, he, hs⟩ := List.any_eq_true.mp hall
      exact ⟨e, he, of_decide_eq_true hs⟩
    · intro h0
      have hrest := hb'.2
      rw [decide_eq_false h0, Bool.false_or, Bool.and_eq_true, Bool.or_eq_true,
        decide_eq_true_eq, decide_eq_true_eq, Option.any_eq_true] at hrest
      obtain ⟨hcert, q, hq, hanc⟩ := hrest
      rw [Bool.and_eq_true, decide_eq_true_eq] at hanc
      exact ⟨hcert, q, hq, hanc.1, hanc.2⟩
  refine ⟨?_, ?_, ?_, ?_⟩
  · intro i j hi hj h b b' hb hb'
    have hall := List.all_eq_true.mp (Bool.and_eq_true .. ▸ hblk i hi h b hb).1 j
      (List.mem_finRange j)
    rw [decide_eq_false hj, Bool.false_or, hb'] at hall
    exact of_decide_eq_true hall
  · intro i hi h b hb hd h0
    rcases ((hdel i hi h b hb hd).2 h0).1 with hroot | hcard
    · exact .inl hroot
    · exact .inr ⟨signers C b.body.qc, hcard, fun j hj => mem_signers.mp hj⟩
  · intro i hi h b hb hd j hj σ hσ hv
    exact (hdel i hi h b hb hd).1 j hj (mem_signers.mpr ⟨σ, hσ, hv⟩)
  · intro i hi h hd h0
    obtain ⟨m, hm, hmd⟩ := Tree.exists_of_delivered hd
    obtain ⟨b, hb, rfl⟩ := (post i).cache_of_tree hm
    obtain ⟨-, q, hq, hne, hanc⟩ := (hdel i hi h b hb hmd).2 h0
    exact ⟨q, (Tree.qcRef_of hm).trans hq, hne, Replica.checkAncestry_anc hanc⟩

instance (r : Replica) : DecidablePred (CoreCall r)
  | .addBlk _ | .deliverBlk _ | .receiveVote _ | .propose .. => inferInstanceAs (Decidable True)
  | .receiveProposal .. => inferInstanceAs (Decidable (_ ≠ _))
  | .receiveMcLocal .. | .relayMc .. | .remoteViewChangeTimeout _ | .receiveLComplain _
  | .receiveRComplain .. | .msgRecs _ | .sendReconfigAck .. | .msgRecsAggEchoReady _
  | .asyncQcFinish _ | .waitDecision .. => inferInstanceAs (Decidable False)

def storesIn (C : Crypto) (hashes : List Hash) (r : Replica) : Op → Bool
  | .addBlk body => decide (C.getHash body ∈ hashes)
  | op => (r.proposes C op).all fun h => decide (h ∈ hashes)

/-- `CoreStepWith` as a test, for runs that store no block outside the list. -/
def TestedWith (update : Replica → Hash → Outcome) (C : Crypto) (byz : Finset (Fin n))
    (hashes : List Hash) (s : Cluster n) (a : Fin n × Op) : Prop :=
  a.1 ∉ byz ∧ CoreCall (s a.1) a.2 ∧ storesIn C hashes (s a.1) a.2 = true ∧
    assumed C byz hashes s (stepWith update C s a) = true

instance (update : Replica → Hash → Outcome) (C : Crypto) (byz : Finset (Fin n))
    (hashes : List Hash) (s : Cluster n) (a : Fin n × Op) :
    Decidable (TestedWith update C byz hashes s a) :=
  inferInstanceAs (Decidable (_ ∧ _))

section
variable {update : Replica → Hash → Outcome} {K : Ledger → Prop} {R : Replica → Hash → Prop}

theorem stored_step {hashes : List Hash} (w : (s i).tree.Wf)
    (hu : Replica.Updates update ((s i).guard C op))
    (hstored : ∀ j h, ((s j).tree h).isSome = true → h ∈ hashes)
    (hop : storesIn C hashes (s i) op = true) (j : Fin n) (h : Hash)
    (hh : ((stepWith update C s (i, op) j).tree h).isSome = true) : h ∈ hashes := by
  by_cases hj : j = i
  · subst j
    rw [stepWith_self] at hh
    rcases (Replica.execWith_steps C w op hu).stored hh with hold | ⟨body, rfl, rfl⟩ | hnew
    · exact hstored i h hold
    · exact of_decide_eq_true hop
    · cases op with
      | propose cmds keys vals parents extra =>
        simp only [storesIn, hnew, Option.all_some, decide_eq_true_eq] at hop
        exact hop
      | _ => exact absurd hnew (by simp [Replica.proposes])
  · rw [stepWith_other s hj] at hh
    exact hstored j h hh

theorem start_stored (c : Fin n → Setup) {hashes : List Hash} (h0 : b0 ∈ hashes) (j : Fin n)
    (h : Hash) (hh : ((start c j).tree h).isSome = true) : h ∈ hashes := by
  obtain ⟨m, hm⟩ := Option.isSome_iff_exists.mp hh
  obtain ⟨b, hb, -⟩ := Replica.cache_of_tree _ hm
  rw [(start_eq_genesis c j hb).1]
  exact h0

section
variable (B : Keeper byz update K R) {c : Fin n → Setup} (hstart : ∀ i, K (start c i).ledger)
  {hashes : List Hash}
include B hstart

theorem coreStep_of_testedWith {a : Fin n × Op}
    (h : Runs.Reach (CoreStepWith update C byz) (stepWith update C) (start c) s)
    (hstored : ∀ j h, ((s j).tree h).isSome = true → h ∈ hashes)
    (ht : TestedWith update C byz hashes s a) :
    CoreStepWith update C byz s a ∧
      ∀ j h, ((stepWith update C s a j).tree h).isSome = true → h ∈ hashes := by
  obtain ⟨hi, hcall, hop, hassumed⟩ := ht
  have hnext := stored_step ((kept_of_reach B hstart h).1.wf B hi) (B.updates _) hstored hop
  exact ⟨⟨hi, hcall, .of_assumed hnext hassumed⟩, hnext⟩

theorem stored_of_testedWith (h0 : b0 ∈ hashes)
    (h : Runs.Reach (TestedWith update C byz hashes) (stepWith update C) (start c) s) :
    Runs.Reach (CoreStepWith update C byz) (stepWith update C) (start c) s ∧
      ∀ j h, ((s j).tree h).isSome = true → h ∈ hashes := by
  refine h.invariant (fun t =>
    Runs.Reach (CoreStepWith update C byz) (stepWith update C) (start c) t ∧
      ∀ j h, ((t j).tree h).isSome = true → h ∈ hashes) ⟨.init, start_stored c h0⟩ ?_
  intro t a ⟨hreach, hstored⟩ ht
  obtain ⟨hstep, hnext⟩ := coreStep_of_testedWith B hstart hreach hstored ht
  exact ⟨.step hreach hstep, hnext⟩

end

end

end

end Cluster

end AvaHotstuff
