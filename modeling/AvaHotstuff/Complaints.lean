import AvaHotstuff.RecsView
import AvaHotstuff.Certificates

set_option autoImplicit false

namespace AvaHotstuff

def Event.onDocket : Event → Bool
  | .lcomplain _ _ | .rcomplain _ => true
  | _ => false

/-- The complaints that a replica has counted, and those that it has made. -/
structure Docket where
  lcomplains : Hash → Finset ReplicaID
  log : List Event

/-- A voter is counted; `es` is what the replica records of it. -/
def Docket.counted (D : Docket) (c : Complain) (es : List Event) : Docket where
  lcomplains :=
    Function.update D.lcomplains c.blkHash (insert c.voter (D.lcomplains c.blkHash))
  log := D.log ++ es

def Op.complains : Op → Bool
  | .receiveLComplain _ | .remoteViewChangeTimeout _ => true
  | _ => false

def Op.isLComplain : Op → Bool
  | .receiveLComplain _ => true
  | _ => false

namespace Replica
variable (s : Replica)

def docket : Docket where
  lcomplains := s.storage.lcomplains
  log := s.trace.filter Event.onDocket

theorem docket_congr {s u : Replica} (h : u.frame = s.frame) : u.docket = s.docket := by
  have hlog : ∀ v : Replica, v.frame.log.filter Event.onDocket = v.docket.log := by
    intro v
    change (v.trace.filter Event.onFrame).filter Event.onDocket = v.trace.filter Event.onDocket
    rw [List.filter_filter]
    congr 1
    funext e
    cases e <;> rfl
  have hl : u.docket.lcomplains = s.docket.lcomplains := congrArg Frame.lcomplains h
  have he : u.docket.log = s.docket.log := by
    rw [← hlog, ← hlog, h]
  calc u.docket = ⟨u.docket.lcomplains, u.docket.log⟩ := rfl
    _ = s.docket := by rw [hl, he]

theorem emit_docket {e : Event} (he : e.onDocket = false) : (s.emit e).docket = s.docket := by
  unfold docket
  rw [emit_trace, List.filter_append, List.filter_cons_of_neg (by simp [he]), List.filter_nil,
    List.append_nil]
  rfl

theorem emit_docket_log {e : Event} (he : e.onDocket = true) :
    (s.emit e).docket = { s.docket with log := s.docket.log ++ [e] } := by
  unfold docket
  rw [emit_trace, List.filter_append, List.filter_cons_of_pos he, List.filter_nil]
  rfl

theorem lcomplains_of {h : Hash} {b : Block} (hb : s.storage.blkCache h = some b) :
    s.storage.lcomplains h = b.lcomplains := by
  unfold EntityStorage.lcomplains
  rw [hb]
  rfl

theorem modifyBlk_lcomplains (h : Hash) (f : Block → Block)
    (g : Finset ReplicaID → Finset ReplicaID)
    (hf : ∀ b, (f b).lcomplains = g b.lcomplains) {b : Block} (hb : s.storage.blkCache h = some b) :
    (s.modifyBlk h f).storage.lcomplains =
      Function.update s.storage.lcomplains h (g (s.storage.lcomplains h)) := by
  have hset := Function.comp_update (fun o : Option Block => (o.map (·.lcomplains)).getD ∅)
    s.storage.blkCache h (some (f b))
  rw [Option.map_some, Option.getD_some, hf b, ← s.lcomplains_of hb] at hset
  unfold modifyBlk
  rw [hb]
  exact hset

theorem McOnly.docket {s u : Replica} (h : McOnly s u) : u.docket = s.docket := by
  have hlog : u.trace.filter Event.onDocket = s.trace.filter Event.onDocket := by
    apply h.trace.filter
    intro e he
    cases e <;> first | rfl | cases he
  calc u.docket = { u.docket with log := s.trace.filter Event.onDocket } := by rw [← hlog]; rfl
    _ = s.docket := congrArg Replica.docket h.rest

theorem unrotated_docket : s.unrotated.docket = s.docket := by
  have hlog := s.unrotated_filter (p := Event.onDocket) fun e he => by
    cases e <;> first | rfl | cases he
  have hset : s.unrotated.storage.lcomplains = s.storage.lcomplains := by
    funext h
    change (((s.storage.blkCache h).map _).map _).getD _ = ((s.storage.blkCache h).map _).getD _
    rw [Option.map_map]
    rfl
  unfold docket
  rw [hlog, hset]

theorem sendReconfigAck_docket (fin : Finality) (r : Recs) :
    (s.sendReconfigAck fin r).docket = s.docket := by
  unfold sendReconfigAck
  simp only []
  split
  · rw [emit_docket _ rfl, docket_congr (s.answerClient_frame fin)]
  · change (s.answerClient fin).docket = s.docket
    exact docket_congr (s.answerClient_frame fin)

theorem RecsOnly.docket {s u : Replica} (h : RecsOnly s u) : u.docket = s.docket := by
  have hlog : u.trace.filter Event.onDocket = s.trace.filter Event.onDocket := by
    apply h.trace.filter
    intro e he
    cases e <;> first | rfl | cases he
  calc u.docket = { u.docket with log := s.trace.filter Event.onDocket } := by rw [← hlog]; rfl
    _ = s.docket := congrArg Replica.docket h.rest

theorem exec_docket (C : Crypto) {op : Op} (hop : op.complains = false) :
    (s.exec C op).1.docket = s.docket := by
  cases op with
  | receiveMcLocal prop x => exact (s.receiveMcLocal_mcOnly prop x).docket
  | relayMc prop x => exact (s.relayMc_mcOnly prop x).docket
  | remoteViewChangeTimeout cid => cases hop
  | receiveLComplain c => cases hop
  | receiveRComplain c junk =>
    exact s.view_of_unrotated unrotated_docket (s.onReceiveRComplain_unrotated c junk)
  | msgRecs r => exact (s.msgRecsHandler_recsOnly r).docket
  | sendReconfigAck fin r => exact s.sendReconfigAck_docket fin r
  | msgRecsAggEchoReady msg => exact (s.msgRecsAggEchoReadyHandler_recsOnly msg).docket
  | _ => exact docket_congr (s.exec_frame C rfl)

/-- What `on_receive_LComplain` does: nothing, or the voter is counted, and the last one of
`nmajority` makes the replica complain to the other clusters. -/
inductive Hears (C : Crypto) (c : Complain) : Docket → Prop where
  | ignored : Hears C c s.docket
  | below (hd : s.delivered c.blkHash = true) : Hears C c (s.docket.counted c [])
  | reached (hd : s.delivered c.blkHash = true)
      (hnew : c.voter ∉ s.docket.lcomplains c.blkHash)
      (hmaj : (s.docket.lcomplains c.blkHash).card + 1 = s.config.nmajority) :
      Hears C c (s.docket.counted c [.rcomplain ⟨s.id, c.blkHeight, c.blkHash,
        ⟨c.blkHash, C.sign s.id c.blkHash⟩⟩])

theorem Hears.log_mono {s : Replica} {C : Crypto} {c : Complain} {D : Docket}
    (h : s.Hears C c D) {e : Event} (he : e ∈ s.docket.log) : e ∈ D.log := by
  cases h with
  | ignored => exact he
  | below => exact List.mem_append_left _ he
  | reached => exact List.mem_append_left _ he

/-- `on_receive_LComplain`: the voter of a delivered block is counted until there are more than
`nmajority` of them. -/
theorem onReceiveLComplain_docket (C : Crypto) (c : Complain) :
    (s.onReceiveLComplain C c).1.docket =
      if s.delivered c.blkHash = true ∧
          (s.docket.lcomplains c.blkHash).card ≤ s.config.nmajority ∧
          c.voter ∉ s.docket.lcomplains c.blkHash then
        s.docket.counted c
          (if (s.docket.lcomplains c.blkHash).card + 1 = s.config.nmajority then
            [.rcomplain ⟨s.id, c.blkHeight, c.blkHash, ⟨c.blkHash, C.sign s.id c.blkHash⟩⟩]
          else [])
      else s.docket := by
  unfold onReceiveLComplain
  cases hblk : s.storage.blkCache c.blkHash with
  | none =>
    have hd : s.delivered c.blkHash = false := by
      simp [delivered, Tree.delivered, tree, hblk]
    rw [if_neg (by simp [hd])]
  | some blk =>
    have hd : s.delivered c.blkHash = blk.delivered := Tree.delivered_of (s.tree_of_cache hblk)
    have hset : s.docket.lcomplains c.blkHash = blk.lcomplains := s.lcomplains_of hblk
    have hl := s.modifyBlk_lcomplains c.blkHash
      (fun b => { b with lcomplains := insert c.voter b.lcomplains }) (insert c.voter)
      (fun _ => rfl) hblk
    simp only [hd, hset]
    by_cases hdel : blk.delivered = true
    swap
    · rw [if_pos (by simpa using hdel), if_neg (fun h => hdel h.1)]
    rw [if_neg (by simpa using hdel)]
    by_cases hcard : blk.lcomplains.card > s.config.nmajority
    · rw [if_pos hcard, if_neg (fun h => absurd h.2.1 (by omega))]
    rw [if_neg hcard]
    by_cases hold : c.voter ∈ blk.lcomplains
    · rw [if_pos hold, if_neg (fun h => h.2.2 hold)]
    have hcounted : blk.delivered = true ∧ blk.lcomplains.card ≤ s.config.nmajority ∧
        c.voter ∉ blk.lcomplains := ⟨hdel, by omega, hold⟩
    rw [if_neg hold, if_pos hcounted]
    have hconfig : (s.modifyBlk c.blkHash
      (fun b => { b with lcomplains := insert c.voter b.lcomplains })).config = s.config := rfl
    generalize hu : s.modifyBlk c.blkHash
      (fun b => { b with lcomplains := insert c.voter b.lcomplains }) = u at hl hconfig ⊢
    have hid : u.id = s.id := by
      rw [← hu]
      rfl
    have hdocket : ∀ es, ({ u.docket with log := u.docket.log ++ es } : Docket) =
        s.docket.counted c es := by
      intro es
      have hlog : u.docket.log = s.docket.log := by
        rw [← hu]
        rfl
      unfold Docket.counted
      rw [hlog]
      exact congrArg (fun l => (⟨l, s.docket.log ++ es⟩ : Docket)) hl
    rw [hconfig]
    split
    · have hsend : ∀ r : Complain, ((u.emit (.rcomplain r)).sendRComplain r).docket =
          s.docket.counted c [.rcomplain r] := by
        intro r
        rw [← hdocket, ← emit_docket_log u (e := .rcomplain r) rfl]
        unfold sendRComplain
        split
        · exact emit_docket _ rfl
        · rfl
      rw [hsend, hid]
    · have hnone := hdocket []
      rw [List.append_nil] at hnone
      exact hnone

theorem onReceiveLComplain_hears (C : Crypto) (c : Complain) :
    s.Hears C c (s.onReceiveLComplain C c).1.docket := by
  rw [onReceiveLComplain_docket]
  split
  · rename_i hnew
    split
    · rename_i hmaj
      exact .reached hnew.1 hnew.2.2 hmaj
    · exact .below hnew.1
  · exact .ignored

theorem andThen_docket (r : Outcome) (f : Replica → Outcome)
    (hf : ∀ u, (f u).1.docket = u.docket) : (r.andThen f).1.docket = r.1.docket := by
  obtain ⟨u, none | e⟩ := r
  · exact hf u
  · rfl

theorem remoteViewChangeTimeout_docket (C : Crypto) (cid : ℕ) :
    (s.remoteViewChangeTimeout C cid).1.docket = s.docket ∨
      ∃ t, s.mc.cidToRemoteViewChangeTimer cid = some t ∧
        ((s.disarm cid t).emit (.lcomplain ⟨s.id, s.height t.blk, t.blk,
            ⟨t.blk, C.sign s.id t.blk⟩⟩ s.recs.peersCurrent)).Hears C
          ⟨s.id, s.height t.blk, t.blk, ⟨t.blk, C.sign s.id t.blk⟩⟩
          (s.remoteViewChangeTimeout C cid).1.docket := by
  unfold remoteViewChangeTimeout
  split
  · exact .inl rfl
  rename_i t ht
  split
  · simp only []
    split
    · refine .inr ⟨t, ht, ?_⟩
      rw [andThen_docket _ _ fun _ => rfl]
      exact onReceiveLComplain_hears _ C _
    · exact .inl rfl
  · exact .inl rfl

end Replica

namespace Ledger

def Armed (L : Ledger) : Prop := ∀ k t, L.timer k = some t → L.tree.delivered t.blk = true

theorem Step.armed {G : Guard} {L M : Ledger} (hs : Step G L M) (a : L.Armed) : M.Armed := by
  have g := hs.grows
  have hkeep : M.timer = L.timer → M.Armed := by
    intro htimer k t ht
    rw [htimer] at ht
    exact g.delivered (a k t ht)
  cases hs with
  | @advance h n stored hd =>
    intro k t ht
    change Function.update L.timer n.height _ k = some t at ht
    by_cases hk : k = n.height
    · rw [hk, Function.update_self] at ht
      split at ht
      · cases ht
      · rw [← Option.some.inj ht]
        exact g.delivered ((Tree.delivered_of stored).trans hd)
    · rw [Function.update_of_ne hk] at ht
      exact g.delivered (a k t ht)
  | @finishMc cid =>
    clear hkeep g
    unfold Ledger.finishMc
    split
    · exact a
    · split
      · intro k t ht
        change Function.update L.timer cid none k = some t at ht
        by_cases hk : k = cid
        · rw [hk, Function.update_self] at ht
          cases ht
        · rw [Function.update_of_ne hk] at ht
          exact a k t ht
      · exact a
  | @disarm cid t ht =>
    intro k u hu
    change Function.update L.timer cid _ k = some u at hu
    by_cases hk : k = cid
    · rw [hk, Function.update_self] at hu
      rw [← Option.some.inj hu]
      exact a cid t ht
    · rw [Function.update_of_ne hk] at hu
      exact a k u hu
  | _ => exact hkeep rfl

theorem Steps.armed {G : Guard} {L M : Ledger} (hs : Steps G L M) (a : L.Armed) : M.Armed :=
  hs.invariant a fun _ _ hstep => hstep.armed

end Ledger

def Replica.Complained (r : Replica) (h : Hash) : Prop :=
  ∃ c dsts, Event.lcomplain c dsts ∈ r.trace ∧ c.blkHash = h

namespace Cluster
variable {n : ℕ}

/-- The height in the complaint is that of the block at some honest replica. -/
def Measured (byz : Finset (Fin n)) (s : Cluster n) (c : Complain) : Prop :=
  ∃ j, j ∉ byz ∧ (s j).delivered c.blkHash = true ∧ c.blkHeight = (s j).height c.blkHash

/-- Behind the complaints of a replica `r` stand the replicas that they name. -/
structure Backed (byz : Finset (Fin n)) (s : Cluster n) (r : Replica) (D : Docket) : Prop where
  counted : ∀ h, ∀ v ∈ D.lcomplains h, ∃ j : Fin n, v = j ∧ (j ∉ byz → (s j).Complained h)
  sent : ∀ c dsts, Event.lcomplain c dsts ∈ D.log → Measured byz s c
  raised : ∀ c, Event.rcomplain c ∈ D.log → r.delivered c.blkHash = true ∧
    Quorum.majority n ≤ (D.lcomplains c.blkHash).card ∧ Measured byz s c

section
variable {C : Crypto} {byz : Finset (Fin n)} {s : Cluster n} {r u : Replica} {D : Docket}

theorem Backed.count (b : Backed byz s r D) {c : Complain} {es : List Event}
    (hvoter : ∃ j : Fin n, c.voter = j ∧ (j ∉ byz → (s j).Complained c.blkHash))
    (hes : ∀ e ∈ es, ∃ x, e = .rcomplain x ∧ x.blkHash = c.blkHash ∧
      r.delivered x.blkHash = true ∧ Quorum.majority n ≤ (D.lcomplains c.blkHash).card + 1 ∧
      Measured byz s x) (hnew : es ≠ [] → c.voter ∉ D.lcomplains c.blkHash) :
    Backed byz s r (D.counted c es) := by
  have hgrow : ∀ h, (D.lcomplains h).card ≤ ((D.counted c es).lcomplains h).card := by
    intro h
    apply Finset.card_le_card
    change D.lcomplains h ⊆ Function.update D.lcomplains c.blkHash _ h
    by_cases hh : h = c.blkHash
    · rw [hh, Function.update_self]
      exact Finset.subset_insert _ _
    · rw [Function.update_of_ne hh]
  constructor
  · intro h v hv
    change v ∈ Function.update D.lcomplains c.blkHash _ h at hv
    by_cases hh : h = c.blkHash
    · rw [hh, Function.update_self, Finset.mem_insert] at hv
      rw [hh]
      rcases hv with rfl | hv
      · exact hvoter
      · exact b.counted _ v hv
    · rw [Function.update_of_ne hh] at hv
      exact b.counted h v hv
  · intro x dsts hx
    rcases List.mem_append.mp hx with hx | hx
    · exact b.sent x dsts hx
    · obtain ⟨y, hy, -⟩ := hes _ hx
      cases hy
  · intro x hx
    rcases List.mem_append.mp hx with hx | hx
    · obtain ⟨hd, hcard, hm⟩ := b.raised x hx
      exact ⟨hd, hcard.trans (hgrow _), hm⟩
    · obtain ⟨y, hy, hhash, hd, hcard, hm⟩ := hes _ hx
      obtain rfl : x = y := Event.rcomplain.inj hy
      refine ⟨hd, ?_, hm⟩
      change _ ≤ (Function.update D.lcomplains c.blkHash _ x.blkHash).card
      rw [hhash, Function.update_self, Finset.card_insert_of_notMem (hnew (List.ne_nil_of_mem hx))]
      exact hcard

theorem Backed.send (b : Backed byz s r D) {c : Complain} (hm : Measured byz s c)
    (dsts : List PeerId) : Backed byz s r { D with log := D.log ++ [.lcomplain c dsts] } := by
  refine ⟨b.counted, ?_, ?_⟩
  · intro x ds hx
    rcases List.mem_append.mp hx with hx | hx
    · exact b.sent x ds hx
    · rw [(Event.lcomplain.inj (List.mem_singleton.mp hx)).1]
      exact hm
  · intro x hx
    rcases List.mem_append.mp hx with hx | hx
    · exact b.raised x hx
    · cases List.mem_singleton.mp hx

theorem Backed.hears (b : Backed byz s r u.docket)
    (hr : ∀ h, u.delivered h = true → r.delivered h = true)
    (hq : u.config.nmajority = Quorum.majority n) {c : Complain}
    (hvoter : ∃ j : Fin n, c.voter = j ∧ (j ∉ byz → (s j).Complained c.blkHash))
    (hheight : u.delivered c.blkHash = true → Measured byz s c) (h : u.Hears C c D) :
    Backed byz s r D := by
  cases h with
  | ignored => exact b
  | below hd =>
    refine b.count hvoter ?_ (fun h => absurd rfl h)
    exact fun e he => absurd he List.not_mem_nil
  | reached hd hnew hmaj =>
    refine b.count hvoter ?_ fun _ => hnew
    intro e he
    refine ⟨_, List.mem_singleton.mp he, rfl, hr _ hd, ?_, hheight hd⟩
    rw [hmaj, hq]

structure Later (s t : Cluster n) : Prop where
  complained : ∀ j h, (s j).Complained h → (t j).Complained h
  delivered : ∀ j h, (s j).delivered h = true → (t j).delivered h = true
  height : ∀ j h, (s j).delivered h = true → (t j).height h = (s j).height h

theorem step_later {i : Fin n} {op : Op} (w : (s i).tree.Wf) : Later s (step C s (i, op)) := by
  have hsteps := Replica.exec_steps C w op
  have hcase : ∀ {P : Replica → Replica → Prop}, (∀ r, P r r) → P (s i) ((s i).step C op) →
      ∀ j, P (s j) (step C s (i, op) j) := by
    intro P hrefl hi j
    by_cases hj : j = i
    · subst j
      rw [step_self]
      exact hi
    · rw [step_other s hj]
      exact hrefl _
  refine ⟨?_, ?_, ?_⟩
  · refine hcase (P := fun r r' => ∀ h, r.Complained h → r'.Complained h) (fun _ _ h => h) ?_
    rintro h ⟨c, dsts, he, hc⟩
    exact ⟨c, dsts, (mem_ledger_log rfl).mp (hsteps.log_mono ((mem_ledger_log rfl).mpr he)), hc⟩
  · exact hcase (P := fun r r' => ∀ h, r.delivered h = true → r'.delivered h = true)
      (fun _ _ h => h) fun h hd => hsteps.grows.delivered hd
  · exact hcase (P := fun r r' => ∀ h, r.delivered h = true → r'.height h = r.height h)
      (fun _ _ _ => rfl) fun h hd => hsteps.grows.height hd

theorem Measured.later {t : Cluster n} (l : Later s t) {c : Complain} (m : Measured byz s c) :
    Measured byz t c := by
  obtain ⟨j, hj, hd, hh⟩ := m
  exact ⟨j, hj, l.delivered j _ hd, hh.trans (congrArg _ (l.height j _ hd).symm)⟩

theorem Backed.later {t : Cluster n} (l : Later s t) {i : Fin n} (b : Backed byz s (s i) D) :
    Backed byz t (t i) D := by
  constructor
  · intro h v hv
    obtain ⟨j, hvj, hj⟩ := b.counted h v hv
    exact ⟨j, hvj, fun hb => l.complained j h (hj hb)⟩
  · intro c dsts hc
    exact (b.sent c dsts hc).later l
  · intro c hc
    obtain ⟨hd, hcard, hm⟩ := b.raised c hc
    exact ⟨l.delivered i _ hd, hcard, hm.later l⟩

structure Filed (byz : Finset (Fin n)) (s : Cluster n) (i : Fin n) : Prop where
  id : (s i).id = i
  nmajority : (s i).config.nmajority = Quorum.majority n
  wf : (s i).tree.Wf
  armed : (s i).ledger.Armed
  backed : Backed byz s (s i) (s i).docket

/-- A complaint has a signature of the voter it names, and an honest replica has made that
signature. -/
def Unforged (C : Crypto) (byz : Finset (Fin n)) (s : Cluster n) : Op → Prop
  | .receiveLComplain c => c.verify C = true ∧
      ∃ j : Fin n, c.voter = j ∧ (j ∉ byz → (s j).Signed c.blkHash)
  | _ => True

/-- The calls of honest replicas that leave the configuration as it is. -/
def ComplaintCall (C : Crypto) (byz : Finset (Fin n)) (s : Cluster n) (a : Fin n × Op) : Prop :=
  a.1 ∉ byz ∧ ((s a.1).step C a.2).config = (s a.1).config ∧ Unforged C byz s a.2

/-- A complaint under the name of an honest replica is one that this replica has sent, and a
complaint of a faulty one has the height of the block. -/
def Original (byz : Finset (Fin n)) (s : Cluster n) (a : Fin n × Op) : Prop :=
  match a.2 with
  | .receiveLComplain c => ∀ j : Fin n, c.voter = j →
      if j ∈ byz then c.blkHeight = (s a.1).height c.blkHash
      else ∃ dsts, Event.lcomplain c dsts ∈ (s j).trace
  | _ => True

theorem Filed.backed_step {i : Fin n} {op : Op} (hi : i ∉ byz) (F : ∀ j, j ∉ byz → Filed byz s j)
    (hc : Unforged C byz s op) (ho : Original byz s (i, op)) :
    Backed byz (step C s (i, op)) ((s i).step C op) ((s i).step C op).docket := by
  have f := F i hi
  have l : Later s (step C s (i, op)) := step_later f.wf
  have hself : step C s (i, op) i = (s i).step C op := step_self s
  have b := f.backed.later l
  have hd : ∀ h, (s i).delivered h = true → ((s i).step C op).delivered h = true := by
    intro h hd
    rw [← hself]
    exact l.delivered i h hd
  rw [hself] at b
  cases op with
  | receiveLComplain c =>
    obtain ⟨-, j, hj, -⟩ := hc
    have horig := ho j hj
    refine b.hears hd f.nmajority ⟨j, hj, ?_⟩ ?_ ((s i).onReceiveLComplain_hears C c)
    · intro hb
      rw [if_neg hb] at horig
      obtain ⟨dsts, hsent⟩ := horig
      exact l.complained j _ ⟨c, dsts, hsent, rfl⟩
    · intro hdel
      by_cases hb : j ∈ byz
      · rw [if_pos hb] at horig
        exact Measured.later l ⟨i, hi, hdel, horig⟩
      · rw [if_neg hb] at horig
        obtain ⟨dsts, hsent⟩ := horig
        exact ((F j hb).backed.sent c dsts (List.mem_filter.mpr ⟨hsent, rfl⟩)).later l
  | remoteViewChangeTimeout cid =>
    rcases (s i).remoteViewChangeTimeout_docket C cid with hsame | ⟨t, ht, hears⟩
    · rw [show ((s i).step C (.remoteViewChangeTimeout cid)).docket = _ from hsame]
      exact b
    · -- The complaint is sent first, and then counted as one that is received.
      generalize hcdef : (⟨(s i).id, (s i).height t.blk, t.blk, ⟨t.blk, C.sign (s i).id t.blk⟩⟩ :
        Complain) = c at hears
      have hdocket : (((s i).disarm cid t).emit (.lcomplain c (s i).recs.peersCurrent)).docket =
          ⟨(s i).docket.lcomplains,
            (s i).docket.log ++ [.lcomplain c (s i).recs.peersCurrent]⟩ :=
        Replica.emit_docket_log _ rfl
      have hsent : Event.lcomplain c (s i).recs.peersCurrent ∈
          ((s i).step C (.remoteViewChangeTimeout cid)).docket.log := by
        apply hears.log_mono
        rw [hdocket]
        exact List.mem_append_right _ (List.mem_singleton_self _)
      have hmeasured : Measured byz (step C s (i, .remoteViewChangeTimeout cid)) c := by
        rw [← hcdef]
        exact Measured.later l ⟨i, hi, f.armed cid t ht, rfl⟩
      have hvoter : c.voter = i := by
        rw [← hcdef]
        exact f.id
      have hcomplained : (step C s (i, .remoteViewChangeTimeout cid) i).Complained c.blkHash := by
        rw [hself]
        exact ⟨c, _, (List.mem_filter.mp hsent).1, rfl⟩
      have b' := b.send hmeasured (s i).recs.peersCurrent
      rw [← hdocket] at b'
      exact b'.hears hd f.nmajority ⟨i, hvoter, fun _ => hcomplained⟩ (fun _ => hmeasured) hears
  | _ =>
    rw [show ((s i).step C _).docket = _ from (s i).exec_docket C rfl]
    exact b

theorem Filed.next {a : Fin n × Op} (F : ∀ j, j ∉ byz → Filed byz s j)
    (hc : ComplaintCall C byz s a) (ho : Original byz s a) :
    ∀ j, j ∉ byz → Filed byz (step C s a) j := by
  obtain ⟨i, op⟩ := a
  obtain ⟨hi, hconfig, hforged⟩ := hc
  intro j hj
  by_cases hji : j = i
  · subst j
    have f := F i hi
    have hsteps := Replica.exec_steps C f.wf op
    have hself : step C s (i, op) i = (s i).step C op := step_self s
    have hbacked := Filed.backed_step hi F hforged ho
    rw [← hself] at hbacked hconfig
    refine ⟨?_, ?_, ?_, ?_, hbacked⟩
    · rw [hself]
      exact hsteps.rid.trans f.id
    · rw [show (step C s (i, op) i).config = _ from hconfig]
      exact f.nmajority
    · rw [hself]
      exact hsteps.wf f.wf
    · rw [hself]
      exact hsteps.armed f.armed
  · have f := F j hj
    have hother : step C s (i, op) j = s j := step_other s hji
    have hlater : Later s (step C s (i, op)) := step_later (F i hi).wf
    have hbacked := f.backed.later hlater
    constructor
    · rw [hother]
      exact f.id
    · rw [hother]
      exact f.nmajority
    · rw [hother]
      exact f.wf
    · rw [hother]
      exact f.armed
    · rw [show (s j).docket = (step C s (i, op) j).docket by rw [hother]] at hbacked
      exact hbacked

theorem start_filed (byz : Finset (Fin n)) (c : Fin n → Setup) (j : Fin n) :
    Filed byz (start c) j := by
  have hnone : ∀ h, (start c j).docket.lcomplains h = ∅ := by
    intro h
    change ((Function.update (fun _ => none) b0 _ h : Option Block).map _).getD ∅ = ∅
    by_cases hh : h = b0
    · rw [hh, Function.update_self]
      rfl
    · rw [Function.update_of_ne hh]
      rfl
  refine ⟨rfl, rfl, (start_locked c j).toVoting.wf, ?_, ?_, ?_, ?_⟩
  · intro k t ht
    cases show none = some t from ht
  · intro h v hv
    rw [hnone] at hv
    exact absurd hv (Finset.notMem_empty v)
  · exact fun _ _ h => absurd h List.not_mem_nil
  · exact fun _ h => absurd h List.not_mem_nil

theorem card_honest (byz : Finset (Fin n)) {ids : Finset ReplicaID}
    (hids : ∀ v ∈ ids, ∃ j : Fin n, v = j) :
    ids.card - byz.card ≤ (Finset.univ.filter fun j : Fin n => ↑j ∈ ids ∧ j ∉ byz).card := by
  have hsub : ids \ byz.image Fin.val ⊆
      (Finset.univ.filter fun j : Fin n => ↑j ∈ ids ∧ j ∉ byz).image Fin.val := by
    intro v hv
    obtain ⟨hmem, hb⟩ := Finset.mem_sdiff.mp hv
    obtain ⟨j, rfl⟩ := hids v hmem
    refine Finset.mem_image.mpr ⟨j, Finset.mem_filter.mpr ⟨Finset.mem_univ j, hmem, ?_⟩, rfl⟩
    exact fun hj => hb (Finset.mem_image_of_mem _ hj)
  calc ids.card - byz.card ≤ ids.card - (byz.image Fin.val).card := by
        have := Finset.card_image_le (s := byz) (f := Fin.val)
        omega
    _ ≤ (ids \ byz.image Fin.val).card := Finset.le_card_sdiff _ _
    _ ≤ ((Finset.univ.filter fun j : Fin n => ↑j ∈ ids ∧ j ∉ byz).image Fin.val).card :=
        Finset.card_le_card hsub
    _ ≤ _ := Finset.card_image_le

theorem filed_of_reach {c : Fin n → Setup}
    (h : Runs.Reach (fun s a => ComplaintCall C byz s a ∧ Original byz s a) (step C) (start c) s) :
    ∀ j, j ∉ byz → Filed byz s j :=
  h.invariant (fun s => ∀ j, j ∉ byz → Filed byz s j) (fun j _ => start_filed byz c j)
    fun _ _ F ⟨hc, ho⟩ => Filed.next F hc ho

/-- As long as complaints are original, a complaint to the other clusters rests on the
complaints of honest replicas, and has the height of its block. -/
theorem rcomplain_backed (C : Crypto) (byz : Finset (Fin n))
    (hbyz : byz.card ≤ Quorum.maxFaulty n) (c : Fin n → Setup) (s : Cluster n)
    (h : Runs.Reach (fun s a => ComplaintCall C byz s a ∧ Original byz s a) (step C) (start c) s)
    (hcf : CollisionFree byz s) (i : Fin n) (hi : i ∉ byz) (r : Complain)
    (hr : Event.rcomplain r ∈ (s i).trace) :
    (∃ V : Finset (Fin n), (s i).config.nmajority - Quorum.maxFaulty n ≤ V.card ∧
      ∀ j ∈ V, j ∉ byz ∧ (s j).Complained r.blkHash) ∧
    (s i).delivered r.blkHash = true ∧ r.blkHeight = (s i).height r.blkHash := by
  have F := filed_of_reach h
  have f := F i hi
  obtain ⟨hd, hcard, j, hj, hdj, hheight⟩ := f.backed.raised r (List.mem_filter.mpr ⟨hr, rfl⟩)
  have hids : ∀ v ∈ (s i).docket.lcomplains r.blkHash, ∃ j : Fin n, v = j :=
    fun v hv => (f.backed.counted _ v hv).imp fun _ hj => hj.1
  refine ⟨⟨Finset.univ.filter fun k : Fin n =>
    ↑k ∈ (s i).docket.lcomplains r.blkHash ∧ k ∉ byz, ?_, ?_⟩, hd, ?_⟩
  · have hhonest := card_honest byz hids
    rw [f.nmajority]
    omega
  · intro k hk
    obtain ⟨-, hmem, hb⟩ := Finset.mem_filter.mp hk
    obtain ⟨k', hkk, hcom⟩ := f.backed.counted _ _ hmem
    obtain rfl : k = k' := Fin.ext hkk
    exact ⟨hb, hcom hb⟩
  · rw [hheight, hcf.height_eq hj hi (F j hj).wf f.wf hdj hd]

end

section
variable {C : Crypto} {byz : Finset (Fin n)} {s : Cluster n} {i : Fin n} {op : Op}

theorem CollisionFree.next (hcf : CollisionFree byz s) (w : (s i).tree.Wf)
    (hop : ∀ h, ¬((s i).guard C op).store h) : CollisionFree byz (step C s (i, op)) := by
  have hback : ∀ j x b, (step C s (i, op) j).storage.blkCache x = some b →
      ∃ b', (s j).storage.blkCache x = some b' ∧ b'.body = b.body := by
    intro j x b hb
    by_cases hj : j = i
    · subst j
      rw [step_self] at hb
      obtain ⟨m, hm, hbody⟩ := (Replica.exec_steps C w op).body_before (hop x)
        (Replica.tree_of_cache _ hb)
      obtain ⟨b', hb', rfl⟩ := (s i).cache_of_tree hm
      exact ⟨b', hb', hbody⟩
    · rw [step_other s hj] at hb
      exact ⟨b, hb, rfl⟩
  intro j k hj hk x b b' hb hb'
  obtain ⟨d, hd, hdb⟩ := hback j x b hb
  obtain ⟨d', hd', hdb'⟩ := hback k x b' hb'
  rw [← hdb, ← hdb']
  exact hcf j k hj hk x d d' hd hd'

theorem recsFree_config (hop : op.recsFree = true) :
    ((s i).step C op).config = (s i).config :=
  congrArg (fun v => v.roster.config) ((s i).exec_recsView C hop)

end

section
variable {C : Crypto} {byz : Finset (Fin n)} {s : Cluster n} {op : Op}

theorem unforged_of_not (hop : op.isLComplain = false) : Unforged C byz s op := by
  cases op with
  | receiveLComplain c => cases hop
  | _ => trivial

theorem original_of_not {a : Fin n × Op} (hop : a.2.isLComplain = false) : Original byz s a := by
  obtain ⟨i, op⟩ := a
  cases op with
  | receiveLComplain c => cases hop
  | _ => trivial

end

def complaint (voter : ReplicaID) : Complain :=
  ⟨voter, 96, 2 ^ 96 - 1, ⟨2 ^ 96 - 1, 2 ^ 96 - 1⟩⟩

def heardTwo : Cluster 4 := step .sample batchCluster (1, .receiveLComplain (complaint 2))

def heardBoth : Cluster 4 := step .sample heardTwo (1, .receiveLComplain (complaint 0))

set_option maxRecDepth 100000 in
theorem heardBoth_facts :
    Event.lcomplain (complaint 2) [] ∈ (batchCluster 2).trace ∧
    (heardTwo 1).height (2 ^ 96 - 1) = 96 ∧
    Event.rcomplain (complaint 1) ∈ (heardBoth 1).trace := by
  decide +kernel

theorem batchCluster_complaints :
    Runs.Reach (fun s a => ComplaintCall .sample {0} s a ∧ Original {0} s a) (step .sample)
      (start fun i => .four i) batchCluster := by
  apply Runs.reach_run uncertifiedBatch .init
  apply Runs.admitted_of_mem
  have hok : ∀ a ∈ uncertifiedBatch,
      a.1 ∉ ({0} : Finset (Fin 4)) ∧ a.2.recsFree = true ∧ a.2.isLComplain = false := by
    decide +kernel
  intro a ha s
  obtain ⟨hi, hrecs, hop⟩ := hok a ha
  exact ⟨⟨hi, recsFree_config hrecs, unforged_of_not hop⟩, original_of_not hop⟩

theorem rcomplain_backed_batch :
    Event.rcomplain (complaint 1) ∈ (heardBoth 1).trace ∧
    (∃ V : Finset (Fin 4), 2 ≤ V.card ∧
      ∀ j ∈ V, j ∉ ({0} : Finset (Fin 4)) ∧ (heardBoth j).Complained (2 ^ 96 - 1)) ∧
    (96 : ℤ) = (heardBoth 1).height (2 ^ 96 - 1) := by
  obtain ⟨hsent, hheight, hraised⟩ := heardBoth_facts
  have hone : ∀ (s : Cluster 4) (c : Complain),
      ((s 1).step .sample (.receiveLComplain c)).config = (s 1).config :=
    fun s c => recsFree_config rfl
  have htwo : Runs.Reach (fun s a => ComplaintCall .sample {0} s a ∧ Original {0} s a)
      (step .sample) (start fun i => .four i) heardTwo := by
    refine .step batchCluster_complaints ⟨⟨by decide, hone _ _, by decide, 2, rfl, fun _ => ?_⟩, ?_⟩
    · exact ⟨_, hsent, rfl⟩
    · intro j hj
      obtain rfl : 2 = j := Fin.ext hj
      exact ⟨[], hsent⟩
  have hboth : Runs.Reach (fun s a => ComplaintCall .sample {0} s a ∧ Original {0} s a)
      (step .sample) (start fun i => .four i) heardBoth := by
    refine .step htwo ⟨⟨by decide, hone _ _, by decide, 0, rfl,
      fun h => absurd (Finset.mem_singleton_self 0) h⟩, ?_⟩
    intro j hj
    obtain rfl : 0 = j := Fin.ext hj
    exact congrArg Nat.cast hheight.symm
  have hstore : ∀ (s : Cluster 4) (c : Complain) (h : Hash),
      ¬((s 1).guard .sample (.receiveLComplain c)).store h := by
    rintro s c h (⟨body, hop, -⟩ | hmade)
    · cases hop
    · cases hmade
  have hcf : CollisionFree {0} heardBoth :=
    (batchCluster_collisionFree.next (filed_of_reach batchCluster_complaints 1 (by decide)).wf
      (hstore _ _)).next (filed_of_reach htwo 1 (by decide)).wf (hstore _ _)
  obtain ⟨⟨V, hcard, hV⟩, -, hfinal⟩ := rcomplain_backed .sample {0} (by decide) _ heardBoth hboth
    hcf 1 (by decide) (complaint 1) hraised
  have hnmajority := (filed_of_reach hboth 1 (by decide)).nmajority
  rw [hnmajority] at hcard
  exact ⟨hraised, ⟨V, hcard, hV⟩, hfinal⟩

instance (r : Replica) (h : Hash) : Decidable (r.Signed h) :=
  inferInstanceAs (Decidable (∃ e ∈ r.trace, e.signs = some h))

instance (C : Crypto) (byz : Finset (Fin n)) (s : Cluster n) : DecidablePred (Unforged C byz s)
  | .receiveLComplain _ => inferInstanceAs (Decidable (_ ∧ _))
  | .addBlk _ | .deliverBlk _ | .receiveProposal .. | .receiveVote _ | .propose ..
  | .receiveMcLocal .. | .relayMc .. | .remoteViewChangeTimeout _ | .receiveRComplain ..
  | .msgRecs _ | .sendReconfigAck .. | .msgRecsAggEchoReady _ | .asyncQcFinish _
  | .waitDecision .. => inferInstanceAs (Decidable True)

instance (C : Crypto) (byz : Finset (Fin n)) (s : Cluster n) (a : Fin n × Op) :
    Decidable (ComplaintCall C byz s a) :=
  inferInstanceAs (Decidable (_ ∧ _))

/-- The replicas 1 and 2 vote for a block that replica 3 has too. Replica 0 sends the votes on
to it as complaints, with a height of its own. -/
def replayedVotes : List (Fin 4 × Op) :=
  both (hears (.sample 0 0 7 [])) ++
    [(3, .addBlk (.sample 0 0 7 [])), (3, .deliverBlk 1),
      (3, .receiveLComplain ⟨0, 999, 1, ⟨1, 1⟩⟩), (3, .receiveLComplain ⟨1, 999, 1, ⟨1, 1⟩⟩),
      (3, .receiveLComplain ⟨2, 999, 1, ⟨1, 1⟩⟩)]

def replayCluster : Cluster 4 := Runs.run (step .sample) (start fun i => .four i) replayedVotes

theorem rcomplain_without_complaints :
    Runs.Reach (ComplaintCall .sample {0}) (step .sample) (start fun i => .four i) replayCluster ∧
    (∃ r, Event.rcomplain r ∈ (replayCluster 3).trace ∧ r.blkHash = 1 ∧
      r.blkHeight ≠ (replayCluster 3).height r.blkHash) ∧
    ∀ j, ¬(replayCluster j).Complained 1 := by
  refine ⟨Runs.reach_run replayedVotes .init (by decide +kernel),
    ⟨⟨3, 999, 1, ⟨1, 1⟩⟩, by decide +kernel, rfl, by decide +kernel⟩, ?_⟩
  have hlog : ∀ j, ∀ e ∈ (replayCluster j).docket.log, e = .rcomplain ⟨3, 999, 1, ⟨1, 1⟩⟩ := by
    decide +kernel
  rintro j ⟨c, dsts, he, -⟩
  cases hlog j _ (List.mem_filter.mpr ⟨he, rfl⟩)

end Cluster

end AvaHotstuff
