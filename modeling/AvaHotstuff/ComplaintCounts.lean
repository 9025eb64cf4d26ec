import AvaHotstuff.Complaints
import AvaHotstuff.Leaders

set_option autoImplicit false

namespace AvaHotstuff

def Event.sent? : Event → Option Hash
  | .rcomplain c => some c.blkHash
  | _ => none

def Event.taken? : Event → Option Hash
  | .rcomplainLocal c _ => some c.blkHash
  | _ => none

structure LocalBook where
  lcomplains : Hash → Finset ReplicaID
  sent : List Hash

def LocalBook.hear (D : LocalBook) (nmajority : ℕ) (h : Hash) (v : ReplicaID) : LocalBook :=
  if (D.lcomplains h).card ≤ nmajority ∧ v ∉ D.lcomplains h then
    { lcomplains := Function.update D.lcomplains h (insert v (D.lcomplains h))
      sent := D.sent ++ if (D.lcomplains h).card + 1 = nmajority then [h] else [] }
  else D

/-- The count follows the set `V` of those who have complained. -/
structure LocalBook.Counted (nmajority : ℕ) (V : Hash → Finset ReplicaID) (D : LocalBook) :
    Prop where
  within : ∀ h, D.lcomplains h ⊆ V h
  all : ∀ h, (D.lcomplains h).card ≤ nmajority → D.lcomplains h = V h
  sent : ∀ h, D.sent.count h = if nmajority ≤ (D.lcomplains h).card then 1 else 0

namespace LocalBook
variable {nmajority : ℕ} {V : Hash → Finset ReplicaID} {D : LocalBook} {h : Hash} {v : ReplicaID}

theorem Counted.hear (k : D.Counted nmajority V) (h : Hash) (v : ReplicaID) :
    (D.hear nmajority h v).Counted nmajority (Function.update V h (insert v (V h))) := by
  unfold LocalBook.hear
  by_cases hnew : (D.lcomplains h).card ≤ nmajority ∧ v ∉ D.lcomplains h
  · rw [if_pos hnew]
    have hall := k.all h hnew.1
    have hself : Function.update D.lcomplains h (insert v (D.lcomplains h)) h =
        insert v (V h) := by rw [Function.update_self, hall]
    refine ⟨?_, ?_, ?_⟩
    · intro x
      change Function.update D.lcomplains h _ x ⊆ _
      by_cases hx : x = h
      · rw [hx, hself, Function.update_self]
      · rw [Function.update_of_ne hx, Function.update_of_ne hx]
        exact k.within x
    · intro x
      change (Function.update D.lcomplains h _ x).card ≤ _ → Function.update D.lcomplains h _ x = _
      by_cases hx : x = h
      · rw [hx, hself, Function.update_self]
        exact fun _ => rfl
      · rw [Function.update_of_ne hx, Function.update_of_ne hx]
        exact k.all x
    · intro x
      change (D.sent ++ _).count x = if nmajority ≤ (Function.update D.lcomplains h _ x).card
        then 1 else 0
      rw [List.count_append, k.sent x]
      by_cases hx : x = h
      · have hcard : (insert v (D.lcomplains h)).card = (D.lcomplains h).card + 1 :=
          Finset.card_insert_of_notMem hnew.2
        rw [hx, Function.update_self, hcard]
        by_cases hreach : (D.lcomplains h).card + 1 = nmajority
        · rw [if_pos hreach, if_neg (by omega), if_pos (by omega), List.count_singleton_self]
        · rw [if_neg hreach, List.count_nil]
          split <;> split <;> omega
      · have hnone : (if (D.lcomplains h).card + 1 = nmajority then [h] else []).count x = 0 := by
          split
          · exact List.count_eq_zero.mpr fun hmem => hx (List.mem_singleton.mp hmem)
          · rfl
        rw [Function.update_of_ne hx, hnone, Nat.add_zero]
  · rw [if_neg hnew]
    refine ⟨?_, ?_, k.sent⟩
    · intro x
      by_cases hx : x = h
      · rw [hx, Function.update_self]
        exact (k.within h).trans (Finset.subset_insert ..)
      · rw [Function.update_of_ne hx]
        exact k.within x
    · intro x hcard
      by_cases hx : x = h
      · rw [hx] at hcard ⊢
        have hv : v ∈ D.lcomplains h := by
          by_contra hv
          exact hnew ⟨hcard, hv⟩
        rw [Function.update_self, ← k.all h hcard, Finset.insert_eq_of_mem hv]
      · rw [Function.update_of_ne hx]
        exact k.all x hcard

/-- Below the cut-off no complaint is missing, so the quorum can be read off the complainers. -/
theorem Counted.quorum_iff (k : D.Counted nmajority V) (h : Hash) :
    nmajority ≤ (D.lcomplains h).card ↔ nmajority ≤ (V h).card := by
  constructor
  · intro hle
    exact hle.trans (Finset.card_le_card (k.within h))
  · intro hle
    by_contra hlt
    rw [k.all h (by omega)] at hlt
    exact hlt hle

end LocalBook

/-- The remote complaints, and the leader they rotate. -/
structure Uptake where
  rcomplains : Hash → Finset ReplicaID
  taken : List Hash
  proposer : ReplicaID

def Frame.uptake (f : Frame) : Uptake :=
  ⟨f.rcomplains, f.log.filterMap Event.taken?, f.proposer⟩

namespace Replica
variable (s : Replica)

def sent : List Hash := s.trace.filterMap Event.sent?
def taken : List Hash := s.trace.filterMap Event.taken?
def heard : LocalBook := ⟨s.storage.lcomplains, s.sent⟩
def uptake : Uptake := ⟨s.storage.rcomplains, s.taken, s.pmaker.proposer⟩

theorem docket_heard : s.heard = ⟨s.docket.lcomplains, s.docket.log.filterMap Event.sent?⟩ := by
  have hlog : (s.trace.filter Event.onDocket).filterMap Event.sent? =
      s.trace.filterMap Event.sent? := by
    rw [List.filterMap_filter]
    congr 1
    funext e
    cases e <;> rfl
  unfold heard docket sent
  rw [hlog]

theorem heard_congr {s u : Replica} (h : u.docket = s.docket) : u.heard = s.heard := by
  rw [docket_heard, docket_heard, h]

theorem frame_uptake : s.frame.uptake = s.uptake := by
  have hlog : (s.trace.filter Event.onFrame).filterMap Event.taken? =
      s.trace.filterMap Event.taken? := by
    rw [List.filterMap_filter]
    congr 1
    funext e
    cases e <;> rfl
  unfold Frame.uptake frame uptake taken
  simp only [hlog]

theorem uptake_congr {s u : Replica} (h : u.frame = s.frame) : u.uptake = s.uptake := by
  rw [← frame_uptake, ← frame_uptake, h]

theorem emit_uptake {e : Event} (he : e.taken? = none) : (s.emit e).uptake = s.uptake := by
  unfold uptake taken
  rw [emit_trace, List.filterMap_append, List.filterMap_cons_none he, List.filterMap_nil,
    List.append_nil]
  rfl

theorem McOnly.uptake {s u : Replica} (h : McOnly s u) : u.uptake = s.uptake := by
  have htaken : u.taken = s.taken := by
    apply h.trace.filterMap
    intro e he
    cases e <;> first | rfl | cases he
  calc u.uptake = { u.uptake with taken := s.taken } := by
        rw [← htaken]
        rfl
    _ = s.uptake := congrArg Replica.uptake h.rest

theorem RecsOnly.uptake {s u : Replica} (h : RecsOnly s u) : u.uptake = s.uptake := by
  have htaken : u.taken = s.taken := by
    apply h.trace.filterMap
    intro e he
    cases e <;> first | rfl | cases he
  calc u.uptake = { u.uptake with taken := s.taken } := by
        rw [← htaken]
        rfl
    _ = s.uptake := congrArg Replica.uptake h.rest

theorem uncomplained_uptake : s.uncomplained.uptake = s.uptake := by
  have htaken : s.uncomplained.taken = s.taken := by
    change (s.trace.filter _).filterMap Event.taken? = _
    rw [List.filterMap_filter]
    congr 1
    funext e
    cases e <;> rfl
  have hcomplains : s.uncomplained.storage.rcomplains = s.storage.rcomplains := by
    funext h
    change (((s.storage.blkCache h).map _).map _).getD _ = ((s.storage.blkCache h).map _).getD _
    rw [Option.map_map]
    rfl
  unfold uptake
  rw [htaken, hcomplains]
  rfl

theorem sendReconfigAck_uptake (fin : Finality) (r : Recs) :
    (s.sendReconfigAck fin r).uptake = s.uptake := by
  have hanswer := uptake_congr (s.answerClient_frame fin)
  unfold sendReconfigAck
  simp only []
  split
  · rw [emit_uptake _ rfl, hanswer]
  · exact hanswer

end Replica

def Op.isRComplain : Op → Bool
  | .receiveRComplain _ _ => true
  | _ => false

namespace Replica
variable (s : Replica)

theorem exec_uptake (C : Crypto) {op : Op} (hop : op.isRComplain = false) :
    (s.exec C op).1.uptake = s.uptake := by
  cases op with
  | receiveMcLocal prop x => exact (s.receiveMcLocal_mcOnly prop x).uptake
  | relayMc prop x => exact (s.relayMc_mcOnly prop x).uptake
  | remoteViewChangeTimeout cid =>
    exact s.view_of_uncomplained uncomplained_uptake (s.remoteViewChangeTimeout_uncomplained C cid)
  | receiveLComplain c =>
    exact s.view_of_uncomplained uncomplained_uptake (s.onReceiveLComplain_uncomplained C c)
  | receiveRComplain c junk => cases hop
  | msgRecs r => exact (s.msgRecsHandler_recsOnly r).uptake
  | sendReconfigAck fin r => exact s.sendReconfigAck_uptake fin r
  | msgRecsAggEchoReady msg => exact (s.msgRecsAggEchoReadyHandler_recsOnly msg).uptake
  | _ => exact uptake_congr (s.exec_frame C rfl)

/-- The block that the timer of a height complains about when it goes off. -/
def timedBlk (cid : ℕ) : Option Hash :=
  match s.mc.cidToRemoteViewChangeTimer cid with
  | none => none
  | some t =>
    if t.armed = true ∧ cid ∉ s.mc.finishedMcCids ∧ (cid : ℤ) - s.mc.lastRvc > 100 then some t.blk
    else none

def hears (h : Hash) (v : ReplicaID) : LocalBook :=
  if s.delivered h = true then s.heard.hear s.config.nmajority h v else s.heard

theorem onReceiveLComplain_heard (C : Crypto) (c : Complain) :
    (s.onReceiveLComplain C c).1.heard = s.hears c.blkHash c.voter := by
  rw [docket_heard, onReceiveLComplain_docket]
  unfold hears LocalBook.hear
  rw [docket_heard]
  dsimp only
  by_cases hd : s.delivered c.blkHash = true
  · rw [if_pos hd]
    by_cases hnew : (s.docket.lcomplains c.blkHash).card ≤ s.config.nmajority ∧
        c.voter ∉ s.docket.lcomplains c.blkHash
    · rw [if_pos ⟨hd, hnew⟩, if_pos hnew]
      unfold Docket.counted
      dsimp only
      rw [List.filterMap_append]
      split <;> rfl
    · rw [if_neg (fun h => hnew h.2), if_neg hnew]
  · rw [if_neg hd, if_neg (fun h => hd h.1)]

theorem startLocalComplain_heard (C : Crypto) (k : ℕ) (h : Hash) :
    (s.startLocalComplain C k h).1.heard = s.hears h s.id := by
  have hheard : ∀ c, (s.emit (.lcomplain c s.recs.peersCurrent)).heard = s.heard := by
    intro c
    unfold heard sent
    rw [emit_trace, List.filterMap_append]
    exact congrArg (LocalBook.mk _) (List.append_nil _)
  unfold startLocalComplain
  rw [onReceiveLComplain_heard]
  unfold hears
  rw [hheard]
  rfl

theorem remoteViewChangeTimeout_heard (C : Crypto) (cid : ℕ) :
    (s.remoteViewChangeTimeout C cid).1.heard = match s.timedBlk cid with
      | none => s.heard
      | some h => s.hears h s.id := by
  unfold remoteViewChangeTimeout timedBlk
  cases ht : s.mc.cidToRemoteViewChangeTimer cid with
  | none => rfl
  | some t =>
    dsimp only
    by_cases harmed : t.armed = true
    swap
    · rw [if_neg harmed, if_neg (fun h => harmed h.1)]
    rw [if_pos harmed]
    by_cases hlate : cid ∉ s.mc.finishedMcCids ∧ (cid : ℤ) - s.mc.lastRvc > 100
    · have hlate' : cid ∉ (s.disarm cid t).mc.finishedMcCids ∧
          (cid : ℤ) - (s.disarm cid t).mc.lastRvc > 100 := hlate
      rw [if_pos hlate', if_pos ⟨harmed, hlate⟩]
      refine @Outcome.andThen_keeps _ (fun u => u.heard) _ _ _ ?_ fun u hu => hu
      exact startLocalComplain_heard ..
    · have hlate' : ¬(cid ∉ (s.disarm cid t).mc.finishedMcCids ∧
          (cid : ℤ) - (s.disarm cid t).mc.lastRvc > 100) := hlate
      rw [if_neg hlate', if_neg (fun h => hlate h.2)]
      rfl

end Replica

/-- A replica, and who has complained to it about which delivered block. -/
structure Hearing where
  core : Replica
  voters : Hash → Finset ReplicaID

namespace Hearing

inductive Input where
  | own (height : ℕ) (blk : Hash)
  | remote (c : Complain) (junk : ℤ)
  | call (op : Op)

/-- `start_local_complain`, `RComplain_handler` and every other call. -/
def next (C : Crypto) (s : Replica) : Input → Replica
  | .own height h => (s.startLocalComplain C height h).1
  | .remote c junk => s.rcomplainHandler C c junk
  | .call op => s.step C op

def complaint (s : Replica) : Input → Option (Hash × ReplicaID)
  | .own _ h => some (h, s.id)
  | .call (.receiveLComplain c) => some (c.blkHash, c.voter)
  | .call (.remoteViewChangeTimeout cid) => (s.timedBlk cid).map fun h => (h, s.id)
  | _ => none

def note (x : Hearing) (h : Hash) (v : ReplicaID) : Hash → Finset ReplicaID :=
  if x.core.delivered h = true then Function.update x.voters h (insert v (x.voters h))
  else x.voters

def step (C : Crypto) (x : Hearing) (i : Input) : Hearing where
  core := next C x.core i
  voters := match complaint x.core i with
    | none => x.voters
    | some (h, v) => x.note h v

def start (c : Setup) : Hearing := ⟨c.start, fun _ => ∅⟩

def Input.handled : Input → Bool
  | .call op => !op.isRComplain
  | _ => true

def Steady (C : Crypto) (x : Hearing) (i : Input) : Prop :=
  i.handled = true ∧ (next C x.core i).config = x.core.config

instance (C : Crypto) (x : Hearing) (i : Input) : Decidable (Steady C x i) :=
  inferInstanceAs (Decidable (_ ∧ _))

/-- A block is taken up at most once, and the leader rotates with it. -/
structure Rotates (c : Setup) (u : Uptake) : Prop where
  nodup : u.taken.Nodup
  taken : ∀ h ∈ u.taken, u.rcomplains h ≠ ∅
  leader : u.proposer = (fun p => (p + 1) % c.config.nreplicas)^[u.taken.length] c.proposer

structure Inv (c : Setup) (x : Hearing) : Prop where
  booked : x.core.ledger.Booked
  config : x.core.config = c.config
  counted : x.core.heard.Counted c.config.nmajority x.voters
  rotates : Rotates c x.core.uptake

theorem Rotates.take {c : Setup} {u : Uptake} (r : Rotates c u) {h : Hash}
    (hfresh : u.rcomplains h = ∅) (v : ReplicaID) :
    Rotates c ⟨Function.update u.rcomplains h {v}, u.taken ++ [h],
      (u.proposer + 1) % c.config.nreplicas⟩ := by
  refine ⟨?_, ?_, ?_⟩
  · refine r.nodup.append (List.nodup_singleton h) ?_
    rw [List.disjoint_singleton]
    exact fun hmem => r.taken h hmem hfresh
  · intro y hy
    change Function.update u.rcomplains h {v} y ≠ ∅
    by_cases hyh : y = h
    · rw [hyh, Function.update_self]
      exact Finset.singleton_ne_empty v
    · rw [Function.update_of_ne hyh]
      rcases List.mem_append.mp hy with hold | hnew
      · exact r.taken y hold
      · exact absurd (List.mem_singleton.mp hnew) hyh
  · change _ = (fun p => (p + 1) % c.config.nreplicas)^[(u.taken ++ [h]).length] c.proposer
    rw [List.length_append, List.length_singleton, Function.iterate_succ_apply', ← r.leader]

section
variable {C : Crypto} {c : Setup} {x : Hearing} {i : Input}

theorem next_booked (b : x.core.ledger.Booked) (i : Input) : (next C x.core i).ledger.Booked := by
  cases i with
  | own k h =>
    exact (Replica.startLocalComplain_steps (G := Ledger.Guard.any) C k (h := h) trivial).invariant
      b fun _ _ => Ledger.Step.booked
  | call op => exact (Replica.exec_steps C b.wf op).invariant b fun _ _ => Ledger.Step.booked
  | remote v junk =>
    change (x.core.rcomplainHandler C v junk).ledger.Booked
    rcases Replica.rcomplainHandler_cases x.core b C v junk with ⟨hsame, -⟩ | ⟨h, t⟩
    · rw [hsame]
      exact b
    · rw [t.ledger]
      exact b

theorem next_heard (C : Crypto) (x : Hearing) (i : Input) :
    (next C x.core i).heard = match complaint x.core i with
      | none => x.core.heard
      | some (h, v) => x.core.hears h v := by
  have hkeep : ∀ op, op.complains = false → (x.core.step C op).heard = x.core.heard :=
    fun op hop => Replica.heard_congr (x.core.exec_docket C hop)
  cases i with
  | own k h => exact x.core.startLocalComplain_heard C k h
  | remote v junk =>
    change (x.core.rcomplainHandler C v junk).heard = x.core.heard
    unfold Replica.rcomplainHandler
    split
    · rfl
    split
    · rfl
    · exact hkeep _ rfl
  | call op =>
    cases op with
    | receiveLComplain v => exact x.core.onReceiveLComplain_heard C v
    | remoteViewChangeTimeout cid =>
      have htimed : complaint x.core (.call (.remoteViewChangeTimeout cid)) =
          (x.core.timedBlk cid).map fun h => (h, x.core.id) := rfl
      refine (x.core.remoteViewChangeTimeout_heard C cid).trans ?_
      rw [htimed]
      cases x.core.timedBlk cid with
      | none => rfl
      | some h => rfl
    | _ => exact hkeep _ rfl

theorem next_uptake (b : x.core.ledger.Booked) (hi : Steady C x i) :
    (next C x.core i).uptake = x.core.uptake ∨ ∃ h v, x.core.storage.rcomplains h = ∅ ∧
      (next C x.core i).uptake =
        ⟨Function.update x.core.storage.rcomplains h {v}, x.core.taken ++ [h],
          (x.core.pmaker.proposer + 1) % x.core.config.nreplicas⟩ := by
  cases i with
  | own k h =>
    refine .inl (x.core.view_of_uncomplained Replica.uncomplained_uptake ?_)
    change (x.core.startLocalComplain C k h).1.uncomplained = _
    unfold Replica.startLocalComplain
    rw [Replica.onReceiveLComplain_uncomplained, Replica.emit_uncomplained _ rfl]
  | call op => exact .inl (x.core.exec_uptake C ((Bool.not_eq_true' _).mp hi.1))
  | remote v junk =>
    change (x.core.rcomplainHandler C v junk).uptake = _ ∨
      ∃ h w, _ ∧ (x.core.rcomplainHandler C v junk).uptake = _
    rcases Replica.rcomplainHandler_cases x.core b C v junk with ⟨hsame, -⟩ | ⟨h, t⟩
    · exact .inl (congrArg Replica.uptake hsame)
    · refine .inr ⟨h, v.voter, t.fresh, ?_⟩
      obtain ⟨es, htrace, hes⟩ := t.trace
      have hnone : es.filterMap Event.taken? = [] := by
        refine List.filterMap_eq_nil_iff.mpr ?_
        intro e he
        have hraised := hes e he
        cases e <;> first | rfl | cases hraised
      have htaken : (x.core.rcomplainHandler C v junk).taken = x.core.taken ++ [h] := by
        unfold Replica.taken
        rw [htrace, List.filterMap_append]
        exact congrArg (fun l => List.filterMap Event.taken? x.core.trace ++ (h :: l)) hnone
      have hcomplains := congrArg Rotation.rcomplains t.rotation
      have hleader := congrArg Rotation.proposer t.rotation
      unfold Replica.uptake
      rw [htaken]
      exact congrArg₂ (fun r p => (⟨r, x.core.taken ++ [h], p⟩ : Uptake)) hcomplains hleader

theorem Inv.step (I : x.Inv c) (hi : Steady C x i) : (x.step C i).Inv c := by
  have hcounted : (next C x.core i).heard.Counted c.config.nmajority (x.step C i).voters := by
    rw [next_heard]
    unfold Hearing.step
    cases complaint x.core i with
    | none => exact I.counted
    | some hv =>
      obtain ⟨h, v⟩ := hv
      change (x.core.hears h v).Counted _ (x.note h v)
      unfold Replica.hears note
      split
      · rw [I.config]
        exact I.counted.hear h v
      · exact I.counted
  refine ⟨next_booked I.booked i, hi.2.trans I.config, hcounted, ?_⟩
  change Rotates c (next C x.core i).uptake
  rcases next_uptake I.booked hi with hsame | ⟨h, v, hfresh, hup⟩
  · rw [hsame]
    exact I.rotates
  · rw [hup, I.config]
    exact I.rotates.take hfresh v

theorem Inv.start (hmaj : 0 < c.config.nmajority) : (start c).Inv c := by
  have hnone : ∀ h, c.start.storage.lcomplains h = ∅ := by
    intro h
    unfold EntityStorage.lcomplains
    by_cases h0 : h = b0
    · subst h
      rfl
    · change ((Function.update (fun _ => none) b0 (some (Block.genesis c.config)) h).map
        (·.lcomplains)).getD ∅ = ∅
      rw [Function.update_of_ne h0]
      rfl
  refine ⟨c.start_booked, rfl, ⟨?_, ?_, ?_⟩, List.nodup_nil, ?_, rfl⟩
  · intro h
    exact (hnone h).subset
  · exact fun h _ => hnone h
  · intro h
    change 0 = if c.config.nmajority ≤ (c.start.storage.lcomplains h).card then 1 else 0
    rw [hnone, Finset.card_empty, if_neg (by omega)]
  · exact fun h hh => absurd hh List.not_mem_nil

theorem inv_of_reach (hmaj : 0 < c.config.nmajority)
    (hx : Runs.Reach (Steady C) (step C) (start c) x) : x.Inv c :=
  hx.invariant (Inv c) (.start hmaj) fun _ _ I hi => I.step hi

end

/-- The replica complains to the other clusters about a block exactly when `nmajority` replicas
have complained to it, once, and at the complaint that makes them so many. It takes up at most
one remote complaint about a block, and the leader rotates as often as one is taken up. -/
theorem complaints_act_once (C : Crypto) (c : Setup) (hmaj : 0 < c.config.nmajority)
    (x : Hearing) (hx : Runs.Reach (Steady C) (step C) (start c) x) :
    (∀ h, x.core.sent.count h = if c.config.nmajority ≤ (x.voters h).card then 1 else 0) ∧
    (∀ h, (x.voters h).card ≤ c.config.nmajority →
      x.core.storage.lcomplains h = x.voters h) ∧
    (∀ h i, Steady C x i → ((x.step C i).core.sent.count h = x.core.sent.count h + 1 ↔
      (x.voters h).card < c.config.nmajority ∧
        c.config.nmajority ≤ ((x.step C i).voters h).card)) ∧
    (∀ h, x.core.taken.count h ≤ 1) ∧
    x.core.pmaker.proposer =
      (fun p => (p + 1) % c.config.nreplicas)^[x.core.taken.length] c.proposer := by
  have hcount : ∀ y : Hearing, y.Inv c → ∀ h,
      y.core.sent.count h = if c.config.nmajority ≤ (y.voters h).card then 1 else 0 := by
    intro y J h
    have hsent := J.counted.sent h
    rw [if_congr (J.counted.quorum_iff h) rfl rfl] at hsent
    exact hsent
  have I := inv_of_reach hmaj hx
  refine ⟨hcount x I, ?_, ?_, ?_, I.rotates.leader⟩
  · intro h hcard
    exact I.counted.all h ((Finset.card_le_card (I.counted.within h)).trans hcard)
  · intro h i hi
    rw [hcount x I h, hcount _ (I.step hi) h]
    split <;> split <;> omega
  · exact List.nodup_iff_count_le_one.mp I.rotates.nodup

def complain (voter : ReplicaID) : Complain := ⟨voter, 1, 1, ⟨1, 1⟩⟩

def uproar : List Input :=
  [.call (.addBlk (.sample 0 0 7 [])), .call (.deliverBlk 1),
    .call (.receiveLComplain (complain 0)), .own 1 1, .remote (complain 5) 0,
    .call (.receiveLComplain (complain 0)), .call (.receiveLComplain (complain 2)),
    .call (.receiveLComplain (complain 3)), .remote (complain 6) 0]

theorem complaints_act_once_uproar :
    ((Runs.run (step .sample) (start (.four 1)) uproar).voters 1).card = 4 ∧
    (Runs.run (step .sample) (start (.four 1)) uproar).core.sent.count 1 = 1 ∧
    (Runs.run (step .sample) (start (.four 1)) uproar).core.taken.count 1 ≤ 1 ∧
    (Runs.run (step .sample) (start (.four 1)) uproar).core.pmaker.proposer = 1 := by
  have hact := complaints_act_once .sample (.four 1) (by decide) _
    (Runs.reach_run uproar .init (by decide +kernel))
  have hsent := hact.1 1
  rw [if_pos (by decide +kernel)] at hsent
  exact ⟨by decide +kernel, hsent, hact.2.2.2.1 1, hact.2.2.2.2.trans (by decide +kernel)⟩

end Hearing

end AvaHotstuff
