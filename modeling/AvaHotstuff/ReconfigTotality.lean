import AvaHotstuff.ReconfigNet
import AvaHotstuff.Runs

set_option autoImplicit false

namespace AvaHotstuff
open Network

namespace Roster.Regular
variable {members : Finset PeerId} {r : Recs} {v p : PeerId} {ro : Roster}

theorem nodup_current (h : ro.Regular members r v p) : ro.peersCurrent.Nodup := by
  rw [h.left]
  exact h.nodup.filter _

theorem toFinset_current (h : ro.Regular members r v p) :
    ro.peersCurrent.toFinset = members.erase p := by
  ext x
  rw [List.mem_toFinset, h.current, Finset.mem_erase]
  exact and_comm

theorem length_current (h : ro.Regular members r v p) :
    ro.peersCurrent.length = (members.erase p).card := by
  rw [← h.toFinset_current, List.toFinset_card_of_nodup h.nodup_current]

theorem quorum_member (h : ro.Regular members r v p) (hp : p ∈ members) :
    ro.config.nmajority = Quorum.majority members.card := by
  have hpos : 0 < members.card := Finset.card_pos.mpr ⟨p, hp⟩
  rw [h.nmajority, h.length_current, Finset.card_erase_of_mem hp]
  unfold Quorum.majority Quorum.maxFaulty
  omega

theorem quorum_outside (h : ro.Regular members r v p) (hp : p ∉ members) :
    ro.config.nmajority = Quorum.majority (members.card + 1) := by
  rw [h.nmajority, h.length_current, Finset.erase_eq_of_notMem hp]
  rfl

theorem mem_change (h : ro.Regular members r v p) (x : PeerId) :
    x ∈ (r.change v ro).peersCurrent ↔
      if r.reconfigMode = 1 then (x ∈ members ∧ x ≠ p) ∧ x ≠ v
      else (x ∈ members ∧ x ≠ p) ∨ (x = v ∧ v ≠ p) := by
  have hcur : x ∈ ro.peers ∧ x ∉ ro.leaveSet ↔ x ∈ members ∧ x ≠ p := by
    rw [← h.current, h.left, List.mem_filter, decide_eq_true_iff]
  unfold Recs.change
  split
  · change x ∈ ro.peers.filter (fun y => decide (y ∉ insert v ro.leaveSet)) ↔ _
    rw [List.mem_filter, decide_eq_true_iff, Finset.mem_insert, ← hcur]
    tauto
  · change x ∈ ro.peers.filter (fun y => decide (y ∉ ro.leaveSet.erase v)) ↔ _
    rw [List.mem_filter, decide_eq_true_iff, Finset.mem_erase, ← hcur]
    by_cases hx : x = v
    · subst x
      by_cases hv : v = p
      · subst hv
        simp [h.self.1]
      · simp [hv, (h.known hv).1]
    · simp [hx]

theorem nodup_change (h : ro.Regular members r v p) : (r.change v ro).peersCurrent.Nodup := by
  unfold Recs.change
  split
  · exact h.nodup.filter _
  · exact h.nodup.filter _

theorem change_quorum (r : Recs) (v : PeerId) (ro : Roster) :
    (r.change v ro).config.nmajority =
      Quorum.majority ((r.change v ro).peersCurrent.length + 1) := by
  unfold Recs.change
  split
  · rfl
  · rfl

theorem length_change (h : ro.Regular members r v p) :
    (r.change v ro).peersCurrent.length =
      (if r.reconfigMode = 1 then (members.erase p).erase v
        else if v = p then members.erase p else insert v (members.erase p)).card := by
  rw [← List.toFinset_card_of_nodup h.nodup_change]
  congr 1
  ext x
  rw [List.mem_toFinset, h.mem_change]
  by_cases hmode : r.reconfigMode = 1
  · simp only [hmode, if_true, Finset.mem_erase]
    tauto
  · by_cases hv : v = p
    · simp only [hmode, hv, if_true, if_false, Finset.mem_erase]
      tauto
    · simp only [hmode, hv, if_false, Finset.mem_insert, Finset.mem_erase]
      tauto

theorem change_target (h : ro.Regular members r v v) :
    (r.change v ro).config.nmajority = ro.config.nmajority := by
  have hlen : (r.change v ro).peersCurrent.length = (members.erase v).card := by
    rw [h.length_change]
    split
    · rw [Finset.erase_eq_of_notMem (Finset.notMem_erase v members)]
    · rw [if_pos rfl]
  rw [change_quorum, hlen, h.nmajority, h.length_current]
  rfl

/-- The change does not raise the quorum, unless a node comes back to a cluster whose size is
not a multiple of three. -/
theorem change_quorum_le (h : ro.Regular members r v p) (hp : p ∈ members)
    (hjoin : r.reconfigMode = 1 ∨ v ∈ members ∨ 3 ∣ members.card) :
    (r.change v ro).config.nmajority ≤ ro.config.nmajority := by
  have hpos : 0 < members.card := Finset.card_pos.mpr ⟨p, hp⟩
  have hcard := Finset.card_erase_of_mem hp
  rw [change_quorum, h.length_change, h.quorum_member hp]
  unfold Quorum.majority Quorum.maxFaulty
  by_cases hmode : r.reconfigMode = 1
  · have hle : ((members.erase p).erase v).card ≤ (members.erase p).card := Finset.card_erase_le
    rw [if_pos hmode]
    omega
  · rw [if_neg hmode]
    by_cases hv : v = p
    · rw [if_pos hv]
      omega
    · rw [if_neg hv]
      by_cases hmem : v ∈ members
      · rw [Finset.insert_eq_of_mem (Finset.mem_erase.mpr ⟨hv, hmem⟩)]
        omega
      · have hthree := (hjoin.resolve_left hmode).resolve_left hmem
        rw [Finset.card_insert_of_notMem fun hin => hmem (Finset.mem_of_mem_erase hin)]
        omega

end Roster.Regular

/-- The membership is that of the start, or it has been changed. -/
def RecsView.Changed (r : Recs) (v : PeerId) (k : ℤ) (ro : Roster) (x : RecsView) : Prop :=
  x.roster = ro ∧ x.log.count (.reconfigured r k) = 0 ∨
    x.roster = r.change v ro ∧ x.log.count (.reconfigured r k) ≠ 0

/-- Every AGG message comes from the leader, whose ECHO message follows it. -/
def Ordered (leader : PeerId) (r : Recs) (k : ℤ) : List (Packet PeerId MsgRecsAggEchoReady) → Prop
  | [] => True
  | m :: rest => (m.msg.type = myAgg → m.src = leader ∧ ⟨leader, m.dst, r, myEcho, k⟩ ∈ rest) ∧
      Ordered leader r k rest

section
variable {members : Finset PeerId} {r : Recs} {v p leader : PeerId} {k : ℤ} {ro : Roster}
  {s : Replica} {x y : RecsView} {flight : List (Packet PeerId MsgRecsAggEchoReady)}

theorem RecsView.Changed.keep (h : x.Changed r v k ro) {es : List Event}
    (hroster : y.roster = x.roster) (hlog : y.log = x.log ++ es)
    (hes : .reconfigured r k ∉ es) : y.Changed r v k ro := by
  unfold Changed
  rw [hroster, hlog, List.count_append, List.count_eq_zero.mpr hes, Nat.add_zero]
  exact h

namespace RecsView.Changed

theorem allPeers (h : s.recsView.Changed r v k ro) : s.recs.allPeers = ro.allPeers ∧
    s.recs.knownPeers = ro.knownPeers := by
  have hchange : (r.change v ro).allPeers = ro.allPeers ∧
      (r.change v ro).knownPeers = ro.knownPeers := by
    unfold Recs.change
    split
    · exact ⟨rfl, rfl⟩
    · exact ⟨rfl, rfl⟩
  rcases h with ⟨h, -⟩ | ⟨h, -⟩
  · exact ⟨congrArg Roster.allPeers h, congrArg Roster.knownPeers h⟩
  · exact ⟨(congrArg Roster.allPeers h).trans hchange.1,
      (congrArg Roster.knownPeers h).trans hchange.2⟩

theorem peerOf (h : s.recsView.Changed r v k ro) (hro : ro.Regular members r v p) :
    s.peerOf r = some v := by
  unfold Replica.peerOf
  rw [if_neg (Int.not_lt.mpr hro.target.1), h.allPeers.1]
  exact hro.target.2

theorem readyTarget (h : s.recsView.Changed r v k ro) (hro : ro.Regular members r v p) :
    s.readyTarget r = if p = v then .error .peerNotExist else .ok v := by
  unfold Replica.readyTarget
  rw [h.peerOf hro, h.allPeers.2]
  simp only []
  by_cases hv : p = v
  · subst hv
    rw [if_neg hro.self.2, if_pos rfl]
  · rw [if_pos (hro.known (Ne.symm hv)).2, if_neg hv]

theorem nodup (h : s.recsView.Changed r v k ro) (hro : ro.Regular members r v p) :
    s.recs.peersCurrent.Nodup := by
  rcases h with ⟨h, -⟩ | ⟨h, -⟩
  · rw [show s.recs.peersCurrent = ro.peersCurrent from congrArg Roster.peersCurrent h]
    exact hro.nodup_current
  · rw [show s.recs.peersCurrent = _ from congrArg Roster.peersCurrent h]
    exact hro.nodup_change

theorem peers (h : s.recsView.Changed r v k ro) (hro : ro.Regular members r v p) {d : PeerId}
    (hd : d ∈ s.recs.peersCurrent) : d ∈ members ∨ d = v := by
  rcases h with ⟨h, -⟩ | ⟨h, -⟩
  · rw [show s.recs.peersCurrent = ro.peersCurrent from congrArg Roster.peersCurrent h] at hd
    exact .inl ((hro.current d).mp hd).1
  · rw [show s.recs.peersCurrent = _ from congrArg Roster.peersCurrent h, hro.mem_change] at hd
    split at hd
    · exact .inl hd.1.1
    · exact hd.imp (fun h => h.1) fun h => h.1

end RecsView.Changed

theorem Ordered.append (h : Ordered leader r k flight)
    {new : List (Packet PeerId MsgRecsAggEchoReady)} (hnew : ∀ m ∈ new, m.msg.type ≠ myAgg) :
    Ordered leader r k (flight ++ new) := by
  induction flight with
  | nil =>
    induction new with
    | nil => trivial
    | cons m rest ih =>
      refine ⟨fun ht => absurd ht (hnew m (List.mem_cons_self ..)), ?_⟩
      exact ih fun x hx => hnew x (List.mem_cons_of_mem _ hx)
  | cons m rest ih =>
    refine ⟨fun ht => ?_, ih h.2⟩
    exact ⟨(h.1 ht).1, List.mem_append_left _ (h.1 ht).2⟩

theorem Ordered.eraseIdx (h : Ordered leader r k flight) {i : ℕ}
    {m : Packet PeerId MsgRecsAggEchoReady} (hm : flight[i]? = some m)
    (hold : ∀ x ∈ flight.take i, ¬ (x.src = m.src ∧ x.dst = m.dst)) :
    Ordered leader r k (flight.eraseIdx i) := by
  induction flight generalizing i with
  | nil => trivial
  | cons a rest ih =>
    cases i with
    | zero => exact h.2
    | succ i =>
      refine ⟨fun ht => ?_, ih h.2 hm fun x hx => hold x (List.mem_cons_of_mem _ hx)⟩
      obtain ⟨hsrc, hecho⟩ := h.1 ht
      have hrest : rest[i]? = some m := hm
      refine ⟨hsrc, ?_⟩
      rcases mem_eraseIdx hrest hecho with hsame | hstay
      · -- the ECHO message would overtake the AGG message
        exact absurd ⟨by rw [← hsame, hsrc], by rw [← hsame]⟩ (hold a (List.mem_cons_self ..))
      · exact hstay

theorem Ordered.echo_mem (h : Ordered leader r k flight)
    {m : Packet PeerId MsgRecsAggEchoReady} (hm : m ∈ flight) (ht : m.msg.type = myAgg) :
    ⟨leader, m.dst, r, myEcho, k⟩ ∈ flight := by
  induction flight with
  | nil => exact absurd hm List.not_mem_nil
  | cons a rest ih =>
    rcases List.mem_cons.mp hm with rfl | hrest
    · exact List.mem_cons_of_mem _ (h.1 ht).2
    · exact List.mem_cons_of_mem _ (ih h.2 hrest)

theorem Ordered.announce (dsts echo : List PeerId) (hsub : ∀ d ∈ dsts, d ∈ echo) :
    Ordered leader r k (Event.recsPackets leader (.recsSent r myAgg k dsts) ++
      Event.recsPackets leader (.recsSent r myEcho k echo)) := by
  induction dsts with
  | nil =>
    have hnil : Ordered leader r k [] := trivial
    apply hnil.append
    intro m hm
    obtain ⟨d, -, rfl⟩ := List.mem_map.mp hm
    exact (by decide : myEcho ≠ myAgg)
  | cons d ds ih =>
    refine ⟨fun _ => ⟨rfl, List.mem_append_right _ ?_⟩, ?_⟩
    · exact List.mem_map.mpr ⟨d, hsub d (List.mem_cons_self ..), rfl⟩
    · exact ih fun x hx => hsub x (List.mem_cons_of_mem _ hx)

end

theorem Replica.Unrelated.recsView {s : Replica} {op : Op} (h : s.Unrelated op) (C : Crypto) :
    (s.step C op).recsView = s.recsView := by
  cases op with
  | msgRecsAggEchoReady msg => exact absurd h fun h => h
  | msgRecs r =>
    change (s.msgRecsHandler r).recsView = s.recsView
    unfold msgRecsHandler
    split
    · rename_i hid
      simp only [Function.update_self]
      split
      · rfl
      · split
        · rename_i heq
          exact absurd ⟨hid, heq⟩ h
        · rfl
    · rfl
  | _ => exact s.exec_recsView C rfl

namespace ReconfigNet
variable {members : Finset PeerId} {r : Recs} {v leader : PeerId} {k : ℤ} {net : ReconfigNet}

structure OfWave (members : Finset PeerId) (r : Recs) (v : PeerId) (k : ℤ)
    (m : Packet PeerId MsgRecsAggEchoReady) : Prop where
  dst : m.dst ∈ members ∨ m.dst = v
  msg : m.msg = ⟨r, myAgg, k⟩ ∧ m.dst ∈ members ∨ m.msg = ⟨r, myEcho, k⟩ ∨ m.msg = ⟨r, myReady, k⟩

/-- The replicas follow the wave, and a change of membership counts as an action. -/
structure Follows (members : Finset PeerId) (r : Recs) (v leader : PeerId) (k : ℤ)
    (ro : PeerId → Roster) (net : ReconfigNet) : Prop where
  inv : (net.wave r k).Inv members v (Quorum.majority members.card)
    (Quorum.majority (members.card + 1))
  changed : ∀ p, p ∈ members ∨ p = v → (net.node p).recsView.Changed r v k (ro p)
  packets : ∀ m ∈ net.flight, OfWave members r v k m
  ordered : Ordered leader r k net.flight

theorem changed_setNode {ro : PeerId → Roster} {j : PeerId} {s : Replica}
    {flight : List (Packet PeerId MsgRecsAggEchoReady)}
    (h : ∀ p, p ∈ members ∨ p = v → (net.node p).recsView.Changed r v k (ro p))
    (hs : s.recsView.Changed r v k (ro j)) (p : PeerId) (hp : p ∈ members ∨ p = v) :
    (({ net.setNode j s with flight := flight } : ReconfigNet).node p).recsView.Changed r v k
      (ro p) := by
  change ((net.setNode j s).node p).recsView.Changed r v k (ro p)
  by_cases hpj : p = j
  · subst p
    rw [Net.setNode_self]
    exact hs
  · rw [Net.setNode_of_ne _ hpj]
    exact h p hp

theorem ofWave_recsSent {self : PeerId} {type : ℤ} {dsts : List PeerId}
    (htype : type = myEcho ∨ type = myReady) (hdsts : ∀ d ∈ dsts, d ∈ members ∨ d = v)
    {m : Packet PeerId MsgRecsAggEchoReady}
    (hm : m ∈ Event.recsPackets self (.recsSent r type k dsts)) :
    OfWave members r v k m ∧ m.msg.type ≠ myAgg := by
  obtain ⟨d, hd, rfl⟩ := List.mem_map.mp hm
  rcases htype with rfl | rfl
  · exact ⟨⟨hdsts d hd, .inr (.inl rfl)⟩, (by decide : myEcho ≠ myAgg)⟩
  · exact ⟨⟨hdsts d hd, .inr (.inr rfl)⟩, (by decide : myReady ≠ myAgg)⟩

section
variable {ro : PeerId → Roster} {i : ℕ} {m : Packet PeerId MsgRecsAggEchoReady}

theorem Follows.flight (F : Follows members r v leader k ro net) (hm : net.flight[i]? = some m)
    (hold : ∀ x ∈ net.flight.take i, ¬ (x.src = m.src ∧ x.dst = m.dst))
    {es : List Event} (hes : ∀ e ∈ es, (∃ type dsts, e = .recsSent r type k dsts ∧
      (type = myEcho ∨ type = myReady) ∧ ∀ d ∈ dsts, d ∈ members ∨ d = v) ∨
        e = .reconfigured r k) :
    (∀ x ∈ net.flight.eraseIdx i ++ es.flatMap (Event.recsPackets m.dst),
      OfWave members r v k x) ∧
      Ordered leader r k (net.flight.eraseIdx i ++ es.flatMap (Event.recsPackets m.dst)) := by
  have hnew : ∀ x ∈ es.flatMap (Event.recsPackets m.dst),
      OfWave members r v k x ∧ x.msg.type ≠ myAgg := by
    intro x hx
    obtain ⟨e, he, hxe⟩ := List.mem_flatMap.mp hx
    rcases hes e he with ⟨type, dsts, rfl, htype, hdsts⟩ | rfl
    · exact ofWave_recsSent htype hdsts hxe
    · exact absurd hxe List.not_mem_nil
  constructor
  · intro x hx
    rcases List.mem_append.mp hx with hx | hx
    · exact F.packets x (List.mem_of_mem_eraseIdx hx)
    · exact (hnew x hx).1
  · exact (F.ordered.eraseIdx hm hold).append fun x hx => (hnew x hx).2

theorem Follows.next (F : Follows members r v leader k ro net) (hn : 4 ≤ members.card)
    (hm : net.flight[i]? = some m)
    (hold : ∀ x ∈ net.flight.take i, ¬ (x.src = m.src ∧ x.dst = m.dst)) {s : Replica}
    {es : List Event} (hs : ((net.node m.dst).msgRecsAggEchoReadyHandler m.msg).1 = s)
    (hlog : s.recsView.log = (net.node m.dst).recsView.log ++ es)
    (hes : ∀ e ∈ es, (∃ type dsts, e = .recsSent r type k dsts ∧
      (type = myEcho ∨ type = myReady) ∧ ∀ d ∈ dsts, d ∈ members ∨ d = v) ∨
        e = .reconfigured r k)
    (hchanged : s.recsView.Changed r v k (ro m.dst))
    (hstep : EchoReady.Wave.Step members v (net.wave r k)
      (wave (net.deliver Replica.handleRecs i) r k)) :
    Follows members r v leader k ro (net.deliver Replica.handleRecs i) := by
  have hq : 2 ≤ Quorum.majority members.card := by
    unfold Quorum.majority Quorum.maxFaulty
    omega
  have hqv : members.card < Quorum.majority members.card + Quorum.majority (members.card + 1) := by
    unfold Quorum.majority Quorum.maxFaulty
    omega
  have hinv := F.inv.step hq hqv hstep
  obtain ⟨packets, ordered⟩ := F.flight hm hold hes
  rw [deliver_wave hm hs hlog] at hinv ⊢
  exact ⟨hinv, changed_setNode F.changed hchanged, packets, ordered⟩

theorem Follows.deliver_agg (F : Follows members r v leader k ro net) (hn : 4 ≤ members.card)
    (hro : ∀ p, p ∈ members ∨ p = v → (ro p).Regular members r v p)
    (hm : net.flight[i]? = some m)
    (hold : ∀ x ∈ net.flight.take i, ¬ (x.src = m.src ∧ x.dst = m.dst))
    (hmsg : m.msg = ⟨r, myAgg, k⟩) (hdst : m.dst ∈ members) :
    Follows members r v leader k ro (net.deliver Replica.handleRecs i) := by
  have hmem : m ∈ net.flight := List.mem_of_getElem? hm
  have hch := F.changed m.dst (.inl hdst)
  have hreg := hro m.dst (.inl hdst)
  have htype : m.msg.type = myAgg := by rw [hmsg]
  have hagg : (net.wave r k).aggTo m.dst ≠ 0 := by
    have hpos := inFlight_pos hmem
    rw [htype] at hpos
    exact hpos
  -- the leader's ECHO message is behind its AGG message
  have hecho : (net.wave r k).echoTo m.dst ≠ 0 := inFlight_pos (F.ordered.echo_mem hmem htype)
  have hs : ((net.node m.dst).msgRecsAggEchoReadyHandler m.msg).1 =
      (net.node m.dst).onAgg r k := by
    rw [hmsg]
    rfl
  refine F.next hn hm hold hs (congrArg RecsView.log Replica.onAgg_recsView) ?_ ?_ ?_
  · intro e he
    rw [List.mem_singleton.mp he]
    exact .inl ⟨_, _, rfl, .inl rfl, fun d hd => hch.peers hreg hd⟩
  · exact hch.keep rfl (congrArg RecsView.log Replica.onAgg_recsView) (by simp)
  · rw [ReconfigNet.deliver_agg hm hmsg (hch.nodup hreg)]
    exact .agg hdst hagg (.inr hecho)

theorem Follows.deliver_echo (F : Follows members r v leader k ro net) (hn : 4 ≤ members.card)
    (hro : ∀ p, p ∈ members ∨ p = v → (ro p).Regular members r v p)
    (hm : net.flight[i]? = some m)
    (hold : ∀ x ∈ net.flight.take i, ¬ (x.src = m.src ∧ x.dst = m.dst))
    (hmsg : m.msg = ⟨r, myEcho, k⟩) (hin : (net.node m.dst).ReadyInTime m.msg) :
    Follows members r v leader k ro (net.deliver Replica.handleRecs i) := by
  have hmem : m ∈ net.flight := List.mem_of_getElem? hm
  have hdst := (F.packets m hmem).dst
  have hch := F.changed m.dst hdst
  have hreg := hro m.dst hdst
  have htarget := hch.readyTarget hreg
  have hecho : (net.wave r k).echoTo m.dst ≠ 0 := by
    have hpos := inFlight_pos hmem
    rw [hmsg] at hpos
    exact hpos
  by_cases hq : ((net.wave r k).node m.dst).echo + 1 = ((net.wave r k).node m.dst).quorum
  · have hown : m.dst = v ∨
        ((net.wave r k).node m.dst).ready + 1 ≠ ((net.wave r k).node m.dst).quorum := by
      by_cases hv : m.dst = v
      · exact .inl hv
      · rw [if_neg hv] at htarget
        rw [hmsg] at hin
        exact .inr (hin rfl hq (by rw [htarget]; rfl))
    have hstep := EchoReady.Wave.Step.sendReady hdst hecho hq hown
    rw [← deliver_sendReady hm hmsg (hch.nodup hreg) hq htarget] at hstep
    have hpeers : ∀ d ∈ (net.node m.dst).recs.peersCurrent, d ∈ members ∨ d = v :=
      fun d hd => hch.peers hreg hd
    by_cases hv : m.dst = v
    · rw [if_pos hv] at htarget
      have hview := Replica.onEcho_throw hq htarget
      refine F.next hn hm hold (handler_echo hmsg _) (congrArg RecsView.log hview) ?_ ?_ hstep
      · intro e he
        rw [List.mem_singleton.mp he]
        exact .inl ⟨_, _, rfl, .inr rfl, hpeers⟩
      · rw [hview]
        exact hch.keep rfl rfl (by simp)
    · rw [if_neg hv] at htarget
      have hview := Replica.onEcho_send hq htarget
      refine F.next hn hm hold (handler_echo hmsg _) (congrArg RecsView.log hview) ?_ ?_ hstep
      · intro e he
        rcases List.mem_cons.mp he with rfl | he
        · exact .inl ⟨_, _, rfl, .inr rfl, hpeers⟩
        · rw [List.mem_singleton.mp he]
          exact .inl ⟨_, _, rfl, .inr rfl, fun d hd => .inr (List.mem_singleton.mp hd)⟩
      · rw [hview]
        exact hch.keep rfl rfl (by simp)
  · have hview := Replica.onEcho_count (r := r) hq
    have hlog : ((net.node m.dst).onEcho r k).1.recsView.log =
        (net.node m.dst).recsView.log ++ [] := by
      rw [hview, List.append_nil]
    refine F.next hn hm hold (handler_echo hmsg _) hlog ?_ ?_ ?_
    · intro e he
      exact absurd he List.not_mem_nil
    · exact hch.keep (by rw [hview]) hlog List.not_mem_nil
    · rw [deliver_countEcho hm hmsg hq]
      exact .countEcho hdst hecho hq

theorem Follows.deliver_ready (F : Follows members r v leader k ro net) (hn : 4 ≤ members.card)
    (hro : ∀ p, p ∈ members ∨ p = v → (ro p).Regular members r v p)
    (hmode : r.reconfigMode = 0 ∨ r.reconfigMode = 1)
    (hjoin : r.reconfigMode = 1 ∨ v ∈ members ∨ 3 ∣ members.card)
    (hm : net.flight[i]? = some m)
    (hold : ∀ x ∈ net.flight.take i, ¬ (x.src = m.src ∧ x.dst = m.dst))
    (hmsg : m.msg = ⟨r, myReady, k⟩) :
    Follows members r v leader k ro (net.deliver Replica.handleRecs i) := by
  have hmem : m ∈ net.flight := List.mem_of_getElem? hm
  have hdst := (F.packets m hmem).dst
  have hch := F.changed m.dst hdst
  have hreg := hro m.dst hdst
  have hready : (net.wave r k).readyTo m.dst ≠ 0 := by
    have hpos := inFlight_pos hmem
    rw [hmsg] at hpos
    exact hpos
  by_cases hq : ((net.wave r k).node m.dst).ready + 1 = ((net.wave r k).node m.dst).quorum
  · have hpeer := hch.peerOf hreg
    have hview := Replica.onReady_apply hq hpeer hmode
    -- a second change is out of the question, so the membership is that of the start
    have hzero : (net.node m.dst).recsView.log.count (.reconfigured r k) = 0 :=
      F.inv.pending hdst hq
    have hroster : (net.node m.dst).roster = ro m.dst := by
      rcases hch with ⟨h, -⟩ | ⟨-, hne⟩
      · exact h
      · exact absurd hzero hne
    have hlog : ((net.node m.dst).onReady r k).1.recsView.log =
        (net.node m.dst).recsView.log ++ [.reconfigured r k] := by
      rw [hview]
    refine F.next hn hm hold (handler_ready hmsg _) hlog ?_ ?_ ?_
    · intro e he
      exact .inr (List.mem_singleton.mp he)
    · refine .inr ⟨?_, ?_⟩
      · rw [hview, hroster]
      · rw [hlog, List.count_append]
        simp
    · rw [deliver_apply hm hmsg hq hpeer hmode, hroster]
      have hquorum : ((net.wave r k).node m.dst).quorum = (ro m.dst).config.nmajority :=
        congrArg (fun x : Roster => x.config.nmajority) hroster
      refine .apply hdst hready hq ?_ ?_ ?_ ?_
      · rw [hquorum]
        by_cases hv : m.dst = v
        · rw [hv] at hreg ⊢
          exact Nat.le_of_eq hreg.change_target
        · exact hreg.change_quorum_le (hdst.resolve_right hv) hjoin
      · rw [List.mem_toFinset, hreg.mem_change]
        split
        · exact fun h => h.1.2 rfl
        · rintro (h | h)
          · exact h.2 rfl
          · exact h.2 h.1.symm
      · intro p hp hne hside
        rw [List.mem_toFinset, hreg.mem_change]
        split
        · refine ⟨⟨hp, hne⟩, ?_⟩
          rcases hside with hpv | hv
          · exact hpv
          · rw [← hv]
            exact hne
        · exact .inl ⟨hp, hne⟩
      · intro hv
        rw [hquorum]
        rw [hv] at hreg ⊢
        exact hreg.change_target
  · have hview := Replica.onReady_count (r := r) hq
    have hlog : ((net.node m.dst).onReady r k).1.recsView.log =
        (net.node m.dst).recsView.log ++ [] := by
      rw [hview, List.append_nil]
    refine F.next hn hm hold (handler_ready hmsg _) hlog ?_ ?_ ?_
    · intro e he
      exact absurd he List.not_mem_nil
    · exact hch.keep (by rw [hview]) hlog List.not_mem_nil
    · rw [deliver_countReady hm hmsg hq]
      exact .countReady hdst hready hq

theorem Follows.step (F : Follows members r v leader k ro net) (hn : 4 ≤ members.card)
    (hro : ∀ p, p ∈ members ∨ p = v → (ro p).Regular members r v p)
    (hmode : r.reconfigMode = 0 ∨ r.reconfigMode = 1)
    (hjoin : r.reconfigMode = 1 ∨ v ∈ members ∨ 3 ∣ members.card) (C : Crypto) {a : Input}
    (hfifo : net.Fifo a) (hin : net.InTime a) :
    Follows members r v leader k ro (net.step C a) := by
  cases a with
  | deliver i =>
    change Follows members r v leader k ro (net.deliver Replica.handleRecs i)
    cases hm : net.flight[i]? with
    | none =>
      have hsame : net.deliver Replica.handleRecs i = net := by
        unfold Net.deliver
        rw [hm]
      rw [hsame]
      exact F
    | some m =>
      have hold := hfifo m hm
      rcases (F.packets m (List.mem_of_getElem? hm)).msg with ⟨hmsg, hdst⟩ | hmsg | hmsg
      · exact F.deliver_agg hn hro hm hold hmsg hdst
      · exact F.deliver_echo hn hro hm hold hmsg (hin m hm)
      · exact F.deliver_ready hn hro hmode hjoin hm hold hmsg
  | work p op =>
    have hview := Replica.Unrelated.recsView hfifo C
    have hnode : ∀ x, ((net.setNode p ((net.node p).step C op)).node x).recsView =
        (net.node x).recsView := by
      intro x
      by_cases hx : x = p
      · rw [hx, Net.setNode_self, hview]
      · rw [Net.setNode_of_ne _ hx]
    have hwave : wave (net.setNode p ((net.node p).step C op)) r k = net.wave r k := by
      apply EchoReady.Wave.ext
      · funext x
        exact congrArg (RecsView.station r k) (hnode x)
      · rfl
      · rfl
      · rfl
    change Follows members r v leader k ro (net.setNode p ((net.node p).step C op))
    constructor
    · rw [hwave]
      exact F.inv
    · intro x hx
      rw [hnode]
      exact F.changed x hx
    · exact F.packets
    · exact F.ordered

end

/-- The leader gets the acknowledgement that makes it announce `r` under the fresh count `k`. -/
structure Announces (members : Finset PeerId) (r : Recs) (v leader : PeerId) (k : ℤ)
    (net : ReconfigNet) : Prop where
  size : 4 ≤ members.card
  member : leader ∈ members
  mode : r.reconfigMode = 0 ∨ r.reconfigMode = 1
  fresh : ∀ p, p ∈ members ∨ p = v → (net.node p).Fresh members r v p k
  flight : net.flight = []
  proposer : (net.node leader).id = (net.node leader).pmaker.proposer
  acks : (net.node leader).recs.pendingRecs r + 1 = (net.node leader).getRecsMajority
  count : (net.node leader).recs.reconfigCount + 1 = k

theorem fresh_station {p : PeerId} {s : Replica} (h : s.Fresh members r v p k) :
    (s.recsView.station r k).echo = 0 ∧ (s.recsView.station r k).ready = 0 ∧
      (s.recsView.station r k).applied = 0 ∧ (s.recsView.station r k).echoed = false ∧
      (s.recsView.station r k).readied = false := by
  have hsent : ∀ type, (s.recsView.log.any fun e => e.sends == some ⟨r, type, k⟩) = false := by
    intro type
    rw [List.any_eq_false]
    intro e he hsend
    apply h.unused e he
    cases e with
    | recsSent r' type' k' dsts =>
      have heq : (⟨r', type', k'⟩ : MsgRecsAggEchoReady) = ⟨r, type, k⟩ :=
        Option.some.inj (beq_iff_eq.mp hsend)
      exact congrArg (fun m : MsgRecsAggEchoReady => some m.reconfigCount) heq
    | _ => simp [Event.sends] at hsend
  refine ⟨h.echo, h.ready, ?_, hsent myEcho, hsent myReady⟩
  exact List.count_eq_zero.mpr fun he => h.unused _ he rfl

theorem fresh_ok {p : PeerId} {s : Replica} {q : ℕ} (h : s.Fresh members r v p k)
    (hq : s.config.nmajority = q) (hpos : 0 < q) :
    (s.recsView.station r k).Ok members v q p := by
  obtain ⟨-, hready, happlied, -, hreadied⟩ := fresh_station h
  have hpeers : (s.recsView.station r k).peers = members.erase p := h.toFinset_current
  constructor
  · rw [hpeers]
    exact Finset.notMem_erase p members
  · rw [hready, happlied]
    exact .inl ⟨rfl, hpos⟩
  · exact Nat.le_of_eq hq
  · exact fun _ => hq
  · intro x hx hne _
    rw [hpeers]
    exact Finset.mem_erase.mpr ⟨hne, hx⟩
  · intro hv _
    rw [hpeers]
    exact fun hin => hv (Finset.mem_of_mem_erase hin)
  · intro h
    rw [hreadied] at h
    exact absurd h Bool.false_ne_true

theorem Announces.view (A : Announces members r v leader k net) :
    ((net.node leader).msgRecsHandler r).recsView = { (net.node leader).recsView with
      echo := Function.update (net.node leader).recsView.echo k
        ((net.node leader).recsView.echo k + 1)
      log := (net.node leader).recsView.log ++
        [.recsSent r myAgg k (net.node leader).recs.peersCurrent,
          .recsSent r myEcho k (net.node leader).recs.peersCurrent] } := by
  unfold Replica.msgRecsHandler
  rw [if_pos A.proposer]
  simp only [Function.update_self]
  rw [if_neg, if_pos]
  · rw [Replica.startAgg_recsView]
    simp only [A.count]
    rfl
  · exact A.acks
  · exact Nat.not_lt_of_le (Nat.le_of_eq A.acks)

theorem Announces.announce_eq (A : Announces members r v leader k net) :
    net.announce leader r = { net.setNode leader ((net.node leader).msgRecsHandler r) with
      flight := Event.recsPackets leader
          (.recsSent r myAgg k (net.node leader).recs.peersCurrent) ++
        Event.recsPackets leader
          (.recsSent r myEcho k (net.node leader).recs.peersCurrent) } := by
  unfold announce
  simp only [A.flight, List.nil_append]
  rw [Replica.recsPackets_of_log (congrArg RecsView.log A.view), List.flatMap_cons,
    List.flatMap_singleton]

/-- Before the announcement, as if AGG were on its way to every member. -/
def blank (members : Finset PeerId) (r : Recs) (k : ℤ) (net : ReconfigNet) :
    EchoReady.Wave PeerId where
  node := (net.wave r k).node
  aggTo p := if p ∈ members then 1 else 0
  echoTo _ := 0
  readyTo _ := 0

theorem Announces.wave_eq (A : Announces members r v leader k net) :
    (net.announce leader r).wave r k = (blank members r k net).onAgg leader := by
  have hreg := (A.fresh leader (.inl A.member)).toRegular
  have hnd : (net.node leader).recs.peersCurrent.Nodup := hreg.nodup_current
  have hflight : ∀ type, inFlight (Event.recsPackets leader
      (.recsSent r myAgg k (net.node leader).recs.peersCurrent)) type =
      if type = myAgg then EchoReady.mail (fun _ => 0)
        (net.node leader).recs.peersCurrent.toFinset else fun _ => 0 := by
    intro type
    have hmail := @inFlight_mail [] _ hnd leader r k type myAgg
    exact hmail
  rw [A.announce_eq]
  apply EchoReady.Wave.ext
  · rw [wave_node]
    refine congrArg (Function.update _ leader) ?_
    rw [A.view]
    unfold blank wave RecsView.station
    simp [Event.sends, myAgg, myEcho, myReady]
  · change inFlight (_ ++ _) myAgg = EchoReady.taken _ leader
    rw [inFlight_mail hnd, if_neg (by decide), hflight, if_pos rfl]
    have hpeers : (net.node leader).recs.peersCurrent.toFinset = members.erase leader :=
      hreg.toFinset_current
    rw [hpeers]
    funext p
    by_cases hp : p = leader
    · subst p
      rw [EchoReady.taken_self, EchoReady.mail_of_notMem (Finset.notMem_erase leader members)]
      change 0 = (if leader ∈ members then 1 else 0) - 1
      rw [if_pos A.member]
    · rw [EchoReady.taken_of_ne _ hp]
      unfold EchoReady.mail
      simp only [Finset.mem_erase, hp, ne_eq, not_false_eq_true, true_and, Nat.zero_add]
      rfl
  · change inFlight (_ ++ _) myEcho = EchoReady.mail _ _
    rw [inFlight_mail hnd, if_pos rfl, hflight, if_neg (by decide)]
    rfl
  · change inFlight (_ ++ _) myReady = _
    rw [inFlight_mail hnd, if_neg (by decide), hflight, if_neg (by decide)]
    rfl

theorem Announces.follows (A : Announces members r v leader k net) :
    Follows members r v leader k (fun p => (net.node p).roster) (net.announce leader r) := by
  have hn := A.size
  have hq : 2 ≤ Quorum.majority members.card := by
    unfold Quorum.majority Quorum.maxFaulty
    omega
  have hout : 0 < Quorum.majority (members.card + 1) := by
    unfold Quorum.majority Quorum.maxFaulty
    omega
  have hlead := A.fresh leader (.inl A.member)
  have hblank : (blank members r k net).Blank members v :=
    ⟨fun p hp => fresh_station (A.fresh p hp), fun p hp => if_pos hp, fun _ => rfl, fun _ => rfl⟩
  have hinv : (blank members r k net).Inv members v (Quorum.majority members.card)
      (Quorum.majority (members.card + 1)) := by
    apply hblank.inv (by omega)
    · intro p hp
      have h := A.fresh p (.inl hp)
      exact fresh_ok h (h.quorum_member hp) (by omega)
    · intro hv
      have h := A.fresh v (.inr rfl)
      exact fresh_ok h (h.quorum_outside hv) hout
  have hagg : (blank members r k net).aggTo leader ≠ 0 := by
    change (if leader ∈ members then 1 else 0) ≠ 0
    rw [if_pos A.member]
    exact Nat.one_ne_zero
  have hstart := hinv.onAgg hq A.member hagg (.inl (fresh_station hlead).1)
  have hnone : ∀ p, p ∈ members ∨ p = v →
      (net.node p).recsView.Changed r v k (net.node p).roster :=
    fun p hp => .inl ⟨rfl, (fresh_station (A.fresh p hp)).2.2.1⟩
  have hdsts : ∀ d ∈ (net.node leader).recs.peersCurrent, d ∈ members :=
    fun d hd => ((hlead.current d).mp hd).1
  rw [← A.wave_eq] at hstart
  refine ⟨hstart, ?_, ?_, ?_⟩
  · rw [A.announce_eq]
    apply changed_setNode hnone
    rw [A.view]
    exact (hnone leader (.inl A.member)).keep rfl rfl (by simp)
  · rw [A.announce_eq]
    intro m hm
    rcases List.mem_append.mp hm with hm | hm
    · obtain ⟨d, hd, rfl⟩ := List.mem_map.mp hm
      exact ⟨.inl (hdsts d hd), .inl ⟨rfl, hdsts d hd⟩⟩
    · exact (ofWave_recsSent (.inl rfl) (fun d hd => .inl (hdsts d hd)) hm).1
  · rw [A.announce_eq]
    exact Ordered.announce _ _ fun d hd => hd

/-- Every member, and a node that comes back, applies the reconfiguration exactly once, in
every run in which no replica's own READY message is the one that makes up its quorum. -/
theorem reconfiguration_totality (C : Crypto) (members : Finset PeerId) (r : Recs)
    (v leader : PeerId) (k : ℤ) (start net : ReconfigNet)
    (A : Announces members r v leader k start)
    (hjoin : r.reconfigMode = 1 ∨ v ∈ members ∨ 3 ∣ members.card)
    (h : Runs.Reach (fun net a => Fifo net a ∧ InTime net a) (step C)
      (start.announce leader r) net) (hdone : net.flight = []) :
    ∀ p, p ∈ members ∨ p = v ∧ r.reconfigMode = 0 →
      (net.node p).trace.count (.reconfigured r k) = 1 ∧
        (net.node p).roster = r.change v (start.node p).roster := by
  have hn := A.size
  have F : Follows members r v leader k (fun p => (start.node p).roster) net := by
    apply h.invariant (Follows members r v leader k fun p => (start.node p).roster)
    · exact A.follows
    · intro net a F ⟨hfifo, hin⟩
      exact F.step hn (fun p hp => (A.fresh p hp).toRegular) A.mode hjoin C hfifo hin
  have hquiet : (net.wave r k).Quiet := by
    intro p
    change inFlight net.flight myAgg p = 0 ∧ inFlight net.flight myEcho p = 0 ∧
      inFlight net.flight myReady p = 0
    rw [hdone]
    exact ⟨rfl, rfl, rfl⟩
  have hle : Quorum.majority members.card ≤ members.card := Nat.sub_le ..
  have hq : 2 ≤ Quorum.majority members.card := by
    unfold Quorum.majority Quorum.maxFaulty
    omega
  intro p hp
  have hside : p ∈ members ∨ p = v := hp.imp_right fun h => h.1
  have happlied : ((net.wave r k).node p).applied = 1 := by
    by_cases hmem : p ∈ members
    · exact F.inv.applied_of_quiet hq hle hquiet hmem
    · obtain ⟨rfl, hmode⟩ := hp.resolve_left hmem
      have hthree := (hjoin.resolve_left (by omega)).resolve_left hmem
      apply F.inv.outside_of_quiet hle hquiet hmem
      unfold Quorum.majority Quorum.maxFaulty
      omega
  have hcount : (net.node p).recsView.log.count (.reconfigured r k) = 1 := happlied
  constructor
  · rw [← hcount]
    exact (List.count_filter (by rfl)).symm
  · rcases F.changed p hside with ⟨-, hzero⟩ | ⟨hroster, -⟩
    · rw [hcount] at hzero
      exact absurd hzero Nat.one_ne_zero
    · exact hroster

def table (n : ℕ) (left : Finset PeerId) (p : PeerId) : Replica :=
  Replica.setLeaveSet
    (Setup.start { Setup.four p with
      peers := (List.range n).filter fun x => decide (x ≠ p)
      allPeers := List.range n
      knownPeers := (List.range n).filter fun x => decide (x ≠ p) })
    (left.erase p) ∅

def acknowledged (n : ℕ) (left : Finset PeerId) : ReconfigNet where
  node p := { table n left p with
    recs := { (table n left p).recs with
      pendingRecs := fun _ => (table n left p).config.nmajority - 1 } }
  flight := []

theorem acknowledged_fresh (n : ℕ) (left : Finset PeerId) {r : Recs} {v p : PeerId} (k : ℤ)
    (hr : r.nodeNumber = v) (hv : v < n) :
    ((acknowledged n left).node p).Fresh (Finset.range n \ left) r v p k := by
  constructor
  · constructor
    · intro x
      change x ∈ (((List.range n).filter fun y => decide (y ≠ p)).filter
        fun y => decide (y ∉ left.erase p)) ↔ _
      simp only [List.mem_filter, List.mem_range, decide_eq_true_iff, Finset.mem_sdiff,
        Finset.mem_range, Finset.mem_erase]
      tauto
    · rfl
    · exact List.nodup_range.filter _
    · rfl
    · constructor
      · exact fun h => of_decide_eq_true (List.mem_filter.mp h).2 rfl
      · exact fun h => of_decide_eq_true (List.mem_filter.mp h).2 rfl
    · intro hne
      have hmem : v ∈ (List.range n).filter fun x => decide (x ≠ p) :=
        List.mem_filter.mpr ⟨List.mem_range.mpr hv, decide_eq_true hne⟩
      exact ⟨hmem, hmem⟩
    · rw [hr]
      refine ⟨Int.natCast_nonneg v, ?_⟩
      exact List.getElem?_range hv
  · rfl
  · rfl
  · intro e he
    exact absurd he List.not_mem_nil

theorem acknowledged_announces {n : ℕ} {left : Finset PeerId} {r : Recs} {v : PeerId}
    (hr : r.nodeNumber = v) (hv : v < n) (hmode : r.reconfigMode = 0 ∨ r.reconfigMode = 1)
    (hsize : 4 ≤ (Finset.range n \ left).card) (hleader : 0 ∈ Finset.range n \ left)
    (hpos : 0 < (table n left 0).config.nmajority) :
    Announces (Finset.range n \ left) r v 0 1 (acknowledged n left) where
  size := hsize
  member := hleader
  mode := hmode
  fresh _ _ := acknowledged_fresh n left 1 hr hv
  flight := rfl
  proposer := rfl
  acks := Nat.succ_pred_eq_of_pos hpos
  count := rfl

instance (s : Replica) : DecidablePred s.Unrelated
  | .msgRecsAggEchoReady _ => inferInstanceAs (Decidable False)
  | .msgRecs _ => inferInstanceAs (Decidable (¬ (_ ∧ _)))
  | .addBlk _ | .deliverBlk _ | .receiveProposal .. | .propose .. | .receiveVote _
  | .receiveMcLocal .. | .relayMc .. | .remoteViewChangeTimeout _ | .receiveLComplain _
  | .receiveRComplain .. | .sendReconfigAck .. | .asyncQcFinish _
  | .waitDecision .. => inferInstanceAs (Decidable True)

instance (s : Replica) (msg : MsgRecsAggEchoReady) : Decidable (s.ReadyInTime msg) :=
  inferInstanceAs (Decidable (_ → _ → _ → _))

instance (net : ReconfigNet) : DecidablePred net.Fifo
  | .deliver i => inferInstanceAs (Decidable (∀ m ∈ net.flight[i]?, ∀ x ∈ net.flight.take i,
      ¬ (x.src = m.src ∧ x.dst = m.dst)))
  | .work p op => inferInstanceAs (Decidable ((net.node p).Unrelated op))

instance (net : ReconfigNet) : DecidablePred net.InTime
  | .deliver i => inferInstanceAs (Decidable (∀ m ∈ net.flight[i]?,
      (net.node m.dst).ReadyInTime m.msg))
  | .work _ _ => inferInstanceAs (Decidable True)

/-- Node 3 of four leaves; the messages are delivered in the order they are sent. -/
def inOrder : ReconfigNet := Runs.run (step .sample)
  ((acknowledged 4 ∅).announce 0 ⟨0, 3, 1⟩) (List.replicate 30 (.deliver 0))

theorem reconfiguration_totality_four : inOrder.flight = [] ∧ ∀ p ∈ Finset.range 4,
    (inOrder.node p).trace.count (.reconfigured ⟨0, 3, 1⟩ 1) = 1 := by
  have hreach : Runs.Reach (fun net a => Fifo net a ∧ InTime net a) (step .sample)
      ((acknowledged 4 ∅).announce 0 ⟨0, 3, 1⟩) inOrder :=
    Runs.reach_run _ .init (by decide +kernel)
  have hannounces : Announces (Finset.range 4 \ ∅) ⟨0, 3, 1⟩ 3 0 1 (acknowledged 4 ∅) :=
    acknowledged_announces rfl (by decide) (.inr rfl) (by decide) (by decide) (by decide)
  have hdone : inOrder.flight = [] := by decide +kernel
  refine ⟨hdone, ?_⟩
  intro p hp
  have hmem : p ∈ Finset.range 4 \ ∅ := by rwa [Finset.sdiff_empty]
  exact (reconfiguration_totality .sample _ _ 3 0 1 _ inOrder hannounces (.inl rfl) hreach
    hdone p (.inl hmem)).1

/-- Node 6 of seven leaves. What replica 0 sends to replica 1 comes last; replica 1 gets the
ECHO and READY messages of the replicas 2 to 5, and then those of replica 6. -/
def slowRun : List Input :=
  ([1, 1, 1, 1, 1, 2, 2, 2, 2, 2, 2, 3, 3, 3, 3, 3, 4, 4, 4, 4, 4, 5, 5, 5, 5, 5, 6, 6, 6, 6, 6,
    7, 7, 7, 7, 7, 8, 8, 8, 8, 8, 8, 9, 9, 9, 9, 10, 10, 10, 10, 10, 10, 10, 11, 11, 11, 11, 11,
    11, 12, 12, 12, 12, 12, 12, 13, 13, 13, 13, 13, 2, 2, 2, 2, 3, 5, 5, 5, 2, 4, 4, 4, 4, 4, 4,
    4, 2, 0, 2, 2, 2, 2, 2, 2, 0, 0] : List ℕ).map .deliver

def slowNet : ReconfigNet := Runs.run (step .sample)
  ((acknowledged 7 ∅).announce 0 ⟨0, 6, 1⟩) slowRun

/-- Node 4 comes back to the four others; the messages are delivered in the order they are
sent. -/
def returnNet : ReconfigNet := Runs.run (step .sample)
  ((acknowledged 5 {4}).announce 0 ⟨0, 4, 0⟩) (List.replicate 31 (.deliver 0))

/-- In the first run replica 1 never applies the reconfiguration; in the second every member
applies it twice. -/
theorem reconfiguration_missed_or_repeated :
    (Announces (Finset.range 7 \ ∅) ⟨0, 6, 1⟩ 6 0 1 (acknowledged 7 ∅) ∧
      Runs.Reach Fifo (step .sample) ((acknowledged 7 ∅).announce 0 ⟨0, 6, 1⟩) slowNet ∧
      slowNet.flight = [] ∧ (slowNet.node 1).trace.count (.reconfigured ⟨0, 6, 1⟩ 1) = 0 ∧
      (slowNet.node 1).recs.leaveSet = ∅ ∧ (slowNet.node 2).recs.leaveSet = {6}) ∧
    (Announces (Finset.range 5 \ {4}) ⟨0, 4, 0⟩ 4 0 1 (acknowledged 5 {4}) ∧
      Runs.Reach Fifo (step .sample) ((acknowledged 5 {4}).announce 0 ⟨0, 4, 0⟩) returnNet ∧
      returnNet.flight = [] ∧ ∀ p ∈ Finset.range 5 \ {4},
        (returnNet.node p).trace.count (.reconfigured ⟨0, 4, 0⟩ 1) = 2) := by
  refine ⟨⟨?_, ?_, ?_⟩, ?_, ?_, ?_⟩
  · exact acknowledged_announces rfl (by decide) (.inr rfl) (by decide) (by decide) (by decide)
  · exact Runs.reach_run _ .init (by decide +kernel)
  · decide +kernel
  · exact acknowledged_announces rfl (by decide) (.inl rfl) (by decide) (by decide) (by decide)
  · exact Runs.reach_run _ .init (by decide +kernel)
  · decide +kernel

end ReconfigNet

end AvaHotstuff
