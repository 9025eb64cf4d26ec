import AvaHotstuff.RecsView
import AvaHotstuff.Cluster
import AvaHotstuff.Runs

set_option autoImplicit false

/-!
# The broadcast of membership changes

The handler counts ECHO and READY messages for each `reconfig_count`, whoever
sends them and whatever they carry. Next to the counter of READY messages stands
the list of the messages it counts.
-/
namespace AvaHotstuff

def Event.Quiet : Event → Prop
  | .recsSent _ type _ _ => type ≠ myReady
  | .reconfigured _ _ => False
  | _ => True

/-- ECHO messages may be counted, and nothing is concluded from it. -/
def RecsView.Quiet (v w : RecsView) : Prop :=
  ∃ echo es, (∀ x, v.echo x ≤ echo x) ∧ (∀ e ∈ es, Event.Quiet e) ∧
    w = { v with echo := echo, log := v.log ++ es }

/-- What a call does to the counters: `rs` are the READY messages it counts under `k`,
its own among them. -/
inductive RecsView.Act (self src : ℕ) (k : ℤ) : RecsView → List (ℕ × Recs) → RecsView → Prop where
  | quiet {v w : RecsView} (h : v.Quiet w) : Act self src k v [] w
  | sendReady {v : RecsView} {echo : ℤ → ℕ} {r : Recs} {es : List Event} {rs : List (ℕ × Recs)}
      (hquorum : v.echo k + 1 = v.nmajority) (hecho : ∀ x, v.echo x ≤ echo x)
      (hk : v.nmajority ≤ echo k) (hes : ∀ e ∈ es, ∃ dsts, e = .recsSent r myReady k dsts)
      (hrs : ∀ x ∈ rs, x = (self, r) ∧ es ≠ []) (hlen : rs.length ≤ 1) :
      Act self src k v rs { v with
        echo := echo
        ready := Function.update v.ready k (v.ready k + rs.length)
        log := v.log ++ es }
  | count {v : RecsView} {r : Recs} : Act self src k v [(src, r)] { v with
      ready := Function.update v.ready k (v.ready k + 1) }
  | apply {v : RecsView} {r : Recs} {ro : Roster} {m : ℕ}
      (hquorum : v.ready k + 1 = v.nmajority) :
      Act self src k v [(src, r)] { v with
        roster := ro
        nmajority := m
        ready := Function.update v.ready k (v.ready k + 1)
        log := v.log ++ [.reconfigured r k] }

def Replica.readies (s : Replica) (self src : ℕ) (msg : MsgRecsAggEchoReady) : List (ℕ × Recs) :=
  if msg.type = myEcho then
    if s.recs.reconfigEchoCounter msg.reconfigCount + 1 = s.getRecsMajority ∧
        (s.readyTarget msg.recs).isOk then [(self, msg.recs)]
    else []
  else if msg.type = myReady then [(src, msg.recs)]
  else []

theorem le_update_succ (f : ℤ → ℕ) (k x : ℤ) : f x ≤ Function.update f k (f k + 1) x := by
  by_cases hx : x = k
  · rw [hx, Function.update_self]
    omega
  · rw [Function.update_of_ne hx]

theorem RecsView.Quiet.log {v w : RecsView} (h : v.Quiet w) {e : Event} (he : e ∈ v.log) :
    e ∈ w.log := by
  obtain ⟨echo, es, -, -, rfl⟩ := h
  exact List.mem_append_left _ he

theorem RecsView.Act.log {self src : ℕ} {k : ℤ} {v w : RecsView} {rs : List (ℕ × Recs)}
    (ha : Act self src k v rs w) {e : Event} (he : e ∈ v.log) : e ∈ w.log := by
  cases ha with
  | quiet h => exact h.log he
  | sendReady => exact List.mem_append_left _ he
  | count => exact he
  | apply => exact List.mem_append_left _ he

theorem RecsView.Quiet.echo {v : RecsView} {echo : ℤ → ℕ} (hecho : ∀ x, v.echo x ≤ echo x) :
    v.Quiet { v with echo := echo } := by
  refine ⟨echo, [], hecho, fun e he => absurd he List.not_mem_nil, ?_⟩
  rw [List.append_nil]

namespace Replica
variable (s : Replica) (self src : ℕ)

theorem countEcho_recsView (k : ℤ) : (s.countEcho k).recsView = { s.recsView with
    echo := Function.update s.recsView.echo k (s.recsView.echo k + 1) } := rfl

theorem countReady_recsView (k : ℤ) : (s.countReady k).recsView = { s.recsView with
    ready := Function.update s.recsView.ready k (s.recsView.ready k + 1) } := rfl

theorem multicastRecs_recsView (r : Recs) (type k : ℤ) :
    (s.multicastRecs r type k).recsView = { s.recsView with
      log := s.recsView.log ++ [.recsSent r type k s.recs.peersCurrent] } :=
  s.emit_recsView_log rfl

theorem onAgg_quiet (r : Recs) (k : ℤ) : s.recsView.Quiet (s.onAgg r k).recsView := by
  unfold onAgg
  rw [countEcho_recsView, multicastRecs_recsView]
  refine ⟨_, _, le_update_succ _ k, ?_, rfl⟩
  intro e he
  rw [List.mem_singleton.mp he]
  exact (by decide : myEcho ≠ myReady)

theorem msgRecs_quiet (r : Recs) : s.recsView.Quiet (s.msgRecsHandler r).recsView := by
  have hsame : s.recsView.Quiet s.recsView := .echo fun _ => Nat.le_refl _
  unfold msgRecsHandler
  split
  · simp only []
    split
    · exact hsame
    split
    · unfold startAgg
      simp only []
      rw [countEcho_recsView, multicastRecs_recsView, multicastRecs_recsView]
      simp only [List.append_assoc]
      refine ⟨_, _, le_update_succ _ _, ?_, rfl⟩
      intro e he
      rcases List.mem_append.mp he with he | he
      · rw [List.mem_singleton.mp he]
        exact (by decide : myAgg ≠ myReady)
      · rw [List.mem_singleton.mp he]
        exact (by decide : myEcho ≠ myReady)
    · exact hsame
  · exact hsame

theorem onEcho_act (r : Recs) (k : ℤ) :
    RecsView.Act self src k s.recsView (s.readies self src ⟨r, myEcho, k⟩)
      (s.onEcho r k).1.recsView := by
  have hself : (s.countEcho k).recs.reconfigEchoCounter k =
      s.recs.reconfigEchoCounter k + 1 := Function.update_self ..
  have hmaj : (s.countEcho k).getRecsMajority = s.getRecsMajority := rfl
  unfold onEcho readies
  simp only [hself, hmaj, if_true]
  by_cases hq : s.recs.reconfigEchoCounter k + 1 = s.getRecsMajority
  · rw [if_pos hq]
    have hpeer : ((s.countEcho k).multicastRecs r myReady k).readyTarget r = s.readyTarget r := rfl
    rw [hpeer]
    have hecho : ∀ x, s.recsView.echo x ≤
      Function.update s.recsView.echo k (s.recsView.echo k + 1) x := le_update_succ _ k
    have hk : s.recsView.nmajority ≤
        Function.update s.recsView.echo k (s.recsView.echo k + 1) k := by
      rw [Function.update_self]
      exact Nat.le_of_eq hq.symm
    cases hp : s.readyTarget r with
    | error e =>
      simp only [hq, Except.isOk, Except.toBool, Bool.false_eq_true, and_false, if_false]
      rw [multicastRecs_recsView, countEcho_recsView]
      have hact : RecsView.Act self src k s.recsView [] _ :=
        .sendReady (r := r) hq hecho hk
          (fun e he => ⟨s.recs.peersCurrent, List.mem_singleton.mp he⟩)
          (fun _ h => absurd h List.not_mem_nil) (Nat.zero_le 1)
      simp only [List.length_nil, Nat.add_zero, Function.update_eq_self] at hact
      exact hact
    | ok p =>
      simp only [hq, Except.isOk, Except.toBool, and_self, if_true]
      rw [countReady_recsView, emit_recsView_log _ rfl, multicastRecs_recsView,
        countEcho_recsView]
      simp only [List.append_assoc]
      refine .sendReady (r := r) hq hecho hk ?_ ?_ (Nat.le_refl 1)
      · intro e he
        rcases List.mem_append.mp he with he | he
        · exact ⟨_, List.mem_singleton.mp he⟩
        · exact ⟨_, List.mem_singleton.mp he⟩
      · intro x hx
        exact ⟨List.mem_singleton.mp hx, by simp⟩
  · rw [if_neg hq]
    simp only [hq, false_and, if_false]
    rw [countEcho_recsView]
    exact .quiet (.echo (le_update_succ _ k))

theorem onReady_act (r : Recs) (k : ℤ) :
    RecsView.Act self src k s.recsView [(src, r)] (s.onReady r k).1.recsView := by
  have hself : (s.countReady k).recs.reconfigReadyCounter k =
      s.recs.reconfigReadyCounter k + 1 := Function.update_self ..
  unfold onReady
  simp only [hself]
  split
  · rename_i hq
    split
    · exact .count
    · unfold reconfigure
      split
      · rw [emit_recsView_log _ rfl]
        exact .apply hq
      split
      · rw [emit_recsView_log _ rfl]
        exact .apply hq
      · exact .count
  · exact .count

theorem msgRecsAggEchoReady_act (msg : MsgRecsAggEchoReady) :
    RecsView.Act self src msg.reconfigCount s.recsView (s.readies self src msg)
      (s.msgRecsAggEchoReadyHandler msg).1.recsView ∧
    (msg.type ≠ myEcho → msg.type ≠ myReady →
      s.recsView.Quiet (s.msgRecsAggEchoReadyHandler msg).1.recsView) := by
  obtain ⟨r, type, k⟩ := msg
  have hsame : s.recsView.Quiet s.recsView := .echo fun _ => Nat.le_refl _
  unfold msgRecsAggEchoReadyHandler
  by_cases hagg : type = myAgg
  · subst type
    exact ⟨.quiet (s.onAgg_quiet r k), fun _ _ => s.onAgg_quiet r k⟩
  by_cases hecho : type = myEcho
  · subst type
    exact ⟨s.onEcho_act self src r k, fun h => absurd rfl h⟩
  by_cases hready : type = myReady
  · subst type
    exact ⟨s.onReady_act self src r k, fun _ h => absurd rfl h⟩
  · unfold readies
    simp only [hagg, hecho, hready, if_false]
    exact ⟨.quiet hsame, fun _ _ => hsame⟩

end Replica

/-- A replica's counters with the READY messages behind them. -/
structure Tally where
  view : RecsView
  counted : ℤ → List (ℕ × Recs)

/-- The counters count distinct local senders and one content, and a READY message is
sent once for each count. -/
structure Tally.Sound (n q : ℕ) (t : Tally) : Prop where
  length : ∀ k, t.view.ready k = (t.counted k).length
  senders : ∀ k, ((t.counted k).map Prod.fst).Nodup
  members : ∀ k, ∀ e ∈ t.counted k, e.1 < n
  content : ∀ k, ∀ e ∈ t.counted k, ∀ e' ∈ t.counted k, e.2 = e'.2
  sent : ∀ r k dsts, Event.recsSent r myReady k dsts ∈ t.view.log → q ≤ t.view.echo k
  once : ∀ r r' k dsts dsts', Event.recsSent r myReady k dsts ∈ t.view.log →
    Event.recsSent r' myReady k dsts' ∈ t.view.log → r = r'
  applied : ∀ r k, Event.reconfigured r k ∈ t.view.log →
    q ≤ (t.counted k).length ∧ ∀ e ∈ t.counted k, e.2 = r

/-- The messages counted under `k` carry what those counted before carry, and come from
other senders, all of them members. -/
def Tally.Separate (n : ℕ) (t : Tally) (k : ℤ) (rs : List (ℕ × Recs)) : Prop :=
  ∀ e ∈ rs, e.1 < n ∧ ∀ e' ∈ t.counted k, e'.1 ≠ e.1 ∧ e'.2 = e.2

def Tally.extend (t : Tally) (view : RecsView) (k : ℤ) (rs : List (ℕ × Recs)) : Tally :=
  ⟨view, Function.update t.counted k (t.counted k ++ rs)⟩

namespace Tally
variable {n q self src : ℕ} {k : ℤ} {t : Tally} {rs : List (ℕ × Recs)} {w : RecsView}

theorem Sound.quiet (S : Sound n q t) (h : t.view.Quiet w) : Sound n q ⟨w, t.counted⟩ := by
  obtain ⟨echo, es, hecho, hes, rfl⟩ := h
  have hsent : ∀ r k dsts, Event.recsSent r myReady k dsts ∈ t.view.log ++ es →
      Event.recsSent r myReady k dsts ∈ t.view.log := by
    intro r k dsts he
    rcases List.mem_append.mp he with he | he
    · exact he
    · exact absurd rfl (hes _ he)
  refine ⟨S.length, S.senders, S.members, S.content, ?_, ?_, ?_⟩
  · intro r k dsts he
    exact Nat.le_trans (S.sent r k dsts (hsent r k dsts he)) (hecho k)
  · intro r r' k dsts dsts' he he'
    exact S.once r r' k dsts dsts' (hsent r k dsts he) (hsent r' k dsts' he')
  · intro r k he
    rcases List.mem_append.mp he with he | he
    · exact S.applied r k he
    · exact (hes _ he).elim

theorem act_ready (ha : RecsView.Act self src k t.view rs w) : rs.length ≤ 1 ∧
    w.ready = Function.update t.view.ready k (t.view.ready k + rs.length) := by
  cases ha with
  | quiet h =>
    obtain ⟨echo, es, -, -, rfl⟩ := h
    exact ⟨Nat.zero_le 1, (Function.update_eq_self k _).symm⟩
  | sendReady _ _ _ _ _ hlen => exact ⟨hlen, rfl⟩
  | count => exact ⟨Nat.le_refl 1, rfl⟩
  | apply => exact ⟨Nat.le_refl 1, rfl⟩

theorem extend_self : (t.extend w k rs).counted k = t.counted k ++ rs :=
  Function.update_self ..

theorem extend_of_ne {x : ℤ} (hx : x ≠ k) : (t.extend w k rs).counted x = t.counted x :=
  Function.update_of_ne hx ..

theorem extend_nil : t.extend w k [] = ⟨w, t.counted⟩ := by
  unfold extend
  rw [List.append_nil, Function.update_eq_self]

theorem mem_extend {x : ℤ} {e : ℕ × Recs} : e ∈ (t.extend w k rs).counted x ↔
    e ∈ t.counted x ∨ x = k ∧ e ∈ rs := by
  by_cases hx : x = k
  · subst x
    rw [extend_self, List.mem_append]
    simp
  · rw [extend_of_ne hx]
    simp [hx]

theorem Separate.counted (S : Sound n q t) (hsep : t.Separate n k rs) (hlen : rs.length ≤ 1)
    (x : ℤ) : (((t.extend w k rs).counted x).map Prod.fst).Nodup ∧
      (∀ e ∈ (t.extend w k rs).counted x, e.1 < n) ∧
      ∀ e ∈ (t.extend w k rs).counted x, ∀ e' ∈ (t.extend w k rs).counted x, e.2 = e'.2 := by
  have hsingle : ∀ e ∈ rs, ∀ e' ∈ rs, e = e' := by
    intro e he e' he'
    match rs, hlen with
    | [a], _ => rw [List.mem_singleton.mp he, List.mem_singleton.mp he']
  refine ⟨?_, ?_, ?_⟩
  · by_cases hx : x = k
    · subst x
      rw [extend_self, List.map_append, List.nodup_append]
      refine ⟨S.senders k, ?_, ?_⟩
      · match rs, hlen with
        | [], _ => exact List.nodup_nil
        | [a], _ => exact List.nodup_singleton _
      · intro a ha b hb
        obtain ⟨e, he, rfl⟩ := List.mem_map.mp ha
        obtain ⟨e', he', rfl⟩ := List.mem_map.mp hb
        exact ((hsep e' he').2 e he).1
    · rw [extend_of_ne hx]
      exact S.senders x
  · intro e he
    rcases mem_extend.mp he with he | ⟨-, he⟩
    · exact S.members x e he
    · exact (hsep e he).1
  · intro e he e' he'
    rcases mem_extend.mp he with hold | ⟨rfl, hnew⟩
    · rcases mem_extend.mp he' with hold' | ⟨rfl, hnew'⟩
      · exact S.content x e hold e' hold'
      · exact ((hsep e' hnew').2 e hold).2
    · rcases mem_extend.mp he' with hold' | ⟨-, hnew'⟩
      · exact ((hsep e hnew).2 e' hold').2.symm
      · rw [hsingle e hnew e' hnew']

theorem Sound.applied_extend (S : Sound n q t) (h0 : 0 < q) (hsep : t.Separate n k rs)
    (hlen : rs.length ≤ 1) {r : Recs} {x : ℤ} (he : Event.reconfigured r x ∈ t.view.log) :
    q ≤ ((t.extend w k rs).counted x).length ∧
      ∀ e ∈ (t.extend w k rs).counted x, e.2 = r := by
  obtain ⟨hle, hall⟩ := S.applied r x he
  obtain ⟨e₀, he₀⟩ := List.exists_mem_of_length_pos (Nat.lt_of_lt_of_le h0 hle)
  constructor
  · by_cases hx : x = k
    · subst x
      rw [extend_self, List.length_append]
      omega
    · rw [extend_of_ne hx]
      exact hle
  · intro e he
    rw [(hsep.counted (w := w) S hlen x).2.2 e he e₀ (mem_extend.mpr (.inl he₀))]
    exact hall e₀ he₀

theorem Sound.act (S : Sound n q t) (h0 : 0 < q) (ha : RecsView.Act self src k t.view rs w)
    (hsep : t.Separate n k rs) (hq : t.view.nmajority = q) : Sound n q (t.extend w k rs) := by
  obtain ⟨hlen, hready⟩ := act_ready ha
  have hcounted := fun x => hsep.counted (w := w) S hlen x
  have hlength : ∀ x, w.ready x = ((t.extend w k rs).counted x).length := by
    intro x
    rw [hready]
    by_cases hx : x = k
    · subst x
      rw [Function.update_self, extend_self, List.length_append, S.length]
    · rw [Function.update_of_ne hx, extend_of_ne hx, S.length]
  have happlied := fun r x => S.applied_extend (w := w) h0 hsep hlen (r := r) (x := x)
  cases ha with
  | quiet h =>
    rw [extend_nil]
    exact S.quiet h
  | @sendReady echo r es _ hquorum hecho hk hes hrs _ =>
    refine ⟨hlength, fun x => (hcounted x).1, fun x => (hcounted x).2.1,
      fun x => (hcounted x).2.2, ?_, ?_, ?_⟩
    · intro r' x dsts he
      rcases List.mem_append.mp he with he | he
      · exact Nat.le_trans (S.sent r' x dsts he) (hecho x)
      · obtain ⟨dsts', heq⟩ := hes _ he
        obtain rfl : x = k := by injection heq
        rw [← hq]
        exact hk
    · -- An earlier READY message under `k` would put the ECHO counter past the quorum.
      have hfresh : ∀ r' dsts, Event.recsSent r' myReady k dsts ∉ t.view.log := by
        intro r' dsts he
        have := S.sent r' k dsts he
        omega
      intro r₁ r₂ x dsts dsts' he he'
      rcases List.mem_append.mp he with hold | hnew
      · rcases List.mem_append.mp he' with hold' | hnew'
        · exact S.once r₁ r₂ x dsts dsts' hold hold'
        · obtain ⟨_, heq⟩ := hes _ hnew'
          injection heq with _ _ hx
          subst hx
          exact absurd hold (hfresh r₁ dsts)
      · obtain ⟨_, heq⟩ := hes _ hnew
        injection heq with hr _ hx
        subst hx
        rcases List.mem_append.mp he' with hold' | hnew'
        · exact absurd hold' (hfresh r₂ dsts')
        · obtain ⟨_, heq'⟩ := hes _ hnew'
          injection heq' with hr'
          rw [hr, hr']
    · intro r' x he
      rcases List.mem_append.mp he with he | he
      · exact happlied r' x he
      · obtain ⟨_, heq⟩ := hes _ he
        exact absurd heq (by simp)
  | count =>
    exact ⟨hlength, fun x => (hcounted x).1, fun x => (hcounted x).2.1,
      fun x => (hcounted x).2.2, S.sent, S.once, fun r x => happlied r x⟩
  | @apply r ro m hquorum =>
    have hold : ∀ r' x dsts, Event.recsSent r' myReady x dsts ∈
        t.view.log ++ [Event.reconfigured r k] →
        Event.recsSent r' myReady x dsts ∈ t.view.log := by
      intro r' x dsts he
      rcases List.mem_append.mp he with he | he
      · exact he
      · exact absurd (List.mem_singleton.mp he) (by simp)
    refine ⟨hlength, fun x => (hcounted x).1, fun x => (hcounted x).2.1,
      fun x => (hcounted x).2.2, ?_, ?_, ?_⟩
    · intro r' x dsts he
      exact S.sent r' x dsts (hold r' x dsts he)
    · intro r₁ r₂ x dsts dsts' he he'
      exact S.once r₁ r₂ x dsts dsts' (hold r₁ x dsts he) (hold r₂ x dsts' he')
    · intro r' x he
      rcases List.mem_append.mp he with he | he
      · exact happlied r' x he
      · injection List.mem_singleton.mp he with hr hx
        subst hr hx
        refine ⟨?_, ?_⟩
        · rw [← hlength, hready, Function.update_self, List.length_singleton]
          omega
        · intro e he
          exact (hcounted x).2.2 e he (src, r') (mem_extend.mpr (.inr ⟨rfl, by simp⟩))

end Tally

/-- The replicas of a cluster with the READY messages that each has counted. -/
structure RecsNet (n : ℕ) where
  replica : Cluster n
  counted : Fin n → ℤ → List (ℕ × Recs)

/-- A message arrives together with the identity of its sender, or a replica makes
another call. -/
inductive RecsInput (n : ℕ) where
  | message (i : Fin n) (src : ℕ) (msg : MsgRecsAggEchoReady)
  | call (i : Fin n) (op : Op)

def Op.isAggEchoReady : Op → Bool
  | .msgRecsAggEchoReady _ => true
  | _ => false

def Event.sends : Event → Option MsgRecsAggEchoReady
  | .recsSent r type count _ => some ⟨r, type, count⟩
  | _ => none

def Replica.Sent (s : Replica) (msg : MsgRecsAggEchoReady) : Prop :=
  ∃ e ∈ s.trace, e.sends = some msg

namespace RecsNet
variable {n : ℕ}

def start (c : Fin n → Setup) : RecsNet n := ⟨Cluster.start c, fun _ _ => []⟩

def tally (net : RecsNet n) (i : Fin n) : Tally := ⟨(net.replica i).recsView, net.counted i⟩

def step (C : Crypto) (net : RecsNet n) : RecsInput n → RecsNet n
  | .message i src msg =>
    ⟨Cluster.step C net.replica (i, .msgRecsAggEchoReady msg),
      Function.update net.counted i (Function.update (net.counted i) msg.reconfigCount
        (net.counted i msg.reconfigCount ++ (net.replica i).readies i src msg))⟩
  | .call i op => ⟨Cluster.step C net.replica (i, op), net.counted⟩

/-- An honest replica is the sender only of what it has sent. -/
def Possible (byz : Finset (Fin n)) (net : RecsNet n) : RecsInput n → Prop
  | .message i src msg => i ∉ byz ∧ ∀ j : Fin n, src = j → j ∉ byz → (net.replica j).Sent msg
  | .call i op => i ∉ byz ∧ op.isAggEchoReady = false

/-- The messages counted together differ in their senders, who are members, and agree in
what they carry, and the quorum is that of all the members. -/
def Separate (net : RecsNet n) : RecsInput n → Prop
  | .message i src msg =>
    (msg.type = myEcho ∨ msg.type = myReady →
      (net.replica i).getRecsMajority = Quorum.majority n) ∧
    (net.tally i).Separate n msg.reconfigCount ((net.replica i).readies i src msg)
  | .call _ _ => True

end RecsNet

theorem Replica.sent_iff {s : Replica} {r : Recs} {type k : ℤ} : s.Sent ⟨r, type, k⟩ ↔
    ∃ dsts, Event.recsSent r type k dsts ∈ s.recsView.log := by
  constructor
  · rintro ⟨e, he, hs⟩
    cases e with
    | recsSent r' type' k' dsts =>
      injection hs with heq
      injection heq with h1 h2 h3
      subst h1 h2 h3
      exact ⟨dsts, List.mem_filter.mpr ⟨he, rfl⟩⟩
    | _ => exact absurd hs (by simp [Event.sends])
  · rintro ⟨dsts, he⟩
    exact ⟨_, (List.mem_filter.mp he).1, rfl⟩

theorem exists_senders {n : ℕ} {es : List (ℕ × Recs)} (hnodup : (es.map Prod.fst).Nodup)
    (hmem : ∀ e ∈ es, e.1 < n) :
    ∃ Q : Finset (Fin n), Q.card = es.length ∧ ∀ j ∈ Q, ∃ e ∈ es, e.1 = j := by
  refine ⟨Finset.univ.filter fun j : Fin n => (j : ℕ) ∈ es.map Prod.fst, ?_, ?_⟩
  · have himage : (Finset.univ.filter fun j : Fin n => (j : ℕ) ∈ es.map Prod.fst).map
        Fin.valEmbedding = (es.map Prod.fst).toFinset := by
      ext x
      simp only [Finset.mem_map, Finset.mem_filter, Finset.mem_univ, true_and,
        List.mem_toFinset, Fin.valEmbedding_apply]
      constructor
      · rintro ⟨j, hj, rfl⟩
        exact hj
      · intro hx
        obtain ⟨e, he, rfl⟩ := List.mem_map.mp hx
        exact ⟨⟨e.1, hmem e he⟩, hx, rfl⟩
    rw [← Finset.card_map Fin.valEmbedding, himage, List.toFinset_card_of_nodup hnodup,
      List.length_map]
  · intro j hj
    obtain ⟨e, he, heq⟩ := List.mem_map.mp (Finset.mem_filter.mp hj).2
    exact ⟨e, he, heq⟩

namespace Replica
variable {s : Replica}

theorem exec_quiet (C : Crypto) {op : Op} (hop : op.isAggEchoReady = false) :
    s.recsView.Quiet (s.exec C op).1.recsView := by
  cases op with
  | msgRecs r => exact s.msgRecs_quiet r
  | msgRecsAggEchoReady msg => exact absurd hop (by simp [Op.isAggEchoReady])
  | _ =>
    rw [s.exec_recsView C rfl]
    exact .echo fun _ => Nat.le_refl _

theorem Sent.exec {C : Crypto} {op : Op} {msg : MsgRecsAggEchoReady} (hs : s.Sent msg) :
    (s.exec C op).1.Sent msg := by
  obtain ⟨dsts, he⟩ := sent_iff.mp hs
  refine sent_iff.mpr ⟨dsts, ?_⟩
  cases hop : op.isAggEchoReady with
  | false => exact (exec_quiet C hop).log he
  | true =>
    cases op with
    | msgRecsAggEchoReady m => exact (s.msgRecsAggEchoReady_act 0 0 m).1.log he
    | _ => exact absurd hop (by simp [Op.isAggEchoReady])

theorem readies_sent {self src : ℕ} {msg : MsgRecsAggEchoReady} {e : ℕ × Recs}
    (he : e ∈ s.readies self src msg) :
    e = (src, msg.recs) ∧ msg.type = myReady ∨
      e.1 = self ∧
        (s.msgRecsAggEchoReadyHandler msg).1.Sent ⟨e.2, myReady, msg.reconfigCount⟩ := by
  obtain ⟨r, type, k⟩ := msg
  unfold readies at he
  split at he
  · rename_i hecho
    obtain rfl : type = myEcho := hecho
    split at he
    · rename_i hq
      rw [List.mem_singleton.mp he]
      refine .inr ⟨rfl, ?_⟩
      obtain ⟨p, hp⟩ : ∃ p, s.readyTarget r = .ok p := by
        have hok := hq.2
        cases ht : s.readyTarget r with
        | error e =>
          rw [ht] at hok
          cases hok
        | ok p => exact ⟨p, rfl⟩
      have hpeer : ((s.countEcho k).multicastRecs r myReady k).readyTarget r = .ok p := hp
      have hecho : (s.countEcho k).recs.reconfigEchoCounter k =
        s.recs.reconfigEchoCounter k + 1 := Function.update_self ..
      have hmaj : (s.countEcho k).getRecsMajority = s.getRecsMajority := rfl
      refine ⟨.recsSent r myReady k [p], ?_, rfl⟩
      change _ ∈ (s.onEcho r k).1.trace
      unfold onEcho
      simp only [hecho, hmaj]
      rw [if_pos hq.1, hpeer]
      exact List.mem_append_right _ (List.mem_singleton_self _)
    · exact absurd he List.not_mem_nil
  · split at he
    · exact .inl ⟨List.mem_singleton.mp he, by assumption⟩
    · exact absurd he List.not_mem_nil

end Replica

namespace RecsNet
variable {n : ℕ}

structure Sound (byz : Finset (Fin n)) (net : RecsNet n) : Prop where
  tally : ∀ i, i ∉ byz → (net.tally i).Sound n (Quorum.majority n)
  backed : ∀ i, i ∉ byz → ∀ k, ∀ e ∈ net.counted i k, ∀ j : Fin n, e.1 = j → j ∉ byz →
    (net.replica j).Sent ⟨e.2, myReady, k⟩

section
variable {C : Crypto} {byz : Finset (Fin n)} {net : RecsNet n}

theorem sent_step {i j : Fin n} {op : Op} {msg : MsgRecsAggEchoReady}
    (hs : (net.replica j).Sent msg) :
    (Cluster.step C net.replica (i, op) j).Sent msg := by
  by_cases hj : j = i
  · subst j
    rw [show Cluster.step C net.replica (i, op) i = _ from Function.update_self ..]
    exact hs.exec
  · rw [show Cluster.step C net.replica (i, op) j = _ from Function.update_of_ne hj ..]
    exact hs

theorem tally_call (i : Fin n) (op : Op) : (step C net (.call i op)).tally i =
    ⟨((net.replica i).exec C op).1.recsView, net.counted i⟩ := by
  unfold tally
  rw [show (step C net (.call i op)).replica i = _ from Function.update_self ..]
  rfl

theorem tally_call_of_ne {i j : Fin n} (hj : j ≠ i) (op : Op) :
    (step C net (.call i op)).tally j = net.tally j := by
  unfold tally
  rw [show (step C net (.call i op)).replica j = _ from Function.update_of_ne hj ..]
  rfl

theorem tally_message (i : Fin n) (src : ℕ) (msg : MsgRecsAggEchoReady) :
    (step C net (.message i src msg)).tally i =
      (net.tally i).extend ((net.replica i).msgRecsAggEchoReadyHandler msg).1.recsView
        msg.reconfigCount ((net.replica i).readies i src msg) := by
  unfold tally Tally.extend
  rw [show (step C net (.message i src msg)).replica i = _ from Function.update_self ..,
    show (step C net (.message i src msg)).counted i = _ from Function.update_self ..]
  rfl

theorem tally_message_of_ne {i j : Fin n} (hj : j ≠ i) (src : ℕ) (msg : MsgRecsAggEchoReady) :
    (step C net (.message i src msg)).tally j = net.tally j := by
  unfold tally
  rw [show (step C net (.message i src msg)).replica j = _ from Function.update_of_ne hj ..,
    show (step C net (.message i src msg)).counted j = _ from Function.update_of_ne hj ..]

theorem Sound.call (S : Sound byz net) {i : Fin n} {op : Op}
    (hop : op.isAggEchoReady = false) : Sound byz (step C net (.call i op)) := by
  refine ⟨?_, fun i hi k e he j hej hj => sent_step (S.backed i hi k e he j hej hj)⟩
  intro j hj
  by_cases hji : j = i
  · subst j
    rw [tally_call]
    exact (S.tally i hj).quiet (Replica.exec_quiet C hop)
  · rw [tally_call_of_ne hji]
    exact S.tally j hj

theorem Sound.message (S : Sound byz net) {i : Fin n} {src : ℕ} {msg : MsgRecsAggEchoReady}
    (hp : Possible byz net (.message i src msg)) (hsep : Separate net (.message i src msg)) :
    Sound byz (step C net (.message i src msg)) := by
  obtain ⟨hi, hsent⟩ := hp
  obtain ⟨hquorum, hsep⟩ := hsep
  obtain ⟨hact, hquiet⟩ := (net.replica i).msgRecsAggEchoReady_act i src msg
  constructor
  · intro j hj
    by_cases hji : j = i
    · subst j
      rw [tally_message]
      by_cases htype : msg.type = myEcho ∨ msg.type = myReady
      · refine (S.tally i hi).act ?_ hact hsep (hquorum htype)
        have := Quorum.maxFaulty_lt_majority (Fin.pos i)
        omega
      · push Not at htype
        have hnone : (net.replica i).readies i src msg = [] := by
          unfold Replica.readies
          rw [if_neg htype.1, if_neg htype.2]
        rw [hnone, Tally.extend_nil]
        exact (S.tally i hi).quiet (hquiet htype.1 htype.2)
    · rw [tally_message_of_ne hji]
      exact S.tally j hj
  · intro j hj k e he m hm hmb
    by_cases hji : j = i
    · subst j
      have hmem : e ∈ ((step C net (.message i src msg)).tally i).counted k := he
      rw [tally_message] at hmem
      rcases Tally.mem_extend.mp hmem with hold | ⟨rfl, hnew⟩
      · exact sent_step (S.backed i hi k e hold m hm hmb)
      · rcases Replica.readies_sent hnew with ⟨rfl, htype⟩ | ⟨hself, hown⟩
        · have hmsg := hsent m hm hmb
          obtain ⟨r, type, k⟩ := msg
          obtain rfl : type = myReady := htype
          exact sent_step hmsg
        · obtain rfl : m = i := Fin.ext (hm.symm.trans hself)
          rw [show (step C net (.message m src msg)).replica m = _ from Function.update_self ..]
          exact hown
    · have hmem : e ∈ ((step C net (.message i src msg)).tally j).counted k := he
      rw [tally_message_of_ne hji] at hmem
      exact sent_step (S.backed j hj k e hmem m hm hmb)

theorem start_sound (byz : Finset (Fin n)) (c : Fin n → Setup) : Sound byz (start c) := by
  refine ⟨?_, fun _ _ _ e he => absurd he List.not_mem_nil⟩
  intro i _
  have hlog : ((start c).tally i).view.log = [] := rfl
  refine ⟨fun _ => rfl, fun _ => List.nodup_nil, fun _ e he => absurd he List.not_mem_nil,
    fun _ e he => absurd he List.not_mem_nil, ?_, ?_, ?_⟩
  · intro r k dsts he
    rw [hlog] at he
    exact absurd he List.not_mem_nil
  · intro r r' k dsts dsts' he
    rw [hlog] at he
    exact absurd he List.not_mem_nil
  · intro r k he
    rw [hlog] at he
    exact absurd he List.not_mem_nil

theorem Sound.quorum (S : Sound byz net) {i : Fin n} (hi : i ∉ byz) {r : Recs} {k : ℤ}
    (he : Event.reconfigured r k ∈ (net.replica i).trace) :
    ∃ Q : Finset (Fin n), Quorum.majority n ≤ Q.card ∧ ∀ j ∈ Q,
      ((j : ℕ), r) ∈ net.counted i k ∧
        (j ∉ byz → (net.replica j).Sent ⟨r, myReady, k⟩) := by
  have T := S.tally i hi
  obtain ⟨hlen, hall⟩ := T.applied r k (List.mem_filter.mpr ⟨he, rfl⟩)
  obtain ⟨Q, hQ, hsrc⟩ := exists_senders (T.senders k) (T.members k)
  refine ⟨Q, by omega, ?_⟩
  intro j hj
  obtain ⟨⟨src, r'⟩, hmem, hsrc⟩ := hsrc j hj
  obtain rfl : src = j := hsrc
  obtain rfl : r' = r := hall _ hmem
  exact ⟨hmem, S.backed i hi k _ hmem j rfl⟩

theorem Sound.sent_once (S : Sound byz net) {i : Fin n} (hi : i ∉ byz) {r r' : Recs} {k : ℤ}
    (h : (net.replica i).Sent ⟨r, myReady, k⟩) (h' : (net.replica i).Sent ⟨r', myReady, k⟩) :
    r = r' := by
  obtain ⟨dsts, he⟩ := Replica.sent_iff.mp h
  obtain ⟨dsts', he'⟩ := Replica.sent_iff.mp h'
  exact (S.tally i hi).once r r' k dsts dsts' he he'

/-- When the READY messages counted together come from different members and carry one
value, the replicas that apply a change under one count apply the same, and a quorum
stands behind it. -/
theorem reconfiguration_agreement (C : Crypto) (byz : Finset (Fin n))
    (hbyz : byz.card ≤ Quorum.maxFaulty n) (c : Fin n → Setup) (net : RecsNet n)
    (h : Runs.Reach (fun net a => Possible byz net a ∧ Separate net a) (step C) (start c) net) :
    (∀ i j, i ∉ byz → j ∉ byz → ∀ r r' k,
      Event.reconfigured r k ∈ (net.replica i).trace →
      Event.reconfigured r' k ∈ (net.replica j).trace → r = r') ∧
    ∀ i, i ∉ byz → ∀ r k, Event.reconfigured r k ∈ (net.replica i).trace →
      ∃ Q : Finset (Fin n), Quorum.majority n ≤ Q.card ∧ ∀ j ∈ Q,
        ((j : ℕ), r) ∈ net.counted i k ∧
          (j ∉ byz → (net.replica j).Sent ⟨r, myReady, k⟩) := by
  have S : Sound byz net := by
    refine h.invariant (Sound byz) (start_sound byz c) ?_
    rintro net a S ⟨hp, hsep⟩
    cases a with
    | message i src msg => exact S.message hp hsep
    | call i op => exact S.call hp.2
  refine ⟨?_, fun i hi r k he => S.quorum hi he⟩
  intro i j hi hj r r' k he he'
  obtain ⟨P, hP, hPs⟩ := S.quorum hi he
  obtain ⟨Q, hQ, hQs⟩ := S.quorum hj he'
  have hover : Fintype.card (Fin n) + byz.card < 2 * Quorum.majority n := by
    rw [Fintype.card_fin]
    exact Quorum.majority_overlap (Fin.pos i) hbyz
  obtain ⟨m, hmP, hmQ, hm⟩ := Quorum.exists_honest_inter byz P Q hover hP hQ
  exact S.sent_once hm ((hPs m hmP).2 hm) ((hQs m hmQ).2 hm)

end

instance (byz : Finset (Fin n)) (net : RecsNet n) : DecidablePred (Possible byz net)
  | .message _ _ msg =>
    have (j : Fin n) : Decidable ((net.replica j).Sent msg) :=
      inferInstanceAs (Decidable (∃ e ∈ (net.replica j).trace, e.sends = some msg))
    inferInstanceAs (Decidable (_ ∧ _))
  | .call _ _ => inferInstanceAs (Decidable (_ ∧ _))

instance (net : RecsNet n) : DecidablePred (Separate net)
  | .message i _ msg =>
    have (rs : List (ℕ × Recs)) : Decidable ((net.tally i).Separate n msg.reconfigCount rs) :=
      inferInstanceAs (Decidable (∀ e ∈ rs, _))
    inferInstanceAs (Decidable (_ ∧ _))
  | .call _ _ => inferInstanceAs (Decidable True)

def linked (i : Fin 4) : Setup :=
  { Setup.four i with
    peers := [0, 1, 2, 3].filter fun p => decide (p ≠ (i : ℕ))
    allPeers := [0, 1, 2, 3]
    knownPeers := [0, 1, 2, 3].filter fun p => decide (p ≠ (i : ℕ)) }

def leave : Recs := ⟨0, 3, 1⟩

/-- The leader collects three requests, and the three messages go around among the
replicas 0, 1 and 2. -/
def leaveRun : List (RecsInput 4) :=
  [.call 0 (.msgRecs leave), .call 0 (.msgRecs leave), .call 0 (.msgRecs leave),
    .message 1 0 ⟨leave, myAgg, 1⟩, .message 2 0 ⟨leave, myAgg, 1⟩,
    .message 1 0 ⟨leave, myEcho, 1⟩, .message 2 0 ⟨leave, myEcho, 1⟩,
    .message 0 1 ⟨leave, myEcho, 1⟩, .message 2 1 ⟨leave, myEcho, 1⟩,
    .message 0 2 ⟨leave, myEcho, 1⟩, .message 1 2 ⟨leave, myEcho, 1⟩,
    .message 1 0 ⟨leave, myReady, 1⟩, .message 2 0 ⟨leave, myReady, 1⟩,
    .message 0 1 ⟨leave, myReady, 1⟩, .message 2 1 ⟨leave, myReady, 1⟩,
    .message 0 2 ⟨leave, myReady, 1⟩, .message 1 2 ⟨leave, myReady, 1⟩]

def leaveNet : RecsNet 4 := Runs.run (step .sample) (start linked) leaveRun

theorem reconfiguration_agreement_leave :
    ((leaveNet.replica 0).recs.leaveSet = {3} ∧ (leaveNet.replica 1).recs.leaveSet = {3}) ∧
      ∃ Q : Finset (Fin 4), 3 ≤ Q.card ∧ ∀ j ∈ Q,
        ((j : ℕ), leave) ∈ leaveNet.counted 0 1 ∧
          (j ∉ ({3} : Finset (Fin 4)) → (leaveNet.replica j).Sent ⟨leave, myReady, 1⟩) := by
  have hreach : Runs.Reach (fun net a => Possible {3} net a ∧ Separate net a) (step .sample)
      (start linked) leaveNet := Runs.reach_run leaveRun .init (by decide +kernel)
  refine ⟨by decide +kernel, ?_⟩
  exact (reconfiguration_agreement .sample {3} (by decide) linked leaveNet hreach).2 0 (by decide)
    leave 1 (by decide +kernel)

/-- Replica 3 repeats a READY message to replica 1, and another one to replica 2. -/
def forgedRun : List (RecsInput 4) :=
  [.message 1 3 ⟨⟨0, 0, 1⟩, myReady, 1⟩, .message 1 3 ⟨⟨0, 0, 1⟩, myReady, 1⟩,
    .message 1 3 ⟨⟨0, 0, 1⟩, myReady, 1⟩, .message 2 3 ⟨⟨0, 1, 1⟩, myReady, 1⟩,
    .message 2 3 ⟨⟨0, 1, 1⟩, myReady, 1⟩, .message 2 3 ⟨⟨0, 1, 1⟩, myReady, 1⟩]

def forgedNet : RecsNet 4 := Runs.run (step .sample) (start linked) forgedRun

/-- Two honest replicas apply different changes under the count 1, and no honest replica
has sent a READY message for either. -/
theorem reconfiguration_forged :
    Runs.Reach (Possible {3}) (step .sample) (start linked) forgedNet ∧
      Event.reconfigured ⟨0, 0, 1⟩ 1 ∈ (forgedNet.replica 1).trace ∧
      Event.reconfigured ⟨0, 1, 1⟩ 1 ∈ (forgedNet.replica 2).trace ∧
      ((forgedNet.replica 1).recs.leaveSet = {0} ∧ (forgedNet.replica 2).recs.leaveSet = {1}) ∧
      ∀ j : Fin 4, (forgedNet.replica j).trace.filterMap Event.sends = [] :=
  ⟨Runs.reach_run forgedRun .init (by decide +kernel), by decide +kernel⟩

end RecsNet

end AvaHotstuff
