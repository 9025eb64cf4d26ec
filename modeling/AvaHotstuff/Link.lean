import AvaHotstuff.Connection

set_option autoImplicit false

/-!
# Two ends of a connection

The runs of one end against any peer, and of two ends that talk to each other: what an end has
handed over, what it still owes its peer, and when it stops to listen.
-/
namespace AvaHotstuff
open Runs MsgReader

/-- One end, the bytes that wait for it in the kernel, and the bytes that came, were written and
were sent. -/
structure Endpoint where
  conn : Conn
  wire : List UInt8
  arrived : List UInt8
  written : List UInt8
  sent : List UInt8

inductive EndEvent where
  | arrive (data : List UInt8)
  | run (e : ConnEvent)

namespace Endpoint

def start : Endpoint := ⟨.start, [], [], [], []⟩

def step (H : Sha1) (N : NetConfig) (p : Endpoint) : EndEvent → Endpoint
  | .arrive data => { p with wire := p.wire ++ data, arrived := p.arrived ++ data }
  | .run e =>
    let r := Conn.handle H N p.conn p.wire e
    { p with
      conn := r.1, wire := r.2.1, written := p.written ++ e.written, sent := p.sent ++ r.2.2 }

variable {H : Sha1} {N : NetConfig} {p : Endpoint}

def Listens (H : Sha1) (N : NetConfig) (p : Endpoint) : Prop :=
  p.conn.AsleepWhilePolling ∧ (Overruns N.maxMsgSize p.arrived ∨
    ∃ received, p.arrived = received ++ p.wire ∧ p.conn.Hears H N received)

theorem step_listens (h : p.Listens H N) (e : EndEvent) : (p.step H N e).Listens H N := by
  obtain ⟨hpoll, h⟩ := h
  cases e with
  | arrive data =>
    refine ⟨hpoll, ?_⟩
    rcases h with hover | ⟨received, hcut, hhears⟩
    · exact .inl (hover.append data)
    · refine .inr ⟨received, ?_, hhears⟩
      change p.arrived ++ data = received ++ (p.wire ++ data)
      rw [hcut, List.append_assoc]
  | run e =>
    refine ⟨Conn.handle_asleepWhilePolling hpoll e, ?_⟩
    rcases h with hover | ⟨received, hcut, hhears⟩
    · exact .inl hover
    · obtain ⟨data, hwire, hnext⟩ := Conn.handle_hears (w := p.wire) hhears hpoll e
      have hcut' : p.arrived = received ++ data ++ (Conn.handle H N p.conn p.wire e).2.1 := by
        rw [hcut, List.append_assoc, ← hwire]
      rcases hnext with hnext | hover
      · exact .inr ⟨received ++ data, hcut', hnext⟩
      · refine .inl ?_
        change Overruns N.maxMsgSize p.arrived
        rw [hcut']
        exact hover.append _

theorem start_listens : start.Listens H N := ⟨nofun, .inr ⟨[], rfl, .start⟩⟩

theorem run_listens (h : p.Listens H N) (es : List EndEvent) :
    (run (step H N) p es).Listens H N := by
  induction es generalizing p with
  | nil => exact h
  | cons e es ih => exact ih (step_listens h e)

/-- What an end hands over of the bytes of any peer, however they are cut and whatever runs in
between: the messages with a right checksum, in order, each once. What stays unread is not a
message, unless the end sleeps, is parked or fails, or dropped a message. -/
theorem hands_over_valid_messages (es : List EndEvent) :
    let p := run (step H N) start es
    Overruns N.maxMsgSize p.arrived ∨ p.conn.crashed = false ∧
      ∃ fs : List MsgBase, (∀ m ∈ fs, m.Fits N.maxMsgSize) ∧
        p.arrived = fs.flatMap MsgBase.serialize ++ (p.conn.reader.unread ++ p.wire) ∧
        fs.filter (MsgBase.verifyChecksum H) =
          p.conn.reader.incoming ++ p.conn.heldMsg.toList ∧
        (p.conn.msgSleep = false → p.conn.readyRecv = false → p.conn.failing = false →
          (∀ m ∈ fs, m.verifyChecksum H = true) →
          ∀ (m : MsgBase) (rest : List UInt8), m.Framed →
            p.conn.reader.unread ≠ m.serialize ++ rest) := by
  intro p
  rcases (run_listens start_listens es).2 with hover | ⟨received, hcut, hhears⟩
  · exact .inl hover
  · obtain ⟨fs, hfits, hbytes, hvalid⟩ := hhears.reads.framed
    refine .inr ⟨hhears.alive, fs, hfits, ?_, hvalid, ?_⟩
    · rw [← List.append_assoc, ← hbytes]
      exact hcut
    · intro hsleep hready hfail hgood m rest hm
      rcases hhears.awake hsleep with h | h | h | h
      · exact absurd (h.symm.trans hready) (by decide)
      · exact absurd (h.symm.trans hfail) (by decide)
      · exact h.incomplete hhears.reads.sound hm rest
      · obtain ⟨x, hx, hbad⟩ := h.mem hfits hbytes
        exact absurd ((hgood x hx).symm.trans hbad) (by decide)

/-! ### What is written is sent -/

/-- What the end owes its peer is in the queue, and the queue does not wait for nothing. -/
structure Owes (p : Endpoint) : Prop where
  wakes : p.conn.Wakes
  written : p.written = p.sent ++ p.conn.sendBuffer.flatten

theorem step_owes (h : p.Owes) {e : EndEvent} (he : e ≠ .run (.write [])) :
    (p.step H N e).Owes := by
  cases e with
  | arrive data => exact ⟨h.wakes, h.written⟩
  | run e =>
    have hwrite : e ≠ .write [] := fun h => he (congrArg _ h)
    refine ⟨Conn.handle_wakes h.wakes hwrite, ?_⟩
    change p.written ++ e.written = _ ++ (Conn.handle H N p.conn p.wire e).2.2 ++ _
    rw [h.written, List.append_assoc, Conn.handle_sends (H := H) (N := N) (w := p.wire)
      h.wakes e, List.append_assoc]
    rfl

theorem run_owes (h : p.Owes) {es : List EndEvent} (hes : ∀ e ∈ es, e ≠ .run (.write [])) :
    (run (step H N) p es).Owes := by
  induction es generalizing p with
  | nil => exact h
  | cons e es ih =>
    exact ih (step_owes h (hes e List.mem_cons_self)) fun x hx => hes x (List.mem_cons_of_mem _ hx)

def sending : ConnEvent → Bool
  | .signal | .reset | .drain _ | .writable _ => true
  | _ => false

structure Live (c : Conn) : Prop where
  failing : c.failing = false
  terminated : c.terminated = false
  crashed : c.crashed = false

theorem Live.idle {c : Conn} (h : Live c) (hreset : c.resetting = false) : c.idle = true := by
  unfold Conn.idle
  rw [hreset, h.terminated, h.crashed]
  rfl

theorem flush_resetting (h : p.Owes) (hreset : p.conn.resetting = true)
    (hready : p.conn.readySend = true) : ∃ es : List ConnEvent, (∀ e ∈ es, sending e = true) ∧
      (run (step H N) p (es.map .run)).conn.sendBuffer = [] :=
  ⟨[.drain (Conn.takesAll p.conn.sendBuffer)], by simp [sending],
    Conn.drain_takesAll h.wakes.whole rfl hreset hready⟩

theorem flush_cons {e : ConnEvent} (he : sending e = true)
    (h : ∃ es : List ConnEvent, (∀ e ∈ es, sending e = true) ∧
      (run (step H N) (p.step H N (.run e)) (es.map .run)).conn.sendBuffer = []) :
    ∃ es : List ConnEvent, (∀ e ∈ es, sending e = true) ∧
      (run (step H N) p (es.map .run)).conn.sendBuffer = [] := by
  obtain ⟨es, hes, hnil⟩ := h
  exact ⟨e :: es, List.forall_mem_cons.mpr ⟨he, hes⟩, hnil⟩

theorem flush_notified (h : p.Owes) (hlive : Live p.conn) (hnot : p.conn.notified = true)
    (hready : p.conn.readySend = true) : ∃ es : List ConnEvent, (∀ e ∈ es, sending e = true) ∧
      (run (step H N) p (es.map .run)).conn.sendBuffer = [] := by
  cases hreset : p.conn.resetting with
  | true => exact flush_resetting h hreset hready
  | false =>
    have hidle := hlive.idle hreset
    have hon : Conn.handle H N p.conn p.wire .reset =
        ({ p.conn with notified := false, resetting := true }, p.wire, []) := by
      unfold Conn.handle
      simp only [hidle, hnot, Bool.and_self, if_true]
    refine flush_cons (e := .reset) rfl (flush_resetting (step_owes h nofun) ?_ ?_)
    · change (Conn.handle H N p.conn p.wire .reset).1.resetting = true
      rw [hon]
    · change (Conn.handle H N p.conn p.wire .reset).1.readySend = true
      rw [hon]
      exact hready

/-- Whatever ran before, a few callbacks send the whole queue once the kernel takes it. -/
theorem exists_flush (h : p.Owes) (hlive : Live p.conn) :
    ∃ es : List ConnEvent, (∀ e ∈ es, sending e = true) ∧
      (run (step H N) p (es.map .run)).conn.sendBuffer = [] := by
  by_cases hnil : p.conn.sendBuffer = []
  · exact ⟨[], nofun, hnil⟩
  have hwhole := h.wakes.whole
  cases hready : p.conn.readySend with
  | false =>
    have hwrite := h.wakes.write hlive.failing
    rw [hready] at hwrite
    have hflush : ∀ q : Endpoint, q.conn.sendBuffer = p.conn.sendBuffer →
        q.conn.idle = true → q.conn.evWrite = true →
        ∃ es : List ConnEvent, (∀ e ∈ es, sending e = true) ∧
          (run (step H N) q (es.map .run)).conn.sendBuffer = [] := fun q hq hidle hev =>
      ⟨[.writable (Conn.takesAll p.conn.sendBuffer)], by simp [sending],
        Conn.writable_takesAll hwhole hq hidle hev⟩
    cases hreset : p.conn.resetting with
    | false => exact hflush p rfl (hlive.idle hreset) hwrite
    | true =>
      have hon : Conn.handle H N p.conn p.wire (.drain []) =
          ({ p.conn with resetting := false, waitSig := true }, p.wire, []) := by
        unfold Conn.handle
        simp only [hreset, hready, if_true]
        rfl
      refine flush_cons (e := .drain []) rfl (hflush _ ?_ ?_ ?_)
      · change (Conn.handle H N p.conn p.wire (.drain [])).1.sendBuffer = _
        rw [hon]
      · change (Conn.handle H N p.conn p.wire (.drain [])).1.idle = true
        rw [hon]
        exact Live.idle ⟨hlive.failing, hlive.terminated, hlive.crashed⟩ rfl
      · change (Conn.handle H N p.conn p.wire (.drain [])).1.evWrite = true
        rw [hon]
        exact hwrite
  | true =>
    rcases h.wakes.pending hlive.failing hready hnil with hnot | hreset | hmore
    · exact flush_notified h hlive hnot hready
    · exact flush_resetting h hreset hready
    · cases hsig : p.conn.waitSig with
      | false =>
        rcases h.wakes.signal hsig with hnot | hreset
        · exact flush_notified h hlive hnot hready
        · exact flush_resetting h hreset hready
      | true =>
        have hon : (Conn.handle H N p.conn p.wire .signal).1 = { p.conn with
            unsignalled := p.conn.unsignalled - 1, waitSig := false, notified := true } := by
          unfold Conn.handle
          simp only [hsig, Bool.or_true, if_neg (Nat.ne_of_gt hmore)]
        have hconn : (p.step H N (.run .signal)).conn = { p.conn with
            unsignalled := p.conn.unsignalled - 1, waitSig := false, notified := true } := hon
        refine flush_cons (e := .signal) rfl (flush_notified (step_owes h nofun) ?_ ?_ ?_)
        · rw [hconn]
          exact ⟨hlive.failing, hlive.terminated, hlive.crashed⟩
        · rw [hconn]
        · rw [hconn]
          exact hready

theorem written_sending {es : List ConnEvent} (hes : ∀ e ∈ es, sending e = true) :
    (run (step H N) p (es.map .run)).written = p.written := by
  induction es generalizing p with
  | nil => rfl
  | cons e es ih =>
    have hnone : e.written = [] := by
      have he := hes e List.mem_cons_self
      cases e <;> first | rfl | cases he
    have hstep : (p.step H N (.run e)).written = p.written := by
      change p.written ++ e.written = _
      rw [hnone, List.append_nil]
    rw [← hstep]
    exact ih fun x hx => hes x (List.mem_cons_of_mem _ hx)

/-- No byte is lost, sent twice or out of order, and no wakeup is lost: while the connection
lives, some callbacks of its worker send all that is written. -/
theorem sends_what_is_written (es : List EndEvent) (hes : ∀ e ∈ es, e ≠ .run (.write [])) :
    let p := run (step H N) start es
    p.written = p.sent ++ p.conn.sendBuffer.flatten ∧
      (Live p.conn → ∃ more : List ConnEvent, (∀ e ∈ more, sending e = true) ∧
        (run (step H N) p (more.map .run)).sent = p.written) := by
  intro p
  have hstart : start.Owes := ⟨.start, rfl⟩
  have h : p.Owes := run_owes hstart hes
  refine ⟨h.written, fun hlive => ?_⟩
  obtain ⟨more, hmore, hnil⟩ := exists_flush (H := H) (N := N) h hlive
  have howes : (run (step H N) p (more.map .run)).Owes := by
    refine run_owes h fun e he heq => ?_
    obtain ⟨x, hx, rfl⟩ := List.mem_map.mp he
    rw [EndEvent.run.inj heq] at hx
    exact absurd (hmore _ hx) (by decide)
  refine ⟨more, hmore, ?_⟩
  rw [← written_sending (H := H) (N := N) hmore, howes.written, hnil]
  exact (List.append_nil _).symm

def emptySha1 : Sha1 where
  digest := fun _ => [0xda, 0x39, 0xa3, 0xee, 0x5e, 0x6b, 0x4b, 0x0d, 0x32, 0x55,
    0xbf, 0xef, 0x95, 0x60, 0x18, 0x90, 0xaf, 0xd8, 0x07, 0x09]
  size := fun _ => rfl

theorem sends_what_is_written_three : ∃ more : List ConnEvent, (∀ e ∈ more, sending e = true) ∧
    (run (step emptySha1 ⟨1024, 4096, 4096⟩)
      (run (step emptySha1 ⟨1024, 4096, 4096⟩) start
        [.run (.write [1, 2, 3]), .run (.writable [.sent 2])])
      (more.map .run)).sent = [1, 2, 3] :=
  (sends_what_is_written (H := emptySha1) (N := ⟨1024, 4096, 4096⟩)
    [.run (.write [1, 2, 3]), .run (.writable [.sent 2])] (by simp)).2 ⟨rfl, rfl, rfl⟩

end Endpoint

/-! ### A full receive buffer -/

structure Floods (N : NetConfig) (k : ℕ) (rets : List RecvRet) (w : List UInt8) : Prop where
  bytes : k * N.recvChunkSize ≤ w.length
  calls : k ≤ rets.length
  full : ∀ ret ∈ rets.take k, ∃ n, ret = .got n ∧ N.recvChunkSize ≤ n

namespace Conn

variable {H : Sha1} {N : NetConfig} {c : Conn} {w : List UInt8} {r : MsgReader}

theorem floods_cons {k : ℕ} {ret : RecvRet} {rets : List RecvRet} :
    Floods N (k + 1) (ret :: rets) w ↔ (∃ n, ret = .got n ∧ N.recvChunkSize ≤ n) ∧
      N.recvChunkSize ≤ w.length ∧ Floods N k rets (w.drop N.recvChunkSize) := by
  constructor
  · intro h
    have hbytes := h.bytes
    have hcalls := h.calls
    rw [Nat.succ_mul] at hbytes
    rw [List.length_cons] at hcalls
    refine ⟨h.full ret (by simp), by omega, ?_, by omega, fun x hx => h.full x (by simp [hx])⟩
    rw [List.length_drop]
    omega
  · rintro ⟨hfirst, hlen, h⟩
    have hbytes := h.bytes
    rw [List.length_drop] at hbytes
    refine ⟨?_, ?_, ?_⟩
    · rw [Nat.succ_mul]
      omega
    · rw [List.length_cons]
      exact Nat.succ_le_succ h.calls
    · intro x hx
      rcases List.mem_cons.mp hx with rfl | hx
      · exact hfirst
      · exact h.full x hx

/-- The loop of `_recv_data` stops for a full buffer only when every chunk up to there was full. -/
theorem recvLoop_parked_iff (hchunk : 0 < N.recvChunkSize) (rets : List RecvRet) :
    (recvLoop N rets r w).2.2 = .parked ↔
      Floods N (N.maxRecvBuffSize - r.recvBuffer.len) rets w := by
  induction rets generalizing r w with
  | nil =>
    unfold recvLoop
    split
    · rename_i hfull
      rw [Nat.sub_eq_zero_of_le hfull]
      exact ⟨fun _ => ⟨by simp, Nat.le_refl _, by simp⟩, fun _ => rfl⟩
    · rename_i hfree
      refine ⟨fun h => (by cases h), fun h => ?_⟩
      have hcalls := h.calls
      rw [List.length_nil] at hcalls
      omega
  | cons ret rets ih =>
    unfold recvLoop
    split
    · rename_i hfull
      rw [Nat.sub_eq_zero_of_le hfull]
      exact ⟨fun _ => ⟨by simp, Nat.zero_le _, by simp⟩, fun _ => rfl⟩
    rename_i hfree
    obtain ⟨k, hk⟩ : ∃ k, N.maxRecvBuffSize - r.recvBuffer.len = k + 1 :=
      ⟨N.maxRecvBuffSize - r.recvBuffer.len - 1, by omega⟩
    rw [hk, floods_cons]
    cases ret with
    | wouldBlock =>
      refine ⟨fun h => (by cases h), ?_⟩
      rintro ⟨⟨n, hn, -⟩, -⟩
      cases hn
    | gone =>
      refine ⟨fun h => (by cases h), ?_⟩
      rintro ⟨⟨n, hn, -⟩, -⟩
      cases hn
    | got n =>
      have hlen : (w.take (min n N.recvChunkSize)).length =
          min (min n N.recvChunkSize) w.length := List.length_take
      simp only []
      rw [if_neg (Nat.ne_of_gt hchunk)]
      by_cases hfull : N.recvChunkSize ≤ n ∧ N.recvChunkSize ≤ w.length
      · have hall : (w.take (min n N.recvChunkSize)).length = N.recvChunkSize := by omega
        have hnext : (r.push (w.take (min n N.recvChunkSize))).recvBuffer.len =
            r.recvBuffer.len + 1 := List.length_append
        rw [if_neg (by omega), if_pos hall, ih, hnext, hall,
          show N.maxRecvBuffSize - (r.recvBuffer.len + 1) = k by omega]
        exact ⟨fun h => ⟨⟨n, rfl, hfull.1⟩, hfull.2, h⟩, fun h => h.2.2⟩
      · have hshort : ¬(w.take (min n N.recvChunkSize)).length = N.recvChunkSize := by omega
        refine ⟨fun h => ?_, fun h => ?_⟩
        · rw [if_neg hshort] at h
          split at h <;> cases h
        · obtain ⟨⟨x, hx, hn⟩, hw, -⟩ := h
          rw [← RecvRet.got.inj hx] at hn
          exact absurd ⟨hn, hw⟩ hfull

/-- `ready_recv` is set and nothing will call `on_read`. -/
structure Deaf (c : Conn) : Prop where
  readyRecv : c.readyRecv = true
  msgSleep : c.msgSleep = false
  polling : c.polling = false
  evRead : c.evRead = false

theorem Deaf.flushed {q : Conn × List UInt8} (hready : c.readyRecv = true)
    (hsleep : c.msgSleep = false) (hpolling : c.polling = false) (hread : c.evRead = false)
    (hq : Flushed c q) : q.1.Deaf ∧ q.1.reader = c.reader := by
  cases hq with
  | drained out q hs => exact ⟨⟨hready, hsleep, hpolling, by simp [hready]⟩, rfl⟩
  | blocked out q hs => exact ⟨⟨hready, hsleep, hpolling, hread⟩, rfl⟩
  | failed out q hs => exact ⟨⟨hready, hsleep, hpolling, hread⟩, rfl⟩

theorem handle_deaf (h : c.Deaf) (e : ConnEvent) :
    ((handle H N c w e).1.Deaf ∧ (handle H N c w e).1.reader = c.reader) ∧
      (handle H N c w e).2.1 = w := by
  have hoff : ∀ b : Bool, (b && false) = false := Bool.and_false
  unfold handle
  cases e with
  | write data => exact ⟨⟨⟨h.readyRecv, h.msgSleep, h.polling, h.evRead⟩, rfl⟩, rfl⟩
  | signal =>
    simp only []
    split
    · exact ⟨⟨h, rfl⟩, rfl⟩
    · exact ⟨⟨⟨h.readyRecv, h.msgSleep, h.polling, h.evRead⟩, rfl⟩, rfl⟩
  | reset =>
    simp only []
    split
    · exact ⟨⟨⟨h.readyRecv, h.msgSleep, h.polling, h.evRead⟩, rfl⟩, rfl⟩
    · exact ⟨⟨h, rfl⟩, rfl⟩
  | drain rets =>
    simp only []
    split
    · split
      · exact ⟨Deaf.flushed (c := { c with
          resetting := false, waitSig := true, evRead := !c.readyRecv, evWrite := true })
          h.readyRecv h.msgSleep h.polling (by simp [h.readyRecv]) (sendData_flushed _ rets), rfl⟩
      · exact ⟨⟨⟨h.readyRecv, h.msgSleep, h.polling, h.evRead⟩, rfl⟩, rfl⟩
    · exact ⟨⟨h, rfl⟩, rfl⟩
  | writable rets =>
    simp only []
    split
    · exact ⟨Deaf.flushed h.readyRecv h.msgSleep h.polling h.evRead (sendData_flushed c rets),
        rfl⟩
    · exact ⟨⟨h, rfl⟩, rfl⟩
  | readable rets room =>
    simp only [h.evRead, Bool.and_false]
    exact ⟨⟨h, rfl⟩, rfl⟩
  | poll room rets room' =>
    simp only [h.polling, Bool.and_false]
    exact ⟨⟨h, rfl⟩, rfl⟩
  | error =>
    simp only []
    split
    · exact ⟨⟨⟨h.readyRecv, h.msgSleep, h.polling, h.evRead⟩, rfl⟩, rfl⟩
    · exact ⟨⟨h, rfl⟩, rfl⟩
  | teardown =>
    simp only []
    split
    · exact ⟨⟨⟨h.readyRecv, h.msgSleep, rfl, rfl⟩, rfl⟩, rfl⟩
    · exact ⟨⟨h, rfl⟩, rfl⟩

theorem readMsgs_readyRecv (room : ℕ) :
    (c.readMsgs H N room).1.readyRecv = c.readyRecv := by
  unfold readMsgs
  split
  · rfl
  · split <;> rfl

/-- A read callback turns the connection deaf when the kernel fills the buffer, and only then. -/
theorem readable_deaf_iff (hchunk : 0 < N.recvChunkSize) (hidle : c.idle = true)
    (hread : c.evRead = true) (hready : c.readyRecv = false) (hsleep : c.msgSleep = false)
    (hpolling : c.polling = false) (rets : List RecvRet) (room : ℕ) :
    (handle H N c w (.readable rets room)).1.Deaf ↔
      Floods N (N.maxRecvBuffSize - c.reader.recvBuffer.len) rets w := by
  rw [← recvLoop_parked_iff hchunk]
  unfold handle
  simp only [hidle, hread, Bool.and_self, if_true]
  unfold recvData
  generalize recvLoop N rets c.reader w = q
  obtain ⟨r, w', e⟩ := q
  cases e with
  | parked => exact ⟨fun _ => rfl, fun _ => ⟨rfl, hsleep, hpolling, rfl⟩⟩
  | gone => exact ⟨fun h => absurd (hready.symm.trans h.readyRecv) (by decide), nofun⟩
  | done =>
    have hsame := readMsgs_readyRecv (H := H) (N := N)
      (c := { c with reader := r, readyRecv := false }) room
    simp only []
    generalize readMsgs H N room _ = q at hsame
    obtain ⟨c', thrown⟩ := q
    have hoff : c'.readyRecv = false := hsame
    refine ⟨fun h => ?_, nofun⟩
    cases thrown <;> exact absurd (hoff.symm.trans h.readyRecv) (by decide)

end Conn

namespace Endpoint

variable {H : Sha1} {N : NetConfig} {p : Endpoint}

theorem run_deaf (h : p.conn.Deaf) (es : List EndEvent) :
    (run (step H N) p es).conn.Deaf ∧
      (run (step H N) p es).conn.reader = p.conn.reader ∧
      ∃ late, (run (step H N) p es).arrived = p.arrived ++ late ∧
        (run (step H N) p es).wire = p.wire ++ late := by
  induction es generalizing p with
  | nil => exact ⟨h, rfl, [], (List.append_nil _).symm, (List.append_nil _).symm⟩
  | cons e es ih =>
    cases e with
    | arrive data =>
      obtain ⟨hdeaf, hreader, late, harrived, hwire⟩ := ih (p := p.step H N (.arrive data)) h
      refine ⟨hdeaf, hreader, data ++ late, ?_, ?_⟩
      · rw [← List.append_assoc]
        exact harrived
      · rw [← List.append_assoc]
        exact hwire
    | run e =>
      obtain ⟨⟨hnext, hsame⟩, hkept⟩ := Conn.handle_deaf (H := H) (N := N) (w := p.wire) h e
      obtain ⟨hdeaf, hreader, late, harrived, hwire⟩ := ih (p := p.step H N (.run e)) hnext
      refine ⟨hdeaf, hreader.trans hsame, late, harrived, hwire.trans ?_⟩
      change (Conn.handle H N p.conn p.wire e).2.1 ++ late = _
      rw [hkept]

/-- A read callback of an awake reader that finds its buffer full does not look at what is in it,
and nothing later does. It happens when the kernel fills every chunk that the buffer has left, and
only then. -/
theorem deaf_once_flooded (hchunk : 0 < N.recvChunkSize) (es : List EndEvent)
    (hes : ∀ e ∈ es, e ≠ .run (.write [])) (rets : List RecvRet) (room : ℕ) :
    let p := run (step H N) start es
    Live p.conn → p.conn.idle = true → p.conn.evRead = true → p.conn.msgSleep = false →
      let q := p.step H N (.run (.readable rets room))
      (q.conn.Deaf ↔
        Floods N (N.maxRecvBuffSize - p.conn.reader.recvBuffer.len) rets p.wire) ∧
      (q.conn.Deaf → ∀ more : List EndEvent,
        (run (step H N) q more).conn.reader = q.conn.reader ∧
        ∃ late, (run (step H N) q more).arrived = q.arrived ++ late ∧
          (run (step H N) q more).wire = q.wire ++ late) := by
  intro p hlive hidle hread hsleep q
  have howes : p.Owes := run_owes ⟨.start, rfl⟩ hes
  have hready : p.conn.readyRecv = false := by
    have h := howes.wakes.read hlive.failing
    rw [hread] at h
    simpa using h.symm
  have hpolling : p.conn.polling = false := by
    have hasleep := (run_listens (H := H) (N := N) start_listens es).1
    apply Bool.eq_false_of_not_eq_true
    intro h
    exact absurd ((hasleep h).symm.trans hsleep) (by decide)
  refine ⟨Conn.readable_deaf_iff hchunk hidle hread hready hsleep hpolling rets room, ?_⟩
  intro hdeaf more
  exact (run_deaf hdeaf more).2

theorem deaf_once_flooded_two : (run (step emptySha1 ⟨1024, 1, 2⟩) start
    [.arrive [0, 0], .run (.readable [.got 1, .got 1] 1)]).conn.Deaf := by
  refine (deaf_once_flooded (H := emptySha1) (N := ⟨1024, 1, 2⟩) (by decide)
    [.arrive [0, 0]] (by simp) [.got 1, .got 1] 1 ⟨rfl, rfl, rfl⟩ rfl rfl rfl).1.mpr ?_
  refine ⟨by decide, by decide, fun ret hret => ⟨1, ?_, Nat.le_refl _⟩⟩
  change ret ∈ [RecvRet.got 1, RecvRet.got 1] at hret
  simpa using hret

end Endpoint

/-- Two ends, the bytes on the way to each, and the messages that each has sent. -/
structure Link where
  conn : Bool → Conn
  wire : Bool → List UInt8
  posted : Bool → List MsgBase

inductive LinkEvent where
  | post (b : Bool) (opcode : UInt8) (serialized : List UInt8)
  | turn (b : Bool) (e : ConnEvent)

namespace Link

def start : Link := ⟨fun _ => .start, fun _ => [], fun _ => []⟩

def turn (H : Sha1) (N : NetConfig) (l : Link) (b : Bool) (e : ConnEvent) : Link :=
  let r := Conn.handle H N (l.conn b) (l.wire b) e
  { l with
    conn := Function.update l.conn b r.1
    wire := Function.update (Function.update l.wire b r.2.1) (!b) (l.wire (!b) ++ r.2.2) }

/-- `send_msg` writes the message `MsgBase(msg, msg_magic)`. -/
def step (H : Sha1) (N : NetConfig) (magic : UInt32) (l : Link) : LinkEvent → Link
  | .post b opcode serialized =>
    let m := MsgBase.ofMsg H magic.toNat opcode serialized
    { l.turn H N b (.write m.serialize) with
      posted := Function.update l.posted b (l.posted b ++ [m]) }
  | .turn b e => l.turn H N b e

/-- Both ends write messages only, of a length that the other end takes. -/
def Sane (N : NetConfig) : Link → LinkEvent → Prop
  | _, .post _ _ serialized => serialized.length ≤ N.maxMsgSize ∧ serialized.length < 2 ^ 32
  | _, .turn _ e => ∀ data, e ≠ .write data

variable {H : Sha1} {N : NetConfig} {magic : UInt32} {l : Link}

/-- The bytes of the messages for the end `b` are those it has received, those on the way, and
those in the queue of the other end. -/
structure Carries (H : Sha1) (N : NetConfig) (l : Link) (b : Bool) : Prop where
  valid : ∀ m ∈ l.posted b, m.Fits N.maxMsgSize ∧ m.verifyChecksum H = true
  wakes : (l.conn b).Wakes
  asleep : (l.conn b).AsleepWhilePolling
  bytes : ∃ received, (l.posted (!b)).flatMap MsgBase.serialize =
    received ++ (l.wire b ++ (l.conn (!b)).sendBuffer.flatten) ∧ (l.conn b).Hears H N received

theorem turn_carries (h : ∀ b, l.Carries H N b) {b : Bool} {e : ConnEvent} (ms : List MsgBase)
    (hms : ∀ m ∈ ms, m.Fits N.maxMsgSize ∧ m.verifyChecksum H = true)
    (hwritten : e.written = ms.flatMap MsgBase.serialize) (he : e ≠ .write []) (b' : Bool) :
    ({ l.turn H N b e with
      posted := Function.update l.posted b (l.posted b ++ ms) } : Link).Carries H N b' := by
  have hsends := Conn.handle_sends (H := H) (N := N) (w := l.wire b) (h b).wakes e
  obtain ⟨received, hcut, hhears⟩ := (h b).bytes
  obtain ⟨data, hwire, hnext⟩ := Conn.handle_hears (w := l.wire b) hhears (h b).asleep e
  have hwakes := Conn.handle_wakes (H := H) (N := N) (w := l.wire b) (h b).wakes he
  have hasleep := Conn.handle_asleepWhilePolling (H := H) (N := N) (w := l.wire b) (h b).asleep e
  unfold turn
  generalize Conn.handle H N (l.conn b) (l.wire b) e = q at hsends hwire hnext hwakes hasleep
  obtain ⟨c, w, out⟩ := q
  by_cases hb : b' = b
  · subst hb
    have hother : (!b') ≠ b' := Bool.not_ne_self b'
    refine ⟨?_, ?_, ?_, received ++ data, ?_, ?_⟩
    · simp only [Function.update_self]
      exact List.forall_mem_append.mpr ⟨(h b').valid, hms⟩
    · simp only [Function.update_self]
      exact hwakes
    · simp only [Function.update_self]
      exact hasleep
    · simp only [Function.update_of_ne hother, Function.update_of_ne hother.symm,
        Function.update_self]
      rw [hcut, hwire]
      simp only [List.append_assoc]
    · simp only [Function.update_self]
      refine hnext.resolve_right ?_
      refine not_overruns (w ++ (l.conn (!b')).sendBuffer.flatten)
        (fun m hm => ((h (!b')).valid m hm).1) ?_
      rw [hcut, hwire]
      simp only [List.append_assoc]
  · obtain rfl : b = !b' := by
      cases b <;> cases b' <;> first | rfl | exact absurd rfl hb
    obtain ⟨received', hcut', hhears'⟩ := (h b').bytes
    refine ⟨?_, ?_, ?_, received', ?_, ?_⟩
    · simp only [Function.update_of_ne hb]
      exact (h b').valid
    · simp only [Function.update_of_ne hb]
      exact (h b').wakes
    · simp only [Function.update_of_ne hb]
      exact (h b').asleep
    · simp only [Bool.not_not, Function.update_self]
      rw [List.flatMap_append, hcut', ← hwritten]
      simp only [List.append_assoc]
      rw [hsends]
    · simp only [Function.update_of_ne hb]
      exact hhears'

theorem start_carries (b : Bool) : start.Carries H N b :=
  ⟨nofun, .start, nofun, [], rfl, .start⟩

theorem step_carries (h : ∀ b, l.Carries H N b) {e : LinkEvent} (he : Sane N l e) (b : Bool) :
    (l.step H N magic e).Carries H N b := by
  cases e with
  | post s opcode serialized =>
    have hm := MsgBase.framed_ofMsg H opcode magic.toNat_lt he.2
    refine turn_carries h [.ofMsg H magic.toNat opcode serialized] ?_ ?_ ?_ b
    · intro m hmem
      rw [List.mem_singleton.mp hmem]
      exact ⟨⟨hm.1, he.1⟩, hm.2⟩
    · exact (List.append_nil _).symm
    · exact fun h => MsgBase.serialize_ne_nil _ (ConnEvent.write.inj h)
  | turn s e =>
    have hnone : e.written = [] := by
      cases e with
      | write data => exact absurd rfl (he data)
      | _ => rfl
    have hturn := turn_carries h (b := s) [] nofun hnone (he []) b
    rwa [List.append_nil, Function.update_eq_self] at hturn

/-- The messages handed over at one end are those sent at the other, in order, each once, and
neither end crashes. All of them are handed over when nothing is queued or on its way, unless the
receiver sleeps, is parked or fails. -/
theorem delivers_in_order (h : Reach (Sane N) (step H N magic) start l) (b : Bool) :
    (l.conn b).crashed = false ∧
      (l.conn b).reader.incoming ++ (l.conn b).heldMsg.toList <+: l.posted (!b) ∧
      (l.wire b = [] → (l.conn (!b)).sendBuffer = [] → (l.conn b).msgSleep = false →
        (l.conn b).readyRecv = false → (l.conn b).failing = false →
        (l.conn b).reader.incoming = l.posted (!b)) := by
  have hcarries : ∀ b, l.Carries H N b :=
    h.invariant (fun l => ∀ b, l.Carries H N b) start_carries
      fun l e hl he => step_carries hl he
  obtain ⟨received, hcut, hhears⟩ := (hcarries b).bytes
  obtain ⟨fs, hfits, hbytes, hvalid⟩ := hhears.reads.framed
  have hposted := (hcarries (!b)).valid
  have hpre : fs <+: l.posted (!b) := by
    refine MsgBase.serialize_delimits.prefix (fun m _ => m.serialize_ne_nil)
      (fun m hm => (hfits m hm).toFramed) (fun m hm => (hposted m hm).1.toFramed)
      (r := (l.conn b).reader.unread ++ (l.wire b ++ (l.conn (!b)).sendBuffer.flatten)) ?_
    rw [hcut, hbytes, List.append_assoc]
  have hgood : ∀ m ∈ fs, m.verifyChecksum H = true := fun m hm =>
    (hposted m (hpre.subset hm)).2
  rw [List.filter_eq_self.mpr hgood] at hvalid
  refine ⟨hhears.alive, hvalid ▸ hpre, fun hwire hqueue hsleep hready hfail => ?_⟩
  have hstarved : (l.conn b).reader.Starved := by
    rcases hhears.awake hsleep with h | h | h | h
    · exact absurd (h.symm.trans hready) (by decide)
    · exact absurd (h.symm.trans hfail) (by decide)
    · exact h
    · obtain ⟨m, hm, hbad⟩ := h.mem hfits hbytes
      exact absurd ((hgood m hm).symm.trans hbad) (by decide)
  have hnone : (l.conn b).heldMsg = none := if_neg (by rw [hsleep]; decide)
  rw [hnone, Option.toList_none, List.append_nil] at hvalid
  obtain ⟨gs, hgs⟩ := hpre
  rw [hwire, hqueue, List.flatten_nil, List.append_nil, List.append_nil, hbytes, ← hgs,
    List.flatMap_append] at hcut
  have hunread := List.append_cancel_left hcut
  cases gs with
  | nil => rw [← hvalid, ← hgs, List.append_nil]
  | cons g gs =>
    have hg : g.Framed := (hposted g (hgs ▸ by simp)).1.toFramed
    exact absurd hunread.symm (hstarved.incomplete hhears.reads.sound hg _)

def oneMessage : List LinkEvent :=
  [.post false 0 [], .turn false (.writable [.sent 13]), .turn true (.readable [.got 13] 1)]

theorem delivers_in_order_one :
    ((run (step Endpoint.emptySha1 ⟨1024, 4096, 4096⟩ 0) start oneMessage).conn
      true).reader.incoming = [.ofMsg Endpoint.emptySha1 0 0 []] := by
  have hreach : Reach (Sane ⟨1024, 4096, 4096⟩) (step Endpoint.emptySha1 ⟨1024, 4096, 4096⟩ 0)
      start (run (step Endpoint.emptySha1 ⟨1024, 4096, 4096⟩ 0) start oneMessage) :=
    reach_run oneMessage .init ⟨⟨by decide, by decide⟩, nofun, nofun, trivial⟩
  exact (delivers_in_order hreach true).2.2 rfl rfl rfl rfl rfl

end Link

end AvaHotstuff
