import AvaHotstuff.Framing
import AvaHotstuff.Runs

set_option autoImplicit false

/-!
# A connection and its events

`ConnPool::Conn` with `_send_data`, `_recv_data`, `on_read` and the queue of written messages.
The worker of the connection runs one callback at a time; the threads that write to it and
notify it run in between. What the system calls return is part of the input.
-/
namespace AvaHotstuff

structure NetConfig where
  maxMsgSize : ℕ
  recvChunkSize : ℕ
  maxRecvBuffSize : ℕ

/-- What `send` returns: a number of bytes, `EWOULDBLOCK` or another error. -/
inductive SendRet where
  | sent (n : ℕ)
  | wouldBlock
  | failed

/-- What `recv` returns: a number of bytes, `EWOULDBLOCK`, or an error or the end of the stream. -/
inductive RecvRet where
  | got (n : ℕ)
  | wouldBlock
  | gone

structure Conn where
  reader : MsgReader
  /-- A message waits for room in `incoming_msgs`. -/
  msgSleep : Bool
  /-- `ev_enqueue_poll` is set. -/
  polling : Bool
  sendBuffer : List (List UInt8)
  readySend : Bool
  readyRecv : Bool
  evRead : Bool
  evWrite : Bool
  waitSig : Bool
  /-- `nfd` is readable. -/
  notified : Bool
  /-- The handler of the queue is between `nfd.reset()` and its exchange of `wait_sig`. -/
  resetting : Bool
  /-- The writers between their enqueueing and their exchange of `wait_sig`. -/
  unsignalled : ℕ
  failing : Bool
  terminated : Bool
  /-- An exception left a callback that does not catch it. -/
  crashed : Bool

inductive ConnEvent where
  | write (data : List UInt8)
  | signal
  | reset
  | drain (rets : List SendRet)
  | writable (rets : List SendRet)
  | readable (rets : List RecvRet) (room : ℕ)
  | poll (room : ℕ) (rets : List RecvRet) (room' : ℕ)
  | error
  | teardown

def ConnEvent.written : ConnEvent → List UInt8
  | .write data => data
  | _ => []

namespace Conn

/-- The connection once `update_conn` waits for its events. -/
def start : Conn where
  reader := .start
  msgSleep := false
  polling := false
  sendBuffer := []
  readySend := false
  readyRecv := false
  evRead := true
  evWrite := true
  waitSig := true
  notified := false
  resetting := false
  unsignalled := 0
  failing := false
  terminated := false
  crashed := false

inductive SendEnd where
  | drained
  | blocked
  | failed
deriving DecidableEq

/-- The loop of `_send_data`: the bytes it sends and the segments that are left. An empty segment
ends it as an empty queue does. -/
def sendLoop : List (List UInt8) → List SendRet → List UInt8 × List (List UInt8) × SendEnd
  | [], _ => ([], [], .drained)
  | [] :: q, _ => ([], q, .drained)
  | (x :: seg) :: q, [] => ([], (x :: seg) :: q, .blocked)
  | (x :: seg) :: q, .wouldBlock :: _ => ([], (x :: seg) :: q, .blocked)
  | (x :: seg) :: q, .failed :: _ => ([], (x :: seg) :: q, .failed)
  | (x :: seg) :: q, .sent n :: rets =>
    if (x :: seg).length ≤ n then
      let r := sendLoop q rets
      (x :: seg ++ r.1, r.2)
    else ((x :: seg).take n, (x :: seg).drop n :: q, .blocked)

def sendData (rets : List SendRet) (c : Conn) : Conn × List UInt8 :=
  match sendLoop c.sendBuffer rets with
  | (out, q, .drained) => ({ c with
      sendBuffer := q, evRead := !c.readyRecv, evWrite := false, readySend := true }, out)
  | (out, q, .blocked) => ({ c with sendBuffer := q, readySend := false }, out)
  | (out, q, .failed) => ({ c with sendBuffer := q, failing := true }, out)

/-- How the loop of `_recv_data` ends: the buffer is full, the stream is at its end or broken, or
there is nothing more to read. -/
inductive RecvEnd where
  | parked
  | gone
  | done
deriving DecidableEq

/-- The loop of `_recv_data` on the bytes that have come: the buffer, and the bytes not taken. -/
def recvLoop (N : NetConfig) :
    List RecvRet → MsgReader → List UInt8 → MsgReader × List UInt8 × RecvEnd
  | rets, r, w =>
    if N.maxRecvBuffSize ≤ r.recvBuffer.len then (r, w, .parked)
    else
      match rets with
      | [] => (r, w, .done)
      | .wouldBlock :: _ => (r, w, .done)
      | .gone :: _ => (r, w, .gone)
      | .got n :: rets =>
        let seg := w.take (min n N.recvChunkSize)
        if N.recvChunkSize = 0 then (r, w, .gone)
        else if seg.length = 0 then (r, w, .done)
        else if seg.length = N.recvChunkSize then
          recvLoop N rets (r.push seg) (w.drop seg.length)
        else (r.push seg, w.drop seg.length, .done)

/-- `on_read` without its end, which reads on from the socket: `true` when it throws. -/
def readMsgs (H : Sha1) (N : NetConfig) (room : ℕ) (c : Conn) : Conn × Bool :=
  if c.msgSleep then (c, false)
  else
    match c.reader.read H N.maxMsgSize room with
    | (r, .starved) | (r, .dropped) => ({ c with reader := r }, false)
    | (r, .sleeping) => ({ c with reader := r, msgSleep := true, polling := true }, false)
    | (r, .oversized) => ({ c with reader := r }, true)

/-- `_recv_data`. The `on_read` it calls finds `ready_recv` cleared and does not read on. -/
def recvData (H : Sha1) (N : NetConfig) (rets : List RecvRet) (room : ℕ) (c : Conn)
    (w : List UInt8) : (Conn × Bool) × List UInt8 :=
  match recvLoop N rets c.reader w with
  | (r, w, .parked) => (({ c with
      reader := r, evRead := false, evWrite := !c.readySend, readyRecv := true }, false), w)
  | (r, w, .gone) => (({ c with reader := r, failing := true }, false), w)
  | (r, w, .done) => (({ c with reader := r, readyRecv := false }).readMsgs H N room, w)

def onRead (H : Sha1) (N : NetConfig) (room : ℕ) (rets : List RecvRet) (room' : ℕ) (c : Conn)
    (w : List UInt8) : (Conn × Bool) × List UInt8 :=
  match c.readMsgs H N room with
  | (c, true) => ((c, true), w)
  | (c, false) =>
    if !c.msgSleep && c.readyRecv && decide (c.reader.recvBuffer.len < N.maxRecvBuffSize) then
      ({ c with evRead := true, evWrite := !c.readySend }).recvData H N rets room' w
    else ((c, false), w)

/-- The callback of `ev_enqueue_poll`, up to its `on_read`, when the queue has room. -/
def release (c : Conn) : Conn := { c with
  msgSleep := false, polling := false,
  reader := { c.reader with incoming := c.reader.incoming ++ [c.reader.msg] } }

/-- The worker may run a callback. -/
def idle (c : Conn) : Bool := !c.resetting && !c.terminated && !c.crashed

/-- One event, with the bytes that wait in the kernel: the connection, the bytes that still wait,
and the bytes sent. An exception in `on_read` terminates the connection when `ev_socket` has
called it; in `ev_enqueue_poll` nothing catches it. -/
def handle (H : Sha1) (N : NetConfig) (c : Conn) (w : List UInt8) :
    ConnEvent → Conn × List UInt8 × List UInt8
  | .write data =>
    ({ c with sendBuffer := c.sendBuffer ++ [data], unsignalled := c.unsignalled + 1 }, w, [])
  | .signal =>
    if c.unsignalled = 0 then (c, w, [])
    else ({ c with
      unsignalled := c.unsignalled - 1, waitSig := false,
      notified := c.notified || c.waitSig }, w, [])
  | .reset =>
    if c.idle && c.notified then ({ c with notified := false, resetting := true }, w, [])
    else (c, w, [])
  | .drain rets =>
    if c.resetting then
      let c := { c with resetting := false, waitSig := true }
      if c.readySend then
        let r := ({ c with evRead := !c.readyRecv, evWrite := true }).sendData rets
        (r.1, w, r.2)
      else (c, w, [])
    else (c, w, [])
  | .writable rets =>
    if c.idle && c.evWrite then
      let r := c.sendData rets
      (r.1, w, r.2)
    else (c, w, [])
  | .readable rets room =>
    if c.idle && c.evRead then
      match c.recvData H N rets room w with
      | ((c, true), w) => ({ c with failing := true }, w, [])
      | ((c, false), w) => (c, w, [])
    else (c, w, [])
  | .poll room rets room' =>
    if c.idle && c.polling then
      if room = 0 then (c, w, [])
      else
        match c.release.onRead H N (room - 1) rets room' w with
        | ((c, true), w) => ({ c with crashed := true }, w, [])
        | ((c, false), w) => (c, w, [])
    else (c, w, [])
  | .error => if c.idle then ({ c with failing := true }, w, []) else (c, w, [])
  | .teardown =>
    if c.idle && c.failing then
      ({ c with terminated := true, evRead := false, evWrite := false, polling := false }, w, [])
    else (c, w, [])

/-! ### Sending -/

structure Sends (q : List (List UInt8)) (r : List UInt8 × List (List UInt8) × SendEnd) :
    Prop where
  bytes : q.flatten = r.1 ++ r.2.1.flatten
  whole : [] ∉ q → [] ∉ r.2.1
  drained : [] ∉ q → r.2.2 = .drained → r.2.1 = []

theorem sendLoop_sends (q : List (List UInt8)) (rets : List SendRet) :
    Sends q (sendLoop q rets) := by
  induction q generalizing rets with
  | nil => exact ⟨rfl, id, fun _ _ => rfl⟩
  | cons seg q ih =>
    cases seg with
    | nil =>
      refine ⟨rfl, fun h => absurd List.mem_cons_self h, fun h => absurd List.mem_cons_self h⟩
    | cons x seg =>
      cases rets with
      | nil => exact ⟨rfl, id, nofun⟩
      | cons ret rets =>
        cases ret with
        | wouldBlock => exact ⟨rfl, id, nofun⟩
        | failed => exact ⟨rfl, id, nofun⟩
        | sent n =>
          unfold sendLoop
          by_cases hall : (x :: seg).length ≤ n
          · rw [if_pos hall]
            have hrest := ih rets
            refine ⟨?_, fun h => hrest.whole (mt (List.mem_cons_of_mem _) h), fun h =>
              hrest.drained (mt (List.mem_cons_of_mem _) h)⟩
            rw [List.flatten_cons, hrest.bytes, List.append_assoc]
          · rw [if_neg hall]
            refine ⟨?_, ?_, nofun⟩
            · rw [List.flatten_cons, List.flatten_cons, ← List.append_assoc,
                List.take_append_drop]
            · intro h hmem
              rcases List.mem_cons.mp hmem with hnil | hmem
              · have hlen := congrArg List.length hnil
                rw [List.length_drop, List.length_nil] at hlen
                omega
              · exact h (List.mem_cons_of_mem _ hmem)

inductive Flushed (c : Conn) : Conn × List UInt8 → Prop where
  | drained (out : List UInt8) (q : List (List UInt8))
      (h : Sends c.sendBuffer (out, q, .drained)) : Flushed c ({ c with
        sendBuffer := q, evRead := !c.readyRecv, evWrite := false, readySend := true }, out)
  | blocked (out : List UInt8) (q : List (List UInt8))
      (h : Sends c.sendBuffer (out, q, .blocked)) :
      Flushed c ({ c with sendBuffer := q, readySend := false }, out)
  | failed (out : List UInt8) (q : List (List UInt8))
      (h : Sends c.sendBuffer (out, q, .failed)) :
      Flushed c ({ c with sendBuffer := q, failing := true }, out)

theorem sendData_flushed (c : Conn) (rets : List SendRet) : Flushed c (c.sendData rets) := by
  have h := sendLoop_sends c.sendBuffer rets
  unfold sendData
  generalize sendLoop c.sendBuffer rets = r at h
  obtain ⟨out, q, e⟩ := r
  cases e with
  | drained => exact .drained out q h
  | blocked => exact .blocked out q h
  | failed => exact .failed out q h

theorem sendLoop_all {q : List (List UInt8)} (hwhole : [] ∉ q) :
    sendLoop q (q.map fun seg => .sent seg.length) = (q.flatten, [], .drained) := by
  induction q with
  | nil => rfl
  | cons seg q ih =>
    cases seg with
    | nil => exact absurd List.mem_cons_self hwhole
    | cons x seg =>
      rw [List.map_cons, sendLoop, if_pos (Nat.le_refl _),
        ih (mt (List.mem_cons_of_mem _) hwhole), List.flatten_cons]

/-! ### Receiving -/

variable {H : Sha1} {N : NetConfig}

structure Takes (H : Sha1) (N : NetConfig) (r : MsgReader) (w : List UInt8)
    (q : MsgReader × List UInt8 × RecvEnd) (data : List UInt8) : Prop where
  wire : w = data ++ q.2.1
  msg : q.1.msg = r.msg
  reads : ∀ received held, r.Reads H N.maxMsgSize received held →
    q.1.Reads H N.maxMsgSize (received ++ data) held

variable {r : MsgReader} {w : List UInt8}

theorem Takes.none (e : RecvEnd) : Takes H N r w (r, w, e) [] where
  wire := rfl
  msg := rfl
  reads := by
    intro received held h
    rwa [List.append_nil]

theorem Takes.chunk {data more : List UInt8} {q : MsgReader × List UInt8 × RecvEnd}
    (h : Takes H N (r.push data) w q more) : Takes H N r (data ++ w) q (data ++ more) where
  wire := by rw [h.wire, List.append_assoc]
  msg := h.msg
  reads := by
    intro received held hr
    rw [← List.append_assoc]
    exact h.reads _ _ (hr.push data)

theorem recvLoop_takes (rets : List RecvRet) :
    ∃ data, Takes H N r w (recvLoop N rets r w) data := by
  induction rets generalizing r w with
  | nil =>
    unfold recvLoop
    split
    · exact ⟨[], .none _⟩
    · exact ⟨[], .none _⟩
  | cons ret rets ih =>
    unfold recvLoop
    split
    · exact ⟨[], .none _⟩
    cases ret with
    | wouldBlock => exact ⟨[], .none _⟩
    | gone => exact ⟨[], .none _⟩
    | got n =>
      simp only []
      have hcut : w.take (min n N.recvChunkSize) ++
          w.drop (w.take (min n N.recvChunkSize)).length = w := by
        rw [List.length_take, ← List.drop_eq_drop_min, List.take_append_drop]
      generalize w.take (min n N.recvChunkSize) = seg at hcut
      generalize w.drop seg.length = rest at hcut
      subst hcut
      split
      · exact ⟨[], .none _⟩
      split
      · exact ⟨[], .none _⟩
      split
      · obtain ⟨data, hdata⟩ := ih (r := r.push seg) (w := rest)
        exact ⟨_, hdata.chunk⟩
      · exact ⟨_, (Takes.none .done).chunk⟩

def heldMsg (c : Conn) : Option MsgBase := if c.msgSleep then some c.reader.msg else none

/-- What the connection has handed over is what it has received, but for the message that waits,
and a timer is set for that one. -/
structure HandsOver (H : Sha1) (N : NetConfig) (received : List UInt8) (c : Conn) : Prop where
  reads : c.reader.Reads H N.maxMsgSize received c.heldMsg
  asleep : c.msgSleep = true → c.polling = true ∨ c.terminated = true
  alive : c.crashed = false

/-- No complete message stays in the buffer of a connection that still listens. -/
structure Hears (H : Sha1) (N : NetConfig) (received : List UInt8) (c : Conn) : Prop
    extends c.HandsOver H N received where
  awake : c.msgSleep = false → c.readyRecv = true ∨ c.failing = true ∨ c.reader.Starved ∨
    MsgReader.Corrupt H N.maxMsgSize received c.reader

theorem Hears.start : start.Hears H N [] :=
  ⟨⟨.start, nofun, rfl⟩, fun _ => .inr (.inr (.inl (Nat.zero_lt_succ _)))⟩

variable {c : Conn} {received : List UInt8}

/-- `ev_enqueue_poll` is set for a reader that sleeps only. -/
def AsleepWhilePolling (c : Conn) : Prop := c.polling = true → c.msgSleep = true

theorem readMsgs_asleepWhilePolling (h : c.AsleepWhilePolling) (room : ℕ) :
    (c.readMsgs H N room).1.AsleepWhilePolling := by
  unfold readMsgs
  split
  · exact h
  · split
    · exact h
    · exact h
    · exact fun _ => rfl
    · exact h

theorem recvData_asleepWhilePolling (h : c.AsleepWhilePolling) (rets : List RecvRet) (room : ℕ) :
    (c.recvData H N rets room w).1.1.AsleepWhilePolling := by
  unfold recvData
  generalize recvLoop N rets c.reader w = q
  obtain ⟨r, w', e⟩ := q
  cases e with
  | parked => exact h
  | gone => exact h
  | done =>
    exact readMsgs_asleepWhilePolling (c := { c with reader := r, readyRecv := false }) h room

theorem onRead_asleepWhilePolling (h : c.AsleepWhilePolling) (room : ℕ) (rets : List RecvRet)
    (room' : ℕ) : (c.onRead H N room rets room' w).1.1.AsleepWhilePolling := by
  have hmsgs := readMsgs_asleepWhilePolling (H := H) (N := N) h room
  unfold onRead
  generalize c.readMsgs H N room = q at hmsgs
  obtain ⟨c', thrown⟩ := q
  cases thrown with
  | true => exact hmsgs
  | false =>
    simp only []
    split
    · exact recvData_asleepWhilePolling
        (c := { c' with evRead := true, evWrite := !c'.readySend }) hmsgs rets room'
    · exact hmsgs

theorem handle_asleepWhilePolling (h : c.AsleepWhilePolling) (e : ConnEvent) :
    (handle H N c w e).1.AsleepWhilePolling := by
  have hflush : ∀ (c' : Conn) (rets : List SendRet), c'.AsleepWhilePolling →
      (c'.sendData rets).1.AsleepWhilePolling := by
    intro c' rets h'
    have hq := sendData_flushed c' rets
    generalize c'.sendData rets = q at hq
    cases hq <;> exact h'
  unfold handle
  cases e with
  | write data => exact h
  | signal =>
    simp only []
    split <;> exact h
  | reset =>
    simp only []
    split <;> exact h
  | drain rets =>
    simp only []
    split
    · split
      · exact hflush _ rets h
      · exact h
    · exact h
  | writable rets =>
    simp only []
    split
    · exact hflush c rets h
    · exact h
  | readable rets room =>
    simp only []
    split
    · have hdata := recvData_asleepWhilePolling (H := H) (N := N) (w := w) h rets room
      generalize c.recvData H N rets room w = q at hdata
      obtain ⟨⟨c', thrown⟩, w'⟩ := q
      cases thrown <;> exact hdata
    · exact h
  | poll room rets room' =>
    simp only []
    split
    · split
      · exact h
      · have hread := onRead_asleepWhilePolling (H := H) (N := N) (w := w) (c := c.release)
          nofun (room - 1) rets room'
        generalize c.release.onRead H N (room - 1) rets room' w = q at hread
        obtain ⟨⟨c', thrown⟩, w'⟩ := q
        cases thrown <;> exact hread
    · exact h
  | error =>
    simp only []
    split <;> exact h
  | teardown =>
    simp only []
    split
    · nofun
    · exact h

theorem Hears.frame {c' : Conn} (h : c.Hears H N received) (hreader : c'.reader = c.reader)
    (hsleep : c'.msgSleep = c.msgSleep) (hpolling : c'.polling = c.polling)
    (hready : c'.readyRecv = c.readyRecv) (hterm : c.terminated = true → c'.terminated = true)
    (hfail : c.failing = true → c'.failing = true) (hcrash : c'.crashed = c.crashed) :
    c'.Hears H N received := by
  have hheld : c'.heldMsg = c.heldMsg := by
    unfold heldMsg
    rw [hsleep, hreader]
  refine ⟨⟨?_, ?_, hcrash.trans h.alive⟩, ?_⟩
  · rw [hheld, hreader]
    exact h.reads
  · rw [hpolling, hsleep]
    exact fun hs => (h.asleep hs).imp_right hterm
  · rw [hsleep, hready, hreader]
    exact fun hs => (h.awake hs).imp_right fun h => h.imp_left hfail

theorem Hears.flushed {q : Conn × List UInt8} (h : c.Hears H N received) (hq : Flushed c q) :
    q.1.Hears H N received := by
  cases hq with
  | drained out q hs => exact h.frame rfl rfl rfl rfl id id rfl
  | blocked out q hs => exact h.frame rfl rfl rfl rfl id id rfl
  | failed out q hs => exact h.frame rfl rfl rfl rfl id (fun _ => rfl) rfl

theorem readMsgs_hears (h : c.HandsOver H N received) (room : ℕ) :
    (c.readMsgs H N room).2 = false ∧ (c.readMsgs H N room).1.Hears H N received ∨
      (c.readMsgs H N room).2 = true ∧ MsgReader.Overruns N.maxMsgSize received := by
  unfold readMsgs
  by_cases hs : c.msgSleep = true
  · rw [if_pos hs]
    refine .inl ⟨rfl, h, fun hawake => ?_⟩
    rw [hs] at hawake
    cases hawake
  rw [if_neg hs]
  have hnone : c.heldMsg = none := if_neg hs
  have hreads := h.reads
  rw [hnone] at hreads
  have hdone := hreads.read room
  generalize c.reader.read H N.maxMsgSize room = q at hdone
  obtain ⟨r, e⟩ := q
  cases e with
  | starved =>
    have hleft := hdone.resolve_right fun h => by cases h.1
    refine .inl ⟨rfl, ⟨?_, h.asleep, h.alive⟩, fun _ =>
      .inr (.inr (.inl (hleft.starved rfl)))⟩
    have hheld : ({ c with reader := r } : Conn).heldMsg = none := if_neg hs
    rw [hheld]
    exact hleft.reads
  | dropped =>
    have hleft := hdone.resolve_right fun h => by cases h.1
    refine .inl ⟨rfl, ⟨?_, h.asleep, h.alive⟩, fun _ =>
      .inr (.inr (.inr (hleft.dropped rfl)))⟩
    have hheld : ({ c with reader := r } : Conn).heldMsg = none := if_neg hs
    rw [hheld]
    exact hleft.reads
  | sleeping =>
    have hleft := hdone.resolve_right fun h => by cases h.1
    exact .inl ⟨rfl, ⟨hleft.reads, fun _ => .inl rfl, h.alive⟩, nofun⟩
  | oversized =>
    have hover := hdone.resolve_left fun h => h.fits rfl
    exact .inr ⟨rfl, hover.2⟩

/-- What a callback leaves that reads from the socket, unless a header was too large. -/
structure Heard (H : Sha1) (N : NetConfig) (received w : List UInt8)
    (q : (Conn × Bool) × List UInt8) (data : List UInt8) : Prop where
  wire : w = data ++ q.2
  hears : q.1.2 = false ∧ q.1.1.Hears H N (received ++ data) ∨
    q.1.2 = true ∧ MsgReader.Overruns N.maxMsgSize (received ++ data)

theorem recvData_heard (h : c.HandsOver H N received) (rets : List RecvRet) (room : ℕ) :
    ∃ data, Heard H N received w (c.recvData H N rets room w) data := by
  obtain ⟨data, htakes⟩ := recvLoop_takes (H := H) (N := N) (r := c.reader) (w := w) rets
  unfold recvData
  generalize recvLoop N rets c.reader w = q at htakes
  obtain ⟨r, w', e⟩ := q
  have hmore : r.Reads H N.maxMsgSize (received ++ data)
      (if c.msgSleep then some r.msg else none) := by
    rw [htakes.msg]
    exact htakes.reads _ _ h.reads
  refine ⟨data, ?_⟩
  cases e with
  | parked =>
    exact ⟨htakes.wire, .inl ⟨rfl, ⟨hmore, h.asleep, h.alive⟩, fun _ => .inl rfl⟩⟩
  | gone =>
    exact ⟨htakes.wire, .inl ⟨rfl, ⟨hmore, h.asleep, h.alive⟩, fun _ => .inr (.inl rfl)⟩⟩
  | done =>
    exact ⟨htakes.wire, readMsgs_hears (c := { c with reader := r, readyRecv := false })
      ⟨hmore, h.asleep, h.alive⟩ room⟩

theorem onRead_heard (h : c.HandsOver H N received) (room : ℕ) (rets : List RecvRet) (room' : ℕ) :
    ∃ data, Heard H N received w (c.onRead H N room rets room' w) data := by
  have hdone := readMsgs_hears h room
  unfold onRead
  generalize c.readMsgs H N room = q at hdone
  obtain ⟨c', thrown⟩ := q
  cases thrown with
  | true =>
    refine ⟨[], rfl, .inr ⟨rfl, ?_⟩⟩
    rw [List.append_nil]
    exact (hdone.resolve_left fun h => by cases h.1).2
  | false =>
    have hread := (hdone.resolve_right fun h => by cases h.1).2
    simp only []
    split
    · exact recvData_heard (c := { c' with evRead := true, evWrite := !c'.readySend })
        ⟨hread.reads, hread.asleep, hread.alive⟩ rets room'
    · refine ⟨[], rfl, .inl ⟨rfl, ?_⟩⟩
      rw [List.append_nil]
      exact hread

theorem handle_hears (h : c.Hears H N received) (hasleep : c.AsleepWhilePolling) (e : ConnEvent) :
    ∃ data, w = data ++ (handle H N c w e).2.1 ∧
      ((handle H N c w e).1.Hears H N (received ++ data) ∨
        MsgReader.Overruns N.maxMsgSize (received ++ data)) := by
  have hquiet : ∀ c' : Conn, c'.Hears H N received →
      ∃ data, w = data ++ w ∧ (c'.Hears H N (received ++ data) ∨
        MsgReader.Overruns N.maxMsgSize (received ++ data)) := by
    intro c' h'
    refine ⟨[], rfl, .inl ?_⟩
    rwa [List.append_nil]
  unfold handle
  cases e with
  | write data => exact hquiet _ (h.frame rfl rfl rfl rfl id id rfl)
  | signal =>
    simp only []
    split
    · exact hquiet _ h
    · exact hquiet _ (h.frame rfl rfl rfl rfl id id rfl)
  | reset =>
    simp only []
    split
    · exact hquiet _ (h.frame rfl rfl rfl rfl id id rfl)
    · exact hquiet _ h
  | drain rets =>
    simp only []
    split
    · split
      · refine hquiet _ (Hears.flushed ?_ (sendData_flushed _ rets))
        exact h.frame rfl rfl rfl rfl id id rfl
      · exact hquiet _ (h.frame rfl rfl rfl rfl id id rfl)
    · exact hquiet _ h
  | writable rets =>
    simp only []
    split
    · exact hquiet _ (h.flushed (sendData_flushed c rets))
    · exact hquiet _ h
  | readable rets room =>
    simp only []
    split
    · obtain ⟨data, hwire, hheard⟩ := recvData_heard h.toHandsOver (w := w) rets room
      generalize c.recvData H N rets room w = q at hwire hheard
      obtain ⟨⟨c', thrown⟩, w'⟩ := q
      refine ⟨data, ?_⟩
      cases thrown with
      | true => exact ⟨hwire, .inr (hheard.resolve_left fun h => by cases h.1).2⟩
      | false => exact ⟨hwire, .inl (hheard.resolve_right fun h => by cases h.1).2⟩
    · exact hquiet _ h
  | poll room rets room' =>
    simp only []
    split
    · split
      · exact hquiet _ h
      · rename_i hon hroom
        have hpolling : c.polling = true := (Bool.and_eq_true_iff.mp hon).2
        have hheld : c.heldMsg = some c.reader.msg := if_pos (hasleep hpolling)
        have hreads := h.reads
        rw [hheld] at hreads
        obtain ⟨data, hwire, hheard⟩ := onRead_heard (c := c.release)
          ⟨hreads.release, nofun, h.alive⟩ (w := w) (room - 1) rets room'
        generalize c.release.onRead H N (room - 1) rets room' w = q at hwire hheard
        obtain ⟨⟨c', thrown⟩, w'⟩ := q
        refine ⟨data, ?_⟩
        cases thrown with
        | true => exact ⟨hwire, .inr (hheard.resolve_left fun h => by cases h.1).2⟩
        | false => exact ⟨hwire, .inl (hheard.resolve_right fun h => by cases h.1).2⟩
    · exact hquiet _ h
  | error =>
    simp only []
    split
    · exact hquiet _ (h.frame rfl rfl rfl rfl id (fun _ => rfl) rfl)
    · exact hquiet _ h
  | teardown =>
    simp only []
    split
    · rename_i hon
      refine hquiet _ ⟨⟨h.reads, fun _ => .inr rfl, h.alive⟩, h.awake⟩
    · exact hquiet _ h

/-! ### What wakes a connection -/

/-- A queue that is not empty waits for the socket or for a notification, and what is not read
waits for the socket or for `on_read`. -/
structure Wakes (c : Conn) : Prop where
  whole : [] ∉ c.sendBuffer
  signal : c.waitSig = false → c.notified = true ∨ c.resetting = true
  write : c.failing = false → c.evWrite = !c.readySend
  read : c.failing = false → c.evRead = !c.readyRecv
  pending : c.failing = false → c.readySend = true → c.sendBuffer ≠ [] →
    c.notified = true ∨ c.resetting = true ∨ 0 < c.unsignalled

theorem Wakes.start : start.Wakes := ⟨nofun, nofun, fun _ => rfl, fun _ => rfl, nofun⟩

theorem Wakes.flushed {q : Conn × List UInt8} (hwhole : [] ∉ c.sendBuffer)
    (hsignal : c.waitSig = false → c.notified = true ∨ c.resetting = true)
    (hwrite : c.evWrite = true) (hread : c.failing = false → c.evRead = !c.readyRecv)
    (hq : Flushed c q) : q.1.Wakes := by
  cases hq with
  | drained out q hs =>
    have hnil := hs.drained hwhole rfl
    exact ⟨hs.whole hwhole, hsignal, fun _ => rfl, fun _ => rfl, fun _ _ hne => absurd hnil hne⟩
  | blocked out q hs => exact ⟨hs.whole hwhole, hsignal, fun _ => hwrite, hread, nofun⟩
  | failed out q hs => exact ⟨hs.whole hwhole, hsignal, nofun, nofun, nofun⟩

structure Receives (c c' : Conn) : Prop where
  sendBuffer : c'.sendBuffer = c.sendBuffer
  readySend : c'.readySend = c.readySend
  waitSig : c'.waitSig = c.waitSig
  notified : c'.notified = c.notified
  resetting : c'.resetting = c.resetting
  unsignalled : c'.unsignalled = c.unsignalled
  failing : c'.failing = false → c.failing = false
  evWrite : c'.evWrite = c.evWrite ∨ c'.evWrite = !c.readySend
  evRead : c'.failing = false → c'.evRead = !c'.readyRecv

theorem Wakes.receives {c' : Conn} (h : c.Wakes) (hr : Receives c c') : c'.Wakes := by
  refine ⟨?_, ?_, ?_, hr.evRead, ?_⟩
  · rw [hr.sendBuffer]
    exact h.whole
  · rw [hr.waitSig, hr.notified, hr.resetting]
    exact h.signal
  · intro hf
    rw [hr.readySend]
    rcases hr.evWrite with heq | heq
    · rw [heq]
      exact h.write (hr.failing hf)
    · exact heq
  · intro hf
    rw [hr.readySend, hr.sendBuffer, hr.notified, hr.resetting, hr.unsignalled]
    exact h.pending (hr.failing hf)

theorem readMsgs_receives (room : ℕ) (hread : c.failing = false → c.evRead = !c.readyRecv) :
    Receives c (c.readMsgs H N room).1 := by
  unfold readMsgs
  split
  · exact ⟨rfl, rfl, rfl, rfl, rfl, rfl, id, .inl rfl, hread⟩
  · split <;> exact ⟨rfl, rfl, rfl, rfl, rfl, rfl, id, .inl rfl, hread⟩

theorem recvData_receives (rets : List RecvRet) (room : ℕ) (hread : c.evRead = true) :
    Receives c (c.recvData H N rets room w).1.1 := by
  unfold recvData
  generalize recvLoop N rets c.reader w = q
  obtain ⟨r, w', e⟩ := q
  cases e with
  | parked => exact ⟨rfl, rfl, rfl, rfl, rfl, rfl, id, .inr rfl, fun _ => rfl⟩
  | gone => exact ⟨rfl, rfl, rfl, rfl, rfl, rfl, nofun, .inl rfl, nofun⟩
  | done =>
    have h := readMsgs_receives (H := H) (N := N) (c := { c with
      reader := r, readyRecv := false }) room fun _ => hread
    exact ⟨h.sendBuffer, h.readySend, h.waitSig, h.notified, h.resetting, h.unsignalled,
      h.failing, h.evWrite, h.evRead⟩

theorem onRead_receives (room : ℕ) (rets : List RecvRet) (room' : ℕ)
    (hread : c.failing = false → c.evRead = !c.readyRecv) :
    Receives c (c.onRead H N room rets room' w).1.1 := by
  have h := readMsgs_receives (H := H) (N := N) room hread
  unfold onRead
  generalize c.readMsgs H N room = q at h
  obtain ⟨c', thrown⟩ := q
  cases thrown with
  | true => exact h
  | false =>
    simp only []
    split
    · have hmore := recvData_receives (H := H) (N := N) (w := w) (c := { c' with
        evRead := true, evWrite := !c'.readySend }) rets room' rfl
      refine ⟨hmore.sendBuffer.trans h.sendBuffer, hmore.readySend.trans h.readySend,
        hmore.waitSig.trans h.waitSig, hmore.notified.trans h.notified,
        hmore.resetting.trans h.resetting, hmore.unsignalled.trans h.unsignalled,
        fun hf => h.failing (hmore.failing hf), .inr ?_, hmore.evRead⟩
      rw [← h.readySend]
      exact hmore.evWrite.elim id id
    · exact h

theorem handle_wakes (h : c.Wakes) {e : ConnEvent} (hwrite : e ≠ .write []) :
    (handle H N c w e).1.Wakes := by
  unfold handle
  cases e with
  | write data =>
    refine ⟨?_, h.signal, h.write, h.read, fun _ _ _ => .inr (.inr (Nat.zero_lt_succ _))⟩
    intro hmem
    rcases List.mem_append.mp hmem with hmem | hmem
    · exact h.whole hmem
    · exact hwrite (congrArg _ (List.mem_singleton.mp hmem).symm)
  | signal =>
    simp only []
    split
    · exact h
    · have hawake : (c.notified || c.waitSig) = true ∨ c.resetting = true := by
        cases hsig : c.waitSig with
        | true => exact .inl (Bool.or_true _)
        | false =>
          rw [Bool.or_false]
          exact h.signal hsig
      exact ⟨h.whole, fun _ => hawake, h.write, h.read,
        fun _ _ _ => hawake.imp_right .inl⟩
  | reset =>
    simp only []
    split
    · exact ⟨h.whole, fun _ => .inr rfl, h.write, h.read, fun _ _ _ => .inr (.inl rfl)⟩
    · exact h
  | drain rets =>
    simp only []
    split
    · split
      · exact Wakes.flushed (c := { c with
          resetting := false, waitSig := true, evRead := !c.readyRecv, evWrite := true })
          h.whole nofun rfl (fun _ => rfl) (sendData_flushed _ rets)
      · rename_i hready
        exact ⟨h.whole, nofun, h.write, h.read, fun _ hsend => absurd hsend hready⟩
    · exact h
  | writable rets =>
    simp only []
    split
    · rename_i hon
      exact .flushed h.whole h.signal (Bool.and_eq_true_iff.mp hon).2 h.read
        (sendData_flushed c rets)
    · exact h
  | readable rets room =>
    simp only []
    split
    · rename_i hon
      have hr := recvData_receives (H := H) (N := N) (w := w) rets room
        (Bool.and_eq_true_iff.mp hon).2
      generalize c.recvData H N rets room w = q at hr
      obtain ⟨⟨c', thrown⟩, w'⟩ := q
      have h' := h.receives hr
      cases thrown with
      | true => exact ⟨h'.whole, h'.signal, nofun, nofun, nofun⟩
      | false => exact h'
    · exact h
  | poll room rets room' =>
    simp only []
    split
    · split
      · exact h
      · have hr := onRead_receives (H := H) (N := N) (w := w) (c := c.release)
          (room - 1) rets room' h.read
        generalize c.release.onRead H N (room - 1) rets room' w = q at hr
        obtain ⟨⟨c', thrown⟩, w'⟩ := q
        have hrelease : c.release.Wakes := ⟨h.whole, h.signal, h.write, h.read, h.pending⟩
        have h' := hrelease.receives hr
        cases thrown with
        | true => exact ⟨h'.whole, h'.signal, h'.write, h'.read, h'.pending⟩
        | false => exact h'
    · exact h
  | error =>
    simp only []
    split
    · exact ⟨h.whole, h.signal, nofun, nofun, nofun⟩
    · exact h
  | teardown =>
    simp only []
    split
    · rename_i hon
      have hfail : c.failing = true := (Bool.and_eq_true_iff.mp hon).2
      refine ⟨h.whole, h.signal, fun hf => ?_, fun hf => ?_, fun hf => ?_⟩ <;>
        exact absurd (hfail.symm.trans hf) (by decide)
    · exact h

theorem handle_sends (h : c.Wakes) (e : ConnEvent) :
    c.sendBuffer.flatten ++ ConnEvent.written e =
      (handle H N c w e).2.2 ++ (handle H N c w e).1.sendBuffer.flatten := by
  have hflush : ∀ (c' : Conn) (rets : List SendRet), c'.sendBuffer = c.sendBuffer →
      c.sendBuffer.flatten ++ [] =
        (c'.sendData rets).2 ++ (c'.sendData rets).1.sendBuffer.flatten := by
    intro c' rets hsame
    have h := sendData_flushed c' rets
    rw [List.append_nil, ← hsame]
    generalize c'.sendData rets = q at h
    cases h with
    | drained out q hs => exact hs.bytes
    | blocked out q hs => exact hs.bytes
    | failed out q hs => exact hs.bytes
  unfold handle
  cases e with
  | write data => simp [ConnEvent.written]
  | signal =>
    simp only []
    split <;> exact List.append_nil _
  | reset =>
    simp only []
    split <;> exact List.append_nil _
  | drain rets =>
    simp only []
    split
    · split
      · exact hflush _ rets rfl
      · exact List.append_nil _
    · exact List.append_nil _
  | writable rets =>
    simp only []
    split
    · exact hflush c rets rfl
    · exact List.append_nil _
  | readable rets room =>
    simp only []
    split
    · rename_i hon
      have hr := recvData_receives (H := H) (N := N) (w := w) rets room
        (Bool.and_eq_true_iff.mp hon).2
      generalize c.recvData H N rets room w = q at hr
      obtain ⟨⟨c', thrown⟩, w'⟩ := q
      have hsame : c'.sendBuffer = c.sendBuffer := hr.sendBuffer
      cases thrown <;> exact (List.append_nil _).trans (congrArg _ hsame.symm)
    · exact List.append_nil _
  | poll room rets room' =>
    simp only []
    split
    · split
      · exact List.append_nil _
      · have hr := onRead_receives (H := H) (N := N) (w := w) (c := c.release)
          (room - 1) rets room' h.read
        generalize c.release.onRead H N (room - 1) rets room' w = q at hr
        obtain ⟨⟨c', thrown⟩, w'⟩ := q
        have hsame : c'.sendBuffer = c.sendBuffer := hr.sendBuffer
        cases thrown <;> exact (List.append_nil _).trans (congrArg _ hsame.symm)
    · exact List.append_nil _
  | error =>
    simp only []
    split <;> exact List.append_nil _
  | teardown =>
    simp only []
    split <;> exact List.append_nil _

def takesAll (q : List (List UInt8)) : List SendRet := q.map fun seg => .sent seg.length

theorem sendData_takesAll {q : List (List UInt8)} (hwhole : [] ∉ q) (hq : c.sendBuffer = q) :
    (c.sendData (takesAll q)).1.sendBuffer = [] := by
  unfold sendData takesAll
  rw [hq, sendLoop_all hwhole]

theorem drain_takesAll {q : List (List UInt8)} (hwhole : [] ∉ q) (hq : c.sendBuffer = q)
    (hreset : c.resetting = true) (hready : c.readySend = true) :
    (handle H N c w (.drain (takesAll q))).1.sendBuffer = [] := by
  unfold handle
  simp only [hreset, hready, if_true]
  exact sendData_takesAll hwhole hq

theorem writable_takesAll {q : List (List UInt8)} (hwhole : [] ∉ q) (hq : c.sendBuffer = q)
    (hidle : c.idle = true) (hwrite : c.evWrite = true) :
    (handle H N c w (.writable (takesAll q))).1.sendBuffer = [] := by
  unfold handle
  simp only [hidle, hwrite, Bool.and_self, if_true]
  exact sendData_takesAll hwhole hq

end Conn

end AvaHotstuff
