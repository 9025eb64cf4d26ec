import AvaHotstuff.Bytes
import AvaHotstuff.SegBuffer

set_option autoImplicit false

/-!
# Messages on a connection

`MsgBase` of salticidae is a header of 13 bytes and a payload; its checksum is the first four
bytes of a SHA-1. `MsgNetwork::on_read` takes the messages out of the receive buffer. What it has
handed over is always the valid messages among the bytes received, however they were cut.
-/
namespace AvaHotstuff
open Bytes

structure Sha1 where
  digest : List UInt8 → List UInt8
  size : ∀ bs, (digest bs).length = 20

structure MsgBase where
  magic : ℕ
  opcode : UInt8
  length : ℕ
  checksum : ℕ
  payload : List UInt8
deriving DecidableEq

namespace MsgBase

def headerSize : ℕ := 4 + 1 + 4 + 4

def blank : MsgBase := ⟨0, 0xff, 0, 0, []⟩

def setPayload (m : MsgBase) (payload : List UInt8) : MsgBase :=
  { m with length := payload.length, payload := payload }

def getChecksum (H : Sha1) (m : MsgBase) : ℕ := ofLe ((H.digest m.payload).take 4)

def setChecksum (H : Sha1) (m : MsgBase) : MsgBase := { m with checksum := m.getChecksum H }

def verifyChecksum (H : Sha1) (m : MsgBase) : Bool := decide (m.checksum = m.getChecksum H)

def ofMsg (H : Sha1) (magic : ℕ) (opcode : UInt8) (serialized : List UInt8) : MsgBase :=
  ({ blank with magic := magic, opcode := opcode }.setPayload serialized).setChecksum H

def ofHeader (s : List UInt8) : MsgBase where
  magic := ofLe (s.take 4)
  opcode := (s.drop 4).headD 0
  length := ofLe ((s.drop 5).take 4)
  checksum := ofLe ((s.drop 9).take 4)
  payload := []

def header (m : MsgBase) : List UInt8 :=
  toLe 4 m.magic ++ m.opcode :: (toLe 4 m.length ++ toLe 4 m.checksum)

def serialize (m : MsgBase) : List UInt8 := m.header ++ m.payload

structure Narrow (m : MsgBase) : Prop where
  magic : m.magic < 2 ^ 32
  length : m.length < 2 ^ 32
  checksum : m.checksum < 2 ^ 32

structure Framed (m : MsgBase) : Prop extends m.Narrow where
  payload : m.length = m.payload.length

@[simp] theorem length_header (m : MsgBase) : m.header.length = headerSize := by
  simp [header, headerSize]

theorem header_setPayload (m : MsgBase) {payload : List UInt8} (h : payload.length = m.length) :
    (m.setPayload payload).header = m.header := by
  unfold header setPayload
  rw [h]

theorem header_ofHeader {s : List UInt8} (h : s.length = headerSize) :
    (ofHeader s).header = s := by
  unfold headerSize at h
  have hcut : ∀ k, k + 4 ≤ 13 → toLe 4 (ofLe ((s.drop k).take 4)) = (s.drop k).take 4 := by
    intro k hk
    have hlen : ((s.drop k).take 4).length = 4 := by
      rw [List.length_take, List.length_drop]
      omega
    have hback := toLe_ofLe ((s.drop k).take 4)
    rwa [hlen] at hback
  obtain ⟨b, hb⟩ : ∃ b, s.drop 4 = b :: s.drop 5 := by
    have hlt : 4 < s.length := by omega
    exact ⟨s[4], List.drop_eq_getElem_cons hlt⟩
  have hlast : (s.drop 9).take 4 = s.drop 9 := by
    apply List.take_of_length_le
    rw [List.length_drop]
    omega
  have hmid : (s.drop 5).take 4 ++ s.drop 9 = s.drop 5 := by
    have h9 : s.drop 9 = (s.drop 5).drop 4 := by rw [List.drop_drop]
    rw [h9, List.take_append_drop]
  unfold header ofHeader
  have h0 := hcut 0 (by omega)
  rw [List.drop_zero] at h0
  rw [h0, hcut 5 (by omega), hcut 9 (by omega), hlast, hmid, hb, List.headD_cons, ← hb,
    List.take_append_drop]

theorem ofHeader_narrow (s : List UInt8) : (ofHeader s).Narrow := by
  have hword : ∀ bs : List UInt8, ofLe (bs.take 4) < 2 ^ 32 := by
    intro bs
    have hlt := ofLe_lt (bs.take 4)
    have hlen : (bs.take 4).length ≤ 4 := List.length_take_le ..
    have hpow : 256 ^ (bs.take 4).length ≤ 256 ^ 4 := Nat.pow_le_pow_right (by omega) hlen
    omega
  exact ⟨hword s, hword _, hword _⟩

theorem framed_setPayload (s : List UInt8) {payload : List UInt8}
    (h : payload.length = (ofHeader s).length) : ((ofHeader s).setPayload payload).Framed := by
  have hnarrow := ofHeader_narrow s
  refine ⟨⟨hnarrow.magic, ?_, hnarrow.checksum⟩, rfl⟩
  change payload.length < 2 ^ 32
  rw [h]
  exact hnarrow.length

theorem Narrow.header_inj {m m' : MsgBase} (h : m.Narrow) (h' : m'.Narrow)
    (heq : m.header = m'.header) : m.magic = m'.magic ∧ m.opcode = m'.opcode ∧
      m.length = m'.length ∧ m.checksum = m'.checksum := by
  have hword : ∀ a b : ℕ, a < 2 ^ 32 → b < 2 ^ 32 → toLe 4 a = toLe 4 b → a = b := by
    intro a b ha hb hab
    have h := congrArg ofLe hab
    rw [ofLe_toLe, ofLe_toLe] at h
    omega
  unfold header at heq
  obtain ⟨hmagic, htail⟩ := List.append_inj heq (by simp)
  obtain ⟨hop, hrest⟩ := List.cons.inj htail
  obtain ⟨hlength, hsum⟩ := List.append_inj hrest (by simp)
  exact ⟨hword _ _ h.magic h'.magic hmagic, hop, hword _ _ h.length h'.length hlength,
    hword _ _ h.checksum h'.checksum hsum⟩

theorem Narrow.length_ofHeader {m : MsgBase} (h : m.Narrow) :
    (ofHeader m.header).length = m.length :=
  ((ofHeader_narrow _).header_inj h (header_ofHeader (length_header m))).2.2.1

theorem serialize_delimits : Delimits serialize Framed := by
  intro m m' h h' r r' heq
  unfold serialize at heq
  rw [List.append_assoc, List.append_assoc] at heq
  obtain ⟨hheader, htail⟩ := List.append_inj heq (by simp)
  obtain ⟨hmagic, hop, hlength, hsum⟩ := h.header_inj h'.toNarrow hheader
  obtain ⟨hpayload, hrest⟩ := List.append_inj htail (by rw [← h.payload, hlength, h'.payload])
  refine ⟨?_, hrest⟩
  cases m
  cases m'
  simp only at hmagic hop hlength hsum hpayload
  subst hmagic hop hlength hsum hpayload
  rfl

theorem getChecksum_lt (H : Sha1) (m : MsgBase) : m.getChecksum H < 2 ^ 32 := by
  have hlt := ofLe_lt ((H.digest m.payload).take 4)
  rw [List.length_take, H.size] at hlt
  exact hlt

theorem framed_ofMsg (H : Sha1) {magic : ℕ} (opcode : UInt8) {serialized : List UInt8}
    (hmagic : magic < 2 ^ 32) (hlen : serialized.length < 2 ^ 32) :
    (ofMsg H magic opcode serialized).Framed ∧
      (ofMsg H magic opcode serialized).verifyChecksum H = true :=
  ⟨⟨⟨hmagic, hlen, getChecksum_lt H _⟩, rfl⟩, decide_eq_true rfl⟩

structure Fits (maxMsgSize : ℕ) (m : MsgBase) : Prop extends m.Framed where
  small : m.length ≤ maxMsgSize

theorem serialize_ne_nil (m : MsgBase) : m.serialize ≠ [] := by
  intro h
  have hlen := congrArg List.length h
  rw [serialize, List.length_append, length_header, headerSize, List.length_nil] at hlen
  omega

end MsgBase

inductive MsgState where
  | header
  | payload
deriving DecidableEq

/-- What the loop of `on_read` works on. `incoming` lists what it has put into
`incoming_msgs`. -/
structure MsgReader where
  recvBuffer : SegBuffer UInt8
  msg : MsgBase
  msgState : MsgState
  incoming : List MsgBase

/-- How the loop of `on_read` ends: there are too few bytes, a message with a wrong checksum is
dropped, the queue is full, or the header is of an oversized message. -/
inductive ReadEnd where
  | starved
  | dropped
  | sleeping
  | oversized
deriving DecidableEq

namespace MsgReader

def start : MsgReader := ⟨.empty, .blank, .header, []⟩

def push (r : MsgReader) (data : List UInt8) : MsgReader :=
  { r with recvBuffer := r.recvBuffer.push data }

/-- `new header available` -/
def readHeader (maxMsgSize : ℕ) (r : MsgReader) : MsgReader × Option ReadEnd :=
  if r.recvBuffer.size < MsgBase.headerSize then (r, some .starved)
  else
    let p := r.recvBuffer.pop MsgBase.headerSize
    let r := { r with recvBuffer := p.2, msg := .ofHeader p.1 }
    if r.msg.length > maxMsgSize then (r, some .oversized)
    else ({ r with msgState := .payload }, none)

/-- `new payload available` -/
def readPayload (H : Sha1) (full : Bool) (r : MsgReader) : MsgReader × Option ReadEnd :=
  if r.recvBuffer.size < r.msg.length then (r, some .starved)
  else
    let p := r.recvBuffer.pop r.msg.length
    let r := { r with recvBuffer := p.2, msg := r.msg.setPayload p.1, msgState := .header }
    if !r.msg.verifyChecksum H then (r, some .dropped)
    else if full then (r, some .sleeping)
    else ({ r with incoming := r.incoming ++ [r.msg] }, none)

def readTurn (H : Sha1) (maxMsgSize : ℕ) (full : Bool) (r : MsgReader) :
    MsgReader × Option ReadEnd :=
  match r.msgState with
  | .payload => r.readPayload H full
  | .header =>
    match r.readHeader maxMsgSize with
    | (r, some e) => (r, some e)
    | (r, none) => r.readPayload H full

/-- The loop of `on_read`, which ends before the fuel does; `incoming_msgs` has room for `room`
more messages. -/
def readLoop (H : Sha1) (maxMsgSize : ℕ) : ℕ → ℕ → MsgReader → MsgReader × ReadEnd
  | 0, _, r => (r, .starved)
  | fuel + 1, room, r =>
    match r.readTurn H maxMsgSize (decide (room = 0)) with
    | (r, some e) => (r, e)
    | (r, none) => readLoop H maxMsgSize fuel (room - 1) r

def read (H : Sha1) (maxMsgSize room : ℕ) (r : MsgReader) : MsgReader × ReadEnd :=
  readLoop H maxMsgSize (r.recvBuffer.size + 2) room r

def unread (r : MsgReader) : List UInt8 :=
  match r.msgState with
  | .header => r.recvBuffer.contents
  | .payload => r.msg.header ++ r.recvBuffer.contents

/-- No message, or part of one that the loop waits for, is complete. -/
def Starved (r : MsgReader) : Prop :=
  match r.msgState with
  | .header => r.recvBuffer.size < MsgBase.headerSize
  | .payload => r.recvBuffer.size < r.msg.length

/-- The header in hand is the one of a message that may come. -/
structure Sound (maxMsgSize : ℕ) (r : MsgReader) : Prop where
  counted : r.recvBuffer.Counted
  header : r.msgState = .payload → r.msg.length ≤ maxMsgSize ∧ ∃ s, r.msg = .ofHeader s

inductive Turned (H : Sha1) (maxMsgSize : ℕ) (full : Bool) (r : MsgReader) :
    MsgReader × Option ReadEnd → Prop where
  | starved (r' : MsgReader) (hunread : r'.unread = r.unread) (hin : r'.incoming = r.incoming)
      (hs : r'.Starved) : Turned H maxMsgSize full r (r', some .starved)
  | oversized (r' : MsgReader) (s rest : List UInt8) (hs : s.length = MsgBase.headerSize)
      (hbig : maxMsgSize < (MsgBase.ofHeader s).length) (hunread : r.unread = s ++ rest) :
      Turned H maxMsgSize full r (r', some .oversized)
  | dropped (r' : MsgReader) (m : MsgBase) (hm : m.Fits maxMsgSize)
      (hsum : m.verifyChecksum H = false) (hunread : r.unread = m.serialize ++ r'.unread)
      (hin : r'.incoming = r.incoming) (hstate : r'.msgState = .header) :
      Turned H maxMsgSize full r (r', some .dropped)
  | sleeping (r' : MsgReader) (hm : r'.msg.Fits maxMsgSize)
      (hsum : r'.msg.verifyChecksum H = true)
      (hunread : r.unread = r'.msg.serialize ++ r'.unread) (hin : r'.incoming = r.incoming)
      (hstate : r'.msgState = .header) (hfull : full = true) :
      Turned H maxMsgSize full r (r', some .sleeping)
  | enqueued (r' : MsgReader) (m : MsgBase) (hm : m.Fits maxMsgSize)
      (hsum : m.verifyChecksum H = true) (hunread : r.unread = m.serialize ++ r'.unread)
      (hin : r'.incoming = r.incoming ++ [m]) (hstate : r'.msgState = .header)
      (hroom : full = false) : Turned H maxMsgSize full r (r', none)

variable {H : Sha1} {maxMsgSize : ℕ} {r : MsgReader}

theorem Sound.start : start.Sound maxMsgSize := ⟨.empty, fun h => by cases h⟩

theorem Sound.push (h : r.Sound maxMsgSize) (data : List UInt8) :
    (r.push data).Sound maxMsgSize := ⟨h.counted.push data, h.header⟩

@[simp] theorem unread_push (data : List UInt8) : (r.push data).unread = r.unread ++ data := by
  unfold unread push
  cases r.msgState with
  | header => exact SegBuffer.contents_push data
  | payload =>
    simp only []
    rw [SegBuffer.contents_push, List.append_assoc]

theorem readPayload_turned (full : Bool) (h : r.Sound maxMsgSize)
    (hstate : r.msgState = .payload) :
    Turned H maxMsgSize full r (r.readPayload H full) ∧
      (r.readPayload H full).1.Sound maxMsgSize := by
  obtain ⟨hsmall, s, hs⟩ := h.header hstate
  have hunread : r.unread = r.msg.header ++ r.recvBuffer.contents := by
    unfold unread
    rw [hstate]
  unfold readPayload
  by_cases hfew : r.recvBuffer.size < r.msg.length
  · rw [if_pos hfew]
    refine ⟨.starved r rfl rfl ?_, h⟩
    unfold Starved
    rw [hstate]
    exact hfew
  rw [if_neg hfew]
  have hcounted : r.recvBuffer.size = r.recvBuffer.contents.length := h.counted
  have hpop := r.recvBuffer.pop_fst r.msg.length
  have hrest := r.recvBuffer.contents_pop r.msg.length
  have hleft := h.counted.pop r.msg.length
  generalize r.recvBuffer.pop r.msg.length = p at hpop hrest hleft ⊢
  have hlen : p.1.length = r.msg.length := by
    rw [hpop, List.length_take]
    omega
  have hfits : (r.msg.setPayload p.1).Fits maxMsgSize := by
    rw [hs] at hlen ⊢
    refine ⟨MsgBase.framed_setPayload s hlen, ?_⟩
    change p.1.length ≤ maxMsgSize
    rw [hlen, ← hs]
    exact hsmall
  have hcut : r.unread = (r.msg.setPayload p.1).serialize ++ p.2.contents := by
    rw [hunread, MsgBase.serialize, MsgBase.header_setPayload _ hlen, hrest]
    change _ = r.msg.header ++ p.1 ++ _
    rw [hpop, List.append_assoc, List.take_append_drop]
  have hsound : ∀ incoming, (⟨p.2, r.msg.setPayload p.1, .header, incoming⟩ : MsgReader).Sound
      maxMsgSize := fun _ => ⟨hleft, fun h => by cases h⟩
  simp only []
  cases hsum : (r.msg.setPayload p.1).verifyChecksum H with
  | false => exact ⟨.dropped _ _ hfits hsum hcut rfl rfl, hsound _⟩
  | true =>
    cases full with
    | true => exact ⟨.sleeping _ hfits hsum hcut rfl rfl rfl, hsound _⟩
    | false => exact ⟨.enqueued _ _ hfits hsum hcut rfl rfl rfl, hsound _⟩

theorem readTurn_turned (full : Bool) (h : r.Sound maxMsgSize) :
    Turned H maxMsgSize full r (r.readTurn H maxMsgSize full) ∧
      (r.readTurn H maxMsgSize full).1.Sound maxMsgSize := by
  unfold readTurn
  cases hstate : r.msgState with
  | payload => exact readPayload_turned full h hstate
  | header =>
    have hunread : r.unread = r.recvBuffer.contents := by
      unfold unread
      rw [hstate]
    simp only []
    unfold readHeader
    by_cases hfew : r.recvBuffer.size < MsgBase.headerSize
    · rw [if_pos hfew]
      refine ⟨.starved r rfl rfl ?_, h⟩
      unfold Starved
      rw [hstate]
      exact hfew
    rw [if_neg hfew]
    have hcounted : r.recvBuffer.size = r.recvBuffer.contents.length := h.counted
    have hpop := r.recvBuffer.pop_fst MsgBase.headerSize
    have hrest := r.recvBuffer.contents_pop MsgBase.headerSize
    have hleft := h.counted.pop MsgBase.headerSize
    generalize r.recvBuffer.pop MsgBase.headerSize = p at hpop hrest hleft ⊢
    have hlen : p.1.length = MsgBase.headerSize := by
      rw [hpop, List.length_take]
      omega
    have hcut : r.unread = p.1 ++ p.2.contents := by
      rw [hunread, hpop, hrest, List.take_append_drop]
    simp only []
    by_cases hbig : maxMsgSize < (MsgBase.ofHeader p.1).length
    · rw [if_pos hbig]
      refine ⟨.oversized _ p.1 _ hlen hbig hcut, hleft, ?_⟩
      intro hpayload
      rw [show r.msgState = .payload from hpayload] at hstate
      cases hstate
    rw [if_neg hbig]
    simp only []
    have hmid : (⟨p.2, .ofHeader p.1, .payload, r.incoming⟩ : MsgReader).Sound maxMsgSize :=
      ⟨hleft, fun _ => ⟨Nat.le_of_not_lt hbig, p.1, rfl⟩⟩
    have hsame : (⟨p.2, .ofHeader p.1, .payload, r.incoming⟩ : MsgReader).unread = r.unread := by
      rw [hcut]
      change (MsgBase.ofHeader p.1).header ++ _ = _
      rw [MsgBase.header_ofHeader hlen]
    obtain ⟨hturn, hsound⟩ := readPayload_turned (H := H) full hmid rfl
    refine ⟨?_, hsound⟩
    generalize readPayload H full _ = q at hturn
    cases hturn with
    | starved r' hu hi hs => exact .starved r' (hu.trans hsame) hi hs
    | oversized r' s rest hs hb hu => exact .oversized r' s rest hs hb (hsame.symm.trans hu)
    | dropped r' m hm hsum hu hi hst => exact .dropped r' m hm hsum (hsame.symm.trans hu) hi hst
    | sleeping r' hm hsum hu hi hst hf =>
      exact .sleeping r' hm hsum (hsame.symm.trans hu) hi hst hf
    | enqueued r' m hm hsum hu hi hst hr =>
      exact .enqueued r' m hm hsum (hsame.symm.trans hu) hi hst hr

/-- The bytes received are those of messages, followed by the unread ones. The valid messages are
in the queue, and after them the one that waits for room. -/
structure Reads (H : Sha1) (maxMsgSize : ℕ) (received : List UInt8) (held : Option MsgBase)
    (r : MsgReader) : Prop where
  sound : r.Sound maxMsgSize
  framed : ∃ fs : List MsgBase, (∀ m ∈ fs, m.Fits maxMsgSize) ∧
    received = fs.flatMap MsgBase.serialize ++ r.unread ∧
    fs.filter (MsgBase.verifyChecksum H) = r.incoming ++ held.toList

variable {received : List UInt8}

theorem Reads.start : start.Reads H maxMsgSize [] none :=
  ⟨.start, [], fun _ h => absurd h List.not_mem_nil, rfl, rfl⟩

theorem Reads.push {held : Option MsgBase} (h : r.Reads H maxMsgSize received held)
    (data : List UInt8) : (r.push data).Reads H maxMsgSize (received ++ data) held := by
  obtain ⟨fs, hfits, hbytes, hvalid⟩ := h.framed
  refine ⟨h.sound.push data, fs, hfits, ?_, hvalid⟩
  rw [unread_push, hbytes, List.append_assoc]

theorem Reads.release {m : MsgBase} (h : r.Reads H maxMsgSize received (some m)) :
    ({ r with incoming := r.incoming ++ [m] } : MsgReader).Reads H maxMsgSize received none := by
  obtain ⟨fs, hfits, hbytes, hvalid⟩ := h.framed
  refine ⟨⟨h.sound.counted, h.sound.header⟩, fs, hfits, hbytes, ?_⟩
  rw [hvalid]
  exact (List.append_nil _).symm

theorem Reads.next {r' : MsgReader} {m : MsgBase} {held : Option MsgBase}
    (h : r.Reads H maxMsgSize received none) (hs : r'.Sound maxMsgSize) (hm : m.Fits maxMsgSize)
    (hunread : r.unread = m.serialize ++ r'.unread)
    (hin : r'.incoming ++ held.toList = r.incoming ++ [m].filter (MsgBase.verifyChecksum H)) :
    r'.Reads H maxMsgSize received held := by
  obtain ⟨fs, hfits, hbytes, hvalid⟩ := h.framed
  rw [Option.toList_none, List.append_nil] at hvalid
  refine ⟨hs, fs ++ [m], ?_, ?_, ?_⟩
  · intro x hx
    rcases List.mem_append.mp hx with hx | hx
    · exact hfits x hx
    · rw [List.mem_singleton.mp hx]
      exact hm
  · rw [List.flatMap_append, List.flatMap_singleton, List.append_assoc, ← hunread, hbytes]
  · rw [List.filter_append, hvalid, hin]

def held (q : MsgReader × ReadEnd) : Option MsgBase :=
  match q.2 with
  | .sleeping => some q.1.msg
  | _ => none

/-- Some message before the unread bytes has a wrong checksum. -/
def Corrupt (H : Sha1) (maxMsgSize : ℕ) (received : List UInt8) (r : MsgReader) : Prop :=
  ∃ fs : List MsgBase, (∀ m ∈ fs, m.Fits maxMsgSize) ∧
    received = fs.flatMap MsgBase.serialize ++ r.unread ∧ ∃ m ∈ fs, m.verifyChecksum H = false

structure Left (H : Sha1) (maxMsgSize : ℕ) (received : List UInt8) (q : MsgReader × ReadEnd) :
    Prop where
  reads : q.1.Reads H maxMsgSize received (held q)
  fits : q.2 ≠ .oversized
  starved : q.2 = .starved → q.1.Starved
  dropped : q.2 = .dropped → q.1.Corrupt H maxMsgSize received

/-- A header that is too large comes after whole messages. -/
def Overruns (maxMsgSize : ℕ) (received : List UInt8) : Prop :=
  ∃ (fs : List MsgBase) (s rest : List UInt8), (∀ m ∈ fs, m.Fits maxMsgSize) ∧
    received = fs.flatMap MsgBase.serialize ++ (s ++ rest) ∧ s.length = MsgBase.headerSize ∧
    maxMsgSize < (MsgBase.ofHeader s).length

theorem Reads.readLoop {fuel : ℕ} (room : ℕ) (h : r.Reads H maxMsgSize received none)
    (hfuel : r.unread.length < 13 * fuel) :
    Left H maxMsgSize received (r.readLoop H maxMsgSize fuel room) ∨
      (r.readLoop H maxMsgSize fuel room).2 = .oversized ∧ Overruns maxMsgSize received := by
  induction fuel generalizing r room with
  | zero => omega
  | succ fuel ih =>
    obtain ⟨hturn, hsound⟩ := readTurn_turned (H := H) (decide (room = 0)) h.sound
    unfold MsgReader.readLoop
    generalize r.readTurn H maxMsgSize (decide (room = 0)) = q at hturn hsound
    cases hturn with
    | starved r' hunread hin hs =>
      obtain ⟨fs, hfits, hbytes, hvalid⟩ := h.framed
      refine .inl ⟨⟨hsound, fs, hfits, ?_, ?_⟩, nofun, fun _ => hs, nofun⟩
      · rw [hbytes, hunread]
      · rw [hvalid, hin]
        rfl
    | oversized r' s rest hs hbig hunread =>
      obtain ⟨fs, hfits, hbytes, -⟩ := h.framed
      exact .inr ⟨rfl, fs, s, rest, hfits, hunread ▸ hbytes, hs, hbig⟩
    | dropped r' m hm hsum hunread hin hstate =>
      refine .inl ⟨?_, nofun, nofun, fun _ => ?_⟩
      · refine h.next hsound hm hunread ?_
        rw [List.filter_singleton, hsum, hin]
        rfl
      · obtain ⟨fs, hfits, hbytes, -⟩ := h.framed
        refine ⟨fs ++ [m], ?_, ?_, m, by simp, hsum⟩
        · simpa [or_imp, forall_and] using ⟨hfits, hm⟩
        · rw [hbytes, hunread, List.flatMap_append, List.flatMap_singleton, List.append_assoc]
    | sleeping r' hm hsum hunread hin hstate hfull =>
      refine .inl ⟨?_, nofun, nofun, nofun⟩
      refine h.next hsound hm hunread ?_
      rw [List.filter_singleton, hsum, hin]
      rfl
    | enqueued r' m hm hsum hunread hin hstate hroom =>
      apply ih
      · refine h.next hsound hm hunread ?_
        rw [List.filter_singleton, hsum, hin]
        exact List.append_nil _
      · have hlen := congrArg List.length hunread
        rw [List.length_append, MsgBase.serialize, List.length_append, MsgBase.length_header,
          MsgBase.headerSize] at hlen
        omega

theorem length_unread_le (h : r.Sound maxMsgSize) :
    r.unread.length ≤ 13 + r.recvBuffer.size := by
  have hcounted : r.recvBuffer.size = r.recvBuffer.contents.length := h.counted
  unfold unread
  cases r.msgState with
  | header =>
    simp only []
    omega
  | payload =>
    simp only []
    rw [List.length_append, MsgBase.length_header, ← hcounted]
    exact le_refl _

theorem Reads.read (h : r.Reads H maxMsgSize received none) (room : ℕ) :
    Left H maxMsgSize received (r.read H maxMsgSize room) ∨
      (r.read H maxMsgSize room).2 = .oversized ∧ Overruns maxMsgSize received := by
  apply h.readLoop
  have hle := length_unread_le h.sound
  omega

theorem Overruns.append (h : Overruns maxMsgSize received) (more : List UInt8) :
    Overruns maxMsgSize (received ++ more) := by
  obtain ⟨fs, s, rest, hfits, rfl, hs, hbig⟩ := h
  refine ⟨fs, s, rest ++ more, hfits, ?_, hs, hbig⟩
  simp only [List.append_assoc]

theorem Corrupt.mem (h : r.Corrupt H maxMsgSize received) {ms : List MsgBase}
    (hms : ∀ m ∈ ms, m.Fits maxMsgSize)
    (hcut : received = ms.flatMap MsgBase.serialize ++ r.unread) :
    ∃ m ∈ ms, m.verifyChecksum H = false := by
  obtain ⟨fs, hfits, rfl, m, hm, hbad⟩ := h
  have hsame := List.append_cancel_right hcut
  rw [← List.append_nil (fs.flatMap MsgBase.serialize)] at hsame
  have hpre := MsgBase.serialize_delimits.prefix (fun m _ => m.serialize_ne_nil)
    (fun m hm => (hfits m hm).toFramed) (fun m hm => (hms m hm).toFramed) hsame
  exact ⟨m, hpre.subset hm, hbad⟩

/-- The next message is not complete while the loop waits for it. -/
theorem Starved.incomplete (h : r.Starved) (hs : r.Sound maxMsgSize) {m : MsgBase}
    (hm : m.Framed) (rest : List UInt8) : r.unread ≠ m.serialize ++ rest := by
  intro heq
  have hcounted : r.recvBuffer.size = r.recvBuffer.contents.length := hs.counted
  have hlen := congrArg List.length heq
  rw [MsgBase.serialize, List.length_append, List.length_append, MsgBase.length_header] at hlen
  unfold Starved at h
  unfold unread at heq hlen
  cases hstate : r.msgState with
  | header =>
    rw [hstate] at h hlen
    simp only [] at h hlen
    omega
  | payload =>
    obtain ⟨-, s, hmsg⟩ := hs.header hstate
    rw [hstate] at h heq hlen
    simp only [] at h heq hlen
    rw [MsgBase.serialize, List.append_assoc] at heq
    have hhead := (List.append_inj heq (by simp)).1
    have hnarrow : r.msg.Narrow := hmsg ▸ MsgBase.ofHeader_narrow s
    have hsame := (hnarrow.header_inj hm.toNarrow hhead).2.2.1
    have hpay := hm.payload
    rw [List.length_append, MsgBase.length_header] at hlen
    omega

theorem not_overruns {ms : List MsgBase} (more : List UInt8)
    (hms : ∀ m ∈ ms, m.Fits maxMsgSize) (h : received ++ more = ms.flatMap MsgBase.serialize) :
    ¬Overruns maxMsgSize received := by
  rintro ⟨fs, s, rest, hfits, rfl, hs, hbig⟩
  rw [List.append_assoc] at h
  have hpre := MsgBase.serialize_delimits.prefix (fun m _ => m.serialize_ne_nil)
    (fun m hm => (hfits m hm).toFramed) (fun m hm => (hms m hm).toFramed) h
  obtain ⟨gs, rfl⟩ := hpre
  rw [List.flatMap_append] at h
  have htail := List.append_cancel_left h
  cases gs with
  | nil =>
    have hnil := congrArg List.length htail
    rw [List.length_append, List.length_append, hs, MsgBase.headerSize, List.flatMap_nil,
      List.length_nil] at hnil
    omega
  | cons g gs =>
    have hg : g.Fits maxMsgSize := hms g (by simp)
    rw [List.flatMap_cons, MsgBase.serialize, List.append_assoc, List.append_assoc] at htail
    have hhead := (List.append_inj htail (by simp [hs])).1
    rw [hhead, hg.toNarrow.length_ofHeader] at hbig
    have hsmall := hg.small
    omega

end MsgReader

end AvaHotstuff
