import AvaHotstuff.Exec

set_option autoImplicit false

/-!
# `HotStuffBase`

The message handlers and the delivery of blocks. A promise that is not resolved is
a dependency of the continuations registered on it; a continuation without
dependencies runs when `resume` takes it up. `log` lists what the node itself does
with blocks, oldest first.
-/
namespace AvaHotstuff

def Body.verify (C : Crypto) (c : ReplicaConfig) (b : Body) : Bool :=
  decide (b.qc.objHash = b0) || b.qc.verify C c

/-- A promise: of a fetched block, of a delivered block, or of the result of a task of the
verification pool. -/
inductive Dep where
  | fetched (blk : Hash)
  | delivered (blk : Hash)
  | verified (blk : Hash)
  | checked (voter : ReplicaID) (cert : PartCert)
deriving DecidableEq

inductive Cont where
  | start (blk : Hash) (replica : PeerId)
  | deliver (blk : Hash) (valid : Bool)
  | proposal (prop : Proposal)
  | vote (v : Vote)
  | lcomplain (c : Complain)
  | respond (blks : List Hash) (replica : PeerId)
deriving DecidableEq

structure Pending where
  deps : List Dep
  cont : Cont
deriving DecidableEq

inductive NodeEvent where
  | verified (blk : Hash) (result : Bool)
  | marked (blk : Hash)
  | resolved (blk : Hash)
  | made (blk : Hash)
  | fetchSent (blk : Hash) (dst : PeerId)
  | blocksSent (blks : List Hash) (dst : PeerId)
deriving DecidableEq

structure Node where
  core : Replica
  blkFetchWaiting : Hash → Option (Finset PeerId)
  blkDeliveryWaiting : Finset Hash
  pending : List Pending
  log : List NodeEvent

def Pending.verdict (p : Pending) (h : Hash) : List NodeEvent :=
  match p.cont with
  | .deliver x valid => if x = h ∧ .verified h ∈ p.deps then [.verified h valid] else []
  | _ => []

namespace Node

def start (c : Setup) : Node := ⟨c.start, fun _ => none, ∅, [], []⟩

def note (n : Node) (e : NodeEvent) : Node := { n with log := n.log ++ [e] }

def await (n : Node) (deps : List Dep) (cont : Cont) : Node :=
  { n with pending := n.pending ++ [⟨deps, cont⟩] }

def resolve (n : Node) (d : Dep) : Node :=
  { n with pending := n.pending.map fun p => ⟨p.deps.filter fun x => decide (x ≠ d), p.cont⟩ }

/-- Nothing is attached to the rejection of a promise, so what waits for it never runs. -/
def reject (n : Node) (d : Dep) : Node :=
  { n with pending := n.pending.filter fun p => decide (d ∉ p.deps) }

def call (C : Crypto) (n : Node) (op : Op) : Node :=
  let n' := { n with core := n.core.step C op }
  match n.core.proposes C op with
  | none => n'
  | some h => n'.note (.made h)

theorem call_core (C : Crypto) (n : Node) (op : Op) : (n.call C op).core = n.core.step C op := by
  unfold call
  simp only []
  split <;> rfl

/-- `FetchContext::add_replica`: the first replica is asked at once. -/
def addReplica (n : Node) (h : Hash) (replicas : Finset PeerId) (replica : PeerId) : Node :=
  let n := if replicas = ∅ then n.note (.fetchSent h replica) else n
  { n with blkFetchWaiting := Function.update n.blkFetchWaiting h (some (insert replica replicas)) }

def asyncFetchBlk (n : Node) (h : Hash) (replica : Option PeerId) : Node × List Dep :=
  if (n.core.storage.blkCache h).isSome then (n, [])
  else
    let replicas := (n.blkFetchWaiting h).getD ∅
    match replica with
    | none => ({ n with
        blkFetchWaiting := Function.update n.blkFetchWaiting h (some replicas) }, [.fetched h])
    | some p => (n.addReplica h replicas p, [.fetched h])

def asyncDeliverBlk (n : Node) (h : Hash) (replica : PeerId) : Node × List Dep :=
  if n.core.delivered h then (n, [])
  else if h ∈ n.blkDeliveryWaiting then (n, [.delivered h])
  else
    let n := { n with blkDeliveryWaiting := insert h n.blkDeliveryWaiting }
    let (n, deps) := n.asyncFetchBlk h (some replica)
    (n.await deps (.start h replica), [.delivered h])

def deliverParent (replica : PeerId) (r : Node × List Dep) (p : Hash) : Node × List Dep :=
  let (n, deps) := r.1.asyncDeliverBlk p replica
  (n, r.2 ++ deps)

/-- The continuation of the fetch in `async_deliver_blk`. -/
def startDelivery (C : Crypto) (n : Node) (h : Hash) (replica : PeerId) : Node :=
  match n.core.storage.blkCache h with
  | none => n
  | some blk =>
    let valid := decide (h = b0) || blk.body.verify C n.core.config
    let (n, qcDeps) := n.asyncFetchBlk blk.body.qc.objHash (some replica)
    let (n, parentDeps) := blk.body.parentHashes.foldl (deliverParent replica) (n, [])
    n.await (.verified h :: (qcDeps ++ parentDeps)) (.deliver h valid)

/-- The continuations, which are left to `resume`, run inside `resolve`: an exception of one of
them, when `thrown`, leaves `on_fetch_blk` before it erases the entry. -/
def onFetchBlk (n : Node) (h : Hash) (thrown : Bool) : Node :=
  match n.blkFetchWaiting h with
  | none => n
  | some _ =>
    let n := n.resolve (.fetched h)
    if thrown then n
    else { n with blkFetchWaiting := Function.update n.blkFetchWaiting h none }

def settle (n : Node) (h : Hash) (valid : Bool) : Node :=
  if h ∈ n.blkDeliveryWaiting then
    let n := if valid then (n.note (.resolved h)).resolve (.delivered h)
      else n.reject (.delivered h)
    { n with blkDeliveryWaiting := n.blkDeliveryWaiting.erase h }
  else n

def onDeliverBlk (n : Node) (h : Hash) : Node × Option Exn :=
  match n.core.onDeliverBlk h with
  | (core, .error e) => ({ n with core := core }, some e)
  | (core, .ok valid) =>
    let n := { n with core := core }
    ((if valid then n.note (.marked h) else n).settle h valid, none)

/-- The continuation of `promise::all` in `async_deliver_blk`. The arguments of the log call
come first, and `on_deliver_blk` is one of them. -/
def finishDelivery (n : Node) (h : Hash) (valid : Bool) : Node :=
  match n.onDeliverBlk h with
  | (n, some _) => n
  | (n, none) => if valid then (n.onDeliverBlk h).1 else n

/-- `propose_handler` once the proposer has been checked. -/
def dispatch (C : Crypto) (n : Node) (peer : PeerId) (prop : Proposal) (x : ℤ) : Node :=
  if prop.msgType = 1 then n.call C (.relayMc prop x)
  else if prop.msgType = 2 then n.call C (.receiveMcLocal prop x)
  else
    let (n, deps) := n.asyncDeliverBlk prop.blk peer
    n.await deps (.proposal prop)

/-- `propose_handler`. The block of a message of type 9 is parsed and dropped. `get_peer_id` of
an unknown proposer reads past the end of the map; the message is taken to be dropped then. -/
def proposeHandler (C : Crypto) (n : Node) (peer : PeerId) (prop : Proposal) (body : Body)
    (x : ℤ) : Node :=
  if prop.msgType = 9 then n
  else
    let prop := { prop with blk := C.getHash body }
    let n := n.call C (.addBlk body)
    if n.core.clusterId = prop.clusterNumber then
      match n.core.config.getPeerId prop.proposer with
      | none => n
      | some p =>
        if peer ≠ p ∧ prop.msgType < 3 then n else n.dispatch C peer prop x
    else n.dispatch C peer prop x

def voteHandler (n : Node) (peer : PeerId) (v : Vote) : Node :=
  let (n, deps) := n.asyncDeliverBlk v.blkHash peer
  n.await (deps ++ [.checked v.voter v.cert]) (.vote v)

def lcomplainHandler (n : Node) (peer : PeerId) (c : Complain) : Node :=
  let (n, deps) := n.asyncDeliverBlk c.blkHash peer
  n.await (deps ++ [.checked c.voter c.cert]) (.lcomplain c)

/-- `RComplain_handler`: the hash in the message is replaced by the one of the height. -/
def rcomplainHandler (C : Crypto) (n : Node) (c : Complain) (junk : ℤ) : Node :=
  if c.blkHeight < 0 then n
  else
    match n.core.storage.findBlkHashForCid c.blkHeight.toNat with
    | none => n
    | some h => n.call C (.receiveRComplain { c with blkHash := h } junk)

def fetchOne (r : Node × List Dep) (h : Hash) : Node × List Dep :=
  let (n, deps) := r.1.asyncFetchBlk h none
  (n, r.2 ++ deps)

def reqBlkHandler (n : Node) (peer : PeerId) (blks : List Hash) : Node :=
  let (n, deps) := blks.foldl fetchOne (n, [])
  n.await deps (.respond blks peer)

/-- The loop of `resp_blk_handler`, which an exception ends at the block number `thrown`. -/
def fetchBlks (C : Crypto) (n : Node) : Option ℕ → List Body → Node
  | _, [] => n
  | some 0, body :: _ => n.onFetchBlk (C.getHash body) true
  | thrown, body :: bodies =>
    (n.onFetchBlk (C.getHash body) false).fetchBlks C (thrown.map Nat.pred) bodies

def respBlkHandler (C : Crypto) (n : Node) (bodies : List Body) (thrown : Option ℕ) : Node :=
  (bodies.foldl (fun n body => n.call C (.addBlk body)) n).fetchBlks C thrown bodies

def run (C : Crypto) (n : Node) : Cont → Node
  | .start h replica => n.startDelivery C h replica
  | .deliver h valid => n.finishDelivery h valid
  | .proposal prop => n.call C (.receiveProposal prop.proposer prop.blk)
  | .vote v => if v.verify C then n.call C (.receiveVote v) else n
  | .lcomplain c => if c.verify C then n.call C (.receiveLComplain c) else n
  | .respond blks replica => n.note (.blocksSent blks replica)

def resume (C : Crypto) (n : Node) (k : ℕ) : Node :=
  match n.pending[k]? with
  | some ⟨[], cont⟩ => { n with pending := n.pending.eraseIdx k }.run C cont
  | _ => n

def verified (n : Node) (h : Hash) : Node :=
  { n with log := n.log ++ n.pending.flatMap (Pending.verdict · h) }.resolve (.verified h)

end Node

inductive Input where
  | propose (peer : PeerId) (prop : Proposal) (body : Body) (x : ℤ)
  | vote (peer : PeerId) (v : Vote)
  | lcomplain (peer : PeerId) (c : Complain)
  | rcomplain (c : Complain) (junk : ℤ)
  | reqBlk (peer : PeerId) (blks : List Hash)
  | respBlk (bodies : List Body) (thrown : Option ℕ)
  | verified (blk : Hash)
  | checked (voter : ReplicaID) (cert : PartCert)
  | resume (k : ℕ)
  | call (op : Op)

def Node.step (C : Crypto) (n : Node) : Input → Node
  | .propose peer prop body x => n.proposeHandler C peer prop body x
  | .vote peer v => n.voteHandler peer v
  | .lcomplain peer c => n.lcomplainHandler peer c
  | .rcomplain c junk => n.rcomplainHandler C c junk
  | .reqBlk peer blks => n.reqBlkHandler peer blks
  | .respBlk bodies thrown => n.respBlkHandler C bodies thrown
  | .verified h => n.verified h
  | .checked voter cert => n.resolve (.checked voter cert)
  | .resume k => n.resume C k
  | .call op => n.call C op

/-- The calls that `HotStuffBase` makes without a promise: the beats of the pacemaker, the
timers, the client requests and the membership messages. -/
def Op.immediate : Op → Bool
  | .propose _ _ _ _ _ | .remoteViewChangeTimeout _ | .msgRecs _ | .sendReconfigAck _ _
  | .msgRecsAggEchoReady _ | .asyncQcFinish _ | .waitDecision _ _ => true
  | _ => false

end AvaHotstuff
