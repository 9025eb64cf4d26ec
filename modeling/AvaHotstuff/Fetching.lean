import AvaHotstuff.HandlerAccess

set_option autoImplicit false

/-!
# Waiting for blocks

`blk_fetch_waiting` has the blocks that have been asked for. A block of a `MsgRespBlock` is
announced by `on_fetch_blk`, which ends the wait. A block that comes another way is only
stored: those who wait for it go on waiting.
-/
namespace AvaHotstuff
open Bytes

def Replica.stores (C : Crypto) (s : Replica) : Op → List Hash
  | .addBlk body => [C.getHash body]
  | op => (s.proposes C op).toList

theorem Replica.step_stored {C : Crypto} {s : Replica} (w : s.tree.Wf) {op : Op} {h : Hash}
    (hs : ((s.step C op).storage.blkCache h).isSome = true) :
    (s.storage.blkCache h).isSome = true ∨ h ∈ s.stores C op := by
  have htree : ∀ u : Replica, (u.tree h).isSome = (u.storage.blkCache h).isSome := by
    intro u
    unfold Replica.tree
    exact Option.isSome_map
  have hsteps := exec_steps C w op
  rw [← htree] at hs
  rcases hsteps.stored hs with hold | ⟨body, rfl, rfl⟩ | hprop
  · exact Or.inl ((htree s).symm.trans hold)
  · exact Or.inr (List.mem_singleton_self _)
  · cases op with
    | addBlk body => cases hprop
    | _ => exact Or.inr (Option.mem_toList.mpr hprop)

namespace Node

/-- The blocks of a message without those for which `on_fetch_blk` has returned: the ones before
the block at which a continuation throws. -/
def unfetched (C : Crypto) (thrown : Option ℕ) (bodies : List Body) : List Hash :=
  (bodies.map C.getHash).filter fun h =>
    decide (h ∉ (bodies.take (thrown.getD bodies.length)).map C.getHash)

/-- The blocks that a step stores and does not announce. -/
def unannounced (C : Crypto) (F : SigFormat) (n : Node) : Arrival → List Hash
  | .propose _ bytes _ => (Proposal.blkOf F bytes).toList.map C.getHash
  | .respBlock bytes thrown =>
    if (MsgRespBlock.blksOf F bytes).2 then unfetched C thrown (MsgRespBlock.blksOf F bytes).1
    else (MsgRespBlock.blksOf F bytes).1.map C.getHash
  | .other (.propose _ prop body _) => if prop.msgType = 9 then [] else [C.getHash body]
  | .other (.respBlk bodies thrown) => unfetched C thrown bodies
  | .other (.call op) => n.core.stores C op
  | _ => []

/-- Nobody waits for a block that the step stores in this way. -/
def Unawaited (C : Crypto) (F : SigFormat) (n : Node) (a : Arrival) : Prop :=
  ∀ h ∈ n.unannounced C F a, n.blkFetchWaiting h = none

/-- No block of the cache is waited for, by the table or by a continuation. -/
structure NoneStranded (n : Node) : Prop where
  waiting : ∀ h, (n.blkFetchWaiting h).isSome = true → n.core.storage.blkCache h = none
  pending : ∀ p ∈ n.pending, ∀ h, .fetched h ∈ p.deps → n.core.storage.blkCache h = none

def Fetches (n : Node) (deps : List Dep) : Prop :=
  ∀ h, .fetched h ∈ deps → (n.blkFetchWaiting h).isSome = true

/-- No block of the cache is waited for but those of `xs`, which are about to be announced. -/
structure Clear (xs : List Hash) (n : Node) : Prop where
  wf : n.core.tree.Wf
  waiting : ∀ h, (n.blkFetchWaiting h).isSome = true →
    n.core.storage.blkCache h = none ∨ h ∈ xs
  pending : ∀ p ∈ n.pending, n.Fetches p.deps

theorem Clear.none_stranded {n : Node} (k : n.Clear []) : n.NoneStranded := by
  have hwaiting : ∀ h, (n.blkFetchWaiting h).isSome = true → n.core.storage.blkCache h = none :=
    fun h hh => (k.waiting h hh).resolve_right List.not_mem_nil
  exact ⟨hwaiting, fun p hp h hh => hwaiting h (k.pending p hp h hh)⟩

section
variable {C : Crypto} {F : SigFormat} {xs : List Hash} {n m : Node}

theorem Clear.same (k : n.Clear xs) (hcore : m.core = n.core)
    (hwaiting : m.blkFetchWaiting = n.blkFetchWaiting)
    (hpending : ∀ p ∈ m.pending, ∃ q ∈ n.pending, p.deps ⊆ q.deps) : m.Clear xs := by
  refine ⟨hcore ▸ k.wf, ?_, ?_⟩
  · rw [hcore, hwaiting]
    exact k.waiting
  · intro p hp h hh
    obtain ⟨q, hq, hsub⟩ := hpending p hp
    rw [hwaiting]
    exact k.pending q hq h (hsub hh)

theorem Clear.await (k : n.Clear xs) {deps : List Dep} (hdeps : n.Fetches deps) (cont : Cont) :
    (n.await deps cont).Clear xs := by
  refine ⟨k.wf, k.waiting, ?_⟩
  intro p hp
  rcases List.mem_append.mp hp with hp | hp
  · exact k.pending p hp
  · rw [List.mem_singleton.mp hp]
    exact hdeps

theorem Clear.resolve (k : n.Clear xs) (d : Dep) : (n.resolve d).Clear xs := by
  refine k.same rfl rfl ?_
  intro p hp
  obtain ⟨q, hq, rfl⟩ := List.mem_map.mp hp
  exact ⟨q, hq, List.filter_subset_self _⟩

theorem Clear.step (k : n.Clear xs) {op : Op}
    (hop : ∀ h ∈ n.core.stores C op, n.blkFetchWaiting h = none ∨ h ∈ xs)
    (hcore : m.core = n.core.step C op) (hwaiting : m.blkFetchWaiting = n.blkFetchWaiting)
    (hpending : m.pending = n.pending) : m.Clear xs := by
  refine ⟨?_, ?_, ?_⟩
  · rw [hcore]
    exact (Replica.exec_steps C k.wf op).wf k.wf
  · intro h hh
    rw [hwaiting] at hh
    rw [hcore]
    by_contra hno
    rw [not_or, ← Ne, Option.ne_none_iff_isSome] at hno
    rcases Replica.step_stored k.wf hno.1 with hold | hnew
    · rcases k.waiting h hh with hnone | hmem
      · rw [hnone] at hold
        cases hold
      · exact hno.2 hmem
    · rcases hop h hnew with hnone | hmem
      · rw [hnone] at hh
        cases hh
      · exact hno.2 hmem
  · intro p hp h hh
    rw [hpending] at hp
    rw [hwaiting]
    exact k.pending p hp h hh

theorem Clear.call (k : n.Clear xs) {op : Op}
    (hop : ∀ h ∈ n.core.stores C op, n.blkFetchWaiting h = none ∨ h ∈ xs) :
    (n.call C op).Clear xs := by
  refine k.step hop (call_core C n op) ?_ (call_pending n op)
  unfold Node.call
  simp only []
  split <;> rfl

/-- A block that is there is not waited for; for another one there is an entry from now on. -/
theorem asyncFetchBlk_spec (n : Node) (h : Hash) (replica : Option PeerId) :
    n.asyncFetchBlk h replica = (n, []) ∨ (n.core.storage.blkCache h = none ∧
      ∃ replicas es, n.asyncFetchBlk h replica =
        ({ n with blkFetchWaiting := Function.update n.blkFetchWaiting h (some replicas),
                  log := n.log ++ es }, [.fetched h])) := by
  unfold asyncFetchBlk
  split
  · exact Or.inl rfl
  · rename_i hnone
    refine Or.inr ⟨Option.not_isSome_iff_eq_none.mp hnone, ?_⟩
    cases replica with
    | none => exact ⟨_, [], by rw [List.append_nil]⟩
    | some p =>
      simp only [addReplica]
      split
      · exact ⟨_, [.fetchSent h p], rfl⟩
      · exact ⟨_, [], by rw [List.append_nil]⟩

structure Clear.Next (xs : List Hash) (n m : Node) (deps : List Dep) : Prop where
  clear : m.Clear xs
  keep : ∀ h, (n.blkFetchWaiting h).isSome = true → (m.blkFetchWaiting h).isSome = true
  deps : m.Fetches deps

theorem Clear.asyncFetchBlk (k : n.Clear xs) (h : Hash) (replica : Option PeerId) :
    Clear.Next xs n (n.asyncFetchBlk h replica).1 (n.asyncFetchBlk h replica).2 := by
  rcases n.asyncFetchBlk_spec h replica with heq | ⟨hnone, replicas, es, heq⟩
  · rw [heq]
    exact ⟨k, fun _ hh => hh, fun x hx => absurd hx List.not_mem_nil⟩
  · rw [heq]
    have hkeep : ∀ x, (n.blkFetchWaiting x).isSome = true →
        (Function.update n.blkFetchWaiting h (some replicas) x).isSome = true := by
      intro x hx
      by_cases hxh : x = h
      · rw [hxh, Function.update_self]
        rfl
      · rw [Function.update_of_ne hxh]
        exact hx
    refine ⟨⟨k.wf, ?_, ?_⟩, hkeep, ?_⟩
    · intro x hx
      by_cases hxh : x = h
      · subst x
        exact Or.inl hnone
      · simp only [Function.update_of_ne hxh] at hx
        exact k.waiting x hx
    · exact fun p hp x hx => hkeep x (k.pending p hp x hx)
    · intro x hx
      cases List.mem_singleton.mp hx
      simp only [Function.update_self]
      rfl

theorem Clear.asyncDeliverBlk (k : n.Clear xs) (h : Hash) (replica : PeerId) :
    Clear.Next xs n (n.asyncDeliverBlk h replica).1 (n.asyncDeliverBlk h replica).2 := by
  unfold Node.asyncDeliverBlk
  split
  · exact ⟨k, fun _ hh => hh, fun x hx => absurd hx List.not_mem_nil⟩
  have hdelivered : ∀ m : Node, m.Fetches [.delivered h] := by
    intro m x hx
    cases List.mem_singleton.mp hx
  split
  · exact ⟨k, fun _ hh => hh, hdelivered n⟩
  have k₁ : Clear xs { n with blkDeliveryWaiting := insert h n.blkDeliveryWaiting } :=
    k.same rfl rfl fun p hp => ⟨p, hp, List.Subset.refl _⟩
  obtain ⟨k₂, hkeep, hdeps⟩ := k₁.asyncFetchBlk h (some replica)
  exact ⟨k₂.await hdeps _, hkeep, hdelivered _⟩

theorem Clear.foldl {f : Node × List Dep → Hash → Node × List Dep}
    (hf : ∀ (m : Node) (deps : List Dep) (h : Hash), m.Clear xs →
      ∃ more, (f (m, deps) h).2 = deps ++ more ∧ Clear.Next xs m (f (m, deps) h).1 more)
    (hs : List Hash) {m : Node} {deps : List Dep} (k : Clear.Next xs n m deps) :
    Clear.Next xs n (hs.foldl f (m, deps)).1 (hs.foldl f (m, deps)).2 := by
  induction hs generalizing m deps with
  | nil => exact k
  | cons h hs ih =>
    obtain ⟨more, hdeps, k'⟩ := hf m deps h k.clear
    rw [List.foldl_cons]
    refine @ih (f (m, deps) h).1 (f (m, deps) h).2 ⟨k'.clear, ?_, ?_⟩
    · exact fun x hx => k'.keep x (k.keep x hx)
    · intro x hx
      rw [hdeps] at hx
      rcases List.mem_append.mp hx with hx | hx
      · exact k'.keep x (k.deps x hx)
      · exact k'.deps x hx

theorem Clear.start (k : n.Clear xs) : Clear.Next xs n n [] :=
  ⟨k, fun _ hh => hh, fun _ hx => absurd hx List.not_mem_nil⟩

theorem Clear.startDelivery (k : n.Clear xs) (h : Hash) (replica : PeerId) :
    (n.startDelivery C h replica).Clear xs := by
  unfold Node.startDelivery
  split
  · exact k
  rename_i blk hblk
  simp only []
  obtain ⟨k₁, hkeep₁, hdeps₁⟩ := k.asyncFetchBlk blk.body.qc.objHash (some replica)
  obtain ⟨k₂, hkeep₂, hdeps₂⟩ := Clear.foldl (f := deliverParent replica)
    (fun m deps p km => ⟨_, rfl, km.asyncDeliverBlk p replica⟩) blk.body.parentHashes k₁.start
  refine k₂.await ?_ _
  intro x hx
  rcases List.mem_cons.mp hx with hx | hx
  · cases hx
  rcases List.mem_append.mp hx with hx | hx
  · exact hkeep₂ x (hdeps₁ x hx)
  · exact hdeps₂ x hx

theorem Clear.settle (k : n.Clear xs) (h : Hash) (valid : Bool) : (n.settle h valid).Clear xs := by
  unfold Node.settle
  split
  · split
    · exact ((k.same rfl rfl fun p hp => ⟨p, hp, List.Subset.refl _⟩ :
        (n.note (.resolved h)).Clear xs).resolve (.delivered h)).same rfl rfl
          fun p hp => ⟨p, hp, List.Subset.refl _⟩
    · refine k.same rfl rfl ?_
      exact fun p hp => ⟨p, List.mem_of_mem_filter hp, List.Subset.refl _⟩
  · exact k

theorem Clear.onDeliverBlk (C : Crypto) (k : n.Clear xs) (h : Hash) :
    (n.onDeliverBlk h).1.Clear xs := by
  have hop : ∀ x ∈ n.core.stores C (.deliverBlk h), n.blkFetchWaiting x = none ∨ x ∈ xs :=
    fun x hx => absurd hx List.not_mem_nil
  unfold Node.onDeliverBlk
  split
  · rename_i u e hu
    exact k.step hop (Replica.deliver_step C hu) rfl rfl
  · rename_i u valid hu
    have k₁ : Clear xs { n with core := u } := k.step hop (Replica.deliver_step C hu) rfl rfl
    apply Clear.settle
    split
    · exact k₁.same rfl rfl fun p hp => ⟨p, hp, List.Subset.refl _⟩
    · exact k₁

theorem Clear.run (k : n.Clear xs) (cont : Cont) : (n.run C cont).Clear xs := by
  cases cont with
  | start h replica => exact k.startDelivery h replica
  | deliver h valid =>
    change (n.finishDelivery h valid).Clear xs
    rw [finishDelivery_eq]
    exact k.onDeliverBlk C h
  | proposal prop =>
    change (n.call C (.receiveProposal prop.proposer prop.blk)).Clear xs
    exact k.call fun x hx => absurd hx List.not_mem_nil
  | vote v =>
    change (if v.verify C then n.call C (.receiveVote v) else n).Clear xs
    split
    · exact k.call fun x hx => absurd hx List.not_mem_nil
    · exact k
  | lcomplain v =>
    change (if v.verify C then n.call C (.receiveLComplain v) else n).Clear xs
    split
    · exact k.call fun x hx => absurd hx List.not_mem_nil
    · exact k
  | respond blks replica => exact k.same rfl rfl fun p hp => ⟨p, hp, List.Subset.refl _⟩

theorem Clear.resume (k : n.Clear xs) (i : ℕ) : (n.resume C i).Clear xs := by
  unfold Node.resume
  split
  · have k₁ : Clear xs { n with pending := n.pending.eraseIdx i } := by
      refine k.same rfl rfl ?_
      exact fun p hp => ⟨p, List.mem_of_mem_eraseIdx hp, List.Subset.refl _⟩
    exact k₁.run _
  · exact k

theorem Clear.awaitDelivered (k : n.Clear xs) (h : Hash) (peer : PeerId) {more : List Dep}
    (hmore : ∀ x, Dep.fetched x ∉ more) (cont : Cont) :
    ((n.asyncDeliverBlk h peer).1.await ((n.asyncDeliverBlk h peer).2 ++ more) cont).Clear xs := by
  obtain ⟨k₁, -, hdeps⟩ := k.asyncDeliverBlk h peer
  refine k₁.await ?_ cont
  intro x hx
  rcases List.mem_append.mp hx with hx | hx
  · exact hdeps x hx
  · exact absurd hx (hmore x)

theorem Clear.dispatch (k : n.Clear xs) (peer : PeerId) (prop : Proposal) (x : ℤ) :
    (n.dispatch C peer prop x).Clear xs := by
  unfold Node.dispatch
  split
  · exact k.call fun x hx => absurd hx List.not_mem_nil
  split
  · exact k.call fun x hx => absurd hx List.not_mem_nil
  · obtain ⟨k₁, -, hdeps⟩ := k.asyncDeliverBlk prop.blk peer
    exact k₁.await hdeps _

theorem Clear.proposeHandler (k : n.Clear xs) (peer : PeerId) (prop : Proposal) {body : Body}
    (hbody : prop.msgType ≠ 9 → n.blkFetchWaiting (C.getHash body) = none) (x : ℤ) :
    (n.proposeHandler C peer prop body x).Clear xs := by
  unfold Node.proposeHandler
  split
  · exact k
  rename_i h9
  have k₁ : (n.call C (.addBlk body)).Clear xs := by
    refine k.call fun y hy => Or.inl ?_
    rw [List.mem_singleton.mp hy]
    exact hbody h9
  simp only []
  split
  · split
    · exact k₁
    split
    · exact k₁
    · exact k₁.dispatch peer _ x
  · exact k₁.dispatch peer _ x

theorem Clear.reqBlkHandler (k : n.Clear xs) (peer : PeerId) (blks : List Hash) :
    (n.reqBlkHandler peer blks).Clear xs := by
  obtain ⟨k₁, -, hdeps⟩ := Clear.foldl (f := fetchOne)
    (fun m deps h km => ⟨_, rfl, km.asyncFetchBlk h none⟩) blks k.start
  exact k₁.await hdeps _

theorem Clear.addBlks (k : n.Clear xs) {bodies : List Body}
    (hbodies : ∀ body ∈ bodies, n.blkFetchWaiting (C.getHash body) = none ∨
      C.getHash body ∈ xs) : (n.addBlks C bodies).Clear xs := by
  unfold Node.addBlks
  induction bodies generalizing n with
  | nil => exact k
  | cons body bodies ih =>
    refine ih (k.call ?_) fun b hb => hbodies b (List.mem_cons_of_mem _ hb)
    intro y hy
    rw [List.mem_singleton.mp hy]
    exact hbodies body (List.mem_cons_self ..)

theorem Clear.onFetchBlk {h : Hash} (k : n.Clear (h :: xs)) : (n.onFetchBlk h false).Clear xs := by
  have hone : ∀ x, (n.blkFetchWaiting x).isSome = true → x ≠ h →
      n.core.storage.blkCache x = none ∨ x ∈ xs := by
    intro x hx hxh
    rcases k.waiting x hx with hnone | hmem
    · exact Or.inl hnone
    · exact Or.inr ((List.mem_cons.mp hmem).resolve_left hxh)
  unfold Node.onFetchBlk
  split
  · rename_i hnone
    refine ⟨k.wf, ?_, k.pending⟩
    intro x hx
    refine hone x hx ?_
    rintro rfl
    rw [hnone] at hx
    cases hx
  · refine ⟨k.wf, ?_, ?_⟩
    · intro x hx
      have hxh : x ≠ h := by
        rintro rfl
        change (Function.update n.blkFetchWaiting x none x).isSome = true at hx
        rw [Function.update_self] at hx
        cases hx
      change (Function.update n.blkFetchWaiting h none x).isSome = true at hx
      rw [Function.update_of_ne hxh] at hx
      exact hone x hx hxh
    · intro p hp x hx
      obtain ⟨q, hq, rfl⟩ := List.mem_map.mp hp
      obtain ⟨hmem, hne⟩ := List.mem_filter.mp hx
      have hxh : x ≠ h := by
        rintro rfl
        exact of_decide_eq_true hne rfl
      change (Function.update n.blkFetchWaiting h none x).isSome = true
      rw [Function.update_of_ne hxh]
      exact k.pending q hq x hmem

theorem Clear.fetchBlks (thrown : Option ℕ) (bodies : List Body)
    (k : n.Clear ((bodies.take (thrown.getD bodies.length)).map C.getHash)) :
    (n.fetchBlks C thrown bodies).Clear [] := by
  induction bodies generalizing n thrown with
  | nil =>
    rw [List.take_nil] at k
    exact k
  | cons body bodies ih =>
    match thrown with
    | none => exact ih none k.onFetchBlk
    | some (j + 1) => exact ih (some j) k.onFetchBlk
    | some 0 =>
      change (n.onFetchBlk (C.getHash body) true).Clear []
      unfold Node.onFetchBlk
      split
      · exact k
      · exact k.resolve _

theorem Clear.respBlkHandler (k : n.Clear []) {bodies : List Body} {thrown : Option ℕ}
    (h : ∀ x ∈ unfetched C thrown bodies, n.blkFetchWaiting x = none) :
    (n.respBlkHandler C bodies thrown).Clear [] := by
  have k₁ : n.Clear ((bodies.take (thrown.getD bodies.length)).map C.getHash) :=
    ⟨k.wf, fun h hh => Or.inl ((k.waiting h hh).resolve_right List.not_mem_nil), k.pending⟩
  apply Clear.fetchBlks
  apply k₁.addBlks
  intro body hb
  by_cases hmem : C.getHash body ∈ (bodies.take (thrown.getD bodies.length)).map C.getHash
  · exact Or.inr hmem
  · exact Or.inl (h _ (List.mem_filter.mpr ⟨List.mem_map_of_mem hb, decide_eq_true hmem⟩))

theorem Clear.input (k : n.Clear []) {i : Input} (hi : n.Unawaited C F (.other i)) :
    (n.step C i).Clear [] := by
  cases i with
  | propose peer prop body x =>
    refine k.proposeHandler peer prop ?_ x
    intro h9
    refine hi _ ?_
    change C.getHash body ∈ if prop.msgType = 9 then [] else [C.getHash body]
    rw [if_neg h9]
    exact List.mem_singleton_self _
  | vote peer v => exact k.awaitDelivered v.blkHash peer (by simp) _
  | lcomplain peer v => exact k.awaitDelivered v.blkHash peer (by simp) _
  | rcomplain v junk =>
    change (n.rcomplainHandler C v junk).Clear []
    unfold rcomplainHandler
    split
    · exact k
    split
    · exact k
    · exact k.call fun x hx => absurd hx List.not_mem_nil
  | reqBlk peer blks => exact k.reqBlkHandler peer blks
  | respBlk bodies thrown => exact k.respBlkHandler hi
  | verified h =>
    have k₁ : Clear [] { n with log := n.log ++ n.pending.flatMap (Pending.verdict · h) } :=
      k.same rfl rfl fun p hp => ⟨p, hp, List.Subset.refl _⟩
    exact k₁.resolve (.verified h)
  | checked voter cert => exact k.resolve (.checked voter cert)
  | resume j => exact k.resume j
  | call op => exact k.call fun x hx => Or.inl (hi x hx)

theorem Clear.receive (k : n.Clear []) {a : Arrival} (ha : n.Unawaited C F a) :
    (n.receive C F a).Clear [] := by
  cases a with
  | propose peer bytes x =>
    have hblk : ∀ body ∈ Proposal.blkOf F bytes, n.blkFetchWaiting (C.getHash body) = none :=
      fun body hb => ha _ (List.mem_map_of_mem (Option.mem_toList.mpr hb))
    unfold Node.receive
    simp only []
    split
    · rename_i prop body hdec
      exact k.proposeHandler peer prop (fun _ => hblk body (blkOf_of_decode hdec)) x
    · refine k.addBlks fun body hb => Or.inl (hblk body (Option.mem_toList.mp hb))
  | respBlock bytes thrown =>
    have ha' : ∀ h ∈ (if (MsgRespBlock.blksOf F bytes).2 then
        unfetched C thrown (MsgRespBlock.blksOf F bytes).1
        else (MsgRespBlock.blksOf F bytes).1.map C.getHash), n.blkFetchWaiting h = none := ha
    unfold Node.receive
    simp only []
    split
    · rename_i hread
      rw [if_pos hread] at ha'
      exact k.respBlkHandler ha'
    · rename_i hcut
      rw [if_neg hcut] at ha'
      exact k.addBlks fun body hb => Or.inl (ha' _ (List.mem_map_of_mem hb))
  | vote peer bytes =>
    unfold Node.receive
    simp only []
    split
    · exact k.awaitDelivered _ peer (by simp) _
    · exact k
  | lcomplain peer bytes =>
    unfold Node.receive
    simp only []
    split
    · exact k.awaitDelivered _ peer (by simp) _
    · exact k
  | recs bytes =>
    unfold Node.receive
    simp only []
    split
    · exact k.call fun x hx => absurd hx List.not_mem_nil
    · exact k
  | recsAggEchoReady bytes =>
    unfold Node.receive
    simp only []
    split
    · exact k.call fun x hx => absurd hx List.not_mem_nil
    · exact k
  | other i => exact k.input ha

end

/-- In every run in which nobody waits for the blocks that are stored without being announced,
no block of the cache is waited for. -/
theorem no_waiter_left_behind (C : Crypto) (F : SigFormat) (c : Setup) {n : Node}
    (h : Runs.Reach (fun n a => n.Unawaited C F a) (receive C F) (start c) n) :
    n.NoneStranded := by
  refine (h.invariant (Clear []) ⟨c.start_chained.wf, ?_, ?_⟩ ?_).none_stranded
  · intro x hx
    cases hx
  · exact fun p hp => absurd hp List.not_mem_nil
  · exact fun m a km ha => km.receive ha

instance (C : Crypto) (F : SigFormat) (n : Node) (a : Arrival) : Decidable (n.Unawaited C F a) :=
  inferInstanceAs (Decidable (∀ h ∈ n.unannounced C F a, _))

def earlyVote : Arrival := .other (.vote 2 ⟨2, 1, ⟨1, 1⟩⟩)

def fetched : Node := Runs.run (receive .sample .sample) (start (.four 1))
  [earlyVote, .other (.respBlk [.sample b0 b0 7 []] none)]

theorem no_waiter_left_behind_fetched :
    (fetched.core.storage.blkCache 1).isSome = true ∧ fetched.NoneStranded :=
  ⟨by decide +kernel, no_waiter_left_behind .sample .sample (.four 1)
    (Runs.reach_run _ .init (by decide +kernel))⟩

def proposedMeanwhile : Node := Runs.run (receive .sample .sample) (start (.four 1))
  [earlyVote, .other (.propose 0 ⟨0, 0, 0, 0, 0, 0, ∅, 0⟩ (.sample b0 b0 7 []) 0)]

/-- The block is there, and its delivery waits for it to be fetched. -/
theorem waiter_left_behind :
    (proposedMeanwhile.core.storage.blkCache 1).isSome = true ∧
      (proposedMeanwhile.blkFetchWaiting 1).isSome = true ∧
      ⟨[.fetched 1], .start 1 2⟩ ∈ proposedMeanwhile.pending := by
  decide +kernel

end Node

end AvaHotstuff
