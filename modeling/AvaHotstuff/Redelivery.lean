import AvaHotstuff.Delivery
import AvaHotstuff.QuorumReached

set_option autoImplicit false

/-!
# A delivery that failed

`on_deliver_blk` clears and fills the parents of its block and sets its height before it
knows that the delivery goes through. The two fields are all that a failed call leaves behind,
and the next call writes them again. Blocks that arrive in between do not read them; a proposal
with a certificate for the block does.
-/
namespace AvaHotstuff

/-- Blocks that arrive: they are parsed into the cache, and delivered. -/
def Op.arrival : Op → Bool
  | .addBlk _ | .deliverBlk _ => true
  | _ => false

namespace Replica
variable {s t : Replica} {h x : Hash} {ps qs : List Hash} {k l : ℕ}

/-- `t` is `s` with what failed deliveries of `h` have left behind. -/
inductive LeftOver (h : Hash) (s : Replica) : Replica → Prop where
  | none : LeftOver h s s
  | links {blk : Block} (ps : List Hash) (k : ℕ) (hb : s.storage.blkCache h = some blk)
      (hd : blk.delivered = false) : LeftOver h s (s.modifyBlk h (·.linked ps k))

theorem linked_linked : (s.modifyBlk h (·.linked ps k)).modifyBlk h (·.linked qs l) =
    s.modifyBlk h (·.linked qs l) := by
  unfold modifyBlk
  simp only [Function.update_self, Function.update_idem, Option.map_map]
  rfl

theorem linked_comm (f : Block → Block) (hx : x ≠ h) :
    (s.modifyBlk h (·.linked ps k)).modifyBlk x f =
      (s.modifyBlk x f).modifyBlk h (·.linked ps k) := by
  unfold modifyBlk
  simp only [Function.update_of_ne hx, Function.update_of_ne hx.symm]
  rw [Function.update_comm hx]

theorem linked_cache_of_ne (hx : x ≠ h) :
    (s.modifyBlk h (·.linked ps k)).storage.blkCache x = s.storage.blkCache x :=
  Function.update_of_ne hx ..

theorem linked_markDelivered (hx : x ≠ h) :
    (s.modifyBlk h (·.linked ps k)).markDelivered x qs =
      (s.markDelivered x qs).modifyBlk h (·.linked ps k) := by
  have hmap : ∀ u : Replica, (u.modifyBlk h (·.linked ps k)).storeInMapForMc x =
      (u.storeInMapForMc x).modifyBlk h (·.linked ps k) := by
    intro u
    unfold storeInMapForMc
    rw [modifyBlk_height_of_ne _ hx]
    unfold EntityStorage.addCidBlkhash modifyBlk
    simp only []
    split <;> rfl
  unfold markDelivered
  simp only []
  rw [← hmap, ← linked_comm _ hx]
  rfl

theorem addBlk_present {b : Block} (hs : (s.storage.blkCache h).isSome = true) :
    s.addBlk h b = s := by
  unfold addBlk EntityStorage.addBlk
  rw [if_pos hs]

theorem linked_addBlk (b : Block) (hs : (s.storage.blkCache h).isSome = true) :
    (s.modifyBlk h (·.linked ps k)).addBlk x b =
      (s.addBlk x b).modifyBlk h (·.linked ps k) := by
  by_cases hx : x = h
  · subst x
    rw [addBlk_present hs, addBlk_present (by rw [modifyBlk_stored]; exact hs)]
  unfold addBlk EntityStorage.addBlk
  rw [linked_cache_of_ne hx]
  split
  · rfl
  · unfold modifyBlk
    simp only [Function.update_of_ne (Ne.symm hx)]
    rw [Function.update_comm hx]

section
variable {blk : Block} (hb : s.storage.blkCache h = some blk) (hd : blk.delivered = false)
include hb hd

theorem linked_height {p : Hash} (hp : s.delivered p = true) :
    (s.modifyBlk h (·.linked ps k)).height p = s.height p := by
  refine modifyBlk_height_of_ne _ ?_
  rintro rfl
  rw [delivered_of_cache hb, hd] at hp
  cases hp

/-- The delivery of another block neither reads the two fields nor changes them. -/
theorem linked_deliver (hx : x ≠ h) :
    (s.modifyBlk h (·.linked ps k)).onDeliverBlk x =
      ((s.onDeliverBlk x).1.modifyBlk h (·.linked ps k), (s.onDeliverBlk x).2) := by
  have hdel : ∀ y, (s.modifyBlk h (·.linked ps k)).delivered y = s.delivered y :=
    linked_delivered ps k
  have hcache : ∀ {b}, s.storage.blkCache x = b →
      (s.modifyBlk h (·.linked ps k)).storage.blkCache x = b :=
    fun hb => (linked_cache_of_ne hx).trans hb
  have d := s.delivery x
  generalize s.onDeliverBlk x = r at d ⊢
  cases d with
  | absent hx => exact (Delivery.absent (hcache hx)).eq
  | again hx hdel => exact (Delivery.again (hcache hx) hdel).eq
  | unparented hc hfresh hp =>
    rw [(Delivery.unparented (hcache hc) hfresh hp).eq, linked_comm _ hx]
  | @orphan b hc hfresh hp =>
    have hp' : ∃ q ∈ b.body.parentHashes, (s.modifyBlk h (·.linked ps k)).delivered q = false := by
      simpa only [hdel] using hp
    rw [(Delivery.orphan (hcache hc) hfresh hp').eq, linked_comm _ hx, funext hdel]
  | uncertified hc hfresh hhead hp hq =>
    have hnone := linked_stored_none (s := s) (h := h) ps k
    rw [(Delivery.uncertified (hcache hc) hfresh hhead (by simpa only [hdel] using hp)
      (by rw [← Option.isNone_iff_eq_none, hnone, hq]; rfl)).eq,
      linked_height hb hd (hp _ (List.mem_of_head? hhead)), linked_comm _ hx]
  | done hc hfresh hhead hp hq =>
    rw [(Delivery.done (hcache hc) hfresh hhead (by simpa only [hdel] using hp)
      (by rw [modifyBlk_stored]; exact hq)).eq,
      linked_height hb hd (hp _ (List.mem_of_head? hhead)), linked_comm _ hx,
      linked_markDelivered hx]

/-- The call that is made again answers as if it were made for the first time, and leaves the
same state unless it fails too. -/
theorem linked_redeliver (ps : List Hash) (k : ℕ) :
    ((s.modifyBlk h (·.linked ps k)).onDeliverBlk h).2 = (s.onDeliverBlk h).2 ∧
      (∀ v, (s.onDeliverBlk h).2 = .ok v →
        ((s.modifyBlk h (·.linked ps k)).onDeliverBlk h).1 = (s.onDeliverBlk h).1) ∧
      LeftOver h (s.onDeliverBlk h).1 ((s.modifyBlk h (·.linked ps k)).onDeliverBlk h).1 := by
  have hdel : ∀ y, (s.modifyBlk h (·.linked ps k)).delivered y = s.delivered y :=
    linked_delivered ps k
  have hcache : (s.modifyBlk h (·.linked ps k)).storage.blkCache h = some (blk.linked ps k) :=
    modifyBlk_cache (·.linked ps k) hb
  have hall : (∀ q ∈ blk.body.parentHashes, s.delivered q = true) →
      ∀ q ∈ (blk.linked ps k).body.parentHashes,
        (s.modifyBlk h (·.linked ps k)).delivered q = true :=
    fun hp q hq => (hdel q).trans (hp q hq)
  have hfail : ∀ qs l l', LeftOver h (s.modifyBlk h (·.linked qs l))
      (s.modifyBlk h (·.linked qs l')) := by
    intro qs l l'
    have hlinks := LeftOver.links qs l' (modifyBlk_cache (·.linked qs l) hb) hd
    rw [linked_linked] at hlinks
    exact hlinks
  have d := s.delivery h
  generalize s.onDeliverBlk h = r at d ⊢
  cases d with
  | absent hc =>
    rw [hb] at hc
    cases hc
  | again hc hdone =>
    obtain rfl : blk = _ := Option.some.inj (hb.symm.trans hc)
    rw [hd] at hdone
    cases hdone
  | unparented hc hfresh hp =>
    obtain rfl : blk = _ := Option.some.inj (hb.symm.trans hc)
    rw [(Delivery.unparented hcache hd hp).eq, linked_linked]
    exact ⟨rfl, fun v hv => (by cases hv), hfail ..⟩
  | orphan hc hfresh hp =>
    obtain rfl : blk = _ := Option.some.inj (hb.symm.trans hc)
    have hp' : ∃ q ∈ blk.body.parentHashes,
        (s.modifyBlk h (·.linked ps k)).delivered q = false := by
      simpa only [hdel] using hp
    rw [(Delivery.orphan hcache hd hp').eq, linked_linked, funext hdel]
    exact ⟨rfl, fun v hv => (by cases hv), hfail ..⟩
  | uncertified hc hfresh hhead hp hq =>
    obtain rfl : blk = _ := Option.some.inj (hb.symm.trans hc)
    have hnone := linked_stored_none (s := s) (h := h) ps k
    rw [(Delivery.uncertified hcache hd hhead (hall hp)
      (by rw [← Option.isNone_iff_eq_none, hnone]; exact Option.isNone_iff_eq_none.mpr hq)).eq,
      linked_height hb hd (hp _ (List.mem_of_head? hhead)), linked_linked]
    exact ⟨rfl, fun _ _ => rfl, .none⟩
  | done hc hfresh hhead hp hq =>
    obtain rfl : blk = _ := Option.some.inj (hb.symm.trans hc)
    rw [(Delivery.done hcache hd hhead (hall hp)
      (by rw [modifyBlk_stored]; exact hq)).eq,
      linked_height hb hd (hp _ (List.mem_of_head? hhead)), linked_linked]
    exact ⟨rfl, fun _ _ => rfl, .none⟩

end

theorem onDeliverBlk_cache_of_ne (hx : h ≠ x) :
    (s.onDeliverBlk x).1.storage.blkCache h = s.storage.blkCache h := by
  have hmap : ∀ u : Replica, (u.storeInMapForMc x).storage.blkCache = u.storage.blkCache := by
    intro u
    unfold storeInMapForMc EntityStorage.addCidBlkhash
    split <;> rfl
  have d := s.delivery x
  generalize s.onDeliverBlk x = r at d ⊢
  cases d with
  | absent | again => rfl
  | unparented | orphan | uncertified => exact Function.update_of_ne hx ..
  | done =>
    unfold markDelivered
    simp only []
    rw [hmap]
    exact (Function.update_of_ne hx ..).trans (Function.update_of_ne hx ..)

theorem LeftOver.onDeliverBlk (o : LeftOver h s t) (x : Hash) :
    LeftOver h (s.onDeliverBlk x).1 (t.onDeliverBlk x).1 := by
  cases o with
  | none => exact .none
  | links ps k hb hd =>
    by_cases hx : x = h
    · subst x
      exact (linked_redeliver hb hd ps k).2.2
    · rw [linked_deliver hb hd hx]
      exact .links ps k ((onDeliverBlk_cache_of_ne (Ne.symm hx)).trans hb) hd

theorem addBlk_cache_of_stored {b blk : Block} (hb : s.storage.blkCache h = some blk) :
    (s.addBlk x b).storage.blkCache h = some blk := by
  unfold addBlk EntityStorage.addBlk
  split
  · exact hb
  · rename_i hnone
    refine (Function.update_of_ne ?_ ..).trans hb
    rintro rfl
    exact hnone (by rw [hb]; rfl)

theorem LeftOver.step (C : Crypto) (o : LeftOver h s t) {op : Op} (hop : op.arrival = true) :
    LeftOver h (s.step C op) (t.step C op) := by
  cases op with
  | deliverBlk x =>
    change LeftOver h (s.deliverOutcome x).1 (t.deliverOutcome x).1
    rw [deliverOutcome_fst, deliverOutcome_fst]
    exact o.onDeliverBlk x
  | addBlk body =>
    change LeftOver h (s.addBlk _ _) (t.addBlk _ _)
    cases o with
    | none => exact .none
    | links ps k hb hd =>
      rw [linked_addBlk _ (by rw [hb]; rfl)]
      exact .links ps k (addBlk_cache_of_stored hb) hd
  | _ => cases hop

theorem LeftOver.run (C : Crypto) (ops : List Op) (hops : ∀ op ∈ ops, op.arrival = true)
    (o : LeftOver h s t) : LeftOver h (Runs.run (Replica.step C) s ops)
      (Runs.run (Replica.step C) t ops) := by
  induction ops generalizing s t with
  | nil => exact o
  | cons op ops ih =>
    exact ih (fun op hop => hops op (List.mem_cons_of_mem _ hop))
      (o.step C (hops op (List.mem_cons_self ..)))

theorem LeftOver.redeliver (o : LeftOver h s t) {v : Bool} (hv : (s.onDeliverBlk h).2 = .ok v) :
    t.onDeliverBlk h = s.onDeliverBlk h := by
  cases o with
  | none => rfl
  | links ps k hb hd =>
    obtain ⟨hanswer, hstate, _⟩ := linked_redeliver hb hd ps k
    exact Prod.ext (hstate v hv) hanswer

theorem arrival_grows (C : Crypto) {op : Op} (hop : op.arrival = true) :
    s.tree.Grows (s.step C op).tree := by
  cases op with
  | deliverBlk x =>
    change s.tree.Grows (s.deliverOutcome x).1.tree
    rw [deliverOutcome_fst]
    exact (onDeliverBlk_steps (G := Ledger.Guard.any) x trivial).grows
  | addBlk body =>
    exact (addBlk_steps (G := Ledger.Guard.any) (b := Block.parsed body) (C.getHash body) rfl rfl
      (fun _ hp => absurd hp List.not_mem_nil) trivial).grows
  | _ => cases hop

theorem arrivals_grow (C : Crypto) (ops : List Op) (hops : ∀ op ∈ ops, op.arrival = true) :
    s.tree.Grows (Runs.run (step C) s ops).tree := by
  induction ops generalizing s with
  | nil => exact .refl _
  | cons op ops ih =>
    exact (arrival_grows C (hops op (List.mem_cons_self ..))).trans
      (ih fun op hop => hops op (List.mem_cons_of_mem _ hop))

theorem onDeliverBlk_succeeds {blk : Block} (hb : s.storage.blkCache h = some blk)
    (hne : blk.body.parentHashes ≠ [])
    (hp : ∀ q ∈ blk.body.parentHashes, s.delivered q = true)
    (hq : (s.storage.blkCache blk.body.qc.objHash).isSome = true) :
    ∃ v, (s.onDeliverBlk h).2 = .ok v := by
  cases hd : blk.delivered with
  | true => exact ⟨false, congrArg Prod.snd (Delivery.again hb hd).eq⟩
  | false =>
    obtain ⟨p, ps, hps⟩ := List.exists_cons_of_ne_nil hne
    have hhead : blk.body.parentHashes.head? = some p := by rw [hps, List.head?_cons]
    exact ⟨true, congrArg Prod.snd (Delivery.done hb hd hhead hp hq).eq⟩

/-- What a failed delivery leaves behind, and why it failed. -/
theorem onDeliverBlk_throws {u : Replica} {blk : Block} {e : Exn}
    (hb : s.storage.blkCache h = some blk) (hne : blk.body.parentHashes ≠ [])
    (hu : s.onDeliverBlk h = (u, .error e)) :
    ((∃ q ∈ blk.body.parentHashes, s.delivered q = false) ∨
      s.storage.blkCache blk.body.qc.objHash = none) ∧
    ∃ ps k, u = s.modifyBlk h (·.linked ps k) := by
  have d := s.delivery h
  rw [hu] at d
  cases d with
  | absent hc =>
    rw [hb] at hc
    cases hc
  | unparented hc hd hp =>
    obtain rfl := Option.some.inj (hb.symm.trans hc)
    exact absurd hp hne
  | orphan hc hd hp =>
    obtain rfl := Option.some.inj (hb.symm.trans hc)
    exact ⟨.inl hp, _, _, rfl⟩
  | uncertified hc hd hhead hp hq =>
    obtain rfl := Option.some.inj (hb.symm.trans hc)
    exact ⟨.inr hq, _, _, rfl⟩

/-- A delivery that throws leaves the block undelivered and changes nothing that another block
or a later call sees. When what was missing has arrived, in whatever order and with whatever
else, the call that is made again goes through and leaves the state of a first call. -/
theorem failed_delivery_retried (C : Crypto) (s u : Replica) (h : Hash) (blk : Block) (e : Exn)
    (hb : s.storage.blkCache h = some blk) (hd : blk.delivered = false)
    (hne : blk.body.parentHashes ≠ []) (hu : s.onDeliverBlk h = (u, .error e)) :
    ((∃ q ∈ blk.body.parentHashes, s.delivered q = false) ∨
      s.storage.blkCache blk.body.qc.objHash = none) ∧
    u.delivered h = false ∧ u.tails = s.tails ∧ u.storage.cidBlkhash = s.storage.cidBlkhash ∧
    (∀ x, (u.storage.blkCache x).isSome = (s.storage.blkCache x).isSome) ∧
    (∀ x, x ≠ h → u.storage.blkCache x = s.storage.blkCache x) ∧
    ∀ ops : List Op, (∀ op ∈ ops, op.arrival = true) →
      (∀ q ∈ blk.body.parentHashes, (Runs.run (step C) s ops).delivered q = true) →
      ((Runs.run (step C) s ops).storage.blkCache blk.body.qc.objHash).isSome = true →
      (∃ v, ((Runs.run (step C) s ops).onDeliverBlk h).2 = .ok v) ∧
      (Runs.run (step C) u ops).onDeliverBlk h = (Runs.run (step C) s ops).onDeliverBlk h := by
  obtain ⟨hwhy, ps, k, rfl⟩ := onDeliverBlk_throws hb hne hu
  refine ⟨hwhy, ?_, rfl, rfl, modifyBlk_stored _ h, fun x hx => linked_cache_of_ne hx, ?_⟩
  · rw [linked_delivered, delivered_of_cache hb, hd]
  intro ops hops hp hq
  have o : LeftOver h s (s.modifyBlk h (·.linked ps k)) := .links ps k hb hd
  obtain ⟨n, hn, hbody, _⟩ := (arrivals_grow C ops hops).keep h _ (s.tree_of_cache hb)
  obtain ⟨blk', hb', rfl⟩ := cache_of_tree _ hn
  rw [← show blk'.body = blk.body from hbody] at hne hp hq
  obtain ⟨v, hv⟩ := onDeliverBlk_succeeds hb' hne hp hq
  exact ⟨⟨v, hv⟩, (o.run C ops hops).redeliver hv⟩

/-- A block on the blocks 1 and 0 with a certificate of block 2. -/
def uncle : Body := ⟨[1, 0], [9], [1], [2], .sample 2, []⟩

/-- It is delivered too early twice: before its parent, and before the certified block. -/
theorem failed_delivery_retried_uncle :
    let s := Runs.run (step .sample) (Setup.four 1).start [.addBlk uncle]
    let ops : List Op := [.addBlk (.sample 0 0 7 []), .deliverBlk 1, .deliverBlk 3,
      .addBlk (.sample 0 0 8 [0])]
    ((s.onDeliverBlk 3).1.delivered 3 = false ∧ (s.onDeliverBlk 3).1.tails = s.tails) ∧
    (Runs.run (step .sample) (s.onDeliverBlk 3).1 ops).onDeliverBlk 3 =
      (Runs.run (step .sample) s ops).onDeliverBlk 3 := by
  intro s ops
  have hu : (s.onDeliverBlk 3).2 = .error .blockNotDelivered := rfl
  obtain ⟨_, hd, htails, _, _, _, hretry⟩ := failed_delivery_retried .sample s _ 3
    (Block.parsed uncle) .blockNotDelivered rfl rfl (by decide) (Prod.ext rfl hu)
  exact ⟨⟨hd, htails⟩, (hretry ops (by decide) (by decide +kernel) (by decide +kernel)).2⟩

/-- A failed delivery of block 1 leaves its height behind. Before the missing block 6 arrives, a
block with a certificate for block 1 is proposed: `update_hqc` reads the height that the failed
call has set, and block 1 becomes the highest certified block. -/
theorem failed_delivery_seen_by_updateHqc :
    let s := Runs.run (step .sample) (Setup.four 1).start
      [.addBlk (.sample 0 0 8 [0]), .deliverBlk 2, .addBlk (.sample 0 6 7 [])]
    let ops : List Op := [.addBlk (.sample 2 1 9 []), .deliverBlk 5, .receiveProposal 0 5,
      .addBlk (.sample 2 0 3 [0])]
    let retried := (Runs.run (step .sample) (s.onDeliverBlk 1).1 ops).onDeliverBlk 1
    let first := (Runs.run (step .sample) s ops).onDeliverBlk 1
    (s.onDeliverBlk 1).2 = .error .qcBlockNotFetched ∧
      retried.2 = .ok true ∧ first.2 = .ok true ∧
      retried.1.hqc.1 = 1 ∧ first.1.hqc.1 = 0 ∧ retried ≠ first := by
  intro s ops retried first
  have hretried : retried.1.hqc.1 = 1 := by decide +kernel
  have hfirst : first.1.hqc.1 = 0 := by decide +kernel
  refine ⟨rfl, by decide +kernel, by decide +kernel, hretried, hfirst, ?_⟩
  intro heq
  rw [heq, hfirst] at hretried
  exact absurd hretried (by decide)

end Replica

end AvaHotstuff
