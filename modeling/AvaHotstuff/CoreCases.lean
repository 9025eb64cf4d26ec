import Mathlib.Data.List.TakeWhile
import AvaHotstuff.Core

set_option autoImplicit false

namespace AvaHotstuff

/-- What one call of `on_deliver_blk` does. -/
inductive Replica.Delivery (s : Replica) (h : Hash) : Replica × Except Exn Bool → Prop where
  | absent (hb : s.storage.blkCache h = none) : Delivery s h (s, .error .undefined)
  | again {blk : Block} (hb : s.storage.blkCache h = some blk) (hd : blk.delivered = true) :
      Delivery s h (s, .ok false)
  | unparented {blk : Block} (hb : s.storage.blkCache h = some blk) (hd : blk.delivered = false)
      (hp : blk.body.parentHashes = []) :
      Delivery s h (s.modifyBlk h (·.linked [] blk.height), .error .undefined)
  | orphan {blk : Block} (hb : s.storage.blkCache h = some blk) (hd : blk.delivered = false)
      (hp : ∃ q ∈ blk.body.parentHashes, s.delivered q = false) :
      Delivery s h (s.modifyBlk h
        (·.linked (blk.body.parentHashes.takeWhile s.delivered) blk.height),
        .error .blockNotDelivered)
  | uncertified {blk : Block} {p : Hash} (hb : s.storage.blkCache h = some blk)
      (hd : blk.delivered = false) (hhead : blk.body.parentHashes.head? = some p)
      (hp : ∀ q ∈ blk.body.parentHashes, s.delivered q = true)
      (hq : s.storage.blkCache blk.body.qc.objHash = none) :
      Delivery s h (s.modifyBlk h (·.linked blk.body.parentHashes (s.height p + 1)),
        .error .qcBlockNotFetched)
  | done {blk : Block} {p : Hash} (hb : s.storage.blkCache h = some blk)
      (hd : blk.delivered = false) (hhead : blk.body.parentHashes.head? = some p)
      (hp : ∀ q ∈ blk.body.parentHashes, s.delivered q = true)
      (hq : (s.storage.blkCache blk.body.qc.objHash).isSome = true) :
      Delivery s h ((s.modifyBlk h (·.linked blk.body.parentHashes (s.height p + 1))).markDelivered
        h blk.body.parentHashes, .ok true)

namespace Replica
variable {s : Replica} {h : Hash}

theorem takeWhile_delivered {ps : List Hash} (hp : ∀ q ∈ ps, s.delivered q = true) :
    ps.takeWhile s.delivered = ps := List.takeWhile_eq_self_iff.mpr hp

theorem takeWhile_short {ps : List Hash} (hp : ∃ q ∈ ps, s.delivered q = false) :
    (ps.takeWhile s.delivered).length < ps.length := by
  refine lt_of_le_of_ne (List.takeWhile_prefix _).length_le ?_
  intro hlen
  obtain ⟨q, hq, hd⟩ := hp
  have hall := List.takeWhile_eq_self_iff.mp ((List.takeWhile_prefix _).eq_of_length hlen) q hq
  rw [hd] at hall
  cases hall

theorem linked_stored_none (ps : List Hash) (k : ℕ) (x : Hash) :
    ((s.modifyBlk h (·.linked ps k)).storage.blkCache x).isNone =
      (s.storage.blkCache x).isNone := by
  have hsome := modifyBlk_stored (s := s) (·.linked ps k) h x
  rw [← Option.not_isSome, ← Option.not_isSome, hsome]

theorem Delivery.eq {r : Replica × Except Exn Bool} (d : s.Delivery h r) :
    s.onDeliverBlk h = r := by
  cases d with
  | absent hb =>
    unfold onDeliverBlk
    rw [hb]
  | again hb hd =>
    unfold onDeliverBlk
    rw [hb]
    simp only []
    rw [if_pos hd]
  | unparented hb hd hp =>
    unfold onDeliverBlk
    rw [hb]
    simp [hd, hp]
  | orphan hb hd hp =>
    unfold onDeliverBlk
    rw [hb]
    simp only []
    rw [if_neg (by rw [hd]; exact Bool.false_ne_true), if_pos (takeWhile_short hp)]
  | uncertified hb hd hhead hp hq =>
    unfold onDeliverBlk
    rw [hb]
    simp only [takeWhile_delivered hp, linked_stored_none, hd, hhead, hq, lt_irrefl, if_false,
      Bool.false_eq_true, Option.isNone_none, if_true]
  | done hb hd hhead hp hq =>
    unfold onDeliverBlk
    rw [hb]
    simp only [takeWhile_delivered hp, linked_stored_none, hd, hhead, lt_irrefl, if_false,
      Bool.false_eq_true, Option.isNone_iff_eq_none]
    rw [if_neg (Option.isSome_iff_ne_none.mp hq)]

theorem delivery (s : Replica) (h : Hash) : s.Delivery h (s.onDeliverBlk h) := by
  have hspec : ∃ r, s.Delivery h r := by
    cases hb : s.storage.blkCache h with
    | none => exact ⟨_, .absent hb⟩
    | some blk =>
      cases hd : blk.delivered with
      | true => exact ⟨_, .again hb hd⟩
      | false =>
        by_cases hp : ∃ q ∈ blk.body.parentHashes, s.delivered q = false
        · exact ⟨_, .orphan hb hd hp⟩
        have hall : ∀ q ∈ blk.body.parentHashes, s.delivered q = true := by
          intro q hq
          by_contra hdq
          exact hp ⟨q, hq, Bool.eq_false_iff.mpr hdq⟩
        cases hps : blk.body.parentHashes with
        | nil => exact ⟨_, .unparented hb hd hps⟩
        | cons p ps =>
          have hhead : blk.body.parentHashes.head? = some p := by rw [hps, List.head?_cons]
          cases hq : s.storage.blkCache blk.body.qc.objHash with
          | none => exact ⟨_, .uncertified hb hd hhead hall hq⟩
          | some c => exact ⟨_, .done hb hd hhead hall (by rw [hq]; rfl)⟩
  obtain ⟨r, hr⟩ := hspec
  rw [hr.eq]
  exact hr

end Replica

/-- What one call of `on_receive_vote` does. -/
inductive Replica.Polling (s : Replica) (v : Vote) : Outcome → Prop where
  | absent (hb : s.storage.blkCache v.blkHash = none) : Polling s v (s, some .blockNotDelivered)
  | undelivered {blk : Block} (hb : s.storage.blkCache v.blkHash = some blk)
      (hd : blk.delivered = false) : Polling s v (s, some .blockNotDelivered)
  | full {blk : Block} (hb : s.storage.blkCache v.blkHash = some blk) (hd : blk.delivered = true)
      (hn : s.config.nmajority ≤ blk.voted.card) : Polling s v (s, none)
  | again {blk : Block} (hb : s.storage.blkCache v.blkHash = some blk) (hd : blk.delivered = true)
      (hn : blk.voted.card < s.config.nmajority) (hv : v.voter ∈ blk.voted) :
      Polling s v (s, none)
  | mismatch {blk : Block} {u : Replica} (hb : s.storage.blkCache v.blkHash = some blk)
      (hd : blk.delivered = true) (hn : blk.voted.card < s.config.nmajority)
      (hv : v.voter ∉ blk.voted) (hu : s.addVote v = (u, none)) :
      Polling s v (u, some .partCertMismatch)
  | counted {blk : Block} {u : Replica} {qc : QuorumCert}
      (hb : s.storage.blkCache v.blkHash = some blk) (hd : blk.delivered = true)
      (hn : blk.voted.card < s.config.nmajority) (hv : v.voter ∉ blk.voted)
      (hu : s.addVote v = (u, some qc)) (hlast : blk.voted.card + 1 ≠ s.config.nmajority) :
      Polling s v (u, none)
  | quorum {blk : Block} {u : Replica} {qc : QuorumCert}
      (hb : s.storage.blkCache v.blkHash = some blk) (hd : blk.delivered = true)
      (hn : blk.voted.card < s.config.nmajority) (hv : v.voter ∉ blk.voted)
      (hu : s.addVote v = (u, some qc)) (hlast : blk.voted.card + 1 = s.config.nmajority) :
      Polling s v ((u.updateHqc v.blkHash qc).onQcFinish v.blkHash, none)

def Replica.opined (s : Replica) (selfProp : Bool) (bnew : Hash) (opinion : Bool) : Replica :=
  if selfProp then s.takeOpinion bnew opinion else (s.takeOpinion bnew opinion).finishQcRef bnew

/-- What `on_receive_proposal` does after `update`. -/
inductive Replica.Judgement (C : Crypto) (s : Replica) (selfProp : Bool) (bnew : Hash) :
    Outcome → Prop where
  | undefined (ho : s.opinion bnew = none) : Judgement C s selfProp bnew (s, some .undefined)
  | silent {o : Bool} (ho : s.opinion bnew = some o) (hs : (o && !s.voteDisabled) = false) :
      Judgement C s selfProp bnew ((s.opined selfProp bnew o).notifyReceiveProposal bnew, none)
  | vote (ho : s.opinion bnew = some true) (hv : s.voteDisabled = false) :
      Judgement C s selfProp bnew
        (((s.opined selfProp bnew true).notifyReceiveProposal bnew).doVote C bnew)

namespace Replica
variable {s : Replica} {v : Vote}

theorem addVote_config (s : Replica) (v : Vote) : (s.addVote v).1.config = s.config := by
  unfold addVote
  simp only []
  split
  · rfl
  · split <;> rfl

theorem Polling.eq {r : Outcome} (p : s.Polling v r) : s.onReceiveVote v = r := by
  have hconfig := s.addVote_config v
  cases p with
  | absent hb =>
    unfold onReceiveVote
    rw [hb]
  | undelivered hb hd =>
    unfold onReceiveVote
    rw [hb]
    simp only [hd, Bool.not_false, if_true]
  | full hb hd hn =>
    unfold onReceiveVote
    rw [hb]
    simp only [hd, hn, Bool.not_true, Bool.false_eq_true, if_true, if_false]
  | again hb hd hn hv =>
    unfold onReceiveVote
    rw [hb]
    simp only [hd, Nat.not_le_of_lt hn, hv, Bool.not_true, Bool.false_eq_true, if_true, if_false]
  | mismatch hb hd hn hv hu =>
    unfold onReceiveVote
    rw [hb]
    simp only [hd, Nat.not_le_of_lt hn, hv, hu, Bool.not_true, Bool.false_eq_true, if_false]
  | counted hb hd hn hv hu hlast =>
    rw [hu] at hconfig
    rw [← hconfig] at hlast
    unfold onReceiveVote
    rw [hb]
    simp only [hd, Nat.not_le_of_lt hn, hv, hu, hlast, Bool.not_true, Bool.false_eq_true, if_false]
  | quorum hb hd hn hv hu hlast =>
    rw [hu] at hconfig
    rw [← hconfig] at hlast
    unfold onReceiveVote
    rw [hb]
    simp only [hd, Nat.not_le_of_lt hn, hv, hu, hlast, Bool.not_true, Bool.false_eq_true, if_true,
      if_false]

theorem polling (s : Replica) (v : Vote) : s.Polling v (s.onReceiveVote v) := by
  have hspec : ∃ r, s.Polling v r := by
    cases hb : s.storage.blkCache v.blkHash with
    | none => exact ⟨_, .absent hb⟩
    | some blk =>
      cases hd : blk.delivered with
      | false => exact ⟨_, .undelivered hb hd⟩
      | true =>
        by_cases hn : s.config.nmajority ≤ blk.voted.card
        · exact ⟨_, .full hb hd hn⟩
        rw [Nat.not_le] at hn
        by_cases hv : v.voter ∈ blk.voted
        · exact ⟨_, .again hb hd hn hv⟩
        rcases hu : s.addVote v with ⟨u, none | qc⟩
        · exact ⟨_, .mismatch hb hd hn hv hu⟩
        by_cases hlast : blk.voted.card + 1 = s.config.nmajority
        · exact ⟨_, .quorum hb hd hn hv hu hlast⟩
        · exact ⟨_, .counted hb hd hn hv hu hlast⟩
  obtain ⟨r, hr⟩ := hspec
  rw [hr.eq]
  exact hr

theorem onReceiveVote_keeps {β : Sort*} {view : Replica → β}
    (hadd : view (s.addVote v).1 = view s)
    (hquorum : ∀ u qc, view ((u.updateHqc v.blkHash qc).onQcFinish v.blkHash) = view u) :
    view (s.onReceiveVote v).1 = view s := by
  have hpoll := s.polling v
  generalize s.onReceiveVote v = r at hpoll
  cases hpoll with
  | absent | undelivered | full | again => rfl
  | mismatch hb hd hn hv hu | counted hb hd hn hv hu =>
    rw [hu] at hadd
    exact hadd
  | quorum hb hd hn hv hu =>
    rw [hu] at hadd
    exact (hquorum _ _).trans hadd

theorem opined_keeps {β : Sort*} {view : Replica → β} {bnew : Hash} (selfProp : Bool) {o : Bool}
    (htake : view (s.takeOpinion bnew o) = view s)
    (hfinish : ∀ u, view (u.finishQcRef bnew) = view u) :
    view (s.opined selfProp bnew o) = view s := by
  unfold opined
  split
  · exact htake
  · exact (hfinish _).trans htake

theorem opined_voteDisabled (s : Replica) (selfProp : Bool) (bnew : Hash) (o : Bool) :
    (s.opined selfProp bnew o).voteDisabled = s.voteDisabled := by
  refine opined_keeps selfProp ?_ ?_
  · unfold takeOpinion
    split <;> rfl
  · intro u
    unfold finishQcRef onQcFinish
    split
    · rfl
    · split <;> rfl

theorem judgement (C : Crypto) (s : Replica) (selfProp : Bool) (bnew : Hash) :
    s.Judgement C selfProp bnew (s.judgeProposal C selfProp bnew) := by
  unfold judgeProposal
  cases ho : s.opinion bnew with
  | none => exact .undefined ho
  | some o =>
    have hdisabled : ((s.opined selfProp bnew o).notifyReceiveProposal bnew).voteDisabled =
        s.voteDisabled := s.opined_voteDisabled selfProp bnew o
    change Judgement C s selfProp bnew
      (if o && !((s.opined selfProp bnew o).notifyReceiveProposal bnew).voteDisabled then _ else _)
    rw [hdisabled]
    split
    · rename_i hvote
      rw [Bool.and_eq_true, Bool.not_eq_true'] at hvote
      obtain ⟨rfl, hv⟩ := hvote
      exact .vote ho hv
    · rename_i hvote
      exact .silent ho (Bool.eq_false_iff.mpr hvote)

theorem judgeProposal_keeps {β : Sort*} {view : Replica → β} {C : Crypto} {bnew : Hash}
    (selfProp : Bool) (htake : ∀ o, view (s.takeOpinion bnew o) = view s)
    (hfinish : ∀ u, view (u.finishQcRef bnew) = view u)
    (hnotify : ∀ u, view (u.notifyReceiveProposal bnew) = view u)
    (hvote : ∀ u, view (u.doVote C bnew).1 = view u) :
    view (s.judgeProposal C selfProp bnew).1 = view s := by
  have hopined : ∀ o, view ((s.opined selfProp bnew o).notifyReceiveProposal bnew) = view s :=
    fun o => (hnotify _).trans (opined_keeps selfProp (htake o) hfinish)
  have hjudge := s.judgement C selfProp bnew
  generalize s.judgeProposal C selfProp bnew = r at hjudge
  cases hjudge with
  | undefined => rfl
  | silent => exact hopined _
  | vote => exact (hvote _).trans (hopined _)

end Replica

end AvaHotstuff
