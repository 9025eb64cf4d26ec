import AvaHotstuff.CommitLog

set_option autoImplicit false

namespace AvaHotstuff
open Ancestry

theorem pairwise_trichotomy {α : Type} {R : α → α → Prop} {l : List α} (h : l.Pairwise R)
    {a b : α} (ha : a ∈ l) (hb : b ∈ l) : a = b ∨ R a b ∨ R b a := by
  induction l with
  | nil => exact absurd ha List.not_mem_nil
  | cons o os ih =>
    obtain ⟨hhead, htail⟩ := List.pairwise_cons.mp h
    rcases List.mem_cons.mp ha with rfl | ha'
    · rcases List.mem_cons.mp hb with rfl | hb'
      · exact .inl rfl
      · exact .inr (.inl (hhead b hb'))
    · rcases List.mem_cons.mp hb with rfl | hb'
      · exact .inr (.inr (hhead a ha'))
      · exact ih htail ha' hb'

def Event.opinion? : Event → Option (Hash × Hash)
  | .opinion h l => some (h, l)
  | _ => none

/-- The blocks found worth a vote, each with the lock held at that time. -/
def opinions (es : List Event) : List (Hash × Hash) := es.filterMap Event.opinion?

theorem opinions_append (es fs : List Event) :
    opinions (es ++ fs) = opinions es ++ opinions fs := List.filterMap_append

theorem mem_opinions {es : List Event} {o : Hash × Hash} :
    o ∈ opinions es ↔ Event.opinion o.1 o.2 ∈ es := by
  unfold opinions
  rw [List.mem_filterMap]
  constructor
  · rintro ⟨e, he, ho⟩
    cases e with
    | opinion h l =>
      obtain rfl : (h, l) = o := Option.some.inj ho
      exact he
    | _ => exact absurd ho (by simp [Event.opinion?])
  · intro he
    exact ⟨_, he, rfl⟩

/-- The events of a commit: none of them is an opinion, a vote or a complaint. -/
def Event.commits : Event → Bool
  | .consensus _ | .execute _ _ | .decide _ _ _ => true
  | _ => false

theorem opinions_of_commits {es : List Event} (h : ∀ e ∈ es, e.commits = true) :
    opinions es = [] := by
  unfold opinions
  rw [List.filterMap_eq_nil_iff]
  intro e he
  have hc := h e he
  cases e <;> first | rfl | exact absurd hc (by simp [Event.commits])

theorem BlockNode.decides_commits (n : BlockNode) (h : Hash) (rid : ReplicaID) :
    ∀ e ∈ n.decides h rid, e.commits = true := by
  intro e he
  unfold BlockNode.decides at he
  rcases List.mem_cons.mp he with rfl | he
  · rfl
  · obtain ⟨i, _, rfl⟩ := List.mem_map.mp he
    rfl

namespace Ledger
variable {G : Guard}

theorem runBlk_commits (L : Ledger) (h : Hash) : ∀ e ∈ L.runBlk h, e.commits = true := by
  unfold runBlk
  cases L.tree h with
  | none =>
    intro e he
    exact absurd he List.not_mem_nil
  | some n => exact n.decides_commits h L.rid

theorem advance_log (L : Ledger) (h : Hash) (n : BlockNode) :
    ∃ es, (L.advance h n).log = L.log ++ es ∧ ∀ e ∈ es, e.commits = true := by
  refine ⟨_, rfl, ?_⟩
  intro e he
  rcases List.mem_cons.mp he with rfl | he
  · rfl
  · split at he
    · exact n.decides_commits h L.rid e he
    · exact absurd he List.not_mem_nil

theorem finishMc_log (L : Ledger) (cid : ℕ) :
    ∃ es, (L.finishMc cid).log = L.log ++ es ∧ ∀ e ∈ es, e.commits = true := by
  have hnil : ∃ es, L.log = L.log ++ es ∧ ∀ e ∈ es, Event.commits e = true :=
    ⟨[], (List.append_nil _).symm, fun e he => absurd he List.not_mem_nil⟩
  unfold Ledger.finishMc
  split
  · exact hnil
  · split
    · exact ⟨_, rfl, L.runBlk_commits _⟩
    · exact hnil

theorem Advances.log {L M : Ledger} (h : Advances L M) :
    M.bLock = L.bLock ∧ M.vheight = L.vheight ∧
      ∃ es, M.log = L.log ++ es ∧ ∀ e ∈ es, e.commits = true := by
  unfold Advances at h
  induction h with
  | refl => exact ⟨rfl, rfl, [], (List.append_nil _).symm, fun e he => absurd he List.not_mem_nil⟩
  | @tail M N _ hs ih =>
    obtain ⟨x, n, _, _, _, rfl⟩ := hs
    obtain ⟨hlock, hv, es, hes, hcom⟩ := ih
    obtain ⟨fs, hfs, hcom'⟩ := M.advance_log x n
    refine ⟨hlock, hv, es ++ fs, by rw [hfs, hes, List.append_assoc], ?_⟩
    intro e he
    rcases List.mem_append.mp he with he | he
    · exact hcom e he
    · exact hcom' e he

structure Voting (L : Ledger) : Prop extends Chained L where
  ascending : (opinions L.log).Pairwise fun u w => L.tree.height u.1 < L.tree.height w.1
  bound : ∀ o ∈ opinions L.log, L.tree.delivered o.1 = true ∧ L.tree.height o.1 ≤ L.vheight
  cast : ∀ h, Event.vote h ∈ L.log → ∃ l, (h, l) ∈ opinions L.log

theorem Voting.keep {L M : Ledger} (v : Voting L) (c : Chained M)
    (g : Tree.Grows L.tree M.tree) (hv : M.vheight = L.vheight)
    (ho : opinions M.log = opinions L.log)
    (hvote : ∀ h, Event.vote h ∈ M.log → Event.vote h ∈ L.log ∨ ∃ l, (h, l) ∈ opinions L.log) :
    Voting M := by
  refine ⟨c, ?_, ?_, ?_⟩
  · rw [ho]
    refine v.ascending.imp_of_mem ?_
    intro u w hu hw hlt
    rw [g.height (v.bound u hu).1, g.height (v.bound w hw).1]
    exact hlt
  · intro o hmem
    rw [ho] at hmem
    obtain ⟨hd, hle⟩ := v.bound o hmem
    exact ⟨g.delivered hd, by rw [g.height hd, hv]; exact hle⟩
  · intro h hh
    rw [ho]
    rcases hvote h hh with hh | hh
    · exact v.cast h hh
    · exact hh

theorem Voting.keep_commits {L M : Ledger} (v : Voting L) (c : Chained M)
    (g : Tree.Grows L.tree M.tree) (hv : M.vheight = L.vheight) {es : List Event}
    (hlog : M.log = L.log ++ es) (hes : ∀ e ∈ es, e.commits = true) : Voting M := by
  refine v.keep c g hv ?_ ?_
  · rw [hlog, opinions_append, opinions_of_commits hes, List.append_nil]
  · intro h hh
    rw [hlog] at hh
    rcases List.mem_append.mp hh with hh | hh
    · exact .inl hh
    · exact absurd (hes _ hh) (by simp [Event.commits])

theorem Voting.opine {L : Ledger} {h : Hash} (v : Voting L)
    (hd : L.tree.delivered h = true) (hv : L.vheight < L.tree.height h) :
    Voting (L.opine h) := by
  have ho : opinions (L.opine h).log = opinions L.log ++ [(h, L.bLock)] := by
    unfold Ledger.opine
    rw [record_log, opinions_append]
    rfl
  have hc : Chained (L.opine h) :=
    (Step.opine (G := Guard.any) hv trivial).chained
      v.toChained
  refine ⟨hc, ?_, ?_, ?_⟩
  · rw [ho, List.pairwise_append]
    refine ⟨v.ascending, List.pairwise_singleton .., ?_⟩
    intro u hu w hw
    rw [List.mem_singleton.mp hw]
    exact Nat.lt_of_le_of_lt (v.bound u hu).2 hv
  · intro o hmem
    rw [ho] at hmem
    change L.tree.delivered o.1 = true ∧ L.tree.height o.1 ≤ L.tree.height h
    rcases List.mem_append.mp hmem with hmem | hmem
    · obtain ⟨hod, hle⟩ := v.bound o hmem
      exact ⟨hod, by omega⟩
    · rw [List.mem_singleton.mp hmem]
      exact ⟨hd, Nat.le_refl _⟩
  · intro x hx
    rw [ho]
    unfold Ledger.opine at hx
    rw [record_log] at hx
    rcases List.mem_append.mp hx with hx | hx
    · obtain ⟨l, hl⟩ := v.cast x hx
      exact ⟨l, List.mem_append_left _ hl⟩
    · exact absurd (List.mem_singleton.mp hx) (by simp)

theorem Step.voting {L M : Ledger} (hs : Step G L M)
    (hG : ∀ h, G.opine L h → L.tree.delivered h = true) (v : Voting L) : Voting M := by
  have g := hs.grows
  have c := hs.chained v.toChained
  cases hs with
  | store => exact v.keep c g rfl rfl fun _ => .inl
  | link => exact v.keep c g rfl rfl fun _ => .inl
  | deliver => exact v.keep c g rfl rfl fun _ => .inl
  | lock => exact v.keep c g rfl rfl fun _ => .inl
  | opine hv hop => exact v.opine (hG _ hop) hv
  | @note e he =>
    refine v.keep c g rfl ?_ ?_
    · rw [record_log, opinions_append]
      cases e with
      | opinion h l => exact he.elim
      | _ => exact List.append_nil _
    · intro h hh
      rw [record_log] at hh
      rcases List.mem_append.mp hh with hh | hh
      · exact .inl hh
      · obtain rfl := List.mem_singleton.mp hh
        obtain ⟨l, hl⟩ := he
        exact .inr ⟨l, mem_opinions.mpr hl⟩
  | @advance h n =>
    obtain ⟨es, hlog, hes⟩ := L.advance_log h n
    exact v.keep_commits c g rfl hlog hes
  | @finishMc cid =>
    obtain ⟨es, hlog, hes⟩ := L.finishMc_log cid
    have hv : (L.finishMc cid).vheight = L.vheight := by
      unfold Ledger.finishMc
      split
      · rfl
      · split <;> rfl
    exact v.keep_commits c g hv hlog hes
  | disarm => exact v.keep c g rfl rfl fun _ => .inl

theorem Step.log_mono {L M : Ledger} (hs : Step G L M) {e : Event} (he : e ∈ L.log) :
    e ∈ M.log := by
  cases hs with
  | opine => exact List.mem_append_left _ he
  | note => exact List.mem_append_left _ he
  | advance => exact List.mem_append_left _ he
  | @finishMc cid =>
    obtain ⟨es, hlog, -⟩ := L.finishMc_log cid
    rw [hlog]
    exact List.mem_append_left _ he
  | _ => exact he

theorem Steps.log_mono {L M : Ledger} (hs : Steps G L M) {e : Event} (he : e ∈ L.log) :
    e ∈ M.log :=
  hs.invariant (I := fun N => e ∈ N.log) he fun _ _ hstep => hstep.log_mono

theorem Voting.once {L : Ledger} (v : Voting L) {u w : Hash} (hu : Event.vote u ∈ L.log)
    (hw : Event.vote w ∈ L.log) (hh : L.tree.height u = L.tree.height w) : u = w := by
  obtain ⟨l, hl⟩ := v.cast u hu
  obtain ⟨k, hk⟩ := v.cast w hw
  rcases pairwise_trichotomy v.ascending hl hk with h | h | h
  · exact congrArg Prod.fst h
  · simp only [] at h
    omega
  · simp only [] at h
    omega

end Ledger

theorem Setup.start_voting (c : Setup) : c.start.ledger.Voting :=
  ⟨c.start_chained, List.Pairwise.nil, fun _ h => absurd h List.not_mem_nil,
    fun _ h => absurd h List.not_mem_nil⟩

end AvaHotstuff
