import AvaHotstuff.Replica

set_option autoImplicit false

/-!
# The tree of delivered blocks

`Tree.Grows` is what every change of the cache keeps of the blocks already there,
`Tree.Wf` what holds of the cache whatever was delivered. Of a block that is only
fetched nothing is known but that its links lead to delivered blocks.
-/
namespace AvaHotstuff
open Ancestry

namespace Tree

section
variable {t : Tree} {h : Hash} {n : BlockNode}

theorem height_of (hn : t h = some n) : t.height h = n.height := by simp [Tree.height, hn]
theorem delivered_of (hn : t h = some n) : t.delivered h = n.delivered := by
  simp [Tree.delivered, hn]
theorem decided_of (hn : t h = some n) : t.decided h = n.decision := by simp [Tree.decided, hn]
theorem qcRef_of (hn : t h = some n) : t.qcRef h = n.qcRef := by simp [Tree.qcRef, hn]
theorem parent0_of (hn : t h = some n) : t.parent0 h = n.parents.head? := by
  simp [Tree.parent0, hn]

theorem exists_of_delivered (hd : t.delivered h = true) :
    ∃ n, t h = some n ∧ n.delivered = true := by
  unfold Tree.delivered at hd
  cases hn : t h with
  | none => simp [hn] at hd
  | some n => exact ⟨n, rfl, by simpa [hn] using hd⟩

theorem exists_of_parent0 {p : Hash} (hp : t.parent0 h = some p) :
    ∃ n, t h = some n ∧ n.parents.head? = some p := by
  unfold Tree.parent0 at hp
  exact Option.bind_eq_some_iff.mp hp

end

structure Grows (t t' : Tree) : Prop where
  keep : ∀ h n, t h = some n → ∃ n', t' h = some n' ∧ n'.body = n.body ∧
    (n.delivered = true → n'.delivered = true ∧ n'.parents = n.parents ∧
      n'.height = n.height ∧ n'.qcRef = n.qcRef)

namespace Grows
variable {t t' t'' : Tree} {h : Hash}

theorem refl (t : Tree) : Grows t t :=
  ⟨fun _ n hn => ⟨n, hn, rfl, fun hd => ⟨hd, rfl, rfl, rfl⟩⟩⟩

theorem trans (g : Grows t t') (g' : Grows t' t'') : Grows t t'' := by
  constructor
  intro h n hn
  obtain ⟨n', hn', hb, hk⟩ := g.keep h n hn
  obtain ⟨n'', hn'', hb', hk'⟩ := g'.keep h n' hn'
  refine ⟨n'', hn'', hb'.trans hb, ?_⟩
  intro hd
  obtain ⟨hd', hp, hh, hq⟩ := hk hd
  obtain ⟨hd'', hp', hh', hq'⟩ := hk' hd'
  exact ⟨hd'', hp'.trans hp, hh'.trans hh, hq'.trans hq⟩

theorem stored (g : Grows t t') (hs : (t h).isSome = true) : (t' h).isSome = true := by
  obtain ⟨n, hn⟩ := Option.isSome_iff_exists.mp hs
  obtain ⟨n', hn', _⟩ := g.keep h n hn
  simp [hn']

theorem spec (g : Grows t t') (hd : t.delivered h = true) :
    t'.delivered h = true ∧ t'.parent0 h = t.parent0 h ∧ t'.height h = t.height h ∧
      t'.qcRef h = t.qcRef h := by
  obtain ⟨n, hn, hnd⟩ := exists_of_delivered hd
  obtain ⟨n', hn', _, hk⟩ := g.keep h n hn
  obtain ⟨hd', hp, hh, hq⟩ := hk hnd
  simp only [delivered_of hn', parent0_of hn', parent0_of hn, height_of hn', height_of hn,
    qcRef_of hn', qcRef_of hn, hd', hp, hh, hq, and_self]

theorem delivered (g : Grows t t') (hd : t.delivered h = true) : t'.delivered h = true :=
  (g.spec hd).1

theorem parent0 (g : Grows t t') (hd : t.delivered h = true) : t'.parent0 h = t.parent0 h :=
  (g.spec hd).2.1

theorem height (g : Grows t t') (hd : t.delivered h = true) : t'.height h = t.height h :=
  (g.spec hd).2.2.1

theorem qcRef (g : Grows t t') (hd : t.delivered h = true) : t'.qcRef h = t.qcRef h :=
  (g.spec hd).2.2.2

/-- A block that was not delivered may be rewritten as long as its body stays. -/
theorem update_fresh {n : BlockNode} (hb : ∀ m, t h = some m → n.body = m.body)
    (hd : t.delivered h = false) : Grows t (Function.update t h (some n)) := by
  constructor
  intro x m hm
  by_cases hx : x = h
  · subst x
    refine ⟨n, Function.update_self .., hb m hm, ?_⟩
    intro hmd
    rw [delivered_of hm, hmd] at hd
    exact absurd hd (by simp)
  · exact ⟨m, by rw [Function.update_of_ne hx]; exact hm, rfl, fun hd => ⟨hd, rfl, rfl, rfl⟩⟩

theorem update_decision {n : BlockNode} (hn : t h = some n) (d : Bool) :
    Grows t (Function.update t h (some { n with decision := d })) := by
  constructor
  intro x m hm
  by_cases hx : x = h
  · subst x
    obtain rfl : n = m := Option.some.inj (hn.symm.trans hm)
    exact ⟨_, Function.update_self .., rfl, fun hd => ⟨hd, rfl, rfl, rfl⟩⟩
  · exact ⟨m, by rw [Function.update_of_ne hx]; exact hm, rfl, fun hd => ⟨hd, rfl, rfl, rfl⟩⟩

end Grows

/-- The links of a delivered block other than the genesis block. -/
structure Linked (t : Tree) (n : BlockNode) : Prop where
  parents : n.parents = n.body.parentHashes
  height : ∃ p, n.parents.head? = some p ∧ n.height = t.height p + 1
  qcRef : n.qcRef = some n.body.qc.objHash
  qcStored : (t n.body.qc.objHash).isSome = true

structure Wf (t : Tree) : Prop where
  genesis : ∃ n, t b0 = some n ∧ n.delivered = true ∧ n.parents = [] ∧ n.height = 0 ∧
    n.qcRef = some b0
  parents : ∀ h n, t h = some n → ∀ p ∈ n.parents, t.delivered p = true
  linked : ∀ h n, t h = some n → n.delivered = true → h ≠ b0 → Linked t n

theorem Linked.mono {t t' : Tree} {n : BlockNode} (l : Linked t n) (g : Grows t t')
    (hp : ∀ p ∈ n.parents, t.delivered p = true) : Linked t' n := by
  refine ⟨l.parents, ?_, l.qcRef, g.stored l.qcStored⟩
  obtain ⟨p, hhead, hh⟩ := l.height
  exact ⟨p, hhead, by rw [hh, g.height (hp p (List.mem_of_head? hhead))]⟩

namespace Wf
variable {t : Tree} (w : Wf t)
include w

theorem update {h : Hash} {n : BlockNode} (g : Grows t (Function.update t h (some n)))
    (hp : ∀ p ∈ n.parents, t.delivered p = true)
    (hl : n.delivered = true → h ≠ b0 → Linked t n) : Wf (Function.update t h (some n)) := by
  obtain ⟨r, hr, hrd, hrp, hrh, hrq⟩ := w.genesis
  refine ⟨?_, ?_, ?_⟩
  · obtain ⟨r', hr', _, hk⟩ := g.keep b0 r hr
    obtain ⟨hd, hp', hh, hq⟩ := hk hrd
    exact ⟨r', hr', hd, hp'.trans hrp, hh.trans hrh, hq.trans hrq⟩
  · intro x m hm p hpm
    apply g.delivered
    by_cases hx : x = h
    · subst x
      obtain rfl : n = m := by simpa using hm
      exact hp p hpm
    · rw [Function.update_of_ne hx] at hm
      exact w.parents x m hm p hpm
  · intro x m hm hmd hx0
    by_cases hx : x = h
    · subst x
      obtain rfl : n = m := by simpa using hm
      exact (hl hmd hx0).mono g hp
    · rw [Function.update_of_ne hx] at hm
      exact (w.linked x m hm hmd hx0).mono g (w.parents x m hm)

theorem genesis_delivered : t.delivered b0 = true := by
  obtain ⟨n, hn, hd, _⟩ := w.genesis
  rw [delivered_of hn, hd]

theorem parent_delivered {h p : Hash} (hp : t.parent0 h = some p) : t.delivered p = true := by
  obtain ⟨n, hn, hhead⟩ := exists_of_parent0 hp
  exact w.parents h n hn p (List.mem_of_head? hhead)

theorem ranked : Ranked t.parent0 t.height (fun h => t.delivered h = true) b0 := by
  obtain ⟨r, hr, _, hrp, hrh, _⟩ := w.genesis
  refine ⟨w.genesis_delivered, by rw [height_of hr, hrh], ?_, by rw [parent0_of hr, hrp]; rfl⟩
  intro x hx hx0
  obtain ⟨n, hn, hnd⟩ := exists_of_delivered hx
  obtain ⟨p, hhead, hh⟩ := (w.linked x n hn hnd hx0).height
  exact ⟨p, by rw [parent0_of hn, hhead], w.parents x n hn p (List.mem_of_head? hhead),
    by rw [height_of hn, hh]⟩

theorem height_genesis : t.height b0 = 0 := w.ranked.root_height

end Wf

theorem Grows.anc {t t' : Tree} (g : Grows t t') (w : Wf t) {a b : Hash}
    (hb : t.delivered b = true) (h : Anc t.parent0 a b) : Anc t'.parent0 a b := by
  unfold Anc at h
  induction h with
  | refl => exact .refl _
  | @tail x y hx hp ih =>
    have hxd := (w.ranked.anc_spec hb hx).1
    exact .trans (.of_parent ((g.parent0 hxd).trans hp)) ih

theorem Grows.anc_back {t t' : Tree} (g : Grows t t') (w : Wf t) {a b : Hash}
    (hb : t.delivered b = true) (h : Anc t'.parent0 a b) : Anc t.parent0 a b := by
  unfold Anc at h
  induction h with
  | refl => exact .refl _
  | @tail x y _ hp ih =>
    have hxd := (w.ranked.anc_spec hb ih).1
    exact .trans (.of_parent ((g.parent0 hxd).symm.trans hp)) ih

end Tree

end AvaHotstuff
