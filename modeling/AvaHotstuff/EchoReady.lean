import Mathlib.Data.Finset.Card
import Mathlib.Tactic.Common

set_option autoImplicit false

/-!
# A wave of ECHO and READY messages with thresholds tested by equality

The stations of `M` pass on an announcement: a station sends ECHO to its peers when the
announcement reaches it, READY when the ECHO that it receives is the one that makes up its
quorum, and acts on the announcement when the READY that it receives is the one that makes
up its quorum. A station counts its own ECHO and READY without testing the count. READY
goes once more to the target `v`, which does not count its own. Messages in flight are
counted by destination.
-/
namespace AvaHotstuff.EchoReady

universe u
variable {ι : Type u}

structure Station (ι : Type u) where
  echo : ℕ
  ready : ℕ
  quorum : ℕ
  applied : ℕ
  peers : Finset ι
  echoed : Bool
  readied : Bool

@[ext]
structure Wave (ι : Type u) where
  node : ι → Station ι
  aggTo : ι → ℕ
  echoTo : ι → ℕ
  readyTo : ι → ℕ

variable [DecidableEq ι]

def mail (f : ι → ℕ) (dsts : Finset ι) : ι → ℕ := fun i => f i + if i ∈ dsts then 1 else 0

def taken (f : ι → ℕ) (j : ι) : ι → ℕ := Function.update f j (f j - 1)

theorem mail_of_mem {f : ι → ℕ} {dsts : Finset ι} {i : ι} (h : i ∈ dsts) :
    mail f dsts i = f i + 1 := by
  unfold mail
  rw [if_pos h]

theorem mail_of_notMem {f : ι → ℕ} {dsts : Finset ι} {i : ι} (h : i ∉ dsts) :
    mail f dsts i = f i := by
  unfold mail
  rw [if_neg h, Nat.add_zero]

theorem taken_self (f : ι → ℕ) (j : ι) : taken f j j = f j - 1 := Function.update_self ..

theorem taken_of_ne (f : ι → ℕ) {i j : ι} (h : i ≠ j) : taken f j i = f i :=
  Function.update_of_ne h ..

namespace Wave
variable (w : Wave ι) (v j : ι)

def set (s : Station ι) : Wave ι := { w with node := Function.update w.node j s }

def onAgg : Wave ι :=
  { w.set j { w.node j with echo := (w.node j).echo + 1, echoed := true } with
    aggTo := taken w.aggTo j
    echoTo := mail w.echoTo (w.node j).peers }

/-- An ECHO that does not make up the quorum. -/
def countEcho : Wave ι :=
  { w.set j { w.node j with echo := (w.node j).echo + 1 } with echoTo := taken w.echoTo j }

/-- The ECHO that makes up the quorum. -/
def sendReady : Wave ι :=
  { w.set j { w.node j with
      echo := (w.node j).echo + 1
      ready := if j = v then (w.node j).ready else (w.node j).ready + 1
      readied := true } with
    echoTo := taken w.echoTo j
    readyTo := mail (mail w.readyTo (w.node j).peers) (if j = v then ∅ else {v}) }

/-- A READY that does not make up the quorum. -/
def countReady : Wave ι :=
  { w.set j { w.node j with ready := (w.node j).ready + 1 } with readyTo := taken w.readyTo j }

/-- The READY that makes up the quorum; the station goes on with other peers. -/
def apply (quorum : ℕ) (peers : Finset ι) : Wave ι :=
  { w.set j { w.node j with
      ready := (w.node j).ready + 1
      applied := (w.node j).applied + 1
      quorum := quorum
      peers := peers } with
    readyTo := taken w.readyTo j }

end Wave

variable (M : Finset ι) (v : ι) (q : ℕ)

/-- What holds of a station with the quorum `q`: a quorum of READY messages and an action go
together, and only the action changes the quorum and the peers. -/
structure Station.Ok (i : ι) (s : Station ι) : Prop where
  self : i ∉ s.peers
  state : s.applied = 0 ∧ s.ready < q ∨ s.applied = 1 ∧ q ≤ s.ready
  quorum_le : s.quorum ≤ q
  quorum_eq : s.applied = 0 ∨ i = v → s.quorum = q
  peers : ∀ p ∈ M, p ≠ i → p ≠ v ∨ s.applied = 0 ∨ i = v → p ∈ s.peers
  members : v ∉ M → s.applied = 0 → v ∉ s.peers
  once : s.readied = true → s.quorum ≤ s.echo

namespace Wave
variable (qv : ℕ) (w : Wave ι)

def echoed : Finset ι := M.filter fun i => (w.node i).echoed = true

def readied : Finset ι := M.filter fun i => (w.node i).readied = true

/-- The stations that have sent ECHO, without those that missed their quorum. -/
def kept : Finset ι := M.filter fun i => (w.node i).echoed = true ∧
  ((w.node i).readied = true ∨ (w.node i).echo < q)

/-- No station but the target has acted. -/
def Calm : Prop := ∀ i ∈ M, i ≠ v → (w.node i).applied = 0

structure AggInv : Prop where
  waiting : ∀ i ∈ M, (w.node i).echoed = false → w.aggTo i = 1
  reached : ∀ i ∈ M, (w.node i).echoed = true → w.aggTo i = 0

/-- Every ECHO is counted or in flight, also by its own sender. The target may be left out
once the others have acted. As long as they have not, a station misses its quorum of ECHO
messages only after a quorum of stations has sent them. -/
structure EchoInv : Prop where
  echo : ∀ i ∈ M, i ≠ v ∨ w.Calm M v → (w.node i).echo + w.echoTo i = (w.echoed M).card
  cross : w.Calm M v → ∀ i ∈ M, (w.node i).echoed = false → q ≤ (w.node i).echo →
    (w.node i).readied = true
  kept : w.Calm M v → min (w.echoed M).card q ≤ (w.kept M q).card
  quorum : ¬ w.Calm M v → q ≤ (w.echoed M).card
  late : v ∉ M → (w.node v).echo + w.echoTo v = 0 ∨
    (w.node v).echo + w.echoTo v + q ≤ (w.echoed M).card

/-- Every READY is counted or in flight. The target gets one from each of the others, and as a
member two from the first of them. -/
structure ReadyInv : Prop where
  ready : ∀ i ∈ M, i ≠ v → (w.node i).ready + w.readyTo i = (w.readied M).card
  target : ((w.readied M).erase v).card ≤ (w.node v).ready + w.readyTo v
  twice : v ∈ M → ((w.readied M).erase v).Nonempty →
    ((w.readied M).erase v).card + 1 ≤ (w.node v).ready + w.readyTo v

/-- A target outside of `M` has a quorum of its own. -/
structure Inv : Prop extends w.AggInv M, w.EchoInv M v q, w.ReadyInv M v where
  ok : ∀ i ∈ M, (w.node i).Ok M v q i
  outside : v ∉ M → (w.node v).Ok M v qv v

/-- Before the announcement: it is on its way to every station of `M`. -/
structure Blank : Prop where
  node : ∀ i, i ∈ M ∨ i = v → (w.node i).echo = 0 ∧ (w.node i).ready = 0 ∧
    (w.node i).applied = 0 ∧ (w.node i).echoed = false ∧ (w.node i).readied = false
  agg : ∀ i ∈ M, w.aggTo i = 1
  echoTo : ∀ i, w.echoTo i = 0
  readyTo : ∀ i, w.readyTo i = 0

def Quiet : Prop := ∀ i, w.aggTo i = 0 ∧ w.echoTo i = 0 ∧ w.readyTo i = 0

/-- The steps of the stations. Nobody but the target sends READY when its own is the one that
makes up the quorum, and acting does not raise the quorum. -/
inductive Step : Wave ι → Wave ι → Prop where
  | agg {w : Wave ι} {j : ι} (hj : j ∈ M) (hagg : w.aggTo j ≠ 0)
      (hecho : (w.node j).echo = 0 ∨ w.echoTo j ≠ 0) : Step w (w.onAgg j)
  | countEcho {w : Wave ι} {j : ι} (hj : j ∈ M ∨ j = v) (hecho : w.echoTo j ≠ 0)
      (hquorum : (w.node j).echo + 1 ≠ (w.node j).quorum) : Step w (w.countEcho j)
  | sendReady {w : Wave ι} {j : ι} (hj : j ∈ M ∨ j = v) (hecho : w.echoTo j ≠ 0)
      (hquorum : (w.node j).echo + 1 = (w.node j).quorum)
      (hown : j = v ∨ (w.node j).ready + 1 ≠ (w.node j).quorum) : Step w (w.sendReady v j)
  | countReady {w : Wave ι} {j : ι} (hj : j ∈ M ∨ j = v) (hready : w.readyTo j ≠ 0)
      (hquorum : (w.node j).ready + 1 ≠ (w.node j).quorum) : Step w (w.countReady j)
  | apply {w : Wave ι} {j : ι} {quorum : ℕ} {peers : Finset ι} (hj : j ∈ M ∨ j = v)
      (hready : w.readyTo j ≠ 0) (hquorum : (w.node j).ready + 1 = (w.node j).quorum)
      (hle : quorum ≤ (w.node j).quorum) (hself : j ∉ peers)
      (hpeers : ∀ p ∈ M, p ≠ j → p ≠ v ∨ j = v → p ∈ peers)
      (htarget : j = v → quorum = (w.node j).quorum) : Step w (w.apply j quorum peers)

end Wave

variable {M v q} {qv : ℕ} {w : Wave ι} {j : ι} {s : Station ι}

theorem filter_update_insert {p : Station ι → Prop} [DecidablePred p] (f : ι → Station ι)
    (hj : j ∈ M) (h : p s) :
    (M.filter fun i => p (Function.update f j s i)) = insert j (M.filter fun i => p (f i)) := by
  ext i
  by_cases hi : i = j
  · rw [hi]
    simp [hj, h]
  · simp [hi]

namespace Station.Ok
variable {i : ι}

omit [DecidableEq ι] in
theorem countEcho (h : s.Ok M v q i) : { s with echo := s.echo + 1 }.Ok M v q i :=
  { h with once := fun hr => Nat.le_succ_of_le (h.once hr) }

omit [DecidableEq ι] in
theorem onAgg (h : s.Ok M v q i) : { s with echo := s.echo + 1, echoed := true }.Ok M v q i :=
  { h.countEcho with }

omit [DecidableEq ι] in
theorem countReady (h : s.Ok M v q i) (hquorum : s.ready + 1 ≠ s.quorum) :
    { s with ready := s.ready + 1 }.Ok M v q i := by
  refine { h with state := ?_ }
  rcases h.state with ⟨h0, hlt⟩ | ⟨h1, hle⟩
  · have heq := h.quorum_eq (.inl h0)
    exact .inl ⟨h0, show s.ready + 1 < q by omega⟩
  · exact .inr ⟨h1, Nat.le_succ_of_le hle⟩

theorem sendReady (h : s.Ok M v q i) (hecho : s.echo + 1 = s.quorum)
    (hown : i = v ∨ s.ready + 1 ≠ s.quorum) :
    { s with
      echo := s.echo + 1
      ready := if i = v then s.ready else s.ready + 1
      readied := true }.Ok M v q i := by
  have hstate : s.applied = 0 ∧ (if i = v then s.ready else s.ready + 1) < q ∨
      s.applied = 1 ∧ q ≤ (if i = v then s.ready else s.ready + 1) := by
    split
    · exact h.state
    · rename_i hv
      exact (h.countReady (hown.resolve_left hv)).state
  exact { h with
    state := hstate
    once := fun _ => Nat.le_of_eq hecho.symm }

omit [DecidableEq ι] in
theorem pending (h : s.Ok M v q i) (hquorum : s.ready + 1 = s.quorum) : s.applied = 0 := by
  rcases h.state with ⟨h0, -⟩ | ⟨-, hle⟩
  · exact h0
  · have hmax := h.quorum_le
    omega

omit [DecidableEq ι] in
theorem apply {quorum : ℕ} {peers : Finset ι} (h : s.Ok M v q i)
    (hquorum : s.ready + 1 = s.quorum) (hle : quorum ≤ s.quorum) (hself : i ∉ peers)
    (hpeers : ∀ p ∈ M, p ≠ i → p ≠ v ∨ i = v → p ∈ peers)
    (htarget : i = v → quorum = s.quorum) :
    { s with
      ready := s.ready + 1
      applied := s.applied + 1
      quorum := quorum
      peers := peers }.Ok M v q i := by
  have h0 := h.pending hquorum
  have heq := h.quorum_eq (.inl h0)
  have hone : s.applied + 1 ≠ 0 := Nat.succ_ne_zero _
  constructor
  · exact hself
  · exact .inr ⟨congrArg Nat.succ h0, show q ≤ s.ready + 1 by omega⟩
  · exact hle.trans h.quorum_le
  · intro hside
    exact (htarget (hside.resolve_left hone)).trans heq
  · intro p hp hne hside
    exact hpeers p hp hne (hside.imp_right fun h => h.resolve_left hone)
  · intro _ hzero
    exact absurd hzero hone
  · intro hr
    exact hle.trans (h.once hr)

end Station.Ok

namespace Wave

@[simp] theorem set_self : (w.set j s).node j = s := Function.update_self ..

@[simp] theorem set_of_ne {i : ι} (h : i ≠ j) : (w.set j s).node i = w.node i :=
  Function.update_of_ne h ..

theorem keeps {α : Type} (w' : Wave ι) (f : Station ι → α) (hw : w'.node = (w.set j s).node)
    (h : f s = f (w.node j)) (i : ι) : f (w'.node i) = f (w.node i) := by
  rw [hw]
  by_cases hij : i = j
  · rw [hij, set_self, h]
  · rw [set_of_ne hij]

omit [DecidableEq ι] in
theorem echoed_congr {w' : Wave ι} (h : ∀ i, (w'.node i).echoed = (w.node i).echoed) :
    w'.echoed M = w.echoed M := by
  unfold echoed
  simp only [h]

omit [DecidableEq ι] in
theorem readied_congr {w' : Wave ι} (h : ∀ i, (w'.node i).readied = (w.node i).readied) :
    w'.readied M = w.readied M := by
  unfold readied
  simp only [h]

theorem echoed_insert (hj : j ∈ M) (h : s.echoed = true) :
    (w.set j s).echoed M = insert j (w.echoed M) :=
  filter_update_insert (p := fun s => s.echoed = true) w.node hj h

theorem readied_insert (hj : j ∈ M) (h : s.readied = true) :
    (w.set j s).readied M = insert j (w.readied M) :=
  filter_update_insert (p := fun s => s.readied = true) w.node hj h

omit [DecidableEq ι] in
theorem notMem_echoed (h : (w.node j).echoed = false) : j ∉ w.echoed M := by
  rw [echoed, Finset.mem_filter, h]
  exact fun hmem => Bool.false_ne_true hmem.2

omit [DecidableEq ι] in
theorem notMem_readied (h : (w.node j).readied = false) : j ∉ w.readied M := by
  rw [readied, Finset.mem_filter, h]
  exact fun hmem => Bool.false_ne_true hmem.2

omit [DecidableEq ι] in
theorem AggInv.congr {w' : Wave ι} (h : w.AggInv M)
    (hnode : ∀ i, (w'.node i).echoed = (w.node i).echoed) (hagg : w'.aggTo = w.aggTo) :
    w'.AggInv M := by
  constructor
  · intro i hi hwait
    rw [hnode] at hwait
    rw [hagg]
    exact h.waiting i hi hwait
  · intro i hi hreached
    rw [hnode] at hreached
    rw [hagg]
    exact h.reached i hi hreached

omit [DecidableEq ι] in
theorem EchoInv.congr {w' : Wave ι} (h : w.EchoInv M v q)
    (hnode : ∀ i, (w'.node i).echoed = (w.node i).echoed ∧
      (w'.node i).readied = (w.node i).readied ∧ (w'.node i).echo = (w.node i).echo)
    (hecho : w'.echoTo = w.echoTo) (hcalm : w'.Calm M v → w.Calm M v)
    (hquorum : w.Calm M v → ¬ w'.Calm M v → q ≤ (w.echoed M).card) : w'.EchoInv M v q := by
  have hech : w'.echoed M = w.echoed M := echoed_congr fun i => (hnode i).1
  have hkept : w'.kept M q = w.kept M q := by
    unfold Wave.kept
    simp only [hnode]
  constructor
  · intro i hi hside
    rw [(hnode i).2.2, hecho, hech]
    exact h.echo i hi (hside.imp_right hcalm)
  · intro c i hi hwait hq
    rw [(hnode i).1] at hwait
    rw [(hnode i).2.2] at hq
    rw [(hnode i).2.1]
    exact h.cross (hcalm c) i hi hwait hq
  · intro c
    rw [hech, hkept]
    exact h.kept (hcalm c)
  · intro c
    rw [hech]
    by_cases c' : w.Calm M v
    · exact hquorum c' c
    · exact h.quorum c'
  · rw [(hnode v).2.2, hecho, hech]
    exact h.late

theorem ReadyInv.congr {w' : Wave ι} (h : w.ReadyInv M v)
    (hnode : ∀ i, (w'.node i).readied = (w.node i).readied ∧
      (w'.node i).ready = (w.node i).ready) (hready : w'.readyTo = w.readyTo) :
    w'.ReadyInv M v := by
  have hrdy : w'.readied M = w.readied M := readied_congr fun i => (hnode i).1
  constructor
  · intro i hi hv
    rw [(hnode i).2, hready, hrdy]
    exact h.ready i hi hv
  · rw [(hnode v).2, hready, hrdy]
    exact h.target
  · rw [(hnode v).2, hready, hrdy]
    exact h.twice

/-- Nobody but `j` has changed, and it has not taken an action back. -/
theorem Calm.of_set (h : (w.node j).applied ≠ 0 → s.applied ≠ 0) (c : (w.set j s).Calm M v) :
    w.Calm M v := by
  intro i hi hv
  have hset := c i hi hv
  by_cases hij : i = j
  · rw [hij, set_self] at hset
    rw [hij]
    by_contra hne
    exact h hne hset
  · rw [set_of_ne hij] at hset
    exact hset

namespace Inv

theorem set (I : w.Inv M v q qv) (hs : ∀ m, (w.node j).Ok M v m j → s.Ok M v m j) :
    (∀ i ∈ M, ((w.set j s).node i).Ok M v q i) ∧
      (v ∉ M → ((w.set j s).node v).Ok M v qv v) := by
  constructor
  · intro i hi
    by_cases hij : i = j
    · subst i
      rw [set_self]
      exact hs q (I.ok j hi)
    · rw [set_of_ne hij]
      exact I.ok i hi
  · intro hout
    by_cases hvj : v = j
    · subst j
      rw [set_self]
      exact hs qv (I.outside hout)
    · rw [set_of_ne hvj]
      exact I.outside hout

theorem quorum_of_calm (I : w.Inv M v q qv) (c : w.Calm M v) (hj : j ∈ M) :
    (w.node j).quorum = q := by
  apply (I.ok j hj).quorum_eq
  by_cases hv : j = v
  · exact .inr hv
  · exact .inl (c j hj hv)

theorem waiting_of_agg (I : w.Inv M v q qv) (hj : j ∈ M) (hagg : w.aggTo j ≠ 0) :
    (w.node j).echoed = false := by
  by_contra hne
  exact hagg (I.reached j hj (Bool.eq_true_of_not_eq_false hne))

theorem onAgg_aggInv (I : w.Inv M v q qv) : (w.onAgg j).AggInv M := by
  constructor
  · intro i hi hwait
    have hij : i ≠ j := by
      rintro rfl
      exact Bool.false_ne_true (hwait.symm.trans (congrArg Station.echoed set_self))
    change ((w.set j _).node i).echoed = false at hwait
    rw [set_of_ne hij] at hwait
    exact (taken_of_ne w.aggTo hij).trans (I.waiting i hi hwait)
  · intro i hi hreached
    change taken w.aggTo j i = 0
    by_cases hij : i = j
    · subst i
      rw [taken_self]
      cases he : (w.node j).echoed with
      | false => rw [I.waiting j hi he]
      | true => rw [I.reached j hi he]
    · rw [taken_of_ne _ hij]
      change ((w.set j _).node i).echoed = true at hreached
      rw [set_of_ne hij] at hreached
      exact I.reached i hi hreached

/-- A station that the announcement reaches either stays short of its quorum, has sent READY,
or misses its quorum; then a quorum of others has sent ECHO before. -/
theorem onAgg_kept (I : w.Inv M v q qv) (hq : 2 ≤ q) (hj : j ∈ M)
    (hwait : (w.node j).echoed = false) (hecho : (w.node j).echo = 0 ∨ w.echoTo j ≠ 0)
    (c : w.Calm M v) :
    min ((w.echoed M).card + 1) q ≤ ((w.onAgg j).kept M q).card := by
  have hold := I.kept c
  have hcount := I.echo j hj (.inr c)
  have hsub : w.kept M q ⊆ (w.onAgg j).kept M q := by
    intro i hi
    unfold Wave.kept at hi ⊢
    rw [Finset.mem_filter] at hi ⊢
    have hij : i ≠ j := by
      rintro rfl
      rw [hwait] at hi
      exact Bool.false_ne_true hi.2.1
    change i ∈ M ∧ ((w.set j _).node i).echoed = true ∧
      (((w.set j _).node i).readied = true ∨ ((w.set j _).node i).echo < q)
    rw [set_of_ne hij]
    exact hi
  have hcard := Finset.card_le_card hsub
  by_cases hstay : (w.node j).readied = true ∨ (w.node j).echo + 1 < q
  · have hmem : j ∈ (w.onAgg j).kept M q := by
      refine Finset.mem_filter.mpr ⟨hj, ?_⟩
      change ((w.set j _).node j).echoed = true ∧
        (((w.set j _).node j).readied = true ∨ ((w.set j _).node j).echo < q)
      rw [set_self]
      exact ⟨rfl, hstay⟩
    have hnot : j ∉ w.kept M q := by
      intro hin
      have hech := (Finset.mem_filter.mp hin).2.1
      rw [hwait] at hech
      exact Bool.false_ne_true hech
    have hlt := Finset.card_lt_card ((Finset.ssubset_iff_of_subset hsub).mpr ⟨j, hmem, hnot⟩)
    omega
  · have hmiss : ¬ q ≤ (w.node j).echo := fun hle => hstay (.inl (I.cross c j hj hwait hle))
    have hge : ¬ (w.node j).echo + 1 < q := fun hlt => hstay (.inr hlt)
    omega

theorem onAgg_echoInv (I : w.Inv M v q qv) (hq : 2 ≤ q) (hj : j ∈ M)
    (hwait : (w.node j).echoed = false) (hecho : (w.node j).echo = 0 ∨ w.echoTo j ≠ 0) :
    (w.onAgg j).EchoInv M v q := by
  have hcard : ((w.onAgg j).echoed M).card = (w.echoed M).card + 1 := by
    have hins : (w.onAgg j).echoed M = insert j (w.echoed M) := echoed_insert hj rfl
    rw [hins, Finset.card_insert_of_notMem (notMem_echoed hwait)]
  have hcalm : (w.onAgg j).Calm M v → w.Calm M v := Calm.of_set fun h => h
  have hback : w.Calm M v → (w.onAgg j).Calm M v := by
    intro c i hi hv
    exact (keeps (w.onAgg j) Station.applied rfl rfl i).trans (c i hi hv)
  have hok := I.ok j hj
  constructor
  · intro i hi hside
    rw [hcard]
    change ((w.set j _).node i).echo + mail w.echoTo (w.node j).peers i = _
    by_cases hij : i = j
    · subst i
      have hself := I.echo j hj (hside.imp_right hcalm)
      rw [set_self, mail_of_notMem hok.self, ← hself]
      exact Nat.add_right_comm ..
    · have hpeer : i ∈ (w.node j).peers := by
        apply hok.peers i hi hij
        rcases hside with hv | c
        · exact .inl hv
        · by_cases hv : j = v
          · exact .inr (.inr hv)
          · exact .inr (.inl (hcalm c j hj hv))
      rw [set_of_ne hij, mail_of_mem hpeer, ← I.echo i hi (hside.imp_right hcalm)]
      exact (Nat.add_assoc ..).symm
  · intro c i hi hwait' hle
    change ((w.set j _).node i).echoed = false at hwait'
    change q ≤ ((w.set j _).node i).echo at hle
    change ((w.set j _).node i).readied = true
    have hij : i ≠ j := by
      rintro rfl
      rw [set_self] at hwait'
      exact Bool.false_ne_true hwait'.symm
    rw [set_of_ne hij] at hwait' hle ⊢
    exact I.cross (hcalm c) i hi hwait' hle
  · intro c
    rw [hcard]
    exact I.onAgg_kept hq hj hwait hecho (hcalm c)
  · intro c
    rw [hcard]
    have hold := I.quorum fun h => c (hback h)
    omega
  · intro hout
    rw [hcard]
    have hv : v ≠ j := fun h => hout (h ▸ hj)
    change ((w.set j _).node v).echo + mail w.echoTo (w.node j).peers v = 0 ∨
      ((w.set j _).node v).echo + mail w.echoTo (w.node j).peers v + q ≤ _
    rw [set_of_ne hv]
    have hlate := I.late hout
    by_cases hpeer : v ∈ (w.node j).peers
    · -- only a station that has acted sends its ECHO to a target outside of `M`
      have hact : ¬ w.Calm M v := fun c => hok.members hout (c j hj hv.symm) hpeer
      have hquorum := I.quorum hact
      rw [mail_of_mem hpeer]
      omega
    · rw [mail_of_notMem hpeer]
      omega

theorem onAgg_readyInv (I : w.Inv M v q qv) : (w.onAgg j).ReadyInv M v :=
  I.toReadyInv.congr
    (fun i => ⟨keeps (w.onAgg j) Station.readied rfl rfl i,
      keeps (w.onAgg j) Station.ready rfl rfl i⟩) rfl

theorem onAgg (I : w.Inv M v q qv) (hq : 2 ≤ q) (hj : j ∈ M) (hagg : w.aggTo j ≠ 0)
    (hecho : (w.node j).echo = 0 ∨ w.echoTo j ≠ 0) : (w.onAgg j).Inv M v q qv := by
  have hwait := I.waiting_of_agg hj hagg
  obtain ⟨hok, hout⟩ := I.set fun _ h => h.onAgg
  exact { I.onAgg_aggInv, I.onAgg_echoInv hq hj hwait hecho, I.onAgg_readyInv with
    ok := hok
    outside := hout }

theorem sum_taken {w' : Wave ι} {f : Station ι → ℕ} {flight : ι → ℕ}
    (hnode : w'.node = (w.set j s).node) (hpos : flight j ≠ 0) (hcount : f s = f (w.node j) + 1)
    (i : ι) : f (w'.node i) + taken flight j i = f (w.node i) + flight i := by
  rw [hnode]
  by_cases hij : i = j
  · subst i
    rw [set_self, taken_self, hcount]
    omega
  · rw [set_of_ne hij, taken_of_ne _ hij]

theorem echoInv_receive (I : w.Inv M v q qv) {w' : Wave ι} (hpos : w.echoTo j ≠ 0)
    (hnode : w'.node = (w.set j s).node) (hto : w'.echoTo = taken w.echoTo j)
    (hcount : s.echo = (w.node j).echo + 1) (hechoed : s.echoed = (w.node j).echoed)
    (happlied : s.applied = (w.node j).applied)
    (hkeep : (w.node j).readied = true → s.readied = true)
    (hcross : s.readied = true ∨ (w.node j).echo + 1 ≠ (w.node j).quorum) :
    w'.EchoInv M v q := by
  have hech : w'.echoed M = w.echoed M := echoed_congr (keeps w' Station.echoed hnode hechoed)
  have happ := keeps w' Station.applied hnode happlied
  have hsum : ∀ i, (w'.node i).echo + w'.echoTo i = (w.node i).echo + w.echoTo i := by
    rw [hto]
    exact sum_taken hnode hpos hcount
  have hcalm : w'.Calm M v ↔ w.Calm M v := by
    unfold Calm
    simp only [happ]
  have hmiss : w.Calm M v → j ∈ M → q = (w.node j).echo + 1 → s.readied = true := by
    intro c hj hq
    exact hcross.resolve_right fun h => h (hq.symm.trans (I.quorum_of_calm c hj).symm)
  constructor
  · intro i hi hside
    rw [hsum, hech]
    exact I.echo i hi (hside.imp_right hcalm.mp)
  · intro c i hi hwait hle
    rw [hnode] at hwait hle ⊢
    by_cases hij : i = j
    · subst i
      rw [set_self] at hwait hle ⊢
      by_cases hold : q ≤ (w.node j).echo
      · exact hkeep (I.cross (hcalm.mp c) j hi (hechoed.symm.trans hwait) hold)
      · exact hmiss (hcalm.mp c) hi (by omega)
    · rw [set_of_ne hij] at hwait hle ⊢
      exact I.cross (hcalm.mp c) i hi hwait hle
  · intro c
    have hsub : w.kept M q ⊆ w'.kept M q := by
      intro i hi
      obtain ⟨hM, hsent, hstay⟩ := Finset.mem_filter.mp hi
      refine Finset.mem_filter.mpr ⟨hM, ?_⟩
      rw [hnode]
      by_cases hij : i = j
      · subst i
        rw [set_self, hechoed]
        refine ⟨hsent, ?_⟩
        rcases hstay with hr | hlt
        · exact .inl (hkeep hr)
        · by_cases heq : q = (w.node j).echo + 1
          · exact .inl (hmiss (hcalm.mp c) hM heq)
          · exact .inr (by omega)
      · rw [set_of_ne hij]
        exact ⟨hsent, hstay⟩
    rw [hech]
    exact (I.kept (hcalm.mp c)).trans (Finset.card_le_card hsub)
  · intro c
    rw [hech]
    exact I.quorum fun h => c (hcalm.mpr h)
  · rw [hsum, hech]
    exact I.late

theorem readyInv_receive (I : w.Inv M v q qv) {w' : Wave ι} (hpos : w.readyTo j ≠ 0)
    (hnode : w'.node = (w.set j s).node) (hto : w'.readyTo = taken w.readyTo j)
    (hcount : s.ready = (w.node j).ready + 1) (hreadied : s.readied = (w.node j).readied) :
    w'.ReadyInv M v := by
  have hrdy : w'.readied M = w.readied M := readied_congr (keeps w' Station.readied hnode hreadied)
  have hsum : ∀ i, (w'.node i).ready + w'.readyTo i = (w.node i).ready + w.readyTo i := by
    rw [hto]
    exact sum_taken hnode hpos hcount
  constructor
  · intro i hi hv
    rw [hsum, hrdy]
    exact I.ready i hi hv
  · rw [hsum, hrdy]
    exact I.target
  · rw [hsum, hrdy]
    exact I.twice

theorem countEcho (I : w.Inv M v q qv) (hpos : w.echoTo j ≠ 0)
    (hquorum : (w.node j).echo + 1 ≠ (w.node j).quorum) : (w.countEcho j).Inv M v q qv := by
  have hagg : (w.countEcho j).AggInv M :=
    I.toAggInv.congr (keeps (w.countEcho j) Station.echoed rfl rfl) rfl
  have hready : (w.countEcho j).ReadyInv M v := I.toReadyInv.congr
    (fun i => ⟨keeps (w.countEcho j) Station.readied rfl rfl i,
      keeps (w.countEcho j) Station.ready rfl rfl i⟩) rfl
  have hecho : (w.countEcho j).EchoInv M v q :=
    I.echoInv_receive hpos rfl rfl rfl rfl rfl (fun h => h) (.inr hquorum)
  obtain ⟨hok, hout⟩ := I.set fun _ h => h.countEcho
  exact { hagg, hecho, hready with
    ok := hok
    outside := hout }

theorem countReady (I : w.Inv M v q qv) (hpos : w.readyTo j ≠ 0)
    (hquorum : (w.node j).ready + 1 ≠ (w.node j).quorum) : (w.countReady j).Inv M v q qv := by
  have hagg : (w.countReady j).AggInv M :=
    I.toAggInv.congr (keeps (w.countReady j) Station.echoed rfl rfl) rfl
  have happ := keeps (w.countReady j) Station.applied rfl rfl
  have hcalm : (w.countReady j).Calm M v ↔ w.Calm M v := by
    unfold Calm
    simp only [happ]
  have hecho : (w.countReady j).EchoInv M v q := I.toEchoInv.congr
    (fun i => ⟨keeps (w.countReady j) Station.echoed rfl rfl i,
      keeps (w.countReady j) Station.readied rfl rfl i,
      keeps (w.countReady j) Station.echo rfl rfl i⟩) rfl hcalm.mp
    fun c h => absurd (hcalm.mpr c) h
  have hready : (w.countReady j).ReadyInv M v := I.readyInv_receive hpos rfl rfl rfl rfl
  obtain ⟨hok, hout⟩ := I.set fun _ h => h.countReady hquorum
  exact { hagg, hecho, hready with
    ok := hok
    outside := hout }

/-- The target sends READY to its peers and counts nothing. -/
theorem sendReady_target (I : w.Inv M v q qv) (hv : v ∈ M) (hnew : (w.node v).readied = false) :
    (w.sendReady v v).ReadyInv M v := by
  have hok := I.ok v hv
  have hins : (w.sendReady v v).readied M = insert v (w.readied M) := readied_insert hv rfl
  have herase : ((w.sendReady v v).readied M).erase v = (w.readied M).erase v := by
    rw [hins, Finset.erase_insert_eq_erase]
  have hcount := keeps (w.sendReady v v) Station.ready rfl (if_pos rfl)
  have hto : ∀ i, (w.sendReady v v).readyTo i = mail w.readyTo (w.node v).peers i := by
    intro i
    change mail _ (if v = v then ∅ else {v}) i = _
    rw [if_pos rfl, mail_of_notMem (Finset.notMem_empty i)]
  have hself : (w.sendReady v v).readyTo v = w.readyTo v := by
    rw [hto, mail_of_notMem hok.self]
  constructor
  · intro i hi hne
    have hpeer : i ∈ (w.node v).peers := hok.peers i hi hne (.inl hne)
    rw [hcount, hto, mail_of_mem hpeer, hins,
      Finset.card_insert_of_notMem (notMem_readied hnew), ← I.ready i hi hne]
    exact (Nat.add_assoc ..).symm
  · rw [herase, hcount, hself]
    exact I.target
  · rw [herase, hcount, hself]
    exact I.twice

/-- The first station to send READY has not acted: it sends the target two. -/
theorem first_ready (I : w.Inv M v q qv) (hq : 2 ≤ q) (hj : j ∈ M) (hjv : j ≠ v) (hv : v ∈ M)
    (hnone : (w.readied M).erase v = ∅) : v ∈ (w.node j).peers := by
  have hok := I.ok j hj
  have hcard : (w.readied M).card ≤ 1 := by
    have hle := Finset.pred_card_le_card_erase (s := w.readied M) (a := v)
    rw [hnone, Finset.card_empty] at hle
    omega
  have hcount := I.ready j hj hjv
  have hpending : (w.node j).applied = 0 := by
    rcases hok.state with ⟨h0, -⟩ | ⟨-, hle⟩
    · exact h0
    · omega
  exact hok.peers v hv hjv.symm (.inr (.inl hpending))

theorem sendReady_other (I : w.Inv M v q qv) (hq : 2 ≤ q) (hj : j ∈ M) (hjv : j ≠ v)
    (hnew : (w.node j).readied = false) : (w.sendReady v j).ReadyInv M v := by
  have hok := I.ok j hj
  have hins : (w.sendReady v j).readied M = insert j (w.readied M) := readied_insert hj rfl
  have hcard : ((w.sendReady v j).readied M).card = (w.readied M).card + 1 := by
    rw [hins, Finset.card_insert_of_notMem (notMem_readied hnew)]
  have herase :
      (((w.sendReady v j).readied M).erase v).card = ((w.readied M).erase v).card + 1 := by
    rw [hins, Finset.erase_insert_of_ne hjv, Finset.card_insert_of_notMem]
    exact fun hmem => notMem_readied hnew (Finset.mem_of_mem_erase hmem)
  have hto : (w.sendReady v j).readyTo = mail (mail w.readyTo (w.node j).peers) {v} := by
    change mail _ (if j = v then ∅ else {v}) = _
    rw [if_neg hjv]
  have hv : (w.sendReady v j).readyTo v = mail w.readyTo (w.node j).peers v + 1 := by
    rw [hto, mail_of_mem (Finset.mem_singleton_self v)]
  have hcount : ((w.sendReady v j).node v).ready = (w.node v).ready := by
    change ((w.set j _).node v).ready = _
    rw [set_of_ne (Ne.symm hjv)]
  have hmail : w.readyTo v ≤ mail w.readyTo (w.node j).peers v := Nat.le_add_right ..
  constructor
  · intro i hi hne
    rw [hcard, hto, mail_of_notMem (fun h => hne (Finset.mem_singleton.mp h))]
    change ((w.set j _).node i).ready + _ = _
    by_cases hij : i = j
    · subst i
      rw [set_self, mail_of_notMem hok.self, if_neg hjv, ← I.ready j hj hjv]
      exact Nat.add_right_comm ..
    · rw [set_of_ne hij, mail_of_mem (hok.peers i hi hij (.inl hne)), ← I.ready i hi hne]
      exact (Nat.add_assoc ..).symm
  · have hold := I.target
    rw [herase, hcount, hv]
    omega
  · intro hM _
    rw [herase, hcount, hv]
    by_cases hnone : (w.readied M).erase v = ∅
    · rw [mail_of_mem (I.first_ready hq hj hjv hM hnone), hnone, Finset.card_empty]
      omega
    · have hold := I.twice hM (Finset.nonempty_iff_ne_empty.mpr hnone)
      omega

theorem mem_of_quorum (I : w.Inv M v q qv) (hqv : M.card < q + qv) (hj : j ∈ M ∨ j = v)
    (hpos : w.echoTo j ≠ 0) (hquorum : (w.node j).echo + 1 = (w.node j).quorum) : j ∈ M := by
  by_contra hout
  have hv : j = v := hj.resolve_left hout
  subst hv
  have hlate := I.late hout
  have hq := (I.outside hout).quorum_eq (.inr rfl)
  have hle : (w.echoed M).card ≤ M.card := Finset.card_filter_le ..
  omega

theorem sendReady (I : w.Inv M v q qv) (hq : 2 ≤ q) (hqv : M.card < q + qv)
    (hj : j ∈ M ∨ j = v) (hpos : w.echoTo j ≠ 0)
    (hquorum : (w.node j).echo + 1 = (w.node j).quorum)
    (hown : j = v ∨ (w.node j).ready + 1 ≠ (w.node j).quorum) :
    (w.sendReady v j).Inv M v q qv := by
  have hM := I.mem_of_quorum hqv hj hpos hquorum
  have hnew : (w.node j).readied = false := by
    by_contra hne
    have honce := (I.ok j hM).once (Bool.eq_true_of_not_eq_false hne)
    omega
  have hagg : (w.sendReady v j).AggInv M :=
    I.toAggInv.congr (keeps (w.sendReady v j) Station.echoed rfl rfl) rfl
  have hecho : (w.sendReady v j).EchoInv M v q :=
    I.echoInv_receive hpos rfl rfl rfl rfl rfl (fun _ => rfl) (.inl rfl)
  have hready : (w.sendReady v j).ReadyInv M v := by
    by_cases hjv : j = v
    · subst hjv
      exact I.sendReady_target hM hnew
    · exact I.sendReady_other hq hM hjv hnew
  obtain ⟨hok, hout⟩ := I.set fun _ h => h.sendReady hquorum hown
  exact { hagg, hecho, hready with
    ok := hok
    outside := hout }

theorem echoed_of_ready (I : w.Inv M v q qv) (hq : 2 ≤ q) (c : w.Calm M v)
    (hready : q ≤ (w.readied M).card) : q ≤ (w.echoed M).card := by
  obtain ⟨i, hi⟩ := Finset.card_pos.mp (by omega : 0 < (w.readied M).card)
  obtain ⟨hM, hsent⟩ := Finset.mem_filter.mp hi
  have honce := (I.ok i hM).once hsent
  have heq := I.quorum_of_calm c hM
  have hcount := I.echo i hM (.inr c)
  omega

theorem pending (I : w.Inv M v q qv) (hj : j ∈ M ∨ j = v)
    (hquorum : (w.node j).ready + 1 = (w.node j).quorum) : (w.node j).applied = 0 := by
  by_cases hM : j ∈ M
  · exact (I.ok j hM).pending hquorum
  · have hv : j = v := hj.resolve_left hM
    subst hv
    exact (I.outside hM).pending hquorum

theorem apply {quorum : ℕ} {peers : Finset ι} (I : w.Inv M v q qv) (hq : 2 ≤ q)
    (hj : j ∈ M ∨ j = v) (hpos : w.readyTo j ≠ 0)
    (hquorum : (w.node j).ready + 1 = (w.node j).quorum) (hle : quorum ≤ (w.node j).quorum)
    (hself : j ∉ peers) (hpeers : ∀ p ∈ M, p ≠ j → p ≠ v ∨ j = v → p ∈ peers)
    (htarget : j = v → quorum = (w.node j).quorum) : (w.apply j quorum peers).Inv M v q qv := by
  have hagg : (w.apply j quorum peers).AggInv M :=
    I.toAggInv.congr (keeps (w.apply j quorum peers) Station.echoed rfl rfl) rfl
  have hcalm : (w.apply j quorum peers).Calm M v → w.Calm M v :=
    Calm.of_set fun _ => Nat.succ_ne_zero _
  have hecho : (w.apply j quorum peers).EchoInv M v q := by
    refine I.toEchoInv.congr (fun i => ⟨keeps (w.apply j quorum peers) Station.echoed rfl rfl i,
      keeps (w.apply j quorum peers) Station.readied rfl rfl i,
      keeps (w.apply j quorum peers) Station.echo rfl rfl i⟩) rfl hcalm ?_
    intro c hact
    -- the first station to act is a member other than the target
    have hjv : j ≠ v := by
      intro h
      apply hact
      intro i hi hiv
      change ((w.set j _).node i).applied = 0
      rw [set_of_ne (h.symm ▸ hiv)]
      exact c i hi hiv
    have hM := hj.resolve_right hjv
    have heq := I.quorum_of_calm c hM
    have hcount := I.ready j hM hjv
    exact I.echoed_of_ready hq c (by omega)
  have hready : (w.apply j quorum peers).ReadyInv M v := I.readyInv_receive hpos rfl rfl rfl rfl
  obtain ⟨hok, hout⟩ := I.set fun _ h => h.apply hquorum hle hself hpeers htarget
  exact { hagg, hecho, hready with
    ok := hok
    outside := hout }

theorem step {w' : Wave ι} (I : w.Inv M v q qv) (hq : 2 ≤ q) (hqv : M.card < q + qv)
    (h : Step M v w w') : w'.Inv M v q qv := by
  cases h with
  | agg hj hagg hecho => exact I.onAgg hq hj hagg hecho
  | countEcho _ hecho hquorum => exact I.countEcho hecho hquorum
  | sendReady hj hecho hquorum hown => exact I.sendReady hq hqv hj hecho hquorum hown
  | countReady _ hready hquorum => exact I.countReady hready hquorum
  | apply hj hready hquorum hle hself hpeers htarget =>
    exact I.apply hq hj hready hquorum hle hself hpeers htarget

theorem readied_of_quiet (I : w.Inv M v q qv) (hn : q ≤ M.card) (hquiet : w.Quiet) :
    q ≤ (w.readied M).card := by
  by_cases c : w.Calm M v
  · have hech : w.echoed M = M := by
      apply Finset.filter_true_of_mem
      intro i hi
      by_contra hne
      have hone := I.waiting i hi (Bool.eq_false_iff.mpr hne)
      rw [(hquiet i).1] at hone
      exact Nat.zero_ne_one hone
    have hkept := I.kept c
    rw [hech, Nat.min_eq_right hn] at hkept
    have hsub : w.kept M q ⊆ w.readied M := by
      intro i hi
      obtain ⟨hM, -, hstay⟩ := Finset.mem_filter.mp hi
      have hcount := I.echo i hM (.inr c)
      rw [(hquiet i).2.1, hech, Nat.add_zero] at hcount
      exact Finset.mem_filter.mpr ⟨hM, hstay.resolve_right (by omega)⟩
    exact hkept.trans (Finset.card_le_card hsub)
  · unfold Calm at c
    push Not at c
    obtain ⟨i, hi, hiv, happ⟩ := c
    have hcount := I.ready i hi hiv
    rcases (I.ok i hi).state with ⟨h0, -⟩ | ⟨-, hle⟩
    · exact absurd h0 happ
    · omega

/-- Once no message is in flight, every station has acted once. -/
theorem applied_of_quiet (I : w.Inv M v q qv) (hq : 2 ≤ q) (hn : q ≤ M.card) (hquiet : w.Quiet)
    (hj : j ∈ M) : (w.node j).applied = 1 := by
  have hrdy := I.readied_of_quiet hn hquiet
  have hle : q ≤ (w.node j).ready := by
    by_cases hjv : j = v
    · subst hjv
      have hcard := Finset.pred_card_le_card_erase (s := w.readied M) (a := j)
      have htwo := I.twice hj (Finset.card_pos.mp (by omega))
      rw [(hquiet j).2.2] at htwo
      omega
    · have hcount := I.ready j hj hjv
      rw [(hquiet j).2.2] at hcount
      omega
  rcases (I.ok j hj).state with ⟨-, hlt⟩ | ⟨h1, -⟩
  · omega
  · exact h1

/-- So has a target outside of `M` whose quorum is not larger. -/
theorem outside_of_quiet (I : w.Inv M v q qv) (hn : q ≤ M.card) (hquiet : w.Quiet)
    (hout : v ∉ M) (hqv : qv ≤ q) : (w.node v).applied = 1 := by
  have hrdy := I.readied_of_quiet hn hquiet
  have hnot : v ∉ w.readied M := fun h => hout (Finset.mem_filter.mp h).1
  have hcount := I.target
  rw [Finset.erase_eq_of_notMem hnot, (hquiet v).2.2] at hcount
  rcases (I.outside hout).state with ⟨-, hlt⟩ | ⟨h1, -⟩
  · omega
  · exact h1

end Inv

theorem Blank.inv (b : w.Blank M v) (hq : 0 < q) (hok : ∀ i ∈ M, (w.node i).Ok M v q i)
    (hout : v ∉ M → (w.node v).Ok M v qv v) : w.Inv M v q qv := by
  have hech : w.echoed M = ∅ :=
    Finset.filter_false_of_mem fun i hi h => Bool.false_ne_true ((b.node i (.inl hi)).2.2.2.1 ▸ h)
  have hrdy : w.readied M = ∅ :=
    Finset.filter_false_of_mem fun i hi h => Bool.false_ne_true ((b.node i (.inl hi)).2.2.2.2 ▸ h)
  have hcalm : w.Calm M v := fun i hi _ => (b.node i (.inl hi)).2.2.1
  constructor
  · constructor
    · intro i hi _
      exact b.agg i hi
    · intro i hi h
      rw [(b.node i (.inl hi)).2.2.2.1] at h
      exact absurd h Bool.false_ne_true
  · constructor
    · intro i hi _
      rw [(b.node i (.inl hi)).1, b.echoTo, hech]
      rfl
    · intro _ i hi _ hle
      rw [(b.node i (.inl hi)).1] at hle
      omega
    · intro _
      rw [hech, Finset.card_empty, Nat.zero_min]
      exact Nat.zero_le _
    · intro h
      exact absurd hcalm h
    · intro _
      rw [(b.node v (.inr rfl)).1, b.echoTo]
      exact .inl rfl
  · constructor
    · intro i hi _
      rw [(b.node i (.inl hi)).2.1, b.readyTo, hrdy]
      rfl
    · rw [hrdy, Finset.erase_empty, Finset.card_empty]
      exact Nat.zero_le _
    · intro _ hne
      rw [hrdy, Finset.erase_empty] at hne
      exact absurd hne Finset.not_nonempty_empty
  · exact hok
  · exact hout

end Wave

end AvaHotstuff.EchoReady
