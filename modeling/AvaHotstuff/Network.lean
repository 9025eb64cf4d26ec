import Mathlib.Logic.Function.Basic
import Mathlib.Tactic.Common

set_option autoImplicit false

/-!
# Nodes that exchange messages

The messages in flight are kept in the order they were sent. Any of them may be
delivered next; a transport that keeps the order of each connection delivers only the
oldest message of a connection.
-/
namespace AvaHotstuff.Network

universe u v w
variable {ι : Type u} {σ : Type v} {μ : Type w}

structure Packet (ι : Type u) (μ : Type w) where
  src : ι
  dst : ι
  msg : μ

structure Net (ι : Type u) (σ : Type v) (μ : Type w) where
  node : ι → σ
  flight : List (Packet ι μ)

/-- A node handles a packet addressed to it: its new state, and what it sends. -/
abbrev Handler (ι : Type u) (σ : Type v) (μ : Type w) :=
  σ → Packet ι μ → σ × List (Packet ι μ)

theorem mem_eraseIdx {flight : List (Packet ι μ)} {i : ℕ} {p q : Packet ι μ}
    (hp : flight[i]? = some p) (hq : q ∈ flight) : q = p ∨ q ∈ flight.eraseIdx i := by
  obtain ⟨j, hj⟩ := List.mem_iff_getElem?.mp hq
  by_cases hji : j = i
  · subst j
    exact .inl (Option.some.inj (hj.symm.trans hp))
  · exact .inr (List.mem_eraseIdx_iff_getElem?.mpr ⟨j, hji, hj⟩)

variable [DecidableEq ι]

def Net.setNode (net : Net ι σ μ) (i : ι) (s : σ) : Net ι σ μ :=
  { net with node := Function.update net.node i s }

def Net.deliver (handle : Handler ι σ μ) (net : Net ι σ μ) (i : ℕ) : Net ι σ μ :=
  match net.flight[i]? with
  | none => net
  | some p =>
    let r := handle (net.node p.dst) p
    { net.setNode p.dst r.1 with flight := net.flight.eraseIdx i ++ r.2 }

variable {handle : Handler ι σ μ} {net : Net ι σ μ} {i : ℕ} {p : Packet ι μ}

theorem Net.deliver_of (hp : net.flight[i]? = some p) :
    net.deliver handle i =
      { net.setNode p.dst (handle (net.node p.dst) p).1 with
        flight := net.flight.eraseIdx i ++ (handle (net.node p.dst) p).2 } := by
  unfold deliver
  rw [hp]

theorem Net.setNode_self (j : ι) (s : σ) : (net.setNode j s).node j = s :=
  Function.update_self ..

theorem Net.setNode_of_ne {j k : ι} (s : σ) (h : k ≠ j) : (net.setNode j s).node k = net.node k :=
  Function.update_of_ne h ..

end AvaHotstuff.Network
