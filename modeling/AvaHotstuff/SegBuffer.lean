import Mathlib.Data.List.TakeDrop
import Mathlib.Tactic.Common

set_option autoImplicit false

/-!
# Segmented buffers

`salticidae::SegBuffer` keeps the bytes of a connection in the segments they came in, and reads
them across the segments. The abstract value of a buffer is the list of its unread elements.
-/
namespace AvaHotstuff

universe u
variable {α : Type u}

/-- `buffer_entry_t`: the elements before `offset` are read. -/
structure SegEntry (α : Type u) where
  data : List α
  offset : ℕ
  le : offset ≤ data.length

namespace SegEntry

def ofData (data : List α) : SegEntry α := ⟨data, 0, Nat.zero_le _⟩

def length (e : SegEntry α) : ℕ := e.data.length - e.offset

def unread (e : SegEntry α) : List α := e.data.drop e.offset

/-- `offset += n`, for an `n` that the entry still has. -/
def advance (e : SegEntry α) (n : ℕ) (h : n ≤ e.length) : SegEntry α where
  data := e.data
  offset := e.offset + n
  le := by
    have hle := e.le
    unfold length at h
    omega

@[simp] theorem length_unread (e : SegEntry α) : e.unread.length = e.length := List.length_drop

@[simp] theorem unread_ofData (data : List α) : (ofData data).unread = data := List.drop_zero

theorem unread_advance (e : SegEntry α) {n : ℕ} (h : n ≤ e.length) :
    (e.advance n h).unread = e.unread.drop n := by
  unfold unread advance
  rw [List.drop_drop]

@[simp] theorem length_advance (e : SegEntry α) {n : ℕ} (h : n ≤ e.length) :
    (e.advance n h).length = e.length - n := Nat.sub_add_eq ..

def finished (e : SegEntry α) : Bool := decide (e.offset = e.data.length)

theorem finished_iff (e : SegEntry α) : e.finished = true ↔ e.length = 0 := by
  have hle := e.le
  unfold finished length
  rw [decide_eq_true_iff]
  omega

end SegEntry

structure SegBuffer (α : Type u) where
  buffer : List (SegEntry α)
  size : ℕ

namespace SegBuffer

def empty : SegBuffer α := ⟨[], 0⟩

/-- The elements that `pop` has not returned, in order. -/
def contents (b : SegBuffer α) : List α := b.buffer.flatMap SegEntry.unread

def len (b : SegBuffer α) : ℕ := b.buffer.length

def push (b : SegBuffer α) (data : List α) : SegBuffer α :=
  ⟨b.buffer ++ [.ofData data], b.size + data.length⟩

/-- The loop of `pop`: what is copied out, and the segments that stay. -/
def popLoop : ℕ → List (SegEntry α) → List α × List (SegEntry α)
  | 0, es => ([], es)
  | _ + 1, [] => ([], [])
  | len + 1, e :: es =>
    let copyLen := min e.length (len + 1)
    let e' := e.advance copyLen (Nat.min_le_left ..)
    if e'.finished then
      let r := popLoop (len + 1 - copyLen) es
      (e.unread.take copyLen ++ r.1, r.2)
    else (e.unread.take copyLen, e' :: es)

def pop (b : SegBuffer α) (len : ℕ) : List α × SegBuffer α :=
  let r := popLoop len b.buffer
  (r.1, ⟨r.2, b.size - r.1.length⟩)

def Counted (b : SegBuffer α) : Prop := b.size = b.contents.length

theorem popLoop_spec (len : ℕ) (es : List (SegEntry α)) :
    (popLoop len es).1 = (es.flatMap SegEntry.unread).take len ∧
      (popLoop len es).2.flatMap SegEntry.unread = (es.flatMap SegEntry.unread).drop len := by
  induction es generalizing len with
  | nil => cases len <;> simp [popLoop]
  | cons e es ih =>
    cases len with
    | zero => simp [popLoop]
    | succ len =>
      have hlen := e.length_unread
      unfold popLoop
      simp only [List.flatMap_cons]
      split
      · rename_i hfin
        have hall : min e.length (len + 1) = e.length := by
          have h := (SegEntry.finished_iff _).mp hfin
          rw [SegEntry.length_advance] at h
          omega
        have hread : e.unread.take (len + 1) = e.unread := by
          apply List.take_of_length_le
          omega
        have hgone : e.unread.drop (len + 1) = [] := by
          apply List.drop_of_length_le
          omega
        obtain ⟨htake, hdrop⟩ := ih (len + 1 - e.length)
        rw [hall, ← hlen, List.take_length, hlen, htake, hdrop, List.take_append, hread,
          List.drop_append, hgone, hlen, List.nil_append]
        exact ⟨rfl, rfl⟩
      · rename_i hfin
        have hshort : min e.length (len + 1) = len + 1 := by
          have h := mt (SegEntry.finished_iff _).mpr hfin
          rw [SegEntry.length_advance] at h
          omega
        refine ⟨?_, ?_⟩
        · change e.unread.take (min e.length (len + 1)) = _
          rw [hshort, List.take_append_of_le_length (by omega)]
        · rw [List.flatMap_cons, SegEntry.unread_advance, hshort,
            List.drop_append_of_le_length (by omega)]

variable {b : SegBuffer α}

@[simp] theorem contents_push (data : List α) : (b.push data).contents = b.contents ++ data := by
  unfold contents push
  rw [List.flatMap_append, List.flatMap_singleton, SegEntry.unread_ofData]

theorem pop_fst (len : ℕ) : (b.pop len).1 = b.contents.take len := (popLoop_spec len _).1

theorem contents_pop (len : ℕ) : (b.pop len).2.contents = b.contents.drop len :=
  (popLoop_spec len _).2

theorem Counted.empty : (empty : SegBuffer α).Counted := rfl

theorem Counted.push (h : b.Counted) (data : List α) : (b.push data).Counted := by
  unfold Counted at h ⊢
  rw [contents_push, List.length_append, ← h]
  rfl

theorem Counted.pop (h : b.Counted) (len : ℕ) : (b.pop len).2.Counted := by
  have hfst := b.pop_fst len
  unfold Counted at h ⊢
  rw [contents_pop, List.length_drop, ← h]
  change b.size - (b.pop len).1.length = _
  rw [hfst, List.length_take, ← h]
  omega

end SegBuffer

end AvaHotstuff
