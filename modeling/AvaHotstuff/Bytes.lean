import Mathlib.Tactic.Common
import Mathlib.Tactic.Positivity

set_option autoImplicit false

/-!
# Parsers of a byte stream

A parser takes a value from the front of the stream and leaves the rest; it fails when the
stream is too short. `Parses` says that it takes exactly the given bytes, whatever follows.
-/
namespace AvaHotstuff.Bytes

abbrev Parser (α : Type) := StateT (List UInt8) Option α

variable {α β : Type}

/-- The parser takes `bs` from every stream that starts with it, and returns `a`. -/
def Parses (p : Parser α) (bs : List UInt8) (a : α) : Prop :=
  ∀ rest, p.run (bs ++ rest) = some (a, rest)

theorem Parses.pure (a : α) : Parses (Pure.pure a) [] a := fun _ => rfl

theorem Parses.lift {o : Option α} {a : α} (h : o = some a) : Parses (StateT.lift o) [] a := by
  intro rest
  rw [h]
  rfl

theorem Parses.bind {p : Parser α} {f : α → Parser β} {bs cs : List UInt8} {a : α} {b : β}
    (hp : Parses p bs a) (hf : Parses (f a) cs b) : Parses (p >>= f) (bs ++ cs) b := by
  intro rest
  rw [StateT.run_bind, List.append_assoc, hp]
  exact hf rest

theorem run_bind_eq_some {p : Parser α} {f : α → Parser β} {bs rest : List UInt8} {b : β} :
    (p >>= f).run bs = some (b, rest) ↔
      ∃ a bs', p.run bs = some (a, bs') ∧ (f a).run bs' = some (b, rest) := by
  rw [StateT.run_bind, Option.bind_eq_bind, Option.bind_eq_some_iff]
  exact Prod.exists

theorem Parses.map {p : Parser α} {bs : List UInt8} {a : α} (hp : Parses p bs a) (f : α → β) :
    Parses (f <$> p) bs (f a) := by
  intro rest
  rw [StateT.run_map, hp]
  rfl

theorem Parses.bind_pure {p : Parser α} {bs : List UInt8} {a : α} (hp : Parses p bs a)
    (f : α → β) : Parses (p >>= fun x => Pure.pure (f x)) bs (f a) := by
  have h := hp.bind (f := fun x => Pure.pure (f x)) (.pure (f a))
  rwa [List.append_nil] at h

def Fails (p : Parser α) (bs : List UInt8) : Prop := ∀ rest, p.run (bs ++ rest) = none

theorem Fails.lift : Fails (StateT.lift (none : Option α)) [] := fun _ => rfl

theorem Fails.bind {p : Parser α} {bs : List UInt8} (hp : Fails p bs) (f : α → Parser β)
    (cs : List UInt8) : Fails (p >>= f) (bs ++ cs) := by
  intro rest
  rw [StateT.run_bind, List.append_assoc, hp]
  rfl

theorem Parses.bind_fails {p : Parser α} {f : α → Parser β} {bs cs : List UInt8} {a : α}
    (hp : Parses p bs a) (hf : Fails (f a) cs) : Fails (p >>= f) (bs ++ cs) := by
  intro rest
  rw [StateT.run_bind, List.append_assoc, hp]
  exact hf rest

/-- Whatever the stream, what the parser returns satisfies `P`. -/
def Yields (p : Parser α) (P : α → Prop) : Prop := ∀ bs a rest, p.run bs = some (a, rest) → P a

theorem Yields.bind {p : Parser α} {f : α → Parser β} {P : α → Prop} {Q : β → Prop}
    (hp : Yields p P) (hf : ∀ a, P a → Yields (f a) Q) : Yields (p >>= f) Q := by
  intro bs b rest h
  rw [StateT.run_bind] at h
  obtain ⟨⟨a, bs'⟩, ha, hb⟩ := Option.bind_eq_some_iff.mp h
  exact hf a (hp bs a bs' ha) bs' b rest hb

theorem Yields.pure {a : α} {P : α → Prop} (h : P a) : Yields (Pure.pure a) P := by
  intro bs b rest hb
  obtain rfl : a = b := congrArg Prod.fst (Option.some.inj hb)
  exact h

theorem Yields.true (p : Parser α) : Yields p fun _ => True := fun _ _ _ _ => trivial

/-- Whatever the stream, the bytes that the parser takes and what it returns satisfy `P`. -/
def Consumes (p : Parser α) (P : α → List UInt8 → Prop) : Prop :=
  ∀ bs a rest, p.run bs = some (a, rest) → ∃ cs, bs = cs ++ rest ∧ P a cs

theorem Consumes.pure {a : α} {P : α → List UInt8 → Prop} (h : P a []) :
    Consumes (Pure.pure a) P := by
  intro bs b rest hb
  obtain ⟨rfl, rfl⟩ : a = b ∧ bs = rest := Prod.mk.inj (Option.some.inj hb)
  exact ⟨[], rfl, h⟩

theorem Consumes.lift (o : Option α) :
    Consumes (StateT.lift o) fun a cs => o = some a ∧ cs = [] := by
  intro bs a rest h
  obtain ⟨b, hb, heq⟩ := Option.bind_eq_some_iff.mp h
  obtain ⟨rfl, rfl⟩ : b = a ∧ bs = rest := Prod.mk.inj (Option.some.inj heq)
  exact ⟨[], rfl, hb, rfl⟩

theorem Consumes.bind {p : Parser α} {f : α → Parser β} {P : α → List UInt8 → Prop}
    {Q : β → List UInt8 → Prop} (hp : Consumes p P)
    (hf : ∀ a cs, P a cs → Consumes (f a) fun b ds => Q b (cs ++ ds)) : Consumes (p >>= f) Q := by
  intro bs b rest h
  obtain ⟨a, bs', ha, hb⟩ := run_bind_eq_some.mp h
  obtain ⟨cs, rfl, hcs⟩ := hp bs a bs' ha
  obtain ⟨ds, rfl, hds⟩ := hf a cs hcs bs' b rest hb
  exact ⟨cs ++ ds, (List.append_assoc ..).symm, hds⟩

theorem Consumes.imp {p : Parser α} {P Q : α → List UInt8 → Prop} (hp : Consumes p P)
    (h : ∀ a cs, P a cs → Q a cs) : Consumes p Q := by
  intro bs a rest hrun
  obtain ⟨cs, hbs, hcs⟩ := hp bs a rest hrun
  exact ⟨cs, hbs, h a cs hcs⟩

theorem Consumes.map {p : Parser α} {P : α → List UInt8 → Prop} {Q : β → List UInt8 → Prop}
    (hp : Consumes p P) {f : α → β} (hf : ∀ a cs, P a cs → Q (f a) cs) :
    Consumes (f <$> p) Q := by
  rw [← bind_pure_comp]
  refine hp.bind fun a cs hcs => .pure ?_
  rw [List.append_nil]
  exact hf a cs hcs

def take (w : ℕ) : Parser (List UInt8) := fun bs =>
  if w ≤ bs.length then some (bs.take w, bs.drop w) else none

theorem take_parses {w : ℕ} {bs : List UInt8} (h : bs.length = w) : Parses (take w) bs bs := by
  intro rest
  subst w
  unfold take
  rw [StateT.run, if_pos (by simp), List.take_left, List.drop_left]

theorem take_yields (w : ℕ) : Yields (take w) fun bs => bs.length = w := by
  intro bs a rest h
  unfold take at h
  rw [StateT.run] at h
  split at h
  · obtain rfl : bs.take w = a := congrArg Prod.fst (Option.some.inj h)
    rw [List.length_take]
    omega
  · cases h

theorem take_consumes (w : ℕ) : Consumes (take w) fun a cs => cs = a ∧ a.length = w := by
  intro bs a rest h
  have hlen := take_yields w bs a rest h
  unfold take at h
  rw [StateT.run] at h
  split at h
  · obtain ⟨rfl, rfl⟩ : bs.take w = a ∧ bs.drop w = rest := Prod.mk.inj (Option.some.inj h)
    exact ⟨bs.take w, (List.take_append_drop w bs).symm, rfl, hlen⟩
  · cases h

/-- The `w` bytes of a number, the least significant first. -/
def toLe : ℕ → ℕ → List UInt8
  | 0, _ => []
  | w + 1, n => UInt8.ofNat n :: toLe w (n / 256)

def ofLe : List UInt8 → ℕ
  | [] => 0
  | b :: bs => b.toNat + 256 * ofLe bs

@[simp] theorem length_toLe (w n : ℕ) : (toLe w n).length = w := by
  induction w generalizing n with
  | zero => rfl
  | succ w ih => rw [toLe, List.length_cons, ih]

theorem ofLe_toLe (w n : ℕ) : ofLe (toLe w n) = n % 256 ^ w := by
  induction w generalizing n with
  | zero =>
    rw [pow_zero, Nat.mod_one]
    rfl
  | succ w ih =>
    have hbyte : (UInt8.ofNat n).toNat = n % 256 := UInt8.toNat_ofNat'
    rw [toLe, ofLe, ih, hbyte, pow_succ', Nat.mod_mul]

theorem ofLe_lt (bs : List UInt8) : ofLe bs < 256 ^ bs.length := by
  induction bs with
  | nil => exact Nat.one_pos
  | cons b bs ih =>
    have hb : b.toNat < 256 := b.toNat_lt
    rw [ofLe, List.length_cons, pow_succ']
    omega

theorem toLe_ofLe (bs : List UInt8) : toLe bs.length (ofLe bs) = bs := by
  induction bs with
  | nil => rfl
  | cons b bs ih =>
    have hb : b.toNat < 256 := b.toNat_lt
    have hlow : UInt8.ofNat (b.toNat + 256 * ofLe bs) = b := by
      apply UInt8.toNat_inj.mp
      rw [UInt8.toNat_ofNat']
      omega
    have hhigh : (b.toNat + 256 * ofLe bs) / 256 = ofLe bs := by omega
    rw [List.length_cons, ofLe, toLe, hlow, hhigh, ih]

def readLe (w : ℕ) : Parser ℕ := ofLe <$> take w

theorem readLe_consumes (w : ℕ) :
    Consumes (readLe w) fun n cs => cs = toLe w n ∧ n < 256 ^ w := by
  refine (take_consumes w).map ?_
  rintro _ bs ⟨rfl, rfl⟩
  exact ⟨(toLe_ofLe bs).symm, ofLe_lt bs⟩

theorem readLe_yields (w : ℕ) : Yields (readLe w) fun n => n < 256 ^ w := by
  have h : Yields (take w >>= fun bs => pure (ofLe bs)) fun n => n < 256 ^ w :=
    (take_yields w).bind fun bs hbs => .pure (hbs ▸ ofLe_lt bs)
  rwa [bind_pure_comp] at h

theorem readLe_parses_mod (w n : ℕ) : Parses (readLe w) (toLe w n) (n % 256 ^ w) := by
  have h := (take_parses (length_toLe w n)).map ofLe
  rwa [ofLe_toLe] at h

theorem readLe_parses {w n : ℕ} (hn : n < 256 ^ w) : Parses (readLe w) (toLe w n) n := by
  have h := readLe_parses_mod w n
  rwa [Nat.mod_eq_of_lt hn] at h

/-- A signed number of `w` bytes, in two's complement. -/
def toLeInt (w : ℕ) (k : ℤ) : List UInt8 := toLe w (k % (256 ^ w : ℕ)).toNat

def readLeInt (w : ℕ) : Parser ℤ := (fun n : ℕ => (n : ℤ).bmod (256 ^ w)) <$> readLe w

theorem readLeInt_parses {w : ℕ} {k : ℤ} (hlow : -(256 ^ w : ℕ) ≤ k * 2)
    (hhigh : k * 2 < (256 ^ w : ℕ)) : Parses (readLeInt w) (toLeInt w k) k := by
  have hpos : (0 : ℤ) < (256 ^ w : ℕ) := by positivity
  have hnonneg : 0 ≤ k % (256 ^ w : ℕ) := Int.emod_nonneg k hpos.ne'
  have hlt : (k % (256 ^ w : ℕ)).toNat < 256 ^ w := by
    rw [Int.toNat_lt hnonneg]
    exact Int.emod_lt_of_pos k hpos
  have h := (readLe_parses hlt).map fun n : ℕ => (n : ℤ).bmod (256 ^ w)
  rw [Int.toNat_of_nonneg hnonneg, Int.emod_bmod, Int.bmod_eq_of_le_mul_two hlow hhigh] at h
  exact h

theorem readLeInt_consumes (w : ℕ) : Consumes (readLeInt w) fun k cs => cs = toLeInt w k := by
  refine (readLe_consumes w).map ?_
  rintro n _ ⟨rfl, hn⟩
  have hmod : ((n : ℤ).bmod (256 ^ w) % ((256 ^ w : ℕ) : ℤ)).toNat = n := by
    rw [Int.bmod_emod, ← Int.natCast_mod, Int.toNat_natCast, Nat.mod_eq_of_lt hn]
  rw [toLeInt, hmod]

def byteBits (b : UInt8) : List Bool := (List.range 8).map b.toNat.testBit

def bitsByte (l : List Bool) : UInt8 := UInt8.ofNat (l.foldr (fun b n => b.toNat + 2 * n) 0)

theorem byteBits_bitsByte (l : List Bool) (hl : l.length = 8) : byteBits (bitsByte l) = l := by
  have hall : ∀ a b c d e f g h : Bool, byteBits (bitsByte [a, b, c, d, e, f, g, h]) =
      [a, b, c, d, e, f, g, h] := by decide
  match l, hl with
  | [a, b, c, d, e, f, g, h], _ => exact hall a b c d e f g h

theorem length_byteBits (b : UInt8) : (byteBits b).length = 8 := by
  rw [byteBits, List.length_map, List.length_range]

theorem bitsByte_byteBits (b : UInt8) : bitsByte (byteBits b) = b := by
  have hall : ∀ n : Fin 256, bitsByte (byteBits (UInt8.ofNat n)) = UInt8.ofNat n := by
    decide +kernel
  have h := hall ⟨b.toNat, b.toNat_lt⟩
  rwa [UInt8.ofNat_toNat] at h

def packBits : ℕ → List Bool → List UInt8
  | 0, _ => []
  | n + 1, l => bitsByte (l.take 8) :: packBits n (l.drop 8)

def unpackBits (bs : List UInt8) : List Bool := bs.flatMap byteBits

@[simp] theorem length_packBits (n : ℕ) (l : List Bool) : (packBits n l).length = n := by
  induction n generalizing l with
  | zero => rfl
  | succ n ih => rw [packBits, List.length_cons, ih]

theorem unpackBits_packBits {n : ℕ} {l : List Bool} (hl : l.length = 8 * n) :
    unpackBits (packBits n l) = l := by
  induction n generalizing l with
  | zero =>
    rw [Nat.mul_zero, List.length_eq_zero_iff] at hl
    rw [hl]
    rfl
  | succ n ih =>
    have htake : (l.take 8).length = 8 := by
      rw [List.length_take]
      omega
    have hdrop : (l.drop 8).length = 8 * n := by
      rw [List.length_drop]
      omega
    have htail := ih hdrop
    unfold unpackBits at htail ⊢
    rw [packBits, List.flatMap_cons, htail, byteBits_bitsByte _ htake, List.take_append_drop]

theorem packBits_unpackBits (bs : List UInt8) : packBits bs.length (unpackBits bs) = bs := by
  induction bs with
  | nil => rfl
  | cons b bs ih =>
    unfold unpackBits at ih ⊢
    rw [List.length_cons, packBits, List.flatMap_cons, List.take_left' (length_byteBits b),
      List.drop_left' (length_byteBits b), ih, bitsByte_byteBits]

def readMany (p : Parser α) : ℕ → Parser (List α)
  | 0 => pure []
  | n + 1 => do
    let a ← p
    let as ← readMany p n
    pure (a :: as)

theorem readMany_yields (p : Parser α) (n : ℕ) :
    Yields (readMany p n) fun as => as.length = n := by
  induction n with
  | zero => exact .pure rfl
  | succ n ih =>
    refine (Yields.true p).bind fun a _ => ih.bind fun as has => .pure ?_
    rw [List.length_cons, has]

theorem readMany_consumes {p : Parser α} {enc : α → List UInt8}
    (h : Consumes p fun a cs => cs = enc a) (n : ℕ) :
    Consumes (readMany p n) fun as cs => cs = as.flatMap enc ∧ as.length = n := by
  induction n with
  | zero => exact .pure ⟨rfl, rfl⟩
  | succ n ih =>
    refine h.bind fun a cs hcs => ih.bind ?_
    rintro as ds ⟨rfl, hlen⟩
    refine .pure ⟨?_, ?_⟩
    · rw [hcs, List.append_nil, List.flatMap_cons]
    · rw [List.length_cons, hlen]

theorem readMany_parses {p : Parser β} {enc : α → List UInt8} {f : α → β} {as : List α}
    (h : ∀ a ∈ as, Parses p (enc a) (f a)) :
    Parses (readMany p as.length) (as.flatMap enc) (as.map f) := by
  induction as with
  | nil => exact .pure []
  | cons a as ih =>
    have hhead : Parses p (enc a) (f a) := h a (List.mem_cons_self ..)
    have htail := ih fun b hb => h b (List.mem_cons_of_mem _ hb)
    exact hhead.bind (htail.bind_pure fun bs => f a :: bs)

/-- No encoding of a value of `P` starts the encoding of another one. -/
def Delimits (enc : α → List UInt8) (P : α → Prop) : Prop :=
  ∀ ⦃a b : α⦄, P a → P b → ∀ r r', enc a ++ r = enc b ++ r' → a = b ∧ r = r'

/-- A stream of delimited values is read from its start in one way only. -/
theorem Delimits.prefix {enc : α → List UInt8} {P : α → Prop} (h : Delimits enc P)
    (hne : ∀ a, P a → enc a ≠ []) {as bs : List α} {r : List UInt8} (ha : ∀ a ∈ as, P a)
    (hb : ∀ b ∈ bs, P b) (heq : as.flatMap enc ++ r = bs.flatMap enc) : as <+: bs := by
  induction as generalizing bs with
  | nil => exact List.nil_prefix
  | cons a as ih =>
    have hP := ha a (List.mem_cons_self ..)
    rw [List.flatMap_cons, List.append_assoc] at heq
    cases bs with
    | nil => exact absurd (List.append_eq_nil_iff.mp heq).1 (hne a hP)
    | cons b bs =>
      rw [List.flatMap_cons] at heq
      obtain ⟨rfl, htail⟩ := h hP (hb b (List.mem_cons_self ..)) _ _ heq
      have hmore := ih (fun x hx => ha x (List.mem_cons_of_mem _ hx))
        (fun x hx => hb x (List.mem_cons_of_mem _ hx)) htail
      exact List.cons_prefix_cons.mpr ⟨rfl, hmore⟩

end AvaHotstuff.Bytes
