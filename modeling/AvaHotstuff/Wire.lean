import AvaHotstuff.Bytes
import AvaHotstuff.Entity

set_option autoImplicit false

/-!
# The wire format of blocks

`serialize` and `unserialize` of `salticidae::Bits`, `QuorumCertSecp256k1` and `Block`. A
hash is 32 bytes, an `int` is written as the machine holds it. The keys and vals of a block
are written without their number, and read as many as there are commands.
-/
namespace AvaHotstuff
open Bytes

/-- The compact form of a signature, as the vendored `secp256k1` library writes and parses it. -/
structure SigFormat where
  serializeCompact : Sig → List UInt8
  parseCompact : List UInt8 → Option Sig

namespace SigFormat

def Carries (F : SigFormat) (σ : Sig) : Prop :=
  (F.serializeCompact σ).length = 64 ∧ F.parseCompact (F.serializeCompact σ) = some σ

def unserialize (F : SigFormat) : Parser Sig := do
  let raw ← take 64
  StateT.lift (F.parseCompact raw)

theorem unserialize_parses {F : SigFormat} {σ : Sig} (h : F.Carries σ) :
    Parses F.unserialize (F.serializeCompact σ) σ := by
  rw [← List.append_nil (F.serializeCompact σ)]
  exact (take_parses h.1).bind (.lift h.2)

/-- Signatures that are numbers, as the sample keys make them. -/
def sample : SigFormat := ⟨toLe 64, fun raw => some (ofLe raw)⟩

theorem sample_carries {σ : Sig} (h : σ < 256 ^ 64) : sample.Carries σ :=
  ⟨length_toLe 64 σ, congrArg some ((ofLe_toLe 64 σ).trans (Nat.mod_eq_of_lt h))⟩

end SigFormat

namespace Bits

/-- The number of 64-bit words, in `uint32_t`. -/
def ndata (nbits : ℕ) : ℕ := (nbits + 63) % 2 ^ 32 / 64

def serialize (b : Bits) : List UInt8 := toLe 4 b.nbits ++ packBits (8 * ndata b.nbits) b.data

def unserialize : Parser Bits := do
  let nbits ← readLe 4
  let raw ← take (8 * ndata nbits)
  pure ⟨nbits, unpackBits raw⟩

/-- The words hold the bits, and their number does not wrap around. -/
structure Sized (b : Bits) : Prop where
  nbits : b.nbits + 63 < 2 ^ 32
  data : b.data.length = 64 * ((b.nbits + 63) / 64)

theorem Sized.parses {b : Bits} (h : b.Sized) : Parses unserialize b.serialize b := by
  have hnbits : b.nbits < 256 ^ 4 := by
    have := h.nbits
    omega
  have hlen : b.data.length = 8 * (8 * ndata b.nbits) := by
    rw [h.data, ndata, Nat.mod_eq_of_lt h.nbits]
    omega
  have hraw := (take_parses (length_packBits (8 * ndata b.nbits) b.data)).bind_pure
    fun raw => (⟨b.nbits, unpackBits raw⟩ : Bits)
  rw [unpackBits_packBits hlen] at hraw
  exact (readLe_parses hnbits).bind hraw

theorem Sized.cleared {n : ℕ} (hn : n + 63 < 2 ^ 32) : (Bits.cleared n).Sized :=
  ⟨hn, List.length_replicate⟩

theorem Sized.set {b : Bits} (h : b.Sized) (i : ℕ) : (b.set i).Sized :=
  ⟨h.nbits, (List.length_set ..).trans h.data⟩

/-- The set bits that `size()` reaches, in ascending order. -/
def ids (b : Bits) : List ℕ := (List.range b.nbits).filter b.get

theorem mem_ids {b : Bits} {i : ℕ} : i ∈ b.ids ↔ i < b.nbits ∧ b.get i = true := by
  rw [ids, List.mem_filter, List.mem_range]

theorem nodup_ids (b : Bits) : b.ids.Nodup := List.nodup_range.filter _

theorem Sized.get_set {b : Bits} (h : b.Sized) {i : ℕ} (j : ℕ) (hj : j < b.nbits) :
    (b.set i).get j = true ↔ j = i ∨ b.get j = true := by
  have hlt : j < b.data.length := by
    rw [h.data]
    omega
  unfold Bits.set Bits.get
  by_cases hij : i = j
  · subst i
    simp [List.getD_eq_getElem?_getD, hlt]
  · simp [List.getD_eq_getElem?_getD, List.getElem?_set_ne hij, Ne.symm hij]

theorem get_cleared (n i : ℕ) : (Bits.cleared n).get i = false := by
  unfold Bits.cleared Bits.get
  simp only [List.getD_eq_getElem?_getD, List.getElem?_replicate]
  split <;> rfl

end Bits

/-- `operator[]` of the signature map, assigned to. -/
def assign (sigs : List (ReplicaID × Sig)) (rid : ReplicaID) (σ : Sig) : List (ReplicaID × Sig) :=
  sigs.filter (fun e => decide (e.1 ≠ rid)) ++ [(rid, σ)]

namespace QuorumCert
variable (F : SigFormat)

/-- `none` is the throw of `sigs.at(i)`. The index is converted to a 16-bit `ReplicaID`. -/
def serializeSigs (qc : QuorumCert) : List ℕ → Option (List UInt8)
  | [] => some []
  | i :: is => do
    let σ ← qc.sigs.lookup (i % 2 ^ 16)
    let rest ← qc.serializeSigs is
    pure (F.serializeCompact σ ++ rest)

def serialize (qc : QuorumCert) : Option (List UInt8) :=
  (qc.serializeSigs F qc.rids.ids).map fun sigs => toLe 32 qc.objHash ++ (qc.rids.serialize ++ sigs)

def unserializeSigs : List ℕ → List (ReplicaID × Sig) → Parser (List (ReplicaID × Sig))
  | [], sigs => pure sigs
  | i :: is, sigs => do
    let σ ← F.unserialize
    unserializeSigs is (assign sigs (i % 2 ^ 16) σ)

def unserialize : Parser QuorumCert := do
  let objHash ← readLe 32
  let rids ← Bits.unserialize
  let sigs ← unserializeSigs F rids.ids []
  pure ⟨objHash, rids, sigs⟩

/-- What is left of a certificate on the other side: the signatures of the set bits. -/
def received (qc : QuorumCert) : QuorumCert :=
  { qc with sigs := qc.rids.ids.filterMap fun i => (qc.sigs.lookup i).map fun σ => (i, σ) }

/-- Every set bit is a `ReplicaID` with a signature, and the fields fit their types. -/
structure Sound (qc : QuorumCert) : Prop where
  objHash : qc.objHash < 2 ^ 256
  rids : qc.rids.Sized
  ids : ∀ i ∈ qc.rids.ids, i < 2 ^ 16
  sigs : ∀ i ∈ qc.rids.ids, ∃ σ, qc.sigs.lookup i = some σ ∧ F.Carries σ

variable {F} {qc : QuorumCert}

theorem received_keys (h : ∀ i ∈ qc.rids.ids, ∃ σ, qc.sigs.lookup i = some σ) :
    qc.received.sigs.map Prod.fst = qc.rids.ids := by
  have hid : ∀ i ∈ qc.rids.ids,
      ((qc.sigs.lookup i).map fun σ => (i, σ)).map Prod.fst = some i := by
    intro i hi
    obtain ⟨σ, hσ⟩ := h i hi
    rw [hσ]
    rfl
  rw [received, List.map_filterMap, List.filterMap_congr hid, List.filterMap_some]

theorem assign_fresh {sigs : List (ReplicaID × Sig)} {rid : ReplicaID} (σ : Sig)
    (h : ∀ e ∈ sigs, e.1 ≠ rid) : assign sigs rid σ = sigs ++ [(rid, σ)] := by
  rw [assign, List.filter_eq_self.mpr fun e he => decide_eq_true (h e he)]

theorem sigs_parses (is : List ℕ) (acc : List (ReplicaID × Sig)) (hnd : is.Nodup)
    (hids : ∀ i ∈ is, i < 2 ^ 16)
    (hsigs : ∀ i ∈ is, ∃ σ, qc.sigs.lookup i = some σ ∧ F.Carries σ)
    (hacc : ∀ e ∈ acc, e.1 ∉ is) :
    ∃ bs, qc.serializeSigs F is = some bs ∧ Parses (unserializeSigs F is acc) bs
      (acc ++ is.filterMap fun i => (qc.sigs.lookup i).map fun σ => (i, σ)) := by
  induction is generalizing acc with
  | nil =>
    refine ⟨[], rfl, ?_⟩
    rw [List.filterMap_nil, List.append_nil]
    exact .pure acc
  | cons i is ih =>
    obtain ⟨hi, hnd⟩ := List.nodup_cons.mp hnd
    obtain ⟨σ, hσ, hc⟩ := hsigs i (List.mem_cons_self ..)
    have hmod : i % 2 ^ 16 = i := Nat.mod_eq_of_lt (hids i (List.mem_cons_self ..))
    have hfresh : ∀ e ∈ acc, e.1 ≠ i := by
      intro e he heq
      exact hacc e he (heq ▸ List.mem_cons_self ..)
    have hnext : ∀ e ∈ acc ++ [(i, σ)], e.1 ∉ is := by
      intro e he
      rcases List.mem_append.mp he with he | he
      · exact fun hmem => hacc e he (List.mem_cons_of_mem _ hmem)
      · rw [List.mem_singleton.mp he]
        exact hi
    obtain ⟨bs, hbs, hp⟩ := ih (acc ++ [(i, σ)]) hnd
      (fun j hj => hids j (List.mem_cons_of_mem _ hj))
      (fun j hj => hsigs j (List.mem_cons_of_mem _ hj)) hnext
    refine ⟨F.serializeCompact σ ++ bs, ?_, ?_⟩
    · rw [serializeSigs, hmod, hσ, hbs]
      rfl
    · rw [List.append_assoc] at hp
      rw [List.filterMap_cons, hσ]
      refine (SigFormat.unserialize_parses hc).bind ?_
      rw [hmod, assign_fresh σ hfresh]
      exact hp

theorem Sound.parses (h : qc.Sound F) :
    ∃ bs, qc.serialize F = some bs ∧ Parses (unserialize F) bs qc.received := by
  obtain ⟨bs, hbs, hp⟩ := sigs_parses qc.rids.ids [] qc.rids.nodup_ids h.ids h.sigs
    (fun e he => absurd he List.not_mem_nil)
  refine ⟨toLe 32 qc.objHash ++ (qc.rids.serialize ++ bs), by rw [serialize, hbs]; rfl, ?_⟩
  have hhash : qc.objHash < 256 ^ 32 := h.objHash
  exact (readLe_parses hhash).bind (h.rids.parses.bind
    (hp.bind_pure fun sigs => (⟨qc.objHash, qc.rids, sigs⟩ : QuorumCert)))

theorem lookup_of_mem {sigs : List (ReplicaID × Sig)} (hnd : (sigs.map Prod.fst).Nodup)
    {rid : ReplicaID} {σ : Sig} (h : (rid, σ) ∈ sigs) : sigs.lookup rid = some σ := by
  induction sigs with
  | nil => exact absurd h List.not_mem_nil
  | cons e sigs ih =>
    obtain ⟨hnew, hnd⟩ := List.nodup_cons.mp hnd
    rcases List.mem_cons.mp h with rfl | hmem
    · rw [List.lookup_cons, beq_self_eq_true]
    · have hne : rid ≠ e.1 := by
        intro heq
        exact hnew (heq ▸ List.mem_map_of_mem hmem)
      rw [List.lookup_cons, beq_eq_false_iff_ne.mpr hne]
      exact ih hnd hmem

theorem assign_keys {sigs : List (ReplicaID × Sig)} (h : (sigs.map Prod.fst).Nodup)
    (rid : ReplicaID) (σ : Sig) : ((assign sigs rid σ).map Prod.fst).Nodup := by
  rw [assign, List.map_append, List.nodup_append']
  refine ⟨h.sublist (List.filter_sublist.map _), List.nodup_singleton _, ?_⟩
  intro k hk hrid
  obtain ⟨e, he, rfl⟩ := List.mem_map.mp hk
  have hne := of_decide_eq_true (List.mem_filter.mp he).2
  exact hne (List.mem_singleton.mp hrid)

theorem unserializeSigs_keys {is : List ℕ} {acc sigs : List (ReplicaID × Sig)}
    {bs rest : List UInt8} (hacc : (acc.map Prod.fst).Nodup)
    (h : (unserializeSigs F is acc).run bs = some (sigs, rest)) :
    (sigs.map Prod.fst).Nodup ∧ ∀ e ∈ sigs, e ∈ acc ∨ ∃ i ∈ is, e.1 = i % 2 ^ 16 := by
  induction is generalizing acc bs with
  | nil =>
    have heq : (acc, bs) = (sigs, rest) := Option.some.inj h
    obtain rfl : acc = sigs := congrArg Prod.fst heq
    exact ⟨hacc, fun e he => .inl he⟩
  | cons i is ih =>
    rw [unserializeSigs, StateT.run_bind] at h
    obtain ⟨⟨σ, bs'⟩, -, hrest⟩ := Option.bind_eq_some_iff.mp h
    obtain ⟨hnd, hmem⟩ := ih (assign_keys hacc (i % 2 ^ 16) σ) hrest
    refine ⟨hnd, ?_⟩
    intro e he
    rcases hmem e he with hold | ⟨j, hj, heq⟩
    · rcases List.mem_append.mp hold with hold | hnew
      · exact .inl (List.mem_of_mem_filter hold)
      · exact .inr ⟨i, List.mem_cons_self .., by rw [List.mem_singleton.mp hnew]⟩
    · exact .inr ⟨j, List.mem_cons_of_mem _ hj, heq⟩

/-- A certificate fresh from the wire has one signature for each id, all under set bits. -/
theorem unserialize_keys {bs rest : List UInt8} (h : (unserialize F).run bs = some (qc, rest)) :
    (qc.sigs.map Prod.fst).Nodup ∧ ∀ e ∈ qc.sigs, ∃ i ∈ qc.rids.ids, e.1 = i % 2 ^ 16 := by
  unfold unserialize at h
  simp only [StateT.run_bind, Option.bind_eq_bind, Option.bind_eq_some_iff] at h
  obtain ⟨⟨objHash, bs₁⟩, -, ⟨rids, bs₂⟩, -, ⟨sigs, bs₃⟩, hsigs, hlast⟩ := h
  obtain rfl : (⟨objHash, rids, sigs⟩ : QuorumCert) = qc :=
    congrArg Prod.fst (Option.some.inj hlast)
  obtain ⟨hnd, hmem⟩ := @unserializeSigs_keys F rids.ids [] _ _ _ List.nodup_nil hsigs
  exact ⟨hnd, fun e he => (hmem e he).resolve_left List.not_mem_nil⟩

theorem verify_iff {C : Crypto} {c : ReplicaConfig} : qc.verify C c = true ↔
    c.nmajority ≤ qc.sigs.length ∧ ∀ i ∈ qc.rids.ids,
      C.verifySig (i % 2 ^ 16) qc.objHash ((qc.sigs.lookup (i % 2 ^ 16)).getD 0) = true := by
  unfold verify
  rw [Bool.and_eq_true, decide_eq_true_iff, List.all_eq_true]
  refine and_congr_right fun _ => forall_congr' fun i => ?_
  rw [Bits.mem_ids, List.mem_range]
  cases qc.rids.get i <;> simp

theorem received_lookup (h : ∀ i ∈ qc.rids.ids, ∃ σ, qc.sigs.lookup i = some σ) {i : ℕ}
    (hi : i ∈ qc.rids.ids) : qc.received.sigs.lookup i = qc.sigs.lookup i := by
  obtain ⟨σ, hσ⟩ := h i hi
  rw [hσ]
  apply lookup_of_mem
  · rw [received_keys h]
    exact qc.rids.nodup_ids
  · exact List.mem_filterMap.mpr ⟨i, hi, by rw [hσ]; rfl⟩

theorem serializeSigs_congr {qc qc' : QuorumCert} (is : List ℕ)
    (h : ∀ i ∈ is, qc.sigs.lookup (i % 2 ^ 16) = qc'.sigs.lookup (i % 2 ^ 16)) :
    qc.serializeSigs F is = qc'.serializeSigs F is := by
  induction is with
  | nil => rfl
  | cons i is ih =>
    rw [serializeSigs, serializeSigs, h i (List.mem_cons_self ..),
      ih fun j hj => h j (List.mem_cons_of_mem _ hj)]

theorem Sound.serialize_received (h : qc.Sound F) :
    qc.received.serialize F = qc.serialize F := by
  have hlookup : ∀ i ∈ qc.rids.ids,
      qc.received.sigs.lookup (i % 2 ^ 16) = qc.sigs.lookup (i % 2 ^ 16) := by
    intro i hi
    rw [Nat.mod_eq_of_lt (h.ids i hi)]
    exact received_lookup (fun j hj => (h.sigs j hj).imp fun _ hσ => hσ.1) hi
  unfold serialize
  rw [show qc.received.rids = qc.rids from rfl, serializeSigs_congr _ hlookup]
  rfl

/-- The same certificate, its signatures read as a map. -/
structure Same (qc qc' : QuorumCert) : Prop where
  objHash : qc'.objHash = qc.objHash
  rids : qc'.rids = qc.rids
  sigs : ∀ i, qc'.sigs.lookup i = qc.sigs.lookup i

theorem serializeSigs_some {is : List ℕ} {bs : List UInt8} (h : qc.serializeSigs F is = some bs) :
    ∀ i ∈ is, ∃ σ, qc.sigs.lookup (i % 2 ^ 16) = some σ := by
  induction is generalizing bs with
  | nil => exact fun i hi => absurd hi List.not_mem_nil
  | cons j is ih =>
    rw [serializeSigs] at h
    simp only [Option.bind_eq_bind, Option.bind_eq_some_iff] at h
    obtain ⟨σ, hσ, rest, hrest, -⟩ := h
    intro i hi
    rcases List.mem_cons.mp hi with rfl | hi
    · exact ⟨σ, hσ⟩
    · exact ih hrest i hi

theorem same_received_iff (h : ∀ i ∈ qc.rids.ids, ∃ σ, qc.sigs.lookup i = some σ) :
    qc.Same qc.received ↔ ∀ i, (qc.sigs.lookup i).isSome = true ↔ i ∈ qc.rids.ids := by
  have hkeys := received_keys h
  have houtside : ∀ i, i ∉ qc.rids.ids → qc.received.sigs.lookup i = none := by
    intro i hi
    rw [List.lookup_eq_none_iff]
    intro e he
    rw [bne_iff_ne]
    intro heq
    apply hi
    rw [← hkeys, heq]
    exact List.mem_map_of_mem he
  constructor
  · intro same i
    constructor
    · intro hsome
      by_contra hi
      rw [← same.sigs i, houtside i hi] at hsome
      cases hsome
    · intro hi
      obtain ⟨σ, hσ⟩ := h i hi
      rw [hσ]
      rfl
  · intro hids
    refine ⟨rfl, rfl, ?_⟩
    intro i
    by_cases hi : i ∈ qc.rids.ids
    · exact received_lookup h hi
    · have hnone : qc.sigs.lookup i = none := by
        rw [← Option.not_isSome_iff_eq_none]
        exact fun hsome => hi ((hids i).mp hsome)
      rw [houtside i hi, hnone]

end QuorumCert

structure Vectors where
  parentHashes : List Hash
  cmds : List Hash
  keys : List ℤ
  vals : List ℤ

def Body.vectors (b : Body) : Vectors := ⟨b.parentHashes, b.cmds, b.keys, b.vals⟩

namespace Vectors

def serialize (v : Vectors) : List UInt8 :=
  toLe 4 v.parentHashes.length ++ (v.parentHashes.flatMap (toLe 32) ++
    (toLe 4 v.cmds.length ++ (v.cmds.flatMap (toLe 32) ++
      (v.keys.flatMap (toLeInt 4) ++ v.vals.flatMap (toLeInt 4)))))

/-- The keys and vals are resized to the number of commands. -/
def unserialize : Parser Vectors := do
  let n ← readLe 4
  let parentHashes ← readMany (readLe 32) n
  let n ← readLe 4
  let cmds ← readMany (readLe 32) n
  let keys ← readMany (readLeInt 4) n
  let vals ← readMany (readLeInt 4) n
  pure ⟨parentHashes, cmds, keys, vals⟩

structure Matched (v : Vectors) : Prop where
  keys : v.keys.length = v.cmds.length
  vals : v.vals.length = v.cmds.length

structure Sized (v : Vectors) : Prop where
  parentCount : v.parentHashes.length < 2 ^ 32
  cmdCount : v.cmds.length < 2 ^ 32
  parentHashes : ∀ h ∈ v.parentHashes, h < 2 ^ 256
  cmds : ∀ h ∈ v.cmds, h < 2 ^ 256
  keys : ∀ k ∈ v.keys, -2 ^ 31 ≤ k ∧ k < 2 ^ 31
  vals : ∀ k ∈ v.vals, -2 ^ 31 ≤ k ∧ k < 2 ^ 31

theorem readHashes_parses {hs : List Hash} (h : ∀ x ∈ hs, x < 2 ^ 256) :
    Parses (readMany (readLe 32) hs.length) (hs.flatMap (toLe 32)) hs := by
  have hall := readMany_parses (f := id) fun x hx => readLe_parses (w := 32) (h x hx)
  rwa [List.map_id] at hall

theorem readInts_parses {ks : List ℤ} {n : ℕ} (hn : ks.length = n)
    (h : ∀ k ∈ ks, -2 ^ 31 ≤ k ∧ k < 2 ^ 31) :
    Parses (readMany (readLeInt 4) n) (ks.flatMap (toLeInt 4)) ks := by
  subst n
  have hint : ∀ k ∈ ks, Parses (readLeInt 4) (toLeInt 4 k) (id k) := by
    intro k hk
    obtain ⟨hlow, hhigh⟩ := h k hk
    apply readLeInt_parses
    · push_cast
      omega
    · push_cast
      omega
  have hall := readMany_parses hint
  rwa [List.map_id] at hall

/-- Parents too large for a hash would lose their high bits; the rest comes back as it was. -/
theorem parses_mod {v : Vectors} (hparents : v.parentHashes.length < 2 ^ 32)
    (hcount : v.cmds.length < 2 ^ 32) (hcmds : ∀ h ∈ v.cmds, h < 2 ^ 256)
    (hkeys : ∀ k ∈ v.keys, -2 ^ 31 ≤ k ∧ k < 2 ^ 31)
    (hvals : ∀ k ∈ v.vals, -2 ^ 31 ≤ k ∧ k < 2 ^ 31) (hm : v.Matched) :
    Parses unserialize v.serialize
      { v with parentHashes := v.parentHashes.map fun h => h % 256 ^ 32 } := by
  have hn : v.parentHashes.length < 256 ^ 4 := hparents
  have hc : v.cmds.length < 256 ^ 4 := hcount
  have hread := readMany_parses fun h (_ : h ∈ v.parentHashes) => readLe_parses_mod 32 h
  refine (readLe_parses hn).bind (hread.bind ?_)
  refine (readLe_parses hc).bind ((readHashes_parses hcmds).bind ?_)
  exact (readInts_parses hm.keys hkeys).bind ((readInts_parses hm.vals hvals).bind_pure
    fun vals => (⟨v.parentHashes.map _, v.cmds, v.keys, vals⟩ : Vectors))

theorem Sized.parses {v : Vectors} (hs : v.Sized) (hm : v.Matched) :
    Parses unserialize v.serialize v := by
  have h := parses_mod hs.parentCount hs.cmdCount hs.cmds hs.keys hs.vals hm
  have hid : ∀ x ∈ v.parentHashes, x % 256 ^ 32 = x := by
    intro x hx
    exact Nat.mod_eq_of_lt (hs.parentHashes x hx)
  rwa [List.map_congr_left hid, List.map_id'] at h

theorem unserialize_yields : Yields unserialize fun v =>
    v.parentHashes.length < 2 ^ 32 ∧ v.cmds.length < 2 ^ 32 := by
  refine (readLe_yields 4).bind fun n hn => (readMany_yields _ n).bind fun hs hhs => ?_
  refine (readLe_yields 4).bind fun m hm => (readMany_yields _ m).bind fun cs hcs => ?_
  refine (Yields.true _).bind fun ks _ => (Yields.true _).bind fun vs _ => .pure ⟨?_, ?_⟩
  · rw [hhs]
    exact hn
  · rw [hcs]
    exact hm

end Vectors

namespace Body
variable (F : SigFormat)

def serialize (b : Body) : Option (List UInt8) :=
  (b.qc.serialize F).map fun qc =>
    b.vectors.serialize ++ (qc ++ (toLe 4 b.extra.length ++ b.extra))

def unserialize : Parser Body := do
  let v ← Vectors.unserialize
  let qc ← QuorumCert.unserialize F
  let n ← readLe 4
  let extra ← take n
  pure ⟨v.parentHashes, v.cmds, v.keys, v.vals, qc, extra⟩

variable {F} {b : Body}

theorem parses (hs : b.vectors.Sized) (hm : b.vectors.Matched) (hextra : b.extra.length < 2 ^ 32)
    (hq : b.qc.Sound F) :
    ∃ bs, b.serialize F = some bs ∧ Parses (unserialize F) bs { b with qc := b.qc.received } := by
  obtain ⟨bs, hbs, hp⟩ := hq.parses
  have hcount : b.extra.length < 256 ^ 4 := hextra
  refine ⟨b.vectors.serialize ++ (bs ++ (toLe 4 b.extra.length ++ b.extra)), ?_, ?_⟩
  · rw [serialize, hbs]
    rfl
  · exact (hs.parses hm).bind (hp.bind ((readLe_parses hcount).bind ((take_parses rfl).bind_pure
      fun extra => (⟨b.parentHashes, b.cmds, b.keys, b.vals, b.qc.received, extra⟩ : Body))))

/-- The vectors are read first, whatever becomes of the rest. -/
theorem unserialize_vectors {v : Vectors} {bs rest : List UInt8} {b' : Body}
    (hv : Parses Vectors.unserialize b.vectors.serialize v) (hbs : b.serialize F = some bs)
    {more : List UInt8} (h : (unserialize F).run (bs ++ rest) = some (b', more)) :
    b'.vectors = v := by
  obtain ⟨qc, -, rfl⟩ := Option.map_eq_some_iff.mp hbs
  unfold unserialize at h
  rw [StateT.run_bind, List.append_assoc, hv] at h
  simp only [StateT.run_bind, Option.bind_eq_bind, Option.bind_some, Option.bind_eq_some_iff] at h
  obtain ⟨qc, -, n, -, extra, -, hlast⟩ := h
  obtain rfl : (⟨v.parentHashes, v.cmds, v.keys, v.vals, qc.1, extra.1⟩ : Body) = b' :=
    congrArg Prod.fst (Option.some.inj hlast)
  rfl

theorem unserialize_yields : Yields (unserialize F) fun b =>
    b.parentHashes.length < 2 ^ 32 ∧ b.cmds.length < 2 ^ 32 ∧ b.extra.length < 2 ^ 32 := by
  refine Vectors.unserialize_yields.bind fun v ⟨hparents, hcmds⟩ => ?_
  refine (Yields.true _).bind fun qc _ => (readLe_yields 4).bind fun n hn => ?_
  refine (take_yields n).bind fun extra hextra => .pure ⟨hparents, hcmds, ?_⟩
  change extra.length < 256 ^ 4
  rw [hextra]
  exact hn

end Body

end AvaHotstuff
