import AvaHotstuff.Wire
import Mathlib.Data.List.Sort

set_option autoImplicit false

namespace AvaHotstuff
open Bytes

/-- A signature is written as the bytes that it was parsed from. -/
def SigFormat.Canonical (F : SigFormat) : Prop :=
  ∀ raw σ, raw.length = 64 → F.parseCompact raw = some σ → F.serializeCompact σ = raw

theorem SigFormat.unserialize_consumes (F : SigFormat) :
    Consumes F.unserialize fun σ cs => cs.length = 64 ∧ F.parseCompact cs = some σ := by
  refine (take_consumes 64).bind ?_
  rintro _ raw ⟨rfl, hlen⟩
  refine (Consumes.lift _).imp ?_
  rintro σ _ ⟨hparse, rfl⟩
  rw [List.append_nil]
  exact ⟨hlen, hparse⟩

theorem Bits.unserialize_consumes : Consumes unserialize fun b cs => cs = b.serialize := by
  refine (readLe_consumes 4).bind ?_
  rintro nbits _ ⟨rfl, -⟩
  refine (take_consumes _).bind ?_
  rintro _ raw ⟨rfl, hlen⟩
  refine .pure ?_
  rw [List.append_nil, Bits.serialize]
  simp only []
  rw [← hlen, packBits_unpackBits]

theorem Vectors.unserialize_consumes : Consumes unserialize fun v cs => cs = v.serialize := by
  have hhash : ∀ n, Consumes (readMany (readLe 32) n) fun hs cs =>
      cs = hs.flatMap (toLe 32) ∧ hs.length = n :=
    readMany_consumes ((readLe_consumes 32).imp fun _ _ h => h.1)
  have hint : ∀ n, Consumes (readMany (readLeInt 4) n) fun ks cs =>
      cs = ks.flatMap (toLeInt 4) ∧ ks.length = n := readMany_consumes (readLeInt_consumes 4)
  refine (readLe_consumes 4).bind ?_
  rintro n _ ⟨rfl, -⟩
  refine (hhash n).bind ?_
  rintro parents _ ⟨rfl, rfl⟩
  refine (readLe_consumes 4).bind ?_
  rintro m _ ⟨rfl, -⟩
  refine (hhash m).bind ?_
  rintro cmds _ ⟨rfl, rfl⟩
  refine (hint _).bind ?_
  rintro keys _ ⟨rfl, -⟩
  refine (hint _).bind ?_
  rintro vals _ ⟨rfl, -⟩
  refine .pure ?_
  simp only [Vectors.serialize, List.append_nil]

namespace QuorumCert

/-- The signatures as they stand on the wire, each with its position in the bitmap. -/
def rawSigs : Parser (List (ℕ × List UInt8)) := do
  let _ ← readLe 32
  let rids ← Bits.unserialize
  let raws ← readMany (take 64) rids.ids.length
  pure (rids.ids.zip raws)

/-- Positions that are the same 16-bit id carry the same signature. -/
def Agree (es : List (ℕ × List UInt8)) : Prop :=
  ∀ e ∈ es, ∀ e' ∈ es, e.1 % 2 ^ 16 = e'.1 % 2 ^ 16 → e.2 = e'.2

/-- A certificate and the bytes it was read from: each signature of the map is the one of
some position with the same id. -/
structure Wire (F : SigFormat) (qc : QuorumCert) (es : List (ℕ × List UInt8))
    (cs : List UInt8) : Prop where
  ids : es.map Prod.fst = qc.rids.ids
  lengths : ∀ e ∈ es, e.2.length = 64
  bytes : cs = toLe 32 qc.objHash ++ (qc.rids.serialize ++ es.flatMap Prod.snd)
  sigs : ∀ e ∈ es, ∃ e' ∈ es, e'.1 % 2 ^ 16 = e.1 % 2 ^ 16 ∧
    ∃ σ, F.parseCompact e'.2 = some σ ∧ qc.sigs.lookup (e.1 % 2 ^ 16) = some σ

theorem lookup_assign (sigs : List (ReplicaID × Sig)) (rid k : ReplicaID) (σ : Sig) :
    (assign sigs rid σ).lookup k = if k = rid then some σ else sigs.lookup k := by
  unfold assign
  induction sigs with
  | nil =>
    rw [List.filter_nil, List.nil_append, List.lookup_cons]
    split <;> rename_i h
    · rw [if_pos (beq_iff_eq.mp h)]
    · rw [if_neg (beq_eq_false_iff_ne.mp h)]
  | cons e sigs ih =>
    by_cases he : e.1 = rid
    · rw [List.filter_cons_of_neg (by simpa using he), ih]
      by_cases hk : k = rid
      · rw [if_pos hk, if_pos hk]
      · have hke : (k == e.1) = false := beq_eq_false_iff_ne.mpr (he ▸ hk)
        rw [if_neg hk, if_neg hk, List.lookup_cons, hke]
    · rw [List.filter_cons_of_pos (by simpa using he), List.cons_append, List.lookup_cons, ih,
        List.lookup_cons]
      by_cases hk : k = e.1
      · have hkr : k ≠ rid := hk ▸ he
        rw [beq_iff_eq.mpr hk]
        exact (if_neg hkr).symm
      · rw [beq_eq_false_iff_ne.mpr hk]

theorem unserializeSigs_consumes (F : SigFormat) (is : List ℕ) (acc : List (ReplicaID × Sig)) :
    Consumes (unserializeSigs F is acc) fun sigs cs =>
      ∃ es : List (ℕ × List UInt8), es.map Prod.fst = is ∧ (∀ e ∈ es, e.2.length = 64) ∧
        cs = es.flatMap Prod.snd ∧
        ∀ k, (∃ e ∈ es, e.1 % 2 ^ 16 = k ∧
            ∃ σ, F.parseCompact e.2 = some σ ∧ sigs.lookup k = some σ) ∨
          ((∀ e ∈ es, e.1 % 2 ^ 16 ≠ k) ∧ sigs.lookup k = acc.lookup k) := by
  induction is generalizing acc with
  | nil =>
    refine .pure ⟨[], rfl, ?_, rfl, ?_⟩
    · exact fun e he => absurd he List.not_mem_nil
    · exact fun k => .inr ⟨fun e he => absurd he List.not_mem_nil, rfl⟩
  | cons i is ih =>
    refine F.unserialize_consumes.bind ?_
    rintro σ raw ⟨hlen, hparse⟩
    refine (ih (assign acc (i % 2 ^ 16) σ)).imp ?_
    rintro sigs _ ⟨es, hids, hlens, rfl, hlookup⟩
    refine ⟨(i, raw) :: es, ?_, ?_, ?_, ?_⟩
    · rw [List.map_cons, hids]
    · intro e he
      rcases List.mem_cons.mp he with rfl | he
      · exact hlen
      · exact hlens e he
    · rw [List.flatMap_cons]
    · intro k
      rcases hlookup k with ⟨e, he, hfound⟩ | ⟨hother, hsame⟩
      · exact .inl ⟨e, List.mem_cons_of_mem _ he, hfound⟩
      · rw [lookup_assign] at hsame
        by_cases hk : k = i % 2 ^ 16
        · rw [if_pos hk] at hsame
          exact .inl ⟨(i, raw), List.mem_cons_self .., hk.symm, σ, hparse, hsame⟩
        · rw [if_neg hk] at hsame
          refine .inr ⟨?_, hsame⟩
          intro e he
          rcases List.mem_cons.mp he with rfl | he
          · exact Ne.symm hk
          · exact hother e he

theorem unserialize_wire {F : SigFormat} {qc : QuorumCert} {bs rest : List UInt8}
    (h : (unserialize F).run bs = some (qc, rest)) :
    ∃ es cs, bs = cs ++ rest ∧ qc.Wire F es cs ∧ rawSigs.run bs = some (es, rest) := by
  obtain ⟨objHash, bs₁, hhash, h⟩ := run_bind_eq_some.mp h
  obtain ⟨rids, bs₂, hrids, h⟩ := run_bind_eq_some.mp h
  obtain ⟨sigs, bs₃, hsigs, h⟩ := run_bind_eq_some.mp h
  obtain ⟨rfl, rfl⟩ : (⟨objHash, rids, sigs⟩ : QuorumCert) = qc ∧ bs₃ = rest :=
    Prod.mk.inj (Option.some.inj h)
  obtain ⟨_, rfl, rfl, -⟩ := readLe_consumes 32 bs objHash bs₁ hhash
  obtain ⟨_, rfl, rfl⟩ := Bits.unserialize_consumes bs₁ rids bs₂ hrids
  obtain ⟨_, rfl, es, hids, hlens, rfl, hlookup⟩ :=
    unserializeSigs_consumes F _ [] bs₂ sigs bs₃ hsigs
  refine ⟨es, toLe 32 objHash ++ (rids.serialize ++ es.flatMap Prod.snd), ?_, ?_, ?_⟩
  · simp only [List.append_assoc]
  · refine ⟨hids, hlens, rfl, ?_⟩
    intro e he
    rcases hlookup (e.1 % 2 ^ 16) with ⟨e', he', hfound⟩ | ⟨hnone, -⟩
    · exact ⟨e', he', hfound⟩
    · exact absurd rfl (hnone e he)
  · refine run_bind_eq_some.mpr ⟨_, _, hhash, run_bind_eq_some.mpr ⟨_, _, hrids, ?_⟩⟩
    have hraws : Parses (readMany (take 64) es.length) (es.flatMap Prod.snd) (es.map Prod.snd) :=
      readMany_parses fun e he => take_parses (hlens e he)
    refine run_bind_eq_some.mpr ⟨es.map Prod.snd, bs₃, ?_, ?_⟩
    · rw [← hids, List.length_map]
      exact hraws bs₃
    · rw [← hids, List.zip_map']
      exact congrArg (fun l => some (l, bs₃)) (List.map_id es)

variable {F : SigFormat} {qc : QuorumCert} {es : List (ℕ × List UInt8)} {cs : List UInt8}

theorem serializeSigs_eq (h : ∀ e ∈ es, ∃ σ, qc.sigs.lookup (e.1 % 2 ^ 16) = some σ) :
    qc.serializeSigs F (es.map Prod.fst) = some (es.flatMap fun e =>
      F.serializeCompact ((qc.sigs.lookup (e.1 % 2 ^ 16)).getD 0)) := by
  induction es with
  | nil => rfl
  | cons e es ih =>
    obtain ⟨σ, hσ⟩ := h e (List.mem_cons_self ..)
    rw [List.map_cons, serializeSigs, hσ, ih fun e' he' => h e' (List.mem_cons_of_mem _ he'),
      List.flatMap_cons, hσ]
    rfl

theorem flatMap_eq_iff {α β : Type} {f g : α → List β} {l : List α}
    (h : ∀ a ∈ l, (f a).length = (g a).length) :
    l.flatMap f = l.flatMap g ↔ ∀ a ∈ l, f a = g a := by
  refine ⟨?_, fun heq => List.flatMap_congr heq⟩
  induction l with
  | nil => exact fun _ a ha => absurd ha List.not_mem_nil
  | cons b l ih =>
    intro heq
    rw [List.flatMap_cons, List.flatMap_cons] at heq
    obtain ⟨hb, hl⟩ := List.append_inj heq (h b (List.mem_cons_self ..))
    intro a ha
    rcases List.mem_cons.mp ha with rfl | ha
    · exact hb
    · exact ih (fun c hc => h c (List.mem_cons_of_mem _ hc)) hl a ha

/-- The certificate is written as the bytes it was read from exactly when positions of one
id agree: the map has one signature for them, and it is written at each. -/
theorem Wire.serialize_iff (hF : F.Canonical) (w : qc.Wire F es cs) :
    qc.serialize F = some cs ↔ Agree es := by
  have hread : ∀ e ∈ es, ∃ e' ∈ es, e'.1 % 2 ^ 16 = e.1 % 2 ^ 16 ∧
      F.serializeCompact ((qc.sigs.lookup (e.1 % 2 ^ 16)).getD 0) = e'.2 := by
    intro e he
    obtain ⟨e', he', hid, σ, hparse, hσ⟩ := w.sigs e he
    refine ⟨e', he', hid, ?_⟩
    rw [hσ]
    exact hF e'.2 σ (w.lengths e' he') hparse
  have hsome : ∀ e ∈ es, ∃ σ, qc.sigs.lookup (e.1 % 2 ^ 16) = some σ := by
    intro e he
    obtain ⟨_, _, _, σ, _, hσ⟩ := w.sigs e he
    exact ⟨σ, hσ⟩
  have hlengths : ∀ e ∈ es,
      (F.serializeCompact ((qc.sigs.lookup (e.1 % 2 ^ 16)).getD 0)).length = e.2.length := by
    intro e he
    obtain ⟨e', he', -, heq⟩ := hread e he
    rw [heq, w.lengths e' he', w.lengths e he]
  rw [serialize, ← w.ids, serializeSigs_eq hsome, Option.map_some, w.bytes, Option.some_inj,
    List.append_right_inj, List.append_right_inj, flatMap_eq_iff hlengths]
  constructor
  · intro heq e he e' he' hid
    rw [← heq e he, ← heq e' he', hid]
  · intro hagree e he
    obtain ⟨e', he', hid, heq⟩ := hread e he
    rw [heq]
    exact hagree e' he' e he hid

end QuorumCert

namespace Body

def rawSigs : Parser (List (ℕ × List UInt8)) := do
  let _ ← Vectors.unserialize
  QuorumCert.rawSigs

def SigsAgree (bs : List UInt8) : Prop :=
  ∀ es rest, rawSigs.run bs = some (es, rest) → QuorumCert.Agree es

variable {F : SigFormat} {b : Body} {bs rest : List UInt8}

theorem unserialize_wire (h : (unserialize F).run bs = some (b, rest)) :
    ∃ es cs qcs more, bs = cs ++ rest ∧ b.qc.Wire F es qcs ∧
      cs = b.vectors.serialize ++ (qcs ++ (toLe 4 b.extra.length ++ b.extra)) ∧
      rawSigs.run bs = some (es, more) := by
  obtain ⟨v, bs₁, hv, h⟩ := run_bind_eq_some.mp h
  obtain ⟨qc, bs₂, hqc, h⟩ := run_bind_eq_some.mp h
  obtain ⟨n, bs₃, hn, h⟩ := run_bind_eq_some.mp h
  obtain ⟨extra, bs₄, hextra, h⟩ := run_bind_eq_some.mp h
  obtain ⟨rfl, rfl⟩ : (⟨v.parentHashes, v.cmds, v.keys, v.vals, qc, extra⟩ : Body) = b ∧
      bs₄ = rest := Prod.mk.inj (Option.some.inj h)
  obtain ⟨es, qcs, hqcs, hwire, hraw⟩ := QuorumCert.unserialize_wire hqc
  obtain ⟨_, rfl, rfl⟩ := Vectors.unserialize_consumes bs v bs₁ hv
  obtain ⟨_, rfl, rfl, -⟩ := readLe_consumes 4 bs₂ n bs₃ hn
  obtain ⟨_, rfl, rfl, rfl⟩ := take_consumes n bs₃ extra bs₄ hextra
  refine ⟨es, _, qcs, _, ?_, hwire, rfl, run_bind_eq_some.mpr ⟨v, _, hv, hraw⟩⟩
  rw [hqcs]
  simp only [List.append_assoc]
  rfl

theorem serialize_unserialize_iff (hF : F.Canonical)
    (h : (unserialize F).run bs = some (b, rest)) :
    ∃ cs, bs = cs ++ rest ∧ (b.serialize F = some cs ↔ SigsAgree bs) := by
  obtain ⟨es, cs, qcs, more, hbs, hwire, rfl, hraw⟩ := unserialize_wire h
  refine ⟨_, hbs, ?_⟩
  have hagree : SigsAgree bs ↔ QuorumCert.Agree es := by
    constructor
    · exact fun hall => hall es more hraw
    · intro hes es' more' hraw'
      rw [hraw] at hraw'
      cases hraw'
      exact hes
  rw [hagree, ← hwire.serialize_iff hF]
  constructor
  · intro hser
    obtain ⟨qcs', hqc, heq⟩ := Option.map_eq_some_iff.mp hser
    have hlen : qcs' = qcs := by
      rw [List.append_right_inj, List.append_left_inj] at heq
      exact heq
    rw [hqc, hlen]
  · intro hqc
    rw [serialize, hqc]
    rfl

/-- The block stands for the bytes: it is written as they are, and hashed as they are. -/
structure StandsFor (F : SigFormat) (b : Body) (cs : List UInt8) : Prop where
  serialize : b.serialize F = some cs
  getHash : ∀ sha : List UInt8 → Hash, (b.serialize F).map sha = some (sha cs)

/-- When decoding is canonical. Bytes in which positions of one id agree are the only such
bytes that decode to their block. -/
theorem decode_canonical_iff (hF : F.Canonical) (h : (unserialize F).run bs = some (b, rest)) :
    ∃ cs, bs = cs ++ rest ∧ (b.StandsFor F cs ↔ SigsAgree bs) ∧
      (SigsAgree bs → ∀ bs' rest', (unserialize F).run bs' = some (b, rest') → SigsAgree bs' →
        bs' = cs ++ rest') := by
  obtain ⟨cs, hbs, hiff⟩ := serialize_unserialize_iff hF h
  refine ⟨cs, hbs, ⟨fun hb => hiff.mp hb.serialize, ?_⟩, ?_⟩
  · intro hagree
    have hser := hiff.mpr hagree
    refine ⟨hser, ?_⟩
    intro sha
    rw [hser]
    rfl
  · intro hagree bs' rest' h' hagree'
    obtain ⟨cs', hbs', hiff'⟩ := serialize_unserialize_iff hF h'
    have hsame : some cs = some cs' := (hiff.mpr hagree).symm.trans (hiff'.mpr hagree')
    rw [hbs', Option.some.inj hsame]

/-- The positions 0 and 65536, which are one 16-bit id. -/
def wrappedIds : Bits := ((Bits.cleared 65537).set 0).set 65536

def wrapped (σ σ' : Sig) : List UInt8 :=
  (⟨[b0], [], [], []⟩ : Vectors).serialize ++ ((toLe 32 b0 ++ (wrappedIds.serialize ++
    (SigFormat.sample.serializeCompact σ ++ SigFormat.sample.serializeCompact σ'))) ++
    (toLe 4 0 ++ []))

def merged (σ' : Sig) : Body := ⟨[b0], [], [], [], ⟨b0, wrappedIds, [(0, σ')]⟩, []⟩

theorem wrappedIds_ids : wrappedIds.ids = [0, 65536] := by
  have hsized : ((Bits.cleared 65537).set 0).Sized := (Bits.Sized.cleared (by decide)).set 0
  have hnbits : ((Bits.cleared 65537).set 0).nbits = 65537 := rfl
  have hmem : ∀ i, i ∈ wrappedIds.ids ↔ i ∈ [0, 65536] := by
    intro i
    rw [Bits.mem_ids, List.mem_cons, List.mem_singleton]
    change i < 65537 ∧ _ ↔ _
    constructor
    · rintro ⟨hi, hget⟩
      rcases (hsized.get_set i (hnbits ▸ hi)).mp hget with rfl | hget
      · exact Or.inr rfl
      · rcases ((Bits.Sized.cleared (by decide)).get_set i hi).mp hget with rfl | hget
        · exact Or.inl rfl
        · rw [Bits.get_cleared] at hget
          cases hget
    · intro hi
      have hlt : i < 65537 := by omega
      refine ⟨hlt, (hsized.get_set i (hnbits ▸ hlt)).mpr ?_⟩
      rcases hi with rfl | rfl
      · exact Or.inr (((Bits.Sized.cleared (by decide)).get_set 0 hlt).mpr (Or.inl rfl))
      · exact Or.inl rfl
  have hsorted : wrappedIds.ids.Pairwise (· < ·) :=
    List.pairwise_lt_range.sublist List.filter_sublist
  exact hsorted.eq_of_mem_iff (by simp) hmem

theorem wrapped_parses {σ σ' : Sig} (hσ : σ < 256 ^ 64) (hσ' : σ' < 256 ^ 64) :
    (unserialize .sample).run (wrapped σ σ') = some (merged σ', []) := by
  have hv : Parses Vectors.unserialize (⟨[b0], [], [], []⟩ : Vectors).serialize
      ⟨[b0], [], [], []⟩ := by
    refine Vectors.Sized.parses ⟨?_, ?_, ?_, ?_, ?_, ?_⟩ ⟨rfl, rfl⟩ <;> decide
  have hrids : wrappedIds.Sized := ((Bits.Sized.cleared (by decide)).set 0).set 65536
  have hsigs : Parses (QuorumCert.unserializeSigs .sample wrappedIds.ids [])
      (SigFormat.sample.serializeCompact σ ++ SigFormat.sample.serializeCompact σ') [(0, σ')] := by
    rw [wrappedIds_ids]
    have hlast := (SigFormat.unserialize_parses (SigFormat.sample_carries hσ')).bind_pure
      fun σ' => assign (assign [] 0 σ) 0 σ'
    exact (SigFormat.unserialize_parses (SigFormat.sample_carries hσ)).bind hlast
  have hqc : Parses (QuorumCert.unserialize .sample) _ (merged σ').qc :=
    (readLe_parses (w := 32) (by decide)).bind (hrids.parses.bind
      (hsigs.bind_pure fun sigs => (⟨b0, wrappedIds, sigs⟩ : QuorumCert)))
  have hblock : Parses (unserialize .sample) (wrapped σ σ') (merged σ') :=
    hv.bind (hqc.bind ((readLe_parses (w := 4) (by decide)).bind ((@take_parses 0 [] rfl).bind_pure
      fun extra => (⟨[b0], [], [], [], (merged σ').qc, extra⟩ : Body))))
  have h := hblock []
  rwa [List.append_nil] at h

theorem merged_serialize (σ' : Sig) : (merged σ').serialize .sample = some (wrapped σ' σ') := by
  have hsigs : (merged σ').qc.serializeSigs .sample wrappedIds.ids =
      some (SigFormat.sample.serializeCompact σ' ++ SigFormat.sample.serializeCompact σ') := by
    rw [wrappedIds_ids]
    exact congrArg (fun l => some (SigFormat.sample.serializeCompact σ' ++ l)) (List.append_nil _)
  have hqc : (merged σ').qc.serialize .sample = some (toLe 32 b0 ++ (wrappedIds.serialize ++
      (SigFormat.sample.serializeCompact σ' ++ SigFormat.sample.serializeCompact σ'))) := by
    unfold QuorumCert.serialize
    rw [show (merged σ').qc.rids = wrappedIds from rfl, hsigs]
    rfl
  rw [serialize, hqc]
  rfl

/-- Two strings decode to one block, and it is written as the second of them. -/
theorem signature_lost : wrapped 1 2 ≠ wrapped 2 2 ∧
    (unserialize .sample).run (wrapped 1 2) = some (merged 2, []) ∧
    (unserialize .sample).run (wrapped 2 2) = some (merged 2, []) ∧
    (merged 2).serialize .sample = some (wrapped 2 2) := by
  refine ⟨?_, wrapped_parses (by decide) (by decide), wrapped_parses (by decide) (by decide),
    merged_serialize 2⟩
  unfold wrapped
  rw [Ne, List.append_right_inj, List.append_left_inj, List.append_right_inj,
    List.append_right_inj, List.append_left_inj]
  decide

theorem sample_canonical : SigFormat.sample.Canonical := by
  intro raw σ hlen hparse
  cases hparse
  change toLe 64 (ofLe raw) = raw
  rw [← hlen, toLe_ofLe]

/-- The same signature at both positions. -/
theorem decode_canonical_iff_wrapped : ∃ cs, wrapped 2 2 = cs ++ [] ∧
    ((merged 2).StandsFor .sample cs ↔ SigsAgree (wrapped 2 2)) := by
  obtain ⟨cs, hcs, hiff, -⟩ :=
    decode_canonical_iff sample_canonical (@wrapped_parses 2 2 (by decide) (by decide))
  exact ⟨cs, hcs, hiff⟩

end Body

end AvaHotstuff
