import AvaHotstuff.RoundRobin
import AvaHotstuff.Runs

set_option autoImplicit false

namespace AvaHotstuff
open Bytes

/-- The callers of `on_propose`: the handler of `cmd_pending` and `do_new_consensus`. -/
inductive Caller where
  | startMc (buffer : List ClientCommandVars) (blkSize : ℕ)
  | doNewConsensus (cmds : List Hash) (junk : ℕ)

def Caller.batch : Caller → Batch
  | .startMc buffer blkSize => .ofBuffer (buffer.take blkSize)
  | .doNewConsensus cmds junk => .renewed cmds junk

/-- `vals` happens to get as many entries as there are commands. -/
def Caller.Regular : Caller → Prop
  | .startMc _ _ => True
  | .doNewConsensus cmds junk => junk = cmds.length

/-- The wire counts the parents, the commands and the bytes of `extra` in 32 bits each. -/
structure Caller.Fits (c : Caller) (parents : List Hash) (extra : List UInt8) : Prop where
  parents : parents.length < 2 ^ 32
  cmds : c.batch.cmds.length < 2 ^ 32
  extra : extra.length < 2 ^ 32

def Caller.body (s : Replica) (c : Caller) (parents : List Hash) (p : Hash)
    (extra : List UInt8) : Body :=
  (s.newBlock c.batch.cmds c.batch.keys c.batch.vals parents p extra).body

/-- The vectors match, the loops over the commands index them in range, and a peer gets the
same block under the same hash. -/
structure Body.Faithful (C : Crypto) (F : SigFormat) (b : Body) : Prop where
  matched : b.vectors.Matched
  inRange : ∀ i < b.cmds.length, i < b.keys.length ∧ i < b.vals.length
  roundTrip : ∃ bs b', b.serialize F = some bs ∧ (Body.unserialize F).run bs = some (b', []) ∧
    b'.vectors = b.vectors ∧ b'.extra = b.extra ∧ b.qc.Same b'.qc ∧ C.getHash b' = C.getHash b

theorem Caller.matched_iff (s : Replica) (c : Caller) (parents : List Hash) (p : Hash)
    (extra : List UInt8) : (c.body s parents p extra).vectors.Matched ↔ c.Regular := by
  cases c with
  | startMc buffer blkSize =>
    refine iff_of_true ⟨?_, ?_⟩ trivial
    · change ((buffer.take blkSize).map _).length = ((buffer.take blkSize).map _).length
      rw [List.length_map, List.length_map]
    · change ((buffer.take blkSize).map _).length = ((buffer.take blkSize).map _).length
      rw [List.length_map, List.length_map]
  | doNewConsensus cmds junk =>
    constructor
    · intro h
      have hvals : (List.replicate junk (0 : ℤ)).length = cmds.length := h.vals
      rw [List.length_replicate] at hvals
      exact hvals
    · intro h
      refine ⟨List.length_replicate, ?_⟩
      change (List.replicate junk (0 : ℤ)).length = cmds.length
      rw [List.length_replicate]
      exact h

/-- Where the values fit their types, a block arrives as it was sent exactly when the caller's
vectors match, no vector is too long for the wire, and its certificate has a signature for
exactly the set bits. -/
theorem matching_vectors_iff (C : Crypto) (F : SigFormat) (s : Replica) (c : Caller)
    (parents : List Hash) (p : Hash) (extra : List UInt8)
    (hhash : ∀ b b' : Body, b.serialize F = b'.serialize F → C.getHash b = C.getHash b')
    (hparents : ∀ h ∈ parents, h < 2 ^ 256) (hcmds : ∀ h ∈ c.batch.cmds, h < 2 ^ 256)
    (hkeys : ∀ k ∈ c.batch.keys, -2 ^ 31 ≤ k ∧ k < 2 ^ 31)
    (hvals : ∀ k ∈ c.batch.vals, -2 ^ 31 ≤ k ∧ k < 2 ^ 31)
    (hobj : s.hqc.2.objHash < 2 ^ 256) (hrids : s.hqc.2.rids.Sized)
    (hids : ∀ i ∈ s.hqc.2.rids.ids, i < 2 ^ 16)
    (hF : ∀ i σ, s.hqc.2.sigs.lookup i = some σ → F.Carries σ) :
    (c.body s parents p extra).Faithful C F ↔ c.Regular ∧ c.Fits parents extra ∧
      ∀ i, (s.hqc.2.sigs.lookup i).isSome = true ↔ i ∈ s.hqc.2.rids.ids := by
  have hsized : c.Fits parents extra → (c.body s parents p extra).vectors.Sized :=
    fun fits => ⟨fits.parents, fits.cmds, hparents, hcmds, hkeys, hvals⟩
  have hsound : (∀ i ∈ s.hqc.2.rids.ids, ∃ σ, s.hqc.2.sigs.lookup i = some σ) → s.hqc.2.Sound F :=
    fun hsigs => ⟨hobj, hrids, hids, fun i hi => (hsigs i hi).imp fun σ hσ => ⟨hσ, hF i σ hσ⟩⟩
  constructor
  · intro f
    obtain ⟨bs, b', hbs, hrun, hvectors, hex, same, -⟩ := f.roundTrip
    have fits : c.Fits parents extra := by
      obtain ⟨h₁, h₂, h₃⟩ := Body.unserialize_yields bs b' [] hrun
      rw [hex] at h₃
      rw [show b'.parentHashes = b'.vectors.parentHashes from rfl, hvectors] at h₁
      rw [show b'.cmds = b'.vectors.cmds from rfl, hvectors] at h₂
      exact ⟨h₁, h₂, h₃⟩
    obtain ⟨qbs, hqbs, -⟩ := Option.map_eq_some_iff.mp hbs
    obtain ⟨sbs, hsbs, -⟩ := Option.map_eq_some_iff.mp hqbs
    have hsigs : ∀ i ∈ s.hqc.2.rids.ids, ∃ σ, s.hqc.2.sigs.lookup i = some σ := by
      intro i hi
      have hsome := QuorumCert.serializeSigs_some hsbs i hi
      rwa [Nat.mod_eq_of_lt (hids i hi)] at hsome
    obtain ⟨bs', hbs', hp⟩ := Body.parses (hsized fits) f.matched fits.extra (hsound hsigs)
    obtain rfl : bs = bs' := Option.some.inj (hbs.symm.trans hbs')
    have hread := hp []
    rw [List.append_nil, hrun] at hread
    have hb' : b' = _ := congrArg Prod.fst (Option.some.inj hread)
    rw [hb'] at same
    exact ⟨(c.matched_iff s parents p extra).mp f.matched, fits,
      (QuorumCert.same_received_iff hsigs).mp same⟩
  · intro ⟨hreg, fits, hcomplete⟩
    have hm := (c.matched_iff s parents p extra).mpr hreg
    have hsigs : ∀ i ∈ s.hqc.2.rids.ids, ∃ σ, s.hqc.2.sigs.lookup i = some σ :=
      fun i hi => Option.isSome_iff_exists.mp ((hcomplete i).mpr hi)
    obtain ⟨bs, hbs, hp⟩ := Body.parses (hsized fits) hm fits.extra (hsound hsigs)
    have hread := hp []
    rw [List.append_nil] at hread
    refine ⟨hm, ?_, bs, _, hbs, hread, rfl, rfl, ?_, ?_⟩
    · intro i hi
      have hk := hm.keys
      have hv := hm.vals
      exact ⟨hi.trans_eq hk.symm, hi.trans_eq hv.symm⟩
    · exact (QuorumCert.same_received_iff hsigs).mpr hcomplete
    · apply hhash
      rw [Body.serialize, Body.serialize]
      exact congrArg (Option.map _) (hsound hsigs).serialize_received

def Crypto.digest : Crypto :=
  { Crypto.sample with getHash := fun b => ofLe ((b.serialize .sample).getD []) % (2 ^ 255 - 19) }

def ledByZero : Replica := { (Setup.four 0).start with hqc := (1, .sample 1) }

def twoCommands : Caller := .startMc [⟨7, 1, 2, 0, 0, -1⟩, ⟨8, 3, -4, 0, 0, -1⟩] 2

theorem matching_vectors_iff_two :
    (twoCommands.body ledByZero [1] 1 []).Faithful .digest .sample := by
  refine (matching_vectors_iff .digest .sample ledByZero twoCommands [1] 1 [] ?_ (by decide)
    (by decide) (by decide) (by decide) (by decide) ⟨by decide, rfl⟩ (by decide) ?_).mpr
    ⟨trivial, ⟨by decide, by decide, by decide⟩, ?_⟩
  · intro b b' h
    change ofLe _ % _ = ofLe _ % _
    rw [h]
  · intro i σ h
    have hσ : σ = 1 := by
      match i, h with
      | 0, h => exact (Option.some.inj h).symm
      | 1, h => exact (Option.some.inj h).symm
      | 2, h => exact (Option.some.inj h).symm
    rw [hσ]
    exact SigFormat.sample_carries (Nat.one_lt_pow (by decide) (by decide))
  · intro i
    match i with
    | 0 | 1 | 2 => decide
    | i + 3 =>
      refine iff_of_false Bool.false_ne_true ?_
      rw [show ledByZero.hqc.2.rids.ids = [0, 1, 2] by decide]
      simp

/-- Replica 0 gets a command and is elected; the vector of vals under construction has size
zero. -/
def reproposing : Server :=
  Runs.run (Server.step .digest .sample) (.start (.four 0) 400)
    [.request ⟨5, 1, 2, 0, 0, -1⟩ 0, .elected [5] 0]

theorem renewed_vals_missing :
    ∃ h body, (reproposing.core.storage.blkCache h).map (·.body) = some body ∧ body.cmds = [5] ∧
      body.keys = [0] ∧ body.vals = [] ∧ ¬body.Faithful .digest .sample := by
  let body := (Caller.doNewConsensus [5] 0).body (Setup.four 0).start [b0] b0 []
  refine ⟨Crypto.digest.getHash body, body, by decide +kernel, rfl, rfl, rfl, ?_⟩
  intro f
  exact absurd f.matched.vals (by decide)

end AvaHotstuff
