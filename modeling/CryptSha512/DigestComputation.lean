import CryptSha512.CryptInner
import CryptSha512.DigestTexts

namespace CryptSha512.DigestComputation

open CryptSha512.CheckedExecution
open CryptSha512.CryptInner
open CryptSha512.CryptoBackend
open CryptSha512.DigestTexts
open CryptSha512.HashChains
open CryptSha512.ShaCryptDefinition

variable (profile : Profile) (B : Backend)

theorem sliceTo_block (block : Vector UInt8 64) {n : Nat} (h : n ≤ 64) :
    sliceTo block.toList n = .ok (cyc block n) := by
  rw [sliceTo_of_le (by simpa using h), cyc_of_le block h]

theorem sliceTo_whole_block (block : Vector UInt8 64) :
    sliceTo block.toList 64 = .ok block.toList := by
  rw [sliceTo_of_le (by simp), List.take_of_length_le (by simp)]

theorem and_one_ne_zero_iff (n : Nat) : n &&& 1 ≠ 0 ↔ n % 2 = 1 := by
  rw [Nat.and_one_is_mod]
  omega

/-- `done` is in the context and `pending` depends on the counter; together they
are the whole text of a loop. -/
def Absorbing (pending : Nat → List UInt8) (text : List UInt8)
    (state : B.sha512Context.Context × Nat) : Prop :=
  ∃ done, B.sha512Context.Absorbed state.1 done ∧ done ++ pending state.2 = text

theorem addBlock_absorbing (result : Vector UInt8 64) (text : List UInt8)
    (state : B.sha512Context.Context × Nat) (h : Absorbing B (cyc result) text state)
    (hcondition : decide (64 < state.2) = true) :
    ∃ next, addBlock profile B result state = .ok next ∧
      Absorbing B (cyc result) text next ∧ next.2 < state.2 := by
  have hlarge : 64 < state.2 := of_decide_eq_true hcondition
  obtain ⟨done, hdone, htext⟩ := h
  refine ⟨(B.sha512Context.update state.1 result.toList, state.2 - 64), ?_, ?_, ?_⟩
  · rw [addBlock, sliceTo_whole_block, ok_bind, usizeSub_of_le profile hlarge.le]
    rfl
  · refine ⟨done ++ result.toList, hdone.update _, ?_⟩
    rw [List.append_assoc, ← cyc_block_add, Nat.add_sub_cancel' hlarge.le, htext]
  · exact Nat.sub_lt (by omega) (by omega)

theorem addAlternateSum_absorbed {ctx : B.sha512Context.Context} {text : List UInt8}
    (hctx : B.sha512Context.Absorbed ctx text) (result : Vector UInt8 64) (keyLen : Nat) :
    ∃ next, addAlternateSum profile B ctx result keyLen = .ok next ∧
      B.sha512Context.Absorbed next (text ++ cyc result keyLen) := by
  obtain ⟨⟨final, cnt⟩, hrun, ⟨done, hdone, htext⟩, hexit⟩ :=
    whileLoop_total _ Prod.snd
      (addBlock_absorbing profile B result (text ++ cyc result keyLen))
      keyLen (ctx, keyLen) ⟨text, hctx, rfl⟩ le_rfl
  have hsmall : cnt ≤ 64 := by simpa using hexit
  refine ⟨B.sha512Context.update final (cyc result cnt), ?_, ?_⟩
  · simp only [addAlternateSum, hrun, ok_bind, sliceTo_block result hsmall, pure_eq_ok]
  · rw [← htext]
    exact hdone.update _

theorem addBit_absorbing (key : List UInt8) (result : Vector UInt8 64) (text : List UInt8)
    (state : B.sha512Context.Context × Nat)
    (h : Absorbing B (binaryDigits result key) text state)
    (hcondition : decide (0 < state.2) = true) :
    ∃ next, addBit B key result state = .ok next ∧
      Absorbing B (binaryDigits result key) text next ∧ next.2 < state.2 := by
  have hpos : 0 < state.2 := of_decide_eq_true hcondition
  obtain ⟨done, hdone, htext⟩ := h
  let piece := if state.2 % 2 = 1 then result.toList else key
  have hpiece : (if state.2 &&& 1 ≠ 0 then sliceTo result.toList 64 else pure key) =
      .ok piece := by
    simp only [and_one_ne_zero_iff, sliceTo_whole_block, pure_eq_ok, piece]
    split <;> rfl
  refine ⟨(B.sha512Context.update state.1 piece, state.2 >>> 1), ?_, ?_, ?_⟩
  · rw [addBit, hpiece]
    rfl
  · refine ⟨done ++ piece, hdone.update _, ?_⟩
    rw [List.append_assoc, Nat.shiftRight_one, ← binaryDigits_of_pos result key hpos, htext]
  · rw [Nat.shiftRight_one]
    exact Nat.div_lt_self hpos (by decide)

theorem addLengthBits_absorbed {ctx : B.sha512Context.Context} {text : List UInt8}
    (hctx : B.sha512Context.Absorbed ctx text) (key : List UInt8)
    (result : Vector UInt8 64) :
    ∃ next, addLengthBits B ctx key result = .ok next ∧
      B.sha512Context.Absorbed next (text ++ binaryDigits result key key.length) := by
  obtain ⟨⟨final, cnt⟩, hrun, ⟨done, hdone, htext⟩, hexit⟩ :=
    whileLoop_total _ Prod.snd
      (addBit_absorbing B key result (text ++ binaryDigits result key key.length))
      key.length (ctx, key.length) ⟨text, hctx, rfl⟩ le_rfl
  have hzero : cnt = 0 := by simpa using hexit
  refine ⟨final, ?_, ?_⟩
  · simp only [addLengthBits, hrun, ok_bind, pure_eq_ok]
  · rw [hzero, binaryDigits_zero, List.append_nil] at htext
    rwa [← htext]

theorem updateTimes_absorbed (bytes : List UInt8) (count : Nat) :
    ∃ next, updateTimes B B.sha512Context.new bytes count = .ok next ∧
      B.sha512Context.Absorbed next (repeated count bytes) := by
  refine forRange_total
    (fun count ctx => B.sha512Context.Absorbed ctx (repeated count bytes)) ?_ count
    B.sha512Context.new B.sha512Context.absorbed_new
  intro i ctx hctx
  refine ⟨B.sha512Context.update ctx bytes, rfl, ?_⟩
  rw [repeated_succ]
  exact hctx.update bytes

theorem fillBlock_filling (tempResult : Vector UInt8 64) (text : List UInt8)
    (state : List UInt8 × Nat) (h : state.1 ++ cyc tempResult state.2 = text)
    (hcondition : decide (64 ≤ state.2) = true) :
    ∃ next, fillBlock profile tempResult state = .ok next ∧
      next.1 ++ cyc tempResult next.2 = text ∧ next.2 < state.2 := by
  have hlarge : 64 ≤ state.2 := of_decide_eq_true hcondition
  refine ⟨(state.1 ++ tempResult.toList, state.2 - 64), ?_, ?_, ?_⟩
  · rw [fillBlock, sliceTo_whole_block, ok_bind, usizeSub_of_le profile hlarge]
    rfl
  · rw [List.append_assoc, ← cyc_block_add, Nat.add_sub_cancel' hlarge, h]
  · exact Nat.sub_lt (by omega) (by omega)

theorem fillSequence_eq (tempResult : Vector UInt8 64) (len : Nat) :
    fillSequence profile tempResult len = .ok (cyc tempResult len) := by
  obtain ⟨⟨bytes, cnt⟩, hrun, htext, hexit⟩ :=
    whileLoop_total _ Prod.snd (fillBlock_filling profile tempResult (cyc tempResult len))
      len ([], len) rfl le_rfl
  have hsmall : cnt ≤ 64 := by
    have hless : cnt < 64 := by simpa using hexit
    exact hless.le
  simp only [fillSequence, hrun, ok_bind, sliceTo_block tempResult hsmall, pure_eq_ok]
  exact congrArg Except.ok htext

theorem absorbed_unless_dvd {ctx : B.sha512Context.Context} {text : List UInt8}
    (hctx : B.sha512Context.Absorbed ctx text) (piece : List UInt8) (m i : Nat) :
    B.sha512Context.Absorbed (if i % m ≠ 0 then B.sha512Context.update ctx piece else ctx)
      (text ++ if m ∣ i then [] else piece) := by
  split
  · rename_i hdivides
    rw [if_neg (mt Nat.mod_eq_zero_of_dvd hdivides)]
    exact hctx.update piece
  · rename_i hdivides
    rw [if_pos (Nat.dvd_of_mod_eq_zero (not_not.mp hdivides)), List.append_nil]
    exact hctx

theorem roundContext_absorbed (pBytes sBytes : List UInt8) (i : Nat) (c : Vector UInt8 64) :
    ∃ ctx, roundContext B pBytes sBytes i c = .ok ctx ∧
      B.sha512Context.Absorbed ctx (roundText pBytes sBytes i c) := by
  have hfirst : (if i &&& 1 ≠ 0 then .ok pBytes else sliceTo c.toList 64) =
      Except.ok (if i % 2 = 1 then pBytes else c.toList) := by
    simp only [and_one_ne_zero_iff, sliceTo_whole_block]
    split <;> rfl
  have hlast : (if i &&& 1 ≠ 0 then sliceTo c.toList 64 else .ok pBytes) =
      Except.ok (if i % 2 = 1 then c.toList else pBytes) := by
    simp only [and_one_ne_zero_iff, sliceTo_whole_block]
    split <;> rfl
  have hstart := B.sha512Context.absorbed_new.update
    (if i % 2 = 1 then pBytes else c.toList)
  have hsalt := absorbed_unless_dvd B hstart sBytes 3 i
  have hkey := absorbed_unless_dvd B hsalt pBytes 7 i
  refine ⟨_, ?_, hkey.update (if i % 2 = 1 then c.toList else pBytes)⟩
  simp only [roundContext, hfirst, hlast, ok_bind, pure_eq_ok]

theorem addAlternateText_absorbed (key salt : List UInt8) :
    B.sha512Context.Absorbed
      (B.sha512Context.update
        (B.sha512Context.update (B.sha512Context.update B.sha512Context.new key) salt) key)
      (key ++ salt ++ key) :=
  ((B.sha512Context.absorbed_new.update key).update salt).update key

theorem getAt_first (block : Vector UInt8 64) :
    getAt block.toList 0 = .ok (block.get ⟨0, zero_lt_block⟩) := by
  simp [getAt, Vector.get]

theorem saltRepetitions_eq (key salt : List UInt8) :
    usizeAdd profile 16 ((intermediate B.sha512 key salt).get ⟨0, zero_lt_block⟩).toNat =
      .ok (saltRepetitions B.sha512 key salt) := by
  have hbyte := ((intermediate B.sha512 key salt).get ⟨0, zero_lt_block⟩).toNat_lt
  exact usizeAdd_of_lt profile (by omega)

/-- The buffers of the digest computation, by the construction. -/
def digestBuffers (H : List UInt8 → Vector UInt8 64) (key salt : List UInt8) (rounds : Nat) :
    Buffers :=
  ⟨shaCrypt H key salt rounds, keyBlock H key, saltBlock H key salt, keySequence H key,
    saltSequence H key salt⟩

section Finishing

variable {m : Type → Type} [Monad m] [LawfulMonad m]
variable [MonadLiftT Exec m] [LawfulMonadLiftT Exec m]

/-- Finishing a context reports the text that it has absorbed, and returns the
hash of this text. -/
def Reports (finish : B.sha512Context.Context → m (Vector UInt8 64))
    (report : List UInt8 → m PUnit) : Prop :=
  ∀ {ctx text}, B.sha512Context.Absorbed ctx text →
    finish ctx = report text >>= fun _ => pure (B.sha512 text)

variable {B} {finish : B.sha512Context.Context → m (Vector UInt8 64)}
variable {report : List UInt8 → m PUnit}

theorem runRound_eq (hfinish : Reports B finish report) (pBytes sBytes : List UInt8) (i : Nat)
    (c : Vector UInt8 64) :
    runRound B finish pBytes sBytes i c =
      report (roundText pBytes sBytes i c) >>= fun _ =>
        pure (B.sha512 (roundText pBytes sBytes i c)) := by
  obtain ⟨ctx, hrun, hctx⟩ := roundContext_absorbed B pBytes sBytes i c
  rw [runRound, hrun, liftM_ok, pure_bind, hfinish hctx]

theorem runRounds_eq (hfinish : Reports B finish report) (key salt : List UInt8)
    (rounds : Nat) :
    forRange (runRound B finish (keySequence B.sha512 key) (saltSequence B.sha512 key salt))
        rounds (intermediate B.sha512 key salt) =
      forM (roundTexts B.sha512 key salt rounds) report >>= fun _ =>
        pure (shaCrypt B.sha512 key salt rounds) := by
  induction rounds with
  | zero => simp [forRange, roundTexts, chainTexts, shaCrypt, chain]
  | succ rounds ih =>
      have hvalue := shaCrypt_eq_chainValue B.sha512 key salt rounds
      rw [forRange, ih, roundTexts, roundTexts, chainTexts_succ, ← hvalue]
      simp only [bind_assoc, pure_bind, runRound_eq hfinish, List.forM_append, List.forM_cons,
        List.forM_nil]
      rfl

/-- The digest computation reports the texts of the construction, in order, and
returns its buffers. -/
theorem computeDigestWith_eq (profile : Profile) (hfinish : Reports B finish report)
    (key salt : List UInt8) (rounds : UInt32) :
    computeDigestWith profile B finish key salt rounds =
      forM (digestTexts B.sha512 key salt rounds.toNat) report >>= fun _ =>
        pure (digestBuffers B.sha512 key salt rounds.toNat) := by
  have halternate : finish _ = report _ >>= fun _ => pure (alternateSum B.sha512 key salt) :=
    hfinish (addAlternateText_absorbed B key salt)
  have hbegin : B.sha512Context.Absorbed _ (key ++ salt) :=
    (B.sha512Context.absorbed_new.update key).update salt
  obtain ⟨ctx, hsum, hctx⟩ := addAlternateSum_absorbed profile B hbegin
    (alternateSum B.sha512 key salt) key.length
  obtain ⟨ctx', hbits, hctx'⟩ := addLengthBits_absorbed B hctx key
    (alternateSum B.sha512 key salt)
  have hresult : finish ctx' = report _ >>= fun _ => pure (intermediate B.sha512 key salt) :=
    hfinish hctx'
  obtain ⟨keyCtx, hkey, hkeyCtx⟩ := updateTimes_absorbed B key key.length
  have hkeyBlock : finish keyCtx = report _ >>= fun _ => pure (keyBlock B.sha512 key) :=
    hfinish hkeyCtx
  have hcount := saltRepetitions_eq profile B key salt
  obtain ⟨saltCtx, hsalt, hsaltCtx⟩ := updateTimes_absorbed B salt
    (saltRepetitions B.sha512 key salt)
  have hsaltBlock : finish saltCtx = report _ >>= fun _ => pure (saltBlock B.sha512 key salt) :=
    hfinish hsaltCtx
  have hrounds := runRounds_eq hfinish key salt rounds.toNat
  simp only [keySequence, saltSequence] at hrounds
  simp only [computeDigestWith, halternate, hsum, hbits, hresult, hkey, hkeyBlock,
    fillSequence_eq, getAt_first, hcount, hsalt, hsaltBlock, hrounds, liftM_ok, bind_assoc,
    pure_bind, digestTexts, setupTexts, List.forM_append, List.forM_cons, List.forM_nil]
  rfl

end Finishing

theorem computeDigest_eq (key salt : List UInt8) (rounds : UInt32) :
    computeDigest profile B key salt rounds =
      .ok (digestBuffers B.sha512 key salt rounds.toNat) := by
  have hfinish : Reports B (fun ctx => pure (B.sha512Context.finish ctx))
      fun _ => (pure () : Exec Unit) := by
    intro ctx text hctx
    exact congrArg Except.ok hctx.finish
  have hsilent : ∀ texts : List (List UInt8), forM texts (fun _ => (pure () : Exec Unit)) =
      .ok () := by
    intro texts
    induction texts with
    | nil => rfl
    | cons text texts ih => exact ih
  rw [computeDigest, computeDigestWith_eq profile hfinish, hsilent]
  rfl

end CryptSha512.DigestComputation
