import CryptSha512.GrowableVectors
import CryptSha512.HashGeneration

namespace CryptSha512.BufferCapacities

open CryptSha512.AsciiNumbers
open CryptSha512.CheckedExecution
open CryptSha512.CryptBase64
open CryptSha512.CryptInner
open CryptSha512.CryptRefinement
open CryptSha512.CryptoBackend
open CryptSha512.DecimalText
open CryptSha512.DigestComputation
open CryptSha512.GrowableVectors
open CryptSha512.GrowableVectors.GrowableVec
open CryptSha512.HashGeneration
open CryptSha512.PasswordHashTraits
open CryptSha512.SaltSpecBuilding
open CryptSha512.SaltSpecGrammar
open CryptSha512.SextetPacking
open CryptSha512.ShaCryptDefinition

section Builders

variable (A : Allocator) (profile : Profile)

/-- The body of the loops that fill P and S. -/
def fillBlockVec (tempResult : Vector UInt8 64) (state : GrowableVec UInt8 × Nat) :
    Exec (GrowableVec UInt8 × Nat) := do
  let block ← sliceTo tempResult.toList 64
  let cnt ← usizeSub profile state.2 64
  pure (extendFromSlice A state.1 block, cnt)

/-- The statements that fill P or S, over a vector of the exact capacity. -/
def fillSequenceVec (tempResult : Vector UInt8 64) (len : Nat) : Exec (GrowableVec UInt8) := do
  let state ← whileLoop (fun state => decide (64 ≤ state.2)) (fillBlockVec A profile tempResult)
    len (withCapacity A len, len)
  let tail ← sliceTo tempResult.toList state.2
  pure (extendFromSlice A state.1 tail)

/-- Either branch of the printer appends once. -/
def pushU32AsAsciiVec (value : UInt32) (output : GrowableVec UInt8) :
    Exec (GrowableVec UInt8) := do
  let digits ← pushU32AsAscii profile value []
  pure (extendFromSlice A output digits)

def pushRoundsVec (roundsCustom : Bool) (rounds : UInt32) (output : GrowableVec UInt8) :
    Exec (GrowableVec UInt8) :=
  if roundsCustom then do
    let output ← pushU32AsAsciiVec A profile rounds (extendFromSlice A output sha512RoundsPrefix)
    pure (push A output dollar)
  else pure output

/-- The macro pushes one character at a time. -/
def encodeResultVec (result : Vector UInt8 64) (output : GrowableVec UInt8) :
    GrowableVec UInt8 :=
  pushAll A (encodeResult result []) output

/-- The output of `crypt_inner` with the capacity it asks for. -/
def constructOutputVec (settings : Settings) (result : Vector UInt8 64) :
    Exec (GrowableVec UInt8) := do
  let size ← saltSpecOutputSize profile settings.salt.length settings.roundsCustom
  let outputSize ← usizeAdd profile size sha512HashEncodedLength
  let output := extendFromSlice A (withCapacity A outputSize) sha512SaltPrefix
  let output ← pushRoundsVec A profile settings.roundsCustom settings.rounds output
  let output := extendFromSlice A output settings.salt
  pure (encodeResultVec A result (push A output dollar))

def encodeChunkVec (output : GrowableVec UInt8) (chunk : List UInt8) :
    Exec (GrowableVec UInt8) := do
  let text ← encodeChunk [] chunk
  pure (pushAll A text output)

/-- `encode_crypt_base64` with the capacity it asks for. -/
def encodeCryptBase64Vec (input : List UInt8) : Exec (GrowableVec UInt8) := do
  let capacity ← usizeMul profile ((input.length + 2) / 3) 4
  (chunksOfThree input).foldlM (encodeChunkVec A) (withCapacity A capacity)

/-- The specification of `hash` up to the buffer that `generate_salt` fills in
place. -/
def resizedSaltSpecVec (rounds : Option UInt32) : Exec (GrowableVec UInt8) := do
  let r := selectRounds rounds
  let capacity ← saltSpecOutputSize profile saltLenMax r.2
  let saltSpec := extendFromSlice A (withCapacity A capacity) sha512SaltPrefix
  let saltSpec ← pushRoundsVec A profile r.2 r.1 saltSpec
  let stop ← usizeAdd profile saltSpec.items.length saltLenMax
  pure (resize A saltSpec stop 0)

/-- The specification of `hash_password_customized`, for an encoded salt. -/
def customizedSpecVec (params : Sha512CryptParams) (salt : List UInt8) :
    Exec (GrowableVec UInt8) := do
  let roundsCustom := decide (params.rounds ≠ roundsDefault)
  let capacity ← saltSpecOutputSize profile salt.length roundsCustom
  let spec := extendFromSlice A (withCapacity A capacity) sha512SaltPrefix
  let spec ← pushRoundsVec A profile roundsCustom params.rounds spec
  pure (extendFromSlice A spec salt)

/-- The specification of `verify_password`, for the fields as found. -/
def rebuildSpecVec (rounds : Option (List UInt8)) (salt : List UInt8) :
    Exec (GrowableVec UInt8) := do
  let capacity ← saltSpecOutputSize profile (min salt.length saltLenMax) rounds.isSome
  let spec := extendFromSlice A (withCapacity A capacity) sha512SaltPrefix
  let spec := match rounds with
    | some rounds =>
        push A (extendFromSlice A (extendFromSlice A spec sha512RoundsPrefix) rounds) dollar
    | none => spec
  pure (extendFromSlice A spec salt)

end Builders

section Filling

variable (A : Allocator) (profile : Profile)

/-- The loop has filled the vector up to the counter, in its first allocation. -/
def Filling (tempResult : Vector UInt8 64) (len : Nat) (state : GrowableVec UInt8 × Nat) :
    Prop :=
  state.1.items ++ cyc tempResult state.2 = cyc tempResult len ∧
    state.1.capacity = A.withCapacity len ∧ state.1.freed = []

theorem Filling.fits {tempResult : Vector UInt8 64} {len : Nat}
    {state : GrowableVec UInt8 × Nat} (h : Filling A tempResult len state) (piece : List UInt8)
    (hpiece : piece.length ≤ state.2) :
    (state.1.items ++ piece).length ≤ state.1.capacity := by
  obtain ⟨htext, hcapacity, _⟩ := h
  have hlength := congrArg List.length htext
  rw [List.length_append, cyc_length, cyc_length] at hlength
  have hle := A.le_withCapacity len
  rw [hcapacity, List.length_append]
  omega

theorem fillBlockVec_filling (tempResult : Vector UInt8 64) (len : Nat)
    (state : GrowableVec UInt8 × Nat) (h : Filling A tempResult len state)
    (hcondition : decide (64 ≤ state.2) = true) :
    ∃ next, fillBlockVec A profile tempResult state = .ok next ∧
      Filling A tempResult len next ∧ next.2 < state.2 := by
  have hlarge : 64 ≤ state.2 := of_decide_eq_true hcondition
  have hfits := h.fits A tempResult.toList (by simpa using hlarge)
  obtain ⟨htext, hcapacity, hfreed⟩ := h
  refine ⟨(extendFromSlice A state.1 tempResult.toList, state.2 - 64), ?_, ?_, ?_⟩
  · rw [fillBlockVec, sliceTo_whole_block, ok_bind, usizeSub_of_le profile hlarge]
    rfl
  · rw [extendFromSlice_of_fits hfits]
    refine ⟨?_, hcapacity, hfreed⟩
    rw [List.append_assoc, ← cyc_block_add, Nat.add_sub_cancel' hlarge, htext]
  · exact Nat.sub_lt (by omega) (by omega)

theorem fillSequenceVec_eq (tempResult : Vector UInt8 64) (len : Nat) :
    ∃ v, fillSequenceVec A profile tempResult len = .ok v ∧
      v.items = cyc tempResult len ∧ v.freed = [] := by
  obtain ⟨⟨v, cnt⟩, hrun, hfilling, hexit⟩ :=
    whileLoop_total _ Prod.snd (fillBlockVec_filling A profile tempResult len)
      len (withCapacity A len, len) ⟨rfl, rfl, rfl⟩ le_rfl
  have hless : cnt < 64 := by simpa using hexit
  have hfits := hfilling.fits A (cyc tempResult cnt) (by rw [cyc_length])
  refine ⟨extendFromSlice A v (cyc tempResult cnt), ?_, ?_, ?_⟩
  · simp only [fillSequenceVec, hrun, ok_bind, sliceTo_block tempResult hless.le, pure_eq_ok]
  · rw [extendFromSlice_items]
    exact hfilling.1
  · rw [extendFromSlice_of_fits hfits]
    exact hfilling.2.2

end Filling

section Appending

variable (A : Allocator) (profile : Profile)

/-- A builder that always returns, with `bytes` behind what was there. -/
def Appending (run : GrowableVec UInt8 → Exec (GrowableVec UInt8)) (bytes : List UInt8) :
    Prop :=
  ∃ f, Appends f bytes ∧ ∀ v, run v = .ok (f v)

variable {A} in
theorem Appending.then {run : GrowableVec UInt8 → Exec (GrowableVec UInt8)}
    {bytes piece : List UInt8} {f : GrowableVec UInt8 → GrowableVec UInt8}
    (h : Appending run bytes) (hf : Appends f piece) :
    Appending (fun v => run v >>= fun v => .ok (f v)) (bytes ++ piece) := by
  obtain ⟨g, hg, hrun⟩ := h
  exact ⟨_, hg.comp hf, fun v => by simp only [hrun, ok_bind]⟩

theorem Appending.fits {run : GrowableVec UInt8 → Exec (GrowableVec UInt8)}
    {bytes : List UInt8} (h : Appending run bytes) {n : Nat} (hn : bytes.length ≤ n) :
    ∃ v, run (withCapacity A n) = .ok v ∧ v.items = bytes ∧ v.freed = [] := by
  obtain ⟨f, hf, hrun⟩ := h
  exact ⟨_, hrun _, hf.stays_of_le hn⟩

theorem pushU32AsAscii_append (value : UInt32) (output : List UInt8) :
    pushU32AsAscii profile value output =
      pushU32AsAscii profile value [] >>= fun digits => .ok (output ++ digits) := by
  rw [pushU32AsAscii, pushU32AsAscii]
  split
  · rfl
  · simp only [bind_assoc, pure_eq_ok, ok_bind, List.nil_append]

theorem pushRoundsVec_appending {roundsCustom : Bool} {rounds : UInt32}
    {segment : List UInt8} (h : pushRounds profile roundsCustom rounds [] = .ok segment) :
    Appending (pushRoundsVec A profile roundsCustom rounds) segment := by
  cases roundsCustom with
  | false =>
      obtain rfl := Except.ok.inj h
      exact ⟨_, appends_nothing, fun v => rfl⟩
  | true =>
      rw [pushRounds, if_pos rfl, pushU32AsAscii_append] at h
      cases hdigits : pushU32AsAscii profile rounds [] with
      | error fault =>
          rw [hdigits] at h
          contradiction
      | ok digits =>
          rw [hdigits] at h
          obtain rfl := Except.ok.inj h
          refine ⟨_, ((appends_extendFromSlice A sha512RoundsPrefix).comp
            (appends_extendFromSlice A digits)).comp (appends_push A dollar), ?_⟩
          intro v
          simp only [pushRoundsVec, if_true, pushU32AsAsciiVec, hdigits, ok_bind, pure_eq_ok]

theorem encodeChunkVec_appending {chunks : List (List UInt8)}
    (h : ∀ chunk ∈ chunks, 0 < chunk.length ∧ chunk.length ≤ 3) :
    Appending (fun v => chunks.foldlM (encodeChunkVec A) v)
      ((chunks.flatMap groupSextets).map alphabetByte) := by
  induction chunks with
  | nil => exact ⟨_, appends_nothing, fun v => rfl⟩
  | cons chunk chunks ih =>
      obtain ⟨f, hf, hrun⟩ := ih fun other hother => h other (by simp [hother])
      have happends := (appends_pushAll A ((groupSextets chunk).map alphabetByte)).comp hf
      rw [← List.map_append, ← List.flatMap_cons] at happends
      refine ⟨_, happends, ?_⟩
      intro v
      simp only [List.foldlM_cons, encodeChunkVec, encodeChunk_eq (h chunk (by simp)),
        List.nil_append, ok_bind, pure_eq_ok]
      exact hrun _

theorem pushRounds_append (roundsCustom : Bool) (rounds : UInt32) (output : List UInt8) :
    pushRounds profile roundsCustom rounds output =
      pushRounds profile roundsCustom rounds [] >>= fun segment => .ok (output ++ segment) := by
  cases roundsCustom with
  | false => simp [pushRounds]
  | true =>
      rw [pushRounds, pushRounds, if_pos rfl, if_pos rfl, pushU32AsAscii_append,
        pushU32AsAscii_append profile rounds ([] ++ _)]
      simp only [bind_assoc, ok_bind, pure_eq_ok, List.nil_append, List.append_assoc]

theorem pushRounds_nil {rounds : UInt32}
    (h : rounds.toNat < 10 ^ 9 ∨ profile = .release) (roundsCustom : Bool) :
    pushRounds profile roundsCustom rounds [] =
      .ok (if roundsCustom then roundsField (decimal rounds.toNat) ++ [dollar] else []) := by
  cases roundsCustom with
  | false => rfl
  | true => simp [pushRounds, pushU32AsAscii_eq h, roundsField]

theorem roundsSegment_length_le (rounds : UInt32) (roundsCustom : Bool) :
    (if roundsCustom then roundsField (decimal rounds.toNat) ++ [dollar] else []).length ≤
        (if roundsCustom then 17 else 0) + 1 ∧
      (rounds.toNat < 10 ^ 9 →
        (if roundsCustom then roundsField (decimal rounds.toNat) ++ [dollar] else []).length ≤
          if roundsCustom then 17 else 0) := by
  -- the tenth digit has no room reserved for it, and takes that of a separator
  have hten : (decimal rounds.toNat).length ≤ 10 :=
    decimal_length_le (by omega) (Nat.lt_trans rounds.toNat_lt (by decide))
  cases roundsCustom with
  | false => simp
  | true =>
      simp only [if_true, roundsField, List.length_append, List.length_singleton,
        sha512RoundsPrefix_length]
      refine ⟨by omega, ?_⟩
      intro hsmall
      have hnine : (decimal rounds.toNat).length ≤ 9 := decimal_length_le (by omega) hsmall
      omega

theorem specFront_appending {roundsCustom : Bool} {rounds : UInt32} {segment : List UInt8}
    (h : pushRounds profile roundsCustom rounds [] = .ok segment) :
    Appending (fun v => pushRoundsVec A profile roundsCustom rounds
      (extendFromSlice A v sha512SaltPrefix)) (sha512SaltPrefix ++ segment) := by
  obtain ⟨f, hf, hrun⟩ := pushRoundsVec_appending A profile h
  exact ⟨_, (appends_extendFromSlice A sha512SaltPrefix).comp hf, fun v => hrun _⟩

end Appending

section Capacities

variable (A : Allocator) (profile : Profile)

/-- The vector is what the plain function returns, in its first allocation. -/
def KeepsAllocation (run : Exec (GrowableVec UInt8)) (plain : Exec (List UInt8)) : Prop :=
  ∃ v, run = .ok v ∧ plain = .ok v.items ∧ v.freed = []

theorem fillSequenceVec_keeps (tempResult : Vector UInt8 64) (len : Nat) :
    KeepsAllocation (fillSequenceVec A profile tempResult len)
      (fillSequence profile tempResult len) := by
  obtain ⟨v, hrun, hitems, hfreed⟩ := fillSequenceVec_eq A profile tempResult len
  exact ⟨v, hrun, by rw [fillSequence_eq, hitems], hfreed⟩

theorem constructOutputVec_keeps {settings : Settings}
    (hsalt : settings.salt.length ≤ saltLenMax) (hrounds : settings.rounds.toNat < 10 ^ 9)
    (result : Vector UInt8 64) :
    KeepsAllocation (constructOutputVec A profile settings result)
      (constructOutput profile settings result) := by
  have hpush := pushRounds_nil profile (.inl hrounds) settings.roundsCustom
  have hsegment := (roundsSegment_length_le settings.rounds settings.roundsCustom).2 hrounds
  have hsize := saltSpecOutputSize_eq profile hsalt settings.roundsCustom
  have houtput : usizeAdd profile (specCapacity settings.salt.length settings.roundsCustom)
      sha512HashEncodedLength =
        .ok (specCapacity settings.salt.length settings.roundsCustom +
          sha512HashEncodedLength) := by
    apply usizeAdd_of_lt
    simp only [specCapacity, saltLenMax, sha512HashEncodedLength] at hsalt ⊢
    split <;> omega
  obtain ⟨v, hrun, hitems, hfreed⟩ := (((specFront_appending A profile hpush).then
    (appends_extendFromSlice A settings.salt)).then (appends_push A dollar)).then
      (appends_pushAll A (digestText result)) |>.fits A
        (n := specCapacity settings.salt.length settings.roundsCustom + sha512HashEncodedLength)
        (by
          simp only [List.length_append, List.length_singleton, digestText_length,
            sha512SaltPrefix_length, specCapacity]
          omega)
  refine ⟨v, ?_, ?_, hfreed⟩
  · simp only [bind_assoc, ok_bind] at hrun
    simp only [constructOutputVec, hsize, houtput, ok_bind, encodeResultVec, encodeResult_eq,
      List.nil_append, pure_eq_ok]
    exact hrun
  · simp only [constructOutput, hsize, houtput, ok_bind,
      pushRounds_append profile _ _ sha512SaltPrefix, hpush, encodeResult_eq, pure_eq_ok, hitems]

theorem customizedSpecVec_keeps (params : Sha512CryptParams) {salt : List UInt8}
    (hsalt : salt.length ≤ saltLenMax) :
    KeepsAllocation (customizedSpecVec A profile params salt)
      (pushRounds profile (decide (params.rounds ≠ roundsDefault)) params.rounds
        sha512SaltPrefix >>= fun spec => .ok (spec ++ salt)) := by
  have hsmall : params.rounds.toNat < 10 ^ 9 := params_lt params
  let roundsCustom := decide (params.rounds ≠ roundsDefault)
  have hpush := pushRounds_nil profile (.inl hsmall) roundsCustom
  have hsegment := (roundsSegment_length_le params.rounds roundsCustom).2 hsmall
  obtain ⟨v, hrun, hitems, hfreed⟩ := (specFront_appending A profile hpush).then
    (appends_extendFromSlice A salt) |>.fits A (n := specCapacity salt.length roundsCustom)
      (by
        simp only [List.length_append, sha512SaltPrefix_length, specCapacity]
        omega)
  refine ⟨v, ?_, ?_, hfreed⟩
  · simp only [customizedSpecVec, saltSpecOutputSize_eq profile hsalt, ok_bind, pure_eq_ok]
    exact hrun
  · rw [pushRounds_append, hpush, ok_bind, ok_bind, hitems]

theorem encodeCryptBase64Vec_keeps (input : BoundedBytes) :
    KeepsAllocation (encodeCryptBase64Vec A profile input.bytes)
      (encodeCryptBase64 profile input.bytes) := by
  have hcapacity : usizeMul profile ((input.bytes.length + 2) / 3) 4 =
      .ok ((input.bytes.length + 2) / 3 * 4) := by
    have hlt := lt_of_le_isizeMax input.length_le
    exact usizeMul_of_lt profile (by omega)
  have hchunks : Appending (fun v => (chunksOfThree input.bytes).foldlM (encodeChunkVec A) v)
      (cryptBase64 input.bytes) :=
    encodeChunkVec_appending A fun chunk hchunk => chunksOfThree_length_le hchunk
  obtain ⟨v, hrun, hitems, hfreed⟩ :=
    hchunks.fits A (n := (input.bytes.length + 2) / 3 * 4) (by
      rw [cryptBase64_length]
      omega)
  refine ⟨v, ?_, ?_, hfreed⟩
  · rw [encodeCryptBase64Vec, hcapacity, ok_bind]
    exact hrun
  · rw [encodeCryptBase64_eq profile input.length_le, hitems]

/-- What the vector of `hash` holds in front of the salt buffer is what `hash`
writes there, and the salt fits behind it, also for ten digits. -/
def KeepsSaltSpec (rounds : Option UInt32) (v : GrowableVec UInt8) : Prop :=
  v.freed = [] ∧ ∃ front, v.items = front ++ List.replicate saltLenMax 0 ∧
    ∀ generateSalt, buildSaltSpec profile generateSalt rounds =
      generateSalt (List.replicate saltLenMax 0) >>= fun buf => .ok (front ++ buf)

theorem resizedSaltSpecVec_underflow {rounds : Option UInt32}
    (h : 10 ^ 9 ≤ (rounds.getD roundsDefault).toNat) :
    resizedSaltSpecVec A .debug rounds = .error .arithmeticOverflow := by
  have hdefault : rounds.getD roundsDefault ≠ roundsDefault := by
    intro heq
    rw [heq] at h
    contradiction
  simp only [resizedSaltSpecVec, selectRounds_eq, decide_eq_true hdefault,
    saltSpecOutputSize_eq .debug le_rfl, ok_bind, pushRoundsVec, if_true, pushU32AsAsciiVec,
    pushU32AsAscii_underflow h, error_bind]

theorem resizedSaltSpecVec_of_printing {rounds : Option UInt32}
    (hprints : (rounds.getD roundsDefault).toNat < 10 ^ 9 ∨ profile = .release) :
    ∃ v, resizedSaltSpecVec A profile rounds = .ok v ∧ KeepsSaltSpec profile rounds v := by
  obtain ⟨roundsCustom, hcustom⟩ :
      ∃ custom, custom = decide (rounds.getD roundsDefault ≠ roundsDefault) := ⟨_, rfl⟩
  have hpush := pushRounds_nil profile hprints roundsCustom
  have hsegment := (roundsSegment_length_le (rounds.getD roundsDefault) roundsCustom).1
  obtain ⟨text, htext, hspec⟩ := pushRounds_roundsDigits profile hprints
  rw [← hcustom, pushRounds_append, hpush, ok_bind] at htext
  obtain rfl := Except.ok.inj htext
  obtain ⟨f, hf, hrun⟩ := specFront_appending A profile hpush
  have happends := hf.comp (appends_extendFromSlice A (List.replicate saltLenMax 0))
  obtain ⟨hitems, hfreed⟩ := happends.stays_of_le (A := A)
    (n := specCapacity saltLenMax roundsCustom) (by
      simp only [List.length_append, sha512SaltPrefix_length, List.length_replicate,
        specCapacity]
      omega)
  have hstop : usizeAdd profile
      (f (withCapacity A (specCapacity saltLenMax roundsCustom))).items.length saltLenMax =
        .ok ((f (withCapacity A (specCapacity saltLenMax roundsCustom))).items.length +
          saltLenMax) := by
    rw [hf.items_eq, withCapacity_items, List.nil_append, List.length_append,
      sha512SaltPrefix_length]
    apply usizeAdd_of_lt
    have hroom : (if roundsCustom then 17 else 0) ≤ 17 := by split <;> omega
    simp only [saltLenMax]
    omega
  have hfront := hrun (withCapacity A (specCapacity saltLenMax roundsCustom))
  simp only [resizedSaltSpecVec, selectRounds_eq, ← hcustom,
    saltSpecOutputSize_eq profile le_rfl, ok_bind, hfront, hstop, resize,
    Nat.add_sub_cancel_left, pure_eq_ok]
  refine ⟨_, rfl, hfreed, _, hitems, ?_⟩
  intro generateSalt
  rw [buildSaltSpec_eq profile generateSalt hprints]
  simp only [hspec]

theorem resizedSaltSpecVec_spec (rounds : Option UInt32) :
    (∀ v, resizedSaltSpecVec A profile rounds = .ok v → KeepsSaltSpec profile rounds v) ∧
    (∀ fault, resizedSaltSpecVec A profile rounds = .error fault →
      ∀ generateSalt, buildSaltSpec profile generateSalt rounds = .error fault) := by
  rcases em ((rounds.getD roundsDefault).toNat < 10 ^ 9 ∨ profile = .release) with
    hprints | hprints
  · obtain ⟨v, hrun, hkeeps⟩ := resizedSaltSpecVec_of_printing A profile hprints
    rw [hrun]
    constructor
    · rintro _ ⟨rfl⟩
      exact hkeeps
    · intro fault hfault
      contradiction
  · obtain ⟨rfl, hlarge⟩ := eq_debug_of_not_printing profile hprints
    rw [resizedSaltSpecVec_underflow A hlarge]
    constructor
    · intro v hv
      contradiction
    · rintro _ ⟨rfl⟩ generateSalt
      exact buildSaltSpec_underflow generateSalt hlarge

theorem rebuildSpecVec_moves_iff (rounds : Option (List UInt8)) (salt : List UInt8) :
    ∃ v, rebuildSpecVec A profile rounds salt = .ok v ∧ v.items = rebuildSpec rounds salt ∧
      (v.freed = [] ↔ (rebuildSpec rounds salt).length ≤
        A.withCapacity (specCapacity (min salt.length saltLenMax) rounds.isSome)) := by
  have hsize := saltSpecOutputSize_eq profile (Nat.min_le_right salt.length saltLenMax)
    rounds.isSome
  have hpos : 0 < specCapacity (min salt.length saltLenMax) rounds.isSome := by
    rw [specCapacity]
    omega
  cases rounds with
  | none =>
      have happends := (appends_extendFromSlice A sha512SaltPrefix).comp
        (appends_extendFromSlice A salt)
      refine ⟨_, ?_, happends.items_eq (withCapacity A _), happends.freed_eq_nil_iff hpos⟩
      simp only [rebuildSpecVec, hsize, ok_bind, pure_eq_ok]
  | some digits =>
      have happends := ((((appends_extendFromSlice A sha512SaltPrefix).comp
        (appends_extendFromSlice A sha512RoundsPrefix)).comp
          (appends_extendFromSlice A digits)).comp (appends_push A dollar)).comp
            (appends_extendFromSlice A salt)
      refine ⟨_, ?_, happends.items_eq (withCapacity A _), happends.freed_eq_nil_iff hpos⟩
      simp only [rebuildSpecVec, hsize, ok_bind, pure_eq_ok]

/-- P, S, the returned hash and the specifications made for hashing never leave
the allocation they start in, whatever the allocator gives beyond what was asked
for. So no copy of P or S escapes the clearing statements. -/
theorem vectors_keep_their_allocation (B : Backend) :
    (∀ (key : List UInt8) (salt : BoundedBytes), ∃ settings buffers,
      parseSettings profile salt.bytes = .ok settings ∧
      computeDigest profile B key settings.salt settings.rounds = .ok buffers ∧
      KeepsAllocation (fillSequenceVec A profile buffers.tempResultP key.length)
        (.ok buffers.pBytes) ∧
      KeepsAllocation (fillSequenceVec A profile buffers.tempResultS settings.salt.length)
        (.ok buffers.sBytes) ∧
      KeepsAllocation (constructOutputVec A profile settings buffers.result)
        (constructOutput profile settings buffers.result)) ∧
    (∀ rounds : Option UInt32,
      (∀ v, resizedSaltSpecVec A profile rounds = .ok v → KeepsSaltSpec profile rounds v) ∧
      (∀ fault, resizedSaltSpecVec A profile rounds = .error fault →
        ∀ generateSalt, buildSaltSpec profile generateSalt rounds = .error fault)) ∧
    (∀ (params : Sha512CryptParams) (salt : BoundedBytes),
      KeepsAllocation (encodeCryptBase64Vec A profile salt.bytes)
        (encodeCryptBase64 profile salt.bytes) ∧
      KeepsAllocation (customizedSpecVec A profile params (storedSalt salt.bytes))
        (pushRounds profile (decide (params.rounds ≠ roundsDefault)) params.rounds
          sha512SaltPrefix >>= fun spec => .ok (spec ++ storedSalt salt.bytes))) := by
  refine ⟨?_, ?_, ?_⟩
  · intro key salt
    let spec := SaltSpec.denote salt.bytes
    have hrounds : (settingsOf spec).rounds.toNat < 10 ^ 9 := by
      rw [settingsOf, toNat_effectiveRounds]
      exact Nat.lt_of_le_of_lt spec.effectiveRounds_mem.2 (by decide)
    have hp := fillSequenceVec_keeps A profile (keyBlock B.sha512 key) key.length
    have hs := fillSequenceVec_keeps A profile (saltBlock B.sha512 key spec.salt)
      spec.salt.length
    rw [fillSequence_eq] at hp hs
    exact ⟨settingsOf spec, _, parseSettings_eq profile salt.length_le,
      computeDigest_eq profile B key _ _, hp, hs,
      constructOutputVec_keeps A profile spec.salt_length_le hrounds _⟩
  · exact resizedSaltSpecVec_spec A profile
  · intro params salt
    exact ⟨encodeCryptBase64Vec_keeps A profile salt,
      customizedSpecVec_keeps A profile params (storedSalt_length_le salt.bytes)⟩

/-- The specification of `verify_password` holds the fields as found, while its
capacity is that of a hash in normal form. It moves exactly if the fields are
longer than the allocation. -/
theorem verify_spec_moves_iff (rounds : Option (List UInt8)) (salt : List UInt8) :
    (∃ v, rebuildSpecVec A profile rounds salt = .ok v ∧ v.items = rebuildSpec rounds salt ∧
      (v.freed = [] ↔ (rebuildSpec rounds salt).length ≤
        A.withCapacity (specCapacity (min salt.length saltLenMax) rounds.isSome))) ∧
    (∃ v, rebuildSpecVec .exact profile rounds salt = .ok v ∧
      (v.freed = [] ↔ match rounds with
        | none => salt.length ≤ 17
        | some digits => digits.length + salt.length ≤ 10 + min salt.length saltLenMax)) := by
  refine ⟨rebuildSpecVec_moves_iff A profile rounds salt, ?_⟩
  obtain ⟨v, hrun, _, hfreed⟩ := rebuildSpecVec_moves_iff .exact profile rounds salt
  refine ⟨v, hrun, hfreed.trans ?_⟩
  cases rounds with
  | none =>
      simp only [rebuildSpec, List.length_append, sha512SaltPrefix_length, Allocator.exact,
        specCapacity, saltLenMax, Option.isSome_none, Bool.false_eq_true, if_false]
      omega
  | some digits =>
      simp only [rebuildSpec, List.length_append, sha512SaltPrefix_length,
        sha512RoundsPrefix_length, List.length_singleton, Allocator.exact, specCapacity,
        Option.isSome_some, if_true]
      omega

end Capacities

end CryptSha512.BufferCapacities
