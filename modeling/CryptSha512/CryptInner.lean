import CryptSha512.AsciiNumbers
import CryptSha512.CryptBase64
import CryptSha512.CryptoBackend
import CryptSha512.DelimitedText
import CryptSha512.Utf8Text

/-!
The native API, from the settings parser of `crypt_inner` to `hash_with_salt`,
`hash` and `verify`. Sequences of statements that the source repeats, or that
form one of its loops, have a definition of their own.
-/

namespace CryptSha512.CryptInner

open CryptSha512.AsciiNumbers
open CryptSha512.CheckedExecution
open CryptSha512.CryptBase64
open CryptSha512.CryptoBackend
open CryptSha512.DelimitedText
open CryptSha512.Utf8Text

structure Password where
  bytes : List UInt8

namespace Password

def fromBytes (bytes : List UInt8) : Password := ⟨bytes⟩

def intoBytes (password : Password) : List UInt8 := password.bytes

end Password

/-- What a salt specification denotes. -/
structure Settings where
  salt : List UInt8
  rounds : UInt32
  roundsCustom : Bool

/-- A leading `$6$` is skipped. -/
def dropSaltPrefix (salt : List UInt8) : Exec (List UInt8) :=
  if sha512SaltPrefix.isPrefixOf salt then sliceFrom salt sha512SaltPrefix.length
  else pure salt

/-- `rounds=` and digits in front of a separator are taken as the round count.
Any other text, also one without the separator, is left for the salt. -/
def parseRounds (profile : Profile) (salt : List UInt8) : Exec Settings :=
  let unchanged : Settings := ⟨salt, roundsDefault, false⟩
  if sha512RoundsPrefix.isPrefixOf salt then do
    let rest ← sliceFrom salt sha512RoundsPrefix.length
    match position dollar rest with
    | none => pure unchanged
    | some dollarPos => do
        let digits ← sliceTo rest dollarPos
        match atoiU32 digits with
        | none => pure unchanged
        | some srounds => do
            let start ← usizeAdd profile dollarPos 1
            let salt ← sliceFrom rest start
            pure ⟨salt, clamp srounds roundsMin roundsMax, true⟩
  else pure unchanged

/-- The salt ends at the first separator, and after sixteen bytes at the
latest. -/
def cutSalt (salt : List UInt8) : Exec (List UInt8) :=
  let saltLen := min ((position dollar salt).getD salt.length) saltLenMax
  sliceTo salt saltLen

/-- The statements of `crypt_inner` that read its `salt` argument. -/
def parseSettings (profile : Profile) (salt : List UInt8) : Exec Settings := do
  let salt ← dropSaltPrefix salt
  let settings ← parseRounds profile salt
  let salt ← cutSalt settings.salt
  pure { settings with salt := salt }

section Digest

variable (profile : Profile) (B : Backend)

/-- The body of the loop that adds the alternate sum, on `(ctx, cnt)`. -/
def addBlock (result : Vector UInt8 64) (state : B.sha512Context.Context × Nat) :
    Exec (B.sha512Context.Context × Nat) := do
  let block ← sliceTo result.toList 64
  let cnt ← usizeSub profile state.2 64
  pure (B.sha512Context.update state.1 block, cnt)

/-- One byte of the alternate sum for each byte of the key. -/
def addAlternateSum (ctx : B.sha512Context.Context) (result : Vector UInt8 64)
    (keyLen : Nat) : Exec B.sha512Context.Context := do
  let state ← whileLoop (fun state => decide (64 < state.2)) (addBlock profile B result)
    keyLen (ctx, keyLen)
  let tail ← sliceTo result.toList state.2
  pure (B.sha512Context.update state.1 tail)

/-- The body of the loop over the binary representation of the key length. -/
def addBit (keyBytes : List UInt8) (result : Vector UInt8 64)
    (state : B.sha512Context.Context × Nat) : Exec (B.sha512Context.Context × Nat) := do
  let piece ← (if state.2 &&& 1 ≠ 0 then sliceTo result.toList 64 else pure keyBytes)
  pure (B.sha512Context.update state.1 piece, state.2 >>> 1)

/-- For each bit of the key length the alternate sum or the key. -/
def addLengthBits (ctx : B.sha512Context.Context) (keyBytes : List UInt8)
    (result : Vector UInt8 64) : Exec B.sha512Context.Context := do
  let state ← whileLoop (fun state => decide (0 < state.2)) (addBit B keyBytes result)
    keyBytes.length (ctx, keyBytes.length)
  pure state.1

/-- `for _ in 0..count { ctx.update(bytes); }` -/
def updateTimes (ctx : B.sha512Context.Context) (bytes : List UInt8) (count : Nat) :
    Exec B.sha512Context.Context :=
  forRange (fun _ ctx => pure (B.sha512Context.update ctx bytes)) count ctx

/-- The body of the loops that fill P and S, on `(bytes, cnt)`. -/
def fillBlock (tempResult : Vector UInt8 64) (state : List UInt8 × Nat) :
    Exec (List UInt8 × Nat) := do
  let block ← sliceTo tempResult.toList 64
  let cnt ← usizeSub profile state.2 64
  pure (state.1 ++ block, cnt)

/-- Creates the byte sequence P, and the byte sequence S. -/
def fillSequence (tempResult : Vector UInt8 64) (len : Nat) : Exec (List UInt8) := do
  let state ← whileLoop (fun state => decide (64 ≤ state.2)) (fillBlock profile tempResult)
    len ([], len)
  let tail ← sliceTo tempResult.toList state.2
  pure (state.1 ++ tail)

/-- The updates of one iteration of `for cnt in 0..rounds`. -/
def roundContext (pBytes sBytes : List UInt8) (cnt : Nat) (result : Vector UInt8 64) :
    Exec B.sha512Context.Context := do
  let ctx := B.sha512Context.new
  let piece ← (if cnt &&& 1 ≠ 0 then pure pBytes else sliceTo result.toList 64)
  let ctx := B.sha512Context.update ctx piece
  let ctx := if cnt % 3 ≠ 0 then B.sha512Context.update ctx sBytes else ctx
  let ctx := if cnt % 7 ≠ 0 then B.sha512Context.update ctx pBytes else ctx
  let piece ← (if cnt &&& 1 ≠ 0 then sliceTo result.toList 64 else pure pBytes)
  pure (B.sha512Context.update ctx piece)

/-- The buffers of `crypt_inner` that hold a digest or a byte sequence made from
one. The name `temp_result` is bound twice. -/
structure Buffers where
  result : Vector UInt8 64
  tempResultP : Vector UInt8 64
  tempResultS : Vector UInt8 64
  pBytes : List UInt8
  sBytes : List UInt8

section Finishing

variable {m : Type → Type} [Monad m] [MonadLiftT Exec m]
variable (finish : B.sha512Context.Context → m (Vector UInt8 64))

/-- One iteration of `for cnt in 0..rounds`. -/
def runRound (pBytes sBytes : List UInt8) (cnt : Nat) (result : Vector UInt8 64) :
    m (Vector UInt8 64) := do
  let ctx ← roundContext B pBytes sBytes cnt result
  finish ctx

/-- The digest part of `crypt_inner`, over what `ctx.finish()` does. -/
def computeDigestWith (keyBytes salt : List UInt8) (rounds : UInt32) : m Buffers := do
  let ctx := B.sha512Context.new
  let ctx := B.sha512Context.update ctx keyBytes
  let ctx := B.sha512Context.update ctx salt
  let ctx := B.sha512Context.update ctx keyBytes
  let result ← finish ctx
  let ctx := B.sha512Context.new
  let ctx := B.sha512Context.update ctx keyBytes
  let ctx := B.sha512Context.update ctx salt
  let ctx ← addAlternateSum profile B ctx result keyBytes.length
  let ctx ← addLengthBits B ctx keyBytes result
  let result ← finish ctx
  let ctx ← updateTimes B B.sha512Context.new keyBytes keyBytes.length
  let tempResultP ← finish ctx
  let pBytes ← fillSequence profile tempResultP keyBytes.length
  -- `result` is the intermediate result here, no longer the alternate sum
  let first ← getAt result.toList 0
  let count ← usizeAdd profile 16 first.toNat
  let ctx ← updateTimes B B.sha512Context.new salt count
  let tempResultS ← finish ctx
  let sBytes ← fillSequence profile tempResultS salt.length
  let result ← forRange (runRound B finish pBytes sBytes) rounds.toNat result
  pure ⟨result, tempResultP, tempResultS, pBytes, sBytes⟩

end Finishing

/-- The digest computation with nothing to observe it. -/
def computeDigest (keyBytes salt : List UInt8) (rounds : UInt32) : Exec Buffers :=
  computeDigestWith profile B (fun ctx => pure (B.sha512Context.finish ctx)) keyBytes salt rounds

/-- The statements that clear the sensitive buffers. -/
def Buffers.clearSensitive (zero : Overwrite) (buffers : Buffers) : Buffers :=
  { buffers with
    result := zero.digest buffers.result
    pBytes := zero.write buffers.pBytes
    sBytes := zero.write buffers.sBytes }

end Digest

/-- The rounds segment, as every builder of a salt specification writes it. -/
def pushRounds (profile : Profile) (roundsCustom : Bool) (rounds : UInt32)
    (output : List UInt8) : Exec (List UInt8) :=
  if roundsCustom then do
    let output ← pushU32AsAscii profile rounds (output ++ sha512RoundsPrefix)
    pure (output ++ [dollar])
  else pure output

/-- The string that is returned: the normalised settings and the encoded
digest. -/
def constructOutput (profile : Profile) (settings : Settings)
    (result : Vector UInt8 64) : Exec (List UInt8) := do
  let size ← saltSpecOutputSize profile settings.salt.length settings.roundsCustom
  let _outputSize ← usizeAdd profile size sha512HashEncodedLength
  let output ← pushRounds profile settings.roundsCustom settings.rounds sha512SaltPrefix
  pure (encodeResult result (output ++ settings.salt ++ [dollar]))

section NativeInterface

variable (profile : Profile) (B : Backend)

/-- `crypt_inner`: the returned text and the final contents of the buffers. -/
def cryptInnerWith (zero : Overwrite) (keyBytes salt : List UInt8) :
    Exec (List UInt8 × Buffers) := do
  let settings ← parseSettings profile salt
  let buffers ← computeDigest profile B keyBytes settings.salt settings.rounds
  let output ← constructOutput profile settings buffers.result
  pure (output, buffers.clearSensitive zero)

/-- `crypt_inner`, with the buffers it leaves behind. -/
def cryptInner (keyBytes salt : List UInt8) : Exec (List UInt8 × Buffers) :=
  cryptInnerWith profile B zeroing keyBytes salt

/-- The state in which `hash_with_salt` returns. -/
structure Returned where
  out : List UInt8
  keyBytes : List UInt8
  buffers : Buffers

/-- The body of `hash_with_salt`, over the function that clears buffers. -/
def hashWithSaltReturnedWith (zero : Overwrite) (password : Password) (salt : List UInt8) :
    Exec Returned := do
  let keyBytes := password.intoBytes
  let (out, buffers) ← cryptInnerWith profile B zero keyBytes salt
  pure ⟨out, zero.write keyBytes, buffers⟩

def hashWithSaltReturned (password : Password) (salt : List UInt8) : Exec Returned :=
  hashWithSaltReturnedWith profile B zeroing password salt

def hashWithSalt (password : Password) (salt : List UInt8) : Exec (List UInt8) := do
  let returned ← hashWithSaltReturned profile B password salt
  pure returned.out

/-- `match rounds { None | Some(ROUNDS_DEFAULT) => .., Some(r) => .. }` -/
def selectRounds (rounds : Option UInt32) : UInt32 × Bool :=
  match rounds with
  | none => (roundsDefault, false)
  | some r => if r = roundsDefault then (roundsDefault, false) else (r, true)

/-- The statements of `hash` in front of `hash_with_salt`. -/
def buildSaltSpec (generateSalt : List UInt8 → Exec (List UInt8)) (rounds : Option UInt32) :
    Exec (List UInt8) := do
  let r := selectRounds rounds
  let _capacity ← saltSpecOutputSize profile saltLenMax r.2
  let saltSpec ← pushRounds profile r.2 r.1 sha512SaltPrefix
  let saltStart := saltSpec.length
  let stop ← usizeAdd profile saltStart saltLenMax
  -- `resize` only ever extends here
  let saltSpec := saltSpec ++ List.replicate (stop - saltStart) 0
  let buf ← sliceFrom saltSpec saltStart
  let buf ← generateSalt buf
  pure (saltSpec.take saltStart ++ buf)

/-- `hash`. The round count is written as it was requested, and clamped only
when it is read back. -/
def hash (rng : Csprng) (password : Password) (rounds : Option UInt32) :
    Exec (List UInt8) := do
  let saltSpec ← buildSaltSpec profile (generateSalt rng) rounds
  hashWithSalt profile B password saltSpec

structure InvalidHash where
  deriving DecidableEq, Repr

/-- The statements of `verify` that extract the salt portion of a hash. -/
def extractSalt (hash : Str) : Exec (Except InvalidHash (List UInt8)) :=
  match stripPrefix sha512SaltPrefix hash.bytes with
  | none => pure (.error ⟨⟩)
  | some rest =>
      match rposition dollar rest with
      | none => pure (.error ⟨⟩)
      | some hashStart => do
          let stop ← usizeAdd profile sha512SaltPrefix.length hashStart
          let salt ← strSliceTo hash.bytes stop
          pure (.ok salt)

/-- The body of `verify` behind the extraction, over the functions it calls and
the drop of the password. -/
def verifyWith {m : Type → Type} [Monad m] (extracted : m (Except InvalidHash (List UInt8)))
    (dropPassword : m Unit) (hashWithSalt : List UInt8 → m (List UInt8))
    (constantTimeEq : List UInt8 → List UInt8 → Bool) (hash : Str) :
    m (Except InvalidHash Bool) := do
  match ← extracted with
  | .error invalid => do
      dropPassword
      pure (.error invalid)
  | .ok salt => do
      let computed ← hashWithSalt salt
      pure (.ok (constantTimeEq computed hash.bytes))

/-- `verify`: the hash is computed again from the settings in front of the last
separator, and the whole strings are compared. -/
def verify (password : Password) (hash : Str) : Exec (Except InvalidHash Bool) :=
  verifyWith (extractSalt profile hash) (pure ()) (hashWithSalt profile B password)
    B.constantTimeEq hash

end NativeInterface

end CryptSha512.CryptInner
