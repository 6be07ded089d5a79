import CryptSha512.CryptInner
import CryptSha512.DecimalText

/-!
The integration with the `password_hash` traits: parameters, hashing with raw
salts, and verification field by field. The `mcf` crate is a parameter, given by
what its parser promises.
-/

namespace CryptSha512.PasswordHashTraits

open CryptSha512.AsciiNumbers
open CryptSha512.CheckedExecution
open CryptSha512.CryptBase64
open CryptSha512.CryptInner
open CryptSha512.CryptoBackend
open CryptSha512.DecimalText
open CryptSha512.DelimitedText
open CryptSha512.Utf8Text

/-- The errors of `password_hash` that the integration returns. -/
inductive Error where
  | algorithm
  | encodingInvalid
  | paramInvalid (name : List UInt8)
  | paramsInvalid
  | passwordInvalid
  | saltInvalid
  | version
  deriving DecidableEq, Repr

def sha512CryptId : List UInt8 := ['6'.toUInt8]

theorem sha512SaltPrefix_eq : sha512SaltPrefix = dollar :: sha512CryptId ++ [dollar] := rfl

/-- The field is private, so that only counts in range are ever constructed. -/
structure Sha512CryptParams where
  rounds : UInt32
  rounds_mem : roundsMin ≤ rounds ∧ rounds ≤ roundsMax

namespace Sha512CryptParams

theorem rounds_mem_toNat (params : Sha512CryptParams) :
    1000 ≤ params.rounds.toNat ∧ params.rounds.toNat ≤ 999999999 :=
  ⟨UInt32.le_iff_toNat_le.mp params.rounds_mem.1,
    UInt32.le_iff_toNat_le.mp params.rounds_mem.2⟩

/-- The parameters of a hash without a rounds field. -/
def default : Sha512CryptParams := ⟨roundsDefault, by decide⟩

/-- `Sha512CryptParams::new`, which rejects what the core would clamp. -/
def new (rounds : UInt32) : Except Error Sha512CryptParams :=
  if h : roundsMin ≤ rounds ∧ rounds ≤ roundsMax then .ok ⟨rounds, h⟩
  else .error (.paramInvalid (['r', 'o', 'u', 'n', 'd', 's'].map Char.toUInt8))

/-- `Display`: what is appended to the formatter. -/
def fmt (self : Sha512CryptParams) (f : List UInt8) : List UInt8 :=
  f ++ sha512RoundsPrefix ++ decimal self.rounds.toNat

/-- `FromStr`. The empty text gives the default. -/
def fromStr (s : Str) : Except Error Sha512CryptParams :=
  if s.bytes.isEmpty then .ok default
  else match stripPrefix sha512RoundsPrefix s.bytes with
    | none => .error .paramsInvalid
    | some digits =>
        match atoiU32 digits with
        | none => .error (.paramInvalid (['r', 'o', 'u', 'n', 'd', 's'].map Char.toUInt8))
        | some rounds => new rounds

end Sha512CryptParams

/-- The hasher. Only hashing looks at its parameters. -/
structure Sha512Crypt where
  params : Sha512CryptParams

def Sha512Crypt.new (params : Sha512CryptParams) : Sha512Crypt := ⟨params⟩

/-- Fields written behind an identifier, with a separator in front of each. -/
def mcfText (id : List UInt8) (fields : List (List UInt8)) : List UInt8 :=
  dollar :: [dollar].intercalate (id :: fields)

/-- A parsed hash: an identifier and fields, as `id()` and `fields()` return
them. -/
structure PasswordHashRef where
  id : List UInt8
  fields : List (List UInt8)
  ascii : ∀ piece ∈ id :: fields, IsAscii piece
  dollar_not_mem : ∀ piece ∈ id :: fields, dollar ∉ piece
  length_le : (mcfText id fields).length ≤ isizeMax

def PasswordHashRef.asStr (hash : PasswordHashRef) : List UInt8 :=
  mcfText hash.id hash.fields

/-- The parser of `mcf`: a hash it returns reads as the text it was given. -/
structure Mcf where
  new : List UInt8 → Option PasswordHashRef
  asStr_of_new : ∀ {text hash}, new text = some hash → hash.asStr = text

/-- `mcf` accepts the identifier `6` followed by non-empty fields over the crypt
alphabet and `=`. -/
def Mcf.AcceptsCrypt (mcf : Mcf) : Prop :=
  ∀ fields : List (List UInt8), fields ≠ [] →
    (∀ field ∈ fields, field ≠ [] ∧
      ∀ byte ∈ field, byte ∈ b64Chars.toList ∨ byte = '='.toUInt8) →
    (mcfText sha512CryptId fields).length ≤ isizeMax →
    (mcf.new (mcfText sha512CryptId fields)).isSome = true

/-- A parser that splits at every separator. -/
def Mcf.splitting : Mcf where
  new text :=
    match (text.drop 1).splitOn dollar with
    | [] => none
    | id :: fields =>
        if h : (∀ piece ∈ id :: fields, IsAscii piece) ∧
            (∀ piece ∈ id :: fields, dollar ∉ piece) ∧
            mcfText id fields = text ∧ text.length ≤ isizeMax ∧ fields ≠ [] then
          some ⟨id, fields, h.1, h.2.1, by rw [h.2.2.1]; exact h.2.2.2.1⟩
        else none
  asStr_of_new := by
    intro text hash hnew
    split at hnew
    · contradiction
    · split at hnew
      · rename_i h
        obtain rfl := Option.some.inj hnew
        exact h.2.2.1
      · contradiction

theorem Mcf.splitting_acceptsCrypt : Mcf.splitting.AcceptsCrypt := by
  intro fields hne hfields hlength
  have hequals : '='.toUInt8 < 128 ∧ '='.toUInt8 ≠ dollar := by decide
  have hid : IsAscii sha512CryptId ∧ dollar ∉ sha512CryptId := by decide
  have hascii : ∀ piece ∈ sha512CryptId :: fields, IsAscii piece := by
    intro piece hpiece byte hbyte
    rcases List.mem_cons.mp hpiece with rfl | hpiece
    · exact hid.1 byte hbyte
    · rcases (hfields piece hpiece).2 byte hbyte with halphabet | rfl
      · exact ascii_of_mem_alphabet halphabet
      · exact hequals.1
  have hdollar : ∀ piece ∈ sha512CryptId :: fields, dollar ∉ piece := by
    intro piece hpiece hmem
    rcases List.mem_cons.mp hpiece with rfl | hpiece
    · exact hid.2 hmem
    · rcases (hfields piece hpiece).2 dollar hmem with halphabet | hdollar
      · exact dollar_not_mem_alphabet halphabet
      · exact hequals.2 hdollar.symm
  have hsplit : ((mcfText sha512CryptId fields).drop 1).splitOn dollar =
      sha512CryptId :: fields := by
    rw [mcfText, List.drop_one, List.tail_cons]
    exact List.splitOn_intercalate dollar hdollar (by simp)
  simp only [Mcf.splitting, hsplit]
  rw [dif_pos ⟨hascii, hdollar, trivial, hlength, hne⟩]
  rfl

/-- `fields.next().ok_or(Error::EncodingInvalid)?` -/
def nextField : List (List UInt8) → Except Error (List UInt8 × List (List UInt8))
  | [] => .error .encodingInvalid
  | field :: fields => .ok (field, fields)

/-- The digits of the rounds field, if the first field is one, and the fields
that are left. -/
def takeRounds (first : List UInt8) (fields : List (List UInt8)) :
    Except Error (Option (List UInt8) × List UInt8 × List (List UInt8)) :=
  match stripPrefix sha512RoundsPrefix first with
  | some rest =>
      if ¬ rest.isEmpty ∧ rest.all isDigit then do
        let (salt, fields) ← nextField fields
        .ok (some rest, salt, fields)
      else .ok (none, first, fields)
  | none => .ok (none, first, fields)

/-- The fields of a hash as rounds, salt and expected digest. -/
def splitFields (fields : List (List UInt8)) :
    Except Error (Option (List UInt8) × List UInt8 × List UInt8) := do
  let (first, fields) ← nextField fields
  let (rounds, salt, fields) ← takeRounds first fields
  let (expected, fields) ← nextField fields
  if fields.isEmpty then .ok (rounds, salt, expected) else .error .encodingInvalid

/-- The salt specification, rebuilt exactly as found. -/
def rebuildSpec (rounds : Option (List UInt8)) (salt : List UInt8) : List UInt8 :=
  match rounds with
  | some rounds => sha512SaltPrefix ++ sha512RoundsPrefix ++ rounds ++ [dollar] ++ salt
  | none => sha512SaltPrefix ++ salt

/-- What stands behind the last separator of the recomputed text. -/
def digestField (profile : Profile) (computed : List UInt8) : Exec (List UInt8) := do
  let digestStart ← (match rposition dollar computed with
    | some i => usizeAdd profile i 1
    | none => pure 0)
  sliceFrom computed digestStart

section Bodies

variable {m : Type → Type} [Monad m] [MonadLiftT Exec m]
variable (profile : Profile) (hashWithSalt : Password → List UInt8 → m (List UInt8))
variable (constantTimeEq : List UInt8 → List UInt8 → Bool) (mcf : Mcf)

/-- The body of `hash_password_customized`, over the function that hashes. The
parameter `version` has the type `u32` of `password_hash::Version`. -/
def hashPasswordCustomizedWith (password salt : List UInt8) (algorithm : Option (List UInt8))
    (version : Option UInt32) (params : Sha512CryptParams) :
    m (Except Error PasswordHashRef) :=
  if algorithm ≠ none ∧ algorithm ≠ some sha512CryptId then pure (.error .algorithm)
  else if version.isSome then pure (.error .version)
  else if salt.isEmpty then pure (.error .saltInvalid)
  else do
    let encoded ← encodeCryptBase64 profile salt
    let salt := encoded.take saltLenMax
    let roundsCustom := decide (params.rounds ≠ roundsDefault)
    let _capacity ← saltSpecOutputSize profile salt.length roundsCustom
    let spec ← pushRounds profile roundsCustom params.rounds sha512SaltPrefix
    let hash ← hashWithSalt (.fromBytes password) (spec ++ salt)
    match mcf.new hash with
    | some hash => pure (.ok hash)
    | none => pure (.error .encodingInvalid)

/-- The body of `verify_password` on a parsed hash, over the functions it calls. -/
def verifyPasswordRefWith (password : List UInt8) (hash : PasswordHashRef) :
    m (Except Error Unit) :=
  if hash.id ≠ sha512CryptId then pure (.error .algorithm)
  else match splitFields hash.fields with
    | .error error => pure (.error error)
    | .ok (rounds, salt, expected) => do
        let _capacity ← saltSpecOutputSize profile (min salt.length saltLenMax) rounds.isSome
        let computed ← hashWithSalt (.fromBytes password) (rebuildSpec rounds salt)
        let digest ← digestField profile computed
        if constantTimeEq digest expected then pure (.ok ())
        else pure (.error .passwordInvalid)

/-- The body of `verify_password` on a string. -/
def verifyPasswordWith (password : List UInt8) (hash : Str) : m (Except Error Unit) :=
  match mcf.new hash.bytes with
  | none => pure (.error .encodingInvalid)
  | some hash => verifyPasswordRefWith profile hashWithSalt constantTimeEq password hash

end Bodies

section Traits

variable (profile : Profile) (B : Backend) (mcf : Mcf)

def hashPasswordCustomized (_self : Sha512Crypt) (password salt : List UInt8)
    (algorithm : Option (List UInt8)) (version : Option UInt32)
    (params : Sha512CryptParams) : Exec (Except Error PasswordHashRef) :=
  hashPasswordCustomizedWith profile (hashWithSalt profile B) mcf password salt algorithm version
    params

def hashPasswordWithSalt (self : Sha512Crypt) (password salt : List UInt8) :
    Exec (Except Error PasswordHashRef) :=
  hashPasswordCustomized profile B mcf self password salt none none self.params

/-- `verify_password` on a parsed hash. -/
def verifyPasswordRef (_self : Sha512Crypt) (password : List UInt8) (hash : PasswordHashRef) :
    Exec (Except Error Unit) :=
  verifyPasswordRefWith profile (hashWithSalt profile B) B.constantTimeEq password hash

/-- `verify_password` on a string. -/
def verifyPassword (_self : Sha512Crypt) (password : List UInt8) (hash : Str) :
    Exec (Except Error Unit) :=
  verifyPasswordWith profile (hashWithSalt profile B) B.constantTimeEq mcf password hash

end Traits

end CryptSha512.PasswordHashTraits
