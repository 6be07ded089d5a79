import CryptSha512.HashGeneration

namespace CryptSha512.BackendModules

open CryptSha512.AsciiNumbers
open CryptSha512.CheckedExecution
open CryptSha512.CryptBase64
open CryptSha512.CryptInner
open CryptSha512.CryptRefinement
open CryptSha512.CryptoBackend
open CryptSha512.HashContexts
open CryptSha512.HashGeneration
open CryptSha512.PasswordHashTraits
open CryptSha512.SaltSpecBuilding
open CryptSha512.TraitVerification
open CryptSha512.Utf8Text

/-- The crate-private interface that every module exposes. -/
structure BackendModule where
  sha512Context : StreamingDigest (Vector UInt8 64)
  constantTimeEq : List UInt8 → List UInt8 → Bool
  randomBytes : List UInt8 → Exec (List UInt8)
  secureZeroBytes : Overwrite

/-- The functions of a libcrypto. Those that write to a region give its new
contents, and `RAND_bytes` also a return code, if it returns. -/
structure LibCrypto where
  sha512 : StreamingDigest (Vector UInt8 64)
  cryptoMemcmp : List UInt8 → List UInt8 → Nat → Int
  randBytes : List UInt8 → Nat → Exec (List UInt8 × Int)
  randBytes_length : ∀ {buf left n rc}, randBytes buf n = .ok (left, rc) →
    left.length = buf.length
  opensslCleanse : List UInt8 → Nat → List UInt8
  opensslCleanse_length : ∀ data n, (opensslCleanse data n).length = data.length

/-- `c_int::MAX` -/
def cIntMax : Nat := 2 ^ 31 - 1

namespace LibCrypto

/-- What the modules count on, whatever `RAND_bytes` does. -/
structure Documented (C : LibCrypto) : Prop where
  cryptoMemcmp_eq_zero_iff : ∀ a b : List UInt8, a.length = b.length →
    (C.cryptoMemcmp a b a.length = 0 ↔ a = b)
  opensslCleanse_eq : ∀ data, C.opensslCleanse data data.length = List.replicate data.length 0

/-- aws-lc and BoringSSL abort the process. Here this is the fault `entropy`, as
is a panic that unwinds: neither leaves a result. -/
def AbortsWithoutEntropy (C : LibCrypto) (rng : Csprng) : Prop :=
  ∀ buf, C.randBytes buf buf.length =
    match rng.fill buf.length with
    | some bytes => .ok (bytes, 1)
    | none => .error .entropy

/-- OpenSSL returns, with another code than one. Its length is a `c_int`. -/
def ReportsMissingEntropy (C : LibCrypto) (rng : Csprng) : Prop :=
  ∀ buf, buf.length ≤ cIntMax → match rng.fill buf.length with
    | some bytes => C.randBytes buf buf.length = .ok (bytes, 1)
    | none => ∃ left rc, C.randBytes buf buf.length = .ok (left, rc) ∧ rc ≠ 1

/-- The libcrypto over a hash function and a source of random bytes, of the kind
that aborts without entropy or of the kind that reports it. -/
def ofSource (sha512 : List UInt8 → Vector UInt8 64) (rng : Csprng) (aborts : Bool) :
    LibCrypto where
  sha512 := .buffered sha512
  cryptoMemcmp a b n := if a.take n = b.take n then 0 else 1
  randBytes buf n :=
    match rng.fill n with
    | some bytes => .ok ((bytes ++ buf.drop n).take buf.length, 1)
    | none => if aborts then .error .entropy else .ok (buf, 0)
  randBytes_length := by
    intro buf left n rc h
    cases hfill : rng.fill n with
    | some bytes =>
        rw [hfill] at h
        obtain ⟨rfl, _⟩ := Prod.mk.inj (Except.ok.inj h)
        have hbytes := rng.fill_length hfill
        simp only [List.length_take, List.length_append, List.length_drop]
        omega
    | none =>
        rw [hfill] at h
        cases aborts with
        | true => contradiction
        | false =>
            obtain ⟨rfl, _⟩ := Prod.mk.inj (Except.ok.inj h)
            rfl
  opensslCleanse data n := List.replicate (min n data.length) 0 ++ data.drop n
  opensslCleanse_length data n := by
    simp only [List.length_append, List.length_replicate, List.length_drop]
    omega

variable (sha512 : List UInt8 → Vector UInt8 64) (rng : Csprng)

theorem ofSource_documented (aborts : Bool) : (ofSource sha512 rng aborts).Documented where
  cryptoMemcmp_eq_zero_iff a b hlength := by
    simp only [ofSource, List.take_length, List.take_of_length_le hlength.ge]
    split <;> simp [*]
  opensslCleanse_eq data := by simp [ofSource]

theorem ofSource_randBytes {buf bytes : List UInt8} (aborts : Bool)
    (h : rng.fill buf.length = some bytes) :
    (ofSource sha512 rng aborts).randBytes buf buf.length = .ok (bytes, 1) := by
  have hwhole : (bytes ++ buf.drop buf.length).take buf.length = bytes := by
    simp [rng.fill_length h]
  simp only [ofSource, h, hwhole]

theorem ofSource_aborts : (ofSource sha512 rng true).AbortsWithoutEntropy rng := by
  intro buf
  cases h : rng.fill buf.length with
  | some bytes => exact ofSource_randBytes sha512 rng true h
  | none => simp [ofSource, h]

theorem ofSource_reports : (ofSource sha512 rng false).ReportsMissingEntropy rng := by
  intro buf _
  cases h : rng.fill buf.length with
  | some bytes => exact ofSource_randBytes sha512 rng false h
  | none => exact ⟨buf, 0, by simp [ofSource, h], by decide⟩

end LibCrypto

section Ffi

variable (C : LibCrypto)

/-- `constant_time_eq` over `CRYPTO_memcmp`. -/
def ffiConstantTimeEq : List UInt8 → List UInt8 → Bool :=
  constantTimeEqWith fun a b => C.cryptoMemcmp a b a.length == 0

/-- `secure_zero_bytes` over `OPENSSL_cleanse`, which never sees an empty
region. -/
def ffiSecureZeroBytes : Overwrite where
  write data := if ¬ data.isEmpty then C.opensslCleanse data data.length else data
  write_length data := by
    split
    · exact C.opensslCleanse_length data data.length
    · rfl

/-- `random_bytes` over a `RAND_bytes` that aborts. The code is not looked at. -/
def ffiRandomBytes (buf : List UInt8) : Exec (List UInt8) := do
  let (buf, _rc) ← C.randBytes buf buf.length
  pure buf

/-- `try_into()` for a `c_int`, and the `expect` behind it. -/
def cIntLength (len : Nat) : Exec Nat := if len ≤ cIntMax then .ok len else .error .entropy

/-- `random_bytes` over a `RAND_bytes` that returns without entropy. Any code
but one is a panic. -/
def opensslRandomBytes (buf : List UInt8) : Exec (List UInt8) := do
  let len ← cIntLength buf.length
  let (buf, rc) ← C.randBytes buf len
  if rc = 1 then pure buf else .error .entropy

def awsLc : BackendModule :=
  ⟨C.sha512, ffiConstantTimeEq C, ffiRandomBytes C, ffiSecureZeroBytes C⟩

/-- The same statements as in `aws_lc`, over `boring_sys`. -/
def boring : BackendModule :=
  ⟨C.sha512, ffiConstantTimeEq C, ffiRandomBytes C, ffiSecureZeroBytes C⟩

/-- The module `openssl`, the only one that looks at the code of `RAND_bytes`.
-/
def openssl : BackendModule :=
  ⟨C.sha512, ffiConstantTimeEq C, opensslRandomBytes C, ffiSecureZeroBytes C⟩

end Ffi

/-- What the pure Rust module imports from `sha2`, `subtle`, `getrandom` and
`zeroize`. -/
structure RustCrates where
  sha512 : StreamingDigest (Vector UInt8 64)
  ctEq : List UInt8 → List UInt8 → Bool
  getrandomFill : List UInt8 → Option (List UInt8)
  zeroize : List UInt8 → List UInt8
  zeroize_length : ∀ data, (zeroize data).length = data.length

namespace RustCrates

/-- What the module counts on. -/
structure Documented (R : RustCrates) (rng : Csprng) : Prop where
  ctEq_iff : ∀ a b, R.ctEq a b = true ↔ a = b
  getrandomFill_eq : ∀ buf, R.getrandomFill buf = rng.fill buf.length
  zeroize_eq : ∀ data, R.zeroize data = List.replicate data.length 0

/-- The crates over a hash function and a source of random bytes. -/
def ofSource (sha512 : List UInt8 → Vector UInt8 64) (rng : Csprng) : RustCrates where
  sha512 := .buffered sha512
  ctEq a b := a == b
  getrandomFill buf := rng.fill buf.length
  zeroize data := List.replicate data.length 0
  zeroize_length _ := List.length_replicate

theorem ofSource_documented (sha512 : List UInt8 → Vector UInt8 64) (rng : Csprng) :
    (ofSource sha512 rng).Documented rng :=
  ⟨fun _ _ => beq_iff_eq, fun _ => rfl, fun _ => rfl⟩

end RustCrates

/-- The module `rust_crypto`, whose `random_bytes` panics when `getrandom`
fails. -/
def rustCrypto (R : RustCrates) : BackendModule where
  sha512Context := R.sha512
  constantTimeEq := constantTimeEqWith R.ctEq
  randomBytes buf :=
    match R.getrandomFill buf with
    | some bytes => .ok bytes
    | none => .error .entropy
  secureZeroBytes := ⟨R.zeroize, R.zeroize_length⟩

/-- A module does what its callers count on, for a hash function and a source of
random bytes. -/
structure BackendModule.Implements (M : BackendModule)
    (sha512 : List UInt8 → Vector UInt8 64) (rng : Csprng) : Prop where
  sha512_eq : M.sha512Context.digest = sha512
  constantTimeEq_eq : ∀ a b, M.constantTimeEq a b = decide (a = b)
  randomBytes_eq : ∀ buf, buf.length ≤ cIntMax → M.randomBytes buf =
    CryptoBackend.randomBytes rng buf
  secureZeroBytes_eq : M.secureZeroBytes = zeroing

section Implementations

variable {C : LibCrypto} {rng : Csprng}

theorem ffiConstantTimeEq_eq (hdoc : C.Documented) (a b : List UInt8) :
    ffiConstantTimeEq C a b = decide (a = b) := by
  apply constantTimeEqWith_eq_decide
  intro a b hlength
  rw [beq_iff_eq]
  exact hdoc.cryptoMemcmp_eq_zero_iff a b hlength

theorem ffiSecureZeroBytes_eq (hdoc : C.Documented) : ffiSecureZeroBytes C = zeroing := by
  apply Overwrite.ext
  funext data
  simp only [ffiSecureZeroBytes, zeroing, secureZeroBytes]
  split
  · exact hdoc.opensslCleanse_eq data
  · rename_i hempty
    obtain rfl : data = [] := by simpa using hempty
    rfl

theorem ffiRandomBytes_eq (hrng : C.AbortsWithoutEntropy rng) (buf : List UInt8) :
    ffiRandomBytes C buf = randomBytes rng buf := by
  rw [ffiRandomBytes, hrng buf, randomBytes]
  cases rng.fill buf.length with
  | none => rfl
  | some bytes => rfl

theorem opensslRandomBytes_eq (hrng : C.ReportsMissingEntropy rng) {buf : List UInt8}
    (hlength : buf.length ≤ cIntMax) : opensslRandomBytes C buf = randomBytes rng buf := by
  have hfill := hrng buf hlength
  rw [opensslRandomBytes, cIntLength, if_pos hlength, ok_bind, randomBytes]
  cases hbytes : rng.fill buf.length with
  | some bytes =>
      rw [hbytes] at hfill
      rw [hfill]
      rfl
  | none =>
      rw [hbytes] at hfill
      obtain ⟨left, rc, hreturn, hrc⟩ := hfill
      rw [hreturn]
      exact if_neg hrc

theorem awsLc_implements (hdoc : C.Documented) (hrng : C.AbortsWithoutEntropy rng) :
    (awsLc C).Implements C.sha512.digest rng :=
  ⟨rfl, ffiConstantTimeEq_eq hdoc, fun buf _ => ffiRandomBytes_eq hrng buf,
    ffiSecureZeroBytes_eq hdoc⟩

theorem openssl_implements (hdoc : C.Documented) (hrng : C.ReportsMissingEntropy rng) :
    (openssl C).Implements C.sha512.digest rng :=
  ⟨rfl, ffiConstantTimeEq_eq hdoc, fun _ => opensslRandomBytes_eq hrng,
    ffiSecureZeroBytes_eq hdoc⟩

theorem rustCrypto_implements {R : RustCrates} (hdoc : R.Documented rng) :
    (rustCrypto R).Implements R.sha512.digest rng := by
  refine ⟨rfl, constantTimeEqWith_eq_decide fun a b _ => hdoc.ctEq_iff a b, ?_,
    Overwrite.ext (funext hdoc.zeroize_eq)⟩
  intro buf _
  have hfill := hdoc.getrandomFill_eq buf
  cases hbytes : rng.fill buf.length with
  | none =>
      rw [hbytes] at hfill
      simp only [rustCrypto, hfill, CryptoBackend.randomBytes, hbytes]
  | some bytes =>
      rw [hbytes] at hfill
      simp only [rustCrypto, hfill, CryptoBackend.randomBytes, hbytes]

end Implementations

section Api

variable (profile : Profile) (M : BackendModule)

/-- What `crypt_inner` uses of a module. -/
def BackendModule.core : Backend where
  sha512Context := M.sha512Context
  memEq a b := decide (a = b)
  memEq_iff _ _ _ := decide_eq_true_iff

def generateSaltOver : List UInt8 → Exec (List UInt8) := generateSaltWith M.randomBytes

/-- `hash_with_salt`, where the module also clears the buffers. -/
def hashWithSaltReturnedOver (password : Password) (salt : List UInt8) : Exec Returned :=
  hashWithSaltReturnedWith profile M.core M.secureZeroBytes password salt

def hashWithSaltOver (password : Password) (salt : List UInt8) : Exec (List UInt8) := do
  let returned ← hashWithSaltReturnedOver profile M password salt
  pure returned.out

def hashOver (password : Password) (rounds : Option UInt32) : Exec (List UInt8) := do
  let saltSpec ← buildSaltSpec profile (generateSaltOver M) rounds
  hashWithSaltOver profile M password saltSpec

def verifyOver (password : Password) (hash : Str) : Exec (Except InvalidHash Bool) :=
  verifyWith (extractSalt profile hash) (pure ()) (hashWithSaltOver profile M password)
    M.constantTimeEq hash

variable (mcf : Mcf)

def hashPasswordCustomizedOver (_self : Sha512Crypt) (password salt : List UInt8)
    (algorithm : Option (List UInt8)) (version : Option UInt32)
    (params : Sha512CryptParams) : Exec (Except Error PasswordHashRef) :=
  hashPasswordCustomizedWith profile (hashWithSaltOver profile M) mcf password salt algorithm
    version params

def verifyPasswordRefOver (_self : Sha512Crypt) (password : List UInt8)
    (hash : PasswordHashRef) : Exec (Except Error Unit) :=
  verifyPasswordRefWith profile (hashWithSaltOver profile M) M.constantTimeEq password hash

def verifyPasswordOver (_self : Sha512Crypt) (password : List UInt8) (hash : Str) :
    Exec (Except Error Unit) :=
  verifyPasswordWith profile (hashWithSaltOver profile M) M.constantTimeEq mcf password hash

end Api

/-- The functions over a module are those over a backend and a source of random
bytes, so that what is known of the latter holds of the former. -/
structure Realizes (M : BackendModule) (B : Backend) (rng : Csprng) : Prop where
  hashWithSaltReturned_eq : ∀ (profile : Profile) (password : Password) (salt : BoundedBytes),
    hashWithSaltReturnedOver profile M password salt.bytes =
      hashWithSaltReturned profile B password salt.bytes
  hashWithSalt_eq : ∀ (profile : Profile) (password : Password) (salt : BoundedBytes),
    hashWithSaltOver profile M password salt.bytes = hashWithSalt profile B password salt.bytes
  hash_eq : ∀ (profile : Profile) (password : Password) (rounds : Option UInt32),
    hashOver profile M password rounds = hash profile B rng password rounds
  verify_eq : ∀ (profile : Profile) (password : Password) (text : Str),
    verifyOver profile M password text = verify profile B password text
  hashPasswordCustomized_eq : ∀ (profile : Profile) (mcf : Mcf) (self : Sha512Crypt)
    (password : List UInt8) (salt : BoundedBytes) (algorithm : Option (List UInt8))
    (version : Option UInt32) (params : Sha512CryptParams),
    hashPasswordCustomizedOver profile M mcf self password salt.bytes algorithm version params =
      hashPasswordCustomized profile B mcf self password salt.bytes algorithm version params
  verifyPassword_eq : ∀ (profile : Profile) (mcf : Mcf) (self : Sha512Crypt)
    (password : List UInt8) (text : Str),
    verifyPasswordOver profile M mcf self password text =
      verifyPassword profile B mcf self password text

section Realizations

variable {M : BackendModule} {B : Backend} {rng : Csprng}

theorem hashWithSaltReturnedOver_eq (profile : Profile) (h : M.Implements B.sha512 rng)
    (password : Password) {salt : List UInt8} (hlength : salt.length ≤ isizeMax) :
    hashWithSaltReturnedOver profile M password salt =
      hashWithSaltReturned profile B password salt := by
  have hsha512 : M.core.sha512 = B.sha512 := h.sha512_eq
  rw [hashWithSaltReturnedOver, hashWithSaltReturned, h.secureZeroBytes_eq,
    hashWithSaltReturnedWith_eq profile M.core zeroing password hlength,
    hashWithSaltReturnedWith_eq profile B zeroing password hlength, hsha512]

theorem hashWithSaltOver_eq (profile : Profile) (hsha512 : M.core.sha512 = B.sha512)
    (password : Password) {salt : List UInt8} (hlength : salt.length ≤ isizeMax) :
    hashWithSaltOver profile M password salt = hashWithSalt profile B password salt := by
  rw [hashWithSaltOver, hashWithSaltReturnedOver,
    hashWithSaltReturnedWith_eq profile M.core M.secureZeroBytes password hlength,
    CryptRefinement.hashWithSalt_eq profile B password hlength, hsha512]
  rfl

theorem hashOver_eq (profile : Profile) (h : M.Implements B.sha512 rng) (password : Password)
    (rounds : Option UInt32) :
    hashOver profile M password rounds = hash profile B rng password rounds := by
  have hdraw : generateSaltOver M (List.replicate saltLenMax 0) =
      generateSalt rng (List.replicate saltLenMax 0) := by
    rw [generateSaltOver, generateSalt, generateSaltWith, generateSaltWith,
      h.randomBytes_eq _ (by decide)]
  rw [CryptInner.hash, hashOver, buildSaltSpec_congr profile hdraw]
  cases hspec : buildSaltSpec profile (generateSalt rng) rounds with
  | error fault => rfl
  | ok saltSpec =>
      have hlength := buildSaltSpec_length_le profile generateSalt_length hspec
      exact hashWithSaltOver_eq profile h.sha512_eq password hlength

theorem verifyOver_eq (profile : Profile) (h : M.Implements B.sha512 rng) (password : Password)
    (text : Str) : verifyOver profile M password text = verify profile B password text := by
  rw [verifyOver, verify, verifyWith, verifyWith]
  cases hextract : extractSalt profile text with
  | error fault => rfl
  | ok extracted =>
      cases extracted with
      | error invalid => rfl
      | ok salt =>
          have hlength := extractSalt_length_le profile hextract
          simp only [ok_bind, hashWithSaltOver_eq profile h.sha512_eq password hlength,
            h.constantTimeEq_eq, B.constantTimeEq_eq_decide]

theorem hashPasswordCustomizedOver_eq (profile : Profile) (hsha512 : M.core.sha512 = B.sha512)
    (mcf : Mcf) (self : Sha512Crypt) (password : List UInt8) (salt : BoundedBytes)
    (algorithm : Option (List UInt8)) (version : Option UInt32) (params : Sha512CryptParams) :
    hashPasswordCustomizedOver profile M mcf self password salt.bytes algorithm version params =
      hashPasswordCustomized profile B mcf self password salt.bytes algorithm version
        params := by
  rw [hashPasswordCustomizedOver, hashPasswordCustomized]
  rcases em ((algorithm = none ∨ algorithm = some sha512CryptId) ∧ version = none ∧
      salt.bytes ≠ []) with ⟨halgorithm, rfl, hsalt⟩ | hrejected
  · have hlength :=
      rebuildSpec_roundsDigits_fits params.rounds (storedSalt_length_le salt.bytes)
    rw [hashPasswordCustomizedWith_of_accepted profile _ mcf password salt hsalt halgorithm params,
      hashPasswordCustomizedWith_of_accepted profile _ mcf password salt hsalt halgorithm params,
      hashWithSaltOver_eq profile hsha512 _ hlength]
  · obtain ⟨error, herror⟩ := hashPasswordCustomizedWith_of_rejected hrejected
    rw [herror, herror]

theorem verifyPasswordRefOver_eq (profile : Profile) (h : M.Implements B.sha512 rng)
    (self : Sha512Crypt) (password : List UInt8) (hash : PasswordHashRef) :
    verifyPasswordRefOver profile M self password hash =
      verifyPasswordRef profile B self password hash := by
  rw [verifyPasswordRefOver, verifyPasswordRef]
  rcases eq_or_ne hash.id sha512CryptId with hid | hid
  · obtain ⟨digits, rest, hfields⟩ := splitsRounds_exists hash.fields
    rcases eq_or_ne rest.length 2 with hlength | hlength
    · obtain ⟨salt, expected, rfl⟩ := List.length_eq_two.mp hlength
      rw [verifyPasswordRefWith_of_fields profile _ _ _ hid hfields,
        verifyPasswordRefWith_of_fields profile _ _ _ hid hfields,
        hashWithSaltOver_eq profile h.sha512_eq _ (rebuildSpec_length_le hid hfields)]
      simp only [h.constantTimeEq_eq, B.constantTimeEq_eq_decide]
    · rw [verifyPasswordRefWith_of_length_ne profile _ _ _ hid hfields hlength,
        verifyPasswordRefWith_of_length_ne profile _ _ _ hid hfields hlength]
  · rw [verifyPasswordRefWith_of_id_ne profile _ _ _ hid,
      verifyPasswordRefWith_of_id_ne profile _ _ _ hid]

theorem verifyPasswordOver_eq (profile : Profile) (h : M.Implements B.sha512 rng) (mcf : Mcf)
    (self : Sha512Crypt) (password : List UInt8) (text : Str) :
    verifyPasswordOver profile M mcf self password text =
      verifyPassword profile B mcf self password text := by
  rw [verifyPasswordOver, verifyPassword, verifyPasswordWith, verifyPasswordWith]
  cases mcf.new text.bytes with
  | none => rfl
  | some hash => exact verifyPasswordRefOver_eq profile h self password hash

theorem realizes_of_implements (h : M.Implements B.sha512 rng) : Realizes M B rng where
  hashWithSaltReturned_eq profile password salt :=
    hashWithSaltReturnedOver_eq profile h password salt.length_le
  hashWithSalt_eq profile password salt :=
    hashWithSaltOver_eq profile h.sha512_eq password salt.length_le
  hash_eq profile := hashOver_eq profile h
  verify_eq profile := verifyOver_eq profile h
  hashPasswordCustomized_eq profile := hashPasswordCustomizedOver_eq profile h.sha512_eq
  verifyPassword_eq profile := verifyPasswordOver_eq profile h

end Realizations

/-- The four modules are interchangeable: over libraries that keep to their
documentation and compute the same hash function, each of them gives the same
native functions, with the same buffers on return, and the same traits. Without
entropy none has a result, where an abort of the process and a panic are one
fault. -/
theorem backend_modules_realize (B : Backend) (rng : Csprng) :
    (∀ C : LibCrypto, C.Documented → C.sha512.digest = B.sha512 →
      (C.AbortsWithoutEntropy rng → Realizes (awsLc C) B rng ∧ Realizes (boring C) B rng) ∧
      (C.ReportsMissingEntropy rng → Realizes (openssl C) B rng)) ∧
    (∀ R : RustCrates, R.Documented rng → R.sha512.digest = B.sha512 →
      Realizes (rustCrypto R) B rng) := by
  constructor
  · intro C hdoc hsha512
    constructor
    · intro hrng
      have himplements := awsLc_implements hdoc hrng
      rw [hsha512] at himplements
      exact ⟨realizes_of_implements himplements, realizes_of_implements himplements⟩
    · intro hrng
      have himplements := openssl_implements hdoc hrng
      rw [hsha512] at himplements
      exact realizes_of_implements himplements
  · intro R hdoc hsha512
    have himplements := rustCrypto_implements hdoc
    rw [hsha512] at himplements
    exact realizes_of_implements himplements

theorem backend_modules_realize_over_libraries :
    Realizes (awsLc (.ofSource (fun _ => .replicate 64 0) (.drawing (.replicate 16 0)) true))
      (.buffered fun _ => .replicate 64 0) (.drawing (.replicate 16 0)) ∧
    Realizes (boring (.ofSource (fun _ => .replicate 64 0) (.drawing (.replicate 16 0)) true))
      (.buffered fun _ => .replicate 64 0) (.drawing (.replicate 16 0)) ∧
    Realizes (openssl (.ofSource (fun _ => .replicate 64 0) (.drawing (.replicate 16 0)) false))
      (.buffered fun _ => .replicate 64 0) (.drawing (.replicate 16 0)) ∧
    Realizes (rustCrypto (.ofSource (fun _ => .replicate 64 0) (.drawing (.replicate 16 0))))
      (.buffered fun _ => .replicate 64 0) (.drawing (.replicate 16 0)) := by
  obtain ⟨hlibrary, hcrates⟩ := backend_modules_realize (.buffered fun _ => .replicate 64 0)
    (.drawing (.replicate 16 0))
  obtain ⟨hawsLc, hboring⟩ :=
    (hlibrary (.ofSource _ _ true) (LibCrypto.ofSource_documented _ _ _) rfl).1
      (LibCrypto.ofSource_aborts _ _)
  have hopenssl := (hlibrary (.ofSource _ _ false) (LibCrypto.ofSource_documented _ _ _) rfl).2
    (LibCrypto.ofSource_reports _ _)
  have hrustCrypto := hcrates (.ofSource _ _) (RustCrates.ofSource_documented _ _) rfl
  exact ⟨hawsLc, hboring, hopenssl, hrustCrypto⟩

theorem hashOver_eq_ok_iff (profile : Profile) {M : BackendModule}
    (hlength : ∀ {buf left}, M.randomBytes buf = .ok left → left.length = buf.length)
    (password : Password) (rounds : Option UInt32) (out : List UInt8) :
    hashOver profile M password rounds = .ok out ↔
      ((rounds.getD roundsDefault).toNat < 10 ^ 9 ∨ profile = .release) ∧
      ∃ drawn, M.randomBytes (List.replicate saltLenMax 0) = .ok drawn ∧
        out = hashText M.sha512Context.digest password.bytes
          (builtSpec (rounds.getD roundsDefault) (drawn.map saltByte)) := by
  rcases em ((rounds.getD roundsDefault).toNat < 10 ^ 9 ∨ profile = .release) with
    hprints | hprints
  · rw [hashOver, buildSaltSpec_eq profile _ hprints, generateSaltOver, generateSaltWith]
    cases hdrawn : M.randomBytes (List.replicate saltLenMax 0) with
    | error fault => simp
    | ok drawn =>
        have hsalt : (drawn.map saltByte).length ≤ saltLenMax := by
          rw [List.length_map, hlength hdrawn, List.length_replicate]
        have hrun : hashWithSaltOver profile M password
            (rebuildSpec (roundsDigits (rounds.getD roundsDefault)) (drawn.map saltByte)) =
              .ok (hashText M.sha512Context.digest password.bytes
                (builtSpec (rounds.getD roundsDefault) (drawn.map saltByte))) :=
          (hashWithSaltOver_eq profile rfl password (rebuildSpec_roundsDigits_fits _ hsalt)).trans
            (hashWithSalt_rebuildSpec profile M.core password.bytes (saltBytes_alphabet drawn)
              hsalt (rounds.getD roundsDefault))
        simp only [pure_eq_ok, ok_bind, hrun, hprints, true_and, Except.ok.injEq,
          exists_eq_left']
        exact eq_comm
  · obtain ⟨rfl, hlarge⟩ := eq_debug_of_not_printing profile hprints
    rw [hashOver, buildSaltSpec_underflow _ hlarge, error_bind]
    constructor
    · intro hreturned
      contradiction
    · rintro ⟨hprinted, _⟩
      exact absurd hprinted hprints

section MissingEntropy

variable (C : LibCrypto)

/-- `RAND_bytes` on the buffer of `generate_salt`. -/
def drawSalt : Exec (List UInt8 × Int) := C.randBytes (List.replicate saltLenMax 0) saltLenMax

theorem ffiRandomBytes_eq_ok_iff (drawn : List UInt8) :
    ffiRandomBytes C (List.replicate saltLenMax 0) = .ok drawn ↔
      ∃ rc, drawSalt C = .ok (drawn, rc) := by
  rw [ffiRandomBytes, List.length_replicate, drawSalt]
  cases C.randBytes (List.replicate saltLenMax 0) saltLenMax with
  | error fault => simp
  | ok returned => simp [Prod.ext_iff]

theorem opensslRandomBytes_eq_ok_iff (drawn : List UInt8) :
    opensslRandomBytes C (List.replicate saltLenMax 0) = .ok drawn ↔
      drawSalt C = .ok (drawn, 1) := by
  rw [opensslRandomBytes, List.length_replicate, cIntLength, if_pos (by decide), ok_bind,
    drawSalt]
  cases C.randBytes (List.replicate saltLenMax 0) saltLenMax with
  | error fault => simp
  | ok returned =>
      obtain ⟨left, rc⟩ := returned
      rcases eq_or_ne rc 1 with rfl | hrc
      · simp
      · simp [hrc]

theorem ffiRandomBytes_length {buf left : List UInt8} (h : ffiRandomBytes C buf = .ok left) :
    left.length = buf.length := by
  rw [ffiRandomBytes] at h
  cases hreturned : C.randBytes buf buf.length with
  | error fault =>
      rw [hreturned] at h
      contradiction
  | ok returned =>
      rw [hreturned] at h
      obtain rfl := Except.ok.inj h
      exact C.randBytes_length hreturned

theorem opensslRandomBytes_length {buf left : List UInt8}
    (h : opensslRandomBytes C buf = .ok left) : left.length = buf.length := by
  rw [opensslRandomBytes] at h
  cases hlength : cIntLength buf.length with
  | error fault =>
      rw [hlength] at h
      contradiction
  | ok len =>
      rw [hlength, ok_bind] at h
      cases hreturned : C.randBytes buf len with
      | error fault =>
          rw [hreturned] at h
          contradiction
      | ok returned =>
          obtain ⟨filled, rc⟩ := returned
          simp only [hreturned, ok_bind] at h
          split at h
          · obtain rfl := Except.ok.inj h
            exact C.randBytes_length hreturned
          · contradiction

/-- The bytes that a hash was salted with, under a code of `RAND_bytes`. -/
def SaltedWith (password : Password) (rounds : Option UInt32) (out : List UInt8) (rc : Int) :
    Prop :=
  ∃ drawn, drawSalt C = .ok (drawn, rc) ∧
    out = hashText C.sha512.digest password.bytes
      (builtSpec (rounds.getD roundsDefault) (drawn.map saltByte))

theorem hashOver_openssl_salted {profile : Profile} {password : Password}
    {rounds : Option UInt32} {out : List UInt8}
    (h : hashOver profile (openssl C) password rounds = .ok out) :
    SaltedWith C password rounds out 1 := by
  obtain ⟨_, drawn, hdrawn, hout⟩ := (hashOver_eq_ok_iff profile
    (opensslRandomBytes_length C) password rounds out).mp h
  exact ⟨drawn, (opensslRandomBytes_eq_ok_iff C drawn).mp hdrawn, hout⟩

theorem hashOver_awsLc_salted {profile : Profile} {password : Password}
    {rounds : Option UInt32} {out : List UInt8}
    (h : hashOver profile (awsLc C) password rounds = .ok out) :
    ∃ rc, SaltedWith C password rounds out rc := by
  obtain ⟨_, drawn, hdrawn, hout⟩ := (hashOver_eq_ok_iff profile
    (ffiRandomBytes_length C) password rounds out).mp h
  obtain ⟨rc, hrc⟩ := (ffiRandomBytes_eq_ok_iff C drawn).mp hdrawn
  exact ⟨rc, drawn, hrc, hout⟩

theorem hashOver_awsLc_of_drawSalt {left : List UInt8} {rc : Int}
    (h : drawSalt C = .ok (left, rc)) :
    ∃ out, hashOver .release (awsLc C) ⟨[]⟩ none = .ok out := by
  have hdrawn := (ffiRandomBytes_eq_ok_iff C left).mpr ⟨rc, h⟩
  exact ⟨_, (hashOver_eq_ok_iff .release (ffiRandomBytes_length C) ⟨[]⟩ none _).mpr
    ⟨.inr rfl, left, hdrawn, rfl⟩⟩

/-- Over any libcrypto at all, the OpenSSL module hashes only with a salt that
`RAND_bytes` has reported as filled. The two others hash with whatever is in the
buffer when it returns; they are as safe exactly if it returns no other code. -/
theorem salts_are_filled :
    (∀ profile password rounds out, hashOver profile (openssl C) password rounds = .ok out →
      SaltedWith C password rounds out 1) ∧
    ∀ M ∈ [awsLc C, boring C],
      (∀ profile password rounds out, hashOver profile M password rounds = .ok out →
        ∃ rc, SaltedWith C password rounds out rc) ∧
      ((∀ profile password rounds out, hashOver profile M password rounds = .ok out →
          SaltedWith C password rounds out 1) ↔
        ∀ left rc, drawSalt C = .ok (left, rc) → rc = 1) := by
  refine ⟨fun _ _ _ _ => hashOver_openssl_salted C, ?_⟩
  intro M hM
  obtain rfl : M = awsLc C := by simpa [boring, awsLc] using hM
  refine ⟨fun _ _ _ _ => hashOver_awsLc_salted C, ?_⟩
  constructor
  · intro hsalted left rc hdraw
    obtain ⟨out, hout⟩ := hashOver_awsLc_of_drawSalt C hdraw
    obtain ⟨_, hfilled, _⟩ := hsalted .release ⟨[]⟩ none out hout
    rw [hdraw] at hfilled
    exact congrArg Prod.snd (Except.ok.inj hfilled)
  · intro hcode profile password rounds out hout
    obtain ⟨rc, drawn, hdraw, hsalt⟩ := hashOver_awsLc_salted C hout
    obtain rfl := hcode drawn rc hdraw
    exact ⟨drawn, hdraw, hsalt⟩

end MissingEntropy

/-- Over a libcrypto that reports missing entropy, the module that does not look
at the code hashes with a salt that was never drawn. -/
theorem salts_are_filled_without_entropy :
    (∃ out, hashOver .release
          (awsLc (.ofSource (fun _ => .replicate 64 0) (.drawing []) false)) ⟨[]⟩ none = .ok out ∧
      ¬ SaltedWith (.ofSource (fun _ => .replicate 64 0) (.drawing []) false) ⟨[]⟩ none out 1) ∧
    ∀ out, hashOver .release
      (openssl (.ofSource (fun _ => .replicate 64 0) (.drawing []) false)) ⟨[]⟩ none ≠ .ok out := by
  let C : LibCrypto := .ofSource (fun _ => .replicate 64 0) (.drawing []) false
  have hdraw : drawSalt C = .ok (List.replicate saltLenMax 0, 0) := rfl
  have hnever : ∀ out, ¬ SaltedWith C ⟨[]⟩ none out 1 := by
    rintro out ⟨drawn, hfilled, _⟩
    rw [hdraw] at hfilled
    have hcode : (0 : Int) = 1 := congrArg Prod.snd (Except.ok.inj hfilled)
    contradiction
  obtain ⟨out, hout⟩ := hashOver_awsLc_of_drawSalt C hdraw
  exact ⟨⟨out, hout, hnever out⟩,
    fun out hreturned => hnever out ((salts_are_filled C).1 _ _ _ _ hreturned)⟩

end CryptSha512.BackendModules
