import CryptSha512.CheckedExecution
import CryptSha512.HashContexts
import CryptSha512.HashChains
import CryptSha512.DecimalText
import CryptSha512.DelimitedText
import CryptSha512.SextetPacking
import CryptSha512.Utf8Text
import CryptSha512.MapFibres
import CryptSha512.GrowableVectors
import CryptSha512.BufferRelease
import CryptSha512.PasswordSchemes
import CryptSha512.ShaCryptDefinition
import CryptSha512.DigestTexts
import CryptSha512.SaltSpecGrammar
import CryptSha512.CryptoBackend
import CryptSha512.AsciiNumbers
import CryptSha512.CryptBase64
import CryptSha512.EncodingLaws
import CryptSha512.CryptInner
import CryptSha512.PasswordHashTraits
import CryptSha512.ParamsText
import CryptSha512.DigestComputation
import CryptSha512.DigestLog
import CryptSha512.CryptRefinement
import CryptSha512.SettingsLaws
import CryptSha512.BufferWiping
import CryptSha512.NativeVerification
import CryptSha512.TraitVerification
import CryptSha512.VerifierVerdicts
import CryptSha512.PasswordBinding
import CryptSha512.DigestWork
import CryptSha512.SaltSpecBuilding
import CryptSha512.HashGeneration
import CryptSha512.PanicFreedom
import CryptSha512.RawSalts
import CryptSha512.TraitRehashing
import CryptSha512.DrawnSalts
import CryptSha512.OverflowProfiles
import CryptSha512.GeneratedHashes
import CryptSha512.BufferCapacities
import CryptSha512.PasswordCustody
import CryptSha512.BackendModules
import CryptSha512.CredentialRefinement
