import CryptSha512.DigestComputation
import CryptSha512.DigestTexts

namespace CryptSha512.DigestLog

open CryptSha512.CheckedExecution
open CryptSha512.CryptInner
open CryptSha512.CryptoBackend
open CryptSha512.DigestComputation
open CryptSha512.DigestTexts
open CryptSha512.HashContexts

variable (profile : Profile) (B : Backend)

/-- The finished texts, in order. -/
abbrev Log := List (List UInt8)

/-- The backend, with contexts that record what they absorb. -/
def logging : Backend := { B with sha512Context := B.sha512Context.recording }

/-- `ctx.finish()`, with the text of the context added to the log. -/
def finishLogged (ctx : B.sha512Context.recording.Context) :
    StateT Log Exec (Vector UInt8 64) := do
  modify (· ++ [StreamingDigest.recorded ctx])
  pure (B.sha512Context.recording.finish ctx)

def computeDigestLogged (keyBytes salt : List UInt8) (rounds : UInt32) :
    Exec (Buffers × Log) :=
  (computeDigestWith profile (logging B) (finishLogged B) keyBytes salt rounds).run []

theorem reports_finishLogged :
    Reports (logging B) (finishLogged B) fun text => modify (· ++ [text]) := by
  intro ctx text hctx
  have htext : StreamingDigest.recorded ctx = text := hctx.recorded_eq
  have hdigest : B.sha512Context.recording.finish ctx = B.sha512 text := hctx.finish
  simp only [finishLogged, htext, hdigest]
  rfl

theorem run_forM_append (texts : List (List UInt8)) (log : Log) :
    (forM texts fun text => (modify (· ++ [text]) : StateT Log Exec PUnit)).run log =
      .ok ((), log ++ texts) := by
  induction texts generalizing log with
  | nil => simp
  | cons text texts ih =>
      rw [List.forM_cons, StateT.run_bind]
      exact (ih (log ++ [text])).trans (by simp)

theorem computeDigestLogged_eq (key salt : List UInt8) (rounds : UInt32) :
    computeDigestLogged profile B key salt rounds =
      .ok (digestBuffers B.sha512 key salt rounds.toNat,
        digestTexts B.sha512 key salt rounds.toNat) := by
  have hrun := run_forM_append (digestTexts B.sha512 key salt rounds.toNat) []
  rw [List.nil_append] at hrun
  rw [computeDigestLogged, computeDigestWith_eq profile (reports_finishLogged B),
    StateT.run_bind]
  exact congrArg (· >>= _) hrun

theorem computeDigestLogged_map_fst (key salt : List UInt8) (rounds : UInt32) :
    (computeDigestLogged profile B key salt rounds).map Prod.fst =
      computeDigest profile B key salt rounds := by
  rw [computeDigestLogged_eq, computeDigest_eq]
  rfl

end CryptSha512.DigestLog
