import CryptSha512.CheckedExecution

/-!
Executions that give buffers back. A fault unwinds the frames it passes, and
the variables of these frames give their buffers back as well.
-/

namespace CryptSha512.BufferRelease

open CryptSha512.CheckedExecution

/-- An outcome, and the buffers given back on the way, each with the contents
it had then. -/
@[ext] structure Releasing (α : Type) where
  outcome : Exec α
  released : List (List UInt8)

namespace Releasing

variable {α β : Type}

def ofExec (run : Exec α) : Releasing α := ⟨run, []⟩

/-- A buffer is given back with these contents. -/
def release (buffer : List UInt8) : Releasing Unit := ⟨.ok (), [buffer]⟩

/-- What was given back before a fault stays given back. -/
def bind (run : Releasing α) (next : α → Releasing β) : Releasing β :=
  match run.outcome with
  | .ok a => ⟨(next a).outcome, run.released ++ (next a).released⟩
  | .error fault => ⟨.error fault, run.released⟩

instance : Monad Releasing where
  pure a := ⟨.ok a, []⟩
  bind := bind

instance : MonadLift Exec Releasing where
  monadLift := ofExec

/-- `run` in a frame with a variable that owns a buffer. If the frame is
unwound, the variable is dropped and gives back `dropped`. -/
def holding (dropped : List UInt8) (run : Releasing α) : Releasing α :=
  match run.outcome with
  | .ok _ => run
  | .error fault => ⟨.error fault, run.released ++ [dropped]⟩

theorem returned_bind (a : α) (released : List (List UInt8)) (next : α → Releasing β) :
    ((⟨.ok a, released⟩ : Releasing α) >>= next) =
      ⟨(next a).outcome, released ++ (next a).released⟩ := rfl

theorem faulted_bind (fault : Fault) (released : List (List UInt8)) (next : α → Releasing β) :
    ((⟨.error fault, released⟩ : Releasing α) >>= next) = ⟨.error fault, released⟩ := rfl

theorem bind_returned (run : Releasing α) : (run >>= pure) = run := by
  rcases run with ⟨_ | a, released⟩
  · rfl
  · exact congrArg (Releasing.mk _) (List.append_nil released)

theorem bind_bind {γ : Type} (run : Releasing α) (f : α → Releasing β) (g : β → Releasing γ) :
    (run >>= f) >>= g = run >>= fun a => f a >>= g := by
  rcases run with ⟨_ | a, released⟩
  · rfl
  · rcases hnext : f a with ⟨_ | b, more⟩
    · simp only [returned_bind, hnext, faulted_bind]
    · simp only [returned_bind, hnext, List.append_assoc]

instance : LawfulMonad Releasing :=
  LawfulMonad.mk' Releasing bind_returned (fun _ _ => rfl) bind_bind

instance : LawfulMonadLift Exec Releasing where
  monadLift_pure _ := rfl
  monadLift_bind run next := by
    cases run with
    | error fault => rfl
    | ok a => rfl

theorem holding_ok (dropped : List UInt8) {run : Exec α} {a : α} (h : run = .ok a) :
    holding dropped (ofExec run) = ⟨.ok a, []⟩ := by
  rw [h]
  rfl

theorem holding_error (dropped : List UInt8) {run : Exec α} {fault : Fault}
    (h : run = .error fault) : holding dropped (ofExec run) = ⟨.error fault, [dropped]⟩ := by
  rw [h]
  rfl

theorem holding_ofExec_bind {dropped : List UInt8} (run : Exec α) {next : α → Releasing β}
    {nextOutcome : α → Exec β}
    (hnext : ∀ a, run = .ok a → next a = ⟨nextOutcome a, [dropped]⟩) :
    (holding dropped (ofExec run) >>= next) = ⟨run >>= nextOutcome, [dropped]⟩ := by
  cases hrun : run with
  | error fault => rw [holding_error dropped rfl, faulted_bind, error_bind]
  | ok a =>
      rw [holding_ok dropped rfl, returned_bind, hnext a hrun, ok_bind]
      rfl

end Releasing

end CryptSha512.BufferRelease
