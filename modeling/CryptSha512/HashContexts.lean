import Mathlib.Tactic.Common

namespace CryptSha512.HashContexts

/-- A context type for a hash function, with the streaming law. -/
structure StreamingDigest (Digest : Type) where
  Context : Type
  new : Context
  update : Context → List UInt8 → Context
  finish : Context → Digest
  digest : List UInt8 → Digest
  finish_updates : ∀ pieces : List (List UInt8),
    finish (pieces.foldl update new) = digest pieces.flatten

namespace StreamingDigest

variable {Digest : Type} (S : StreamingDigest Digest)

/-- The context is what some updates with these bytes in total lead to. -/
def Absorbed (context : S.Context) (bytes : List UInt8) : Prop :=
  ∃ pieces : List (List UInt8),
    context = pieces.foldl S.update S.new ∧ pieces.flatten = bytes

theorem absorbed_new : S.Absorbed S.new [] := ⟨[], rfl, rfl⟩

variable {S}

theorem Absorbed.update {context : S.Context} {bytes : List UInt8}
    (h : S.Absorbed context bytes) (piece : List UInt8) :
    S.Absorbed (S.update context piece) (bytes ++ piece) := by
  obtain ⟨pieces, rfl, rfl⟩ := h
  exact ⟨pieces ++ [piece], by simp, by simp⟩

theorem Absorbed.finish {context : S.Context} {bytes : List UInt8}
    (h : S.Absorbed context bytes) : S.finish context = S.digest bytes := by
  obtain ⟨pieces, rfl, rfl⟩ := h
  exact S.finish_updates pieces

variable (S) in
/-- The same hash function, with contexts that carry the text they have
absorbed. -/
def recording : StreamingDigest Digest where
  Context := S.Context × List UInt8
  new := (S.new, [])
  update context piece := (S.update context.1 piece, context.2 ++ piece)
  finish context := S.finish context.1
  digest := S.digest
  finish_updates := by
    intro pieces
    have hfold : ∀ context : S.Context × List UInt8,
        (pieces.foldl (fun context piece => (S.update context.1 piece, context.2 ++ piece))
          context).1 = pieces.foldl S.update context.1 := by
      induction pieces with
      | nil => exact fun _ => rfl
      | cons piece pieces ih => exact fun context => ih (S.update context.1 piece, _)
    rw [hfold]
    exact S.finish_updates pieces

/-- The text that a recording context has absorbed. -/
def recorded (context : S.recording.Context) : List UInt8 := context.2

theorem Absorbed.recorded_eq {context : S.recording.Context} {bytes : List UInt8}
    (h : S.recording.Absorbed context bytes) : recorded context = bytes := by
  obtain ⟨pieces, rfl, rfl⟩ := h
  have hfold : ∀ context : S.recording.Context,
      recorded (pieces.foldl S.recording.update context) =
        recorded context ++ pieces.flatten := by
    induction pieces with
    | nil => simp
    | cons piece pieces ih =>
        intro context
        rw [List.foldl_cons, ih]
        simp [recorded, recording]
  exact hfold S.recording.new

/-- Any function on byte strings is a streaming digest, by buffering. -/
def buffered (digest : List UInt8 → Digest) : StreamingDigest Digest where
  Context := List UInt8
  new := []
  update := (· ++ ·)
  finish := digest
  digest := digest
  finish_updates := by
    intro pieces
    have hfold : ∀ buffer : List UInt8,
        pieces.foldl (· ++ ·) buffer = buffer ++ pieces.flatten := by
      induction pieces with
      | nil => simp
      | cons piece pieces ih =>
          intro buffer
          simp [ih]
    rw [hfold, List.nil_append]

end StreamingDigest

end CryptSha512.HashContexts
