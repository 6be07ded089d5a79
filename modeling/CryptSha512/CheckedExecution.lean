import Mathlib.Algebra.Ring.Nat
import Mathlib.Data.List.Basic
import Mathlib.Tactic.Common

/-!
Executions that may stop with a fault: `usize` arithmetic under a build
profile, bounds-checked slices, and loops. Nothing here refers to a particular
program; the rules at the end are the only facts a client needs about loops.
-/

namespace CryptSha512.CheckedExecution

/-- The ways to stop without a result. `diverged` stands for a loop that
outruns its bound, the others for panics and, in `entropy`, also an abort. -/
inductive Fault where
  | arithmeticOverflow
  | outOfBounds
  | charBoundary
  | entropy
  | diverged
  deriving DecidableEq, Repr

/-- A computation that returns a value or stops with a fault. -/
abbrev Exec := Except Fault

/-- The part of a build profile that is visible to arithmetic: overflow is
either checked (debug and test builds) or wraps (the default release build). -/
structure Profile where
  overflowChecks : Bool
  deriving DecidableEq, Repr

namespace Profile

/-- The profile with overflow checks. -/
def debug : Profile := ⟨true⟩

/-- The profile without, where arithmetic wraps around. -/
def release : Profile := ⟨false⟩

end Profile

def usizeModulus : Nat := 2 ^ 64

/-- No allocation, hence no slice, is longer than this. -/
def isizeMax : Nat := 2 ^ 63 - 1

/-- A borrowed or owned byte string, with the bound that every slice carries. -/
structure BoundedBytes where
  bytes : List UInt8
  length_le : bytes.length ≤ isizeMax

theorem lt_of_le_isizeMax {n : Nat} (h : n ≤ isizeMax) : n < 2 ^ 63 :=
  Nat.lt_of_le_of_lt h (by decide)

@[simp] theorem ok_bind {α β : Type} (a : α) (f : α → Exec β) :
    ((Except.ok a : Exec α) >>= f) = f a := rfl

@[simp] theorem error_bind {α β : Type} (fault : Fault) (f : α → Exec β) :
    ((Except.error fault : Exec α) >>= f) = .error fault := rfl

@[simp] theorem pure_eq_ok {α : Type} (a : α) : (pure a : Exec α) = .ok a := rfl

@[simp] theorem liftM_exec {α : Type} (run : Exec α) : (liftM run : Exec α) = run := rfl

@[simp] theorem liftM_ok {m : Type → Type} [Monad m] [MonadLiftT Exec m]
    [LawfulMonadLiftT Exec m] {α : Type} (a : α) :
    (liftM (Except.ok a : Exec α) : m α) = pure a :=
  monadLift_pure a

section Arithmetic

variable (profile : Profile)

def usizeAdd (a b : Nat) : Exec Nat :=
  if a + b < usizeModulus then .ok (a + b)
  else if profile.overflowChecks then .error .arithmeticOverflow
  else .ok ((a + b) % usizeModulus)

def usizeSub (a b : Nat) : Exec Nat :=
  if b ≤ a then .ok (a - b)
  else if profile.overflowChecks then .error .arithmeticOverflow
  else .ok (a + usizeModulus - b)

def usizeMul (a b : Nat) : Exec Nat :=
  if a * b < usizeModulus then .ok (a * b)
  else if profile.overflowChecks then .error .arithmeticOverflow
  else .ok (a * b % usizeModulus)

theorem usizeAdd_of_lt {a b : Nat} (h : a + b < 2 ^ 64) :
    usizeAdd profile a b = .ok (a + b) := if_pos h

theorem usizeSub_of_le {a b : Nat} (h : b ≤ a) :
    usizeSub profile a b = .ok (a - b) := if_pos h

theorem usizeMul_of_lt {a b : Nat} (h : a * b < 2 ^ 64) :
    usizeMul profile a b = .ok (a * b) := if_pos h

theorem usizeSub_release_of_lt {a b : Nat} (h : a < b) :
    usizeSub .release a b = .ok (a + usizeModulus - b) := by
  simp [usizeSub, Profile.release, Nat.not_le.mpr h]

theorem usizeSub_debug_of_lt {a b : Nat} (h : a < b) :
    usizeSub .debug a b = .error .arithmeticOverflow := by
  simp [usizeSub, Profile.debug, Nat.not_le.mpr h]

end Arithmetic

section Slices

variable {α : Type}

/-- `&xs[..n]` -/
def sliceTo (xs : List α) (n : Nat) : Exec (List α) :=
  if n ≤ xs.length then .ok (xs.take n) else .error .outOfBounds

/-- `&xs[n..]` -/
def sliceFrom (xs : List α) (n : Nat) : Exec (List α) :=
  if n ≤ xs.length then .ok (xs.drop n) else .error .outOfBounds

/-- `xs[i]` -/
def getAt (xs : List α) (i : Nat) : Exec α :=
  match xs[i]? with
  | some x => .ok x
  | none => .error .outOfBounds

/-- `xs[i] = x` -/
def setAt (xs : List α) (i : Nat) (x : α) : Exec (List α) :=
  if i < xs.length then .ok (xs.set i x) else .error .outOfBounds

theorem sliceTo_of_le {xs : List α} {n : Nat} (h : n ≤ xs.length) :
    sliceTo xs n = .ok (xs.take n) := by
  simp [sliceTo, h]

theorem sliceFrom_of_le {xs : List α} {n : Nat} (h : n ≤ xs.length) :
    sliceFrom xs n = .ok (xs.drop n) := by
  simp [sliceFrom, h]

theorem setAt_of_lt {xs : List α} {i : Nat} (x : α) (h : i < xs.length) :
    setAt xs i x = .ok (xs.set i x) := by
  simp [setAt, h]

@[simp] theorem sliceTo_append (xs ys : List α) :
    sliceTo (xs ++ ys) xs.length = .ok xs := by
  simp [sliceTo]

@[simp] theorem sliceFrom_append (xs ys : List α) :
    sliceFrom (xs ++ ys) xs.length = .ok ys := by
  simp [sliceFrom]

end Slices

section Loops

variable {σ : Type}

/-- `while condition { body }`, given a bound on its number of iterations. A
run that has not stopped within the bound ends in the fault `diverged`. -/
def whileLoop (condition : σ → Bool) (body : σ → Exec σ) : Nat → σ → Exec σ
  | 0, state => if condition state then .error .diverged else .ok state
  | fuel + 1, state =>
      if condition state then body state >>= whileLoop condition body fuel
      else .ok state

/-- `for i in 0..count { body }`, in the monad of the body. -/
def forRange {m : Type → Type} [Monad m] (body : Nat → σ → m σ) : Nat → σ → m σ
  | 0, state => pure state
  | count + 1, state => forRange body count state >>= body count

/-- Total correctness of a loop. Each iteration keeps the invariant and
decreases the measure, so a bound no smaller than the measure is enough. -/
theorem whileLoop_total {condition : σ → Bool} {body : σ → Exec σ}
    (invariant : σ → Prop) (measure : σ → Nat)
    (hbody : ∀ state, invariant state → condition state = true →
      ∃ next, body state = .ok next ∧ invariant next ∧
        measure next < measure state)
    (fuel : Nat) (state : σ) (hstate : invariant state)
    (hfuel : measure state ≤ fuel) :
    ∃ final, whileLoop condition body fuel state = .ok final ∧
      invariant final ∧ condition final = false := by
  induction fuel generalizing state with
  | zero =>
      cases hcondition : condition state with
      | true =>
          -- the measure is zero, so the body cannot decrease it
          obtain ⟨next, _, _, hless⟩ := hbody state hstate hcondition
          omega
      | false => exact ⟨state, by simp [whileLoop, hcondition], hstate, hcondition⟩
  | succ fuel ih =>
      cases hcondition : condition state with
      | true =>
          obtain ⟨next, hnext, hinvariant, hless⟩ := hbody state hstate hcondition
          obtain ⟨final, hfinal, hpost⟩ := ih next hinvariant (by omega)
          refine ⟨final, ?_, hpost⟩
          simp only [whileLoop, hcondition, hnext, ok_bind, if_true]
          exact hfinal
      | false => exact ⟨state, by simp [whileLoop, hcondition], hstate, hcondition⟩

theorem whileLoop_faults {condition : σ → Bool} {body : σ → Exec σ}
    (invariant : σ → Prop) (measure : σ → Nat) (fault : Fault)
    (hcondition : ∀ state, invariant state → condition state = true)
    (hbody : ∀ state, invariant state → body state = .error fault ∨
      ∃ next, body state = .ok next ∧ invariant next ∧ measure next < measure state)
    (fuel : Nat) (state : σ) (hstate : invariant state) (hfuel : measure state < fuel) :
    whileLoop condition body fuel state = .error fault := by
  induction fuel generalizing state with
  | zero => omega
  | succ fuel ih =>
      simp only [whileLoop, hcondition state hstate, if_true]
      rcases hbody state hstate with hfault | ⟨next, hnext, hinvariant, hless⟩
      · rw [hfault, error_bind]
      · rw [hnext, ok_bind]
        exact ih next hinvariant (by omega)

theorem forRange_total {body : Nat → σ → Exec σ} (invariant : Nat → σ → Prop)
    (hbody : ∀ i state, invariant i state →
      ∃ next, body i state = .ok next ∧ invariant (i + 1) next)
    (count : Nat) (state : σ) (hstate : invariant 0 state) :
    ∃ final, forRange body count state = .ok final ∧ invariant count final := by
  induction count with
  | zero => exact ⟨state, rfl, hstate⟩
  | succ count ih =>
      obtain ⟨middle, hmiddle, hinvariant⟩ := ih
      obtain ⟨final, hfinal, hpost⟩ := hbody count middle hinvariant
      exact ⟨final, by simp [forRange, hmiddle, hfinal], hpost⟩

end Loops

end CryptSha512.CheckedExecution
