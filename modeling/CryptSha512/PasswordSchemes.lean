import Mathlib.Logic.Function.Basic

namespace CryptSha512.PasswordSchemes

universe u v w x

variable {Password : Type u} {Setting : Type v} {Digest : Type w} {Text : Type x}

@[ext] structure Credential (Setting : Type v) (Digest : Type w) where
  setting : Setting
  digest : Digest

section Scheme

variable (digest : Password → Setting → Digest)

/-- The credential of a password under a setting. -/
def enrol (password : Password) (setting : Setting) : Credential Setting Digest :=
  ⟨setting, digest password setting⟩

/-- The password has the digest that the credential keeps. -/
def Accepts (password : Password) (credential : Credential Setting Digest) : Prop :=
  digest password credential.setting = credential.digest

variable {digest} {password : Password} {credential : Credential Setting Digest}

theorem accepts_enrol (setting : Setting) :
    Accepts digest password (enrol digest password setting) := rfl

theorem accepts_iff_enrol_eq :
    Accepts digest password credential ↔
      enrol digest password credential.setting = credential := by
  constructor
  · intro haccepts
    ext1
    · rfl
    · exact haccepts
  · intro henrol
    exact congrArg Credential.digest henrol

end Scheme

section Texts

variable (write : Credential Setting Digest → Text)

/-- The credential that a text is written for, if there is one. -/
noncomputable def read : Text → Option (Credential Setting Digest) := Function.partialInv write

variable {write}

theorem read_eq_some_iff (hwrite : Function.Injective write)
    {credential : Credential Setting Digest} {text : Text} :
    read write text = some credential ↔ write credential = text :=
  hwrite.isPartialInv credential text

theorem exists_read_iff (hwrite : Function.Injective write)
    (digest : Password → Setting → Digest) (password : Password) (text : Text) :
    (∃ credential ∈ read write text, Accepts digest password credential) ↔
      ∃ setting, write (enrol digest password setting) = text := by
  constructor
  · rintro ⟨credential, hread, haccepts⟩
    refine ⟨credential.setting, ?_⟩
    rw [accepts_iff_enrol_eq.mp haccepts]
    exact (read_eq_some_iff hwrite).mp hread
  · rintro ⟨setting, htext⟩
    exact ⟨_, (read_eq_some_iff hwrite).mpr htext, accepts_enrol setting⟩

end Texts

end CryptSha512.PasswordSchemes
