import Mathlib.Data.List.Basic

/-!
Ideal signatures: verification accepts what a signer has issued, for the text that was signed and under the public key of the signer, and
nothing else.
-/
namespace Daf.IdealSignatures

structure Scheme (Text Public Signature : Type) where
  Key : Type
  public_key : Key → Public
  sign : Key → Text → Signature

section
variable {Text Public Signature : Type}

/-- The texts that were signed, each with the key. -/
abbrev Scheme.Issued (scheme : Scheme Text Public Signature) := List (scheme.Key × Text)

/-- No two texts that were signed under one public key have the same signature. -/
def Scheme.Binds (scheme : Scheme Text Public Signature) (issued : scheme.Issued) : Prop :=
  ∀ a ∈ issued, ∀ b ∈ issued, scheme.public_key a.1 = scheme.public_key b.1 → scheme.sign a.1 a.2 = scheme.sign b.1 b.2 → a.2 = b.2

variable [DecidableEq Text] [DecidableEq Public] [DecidableEq Signature] {scheme : Scheme Text Public Signature} {issued : scheme.Issued}

def Scheme.verify (scheme : Scheme Text Public Signature) (issued : scheme.Issued) (key : Public) (text : Text) (signature : Signature) : Bool :=
  issued.any fun signed => signed.2 = text ∧ scheme.public_key signed.1 = key ∧ scheme.sign signed.1 signed.2 = signature

theorem verify_iff {key : Public} {text : Text} {signature : Signature} : scheme.verify issued key text signature ↔
    ∃ signer, (signer,text) ∈ issued ∧ scheme.public_key signer = key ∧ scheme.sign signer text = signature := by
  rw [Scheme.verify,List.any_eq_true]
  constructor
  · rintro ⟨⟨signer,signed⟩,inside,same⟩
    obtain ⟨rfl,rest⟩ := of_decide_eq_true same
    exact ⟨signer,inside,rest⟩
  · rintro ⟨signer,inside,rest⟩
    exact ⟨(signer,text),inside,decide_eq_true ⟨rfl,rest⟩⟩

/-- The signature of a text is accepted for that text only. -/
theorem verify_signed (binds : scheme.Binds issued) {signer : scheme.Key} {text : Text} (signed : (signer,text) ∈ issued) (other : Text) :
    scheme.verify issued (scheme.public_key signer) other (scheme.sign signer text) ↔ other = text := by
  rw [verify_iff]
  constructor
  · rintro ⟨signer',inside,keys,signatures⟩
    exact binds _ inside _ signed keys signatures
  · rintro rfl
    exact ⟨signer,signed,rfl,rfl⟩

end
end Daf.IdealSignatures
