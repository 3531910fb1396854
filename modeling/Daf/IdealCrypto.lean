import Mathlib.Tactic.Common

/-!
Ideal authenticated encryption and key derivation: decryption undoes encryption under the
same key and fails under any other, and distinct passphrases or salts give distinct keys.
-/
namespace Daf.IdealCrypto

structure Ideal (Passphrase Salt Material Nonce Plain : Type) where
  Key : Type
  Cipher : Type
  derive : Passphrase → Salt → Key
  /-- The key with this raw material. -/
  ofMaterial : Material → Key
  encrypt : Key → Nonce → Plain → Cipher
  decrypt : Key → Cipher → Option Plain
  decrypt_encrypt : ∀ key nonce plain, decrypt key (encrypt key nonce plain) = some plain
  decrypt_other : ∀ key other nonce plain, key ≠ other → decrypt other (encrypt key nonce plain) = none
  derive_inj : ∀ p s q t, derive p s = derive q t → p = q ∧ s = t

attribute [simp] Ideal.decrypt_encrypt

variable {Passphrase Salt Material Nonce Plain : Type}

/-- The scheme in which a ciphertext shows its key, for evaluation. -/
def symbolic [DecidableEq Passphrase] [DecidableEq Salt] [DecidableEq Material] : Ideal Passphrase Salt Material Nonce Plain where
  Key := (Passphrase × Salt) ⊕ Material
  Cipher := ((Passphrase × Salt) ⊕ Material) × Nonce × Plain
  derive p s := .inl (p,s)
  ofMaterial := .inr
  encrypt key nonce plain := (key,nonce,plain)
  decrypt key cipher := if key = cipher.1 then some cipher.2.2 else none
  decrypt_encrypt _ _ _ := if_pos rfl
  decrypt_other _ _ _ _ differ := if_neg (Ne.symm differ)
  derive_inj _ _ _ _ same := Prod.mk.inj (Sum.inl.inj same)

end Daf.IdealCrypto
