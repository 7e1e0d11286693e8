import FirebirdSamples.Srp.BigInt
import Mathlib.RingTheory.Coprime.Lemmas
import Mathlib.Tactic.Linarith
import Mathlib.Tactic.Positivity
import Mathlib.Tactic.ReduceModChar

/-!
# The Srp256 client proof

`clientProofSrp256` of `samples/nodejs/srp-handshake.js`, with the two digests of `node:crypto` as
parameters. The server's side is not in the script; its formulas are those of the exchange in
`firebird-wire-protocol.md`, and they are stated separately (`verifier`, `serverPublic`,
`serverSecret`) so that the two secrets can be compared.

**The client reduces its exponent modulo the prime.** The exponents of the group repeat with a
divisor of `N - 1`, not with `N`, so the reduction is harmless only while it changes nothing. Below
`N` both secrets are `g ^ (b * (a + u * x))` modulo `N`; from `N` on the client is short of
one factor `g ^ (b * N)`. Since a scramble and a user hash are digests of twenty bytes, their
product stays far below `N`, and at most one multiple of `N` is ever lost
(`exponent_lt_two_mul_N`). `secret_eq_iff` turns this into the exact condition.
-/

namespace FirebirdSamples.Srp

/-! ### The group -/

/-- The fixed 1024-bit prime of the group. -/
def N : ℤ :=
  0xE67D2E994B2F900C3F41F08F5BB2627ED0D49EE1FE767A52EFCD565CD6E768812C3E1E9CE8F0A8BEA6CB13CD29DDEBF7A96D4A93B55D488DF099A15C89DCB0640738EB2CBDD9A8F7BAB561AB1B0DC1C6CDABF303264A08D1BCA932D1F1EE428B619D970F342ABA9A65793B8B2F041AE5364350C16F735F56ECBCA87BD57B29E7

/-- The generator. -/
def g : ℤ := 2

theorem one_lt_N : 1 < N := by decide

theorem N_pos : 0 < N := by decide

/-- The generator is a unit: `N` is odd. -/
theorem gcd_N_g : Int.gcd N g = 1 := by decide

/-! ### Digests -/

/-- A digest of exactly `n` bytes. -/
def Digest (n : ℕ) : Type := { d : Buffer // d.length = n }

/-- The hash functions of `node:crypto`: any functions with digests of the right length. -/
structure Hashes where
  /-- SHA-1 of the concatenated input. -/
  sha1Digest : Buffer → Digest 20
  /-- SHA-256 of the concatenated input. -/
  sha256Digest : Buffer → Digest 32

/-- An argument of `sha1` or `sha256`. -/
inductive HashArg where
  | buffer (b : Buffer)
  | big (x : ℤ)

instance : Coe Buffer HashArg := ⟨HashArg.buffer⟩

/-- Buffers are hashed as they are, numbers through their minimal bytes. -/
def toBuf : HashArg → Buffer
  | .buffer b => b
  | .big x => bigToBuf x

variable (H : Hashes)

/-- SHA-1 of the concatenated arguments. -/
def sha1 (args : List HashArg) : Buffer :=
  (H.sha1Digest (args.flatMap toBuf)).1

/-- SHA-256 of the concatenated arguments. -/
def sha256 (args : List HashArg) : Buffer :=
  (H.sha256Digest (args.flatMap toBuf)).1

theorem length_sha1 (args : List HashArg) : (sha1 H args).length = 20 :=
  (H.sha1Digest (args.flatMap toBuf)).2

/-! ### The client's side -/

/-- `k = SHA1(N | PAD(g))`. -/
def k : ℤ :=
  bufToBig (sha1 H [bigToBuf N, List.replicate (128 - 1) (0 : UInt8), bigToBuf g])

/-- `x = SHA1(salt | SHA1(user ':' password))`. -/
def userHash (user : String) (salt : Buffer) (password : String) : ℤ :=
  bufToBig (sha1 H [salt, sha1 H [Buffer.ofString (user ++ ":" ++ password)]])

/-- The scramble `u = SHA1(A | B)`, over minimal bytes. -/
def scramble (A B : ℤ) : ℤ :=
  bufToBig (sha1 H [bigToBuf A, bigToBuf B])

/-- What `clientProofSrp256` returns. -/
structure ClientProof where
  /-- The scramble. -/
  u : ℤ
  /-- The user hash. -/
  x : ℤ
  /-- The secret. -/
  S : ℤ
  /-- The session key. -/
  K : Buffer
  /-- The proof sent to the server. -/
  M : Buffer

/-- The client's half of the exchange. The password is the script's `PASS`. -/
def clientProofSrp256 (PASS user : String) (salt : Buffer) (A B a : ℤ) : ClientProof :=
  let u := scramble H A B
  let x := userHash H user salt PASS
  let S := modPow (mod (B - k H * modPow g x N) N) (mod (a + u * x) N) N
  let K := sha1 H [bigToBuf S]
  -- exponentiation, where the RFC has an exclusive or
  let n1 := modPow (bufToBig (sha1 H [bigToBuf N])) (bufToBig (sha1 H [bigToBuf g])) N
  let n2 := bufToBig (sha1 H [Buffer.ofString user])
  let M := sha256 H [bigToBuf n1, bigToBuf n2, salt, bigToBuf A, bigToBuf B, K]
  { u, x, S, K, M }

/-! ### The server's side, from the description of the exchange -/

/-- The verifier `v = g^x mod N` stored for a user. -/
def verifier (x : ℤ) : ℤ :=
  g ^ x.toNat % N

/-- The server's public key `B = (k*v + g^b) mod N`. -/
def serverPublic (v : ℤ) (b : ℕ) : ℤ :=
  (k H * v + g ^ b) % N

/-- The server's secret `S = (A * v^u)^b mod N`. -/
def serverSecret (A v u : ℤ) (b : ℕ) : ℤ :=
  (A * v ^ u.toNat) ^ b % N

/-! ### Both secrets are powers of the generator -/

/-- Scramble and user hash are numbers of twenty bytes. -/
theorem bufToBig_sha1_lt (args : List HashArg) : bufToBig (sha1 H args) < 256 ^ 20 := by
  have := bufToBig_lt (sha1 H args)
  rwa [length_sha1] at this

/-- The exponent exceeds `N` by less than `N`: a private key is below `N`, and the product of two
digests is below `2 ^ 320`. -/
theorem exponent_lt_two_mul_N {a : ℕ} (ha : (a : ℤ) < N) {u x : ℤ}
    (hu : u < 256 ^ 20) (hx : 0 ≤ x) (hx' : x < 256 ^ 20) : (a : ℤ) + u * x < 2 * N := by
  have hprod : u * x ≤ 256 ^ 20 * 256 ^ 20 := mul_le_mul hu.le hx'.le hx (by positivity)
  have hN : (256 ^ 20 * 256 ^ 20 : ℤ) < N := by decide
  linarith

/-- **What the client raises to its exponent is `g ^ b`**: the two verifiers cancel, and `mod`
repairs the negative difference. -/
theorem clientBase_eq (x : ℤ) (hx : 0 ≤ x) (b : ℕ) :
    mod (serverPublic H (verifier x) b - k H * modPow g x N) N = g ^ b % N := by
  rw [mod_eq_emod _ N_pos, modPow_of_nonneg g hx one_lt_N, serverPublic, ← verifier,
    Int.emod_sub_emod]
  congr 1
  ring

/-- The client's secret, as a power of the generator. -/
theorem clientSecret_eq (b n : ℕ) :
    modPow (g ^ b % N) (mod n N) N = g ^ (b * (n % N.toNat)) % N := by
  have hmod : mod n N = ((n % N.toNat : ℕ) : ℤ) := by
    rw [mod_eq_emod _ N_pos, Int.natCast_mod, Int.toNat_of_nonneg N_pos.le]
  rw [hmod, modPow_natCast _ _ one_lt_N, pow_mul]
  exact (Int.mod_modEq (g ^ b) N).pow (n % N.toNat)

/-- The server's secret, as a power of the generator. -/
theorem serverSecret_eq (a x u b : ℕ) :
    serverSecret (modPow g a N) (verifier x) u b = g ^ (b * (a + u * x)) % N := by
  rw [serverSecret, modPow_natCast g a one_lt_N, verifier, Int.toNat_natCast, Int.toNat_natCast]
  have hA : (g ^ a % N) ≡ g ^ a [ZMOD N] := Int.mod_modEq _ _
  have hv : (g ^ x % N) ^ u ≡ (g ^ x) ^ u [ZMOD N] := (Int.mod_modEq _ _).pow u
  calc (g ^ a % N * (g ^ x % N) ^ u) ^ b % N
      = (g ^ a * (g ^ x) ^ u) ^ b % N := (hA.mul hv).pow b
    _ = g ^ (b * (a + u * x)) % N := by
      congr 1
      rw [← pow_mul, ← pow_add, ← pow_mul]
      ring

/-- Multiples of `N` in the exponent matter exactly when `g ^ (b * N)` is not `1`. -/
theorem pow_mul_mod_eq_iff {b n : ℕ} (hn : (n : ℤ) < 2 * N) :
    g ^ (b * (n % N.toNat)) % N = g ^ (b * n) % N ↔
      (n : ℤ) < N ∨ modPow g (b * N) N = 1 := by
  have hN : (N.toNat : ℤ) = N := Int.toNat_of_nonneg N_pos.le
  have hone : modPow g (b * N) N = 1 ↔ g ^ (b * N.toNat) ≡ 1 [ZMOD N] := by
    rw [← hN, ← Nat.cast_mul, hN, modPow_natCast g _ one_lt_N, Int.ModEq,
      Int.emod_eq_of_lt (by decide : (0 : ℤ) ≤ 1) one_lt_N]
  rcases lt_or_ge (n : ℤ) N with hlt | hge
  · rw [Nat.mod_eq_of_lt (by omega)]
    exact iff_of_true rfl (Or.inl hlt)
  -- one multiple of `N` was dropped from the exponent
  obtain ⟨r, rfl⟩ : ∃ r, n = N.toNat + r := Nat.exists_eq_add_of_le (by omega)
  have hmod : (N.toNat + r) % N.toNat = r := by
    rw [Nat.add_mod_left, Nat.mod_eq_of_lt (by omega)]
  have hsplit : g ^ (b * (N.toNat + r)) = g ^ (b * r) * g ^ (b * N.toNat) := by
    rw [← pow_add]
    ring
  rw [hmod, hsplit, hone]
  constructor
  · intro h
    right
    have hcancel : g ^ (b * r) * 1 ≡ g ^ (b * r) * g ^ (b * N.toNat) [ZMOD N] := by
      rw [mul_one]
      exact h
    have hunit : Int.gcd N (g ^ (b * r)) = 1 := by
      rw [← Int.isCoprime_iff_gcd_eq_one]
      exact (Int.isCoprime_iff_gcd_eq_one.2 gcd_N_g).pow_right
    have := Int.ModEq.cancel_left_div_gcd N_pos hcancel
    rw [hunit, Nat.cast_one, Int.ediv_one] at this
    exact this.symm
  · rintro (h | h)
    · omega
    · have := h.mul_left (g ^ (b * r))
      rw [mul_one] at this
      exact this.symm

/-- The client's secret in a run against a server that knows the verifier. -/
theorem clientProof_S_eq (user password : String) (salt : Buffer) (a b : ℕ) (A : ℤ) :
    let x := userHash H user salt password
    let B := serverPublic H (verifier x) b
    (clientProofSrp256 H password user salt A B a).S =
      g ^ (b * ((a + (scramble H A B).toNat * x.toNat) % N.toNat)) % N := by
  intro x B
  have hx : 0 ≤ x := bufToBig_nonneg _
  have hu : 0 ≤ scramble H A B := bufToBig_nonneg _
  have hexp : (a : ℤ) + scramble H A B * x =
      ((a + (scramble H A B).toNat * x.toNat : ℕ) : ℤ) := by
    push_cast
    rw [Int.toNat_of_nonneg hu, Int.toNat_of_nonneg hx]
  show modPow (mod (B - k H * modPow g x N) N) (mod (a + scramble H A B * x) N) N = _
  rw [clientBase_eq H x hx b, hexp, clientSecret_eq]

/-- The server's secret in the same run. -/
theorem serverSecret_userHash_eq (user password : String) (salt : Buffer) (a b : ℕ) (u : ℤ)
    (hu : 0 ≤ u) :
    let x := userHash H user salt password
    serverSecret (modPow g a N) (verifier x) u b = g ^ (b * (a + u.toNat * x.toNat)) % N := by
  intro x
  have hx : 0 ≤ x := bufToBig_nonneg _
  rw [← serverSecret_eq a x.toNat u.toNat b, Int.toNat_of_nonneg hx, Int.toNat_of_nonneg hu]

/-- **Key agreement, exactly.** The client's secret is the server's exactly when the exponent
`a + u * x` stays below `N`, or when a full turn of `N` in it does not show (`g ^ (b * N) = 1`
modulo `N`, as for `b = 0`). With equal secrets the session keys are equal. -/
theorem secret_eq_iff (user password : String) (salt : Buffer) {a : ℕ} (ha : (a : ℤ) < N)
    (b : ℕ) :
    let x := userHash H user salt password
    let v := verifier x
    let A := modPow g a N
    let B := serverPublic H v b
    let u := scramble H A B
    let proof := clientProofSrp256 H password user salt A B a
    (proof.S = serverSecret A v u b ↔ a + u * x < N ∨ modPow g (b * N) N = 1) ∧
      (proof.S = serverSecret A v u b → proof.K = sha1 H [bigToBuf (serverSecret A v u b)]) := by
  intro x v A B u proof
  have hx : 0 ≤ x := bufToBig_nonneg _
  have hu : 0 ≤ u := bufToBig_nonneg _
  have hbound : (a : ℤ) + u * x < 2 * N :=
    exponent_lt_two_mul_N ha (bufToBig_sha1_lt H _) hx (bufToBig_sha1_lt H _)
  have hexp : (a : ℤ) + u * x = ((a + u.toNat * x.toNat : ℕ) : ℤ) := by
    push_cast
    rw [Int.toNat_of_nonneg hu, Int.toNat_of_nonneg hx]
  have hclient : proof.S = g ^ (b * ((a + u.toNat * x.toNat) % N.toNat)) % N :=
    clientProof_S_eq H user password salt a b A
  have hserver : serverSecret A v u b = g ^ (b * (a + u.toNat * x.toNat)) % N :=
    serverSecret_userHash_eq H user password salt a b u hu
  refine ⟨?_, fun h ↦ by rw [← h]; rfl⟩
  rw [hexp] at hbound
  rw [hclient, hserver, hexp]
  exact pow_mul_mod_eq_iff hbound

/-- Hash functions whose digests all denote the number `1`. -/
def oneHashes : Hashes where
  sha1Digest _ := ⟨List.replicate 19 0 ++ [1], rfl⟩
  sha256Digest _ := ⟨List.replicate 31 0 ++ [1], rfl⟩

theorem bufToBig_sha1_oneHashes (args : List HashArg) : bufToBig (sha1 oneHashes args) = 1 := by
  rw [bufToBig_eq_beValue]
  rfl

/-- A run whose exponent stays below `N`: both sides agree. -/
theorem secret_eq_iff_private_key_two :
    let x := userHash oneHashes "SYSDBA" [] "masterkey"
    let A := modPow g (2 : ℕ) N
    let B := serverPublic oneHashes (verifier x) 3
    let proof := clientProofSrp256 oneHashes "masterkey" "SYSDBA" [] A B (2 : ℕ)
    proof.S = serverSecret A (verifier x) (scramble oneHashes A B) 3 := by
  refine (secret_eq_iff oneHashes "SYSDBA" "masterkey" [] (a := 2) (by decide) 3).1.2 (Or.inl ?_)
  rw [userHash, scramble, bufToBig_sha1_oneHashes, bufToBig_sha1_oneHashes]
  decide

/-- The generator does not have order dividing `N`: by Fermat's theorem its `N`-th power is the
generator itself. -/
theorem g_pow_N : g ^ N.toNat ≡ g [ZMOD N] := by
  have h : (((2 : ℤ) ^ 0xE67D2E994B2F900C3F41F08F5BB2627ED0D49EE1FE767A52EFCD565CD6E768812C3E1E9CE8F0A8BEA6CB13CD29DDEBF7A96D4A93B55D488DF099A15C89DCB0640738EB2CBDD9A8F7BAB561AB1B0DC1C6CDABF303264A08D1BCA932D1F1EE428B619D970F342ABA9A65793B8B2F041AE5364350C16F735F56ECBCA87BD57B29E7 : ℤ) :
      ZMod 0xE67D2E994B2F900C3F41F08F5BB2627ED0D49EE1FE767A52EFCD565CD6E768812C3E1E9CE8F0A8BEA6CB13CD29DDEBF7A96D4A93B55D488DF099A15C89DCB0640738EB2CBDD9A8F7BAB561AB1B0DC1C6CDABF303264A08D1BCA932D1F1EE428B619D970F342ABA9A65793B8B2F041AE5364350C16F735F56ECBCA87BD57B29E7) =
        ((2 : ℤ) : ZMod _) := by
    rw [Int.cast_pow, Int.cast_ofNat]
    reduce_mod_char
  exact (ZMod.intCast_eq_intCast_iff _ _ _).1 h

/-- **The largest private key.** With `a = N - 1` and digests denoting `1` the exponent is exactly
`N`: the client raises to `0`, the server to `N`, and the secrets differ. -/
theorem secret_ne_of_largest_key :
    let x := userHash oneHashes "SYSDBA" [] "masterkey"
    let A := modPow g ((N.toNat - 1 : ℕ) : ℤ) N
    let B := serverPublic oneHashes (verifier x) 1
    let proof := clientProofSrp256 oneHashes "masterkey" "SYSDBA" [] A B ((N.toNat - 1 : ℕ) : ℤ)
    proof.S ≠ serverSecret A (verifier x) (scramble oneHashes A B) 1 := by
  intro x A B proof
  have hx : x = 1 := bufToBig_sha1_oneHashes _
  have hu : scramble oneHashes A B = 1 := bufToBig_sha1_oneHashes _
  have hclient : proof.S = g ^ (1 * ((N.toNat - 1 + 1 * 1) % N.toNat)) % N := by
    have h := clientProof_S_eq oneHashes "SYSDBA" "masterkey" [] (N.toNat - 1) 1 A
    simp only [bufToBig_sha1_oneHashes, userHash, scramble] at h
    exact h
  have hserver : serverSecret A (verifier x) (scramble oneHashes A B) 1 =
      g ^ (1 * (N.toNat - 1 + 1 * 1)) % N := by
    rw [hu, hx]
    exact serverSecret_eq (N.toNat - 1) 1 1 1
  have hsucc : N.toNat - 1 + 1 * 1 = N.toNat := by decide
  rw [hclient, hserver, hsucc, Nat.mod_self, mul_zero, pow_zero, one_mul, g_pow_N]
  decide

end FirebirdSamples.Srp
