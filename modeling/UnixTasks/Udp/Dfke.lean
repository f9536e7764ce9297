import UnixTasks.Lib.CChar

/-!
# dfke.c: the key exchange

Both ends raise the public key of the other end to their own secret power.  A public key is a `char`, so it may have
become negative, and `fmodl` of a negative power is negative again.  None of this matters for p = 256, the number of
values of a `char`: what a conversion to `char` takes away is a multiple of 256 (`keys_agree`).

`powl` and `fmodl` are exact here: the power of an integer, and the remainder with the sign of the dividend.
-/

namespace UnixTasks.Udp

/-- `(char)fmodl(powl(x, n), p)`. -/
def powMod (x : Int) (n : Nat) (p : Int) : CChar := BitVec.ofInt 8 ((x ^ n).tmod p)

def genOpenKeyServer (g : Int) (a : Nat) (p : Int) : CChar := powMod g a p

def genOpenKeyClient (g : Int) (b : Nat) (p : Int) : CChar := powMod g b p

def genCloseKeyServer (B : CChar) (a : Nat) (p : Int) : CChar := powMod B.toInt a p

def genCloseKeyClient (A : CChar) (b : Nat) (p : Int) : CChar := powMod A.toInt b p

/-- The remainder by 256, of either sign, is the same `char`. -/
private theorem ofInt_tmod (z : Int) : BitVec.ofInt 8 (z.tmod 256) = BitVec.ofInt 8 z := by
  have hdiv : z.tmod 256 = z - 256 * z.tdiv 256 := by
    have h := Int.mul_tdiv_add_tmod z 256
    omega
  apply BitVec.eq_of_toInt_eq
  rw [BitVec.toInt_ofInt, BitVec.toInt_ofInt, hdiv]
  exact Int.sub_mul_bmod_self_left z 256 _

private theorem ofInt_pow (x : Int) (n : Nat) : BitVec.ofInt 8 (x ^ n) = BitVec.ofInt 8 x ^ n := by
  induction n with
  | zero =>
    rw [pow_zero, pow_zero]
    rfl
  | succ n ih => rw [pow_succ, pow_succ, BitVec.ofInt_mul, ih]

private theorem powMod_256 (x : Int) (n : Nat) : powMod x n 256 = BitVec.ofInt 8 x ^ n := by
  rw [powMod, ofInt_tmod, ofInt_pow]

/-- For every base and all secret powers: the client and the server hold the same key. -/
theorem keys_agree (g a b : Nat) :
    genCloseKeyClient (genOpenKeyServer g a 256) b 256 = genCloseKeyServer (genOpenKeyClient g b 256) a 256 := by
  calc genCloseKeyClient (genOpenKeyServer g a 256) b 256
      = (BitVec.ofInt 8 g ^ a) ^ b := by
        rw [genCloseKeyClient, genOpenKeyServer, powMod_256, powMod_256, BitVec.ofInt_toInt]
    _ = (BitVec.ofInt 8 g ^ b) ^ a := by rw [← pow_mul, ← pow_mul, Nat.mul_comm]
    _ = genCloseKeyServer (genOpenKeyClient g b 256) a 256 := by
        rw [genCloseKeyServer, genOpenKeyClient, powMod_256, powMod_256, BitVec.ofInt_toInt]

/-- The numbers of `udp.c` and `client.c`: the key is an `a`. -/
example : genCloseKeyClient (genOpenKeyServer 23 4 256) 11 256 = CChar.chr 'a' := by decide

end UnixTasks.Udp
